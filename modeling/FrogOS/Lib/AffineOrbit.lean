import Mathlib.Algebra.Ring.GeomSum
import Mathlib.Data.Int.CardIntervalMod
import Mathlib.Data.Int.ConditionallyCompleteOrder
import Mathlib.Data.Int.ModEq
import Mathlib.RingTheory.Int.Basic
import Mathlib.Logic.Function.Iterate
import Mathlib.Tactic.Ring

/-!
# Orbits of affine maps modulo a power of two

The map `x ↦ a * x + c` moves a number by `(a - 1) * x + c` in the first step, and in `n` steps by
this times `1 + a + ⋯ + a ^ (n - 1)`. If `a` leaves the remainder 1 modulo 4 and `c` is odd, the
first factor is odd, and the second one has as many factors of two as `n`. So modulo `2 ^ k` the map
comes back to where it was after a multiple of `2 ^ k` steps and not before, which is to say that it
goes through all residues in turn.

The factors of two of the sum are counted by halving `n`: an odd number of odd terms is odd, and of
an even number of terms the second half is `a ^ (n / 2)` times the first.

## Main definitions

* `AffineOrbit.affine`, `AffineOrbit.congruential` — the map, and the map modulo `2 ^ k`

## Main results

* `AffineOrbit.iterate_congruential_eq_self_iff` — when the orbit comes back
* `AffineOrbit.card_filter_congruential` — in a period, a property holds as often as among all
  residues
-/

namespace AffineOrbit

open Finset Function

variable {a c x : ℤ} {k m n : ℕ}

def affine (a c x : ℤ) : ℤ := a * x + c

def congruential (a c : ℤ) (k : ℕ) (x : ℤ) : ℤ := affine a c x % 2 ^ k

/-! ### The displacement -/

theorem iterate_affine_sub (a c x : ℤ) (n : ℕ) :
    (affine a c)^[n] x - x = (affine a c x - x) * ∑ i ∈ range n, a ^ i := by
  induction n with
  | zero => simp
  | succ n ih =>
    rw [iterate_succ_apply', geom_sum_succ]
    calc affine a c ((affine a c)^[n] x) - x
        = a * ((affine a c)^[n] x - x) + (affine a c x - x) := by rw [affine, affine]; ring
      _ = (affine a c x - x) * (a * ∑ i ∈ range n, a ^ i + 1) := by rw [ih]; ring

/-! ### Factors of two -/

theorem two_pow_dvd_mul_iff {u y : ℤ} (hu : Odd u) : 2 ^ k ∣ u * y ↔ 2 ^ k ∣ y :=
  ⟨(Int.isCoprime_two_left.mpr hu).pow_left.dvd_of_dvd_mul_left, (Dvd.dvd.mul_left · u)⟩

theorem two_dvd_geom_sum_iff (ha : Odd a) : 2 ∣ ∑ i ∈ range n, a ^ i ↔ 2 ∣ n := by
  induction n with
  | zero => simp
  | succ n ih =>
    have hodd : ¬ (2 : ℤ) ∣ a ^ n := by
      rw [← even_iff_two_dvd, Int.not_even_iff_odd]
      exact ha.pow
    rw [sum_range_succ]
    omega

theorem geom_sum_double (a : ℤ) (n : ℕ) :
    ∑ i ∈ range (2 * n), a ^ i = (1 + a ^ n) * ∑ i ∈ range n, a ^ i := by
  rw [two_mul, sum_range_add, add_mul, one_mul, mul_sum]
  simp only [pow_add]

/-- `1 + a ^ n` is twice an odd number. -/
theorem one_add_pow_eq (ha : a % 4 = 1) (n : ℕ) : ∃ u, Odd u ∧ 1 + a ^ n = 2 * u := by
  have hpow : a ^ n % 4 = 1 := by
    have hmod : a ^ n ≡ 1 ^ n [ZMOD 4] := Int.ModEq.pow n ha
    rwa [one_pow] at hmod
  exact ⟨(1 + a ^ n) / 2, Int.odd_iff.mpr (by omega), by omega⟩

/-- The sum has as many factors of two as the number of its terms. -/
theorem two_pow_dvd_geom_sum_iff (ha : a % 4 = 1) :
    2 ^ k ∣ ∑ i ∈ range n, a ^ i ↔ 2 ^ k ∣ n := by
  have hodd : Odd a := Int.odd_iff.mpr (by omega)
  induction k generalizing n with
  | zero => simp
  | succ k ih =>
    obtain ⟨m, hm⟩ := Nat.even_or_odd' n
    obtain rfl | rfl := hm
    · obtain ⟨u, hu, hsum⟩ := one_add_pow_eq ha m
      rw [geom_sum_double, hsum, mul_assoc, pow_succ', pow_succ',
        mul_dvd_mul_iff_left two_ne_zero, two_pow_dvd_mul_iff hu,
        Nat.mul_dvd_mul_iff_left two_pos]
      exact ih
    · have hsum := (two_dvd_geom_sum_iff (n := 2 * m + 1) hodd).not.mpr (by omega)
      exact iff_of_false (mt (dvd_pow_self 2 k.succ_ne_zero).trans hsum)
        (mt (dvd_pow_self 2 k.succ_ne_zero).trans (by omega))

theorem two_pow_dvd_iterate_affine_sub_iff (ha : a % 4 = 1) (hc : Odd c) :
    2 ^ k ∣ (affine a c)^[n] x - x ↔ 2 ^ k ∣ n := by
  have hodd : Odd (affine a c x - x) := by
    have heven : Even (a - 1) := Int.even_iff.mpr (by omega)
    have heq : affine a c x - x = (a - 1) * x + c := by rw [affine]; ring
    exact heq ▸ (heven.mul_right x).add_odd hc
  rw [iterate_affine_sub, two_pow_dvd_mul_iff hodd, two_pow_dvd_geom_sum_iff ha]

/-! ### The orbit of residues -/

theorem iterate_congruential_modEq (a c : ℤ) (k : ℕ) (x : ℤ) (n : ℕ) :
    (congruential a c k)^[n] x ≡ (affine a c)^[n] x [ZMOD 2 ^ k] := by
  induction n with
  | zero => rfl
  | succ n ih =>
    rw [iterate_succ_apply', iterate_succ_apply', congruential]
    exact (Int.mod_modEq _ _).trans ((ih.mul_left a).add_right c)

theorem congruential_mem (a c : ℤ) (k : ℕ) (x : ℤ) : congruential a c k x ∈ Ico 0 (2 ^ k) :=
  mem_Ico.mpr ⟨Int.emod_nonneg _ (by positivity), Int.emod_lt_of_pos _ (by positivity)⟩

theorem iterate_congruential_mem (hx : x ∈ Ico 0 (2 ^ k)) (n : ℕ) :
    (congruential a c k)^[n] x ∈ Ico 0 (2 ^ k) := by
  cases n with
  | zero => exact hx
  | succ n =>
    rw [iterate_succ_apply']
    exact congruential_mem a c k _

theorem eq_of_modEq {x y : ℤ} (hx : x ∈ Ico 0 (2 ^ k)) (hy : y ∈ Ico 0 (2 ^ k))
    (h : x ≡ y [ZMOD 2 ^ k]) : x = y := by
  rw [mem_Ico] at hx hy
  rw [Int.ModEq, Int.emod_eq_of_lt hx.1 hx.2, Int.emod_eq_of_lt hy.1 hy.2] at h
  exact h

/-- A residue comes again after a multiple of `2 ^ k` steps, and not before. -/
theorem iterate_congruential_eq_self_iff (ha : a % 4 = 1) (hc : Odd c) (hx : x ∈ Ico 0 (2 ^ k)) :
    (congruential a c k)^[n] x = x ↔ 2 ^ k ∣ n := by
  rw [← two_pow_dvd_iterate_affine_sub_iff ha hc (x := x), ← Int.modEq_iff_dvd]
  have hmod := iterate_congruential_modEq a c k x n
  refine ⟨fun h => ?_, fun h => eq_of_modEq (iterate_congruential_mem hx n) hx (hmod.trans h.symm)⟩
  rw [h] at hmod
  exact hmod

theorem iterate_congruential_injOn (ha : a % 4 = 1) (hc : Odd c) (hx : x ∈ Ico 0 (2 ^ k)) :
    Set.InjOn (fun i => (congruential a c k)^[i] x) (range (2 ^ k)) := by
  -- Of two indices the smaller one is left out, since the orbit goes on from where it is there.
  have hlt : ∀ i < 2 ^ k, ∀ j < 2 ^ k, i ≤ j →
      (congruential a c k)^[i] x = (congruential a c k)^[j] x → i = j := by
    intro i _ j hj hij h
    obtain ⟨d, rfl⟩ := Nat.exists_eq_add_of_le hij
    rw [add_comm, iterate_add_apply] at h
    have hd := (iterate_congruential_eq_self_iff ha hc (iterate_congruential_mem hx i)).mp h.symm
    have hzero := Nat.eq_zero_of_dvd_of_lt hd (by omega)
    omega
  intro i hi j hj h
  rw [coe_range, Set.mem_Iio] at hi hj
  obtain hij | hji := le_total i j
  · exact hlt i hi j hj hij h
  · exact (hlt j hj i hi hji h.symm).symm

/-- In a period the orbit goes through all residues. -/
theorem image_iterate_congruential (ha : a % 4 = 1) (hc : Odd c) (hx : x ∈ Ico 0 (2 ^ k)) :
    (range (2 ^ k)).image (fun i => (congruential a c k)^[i] x) = Ico 0 (2 ^ k) := by
  refine eq_of_subset_of_card_le (image_subset_iff.mpr fun i _ => iterate_congruential_mem hx i) ?_
  rw [card_image_of_injOn (iterate_congruential_injOn ha hc hx), card_range, Int.card_Ico, sub_zero]
  exact (Int.toNat_natCast (2 ^ k)).le

theorem card_filter_congruential (ha : a % 4 = 1) (hc : Odd c) (hx : x ∈ Ico 0 (2 ^ k))
    (p : ℤ → Prop) [DecidablePred p] :
    #{i ∈ range (2 ^ k) | p ((congruential a c k)^[i] x)} = #{v ∈ Ico (0 : ℤ) (2 ^ k) | p v} := by
  rw [← image_iterate_congruential ha hc hx, filter_image, card_image_of_injOn]
  exact (iterate_congruential_injOn ha hc hx).mono (filter_subset _ _)

end AffineOrbit
