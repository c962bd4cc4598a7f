import FrogOS.Lib.ByteMemory

/-!
# Division without a division instruction

`__udivmoddi4` of `lib/gcc.c`, which the compiler calls for a 64-bit division it cannot do in one
instruction. The denominator is shifted to the left margin, and then subtracted where it fits on its
way back; `qbit` is the place it has come from.

The whole is one loop invariant over the number `j` of places that are left: the denominator is
`den * 2 ^ j`, what has been subtracted is the quotient so far times the denominator, and the rest
is smaller than the denominator one place higher.

## Main definitions

* `udivmoddi4` — `__udivmoddi4`

## Main results

* `udivmoddi4_eq` — the quotient and the remainder, unless the denominator is zero
-/

namespace FrogOS

open ByteMemory

namespace Udivmoddi4

/-- `while ((int64_t)den >= 0)`. -/
def justify : ℕ → BitVec 64 → BitVec 64 → Option (BitVec 64 × BitVec 64)
  | 0, _, _ => none
  | fuel + 1, den, qbit =>
    if den.toInt ≥ 0 then justify fuel (den <<< 1) (qbit <<< 1) else some (den, qbit)

/-- `while (qbit)`: the quotient and what is left of the numerator. -/
def subtract : ℕ → BitVec 64 → BitVec 64 → BitVec 64 → BitVec 64 →
    Option (BitVec 64 × BitVec 64)
  | 0, _, _, _, _ => none
  | fuel + 1, num, den, quot, qbit =>
    if qbit = 0 then some (quot, num)
    else if den ≤ num then subtract fuel (num - den) (den >>> 1) (quot + qbit) (qbit >>> 1)
    else subtract fuel num (den >>> 1) quot (qbit >>> 1)

end Udivmoddi4

open Udivmoddi4

/-- `__udivmoddi4`. A zero denominator is divided by, which is undefined in C: the comment in the
source wants a fault, while a compiler that optimizes may let the function return anything. -/
def udivmoddi4 (fuel : ℕ) (num den : BitVec 64) (remP : ℕ) (m : ByteMemory) :
    Option (BitVec 64 × ByteMemory) :=
  if den = 0 then none
  else do
    let (den, qbit) ← justify fuel den 1
    let (quot, num) ← subtract fuel num den 0 qbit
    some (quot, if remP ≠ 0 then store64 m remP num else m)

namespace Udivmoddi4

variable {num den quot qbit : BitVec 64} {d n j fuel : ℕ}

/-! ### The shifts -/

theorem toNat_shiftLeft_one (h : den.toNat < 2 ^ 63) : (den <<< 1).toNat = 2 * den.toNat := by
  rw [BitVec.toNat_shiftLeft, Nat.shiftLeft_eq, Nat.mod_eq_of_lt (by omega)]
  omega

theorem toNat_ushiftRight_one : (den >>> 1).toNat = den.toNat / 2 := by
  rw [BitVec.toNat_ushiftRight, Nat.shiftRight_eq_div_pow]

theorem toInt_nonneg_iff : den.toInt ≥ 0 ↔ den.toNat < 2 ^ 63 := by
  rw [BitVec.toInt_eq_toNat_cond]
  split <;> omega

/-! ### The first loop -/

/-- The denominator arrives at the left margin, and `qbit` counts the places. -/
theorem justify_eq (fuel : ℕ) (hd : d ≠ 0) (hj : j < 64) (hden : den.toNat = d * 2 ^ j)
    (hqbit : qbit.toNat = 2 ^ j) (hfuel : 64 ≤ fuel + j) :
    ∃ j' < 64, ∃ den' qbit', justify fuel den qbit = some (den', qbit') ∧
      den'.toNat = d * 2 ^ j' ∧ qbit'.toNat = 2 ^ j' ∧ 2 ^ 63 ≤ den'.toNat := by
  induction fuel generalizing j den qbit with
  | zero => omega
  | succ fuel ih =>
    rw [justify]
    by_cases hlt : den.toNat < 2 ^ 63
    · rw [if_pos (toInt_nonneg_iff.mpr hlt)]
      have hpow : 2 ^ j < 2 ^ 63 :=
        (Nat.le_mul_of_pos_left _ (Nat.pos_of_ne_zero hd)).trans_lt (hden ▸ hlt)
      have hj' : j < 63 := (Nat.pow_lt_pow_iff_right (by decide)).mp hpow
      refine ih (j := j + 1) (by omega) ?_ ?_ (by omega)
      · rw [toNat_shiftLeft_one hlt, hden, pow_succ]
        ring
      · rw [toNat_shiftLeft_one (hqbit ▸ hpow), hqbit, pow_succ]
        ring
    · rw [if_neg (mt toInt_nonneg_iff.mp hlt)]
      exact ⟨j, hj, den, qbit, rfl, hden, hqbit, not_lt.mp hlt⟩

/-! ### The second loop -/

/-- What holds of the second loop with `j` places done with and below: the quotient so far and the
rest make up `n`, and the rest is less than the denominator was before its last shift. -/
structure Rest (d n j : ℕ) (num quot : BitVec 64) : Prop where
  sum : quot.toNat * d + num.toNat = n
  lt : num.toNat < d * 2 ^ j

/-- Where the denominator fits, it is taken off, and its place is set in the quotient. -/
theorem Rest.take (h : Rest d n (j + 1) num quot) (hd : d ≠ 0) (hn : n < 2 ^ 64)
    (hden : den.toNat = d * 2 ^ j) (hqbit : qbit.toNat = 2 ^ j) (hle : den ≤ num) :
    Rest d n j (num - den) (quot + qbit) := by
  have hsum := h.sum
  have hlt : num.toNat < 2 * (d * 2 ^ j) := by
    calc num.toNat < d * 2 ^ (j + 1) := h.lt
      _ = 2 * (d * 2 ^ j) := by ring
  have hle' : d * 2 ^ j ≤ num.toNat := hden ▸ hle
  have hsub : (num - den).toNat = num.toNat - d * 2 ^ j := by
    rw [BitVec.toNat_sub_of_le hle, hden]
  have hkeep : (quot.toNat + 2 ^ j) * d + (num.toNat - d * 2 ^ j) = n := by
    have hexp : (quot.toNat + 2 ^ j) * d = quot.toNat * d + d * 2 ^ j := by ring
    omega
  have hquot : quot.toNat + 2 ^ j < 2 ^ 64 := by
    have hmul := Nat.le_mul_of_pos_right (quot.toNat + 2 ^ j) (Nat.pos_of_ne_zero hd)
    omega
  refine ⟨?_, by omega⟩
  rw [hsub, BitVec.toNat_add, hqbit, Nat.mod_eq_of_lt hquot, hkeep]

/-- One round. -/
theorem subtract_succ (fuel : ℕ) (h : Rest d n (j + 1) num quot) (hd : d ≠ 0) (hn : n < 2 ^ 64)
    (hden : den.toNat = d * 2 ^ j) (hqbit : qbit.toNat = 2 ^ j) :
    ∃ quot' num', subtract (fuel + 1) num den quot qbit =
      subtract fuel num' (den >>> 1) quot' (qbit >>> 1) ∧ Rest d n j num' quot' := by
  have hqbit0 : qbit ≠ 0 := by
    rintro rfl
    exact (Nat.two_pow_pos j).ne hqbit
  rw [subtract, if_neg hqbit0]
  by_cases hle : den ≤ num
  · exact ⟨_, _, if_pos hle, h.take hd hn hden hqbit hle⟩
  · have hlt : num.toNat < den.toNat := not_le.mp hle
    exact ⟨_, _, if_neg hle, h.sum, hden ▸ hlt⟩

/-- The loop with `j + 1` places to go. -/
theorem subtract_eq (h : Rest d n (j + 1) num quot) (hd : d ≠ 0) (hn : n < 2 ^ 64)
    (hden : den.toNat = d * 2 ^ j) (hqbit : qbit.toNat = 2 ^ j) (hfuel : j + 1 < fuel) :
    ∃ quot' num', subtract fuel num den quot qbit = some (quot', num') ∧
      Rest d n 0 num' quot' := by
  induction j generalizing num den quot qbit fuel with
  | zero =>
    obtain ⟨fuel, rfl⟩ : ∃ k, fuel = k + 2 := ⟨fuel - 2, by omega⟩
    obtain ⟨quot', num', hround, h'⟩ := subtract_succ (fuel + 1) h hd hn hden hqbit
    have hlast : qbit >>> 1 = 0 := BitVec.eq_of_toNat_eq (by rw [toNat_ushiftRight_one, hqbit]; rfl)
    refine ⟨quot', num', ?_, h'⟩
    rw [hround, subtract, if_pos hlast]
  | succ j ih =>
    obtain ⟨fuel, rfl⟩ : ∃ k, fuel = k + 1 := ⟨fuel - 1, by omega⟩
    obtain ⟨quot', num', hround, h'⟩ := subtract_succ fuel h hd hn hden hqbit
    rw [hround]
    refine ih h' ?_ ?_ (by omega)
    · rw [toNat_ushiftRight_one, hden, pow_succ, ← mul_assoc, Nat.mul_div_cancel _ two_pos]
    · rw [toNat_ushiftRight_one, hqbit, pow_succ, Nat.mul_div_cancel _ two_pos]

end Udivmoddi4

/-! ### The function -/

section

variable {num den : BitVec 64} {remP fuel : ℕ} {m : ByteMemory}

/-- `__udivmoddi4` returns the quotient and stores the remainder where it is told to, if anywhere,
within 65 rounds of each loop; with a zero denominator it is undefined. -/
theorem udivmoddi4_eq (hfuel : 66 ≤ fuel) :
    udivmoddi4 fuel num den remP m =
      if den = 0 then none
      else some (num / den, if remP = 0 then m else store64 m remP (num % den)) := by
  rw [udivmoddi4]
  by_cases hden : den = 0
  · rw [if_pos hden, if_pos hden]
  rw [if_neg hden, if_neg hden]
  have hd : den.toNat ≠ 0 := fun h => hden (BitVec.eq_of_toNat_eq h)
  have hone : (1 : BitVec 64).toNat = 2 ^ 0 := rfl
  obtain ⟨j, hj, den', qbit', hjustify, hden', hqbit', hmargin⟩ :=
    justify_eq fuel hd (by decide) (by rw [pow_zero, mul_one]) hone (by omega)
  have hstart : Rest den.toNat num.toNat (j + 1) num 0 := by
    refine ⟨by simp, ?_⟩
    calc num.toNat < 2 * 2 ^ 63 := num.isLt
      _ ≤ 2 * (den.toNat * 2 ^ j) := by omega
      _ = den.toNat * 2 ^ (j + 1) := by ring
  obtain ⟨quot, rest, hsubtract, hrest⟩ :=
    subtract_eq hstart hd num.isLt hden' hqbit' (show j + 1 < fuel by omega)
  have hlt : rest.toNat < den.toNat := by simpa using hrest.lt
  have hquot : quot = num / den := BitVec.eq_of_toNat_eq <| by
    rw [BitVec.toNat_udiv, ← hrest.sum]
    rw [mul_comm, Nat.mul_add_div (Nat.pos_of_ne_zero hd), Nat.div_eq_of_lt hlt, add_zero]
  have hmod : rest = num % den := BitVec.eq_of_toNat_eq <| by
    rw [BitVec.toNat_umod, ← hrest.sum, mul_comm, Nat.mul_add_mod, Nat.mod_eq_of_lt hlt]
  rw [hjustify]
  simp only [Option.bind_eq_bind, Option.bind_some, hsubtract, hquot, hmod, ite_not]

/-- The largest numerator. -/
theorem udivmoddi4_eq_largest :
    udivmoddi4 66 (-1) 10 0 (fun _ => 0) = some (0x1999999999999999, fun _ => 0) := by
  rw [udivmoddi4_eq (by decide), if_neg (by decide)]
  rfl

end

end FrogOS
