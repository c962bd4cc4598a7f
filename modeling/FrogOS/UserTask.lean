import FrogOS.Lib.AffineOrbit
import Mathlib.Data.Rat.Floor

/-!
# The numbers of a user task

`user_task` of `init.c` draws the durations of its sleeps from a congruential generator. Its
variables are signed, and an overflow of a signed integer means nothing in C, so the arithmetic here
is that of the integers with a check after every operation. From a pid that the expression for the
first seed admits, no check ever fails.

The multiplier leaves the remainder 1 modulo 4, the increment is odd and the modulus is `2 ^ 30`, so
the seeds go through all residues before one comes again (`FrogOS.Lib.AffineOrbit`). The durations
are the seeds modulo 10000, which does not divide `2 ^ 30`: in a period the durations below 1824 are
drawn once more than the others.

## Main definitions

* `UserTask.firstSeed`, `nextSeed`, `wait` — the three expressions
* `UserTask.seedAfter` — the seed after a number of rounds

## Main results

* `UserTask.seedAfter_eq` — nothing overflows
* `UserTask.wait_uniform` — how often each duration is drawn
-/

namespace FrogOS

namespace UserTask

open AffineOrbit Finset

/-! ### The code -/

/-- The value of a signed expression of `w` bits, where there is one. -/
def signed (w : ℕ) (x : ℤ) : Option ℤ :=
  if -2 ^ (w - 1) ≤ x ∧ x < 2 ^ (w - 1) then some x else none

def A : ℤ := 1103515245
def C : ℤ := 12345
def MODULUS : ℤ := 2 ^ 30

/-- `(pid + 42) * 1000`, which is an `int`. -/
def firstSeed (pid : ℤ) : Option ℤ := do
  let t ← signed 32 (pid + 42)
  signed 32 (t * 1000)

/-- `(A * seed + C) % MODULUS`. -/
def nextSeed (seed : ℤ) : Option ℤ := do
  let t ← signed 64 (A * seed)
  let t ← signed 64 (t + C)
  some (t.tmod MODULUS)

/-- `int r = seed % 10000`. -/
def wait (seed : ℤ) : ℤ := seed.tmod 10000

/-- The seed after a number of rounds of the loop. -/
def seedAfter (pid : ℤ) : ℕ → Option ℤ
  | 0 => firstSeed pid
  | n + 1 => (seedAfter pid n).bind nextSeed

/-! ### The seeds -/

variable {pid x : ℤ} {n : ℕ}

theorem signed_eq {w : ℕ} (h : -2 ^ (w - 1) ≤ x) (h' : x < 2 ^ (w - 1)) : signed w x = some x :=
  if_pos ⟨h, h'⟩

/-- The pids whose first seed is a number that is not negative. -/
def Admissible (pid : ℤ) : Prop := -42 ≤ pid ∧ pid ≤ 2147441

theorem firstSeed_eq (h : Admissible pid) : firstSeed pid = some ((pid + 42) * 1000) := by
  obtain ⟨hle, hle'⟩ := h
  rw [firstSeed, signed_eq (by omega) (by omega)]
  exact signed_eq (by omega) (by omega)

/-- Any seed of 31 bits can be the next one's. -/
theorem nextSeed_eq (h : 0 ≤ x) (h' : x < 2 ^ 31) : nextSeed x = some (congruential A C 30 x) := by
  have hlt : A * x + C < 2 ^ 63 := by
    rw [A, C]
    omega
  have hle : 0 ≤ A * x := by
    rw [A]
    omega
  have hC : (0 : ℤ) ≤ C := by decide
  rw [nextSeed, signed_eq (by omega) (by omega), Option.bind_eq_bind, Option.bind_some,
    signed_eq (by omega) (by omega), Option.bind_some, Int.tmod_eq_emod_of_nonneg (by omega)]
  rfl

theorem seed_bounds (h : Admissible pid) (n : ℕ) :
    0 ≤ (congruential A C 30)^[n] ((pid + 42) * 1000) ∧
      (congruential A C 30)^[n] ((pid + 42) * 1000) < 2 ^ 31 := by
  obtain ⟨hle, hle'⟩ := h
  cases n with
  | zero =>
    rw [Function.iterate_zero, id]
    omega
  | succ n =>
    rw [Function.iterate_succ_apply']
    obtain ⟨h0, hlt⟩ := mem_Ico.mp (congruential_mem A C 30
      ((congruential A C 30)^[n] ((pid + 42) * 1000)))
    exact ⟨h0, hlt.trans (by decide)⟩

/-- Nothing overflows, in any round. -/
theorem seedAfter_eq (h : Admissible pid) (n : ℕ) :
    seedAfter pid n = some ((congruential A C 30)^[n] ((pid + 42) * 1000)) := by
  induction n with
  | zero => exact firstSeed_eq h
  | succ n ih =>
    rw [seedAfter, ih, Function.iterate_succ_apply']
    exact nextSeed_eq (seed_bounds h n).1 (seed_bounds h n).2

/-! ### The durations -/

/-- The duration that round `n` draws, counted from 1. -/
def waitOf (pid : ℤ) (n : ℕ) : ℤ := wait ((congruential A C 30)^[n] ((pid + 42) * 1000))

theorem wait_eq (h : 0 ≤ x) : wait x = x % 10000 := Int.tmod_eq_emod_of_nonneg h

theorem waitOf_succ_mem (pid : ℤ) (n : ℕ) : waitOf pid (n + 1) ∈ Ico 0 10000 := by
  rw [waitOf, Function.iterate_succ_apply']
  obtain ⟨h0, -⟩ := mem_Ico.mp (congruential_mem A C 30
    ((congruential A C 30)^[n] ((pid + 42) * 1000)))
  rw [wait_eq h0, mem_Ico]
  omega

/-- How many residues give a duration. -/
theorem card_wait {v : ℤ} (hv : v ∈ Ico 0 10000) :
    #{x ∈ Ico (0 : ℤ) (2 ^ 30) | wait x = v} = 107374 + if v < 1824 then 1 else 0 := by
  obtain ⟨h0, hlt⟩ := mem_Ico.mp hv
  have hfilter : {x ∈ Ico (0 : ℤ) (2 ^ 30) | wait x = v} =
      {x ∈ Ico (0 : ℤ) (2 ^ 30) | x ≡ v [ZMOD 10000]} := by
    refine filter_congr fun x hx => ?_
    rw [wait_eq (mem_Ico.mp hx).1, Int.ModEq, Int.emod_eq_of_lt h0 hlt]
  have hcard := Int.Ico_filter_modEq_card (0 : ℤ) (2 ^ 30) (show (0 : ℤ) < 10000 by decide) v
  have hceil : ∀ a : ℤ, ⌈((a : ℚ) - v) / (10000 : ℤ)⌉ = -((v - a) / 10000) := by
    intro a
    have h := Rat.ceil_intCast_div_natCast (a - v) 10000
    push_cast at h ⊢
    rw [h, neg_sub]
  rw [hceil, hceil] at hcard
  rw [hfilter]
  split <;> omega

/-- **What a user task draws**: from every admissible pid the loop goes on for ever without an
overflow. The durations are those from 0 to 9999, and in `2 ^ 30` rounds, from any one on, each of
them is drawn 107374 times, and those below 1824 once more. -/
theorem wait_uniform (h : Admissible pid) :
    ∃ seeds : ℕ → ℤ, (∀ n, seedAfter pid n = some (seeds n)) ∧
      (∀ n, wait (seeds (n + 1)) ∈ Ico 0 10000) ∧
      ∀ start, ∀ v ∈ Ico (0 : ℤ) 10000,
        #{i ∈ range (2 ^ 30) | wait (seeds (start + 1 + i)) = v} =
          107374 + if v < 1824 then 1 else 0 := by
  refine ⟨_, seedAfter_eq h, waitOf_succ_mem pid, fun start v hv => ?_⟩
  have hx := congruential_mem A C 30 ((congruential A C 30)^[start] ((pid + 42) * 1000))
  have hsplit : ∀ i, (congruential A C 30)^[start + 1 + i] ((pid + 42) * 1000) =
      (congruential A C 30)^[i]
        (congruential A C 30 ((congruential A C 30)^[start] ((pid + 42) * 1000))) := by
    intro i
    rw [add_comm, Function.iterate_add_apply, Function.iterate_succ_apply']
  simp only [hsplit]
  rw [card_filter_congruential (by decide) (by decide) hx fun x => wait x = v]
  exact card_wait hv

theorem wait_uniform_init :
    ∃ seeds : ℕ → ℤ, (∀ n, seedAfter 1 n = some (seeds n)) ∧
      (∀ n, wait (seeds (n + 1)) ∈ Ico 0 10000) ∧
      ∀ start, ∀ v ∈ Ico (0 : ℤ) 10000,
        #{i ∈ range (2 ^ 30) | wait (seeds (start + 1 + i)) = v} =
          107374 + if v < 1824 then 1 else 0 :=
  wait_uniform ⟨by decide, by decide⟩

end UserTask

end FrogOS
