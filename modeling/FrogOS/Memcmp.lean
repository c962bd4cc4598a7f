import FrogOS.Lib.ByteMemory

/-!
# Comparing memory

`memcmp` runs `repe cmpsb`, which stops after the first pair of bytes that differ, and returns
whether the zero flag is set. The flag is set exactly if all pairs are equal, so the function is a
test for equality. The C function of this name returns zero for equal bytes.

## Main definitions

* `memcmp`
* `ComparesBytes` — the result the C standard asks for

## Main results

* `memcmp_eq_ite` — the result
* `not_comparesBytes_memcmp` — it is never the one that is asked for
-/

namespace FrogOS

open ByteMemory

/-- `setz`. -/
def setz (zf : Bool) : BitVec 8 := if zf then 1 else 0

/-- `memcmp`. The comparison of `ecx` with itself, before the loop, sets the zero flag. -/
def memcmp (m : ByteMemory) (s1 s2 n : ℕ) : ℤ := ((setz (repeCmpsb m true s1 s2 n)).toNat : ℤ)

/-- The sign of `result` is that of the difference of the first two bytes that differ, as unsigned
values, and `result` is zero exactly if there are none. -/
structure ComparesBytes (m : ByteMemory) (s1 s2 n : ℕ) (result : ℤ) : Prop where
  eq_zero_iff : result = 0 ↔ ∀ i < n, m (s1 + i) = m (s2 + i)
  neg_of_lt : ∀ i < n, (∀ j < i, m (s1 + j) = m (s2 + j)) → m (s1 + i) < m (s2 + i) → result < 0
  pos_of_gt : ∀ i < n, (∀ j < i, m (s1 + j) = m (s2 + j)) → m (s2 + i) < m (s1 + i) → 0 < result

/-- A test for equality. -/
theorem memcmp_eq_ite (m : ByteMemory) (s1 s2 n : ℕ) :
    memcmp m s1 s2 n = if ∀ i < n, m (s1 + i) = m (s2 + i) then 1 else 0 := by
  rw [memcmp, setz]
  by_cases h : ∀ i < n, m (s1 + i) = m (s2 + i)
  · rw [if_pos (repeCmpsb_eq_true_iff.mpr h), if_pos h]
    rfl
  · rw [if_neg fun hz => h (repeCmpsb_eq_true_iff.mp hz), if_neg h]
    rfl

/-- **The result is wrong for all arrays**: equal bytes give one, different ones zero. -/
theorem not_comparesBytes_memcmp (m : ByteMemory) (s1 s2 n : ℕ) :
    ¬ ComparesBytes m s1 s2 n (memcmp m s1 s2 n) := by
  intro hc
  have hiff := hc.eq_zero_iff
  rw [memcmp_eq_ite] at hiff
  by_cases h : ∀ i < n, m (s1 + i) = m (s2 + i)
  · rw [if_pos h] at hiff
    exact absurd (hiff.mpr h) one_ne_zero
  · rw [if_neg h] at hiff
    exact h (hiff.mp rfl)

/-- Two arrays that hold one byte each, and the same one. -/
theorem not_comparesBytes_singleton :
    ¬ ∀ (m : ByteMemory) (s1 s2 n : ℕ), ComparesBytes m s1 s2 n (memcmp m s1 s2 n) := by
  intro hall
  have hzero : memcmp (fun _ => 7) 0 16 1 = 0 :=
    (hall (fun _ => 7) 0 16 1).eq_zero_iff.mpr fun _ _ => rfl
  exact absurd hzero (by decide)

end FrogOS
