import Mathlib.Data.List.Perm.Basic
import Mathlib.Order.Lattice

/-!
# Exchange sort

The sort that compares every element with every later one and exchanges the two when they are out of
order. On lists a round is `bubble`: it carries the smallest key met so far through the rest, and
leaves behind whatever that was exchanged for. The order of elements with equal keys may change.

## Main definitions

* `ExchangeSort.bubble` — one round
* `ExchangeSort.sort`

## Main results

* `ExchangeSort.sort_perm`, `sort_pairwise`
-/

namespace ExchangeSort

variable {α β : Type} [LinearOrder β] (key : α → β)

/-- The element that ends up in front of the list, and the list afterwards. -/
def bubble : α → List α → α × List α
  | x, [] => (x, [])
  | x, y :: ys =>
    if key y < key x then ((bubble y ys).1, x :: (bubble y ys).2)
    else ((bubble x ys).1, y :: (bubble x ys).2)

variable {key}

theorem bubble_cons_of_lt {x y : α} (h : key y < key x) (ys : List α) :
    bubble key x (y :: ys) = ((bubble key y ys).1, x :: (bubble key y ys).2) := if_pos h

theorem bubble_cons_of_not_lt {x y : α} (h : ¬ key y < key x) (ys : List α) :
    bubble key x (y :: ys) = ((bubble key x ys).1, y :: (bubble key x ys).2) := if_neg h

theorem bubble_perm (x : α) (ys : List α) :
    ((bubble key x ys).1 :: (bubble key x ys).2).Perm (x :: ys) := by
  induction ys generalizing x with
  | nil => exact List.Perm.refl _
  | cons y ys ih =>
    by_cases h : key y < key x
    · rw [bubble_cons_of_lt h]
      exact (List.Perm.swap x _ _).trans ((ih y).cons x)
    · rw [bubble_cons_of_not_lt h]
      exact ((List.Perm.swap y _ _).trans ((ih x).cons y)).trans (List.Perm.swap x y ys)

theorem length_bubble (x : α) (ys : List α) : (bubble key x ys).2.length = ys.length :=
  Nat.succ.inj (bubble_perm x ys).length_eq

/-- The element in front has the smallest key. -/
theorem bubble_le (x : α) (ys : List α) :
    key (bubble key x ys).1 ≤ key x ∧ ∀ y ∈ ys, key (bubble key x ys).1 ≤ key y := by
  induction ys generalizing x with
  | nil => exact ⟨le_rfl, fun y hy => absurd hy List.not_mem_nil⟩
  | cons y ys ih =>
    by_cases h : key y < key x
    · rw [bubble_cons_of_lt h]
      obtain ⟨hle, hall⟩ := ih y
      exact ⟨hle.trans h.le, List.forall_mem_cons.mpr ⟨hle, hall⟩⟩
    · rw [bubble_cons_of_not_lt h]
      obtain ⟨hle, hall⟩ := ih x
      exact ⟨hle, List.forall_mem_cons.mpr ⟨hle.trans (not_lt.mp h), hall⟩⟩

variable (key)

def sort : List α → List α
  | [] => []
  | x :: xs => (bubble key x xs).1 :: sort (bubble key x xs).2
termination_by l => l.length
decreasing_by rw [length_bubble]; exact Nat.lt_succ_self _

@[simp] theorem sort_nil : sort key [] = [] := by rw [sort]

theorem sort_cons (x : α) (xs : List α) :
    sort key (x :: xs) = (bubble key x xs).1 :: sort key (bubble key x xs).2 := by rw [sort]

theorem sort_perm (l : List α) : (sort key l).Perm l := by
  induction l using sort.induct key with
  | case1 => rw [sort_nil]
  | case2 x xs ih =>
    rw [sort_cons]
    exact (ih.cons _).trans (bubble_perm x xs)

theorem sort_pairwise (l : List α) : (sort key l).Pairwise fun x y => key x ≤ key y := by
  induction l using sort.induct key with
  | case1 =>
    rw [sort_nil]
    exact List.Pairwise.nil
  | case2 x xs ih =>
    rw [sort_cons]
    refine List.Pairwise.cons (fun y hy => ?_) ih
    -- everything that is left after a round was there before it
    have hmem : y ∈ x :: xs := (bubble_perm x xs).mem_iff.mp
      (List.mem_cons_of_mem _ ((sort_perm key _).mem_iff.mp hy))
    rcases List.mem_cons.mp hmem with rfl | hy
    · exact (bubble_le y xs).1
    · exact (bubble_le x xs).2 y hy

end ExchangeSort
