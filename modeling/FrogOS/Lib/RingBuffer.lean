import Mathlib.Algebra.Group.Fin.Basic
import Mathlib.Data.Fin.Basic
import Mathlib.Data.List.Basic
import Mathlib.Tactic.Abel

/-!
# Ring buffers without a count

A ring of `N` slots with a head and a tail index, both advancing modulo `N`. The occupied segment
runs from the head up to, not including, the tail; there is no element count, so a ring whose tail
has caught up with its head reads as empty. Nothing stops that from happening: `Full` says when the
next `push` would.

Indices are `Fin N`, so `tail + 1` is the modular increment and no slot outside the array can be
named.

## Main definitions

* `RingBuffer.toList` — the occupied segment, oldest first
* `RingBuffer.store`, `advanceTail` — the two halves of an insertion, `push` both in turn
* `RingBuffer.advanceHead`, `front` — removal
* `RingBuffer.Full` — no insertion is possible any more without losing the whole segment
* `RingBuffer.Within` — the slots a segment covers

## Main results

* `RingBuffer.toList_push`, `toList_push_of_full`, `toList_eq_cons`
* `RingBuffer.within_iff`, `toList_congr` — for loops that run along the segment and write slots
-/

/-- A ring of `N` slots. -/
structure RingBuffer (α : Type) (N : ℕ) where
  slots : Fin N → α
  head : Fin N
  tail : Fin N

namespace RingBuffer

variable {α : Type} {N : ℕ}

/-- How many slots the segment from head to tail covers. -/
def size (r : RingBuffer α N) : ℕ := (r.tail - r.head).val

/-- Write the slot at the tail, without moving the tail. -/
def store (r : RingBuffer α N) (a : α) : RingBuffer α N :=
  { r with slots := Function.update r.slots r.tail a }

/-- The slot at the head, whether or not it is occupied. -/
def front (r : RingBuffer α N) : α := r.slots r.head

@[simp] theorem store_tail (r : RingBuffer α N) (a : α) : (r.store a).tail = r.tail := rfl
@[simp] theorem store_slots_tail (r : RingBuffer α N) (a : α) :
    (r.store a).slots r.tail = a := Function.update_self ..

theorem size_lt (r : RingBuffer α N) : r.size < N := (r.tail - r.head).isLt

/-- Every slot keeps a property that the written value has. -/
theorem forall_slots_store {p : α → Prop} {r : RingBuffer α N} {a : α} (hr : ∀ i, p (r.slots i))
    (ha : p a) (i : Fin N) : p ((r.store a).slots i) := by
  rcases eq_or_ne i r.tail with rfl | hi
  · simpa using ha
  · simpa [store, Function.update_of_ne hi] using hr i

variable [NeZero N]

/-- The occupied segment, oldest entry first. -/
def toList (r : RingBuffer α N) : List α :=
  (List.range r.size).map fun i => r.slots (r.head + Fin.ofNat N i)

/-- One more insertion makes the tail catch up with the head. -/
def Full (r : RingBuffer α N) : Prop := r.tail + 1 = r.head

instance (r : RingBuffer α N) : Decidable r.Full := inferInstanceAs (Decidable (_ = _))

def advanceTail (r : RingBuffer α N) : RingBuffer α N := { r with tail := r.tail + 1 }

def push (r : RingBuffer α N) (a : α) : RingBuffer α N := (r.store a).advanceTail

def advanceHead (r : RingBuffer α N) : RingBuffer α N := { r with head := r.head + 1 }

@[simp] theorem advanceTail_slots (r : RingBuffer α N) : r.advanceTail.slots = r.slots := rfl
@[simp] theorem advanceTail_head (r : RingBuffer α N) : r.advanceTail.head = r.head := rfl
@[simp] theorem advanceTail_tail (r : RingBuffer α N) : r.advanceTail.tail = r.tail + 1 := rfl
@[simp] theorem advanceHead_slots (r : RingBuffer α N) : r.advanceHead.slots = r.slots := rfl
@[simp] theorem advanceHead_head (r : RingBuffer α N) : r.advanceHead.head = r.head + 1 := rfl
@[simp] theorem advanceHead_tail (r : RingBuffer α N) : r.advanceHead.tail = r.tail := rfl

@[simp] theorem full_store {r : RingBuffer α N} {a : α} : (r.store a).Full ↔ r.Full := Iff.rfl

@[simp] theorem length_toList (r : RingBuffer α N) : r.toList.length = r.size := by
  simp [toList]

theorem toList_eq_nil_iff {r : RingBuffer α N} : r.toList = [] ↔ r.head = r.tail := by
  rw [← List.length_eq_zero_iff, length_toList, size, Fin.val_eq_zero_iff, sub_eq_zero, eq_comm]

/-! ### Sizes under the three movements -/

private theorem val_add_one {x : Fin N} (h : x.val + 1 < N) :
    (x + 1).val = x.val + 1 := by
  rw [Fin.val_add, Fin.val_one', Nat.add_mod_mod, Nat.mod_eq_of_lt h]

/-- A ring is full exactly when its segment covers all slots but one. -/
theorem full_iff_size {r : RingBuffer α N} : r.Full ↔ r.size + 1 = N := by
  have hlt := r.size_lt
  have hval : (r.tail - r.head + 1).val = (r.size + 1) % N := by
    rw [Fin.val_add, Fin.val_one', Nat.add_mod_mod, size]
  have hfull : r.Full ↔ (r.tail - r.head + 1).val = 0 := by
    rw [Full, Fin.val_eq_zero_iff, sub_add_eq_add_sub, sub_eq_zero]
  rw [hfull, hval]
  constructor
  · intro h
    by_contra hne
    rw [Nat.mod_eq_of_lt (by omega)] at h
    omega
  · intro h
    rw [h, Nat.mod_self]

theorem size_advanceTail {r : RingBuffer α N} (h : ¬ r.Full) :
    r.advanceTail.size = r.size + 1 := by
  have hlt := r.size_lt
  have hne : r.size + 1 ≠ N := fun hs => h (full_iff_size.mpr hs)
  rw [size, advanceTail_tail, advanceTail_head, add_sub_right_comm]
  exact val_add_one (show r.size + 1 < N by omega)

theorem size_eq_succ {r : RingBuffer α N} (h : r.head ≠ r.tail) :
    r.size = r.advanceHead.size + 1 := by
  have hpos : r.size ≠ 0 := by
    rw [size, Ne, Fin.val_eq_zero_iff, sub_eq_zero]
    exact h.symm
  have hlt := r.size_lt
  have hadd : r.tail - r.head = (r.tail - (r.head + 1)) + 1 := by abel
  have hval : (r.advanceHead.size + 1) % N = r.size := by
    rw [size, size, advanceHead_head, advanceHead_tail, hadd, Fin.val_add, Fin.val_one',
      Nat.add_mod_mod]
  have hlt' := r.advanceHead.size_lt
  rcases Nat.lt_or_ge (r.advanceHead.size + 1) N with hs | hs
  · rw [Nat.mod_eq_of_lt hs] at hval
    exact hval.symm
  · rw [show r.advanceHead.size + 1 = N by omega, Nat.mod_self] at hval
    exact absurd hval.symm hpos

/-! ### The segment as a list -/

private theorem head_add_size (r : RingBuffer α N) : r.head + Fin.ofNat N r.size = r.tail := by
  have : Fin.ofNat N r.size = r.tail - r.head := by
    rw [size]; exact Fin.ofNat_val_eq_self _
  rw [this]; abel

private theorem head_add_ne_tail {r : RingBuffer α N} {i : ℕ} (hi : i < r.size) :
    r.head + Fin.ofNat N i ≠ r.tail := by
  intro h
  have hlt := r.size_lt
  have hi' : Fin.ofNat N i = r.tail - r.head := by rw [← h]; abel
  have : i = r.size := by
    rw [size, ← hi', Fin.ofNat_eq_cast, Fin.val_natCast, Nat.mod_eq_of_lt (by omega)]
  omega

/-- The slot at the tail is outside the segment: writing it is invisible. -/
@[simp] theorem toList_store (r : RingBuffer α N) (a : α) : (r.store a).toList = r.toList := by
  have hsize : (r.store a).size = r.size := rfl
  rw [toList, toList, hsize]
  refine List.map_congr_left fun i hi => ?_
  exact Function.update_of_ne (head_add_ne_tail (List.mem_range.mp hi)) _ _

/-- Moving the tail publishes whatever the slot at the tail holds. -/
theorem toList_advanceTail {r : RingBuffer α N} (h : ¬ r.Full) :
    r.advanceTail.toList = r.toList ++ [r.slots r.tail] := by
  rw [toList, size_advanceTail h, List.range_succ, List.map_append, toList]
  simp only [advanceTail_slots, advanceTail_head, List.map_cons, List.map_nil, head_add_size]

theorem toList_push {r : RingBuffer α N} {a : α} (h : ¬ r.Full) :
    (r.push a).toList = r.toList ++ [a] := by
  rw [push, toList_advanceTail (fun hf => h (full_store.mp hf)), toList_store, store_tail,
    store_slots_tail]

/-- Inserting into a full ring loses the whole segment. -/
theorem toList_advanceTail_of_full {r : RingBuffer α N} (h : r.Full) :
    r.advanceTail.toList = [] :=
  toList_eq_nil_iff.mpr h.symm

theorem toList_push_of_full {r : RingBuffer α N} {a : α} (h : r.Full) : (r.push a).toList = [] :=
  toList_advanceTail_of_full (full_store.mpr h)

/-- A non-empty segment starts with the slot at the head. -/
theorem toList_eq_cons {r : RingBuffer α N} (h : r.head ≠ r.tail) :
    r.toList = r.front :: r.advanceHead.toList := by
  rw [toList, size_eq_succ h, List.range_succ_eq_map, List.map_cons, List.map_map, toList]
  refine congrArg₂ _ (by simp [front]) (List.map_congr_left fun i _ => ?_)
  have hsucc : Fin.ofNat N (i + 1) = Fin.ofNat N i + 1 := by
    ext
    rw [Fin.val_add, Fin.val_one', Fin.val_ofNat, Fin.val_ofNat, ← Nat.add_mod]
  have : r.head + Fin.ofNat N (i + 1) = r.head + 1 + Fin.ofNat N i := by
    rw [hsucc, add_assoc, add_comm 1]
  simp only [Function.comp_apply, Nat.succ_eq_add_one, advanceHead_slots, advanceHead_head, this]

/-! ### Which slots a segment covers -/

/-- The slot `p` lies in the segment from `i` up to `tail`. -/
def Within (tail i p : Fin N) : Prop := (p - i).val < (tail - i).val

theorem val_sub_eq_succ {i p : Fin N} (h : i ≠ p) : (p - i).val = (p - (i + 1)).val + 1 :=
  size_eq_succ (r := ⟨fun j => j, i, p⟩) h

theorem within_self {tail i : Fin N} (h : i ≠ tail) : Within tail i i := by
  rw [Within, sub_self, val_sub_eq_succ h]
  exact Nat.succ_pos _

theorem within_iff {tail i p : Fin N} (h : i ≠ tail) :
    Within tail i p ↔ p = i ∨ Within tail (i + 1) p := by
  rcases eq_or_ne i p with rfl | hp
  · exact iff_of_true (within_self h) (Or.inl rfl)
  · rw [Within, Within, val_sub_eq_succ h, val_sub_eq_succ hp, Nat.succ_lt_succ_iff]
    exact ⟨Or.inr, fun h => h.resolve_left hp.symm⟩

/-- The segment after a slot does not wrap around to it. -/
theorem not_within_succ (tail i : Fin N) : ¬ Within tail (i + 1) i := by
  have hpred : (i - (i + 1) + 1 : Fin N) = 0 := by abel
  have hlast : ((i - (i + 1)).val + 1) % N = 0 := by
    rw [← Nat.add_mod_mod, ← Fin.val_one', ← Fin.val_add, hpred, Fin.val_zero]
  have hlt := (i - (i + 1)).isLt
  have hlt' := (tail - (i + 1)).isLt
  have : (i - (i + 1)).val + 1 = N := by
    by_contra hne
    rw [Nat.mod_eq_of_lt (by omega)] at hlast
    omega
  rw [Within]
  omega

/-- The segment is determined by the slots it covers. -/
theorem toList_congr {r r' : RingBuffer α N} (hhead : r'.head = r.head) (htail : r'.tail = r.tail)
    (h : ∀ p, Within r.tail r.head p → r'.slots p = r.slots p) : r'.toList = r.toList := by
  rw [toList, toList, size, size, hhead, htail]
  refine List.map_congr_left fun i hi => h _ ?_
  have hi' : i < (r.tail - r.head).val := List.mem_range.mp hi
  rw [Within, add_sub_cancel_left, Fin.val_ofNat,
    Nat.mod_eq_of_lt (hi'.trans (r.tail - r.head).isLt)]
  exact hi'

end RingBuffer
