import Mathlib.Data.List.Induction
import Mathlib.Logic.Function.Basic

/-!
# Tables filled slot by slot

A table is a function from slots to entries. A sequence of calls, each of which overwrites one slot,
leaves in a slot what the last call on it wrote, and leaves the slot alone when there was none.

## Main definitions

* `SlotTable.writes` — the table after a sequence of calls
* `SlotTable.lastAt` — the last call on a slot

## Main results

* `SlotTable.writes_apply`
-/

namespace SlotTable

variable {ι β γ : Type} [DecidableEq ι] (slot : γ → ι) (entry : γ → β)

/-- The table after the calls in order. -/
def writes (table : ι → β) (calls : List γ) : ι → β :=
  calls.foldl (fun table c => Function.update table (slot c) (entry c)) table

/-- The last of the calls on slot `i`. -/
def lastAt (i : ι) (calls : List γ) : Option γ :=
  (calls.filter fun c => slot c = i).getLast?

variable {slot entry}

theorem writes_concat (table : ι → β) (calls : List γ) (c : γ) :
    writes slot entry table (calls ++ [c])
      = Function.update (writes slot entry table calls) (slot c) (entry c) := by
  rw [writes, List.foldl_append]
  rfl

theorem lastAt_concat_self (calls : List γ) (c : γ) :
    lastAt slot (slot c) (calls ++ [c]) = some c := by
  rw [lastAt, List.filter_append, List.filter_cons_of_pos (by simp), List.filter_nil,
    List.getLast?_concat]

theorem lastAt_concat_of_ne {i : ι} {c : γ} (h : i ≠ slot c) (calls : List γ) :
    lastAt slot i (calls ++ [c]) = lastAt slot i calls := by
  rw [lastAt, List.filter_append, List.filter_cons_of_neg (by simpa using h.symm), List.filter_nil,
    List.append_nil, lastAt]

/-- **The last call on a slot wins.** -/
theorem writes_apply (table : ι → β) (calls : List γ) (i : ι) :
    writes slot entry table calls i = (lastAt slot i calls).elim (table i) entry := by
  induction calls using List.reverseRecOn with
  | nil => rfl
  | append_singleton calls c ih =>
    rw [writes_concat]
    rcases eq_or_ne i (slot c) with rfl | h
    · rw [Function.update_self, lastAt_concat_self, Option.elim_some]
    · rw [Function.update_of_ne h, lastAt_concat_of_ne h, ih]

end SlotTable
