import Mathlib.Logic.Function.Basic
import Mathlib.Data.List.Basic

/-!
# Intrusive linked lists

Nodes are named by addresses, and a store gives the successor of every node, `null` ending a list.
Several lists may lie in one store; an assignment to the successor of a node does not concern a list
the node is not on.

## Main definitions

* `LinkedList.IsList` — from an address, the store leads through exactly these nodes
* `LinkedList.walk` — the loop that visits the nodes of a list

## Main results

* `LinkedList.IsList.update`, `IsList.push`, `IsList.eq_or_exists_next`
* `LinkedList.walk_eq` — the loop ends, and visits the nodes in order
-/

namespace LinkedList

variable {α σ : Type} {next next' : α → α} {null p a : α} {l : List α}

/-- From `p`, the successors lead through the nodes `l` and end. -/
def IsList (next : α → α) (null : α) : α → List α → Prop
  | p, [] => p = null
  | p, a :: l => p = a ∧ a ≠ null ∧ IsList next null (next a) l

theorem isList_null (next : α → α) (null : α) : IsList next null null [] := rfl

theorem IsList.eq_null_iff (h : IsList next null p l) : p = null ↔ l = [] := by
  cases l with
  | nil => exact iff_of_true h rfl
  | cons a l =>
    obtain ⟨rfl, hne, -⟩ := h
    exact iff_of_false hne (List.cons_ne_nil p l)

/-- A list depends on the successors of its own nodes only. -/
theorem IsList.congr (h : IsList next null p l) (hnext : ∀ a ∈ l, next' a = next a) :
    IsList next' null p l := by
  induction l generalizing p with
  | nil => exact h
  | cons a l ih =>
    obtain ⟨rfl, hne, h⟩ := h
    refine ⟨rfl, hne, ?_⟩
    rw [hnext p List.mem_cons_self]
    exact ih h fun b hb => hnext b (List.mem_cons_of_mem p hb)

/-- Every node but the first is the successor of a node. -/
theorem IsList.eq_or_exists_next (h : IsList next null p l) (ha : a ∈ l) :
    a = p ∨ ∃ b ∈ l, next b = a := by
  induction l generalizing p with
  | nil => exact absurd ha List.not_mem_nil
  | cons b l ih =>
    obtain ⟨rfl, -, h⟩ := h
    rcases List.mem_cons.mp ha with rfl | ha
    · exact Or.inl rfl
    · rcases ih h ha with heq | ⟨c, hc, heq⟩
      · exact Or.inr ⟨p, List.mem_cons_self, heq.symm⟩
      · exact Or.inr ⟨c, List.mem_cons_of_mem _ hc, heq⟩

section update

variable [DecidableEq α]

theorem IsList.update (h : IsList next null p l) (ha : a ∉ l) (q : α) :
    IsList (Function.update next a q) null p l :=
  h.congr fun _ hb => Function.update_of_ne (ne_of_mem_of_not_mem hb ha) _ _

/-- A new node in front. -/
theorem IsList.push (h : IsList next null p l) (hne : a ≠ null) (ha : a ∉ l) :
    IsList (Function.update next a p) null a (a :: l) := by
  refine ⟨rfl, hne, ?_⟩
  rw [Function.update_self]
  exact h.update ha p

end update

section walk

variable [DecidableEq α] (next null)

/-- `while (p != null) { visit p; p = next p }`, for fewer than `fuel` nodes. -/
def walk (visit : σ → α → σ) : ℕ → σ → α → Option σ
  | 0, _, _ => none
  | fuel + 1, s, p => if p = null then some s else walk visit fuel (visit s p) (next p)

variable {next null}

/-- **The loop ends, and visits every node once and in order**, if it may run that long. -/
theorem walk_eq (visit : σ → α → σ) (h : IsList next null p l) {fuel : ℕ} (hfuel : l.length < fuel)
    (s : σ) : walk next null visit fuel s p = some (l.foldl visit s) := by
  induction l generalizing p s fuel with
  | nil =>
    obtain ⟨fuel, rfl⟩ := Nat.exists_eq_add_of_lt hfuel
    exact if_pos h
  | cons a l ih =>
    obtain ⟨rfl, hne, h⟩ := h
    cases fuel with
    | zero => exact absurd hfuel (Nat.not_lt_zero _)
    | succ fuel =>
      rw [walk, if_neg hne, List.foldl_cons]
      exact ih h (Nat.lt_of_succ_lt_succ hfuel) _

end walk

end LinkedList
