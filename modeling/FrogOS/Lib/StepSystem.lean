import Mathlib.Data.Nat.Notation
import Mathlib.Data.Option.Basic
import Mathlib.Logic.Basic

/-!
# Runs of a partial step function

A machine is given by a step function `step : σ → ε → Option σ`: the state after an event, or
`none` when the event cannot happen in that state. A run is a list of events, every one of them
enabled when its turn comes.

A law about runs is hardly ever unconditional. `Along` carries the condition: it says that every
step of a run is taken from a state, and on an event, that a predicate allows. The one induction
over runs is `invariant_of_along`; everything else instantiates it.

## Main definitions

* `StepSystem.run` — the state at the end of a run
* `StepSystem.Along` — every step of a run meets a condition

## Main results

* `StepSystem.invariant_of_along` — what every allowed step keeps, every allowed run keeps
* `StepSystem.along_iff_of_safe` — a condition is exact as soon as its first failure is visible
* `StepSystem.exists_run_of_variant` — a measure that every step lowers leads to a final state
-/

namespace StepSystem

variable {σ ε : Type} {step : σ → ε → Option σ} {P : σ → ε → Prop} {s s' : σ} {es : List ε}

/-- The state reached by the events in order, provided every one of them is enabled. -/
def run (step : σ → ε → Option σ) : σ → List ε → Option σ
  | s, [] => some s
  | s, e :: es => (step s e).bind fun t => run step t es

/-- Every step of the run is allowed by `P`. A run that stops early is only asked about the
steps it takes, and about the event it stops at. -/
def Along (step : σ → ε → Option σ) (P : σ → ε → Prop) : σ → List ε → Prop
  | _, [] => True
  | s, e :: es => P s e ∧ ∀ t, step s e = some t → Along step P t es

@[simp] theorem run_nil (s : σ) : run step s [] = some s := rfl

theorem run_cons_eq_some {e : ε} :
    run step s (e :: es) = some s' ↔ ∃ t, step s e = some t ∧ run step t es = some s' :=
  Option.bind_eq_some_iff

theorem along_cons {e : ε} :
    Along step P s (e :: es) ↔ P s e ∧ ∀ t, step s e = some t → Along step P t es :=
  Iff.rfl

theorem run_append (s : σ) (es fs : List ε) :
    run step s (es ++ fs) = (run step s es).bind fun t => run step t fs := by
  induction es generalizing s with
  | nil => rfl
  | cons e es ih =>
    rw [List.cons_append, run, run, Option.bind_assoc]
    exact congrArg _ (funext fun t => ih t)

/-- A condition that can be decided at each step can be decided of a run. -/
instance decidableAlong [∀ s e, Decidable (P s e)] :
    ∀ (s : σ) (es : List ε), Decidable (Along step P s es)
  | _, [] => isTrue trivial
  | s, e :: es =>
    match h : step s e with
    | none => decidable_of_iff (P s e)
        ⟨fun hP => ⟨hP, fun _ ht => absurd (h.symm.trans ht) (Option.some_ne_none _).symm⟩,
          And.left⟩
    | some t =>
      have := decidableAlong t es
      decidable_of_iff (P s e ∧ Along step P t es)
        ⟨fun ⟨hP, ha⟩ => ⟨hP, fun _ ht => Option.some.inj (h.symm.trans ht) ▸ ha⟩,
          fun ⟨hP, ha⟩ => ⟨hP, ha t h⟩⟩

/-- The part of a run that follows its first events. -/
theorem Along.of_append {fs : List ε} (h : Along step P s (es ++ fs))
    (hr : run step s es = some s') : Along step P s' fs := by
  induction es generalizing s with
  | nil => rw [run_nil, Option.some_inj] at hr; exact hr ▸ h
  | cons e es ih =>
    obtain ⟨t, ht, hr⟩ := run_cons_eq_some.mp hr
    exact ih (h.2 t ht) hr

theorem Along.append {fs : List ε} (h : Along step P s es) (hr : run step s es = some s')
    (h' : Along step P s' fs) : Along step P s (es ++ fs) := by
  induction es generalizing s with
  | nil => rw [run_nil, Option.some_inj] at hr; exact hr ▸ h'
  | cons e es ih =>
    obtain ⟨t, ht, hr⟩ := run_cons_eq_some.mp hr
    refine ⟨h.1, fun u hu => ?_⟩
    obtain rfl := Option.some.inj (ht.symm.trans hu)
    exact ih (h.2 t ht) hr

/-- A condition on events alone. -/
theorem along_of_forall_mem (h : ∀ e ∈ es, ∀ s, P s e) : Along step P s es := by
  induction es generalizing s with
  | nil => trivial
  | cons e es ih =>
    exact ⟨h e List.mem_cons_self s, fun t _ => ih fun e' he' => h e' (List.mem_cons_of_mem e he')⟩

/-- **The induction rule.** A property of states that holds at the start, and that every allowed
step keeps, holds at the end of every allowed run. -/
theorem invariant_of_along (Inv : σ → Prop)
    (hstep : ∀ s e t, Inv s → P s e → step s e = some t → Inv t) (h₀ : Inv s)
    (ha : Along step P s es) (hr : run step s es = some s') : Inv s' := by
  induction es generalizing s with
  | nil => rw [run_nil, Option.some_inj] at hr; exact hr ▸ h₀
  | cons e es ih =>
    obtain ⟨t, ht, hr⟩ := run_cons_eq_some.mp hr
    exact ih (hstep s e t h₀ ha.1 ht) (ha.2 t ht) hr

/-- The same without a condition on the steps. -/
theorem invariant_of_run (Inv : σ → Prop)
    (hstep : ∀ s e t, Inv s → step s e = some t → Inv t) (h₀ : Inv s)
    (hr : run step s es = some s') : Inv s' := by
  induction es generalizing s with
  | nil => rw [run_nil, Option.some_inj] at hr; exact hr ▸ h₀
  | cons e es ih =>
    obtain ⟨t, ht, hr⟩ := run_cons_eq_some.mp hr
    exact ih (hstep s e t h₀ ht) hr

/-- What an allowed step promises under the invariant, every step of an allowed run promises. -/
theorem along_of_along (Inv : σ → Prop) {Q : σ → ε → Prop}
    (hstep : ∀ s e t, Inv s → P s e → step s e = some t → Inv t)
    (hsafe : ∀ s e, Inv s → P s e → Q s e) (h₀ : Inv s) (ha : Along step P s es) :
    Along step Q s es := by
  induction es generalizing s with
  | nil => trivial
  | cons e es ih =>
    exact ⟨hsafe s e h₀ ha.1, fun t ht => ih (hstep s e t h₀ ha.1 ht) (ha.2 t ht)⟩

/-- A condition on single steps is exact for a law about runs when, in a state the invariant
describes, an allowed step keeps the law and the invariant, and a step that is not allowed
breaks the law at once. -/
theorem along_iff_of_safe (Inv : σ → Prop) {Safe : σ → ε → Prop}
    (hstep : ∀ s e t, Inv s → P s e → step s e = some t → Inv t)
    (hsafe : ∀ s e, Inv s → (Safe s e ↔ P s e)) (h₀ : Inv s) :
    Along step Safe s es ↔ Along step P s es := by
  induction es generalizing s with
  | nil => exact Iff.rfl
  | cons e es ih =>
    rw [along_cons, along_cons, hsafe s e h₀]
    exact and_congr_right fun hP =>
      forall₂_congr fun t ht => ih (hstep s e t h₀ hP ht)

/-- **The variant rule.** A run reaches a final state if, from every other state the invariant
describes, there is a step that keeps the invariant and lowers a measure. -/
theorem exists_run_of_variant {Inv Final : σ → Prop} (μ : σ → ℕ)
    (hstep : ∀ s, Inv s → ¬ Final s → ∃ e t, step s e = some t ∧ Inv t ∧ μ t < μ s)
    (h₀ : Inv s) : ∃ es t, run step s es = some t ∧ Inv t ∧ Final t := by
  induction hn : μ s using Nat.strongRecOn generalizing s with
  | _ n ih =>
    by_cases hfinal : Final s
    · exact ⟨[], s, rfl, h₀, hfinal⟩
    · obtain ⟨e, t, ht, hinv, hlt⟩ := hstep s h₀ hfinal
      obtain ⟨es, u, hrun, hu⟩ := ih (μ t) (hn ▸ hlt) hinv rfl
      exact ⟨e :: es, u, run_cons_eq_some.mpr ⟨t, ht, hrun⟩, hu⟩

end StepSystem
