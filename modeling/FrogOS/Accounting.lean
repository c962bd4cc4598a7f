import FrogOS.Syscall
import FrogOS.ProcessCreate
import Mathlib.Algebra.BigOperators.Group.Finset.Piecewise
import Mathlib.Data.Nat.ModEq

/-!
# Time slices and tick counts

`start_process` gives a process 100 ticks, and `schedule_process` takes one away at every tick that
finds it running. The decrement never wraps around, because the tick that would take the last one
starts another process instead; a process that has made itself ready loses no more of them, but is
stopped at the next tick.

Every tick is also counted twice, in `pit_counter` and in `total_ticks` of the process it
interrupts. Only the first one interrupts no process.

## Main definitions

* `Machine.Accounted` — what is expected of a state
* `Machine.Accounting` — the invariant

## Main results

* `Machine.accounted_run` — every reachable state is accounted for
-/

namespace FrogOS

open Kernel StepSystem

namespace Kernel

section

variable {M F : Type} [ContextMemory M F] (k : Kernel M) (context : F)

/-- The sum of `total_ticks` over the process table. -/
def totalTicks (k : Kernel M) : ℕ :=
  ∑ p ∈ Finset.range maxProcesses, (k.processTable p).totalTicks.toNat

theorem startProcess_totalTicks (pid q : ℕ) :
    ((k.startProcess pid context).1.processTable q).totalTicks = (k.processTable q).totalTicks := by
  rw [startProcess_processTable]
  rcases eq_or_ne q pid with rfl | h
  · rw [Function.update_self]
  · rw [Function.update_of_ne h]

theorem dispatch_totalTicks (q : ℕ) :
    ((k.dispatch context).1.processTable q).totalTicks = (k.processTable q).totalTicks := by
  rw [dispatch, startProcess_totalTicks, getNextPid]
  split <;> rfl

/-- A call of `start_process` is recorded, and gives the process all of its ticks. -/
theorem startProcess_quantum (pid : ℕ) : ∃ p, (k.startProcess pid context).1.currentPid = some p ∧
    (k.startProcess pid context).1.started = k.started ++ [p] ∧
    ((k.startProcess pid context).1.processTable p).timeRemaining = 100 := by
  refine ⟨pid, startProcess_currentPid k pid context, startProcess_started k pid context, ?_⟩
  rw [startProcess_processTable, Function.update_self]

theorem dispatch_quantum : ∃ p, (k.dispatch context).1.currentPid = some p ∧
    (k.dispatch context).1.started = k.started ++ [p] ∧
    ((k.dispatch context).1.processTable p).timeRemaining = 100 := by
  have hstarted : k.getNextPid.2.started = k.started := by
    rw [getNextPid]
    split <;> rfl
  rw [← hstarted]
  exact startProcess_quantum k.getNextPid.2 context k.getNextPid.1

theorem countTick_totalTicks (c q : ℕ) : ((k.countTick c).processTable q).totalTicks
    = (k.processTable q).totalTicks + if c = q then 1 else 0 := by
  rcases eq_or_ne q c with rfl | h
  · rw [countTick, updateProcess_self, if_pos rfl]
  · rw [countTick, updateProcess_of_ne k c _ h, if_neg h.symm, add_zero]

theorem chargeQuantum_totalTicks (c q : ℕ) :
    ((k.chargeQuantum c).processTable q).totalTicks = (k.processTable q).totalTicks :=
  updateProcess_field k c _ (g := Process.totalTicks) (by intro p; rfl) q

theorem setReady_totalTicks (c q : ℕ) :
    ((k.setReady c).processTable q).totalTicks = (k.processTable q).totalTicks :=
  updateProcess_field k c _ (g := Process.totalTicks) (by intro p; rfl) q

/-- A tick is charged to the process it interrupts. -/
theorem pitHandler_totalTicks (q : ℕ) : ((k.pitHandler context).1.processTable q).totalTicks
    = (k.processTable q).totalTicks + if k.currentPid = some q then 1 else 0 := by
  have h := scheduleProcess_tick { k with pitCounter := k.pitCounter + 1 } context
  rw [← pitHandler] at h
  generalize k.pitHandler context = r at h ⊢
  -- `k'` is the kernel once the tick has been counted
  have hcount : ∀ {c : ℕ} {k' : Kernel M}, k.currentPid = some c →
      (∀ q, (k'.processTable q).totalTicks
        = (({ k with pitCounter := k.pitCounter + 1 }.countTick c).processTable q).totalTicks) →
      (k'.processTable q).totalTicks
        = (k.processTable q).totalTicks + if k.currentPid = some q then 1 else 0 := by
    intro c k' hcur hk'
    simp only [hk', countTick_totalTicks, hcur, Option.some.injEq]
  cases h with
  | first hcur =>
    have hne : k.currentPid ≠ some q := fun h => Option.some_ne_none q (h.symm.trans hcur)
    rw [startProcess_totalTicks, if_neg hne, add_zero]
  | idle hcur => exact hcount hcur fun _ => rfl
  | wake hcur => exact hcount hcur fun q => dispatch_totalTicks _ context q
  | slice hcur => exact hcount hcur fun q => chargeQuantum_totalTicks _ _ q
  | expire hcur =>
    refine hcount hcur fun q => ?_
    rw [dispatch_totalTicks, addToRunQueue_processTable, setReady_totalTicks,
      chargeQuantum_totalTicks]
  | leave hcur => exact hcount hcur fun q => dispatch_totalTicks _ context q

/-- A tick either starts a process, or takes one tick away from the current one, unless that is the
idle process. -/
theorem pitHandler_quantum :
    (∃ p, (k.pitHandler context).1.currentPid = some p ∧
      (k.pitHandler context).1.started = k.started ++ [p] ∧
      ((k.pitHandler context).1.processTable p).timeRemaining = 100) ∨
    ∃ c, k.currentPid = some c ∧ (k.pitHandler context).1.currentPid = some c ∧
      (k.pitHandler context).1.started = k.started ∧
      (c ≠ 0 → (k.processTable c).timeRemaining ≠ 1 ∧
        ((k.pitHandler context).1.processTable c).timeRemaining
          = (k.processTable c).timeRemaining - 1) := by
  have h := scheduleProcess_tick { k with pitCounter := k.pitCounter + 1 } context
  rw [← pitHandler] at h
  generalize k.pitHandler context = r at h ⊢
  cases h with
  | first hcur => exact Or.inl (startProcess_quantum _ _ _)
  | idle hcur => exact Or.inr ⟨0, hcur, hcur, rfl, fun h0 => absurd rfl h0⟩
  | @slice c hcur h0 hs ht =>
    refine Or.inr ⟨c, hcur, hcur, rfl, fun _ => ⟨ht, ?_⟩⟩
    simp only [chargeQuantum, countTick, updateProcess_self]
  | wake | expire | leave => exact Or.inl (dispatch_quantum _ _)

end

/-- Charging one process of the table adds one to the sum. -/
theorem totalTicks_modEq {M : Type} {k k' : Kernel M} {c : ℕ} (hc : c < maxProcesses)
    (h : ∀ q, (k'.processTable q).totalTicks
      = (k.processTable q).totalTicks + if c = q then 1 else 0) :
    k'.totalTicks ≡ k.totalTicks + 1 [MOD 2 ^ 32] := by
  have hone : ∑ q ∈ Finset.range maxProcesses, (if c = q then 1 else 0) = 1 := by
    rw [Finset.sum_ite_eq, if_pos (Finset.mem_range.mpr hc)]
  rw [totalTicks, totalTicks, ← hone, ← Finset.sum_add_distrib, Nat.ModEq,
    Finset.sum_nat_mod _ _ fun q => (k'.processTable q).totalTicks.toNat, Finset.sum_nat_mod _ _
      fun q => (k.processTable q).totalTicks.toNat + if c = q then 1 else 0]
  refine congrArg (· % 2 ^ 32) (Finset.sum_congr rfl fun q _ => ?_)
  rw [h q, BitVec.toNat_add, Nat.mod_mod]
  split <;> rfl

/-! ### Before the first tick -/

/-- What `setup_process` leaves alone. -/
structure Uncounted {M : Type} (k : Kernel M) : Prop where
  pitCounter : k.pitCounter = 0
  totalTicks : ∀ p, (k.processTable p).totalTicks = 0

theorem Uncounted.create {M F : Type} [ContextMemory M F] {k : Kernel M} (h : k.Uncounted)
    (entryPoint : BitVec 64) (kernelTask : Bool) :
    (k.processCreate entryPoint kernelTask).1.Uncounted := by
  rw [processCreate_eq]
  refine ⟨h.pitCounter, fun p => ?_⟩
  rcases eq_or_ne p k.freeQueue.front with rfl | hp
  · simp only [Function.update_self, h.totalTicks]
  · simp only [Function.update_of_ne hp, h.totalTicks]

theorem uncounted_boot {M F : Type} [ContextMemory M F] (mem : M) (init userTask : BitVec 64)
    (n : ℕ) : (boot mem init userTask n).Uncounted := by
  have htasks : ∀ (n : ℕ) (k : Kernel M), k.Uncounted →
      (k.createUserTasks userTask n).Uncounted := by
    intro n
    induction n with
    | zero => exact fun k h => h
    | succ n ih => exact fun k h => ih _ (h.create userTask false)
  have hinitial : (Kernel.initial mem bootHeap).fillFreeQueue.Uncounted := ⟨rfl, fun _ => rfl⟩
  have hinit := hinitial.create init true
  exact htasks n _ ⟨hinit.pitCounter, hinit.totalTicks⟩

end Kernel

def Event.isTick : Event → Bool
  | .tick => true
  | _ => false

namespace Machine

variable {n : ℕ} {s t : Machine}

/-- What is expected of a state, and of the steps taken in it. -/
structure Accounted (s : Machine) : Prop where
  /-- The decrement does not wrap around. -/
  slice : ∀ c, s.kernel.currentPid = some c → c ≠ 0 → (s.kernel.processTable c).state = .running →
    1 ≤ (s.kernel.processTable c).timeRemaining.toNat ∧
      (s.kernel.processTable c).timeRemaining.toNat ≤ 100
  /-- The ticks that pass without a call of `start_process` are fewer than 100, so that the
  hundredth one at the latest makes one. -/
  dispatch : ∀ c es t, s.kernel.currentPid = some c → c ≠ 0 → run step s es = some t →
    t.kernel.started = s.kernel.started → es.countP Event.isTick < 100
  /-- All ticks but the first are charged to some process, -/
  counter : s.kernel.started ≠ [] →
    s.kernel.pitCounter.toNat ≡ s.kernel.totalTicks + 1 [MOD 2 ^ 32]
  /-- namely to the one that is current when they arrive. -/
  charge : ∀ e t, s.step e = some t → ∀ p, (t.kernel.processTable p).totalTicks
    = (s.kernel.processTable p).totalTicks
      + if e.isTick = true ∧ s.kernel.currentPid = some p then 1 else 0

/-- The invariant. The bounds hold of a process that is not running, too. -/
structure Accounting (n : ℕ) (s : Machine) : Prop where
  fit : s.Fit n
  slice : ∀ c, s.kernel.currentPid = some c → c ≠ 0 →
    1 ≤ (s.kernel.processTable c).timeRemaining.toNat ∧
      (s.kernel.processTable c).timeRemaining.toNat ≤ 100
  started : s.kernel.started = [] ↔ s.kernel.currentPid = none
  counter : s.kernel.pitCounter.toNat
    ≡ s.kernel.totalTicks + (if s.kernel.currentPid = none then 0 else 1) [MOD 2 ^ 32]

theorem accounting_initial (mem : ThreadMap) (init userTask : BitVec 64) (hn : n < maxProcesses) :
    Accounting n (initial mem init userTask n) := by
  have h := setupSpec_boot mem init userTask hn
  have hzero := uncounted_boot mem init userTask n
  have hnone : (initial mem init userTask n).kernel.currentPid = none := h.currentPid
  have hstarted : (initial mem init userTask n).kernel.started = [] := h.started
  have hsum : (initial mem init userTask n).kernel.totalTicks = 0 :=
    Finset.sum_eq_zero fun p _ => congrArg BitVec.toNat (hzero.totalTicks p)
  have hcounter : (initial mem init userTask n).kernel.pitCounter = 0 := hzero.pitCounter
  refine ⟨fit_initial mem init userTask hn, fun c hc => ?_, ⟨fun _ => hnone, fun _ => hstarted⟩, ?_⟩
  · exact absurd (hc.symm.trans hnone) (Option.some_ne_none c)
  · rw [hcounter, hsum, if_pos hnone]
    rfl

/-! ### Steps -/

/-- The fields the accounting is about. -/
structure SameAccounts (k k' : Kernel ThreadMap) : Prop where
  currentPid : k'.currentPid = k.currentPid
  started : k'.started = k.started
  pitCounter : k'.pitCounter = k.pitCounter
  timeRemaining : ∀ p, (k'.processTable p).timeRemaining = (k.processTable p).timeRemaining
  totalTicks : ∀ p, (k'.processTable p).totalTicks = (k.processTable p).totalTicks

theorem SameAccounts.setReady (k : Kernel ThreadMap) (c : ℕ) : SameAccounts k (k.setReady c) :=
  ⟨rfl, rfl, rfl, fun p => updateProcess_field k c _ (g := Process.timeRemaining) (by intro; rfl) p,
    setReady_totalTicks k c⟩

/-- A system call never touches the accounts. -/
theorem sameAccounts_ksyscallStep {k k' : Kernel ThreadMap} {c : ℕ} {u u' : Thread}
    (h : ksyscallStep k c u = some (k', u')) : SameAccounts k k' := by
  cases hpc : u.pc <;> simp only [ksyscallStep, hpc, reduceCtorEq, Option.some.injEq,
    Prod.mk.injEq] at h
  all_goals obtain ⟨rfl, -⟩ := h
  case sleepReady | yieldReady => exact SameAccounts.setReady k c
  all_goals exact ⟨rfl, rfl, rfl, fun _ => rfl, fun _ => rfl⟩

theorem sameAccounts_step {e : Event} (he : e.isTick = false) (h : s.step e = some t) :
    SameAccounts s.kernel t.kernel := by
  cases e with
  | tick => exact absurd he Bool.noConfusion
  | exec =>
    obtain ⟨c, -, h⟩ := step_exec h
    exact sameAccounts_ksyscallStep h
  | syscall request =>
    obtain ⟨-, -, -, -, rfl⟩ := step_syscall h
    exact ⟨rfl, rfl, rfl, fun _ => rfl, fun _ => rfl⟩
  | compute =>
    obtain rfl := step_compute h
    exact ⟨rfl, rfl, rfl, fun _ => rfl, fun _ => rfl⟩

theorem step_totalTicks {e : Event} (h : s.step e = some t) (p : ℕ) :
    (t.kernel.processTable p).totalTicks = (s.kernel.processTable p).totalTicks
      + if e.isTick = true ∧ s.kernel.currentPid = some p then 1 else 0 := by
  cases he : e.isTick with
  | false =>
    rw [if_neg (by simp), add_zero]
    exact (sameAccounts_step he h).totalTicks p
  | true =>
    cases e with
    | tick =>
      rw [(step_tick_eq h).2.1, pitHandler_totalTicks]
      simp only [true_and]
    | exec | syscall _ | compute => exact absurd he Bool.noConfusion

theorem Accounting.congr (h : Accounting n s) (hfit : t.Fit n)
    (hsame : SameAccounts s.kernel t.kernel) : Accounting n t := by
  have hsum : t.kernel.totalTicks = s.kernel.totalTicks :=
    Finset.sum_congr rfl fun p _ => congrArg BitVec.toNat (hsame.totalTicks p)
  refine ⟨hfit, fun c hc h0 => ?_, ?_, ?_⟩
  · rw [hsame.timeRemaining]
    exact h.slice c (hsame.currentPid.symm.trans hc) h0
  · rw [hsame.started, hsame.currentPid]
    exact h.started
  · rw [hsame.pitCounter, hsum, hsame.currentPid]
    exact h.counter

/-- The counters after a tick. -/
theorem Accounting.counter_tick (h : Accounting n s) (hn : n < maxProcesses)
    (hst : s.step .tick = some t) :
    t.kernel.pitCounter.toNat ≡ t.kernel.totalTicks + 1 [MOD 2 ^ 32] := by
  have hpit : t.kernel.pitCounter.toNat ≡ s.kernel.pitCounter.toNat + 1 [MOD 2 ^ 32] := by
    rw [(step_tick_eq hst).2.1, pitHandler_pitCounter, BitVec.toNat_add]
    exact (Nat.mod_modEq _ (2 ^ 64)).of_dvd ⟨2 ^ 32, rfl⟩
  have hcharge := step_totalTicks hst
  refine (hpit.trans (h.counter.add_right 1)).trans (Nat.ModEq.add_right 1 ?_)
  cases hcur : s.kernel.currentPid with
  | none =>
    -- the first tick, which interrupts no process
    have hsum : t.kernel.totalTicks = s.kernel.totalTicks := by
      refine Finset.sum_congr rfl fun p _ => congrArg BitVec.toNat ?_
      rw [hcharge p, hcur, if_neg fun h => Option.some_ne_none p h.2.symm, add_zero]
    rw [hsum, if_pos rfl, add_zero]
  | some c =>
    rw [if_neg (Option.some_ne_none c)]
    have hc : c < maxProcesses := (h.fit.frames.current c hcur).trans_le hn
    have hmod : t.kernel.totalTicks ≡ s.kernel.totalTicks + 1 [MOD 2 ^ 32] := by
      refine totalTicks_modEq hc fun q => (hcharge q).trans ?_
      simp only [Event.isTick, true_and, hcur, Option.some.injEq]
    exact hmod.symm

theorem Accounting.step (h : Accounting n s) (hn : n < maxProcesses) {e : Event}
    (hst : s.step e = some t) : Accounting n t := by
  have hfit := h.fit.step hst
  cases he : e.isTick with
  | false => exact h.congr hfit (sameAccounts_step he hst)
  | true =>
    cases e with
    | exec | syscall _ | compute => exact absurd he Bool.noConfusion
    | tick =>
      have hcounter := h.counter_tick hn hst
      have hquantum := pitHandler_quantum s.kernel s.cpu.wake
      rw [← (step_tick_eq hst).2.1] at hquantum
      rcases hquantum with ⟨p, hp, hstarted, hfull⟩ | ⟨c, hc, hcur, hstarted, hslice⟩
      · refine ⟨hfit, fun c hc _ => ?_, ?_, ?_⟩
        · obtain rfl := Option.some.inj (hp.symm.trans hc)
          rw [hfull]
          decide
        · rw [hstarted, hp]
          simp
        · rwa [hp, if_neg (Option.some_ne_none p)]
      · refine ⟨hfit, fun d hd h0 => ?_, ?_, ?_⟩
        · obtain rfl := Option.some.inj (hcur.symm.trans hd)
          obtain ⟨hne, heq⟩ := hslice h0
          have hbounds := h.slice c hc h0
          rw [heq]
          have hne' : (s.kernel.processTable c).timeRemaining.toNat ≠ 1 := fun h1 =>
            hne (BitVec.eq_of_toNat_eq h1)
          have hone : (1 : BitVec 32).toNat = 1 := rfl
          rw [BitVec.toNat_sub_of_le (BitVec.le_def.mpr (hone.le.trans hbounds.1)), hone]
          omega
        · rw [hstarted, hcur, ← hc]
          exact h.started
        · rwa [hcur, if_neg (Option.some_ne_none c)]

/-! ### Runs -/

/-- As long as `start_process` is not called, every tick takes one away. -/
theorem timeRemaining_run (hn : n < maxProcesses) (es : List Event) : ∀ {s t : Machine},
    Accounting n s → run step s es = some t →
    s.kernel.started.length ≤ t.kernel.started.length ∧
      (t.kernel.started.length = s.kernel.started.length →
        ∀ c, s.kernel.currentPid = some c → c ≠ 0 →
          1 ≤ (t.kernel.processTable c).timeRemaining.toNat ∧
            (t.kernel.processTable c).timeRemaining.toNat + es.countP Event.isTick
              = (s.kernel.processTable c).timeRemaining.toNat) := by
  induction es with
  | nil =>
    intro s t h hrun
    obtain rfl := Option.some.inj hrun
    exact ⟨le_rfl, fun _ c hc h0 => ⟨(h.slice c hc h0).1, rfl⟩⟩
  | cons e es ih =>
    intro s t h hrun
    obtain ⟨s₁, hst, hrun⟩ := run_cons_eq_some.mp hrun
    have h₁ := h.step hn hst
    obtain ⟨hle, hrest⟩ := ih h₁ hrun
    cases he : e.isTick with
    | false =>
      have hsame := sameAccounts_step he hst
      rw [hsame.started] at hle hrest
      refine ⟨hle, fun hlen c hc h0 => ?_⟩
      rw [List.countP_cons_of_neg (by rw [he]; exact Bool.false_ne_true), ← hsame.timeRemaining]
      exact hrest hlen c (hsame.currentPid.trans hc) h0
    | true =>
      cases e with
      | exec | syscall _ | compute => exact absurd he Bool.noConfusion
      | tick =>
        have hquantum := pitHandler_quantum s.kernel s.cpu.wake
        rw [← (step_tick_eq hst).2.1] at hquantum
        rcases hquantum with ⟨p, -, hstarted, -⟩ | ⟨d, hd, hcur, hstarted, hslice⟩
        · rw [hstarted, List.length_append, List.length_singleton] at hle
          exact ⟨by omega, fun hlen => by omega⟩
        · rw [hstarted] at hle hrest
          refine ⟨hle, fun hlen c hc h0 => ?_⟩
          obtain rfl := Option.some.inj (hd.symm.trans hc)
          obtain ⟨hpos, hsum⟩ := hrest hlen d hcur h0
          have hone : (1 : BitVec 32).toNat = 1 := rfl
          have hbefore := (h.slice d hc h0).1
          rw [(hslice h0).2, BitVec.toNat_sub_of_le (BitVec.le_def.mpr (hone.le.trans hbefore)),
            hone] at hsum
          rw [List.countP_cons_of_pos he]
          exact ⟨hpos, by omega⟩

theorem Accounting.accounted (h : Accounting n s) (hn : n < maxProcesses) : s.Accounted := by
  refine ⟨fun c hc h0 _ => h.slice c hc h0, fun c es t hc h0 hrun hstarted => ?_, fun hne => ?_,
    fun e t hst p => step_totalTicks hst p⟩
  · obtain ⟨hpos, hsum⟩ := (timeRemaining_run hn es h hrun).2 (by rw [hstarted]) c hc h0
    have := (h.slice c hc h0).2
    omega
  · have hcounter := h.counter
    rwa [if_neg fun hnone => hne (h.started.mpr hnone)] at hcounter

theorem accounting_of_run (mem : ThreadMap) (init userTask : BitVec 64) (hn : n < maxProcesses)
    {es : List Event} (hrun : run step (initial mem init userTask n) es = some s) :
    Accounting n s :=
  invariant_of_run (Accounting n) (fun _ _ _ h hst => h.step hn hst)
    (accounting_initial mem init userTask hn) hrun

/-- **Time slices do not wrap around, last at most 100 ticks, and every tick but the first is
charged to the process it interrupts**, in every state the kernel can reach. -/
theorem accounted_run (mem : ThreadMap) (init userTask : BitVec 64) (hn : n < maxProcesses)
    (es : List Event) (hrun : run step (initial mem init userTask n) es = some s) : s.Accounted :=
  (accounting_of_run mem init userTask hn hrun).accounted hn

/-- The theorem at a state in which a user process runs. -/
theorem accounted_run_two_ticks : ∃ t, run step sourceMachine [.tick, .tick] = some t ∧
    t.kernel.currentPid = some 1 ∧ t.Accounted := by
  obtain ⟨hfit, hif, hnone, hq, hsaved⟩ := sourceMachine_spec
  obtain ⟨t, ht, -, hcur, -⟩ := exists_started hfit hif hnone hq (by decide) (by decide) hsaved
  exact ⟨t, ht, hcur, accounted_run _ _ _ (by decide : 4 < maxProcesses) _ ht⟩

end Machine

end FrogOS
