import FrogOS.Accounting
import FrogOS.RoundRobin

/-!
# Bounded waiting

Round robin says who is next, and the accounting of the time slices how long the others can take:
each process before it in the queue has the processor once, for 100 ticks at most. So in any
`100 * n` ticks each of the `n` user processes is started, whatever the others do, unless they call
`yield`.

The bound is kept as a number of turns. `StartsWithin` adds the ticks that are left of the current
slice; each tick takes one away, or starts the process.

## Main definitions

* `Kernel.untilSwitch` — what is left of the slice
* `Kernel.StartsWithin` — the process is so many ticks away from the processor

## Main results

* `started_within` — in any `100 * n` ticks of a run without `yield`, all user processes start
-/

namespace FrogOS

open Kernel StepSystem

namespace Kernel

variable (k : Kernel ThreadMap)

/-- The slice of the current process is within its bounds. -/
def Sliced : Prop :=
  ∀ c, k.currentPid = some c → c ≠ 0 →
    1 ≤ (k.processTable c).timeRemaining.toNat ∧ (k.processTable c).timeRemaining.toNat ≤ 100

/-- At most so many ticks come until `start_process` is called. -/
def untilSwitch : ℕ :=
  match k.currentPid with
  | none => 1
  | some c =>
    if c ≠ 0 ∧ (k.processTable c).state = .running then (k.processTable c).timeRemaining.toNat
    else 1

variable {k}

theorem untilSwitch_of_running {c : ℕ} (hc : k.currentPid = some c) (h0 : c ≠ 0)
    (hs : (k.processTable c).state = .running) :
    k.untilSwitch = (k.processTable c).timeRemaining.toNat := by
  simp only [untilSwitch, hc]
  rw [if_pos ⟨h0, hs⟩]

theorem Sliced.untilSwitch (h : k.Sliced) : 1 ≤ k.untilSwitch ∧ k.untilSwitch ≤ 100 := by
  rw [Kernel.untilSwitch]
  split
  · exact ⟨le_rfl, by decide⟩
  · next c hc =>
    split
    · next hs => exact h c hc hs.1
    · exact ⟨le_rfl, by decide⟩

/-- Giving up the processor brings the switch nearer. -/
theorem Sliced.untilSwitch_le {k' : Kernel ThreadMap} (h : k.Sliced)
    (hsame : Machine.SameAccounts k k')
    (hs : ∀ c, (k'.processTable c).state = .running → (k.processTable c).state = .running) :
    k'.untilSwitch ≤ k.untilSwitch := by
  have hpos := h.untilSwitch.1
  rw [Kernel.untilSwitch, hsame.currentPid]
  split
  · exact hpos
  · next c hc =>
    split
    · next hrun => rw [hsame.timeRemaining, untilSwitch_of_running hc hrun.1 (hs c hrun.2)]
    · exact hpos

theorem Sliced.congr {k' : Kernel ThreadMap} (h : k.Sliced) (hsame : Machine.SameAccounts k k') :
    k'.Sliced := by
  intro c hc h0
  rw [hsame.timeRemaining]
  exact h c (hsame.currentPid.symm.trans hc) h0

end Kernel

/-! ### Steps between ticks -/

theorem running_of_exec {k k' : Kernel ThreadMap} {c d : ℕ} {u u' : Thread}
    (hst : ksyscallStep k c u = some (k', u')) (hrun : (k'.processTable d).state = .running) :
    (k.processTable d).state = .running := by
  cases hu : u.pc <;> simp only [ksyscallStep, hu, reduceCtorEq, Option.some.injEq,
    Prod.mk.injEq] at hst
  all_goals obtain ⟨rfl, -⟩ := hst
  case sleepReady | yieldReady =>
    rcases eq_or_ne d c with rfl | hne
    · rw [setReady, updateProcess_self] at hrun
      exact ProcessState.noConfusion hrun
    · rwa [setReady, updateProcess_of_ne _ _ _ hne] at hrun
  all_goals exact hrun

theorem Machine.untilSwitch_step {s t : Machine} (hslice : s.kernel.Sliced) {e : Event}
    (he : e.isTick = false) (hst : s.step e = some t) :
    t.kernel.untilSwitch ≤ s.kernel.untilSwitch := by
  refine hslice.untilSwitch_le (sameAccounts_step he hst) fun c hc => ?_
  cases e with
  | tick => exact absurd he Bool.noConfusion
  | exec =>
    obtain ⟨d, -, hstep⟩ := step_exec hst
    exact running_of_exec hstep hc
  | syscall request =>
    obtain ⟨-, -, -, -, rfl⟩ := step_syscall hst
    exact hc
  | compute =>
    obtain rfl := step_compute hst
    exact hc

/-! ### Turns -/

/-- Every user process has a turn in each round. -/
theorem exists_roundRobin_eq {n m p : ℕ} (hm : 0 < m) (h0 : p ≠ 0) (hp : p ≤ n + 1) :
    ∃ j < n + 1, roundRobin (n + 1) (m + j) = p := by
  obtain ⟨k, rfl⟩ := Nat.exists_eq_succ_of_ne_zero (Nat.ne_of_gt hm)
  obtain ⟨r, rfl⟩ := Nat.exists_eq_succ_of_ne_zero h0
  refine ⟨(r + (n + 1 - k % (n + 1))) % (n + 1), Nat.mod_lt _ n.succ_pos, ?_⟩
  have hdiv := Nat.mod_add_div k (n + 1)
  have hlt : k % (n + 1) < n + 1 := Nat.mod_lt k n.succ_pos
  have hsum : k + (r + (n + 1 - k % (n + 1))) = r + (n + 1) * (k / (n + 1) + 1) := by
    rw [Nat.mul_succ]
    omega
  rw [Nat.succ_add, roundRobin, Nat.add_mod_mod, hsum, Nat.add_mul_mod_self_left,
    Nat.mod_eq_of_lt hp]

/-- While there are user processes, the idle process makes room for them. -/
theorem Rotation.ne_zero {n m c : ℕ} {v : SchedView} (h : Rotation (n + 1) m v)
    (hcur : v.current = some c) (hidle : c = 0 → v.queue = []) : c ≠ 0 := by
  rintro rfl
  simp only [Rotation, hcur] at h
  have hq : v.leaving 0 = upcoming (n + 1) m (n + 1) := h.2.2
  rw [SchedView.leaving, if_neg fun h => h.1 rfl, hidle rfl, upcoming_eq_cons] at hq
  exact absurd hq (List.cons_ne_nil _ _).symm

namespace Machine

variable {n : ℕ} {s t : Machine}

/-- Either the current process goes on, one tick nearer to the end of its slice, or the next one in
turn starts. -/
theorem tick_turn (h : TurnInv (n + 1) s) (hn : n + 1 < maxProcesses) (hslice : s.kernel.Sliced)
    (hst : s.step .tick = some t) :
    (t.kernel.currentPid = s.kernel.currentPid ∧ t.kernel.started = s.kernel.started ∧
      t.kernel.untilSwitch + 1 = s.kernel.untilSwitch ∧ t.kernel.Sliced) ∨
    ∃ q, t.kernel.currentPid = some q ∧ t.kernel.started = s.kernel.started ++ [q] ∧
      q = roundRobin (n + 1) s.kernel.started.length ∧ t.kernel.Sliced := by
  have hrot := h.rotation (step_tick_eq hst).1
  have hfull : s.kernel.Expiring → ¬ s.kernel.runQueue.Full := by
    rintro ⟨c, hc, h0, hs, -⟩
    exact hrot.not_full hn hc h0 ((view_running_iff hc).mpr hs)
  obtain ⟨p, htick, hstarted, -, -⟩ := step_tick h.fit hfull hst
  have hquantum := pitHandler_quantum s.kernel s.cpu.wake
  rw [← (step_tick_eq hst).2.1] at hquantum
  rcases hquantum with ⟨q, hq, hstart, hfull⟩ | ⟨c, hc, hcur, hstay, hrest⟩
  · refine Or.inr ⟨q, hq, hstart, ?_, fun c hc _ => ?_⟩
    · refine (hrot.tick htick).2 q ?_
      have := List.append_cancel_left (hstarted.symm.trans hstart)
      cases p with
      | none => exact absurd this (List.cons_ne_nil _ _).symm
      | some r => exact congrArg some (List.singleton_inj.mp this)
    · obtain rfl := Option.some.inj (hq.symm.trans hc)
      rw [hfull]
      decide
  · obtain rfl : p = none := by
      have := List.append_right_eq_self.mp (hstarted.symm.trans hstay)
      cases p with
      | none => rfl
      | some r => exact absurd this (List.cons_ne_nil _ _)
    generalize hv : t.kernel.view = v at htick
    cases htick with
    | @stay d hd hidle hrun =>
      obtain rfl := Option.some.inj (hc.symm.trans hd)
      have h0 : c ≠ 0 := hrot.ne_zero hd hidle
      have hs : (s.kernel.processTable c).state = .running := (view_running_iff hc).mp (hrun h0)
      have ht : (t.kernel.processTable c).state = .running :=
        (view_running_iff hcur).mp (hv ▸ hrun h0)
      obtain ⟨hne, hrest⟩ := hrest h0
      have hbounds := hslice c hc h0
      have hone : (1 : BitVec 32).toNat = 1 := rfl
      have hne' : (s.kernel.processTable c).timeRemaining.toNat ≠ 1 := fun h1 =>
        hne (BitVec.eq_of_toNat_eq h1)
      have hnat : (t.kernel.processTable c).timeRemaining.toNat
          = (s.kernel.processTable c).timeRemaining.toNat - 1 := by
        rw [hrest, BitVec.toNat_sub_of_le (BitVec.le_def.mpr (hone.le.trans hbounds.1)), hone]
      refine Or.inl ⟨hcur.trans hc.symm, hstay, ?_, fun d hd _ => ?_⟩
      · rw [untilSwitch_of_running hcur h0 ht, untilSwitch_of_running hc h0 hs]
        omega
      · obtain rfl := Option.some.inj (hcur.symm.trans hd)
        omega

end Machine

/-! ### Waiting for a turn -/

/-- Process `p` is a number of turns away from the processor, which take at most `w` ticks. -/
def Kernel.StartsWithin (n p w : ℕ) (k : Kernel ThreadMap) : Prop :=
  ∃ j < n, roundRobin n (k.started.length + j) = p ∧ k.untilSwitch + 100 * j ≤ w

namespace Machine

variable {n p w : ℕ} {s t : Machine}

/-- From anywhere, a whole round is enough. -/
theorem startsWithin (hslice : s.kernel.Sliced) (hpos : 0 < s.kernel.started.length) (h0 : p ≠ 0)
    (hp : p ≤ n + 1) : s.kernel.StartsWithin (n + 1) p (100 * (n + 1)) := by
  obtain ⟨j, hj, hturn⟩ := exists_roundRobin_eq hpos h0 hp
  have hle := hslice.untilSwitch.2
  exact ⟨j, hj, hturn, by omega⟩

theorem pos_of_startsWithin (hslice : s.kernel.Sliced) (h : s.kernel.StartsWithin n p w) :
    0 < w := by
  obtain ⟨j, -, -, hle⟩ := h
  have := hslice.untilSwitch.1
  omega

/-- A tick starts `p`, or brings it one tick nearer. -/
theorem startsWithin_tick (h : TurnInv (n + 1) s) (hn : n + 1 < maxProcesses)
    (hslice : s.kernel.Sliced) (hwithin : s.kernel.StartsWithin (n + 1) p (w + 1))
    (hst : s.step .tick = some t) :
    t.kernel.currentPid = some p ∧ t.kernel.started = s.kernel.started ++ [p] ∨
      (t.kernel.currentPid = some p → s.kernel.currentPid = some p) ∧
        t.kernel.StartsWithin (n + 1) p w := by
  obtain ⟨j, hj, hjp, hle⟩ := hwithin
  have hpos := hslice.untilSwitch.1
  rcases tick_turn h hn hslice hst with
    ⟨hcur, hstarted, huntil, -⟩ | ⟨q, hcur, hstarted, hq, hslice'⟩
  · exact Or.inr ⟨fun hc => hcur.symm.trans hc, j, hj, hstarted ▸ hjp, by omega⟩
  · rcases eq_or_ne q p with rfl | hqp
    · exact Or.inl ⟨hcur, hstarted⟩
    · -- somebody else's turn, which brings that of `p` one nearer
      have hj0 : j ≠ 0 := fun h0 => hqp (hq.trans (by rw [← hjp, h0]; rfl))
      obtain ⟨i, rfl⟩ := Nat.exists_eq_succ_of_ne_zero hj0
      have hle' := hslice'.untilSwitch.2
      refine Or.inr ⟨fun hc => absurd (Option.some.inj (hcur.symm.trans hc)) hqp, i,
        Nat.lt_of_succ_lt hj, ?_, by omega⟩
      rw [← hjp, hstarted, List.length_append, List.length_singleton, Nat.add_assoc,
        Nat.add_comm 1 i]

theorem startsWithin_of_sameAccounts (hwithin : s.kernel.StartsWithin n p w)
    (hsame : SameAccounts s.kernel t.kernel)
    (huntil : t.kernel.untilSwitch ≤ s.kernel.untilSwitch) : t.kernel.StartsWithin n p w := by
  obtain ⟨j, hj, hturn, hle⟩ := hwithin
  exact ⟨j, hj, hsame.started ▸ hturn, (Nat.add_le_add_right huntil _).trans hle⟩

end Machine

/-! ### Runs -/

namespace Machine

variable {n p w : ℕ} {s t : Machine}

theorem sliced_step (h : TurnInv (n + 1) s) (hn : n + 1 < maxProcesses) (hslice : s.kernel.Sliced)
    {e : Event} (hst : s.step e = some t) : t.kernel.Sliced := by
  cases he : e.isTick with
  | false => exact hslice.congr (sameAccounts_step he hst)
  | true =>
    cases e with
    | exec | syscall _ | compute => exact absurd he Bool.noConfusion
    | tick =>
      rcases tick_turn h hn hslice hst with ⟨-, -, -, h⟩ | ⟨-, -, -, -, h⟩ <;> exact h

/-- The calls of `start_process` are only ever added to. -/
theorem exists_started_append {es : List Event} (hrun : run step s es = some t) :
    ∃ l, t.kernel.started = s.kernel.started ++ l := by
  refine invariant_of_run (fun u => ∃ l, u.kernel.started = s.kernel.started ++ l)
    (fun u e v ⟨l, hl⟩ hst => ?_) ⟨[], (List.append_nil _).symm⟩ hrun
  cases he : e.isTick with
  | false => exact ⟨l, (sameAccounts_step he hst).started.trans hl⟩
  | true =>
    cases e with
    | exec | syscall _ | compute => exact absurd he Bool.noConfusion
    | tick =>
      have hquantum := pitHandler_quantum u.kernel u.cpu.wake
      rw [← (step_tick_eq hst).2.1] at hquantum
      rcases hquantum with ⟨p, -, hstarted, -⟩ | ⟨c, -, -, hstarted, -⟩
      · exact ⟨l ++ [p], by rw [hstarted, hl, List.append_assoc]⟩
      · exact ⟨l, hstarted.trans hl⟩

theorem mem_of_startsWithin (hn : n + 1 < maxProcesses) (es : List Event) :
    ∀ {s t : Machine} {w : ℕ}, TurnInv (n + 1) s → s.kernel.Sliced →
      s.kernel.StartsWithin (n + 1) p w → (∀ e ∈ es, e ≠ .syscall .yield) →
      run step s es = some t → w ≤ es.countP Event.isTick →
      ∃ l, t.kernel.started = s.kernel.started ++ l ∧ p ∈ l := by
  induction es with
  | nil =>
    intro s t w _ hslice hwithin _ _ hle
    exact absurd hle (Nat.not_le.mpr (pos_of_startsWithin hslice hwithin))
  | cons e es ih =>
    intro s t w h hslice hwithin hyield hrun hle
    obtain ⟨s₁, hst, hrun₁⟩ := run_cons_eq_some.mp hrun
    have h₁ := h.step hn (hyield e List.mem_cons_self) hst
    have hslice₁ := sliced_step h hn hslice hst
    have hyield₁ : ∀ e ∈ es, e ≠ .syscall .yield := fun e he =>
      hyield e (List.mem_cons_of_mem _ he)
    cases he : e.isTick with
    | false =>
      have hsame := sameAccounts_step he hst
      have hwithin₁ := startsWithin_of_sameAccounts hwithin hsame (untilSwitch_step hslice he hst)
      rw [List.countP_cons_of_neg (by rw [he]; exact Bool.false_ne_true)] at hle
      obtain ⟨l, hl, hp⟩ := ih h₁ hslice₁ hwithin₁ hyield₁ hrun₁ hle
      exact ⟨l, hsame.started ▸ hl, hp⟩
    | true =>
      cases e with
      | exec | syscall _ | compute => exact absurd he Bool.noConfusion
      | tick =>
        rw [List.countP_cons_of_pos he] at hle
        obtain ⟨w, rfl⟩ := Nat.exists_eq_succ_of_ne_zero (pos_of_startsWithin hslice hwithin).ne'
        rcases startsWithin_tick h hn hslice hwithin hst with ⟨-, hstarted⟩ | ⟨-, hwithin₁⟩
        · obtain ⟨l, hl⟩ := exists_started_append hrun₁
          refine ⟨p :: l, ?_, List.mem_cons_self⟩
          rw [hl, hstarted, List.append_assoc, List.singleton_append]
        · obtain ⟨l, hl, hp⟩ := ih h₁ hslice₁ hwithin₁ hyield₁ hrun₁ (Nat.le_of_succ_le_succ hle)
          have hrun₀ : run step s [.tick] = some s₁ := run_cons_eq_some.mpr ⟨s₁, hst, rfl⟩
          obtain ⟨l₁, hl₁⟩ := exists_started_append hrun₀
          exact ⟨l₁ ++ l, by rw [hl, hl₁, List.append_assoc], List.mem_append_right _ hp⟩

end Machine

open Machine

variable {n : ℕ} {s t : Machine}

/-- **No user process starves**: in a run in which no process calls `yield`, any `100 * n` ticks
after the first one start each of the `n` user processes. -/
theorem started_within (mem : ThreadMap) (init userTask : BitVec 64) (hpos : 1 ≤ n)
    (hn : n < maxProcesses) (es fs : List Event) (hyield : ∀ e ∈ es ++ fs, e ≠ .syscall .yield)
    (hrun : run Machine.step (Machine.initial mem init userTask n) es = some s)
    (hfirst : s.kernel.started ≠ []) (hrun' : run Machine.step s fs = some t)
    (hticks : 100 * n ≤ fs.countP Event.isTick) :
    ∃ l, t.kernel.started = s.kernel.started ++ l ∧ ∀ p, 1 ≤ p → p ≤ n → p ∈ l := by
  obtain ⟨n, rfl⟩ := Nat.exists_eq_add_of_le' hpos
  have h₀ := turnInv_initial mem init userTask hn
  have hslice₀ : (Machine.initial mem init userTask (n + 1)).kernel.Sliced := fun c hc =>
    absurd (hc.symm.trans (setupSpec_boot mem init userTask hn).currentPid) (Option.some_ne_none c)
  have ha : Along Machine.step (fun _ e => e ≠ .syscall .yield)
      (Machine.initial mem init userTask (n + 1)) es :=
    along_of_forall_mem fun e he _ => hyield e (List.mem_append_left _ he)
  obtain ⟨h, hslice⟩ : TurnInv (n + 1) s ∧ s.kernel.Sliced :=
    invariant_of_along (fun u => TurnInv (n + 1) u ∧ u.kernel.Sliced)
      (fun _ _ _ hi he hst => ⟨hi.1.step hn he hst, sliced_step hi.1 hn hi.2 hst⟩)
      ⟨h₀, hslice₀⟩ ha hrun
  obtain ⟨l, hl⟩ := exists_started_append hrun'
  refine ⟨l, hl, fun p h0 hp => ?_⟩
  have hwithin := startsWithin hslice (List.length_pos_iff.mpr hfirst) (Nat.ne_of_gt h0) hp
  obtain ⟨l', hl', hmem⟩ := mem_of_startsWithin hn fs h hslice hwithin
    (fun e he => hyield e (List.mem_append_right _ he)) hrun' hticks
  obtain rfl := List.append_cancel_left (hl.symm.trans hl')
  exact hmem

/-- Ticks can always come where interrupts are enabled. -/
theorem exists_ticks (hfit : s.Fit n) (hif : s.cpu.interruptFlag = true) (k : ℕ) :
    ∃ t, run Machine.step s (List.replicate k .tick) = some t := by
  induction k generalizing s with
  | zero => exact ⟨s, rfl⟩
  | succ k ih =>
    obtain ⟨s₁, hst⟩ : ∃ t, s.step .tick = some t := ⟨_, if_pos hif⟩
    obtain ⟨hfit₁, hif₁, -⟩ := hfit.tick hst
    obtain ⟨t, ht⟩ := ih hfit₁ hif₁
    exact ⟨t, run_cons_eq_some.mpr ⟨s₁, hst, ht⟩⟩

/-- The source's four processes, which never give up the processor. -/
theorem started_within_four : ∃ s t, run Machine.step sourceMachine [.tick] = some s ∧
    run Machine.step s (List.replicate 400 .tick) = some t ∧
    ∃ l, t.kernel.started = s.kernel.started ++ l ∧ ∀ p, 1 ≤ p → p ≤ 4 → p ∈ l := by
  obtain ⟨hfit, hif, hnone, -, -⟩ := sourceMachine_spec
  obtain ⟨_, hs⟩ : ∃ s, run Machine.step sourceMachine [.tick] = some s := exists_ticks hfit hif 1
  obtain ⟨s, hst, hs'⟩ := run_cons_eq_some.mp hs
  obtain rfl := Option.some.inj hs'
  obtain ⟨hfit', hif', -⟩ := hfit.tick hst
  obtain ⟨t, ht⟩ := exists_ticks hfit' hif' 400
  have hquantum := pitHandler_quantum sourceMachine.kernel sourceMachine.cpu.wake
  rw [← (step_tick_eq hst).2.1] at hquantum
  have hfirst : s.kernel.started ≠ [] := by
    rcases hquantum with ⟨p, -, hstarted, -⟩ | ⟨c, hc, -⟩
    · rw [hstarted]
      exact List.append_ne_nil_of_right_ne_nil _ (List.cons_ne_nil _ _)
    · exact absurd (hc.symm.trans hnone) (Option.some_ne_none c)
  refine ⟨s, t, hs, ht, started_within _ _ _ (by decide) (by decide) _ _ (fun e he => ?_) hs hfirst
    ht ?_⟩
  · rcases List.mem_append.mp he with he | he
    · exact List.mem_singleton.mp he ▸ Event.noConfusion
    · exact List.eq_of_mem_replicate he ▸ Event.noConfusion
  · rw [List.countP_replicate]
    exact le_rfl

end FrogOS
