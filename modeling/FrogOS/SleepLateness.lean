import FrogOS.BoundedWaiting
import FrogOS.Sleep

/-!
# How late a sleeper can be

`FrogOS.Sleep` bounds the time slept from below. From above nothing bounds it if ticks can come at
any time: a process that is interrupted in each round of its loop before it reads the counter never
sees that its time is over. This is not how the machine runs, where a tick takes as long as many
thousand instructions. A run is prompt if a tick that comes during `SYSCALL_SLEEP` finds the process
halted, as it is at the end of each round.

In a prompt run a process whose time is over returns when it is next on the processor, and
`FrogOS.BoundedWaiting` says that this is after `100 * n` ticks at the latest, `n` being the number
of user processes.

## Main definitions

* `SleepHistory.Prompt` — ticks find sleeping processes halted
* `OnTime` — what is left of the bound, for a call in progress
* `LateInv` — the invariant

## Main results

* `sleep_onTime` — in every prompt run without `yield`, calls end in time
-/

namespace FrogOS

open Kernel StepSystem

/-- The rounded duration, in ticks, as the call computes it. -/
def SleepCall.duration (call : SleepCall) : ℕ := ((call.requested + 9) / 10).toNat

/-- The tick at which the call may return. -/
def SleepCall.due (call : SleepCall) : ℕ := call.startTick + call.duration

/-- The loop goes through another round. -/
def Pc.waiting : Pc → Bool
  | sleepDisable | sleepStore | sleepAdvance | sleepReady | sleepEnable | sleepHlt | sleepHalted =>
    true
  | _ => false

/-- A tick that comes during `SYSCALL_SLEEP` finds the process halted. -/
def SleepHistory.Prompt (s : SleepHistory) (e : Event) : Prop :=
  e.isTick = true → s.machine.cpu.pc.sleeping = true → s.machine.cpu.pc = .sleepHalted

instance (s : SleepHistory) (e : Event) : Decidable (s.Prompt e) :=
  inferInstanceAs (Decidable (_ → _ → _))

/-! ### Calls in progress -/

/-- What is left of the bound for a call of process `p`: on the processor it does not wait any more
once it is due; off the processor it is a number of turns away from it. -/
inductive OnTime (n p : ℕ) (s : SleepHistory) (call : SleepCall) : Prop
  | current (hc : s.machine.kernel.currentPid = some p) (hle : s.ticks ≤ call.due + 100 * n)
      (hwait : s.machine.cpu.pc.waiting = true → s.ticks < call.due)
  | queued {w : ℕ} (hc : s.machine.kernel.currentPid ≠ some p)
      (hsaved : (s.machine.kernel.saved p).pc.waiting = false)
      (hwithin : s.machine.kernel.StartsWithin n p w) (hle : s.ticks + w ≤ call.due + 100 * n)

/-- A call that has returned has done so in time. -/
def SleepReturn.InTime (n : ℕ) (r : SleepReturn) : Prop :=
  r.due ≤ r.endTick ∧ r.endTick ≤ r.due + 100 * n

/-- The invariant. -/
structure LateInv (n : ℕ) (pitCounter : BitVec 64) (s : SleepHistory) : Prop where
  turn : TurnInv n s.machine
  sleep : SleepInv n pitCounter s
  slice : s.machine.kernel.Sliced
  calls : ∀ p < n + 1, (s.machine.thread p).pc.sleeping = true →
    ∀ call, s.calls p = some call → OnTime n p s call
  returns : ∀ r ∈ s.returns, r.InTime n

variable {n p : ℕ} {pitCounter : BitVec 64} {s t : SleepHistory} {call : SleepCall}

theorem OnTime.le (h : OnTime n p s call) : s.ticks ≤ call.due + 100 * n := by
  cases h with
  | current _ hle => exact hle
  | queued _ _ _ hle => exact (Nat.le_add_right _ _).trans hle

/-- A tick at which the process has the processor. -/
theorem OnTime.tick_current {m : Machine} (h : OnTime (n + 1) p s call)
    (hcur : s.machine.kernel.currentPid = some p) (h0 : p ≠ 0) (hp : p ≤ n + 1)
    (hpc : s.machine.cpu.pc = .sleepHalted) (hthread : m.thread p = s.machine.cpu.wake)
    (hslice : m.kernel.Sliced) (hpos : 0 < m.kernel.started.length) :
    OnTime (n + 1) p (s.record m .tick) call := by
  have hdue : s.ticks < call.due := by
    cases h with
    | current _ _ hwait => exact hwait (by rw [hpc]; rfl)
    | queued hc => exact absurd hcur hc
  have hwake : s.machine.cpu.wake.pc.waiting = false := by
    rw [Thread.wake, hpc]
    rfl
  rw [Machine.thread] at hthread
  split at hthread
  · next hc =>
    refine .current hc (show s.ticks + 1 ≤ _ by omega) fun hw => ?_
    have : m.cpu.pc.waiting = false := hthread ▸ hwake
    exact absurd (this.symm.trans hw) Bool.false_ne_true
  · next hc =>
    exact .queued hc (hthread ▸ hwake) (Machine.startsWithin hslice hpos h0 hp)
      (Nat.add_le_add_right hdue _)

/-- A tick at which it waits for its turn. -/
theorem OnTime.tick_queued {m : Machine} (h : OnTime (n + 1) p s call)
    (hne : s.machine.kernel.currentPid ≠ some p) (hturn : TurnInv (n + 1) s.machine)
    (hn : n + 1 < maxProcesses) (hslice : s.machine.kernel.Sliced)
    (hst : s.machine.step .tick = some m) (hthread : m.thread p = s.machine.kernel.saved p) :
    OnTime (n + 1) p (s.record m .tick) call := by
  cases h with
  | current hc => exact absurd hc hne
  | @queued w _ hsaved hwithin hle =>
    rw [Machine.thread] at hthread
    obtain ⟨w, rfl⟩ := Nat.exists_eq_succ_of_ne_zero
      (Machine.pos_of_startsWithin hslice hwithin).ne'
    rcases Machine.startsWithin_tick hturn hn hslice hwithin hst with ⟨hcur, -⟩ | ⟨hcur, hwithin'⟩
    · rw [if_pos hcur] at hthread
      refine .current hcur (show s.ticks + 1 ≤ _ by omega) fun hw => ?_
      have : m.cpu.pc.waiting = false := hthread ▸ hsaved
      exact absurd (this.symm.trans hw) Bool.false_ne_true
    · have hne' : m.kernel.currentPid ≠ some p := fun hc => hne (hcur hc)
      rw [if_neg hne'] at hthread
      exact .queued hne' (hthread ▸ hsaved) hwithin' (show s.ticks + 1 + w ≤ _ by omega)

theorem LateInv.tick (h : LateInv (n + 1) pitCounter s) (hn : n + 1 < maxProcesses) {m : Machine}
    (hprompt : s.Prompt .tick) (hst : s.machine.step .tick = some m) :
    LateInv (n + 1) pitCounter (s.record m .tick) := by
  have hturn := h.turn.tick hn hst
  have hcases := Machine.tick_turn h.turn hn h.slice hst
  have hslice : m.kernel.Sliced := by
    rcases hcases with ⟨-, -, -, h⟩ | ⟨-, -, -, -, h⟩ <;> exact h
  refine ⟨hturn, h.sleep.tick hst, hslice, fun p hp hsleep call hcall => ?_, h.returns⟩
  have hthread := Machine.thread_tick h.sleep.fit hst hp
  have hbefore := h.calls p hp
  change (m.thread p).pc.sleeping = true at hsleep
  rw [hthread] at hsleep
  rw [Machine.thread] at hbefore
  split at hsleep
  · next hc =>
    rw [if_pos hc] at hbefore hthread
    have hs := (wake_sleeping _).symm.trans hsleep
    have hpc := hprompt rfl hs
    have h0 : p ≠ 0 := by
      obtain ⟨c, hc', h0⟩ := h.sleep.fit.caller (by rw [hpc]; exact Pc.noConfusion)
      exact fun hp0 => h0 ((Option.some.inj (hc'.symm.trans hc)).trans hp0)
    refine (hbefore hs call hcall).tick_current hc h0 (Nat.le_of_lt_succ hp) hpc hthread hslice ?_
    have hle : s.machine.kernel.started.length ≤ m.kernel.started.length := by
      rcases hcases with ⟨-, heq, -⟩ | ⟨q, -, heq, -⟩
      · rw [heq]
      · rw [heq, List.length_append]
        exact Nat.le_add_right _ _
    exact (h.turn.turn p hc h0).1.trans_le hle
  · next hc =>
    rw [if_neg hc] at hbefore hthread
    exact (hbefore hsleep call hcall).tick_queued hc h.turn hn h.slice hst hthread

/-! ### A step of the call -/

/-- The loop goes on because the call is not due. -/
theorem waiting_of_exec {k k' : Kernel ThreadMap} {c : ℕ} {u u' : Thread}
    (hst : ksyscallStep k c u = some (k', u')) (hw : u'.pc.waiting = true) :
    u.pc.waiting = true ∨ u.pc = .sleepCheck ∧ k.pitCounter - u.start < u.rdi := by
  cases hu : u.pc <;> simp only [ksyscallStep, hu, reduceCtorEq, Option.some.injEq,
    Prod.mk.injEq] at hst
  all_goals obtain ⟨-, rfl⟩ := hst
  case sleepCheck =>
    refine Or.inr ⟨rfl, ?_⟩
    by_contra hlt
    dsimp only at hw
    rw [if_neg hlt] at hw
    exact absurd hw Bool.false_ne_true
  case sleepStart | sleepRound | sleepReturn | getpid | hlt | yieldReady | yieldStore
    | yieldAdvance => exact absurd hw Bool.false_ne_true
  all_goals exact Or.inl rfl

/-- The difference has not wrapped around when the loop compares it. -/
theorem SleepCall.Tracks.lt_due {now : ℕ} {k : BitVec 64} {u : Thread}
    (h : call.Tracks pitCounter now u) (hpc : u.pc = .sleepCheck)
    (hcounter : k = pitCounter + BitVec.ofNat 64 now) (hle : now ≤ call.due + 100 * n)
    (hn : n < maxProcesses) (hlt : k - u.start < u.rdi) : now < call.due := by
  have hdiv : call.duration ≤ (2 ^ 64 - 1) / 10 := by
    rw [SleepCall.duration, BitVec.toNat_udiv]
    exact Nat.div_le_div_right (Nat.le_pred_of_lt (BitVec.isLt _))
  rw [hcounter, h.start, elapsed pitCounter h.order, h.after (by rw [hpc]; exact Pc.noConfusion),
    BitVec.lt_def, BitVec.toNat_ofNat] at hlt
  change _ < call.duration at hlt
  have := h.order
  have hmax : n < 128 := hn
  rw [SleepCall.due] at hle ⊢
  rw [Nat.mod_eq_of_lt (by omega)] at hlt
  omega

/-- A step of the process itself, unless it begins the call. -/
theorem OnTime.exec {m : Machine} (h : OnTime n p s call)
    (hc : s.machine.kernel.currentPid = some p)
    (htracks : call.Tracks pitCounter s.ticks s.machine.cpu)
    (hcounter : s.machine.kernel.pitCounter = pitCounter + BitVec.ofNat 64 s.ticks)
    (hn : n < maxProcesses)
    (hst : ksyscallStep s.machine.kernel p s.machine.cpu = some (m.kernel, m.cpu))
    (hcur : m.kernel.currentPid = some p) (hmachine : t.machine = m) (hticks : t.ticks = s.ticks) :
    OnTime n p t call := by
  cases h with
  | queued hne => exact absurd hc hne
  | current _ hle hwait =>
    subst hmachine
    refine .current hcur (hticks ▸ hle) fun hw => hticks ▸ ?_
    obtain hbefore | ⟨hpc, hlt⟩ := waiting_of_exec hst hw
    · exact hwait hbefore
    · exact htracks.lt_due hpc hcounter hle hn hlt

/-- A step of another process. -/
theorem OnTime.congr (h : OnTime n p s call) (hne : s.machine.kernel.currentPid ≠ some p)
    (hsame : SameFrames s.machine.kernel t.machine.kernel)
    (haccounts : Machine.SameAccounts s.machine.kernel t.machine.kernel)
    (huntil : t.machine.kernel.untilSwitch ≤ s.machine.kernel.untilSwitch)
    (hticks : t.ticks = s.ticks) : OnTime n p t call := by
  cases h with
  | current hc => exact absurd hc hne
  | queued _ hsaved hwithin hle =>
    exact .queued (hsame.currentPid ▸ hne) (hsame.saved p ▸ hsaved)
      (Machine.startsWithin_of_sameAccounts hwithin haccounts huntil) (hticks ▸ hle)

theorem LateInv.exec (h : LateInv (n + 1) pitCounter s) (hn : n + 1 < maxProcesses) {m : Machine}
    (hst : s.machine.step .exec = some m) : LateInv (n + 1) pitCounter (s.record m .exec) := by
  obtain ⟨c, hc, hstep⟩ := Machine.step_exec hst
  have hcn := h.sleep.fit.frames.current c hc
  have hsleep := h.sleep.exec hst
  have hsame := (Machine.ksyscallStep_spec hstep h.sleep.fit.flag).1
  have haccounts := Machine.sameAccounts_ksyscallStep hstep
  have huntil := h.slice.untilSwitch_le haccounts fun d => running_of_exec hstep
  have hcur : m.kernel.currentPid = some c := hsame.currentPid.trans hc
  have hthread := Machine.thread_of_sameFrames hsame
  -- what is left to show about a record that differs in the call of `c`
  have hinv : ∀ t : SleepHistory, t.machine = m → t.ticks = s.ticks →
      SleepInv (n + 1) pitCounter t → (∀ p, p ≠ c → t.calls p = s.calls p) →
      (m.cpu.pc.sleeping = true → ∀ call, t.calls c = some call → OnTime (n + 1) c t call) →
      (∀ r ∈ t.returns, r.InTime (n + 1)) → LateInv (n + 1) pitCounter t := by
    rintro t rfl hticks hsleep hne hself hreturns
    refine ⟨h.turn.exec hn hst, hsleep, h.slice.congr haccounts, fun p hp hs call hcall => ?_,
      hreturns⟩
    rcases eq_or_ne p c with rfl | hpc
    · rw [Machine.thread, if_pos hcur] at hs
      exact hself hs call hcall
    · have hcp : s.machine.kernel.currentPid ≠ some p :=
        fun h => hpc (Option.some.inj (h.symm.trans hc))
      have hbefore := h.calls p hp
      rw [Machine.thread, if_neg hcp] at hbefore
      rw [hthread p, if_neg hcp] at hs
      exact (hbefore hs call (hne p hpc ▸ hcall)).congr hcp hsame haccounts huntil hticks
  have hcalls := h.calls c hcn
  have htracks := h.sleep.calls c hcn
  rw [Machine.thread, if_pos hc] at hcalls htracks
  by_cases hstart : s.machine.cpu.pc = .sleepStart
  · rw [SleepHistory.record_start hc hstart] at hsleep ⊢
    refine hinv _ rfl rfl hsleep (fun p hp => Function.update_of_ne hp _ _) ?_ h.returns
    intro _ call hcall
    dsimp only at hcall
    rw [Function.update_self] at hcall
    obtain rfl := Option.some.inj hcall
    refine .current hcur (Nat.le_add_right _ _ |>.trans (Nat.le_add_right _ _)) fun hw => ?_
    simp only [ksyscallStep, hstart, Option.some.injEq, Prod.mk.injEq] at hstep
    change m.cpu.pc.waiting = true at hw
    rw [← hstep.2] at hw
    exact absurd hw Bool.false_ne_true
  by_cases hreturn : s.machine.cpu.pc = .sleepReturn
  · obtain ⟨call, hcall, htrack⟩ := htracks (by rw [hreturn]; rfl)
    have honTime := hcalls (by rw [hreturn]; rfl) call hcall
    obtain ⟨huser, hret⟩ := htrack.returns h.sleep.counter hstep hreturn
    rw [SleepHistory.record_return hc hreturn hcall] at hsleep ⊢
    refine hinv _ rfl rfl hsleep (fun p hp => Function.update_of_ne hp _ _) (fun hs => ?_)
      fun r hr => ?_
    · rw [huser] at hs
      exact absurd hs Bool.false_ne_true
    · rcases List.mem_cons.mp hr with rfl | hr
      · refine ⟨?_, honTime.le⟩
        have := hret.ticks
        have := hret.order
        change call.startTick + ((call.requested + 9) / 10).toNat ≤ s.ticks
        dsimp only at *
        omega
      · exact h.returns r hr
  · rw [SleepHistory.record_other hstart hreturn] at hsleep ⊢
    refine hinv _ rfl rfl hsleep (fun _ _ => rfl) (fun hs call hcall => ?_) h.returns
    have hbefore := sleeping_of_exec hstep hstart hs
    obtain ⟨call', hcall', htrack⟩ := htracks hbefore
    obtain rfl := Option.some.inj (hcall'.symm.trans hcall)
    exact (hcalls hbefore _ hcall).exec hc htrack h.sleep.counter hn hstep hcur rfl rfl

/-! ### Runs -/

theorem LateInv.step (h : LateInv (n + 1) pitCounter s) (hn : n + 1 < maxProcesses) {e : Event}
    (hyield : e ≠ .syscall .yield) (hprompt : s.Prompt e) (hst : s.step e = some t) :
    LateInv (n + 1) pitCounter t := by
  obtain ⟨m, hm, rfl⟩ := Option.map_eq_some_iff.mp hst
  cases e with
  | tick => exact h.tick hn hprompt hm
  | exec => exact h.exec hn hm
  | compute =>
    obtain rfl := Machine.step_compute hm
    exact h
  | syscall request =>
    have hturn := h.turn.step hn hyield hm
    have hsleep := h.sleep.step hst
    obtain ⟨c, hc, h0, hu, rfl⟩ := Machine.step_syscall hm
    refine ⟨hturn, hsleep, h.slice, fun p hp hs call hcall => ?_, h.returns⟩
    have hbefore := h.calls p hp
    change (Machine.thread ⟨s.machine.kernel, s.machine.cpu.enter request⟩ p).pc.sleeping = true
      at hs
    rw [Machine.thread] at hs hbefore
    by_cases hcp : s.machine.kernel.currentPid = some p
    · rw [if_pos hcp] at hs
      cases request <;> simp [Thread.enter, Pc.sleeping, hu] at hs
    · rw [if_neg hcp] at hs hbefore
      exact (hbefore hs call hcall).congr hcp (SameFrames.refl _)
        ⟨rfl, rfl, rfl, fun _ => rfl, fun _ => rfl⟩ le_rfl rfl

theorem lateInv_initial (mem : ThreadMap) (init userTask pitCounter : BitVec 64)
    (hn : n < maxProcesses) :
    LateInv n pitCounter (SleepHistory.initial mem init userTask pitCounter n) := by
  have hsleep := sleepInv_initial mem init userTask pitCounter hn
  obtain ⟨-, hcpu, hsaved, hstarted, hidle, -⟩ := turnInv_initial mem init userTask hn
  have hnone : (SleepHistory.initial mem init userTask pitCounter n).machine.kernel.currentPid
      = none := (setupSpec_boot mem init userTask hn).currentPid
  have hcurrent : ∀ c,
      (SleepHistory.initial mem init userTask pitCounter n).machine.kernel.currentPid ≠ some c :=
    fun c hc => Option.some_ne_none c (hc.symm.trans hnone)
  refine ⟨⟨hsleep.fit, hcpu, hsaved, hstarted, hidle, fun c hc => absurd hc (hcurrent c)⟩, hsleep,
    fun c hc => absurd hc (hcurrent c), fun p hp hs => ?_, fun r hr => absurd hr List.not_mem_nil⟩
  have huser : ((SleepHistory.initial mem init userTask pitCounter n).machine.thread p).pc
      = .user := by
    rw [Machine.thread, if_neg (hcurrent p)]
    exact Machine.saved_initial_pc mem init userTask hn hp
  rw [huser] at hs
  exact absurd hs Bool.false_ne_true

/-- **A sleeper is at most `100 * n` ticks late**, `n` being the number of user processes: in every
prompt run in which no process calls `yield`, the calls that have returned lasted for their rounded
duration and at most `100 * n` ticks more, and no call in progress is later than that. -/
theorem sleep_onTime (mem : ThreadMap) (init userTask pitCounter : BitVec 64) (hpos : 1 ≤ n)
    (hn : n < maxProcesses) (es : List Event)
    (hprompt : Along SleepHistory.step (fun s e => e ≠ .syscall .yield ∧ s.Prompt e)
      (SleepHistory.initial mem init userTask pitCounter n) es)
    (hrun : run SleepHistory.step (SleepHistory.initial mem init userTask pitCounter n) es
      = some s) :
    (∀ r ∈ s.returns, r.InTime n) ∧
      ∀ p < n + 1, (s.machine.thread p).pc.sleeping = true →
        ∃ call, s.calls p = some call ∧ s.ticks ≤ call.due + 100 * n := by
  obtain ⟨n, rfl⟩ := Nat.exists_eq_add_of_le' hpos
  have h : LateInv (n + 1) pitCounter s := invariant_of_along (LateInv (n + 1) pitCounter)
    (fun _ _ _ hi he hst => hi.step hn he.1 he.2 hst)
    (lateInv_initial mem init userTask pitCounter hn) hprompt hrun
  refine ⟨h.returns, fun p hp hs => ?_⟩
  obtain ⟨call, hcall, -⟩ := h.sleep.calls p hp hs
  exact ⟨call, hcall, (h.calls p hp hs call hcall).le⟩

/-- The theorem at a run in which process 1 has slept for its two ticks and two more, and process 2,
which went to sleep after it, is still about to find out that its time is over. -/
theorem sleep_onTime_sleepingRound : ∃ t,
    run SleepHistory.step SleepHistory.source sleepingRound = some t ∧
    (t.returns.map fun r => (r.duration, r.startTick, r.endTick)) = [(2, 2, 6)] ∧
    (∀ r ∈ t.returns, r.InTime 4) ∧
    (t.machine.thread 2).pc.sleeping = true ∧ ∀ p < 4 + 1,
      (t.machine.thread p).pc.sleeping = true →
        ∃ call, t.calls p = some call ∧ t.ticks ≤ call.due + 100 * 4 := by
  have hstate : (run SleepHistory.step SleepHistory.source sleepingRound).map (fun t =>
      (t.returns.map fun r => (r.duration, r.startTick, r.endTick),
        (t.machine.thread 2).pc.sleeping)) = some ([(2, 2, 6)], true) := by
    decide +kernel
  have hprompt : Along SleepHistory.step (fun s e => e ≠ .syscall .yield ∧ s.Prompt e)
      SleepHistory.source sleepingRound := by
    decide +kernel
  obtain ⟨t, ht, hvalues⟩ := Option.map_eq_some_iff.mp hstate
  obtain ⟨hreturns, hsleeping⟩ := Prod.mk.injEq .. ▸ hvalues
  obtain ⟨hin, hpending⟩ := sleep_onTime _ _ _ 0 (by decide) (by decide) sleepingRound hprompt ht
  exact ⟨t, ht, hreturns, hin, hsleeping, hpending⟩

end FrogOS
