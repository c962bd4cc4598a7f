import FrogOS.Syscall

/-!
# How long `SYSCALL_SLEEP` sleeps

The call rounds the requested milliseconds up to ticks, and leaves its loop when `pit_counter` has
moved by that many since it read it first. Between the two reads the process is interrupted, queued
and dispatched again any number of times; none of this touches its variables, so what the loop tests
is the number of ticks since the call began. The sum `state->rdi + 9` is one of 64 bits: the nine
largest durations wrap around to a sleep of no ticks at all.

A `SleepHistory` runs the machine of `FrogOS.Syscall` and keeps a record of the calls: the number of
ticks so far, the calls in progress, and the calls that have returned.

## Main definitions

* `SleepHistory`, `SleepHistory.step` — the machine with its record
* `SleepReturn.Right` — what is expected of a call
* `SleepInv` — the invariant

## Main results

* `sleep_right_iff` — in every run, the calls that return are right exactly when their duration does
  not wrap around
-/

namespace FrogOS

open Kernel StepSystem

/-- A call in progress. -/
structure SleepCall where
  /-- The duration, in milliseconds. -/
  requested : BitVec 64
  /-- The number of ticks when `start` is read. -/
  startTick : ℕ

/-- A call that has returned. -/
structure SleepReturn extends SleepCall where
  /-- The number of ticks when it returns. -/
  endTick : ℕ
  rax : BitVec 64

/-- The machine, with a record of the ticks and of the calls of each process. -/
structure SleepHistory where
  machine : Machine
  ticks : ℕ
  calls : ℕ → Option SleepCall
  returns : List SleepReturn

namespace SleepHistory

/-- The state `setup_process` leaves, `pit_counter` having any value. -/
def initial (mem : ThreadMap) (init userTask pitCounter : BitVec 64) (n : ℕ) : SleepHistory where
  machine :=
    let m := Machine.initial mem init userTask n
    { m with kernel := { m.kernel with pitCounter := pitCounter } }
  ticks := 0
  calls := fun _ => none
  returns := []

/-- The step of the machine, which becomes `m`, and the record of it. -/
def record (s : SleepHistory) (m : Machine) : Event → SleepHistory
  | .tick => { s with machine := m, ticks := s.ticks + 1 }
  | .exec => match s.machine.kernel.currentPid, s.machine.cpu.pc with
    | some c, .sleepStart =>
      { s with
        machine := m
        calls := Function.update s.calls c (some ⟨s.machine.cpu.rdi, s.ticks⟩) }
    | some c, .sleepReturn =>
      { s with
        machine := m
        calls := Function.update s.calls c none
        returns := (s.calls c).toList.map (fun call => ⟨call, s.ticks, m.cpu.rax⟩) ++ s.returns }
    | _, _ => { s with machine := m }
  | .syscall _ | .compute => { s with machine := m }

def step (s : SleepHistory) (e : Event) : Option SleepHistory :=
  (s.machine.step e).map fun m => s.record m e

end SleepHistory

/-- The call has lasted for the requested time, rounded up to ticks, and returns ten times the
number of ticks. -/
structure SleepReturn.Right (r : SleepReturn) : Prop where
  order : r.startTick ≤ r.endTick
  ticks : (r.requested.toNat + 9) / 10 ≤ r.endTick - r.startTick
  atLeast : r.requested.toNat ≤ r.rax.toNat
  rax : r.rax.toNat = 10 * (r.endTick - r.startTick)

/-- `start` has been read, and the call has not returned. -/
def Pc.sleeping : Pc → Bool
  | sleepRound | sleepCheck | sleepDisable | sleepStore | sleepAdvance | sleepReady | sleepEnable
  | sleepHlt | sleepHalted | sleepReturn => true
  | _ => false

/-- What the variables of a call in progress hold, `now` ticks after the start of the run. -/
structure SleepCall.Tracks (call : SleepCall) (pitCounter : BitVec 64) (now : ℕ) (t : Thread) :
    Prop where
  order : call.startTick ≤ now
  start : t.start = pitCounter + BitVec.ofNat 64 call.startTick
  before : t.pc = .sleepRound → t.rdi = call.requested
  after : t.pc ≠ .sleepRound → t.rdi = (call.requested + 9) / 10
  done : t.pc = .sleepReturn → t.rdi.toNat ≤ now - call.startTick

/-- What is known of a call that has returned. -/
structure SleepReturn.Tracks (r : SleepReturn) (now : ℕ) : Prop where
  order : r.startTick ≤ r.endTick
  past : r.endTick ≤ now
  ticks : ((r.requested + 9) / 10).toNat ≤ r.endTick - r.startTick
  rax : r.rax = 10 * BitVec.ofNat 64 (r.endTick - r.startTick)

/-- The invariant, `pitCounter` being the value the counter starts with. -/
structure SleepInv (n : ℕ) (pitCounter : BitVec 64) (s : SleepHistory) : Prop where
  fit : s.machine.Fit n
  counter : s.machine.kernel.pitCounter = pitCounter + BitVec.ofNat 64 s.ticks
  calls : ∀ p < n + 1, (s.machine.thread p).pc.sleeping = true →
    ∃ call, s.calls p = some call ∧ call.Tracks pitCounter s.ticks (s.machine.thread p)
  returns : ∀ r ∈ s.returns, r.Tracks s.ticks

variable {n : ℕ} {pitCounter : BitVec 64} {s t : SleepHistory} {now : ℕ} {u u' : Thread}
  {call : SleepCall}

theorem sleepInv_initial (mem : ThreadMap) (init userTask pitCounter : BitVec 64)
    (hn : n < maxProcesses) :
    SleepInv n pitCounter (SleepHistory.initial mem init userTask pitCounter n) := by
  have hfit := Machine.fit_initial mem init userTask hn
  have hnone : (Machine.initial mem init userTask n).kernel.currentPid = none :=
    (setupSpec_boot mem init userTask hn).currentPid
  refine ⟨⟨hfit.frames.congr (sameFrames_runQueue _ _ _) hfit.frames.slots, hfit.flag, hfit.caller,
    hfit.saved⟩, ?_, fun p hp hsleep => ?_, fun r hr => ?_⟩
  · change pitCounter = pitCounter + BitVec.ofNat 64 0
    simp
  · have huser : ((SleepHistory.initial mem init userTask pitCounter n).machine.thread p).pc
        = .user := by
      rw [Machine.thread, if_neg]
      · exact Machine.saved_initial_pc mem init userTask hn hp
      · intro h
        exact Option.some_ne_none p (h.symm.trans hnone)
    rw [huser] at hsleep
    exact absurd hsleep Bool.false_ne_true
  · exact absurd hr List.not_mem_nil

/-! ### A tick -/

theorem wake_sleeping (u : Thread) : u.wake.pc.sleeping = u.pc.sleeping := by
  rw [Thread.wake]
  split <;> rename_i h <;> first | rw [h]; rfl | rfl

theorem SleepCall.Tracks.later (h : call.Tracks pitCounter now u) {now' : ℕ} (hle : now ≤ now') :
    call.Tracks pitCounter now' u :=
  ⟨h.order.trans hle, h.start, h.before, h.after,
    fun hpc => (h.done hpc).trans (Nat.sub_le_sub_right hle _)⟩

/-- An interrupt leaves the variables alone. -/
theorem SleepCall.Tracks.wake (h : call.Tracks pitCounter now u) :
    call.Tracks pitCounter now u.wake := by
  rw [Thread.wake]
  split
  · next hpc =>
    exact ⟨h.order, h.start, fun hne => Pc.noConfusion hne,
      fun _ => h.after (by rw [hpc]; exact Pc.noConfusion), fun hne => Pc.noConfusion hne⟩
  · next hpc =>
    exact ⟨h.order, h.start, fun hne => Pc.noConfusion hne,
      fun _ => h.after (by rw [hpc]; exact Pc.noConfusion), fun hne => Pc.noConfusion hne⟩
  · exact h

theorem SleepInv.tick (h : SleepInv n pitCounter s) {m : Machine}
    (hst : s.machine.step .tick = some m) : SleepInv n pitCounter (s.record m .tick) := by
  refine ⟨h.fit.step hst, ?_, fun p hp hsleep => ?_, fun r hr => ?_⟩
  · change m.kernel.pitCounter = pitCounter + BitVec.ofNat 64 (s.ticks + 1)
    rw [(Machine.step_tick_eq hst).2.1, pitHandler_pitCounter, h.counter, add_assoc,
      BitVec.ofNat_add]
    rfl
  · change (m.thread p).pc.sleeping = true at hsleep
    change ∃ call, s.calls p = some call ∧ call.Tracks pitCounter (s.ticks + 1) (m.thread p)
    have hcall := h.calls p hp
    rw [Machine.thread_tick h.fit hst hp] at hsleep ⊢
    rw [Machine.thread] at hcall
    split at hsleep
    · next hc =>
      rw [if_pos hc] at hcall ⊢
      obtain ⟨call, heq, htracks⟩ := hcall ((wake_sleeping _).symm.trans hsleep)
      exact ⟨call, heq, htracks.wake.later (Nat.le_succ _)⟩
    · next hc =>
      rw [if_neg hc] at hcall ⊢
      obtain ⟨call, heq, htracks⟩ := hcall hsleep
      exact ⟨call, heq, htracks.later (Nat.le_succ _)⟩
  · have := h.returns r hr
    exact ⟨this.order, this.past.trans (Nat.le_succ _), this.ticks, this.rax⟩

/-! ### A step of the call -/

/-- The difference of two readings of the counter is the number of ticks between them. -/
theorem elapsed (p : BitVec 64) {a b : ℕ} (h : a ≤ b) :
    p + BitVec.ofNat 64 b - (p + BitVec.ofNat 64 a) = BitVec.ofNat 64 (b - a) := by
  obtain ⟨d, rfl⟩ := Nat.exists_eq_add_of_le h
  rw [Nat.add_sub_cancel_left, BitVec.ofNat_add, ← BitVec.add_assoc, BitVec.add_comm,
    BitVec.add_sub_cancel]

/-- One step of a call in progress, other than the last one. -/
theorem SleepCall.Tracks.exec {k k' : Kernel ThreadMap} {c : ℕ} (h : call.Tracks pitCounter now u)
    (hcounter : k.pitCounter = pitCounter + BitVec.ofNat 64 now) (hsleep : u.pc.sleeping = true)
    (hst : ksyscallStep k c u = some (k', u')) (hpc : u.pc ≠ .sleepReturn) :
    call.Tracks pitCounter now u' := by
  cases hu : u.pc <;> simp only [ksyscallStep, hu, reduceCtorEq, Option.some.injEq,
    Prod.mk.injEq] at hst
  case sleepReturn => exact absurd hu hpc
  all_goals obtain ⟨rfl, rfl⟩ := hst
  case sleepRound =>
    refine ⟨h.order, h.start, fun hne => Pc.noConfusion hne, fun _ => ?_,
      fun hne => Pc.noConfusion hne⟩
    dsimp only
    rw [h.before hu]
  case sleepCheck =>
    have hrdi := h.after (by rw [hu]; exact Pc.noConfusion)
    refine ⟨h.order, h.start, fun hne => ?_, fun _ => hrdi, fun hdone => ?_⟩
    · dsimp only at hne
      split at hne <;> exact Pc.noConfusion hne
    · -- the loop is left when the difference has reached the rounded duration
      dsimp only at hdone ⊢
      split at hdone
      · exact Pc.noConfusion hdone
      · next hlt =>
        have hdiff : k.pitCounter - u.start = BitVec.ofNat 64 (now - call.startTick) := by
          rw [hcounter, h.start, elapsed pitCounter h.order]
        rw [hdiff, BitVec.not_lt, BitVec.le_def, BitVec.toNat_ofNat] at hlt
        exact hlt.trans (Nat.mod_le _ _)
  case sleepStart | getpid | hlt | yieldReady | yieldStore | yieldAdvance =>
    rw [hu] at hsleep
    exact absurd hsleep Bool.false_ne_true
  all_goals
    exact ⟨h.order, h.start, fun hne => Pc.noConfusion hne,
      fun _ => h.after (by rw [hu]; exact Pc.noConfusion), fun hne => Pc.noConfusion hne⟩

/-- A call that goes on is in progress already. -/
theorem sleeping_of_exec {k k' : Kernel ThreadMap} {c : ℕ}
    (hst : ksyscallStep k c u = some (k', u')) (hpc : u.pc ≠ .sleepStart)
    (hsleep : u'.pc.sleeping = true) : u.pc.sleeping = true := by
  cases hu : u.pc <;> simp only [ksyscallStep, hu, reduceCtorEq, Option.some.injEq,
    Prod.mk.injEq] at hst
  case sleepStart => exact absurd hu hpc
  case getpid | hlt | yieldReady | yieldStore | yieldAdvance =>
    obtain ⟨rfl, rfl⟩ := hst
    exact absurd hsleep Bool.false_ne_true
  all_goals rfl

/-- The last step of a call. -/
theorem SleepCall.Tracks.returns {k k' : Kernel ThreadMap} {c : ℕ}
    (h : call.Tracks pitCounter now u) (hcounter : k.pitCounter = pitCounter + BitVec.ofNat 64 now)
    (hst : ksyscallStep k c u = some (k', u')) (hpc : u.pc = .sleepReturn) :
    u'.pc = .user ∧ SleepReturn.Tracks ⟨call, now, u'.rax⟩ now := by
  simp only [ksyscallStep, hpc, Option.some.injEq, Prod.mk.injEq] at hst
  obtain ⟨rfl, rfl⟩ := hst
  refine ⟨rfl, h.order, le_rfl, ?_, ?_⟩
  · rw [← h.after (by rw [hpc]; exact Pc.noConfusion)]
    exact h.done hpc
  · dsimp only
    rw [hcounter, h.start, elapsed pitCounter h.order]

namespace SleepHistory

variable {m : Machine} {c : ℕ}

theorem record_start (hc : s.machine.kernel.currentPid = some c)
    (hpc : s.machine.cpu.pc = .sleepStart) :
    s.record m .exec = { s with
      machine := m
      calls := Function.update s.calls c (some ⟨s.machine.cpu.rdi, s.ticks⟩) } := by
  simp only [record, hc, hpc]

theorem record_return (hc : s.machine.kernel.currentPid = some c)
    (hpc : s.machine.cpu.pc = .sleepReturn) (hcall : s.calls c = some call) :
    s.record m .exec = { s with
      machine := m
      calls := Function.update s.calls c none
      returns := ⟨call, s.ticks, m.cpu.rax⟩ :: s.returns } := by
  simp only [record, hc, hpc, hcall]
  rfl

theorem record_other (hstart : s.machine.cpu.pc ≠ .sleepStart)
    (hreturn : s.machine.cpu.pc ≠ .sleepReturn) : s.record m .exec = { s with machine := m } := by
  rw [record]
  split
  · next h => exact absurd h hstart
  · next h => exact absurd h hreturn
  · rfl

end SleepHistory

/-- A step of `ksyscall` by process `c`: only its own call can begin, go on or return. -/
theorem SleepInv.exec (h : SleepInv n pitCounter s) {m : Machine}
    (hst : s.machine.step .exec = some m) : SleepInv n pitCounter (s.record m .exec) := by
  obtain ⟨c, hc, hstep⟩ := Machine.step_exec hst
  have hcalls := h.calls c (h.fit.frames.current c hc)
  have hcounter := (Machine.ksyscallStep_pitCounter hstep).trans h.counter
  have hthread := Machine.thread_of_sameFrames (Machine.ksyscallStep_spec hstep h.fit.flag).1
  rw [Machine.thread, if_pos hc] at hcalls
  -- what is left to show about a record that differs in the call of `c`
  have hinv : ∀ calls returns, (∀ p, p ≠ c → calls p = s.calls p) →
      (m.cpu.pc.sleeping = true →
        ∃ call, calls c = some call ∧ call.Tracks pitCounter s.ticks m.cpu) →
      (∀ r ∈ returns, SleepReturn.Tracks r s.ticks) →
      SleepInv n pitCounter ⟨m, s.ticks, calls, returns⟩ := by
    refine fun calls returns hne hself hreturns =>
      ⟨h.fit.step hst, hcounter, fun p hp hsleep => ?_, hreturns⟩
    change (m.thread p).pc.sleeping = true at hsleep
    change ∃ call, calls p = some call ∧ call.Tracks pitCounter s.ticks (m.thread p)
    rw [hthread p] at hsleep ⊢
    rcases eq_or_ne p c with rfl | hpc
    · rw [if_pos hc] at hsleep ⊢
      exact hself hsleep
    · have hcp : s.machine.kernel.currentPid ≠ some p :=
        fun h => hpc (Option.some.inj (h.symm.trans hc))
      have := h.calls p hp
      rw [Machine.thread, if_neg hcp] at this
      rw [if_neg hcp] at hsleep ⊢
      rw [hne p hpc]
      exact this hsleep
  by_cases hstart : s.machine.cpu.pc = .sleepStart
  · rw [SleepHistory.record_start hc hstart]
    refine hinv _ _ (fun p hp => Function.update_of_ne hp _ _) (fun _ => ?_) h.returns
    refine ⟨_, Function.update_self _ _ _, ?_⟩
    simp only [ksyscallStep, hstart, Option.some.injEq, Prod.mk.injEq] at hstep
    rw [← hstep.2]
    exact ⟨le_rfl, h.counter, fun _ => rfl, fun hne => absurd rfl hne,
      fun hne => Pc.noConfusion hne⟩
  by_cases hreturn : s.machine.cpu.pc = .sleepReturn
  · obtain ⟨call, hcall, htracks⟩ := hcalls (by rw [hreturn]; rfl)
    obtain ⟨huser, hret⟩ := htracks.returns h.counter hstep hreturn
    rw [SleepHistory.record_return hc hreturn hcall]
    refine hinv _ _ (fun p hp => Function.update_of_ne hp _ _) (fun hsleep => ?_) fun r hr => ?_
    · rw [huser] at hsleep
      exact absurd hsleep Bool.false_ne_true
    · rcases List.mem_cons.mp hr with rfl | hr
      · exact hret
      · exact h.returns r hr
  · rw [SleepHistory.record_other hstart hreturn]
    refine hinv _ _ (fun _ _ => rfl) (fun hsleep => ?_) h.returns
    have hbefore := sleeping_of_exec hstep hstart hsleep
    obtain ⟨call, hcall, htracks⟩ := hcalls hbefore
    exact ⟨call, hcall, htracks.exec h.counter hbefore hstep hreturn⟩

theorem SleepInv.step (h : SleepInv n pitCounter s) {e : Event} (hst : s.step e = some t) :
    SleepInv n pitCounter t := by
  obtain ⟨m, hm, rfl⟩ := Option.map_eq_some_iff.mp hst
  cases e with
  | tick => exact h.tick hm
  | exec => exact h.exec hm
  | compute =>
    obtain rfl := Machine.step_compute hm
    exact h
  | syscall request =>
    obtain ⟨c, hc, h0, hu, rfl⟩ := Machine.step_syscall hm
    refine ⟨h.fit.step hm, h.counter, fun p hp hsleep => ?_, h.returns⟩
    have hcall := h.calls p hp
    change (Machine.thread ⟨s.machine.kernel, s.machine.cpu.enter request⟩ p).pc.sleeping = true
      at hsleep
    change ∃ call, s.calls p = some call ∧ call.Tracks pitCounter s.ticks
      (Machine.thread ⟨s.machine.kernel, s.machine.cpu.enter request⟩ p)
    rw [Machine.thread] at hsleep ⊢
    rw [Machine.thread] at hcall
    by_cases hcp : s.machine.kernel.currentPid = some p
    · -- the caller has not read `start` yet
      rw [if_pos hcp] at hsleep
      cases request <;> simp [Thread.enter, Pc.sleeping, hu] at hsleep
    · rw [if_neg hcp] at hsleep hcall ⊢
      exact hcall hsleep

/-! ### The calls that have returned -/

/-- The rounded duration, where the sum does not wrap around. -/
theorem toNat_rounded {r : BitVec 64} (h : r.toNat + 9 < 2 ^ 64) :
    ((r + 9) / 10).toNat = (r.toNat + 9) / 10 := by
  rw [BitVec.toNat_udiv, BitVec.toNat_add, Nat.mod_eq_of_lt]
  · rfl
  · exact h

theorem toNat_tenfold {k : ℕ} (h : 10 * k < 2 ^ 64) : (10 * BitVec.ofNat 64 k).toNat = 10 * k := by
  have h10 : (10 : BitVec 64).toNat = 10 := rfl
  rw [BitVec.toNat_mul, h10, BitVec.toNat_ofNat, Nat.mod_eq_of_lt (by omega : k < 2 ^ 64),
    Nat.mod_eq_of_lt h]

theorem SleepReturn.Tracks.right_iff {r : SleepReturn} (h : r.Tracks now) (hnow : now < 2 ^ 60) :
    r.Right ↔ r.requested.toNat + 9 < 2 ^ 64 := by
  obtain ⟨horder, hpast, hticks, hrax⟩ := h
  constructor
  · intro hright
    have := hright.ticks
    omega
  · intro hlt
    rw [toNat_rounded hlt] at hticks
    have htoNat : r.rax.toNat = 10 * (r.endTick - r.startTick) := by
      rw [hrax, toNat_tenfold (by omega)]
    exact ⟨horder, hticks, by omega, htoNat⟩

theorem sleepInv_of_run (mem : ThreadMap) (init userTask pitCounter : BitVec 64)
    (hn : n < maxProcesses) {es : List Event}
    (hrun : run SleepHistory.step (SleepHistory.initial mem init userTask pitCounter n) es
      = some s) : SleepInv n pitCounter s :=
  invariant_of_run (SleepInv n pitCounter) (fun _ _ _ hi hst => hi.step hst)
    (sleepInv_initial mem init userTask pitCounter hn) hrun

/-- **`SYSCALL_SLEEP` never returns early, and returns the time slept, exactly when the duration
plus nine does not wrap around**: in every run of fewer than `2 ^ 60` ticks, for every call that has
returned. -/
theorem sleep_right_iff (mem : ThreadMap) (init userTask pitCounter : BitVec 64)
    (hn : n < maxProcesses) (es : List Event)
    (hrun : run SleepHistory.step (SleepHistory.initial mem init userTask pitCounter n) es = some s)
    (hticks : s.ticks < 2 ^ 60) :
    ∀ r ∈ s.returns, r.Right ↔ r.requested.toNat + 9 < 2 ^ 64 := by
  intro r hr
  have h := sleepInv_of_run mem init userTask pitCounter hn hrun
  exact (h.returns r hr).right_iff hticks

/-! ### The longest duration -/

namespace SleepHistory

theorem record_machine (s : SleepHistory) (m : Machine) (e : Event) :
    (s.record m e).machine = m := by
  cases e with
  | exec =>
    rw [record]
    split <;> rfl
  | tick | syscall _ | compute => rfl

theorem record_ticks_le (s : SleepHistory) (m : Machine) (e : Event) :
    (s.record m e).ticks ≤ s.ticks + 1 := by
  cases e with
  | exec =>
    rw [record]
    split <;> exact Nat.le_succ _
  | tick => exact le_rfl
  | syscall _ | compute => exact Nat.le_succ _

/-- The record stops no run of the machine. -/
theorem exists_run (es : List Event) : ∀ (s : SleepHistory) {m : Machine},
    run Machine.step s.machine es = some m →
    ∃ t, run step s es = some t ∧ t.machine = m ∧ t.ticks ≤ s.ticks + es.length := by
  induction es with
  | nil =>
    intro s m h
    obtain rfl := Option.some.inj h
    exact ⟨s, rfl, rfl, le_rfl⟩
  | cons e es ih =>
    intro s m h
    obtain ⟨m₁, hm₁, h⟩ := run_cons_eq_some.mp h
    have hst : s.step e = some (s.record m₁ e) := by rw [step, hm₁, Option.map_some]
    obtain ⟨t, ht, hm, hle⟩ := ih (s.record m₁ e) (by rw [record_machine]; exact h)
    have := record_ticks_le s m₁ e
    exact ⟨t, run_cons_eq_some.mpr ⟨_, hst, ht⟩, hm, by rw [List.length_cons]; omega⟩

/-- The first two ticks start the first user process. -/
theorem exists_started (mem : ThreadMap) (init userTask pitCounter : BitVec 64)
    (hn : n < maxProcesses) (h0 : 0 < n) :
    ∃ t, run step (initial mem init userTask pitCounter n) [.tick, .tick] = some t ∧
      t.machine.kernel.currentPid = some 1 ∧ t.machine.cpu.pc = .user ∧ t.ticks ≤ 2 := by
  have h := setupSpec_boot mem init userTask hn
  have hfit := (sleepInv_initial mem init userTask pitCounter hn).fit
  have hif : (initial mem init userTask pitCounter n).machine.cpu.interruptFlag = true := rfl
  have hnone : (initial mem init userTask pitCounter n).machine.kernel.currentPid = none :=
    h.currentPid
  have hqueue : (initial mem init userTask pitCounter n).machine.kernel.runQueue.toList
      = List.range' 1 n := h.runQueue
  have hsaved : ((initial mem init userTask pitCounter n).machine.kernel.saved 1).pc = .user :=
    Machine.saved_initial_pc mem init userTask hn (Nat.succ_lt_succ h0)
  have hcons : List.range' 1 n = 1 :: List.range' 2 (n - 1) := by
    rw [← Nat.sub_add_cancel h0, List.range'_succ, Nat.add_sub_cancel]
  obtain ⟨m, hm, -, hc, -, hu⟩ := Machine.exists_started hfit hif hnone (hqueue.trans hcons)
    Nat.one_ne_zero (Nat.succ_lt_succ h0) hsaved
  obtain ⟨t, ht, rfl, hle⟩ := exists_run _ _ hm
  exact ⟨t, ht, hc, hu, hle⟩

/-- The four user processes of the source, on a memory of new frames. -/
def source : SleepHistory :=
  initial ⟨fun _ => initialThread ⟨0, false, 0, 0⟩⟩ 0x200000 0x200100 0 4

/-- A call by process `c`, undisturbed, for the longest duration. -/
theorem exists_wrapped {c : ℕ} (hc : s.machine.kernel.currentPid = some c) (h0 : c ≠ 0)
    (hu : s.machine.cpu.pc = .user) :
    ∃ t, run step s [.syscall (.sleep 0xffffffffffffffff), .exec, .exec, .exec, .exec] = some t ∧
      t.ticks = s.ticks ∧ ∃ r ∈ t.returns, r.requested = 0xffffffffffffffff := by
  simp [run, step, record, Machine.step, hc, h0, hu, Thread.enter, ksyscallStep]

/-- Two ticks start process 1, which makes that call. -/
theorem exists_source_wrapped : ∃ t, run step source
      ([.tick, .tick] ++ [.syscall (.sleep 0xffffffffffffffff), .exec, .exec, .exec, .exec])
        = some t ∧
    t.ticks < 2 ^ 60 ∧ ∃ r ∈ t.returns, r.requested = 0xffffffffffffffff := by
  obtain ⟨t₁, ht₁, hc, hu, hle⟩ := exists_started
    ⟨fun _ => initialThread ⟨0, false, 0, 0⟩⟩ 0x200000 0x200100 0 (by decide : 4 < maxProcesses)
    (by decide)
  obtain ⟨t, ht, hticks, hr⟩ := exists_wrapped hc (by decide) hu
  refine ⟨t, ?_, ?_, hr⟩
  · rw [run_append, source, ht₁, Option.bind_some, ht]
  · rw [hticks]
    exact hle.trans_lt (by omega)

end SleepHistory

/-- The theorem at a run in which a call returns. -/
theorem sleep_right_iff_longest : ∃ es t, run SleepHistory.step SleepHistory.source es = some t ∧
    (∃ r ∈ t.returns, r.requested = 0xffffffffffffffff) ∧
    ∀ r ∈ t.returns, r.Right ↔ r.requested.toNat + 9 < 2 ^ 64 := by
  obtain ⟨t, ht, hticks, hr⟩ := SleepHistory.exists_source_wrapped
  exact ⟨_, t, ht, hr, sleep_right_iff _ _ _ 0 (by decide) _ ht hticks⟩

/-- **A call that returns early**: the longest duration rounds to no ticks at all. -/
theorem not_right_longest : ∃ es t, run SleepHistory.step SleepHistory.source es = some t ∧
    t.ticks < 2 ^ 60 ∧ ∃ r ∈ t.returns, r.requested = 0xffffffffffffffff ∧ ¬ r.Right := by
  obtain ⟨t, ht, hticks, r, hr, hreq⟩ := SleepHistory.exists_source_wrapped
  have h := sleepInv_of_run _ _ _ _ (by decide) ht
  refine ⟨_, t, ht, hticks, r, hr, hreq, fun hright => ?_⟩
  have hlt := ((h.returns r hr).right_iff hticks).mp hright
  rw [hreq] at hlt
  exact absurd hlt (by decide)

end FrogOS
