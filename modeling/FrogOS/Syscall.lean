import FrogOS.ContextSwitch
import FrogOS.Scheduler

/-!
# System calls, step by step

`syscall_handler` executes `sti` before it calls `ksyscall`, so a timer tick can land between any
two steps of a system call, except where `ksyscall` disables interrupts itself. Here the calls are
taken apart into the steps that read or write a variable of the kernel, and the frame a tick saves
is the control state of the interrupted process: the step it is at, its two variables, and the
interrupt flag, which `iretq` restores.

A process is at `user` while it runs code of its own, `init` and the loop at the end of `cmain`
included. The calls that only write to the console do nothing here.

## Main definitions

* `Thread`, `Machine`, `Machine.step` — the machine
* `Machine.Fit` — what every run keeps: interrupts are off exactly in the region between `disable`
  and `enable`, and no process is saved inside it

## Main results

* `Machine.step_tick` — one tick, for the scheduler's view and the frames together
* `Machine.Fit.step` — `Fit` is invariant
-/

namespace FrogOS

open ContextMemory Kernel StepSystem

/-- Where the code of a process stands. -/
inductive Pc
  /-- Outside the kernel. -/
  | user
  /-- `start = pit_counter`. -/
  | sleepStart
  /-- `state->rdi = (state->rdi + 9) / 10`. -/
  | sleepRound
  /-- The condition of the loop. -/
  | sleepCheck
  | sleepDisable
  /-- The two statements of `add_to_run_queue(current_pid)`. -/
  | sleepStore
  | sleepAdvance
  /-- `process_table[current_pid].state = PROCESS_STATE_READY`. -/
  | sleepReady
  | sleepEnable
  /-- Before `hlt`, and waiting in it. -/
  | sleepHlt
  | sleepHalted
  /-- `state->rax = 10 * (pit_counter - start)`. -/
  | sleepReturn
  | getpid
  /-- `SYSCALL_HLT`: before `hlt`, and waiting in it. -/
  | hlt
  | halted
  /-- `process_table[current_pid].state = PROCESS_STATE_READY`. -/
  | yieldReady
  /-- The two statements of `add_to_run_queue(current_pid)`. -/
  | yieldStore
  | yieldAdvance
  deriving DecidableEq

/-- The steps at which interrupts are disabled. -/
def Pc.masked : Pc → Bool
  | sleepStore | sleepAdvance | sleepReady | sleepEnable => true
  | _ => false

/-- The steps of `yield`. -/
def Pc.yielding : Pc → Bool
  | yieldReady | yieldStore | yieldAdvance => true
  | _ => false

/-- The control state of a process. -/
structure Thread where
  pc : Pc
  /-- `state->rdi`. -/
  rdi : BitVec 64
  /-- The local variable of `SYSCALL_SLEEP`. -/
  start : BitVec 64
  /-- `state->rax`. -/
  rax : BitVec 64
  interruptFlag : Bool

/-- A new process starts in its own code, with the interrupt flag set (`rflags` is `0x202`). -/
def initialThread (i : ContextInit) : Thread := ⟨.user, BitVec.ofNat 64 i.pid, 0, 0, true⟩

abbrev ThreadMap := FrameMap Thread initialThread

/-- The arguments of the system calls that matter here. -/
inductive Request
  | sleep (ms : BitVec 64)
  | getpid
  | hlt
  | yield
  /-- `SYSCALL_WRITE`, and the calls that print their number. -/
  | output
  deriving DecidableEq

/-- Entering `ksyscall`. -/
def Thread.enter (t : Thread) : Request → Thread
  | .sleep ms => { t with pc := .sleepStart, rdi := ms, interruptFlag := true }
  | .getpid => { t with pc := .getpid, interruptFlag := true }
  | .hlt => { t with pc := .hlt, interruptFlag := true }
  | .yield => { t with pc := .yieldReady, interruptFlag := true }
  | .output => { t with interruptFlag := true }

/-- An interrupt ends `hlt`: the return address is that of the next instruction. -/
def Thread.wake (t : Thread) : Thread :=
  match t.pc with
  | .sleepHalted => { t with pc := .sleepCheck }
  | .halted => { t with pc := .user }
  | _ => t

/-- The next step of process `c` inside `ksyscall`, if there is one. -/
def ksyscallStep (k : Kernel ThreadMap) (c : ℕ) (t : Thread) : Option (Kernel ThreadMap × Thread) :=
  match t.pc with
  | .user | .sleepHalted | .halted => none
  | .sleepStart => some (k, { t with pc := .sleepRound, start := k.pitCounter })
  | .sleepRound => some (k, { t with pc := .sleepCheck, rdi := (t.rdi + 9) / 10 })
  | .sleepCheck => some (k, { t with
      pc := if k.pitCounter - t.start < t.rdi then .sleepDisable else .sleepReturn })
  | .sleepDisable => some (k, { t with pc := .sleepStore, interruptFlag := false })
  | .sleepStore => some (k.storeRunQueue c, { t with pc := .sleepAdvance })
  | .sleepAdvance => some (k.advanceRunQueueTail, { t with pc := .sleepReady })
  | .sleepReady => some (k.setReady c, { t with pc := .sleepEnable })
  | .sleepEnable => some (k, { t with pc := .sleepHlt, interruptFlag := true })
  | .sleepHlt => some (k, { t with pc := .sleepHalted })
  | .sleepReturn => some (k, { t with pc := .user, rax := 10 * (k.pitCounter - t.start) })
  | .getpid => some (k, { t with pc := .user, rax := BitVec.ofNat 64 c })
  | .hlt => some (k, { t with pc := .halted })
  | .yieldReady => some (k.setReady c, { t with pc := .yieldStore })
  | .yieldStore => some (k.storeRunQueue c, { t with pc := .yieldAdvance })
  | .yieldAdvance => some (k.advanceRunQueueTail, { t with pc := .user })

/-- The kernel and the process on the processor. -/
structure Machine where
  kernel : Kernel ThreadMap
  cpu : Thread

inductive Event
  /-- A timer tick. -/
  | tick
  /-- The next step of the running system call. -/
  | exec
  /-- A system call of a user process. -/
  | syscall (request : Request)
  /-- Code outside the kernel. -/
  | compute
  deriving DecidableEq

namespace Machine

/-- The state `setup_process` leaves with `n` user processes, `cmain` being in its final loop. -/
def initial (mem : ThreadMap) (init userTask : BitVec 64) (n : ℕ) : Machine :=
  ⟨boot mem init userTask n, ⟨.user, 0, 0, 0, true⟩⟩

def step (s : Machine) : Event → Option Machine
  | .tick =>
    if s.cpu.interruptFlag = true then
      some ⟨(s.kernel.pitHandler s.cpu.wake).1, (s.kernel.pitHandler s.cpu.wake).2⟩
    else none
  | .exec => s.kernel.currentPid.bind fun c =>
      (ksyscallStep s.kernel c s.cpu).map fun r => ⟨r.1, r.2⟩
  | .syscall request => s.kernel.currentPid.bind fun c =>
      if c ≠ 0 ∧ s.cpu.pc = .user then some { s with cpu := s.cpu.enter request } else none
  | .compute => if s.cpu.pc = .user then some s else none

/-- What holds in every reachable state, `n` being the number of user processes. -/
structure Fit (n : ℕ) (s : Machine) : Prop where
  frames : FramesFit (n + 1) s.kernel
  /-- Interrupts are off in the region between `disable` and `enable`, and only there. -/
  flag : s.cpu.interruptFlag = !s.cpu.pc.masked
  /-- Only a user process is inside a system call. -/
  caller : s.cpu.pc ≠ .user → ∃ c, s.kernel.currentPid = some c ∧ c ≠ 0
  /-- No process is saved in that region, and the idle process is in its loop. -/
  saved : ∀ p < n + 1, s.kernel.currentPid ≠ some p →
    (s.kernel.saved p).interruptFlag = true ∧ (s.kernel.saved p).pc.masked = false ∧
      (p = 0 → (s.kernel.saved p).pc = .user)

variable {n : ℕ} {s t : Machine}

@[simp] theorem wake_interruptFlag (t : Thread) : t.wake.interruptFlag = t.interruptFlag := by
  rw [Thread.wake]
  split <;> rfl

theorem wake_masked (t : Thread) : t.wake.pc.masked = t.pc.masked := by
  rw [Thread.wake]
  split <;> rename_i h <;> first | rw [h]; rfl | rfl

theorem wake_yielding (t : Thread) : t.wake.pc.yielding = t.pc.yielding := by
  rw [Thread.wake]
  split <;> rename_i h <;> first | rw [h]; rfl | rfl

theorem wake_of_user {t : Thread} (h : t.pc = .user) : t.wake = t := by
  rw [Thread.wake, h]

theorem fit_initial (mem : ThreadMap) (init userTask : BitVec 64) (hn : n < maxProcesses) :
    Fit n (initial mem init userTask n) := by
  have h := setupSpec_boot mem init userTask hn
  refine ⟨h.framesFit (Nat.succ_pos n), rfl, fun hne => absurd rfl hne, fun p hp _ => ?_⟩
  obtain ⟨rsp, hf⟩ := h.frame p hp
  have hsaved : (initial mem init userTask n).kernel.saved p = initialThread
    ⟨if p = 0 then init else userTask, p = 0, rsp, p⟩ := hf
  rw [hsaved]
  exact ⟨rfl, rfl, fun _ => rfl⟩

/-- Every process starts in its own code. -/
theorem saved_initial_pc (mem : ThreadMap) (init userTask : BitVec 64) (hn : n < maxProcesses)
    {p : ℕ} (hp : p < n + 1) :
    ((initial mem init userTask n).kernel.saved p).pc = .user := by
  obtain ⟨rsp, hf⟩ := (setupSpec_boot mem init userTask hn).frame p hp
  exact congrArg Thread.pc hf

/-! ### A tick -/

theorem step_tick_eq (h : s.step .tick = some t) : s.cpu.interruptFlag = true ∧
    t.kernel = (s.kernel.pitHandler s.cpu.wake).1 ∧ t.cpu = (s.kernel.pitHandler s.cpu.wake).2 := by
  obtain ⟨hif, h⟩ := Option.ite_none_right_eq_some.mp h
  obtain rfl := Option.some.inj h
  exact ⟨hif, rfl, rfl⟩

/-- After a tick the processor is either with the process it was with, woken up, or with the
process that was started, at a step at which it can be interrupted. -/
theorem step_tick (hfit : s.Fit n) (hfull : s.kernel.Expiring → ¬ s.kernel.runQueue.Full)
    (h : s.step .tick = some t) :
    ∃ p, s.kernel.view.Tick p t.kernel.view ∧ t.kernel.started = s.kernel.started ++ p.toList ∧
      (p = none → t.cpu = s.cpu.wake ∧ SameFrames s.kernel t.kernel) ∧
      ∀ q, p = some q → q < n + 1 ∧ t.cpu = t.kernel.saved q ∧
        ∀ r < n + 1, t.kernel.saved r
          = if s.kernel.currentPid = some r then s.cpu.wake else s.kernel.saved r := by
  obtain ⟨-, hk, hcpu⟩ := step_tick_eq h
  obtain ⟨p, htick, hstarted⟩ := view_tick s.cpu.wake hfull
  obtain ⟨-, ⟨hframe, hsame⟩ | ⟨q, hq, -, hst, -, hsaved, hframe⟩⟩ :=
    pitHandler_frames hfit.frames s.cpu.wake
  all_goals rw [hk, hcpu]
  · have hp : p = none := by
      have := hsame.started.symm.trans hstarted
      cases p with
      | none => rfl
      | some q => simp at this
    exact ⟨p, htick, hstarted, fun _ => ⟨hframe, hsame⟩, fun q hq => by simp [hp] at hq⟩
  · have hp : p = some q := by
      have := List.append_cancel_left (hstarted.symm.trans hst)
      cases p with
      | none => simp at this
      | some r => simpa using this
    subst hp
    exact ⟨_, htick, hstarted, fun h => absurd h (Option.some_ne_none q), fun r hr =>
      Option.some.inj hr ▸ ⟨hq, hframe, hsaved⟩⟩

/-- The part of this about frames does not need the queue to be in order. -/
theorem step_tick_frames (hfit : s.Fit n) (h : s.step .tick = some t) :
    (∀ p < n + 1, s.kernel.currentPid ≠ some p → t.kernel.saved p = s.kernel.saved p) ∧
      ∀ p, t.kernel.currentPid = some p → s.kernel.currentPid ≠ some p →
        t.cpu = t.kernel.saved p := by
  obtain ⟨-, hk, hcpu⟩ := step_tick_eq h
  obtain ⟨-, ⟨-, hsame⟩ | ⟨q, hq, hcur, -, -, hsaved, hframe⟩⟩ :=
    pitHandler_frames hfit.frames s.cpu.wake
  all_goals rw [hk, hcpu]
  · exact ⟨fun p _ _ => hsame.saved p, fun p hp hne => absurd (hsame.currentPid.symm.trans hp) hne⟩
  · refine ⟨fun p hp hne => by rw [hsaved p hp, if_neg hne], fun p hp _ => ?_⟩
    obtain rfl : q = p := Option.some.inj (hcur.symm.trans hp)
    exact hframe

/-- A tick leaves the processor where it can be interrupted again. -/
theorem Fit.tick (hfit : s.Fit n) (h : s.step .tick = some t) :
    t.Fit n ∧ t.cpu.interruptFlag = true ∧ t.cpu.pc.masked = false := by
  obtain ⟨hif, hk, hcpu⟩ := step_tick_eq h
  have hmask : s.cpu.pc.masked = false := by simpa [hif] using hfit.flag
  have hwake : s.cpu.wake.interruptFlag = true ∧ s.cpu.wake.pc.masked = false :=
    ⟨(wake_interruptFlag _).trans hif, (wake_masked _).trans hmask⟩
  obtain ⟨hframes, ⟨hframe, hsame⟩ | ⟨p, hp, hcur, -, -, hsaved, hframe⟩⟩ :=
    pitHandler_frames hfit.frames s.cpu.wake
  all_goals rw [← hk] at *; rw [← hcpu] at hframe
  · have huser : s.cpu.pc = .user → t.cpu.pc = .user := fun hu => by
      rw [hframe, wake_of_user hu, hu]
    refine ⟨⟨hframes, by rw [hframe, hwake.1, hwake.2]; rfl, fun hne => ?_, fun q hq hne => ?_⟩,
      hframe ▸ hwake.1, hframe ▸ hwake.2⟩
    · rw [hsame.currentPid]
      exact hfit.caller fun hu => hne (huser hu)
    · rw [hsame.saved]
      exact hfit.saved q hq fun hc => hne (hsame.currentPid.trans hc)
  · have hall : ∀ q < n + 1, (t.kernel.saved q).interruptFlag = true ∧
        (t.kernel.saved q).pc.masked = false ∧ (q = 0 → (t.kernel.saved q).pc = .user) := by
      intro q hq
      rw [hsaved q hq]
      by_cases hc : s.kernel.currentPid = some q
      · rw [if_pos hc]
        refine ⟨hwake.1, hwake.2, ?_⟩
        rintro rfl
        by_contra hne
        obtain ⟨c, hc', h0⟩ := hfit.caller fun hu => hne (by rw [wake_of_user hu, hu])
        exact h0 (Option.some.inj (hc'.symm.trans hc))
      · rw [if_neg hc]
        exact hfit.saved q hq hc
    obtain ⟨hf, hm, hidle⟩ := hall p hp
    rw [← hframe] at hf hm hidle
    refine ⟨⟨hframes, by rw [hf, hm]; rfl, fun hne => ?_, fun q hq _ => hall q hq⟩, hf, hm⟩
    exact ⟨p, hcur, fun h0 => hne (hidle h0)⟩

/-! ### The other steps -/

theorem step_exec (h : s.step .exec = some t) : ∃ c, s.kernel.currentPid = some c ∧
    ksyscallStep s.kernel c s.cpu = some (t.kernel, t.cpu) := by
  obtain ⟨c, hc, h⟩ := Option.bind_eq_some_iff.mp h
  obtain ⟨r, hr, rfl⟩ := Option.map_eq_some_iff.mp h
  exact ⟨c, hc, hr⟩

theorem step_syscall {request : Request} (h : s.step (.syscall request) = some t) :
    ∃ c, s.kernel.currentPid = some c ∧ c ≠ 0 ∧ s.cpu.pc = .user ∧
      t = { s with cpu := s.cpu.enter request } := by
  obtain ⟨c, hc, h⟩ := Option.bind_eq_some_iff.mp h
  obtain ⟨⟨h0, hu⟩, h⟩ := Option.ite_none_right_eq_some.mp h
  exact ⟨c, hc, h0, hu, (Option.some.inj h).symm⟩

theorem step_compute (h : s.step .compute = some t) : t = s := by
  exact (Option.some.inj (Option.ite_none_right_eq_some.mp h).2).symm

/-- A step of `ksyscall` moves no frame and keeps the current process, and the flag follows the
steps. -/
theorem ksyscallStep_spec {k k' : Kernel ThreadMap} {c : ℕ} {u u' : Thread}
    (h : ksyscallStep k c u = some (k', u')) (hflag : u.interruptFlag = !u.pc.masked) :
    SameFrames k k' ∧ u'.interruptFlag = (!u'.pc.masked) ∧ u.pc ≠ .user ∧
      (k'.runQueue.slots = k.runQueue.slots ∨ k'.runQueue.slots = (k.runQueue.store c).slots) := by
  cases hpc : u.pc <;> simp only [ksyscallStep, hpc, reduceCtorEq, Option.some.injEq,
    Prod.mk.injEq] at h
  all_goals obtain ⟨rfl, rfl⟩ := h
  all_goals simp only [hpc, Pc.masked] at hflag
  case sleepCheck =>
    refine ⟨SameFrames.refl _, ?_, Pc.noConfusion, Or.inl rfl⟩
    dsimp only
    split <;> exact hflag
  case sleepReady | yieldReady =>
    exact ⟨sameFrames_setReady _ _, hflag, Pc.noConfusion, Or.inl rfl⟩
  case sleepStore | yieldStore =>
    exact ⟨sameFrames_runQueue _ _ _, hflag, Pc.noConfusion, Or.inr rfl⟩
  case sleepAdvance | yieldAdvance =>
    exact ⟨sameFrames_runQueue _ _ _, hflag, Pc.noConfusion, Or.inl rfl⟩
  case sleepDisable | sleepEnable => exact ⟨SameFrames.refl _, rfl, Pc.noConfusion, Or.inl rfl⟩
  all_goals exact ⟨SameFrames.refl _, hflag, Pc.noConfusion, Or.inl rfl⟩

theorem ksyscallStep_pitCounter {k k' : Kernel ThreadMap} {c : ℕ} {u u' : Thread}
    (h : ksyscallStep k c u = some (k', u')) : k'.pitCounter = k.pitCounter := by
  cases hpc : u.pc <;> simp only [ksyscallStep, hpc, reduceCtorEq, Option.some.injEq,
    Prod.mk.injEq] at h
  all_goals obtain ⟨rfl, -⟩ := h
  all_goals rfl

theorem enter_flag (u : Thread) (request : Request) (hu : u.pc = .user) :
    (u.enter request).interruptFlag = !(u.enter request).pc.masked := by
  cases request <;> simp [Thread.enter, Pc.masked, hu]

/-- **Every step keeps the machine fit.** -/
theorem Fit.step (hfit : s.Fit n) {e : Event} (h : s.step e = some t) : t.Fit n := by
  cases e with
  | tick => exact (hfit.tick h).1
  | exec =>
    obtain ⟨c, hc, h⟩ := step_exec h
    obtain ⟨hsame, hflag, hne, hslots⟩ := ksyscallStep_spec h hfit.flag
    refine ⟨hfit.frames.congr hsame fun i => ?_, hflag, fun _ => ?_, fun p hp hcur => ?_⟩
    · rcases hslots with hs | hs
      · rw [hs]; exact hfit.frames.slots i
      · rw [hs]; exact hfit.frames.slots_store (hfit.frames.current c hc) i
    · rw [hsame.currentPid]
      exact hfit.caller hne
    · rw [hsame.saved]
      exact hfit.saved p hp fun h' => hcur (hsame.currentPid.trans h')
  | syscall request =>
    obtain ⟨c, hc, h0, hu, rfl⟩ := step_syscall h
    exact ⟨hfit.frames, enter_flag _ _ hu, fun _ => ⟨c, hc, h0⟩, hfit.saved⟩
  | compute =>
    obtain rfl := step_compute h
    exact hfit

/-! ### The control state of a process -/

/-- The control state of a process, on the processor or saved. -/
def thread (s : Machine) (p : ℕ) : Thread :=
  if s.kernel.currentPid = some p then s.cpu else s.kernel.saved p

/-- A tick wakes the interrupted process up and changes nothing else about any process. -/
theorem thread_tick (hfit : s.Fit n) (h : s.step .tick = some t) {p : ℕ} (hp : p < n + 1) :
    t.thread p = if s.kernel.currentPid = some p then s.cpu.wake else s.kernel.saved p := by
  obtain ⟨-, hk, hcpu⟩ := step_tick_eq h
  obtain ⟨-, ⟨hframe, hsame⟩ | ⟨q, -, hcur, -, -, hsaved, hframe⟩⟩ :=
    pitHandler_frames hfit.frames s.cpu.wake
  all_goals rw [thread, hk, hcpu, hframe]
  · rw [hsame.currentPid, hsame.saved]
  · rw [hcur, hsaved p hp]
    by_cases hqp : q = p
    · rw [if_pos (congrArg some hqp), hqp, hsaved p hp]
    · rw [if_neg fun h => hqp (Option.some.inj h)]

/-- A step of the current process leaves the others alone. -/
theorem thread_of_sameFrames (hsame : SameFrames s.kernel t.kernel) (p : ℕ) :
    t.thread p = if s.kernel.currentPid = some p then t.cpu else s.kernel.saved p := by
  rw [thread, hsame.currentPid, hsame.saved]

/-! ### The first two ticks -/

/-- The first two ticks start the idle process and then the head of the queue, which is in its own
code. -/
theorem exists_started {p : ℕ} {q : List ℕ} (hfit : s.Fit n) (hif : s.cpu.interruptFlag = true)
    (hnone : s.kernel.currentPid = none) (hq : s.kernel.runQueue.toList = p :: q) (hp : p ≠ 0)
    (hpn : p < n + 1) (hsaved : (s.kernel.saved p).pc = .user) :
    ∃ t, run step s [.tick, .tick] = some t ∧ t.Fit n ∧ t.kernel.currentPid = some p ∧
      t.kernel.runQueue.toList = q ∧ t.cpu.pc = .user := by
  obtain ⟨s₁, hst₁⟩ : ∃ t, s.step .tick = some t := ⟨_, if_pos hif⟩
  obtain ⟨hfit₁, hif₁, -⟩ := hfit.tick hst₁
  have hv₁ := currentPid_of_view (view_tick_of_none s.cpu.wake hnone)
  rw [← (step_tick_eq hst₁).2.1] at hv₁
  have hs₁ := (step_tick_frames hfit hst₁).1 p hpn (by simp [hnone])
  obtain ⟨s₂, hst₂⟩ : ∃ t, s₁.step .tick = some t := ⟨_, if_pos hif₁⟩
  have hfit₂ := (hfit₁.tick hst₂).1
  have hv₂ := currentPid_of_view (view_tick_of_idle s₁.cpu.wake hv₁.1 (hv₁.2.trans hq))
  rw [← (step_tick_eq hst₂).2.1] at hv₂
  obtain ⟨hs₂, hcpu₂⟩ := step_tick_frames hfit₁ hst₂
  have hidle : s₁.kernel.currentPid ≠ some p := fun h =>
    hp (Option.some.inj (hv₁.1.symm.trans h)).symm
  refine ⟨s₂, ?_, hfit₂, hv₂.1, hv₂.2, ?_⟩
  · rw [run, hst₁, Option.bind_some, run, hst₂, Option.bind_some, run_nil]
  · rw [hcpu₂ p hv₂.1 hidle, hs₂ p hpn hidle, hs₁, hsaved]

/-- The machine with the four user processes of the source, on a memory of new frames. -/
def sourceMachine : Machine :=
  initial ⟨fun _ => initialThread ⟨0, false, 0, 0⟩⟩ 0x200000 0x200100 4

/-- `SYSCALL_SLEEP` up to its first `hlt`. -/
def sleepEvents (ms : BitVec 64) : List Event := .syscall (.sleep ms) :: List.replicate 9 .exec

/-- What is known of it before the first tick. -/
theorem sourceMachine_spec : sourceMachine.Fit 4 ∧ sourceMachine.cpu.interruptFlag = true ∧
    sourceMachine.kernel.currentPid = none ∧
    sourceMachine.kernel.runQueue.toList = [1, 2, 3, 4] ∧
    (sourceMachine.kernel.saved 1).pc = .user := by
  have hn : 4 < maxProcesses := by decide
  have h := setupSpec_boot (⟨fun _ => initialThread ⟨0, false, 0, 0⟩⟩ : ThreadMap) 0x200000 0x200100
    hn
  have hfit := fit_initial ⟨fun _ => initialThread ⟨0, false, 0, 0⟩⟩ 0x200000 0x200100 hn
  obtain ⟨rsp, hframe⟩ := h.frame 1 (by decide)
  rw [sourceMachine]
  rw [initial] at hfit ⊢
  generalize boot (⟨fun _ => initialThread ⟨0, false, 0, 0⟩⟩ : ThreadMap) 0x200000 0x200100 4 = k
    at h hfit hframe ⊢
  exact ⟨hfit, rfl, h.currentPid, h.runQueue, congrArg Thread.pc (hframe : k.saved 1 = _)⟩

end Machine

end FrogOS
