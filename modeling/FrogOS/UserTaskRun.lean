import FrogOS.Diagnostics
import FrogOS.Sleep
import FrogOS.UserTask

/-!
# The user tasks at work

`setup_process` starts `user_task` of `init.c` as processes 1 to `n`, and `init` as process 0. Here
these programs run on the machine of `FrogOS.Sleep`: the current process takes a step of its own
code, or of its system call, and between any two steps the timer can tick and another process can
be dispatched. What a process does is then spread over the run; put together again, it is the loop
of `user_task`.

A `TaskSystem` keeps a record for each process: its calls of `printf`, and its calls of
`SYSCALL_SLEEP` that have returned.

## Representation

* A call of `printf` is one step of the record: what the process asks to be printed. Interrupts in
  the middle of it are the subject of `FrogOS.ConsolePreempt`.
* The local variables are those of the process, since every process has a stack of its own. They are
  set before they are read; at the start of a run they are 0.

## Main definitions

* `TaskSystem`, `TaskSystem.step` — the machine with the programs of the processes
* `TaskSystem.Follows` — what a process has done so far

## Main results

* `userTasks_sleep` — every process prints and sleeps what its generator draws
-/

namespace FrogOS

open Kernel StepSystem UserTask Vsnprintf

/-! ### The code -/

/-- Where `user_task` stands. -/
inductive TaskPc
  /-- `seed = (pid + 42) * 1000`. -/
  | start
  /-- `seed = (A * seed + C) % MODULUS` and `r = seed % 10000`. -/
  | draw
  | print
  /-- `syscall1(SYSCALL_SLEEP, r)`. -/
  | call
  deriving DecidableEq

/-- The local variables of `user_task`, and where it stands. -/
structure Task where
  pc : TaskPc
  pid : ℤ
  seed : ℤ
  r : ℤ

/-- The machine, with the programs of the processes and a record of what they do. The latest entries
come first. -/
structure TaskSystem where
  history : SleepHistory
  tasks : ℕ → Task
  printed : ℕ → List ConsoleCall
  slept : ℕ → List SleepReturn

inductive TaskEvent
  /-- A timer tick. -/
  | tick
  /-- The next step of the running system call. -/
  | exec
  /-- The next step of `user_task`. -/
  | task
  /-- A round of the loop of `init`, or of the one at the end of `cmain`. -/
  | idle

def sleepFormat : String := "Process %4d sleeping for %5d ms\n"

/-- The call of `printf` in `user_task`. -/
def sleepMessage (lit : Literals) (pid r : ℤ) : ConsoleCall :=
  .printf (lit sleepFormat) [BitVec.ofInt 64 pid, BitVec.ofInt 64 r]

namespace TaskSystem

/-- The state `setup_process` leaves. -/
def initial (mem : ThreadMap) (init userTask pitCounter : BitVec 64) (n : ℕ) : TaskSystem where
  history := .initial mem init userTask pitCounter n
  tasks := fun _ => ⟨.start, 0, 0, 0⟩
  printed := fun _ => []
  slept := fun _ => []

/-- The next step of `user_task` in process `c`. -/
def taskStep (lit : Literals) (s : TaskSystem) (c : ℕ) : Option TaskSystem :=
  let t := s.tasks c
  match t.pc with
  | .start => do
    -- the argument, an `int`
    let pid := (s.history.machine.cpu.rdi.setWidth 32).toInt
    let seed ← firstSeed pid
    some { s with tasks := Function.update s.tasks c { t with pc := .draw, pid, seed } }
  | .draw => do
    let seed ← nextSeed t.seed
    some { s with
      tasks := Function.update s.tasks c { t with pc := .print, seed, r := wait seed } }
  | .print => some { s with
      tasks := Function.update s.tasks c { t with pc := .call }
      printed := Function.update s.printed c (sleepMessage lit t.pid t.r :: s.printed c) }
  | .call => do
    let history ← s.history.step (.syscall (.sleep (BitVec.ofInt 64 t.r)))
    some { s with history, tasks := Function.update s.tasks c { t with pc := .draw } }

def step (lit : Literals) (s : TaskSystem) : TaskEvent → Option TaskSystem
  | .tick => (s.history.step .tick).map fun history => { s with history }
  | .exec => do
    let c ← s.history.machine.kernel.currentPid
    let history ← s.history.step .exec
    -- the calls that return in this step are those of `c`
    let returns := history.returns.take (history.returns.length - s.history.returns.length)
    some { s with history, slept := Function.update s.slept c (returns ++ s.slept c) }
  | .task => s.history.machine.kernel.currentPid.bind fun c =>
      if c ≠ 0 ∧ s.history.machine.cpu.pc = .user then s.taskStep lit c else none
  | .idle =>
    if s.history.machine.kernel.currentPid.getD 0 = 0 then
      (s.history.step .compute).map fun history => { s with history }
    else none

end TaskSystem

/-! ### The record of a process -/

/-- The durations of the first `k` rounds of process `p`, the latest first. -/
def waitsOf (p : ℕ) : ℕ → List ℤ
  | 0 => []
  | k + 1 => waitOf p (k + 1) :: waitsOf p k

/-- Where process `p` stands after `m` calls of `printf` and `k` returns from `SYSCALL_SLEEP`, with
the thread `u` and perhaps a call in progress. -/
inductive Task.Phase (p : ℕ) (t : Task) (u : Thread) (call : Option SleepCall) : ℕ → ℕ → Prop
  | start (hpc : t.pc = .start) (hu : u.pc = .user) (hrdi : u.rdi = BitVec.ofNat 64 p) :
    Phase p t u call 0 0
  | draw {k : ℕ} (hpc : t.pc = .draw) (hu : u.pc = .user) (hpid : t.pid = p)
      (hseed : seedAfter p k = some t.seed) : Phase p t u call k k
  | print {k : ℕ} (hpc : t.pc = .print) (hu : u.pc = .user) (hpid : t.pid = p)
      (hseed : seedAfter p (k + 1) = some t.seed) (hr : t.r = waitOf p (k + 1)) :
    Phase p t u call k k
  | call {k : ℕ} (hpc : t.pc = .call) (hu : u.pc = .user) (hpid : t.pid = p)
      (hseed : seedAfter p (k + 1) = some t.seed) (hr : t.r = waitOf p (k + 1)) :
    Phase p t u call (k + 1) k
  | asleep {k : ℕ} (hpc : t.pc = .draw) (hpid : t.pid = p)
      (hseed : seedAfter p (k + 1) = some t.seed)
      (hu : u.pc = .sleepStart ∧ u.rdi = BitVec.ofInt 64 (waitOf p (k + 1)) ∨
        u.pc.sleeping = true ∧
          ∀ c ∈ call, c.requested = BitVec.ofInt 64 (waitOf p (k + 1))) :
    Phase p t u call (k + 1) k

/-- What process `p` has done, in a state that the machine's record describes. -/
structure TaskSystem.Follows (lit : Literals) (s : TaskSystem) (p m k : ℕ) : Prop where
  phase : (s.tasks p).Phase p (s.history.machine.thread p) (s.history.calls p) m k
  printed : s.printed p = (waitsOf p m).map (sleepMessage lit p)
  slept : (s.slept p).map (·.requested) = (waitsOf p k).map (BitVec.ofInt 64)
  returned : ∀ r ∈ s.slept p, r ∈ s.history.returns
  order : (s.slept p).Pairwise fun later earlier => earlier.endTick ≤ later.startTick
  current : (s.history.machine.thread p).pc.sleeping = true → ∀ call ∈ s.history.calls p,
    ∀ r ∈ s.slept p, r.endTick ≤ call.startTick

/-- The invariant. -/
structure TaskSystem.Inv (lit : Literals) (n : ℕ) (pitCounter : BitVec 64) (s : TaskSystem) :
    Prop where
  sleep : SleepInv n pitCounter s.history
  task : ∀ p, p ≠ 0 → p < n + 1 → ∃ m k, s.Follows lit p m k

/-! ### What happens to a process that is not in its code -/

variable {lit : Literals} {n p m k : ℕ} {pitCounter : BitVec 64}

/-- An interrupt leaves a process where it is. -/
theorem Task.Phase.wake {t : Task} {u : Thread} {call : Option SleepCall}
    (h : t.Phase p u call m k) : t.Phase p u.wake call m k := by
  cases h with
  | start hpc hu hrdi =>
    rw [Machine.wake_of_user hu]
    exact .start hpc hu hrdi
  | draw hpc hu hpid hseed =>
    rw [Machine.wake_of_user hu]
    exact .draw hpc hu hpid hseed
  | print hpc hu hpid hseed hr =>
    rw [Machine.wake_of_user hu]
    exact .print hpc hu hpid hseed hr
  | call hpc hu hpid hseed hr =>
    rw [Machine.wake_of_user hu]
    exact .call hpc hu hpid hseed hr
  | asleep hpc hpid hseed hu =>
    refine .asleep hpc hpid hseed ?_
    obtain ⟨hu, hrdi⟩ | ⟨hu, hcall⟩ := hu
    · have hwake : u.wake = u := by rw [Thread.wake, hu]
      rw [hwake]
      exact Or.inl ⟨hu, hrdi⟩
    · exact Or.inr ⟨(wake_sleeping u).trans hu, hcall⟩

/-- A process inside `ksyscall` is in the call of its last round. -/
theorem Task.Phase.inside {t : Task} {u : Thread} {call : Option SleepCall}
    (h : t.Phase p u call m k) (hu : u.pc ≠ .user) : m = k + 1 ∧ t.pc = .draw ∧ t.pid = p ∧
      seedAfter p (k + 1) = some t.seed ∧
      (u.pc = .sleepStart ∧ u.rdi = BitVec.ofInt 64 (waitOf p (k + 1)) ∨
        u.pc.sleeping = true ∧
          ∀ c ∈ call, c.requested = BitVec.ofInt 64 (waitOf p (k + 1))) := by
  cases h with
  | start _ huser _ => exact absurd huser hu
  | draw _ huser _ _ => exact absurd huser hu
  | print _ huser _ _ _ => exact absurd huser hu
  | call _ huser _ _ _ => exact absurd huser hu
  | asleep hpc hpid hseed hu => exact ⟨rfl, hpc, hpid, hseed, hu⟩

namespace TaskSystem

variable {s t : TaskSystem}

/-- A step that leaves a process alone, or interrupts it. -/
theorem Follows.congr (h : s.Follows lit p m k) (htask : t.tasks p = s.tasks p)
    (hprinted : t.printed p = s.printed p) (hslept : t.slept p = s.slept p)
    (hthread : t.history.machine.thread p = s.history.machine.thread p ∨
      t.history.machine.thread p = (s.history.machine.thread p).wake)
    (hcalls : t.history.calls p = s.history.calls p)
    (hreturns : s.history.returns ⊆ t.history.returns) : t.Follows lit p m k where
  phase := by
    rw [htask, hcalls]
    obtain hthread | hthread := hthread
    · exact hthread ▸ h.phase
    · exact hthread ▸ h.phase.wake
  printed := hprinted.trans h.printed
  slept := hslept ▸ h.slept
  returned r hr := hreturns (h.returned r (hslept ▸ hr))
  order := hslept ▸ h.order
  current hsleep := by
    rw [hslept, hcalls]
    refine h.current ?_
    obtain hthread | hthread := hthread
    · exact hthread ▸ hsleep
    · exact (wake_sleeping _).symm.trans (hthread ▸ hsleep)

end TaskSystem

/-! ### A step of the system call -/

/-- A call that neither starts nor returns goes on. -/
theorem sleeping_exec {K K' : Kernel ThreadMap} {c : ℕ} {u u' : Thread}
    (hst : ksyscallStep K c u = some (K', u')) (hsleep : u.pc.sleeping = true)
    (hreturn : u.pc ≠ .sleepReturn) : u'.pc.sleeping = true := by
  cases hu : u.pc <;> simp only [ksyscallStep, hu, reduceCtorEq, Option.some.injEq,
    Prod.mk.injEq] at hst
  case sleepReturn => exact absurd hu hreturn
  case sleepStart | getpid | hlt | yieldReady | yieldStore | yieldAdvance =>
    rw [hu] at hsleep
    exact absurd hsleep Bool.false_ne_true
  case sleepCheck =>
    obtain ⟨-, rfl⟩ := hst
    dsimp only
    split <;> rfl
  all_goals
    obtain ⟨-, rfl⟩ := hst
    rfl

/-- What a step of `ksyscall` does to the record of the calls. -/
theorem SleepInv.exec_cases {s t : SleepHistory} (h : SleepInv n pitCounter s)
    (hst : s.step .exec = some t) : ∃ c, s.machine.kernel.currentPid = some c ∧
      (∀ q ≠ c, t.machine.thread q = s.machine.thread q ∧ t.calls q = s.calls q) ∧
      ((s.machine.thread c).pc = .sleepStart ∧ (t.machine.thread c).pc = .sleepRound ∧
          t.calls c = some ⟨(s.machine.thread c).rdi, s.ticks⟩ ∧ t.returns = s.returns ∨
        (s.machine.thread c).pc = .sleepReturn ∧ (t.machine.thread c).pc = .user ∧
          (∃ r : SleepReturn, s.calls c = some r.toSleepCall ∧ t.returns = r :: s.returns) ∨
        (s.machine.thread c).pc ≠ .user ∧ (s.machine.thread c).pc ≠ .sleepStart ∧
          ((s.machine.thread c).pc.sleeping = true → (t.machine.thread c).pc.sleeping = true) ∧
          t.calls c = s.calls c ∧ t.returns = s.returns) := by
  obtain ⟨M, hM, rfl⟩ := Option.map_eq_some_iff.mp hst
  obtain ⟨c, hc, hstep⟩ := Machine.step_exec hM
  obtain ⟨hsame, -, huser, -⟩ := Machine.ksyscallStep_spec hstep h.fit.flag
  have hthread : (s.record M .exec).machine.thread = M.thread := by
    rw [SleepHistory.record_machine]
  have hcpu : s.machine.thread c = s.machine.cpu := if_pos hc
  have hcpu' : M.thread c = M.cpu := (Machine.thread_of_sameFrames hsame c).trans (if_pos hc)
  have hne : ∀ q ≠ c, M.thread q = s.machine.thread q := by
    intro q hq
    have hcq : s.machine.kernel.currentPid ≠ some q :=
      fun hcq => hq (Option.some.inj (hcq.symm.trans hc))
    rw [Machine.thread_of_sameFrames hsame, Machine.thread, if_neg hcq, if_neg hcq]
  refine ⟨c, hc, ?_⟩
  rw [hthread, hcpu, hcpu']
  by_cases hstart : s.machine.cpu.pc = .sleepStart
  · rw [SleepHistory.record_start hc hstart]
    refine ⟨fun q hq => ⟨hne q hq, Function.update_of_ne hq _ _⟩, Or.inl ⟨hstart, ?_, ?_, rfl⟩⟩
    · simp only [ksyscallStep, hstart, Option.some.injEq, Prod.mk.injEq] at hstep
      rw [← hstep.2]
    · exact Function.update_self _ _ _
  by_cases hreturn : s.machine.cpu.pc = .sleepReturn
  · obtain ⟨call, hcall, -⟩ := h.calls c (h.fit.frames.current c hc) (by rw [hcpu, hreturn]; rfl)
    rw [SleepHistory.record_return hc hreturn hcall]
    refine ⟨fun q hq => ⟨hne q hq, Function.update_of_ne hq _ _⟩,
      Or.inr (Or.inl ⟨hreturn, ?_, _, hcall, rfl⟩)⟩
    simp only [ksyscallStep, hreturn, Option.some.injEq, Prod.mk.injEq] at hstep
    rw [← hstep.2]
  · rw [SleepHistory.record_other hstart hreturn]
    exact ⟨fun q hq => ⟨hne q hq, rfl⟩,
      Or.inr (Or.inr ⟨huser, hstart, fun hsleep => sleeping_exec hstep hsleep hreturn, rfl, rfl⟩)⟩

/-! ### The steps -/

namespace TaskSystem

variable {s t : TaskSystem}

theorem Inv.tick (h : s.Inv lit n pitCounter) (hst : s.step lit .tick = some t) :
    t.Inv lit n pitCounter := by
  obtain ⟨history, hhistory, rfl⟩ := Option.map_eq_some_iff.mp hst
  refine ⟨h.sleep.step hhistory, fun p h0 hp => ?_⟩
  obtain ⟨m, k, hfollows⟩ := h.task p h0 hp
  obtain ⟨M, hM, rfl⟩ := Option.map_eq_some_iff.mp hhistory
  refine ⟨m, k, hfollows.congr rfl rfl rfl ?_ rfl fun _ hr => hr⟩
  have hthread := Machine.thread_tick h.sleep.fit hM hp
  by_cases hc : s.history.machine.kernel.currentPid = some p
  · refine Or.inr (hthread.trans ?_)
    rw [if_pos hc, Machine.thread, if_pos hc]
  · refine Or.inl (hthread.trans ?_)
    rw [if_neg hc, Machine.thread, if_neg hc]

theorem Inv.idle (h : s.Inv lit n pitCounter) (hst : s.step lit .idle = some t) :
    t.Inv lit n pitCounter := by
  obtain ⟨-, hst⟩ := Option.ite_none_right_eq_some.mp hst
  obtain ⟨history, hhistory, rfl⟩ := Option.map_eq_some_iff.mp hst
  refine ⟨h.sleep.step hhistory, fun p h0 hp => ?_⟩
  obtain ⟨m, k, hfollows⟩ := h.task p h0 hp
  obtain ⟨M, hM, rfl⟩ := Option.map_eq_some_iff.mp hhistory
  obtain rfl := Machine.step_compute hM
  exact ⟨m, k, hfollows.congr rfl rfl rfl (Or.inl rfl) rfl fun _ hr => hr⟩

/-- A step of the call of process `p` itself. -/
theorem Follows.exec {history : SleepHistory} (h : s.Follows lit p m k)
    (hsleep : SleepInv n pitCounter s.history) (hhistory : s.history.step .exec = some history)
    (hc : s.history.machine.kernel.currentPid = some p) (ht : t.history = history)
    (htask : t.tasks p = s.tasks p) (hprinted : t.printed p = s.printed p)
    (hslept : t.slept p =
      history.returns.take (history.returns.length - s.history.returns.length) ++ s.slept p) :
    ∃ k', t.Follows lit p m k' := by
  subst ht
  obtain ⟨c, hc', -, hcases⟩ := hsleep.exec_cases hhistory
  obtain rfl : p = c := Option.some.inj (hc.symm.trans hc')
  have hinside : (s.history.machine.thread p).pc ≠ .user := by
    obtain ⟨hu, -⟩ | ⟨hu, -⟩ | ⟨hu, -⟩ := hcases
    · rw [hu]; exact Pc.noConfusion
    · rw [hu]; exact Pc.noConfusion
    · exact hu
  obtain ⟨rfl, hpc, hpid, hseed, hu⟩ := h.phase.inside hinside
  have hsame : t.history.returns = s.history.returns → t.slept p = s.slept p := by
    intro heq
    rw [hslept, heq, Nat.sub_self, List.take_zero, List.nil_append]
  obtain ⟨hstart, hround, hcall, hreturns⟩ | ⟨hreturn, huser, r, hcall, hreturns⟩ |
    ⟨-, hstart, hgoes, hcalls, hreturns⟩ := hcases
  · -- the call reads `start`, after all those that have returned
    obtain ⟨-, hrdi⟩ | ⟨hsleeping, -⟩ := hu
    · refine ⟨k, ?_, hprinted.trans h.printed, hsame hreturns ▸ h.slept,
        fun r hr => hreturns ▸ h.returned r (hsame hreturns ▸ hr), hsame hreturns ▸ h.order, ?_⟩
      · rw [htask]
        refine .asleep hpc hpid hseed (Or.inr ⟨by rw [hround]; rfl, fun call hmem => ?_⟩)
        rw [hcall, Option.mem_some_iff] at hmem
        exact hmem ▸ hrdi
      · intro _ call hmem r hr
        rw [hcall, Option.mem_some_iff] at hmem
        rw [hsame hreturns] at hr
        exact hmem ▸ (hsleep.returns r (h.returned r hr)).past
    · rw [hstart] at hsleeping
      exact absurd hsleeping Bool.false_ne_true
  · -- the call returns
    have hcons : t.slept p = r :: s.slept p := by
      rw [hslept, hreturns, List.length_cons, Nat.add_sub_cancel_left]
      rfl
    obtain ⟨hu, -⟩ | ⟨hsleeping, hrequested⟩ := hu
    · rw [hreturn] at hu
      exact Pc.noConfusion hu
    · refine ⟨k + 1, ?_, hprinted.trans h.printed, ?_, ?_, ?_, ?_⟩
      · rw [htask]
        exact .draw hpc huser hpid hseed
      · rw [hcons, List.map_cons, h.slept, hrequested _ hcall]
        rfl
      · rw [hcons, hreturns]
        exact fun r' hr' => (List.mem_cons.mp hr').elim (fun h => h ▸ List.mem_cons_self)
          fun hr' => List.mem_cons_of_mem _ (h.returned r' hr')
      · rw [hcons]
        exact .cons (h.current hsleeping _ hcall) h.order
      · rw [huser]
        exact fun h => absurd h Bool.false_ne_true
  · -- the call goes on
    obtain ⟨hu, -⟩ | ⟨hsleeping, hrequested⟩ := hu
    · exact absurd hu hstart
    · refine ⟨k, ?_, hprinted.trans h.printed, hsame hreturns ▸ h.slept,
        fun r hr => hreturns ▸ h.returned r (hsame hreturns ▸ hr), hsame hreturns ▸ h.order, ?_⟩
      · rw [htask, hcalls]
        exact .asleep hpc hpid hseed (Or.inr ⟨hgoes hsleeping, hrequested⟩)
      · rw [hcalls, hsame hreturns]
        exact fun _ => h.current hsleeping

theorem Inv.exec (h : s.Inv lit n pitCounter) (hst : s.step lit .exec = some t) :
    t.Inv lit n pitCounter := by
  obtain ⟨c, hc, hst⟩ := Option.bind_eq_some_iff.mp hst
  obtain ⟨history, hhistory, hst⟩ := Option.bind_eq_some_iff.mp hst
  obtain rfl := Option.some.inj hst
  obtain ⟨c', hc', hne, hcases⟩ := h.sleep.exec_cases hhistory
  obtain rfl : c = c' := Option.some.inj (hc.symm.trans hc')
  have hreturns : s.history.returns ⊆ history.returns := by
    obtain ⟨-, -, -, heq⟩ | ⟨-, -, r, -, heq⟩ | ⟨-, -, -, -, heq⟩ := hcases
    · exact heq ▸ fun _ hr => hr
    · exact heq ▸ fun _ hr => List.mem_cons_of_mem r hr
    · exact heq ▸ fun _ hr => hr
  refine ⟨h.sleep.step hhistory, fun p h0 hp => ?_⟩
  obtain ⟨m, k, hfollows⟩ := h.task p h0 hp
  rcases eq_or_ne p c with rfl | hpc
  · exact ⟨m, hfollows.exec h.sleep hhistory hc rfl rfl rfl (Function.update_self _ _ _)⟩
  · exact ⟨m, k, hfollows.congr rfl rfl (Function.update_of_ne hpc _ _) (Or.inl (hne p hpc).1)
      (hne p hpc).2 hreturns⟩

theorem admissible_of_lt (hp : p < maxProcesses) : Admissible (p : ℤ) := by
  have : p < 128 := hp
  rw [Admissible]
  omega

/-- A step of the process between its calls. -/
theorem Follows.move {m' : ℕ} (h : s.Follows lit p m k) (hhistory : t.history = s.history)
    (hslept : t.slept p = s.slept p)
    (hprinted : t.printed p = (waitsOf p m').map (sleepMessage lit p))
    (hphase : (t.tasks p).Phase p (s.history.machine.thread p) (s.history.calls p) m' k) :
    t.Follows lit p m' k where
  phase := hhistory ▸ hphase
  printed := hprinted
  slept := hslept ▸ h.slept
  returned := hhistory ▸ hslept ▸ h.returned
  order := hslept ▸ h.order
  current := hhistory ▸ hslept ▸ h.current

/-- What a step of the code of process `p` does to the others. -/
structure Leaves (s t : TaskSystem) (p : ℕ) : Prop where
  tasks : ∀ q ≠ p, t.tasks q = s.tasks q
  printed : ∀ q ≠ p, t.printed q = s.printed q
  slept : t.slept = s.slept
  thread : ∀ q ≠ p, t.history.machine.thread q = s.history.machine.thread q
  calls : t.history.calls = s.history.calls
  returns : t.history.returns = s.history.returns

/-- A step of the code of process `p` itself: there is one, and it is the next one of the loop. -/
theorem Follows.task (h : s.Follows lit p m k) (h0 : p ≠ 0) (hp : p < maxProcesses)
    (hc : s.history.machine.kernel.currentPid = some p)
    (hu : s.history.machine.cpu.pc = .user) :
    ∃ t, s.taskStep lit p = some t ∧ (∃ m', t.Follows lit p m' k) ∧ s.Leaves t p ∧
      (t.history = s.history ∨ ∃ request, s.history.step (.syscall request) = some t.history) := by
  have hthread : s.history.machine.thread p = s.history.machine.cpu := if_pos hc
  have hadm := admissible_of_lt hp
  have hphase := h.phase
  rw [hthread] at hphase
  cases hphase with
  | start hpc _ hrdi =>
    have hpid : (s.history.machine.cpu.rdi.setWidth 32).toInt = p := by
      have hlt : p < 128 := hp
      rw [hrdi, BitVec.setWidth_ofNat_of_le (by decide), BitVec.toInt_eq_toNat_cond,
        BitVec.toNat_ofNat]
      omega
    refine ⟨{ s with tasks := Function.update s.tasks p ⟨.draw, p, (p + 42) * 1000,
        (s.tasks p).r⟩ }, ?_, ⟨0, h.move rfl rfl h.printed ?_⟩, ?_, Or.inl rfl⟩
    · simp only [taskStep, hpc, hpid, firstSeed_eq hadm, Option.bind_eq_bind, Option.bind_some]
    · dsimp only
      rw [hthread, Function.update_self]
      exact .draw rfl hu rfl (firstSeed_eq hadm)
    · exact ⟨fun q hq => Function.update_of_ne hq _ _, fun _ _ => rfl, rfl, fun _ _ => rfl, rfl,
        rfl⟩
  | draw hpc _ hpid hseed =>
    have hnext : seedAfter p (m + 1) = nextSeed (s.tasks p).seed := by
      rw [seedAfter, hseed, Option.bind_some]
    obtain ⟨seed, hseed'⟩ : ∃ seed, seedAfter p (m + 1) = some seed := ⟨_, seedAfter_eq hadm _⟩
    have hwait : wait seed = waitOf p (m + 1) := by
      rw [waitOf, Option.some.inj (hseed'.symm.trans (seedAfter_eq hadm _))]
    refine ⟨{ s with tasks := Function.update s.tasks p ⟨.print, p, seed, wait seed⟩ }, ?_,
      ⟨m, h.move rfl rfl h.printed ?_⟩, ?_, Or.inl rfl⟩
    · simp only [taskStep, hpc, ← hnext, hseed', hpid, Option.bind_eq_bind, Option.bind_some]
    · dsimp only
      rw [hthread, Function.update_self]
      exact .print rfl hu rfl hseed' hwait
    · exact ⟨fun q hq => Function.update_of_ne hq _ _, fun _ _ => rfl, rfl, fun _ _ => rfl, rfl,
        rfl⟩
  | print hpc _ hpid hseed hr =>
    refine ⟨{ s with
        tasks := Function.update s.tasks p { s.tasks p with pc := .call }
        printed := Function.update s.printed p
          (sleepMessage lit (s.tasks p).pid (s.tasks p).r :: s.printed p) }, ?_,
      ⟨m + 1, h.move rfl rfl ?_ ?_⟩, ?_, Or.inl rfl⟩
    · simp only [taskStep, hpc]
    · refine (Function.update_self _ _ _).trans ?_
      rw [h.printed, hpid, hr]
      rfl
    · dsimp only
      rw [hthread, Function.update_self]
      exact .call rfl hu hpid hseed hr
    · exact ⟨fun q hq => Function.update_of_ne hq _ _, fun q hq => Function.update_of_ne hq _ _,
        rfl, fun _ _ => rfl, rfl, rfl⟩
  | call hpc _ hpid hseed hr =>
    let request := Request.sleep (BitVec.ofInt 64 (s.tasks p).r)
    let M : Machine := { s.history.machine with cpu := s.history.machine.cpu.enter request }
    have hcall : s.history.step (.syscall request) = some { s.history with machine := M } := by
      have hstep : s.history.machine.step (.syscall request) = some M :=
        Option.bind_eq_some_iff.mpr ⟨p, hc, if_pos ⟨h0, hu⟩⟩
      rw [SleepHistory.step, hstep]
      rfl
    have hne : ∀ q ≠ p, M.thread q = s.history.machine.thread q := by
      intro q hq
      have hcq : s.history.machine.kernel.currentPid ≠ some q :=
        fun hcq => hq (Option.some.inj (hcq.symm.trans hc))
      rw [Machine.thread, if_neg hcq, Machine.thread, if_neg hcq]
    have hself : M.thread p = s.history.machine.cpu.enter request := if_pos hc
    refine ⟨{ s with
        history := { s.history with machine := M }
        tasks := Function.update s.tasks p { s.tasks p with pc := .draw } }, ?_,
      ⟨k + 1, ?_, h.printed, h.slept, h.returned, h.order, ?_⟩, ?_, Or.inr ⟨request, hcall⟩⟩
    · simp only [taskStep, hpc]
      rw [hcall]
      rfl
    · dsimp only
      rw [hself, Function.update_self]
      exact .asleep rfl hpid hseed (Or.inl ⟨rfl, congrArg (BitVec.ofInt 64) hr⟩)
    · rw [hself]
      exact fun hsleep => absurd hsleep Bool.false_ne_true
    · exact ⟨fun q hq => Function.update_of_ne hq _ _, fun _ _ => rfl, rfl, hne, rfl, rfl⟩
  | asleep _ _ _ hasleep =>
    obtain ⟨hstart, -⟩ | ⟨hsleeping, -⟩ := hasleep
    · exact absurd (hstart.symm.trans hu) Pc.noConfusion
    · rw [hu] at hsleeping
      exact absurd hsleeping Bool.false_ne_true

theorem Inv.task_cases (h : s.Inv lit n pitCounter) (hn : n < maxProcesses)
    {c : ℕ} (hc : s.history.machine.kernel.currentPid = some c) (h0 : c ≠ 0)
    (hu : s.history.machine.cpu.pc = .user) :
    ∃ t, s.step lit .task = some t ∧ t.Inv lit n pitCounter := by
  have hcn := h.sleep.fit.frames.current c hc
  obtain ⟨m, k, hfollows⟩ := h.task c h0 hcn
  obtain ⟨t, hst, ⟨m', hself⟩, hleaves, hhistory⟩ :=
    hfollows.task h0 (hcn.trans_le hn) hc hu
  refine ⟨t, Option.bind_eq_some_iff.mpr ⟨c, hc, (if_pos ⟨h0, hu⟩).trans hst⟩, ?_,
    fun p hp0 hp => ?_⟩
  · obtain heq | ⟨request, hstep⟩ := hhistory
    · exact heq ▸ h.sleep
    · exact h.sleep.step hstep
  · rcases eq_or_ne p c with rfl | hne
    · exact ⟨m', k, hself⟩
    · obtain ⟨m, k, hfollows⟩ := h.task p hp0 hp
      exact ⟨m, k, hfollows.congr (hleaves.tasks p hne) (hleaves.printed p hne)
        (congrFun hleaves.slept p) (Or.inl (hleaves.thread p hne)) (congrFun hleaves.calls p)
        fun r hr => hleaves.returns ▸ hr⟩

theorem Inv.step (h : s.Inv lit n pitCounter) (hn : n < maxProcesses) {e : TaskEvent}
    (hst : s.step lit e = some t) : t.Inv lit n pitCounter := by
  cases e with
  | tick => exact h.tick hst
  | exec => exact h.exec hst
  | idle => exact h.idle hst
  | task =>
    obtain ⟨c, hc, hcode⟩ := Option.bind_eq_some_iff.mp hst
    obtain ⟨⟨h0, hu⟩, -⟩ := Option.ite_none_right_eq_some.mp hcode
    obtain ⟨t', hst', hinv⟩ := h.task_cases hn hc h0 hu
    obtain rfl := Option.some.inj (hst.symm.trans hst')
    exact hinv

theorem inv_initial (lit : Literals) (mem : ThreadMap) (init userTask pitCounter : BitVec 64)
    (hn : n < maxProcesses) :
    (initial mem init userTask pitCounter n).Inv lit n pitCounter := by
  refine ⟨sleepInv_initial mem init userTask pitCounter hn, fun p h0 hp => ⟨0, 0, ?_⟩⟩
  obtain ⟨rsp, hframe⟩ := (setupSpec_boot mem init userTask hn).frame p hp
  have hthread : (initial mem init userTask pitCounter n).history.machine.thread p =
      initialThread ⟨if p = 0 then init else userTask, p = 0, rsp, p⟩ := by
    rw [Machine.thread, if_neg]
    · exact hframe
    · intro h
      have hnone := (setupSpec_boot mem init userTask hn).currentPid
      exact Option.some_ne_none p (h.symm.trans hnone)
  refine ⟨?_, rfl, rfl, fun r hr => absurd hr List.not_mem_nil, .nil, fun _ call hcall => ?_⟩
  · rw [hthread]
    exact .start rfl rfl rfl
  · exact absurd hcall (Option.not_mem_none call)

end TaskSystem

/-! ### What a process has printed and slept -/

theorem waitsOf_mem {w : ℤ} : ∀ {k : ℕ}, w ∈ waitsOf p k → 0 ≤ w ∧ w < 10000
  | k + 1, h => by
    obtain rfl | h := List.mem_cons.mp h
    · exact Finset.mem_Ico.mp (waitOf_succ_mem p k)
    · exact waitsOf_mem h

def sleepPieces : List Piece :=
  (literal "Process ").map .char ++ (.directive ⟨[], some (.number 4), none, .none⟩ (byteOf 'd') ::
    ((literal " sleeping for ").map .char ++
      (.directive ⟨[], some (.number 5), none, .none⟩ (byteOf 'd') ::
        (literal " ms\n").map .char)))

/-- What `user_task` prints. -/
def sleepText (p : ℕ) (w : ℤ) : List (BitVec 8) :=
  literal "Process " ++ (padded 4 p ++
    (literal " sleeping for " ++ (padded 5 w.toNat ++ literal " ms\n")))

theorem sleepMessage_prints {M : ByteMemory} {R : Set ℕ} (hlit : LiteralsAt M R lit [sleepFormat])
    (hp : p < maxProcesses) {w : ℤ} (hw : 0 ≤ w ∧ w < 10000) :
    (sleepMessage lit p w).Prints M R (sleepText p w) := by
  obtain ⟨w, rfl⟩ := Int.eq_ofNat_of_zero_le hw.1
  have hw' : w < 10000 := by omega
  have hp' : p < 128 := hp
  have hd : Scannable ⟨[], some (.number 4), none, .none⟩ (byteOf 'd') :=
    scannable_width (Or.inl rfl) (fun _ h => absurd h List.not_mem_nil) (by decide) (by decide)
  have hd' : Scannable ⟨[], some (.number 5), none, .none⟩ (byteOf 'd') :=
    scannable_width (Or.inl rfl) (fun _ h => absurd h List.not_mem_nil) (by decide) (by decide)
  have hreadable : ∀ piece ∈ sleepPieces, piece.Readable := by
    have hchars := fun text (h : byteOf '%' ∉ literal text) => readable_chars h
    rw [sleepPieces, List.forall_mem_append, List.forall_mem_cons, List.forall_mem_append,
      List.forall_mem_cons]
    exact ⟨hchars _ (by decide), hd, hchars _ (by decide), hd', hchars _ (by decide)⟩
  have hlast : piecesText ((literal " ms\n").map .char) [] = some (literal " ms\n") := rfl
  refine printf_prints hlit List.mem_cons_self hreadable (by decide) ?_
  rw [BitVec.ofInt_natCast, BitVec.ofInt_natCast, sleepPieces, piecesText_chars, List.map_cons,
    piecesText_directive hd, piecesText_chars, List.map_cons, piecesText_directive hd',
    fieldText_decimal hd rfl (by omega), fieldText_decimal hd' rfl (by omega), List.map_nil, hlast]
  rfl

/-- Calls one after the other take at least the sum of their durations. -/
theorem sum_le_of_order {rs : List SleepReturn} (hright : ∀ r ∈ rs, r.Right)
    (horder : rs.Pairwise fun later earlier => earlier.endTick ≤ later.startTick) {now : ℕ}
    (hpast : ∀ r ∈ rs, r.endTick ≤ now) :
    (rs.map fun r => (r.requested.toNat + 9) / 10).sum ≤ now := by
  induction horder generalizing now with
  | nil => exact Nat.zero_le now
  | @cons r rs hr _ ih =>
    obtain ⟨horder, hticks, -, -⟩ := hright r List.mem_cons_self
    have hrest := ih (fun r' hr' => hright r' (List.mem_cons_of_mem r hr')) hr
    have hend := hpast r List.mem_cons_self
    rw [List.map_cons, List.sum_cons]
    omega

theorem toNat_ofInt_wait {w : ℤ} (h : 0 ≤ w ∧ w < 10000) : (BitVec.ofInt 64 w).toNat = w.toNat := by
  rw [BitVec.toNat_ofInt]
  omega

/-- **What the user tasks do**: in every run, however the scheduler interleaves them, the next step
of the task on the processor can be taken. Every process has printed and slept the first durations
of its own generator, in order and without a gap, each of its calls began after the one before it
had returned, and none returned early. -/
theorem userTasks_sleep {M : ByteMemory} {R : Set ℕ} (hlit : LiteralsAt M R lit [sleepFormat])
    (mem : ThreadMap) (init userTask pitCounter : BitVec 64) (hn : n < maxProcesses)
    {es : List TaskEvent} {s : TaskSystem}
    (hrun : run (TaskSystem.step lit) (.initial mem init userTask pitCounter n) es = some s)
    (hticks : s.history.ticks < 2 ^ 60) :
    (∀ c, s.history.machine.kernel.currentPid = some c → c ≠ 0 →
      s.history.machine.cpu.pc = .user → ∃ t, s.step lit .task = some t) ∧
    ∀ p, p ≠ 0 → p < n + 1 → ∃ m k, (m = k ∨ m = k + 1) ∧
      List.Forall₂ (fun call text => ConsoleCall.Prints M R call text) (s.printed p)
        ((waitsOf p m).map (sleepText p)) ∧
      (s.slept p).map (·.requested.toNat) = (waitsOf p k).map Int.toNat ∧
      (∀ r ∈ s.slept p, r.Right) ∧
      (s.slept p).Pairwise (fun later earlier => earlier.endTick ≤ later.startTick) ∧
      ((waitsOf p k).map fun w => (w.toNat + 9) / 10).sum ≤ s.history.ticks := by
  have hinv : s.Inv lit n pitCounter :=
    invariant_of_run (fun s : TaskSystem => s.Inv lit n pitCounter)
      (fun _ _ _ h hst => h.step hn hst)
      (TaskSystem.inv_initial lit mem init userTask pitCounter hn) hrun
  refine ⟨fun c hc h0 hu => ?_, fun p h0 hp => ?_⟩
  · obtain ⟨t, hst, -⟩ := hinv.task_cases hn hc h0 hu
    exact ⟨t, hst⟩
  obtain ⟨m, k, h⟩ := hinv.task p h0 hp
  have hrequested : (s.slept p).map (·.requested.toNat) = (waitsOf p k).map Int.toNat := by
    have := congrArg (List.map BitVec.toNat) h.slept
    rw [List.map_map, List.map_map] at this
    exact this.trans (List.map_congr_left fun w hw => toNat_ofInt_wait (waitsOf_mem hw))
  have hright : ∀ r ∈ s.slept p, r.Right := by
    intro r hr
    have hw : r.requested.toNat ∈ (waitsOf p k).map Int.toNat :=
      hrequested ▸ List.mem_map_of_mem hr
    obtain ⟨w, hw, heq⟩ := List.mem_map.mp hw
    have := waitsOf_mem hw
    refine ((hinv.sleep.returns r (h.returned r hr)).right_iff hticks).mpr ?_
    omega
  refine ⟨m, k, ?_, ?_, hrequested, hright, h.order, ?_⟩
  · cases h.phase with
    | start | draw | print => exact Or.inl rfl
    | call | asleep => exact Or.inr rfl
  · rw [h.printed, List.forall₂_map_left_iff, List.forall₂_map_right_iff, List.forall₂_same]
    exact fun w hw => sleepMessage_prints hlit (hp.trans_le hn) (waitsOf_mem hw)
  · have hsum := sum_le_of_order hright h.order fun r hr =>
      (hinv.sleep.returns r (h.returned r hr)).past
    have hmap := congrArg (List.map fun w => (w + 9) / 10) hrequested
    rw [List.map_map, List.map_map] at hmap
    exact (congrArg List.sum hmap).ge.trans hsum

/-! ### A round -/

namespace TaskSystem

/-- The four user processes of the source, on a memory of new frames. -/
def source : TaskSystem := initial ⟨fun _ => initialThread ⟨0, false, 0, 0⟩⟩ 0x200000 0x200100 0 4

/-- A new process goes through its loop, up to the `hlt` of its first sleep. -/
def firstSleep : List TaskEvent := List.replicate 4 .task ++ List.replicate 9 .exec

/-- Process 1 goes to sleep for 114 ticks. Its time slice ends in the call, the other processes go
to sleep as well, and process 1 returns and starts its second round. -/
def sourceRound : List TaskEvent :=
  [.tick, .tick] ++ List.replicate 4 .task ++ [.exec, .exec] ++ List.replicate 100 .tick ++
    firstSleep ++ [.tick] ++ firstSleep ++ [.tick] ++ firstSleep ++ List.replicate 12 .tick ++
    [.exec, .exec, .task, .task]

end TaskSystem

/-- The theorem at that run. -/
theorem userTasks_sleep_sourceRound : ∃ s,
    run (TaskSystem.step (literalAddress [sleepFormat])) .source TaskSystem.sourceRound = some s ∧
    (s.printed 1).length = 2 ∧
    (s.slept 1).map (fun r => (r.requested, r.startTick, r.endTick)) = [(1137, 2, 116)] ∧
    (∀ c, s.history.machine.kernel.currentPid = some c → c ≠ 0 →
      s.history.machine.cpu.pc = .user →
      ∃ t, s.step (literalAddress [sleepFormat]) .task = some t) ∧
    ∀ p, p ≠ 0 → p < 4 + 1 → ∃ m k, (m = k ∨ m = k + 1) ∧
      List.Forall₂ (fun call text => ConsoleCall.Prints (literalMemory [sleepFormat])
        (Set.Iio 4096) call text) (s.printed p) ((waitsOf p m).map (sleepText p)) ∧
      (s.slept p).map (·.requested.toNat) = (waitsOf p k).map Int.toNat ∧
      (∀ r ∈ s.slept p, r.Right) ∧
      (s.slept p).Pairwise (fun later earlier => earlier.endTick ≤ later.startTick) ∧
      ((waitsOf p k).map fun w => (w.toNat + 9) / 10).sum ≤ s.history.ticks := by
  have hstate : (run (TaskSystem.step (literalAddress [sleepFormat])) TaskSystem.source
      TaskSystem.sourceRound).map (fun s => ((s.printed 1).length,
        (s.slept 1).map fun r => (r.requested, r.startTick, r.endTick), s.history.ticks)) =
      some (2, [(1137, 2, 116)], 116) := by
    decide +kernel
  obtain ⟨s, hs, hvalues⟩ := Option.map_eq_some_iff.mp hstate
  simp only [Prod.mk.injEq] at hvalues
  obtain ⟨hprinted, hslept, hticks⟩ := hvalues
  exact ⟨s, hs, hprinted, hslept, userTasks_sleep
    (literalsAt_literalMemory _ (by decide) (by decide)) _ _ _ 0 (by decide) hs
    (hticks.trans_lt (by decide))⟩

end FrogOS
