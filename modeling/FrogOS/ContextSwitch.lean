import FrogOS.Lib.StepSystem
import FrogOS.SetupProcess

/-!
# Context switches

A switch is two copies: the interrupted frame to the context of the process that stops, the
context of the process that starts over the frame. What makes this right over a whole run is that
the contexts of different processes do not overlap, and that only a switch writes them.

The first half is about any kind of frame: `Kernel.saved` is the frame a context holds, and
`Kernel.scheduleProcess_frames` says what one call does to the saved frames of all processes and to
the interrupted frame. The second half runs ticks, and the writes of `ksyscall` between them, on the
register frames of the machine, and keeps a record of every tick, so that a restored frame can be
compared with the frame that was saved.

## Main definitions

* `Kernel.saved`, `Kernel.FramesFit` — saved frames, and when they are kept apart
* `CodeEffect`, `Kernel.applyEffect` — what the code of a process does to the kernel
* `SwitchState`, `SwitchOp`, `switchStep` — runs with a record of every tick
* `lastSwitchedAway` — the frame of a process at the tick that last stopped it

## Main results

* `Kernel.scheduleProcess_frames` — one call of `schedule_process`
* `contextSwitch_run` — every tick of every run
-/

namespace FrogOS

open ContextMemory StepSystem

/-- What an instruction of a process or of a system call does besides moving on. -/
inductive CodeEffect
  | compute
  | setReady
  | storeRunQueue
  | advanceRunQueueTail
  | disable
  | enable
  deriving DecidableEq

namespace Kernel

variable {M F : Type} [ContextMemory M F]

/-! ### One tick -/

/-- The frame in the context of a process. -/
def saved (k : Kernel M) (p : ℕ) : F := load k.mem (k.processTable p).context

/-- Two kernels that differ in nothing a context switch reads or writes. -/
structure SameFrames (k k' : Kernel M) : Prop where
  mem : k'.mem = k.mem
  context : ∀ q, (k'.processTable q).context = (k.processTable q).context
  currentPid : k'.currentPid = k.currentPid
  started : k'.started = k.started

omit [ContextMemory M F] in
theorem SameFrames.refl (k : Kernel M) : SameFrames k k :=
  ⟨rfl, fun _ => rfl, rfl, rfl⟩

omit [ContextMemory M F] in
theorem SameFrames.trans {k k' k'' : Kernel M} (h : SameFrames k k') (h' : SameFrames k' k'') :
    SameFrames k k'' :=
  ⟨h'.mem.trans h.mem, fun q => (h'.context q).trans (h.context q),
    h'.currentPid.trans h.currentPid, h'.started.trans h.started⟩

theorem SameFrames.saved {k k' : Kernel M} (h : SameFrames k k') (q : ℕ) :
    k'.saved q = k.saved q := by
  rw [Kernel.saved, Kernel.saved, h.mem, h.context]

omit [ContextMemory M F] in
theorem sameFrames_updateProcess (k : Kernel M) (pid : ℕ) {f : Process → Process}
    (hf : ∀ p, (f p).context = p.context) : SameFrames k (k.updateProcess pid f) :=
  ⟨rfl, fun q => updateProcess_field k pid f hf q, rfl, rfl⟩

omit [ContextMemory M F] in
theorem sameFrames_setReady (k : Kernel M) (pid : ℕ) : SameFrames k (k.setReady pid) :=
  sameFrames_updateProcess k pid fun _ => rfl

omit [ContextMemory M F] in
theorem sameFrames_countTick (k : Kernel M) (pid : ℕ) : SameFrames k (k.countTick pid) :=
  sameFrames_updateProcess k pid fun _ => rfl

omit [ContextMemory M F] in
theorem sameFrames_chargeQuantum (k : Kernel M) (pid : ℕ) : SameFrames k (k.chargeQuantum pid) :=
  sameFrames_updateProcess k pid fun _ => rfl

omit [ContextMemory M F] in
/-- Assignments to the run queue and to the tick counter. -/
theorem sameFrames_runQueue (k : Kernel M) (runQueue : RingBuffer ℕ maxProcesses)
    (pitCounter : BitVec 64) :
    SameFrames k { k with runQueue := runQueue, pitCounter := pitCounter } :=
  ⟨rfl, fun _ => rfl, rfl, rfl⟩

/-- `schedule_process` lets the current process go on, or calls `start_process` for the idle process
or a pid from the ring, which the current pid may have entered. -/
theorem scheduleProcess_cases (k : Kernel M) (context : F) :
    (∃ k', k.scheduleProcess context = (k', context) ∧ SameFrames k k' ∧
        k'.runQueue = k.runQueue) ∨
      ∃ k' p, k.scheduleProcess context = k'.startProcess p context ∧ SameFrames k k' ∧
        (p = 0 ∨ ∃ i, p = k'.runQueue.slots i) ∧
        (k'.runQueue.slots = k.runQueue.slots ∨ ∃ c, k.currentPid = some c ∧
          k'.runQueue.slots = (k.runQueue.store c).slots) := by
  have hdispatch : ∀ k₁ : Kernel M, SameFrames k k₁ →
      ∃ k' p, k₁.dispatch context = k'.startProcess p context ∧ SameFrames k k' ∧
        (p = 0 ∨ ∃ i, p = k'.runQueue.slots i) ∧ k'.runQueue.slots = k₁.runQueue.slots := by
    intro k₁ h₁
    by_cases hq : k₁.runQueue.head = k₁.runQueue.tail
    · exact ⟨k₁, 0, by rw [dispatch, getNextPid_of_empty hq], h₁, Or.inl rfl, rfl⟩
    · exact ⟨k₁.advanceRunQueueHead, k₁.runQueue.front, by rw [dispatch, getNextPid_of_ne hq],
        h₁.trans (sameFrames_runQueue k₁ _ _), Or.inr ⟨k₁.runQueue.head, rfl⟩, rfl⟩
  have h := scheduleProcess_tick k context
  generalize k.scheduleProcess context = r at h ⊢
  cases h with
  | first hcur => exact Or.inr ⟨_, 0, rfl, SameFrames.refl k, Or.inl rfl, Or.inl rfl⟩
  | idle hcur hq => exact Or.inl ⟨_, rfl, sameFrames_countTick k 0, rfl⟩
  | wake hcur hq =>
    obtain ⟨k', p, heq, hk', hp, hslots⟩ := hdispatch _ (sameFrames_countTick k 0)
    exact Or.inr ⟨k', p, heq, hk', hp, Or.inl hslots⟩
  | @slice c hcur hc hs ht =>
    exact Or.inl ⟨_, rfl, (sameFrames_countTick k c).trans (sameFrames_chargeQuantum _ c), rfl⟩
  | @expire c hcur hc hs ht =>
    obtain ⟨k', p, heq, hk', hp, hslots⟩ := hdispatch _
      ((((sameFrames_countTick k c).trans (sameFrames_chargeQuantum _ c)).trans
        (sameFrames_setReady _ c)).trans (sameFrames_runQueue _ _ _))
    exact Or.inr ⟨k', p, heq, hk', hp, Or.inr ⟨c, hcur, hslots⟩⟩
  | @leave c hcur hc hs =>
    obtain ⟨k', p, heq, hk', hp, hslots⟩ := hdispatch _ (sameFrames_countTick k c)
    exact Or.inr ⟨k', p, heq, hk', hp, Or.inl hslots⟩

/-- The pids below `m` are the ones the kernel deals in, and their contexts do not overlap. -/
structure FramesFit (m : ℕ) (k : Kernel M) : Prop where
  pos : 0 < m
  apart : ∀ p < m, ∀ q < m, p ≠ q → Apart (k.processTable p).context (k.processTable q).context
  slots : ∀ i, k.runQueue.slots i < m
  current : ∀ c, k.currentPid = some c → c < m

theorem startProcess_frame (k : Kernel M) (p : ℕ) (context : F) :
    (k.startProcess p context).2 = (k.startProcess p context).1.saved p := by
  cases hc : k.currentPid <;> simp [startProcess, saved, hc, updateProcess]

/-- `start_process` saves the interrupted frame for the current process and for nobody else. -/
theorem saved_startProcess {m : ℕ} {k : Kernel M} (h : FramesFit m k) (p : ℕ) (context : F) {q : ℕ}
    (hq : q < m) : (k.startProcess p context).1.saved q
      = if k.currentPid = some q then context else k.saved q := by
  have hctx : ((k.startProcess p context).1.processTable q).context
      = (k.processTable q).context :=
    congrFun (congrArg (fun l => l.2.2) (layout_startProcess k p context)) q
  rw [saved, hctx]
  cases hc : k.currentPid with
  | none => simp [startProcess, hc, saved]
  | some c =>
    have hmem :
        (k.startProcess p context).1.mem = save k.mem (k.processTable c).context context := by
      simp [startProcess, hc]
    rw [hmem]
    by_cases hcq : c = q
    · subst hcq
      rw [if_pos rfl, load_save]
    · rw [if_neg (fun h => hcq (Option.some.inj h)), saved]
      exact load_save_of_apart (h.apart c (h.current c hc) q hq hcq)

theorem FramesFit.congr {m : ℕ} {k k' : Kernel M} (h : FramesFit m k) (hk : SameFrames k k')
    (hslots : ∀ i, k'.runQueue.slots i < m) : FramesFit m k' where
  pos := h.pos
  apart p hp q hq hne := by simpa only [hk.context] using h.apart p hp q hq hne
  slots := hslots
  current c hc := h.current c (hk.currentPid.symm.trans hc)

omit [ContextMemory M F] in
theorem FramesFit.slots_store {m : ℕ} {k : Kernel M} (h : FramesFit m k) {c : ℕ} (hc : c < m) :
    ∀ i, (k.runQueue.store c).slots i < m :=
  RingBuffer.forall_slots_store (p := (· < m)) h.slots hc

theorem SetupSpec.framesFit {init userTask : BitVec 64} {m : ℕ} {k : Kernel M}
    (h : SetupSpec k init userTask m) (hm : 0 < m) : FramesFit m k where
  pos := hm
  apart := h.apart
  slots := h.runSlots
  current c hc := absurd (h.currentPid.symm.trans hc) (Option.some_ne_none c).symm

/-- The kernel after an instruction of the current process. -/
def applyEffect (k : Kernel M) : CodeEffect → Kernel M
  | .setReady => match k.currentPid with
    | none => k
    | some c => k.setReady c
  | .storeRunQueue => match k.currentPid with
    | none => k
    | some c => k.storeRunQueue c
  | .advanceRunQueueTail => k.advanceRunQueueTail
  | .compute | .disable | .enable => k

/-- The code of processes moves no saved frame. -/
theorem FramesFit.applyEffect {m : ℕ} {k : Kernel M} (h : FramesFit m k) (effect : CodeEffect) :
    SameFrames k (k.applyEffect effect) ∧ ∀ i, (k.applyEffect effect).runQueue.slots i < m := by
  cases effect with
  | compute | disable | enable => exact ⟨SameFrames.refl k, h.slots⟩
  | advanceRunQueueTail => exact ⟨sameFrames_runQueue k _ _, h.slots⟩
  | setReady =>
    rw [Kernel.applyEffect]
    split
    · exact ⟨SameFrames.refl k, h.slots⟩
    · exact ⟨sameFrames_setReady k _, h.slots⟩
  | storeRunQueue =>
    rw [Kernel.applyEffect]
    split
    · exact ⟨SameFrames.refl k, h.slots⟩
    · next c hc => exact ⟨sameFrames_runQueue k _ _, h.slots_store (h.current c hc)⟩

theorem FramesFit.startProcess {m : ℕ} {k : Kernel M} (h : FramesFit m k) {p : ℕ} (hp : p < m)
    (context : F) : FramesFit m (k.startProcess p context).1 where
  pos := h.pos
  apart q hq r hr hne := by
    have hctx : ∀ q, ((k.startProcess p context).1.processTable q).context
        = (k.processTable q).context :=
      congrFun (congrArg (fun l => l.2.2) (layout_startProcess k p context))
    simpa only [hctx] using h.apart q hq r hr hne
  slots := by simpa using h.slots
  current c hc := by
    rw [startProcess_currentPid] at hc
    exact Option.some.inj hc ▸ hp

/-- **One call of `schedule_process`.** Either the current process goes on with its frame, or a
process `p` is started: the interrupted frame has become the saved frame of the current process, no
other saved frame has changed, and the frame left for `iretq` is the saved frame of `p`. -/
theorem scheduleProcess_frames {m : ℕ} {k : Kernel M} (h : FramesFit m k) (context : F) :
    FramesFit m (k.scheduleProcess context).1 ∧
      ((k.scheduleProcess context).2 = context ∧ SameFrames k (k.scheduleProcess context).1 ∨
        ∃ p < m, (k.scheduleProcess context).1.currentPid = some p ∧
          (k.scheduleProcess context).1.started = k.started ++ [p] ∧
          ((k.scheduleProcess context).1.processTable p).state = .running ∧
          (∀ q < m, (k.scheduleProcess context).1.saved q
            = if k.currentPid = some q then context else k.saved q) ∧
          (k.scheduleProcess context).2 = (k.scheduleProcess context).1.saved p) := by
  rcases k.scheduleProcess_cases context with ⟨k', heq, hk', hq⟩ | ⟨k', p, heq, hk', hp, hslots⟩
  · rw [heq]
    exact ⟨h.congr hk' (by rw [hq]; exact h.slots), Or.inl ⟨rfl, hk'⟩⟩
  · have hfit : FramesFit m k' := by
      refine h.congr hk' fun i => ?_
      rcases hslots with hs | ⟨c, hc, hs⟩
      · rw [hs]; exact h.slots i
      · rw [hs]; exact h.slots_store (h.current c hc) i
    have hpm : p < m := by
      rcases hp with rfl | ⟨i, rfl⟩
      · exact h.pos
      · exact hfit.slots i
    rw [heq]
    refine ⟨hfit.startProcess hpm context, Or.inr ⟨p, hpm, startProcess_currentPid _ _ _, ?_,
      startProcess_state_self _ _ _, fun q hq => ?_, startProcess_frame _ _ _⟩⟩
    · rw [startProcess_started, hk'.started]
    · rw [saved_startProcess hfit p context hq, hk'.currentPid, hk'.saved]

/-- **One tick**, the same: the counter is no part of it. -/
theorem pitHandler_frames {m : ℕ} {k : Kernel M} (h : FramesFit m k) (context : F) :
    FramesFit m (k.pitHandler context).1 ∧
      ((k.pitHandler context).2 = context ∧ SameFrames k (k.pitHandler context).1 ∨
        ∃ p < m, (k.pitHandler context).1.currentPid = some p ∧
          (k.pitHandler context).1.started = k.started ++ [p] ∧
          ((k.pitHandler context).1.processTable p).state = .running ∧
          (∀ q < m, (k.pitHandler context).1.saved q
            = if k.currentPid = some q then context else k.saved q) ∧
          (k.pitHandler context).2 = (k.pitHandler context).1.saved p) := by
  have h₀ : SameFrames k { k with pitCounter := k.pitCounter + 1 } := sameFrames_runQueue k _ _
  obtain ⟨hfit, hcase⟩ := scheduleProcess_frames (h.congr h₀ h.slots) context
  exact ⟨hfit, hcase.imp_left fun hs => ⟨hs.1, h₀.trans hs.2⟩⟩

end Kernel

/-! ### Runs -/

open Kernel ProcessContext

/-- What one tick did: the current process when it arrived and when it returned, the frame the
interrupt pushed and the frame left for `iretq`. -/
structure TickRecord where
  before : Option ℕ
  after : Option ℕ
  interrupted : ProcessContext
  restored : ProcessContext

/-- The kernel, and the ticks so far, the latest one first. -/
structure SwitchState where
  kernel : Kernel ByteMemory
  history : List TickRecord

/-- A tick, or one of the writes of `ksyscall` to the state and the queue of its caller. -/
inductive SwitchOp
  | tick (context : ProcessContext)
  | setReady
  | storeRunQueue
  | advanceRunQueueTail

def switchStep (s : SwitchState) : SwitchOp → Option SwitchState
  | .tick context =>
    let r := s.kernel.pitHandler context
    some ⟨r.1, ⟨s.kernel.currentPid, r.1.currentPid, context, r.2⟩ :: s.history⟩
  | .setReady => s.kernel.currentPid.map fun c => { s with kernel := s.kernel.setReady c }
  | .storeRunQueue => s.kernel.currentPid.map fun c => { s with kernel := s.kernel.storeRunQueue c }
  | .advanceRunQueueTail => s.kernel.currentPid.map fun _ =>
      { s with kernel := s.kernel.advanceRunQueueTail }

/-- The frame with which `p` was interrupted at the tick at which it was last switched away
from. -/
def lastSwitchedAway (p : ℕ) : List TickRecord → Option ProcessContext
  | [] => none
  | r :: history =>
    if r.before = some p ∧ r.after ≠ some p then some r.interrupted
    else lastSwitchedAway p history

/-- Calls of `process_create` with the given entry points and task kinds, in order. -/
def createAll (k : Kernel ByteMemory) (tasks : List (BitVec 64 × Bool)) : Kernel ByteMemory :=
  tasks.foldl (fun k task => (k.processCreate task.1 task.2).1) k

/-- The globals when `free_queue` has been filled. -/
def emptyTable (mem : ByteMemory) (heap : Heap) : Kernel ByteMemory :=
  (Kernel.initial mem heap).fillFreeQueue

/-- All processes have been created, and the head of the run queue stands anywhere. -/
def SwitchState.initial (mem : ByteMemory) (heap : Heap) (tasks : List (BitVec 64 × Bool))
    (head : Fin maxProcesses) : SwitchState :=
  let k := createAll (emptyTable mem heap) tasks
  ⟨{ k with runQueue := { k.runQueue with head := head } }, []⟩

/-- The frame `process_create` builds for the process it creates from entry `p` of `tasks`; the
stack is the block the allocator returns in that call. -/
def createdFrame (mem : ByteMemory) (heap : Heap) (tasks : List (BitVec 64 × Bool)) (p : ℕ) :
    ProcessContext :=
  match tasks[p]? with
  | none => zero
  | some task =>
    let stack := (createAll (emptyTable mem heap) (tasks.take p)).stackBlock.1
    { zero with
      rip := task.1
      cs := if task.2 then 0x08 else 0x28 ||| 3
      ss := if task.2 then 0x10 else 0x20 ||| 3
      rflags := 0x202
      rsp := stack + 4096
      rdi := BitVec.ofNat 64 p }

/-- A tick that switches to another process restores the frame that process was last stopped with,
or the frame it was created with; a tick that does not leaves the frame alone. -/
def SwitchesRightly (created : ℕ → ProcessContext) (m : ℕ) (s : SwitchState)
    (context : ProcessContext) : Prop :=
  (∀ p, (s.kernel.pitHandler context).1.currentPid = some p → s.kernel.currentPid ≠ some p →
      p < m ∧
        (s.kernel.pitHandler context).2 = (lastSwitchedAway p s.history).getD (created p)) ∧
    ((s.kernel.pitHandler context).1.currentPid = s.kernel.currentPid →
      (s.kernel.pitHandler context).2 = context)

/-- What holds between ticks: a process that is not running has the frame it should be resumed
with in its context. -/
structure SwitchInv (created : ℕ → ProcessContext) (m : ℕ) (s : SwitchState) : Prop where
  fit : FramesFit m s.kernel
  saved : ∀ p < m, s.kernel.currentPid ≠ some p →
    s.kernel.saved p = (lastSwitchedAway p s.history).getD (created p)

variable {created : ℕ → ProcessContext} {m : ℕ} {s t : SwitchState}

theorem SwitchInv.switchesRightly (h : SwitchInv created m s) (context : ProcessContext) :
    SwitchesRightly created m s context := by
  obtain ⟨-, ⟨hframe, hsame⟩ | ⟨p, hp, hcur, -, -, hsaved, hframe⟩⟩ :=
    pitHandler_frames h.fit context
  · exact ⟨fun q hq hne => absurd (hsame.currentPid.symm.trans hq) hne, fun _ => hframe⟩
  · refine ⟨fun q hq hne => ?_, fun hback => ?_⟩
    · obtain rfl : p = q := Option.some.inj (hcur.symm.trans hq)
      rw [hframe, hsaved p hp, if_neg hne]
      exact ⟨hp, h.saved p hp hne⟩
    · rw [hframe, hsaved p hp, if_pos (hback.symm.trans hcur)]

/-- The writes of `ksyscall` touch no frame. -/
theorem SwitchInv.congr (h : SwitchInv created m s) {k : Kernel ByteMemory}
    (hk : SameFrames s.kernel k) (hslots : ∀ i, k.runQueue.slots i < m) :
    SwitchInv created m { s with kernel := k } where
  fit := h.fit.congr hk hslots
  saved p hp hne := by
    rw [hk.saved]
    exact h.saved p hp fun hc => hne (hk.currentPid.trans hc)

theorem SwitchInv.tick (h : SwitchInv created m s) (context : ProcessContext)
    (hst : switchStep s (.tick context) = some t) : SwitchInv created m t := by
  obtain rfl := Option.some.inj hst
  obtain ⟨hfit, ⟨-, hsame⟩ | ⟨p, hp, hcur, -, -, hsaved, -⟩⟩ := pitHandler_frames h.fit context
  · refine ⟨hfit, fun q hq hne => ?_⟩
    have hne' : s.kernel.currentPid ≠ some q := fun hc => hne (hsame.currentPid.trans hc)
    rw [hsame.saved, h.saved q hq hne', lastSwitchedAway, if_neg fun hr => hne' hr.1]
  · refine ⟨hfit, fun q hq hne => ?_⟩
    rw [hsaved q hq, lastSwitchedAway]
    by_cases hc : s.kernel.currentPid = some q
    · rw [if_pos hc, if_pos ⟨hc, hne⟩, Option.getD_some]
    · rw [if_neg hc, if_neg fun hr => hc hr.1, h.saved q hq hc]

theorem SwitchInv.step (h : SwitchInv created m s) {op : SwitchOp}
    (hst : switchStep s op = some t) : SwitchInv created m t := by
  cases op with
  | tick context => exact h.tick context hst
  | setReady =>
    obtain ⟨c, -, rfl⟩ := Option.map_eq_some_iff.mp hst
    exact h.congr (sameFrames_setReady _ c) h.fit.slots
  | storeRunQueue =>
    obtain ⟨c, hc, rfl⟩ := Option.map_eq_some_iff.mp hst
    exact h.congr (sameFrames_runQueue _ _ _) (h.fit.slots_store (h.fit.current c hc))
  | advanceRunQueueTail =>
    obtain ⟨c, -, rfl⟩ := Option.map_eq_some_iff.mp hst
    exact h.congr (sameFrames_runQueue _ _ _) h.fit.slots

/-! ### The frames of new processes -/

/-- What `process_create` has done after `m` calls: pid `p` came from call `p`. -/
structure CreatedSpec (mem : ByteMemory) (heap : Heap) (tasks : List (BitVec 64 × Bool))
    (k : Kernel ByteMemory) : Prop where
  currentPid : k.currentPid = none
  freeSlots : ∀ i, k.freeQueue.slots i = i.val
  freeHead : k.freeQueue.head = Fin.ofNat maxProcesses tasks.length
  runSlots : ∀ i, k.runQueue.slots i < tasks.length ∨ k.runQueue.slots i = 0
  frame : (∀ p < tasks.length, ∀ q < tasks.length, p ≠ q →
      Apart (k.processTable p).context (k.processTable q).context) →
    ∀ p < tasks.length, k.saved p = createdFrame mem heap tasks p

theorem createAll_append (k : Kernel ByteMemory) (tasks : List (BitVec 64 × Bool))
    (task : BitVec 64 × Bool) :
    createAll k (tasks ++ [task]) = ((createAll k tasks).processCreate task.1 task.2).1 := by
  rw [createAll, List.foldl_append, List.foldl_cons, List.foldl_nil, createAll]

/-- Later calls do not change what earlier ones have built. -/
theorem createdFrame_append_of_lt {mem : ByteMemory} {heap : Heap}
    {tasks : List (BitVec 64 × Bool)} {task : BitVec 64 × Bool} {p : ℕ} (hp : p < tasks.length) :
    createdFrame mem heap (tasks ++ [task]) p = createdFrame mem heap tasks p := by
  rw [createdFrame, createdFrame, List.getElem?_append_left hp, List.take_append_of_le_length hp.le]

theorem createdFrame_append_self (mem : ByteMemory) (heap : Heap)
    (tasks : List (BitVec 64 × Bool)) (task : BitVec 64 × Bool) :
    createdFrame mem heap (tasks ++ [task]) tasks.length = initialContext ⟨task.1, task.2,
      (createAll (emptyTable mem heap) tasks).stackBlock.1 + 4096, tasks.length⟩ := by
  rw [createdFrame, List.getElem?_concat_length, List.take_left']
  · rfl
  · rfl

theorem CreatedSpec.create {mem : ByteMemory} {heap : Heap} {tasks : List (BitVec 64 × Bool)}
    (task : BitVec 64 × Bool)
    (h : CreatedSpec mem heap tasks (createAll (emptyTable mem heap) tasks))
    (hlen : tasks.length < maxProcesses) : CreatedSpec mem heap (tasks ++ [task])
      (createAll (emptyTable mem heap) (tasks ++ [task])) := by
  have hself := createdFrame_append_self mem heap tasks task
  rw [createAll_append]
  generalize createAll (emptyTable mem heap) tasks = k at h hself ⊢
  have hfront : k.freeQueue.front = tasks.length := by
    rw [RingBuffer.front, h.freeSlots, h.freeHead, Fin.val_ofNat, Nat.mod_eq_of_lt hlen]
  have hold : ∀ q < tasks.length, q ≠ tasks.length := fun q hq => Nat.ne_of_lt hq
  have hlen' : (tasks ++ [task]).length = tasks.length + 1 := List.length_append
  rw [processCreate_eq, hfront]
  refine ⟨h.currentPid, h.freeSlots, ?_, fun i => ?_, fun hap p hp => ?_⟩
  · simp only [RingBuffer.advanceHead_head, h.freeHead, hlen']
    ext
    rw [Fin.val_add, Fin.val_one', Fin.val_ofNat, Fin.val_ofNat, ← Nat.add_mod]
  · rw [hlen']
    refine RingBuffer.forall_slots_store (p := fun q => q < tasks.length + 1 ∨ q = 0)
      (fun j => ?_) (Or.inl (Nat.lt_succ_self _)) i
    exact (h.runSlots j).imp_left fun hj => hj.trans (Nat.lt_succ_self _)
  · rw [hlen'] at hap hp
    rcases Nat.lt_succ_iff_lt_or_eq.mp hp with hp | rfl
    · rw [createdFrame_append_of_lt hp, ← h.frame (fun p hp q hq hne => ?_) p hp]
      · have hnew := hap tasks.length (Nat.lt_succ_self _) p (hp.trans (Nat.lt_succ_self _))
          (hold p hp).symm
        simp only [Function.update_self, Function.update_of_ne (hold p hp)] at hnew
        simp only [saved, Function.update_of_ne (hold p hp)]
        exact load_create_of_apart hnew
      · have := hap p (hp.trans (Nat.lt_succ_self _)) q (hq.trans (Nat.lt_succ_self _)) hne
        simpa only [Function.update_of_ne (hold p hp), Function.update_of_ne (hold q hq)] using this
    · simp only [saved, Function.update_self]
      rw [hself, load_create, nextInit, hfront]
      rfl

theorem createdSpec_createAll (mem : ByteMemory) (heap : Heap) (tasks : List (BitVec 64 × Bool))
    (hlen : tasks.length ≤ maxProcesses) :
    CreatedSpec mem heap tasks (createAll (emptyTable mem heap) tasks) := by
  induction tasks using List.reverseRecOn with
  | nil =>
    exact ⟨rfl, fillFreeQueue_slots _, rfl, fun _ => Or.inr rfl,
      fun _ p hp => absurd hp (Nat.not_lt_zero p)⟩
  | append_singleton tasks task ih =>
    rw [List.length_append, List.length_singleton] at hlen
    exact (ih (Nat.le_of_succ_le hlen)).create task hlen

theorem switchInv_initial (mem : ByteMemory) (heap : Heap) (tasks : List (BitVec 64 × Bool))
    (head : Fin maxProcesses) (hne : tasks ≠ []) (hlen : tasks.length ≤ maxProcesses)
    (hap : ∀ p < tasks.length, ∀ q < tasks.length, p ≠ q →
      Apart ((createAll (emptyTable mem heap) tasks).processTable p).context
        ((createAll (emptyTable mem heap) tasks).processTable q).context) :
    SwitchInv (createdFrame mem heap tasks) tasks.length
      (SwitchState.initial mem heap tasks head) := by
  have hpos : 0 < tasks.length := List.length_pos_iff.mpr hne
  have h := createdSpec_createAll mem heap tasks hlen
  rw [SwitchState.initial]
  generalize createAll (emptyTable mem heap) tasks = k at h hap ⊢
  refine ⟨⟨hpos, hap, fun i => ?_, fun c hc => ?_⟩, fun p hp _ => h.frame hap p hp⟩
  · rcases h.runSlots i with hi | hi
    · exact hi
    · exact hi ▸ hpos
  · exact absurd (h.currentPid.symm.trans hc) (Option.some_ne_none c).symm

/-- **Context switches never mix up or lose a register context**, whatever is interrupted and
whatever system calls do to the queue between the ticks. -/
theorem contextSwitch_run (mem : ByteMemory) (heap : Heap) (tasks : List (BitVec 64 × Bool))
    (head : Fin maxProcesses) (hne : tasks ≠ []) (hlen : tasks.length ≤ maxProcesses)
    (hap : ∀ p < tasks.length, ∀ q < tasks.length, p ≠ q →
      Apart ((createAll (emptyTable mem heap) tasks).processTable p).context
        ((createAll (emptyTable mem heap) tasks).processTable q).context)
    (ops : List SwitchOp) (s : SwitchState)
    (hrun : run switchStep (SwitchState.initial mem heap tasks head) ops = some s)
    (context : ProcessContext) :
    SwitchesRightly (createdFrame mem heap tasks) tasks.length s context := by
  have h₀ := switchInv_initial mem heap tasks head hne hlen hap
  have h : SwitchInv (createdFrame mem heap tasks) tasks.length s :=
    invariant_of_run (SwitchInv (createdFrame mem heap tasks) tasks.length)
      (fun _ _ _ hi hst => hi.step hst) h₀ hrun
  exact h.switchesRightly context

/-- The allocator keeps contexts apart, as long as there is room for all of them. -/
theorem createAll_apart (mem : ByteMemory) {heap : Heap} (hv : heap.Valid)
    (tasks : List (BitVec 64 × Bool)) (hlen : tasks.length ≤ maxProcesses)
    (hroom : 4304 * tasks.length ≤ heap.heapSize.toNat) :
    ∃ k, k = createAll (emptyTable mem heap) tasks ∧ k.heap.Valid ∧
      k.heap.heapSize.toNat + 4304 * tasks.length = heap.heapSize.toNat ∧
      (∀ p < tasks.length, (k.processTable p).context.toNat + 208 ≤ k.heap.heap.toNat) ∧
      ∀ p < tasks.length, ∀ q < tasks.length, p ≠ q →
        Apart (k.processTable p).context (k.processTable q).context := by
  induction tasks using List.reverseRecOn with
  | nil =>
    exact ⟨_, rfl, hv, rfl, fun p hp => absurd hp (Nat.not_lt_zero p),
      fun p hp => absurd hp (Nat.not_lt_zero p)⟩
  | append_singleton tasks task ih =>
    rw [List.length_append, List.length_singleton] at hlen hroom ⊢
    obtain ⟨k, hk, hvk, hsize, hbelow, hap⟩ := ih (Nat.le_of_succ_le hlen) (by omega)
    have hspec := createdSpec_createAll mem heap tasks (Nat.le_of_succ_le hlen)
    rw [← hk] at hspec
    have hfront : k.freeQueue.front = tasks.length := by
      rw [RingBuffer.front, hspec.freeSlots, hspec.freeHead, Fin.val_ofNat, Nat.mod_eq_of_lt hlen]
    obtain ⟨heap', hv', hheap, hsize', heq⟩ :=
      processCreate_of_room task.1 task.2 hvk (by omega : 4304 ≤ k.heap.heapSize.toNat)
    have hold : ∀ q < tasks.length, q ≠ tasks.length := fun q hq => Nat.ne_of_lt hq
    have hnew : ∀ q < tasks.length, Apart k.heap.heap (k.processTable q).context :=
      fun q hq => Or.inr (hbelow q hq)
    have hsum : heap'.heapSize.toNat + 4304 * (tasks.length + 1) = heap.heapSize.toNat := by
      rw [← hsize, ← hsize', Nat.mul_succ, Nat.add_assoc, Nat.add_comm 4304]
    refine ⟨_, rfl, ?_⟩
    rw [createAll_append, ← hk, heq, hfront]
    refine ⟨hv', hsum, fun p hp => ?_, fun p hp q hq hne => ?_⟩
    · rcases Nat.lt_succ_iff_lt_or_eq.mp hp with hp | rfl
      · simp only [Function.update_of_ne (hold p hp), hheap]
        exact (hbelow p hp).trans (Nat.le_add_right _ _)
      · simp only [Function.update_self, hheap]
        omega
    · rcases Nat.lt_succ_iff_lt_or_eq.mp hp with hp | rfl <;>
        rcases Nat.lt_succ_iff_lt_or_eq.mp hq with hq | rfl
      · simpa only [Function.update_of_ne (hold p hp), Function.update_of_ne (hold q hq)]
          using hap p hp q hq hne
      · simpa only [Function.update_of_ne (hold p hp), Function.update_self] using (hnew p hp).symm
      · simpa only [Function.update_self, Function.update_of_ne (hold q hq)] using hnew q hq
      · exact absurd rfl hne

/-- `init` and the four user processes of the source. -/
def sourceTasks : List (BitVec 64 × Bool) :=
  (0x200000, true) :: List.replicate 4 (0x200100, false)

/-- The processes of the source, after the first tick. -/
theorem contextSwitch_run_sourceTasks :
    ∃ s, run switchStep (SwitchState.initial (fun _ => 0) bootHeap sourceTasks 1) [.tick zero]
        = some s ∧
      SwitchesRightly (createdFrame (fun _ => 0) bootHeap sourceTasks) sourceTasks.length s
        zero := by
  have hv : bootHeap.Valid := (malloc_valid Heap.valid_initial 24).1
  have hlen : sourceTasks.length ≤ maxProcesses := by decide
  have hroom : 4304 * sourceTasks.length ≤ bootHeap.heapSize.toNat := by decide
  obtain ⟨k, hk, -, -, -, hap⟩ := createAll_apart (fun _ => 0) hv sourceTasks hlen hroom
  obtain ⟨s, hs⟩ : ∃ s, run switchStep (SwitchState.initial (fun _ => 0) bootHeap sourceTasks 1)
      [.tick zero] = some s := ⟨_, rfl⟩
  subst hk
  refine ⟨s, hs, ?_⟩
  exact contextSwitch_run (fun _ => 0) bootHeap sourceTasks 1 (List.cons_ne_nil _ _) hlen hap _ s hs
    zero

end FrogOS
