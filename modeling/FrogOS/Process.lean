import FrogOS.Heap
import FrogOS.Lib.RingBuffer

/-!
# Processes and the scheduler

`process.c`, function by function: the process table, the rings of pids, `process_create`,
`start_process` and `schedule_process`, with the counter `pit_handler` increments before it calls
the scheduler.

## Register frames and contexts

The scheduler never looks inside a register frame: it copies the interrupted frame to the context
of the process it stops, and the context of the process it starts over the frame. What a frame is,
and how contexts lie in memory, is therefore a parameter, `ContextMemory`. Two instances matter.
`FrogOS.ProcessContext` is the real one, `struct regs` in byte-addressed memory. For questions
about interleavings a frame is the control state of an interrupted process, and the memory a map
from addresses to frames.

## Representation

* The three pairs of `head` and `tail` with their arrays are `RingBuffer`s of 128 slots.
* `current_pid` is an `Option`, its initial value `-1` being `none`.
* Pids come out of `free_queue`, so they are below 128 and every store of one is exact.
* `started` is not in the source. It records the pid of every call of `start_process`, in order,
  so that statements can speak about the calls.

`printf`, which `process_create` calls, writes to the console only and is left to
`FrogOS.Console`.

## Main results

* `scheduleProcess_tick` — everything one call of `schedule_process` can do
-/

namespace FrogOS

/-- `MAX_PROCESSES`. -/
abbrev maxProcesses : ℕ := 128

instance : NeZero maxProcesses := ⟨by decide⟩

/-- The `PROCESS_STATE_*` constants, in numeric order. -/
inductive ProcessState
  | running
  | sleeping
  | waiting
  | ready
  deriving DecidableEq, Repr

/-- `process_t`. -/
structure Process where
  pid : ℕ
  timeRemaining : BitVec 32
  state : ProcessState
  totalTicks : BitVec 32
  /-- The address of the saved context, null being `0`. -/
  context : BitVec 64
  deriving DecidableEq

/-- `sizeof(process_context_t)`: 26 words. -/
def sizeofContext : BitVec 64 := 208

/-- A zeroed table entry. -/
def Process.zero : Process := ⟨0, 0, .running, 0, 0⟩

/-- What `process_create` puts into a zeroed context. -/
structure ContextInit where
  /-- `rip`. -/
  entryPoint : BitVec 64
  /-- Whether `cs` and `ss` are the kernel's. -/
  kernelTask : Bool
  rsp : BitVec 64
  /-- `rdi`. -/
  pid : ℕ
  deriving DecidableEq

/-- The contexts at two addresses do not overlap. -/
def Apart (p q : BitVec 64) : Prop := p.toNat + 208 ≤ q.toNat ∨ q.toNat + 208 ≤ p.toNat

theorem Apart.symm {p q : BitVec 64} (h : Apart p q) : Apart q p := Or.symm h

theorem Apart.ne {p q : BitVec 64} (h : Apart p q) : p ≠ q := by
  rintro rfl
  rcases h with h | h <;> omega

/-- A memory `M` that holds register frames `F` at addresses: the two `memcpy` of `start_process`
and the initialisation in `process_create`. -/
class ContextMemory (M : Type) (F : outParam Type) where
  /-- `memcpy(p, context, sizeof(process_context_t))`. -/
  save : M → BitVec 64 → F → M
  /-- `memcpy(context, p, sizeof(process_context_t))`. -/
  load : M → BitVec 64 → F
  /-- The `memset` and the field stores of `process_create`. -/
  create : M → BitVec 64 → ContextInit → M
  /-- The frame these leave behind. -/
  initial : ContextInit → F
  load_save : ∀ m p f, load (save m p f) p = f
  load_save_of_apart : ∀ {m p q f}, Apart p q → load (save m p f) q = load m q
  load_create : ∀ m p i, load (create m p i) p = initial i
  load_create_of_apart : ∀ {m p q i}, Apart p q → load (create m p i) q = load m q

/-- The frame a new process starts with, the memory being named because the frame does not
determine it. -/
abbrev initialFrame (M : Type) {F : Type} [ContextMemory M F] : ContextInit → F :=
  @ContextMemory.initial M F _

/-- The globals of `process.c`, with `pit_counter`, the allocator and the memory the contexts
live in. -/
structure Kernel (M : Type) where
  processTable : ℕ → Process
  currentPid : Option ℕ
  freeQueue : RingBuffer ℕ maxProcesses
  runQueue : RingBuffer ℕ maxProcesses
  sleepQueue : RingBuffer ℕ maxProcesses
  pitCounter : BitVec 64
  heap : Heap
  mem : M
  started : List ℕ

/-- A ring of zeroes with head and tail at zero, as the globals start out. -/
def zeroQueue : RingBuffer ℕ maxProcesses := ⟨fun _ => 0, 0, 0⟩

namespace Kernel

variable {M F : Type}

/-- The globals before any code has run. -/
def initial (mem : M) (heap : Heap) : Kernel M where
  processTable := fun _ => Process.zero
  currentPid := none
  freeQueue := zeroQueue
  runQueue := zeroQueue
  sleepQueue := zeroQueue
  pitCounter := 0
  heap := heap
  mem := mem
  started := []

/-- An assignment to fields of `process_table[pid]`. -/
def updateProcess (k : Kernel M) (pid : ℕ) (f : Process → Process) : Kernel M :=
  { k with processTable := Function.update k.processTable pid (f (k.processTable pid)) }

section updateProcess

variable (k : Kernel M) (pid : ℕ) (f : Process → Process)

@[simp] theorem updateProcess_currentPid : (k.updateProcess pid f).currentPid = k.currentPid := rfl
@[simp] theorem updateProcess_freeQueue : (k.updateProcess pid f).freeQueue = k.freeQueue := rfl
@[simp] theorem updateProcess_runQueue : (k.updateProcess pid f).runQueue = k.runQueue := rfl
@[simp] theorem updateProcess_pitCounter : (k.updateProcess pid f).pitCounter = k.pitCounter := rfl
@[simp] theorem updateProcess_heap : (k.updateProcess pid f).heap = k.heap := rfl
@[simp] theorem updateProcess_mem : (k.updateProcess pid f).mem = k.mem := rfl
@[simp] theorem updateProcess_started : (k.updateProcess pid f).started = k.started := rfl

@[simp] theorem updateProcess_self :
    (k.updateProcess pid f).processTable pid = f (k.processTable pid) := Function.update_self ..

theorem updateProcess_of_ne {q : ℕ} (h : q ≠ pid) :
    (k.updateProcess pid f).processTable q = k.processTable q := Function.update_of_ne h ..

/-- An assignment that leaves a field alone leaves it alone in the whole table. -/
theorem updateProcess_field {β : Type} {g : Process → β} (hg : ∀ p, g (f p) = g p) (q : ℕ) :
    g ((k.updateProcess pid f).processTable q) = g (k.processTable q) := by
  rcases eq_or_ne q pid with rfl | h
  · rw [updateProcess_self, hg]
  · rw [updateProcess_of_ne k pid f h]

end updateProcess

/-- `process_table[pid].state = PROCESS_STATE_READY`. -/
def setReady (k : Kernel M) (pid : ℕ) : Kernel M :=
  k.updateProcess pid fun p => { p with state := .ready }

/-- `run_queue[run_queue_tail] = pid`, the first statement of `add_to_run_queue`. -/
def storeRunQueue (k : Kernel M) (pid : ℕ) : Kernel M :=
  { k with runQueue := k.runQueue.store pid }

/-- `run_queue_tail = (run_queue_tail + 1) % MAX_PROCESSES`, the second one. -/
def advanceRunQueueTail (k : Kernel M) : Kernel M :=
  { k with runQueue := k.runQueue.advanceTail }

def addToRunQueue (k : Kernel M) (pid : ℕ) : Kernel M := (k.storeRunQueue pid).advanceRunQueueTail

/-- The returned pid, `0` when the queue is empty, and the kernel afterwards. -/
def getNextPid (k : Kernel M) : ℕ × Kernel M :=
  if k.runQueue.head = k.runQueue.tail then (0, k)
  else (k.runQueue.front, { k with runQueue := k.runQueue.advanceHead })

variable [ContextMemory M F]

/-- The created pid comes last. Neither allocation is checked. -/
def processCreate (k : Kernel M) (entryPoint : BitVec 64) (kernelTask : Bool) : Kernel M × ℕ :=
  let pid := k.freeQueue.front
  let k := { k with freeQueue := k.freeQueue.advanceHead }
  let k := k.updateProcess pid fun p => { p with pid := pid, state := .ready }
  let (context, heap) := malloc k.heap sizeofContext
  let k := { k with heap := heap }.updateProcess pid fun p => { p with context := context }
  let (stack, heap) := malloc k.heap 4096
  let mem := ContextMemory.create k.mem context ⟨entryPoint, kernelTask, stack + 4096, pid⟩
  ({ k with heap := heap, mem := mem }.addToRunQueue pid, pid)

/-- The frame `context` points to is passed in and returned. -/
def startProcess (k : Kernel M) (pid : ℕ) (context : F) : Kernel M × F :=
  let k := match k.currentPid with
    | none => k
    | some c => { k with mem := ContextMemory.save k.mem (k.processTable c).context context }
  let context := ContextMemory.load k.mem (k.processTable pid).context
  let k := k.updateProcess pid fun p => { p with state := .running, timeRemaining := 100 }
  ({ k with currentPid := some pid, started := k.started ++ [pid] }, context)

/-- `start_process(get_next_pid(), context)`. -/
def dispatch (k : Kernel M) (context : F) : Kernel M × F :=
  startProcess k.getNextPid.2 k.getNextPid.1 context

/-- `process_table[pid].total_ticks++`. -/
def countTick (k : Kernel M) (pid : ℕ) : Kernel M :=
  k.updateProcess pid fun p => { p with totalTicks := p.totalTicks + 1 }

/-- `process_table[pid].time_remaining--`. -/
def chargeQuantum (k : Kernel M) (pid : ℕ) : Kernel M :=
  k.updateProcess pid fun p => { p with timeRemaining := p.timeRemaining - 1 }

def scheduleProcess (k : Kernel M) (context : F) : Kernel M × F :=
  let k := match k.currentPid with
    | none => k
    | some c => k.countTick c
  match k.currentPid with
  | none => k.startProcess 0 context
  | some c =>
    if c = 0 then
      if k.runQueue.head ≠ k.runQueue.tail then k.dispatch context else (k, context)
    else if (k.processTable c).state = .running then
      let k := k.chargeQuantum c
      if (k.processTable c).timeRemaining = 0 then
        ((k.setReady c).addToRunQueue c).dispatch context
      else (k, context)
    else k.dispatch context

/-- `pit_handler`. The `disable` and `enable` around the scheduler are the interrupt flag's
business, which the machines built on the kernel model. -/
def pitHandler (k : Kernel M) (context : F) : Kernel M × F :=
  { k with pitCounter := k.pitCounter + 1 }.scheduleProcess context

/-! ### Booting -/

/-- `for (int i = 0; i < MAX_PROCESSES; i++) free_queue[i] = i`. -/
def fillFreeQueue (k : Kernel M) : Kernel M :=
  { k with freeQueue :=
      { k.freeQueue with
        slots := (List.finRange maxProcesses).foldl
          (fun slots i => Function.update slots i i.val) k.freeQueue.slots } }

/-- `run_queue_head = (run_queue_head + 1) % MAX_PROCESSES`, after `init` has been created. -/
def advanceRunQueueHead (k : Kernel M) : Kernel M :=
  { k with runQueue := k.runQueue.advanceHead }

/-- The loop that creates the user processes. -/
def createUserTasks (k : Kernel M) (userTask : BitVec 64) : ℕ → Kernel M
  | 0 => k
  | n + 1 => createUserTasks (k.processCreate userTask false).1 userTask n

/-- `setup_process`, for `n` user processes where the source has four. `init` and `userTask` are
the addresses of the two functions. -/
def setupProcess (k : Kernel M) (init userTask : BitVec 64) (n : ℕ) : Kernel M :=
  ((k.fillFreeQueue.processCreate init true).1.advanceRunQueueHead).createUserTasks userTask n

/-! ### What a call can do -/

section fields

variable (k : Kernel M) (pid : ℕ) (context : F)

@[simp] theorem setReady_runQueue : (k.setReady pid).runQueue = k.runQueue := rfl
@[simp] theorem setReady_currentPid : (k.setReady pid).currentPid = k.currentPid := rfl
@[simp] theorem setReady_mem : (k.setReady pid).mem = k.mem := rfl
@[simp] theorem setReady_started : (k.setReady pid).started = k.started := rfl
@[simp] theorem storeRunQueue_runQueue :
    (k.storeRunQueue pid).runQueue = k.runQueue.store pid := rfl
@[simp] theorem storeRunQueue_currentPid : (k.storeRunQueue pid).currentPid = k.currentPid := rfl
@[simp] theorem storeRunQueue_processTable :
    (k.storeRunQueue pid).processTable = k.processTable := rfl
@[simp] theorem storeRunQueue_mem : (k.storeRunQueue pid).mem = k.mem := rfl
@[simp] theorem storeRunQueue_started : (k.storeRunQueue pid).started = k.started := rfl
@[simp] theorem advanceRunQueueTail_runQueue :
    k.advanceRunQueueTail.runQueue = k.runQueue.advanceTail := rfl
@[simp] theorem advanceRunQueueTail_currentPid :
    k.advanceRunQueueTail.currentPid = k.currentPid := rfl
@[simp] theorem advanceRunQueueTail_processTable :
    k.advanceRunQueueTail.processTable = k.processTable := rfl
@[simp] theorem advanceRunQueueTail_mem : k.advanceRunQueueTail.mem = k.mem := rfl
@[simp] theorem advanceRunQueueTail_started : k.advanceRunQueueTail.started = k.started := rfl
@[simp] theorem addToRunQueue_runQueue :
    (k.addToRunQueue pid).runQueue = k.runQueue.push pid := rfl
@[simp] theorem addToRunQueue_currentPid : (k.addToRunQueue pid).currentPid = k.currentPid := rfl
@[simp] theorem addToRunQueue_processTable :
    (k.addToRunQueue pid).processTable = k.processTable := rfl
@[simp] theorem addToRunQueue_mem : (k.addToRunQueue pid).mem = k.mem := rfl
@[simp] theorem addToRunQueue_started : (k.addToRunQueue pid).started = k.started := rfl
@[simp] theorem countTick_runQueue : (k.countTick pid).runQueue = k.runQueue := rfl
@[simp] theorem countTick_currentPid : (k.countTick pid).currentPid = k.currentPid := rfl
@[simp] theorem countTick_mem : (k.countTick pid).mem = k.mem := rfl
@[simp] theorem countTick_started : (k.countTick pid).started = k.started := rfl
@[simp] theorem chargeQuantum_runQueue : (k.chargeQuantum pid).runQueue = k.runQueue := rfl
@[simp] theorem chargeQuantum_currentPid : (k.chargeQuantum pid).currentPid = k.currentPid := rfl
@[simp] theorem chargeQuantum_mem : (k.chargeQuantum pid).mem = k.mem := rfl
@[simp] theorem chargeQuantum_started : (k.chargeQuantum pid).started = k.started := rfl

@[simp] theorem startProcess_runQueue :
    (k.startProcess pid context).1.runQueue = k.runQueue := by
  unfold startProcess; split <;> rfl

@[simp] theorem startProcess_currentPid :
    (k.startProcess pid context).1.currentPid = some pid := by
  unfold startProcess; split <;> rfl

@[simp] theorem startProcess_started :
    (k.startProcess pid context).1.started = k.started ++ [pid] := by
  unfold startProcess; split <;> rfl

@[simp] theorem startProcess_pitCounter :
    (k.startProcess pid context).1.pitCounter = k.pitCounter := by
  unfold startProcess; split <;> rfl

theorem startProcess_processTable :
    (k.startProcess pid context).1.processTable = Function.update k.processTable pid
      { k.processTable pid with state := .running, timeRemaining := 100 } := by
  unfold startProcess; split <;> rfl

@[simp] theorem startProcess_state_self :
    ((k.startProcess pid context).1.processTable pid).state = .running := by
  rw [startProcess_processTable, Function.update_self]

end fields

theorem getNextPid_of_empty {k : Kernel M} (h : k.runQueue.head = k.runQueue.tail) :
    k.getNextPid = (0, k) := if_pos h

theorem getNextPid_of_ne {k : Kernel M} (h : k.runQueue.head ≠ k.runQueue.tail) :
    k.getNextPid = (k.runQueue.front, k.advanceRunQueueHead) := if_neg h

/-- Everything one call of `schedule_process` can do, case by case: each constructor names one
path through the function, with the tests that lead there. -/
inductive Tick (k : Kernel M) (context : F) : Kernel M × F → Prop
  /-- No process has been started yet. -/
  | first (hcur : k.currentPid = none) : Tick k context (k.startProcess 0 context)
  /-- The idle process goes on. -/
  | idle (hcur : k.currentPid = some 0) (hq : k.runQueue.head = k.runQueue.tail) :
      Tick k context (k.countTick 0, context)
  /-- The idle process makes room. -/
  | wake (hcur : k.currentPid = some 0) (hq : k.runQueue.head ≠ k.runQueue.tail) :
      Tick k context ((k.countTick 0).dispatch context)
  /-- The time slice goes on. -/
  | slice {c : ℕ} (hcur : k.currentPid = some c) (hc : c ≠ 0)
      (hs : (k.processTable c).state = .running) (ht : (k.processTable c).timeRemaining ≠ 1) :
      Tick k context ((k.countTick c).chargeQuantum c, context)
  /-- The time slice ends: the process is queued and another one is started. -/
  | expire {c : ℕ} (hcur : k.currentPid = some c) (hc : c ≠ 0)
      (hs : (k.processTable c).state = .running) (ht : (k.processTable c).timeRemaining = 1) :
      Tick k context
        (((((k.countTick c).chargeQuantum c).setReady c).addToRunQueue c).dispatch context)
  /-- The process has given up the processor; it is not queued here. -/
  | leave {c : ℕ} (hcur : k.currentPid = some c) (hc : c ≠ 0)
      (hs : (k.processTable c).state ≠ .running) :
      Tick k context ((k.countTick c).dispatch context)

theorem scheduleProcess_of_none {k : Kernel M} (context : F) (h : k.currentPid = none) :
    k.scheduleProcess context = k.startProcess 0 context := by
  cases k
  cases h
  rfl

theorem scheduleProcess_of_some {k : Kernel M} {c : ℕ} (context : F) (h : k.currentPid = some c) :
    k.scheduleProcess context =
      if c = 0 then
        if k.runQueue.head ≠ k.runQueue.tail then (k.countTick c).dispatch context
        else (k.countTick c, context)
      else if ((k.countTick c).processTable c).state = .running then
        if (((k.countTick c).chargeQuantum c).processTable c).timeRemaining = 0 then
          ((((k.countTick c).chargeQuantum c).setReady c).addToRunQueue c).dispatch context
        else ((k.countTick c).chargeQuantum c, context)
      else (k.countTick c).dispatch context := by
  cases k
  cases h
  rfl

theorem scheduleProcess_tick (k : Kernel M) (context : F) :
    Tick k context (k.scheduleProcess context) := by
  cases hcur : k.currentPid with
  | none =>
    rw [scheduleProcess_of_none context hcur]
    exact Tick.first hcur
  | some c =>
    have hstate : ((k.countTick c).processTable c).state = (k.processTable c).state := by
      simp [countTick]
    have htime : (((k.countTick c).chargeQuantum c).processTable c).timeRemaining
        = (k.processTable c).timeRemaining - 1 := by
      simp [countTick, chargeQuantum]
    rw [scheduleProcess_of_some context hcur, hstate, htime]
    split
    · next hc =>
      subst hc
      split
      · next hq => exact Tick.wake hcur hq
      · next hq => exact Tick.idle hcur (not_not.mp hq)
    · next hc =>
      split
      · next hs =>
        split
        · next ht => exact Tick.expire hcur hc hs (sub_eq_zero.mp ht)
        · next ht => exact Tick.slice hcur hc hs fun h => ht (by rw [h]; rfl)
      · next hs => exact Tick.leave hcur hc hs

theorem dispatch_pitCounter (k : Kernel M) (context : F) :
    (k.dispatch context).1.pitCounter = k.pitCounter := by
  rw [dispatch, startProcess_pitCounter, getNextPid]
  split <;> rfl

/-- A tick counts one. -/
theorem pitHandler_pitCounter (k : Kernel M) (context : F) :
    (k.pitHandler context).1.pitCounter = k.pitCounter + 1 := by
  have h := scheduleProcess_tick { k with pitCounter := k.pitCounter + 1 } context
  rw [← pitHandler] at h
  generalize k.pitHandler context = r at h ⊢
  cases h with
  | first => exact startProcess_pitCounter _ _ _
  | idle | slice => rfl
  | wake | expire | leave => exact dispatch_pitCounter _ _

end Kernel

end FrogOS
