import FrogOS.ContextSwitch
import FrogOS.Pic

/-!
# Booting

`cmain` from `setup_idt` to its final loop, step by step, with timer interrupts between the steps.
A tick is possible when the interrupt flag is set and the mask register of the first 8259 lets
IRQ 0 through. It walks the chain `irq_handlers[0]`, so before `install_irq_handler` has linked the
node of `setup_pit` it does nothing, and afterwards it calls the scheduler.

`setup_pit` relies on `install_irq_handler`, and `install_irq_handler` on `irq_clear_mask`, and each
of the three ends with an unconditional `enable`. The flag is therefore set when the node is linked,
and stays set up to the next `disable`; it is set again from the end of `setup_pit` to the `disable`
of `setup_process`. A tick in that window starts process 0 before it exists: its context pointer is
null, and as no process is current the frame of `cmain` is not saved. Ticks anywhere else are
harmless, and boot ends in the state `Kernel.boot` the other developments start from.

## Main definitions

* `BootPc`, `BootMachine`, `BootMachine.step` — the machine
* `BootPc.finish` — what the rest of boot does to the kernel
* `DispatchesCreated`, `ReachesEnd` — what is expected of a run
* `TakenOutside` — no tick is taken in the window
* `Booting`, `Running` — the invariants before and after the end of `setup_process`

## Main results

* `Booting.accepts_eq` — the steps of boot before which a tick can be taken
* `boot_along_iff` — a run of boot is as expected exactly when no tick is taken in the window
-/

namespace FrogOS

open ContextMemory Kernel StepSystem

/-- The writes of `setup_pit`. -/
def pitWrites : List (ℕ × BitVec 8) := [(0x42, 0x34), (0x40, 0x9c), (0x40, 0x2e)]

/-! ### The machine -/

/-- The handlers that are ever installed for IRQ 0. -/
inductive IrqHandler
  | pitHandler
  deriving DecidableEq

/-- An `irq_handler_t`; `next` is the chain of handlers behind it. -/
structure IrqHandlerNode where
  handler : IrqHandler
  next : List IrqHandler
  deriving DecidableEq

/-- The steps of `cmain`. -/
inductive BootPc
  /-- `setup_idt`: the table is filled and loaded. -/
  | loadIdt
  /-- The writes that are left; after them, `enable()`. The `io_wait` in between only jumps. -/
  | pic (writes : List (ℕ × BitVec 8))
  /-- `puts`, and `setup_syscall`. -/
  | setupSyscall
  /-- `setup_pit`: the node is allocated, and filled unless that fails. -/
  | mallocHandler
  | fillHandler
  /-- `install_irq_handler`: `disable()`, and the test of the chain. -/
  | irqDisable
  | testChain
  /-- `irq_clear_mask`. -/
  | maskDisable
  | maskRead
  | maskWrite (value : BitVec 8)
  | maskEnable
  /-- `node->next = irq_handlers[num]`, `irq_handlers[num] = node`, `enable()`. -/
  | setNext
  | link
  | irqEnable
  /-- `setup_pit` again: `disable()`, the writes that are left, and `enable()`. -/
  | pitDisable
  | pit (writes : List (ℕ × BitVec 8))
  /-- `setup_process`: the slots of `free_queue` that are left; after them, `disable()`. -/
  | fill (slots : List (Fin maxProcesses))
  | createInit
  | removeInit
  /-- The number of user processes that are left; after them, `enable()`. -/
  | createUser (n : ℕ)
  /-- `for(;;) asm("hlt")`. -/
  | idle

/-- Where execution stands. -/
inductive BootPlace
  | cmain (pc : BootPc)
  | process (pid : ℕ)

/-- What an interrupt saves: the place, and the interrupt flag of `rflags`. -/
structure BootFrame where
  place : BootPlace
  interruptFlag : Bool

def initialBootFrame (i : ContextInit) : BootFrame := ⟨.process i.pid, true⟩

abbrev BootMap := FrameMap BootFrame initialBootFrame

structure BootMachine where
  kernel : Kernel BootMap
  place : BootPlace
  interruptFlag : Bool
  pics : Pics
  /-- The node `setup_pit` has filled. -/
  node : Option IrqHandlerNode
  /-- The chain `irq_handlers[0]`. -/
  irqHandlers : List IrqHandler

inductive BootEvent
  /-- The next step of `cmain`. -/
  | step
  /-- A timer interrupt. -/
  | tick
  /-- An instruction of a process. -/
  | process (effect : CodeEffect)
  deriving DecidableEq

namespace BootMachine

/-- The start of `setup_idt`: `cmain` has executed `cli`, and the controllers are as the firmware
left them. `init` and `userTask` are parameters of `step`. -/
def initial (mem : BootMap) (pics : Pics) : BootMachine where
  kernel := Kernel.initial mem Heap.initial
  place := .cmain .loadIdt
  interruptFlag := false
  pics := pics
  node := none
  irqHandlers := []

/-- IRQ 0 reaches the processor. -/
def accepts (s : BootMachine) : Bool := s.interruptFlag && !s.pics.master.imr.getLsbD 0

/-- The loop of `irq_handler` over a chain. -/
def irqHandler (k : Kernel BootMap) (context : BootFrame) :
    List IrqHandler → Kernel BootMap × BootFrame
  | [] => (k, context)
  | .pitHandler :: chain => irqHandler (k.pitHandler context).1 (k.pitHandler context).2 chain

/-- `free_queue[i] = i`. -/
def storeFreeQueue (k : Kernel BootMap) (i : Fin maxProcesses) : Kernel BootMap :=
  { k with freeQueue :=
      { k.freeQueue with slots := Function.update k.freeQueue.slots i i.val } }

section

variable (init userTask : BitVec 64)

/-- One step of `cmain`. -/
def bootStep (s : BootMachine) : BootPc → Option BootMachine
  | .loadIdt => some { s with place := .cmain (.pic picWrites) }
  | .pic (w :: writes) => some { s with
      pics := s.pics.outportb w.1 w.2
      place := .cmain (.pic writes) }
  | .pic [] => some { s with interruptFlag := true, place := .cmain .setupSyscall }
  | .setupSyscall => some { s with place := .cmain .mallocHandler }
  | .mallocHandler => some { s with
      kernel := { s.kernel with heap := (malloc s.kernel.heap 24).2 }
      place := .cmain (if (malloc s.kernel.heap 24).1 = 0 then .fill (List.finRange maxProcesses)
        else .fillHandler) }
  | .fillHandler => some { s with node := some ⟨.pitHandler, []⟩, place := .cmain .irqDisable }
  | .irqDisable => some { s with interruptFlag := false, place := .cmain .testChain }
  | .testChain => some { s with
      place := .cmain (if s.irqHandlers = [] then .maskDisable else .setNext) }
  | .maskDisable => some { s with interruptFlag := false, place := .cmain .maskRead }
  | .maskRead => some { s with place := .cmain (.maskWrite (s.pics.master.imr &&& ~~~1)) }
  | .maskWrite value => some { s with
      pics := s.pics.outportb 0x21 value
      place := .cmain .maskEnable }
  | .maskEnable => some { s with interruptFlag := true, place := .cmain .setNext }
  | .setNext => some { s with
      node := s.node.map fun node => { node with next := s.irqHandlers }
      place := .cmain .link }
  | .link => s.node.map fun node => { s with
      irqHandlers := node.handler :: node.next
      place := .cmain .irqEnable }
  | .irqEnable => some { s with interruptFlag := true, place := .cmain .pitDisable }
  | .pitDisable => some { s with interruptFlag := false, place := .cmain (.pit pitWrites) }
  | .pit (w :: writes) => some { s with
      pics := s.pics.outportb w.1 w.2
      place := .cmain (.pit writes) }
  | .pit [] => some { s with
      interruptFlag := true
      place := .cmain (.fill (List.finRange maxProcesses)) }
  | .fill (i :: slots) => some { s with
      kernel := storeFreeQueue s.kernel i
      place := .cmain (.fill slots) }
  | .fill [] => some { s with interruptFlag := false, place := .cmain .createInit }
  | .createInit => some { s with
      kernel := (s.kernel.processCreate init true).1
      place := .cmain .removeInit }
  | .removeInit => some { s with
      kernel := s.kernel.advanceRunQueueHead
      place := .cmain (.createUser 4) }
  | .createUser (n + 1) => some { s with
      kernel := (s.kernel.processCreate userTask false).1
      place := .cmain (.createUser n) }
  | .createUser 0 => some { s with interruptFlag := true, place := .cmain .idle }
  | .idle => some s

/-- An instruction of the current process. -/
def codeStep (s : BootMachine) (effect : CodeEffect) : BootMachine :=
  { s with
    kernel := s.kernel.applyEffect effect
    interruptFlag := match effect with
      | .disable => false
      | .enable => true
      | _ => s.interruptFlag }

def step (s : BootMachine) : BootEvent → Option BootMachine
  | .step => match s.place with
    | .cmain pc => s.bootStep init userTask pc
    | .process _ => none
  | .tick =>
    if s.accepts = true then
      let r := irqHandler s.kernel ⟨s.place, s.interruptFlag⟩ s.irqHandlers
      some { s with kernel := r.1, place := r.2.place, interruptFlag := r.2.interruptFlag }
    else none
  | .process effect => match s.place with
    | .cmain _ => none
    | .process _ => some (s.codeStep effect)

/-- Every call of `start_process` is made for a process that has been created. -/
def DispatchesCreated (s : BootMachine) (e : BootEvent) : Prop :=
  ∀ t, s.step init userTask e = some t → ∀ p, t.kernel.started = s.kernel.started ++ [p] →
    (s.kernel.processTable p).context ≠ 0

/-- The end of `setup_process` has been reached on the way, with the kernel it should leave. -/
def SetupDone (mem : BootMap) (s : BootMachine) (es : List BootEvent) : Prop :=
  ∃ es', es' <+: es ∧ ∃ t, run (step init userTask) s es' = some t ∧ t.place = .cmain .idle ∧
    t.kernel = boot mem init userTask 4

/-- `cmain` gets there in `n` steps of its own, and is never stuck before. -/
def ReachesEnd (n : ℕ) (mem : BootMap) (s : BootMachine) (es : List BootEvent) : Prop :=
  ∀ t, run (step init userTask) s es = some t → SetupDone init userTask mem s es ∨
    (es.count .step < n ∧ ∃ u, t.step init userTask .step = some u)

end

/-! ### What is left of boot -/

end BootMachine

namespace BootPc

/-- The steps that are left. -/
def remaining : BootPc → ℕ
  | idle => 0
  | createUser n => n + 1
  | removeInit => 6
  | createInit => 7
  | fill slots => 8 + slots.length
  | pit writes => 9 + maxProcesses + writes.length
  | pitDisable => 13 + maxProcesses
  | irqEnable => 14 + maxProcesses
  | link => 15 + maxProcesses
  | setNext => 16 + maxProcesses
  | maskEnable => 17 + maxProcesses
  | maskWrite _ => 18 + maxProcesses
  | maskRead => 19 + maxProcesses
  | maskDisable => 20 + maxProcesses
  | testChain => 21 + maxProcesses
  | irqDisable => 22 + maxProcesses
  | fillHandler => 23 + maxProcesses
  | mallocHandler => 24 + maxProcesses
  | setupSyscall => 25 + maxProcesses
  | pic writes => 26 + maxProcesses + writes.length
  | loadIdt => 37 + maxProcesses

/-- The interrupt flag is set. -/
def enabled : BootPc → Bool
  | setupSyscall | mallocHandler | fillHandler | irqDisable | setNext | link | irqEnable
  | pitDisable | fill _ | idle => true
  | loadIdt | pic _ | testChain | maskDisable | maskRead | maskWrite _ | maskEnable | pit _
  | createInit | removeInit | createUser _ => false

/-- A tick is possible: the flag is set, and IRQ 0 is not masked. -/
def accepts : BootPc → Bool
  | setNext | link | irqEnable | pitDisable | fill _ | idle => true
  | _ => false

/-- The node has been allocated. -/
def allocated : BootPc → Bool
  | loadIdt | pic _ | setupSyscall | mallocHandler => false
  | _ => true

/-- The node has been filled. -/
def filled : BootPc → Bool
  | loadIdt | pic _ | setupSyscall | mallocHandler | fillHandler => false
  | _ => true

/-- The node has been linked. -/
def linked : BootPc → Bool
  | irqEnable | pitDisable | pit _ | fill _ | createInit | removeInit | createUser _ | idle => true
  | _ => false

/-- The node has been linked, and `setup_process` has not executed `disable`. -/
def betweenLinkAndDisable : BootPc → Bool
  | irqEnable | pitDisable | pit _ | fill _ => true
  | _ => false

/-- `init` has been created. -/
def created : BootPc → Bool
  | removeInit | createUser _ | idle => true
  | _ => false

/-- The writes to the ports of the controllers and of the timer that are left in the current
function. -/
def writes : BootPc → List (ℕ × BitVec 8)
  | loadIdt => picWrites
  | pic writes | pit writes => writes
  | maskWrite value => [(0x21, value)]
  | _ => []

/-- The mask of the first controller after these. -/
def mask : BootPc → BitVec 8
  | loadIdt | pic _ | setupSyscall | mallocHandler | fillHandler | irqDisable | testChain
  | maskDisable | maskRead => 0xfb
  | _ => 0xfa

/-- `free_queue[i] = i` for the slots that are left. -/
def fillSlots (k : Kernel BootMap) (slots : List (Fin maxProcesses)) : Kernel BootMap :=
  { k with freeQueue :=
      { k.freeQueue with
        slots := slots.foldl (fun slots i => Function.update slots i i.val) k.freeQueue.slots } }

/-- The kernel when the rest of `cmain` has run. -/
def finish (init userTask : BitVec 64) (k : Kernel BootMap) : BootPc → Kernel BootMap
  | loadIdt | pic _ | setupSyscall | mallocHandler =>
    { k with heap := (malloc k.heap 24).2 }.setupProcess init userTask 4
  | fillHandler | irqDisable | testChain | maskDisable | maskRead | maskWrite _ | maskEnable
  | setNext | link | irqEnable | pitDisable | pit _ => k.setupProcess init userTask 4
  | fill slots =>
    (((fillSlots k slots).processCreate init true).1.advanceRunQueueHead).createUserTasks userTask 4
  | createInit => ((k.processCreate init true).1.advanceRunQueueHead).createUserTasks userTask 4
  | removeInit => k.advanceRunQueueHead.createUserTasks userTask 4
  | createUser n => k.createUserTasks userTask n
  | idle => k

end BootPc

namespace BootMachine

/-- No timer interrupt is taken in the window. -/
def TakenOutside (s : BootMachine) : BootEvent → Prop
  | .tick => s.accepts = true → ∀ pc, s.place = .cmain pc → pc.betweenLinkAndDisable = false
  | .step | .process _ => True

/-- Before the end of `setup_process`. -/
structure Booting (mem : BootMap) (init userTask : BitVec 64) (s : BootMachine) (pc : BootPc) :
    Prop where
  place : s.place = .cmain pc
  flag : s.interruptFlag = pc.enabled
  master : (s.pics.writeAll pc.writes).master = ⟨pc.mask, 0⟩
  node : pc.filled = true → s.node = some ⟨.pitHandler, []⟩
  chain : s.irqHandlers = if pc.linked = true then [.pitHandler] else []
  currentPid : s.kernel.currentPid = none
  /-- The node of `setup_pit` is the first allocation, and no process has been created. -/
  heap : pc.allocated = false → s.kernel.heap = Heap.initial
  context : pc.created = false → ∀ p, (s.kernel.processTable p).context = 0
  finish : pc.finish init userTask s.kernel = boot mem init userTask 4

/-- The code that runs when `c` is the current process. -/
def ownPlace : Option ℕ → BootPlace
  | none => .cmain .idle
  | some c => .process c

/-- After the end of `setup_process`. -/
structure Running (s : BootMachine) : Prop where
  fit : FramesFit 5 s.kernel
  context : ∀ p < 5, (s.kernel.processTable p).context ≠ 0
  saved : ∀ p < 5, (s.kernel.saved p).place = .process p
  place : s.place = ownPlace s.kernel.currentPid
  chain : s.irqHandlers = [.pitHandler]

variable {mem : BootMap} {init userTask : BitVec 64} {s t : BootMachine} {pc : BootPc}

theorem step_of_cmain (h : s.place = .cmain pc) :
    s.step init userTask .step = s.bootStep init userTask pc := by
  rw [step, h]

theorem step_of_accepts (h : s.accepts = true) : s.step init userTask .tick
    = some { s with
      kernel := (irqHandler s.kernel ⟨s.place, s.interruptFlag⟩ s.irqHandlers).1
      place := (irqHandler s.kernel ⟨s.place, s.interruptFlag⟩ s.irqHandlers).2.place
      interruptFlag :=
        (irqHandler s.kernel ⟨s.place, s.interruptFlag⟩ s.irqHandlers).2.interruptFlag } :=
  if_pos h

theorem booting_initial (mem : BootMap) (init userTask : BitVec 64) (pics : Pics) :
    Booting mem init userTask (initial mem pics) .loadIdt where
  place := rfl
  flag := rfl
  master := rfl
  node h := absurd h Bool.false_ne_true
  chain := rfl
  currentPid := rfl
  heap _ := rfl
  context _ _ := rfl
  finish := rfl

/-! ### A step of `cmain` -/

/-- The first allocation succeeds. -/
theorem malloc_handler_ne_zero : (malloc Heap.initial 24).1 ≠ 0 := by decide

theorem Booting.step (h : Booting mem init userTask s pc) (hpc : pc ≠ .idle) :
    ∃ t pc', s.step init userTask .step = some t ∧ Booting mem init userTask t pc' ∧
      t.kernel.started = s.kernel.started ∧ pc'.remaining + 1 = pc.remaining := by
  obtain ⟨hplace, hflag, hmaster, hnode, hchain, hcur, hheap, hctx, hfin⟩ := h
  have hset : ∀ {P : Prop}, true = false → P := fun h => absurd h.symm Bool.false_ne_true
  rw [step_of_cmain hplace]
  cases pc with
  | idle => exact absurd rfl hpc
  -- the steps that change nothing, and those that change the flag only
  | loadIdt | setupSyscall | maskWrite | removeInit =>
    exact ⟨_, _, rfl, ⟨rfl, hflag, hmaster, hnode, hchain, hcur, hheap, hctx, hfin⟩, rfl, rfl⟩
  | irqDisable | maskDisable | maskEnable | irqEnable | pitDisable =>
    exact ⟨_, _, rfl, ⟨rfl, rfl, hmaster, hnode, hchain, hcur, hheap, hctx, hfin⟩, rfl, rfl⟩
  | fillHandler =>
    exact ⟨_, _, rfl, ⟨rfl, hflag, hmaster, fun _ => rfl, hchain, hcur, hheap, hctx, hfin⟩, rfl,
      rfl⟩
  | createInit =>
    exact ⟨_, _, rfl, ⟨rfl, hflag, hmaster, hnode, hchain, hcur, hset, hset, hfin⟩, rfl, rfl⟩
  | pic writes =>
    cases writes with
    | nil =>
      exact ⟨_, _, rfl, ⟨rfl, rfl, hmaster, hnode, hchain, hcur, hheap, hctx, hfin⟩, rfl, rfl⟩
    | cons w writes =>
      exact ⟨_, _, rfl, ⟨rfl, hflag, hmaster, hnode, hchain, hcur, hheap, hctx, hfin⟩, rfl, rfl⟩
  | mallocHandler =>
    have hne : (malloc s.kernel.heap 24).1 ≠ 0 := by
      rw [hheap rfl]
      exact malloc_handler_ne_zero
    refine ⟨_, .fillHandler, rfl, ⟨?_, hflag, hmaster, hnode, hchain, hcur, hset, hctx, hfin⟩,
      rfl, rfl⟩
    exact congrArg BootPlace.cmain (if_neg hne)
  | testChain =>
    refine ⟨_, .maskDisable, rfl, ⟨?_, hflag, hmaster, hnode, hchain, hcur, hheap, hctx, hfin⟩,
      rfl, rfl⟩
    exact congrArg BootPlace.cmain (if_pos hchain)
  | maskRead =>
    refine ⟨_, .maskWrite (s.pics.master.imr &&& ~~~1), rfl,
      ⟨rfl, hflag, ?_, hnode, hchain, hcur, hheap, hctx, hfin⟩, rfl, rfl⟩
    -- the mask is `0xfb`, and only bit 0 goes
    have hm : s.pics.master = ⟨0xfb, 0⟩ := hmaster
    change s.pics.master.data (s.pics.master.imr &&& ~~~1) = ⟨0xfa, 0⟩
    rw [hm]
    rfl
  | setNext =>
    refine ⟨_, .link, rfl, ⟨rfl, hflag, hmaster, fun _ => ?_, hchain, hcur, hheap, hctx, hfin⟩,
      rfl, rfl⟩
    simp only [hnode rfl, hchain]
    rfl
  | link =>
    exact ⟨_, .irqEnable, congrArg (Option.map _) (hnode rfl),
      ⟨rfl, hflag, hmaster, hnode, rfl, hcur, hheap, hctx, hfin⟩, rfl, rfl⟩
  | pit writes =>
    cases writes with
    | nil =>
      refine ⟨_, .fill (List.finRange maxProcesses), rfl,
        ⟨rfl, rfl, hmaster, hnode, hchain, hcur, hheap, hctx, hfin⟩, rfl, ?_⟩
      simp only [BootPc.remaining, List.length_finRange, List.length_nil]
      omega
    | cons w writes =>
      exact ⟨_, _, rfl, ⟨rfl, hflag, hmaster, hnode, hchain, hcur, hheap, hctx, hfin⟩, rfl, rfl⟩
  | fill slots =>
    cases slots with
    | nil =>
      exact ⟨_, _, rfl, ⟨rfl, rfl, hmaster, hnode, hchain, hcur, hheap, hctx, hfin⟩, rfl, rfl⟩
    | cons i slots =>
      exact ⟨_, _, rfl, ⟨rfl, hflag, hmaster, hnode, hchain, hcur, hheap, hctx, hfin⟩, rfl, rfl⟩
  | createUser n =>
    cases n with
    | zero =>
      exact ⟨_, _, rfl, ⟨rfl, rfl, hmaster, hnode, hchain, hcur, hheap, hctx, hfin⟩, rfl, rfl⟩
    | succ n =>
      exact ⟨_, _, rfl, ⟨rfl, hflag, hmaster, hnode, hchain, hcur, hset, hset, hfin⟩, rfl, rfl⟩

theorem kernel_eq_boot (h : Booting mem init userTask s .idle) :
    s.kernel = boot mem init userTask 4 :=
  h.finish

/-- The end of `setup_process`. -/
theorem Booting.running (h : Booting mem init userTask s .idle) : Running s := by
  have hspec := setupSpec_boot mem init userTask (n := 4) (by decide)
  rw [← kernel_eq_boot h] at hspec
  refine ⟨hspec.framesFit (by decide), fun p hp => hspec.context_ne_zero hp, fun p hp => ?_, ?_,
    h.chain⟩
  · obtain ⟨rsp, hf⟩ := hspec.frame p hp
    exact congrArg BootFrame.place hf
  · rw [h.place, h.currentPid, ownPlace]

/-- `cmain` has nothing left but its loop. -/
theorem Running.idle_of_cmain (h : Running s) (hplace : s.place = .cmain pc) : pc = .idle := by
  have hown := hplace.symm.trans h.place
  cases hc : s.kernel.currentPid with
  | none => exact BootPlace.cmain.inj (hown.trans (congrArg ownPlace hc))
  | some c => exact BootPlace.noConfusion (hown.trans (congrArg ownPlace hc))

/-! ### A tick -/

/-- The places at which a tick can be taken. -/
theorem Booting.accepts_eq (h : Booting mem init userTask s pc) : s.accepts = pc.accepts := by
  have hmaster := h.master
  rw [accepts, h.flag]
  cases pc with
  | loadIdt | pic | testChain | maskDisable | maskRead | maskWrite | maskEnable | pit | createInit
  | removeInit | createUser => rfl
  | setupSyscall | mallocHandler | fillHandler | irqDisable =>
    -- IRQ 0 is masked
    have hm : s.pics.master = ⟨0xfb, 0⟩ := hmaster
    rw [hm]
    rfl
  | setNext | link | irqEnable | pitDisable | fill | idle =>
    have hm : s.pics.master = ⟨0xfa, 0⟩ := hmaster
    rw [hm]
    rfl

/-- Before the node is linked, a tick changes nothing. -/
theorem Booting.tick_of_not_linked (h : Booting mem init userTask s pc) (hl : pc.linked = false)
    (hst : s.step init userTask .tick = some t) : t = s := by
  obtain ⟨ha, -⟩ := Option.ite_none_right_eq_some.mp hst
  have hchain : s.irqHandlers = [] := by
    rw [h.chain, hl, if_neg Bool.false_ne_true]
  have hr : irqHandler s.kernel ⟨s.place, s.interruptFlag⟩ s.irqHandlers
      = (s.kernel, ⟨s.place, s.interruptFlag⟩) := by
    rw [hchain, irqHandler]
  rw [step_of_accepts ha, hr] at hst
  exact (Option.some.inj hst).symm

/-- At such a place the chain is empty, or all processes have been created, or it is the window. -/
theorem Booting.of_accepts (h : Booting mem init userTask s pc) (ha : s.accepts = true) :
    pc.linked = false ∨ pc.betweenLinkAndDisable = true ∨ pc = .idle := by
  rw [h.accepts_eq] at ha
  cases pc with
  | setNext | link => exact Or.inl rfl
  | irqEnable | pitDisable | fill => exact Or.inr (Or.inl rfl)
  | idle => exact Or.inr (Or.inr rfl)
  | _ => exact absurd ha Bool.false_ne_true

/-- In the window, a tick starts process 0 on a null context. -/
theorem Booting.not_dispatchesCreated (h : Booting mem init userTask s pc) (ha : s.accepts = true)
    (hw : pc.betweenLinkAndDisable = true) : ¬ DispatchesCreated init userTask s .tick := by
  have hchain : s.irqHandlers = [.pitHandler] := by
    rw [h.chain]
    cases pc with
    | irqEnable | pitDisable | pit | fill => rfl
    | _ => exact absurd hw Bool.false_ne_true
  have hcreated : pc.created = false := by
    cases pc with
    | irqEnable | pitDisable | pit | fill => rfl
    | _ => exact absurd hw Bool.false_ne_true
  intro hd
  refine hd _ (step_of_accepts ha) 0 ?_ (h.context hcreated 0)
  rw [hchain]
  have hcur : { s.kernel with pitCounter := s.kernel.pitCounter + 1 }.currentPid = none :=
    h.currentPid
  change (s.kernel.pitHandler ⟨s.place, s.interruptFlag⟩).1.started = s.kernel.started ++ [0]
  rw [pitHandler, scheduleProcess_of_none _ hcur, startProcess_started]

theorem ne_append_singleton (l : List ℕ) (p : ℕ) : l ≠ l ++ [p] := by
  simp

/-- Once the processes have been created, a tick starts one of them, or none. -/
theorem Running.tick (h : Running s) (hst : s.step init userTask .tick = some t) :
    Running t ∧ ∀ p, t.kernel.started = s.kernel.started ++ [p] →
      (s.kernel.processTable p).context ≠ 0 := by
  obtain ⟨ha, -⟩ := Option.ite_none_right_eq_some.mp hst
  have hr : irqHandler s.kernel ⟨s.place, s.interruptFlag⟩ s.irqHandlers
      = s.kernel.pitHandler ⟨s.place, s.interruptFlag⟩ := by
    rw [h.chain, irqHandler, irqHandler]
  rw [step_of_accepts ha, hr] at hst
  obtain rfl := Option.some.inj hst
  have hctx : ∀ q, ((s.kernel.pitHandler ⟨s.place, s.interruptFlag⟩).1.processTable q).context
      = (s.kernel.processTable q).context :=
    congrFun (congrArg (fun l => l.2.2) (layout_pitHandler s.kernel ⟨s.place, s.interruptFlag⟩))
  have hctx' : ∀ p < 5,
      ((s.kernel.pitHandler ⟨s.place, s.interruptFlag⟩).1.processTable p).context ≠ 0 := by
    intro p hp
    rw [hctx p]
    exact h.context p hp
  obtain ⟨hfit, ⟨hframe, hsame⟩ | ⟨p, hp, hcur, hstarted, -, hsaved, hframe⟩⟩ :=
    pitHandler_frames h.fit ⟨s.place, s.interruptFlag⟩
  · refine ⟨⟨hfit, hctx', fun q hq => ?_, ?_, h.chain⟩, fun p hp => ?_⟩
    · rw [hsame.saved q]
      exact h.saved q hq
    · rw [hframe, hsame.currentPid]
      exact h.place
    · exact absurd (hsame.started.symm.trans hp) (ne_append_singleton _ p)
  · have hown : ∀ q < 5,
        ((s.kernel.pitHandler ⟨s.place, s.interruptFlag⟩).1.saved q).place = .process q := by
      intro q hq
      rw [hsaved q hq]
      split
      · next hc =>
        change s.place = _
        rw [h.place, hc, ownPlace]
      · exact h.saved q hq
    refine ⟨⟨hfit, hctx', hown, ?_, h.chain⟩, fun q hq => ?_⟩
    · rw [hframe, hcur, hown p hp, ownPlace]
    · obtain rfl : p = q := by simpa using hstarted.symm.trans hq
      exact h.context p hp

theorem Running.codeStep (h : Running s) (effect : CodeEffect) : Running (s.codeStep effect) := by
  obtain ⟨hsame, hslots⟩ := h.fit.applyEffect effect
  refine ⟨h.fit.congr hsame hslots, fun p hp => ?_, fun p hp => ?_, ?_, h.chain⟩
  · have := h.context p hp
    rwa [← hsame.context p] at this
  · have := h.saved p hp
    rwa [← hsame.saved p] at this
  · have := h.place
    rwa [← hsame.currentPid] at this

/-! ### Runs -/

/-- The invariant. -/
def BootInv (mem : BootMap) (init userTask : BitVec 64) (s : BootMachine) : Prop :=
  (∃ pc, Booting mem init userTask s pc) ∨ Running s

/-- After the end of `setup_process`, every step is as expected. -/
theorem Running.step (h : Running s) {e : BootEvent} (hst : s.step init userTask e = some t) :
    Running t ∧ ∀ p, t.kernel.started = s.kernel.started ++ [p] →
      (s.kernel.processTable p).context ≠ 0 := by
  cases e with
  | tick => exact h.tick hst
  | step =>
    cases hplace : s.place with
    | cmain pc =>
      obtain rfl := h.idle_of_cmain hplace
      obtain rfl : s = t := Option.some.inj ((step_of_cmain hplace).symm.trans hst)
      exact ⟨h, fun p hp => absurd hp (ne_append_singleton _ p)⟩
    | process c =>
      rw [BootMachine.step, hplace] at hst
      exact absurd hst.symm (Option.some_ne_none t)
  | process effect =>
    cases hplace : s.place with
    | cmain pc =>
      rw [BootMachine.step, hplace] at hst
      exact absurd hst.symm (Option.some_ne_none t)
    | process c =>
      rw [BootMachine.step, hplace] at hst
      obtain rfl := Option.some.inj hst
      have hstarted := (h.fit.applyEffect effect).1.started
      exact ⟨h.codeStep effect,
        fun p hp => absurd (hstarted.symm.trans hp) (ne_append_singleton _ p)⟩

/-- Before, so is every step outside the window. -/
theorem Booting.step_outside (h : Booting mem init userTask s pc) (hpc : pc ≠ .idle)
    {e : BootEvent} (he : TakenOutside s e) (hst : s.step init userTask e = some t) :
    t.kernel.started = s.kernel.started ∧ ∃ pc', Booting mem init userTask t pc' ∧
      pc'.remaining + [e].count .step = pc.remaining := by
  cases e with
  | step =>
    obtain ⟨t', pc', hst', h', hstarted, hrem⟩ := h.step hpc
    obtain rfl : t = t' := Option.some.inj (hst.symm.trans hst')
    exact ⟨hstarted, pc', h', hrem⟩
  | tick =>
    have ha := (Option.ite_none_right_eq_some.mp hst).1
    have hl : pc.linked = false := by
      rcases h.of_accepts ha with hl | hw | hidle
      · exact hl
      · exact absurd ((he ha pc h.place).symm.trans hw) Bool.false_ne_true
      · exact absurd hidle hpc
    obtain rfl := h.tick_of_not_linked hl hst
    exact ⟨rfl, pc, h, rfl⟩
  | process effect =>
    rw [BootMachine.step, h.place] at hst
    exact absurd hst.symm (Option.some_ne_none t)

theorem BootInv.step (h : BootInv mem init userTask s) {e : BootEvent} (he : TakenOutside s e)
    (hst : s.step init userTask e = some t) :
    BootInv mem init userTask t ∧ ∀ p, t.kernel.started = s.kernel.started ++ [p] →
      (s.kernel.processTable p).context ≠ 0 := by
  have hrunning : Running s → BootInv mem init userTask t ∧ ∀ p,
      t.kernel.started = s.kernel.started ++ [p] → (s.kernel.processTable p).context ≠ 0 :=
    fun h => (h.step hst).imp_left Or.inr
  rcases h with ⟨pc, h⟩ | h
  · by_cases hpc : pc = .idle
    · subst hpc
      exact hrunning h.running
    · obtain ⟨hstarted, pc', h', -⟩ := h.step_outside hpc he hst
      exact ⟨Or.inl ⟨pc', h'⟩,
        fun p hp => absurd (hstarted.symm.trans hp) (ne_append_singleton _ p)⟩
  · exact hrunning h

/-- Only a tick in the window starts a process that has not been created. -/
theorem BootInv.dispatchesCreated_iff (h : BootInv mem init userTask s) (e : BootEvent) :
    DispatchesCreated init userTask s e ↔ TakenOutside s e := by
  constructor
  · intro hd
    cases e with
    | step | process => trivial
    | tick =>
      intro ha pc hplace
      rcases h with ⟨pc', h⟩ | h
      · obtain rfl : pc' = pc := BootPlace.cmain.inj (h.place.symm.trans hplace)
        by_contra hw
        exact h.not_dispatchesCreated ha (Bool.not_eq_false _ ▸ hw) hd
      · rw [h.idle_of_cmain hplace]
        rfl
  · intro he t hst
    exact (h.step he hst).2

theorem SetupDone.cons {e : BootEvent} {es : List BootEvent} (hst : s.step init userTask e = some t)
    (h : SetupDone init userTask mem t es) : SetupDone init userTask mem s (e :: es) := by
  obtain ⟨es', hes, u, hrun, hplace⟩ := h
  exact ⟨e :: es', List.cons_prefix_cons.mpr ⟨rfl, hes⟩, u, run_cons_eq_some.mpr ⟨t, hst, hrun⟩,
    hplace⟩

/-- As long as the end has not been reached, every step of `cmain` brings it nearer. -/
theorem Booting.setupDone {es : List BootEvent} (h : Booting mem init userTask s pc)
    (ha : Along (BootMachine.step init userTask) TakenOutside s es)
    (hr : run (BootMachine.step init userTask) s es = some t) :
    SetupDone init userTask mem s es ∨ ∃ pc', pc' ≠ .idle ∧ Booting mem init userTask t pc' ∧
      pc'.remaining + es.count .step = pc.remaining := by
  induction es generalizing s pc with
  | nil =>
    obtain rfl := Option.some.inj hr
    by_cases hpc : pc = .idle
    · subst hpc
      exact Or.inl ⟨[], List.prefix_rfl, s, rfl, h.place, kernel_eq_boot h⟩
    · exact Or.inr ⟨pc, hpc, h, rfl⟩
  | cons e es ih =>
    obtain ⟨u, hst, hr⟩ := run_cons_eq_some.mp hr
    by_cases hpc : pc = .idle
    · subst hpc
      exact Or.inl ⟨[], List.nil_prefix, s, rfl, h.place, kernel_eq_boot h⟩
    obtain ⟨-, pc', h', hrem⟩ := h.step_outside hpc ha.1 hst
    refine (ih h' (ha.2 u hst) hr).imp (SetupDone.cons hst) ?_
    rintro ⟨pc'', hpc'', h'', hrem'⟩
    refine ⟨pc'', hpc'', h'', ?_⟩
    have hcount : (e :: es).count .step = [e].count .step + es.count .step := by
      rw [← List.count_append, List.singleton_append]
    omega

theorem along_dispatchesCreated_iff (mem : BootMap) (pics : Pics) (init userTask : BitVec 64)
    (es : List BootEvent) :
    Along (step init userTask) (DispatchesCreated init userTask) (initial mem pics) es ↔
      Along (step init userTask) TakenOutside (initial mem pics) es :=
  along_iff_of_safe (BootInv mem init userTask) (fun _ _ _ h he hst => (h.step he hst).1)
    (fun _ e h => h.dispatchesCreated_iff e) (Or.inl ⟨_, booting_initial mem init userTask pics⟩)

/-- **Boot is as expected exactly when no tick is taken in the window**: every process that is
started has been created, and `setup_process` ends. -/
theorem boot_along_iff (mem : BootMap) (pics : Pics) (init userTask : BitVec 64)
    (es : List BootEvent) :
    Along (step init userTask) (DispatchesCreated init userTask) (initial mem pics) es ∧
        ReachesEnd init userTask BootPc.loadIdt.remaining mem (initial mem pics) es ↔
      Along (step init userTask) TakenOutside (initial mem pics) es := by
  have hiff := along_dispatchesCreated_iff mem pics init userTask es
  refine ⟨fun h => hiff.mp h.1, fun ha => ⟨hiff.mpr ha, fun t hr => ?_⟩⟩
  refine ((booting_initial mem init userTask pics).setupDone ha hr).imp_right ?_
  rintro ⟨pc, hpc, h, hrem⟩
  obtain ⟨u, pc', hst, -, -, hrem'⟩ := h.step hpc
  exact ⟨by omega, u, hst⟩

/-- A tick right after the node has been linked. -/
theorem not_dispatchesCreated_after_link :
    ¬ Along (step 0x200000 0x200100) (DispatchesCreated 0x200000 0x200100)
      (initial ⟨fun _ => initialBootFrame ⟨0, false, 0, 0⟩⟩ ⟨⟨0xb8, 0⟩, ⟨0x8f, 0⟩⟩)
      (List.replicate 23 .step ++ [.tick]) := by
  rw [along_dispatchesCreated_iff]
  intro h
  obtain ⟨t, hrun, hplace, hacc⟩ : ∃ t, run (step 0x200000 0x200100)
      (initial ⟨fun _ => initialBootFrame ⟨0, false, 0, 0⟩⟩ ⟨⟨0xb8, 0⟩, ⟨0x8f, 0⟩⟩)
      (List.replicate 23 .step) = some t ∧ t.place = .cmain .irqEnable ∧ t.accepts = true :=
    ⟨_, rfl, rfl, rfl⟩
  exact absurd ((h.of_append hrun).1 hacc _ hplace).symm Bool.false_ne_true

end BootMachine

end FrogOS
