import FrogOS.InterruptEntry
import FrogOS.SyscallEntry
import FrogOS.ContextSwitch

/-!
# A system call among timer ticks

One system call of one process, followed from `syscall` to `sysretq`, with timer ticks anywhere in
between. `syscall_handler` is executed instruction by instruction, `ksyscall` statement by statement
on the structure it is passed, and a tick is what `FrogOS.InterruptEntry` says it is: the processor
pushes, `irq_stub` saves the registers, `pit_handler` may exchange the frame for that of another
process, and `irq_stub` loads the registers from the frame. A tick ends before the next one begins.

What the model does not follow is left to an adversary. Compiled code of `ksyscall` may do anything
to the registers between two statements; what it has promised, by the calling convention, is to give
back the stack pointer and six registers when it returns. The handler of the interrupt and the other
processes may do anything to memory, except to the stack of the caller, as far as it is in use. The
saved contexts are not on that stack; they are kept apart from memory here.

## Main definitions

* `SystemCall`, `CallMachine` — the call, and the machine that executes it
* `SystemCall.step` — its steps
* `CallMachine.caller` — the registers of the caller, on the processor or saved

## Main results

* `SystemCall.caller_tick` — a tick gives the caller back every register, and its stack
-/

namespace FrogOS

open X86 Memory ContextMemory Kernel StepSystem

/-- The statements of `ksyscall` that read or write its structure or a variable of the kernel. -/
inductive KsyscallPc
  /-- `switch (state->rax)`. -/
  | switch
  /-- `start = pit_counter`. -/
  | sleepStart
  /-- `state->rdi = (state->rdi + 9) / 10`. -/
  | sleepRound (start : BitVec 64)
  /-- The condition of the loop. -/
  | sleepCheck (start : BitVec 64)
  /-- The statements of the loop that are left. -/
  | sleepLoop (start : BitVec 64) (left : List CodeEffect)
  /-- `state->rax = 10 * (pit_counter - start)`. -/
  | sleepReturn (start : BitVec 64)
  /-- `state->rax = current_pid`. -/
  | getpid
  /-- The statements of `yield` that are left. -/
  | yield (left : List CodeEffect)
  /-- After the `switch`. -/
  | done

/-- The cases of the `switch`. The calls that write to the console or execute `hlt` are compiled
code that does nothing the model follows, and so are the numbers without a case. -/
def ksyscallCase (rax : BitVec 64) : KsyscallPc :=
  if rax = 1 then .sleepStart
  else if rax = 2 then .getpid
  else if rax = 4 then .yield [.setReady, .storeRunQueue, .advanceRunQueueTail]
  else .done

/-- The body of the loop; the last effect is `hlt`. -/
def sleepBody : List CodeEffect :=
  [.disable, .storeRunQueue, .advanceRunQueueTail, .setReady, .enable, .compute]

/-- The interrupt flag after a statement. -/
def flagAfter (rflags : BitVec 64) : CodeEffect → BitVec 64
  | .disable => rflags &&& ~~~0x200
  | .enable => rflags ||| 0x200
  | _ => rflags

/-- Where the caller stands. -/
inductive CallPc
  /-- In `syscall_handler`, before these instructions and the call of `ksyscall`. -/
  | entry (code : List Instr)
  /-- In `ksyscall`, which was called with these registers. -/
  | ksyscall (called : Reg → BitVec 64) (pc : KsyscallPc)
  /-- In `syscall_handler`, before these instructions and `sysretq`. -/
  | exit (code : List Instr)

/-- `syscall_handler` after the call. -/
def syscallHandlerExit : List Instr :=
  [.rax, .rbp, .rbx, .r11, .r10, .r9, .r8, .rcx, .rdx, .rsi, .rdi].map .pop

/-- The registers a function gives back. -/
def calleeSaved : List Reg := [.rbx, .rbp, .r12, .r13, .r14, .r15]

structure CallMachine (M : Type) where
  kernel : Kernel M
  cpu : Cpu
  pc : CallPc

/-- A system call: who makes it, the processor before `syscall` (`rip` being the address of the next
instruction), and where things are. -/
structure SystemCall where
  pid : ℕ
  before : Cpu
  msrs : Msrs
  tss : StackTable
  irqTable : ℕ → BitVec 64
  irqHandler : BitVec 64
  /-- The return addresses of the calls of `irq_handler` and `ksyscall`. -/
  irqReturn : BitVec 64
  ksyscallReturn : BitVec 64

/-- What happens next. Where something is left open, the event says what it turns out to be. -/
inductive CallEvent
  /-- A timer tick; `irq_handler` leaves these registers and this memory. -/
  | tick (after : Cpu)
  /-- The next instruction of `syscall_handler`, the one after it being at `rip`. -/
  | instr (rip : BitVec 64)
  /-- Compiled code of `ksyscall`. -/
  | compute (after : Cpu)
  /-- The next statement of `ksyscall`. -/
  | statement
  /-- The return of `ksyscall`. -/
  | ret (after : Cpu)
  /-- Code of another process. -/
  | other (after : Cpu) (effect : CodeEffect)

variable {M : Type} [ContextMemory M ProcessContext]

/-- The registers of process `pid`, on the processor or saved. -/
def CallMachine.caller (s : CallMachine M) (pid : ℕ) : Cpu :=
  if s.kernel.currentPid = some pid then s.cpu else frameCpu (s.kernel.saved pid) s.cpu.mem

namespace SystemCall

variable (c : SystemCall)

/-- The stack pointer of the caller. -/
def bound : BitVec 64 := c.before.reg .rsp

/-- The address of the `struct syscall_state`. -/
def frame : BitVec 64 := c.bound - 88

/-- `syscall` has been executed. -/
def start (k : Kernel M) : CallMachine M :=
  ⟨k, syscall c.msrs c.before, .entry syscallHandlerEntry⟩

/-- Memory after something else than the caller has turned `m` into `m'`: the stack of the caller,
as far as it is in use, is not touched. -/
def keepStack (s : CallMachine M) (m m' : Memory) : Memory :=
  overlay m m' ((s.caller c.pid).reg .rsp) (c.bound - (s.caller c.pid).reg .rsp).toNat

/-- Where an interrupt starts to push. -/
def tickStack (s : CallMachine M) : BitVec 64 :=
  interruptStack c.tss (setupIdt c.irqTable 32).gate s.cpu

/-- The words the code of an interrupt pushes, 28 at most, are not on the stack of the caller. -/
def StackClear (s : CallMachine M) : Prop :=
  ((s.caller c.pid).reg .rsp - c.tickStack s).toNat
    + (c.bound - (s.caller c.pid).reg .rsp).toNat + 224 ≤ 2 ^ 64

instance (s : CallMachine M) : Decidable (c.StackClear s) := Nat.decLe ..

/-- A tick, from `irq32` on, the processor having pushed its words. The handler of the timer finds
the frame on the stack, and the exit path takes what it leaves there. -/
def tick (s : CallMachine M) (pushed after : Cpu) : CallMachine M :=
  let e := enterIrqHandler 32 c.irqHandler c.irqReturn pushed
  let r := s.kernel.pitHandler (regsAt e.mem (e.reg .rdi))
  let t := { after with
    reg := Function.update after.reg .rsp (e.reg .rsp + 8)
    mem := storeWords (c.keepStack s e.mem after.mem) (e.reg .rdi) r.2.toWords }
  { s with
    kernel := r.1
    cpu := iretq (execAll t irqStubExit) }

/-- The next instruction of `syscall_handler`. -/
def instr (s : CallMachine M) (rip : BitVec 64) : Option (CallMachine M) :=
  match s.pc with
  | .entry [] => some
    { s with
      cpu := { s.cpu.push c.ksyscallReturn with rip := rip }
      pc := .ksyscall s.cpu.reg .switch }
  | .entry (i :: code) => some
    { s with
      cpu := { exec s.cpu i with rip := rip }
      pc := .entry code }
  | .exit (i :: code) => some
    { s with
      cpu := { exec s.cpu i with rip := rip }
      pc := .exit code }
  | .ksyscall _ _ | .exit [] => none

/-- The processor after compiled code: memory at the structure is kept, and above it there is
nothing in use. -/
def compiled (s : CallMachine M) (after : Cpu) : Cpu :=
  { after with
    seg := s.cpu.seg
    rflags := after.rflags &&& ~~~0x200 ||| s.cpu.rflags &&& 0x200
    mem := overlay s.cpu.mem after.mem c.frame 88 }

/-- The next statement of `ksyscall`. -/
def statement (s : CallMachine M) (called : Reg → BitVec 64) :
    KsyscallPc → Option (CallMachine M)
  | .switch => some { s with pc := .ksyscall called (ksyscallCase (load s.cpu.mem c.frame)) }
  | .sleepStart => some { s with pc := .ksyscall called (.sleepRound s.kernel.pitCounter) }
  | .sleepRound start => some
    { s with
      cpu := { s.cpu with
        mem := store s.cpu.mem (c.frame + 80) ((load s.cpu.mem (c.frame + 80) + 9) / 10) }
      pc := .ksyscall called (.sleepCheck start) }
  | .sleepCheck start => some
    { s with
      pc := .ksyscall called
        (if s.kernel.pitCounter - start < load s.cpu.mem (c.frame + 80) then
          .sleepLoop start sleepBody
        else .sleepReturn start) }
  | .sleepLoop start [] => some { s with pc := .ksyscall called (.sleepCheck start) }
  | .sleepLoop start (effect :: left) => some
    { s with
      kernel := s.kernel.applyEffect effect
      cpu := { s.cpu with rflags := flagAfter s.cpu.rflags effect }
      pc := .ksyscall called (.sleepLoop start left) }
  | .sleepReturn start => some
    { s with
      cpu := { s.cpu with
        mem := store s.cpu.mem c.frame (10 * (s.kernel.pitCounter - start)) }
      pc := .ksyscall called .done }
  | .getpid => some
    { s with
      cpu := { s.cpu with mem := store s.cpu.mem c.frame (BitVec.ofNat 64 c.pid) }
      pc := .ksyscall called .done }
  | .yield [] => some { s with pc := .ksyscall called .done }
  | .yield (effect :: left) => some
    { s with
      kernel := s.kernel.applyEffect effect
      pc := .ksyscall called (.yield left) }
  | .done => none

/-- The processor after the return of `ksyscall`. -/
def returned (s : CallMachine M) (called : Reg → BitVec 64) (after : Cpu) : Cpu :=
  { c.compiled s after with
    reg := fun r =>
      if r = .rsp then c.frame else if r ∈ calleeSaved then called r else after.reg r }

/-- The code of the caller. -/
def own (s : CallMachine M) : CallEvent → Option (CallMachine M)
  | .instr rip => c.instr s rip
  | .compute after =>
    match s.pc with
    | .ksyscall _ _ =>
      -- the stack does not wrap around
      if (c.frame - after.reg .rsp).toNat ≤ 2 ^ 63 then some { s with cpu := c.compiled s after }
      else none
    | _ => none
  | .statement =>
    match s.pc with
    | .ksyscall called pc => c.statement s called pc
    | _ => none
  | .ret after =>
    match s.pc with
    | .ksyscall called .done => some
      { s with
        cpu := c.returned s called after
        pc := .exit syscallHandlerExit }
    | _ => none
  | .tick _ | .other _ _ => none

/-- One step. Ticks come between instructions and need the interrupt flag; one that interrupts
another process uses a stack of its own. -/
def step (s : CallMachine M) : CallEvent → Option (CallMachine M)
  | .tick after =>
    if s.cpu.rflags.getLsbD 9 = true ∧
        (s.kernel.currentPid = some c.pid ∨ c.StackClear s) then
      (deliver c.tss (setupIdt c.irqTable) 32 (.irq false) s.cpu).map fun pushed =>
        c.tick s pushed after
    else none
  | .other after effect =>
    if s.kernel.currentPid = some c.pid then none
    else some
      { s with
        kernel := s.kernel.applyEffect effect
        cpu := { after with mem := c.keepStack s s.cpu.mem after.mem } }
  | e => if s.kernel.currentPid = some c.pid then c.own s e else none

/-! ### Ticks -/

variable {m : ℕ} {s t : CallMachine M}

theorem caller_of_current (h : s.kernel.currentPid = some c.pid) : s.caller c.pid = s.cpu :=
  if_pos h

theorem caller_mem (s : CallMachine M) (pid : ℕ) : (s.caller pid).mem = s.cpu.mem := by
  rw [CallMachine.caller]
  split <;> rfl

omit [ContextMemory M ProcessContext] in
/-- The frame of a tick: it lies below the words of the processor, and holds the registers. -/
theorem tick_frame (s : CallMachine M) : ∃ e, enterIrqHandler 32 c.irqHandler c.irqReturn
      (interrupt c.tss (setupIdt c.irqTable 32).gate false none s.cpu) = e ∧
    e.reg .rdi = c.tickStack s - 208 ∧ e.reg .rsp + 8 = e.reg .rdi ∧
    regsAt e.mem (e.reg .rdi) = pushedRegs s.cpu 32 false 0 ∧
    ∀ x, (x - c.tickStack s).toNat + 224 < 2 ^ 64 → e.mem x = s.cpu.mem x := by
  obtain ⟨e, he, hrsp, hrdi, hframe⟩ := enterIrqHandler_spec c.tss (setupIdt c.irqTable 32).gate
    false none c.irqHandler c.irqReturn 32 s.cpu
  have hback := hrsp.mpr rfl
  refine ⟨e, he, ?_, hrdi.symm, hframe rfl, fun x hx => ?_⟩
  · rw [hrdi, tickStack]
    bv_omega
  · rw [← he]
    exact mem_enterIrqHandler _ _ _ _ _ _ _ _ hx

/-- What is on the stack of the caller is not below the start of the frame. -/
theorem StackClear.lt {c : SystemCall} (h : c.StackClear s) {x : BitVec 64}
    (hx : (x - (s.caller c.pid).reg .rsp).toNat
      < (c.bound - (s.caller c.pid).reg .rsp).toNat) :
    (x - c.tickStack s).toNat + 224 < 2 ^ 64 := by
  rw [StackClear] at h
  generalize (s.caller c.pid).reg .rsp = sp at h hx
  bv_omega

/-- The processor after a tick has the registers of the frame the timer handler leaves. -/
theorem tick_cpu (s : CallMachine M) (hclear : c.StackClear s) (after : Cpu) : ∃ mem',
    c.tick s (interrupt c.tss (setupIdt c.irqTable 32).gate false none s.cpu) after
        = { s with
            kernel := (s.kernel.pitHandler (pushedRegs s.cpu 32 false 0)).1
            cpu := frameCpu (s.kernel.pitHandler (pushedRegs s.cpu 32 false 0)).2 mem' } ∧
      ∀ x, (x - (s.caller c.pid).reg .rsp).toNat
        < (c.bound - (s.caller c.pid).reg .rsp).toNat → mem' x = s.cpu.mem x := by
  obtain ⟨e, he, hrdi, hrsp, hframe, habove⟩ := c.tick_frame s
  rw [tick, he, hframe]
  generalize s.kernel.pitHandler (pushedRegs s.cpu 32 false 0) = r
  have hlen : r.2.toWords.length = 26 := rfl
  have hst : Stack { after with
      reg := Function.update after.reg .rsp (e.reg .rsp + 8)
      mem := storeWords (c.keepStack s e.mem after.mem) (e.reg .rdi) r.2.toWords } r.2.toWords := by
    rw [Stack]
    dsimp only
    rw [Function.update_self, hrsp]
    exact words_storeWords (by rw [hlen]; decide)
  refine ⟨storeWords (c.keepStack s e.mem after.mem) (e.reg .rdi) r.2.toWords, ?_, ?_⟩
  · rw [(iretq_irqStubExit hst).2]
  · intro x hx
    have hlt := hclear.lt hx
    have hout : 8 * r.2.toWords.length ≤ (x - e.reg .rdi).toNat := by
      rw [hlen, hrdi]
      bv_omega
    rw [storeWords_of_outside hout, keepStack, overlay_of_inside hx, habove x hlt]

/-- **A tick gives the caller back every register, and its stack**, whoever it interrupts and
whoever it starts. -/
theorem caller_tick (hfit : FramesFit m s.kernel) (hpid : c.pid < m) (hclear : c.StackClear s)
    (after : Cpu) :
    ∃ t, c.tick s (interrupt c.tss (setupIdt c.irqTable 32).gate false none s.cpu) after = t ∧
      FramesFit m t.kernel ∧ t.pc = s.pc ∧ SameStack c.bound (s.caller c.pid) (t.caller c.pid) ∧
      (t.caller c.pid).rip = (s.caller c.pid).rip ∧
      (t.caller c.pid).rflags = (s.caller c.pid).rflags := by
  obtain ⟨mem', htick, hmem⟩ := c.tick_cpu s hclear after
  obtain ⟨hfit', hcases⟩ := pitHandler_frames hfit (pushedRegs s.cpu 32 false 0)
  refine ⟨_, htick, hfit', rfl, ?_⟩
  generalize s.kernel.pitHandler (pushedRegs s.cpu 32 false 0) = r at hfit' hcases ⊢
  suffices hcaller : CallMachine.caller { s with kernel := r.1, cpu := frameCpu r.2 mem' } c.pid
      = { s.caller c.pid with mem := mem' } by
    rw [hcaller]
    refine ⟨⟨rfl, rfl, fun x hx => ?_⟩, rfl, rfl⟩
    rw [caller_mem]
    exact hmem x hx
  have hown := frameCpu_pushedRegs s.cpu 32 false 0 mem'
  obtain ⟨hframe, hsame⟩ | ⟨q, -, hcur, -, -, hsaved, hframe⟩ := hcases
  · -- the same process goes on
    rw [CallMachine.caller, CallMachine.caller]
    dsimp only
    rw [hsame.currentPid, hsame.saved, hframe, hown]
    split <;> rfl
  · -- what is saved for the caller is its frame, either the new one or an old one
    have hsaved' : frameCpu (r.1.saved c.pid) mem' = { s.caller c.pid with mem := mem' } := by
      rw [hsaved c.pid hpid, CallMachine.caller]
      split
      · exact hown
      · rfl
    rw [CallMachine.caller]
    dsimp only
    rw [hcur, hframe]
    split
    · next hq =>
      obtain rfl : q = c.pid := Option.some.inj hq
      exact hsaved'
    · exact hsaved'

end SystemCall

end FrogOS
