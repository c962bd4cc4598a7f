import FrogOS.Lib.X86
import FrogOS.ProcessContext

/-!
# Interrupt entry and exit

From the gate to `irq_handler` and back: the descriptors `install_idt_handler` builds, the entry
points the macros `INTERRUPT` and `INTERRUPT_WITH_ERROR` make, the pushes of `irq_stub`, `struct
regs`, which is laid over them, and the pops before `iretq`.

`struct regs` is `ProcessContext` here, as in `FrogOS.ProcessContext`. Its first four fields are
named in the order in which the segment registers are pushed, so they are read in the opposite one.
The pops are the mirror image of the pushes, so that the return is not affected.

## Main definitions

* `InterruptDescriptor64`, `installIdtHandler`, `setupIdt` — the table
* `irqEntry`, `irqStubSave`, `irqStubCall`, `irqStubExit` — `irq.S`
* `Cause`, `deliver` — the ways an interrupt can be raised
* `InterruptExact` — what is expected of entry and exit

## Main results

* `iretq_irqStubExit` — the exit loads the registers from a frame
* `stack_irqStubSave` — the frame the entry builds
* `interruptExact_iff` — when entry and exit are as expected
-/

namespace FrogOS

open X86 Memory

/-! ### The descriptor table -/

/-- `InterruptDescriptor64`. -/
structure InterruptDescriptor64 where
  offset1 : BitVec 16
  selector : BitVec 16
  ist : BitVec 8
  typeAttributes : BitVec 8
  offset2 : BitVec 16
  offset3 : BitVec 32
  zero : BitVec 32
  deriving DecidableEq

/-- `install_idt_handler`. -/
def installIdtHandler (idt : ℕ → InterruptDescriptor64) (num : ℕ) (func : BitVec 64) :
    ℕ → InterruptDescriptor64 :=
  Function.update idt num
    { selector := 0x08
      ist := 0
      typeAttributes := 0xEF
      zero := 0
      offset1 := (func &&& 0xffff).setWidth 16
      offset2 := (func >>> 16 &&& 0xffff).setWidth 16
      offset3 := (func >>> 32).setWidth 32 }

/-- The `memset` and the loop of `setup_idt`, `irqTable` being the addresses of the entry points. -/
def setupIdt (irqTable : ℕ → BitVec 64) : ℕ → InterruptDescriptor64 :=
  (List.range 49).foldl (fun idt i => installIdtHandler idt i (irqTable i)) fun _ =>
    ⟨0, 0, 0, 0, 0, 0, 0⟩

/-- A descriptor as the processor reads it. -/
def InterruptDescriptor64.gate (d : InterruptDescriptor64) : Gate where
  offset := d.offset3 ++ d.offset2 ++ d.offset1
  selector := d.selector
  ist := d.ist.setWidth 3
  trap := d.typeAttributes.getLsbD 0
  dpl := d.typeAttributes.extractLsb' 5 2
  present := d.typeAttributes.getLsbD 7

/-! ### `irq.S` -/

/-- `INTERRUPT`. -/
def interruptMacro (id : ℕ) : List Instr := [.cli, .pushImm 0, .pushImm (BitVec.ofNat 64 id)]

/-- `INTERRUPT_WITH_ERROR`. -/
def interruptWithErrorMacro (id : ℕ) : List Instr := [.cli, .pushImm (BitVec.ofNat 64 id)]

/-- The vectors the second macro is used for. -/
def hasErrorStub (v : ℕ) : Bool := v == 8 || (10 ≤ v && v ≤ 14)

/-- The entry point `irq<v>`. -/
def irqEntry (v : ℕ) : List Instr :=
  if hasErrorStub v then interruptWithErrorMacro v else interruptMacro v

/-- The general registers `irq_stub` saves, in the order in which it pushes them. -/
def irqSaved : List Reg :=
  [.rax, .rbx, .rcx, .rdx, .rsi, .rdi, .rbp, .r8, .r9, .r10, .r11, .r12, .r13, .r14, .r15]

/-- The segment registers, likewise. -/
def irqSavedSegs : List Seg := [.ds, .es, .fs, .gs]

/-- `irq_stub` while it saves registers. -/
def irqStubSave : List Instr :=
  .cli :: irqSaved.map .push ++ irqSavedSegs.flatMap fun g => [.movFromSeg g .rax, .push .rax]

/-- From there to the call of `irq_handler`. -/
def irqStubCall (irqHandler : BitVec 64) : List Instr :=
  [.movImm 0x10 .rax, .movToSeg .rax .ds, .movToSeg .rax .es, .movToSeg .rax .fs,
    .movToSeg .rax .gs, .mov .rsp .rdi, .movImm irqHandler .rax]

/-- From the return of `irq_handler` to `iretq`. -/
def irqStubExit : List Instr :=
  ([.gs, .fs, .es, .ds].flatMap fun g => [.pop .rax, .movToSeg .rax g]) ++
    [.r15, .r14, .r13, .r12, .r11, .r10, .r9, .r8, .rbp, .rdi, .rsi, .rdx, .rcx, .rbx, .rax].map
      .pop ++ [.addImm 16 .rsp]

/-! ### Raising an interrupt -/

/-- How a vector is raised. The error code of an exception counts for those that have one. An event
is `midway` if it comes between two iterations of a string instruction; a debug exception, also if
it is a fault and no instruction breakpoint. -/
inductive Cause
  | exception (error : BitVec 64) (midway : Bool)
  | irq (midway : Bool)
  | software

/-- The exceptions for which the processor pushes an error code. -/
def hasErrorCode (v : ℕ) : Bool := v == 8 || (10 ≤ v && v ≤ 14) || v == 17 || v == 21

/-- What the processor pushes below the return address. -/
def Cause.errorCode (cause : Cause) (v : ℕ) : Option (BitVec 64) :=
  match cause with
  | exception error _ => if hasErrorCode v then some error else none
  | irq _ | software => none

/-- The exceptions that are faults, whatever raises them. -/
def isFault (v : ℕ) : Bool :=
  v == 0 || (5 ≤ v && v ≤ 7) || (10 ≤ v && v ≤ 14) || v == 16 || v == 17 || (19 ≤ v && v ≤ 21)

/-- Whether the processor sets `RF` in the flags it saves. For `int n` it saves them as they are. -/
def Cause.setsResume (cause : Cause) (v : ℕ) : Bool :=
  match cause with
  | exception _ midway => isFault v || midway
  | irq midway => midway
  | software => false

/-- Whether the processor may use the gate: `int n` needs the privilege the gate asks for. -/
def Cause.admitted (cause : Cause) (gate : Gate) (s : Cpu) : Bool :=
  match cause with
  | software => s.cpl.toNat ≤ gate.dpl.toNat
  | exception _ _ | irq _ => true

/-- Delivery of vector `v`. -/
def deliver (tss : StackTable) (idt : ℕ → InterruptDescriptor64) (v : ℕ) (cause : Cause) (s : Cpu) :
    Option Cpu :=
  let gate := (idt v).gate
  if gate.present && cause.admitted gate s then
    some (interrupt tss gate (cause.setsResume v) (cause.errorCode v) s)
  else none

/-- The processor when `irq_handler` starts: the entry point and `irq_stub` are executed, and the
call pushes `ret`. -/
def enterIrqHandler (v : ℕ) (irqHandler ret : BitVec 64) (s : Cpu) : Cpu :=
  (execAll s (irqEntry v ++ irqStubSave ++ irqStubCall irqHandler)).push ret

/-- The `struct regs` at address `p`. -/
def regsAt (m : Memory) (p : BitVec 64) : ProcessContext :=
  ⟨load m p, load m (p + 8), load m (p + 16), load m (p + 24), load m (p + 32), load m (p + 40),
    load m (p + 48), load m (p + 56), load m (p + 64), load m (p + 72), load m (p + 80),
    load m (p + 88), load m (p + 96), load m (p + 104), load m (p + 112), load m (p + 120),
    load m (p + 128), load m (p + 136), load m (p + 144), load m (p + 152), load m (p + 160),
    load m (p + 168), load m (p + 176), load m (p + 184), load m (p + 192), load m (p + 200)⟩

/-- The registers of an interrupted processor, in the fields named after them. -/
def interruptedRegs (s : Cpu) (v : ℕ) (error : BitVec 64) : ProcessContext where
  ds := (s.seg .ds).setWidth 64
  es := (s.seg .es).setWidth 64
  fs := (s.seg .fs).setWidth 64
  gs := (s.seg .gs).setWidth 64
  r15 := s.reg .r15
  r14 := s.reg .r14
  r13 := s.reg .r13
  r12 := s.reg .r12
  r11 := s.reg .r11
  r10 := s.reg .r10
  r9 := s.reg .r9
  r8 := s.reg .r8
  rbp := s.reg .rbp
  rdi := s.reg .rdi
  rsi := s.reg .rsi
  rdx := s.reg .rdx
  rcx := s.reg .rcx
  rbx := s.reg .rbx
  rax := s.reg .rax
  unused1 := BitVec.ofNat 64 v
  unused2 := error
  rip := s.rip
  cs := (s.seg .cs).setWidth 64
  rflags := s.rflags
  rsp := s.reg .rsp
  ss := (s.seg .ss).setWidth 64

/-- What is expected of entry and exit. Vector `v` leads to its entry point; the structure passed to
`irq_handler` has the interrupted registers in its fields; and however `irq_handler` returns, if it
has left the structure alone, `iretq` is executed with the stack pointer at the saved `rip`, and
then every register is what it was. -/
def InterruptExact (tss : StackTable) (irqTable : ℕ → BitVec 64) (irqHandler ret : BitVec 64)
    (v : ℕ) (cause : Cause) (s : Cpu) : Prop :=
  ∃ d, deliver tss (setupIdt irqTable) v cause s = some d ∧ d.rip = irqTable v ∧
    let e := enterIrqHandler v irqHandler ret d
    regsAt e.mem (e.reg .rdi) = interruptedRegs s v ((cause.errorCode v).getD 0) ∧
      ∀ t : Cpu, t.reg .rsp = e.reg .rsp + 8 →
        words t.mem (e.reg .rdi) 26 = words e.mem (e.reg .rdi) 26 →
        (execAll t irqStubExit).reg .rsp = interruptStack tss (setupIdt irqTable v).gate s - 40 ∧
          iretq (execAll t irqStubExit) = { s with mem := t.mem }

/-! ### Delivery -/

variable {s t : Cpu} {v : ℕ} {cause : Cause} {irqTable : ℕ → BitVec 64}

/-- The descriptor `install_idt_handler` writes. -/
theorem setupIdt_of_lt (hv : v < 49) :
    setupIdt irqTable v = installIdtHandler (fun _ => ⟨0, 0, 0, 0, 0, 0, 0⟩) v (irqTable v) v := by
  suffices h : ∀ n, v < n → ∀ idt, (List.range n).foldl
      (fun idt i => installIdtHandler idt i (irqTable i)) idt v
        = installIdtHandler (fun _ => ⟨0, 0, 0, 0, 0, 0, 0⟩) v (irqTable v) v from h 49 hv _
  intro n
  induction n with
  | zero => exact fun hn => absurd hn (Nat.not_lt_zero v)
  | succ n ih =>
    intro hn idt
    rw [List.range_succ, List.foldl_append, List.foldl_cons, List.foldl_nil]
    by_cases heq : v = n
    · subst heq
      rw [installIdtHandler, installIdtHandler, Function.update_self, Function.update_self]
    · rw [installIdtHandler, Function.update_of_ne heq]
      exact ih (by omega) idt

/-- The gate of a vector: a trap gate for every privilege level, on the current or the ring 0
stack. -/
theorem gate_setupIdt (irqTable : ℕ → BitVec 64) (hv : v < 49) :
    (setupIdt irqTable v).gate = ⟨irqTable v, 0x08, 0, true, 3, true⟩ := by
  have hmask : ∀ x : BitVec 64, (x &&& 0xffff).setWidth 16 = x.setWidth 16 := fun x => by
    refine BitVec.eq_of_toNat_eq ?_
    rw [BitVec.toNat_setWidth, BitVec.toNat_setWidth, BitVec.toNat_and]
    exact (congrArg (· % 2 ^ 16) (Nat.and_two_pow_sub_one_eq_mod x.toNat 16)).trans
      (Nat.mod_mod _ _)
  have hoffset : (irqTable v >>> 32).setWidth 32 ++ (irqTable v >>> 16 &&& 0xffff).setWidth 16 ++
      (irqTable v &&& 0xffff).setWidth 16 = irqTable v := by
    rw [hmask, hmask]
    ext i hi
    simp only [BitVec.getElem_append, BitVec.getElem_setWidth]
    grind
  rw [setupIdt_of_lt hv, installIdtHandler, Function.update_self, InterruptDescriptor64.gate,
    hoffset]
  simp only [Gate.mk.injEq]
  decide

/-- Every gate can be used in every way, from every privilege level. -/
theorem deliver_setupIdt (tss : StackTable) (hv : v < 49) (cause : Cause) (s : Cpu) :
    deliver tss (setupIdt irqTable) v cause s
      = some (interrupt tss (setupIdt irqTable v).gate (cause.setsResume v) (cause.errorCode v)
        s) := by
  have hgate := gate_setupIdt irqTable hv
  have hadm : cause.admitted (setupIdt irqTable v).gate s = true := by
    rw [hgate]
    cases cause with
    | software => exact decide_eq_true (Nat.le_of_lt_succ s.cpl.isLt)
    | exception _ _ | irq _ => rfl
  rw [deliver, hadm, hgate]
  rfl

/-! ### Exit -/

/-- The fields are consecutive words. -/
theorem words_eq_regsAt {m : Memory} {p : BitVec 64} {f : ProcessContext} :
    words m p 26 = f.toWords ↔ regsAt m p = f := by
  cases f
  simp only [ProcessContext.toWords, words, BitVec.add_assoc, BitVec.reduceAdd, List.cons.injEq,
    and_true, regsAt, ProcessContext.mk.injEq]
  exact Iff.rfl

/-- The general registers a frame is popped into. -/
def frameReg (f : ProcessContext) : Reg → BitVec 64
  | .rax => f.rax
  | .rbx => f.rbx
  | .rcx => f.rcx
  | .rdx => f.rdx
  | .rsi => f.rsi
  | .rdi => f.rdi
  | .rbp => f.rbp
  | .rsp => f.rsp
  | .r8 => f.r8
  | .r9 => f.r9
  | .r10 => f.r10
  | .r11 => f.r11
  | .r12 => f.r12
  | .r13 => f.r13
  | .r14 => f.r14
  | .r15 => f.r15

/-- The segment registers: `gs` is on top, where the structure has `ds`. -/
def frameSeg (f : ProcessContext) : Seg → BitVec 16
  | .cs => f.cs.setWidth 16
  | .ds => f.gs.setWidth 16
  | .es => f.fs.setWidth 16
  | .fs => f.es.setWidth 16
  | .gs => f.ds.setWidth 16
  | .ss => f.ss.setWidth 16

/-- The registers a frame stands for. -/
def frameCpu (f : ProcessContext) (m : Memory) : Cpu := ⟨frameReg f, frameSeg f, f.rip, f.rflags, m⟩

/-- **The exit path loads every register from the frame.** -/
theorem iretq_irqStubExit {f : ProcessContext} (h : Stack t f.toWords) :
    (execAll t irqStubExit).reg .rsp = t.reg .rsp + 168 ∧
      iretq (execAll t irqStubExit) = frameCpu f t.mem := by
  let rs : List Reg := [.r15, .r14, .r13, .r12, .r11, .r10, .r9, .r8, .rbp, .rdi, .rsi, .rdx, .rcx,
    .rbx, .rax]
  let gs : List Seg := [.gs, .fs, .es, .ds]
  let frame : List (BitVec 64) := [f.rip, f.cs, f.rflags, f.rsp, f.ss]
  let popSeg : Seg → BitVec 64 := fun g => match g with
    | .gs => f.ds
    | .fs => f.es
    | .es => f.fs
    | .ds => f.gs
    | .cs | .ss => 0
  have hwords : f.toWords
      = gs.map popSeg ++ (rs.map (frameReg f) ++ (f.unused1 :: f.unused2 :: frame)) := rfl
  rw [hwords] at h
  have hsegs := exec_popSegs (r := .rax) h (by decide)
  have hregs := exec_pops hsegs.stack (by decide)
  rw [irqStubExit, execAll_append, execAll_append]
  generalize execAll t (gs.flatMap fun g => [.pop .rax, .movToSeg .rax g]) = t₁ at hsegs hregs
  generalize execAll t₁ (rs.map .pop) = t₂ at hregs
  have hrsp : t₂.reg .rsp + 16 = t.reg .rsp + 168 := by
    rw [hregs.rsp, hsegs.rsp, BitVec.add_assoc, BitVec.add_assoc]
    rfl
  obtain ⟨rflags, hadd⟩ := exec_addImm t₂ 16 .rsp
  rw [execAll_cons, execAll_nil, hadd]
  generalize hu : ({ t₂.set .rsp (t₂.reg .rsp + 16) with rflags := rflags } : Cpu) = u
  have husp : u.reg .rsp = t₂.reg .rsp + 16 := by
    rw [← hu, Cpu.set_reg_self]
  have hframe : Stack u frame := by
    refine hregs.stack.drop.drop.congr ?_ (by rw [← hu]; rfl)
    rw [husp, Cpu.drop, Cpu.set_reg_self, Cpu.drop, Cpu.set_reg_self, BitVec.add_assoc]
    rfl
  have hreg : ∀ r, r ≠ .rsp → u.reg r = frameReg f r := by
    intro r hr
    have hmem : r ∈ rs := by cases r <;> first | exact absurd rfl hr | decide
    rw [← hu, Cpu.set_reg_of_ne hr, hregs.reg r hr, if_pos hmem]
  have hseg : ∀ g, g ≠ .cs → g ≠ .ss → u.seg g = frameSeg f g := by
    intro g hcs hss
    have hpop : g ∈ gs := by cases g <;> first | contradiction | decide
    rw [← hu, Cpu.set_seg, hregs.seg, hsegs.seg, if_pos hpop]
    cases g <;> first | rfl | contradiction
  have hmem : u.mem = t.mem := by
    rw [← hu, Cpu.set_mem, hregs.mem, hsegs.mem]
  refine ⟨husp.trans hrsp, ?_⟩
  rw [iretq_eq hframe, frameCpu, hmem, Cpu.mk.injEq]
  refine ⟨funext fun r => ?_, funext fun g => ?_, rfl, rfl, rfl⟩
  · by_cases hr : r = .rsp
    · rw [hr, Function.update_self, frameReg]
    · rw [Function.update_of_ne hr, hreg r hr]
  · by_cases hss : g = .ss
    · rw [hss, Function.update_self, frameSeg]
    · rw [Function.update_of_ne hss]
      by_cases hcs : g = .cs
      · rw [hcs, Function.update_self, frameSeg]
      · rw [Function.update_of_ne hcs, hseg g hcs hss]

/-! ### Entry -/

/-- The words the entry point `irq<v>` pushes. -/
def irqEntryWords (v : ℕ) : List (BitVec 64) :=
  if hasErrorStub v then [BitVec.ofNat 64 v] else [0, BitVec.ofNat 64 v]

/-- The code only pushes, but for `rax` at the end. -/
theorem pushed_irqStubSave (s : Cpu) (v : ℕ) :
    Pushed [.rax] s (irqEntryWords v ++ irqSaved.map s.reg ++
      irqSavedSegs.map fun g => (s.seg g).setWidth 64) (execAll s (irqEntry v ++ irqStubSave)) := by
  have hcli : ∀ u, Pushed [] u [] (exec u .cli) := fun u =>
    pushed_nil (fun r _ => rfl) List.not_mem_nil rfl rfl rfl
  have hentry : Pushed [] s (irqEntryWords v) (execAll s (irqEntry v)) := by
    rw [irqEntry, irqEntryWords]
    split
    · exact (hcli s).trans (pushed_push [] _ _)
    · exact ((hcli s).trans (pushed_push [] _ _)).trans (pushed_push [] _ _)
  have hpre := hentry.trans (hcli _)
  rw [List.append_nil] at hpre
  generalize hu : exec (execAll s (irqEntry v)) .cli = u at hpre
  have hregs := hpre.trans (exec_pushes [] irqSaved (by decide))
  have hmap : irqSaved.map u.reg = irqSaved.map s.reg := List.map_congr_left fun r hr =>
    hpre.reg r List.not_mem_nil (ne_of_mem_of_not_mem hr (by decide))
  generalize hu' : execAll u (irqSaved.map .push) = u' at hregs
  have hsegs := (hregs.mono (List.nil_subset [.rax])).trans (exec_pushSegs irqSavedSegs
    (List.mem_singleton_self Reg.rax) (by decide))
  rw [hregs.seg, hmap] at hsegs
  have hcode : execAll s (irqEntry v ++ irqStubSave)
      = execAll u' (irqSavedSegs.flatMap fun g => [.movFromSeg g .rax, .push .rax]) := by
    rw [execAll_append, irqStubSave, List.cons_append, execAll_cons, execAll_append, hu, hu']
  rw [hcode]
  exact hsegs

/-- The frame of an interrupt, as the code lays it out. -/
def pushedRegs (s : Cpu) (v : ℕ) (resume : Bool) (error : BitVec 64) : ProcessContext :=
  { interruptedRegs s v error with
    rflags := savedFlags resume s
    ds := (s.seg .gs).setWidth 64
    es := (s.seg .fs).setWidth 64
    fs := (s.seg .es).setWidth 64
    gs := (s.seg .ds).setWidth 64 }

/-- What is on the stack when `irq_stub` has saved the registers. -/
theorem stack_irqStubSave (tss : StackTable) (gate : Gate) (resume : Bool)
    (error : Option (BitVec 64)) (s : Cpu) (v : ℕ) :
    Stack (execAll (interrupt tss gate resume error s) (irqEntry v ++ irqStubSave))
      ((irqEntryWords v ++ irqSaved.map s.reg ++
        irqSavedSegs.map fun g => (s.seg g).setWidth 64).reverse ++ (error.toList ++
          [s.rip, (s.seg .cs).setWidth 64, savedFlags resume s, s.reg .rsp,
            (s.seg .ss).setWidth 64])) := by
  have hregs : irqSaved.map (interrupt tss gate resume error s).reg = irqSaved.map s.reg :=
    List.map_congr_left fun r hr => interrupt_reg (ne_of_mem_of_not_mem hr (by decide))
  have hsegs : irqSavedSegs.map (fun g => ((interrupt tss gate resume error s).seg g).setWidth 64)
      = irqSavedSegs.map fun g => (s.seg g).setWidth 64 :=
    List.map_congr_left fun g hg => congrArg (BitVec.setWidth 64) (interrupt_seg
      (ne_of_mem_of_not_mem hg (by decide)) (ne_of_mem_of_not_mem hg (by decide)))
  have hpush := pushed_irqStubSave (interrupt tss gate resume error s) v
  rw [hregs, hsegs] at hpush
  refine hpush.stack _ ?_ (stack_interrupt tss gate resume error s)
  have herror : error.toList.length ≤ 1 := by cases error <;> simp
  have hentry : (irqEntryWords v).length ≤ 2 := by
    rw [irqEntryWords]
    split <;> simp
  simp only [List.length_append, List.length_map, List.length_cons, List.length_nil, irqSaved,
    irqSavedSegs]
  omega

/-- **The frame the entry builds**, if the processor pushes an error code exactly when the entry
point leaves room for one. -/
theorem stack_pushedRegs (tss : StackTable) (gate : Gate) (resume : Bool)
    {error : Option (BitVec 64)} (s : Cpu) (h : error.isSome = hasErrorStub v) :
    Stack (execAll (interrupt tss gate resume error s) (irqEntry v ++ irqStubSave))
      (pushedRegs s v resume (error.getD 0)).toWords := by
  have hst := stack_irqStubSave tss gate resume error s v
  rw [irqEntryWords, ← h] at hst
  cases error with
  | none => exact hst
  | some error => exact hst

/-- The call passes the address of the frame, and the return address lies below it. -/
theorem irqStubCall_spec (irqHandler ret : BitVec 64) (u : Cpu) :
    ∃ e, (execAll u (irqStubCall irqHandler)).push ret = e ∧ e.reg .rdi = u.reg .rsp ∧
      e.reg .rsp = u.reg .rsp - 8 ∧
      ∀ x, (x - u.reg .rsp).toNat + 8 < 2 ^ 64 → e.mem x = u.mem x := by
  have hrsp : (execAll u (irqStubCall irqHandler)).reg .rsp = u.reg .rsp := by
    simp [irqStubCall, exec, Cpu.set_reg_of_ne]
  have hrdi : (execAll u (irqStubCall irqHandler)).reg .rdi = u.reg .rsp := by
    simp [irqStubCall, exec, Cpu.set_reg_of_ne]
  have hmem : (execAll u (irqStubCall irqHandler)).mem = u.mem := by
    simp [irqStubCall, exec]
  have hcall := pushed_push [] (execAll u (irqStubCall irqHandler)) ret
  refine ⟨_, rfl, ?_, ?_, fun x hx => ?_⟩
  · rw [hcall.reg .rdi List.not_mem_nil (by decide), hrdi]
  · rw [Cpu.push_rsp, hrsp]
  · rw [hcall.above x (by rw [hrsp, List.length_singleton]; omega), hmem]

/-! ### The frame and the registers -/

/-- A register that a frame was made from is what the frame stands for, but for `RF`. -/
theorem frameCpu_pushedRegs (s : Cpu) (v : ℕ) (resume : Bool) (error : BitVec 64) (m : Memory) :
    frameCpu (pushedRegs s v resume error) m
      = { s with rflags := savedFlags resume s, mem := m } := by
  have hseg : ∀ g, ((s.seg g).setWidth 64).setWidth 16 = s.seg g := fun g => by simp
  rw [frameCpu, Cpu.mk.injEq]
  refine ⟨funext fun r => ?_, funext fun g => ?_, rfl, rfl, rfl⟩
  · cases r <;> rfl
  · cases g <;> exact hseg _

/-- The structure has the registers in the fields named after them exactly if the segment registers
that trade places are equal, and `RF` is set already where the processor sets it. -/
theorem pushedRegs_eq_iff {resume : Bool} {error : BitVec 64} :
    pushedRegs s v resume error = interruptedRegs s v error ↔
      (s.seg .ds = s.seg .gs ∧ s.seg .es = s.seg .fs) ∧
        (resume = true → s.rflags.getLsbD 16 = true) := by
  have hinj : ∀ {a b : BitVec 16}, a.setWidth 64 = b.setWidth 64 → a = b := fun h => by
    simpa using congrArg (BitVec.setWidth 16) h
  constructor
  · intro h
    have hgs : (pushedRegs s v resume error).gs = (interruptedRegs s v error).gs := by rw [h]
    have hfs : (pushedRegs s v resume error).fs = (interruptedRegs s v error).fs := by rw [h]
    have hflags : (pushedRegs s v resume error).rflags = (interruptedRegs s v error).rflags := by
      rw [h]
    exact ⟨⟨hinj hgs, hinj hfs⟩, savedFlags_eq_iff.mp hflags⟩
  · rintro ⟨⟨hds, hes⟩, hflags⟩
    rw [pushedRegs, savedFlags_eq_iff.mpr hflags, interruptedRegs, hds, hes]

/-- Where `iretq` finds the stack pointer, whatever is on the stack. -/
theorem irqStubExit_rsp (t : Cpu) : (execAll t irqStubExit).reg .rsp = t.reg .rsp + 168 :=
  (iretq_irqStubExit (f := regsAt t.mem (t.reg .rsp)) (words_eq_regsAt.mpr rfl)).1

/-! ### Entry and exit together -/

/-- Entry and exit move the stack pointer by the same distance if the processor pushes an error code
exactly when the entry point leaves room for one. -/
theorem irqStubSave_rsp_iff (tss : StackTable) (gate : Gate) (resume : Bool)
    (error : Option (BitVec 64)) (s : Cpu) (v : ℕ) :
    (execAll (interrupt tss gate resume error s) (irqEntry v ++ irqStubSave)).reg .rsp + 168
        = interruptStack tss gate s - 40 ↔ error.isSome = hasErrorStub v := by
  rw [(pushed_irqStubSave _ v).rsp, interrupt_rsp, List.length_append, List.length_append,
    List.length_map, List.length_map, irqEntryWords]
  generalize interruptStack tss gate s = sp
  cases error with
  | none =>
    cases hasErrorStub v with
    | false =>
      refine iff_of_true ?_ rfl
      change sp - 40 - 8 * BitVec.ofNat 64 0 - 8 * BitVec.ofNat 64 21 + 168 = sp - 40
      bv_omega
    | true =>
      refine iff_of_false (fun h => ?_) Bool.false_ne_true
      change sp - 40 - 8 * BitVec.ofNat 64 0 - 8 * BitVec.ofNat 64 20 + 168 = sp - 40 at h
      bv_omega
  | some error =>
    cases hasErrorStub v with
    | false =>
      refine iff_of_false (fun h => ?_) Bool.false_ne_true.symm
      change sp - 40 - 8 * BitVec.ofNat 64 1 - 8 * BitVec.ofNat 64 21 + 168 = sp - 40 at h
      bv_omega
    | true =>
      refine iff_of_true ?_ rfl
      change sp - 40 - 8 * BitVec.ofNat 64 1 - 8 * BitVec.ofNat 64 20 + 168 = sp - 40
      bv_omega

/-- The call of `irq_handler`: the structure it is passed, and where its return leads. -/
theorem enterIrqHandler_spec (tss : StackTable) (gate : Gate) (resume : Bool)
    (error : Option (BitVec 64)) (irqHandler ret : BitVec 64) (v : ℕ) (s : Cpu) :
    ∃ e, enterIrqHandler v irqHandler ret (interrupt tss gate resume error s) = e ∧
      (e.reg .rsp + 8 + 168 = interruptStack tss gate s - 40 ↔ error.isSome = hasErrorStub v) ∧
      e.reg .rdi = e.reg .rsp + 8 ∧
      (error.isSome = hasErrorStub v →
        regsAt e.mem (e.reg .rdi) = pushedRegs s v resume (error.getD 0)) := by
  obtain ⟨e, he, hrdi, hersp, hmem⟩ := irqStubCall_spec irqHandler ret
    (execAll (interrupt tss gate resume error s) (irqEntry v ++ irqStubSave))
  have henter : enterIrqHandler v irqHandler ret (interrupt tss gate resume error s) = e := by
    rw [enterIrqHandler, execAll_append, he]
  have hrsp := irqStubSave_rsp_iff tss gate resume error s v
  have hstack : error.isSome = hasErrorStub v → _ := stack_pushedRegs tss gate resume s
  generalize execAll (interrupt tss gate resume error s) (irqEntry v ++ irqStubSave) = u
    at hrdi hersp hmem hrsp hstack
  have hback : e.reg .rsp + 8 = u.reg .rsp := by
    rw [hersp]
    bv_omega
  refine ⟨e, henter, by rw [hback]; exact hrsp, hrdi.trans hback.symm, fun hmatch => ?_⟩
  have hwords : words e.mem (u.reg .rsp) 26 = words u.mem (u.reg .rsp) 26 :=
    words_congr (by decide) fun x hx => hmem x (by omega)
  rw [hrdi, ← words_eq_regsAt, hwords]
  exact hstack hmatch

/-- Memory above the frame is what it was. -/
theorem mem_enterIrqHandler (tss : StackTable) (gate : Gate) (resume : Bool)
    (error : Option (BitVec 64)) (irqHandler ret : BitVec 64) (v : ℕ) (s : Cpu) {x : BitVec 64}
    (h : (x - interruptStack tss gate s).toNat + 224 < 2 ^ 64) :
    (enterIrqHandler v irqHandler ret (interrupt tss gate resume error s)).mem x = s.mem x := by
  have herror : error.toList.length ≤ 1 := by cases error <;> simp
  have hwords : (interruptWords resume error s).length = 5 + error.toList.length := by
    cases error <;> rfl
  have hentry : (irqEntryWords v).length ≤ 2 := by
    rw [irqEntryWords]
    split <;> simp
  have hdeliver : (interrupt tss gate resume error s).mem x = s.mem x := by
    have habove := (pushed_interrupt tss gate resume error s).above x
    rw [Cpu.set_reg_self, hwords] at habove
    rw [interrupt]
    exact habove (by omega)
  have hstub := pushed_irqStubSave (interrupt tss gate resume error s) v
  have hlen : (irqEntryWords v ++ irqSaved.map (interrupt tss gate resume error s).reg ++
      irqSavedSegs.map fun g => ((interrupt tss gate resume error s).seg g).setWidth 64).length
        = (irqEntryWords v).length + 19 := by
    simp [irqSaved, irqSavedSegs]
  have hrsp : (interrupt tss gate resume error s).reg .rsp
      = interruptStack tss gate s - 40 - 8 * BitVec.ofNat 64 error.toList.length := interrupt_rsp
  have hstubrsp := hstub.rsp
  have hsave := hstub.above x
  rw [hlen] at hstubrsp hsave
  obtain ⟨e, he, -, -, hcall⟩ := irqStubCall_spec irqHandler ret
    (execAll (interrupt tss gate resume error s) (irqEntry v ++ irqStubSave))
  rw [enterIrqHandler, execAll_append, he, hcall x (by bv_omega), hsave (by bv_omega), hdeliver]

/-- What it takes for entry and exit to be as expected. -/
theorem InterruptExact.matches {tss : StackTable} {irqHandler ret : BitVec 64} (hv : v ≤ 48)
    (h : InterruptExact tss irqTable irqHandler ret v cause s) :
    (cause.errorCode v).isSome = hasErrorStub v ∧
      (s.seg .ds = s.seg .gs ∧ s.seg .es = s.seg .fs) ∧
        (cause.setsResume v = true → s.rflags.getLsbD 16 = true) := by
  obtain ⟨d, hd, -, hregs, hexit⟩ := h
  rw [deliver_setupIdt tss (Nat.lt_succ_of_le hv) cause s] at hd
  obtain rfl := Option.some.inj hd
  obtain ⟨e, he, hrsp, -, hframe⟩ := enterIrqHandler_spec tss (setupIdt irqTable v).gate
    (cause.setsResume v) (cause.errorCode v) irqHandler ret v s
  rw [he] at hregs hexit
  -- a handler that only returns shows where the exit path leaves the stack pointer
  have hmatch : (cause.errorCode v).isSome = hasErrorStub v := by
    have hback := (hexit e.drop (Cpu.set_reg_self ..) rfl).1
    rw [irqStubExit_rsp, Cpu.drop, Cpu.set_reg_self] at hback
    exact hrsp.mp hback
  rw [hframe hmatch] at hregs
  exact ⟨hmatch, pushedRegs_eq_iff.mp hregs⟩

/-- **Entry and exit agree with `struct regs` exactly when the processor pushes an error code for
the vectors that have the entry point for it, `ds` equals `gs` and `es` equals `fs`, and `RF` is set
already if the processor sets it in the flags it saves.** -/
theorem interruptExact_iff (tss : StackTable) (irqTable : ℕ → BitVec 64)
    (irqHandler ret : BitVec 64) (v : ℕ) (hv : v ≤ 48) (cause : Cause) (s : Cpu) :
    InterruptExact tss irqTable irqHandler ret v cause s ↔
      (cause.errorCode v).isSome = hasErrorStub v ∧
        (s.seg .ds = s.seg .gs ∧ s.seg .es = s.seg .fs) ∧
          (cause.setsResume v = true → s.rflags.getLsbD 16 = true) := by
  constructor
  · exact InterruptExact.matches hv
  · rintro ⟨hmatch, hregs⟩
    have hlt : v < 49 := Nat.lt_succ_of_le hv
    obtain ⟨e, he, hrsp, hrdi, hframe⟩ := enterIrqHandler_spec tss (setupIdt irqTable v).gate
      (cause.setsResume v) (cause.errorCode v) irqHandler ret v s
    refine ⟨_, deliver_setupIdt tss hlt cause s, by rw [interrupt, gate_setupIdt irqTable hlt], ?_⟩
    rw [he]
    refine ⟨(hframe hmatch).trans (pushedRegs_eq_iff.mpr hregs), ?_⟩
    intro t ht hwords
    have hst : Stack t
        (pushedRegs s v (cause.setsResume v) ((cause.errorCode v).getD 0)).toWords := by
      have h := hwords.trans (words_eq_regsAt.mpr (hframe hmatch))
      rwa [hrdi, ← ht] at h
    obtain ⟨hexit, hiretq⟩ := iretq_irqStubExit hst
    rw [hexit, hiretq, ht, hrsp.mpr hmatch]
    refine ⟨rfl, (frameCpu_pushedRegs s v _ _ t.mem).trans ?_⟩
    rw [savedFlags_eq_iff.mpr hregs.2]

/-- A processor in user mode with a given `ds`, the other data segment registers being null. -/
def userCpu (ds : BitVec 16) : Cpu where
  reg r := if r = .rsp then 0x500000 else 0
  seg g := match g with
    | .cs => 0x2b
    | .ss => 0x23
    | .ds => ds
    | .es | .fs | .gs => 0
  rip := 0x401000
  rflags := 0x202
  mem _ := 0

/-- The theorem at a timer interrupt, and at the second page fault of one instruction. -/
theorem interruptExact_iff_null :
    InterruptExact ⟨0xF0000, fun _ => 0⟩ (fun _ => 0x200000) 0x201000 0x202000 32 (.irq false)
        (userCpu 0) ∧
      InterruptExact ⟨0xF0000, fun _ => 0⟩ (fun _ => 0x200000) 0x201000 0x202000 14
        (.exception 4 false) { userCpu 0 with rflags := 0x10202 } :=
  ⟨(interruptExact_iff _ _ _ _ 32 (by decide) _ _).mpr ⟨rfl, ⟨rfl, rfl⟩, by decide⟩,
    (interruptExact_iff _ _ _ _ 14 (by decide) _ _).mpr ⟨rfl, ⟨rfl, rfl⟩, by decide⟩⟩

/-- **A timer interrupt of a program that has loaded `ds` fills in the wrong field; and after an
alignment check, or after `int 8`, the return finds the stack pointer in the wrong place.** -/
theorem not_interruptExact :
    ¬ InterruptExact ⟨0xF0000, fun _ => 0⟩ (fun _ => 0x200000) 0x201000 0x202000 32 (.irq false)
        (userCpu 0x23) ∧
      ¬ InterruptExact ⟨0xF0000, fun _ => 0⟩ (fun _ => 0x200000) 0x201000 0x202000 17
        (.exception 0 false) (userCpu 0) ∧
      ¬ InterruptExact ⟨0xF0000, fun _ => 0⟩ (fun _ => 0x200000) 0x201000 0x202000 8 .software
        (userCpu 0) := by
  refine ⟨fun h => ?_, fun h => ?_, fun h => ?_⟩
  · exact absurd (h.matches (by decide)).2.1.1 (by decide)
  · exact absurd (h.matches (by decide)).1 (by decide)
  · exact absurd (h.matches (by decide)).1 (by decide)

end FrogOS
