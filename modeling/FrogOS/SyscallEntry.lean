import FrogOS.Lib.X86

/-!
# The way into a system call

Four layers have to agree on where the arguments of a system call are: the wrappers of
`lib/syscall.c`, which place them in registers, the `syscall` instruction, the pushes of
`syscall_handler` in `asm.S`, and `struct syscall_state`, which `ksyscall` reads what was pushed
through.

A wrapper is an `asm` statement with the arguments as inputs, so what it says about the machine is
which registers hold them when `syscall` is executed. Everything else is arbitrary there.

## Main definitions

* `WrapperCall`, `WrapperCall.inputs` — the wrappers and their register constraints
* `syscallHandlerEntry`, `enterSyscall` — the code from `syscall` to the call of `ksyscall`
* `SyscallState`, `syscallStateAt` — what `ksyscall` is passed

## Main results

* `syscallStateAt_enterSyscall` — which register each field comes from
* `argumentsReach_iff` — the arguments arrive unless the fourth one is not the return address
-/

namespace FrogOS

open X86 Memory

/-- `struct syscall_state`. -/
structure SyscallState where
  rax : BitVec 64
  rbp : BitVec 64
  rbx : BitVec 64
  r11 : BitVec 64
  r10 : BitVec 64
  r9 : BitVec 64
  r8 : BitVec 64
  rcx : BitVec 64
  rdx : BitVec 64
  rsi : BitVec 64
  rdi : BitVec 64
  deriving DecidableEq

/-- The structure at address `p`. It is packed, so each field is a word further on. -/
def syscallStateAt (m : Memory) (p : BitVec 64) : SyscallState :=
  ⟨load m p, load m (p + 8), load m (p + 16), load m (p + 24), load m (p + 32), load m (p + 40),
    load m (p + 48), load m (p + 56), load m (p + 64), load m (p + 72), load m (p + 80)⟩

def SyscallState.toWords (st : SyscallState) : List (BitVec 64) :=
  [st.rax, st.rbp, st.rbx, st.r11, st.r10, st.r9, st.r8, st.rcx, st.rdx, st.rsi, st.rdi]

/-- The registers `syscall_handler` saves, in the order in which it pushes them. -/
def syscallSaved : List Reg := [.rdi, .rsi, .rdx, .rcx, .r8, .r9, .r10, .r11, .rbx, .rbp, .rax]

/-- `syscall_handler` up to the call of `ksyscall`. -/
def syscallHandlerEntry : List Instr := syscallSaved.map .push ++ [.mov .rsp .rdi, .sti]

/-- The processor when `ksyscall` starts: `syscall` is executed, then the entry code, and the call
pushes `ret`. -/
def enterSyscall (msrs : Msrs) (ret : BitVec 64) (s : Cpu) : Cpu :=
  (execAll (syscall msrs s) syscallHandlerEntry).push ret

/-- The structure `ksyscall` is passed, its address being in `rdi`. -/
def passedState (s : Cpu) : SyscallState := syscallStateAt s.mem (s.reg .rdi)

/-! ### The wrappers -/

/-- What an `asm` statement is given: registers, and the values they hold when it starts. -/
abbrev Inputs : Type := List (Reg × BitVec 64)

def syscall0 (rax : BitVec 64) : Inputs := [(.rax, rax)]

def syscall1 (rax rdi : BitVec 64) : Inputs := [(.rax, rax), (.rdi, rdi)]

def syscall2 (rax rdi rsi : BitVec 64) : Inputs := [(.rax, rax), (.rdi, rdi), (.rsi, rsi)]

def syscall3 (rax rdi rsi rdx : BitVec 64) : Inputs :=
  [(.rax, rax), (.rdi, rdi), (.rsi, rsi), (.rdx, rdx)]

def syscall4 (rax rdi rsi rdx rcx : BitVec 64) : Inputs :=
  [(.rax, rax), (.rdi, rdi), (.rsi, rsi), (.rdx, rdx), (.rcx, rcx)]

/-- A call of one of the wrappers. -/
inductive WrapperCall
  | syscall0 (rax : BitVec 64)
  | syscall1 (rax rdi : BitVec 64)
  | syscall2 (rax rdi rsi : BitVec 64)
  | syscall3 (rax rdi rsi rdx : BitVec 64)
  | syscall4 (rax rdi rsi rdx rcx : BitVec 64)

namespace WrapperCall

def inputs : WrapperCall → Inputs
  | syscall0 rax => FrogOS.syscall0 rax
  | syscall1 rax rdi => FrogOS.syscall1 rax rdi
  | syscall2 rax rdi rsi => FrogOS.syscall2 rax rdi rsi
  | syscall3 rax rdi rsi rdx => FrogOS.syscall3 rax rdi rsi rdx
  | syscall4 rax rdi rsi rdx rcx => FrogOS.syscall4 rax rdi rsi rdx rcx

/-- The processor is about to execute `syscall` in this call. -/
def Placed (call : WrapperCall) (s : Cpu) : Prop := ∀ i ∈ call.inputs, s.reg i.1 = i.2

/-- The structure holds the number and the arguments, each in the field of its register. -/
def Reaches (call : WrapperCall) (st : SyscallState) : Prop :=
  match call with
  | syscall0 rax => st.rax = rax
  | syscall1 rax rdi => st.rax = rax ∧ st.rdi = rdi
  | syscall2 rax rdi rsi => st.rax = rax ∧ st.rdi = rdi ∧ st.rsi = rsi
  | syscall3 rax rdi rsi rdx => st.rax = rax ∧ st.rdi = rdi ∧ st.rsi = rsi ∧ st.rdx = rdx
  | syscall4 rax rdi rsi rdx rcx =>
    st.rax = rax ∧ st.rdi = rdi ∧ st.rsi = rsi ∧ st.rdx = rdx ∧ st.rcx = rcx

end WrapperCall

/-! ### The frame -/

variable {s : Cpu}

/-- The fields are consecutive words. -/
theorem words_eq_toWords_iff {m : Memory} {p : BitVec 64} {st : SyscallState} :
    words m p 11 = st.toWords ↔ syscallStateAt m p = st := by
  cases st
  simp only [SyscallState.toWords, words, BitVec.add_assoc, BitVec.reduceAdd, List.cons.injEq,
    and_true, syscallStateAt, SyscallState.mk.injEq]
  exact Iff.rfl

/-- The registers, in the fields named after them. -/
def savedState (s : Cpu) : SyscallState :=
  ⟨s.reg .rax, s.reg .rbp, s.reg .rbx, s.reg .r11, s.reg .r10, s.reg .r9, s.reg .r8, s.reg .rcx,
    s.reg .rdx, s.reg .rsi, s.reg .rdi⟩

/-- `struct syscall_state` lists the registers in the opposite order of the pushes. -/
theorem toWords_savedState (s : Cpu) :
    (savedState s).toWords = (syscallSaved.map s.reg).reverse := rfl

/-- The pushes of `syscall_handler` build a `struct syscall_state`. -/
theorem stack_savedState (s : Cpu) :
    Stack (execAll s (syscallSaved.map .push)) (savedState s).toWords := by
  have h := (exec_pushes (s := s) [] syscallSaved (by decide)).stack []
    (by rw [List.length_map, List.length_nil]; decide) (stack_nil s)
  rwa [List.append_nil, ← toWords_savedState] at h

/-- The entry code moves the stack pointer down and passes it in `rdi`. -/
theorem syscallHandlerEntry_reg (s : Cpu) :
    (execAll s syscallHandlerEntry).reg .rsp = s.reg .rsp - 88 ∧
      (execAll s syscallHandlerEntry).reg .rdi = s.reg .rsp - 88 ∧
      ∀ r, r ≠ .rsp → r ≠ .rdi → (execAll s syscallHandlerEntry).reg r = s.reg r := by
  have hpush := exec_pushes (s := s) [] syscallSaved (by decide)
  have hrsp : (execAll s (syscallSaved.map .push)).reg .rsp = s.reg .rsp - 88 := by
    rw [hpush.rsp]
    rfl
  rw [syscallHandlerEntry, execAll_append]
  generalize execAll s (syscallSaved.map .push) = u at hpush hrsp
  refine ⟨?_, ?_, fun r hr hdi => ?_⟩
  · rw [← hrsp]
    exact Function.update_of_ne (by decide : Reg.rsp ≠ Reg.rdi) (u.reg .rsp) u.reg
  · rw [← hrsp]
    exact Function.update_self Reg.rdi _ u.reg
  · rw [← hpush.reg r List.not_mem_nil hr]
    exact Function.update_of_ne hdi (u.reg .rsp) u.reg

/-- `ksyscall` is passed the address of the frame, and the frame holds the registers. -/
theorem syscallStateAt_enterSyscall (msrs : Msrs) (ret : BitVec 64) (s : Cpu) :
    (enterSyscall msrs ret s).reg .rdi = s.reg .rsp - 88 ∧
      syscallStateAt (enterSyscall msrs ret s).mem (s.reg .rsp - 88)
        = { savedState s with r11 := s.rflags, rcx := s.rip } := by
  have hreg := syscall_reg msrs s
  have hst : savedState (syscall msrs s) = { savedState s with r11 := s.rflags, rcx := s.rip } := by
    simp only [savedState, hreg, reduceCtorEq, if_false, if_true]
  have hstack := stack_savedState (syscall msrs s)
  obtain ⟨hrsp, hrdi, -⟩ := syscallHandlerEntry_reg (syscall msrs s)
  have hmem : (execAll (syscall msrs s) syscallHandlerEntry).mem
      = (execAll (syscall msrs s) (syscallSaved.map .push)).mem := by
    rw [syscallHandlerEntry, execAll_append]
    rfl
  have hsp : (execAll (syscall msrs s) (syscallSaved.map .push)).reg .rsp = s.reg .rsp - 88 := by
    rw [(exec_pushes [] syscallSaved (by decide)).rsp, hreg]
    rfl
  rw [hreg] at hrsp hrdi
  rw [Stack, hsp, hst, ← hmem] at hstack
  have hcall := pushed_push [] (execAll (syscall msrs s) syscallHandlerEntry) ret
  constructor
  · rw [enterSyscall, hcall.reg .rdi List.not_mem_nil (by decide), hrdi]
    rfl
  · -- the return address lies below the frame
    rw [← words_eq_toWords_iff]
    refine Eq.trans (words_congr (by decide) fun x hx => ?_) hstack
    refine hcall.above x ?_
    rw [hrsp, List.length_singleton]
    exact Nat.lt_of_lt_of_le (Nat.add_lt_add_right hx 8) (by decide)

/-! ### The arguments -/

/-- **The number and the arguments reach `ksyscall` exactly if the call has no fourth argument, or
that argument is the return address of `syscall`.** -/
theorem argumentsReach_iff (msrs : Msrs) (ret : BitVec 64) (call : WrapperCall) (s : Cpu)
    (h : call.Placed s) :
    call.Reaches (passedState (enterSyscall msrs ret s)) ↔
      ∀ rax rdi rsi rdx rcx, call = .syscall4 rax rdi rsi rdx rcx → rcx = s.rip := by
  obtain ⟨hrdi, hframe⟩ := syscallStateAt_enterSyscall msrs ret s
  rw [passedState, hrdi, hframe]
  cases call with
  | syscall0 rax =>
    obtain ⟨hrax, -⟩ := List.forall_mem_cons.mp h
    exact ⟨fun _ _ _ _ _ _ hc => WrapperCall.noConfusion hc, fun _ => hrax⟩
  | syscall1 rax rdi =>
    simp only [WrapperCall.Placed, WrapperCall.inputs, syscall1, List.forall_mem_cons] at h
    obtain ⟨hrax, hrdi, -⟩ := h
    exact ⟨fun _ _ _ _ _ _ hc => WrapperCall.noConfusion hc, fun _ => ⟨hrax, hrdi⟩⟩
  | syscall2 rax rdi rsi =>
    simp only [WrapperCall.Placed, WrapperCall.inputs, syscall2, List.forall_mem_cons] at h
    obtain ⟨hrax, hrdi, hrsi, -⟩ := h
    exact ⟨fun _ _ _ _ _ _ hc => WrapperCall.noConfusion hc, fun _ => ⟨hrax, hrdi, hrsi⟩⟩
  | syscall3 rax rdi rsi rdx =>
    simp only [WrapperCall.Placed, WrapperCall.inputs, syscall3, List.forall_mem_cons] at h
    obtain ⟨hrax, hrdi, hrsi, hrdx, -⟩ := h
    exact ⟨fun _ _ _ _ _ _ hc => WrapperCall.noConfusion hc, fun _ => ⟨hrax, hrdi, hrsi, hrdx⟩⟩
  | syscall4 rax rdi rsi rdx rcx =>
    simp only [WrapperCall.Placed, WrapperCall.inputs, syscall4, List.forall_mem_cons] at h
    obtain ⟨hrax, hrdi, hrsi, hrdx, -⟩ := h
    constructor
    · rintro ⟨-, -, -, -, hrcx⟩ _ _ _ _ _ hc
      obtain ⟨-, -, -, -, rfl⟩ := WrapperCall.syscall4.inj hc
      exact hrcx.symm
    · intro hrip
      exact ⟨hrax, hrdi, hrsi, hrdx, (hrip rax rdi rsi rdx rcx rfl).symm⟩

/-- A processor on which the wrapper `syscall4` has placed its arguments: the return address is
`0x401000`. -/
def placedCpu (rax rdi rsi rdx rcx : BitVec 64) : Cpu where
  reg r := match r with
    | .rax => rax
    | .rdi => rdi
    | .rsi => rsi
    | .rdx => rdx
    | .rcx => rcx
    | .rsp => 0x500000
    | _ => 0
  seg _ := 0
  rip := 0x401000
  rflags := 0x202
  mem _ := 0

theorem placed_placedCpu (rax rdi rsi rdx rcx : BitVec 64) :
    (WrapperCall.syscall4 rax rdi rsi rdx rcx).Placed (placedCpu rax rdi rsi rdx rcx) := by
  simp [WrapperCall.Placed, WrapperCall.inputs, syscall4, placedCpu]

/-- The theorem at a call with four arguments. -/
theorem argumentsReach_iff_syscall4 :
    (WrapperCall.syscall4 5 1 2 3 4).Reaches
        (passedState (enterSyscall ⟨0, 0, 0⟩ 0 (placedCpu 5 1 2 3 4))) ↔
      ∀ rax rdi rsi rdx rcx, WrapperCall.syscall4 5 1 2 3 4 = .syscall4 rax rdi rsi rdx rcx →
        rcx = (placedCpu 5 1 2 3 4).rip :=
  argumentsReach_iff ⟨0, 0, 0⟩ 0 _ _ (placed_placedCpu 5 1 2 3 4)

/-- **The fourth argument of `syscall4` is lost**: `ksyscall` finds the return address instead. -/
theorem not_argumentsReach_syscall4 :
    (passedState (enterSyscall ⟨0, 0, 0⟩ 0 (placedCpu 5 1 2 3 4))).rcx = 0x401000 ∧
      ¬ (WrapperCall.syscall4 5 1 2 3 4).Reaches
        (passedState (enterSyscall ⟨0, 0, 0⟩ 0 (placedCpu 5 1 2 3 4))) := by
  obtain ⟨hrdi, hframe⟩ := syscallStateAt_enterSyscall ⟨0, 0, 0⟩ 0 (placedCpu 5 1 2 3 4)
  have hrcx : (passedState (enterSyscall ⟨0, 0, 0⟩ 0 (placedCpu 5 1 2 3 4))).rcx = 0x401000 := by
    rw [passedState, hrdi, hframe]
    rfl
  refine ⟨hrcx, ?_⟩
  rintro ⟨-, -, -, -, h⟩
  exact absurd (hrcx.symm.trans h) (by decide)

end FrogOS
