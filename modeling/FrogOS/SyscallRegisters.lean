import FrogOS.SyscallMachine
import FrogOS.Scheduler

/-!
# What a system call changes

The wrappers of `lib/syscall.c` tell the compiler that a system call changes `rax` only. The frame
`syscall_handler` pushes is popped again, so what counts is which fields of it `ksyscall` writes:
`state->rax`, and in `SYSCALL_SLEEP` `state->rdi`, which it rounds to ticks in place.

The invariant says where the registers of the caller are. In `syscall_handler` they are those of a
processor that executes the same instructions undisturbed; in `ksyscall` they are in the structure,
and in the registers the calling convention protects.

## Main definitions

* `SystemCall.Inv` — the invariant
* `RegistersKept` — what the wrappers rely on

## Main results

* `SystemCall.Inv.step` — every step keeps the invariant
* `registersKept_iff` — which calls change no register but `rax`
-/

namespace FrogOS

open X86 Memory ContextMemory Kernel StepSystem

variable {M : Type} [ContextMemory M ProcessContext]

namespace SystemCall

variable (c : SystemCall) {m : ℕ} {s t : CallMachine M}

/-! ### The invariant -/

/-- What `ksyscall` is passed. -/
def passed : SyscallState :=
  { savedState c.before with
    r11 := c.before.rflags
    rcx := c.before.rip }

/-- The structure after the rounding of `SYSCALL_SLEEP`. -/
def rounded : SyscallState := { c.passed with rdi := (c.passed.rdi + 9) / 10 }

/-- The structure before a statement of `ksyscall`. -/
def StateAt (pc : KsyscallPc) (st : SyscallState) : Prop :=
  match pc with
  | .switch => st = c.passed
  | .sleepStart | .sleepRound _ => c.passed.rax = 1 ∧ st = c.passed
  | .sleepCheck _ | .sleepLoop _ _ | .sleepReturn _ => c.passed.rax = 1 ∧ st = c.rounded
  | .getpid | .yield _ => c.passed.rax ≠ 1 ∧ st = c.passed
  | .done => ∃ rax, st = { if c.passed.rax = 1 then c.rounded else c.passed with rax := rax }

/-- The registers and the stack of the caller. In `syscall_handler` they are those of a processor
that has executed the same instructions undisturbed. -/
def At (pc : CallPc) (u : Cpu) : Prop :=
  u.cpl = 0 ∧
    match pc with
    | .entry code => ∃ done, done ++ code = syscallHandlerEntry ∧
        SameStack c.bound (execAll (syscall c.msrs c.before) done) u ∧
        (c.bound - u.reg .rsp).toNat + 8 * code.length ≤ 104
    | .ksyscall called pc => (∀ r ∈ calleeSaved, called r = c.before.reg r) ∧
        (c.frame - u.reg .rsp).toNat ≤ 2 ^ 63 ∧ c.StateAt pc (syscallStateAt u.mem c.frame)
    | .exit code => ∃ done v, done ++ code = syscallHandlerExit ∧
        SameStack c.bound (execAll v done) u ∧ (c.bound - u.reg .rsp).toNat = 8 * code.length ∧
        v.reg .rsp = c.frame ∧ (∀ r ∈ calleeSaved, v.reg r = c.before.reg r) ∧
        c.StateAt .done (syscallStateAt v.mem c.frame)

/-- What holds throughout the call. -/
structure Inv (m : ℕ) (s : CallMachine M) : Prop where
  fit : FramesFit m s.kernel
  pid : c.pid < m
  caller : c.At s.pc (s.caller c.pid)

variable {c} {pc : CallPc} {u v : Cpu}

/-- The structure is on the part of the stack that is in use. -/
theorem syscallStateAt_congr (h : SameStack c.bound u v)
    (hsp : (c.frame - u.reg .rsp).toNat ≤ 2 ^ 63) :
    syscallStateAt v.mem c.frame = syscallStateAt u.mem c.frame := by
  rw [← words_eq_toWords_iff]
  have hwords : words v.mem c.frame 11 = words u.mem c.frame 11 := by
    refine words_congr (by decide) fun x hx => h.mem x ?_
    rw [frame] at hsp hx
    bv_omega
  rw [hwords]
  exact words_eq_toWords_iff.mpr rfl

/-- The invariant speaks of nothing else than registers and the stack. -/
theorem At.congr (h : c.At pc u) (hsame : SameStack c.bound u v) : c.At pc v := by
  obtain ⟨hcpl, hpc⟩ := h
  refine ⟨by rw [Cpu.cpl, hsame.seg]; exact hcpl, ?_⟩
  cases pc with
  | entry code =>
    obtain ⟨done, hdone, hstack, hroom⟩ := hpc
    exact ⟨done, hdone, hstack.trans hsame, by rw [hsame.reg]; exact hroom⟩
  | ksyscall called pc =>
    obtain ⟨hcalled, hsp, hst⟩ := hpc
    refine ⟨hcalled, by rw [hsame.reg]; exact hsp, ?_⟩
    rw [syscallStateAt_congr hsame hsp]
    exact hst
  | exit code =>
    obtain ⟨done, w, hdone, hstack, hroom, hrest⟩ := hpc
    exact ⟨done, w, hdone, hstack.trans hsame, by rw [hsame.reg]; exact hroom, hrest⟩

/-- The stack does not reach around the address space. -/
theorem At.room (h : c.At pc u) : (c.bound - u.reg .rsp).toNat ≤ 2 ^ 63 + 88 := by
  obtain ⟨-, hpc⟩ := h
  cases pc with
  | entry code =>
    obtain ⟨done, -, -, hroom⟩ := hpc
    omega
  | ksyscall called pc =>
    obtain ⟨-, hsp, -⟩ := hpc
    rw [frame] at hsp
    bv_omega
  | exit code =>
    obtain ⟨done, w, hdone, -, hroom, -⟩ := hpc
    have hlen : code.length ≤ 11 := by
      have h := congrArg List.length hdone
      rw [List.length_append] at h
      have hexit : syscallHandlerExit.length = 11 := rfl
      omega
    omega

/-- An interrupt of the caller pushes below the stack pointer of the caller. -/
theorem At.stackClear (h : c.At s.pc (s.caller c.pid)) (hcur : s.kernel.currentPid = some c.pid) :
    c.StackClear s := by
  have hroom := h.room
  have hcpl := h.1
  rw [caller_of_current c hcur] at hroom hcpl
  have hsp : c.tickStack s = s.cpu.reg .rsp &&& ~~~15 := by
    rw [tickStack, interruptStack, gate_setupIdt c.irqTable (by decide), hcpl]
    rfl
  have halign := toNat_sub_and_not_lt (s.cpu.reg .rsp)
  rw [StackClear, hsp, caller_of_current c hcur]
  omega

/-! ### The steps of the caller -/

/-- `syscall` leaves the processor at level 0. -/
theorem at_start (c : SystemCall) :
    c.At (.entry syscallHandlerEntry) (syscall c.msrs c.before) := by
  have hcpl : ∀ x : BitVec 16, (x &&& 0xfffc).setWidth 2 = (0 : BitVec 2) := fun x => by
    rw [BitVec.setWidth_and]
    exact BitVec.and_zero
  have hcs : (syscall c.msrs c.before).seg .cs = c.msrs.star.extractLsb' 32 16 &&& 0xfffc := by
    simp [syscall]
  refine ⟨by rw [Cpu.cpl, hcs, hcpl], [], rfl, SameStack.refl _ _, ?_⟩
  have hrsp : (syscall c.msrs c.before).reg .rsp = c.bound := syscall_reg c.msrs c.before .rsp
  rw [hrsp, BitVec.sub_self]
  decide

theorem execAll_concat (s : Cpu) (code : List Instr) (i : Instr) :
    execAll s (code ++ [i]) = exec (execAll s code) i :=
  execAll_append s code [i]

/-- An instruction of the entry code. -/
theorem At.entry_cons {i : Instr} {code : List Instr} (h : c.At (.entry (i :: code)) u)
    (rip : BitVec 64) : c.At (.entry code) { exec u i with rip := rip } := by
  obtain ⟨hcpl, done, hdone, hstack, hroom⟩ := h
  rw [List.length_cons] at hroom
  have hi : i ∈ syscallHandlerEntry := by
    rw [← hdone]
    exact List.mem_append_right _ List.mem_cons_self
  have hdone' : done ++ [i] ++ code = syscallHandlerEntry := by
    rw [List.append_assoc]
    exact hdone
  suffices hexec : SameStack c.bound (exec (execAll (syscall c.msrs c.before) done) i) (exec u i) ∧
      (exec u i).seg = u.seg ∧
      (c.bound - (exec u i).reg .rsp).toNat ≤ (c.bound - u.reg .rsp).toNat + 8 by
    obtain ⟨hsame, hseg, hrsp⟩ := hexec
    refine ⟨by rw [← hcpl, Cpu.cpl, Cpu.cpl, ← hseg], done ++ [i], hdone', ?_, ?_⟩
    · rw [execAll_concat]
      exact ⟨hsame.reg, hsame.seg, hsame.mem⟩
    · exact le_trans (Nat.add_le_add_right hrsp _) (by omega)
  generalize execAll (syscall c.msrs c.before) done = v at hstack
  rw [hstack.reg] at hroom
  rcases List.mem_append.mp hi with hpush | hlast
  · obtain ⟨r, -, rfl⟩ := List.mem_map.mp hpush
    rw [exec, exec, hstack.reg]
    refine ⟨hstack.push (by omega) _, rfl, ?_⟩
    rw [Cpu.push_rsp, hstack.reg]
    bv_omega
  · simp only [List.mem_cons, List.not_mem_nil, or_false] at hlast
    obtain rfl | rfl := hlast
    · rw [exec, exec, hstack.reg]
      refine ⟨hstack.set (by decide) _, rfl, ?_⟩
      rw [Cpu.set_reg_of_ne (by decide), hstack.reg]
      exact Nat.le_add_right _ _
    · exact ⟨⟨hstack.reg, hstack.seg, hstack.mem⟩, rfl, Nat.le_add_right _ _⟩

/-- The call of `ksyscall`. -/
theorem At.entry_nil (h : c.At (.entry []) u) (ret rip : BitVec 64) :
    c.At (.ksyscall u.reg .switch) { u.push ret with rip := rip } := by
  obtain ⟨hcpl, done, hdone, hstack, -⟩ := h
  rw [List.append_nil] at hdone
  subst hdone
  obtain ⟨hrsp, -, hreg⟩ := syscallHandlerEntry_reg (syscall c.msrs c.before)
  rw [syscall_reg] at hrsp
  have hcall := (syscallStateAt_enterSyscall c.msrs ret c.before).2
  rw [enterSyscall] at hcall
  generalize execAll (syscall c.msrs c.before) syscallHandlerEntry = v at hstack hrsp hreg hcall
  have hbound : v.reg .rsp = c.frame := hrsp
  have hpush := hstack.push (by rw [hbound, frame]; bv_omega) ret
  have hsp : (c.frame - (v.push ret).reg .rsp).toNat ≤ 2 ^ 63 := by
    rw [Cpu.push_rsp, hbound]
    bv_omega
  refine ⟨hcpl, fun r hr => ?_, ?_, ?_⟩
  · have hne : r ≠ .rsp ∧ r ≠ .rdi ∧ r ≠ .r11 ∧ r ≠ .rcx := by
      revert hr
      cases r <;> decide
    rw [hstack.reg, hreg r hne.1 hne.2.1, syscall_reg, if_neg hne.2.2.1, if_neg hne.2.2.2]
  · change (c.frame - (u.push ret).reg .rsp).toNat ≤ 2 ^ 63
    rw [hpush.reg]
    exact hsp
  · exact (syscallStateAt_congr hpush hsp).trans hcall

/-- An instruction of the exit code. -/
theorem At.exit_cons {i : Instr} {code : List Instr} (h : c.At (.exit (i :: code)) u)
    (rip : BitVec 64) : c.At (.exit code) { exec u i with rip := rip } := by
  obtain ⟨hcpl, done, v, hdone, hstack, hroom, hrest⟩ := h
  rw [List.length_cons] at hroom
  have hi : i ∈ syscallHandlerExit := by
    rw [← hdone]
    exact List.mem_append_right _ List.mem_cons_self
  obtain ⟨r, hr, rfl⟩ := List.mem_map.mp hi
  have hne : r ≠ .rsp := ne_of_mem_of_not_mem hr (by decide)
  have hdone' : done ++ [.pop r] ++ code = syscallHandlerExit := by
    rw [List.append_assoc]
    exact hdone
  have hsame := hstack.pop (by rw [← hstack.reg]; omega) hne
  have hrsp : (exec u (.pop r)).reg .rsp = u.reg .rsp + 8 :=
    (Cpu.set_reg_of_ne hne.symm).trans (Cpu.set_reg_self ..)
  refine ⟨hcpl, done ++ [.pop r], v, hdone', ?_, ?_, hrest⟩
  · rw [execAll_concat]
    exact ⟨hsame.reg, hsame.seg, hsame.mem⟩
  · change (c.bound - (exec u (.pop r)).reg .rsp).toNat = 8 * code.length
    rw [hrsp]
    bv_omega

/-- Stores to `state->rax` and `state->rdi`. -/
theorem syscallStateAt_store (m : Memory) (p w : BitVec 64) :
    syscallStateAt (store m p w) p = { syscallStateAt m p with rax := w } ∧
      syscallStateAt (store m (p + 80) w) p = { syscallStateAt m p with rdi := w } := by
  have hbelow : ∀ {d : BitVec 64}, 8 ≤ d.toNat → d.toNat ≤ 80 →
      load (store m p w) (p + d) = load m (p + d) := fun hd hd' =>
    load_store_of_disjoint (by bv_omega) (by bv_omega)
  have habove : ∀ {d : BitVec 64}, d.toNat ≤ 72 →
      load (store m (p + 80) w) (p + d) = load m (p + d) := fun hd =>
    load_store_of_disjoint (by bv_omega) (by bv_omega)
  have hfirst : load (store m (p + 80) w) p = load m p := by
    simpa using habove (d := 0) (by decide)
  constructor
  · simp (disch := decide) only [syscallStateAt, load_store, hbelow]
  · simp (disch := decide) only [syscallStateAt, load_store, habove, hfirst]

/-- A step of the caller moves no frame. -/
theorem Inv.of_own (h : c.Inv m s) (hcur : s.kernel.currentPid = some c.pid)
    (hsame : SameFrames s.kernel t.kernel) (hslots : ∀ i, t.kernel.runQueue.slots i < m)
    (hat : c.At t.pc t.cpu) : c.Inv m t := by
  refine ⟨h.fit.congr hsame hslots, h.pid, ?_⟩
  rw [caller_of_current c (hsame.currentPid.trans hcur)]
  exact hat

/-- A statement of `ksyscall`. -/
theorem Inv.statement {called : Reg → BitVec 64} {pc : KsyscallPc} (h : c.Inv m s)
    (hcur : s.kernel.currentPid = some c.pid) (hpc : s.pc = .ksyscall called pc)
    (hst : c.statement s called pc = some t) : c.Inv m t := by
  have hat := h.caller
  rw [hpc, caller_of_current c hcur] at hat
  obtain ⟨hcpl, hcalled, hsp, hstate⟩ := hat
  have hrax : load s.cpu.mem c.frame = (syscallStateAt s.cpu.mem c.frame).rax := rfl
  have hrdi : load s.cpu.mem (c.frame + 80) = (syscallStateAt s.cpu.mem c.frame).rdi := rfl
  have hstore := fun w => syscallStateAt_store s.cpu.mem c.frame w
  have hrefl := SameFrames.refl s.kernel
  cases pc with
  | switch =>
    obtain rfl := Option.some.inj hst
    refine h.of_own hcur hrefl h.fit.slots ⟨hcpl, hcalled, hsp, ?_⟩
    dsimp only
    rw [hrax, ksyscallCase, show syscallStateAt s.cpu.mem c.frame = c.passed from hstate]
    by_cases h1 : c.passed.rax = 1
    · rw [if_pos h1]
      exact ⟨h1, rfl⟩
    · rw [if_neg h1]
      by_cases h2 : c.passed.rax = 2
      · rw [if_pos h2]
        exact ⟨h1, rfl⟩
      · rw [if_neg h2]
        by_cases h4 : c.passed.rax = 4
        · rw [if_pos h4]
          exact ⟨h1, rfl⟩
        · rw [if_neg h4]
          refine ⟨c.passed.rax, ?_⟩
          rw [if_neg h1]
  | sleepStart =>
    obtain rfl := Option.some.inj hst
    exact h.of_own hcur hrefl h.fit.slots ⟨hcpl, hcalled, hsp, hstate⟩
  | sleepRound start =>
    obtain rfl := Option.some.inj hst
    obtain ⟨hsleep, heq⟩ := hstate
    refine h.of_own hcur hrefl h.fit.slots ⟨hcpl, hcalled, hsp, hsleep, ?_⟩
    rw [(hstore _).2, hrdi, heq, rounded]
  | sleepCheck start =>
    obtain rfl := Option.some.inj hst
    refine h.of_own hcur hrefl h.fit.slots ⟨hcpl, hcalled, hsp, ?_⟩
    dsimp only
    split
    · exact hstate
    · exact hstate
  | sleepLoop start left =>
    cases left with
    | nil =>
      obtain rfl := Option.some.inj hst
      exact h.of_own hcur hrefl h.fit.slots ⟨hcpl, hcalled, hsp, hstate⟩
    | cons effect left =>
      obtain rfl := Option.some.inj hst
      obtain ⟨hsame, hslots⟩ := h.fit.applyEffect effect
      exact h.of_own hcur hsame hslots ⟨hcpl, hcalled, hsp, hstate⟩
  | sleepReturn start =>
    obtain rfl := Option.some.inj hst
    obtain ⟨hsleep, heq⟩ := hstate
    refine h.of_own hcur hrefl h.fit.slots
      ⟨hcpl, hcalled, hsp, 10 * (s.kernel.pitCounter - start), ?_⟩
    rw [(hstore _).1, heq, if_pos hsleep]
  | getpid =>
    obtain rfl := Option.some.inj hst
    obtain ⟨hsleep, heq⟩ := hstate
    refine h.of_own hcur hrefl h.fit.slots ⟨hcpl, hcalled, hsp, BitVec.ofNat 64 c.pid, ?_⟩
    rw [(hstore _).1, heq, if_neg hsleep]
  | yield left =>
    cases left with
    | nil =>
      obtain rfl := Option.some.inj hst
      obtain ⟨hsleep, heq⟩ := hstate
      refine h.of_own hcur hrefl h.fit.slots ⟨hcpl, hcalled, hsp, c.passed.rax, ?_⟩
      rw [if_neg hsleep]
      exact heq
    | cons effect left =>
      obtain rfl := Option.some.inj hst
      obtain ⟨hsame, hslots⟩ := h.fit.applyEffect effect
      exact h.of_own hcur hsame hslots ⟨hcpl, hcalled, hsp, hstate⟩
  | done => exact absurd hst (Option.some_ne_none t).symm

/-- What compiled code leaves of the structure. -/
theorem syscallStateAt_overlay (m m' : Memory) (p : BitVec 64) :
    syscallStateAt (overlay m m' p 88) p = syscallStateAt m p := by
  have hwords : words (overlay m m' p 88) p 11 = words m p 11 :=
    words_congr (by decide) fun x hx => overlay_of_inside hx
  rw [← words_eq_toWords_iff, hwords]
  exact words_eq_toWords_iff.mpr rfl

/-- The code of the caller keeps the invariant. -/
theorem Inv.own (h : c.Inv m s) (hcur : s.kernel.currentPid = some c.pid) {e : CallEvent}
    (hst : c.own s e = some t) : c.Inv m t := by
  have hat := h.caller
  rw [caller_of_current c hcur] at hat
  have hrefl := SameFrames.refl s.kernel
  cases e with
  | tick after => exact absurd hst (Option.some_ne_none t).symm
  | other after effect => exact absurd hst (Option.some_ne_none t).symm
  | instr rip =>
    rw [SystemCall.own, instr] at hst
    cases hpc : s.pc with
    | ksyscall called pc =>
      rw [hpc] at hst
      exact absurd hst (Option.some_ne_none t).symm
    | entry code =>
      rw [hpc] at hst hat
      cases code with
      | nil =>
        obtain rfl := Option.some.inj hst
        exact h.of_own hcur hrefl h.fit.slots (hat.entry_nil _ _)
      | cons i code =>
        obtain rfl := Option.some.inj hst
        exact h.of_own hcur hrefl h.fit.slots (hat.entry_cons _)
    | exit code =>
      rw [hpc] at hst hat
      cases code with
      | nil => exact absurd hst (Option.some_ne_none t).symm
      | cons i code =>
        obtain rfl := Option.some.inj hst
        exact h.of_own hcur hrefl h.fit.slots (hat.exit_cons _)
  | compute after =>
    rw [SystemCall.own] at hst
    cases hpc : s.pc with
    | entry code | exit code =>
      rw [hpc] at hst
      exact absurd hst (Option.some_ne_none t).symm
    | ksyscall called pc =>
      rw [hpc] at hst hat
      obtain ⟨hsp, hst⟩ := Option.ite_none_right_eq_some.mp hst
      obtain rfl := Option.some.inj hst
      obtain ⟨hcpl, hcalled, -, hstate⟩ := hat
      refine h.of_own hcur hrefl h.fit.slots ⟨hcpl, hcalled, hsp, ?_⟩
      rw [compiled, syscallStateAt_overlay]
      exact hstate
  | statement =>
    rw [SystemCall.own] at hst
    cases hpc : s.pc with
    | entry code | exit code =>
      rw [hpc] at hst
      exact absurd hst (Option.some_ne_none t).symm
    | ksyscall called pc =>
      rw [hpc] at hst
      exact h.statement hcur hpc hst
  | ret after =>
    rw [SystemCall.own] at hst
    cases hpc : s.pc with
    | entry code | exit code =>
      rw [hpc] at hst
      exact absurd hst (Option.some_ne_none t).symm
    | ksyscall called pc =>
      rw [hpc] at hst hat
      cases pc with
      | done =>
        obtain rfl := Option.some.inj hst
        obtain ⟨hcpl, hcalled, -, hstate⟩ := hat
        refine h.of_own hcur hrefl h.fit.slots ⟨hcpl, [], c.returned s called after, rfl,
          SameStack.refl _ _, ?_, rfl, fun r hr => ?_, ?_⟩
        · change (c.bound - c.frame).toNat = 8 * syscallHandlerExit.length
          rw [frame]
          have hexit : syscallHandlerExit.length = 11 := rfl
          bv_omega
        · have hne : r ≠ .rsp := ne_of_mem_of_not_mem hr (by decide)
          rw [returned]
          dsimp only
          rw [if_neg hne, if_pos hr, hcalled r hr]
        · rw [returned, compiled, syscallStateAt_overlay]
          exact hstate
      | _ => exact absurd hst (Option.some_ne_none t).symm

/-- **Every step keeps the invariant.** -/
theorem Inv.step (h : c.Inv m s) {e : CallEvent} (hst : c.step s e = some t) : c.Inv m t := by
  cases e with
  | tick after =>
    obtain ⟨⟨-, hclear⟩, hst⟩ := Option.ite_none_right_eq_some.mp hst
    have hclear' : c.StackClear s := hclear.elim (fun hcur => h.caller.stackClear hcur) id
    rw [deliver_setupIdt c.tss (by decide), Option.map_some] at hst
    obtain ⟨t', ht', hfit, hpc, hsame, -, -⟩ := c.caller_tick h.fit h.pid hclear' after
    obtain rfl : t' = t := ht'.symm.trans (Option.some.inj hst)
    exact ⟨hfit, h.pid, by rw [hpc]; exact h.caller.congr hsame⟩
  | other after effect =>
    obtain ⟨hcur, hst⟩ := Option.ite_none_left_eq_some.mp hst
    obtain rfl := Option.some.inj hst
    obtain ⟨hsame, hslots⟩ := h.fit.applyEffect effect
    refine ⟨h.fit.congr hsame hslots, h.pid, h.caller.congr ?_⟩
    have hcur' : (s.kernel.applyEffect effect).currentPid ≠ some c.pid := fun heq =>
      hcur (hsame.currentPid.symm.trans heq)
    have hold : s.caller c.pid = frameCpu (s.kernel.saved c.pid) s.cpu.mem := if_neg hcur
    have hnew : ∀ cpu pc, CallMachine.caller ⟨s.kernel.applyEffect effect, cpu, pc⟩ c.pid
        = frameCpu (s.kernel.saved c.pid) cpu.mem := fun cpu pc => by
      rw [← hsame.saved]
      exact if_neg hcur'
    rw [hnew]
    refine ⟨by rw [hold]; rfl, by rw [hold]; rfl, fun x hx => ?_⟩
    rw [caller_mem]
    exact overlay_of_inside hx
  | instr rip | compute after | statement | ret after =>
    obtain ⟨hcur, hst⟩ := Option.ite_none_right_eq_some.mp hst
    exact h.own hcur hst

theorem inv_start (c : SystemCall) {k : Kernel M} (hfit : FramesFit m k)
    (hcur : k.currentPid = some c.pid) : c.Inv m (c.start k) := by
  refine ⟨hfit, hfit.current _ hcur, ?_⟩
  rw [caller_of_current (s := c.start k) c hcur]
  exact at_start c

end SystemCall

/-! ### The kernel when the call is made -/

/-- What can happen to the kernel before: ticks, and the writes of system calls. -/
inductive KernelEvent
  | tick (context : ProcessContext)
  | effect (effect : CodeEffect)

def kernelStep (k : Kernel M) : KernelEvent → Option (Kernel M)
  | .tick context => some (k.pitHandler context).1
  | .effect effect => some (k.applyEffect effect)

theorem framesFit_run {mem : M} {init userTask : BitVec 64} {n : ℕ} (hn : n < maxProcesses)
    {es : List KernelEvent} {k : Kernel M}
    (hrun : run kernelStep (boot mem init userTask n) es = some k) : FramesFit (n + 1) k := by
  refine invariant_of_run (FramesFit (n + 1)) (fun k e k' hk hst => ?_)
    ((setupSpec_boot mem init userTask hn).framesFit (Nat.succ_pos n)) hrun
  cases e with
  | tick context =>
    obtain rfl := Option.some.inj hst
    exact (pitHandler_frames hk context).1
  | effect effect =>
    obtain rfl := Option.some.inj hst
    obtain ⟨hsame, hslots⟩ := hk.applyEffect effect
    exact hk.congr hsame hslots

/-! ### The registers after the call -/

/-- The registers the wrappers rely on. -/
def keptRegs : List Reg :=
  [.rdi, .rsi, .rdx, .r8, .r9, .r10, .rbx, .rbp, .r12, .r13, .r14, .r15, .rsp]

/-- `sysretq` leaves the caller the registers it had, and takes from `rcx` and `r11` what `syscall`
stored there. -/
def RegistersKept (c : SystemCall) (u : Cpu) : Prop :=
  (∀ r ∈ keptRegs, (sysret c.msrs u).reg r = c.before.reg r) ∧
    u.reg .rcx = c.before.rip ∧ u.reg .r11 = c.before.rflags

variable {c : SystemCall} {u : Cpu} {m : ℕ} {s t : CallMachine M}

/-- The fields of the structure, by register. -/
def stateReg (st : SyscallState) : Reg → BitVec 64
  | .rax => st.rax
  | .rbp => st.rbp
  | .rbx => st.rbx
  | .r11 => st.r11
  | .r10 => st.r10
  | .r9 => st.r9
  | .r8 => st.r8
  | .rcx => st.rcx
  | .rdx => st.rdx
  | .rsi => st.rsi
  | .rdi => st.rdi
  | .rsp | .r12 | .r13 | .r14 | .r15 => 0

/-- The structure when `ksyscall` returns has the registers that were saved, but for `rax`, and for
`rdi` after `SYSCALL_SLEEP`. -/
theorem SystemCall.stateReg_of_done {st : SyscallState} (h : c.StateAt .done st) :
    st.rdi = (if c.before.reg .rax = 1 then (c.before.reg .rdi + 9) / 10
        else c.before.reg .rdi) ∧
      (∀ r ∈ [.rsi, .rdx, .r8, .r9, .r10, .rbx, .rbp], stateReg st r = c.before.reg r) ∧
      st.rcx = c.before.rip ∧ st.r11 = c.before.rflags := by
  obtain ⟨rax, rfl⟩ := h
  have hrax : c.passed.rax = c.before.reg .rax := rfl
  rw [hrax]
  split
  all_goals
    refine ⟨rfl, fun r hr => ?_, rfl, rfl⟩
    simp only [List.mem_cons, List.not_mem_nil, or_false] at hr
    obtain rfl | rfl | rfl | rfl | rfl | rfl | rfl := hr
    all_goals rfl

/-- What the caller gets back. -/
theorem SystemCall.At.registers (h : c.At (.exit []) u) :
    u.reg .rdi = (if c.before.reg .rax = 1 then (c.before.reg .rdi + 9) / 10
        else c.before.reg .rdi) ∧
      (∀ r ∈ keptRegs, r ≠ .rdi → u.reg r = c.before.reg r) ∧
      u.reg .rcx = c.before.rip ∧ u.reg .r11 = c.before.rflags := by
  obtain ⟨-, done, v, hdone, hstack, hroom, hrsp, hcalled, hstate⟩ := h
  rw [List.append_nil] at hdone
  subst hdone
  obtain ⟨hrdi, hregs, hrcx, hr11⟩ := c.stateReg_of_done hstate
  have hframe : Stack v
      ([.rax, .rbp, .rbx, .r11, .r10, .r9, .r8, .rcx, .rdx, .rsi, .rdi].map
        (stateReg (syscallStateAt v.mem c.frame)) ++ []) := by
    rw [Stack, hrsp]
    exact words_eq_toWords_iff.mpr rfl
  have hpop := exec_pops hframe (by decide)
  generalize syscallStateAt v.mem c.frame = st at hrdi hregs hrcx hr11 hpop
  rw [hstack.reg, syscallHandlerExit]
  refine ⟨?_, fun r hr hne => ?_, ?_, ?_⟩
  · rw [hpop.reg .rdi (by decide), if_pos (by decide)]
    exact hrdi
  · by_cases hsp : r = .rsp
    · rw [hsp, hpop.rsp, hrsp, SystemCall.frame, SystemCall.bound]
      simp only [List.length_cons, List.length_nil]
      bv_omega
    · rw [hpop.reg r hsp]
      split
      · next hmem =>
        refine hregs r ?_
        revert hr hne hmem
        cases r <;> decide
      · next hmem =>
        refine hcalled r ?_
        revert hr hne hsp hmem
        cases r <;> decide
  · rw [hpop.reg .rcx (by decide), if_pos (by decide)]
    exact hrcx
  · rw [hpop.reg .r11 (by decide), if_pos (by decide)]
    exact hr11

/-- The rounding of `SYSCALL_SLEEP` keeps 0 and 1. -/
theorem round_eq_iff (w : BitVec 64) : (w + 9) / 10 = w ↔ w.toNat ≤ 1 := by
  rw [← BitVec.toNat_inj, BitVec.toNat_udiv, BitVec.toNat_add]
  change (w.toNat + 9) % 2 ^ 64 / 10 = w.toNat ↔ w.toNat ≤ 1
  have hlt := w.isLt
  rcases Nat.lt_or_ge (w.toNat + 9) (2 ^ 64) with h | h
  · rw [Nat.mod_eq_of_lt h]
    omega
  · rw [Nat.mod_eq_sub_mod h, Nat.mod_eq_of_lt (by omega)]
    omega

/-- What the caller gets back, at the end of any run. -/
theorem registers_of_run (c : SystemCall) {mem : M} {init userTask : BitVec 64} {n : ℕ}
    (hn : n < maxProcesses) {es : List KernelEvent} {k : Kernel M}
    (hk : run kernelStep (boot mem init userTask n) es = some k)
    (hcur : k.currentPid = some c.pid) {events : List CallEvent} {t : CallMachine M}
    (hrun : run c.step (c.start k) events = some t) (hpc : t.pc = .exit [])
    (hback : t.kernel.currentPid = some c.pid) :
    t.cpu.reg .rdi = (if c.before.reg .rax = 1 then (c.before.reg .rdi + 9) / 10
        else c.before.reg .rdi) ∧
      (∀ r ∈ keptRegs, r ≠ .rdi → t.cpu.reg r = c.before.reg r) ∧
      t.cpu.reg .rcx = c.before.rip ∧ t.cpu.reg .r11 = c.before.rflags := by
  have hinv : c.Inv (n + 1) t := invariant_of_run (c.Inv (n + 1)) (fun _ _ _ h hst => h.step hst)
    (c.inv_start (framesFit_run hn hk) hcur) hrun
  have hat := hinv.caller
  rw [hpc, c.caller_of_current hback] at hat
  exact hat.registers

/-- **A system call that returns has changed no register but `rax` exactly if it is not
`SYSCALL_SLEEP`, or sleeps for at most one millisecond**, whatever ticks and other processes come in
between. -/
theorem registersKept_iff (c : SystemCall) (mem : M) (init userTask : BitVec 64) {n : ℕ}
    (hn : n < maxProcesses) {es : List KernelEvent} {k : Kernel M}
    (hk : run kernelStep (boot mem init userTask n) es = some k)
    (hcur : k.currentPid = some c.pid) {events : List CallEvent} {t : CallMachine M}
    (hrun : run c.step (c.start k) events = some t) (hpc : t.pc = .exit [])
    (hback : t.kernel.currentPid = some c.pid) :
    RegistersKept c t.cpu ↔ c.before.reg .rax ≠ 1 ∨ (c.before.reg .rdi).toNat ≤ 1 := by
  obtain ⟨hrdi, hregs, hrcx, hr11⟩ := registers_of_run c hn hk hcur hrun hpc hback
  constructor
  · rintro ⟨hkept, -, -⟩
    by_cases hrax : c.before.reg .rax = 1
    · rw [if_pos hrax] at hrdi
      exact Or.inr ((round_eq_iff _).mp (hrdi.symm.trans (hkept .rdi (by decide))))
    · exact Or.inl hrax
  · intro hcond
    refine ⟨fun r hr => ?_, hrcx, hr11⟩
    by_cases hne : r = .rdi
    · have hround : c.before.reg .rax = 1 → (c.before.reg .rdi + 9) / 10 = c.before.reg .rdi :=
        fun hrax => (round_eq_iff _).mpr (hcond.resolve_left (not_not.mpr hrax))
      rw [hne]
      refine Eq.trans hrdi ?_
      split
      · next hrax => exact hround hrax
      · rfl
    · exact hregs r hr hne

/-! ### A call that returns -/

namespace SystemCall

/-- The call can return from here. -/
def Returns (c : SystemCall) (s : CallMachine M) : Prop :=
  ∃ events t, run c.step s events = some t ∧ t.pc = .exit [] ∧ t.kernel.currentPid = some c.pid

theorem Returns.of_step {e : CallEvent} (hst : c.step s e = some t) (h : c.Returns t) :
    c.Returns s := by
  obtain ⟨events, v, hrun, hv⟩ := h
  exact ⟨e :: events, v, run_cons_eq_some.mpr ⟨t, hst, hrun⟩, hv⟩

variable {k : Kernel M} (hcur : k.currentPid = some c.pid)

include hcur

/-- The exit code runs to its end. -/
theorem returns_exit (code : List Instr) (u : Cpu) : c.Returns ⟨k, u, .exit code⟩ := by
  induction code generalizing u with
  | nil => exact ⟨[], _, rfl, rfl, hcur⟩
  | cons i code ih => exact Returns.of_step (e := .instr 0) (if_pos hcur) (ih _)

/-- So does the entry code, and the call follows. -/
theorem returns_entry (code : List Instr) (u : Cpu) (hat : c.At (.entry code) u)
    (h : ∀ called v, c.At (.ksyscall called .switch) v →
      c.Returns ⟨k, v, .ksyscall called .switch⟩) :
    c.Returns ⟨k, u, .entry code⟩ := by
  induction code generalizing u with
  | nil => exact Returns.of_step (e := .instr 0) (if_pos hcur) (h _ _ (hat.entry_nil _ 0))
  | cons i code ih =>
    exact Returns.of_step (e := .instr 0) (if_pos hcur) (ih _ (hat.entry_cons 0))

/-- `SYSCALL_SLEEP` returns at once if the number of ticks comes out as zero. -/
theorem returns_sleep (called : Reg → BitVec 64) (u : Cpu)
    (hat : c.At (.ksyscall called .switch) u) (hrax : c.before.reg .rax = 1)
    (hrdi : (c.before.reg .rdi + 9) / 10 = 0) : c.Returns ⟨k, u, .ksyscall called .switch⟩ := by
  obtain ⟨-, -, -, hstate⟩ := hat
  have hst : syscallStateAt u.mem c.frame = c.passed := hstate
  have hrax' : load u.mem c.frame = 1 := (congrArg SyscallState.rax hst).trans hrax
  have hrdi' : (load u.mem (c.frame + 80) + 9) / 10 = 0 := by
    rw [show load u.mem (c.frame + 80) = c.before.reg .rdi from congrArg SyscallState.rdi hst, hrdi]
  refine Returns.of_step (e := .statement) (t := ⟨k, u, .ksyscall called .sleepStart⟩)
    ((if_pos hcur).trans ?_) ?_
  · change some (CallMachine.mk k u (.ksyscall called (ksyscallCase (load u.mem c.frame)))) = _
    rw [hrax']
    rfl
  refine Returns.of_step (e := .statement) (if_pos hcur) ?_
  refine Returns.of_step (e := .statement) (if_pos hcur) ?_
  rw [hrdi']
  refine Returns.of_step (e := .statement) (if_pos hcur) ?_
  dsimp only
  rw [load_store, if_neg (by simp)]
  refine Returns.of_step (e := .statement) (if_pos hcur) ?_
  exact Returns.of_step (e := .ret u) (if_pos hcur) (returns_exit hcur _ _)

end SystemCall

/-! ### An instance -/

/-- The second tick after boot starts process 1. -/
theorem exists_running (mem : M) (init userTask : BitVec 64) : ∃ es k,
    run kernelStep (boot mem init userTask 4) es = some k ∧ k.currentPid = some 1 := by
  have h := setupSpec_boot mem init userTask (by decide : 4 < maxProcesses)
  generalize boot mem init userTask 4 = k at h ⊢
  have h₁ := currentPid_of_view (view_tick_of_none ProcessContext.zero h.currentPid)
  have h₂ := currentPid_of_view (view_tick_of_idle ProcessContext.zero h₁.1
    (h₁.2.trans h.runQueue))
  exact ⟨[.tick ProcessContext.zero, .tick ProcessContext.zero], _, rfl, h₂.1⟩

/-- Process 1 asks to sleep for `ms` milliseconds. -/
def sleepCall (ms : BitVec 64) : SystemCall where
  pid := 1
  before := placedCpu 1 ms 0 0 0
  msrs := ⟨0x1b000800000000, 0x201000, 0⟩
  tss := ⟨0xF0000, fun _ => 0⟩
  irqTable := fun _ => 0x200000
  irqHandler := 0x202000
  irqReturn := 0x203000
  ksyscallReturn := 0x204000

/-- A call that sleeps for `2 ^ 64 - 9` milliseconds returns. -/
theorem exists_sleepCall : ∃ es k events t,
    run kernelStep (boot (fun _ => 0 : ByteMemory) 0x200000 0x200100 4) es = some k ∧
      k.currentPid = some 1 ∧
      run (sleepCall 0xfffffffffffffff7).step ((sleepCall 0xfffffffffffffff7).start k) events
        = some t ∧ t.pc = .exit [] ∧ t.kernel.currentPid = some 1 := by
  obtain ⟨es, k, hk, hcur⟩ := exists_running (fun _ => 0 : ByteMemory) 0x200000 0x200100
  have hcur' : k.currentPid = some (sleepCall 0xfffffffffffffff7).pid := hcur
  obtain ⟨events, t, hrun, hpc, hback⟩ := SystemCall.returns_entry hcur' _ _
    (SystemCall.at_start _) fun called v hat => SystemCall.returns_sleep hcur' called v hat rfl
      (by decide)
  exact ⟨es, k, events, t, hk, hcur, hrun, hpc, hback⟩

/-- What code that owes the caller nothing may leave in the registers and in memory. -/
def strangeCpu : Cpu := ⟨fun _ => 0x5a5a, fun _ => 0x10, 0x202000, 0x202, fun _ => 0x5a⟩

/-- Another process goes to sleep, and a tick takes the processor from it. -/
def giveWay : List CallEvent :=
  [.other strangeCpu .setReady, .other strangeCpu .storeRunQueue,
    .other strangeCpu .advanceRunQueueTail, .tick strangeCpu]

/-- From the entry code on: process 1 queues itself and waits for a tick, three other processes have
the processor, and process 1 finds that its time is up. -/
def interruptedCall : List CallEvent :=
  List.replicate 14 (.instr 0x201000) ++ List.replicate 10 .statement ++ .tick strangeCpu ::
    giveWay ++ giveWay ++ giveWay ++ List.replicate 3 .statement ++ .ret strangeCpu ::
    List.replicate 11 (.instr 0x201000)

theorem exists_interruptedCall : ∃ k t,
    run kernelStep (boot (fun _ => 0 : ByteMemory) 0x200000 0x200100 4)
        [.tick ProcessContext.zero, .tick ProcessContext.zero] = some k ∧
      k.currentPid = some 1 ∧
      run (sleepCall 1).step ((sleepCall 1).start k) interruptedCall = some t ∧
      t.pc = .exit [] ∧ t.kernel.currentPid = some 1 := by
  have hstate : ((run kernelStep (boot (fun _ => 0 : ByteMemory) 0x200000 0x200100 4)
      [.tick ProcessContext.zero, .tick ProcessContext.zero]).bind fun k =>
        (run (sleepCall 1).step ((sleepCall 1).start k) interruptedCall).map fun t =>
          (k.currentPid, t.pc matches .exit [], t.kernel.currentPid)) =
      some (some 1, true, some 1) := by
    decide +kernel
  obtain ⟨k, hk, h⟩ := Option.bind_eq_some_iff.mp hstate
  obtain ⟨t, ht, hvalues⟩ := Option.map_eq_some_iff.mp h
  simp only [Prod.mk.injEq] at hvalues
  obtain ⟨hcur, hpc, hback⟩ := hvalues
  refine ⟨k, t, hk, hcur, ht, ?_, hback⟩
  split at hpc
  · assumption
  · exact absurd hpc Bool.false_ne_true

/-- The theorem at that call: a millisecond is one tick, and all registers are kept. -/
theorem registersKept_iff_interruptedCall : ∃ k, ∃ t : CallMachine ByteMemory,
    run kernelStep (boot (fun _ => 0 : ByteMemory) 0x200000 0x200100 4)
        [.tick ProcessContext.zero, .tick ProcessContext.zero] = some k ∧
      run (sleepCall 1).step ((sleepCall 1).start k) interruptedCall = some t ∧
      RegistersKept (sleepCall 1) t.cpu := by
  obtain ⟨k, t, hk, hcur, hrun, hpc, hback⟩ := exists_interruptedCall
  exact ⟨k, t, hk, hrun, (registersKept_iff (sleepCall 1) _ _ _ (by decide) hk hcur hrun hpc
    hback).mpr (Or.inr (by decide))⟩

/-- **A caller of `SYSCALL_SLEEP` gets `rdi` back changed.** -/
theorem not_registersKept_sleepCall : ∃ es k events, ∃ t : CallMachine ByteMemory,
    run kernelStep (boot (fun _ => 0 : ByteMemory) 0x200000 0x200100 4) es = some k ∧
      k.currentPid = some 1 ∧
      run (sleepCall 0xfffffffffffffff7).step ((sleepCall 0xfffffffffffffff7).start k) events
        = some t ∧ t.pc = .exit [] ∧ t.kernel.currentPid = some 1 ∧ t.cpu.reg .rdi = 0 ∧
      ¬ RegistersKept (sleepCall 0xfffffffffffffff7) t.cpu := by
  obtain ⟨es, k, events, t, hk, hcur, hrun, hpc, hback⟩ := exists_sleepCall
  obtain ⟨hrdi, -, -, -⟩ := registers_of_run (sleepCall 0xfffffffffffffff7) (by decide) hk hcur hrun
    hpc hback
  have hzero : t.cpu.reg .rdi = 0 := hrdi.trans (by decide)
  refine ⟨es, k, events, t, hk, hcur, hrun, hpc, hback, hzero, ?_⟩
  rintro ⟨hkept, -, -⟩
  exact absurd (hzero.symm.trans (hkept .rdi (by decide))) (by decide)

end FrogOS
