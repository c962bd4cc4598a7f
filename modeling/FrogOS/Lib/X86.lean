import Mathlib.Data.BitVec
import Mathlib.Logic.Function.Basic

/-!
# A processor with a stack

The part of the 64-bit instruction set that saves and restores registers: pushes and pops, moves
between general and segment registers, the interrupt flag, and the ways in and out of a kernel.
Addresses wrap around, and a word on the stack may lie anywhere, aligned or not.

Code without jumps is a list of instructions. `rip` is changed by what transfers control only.

Reasoning about such code follows the words on the stack. `Stack s ws` says that the stack pointer
points at the words `ws`; a push puts a word in front and a pop takes it off. Runs of pushes and
runs of pops have one lemma each.

## Main definitions

* `X86.Memory.load`, `X86.Memory.store`, `X86.Memory.words` — little-endian words
* `X86.Cpu`, `X86.Instr`, `X86.exec` — registers, instructions and what they do
* `X86.Stack` — the words on the stack
* `X86.Pushed`, `X86.Popped` — runs of pushes and of pops
* `X86.interrupt`, `X86.iretq` — delivery of an interrupt through a gate, and the return from it
* `X86.syscall`, `X86.sysret` — the fast system call, and the return from it

## Main results

* `X86.exec_pushes`, `X86.exec_pushSegs` — what a run of pushes leaves
* `X86.exec_pops`, `X86.exec_popSegs` — what a run of pops leaves
* `X86.stack_interrupt`, `X86.iretq_eq` — what the processor pushes, and what it takes back
-/

namespace X86

/-- The general registers. -/
inductive Reg
  | rax | rbx | rcx | rdx | rsi | rdi | rbp | rsp | r8 | r9 | r10 | r11 | r12 | r13 | r14 | r15
  deriving DecidableEq

/-- The segment registers. -/
inductive Seg
  | cs | ds | es | fs | gs | ss
  deriving DecidableEq

/-- One byte at every address. -/
abbrev Memory : Type := BitVec 64 → BitVec 8

namespace Memory

variable {m m' : Memory} {a : BitVec 64} {n : ℕ}

/-- The word at `a`. -/
def load (m : Memory) (a : BitVec 64) : BitVec 64 :=
  m (a + 7) ++ m (a + 6) ++ m (a + 5) ++ m (a + 4) ++ m (a + 3) ++ m (a + 2) ++ m (a + 1) ++ m a

def store (m : Memory) (a w : BitVec 64) : Memory := fun x =>
  if (x - a).toNat < 8 then w.extractLsb' (8 * (x - a).toNat) 8 else m x

/-- `n` consecutive words, the first at `a`. -/
def words (m : Memory) (a : BitVec 64) : ℕ → List (BitVec 64)
  | 0 => []
  | n + 1 => load m a :: words m (a + 8) n

theorem store_of_outside {w x : BitVec 64} (h : 8 ≤ (x - a).toNat) : store m a w x = m x :=
  if_neg (Nat.not_lt.mpr h)

theorem load_congr (h : ∀ x, (x - a).toNat < 8 → m' x = m x) : load m' a = load m a := by
  have h₀ : m' a = m a := h a (by bv_omega)
  simp only [load, h₀, h (a + 1) (by bv_omega), h (a + 2) (by bv_omega), h (a + 3) (by bv_omega),
    h (a + 4) (by bv_omega), h (a + 5) (by bv_omega), h (a + 6) (by bv_omega),
    h (a + 7) (by bv_omega)]

@[simp] theorem load_store (m : Memory) (a w : BitVec 64) : load (store m a w) a = w := by
  have hbyte : ∀ (d : BitVec 64), d.toNat < 8 →
      store m a w (a + d) = w.extractLsb' (8 * d.toNat) 8 := fun d hd => by
    have hsub : a + d - a = d := by bv_omega
    rw [store, hsub, if_pos hd]
  have h₀ : store m a w a = w.extractLsb' 0 8 := by
    simpa using hbyte 0 (by decide)
  simp only [load, h₀, hbyte 1 (by decide), hbyte 2 (by decide), hbyte 3 (by decide),
    hbyte 4 (by decide), hbyte 5 (by decide), hbyte 6 (by decide), hbyte 7 (by decide)]
  ext i hi
  simp only [BitVec.getElem_append, BitVec.getElem_extractLsb']
  grind

@[simp] theorem length_words (m : Memory) (a : BitVec 64) (n : ℕ) : (words m a n).length = n := by
  induction n generalizing a with
  | zero => rfl
  | succ n ih => rw [words, List.length_cons, ih]

/-- Words depend on their own bytes only. -/
theorem words_congr (hn : 8 * n ≤ 2 ^ 64) (h : ∀ x, (x - a).toNat < 8 * n → m' x = m x) :
    words m' a n = words m a n := by
  induction n generalizing a with
  | zero => rfl
  | succ n ih =>
    rw [words, words, load_congr fun x hx => h x (by omega),
      ih (by omega) fun x hx => h x (by bv_omega)]

/-- Consecutive words, the first at `a`. -/
def storeWords (m : Memory) (a : BitVec 64) : List (BitVec 64) → Memory
  | [] => m
  | w :: ws => store (storeWords m (a + 8) ws) a w

/-- The memory `m` on the `n` bytes at `a`, and `m'` elsewhere. -/
def overlay (m m' : Memory) (a : BitVec 64) (n : ℕ) : Memory := fun x =>
  if (x - a).toNat < n then m x else m' x

theorem load_store_of_disjoint {b w : BitVec 64} (h : 8 ≤ (b - a).toNat) (h' : 8 ≤ (a - b).toNat) :
    load (store m a w) b = load m b :=
  load_congr fun x hx => store_of_outside (by bv_omega)

theorem words_storeWords {ws : List (BitVec 64)} (h : 8 * ws.length ≤ 2 ^ 64) :
    words (storeWords m a ws) a ws.length = ws := by
  induction ws generalizing a with
  | nil => rfl
  | cons w ws ih =>
    rw [List.length_cons] at h ⊢
    have hrest : words (store (storeWords m (a + 8) ws) a w) (a + 8) ws.length
        = words (storeWords m (a + 8) ws) (a + 8) ws.length :=
      words_congr (by omega) fun x hx => store_of_outside (by bv_omega)
    rw [storeWords, words, load_store, hrest, ih (by omega)]

theorem storeWords_of_outside {ws : List (BitVec 64)} {x : BitVec 64}
    (h : 8 * ws.length ≤ (x - a).toNat) : storeWords m a ws x = m x := by
  induction ws generalizing a with
  | nil => rfl
  | cons w ws ih =>
    rw [List.length_cons] at h
    rw [storeWords, store_of_outside (by omega), ih (by bv_omega)]

theorem overlay_of_inside {x : BitVec 64} (h : (x - a).toNat < n) : overlay m m' a n x = m x :=
  if_pos h

end Memory

open Memory

/-- The registers, and memory. -/
structure Cpu where
  reg : Reg → BitVec 64
  seg : Seg → BitVec 16
  rip : BitVec 64
  rflags : BitVec 64
  mem : Memory

namespace Cpu

def set (s : Cpu) (r : Reg) (w : BitVec 64) : Cpu := { s with reg := Function.update s.reg r w }

def setSeg (s : Cpu) (g : Seg) (w : BitVec 16) : Cpu := { s with seg := Function.update s.seg g w }

/-- A word is written below the stack pointer, which moves down to it. -/
def push (s : Cpu) (w : BitVec 64) : Cpu :=
  { s with
    reg := Function.update s.reg .rsp (s.reg .rsp - 8)
    mem := store s.mem (s.reg .rsp - 8) w }

def pushes : Cpu → List (BitVec 64) → Cpu
  | s, [] => s
  | s, w :: ws => pushes (s.push w) ws

/-- The word the stack pointer points at. -/
def top (s : Cpu) : BitVec 64 := load s.mem (s.reg .rsp)

/-- The stack pointer moves up over a word. -/
def drop (s : Cpu) : Cpu := s.set .rsp (s.reg .rsp + 8)

end Cpu

/-- The flags after `a + b`: `CF`, `PF`, `AF`, `ZF`, `SF` and `OF` are set, the others kept. -/
def addFlags (rflags a b : BitVec 64) : BitVec 64 :=
  let c := a + b
  let flag (n : ℕ) (value : Bool) : BitVec 64 := if value then 1 <<< n else 0
  rflags &&& ~~~0x8d5 ||| flag 0 (c.ult a)
    ||| flag 2 ((List.range 8).countP (c.getLsbD ·) % 2 == 0)
    ||| flag 4 ((a ^^^ b ^^^ c).getLsbD 4) ||| flag 6 (c == 0) ||| flag 7 c.msb
    ||| flag 11 (a.msb == b.msb && c.msb != a.msb)

/-- Instructions, their operands in the order of the AT&T syntax. A segment register takes the low
16 bits of the general one, and gives them back with zeroes above. -/
inductive Instr
  | push (r : Reg)
  | pushImm (w : BitVec 64)
  | pop (r : Reg)
  | mov (src dst : Reg)
  | movImm (w : BitVec 64) (dst : Reg)
  | movFromSeg (g : Seg) (dst : Reg)
  | movToSeg (src : Reg) (g : Seg)
  | addImm (w : BitVec 64) (dst : Reg)
  | cli
  | sti
  deriving DecidableEq

/-- One instruction. The selectors that are loaded into segment registers are taken to be valid. -/
def exec (s : Cpu) : Instr → Cpu
  | .push r => s.push (s.reg r)
  | .pushImm w => s.push w
  | .pop r => s.drop.set r s.top
  | .mov src dst => s.set dst (s.reg src)
  | .movImm w dst => s.set dst w
  | .movFromSeg g dst => s.set dst ((s.seg g).setWidth 64)
  | .movToSeg src g => s.setSeg g ((s.reg src).setWidth 16)
  | .addImm w dst => { s.set dst (s.reg dst + w) with rflags := addFlags s.rflags (s.reg dst) w }
  | .cli => { s with rflags := s.rflags &&& ~~~0x200 }
  | .sti => { s with rflags := s.rflags ||| 0x200 }

/-- Code without jumps. -/
def execAll (s : Cpu) (code : List Instr) : Cpu := code.foldl exec s

theorem execAll_append (s : Cpu) (code code' : List Instr) :
    execAll s (code ++ code') = execAll (execAll s code) code' := List.foldl_append

@[simp] theorem execAll_nil (s : Cpu) : execAll s [] = s := rfl

@[simp] theorem execAll_cons (s : Cpu) (i : Instr) (code : List Instr) :
    execAll s (i :: code) = execAll (exec s i) code := rfl

/-- What `add` does to the flags hardly ever matters. -/
theorem exec_addImm (s : Cpu) (w : BitVec 64) (r : Reg) : ∃ rflags,
    exec s (.addImm w r) = { s.set r (s.reg r + w) with rflags := rflags } :=
  ⟨_, rfl⟩

/-! ### Registers -/

variable {s : Cpu} {r : Reg} {g : Seg} {w : BitVec 64} {ws : List (BitVec 64)}

@[simp] theorem Cpu.set_mem (s : Cpu) (r : Reg) (w : BitVec 64) : (s.set r w).mem = s.mem := rfl

@[simp] theorem Cpu.set_seg (s : Cpu) (r : Reg) (w : BitVec 64) : (s.set r w).seg = s.seg := rfl

@[simp] theorem Cpu.setSeg_reg (s : Cpu) (g : Seg) (w : BitVec 16) :
    (s.setSeg g w).reg = s.reg := rfl

@[simp] theorem Cpu.setSeg_mem (s : Cpu) (g : Seg) (w : BitVec 16) :
    (s.setSeg g w).mem = s.mem := rfl

@[simp] theorem Cpu.set_reg_self (s : Cpu) (r : Reg) (w : BitVec 64) : (s.set r w).reg r = w :=
  Function.update_self ..

theorem Cpu.set_reg_of_ne {r' : Reg} (h : r' ≠ r) : (s.set r w).reg r' = s.reg r' :=
  Function.update_of_ne h ..

@[simp] theorem Cpu.push_seg (s : Cpu) (w : BitVec 64) : (s.push w).seg = s.seg := rfl

@[simp] theorem Cpu.push_rsp (s : Cpu) (w : BitVec 64) :
    (s.push w).reg .rsp = s.reg .rsp - 8 := Function.update_self Reg.rsp _ s.reg

theorem Cpu.push_reg (h : r ≠ .rsp) : (s.push w).reg r = s.reg r := Function.update_of_ne h ..

/-! ### The words on the stack -/

/-- The stack pointer points at the words `ws`, the top of the stack first. -/
def Stack (s : Cpu) (ws : List (BitVec 64)) : Prop := words s.mem (s.reg .rsp) ws.length = ws

theorem stack_nil (s : Cpu) : Stack s [] := rfl

theorem Stack.push (h : Stack s ws) (hlen : 8 * (ws.length + 1) ≤ 2 ^ 64) (w : BitVec 64) :
    Stack (s.push w) (w :: ws) := by
  have haddr : s.reg .rsp - 8 + 8 = s.reg .rsp := by bv_omega
  have hrest : words (store s.mem (s.reg .rsp - 8) w) (s.reg .rsp) ws.length = ws :=
    (words_congr (by omega) fun x hx => store_of_outside (by bv_omega)).trans h
  rw [Stack, Cpu.push_rsp, Cpu.push, List.length_cons, words, load_store, haddr, hrest]

theorem Stack.top (h : Stack s (w :: ws)) : s.top = w := (List.cons.inj h).1

theorem Stack.drop (h : Stack s (w :: ws)) : Stack s.drop ws := by
  rw [Stack, Cpu.drop, Cpu.set_reg_self]
  exact (List.cons.inj h).2

theorem Stack.congr {t : Cpu} (h : Stack s ws) (hrsp : t.reg .rsp = s.reg .rsp)
    (hmem : t.mem = s.mem) : Stack t ws := by
  rw [Stack, hrsp, hmem]
  exact h

theorem Stack.set (h : Stack s ws) (hr : r ≠ .rsp) (w : BitVec 64) : Stack (s.set r w) ws :=
  h.congr (Cpu.set_reg_of_ne hr.symm) rfl

/-! ### A run of pushes -/

/-- From `s` to `t` the words `ws` have been pushed in this order, and no general register has
changed but for the stack pointer and the registers `rs`. -/
structure Pushed (rs : List Reg) (s : Cpu) (ws : List (BitVec 64)) (t : Cpu) : Prop where
  reg : ∀ r, r ∉ rs → r ≠ .rsp → t.reg r = s.reg r
  rsp : t.reg .rsp = s.reg .rsp - 8 * BitVec.ofNat 64 ws.length
  seg : t.seg = s.seg
  rip : t.rip = s.rip
  stack : ∀ ws₀ : List (BitVec 64), 8 * (ws₀.length + ws.length) ≤ 2 ^ 64 → Stack s ws₀ →
    Stack t (ws.reverse ++ ws₀)
  /-- Memory above the stack pointer is not written. -/
  above : ∀ x, (x - s.reg .rsp).toNat + 8 * ws.length < 2 ^ 64 → t.mem x = s.mem x

variable {rs : List Reg}

theorem Pushed.refl (rs : List Reg) (s : Cpu) : Pushed rs s [] s :=
  ⟨fun _ _ _ => rfl, by simp, rfl, rfl, fun _ _ h => h, fun _ _ => rfl⟩

theorem Pushed.trans {t u : Cpu} {ws' : List (BitVec 64)} (h : Pushed rs s ws t)
    (h' : Pushed rs t ws' u) : Pushed rs s (ws ++ ws') u where
  reg r hr hsp := (h'.reg r hr hsp).trans (h.reg r hr hsp)
  rsp := by
    rw [h'.rsp, h.rsp, List.length_append]
    bv_omega
  seg := h'.seg.trans h.seg
  rip := h'.rip.trans h.rip
  stack ws₀ hlen hst := by
    rw [List.length_append] at hlen
    rw [List.reverse_append, List.append_assoc]
    refine h'.stack _ ?_ (h.stack ws₀ (by omega) hst)
    rw [List.length_append, List.length_reverse]
    omega
  above x hx := by
    rw [List.length_append] at hx
    have hrsp := h.rsp
    rw [h'.above x (by bv_omega), h.above x (by omega)]

theorem Pushed.mono {t : Cpu} {rs' : List Reg} (h : Pushed rs s ws t) (hrs : rs ⊆ rs') :
    Pushed rs' s ws t :=
  ⟨fun r hr => h.reg r fun hr' => hr (hrs hr'), h.rsp, h.seg, h.rip, h.stack, h.above⟩

theorem pushed_push (rs : List Reg) (s : Cpu) (w : BitVec 64) : Pushed rs s [w] (s.push w) where
  reg r _ hr := Cpu.push_reg hr
  rsp := Cpu.push_rsp s w
  seg := rfl
  rip := rfl
  stack ws₀ hlen hst := hst.push hlen w
  above x hx := by
    refine store_of_outside ?_
    rw [List.length_singleton] at hx
    bv_omega

/-- What changes neither the stack nor a register that counts. -/
theorem pushed_nil {t : Cpu} (hreg : ∀ r, r ∉ rs → t.reg r = s.reg r) (hrs : .rsp ∉ rs)
    (hseg : t.seg = s.seg) (hrip : t.rip = s.rip) (hmem : t.mem = s.mem) : Pushed rs s [] t where
  reg r hr _ := hreg r hr
  rsp := by simp [hreg .rsp hrs]
  seg := hseg
  rip := hrip
  stack _ _ hst := hst.congr (hreg .rsp hrs) hmem
  above x _ := congrFun hmem x

theorem pushed_set (hr : r ∈ rs) (hrs : .rsp ∉ rs) (w : BitVec 64) : Pushed rs s [] (s.set r w) :=
  pushed_nil (fun _ h => Cpu.set_reg_of_ne (ne_of_mem_of_not_mem hr h).symm) hrs rfl rfl rfl

theorem pushed_pushes (rs : List Reg) (s : Cpu) (ws : List (BitVec 64)) :
    Pushed rs s ws (s.pushes ws) := by
  induction ws generalizing s with
  | nil => exact Pushed.refl rs s
  | cons w ws ih => exact (pushed_push rs s w).trans (ih (s.push w))

/-- Pushing registers. -/
theorem exec_pushes (rs regs : List Reg) (h : .rsp ∉ regs) :
    Pushed rs s (regs.map s.reg) (execAll s (regs.map .push)) := by
  induction regs generalizing s with
  | nil => exact Pushed.refl rs s
  | cons r regs ih =>
    obtain ⟨-, hregs⟩ := not_or.mp (mt List.mem_cons.mpr h)
    have hmap : regs.map (s.push (s.reg r)).reg = regs.map s.reg :=
      List.map_congr_left fun r' hr' => Cpu.push_reg (ne_of_mem_of_not_mem hr' hregs)
    rw [List.map_cons, List.map_cons, execAll_cons, ← hmap]
    exact (pushed_push rs s (s.reg r)).trans (ih hregs)

/-- Pushing segment registers by way of a general one. -/
theorem exec_pushSegs (gs : List Seg) (hr : r ∈ rs) (hrs : .rsp ∉ rs) :
    Pushed rs s (gs.map fun g => (s.seg g).setWidth 64)
      (execAll s (gs.flatMap fun g => [.movFromSeg g r, .push r])) := by
  induction gs generalizing s with
  | nil => exact Pushed.refl rs s
  | cons g gs ih =>
    have hpush := (pushed_set hr hrs ((s.seg g).setWidth 64)).trans
      (pushed_push rs (s.set r ((s.seg g).setWidth 64)) ((s.seg g).setWidth 64))
    have hrest := hpush.trans (ih (s := (s.set r ((s.seg g).setWidth 64)).push
      ((s.seg g).setWidth 64)))
    rw [List.flatMap_cons, execAll_append, execAll_cons, execAll_cons, execAll_nil, exec, exec,
      Cpu.set_reg_self]
    exact hrest

/-! ### A run of pops -/

/-- What a run of pops leaves: the registers `rs` hold the words that were on the stack. -/
structure Popped (s : Cpu) (rs : List Reg) (f : Reg → BitVec 64) (ws : List (BitVec 64))
    (t : Cpu) : Prop where
  reg : ∀ r, r ≠ .rsp → t.reg r = if r ∈ rs then f r else s.reg r
  rsp : t.reg .rsp = s.reg .rsp + 8 * BitVec.ofNat 64 rs.length
  stack : Stack t ws
  seg : t.seg = s.seg
  rip : t.rip = s.rip
  rflags : t.rflags = s.rflags
  mem : t.mem = s.mem

theorem exec_pops {rs : List Reg} {f : Reg → BitVec 64} (h : Stack s (rs.map f ++ ws))
    (hrs : .rsp ∉ rs) : Popped s rs f ws (execAll s (rs.map .pop)) := by
  induction rs generalizing s with
  | nil => exact ⟨fun r _ => rfl, by simp, h, rfl, rfl, rfl, rfl⟩
  | cons r rs ih =>
    obtain ⟨hr, hrs'⟩ := not_or.mp (mt List.mem_cons.mpr hrs)
    rw [List.map_cons, List.cons_append] at h
    obtain ⟨hreg, hrsp, hst, hseg, hrip, hflags, hmem⟩ :=
      ih (h.drop.set (Ne.symm hr) (f r)) hrs'
    rw [List.map_cons, execAll_cons, exec, h.top]
    refine ⟨fun r' hr' => ?_, ?_, hst, hseg, hrip, hflags, hmem⟩
    · rw [hreg r' hr']
      by_cases hmem' : r' ∈ rs
      · rw [if_pos hmem', if_pos (List.mem_cons_of_mem r hmem')]
      · rw [if_neg hmem']
        by_cases heq : r' = r
        · subst heq
          rw [Cpu.set_reg_self, if_pos List.mem_cons_self]
        · rw [Cpu.set_reg_of_ne heq, Cpu.drop, Cpu.set_reg_of_ne hr',
            if_neg (mt List.mem_cons.mp (not_or.mpr ⟨heq, hmem'⟩))]
    · rw [hrsp, Cpu.set_reg_of_ne hr, Cpu.drop, Cpu.set_reg_self, List.length_cons]
      bv_omega

/-- The same for segment registers, by way of a general register. -/
structure PoppedSegs (s : Cpu) (gs : List Seg) (r : Reg) (f : Seg → BitVec 64)
    (ws : List (BitVec 64)) (t : Cpu) : Prop where
  seg : ∀ g, t.seg g = if g ∈ gs then (f g).setWidth 16 else s.seg g
  reg : ∀ r', r' ≠ r → r' ≠ .rsp → t.reg r' = s.reg r'
  rsp : t.reg .rsp = s.reg .rsp + 8 * BitVec.ofNat 64 gs.length
  stack : Stack t ws
  rip : t.rip = s.rip
  rflags : t.rflags = s.rflags
  mem : t.mem = s.mem

theorem exec_popSegs {gs : List Seg} {f : Seg → BitVec 64} (h : Stack s (gs.map f ++ ws))
    (hr : r ≠ .rsp) :
    PoppedSegs s gs r f ws (execAll s (gs.flatMap fun g => [.pop r, .movToSeg r g])) := by
  induction gs generalizing s with
  | nil => exact ⟨fun g => rfl, fun r' _ _ => rfl, by simp, h, rfl, rfl, rfl⟩
  | cons g gs ih =>
    rw [List.map_cons, List.cons_append] at h
    have h' : Stack ((s.drop.set r (f g)).setSeg g ((f g).setWidth 16)) (gs.map f ++ ws) :=
      (h.drop.set hr (f g)).congr rfl rfl
    obtain ⟨hseg, hreg, hrsp, hst, hrip, hflags, hmem⟩ := ih h'
    rw [List.flatMap_cons, execAll_append, execAll_cons, execAll_cons, execAll_nil, exec, h.top,
      exec, Cpu.set_reg_self]
    refine ⟨fun g' => ?_, fun r' hne hr' => ?_, ?_, hst, hrip, hflags, hmem⟩
    · rw [hseg g']
      by_cases hmem' : g' ∈ gs
      · rw [if_pos hmem', if_pos (List.mem_cons_of_mem g hmem')]
      · rw [if_neg hmem', Cpu.setSeg]
        by_cases heq : g' = g
        · subst heq
          rw [if_pos List.mem_cons_self]
          exact Function.update_self ..
        · rw [if_neg (mt List.mem_cons.mp (not_or.mpr ⟨heq, hmem'⟩))]
          exact Function.update_of_ne heq ..
    · rw [hreg r' hne hr']
      exact (Cpu.set_reg_of_ne hne).trans (Cpu.set_reg_of_ne hr')
    · have hrsp' : ((s.drop.set r (f g)).setSeg g ((f g).setWidth 16)).reg .rsp = s.reg .rsp + 8 :=
        (Cpu.set_reg_of_ne hr.symm).trans (Cpu.set_reg_self ..)
      rw [hrsp, hrsp', List.length_cons]
      bv_omega

/-! ### The same code on two memories

Code that only uses the stack computes the same in two states that have the same registers and the
same memory from the stack pointer up to a bound. -/

/-- The same registers, and the same memory between the stack pointer and `bound`. -/
structure SameStack (bound : BitVec 64) (s t : Cpu) : Prop where
  reg : t.reg = s.reg
  seg : t.seg = s.seg
  mem : ∀ x, (x - s.reg .rsp).toNat < (bound - s.reg .rsp).toNat → t.mem x = s.mem x

variable {bound : BitVec 64} {t u : Cpu}

theorem SameStack.refl (bound : BitVec 64) (s : Cpu) : SameStack bound s s :=
  ⟨rfl, rfl, fun _ _ => rfl⟩

theorem SameStack.trans (h : SameStack bound s t) (h' : SameStack bound t u) :
    SameStack bound s u := by
  refine ⟨h'.reg.trans h.reg, h'.seg.trans h.seg, fun x hx => (h'.mem x ?_).trans (h.mem x hx)⟩
  rwa [h.reg]

theorem SameStack.push (h : SameStack bound s t) (hroom : (bound - s.reg .rsp).toNat + 8 < 2 ^ 64)
    (w : BitVec 64) : SameStack bound (s.push w) (t.push w) := by
  refine ⟨by rw [Cpu.push, Cpu.push, h.reg], h.seg, fun x hx => ?_⟩
  rw [Cpu.push_rsp] at hx
  rw [Cpu.push, Cpu.push, h.reg]
  change store t.mem _ w x = store s.mem _ w x
  by_cases hin : (x - (s.reg .rsp - 8)).toNat < 8
  · rw [store, store, if_pos hin, if_pos hin]
  · rw [store_of_outside (by omega), store_of_outside (by omega)]
    exact h.mem x (by bv_omega)

theorem SameStack.set (h : SameStack bound s t) (hr : r ≠ .rsp) (w : BitVec 64) :
    SameStack bound (s.set r w) (t.set r w) := by
  refine ⟨by rw [Cpu.set, Cpu.set, h.reg], h.seg, fun x hx => ?_⟩
  rw [Cpu.set_reg_of_ne hr.symm] at hx
  exact h.mem x hx

theorem SameStack.pop (h : SameStack bound s t) (hroom : 8 ≤ (bound - s.reg .rsp).toNat)
    (hr : r ≠ .rsp) : SameStack bound (exec s (.pop r)) (exec t (.pop r)) := by
  have htop : t.top = s.top := by
    rw [Cpu.top, Cpu.top, h.reg]
    exact load_congr fun x hx => h.mem x (by omega)
  have hdrop : SameStack bound s.drop t.drop := by
    refine ⟨by rw [Cpu.drop, Cpu.drop, Cpu.set, Cpu.set, h.reg], h.seg, fun x hx => ?_⟩
    rw [Cpu.drop, Cpu.set_reg_self] at hx
    exact h.mem x (by bv_omega)
  rw [exec, exec, htop]
  exact hdrop.set hr s.top

/-- The stack of an interrupt that does not change the level starts just below the stack pointer. -/
theorem toNat_sub_and_not_lt (sp : BitVec 64) : (sp - (sp &&& ~~~(15 : BitVec 64))).toNat < 16 := by
  have hmask : sp &&& ~~~(15 : BitVec 64) = sp >>> 4 <<< 4 := by
    rw [BitVec.shiftLeft_ushiftRight]
    rfl
  have hval : (sp &&& ~~~(15 : BitVec 64)).toNat = sp.toNat / 16 * 16 := by
    rw [hmask, BitVec.toNat_shiftLeft, BitVec.toNat_ushiftRight, Nat.shiftRight_eq_div_pow,
      Nat.shiftLeft_eq]
    omega
  bv_omega

/-! ### Interrupts -/

/-- What an entry of the interrupt descriptor table says. -/
structure Gate where
  offset : BitVec 64
  selector : BitVec 16
  /-- The entry of the interrupt stack table, `0` for none. -/
  ist : BitVec 3
  /-- A trap gate leaves the interrupt flag alone. -/
  trap : Bool
  /-- The least privileged level that may use the gate with `int n`. -/
  dpl : BitVec 2
  present : Bool

/-- The stack pointers in the task state segment. -/
structure StackTable where
  rsp0 : BitVec 64
  ist : BitVec 3 → BitVec 64

/-- The current privilege level. -/
def Cpu.cpl (s : Cpu) : BitVec 2 := (s.seg .cs).setWidth 2

/-- Where the processor starts to push, for a handler that runs at privilege level 0. -/
def interruptStack (tss : StackTable) (gate : Gate) (s : Cpu) : BitVec 64 :=
  (if gate.ist ≠ 0 then tss.ist gate.ist else if s.cpl ≠ 0 then tss.rsp0 else s.reg .rsp)
    &&& ~~~15

/-- The flags as the processor saves them. It sets `RF` if the interrupted instruction is to be
resumed, so that an instruction breakpoint is not met twice. -/
def savedFlags (resume : Bool) (s : Cpu) : BitVec 64 :=
  if resume then s.rflags ||| 0x10000 else s.rflags

/-- What the processor pushes, in this order. -/
def interruptWords (resume : Bool) (error : Option (BitVec 64)) (s : Cpu) : List (BitVec 64) :=
  [(s.seg .ss).setWidth 64, s.reg .rsp, savedFlags resume s, (s.seg .cs).setWidth 64, s.rip] ++
    error.toList

/-- The processor after these pushes. -/
def interruptPushed (tss : StackTable) (gate : Gate) (resume : Bool) (error : Option (BitVec 64))
    (s : Cpu) : Cpu :=
  (s.set .rsp (interruptStack tss gate s)).pushes (interruptWords resume error s)

/-- Delivery through a gate to privilege level 0. `ss` becomes null when the level changes; of the
flags `TF`, `NT`, `RF` and `VM` are cleared, and `IF` unless the gate is a trap gate. -/
def interrupt (tss : StackTable) (gate : Gate) (resume : Bool) (error : Option (BitVec 64))
    (s : Cpu) : Cpu :=
  { interruptPushed tss gate resume error s with
    seg := Function.update (if s.cpl ≠ 0 then Function.update s.seg .ss 0 else s.seg) .cs
      gate.selector
    rip := gate.offset
    rflags := s.rflags &&& if gate.trap then ~~~0x34100 else ~~~0x34300 }

/-- The return from an interrupt. -/
def iretq (s : Cpu) : Cpu :=
  { s with
    reg := Function.update s.reg .rsp (load s.mem (s.reg .rsp + 24))
    seg := Function.update
      (Function.update s.seg .cs ((load s.mem (s.reg .rsp + 8)).setWidth 16)) .ss
      ((load s.mem (s.reg .rsp + 32)).setWidth 16)
    rip := load s.mem (s.reg .rsp)
    rflags := load s.mem (s.reg .rsp + 16) }

variable {tss : StackTable} {gate : Gate} {resume : Bool} {error : Option (BitVec 64)}

theorem savedFlags_eq_iff :
    savedFlags resume s = s.rflags ↔ (resume = true → s.rflags.getLsbD 16 = true) := by
  cases resume with
  | false => exact iff_of_true rfl fun h => absurd h Bool.false_ne_true
  | true =>
    refine ⟨fun h _ => ?_, fun h => ?_⟩
    · rw [← h, savedFlags, if_pos rfl, BitVec.getLsbD_or]
      exact Bool.or_true _
    · have hset : s.rflags.getLsbD 16 = true := h rfl
      rw [savedFlags, if_pos rfl]
      refine BitVec.eq_of_getLsbD_eq fun i hi => ?_
      rw [BitVec.getLsbD_or]
      by_cases hi16 : i = 16
      · rw [hi16, hset, Bool.true_or]
      · have hclear : (0x10000 : BitVec 64).getLsbD i = false := by
          have htwo : (0x10000 : BitVec 64) = BitVec.twoPow 64 16 := rfl
          rw [htwo, BitVec.getLsbD_twoPow]
          simp [Ne.symm hi16]
        rw [hclear, Bool.or_false]

/-- Delivery pushes its words on the stack it chooses. -/
theorem pushed_interrupt (tss : StackTable) (gate : Gate) (resume : Bool)
    (error : Option (BitVec 64)) (s : Cpu) :
    Pushed [] (s.set .rsp (interruptStack tss gate s)) (interruptWords resume error s)
      (interruptPushed tss gate resume error s) :=
  pushed_pushes ..

theorem interrupt_rsp : (interrupt tss gate resume error s).reg .rsp
    = interruptStack tss gate s - 40 - 8 * BitVec.ofNat 64 error.toList.length := by
  have hlen : (interruptWords resume error s).length = 5 + error.toList.length := by
    cases error <;> rfl
  have h := (pushed_interrupt tss gate resume error s).rsp
  rw [Cpu.set_reg_self, hlen] at h
  rw [interrupt, h]
  bv_omega

theorem interrupt_reg (h : r ≠ .rsp) : (interrupt tss gate resume error s).reg r = s.reg r := by
  rw [interrupt, (pushed_interrupt tss gate resume error s).reg r List.not_mem_nil h,
    Cpu.set_reg_of_ne h]

/-- Delivery sets `cs` and `ss` only. -/
theorem interrupt_seg (hcs : g ≠ .cs) (hss : g ≠ .ss) :
    (interrupt tss gate resume error s).seg g = s.seg g := by
  rw [interrupt]
  refine (Function.update_of_ne hcs ..).trans ?_
  split
  · rw [Function.update_of_ne hss]
  · rfl

/-- The words on the stack in a handler. -/
theorem stack_interrupt (tss : StackTable) (gate : Gate) (resume : Bool)
    (error : Option (BitVec 64)) (s : Cpu) :
    Stack (interrupt tss gate resume error s) (error.toList ++
      [s.rip, (s.seg .cs).setWidth 64, savedFlags resume s, s.reg .rsp,
        (s.seg .ss).setWidth 64]) := by
  have hlen : (interruptWords resume error s).length ≤ 6 := by cases error <;> simp [interruptWords]
  have h := (pushed_interrupt tss gate resume error s).stack [] (by rw [List.length_nil]; omega)
    (stack_nil _)
  have hrev : (interruptWords resume error s).reverse ++ [] = error.toList ++
      [s.rip, (s.seg .cs).setWidth 64, savedFlags resume s, s.reg .rsp,
        (s.seg .ss).setWidth 64] := by
    cases error <;> rfl
  rw [hrev] at h
  exact h.congr (by rw [interrupt]) (by rw [interrupt])

/-- The return takes the five words off the stack. -/
theorem iretq_eq {rip cs rflags rsp ss : BitVec 64} (h : Stack s [rip, cs, rflags, rsp, ss]) :
    iretq s = { s with
      reg := Function.update s.reg .rsp rsp
      seg := Function.update (Function.update s.seg .cs (cs.setWidth 16)) .ss (ss.setWidth 16)
      rip := rip
      rflags := rflags } := by
  simp only [Stack, List.length_cons, List.length_nil, words, BitVec.add_assoc, BitVec.reduceAdd,
    List.cons.injEq, and_true] at h
  obtain ⟨h0, h1, h2, h3, h4⟩ := h
  rw [iretq, h0]
  simp only [← BitVec.ofNat_eq_ofNat] at h1 h2 h3 h4 ⊢
  rw [h1, h2, h3, h4]

/-! ### System calls -/

/-- The registers that set up `syscall`. -/
structure Msrs where
  star : BitVec 64
  lstar : BitVec 64
  fmask : BitVec 64

/-- `syscall`, `rip` being the address of the next instruction. -/
def syscall (msrs : Msrs) (s : Cpu) : Cpu :=
  { (s.set .rcx s.rip).set .r11 s.rflags with
    seg := Function.update (Function.update s.seg .cs (msrs.star.extractLsb' 32 16 &&& 0xfffc)) .ss
      (msrs.star.extractLsb' 32 16 + 8)
    rip := msrs.lstar
    rflags := s.rflags &&& ~~~msrs.fmask }

/-- `sysretq`. -/
def sysret (msrs : Msrs) (s : Cpu) : Cpu :=
  { s with
    seg := Function.update (Function.update s.seg .cs (msrs.star.extractLsb' 48 16 + 16 ||| 3)) .ss
      (msrs.star.extractLsb' 48 16 + 8 ||| 3)
    rip := s.reg .rcx
    rflags := s.reg .r11 &&& 0x3c7fd7 ||| 2 }

theorem syscall_reg (msrs : Msrs) (s : Cpu) (r : Reg) : (syscall msrs s).reg r
    = if r = .r11 then s.rflags else if r = .rcx then s.rip else s.reg r := by
  rw [syscall]
  by_cases h11 : r = .r11
  · rw [if_pos h11, h11, Cpu.set_reg_self]
  · rw [if_neg h11, Cpu.set_reg_of_ne h11]
    by_cases hcx : r = .rcx
    · rw [if_pos hcx, hcx, Cpu.set_reg_self]
    · rw [if_neg hcx, Cpu.set_reg_of_ne hcx]

end X86
