import FrogOS.Lib.ByteMemory
import Mathlib.Data.Set.Function
import Mathlib.Order.Interval.Set.Basic

/-!
# A processor in real mode

The registers are 32 bits wide, as they are from the 386 on. An access names a segment register and
an offset; it goes to 16 times the one plus the other, and faults if it passes the limit of the
segment. Limits are those of the processor's hidden registers: loading a segment register in real
mode changes the base and leaves the limit alone, so that a segment can keep a limit of 4 GB that it
was given in protected mode.

The stack segment is a 16-bit segment: pushes and pops use `sp`, and wrap around at 64 KB.

## Main definitions

* `RealMode.Cpu`, `Cpu.access` — registers and memory, segmented addresses
* `Cpu.saved`, `Cpu.call` — code between a push and a pop, and in a routine
* `Cpu.Returns` — code that gives back stack and segments, with the memory it may change

## Main results

* `Returns.saved`, `Returns.call` — the rules for the stack
-/

namespace RealMode

open ByteMemory

/-- The general registers but for `esp`. -/
inductive Reg
  | eax | ebx | ecx | edx | esi | edi | ebp
  deriving DecidableEq

inductive Seg
  | cs | ds | es | fs | gs | ss
  deriving DecidableEq

structure Cpu where
  reg : Reg → BitVec 32
  sp : BitVec 16
  seg : Seg → BitVec 16
  /-- How many bytes a segment has. -/
  limit : Seg → ℕ
  cr0 : BitVec 32
  /-- The carry flag. -/
  cf : Bool
  mem : ByteMemory

namespace Cpu

variable (c : Cpu)

/-! ### Memory -/

/-- The address of `n` bytes at an offset. -/
def access (g : Seg) (a : BitVec 32) (n : ℕ) : Option ℕ :=
  if a.toNat + n ≤ c.limit g then some (((c.seg g).toNat * 16 + a.toNat) % 2 ^ 32) else none

def read8 (g : Seg) (a : BitVec 32) : Option (BitVec 8) := (c.access g a 1).map c.mem

def read16 (g : Seg) (a : BitVec 32) : Option (BitVec 16) := (c.access g a 2).map (load16 c.mem)

def read32 (g : Seg) (a : BitVec 32) : Option (BitVec 32) := (c.access g a 4).map (load32 c.mem)

def write (g : Seg) (a : BitVec 32) (bs : List (BitVec 8)) : Option Cpu :=
  (c.access g a bs.length).map fun p => { c with mem := storeBytes c.mem p bs }

/-! ### Registers -/

def set (r : Reg) (v : BitVec 32) : Cpu := { c with reg := Function.update c.reg r v }

/-- The lower half of a register, such as `cx`. -/
def low16 (r : Reg) : BitVec 16 := (c.reg r).setWidth 16

def setLow16 (r : Reg) (v : BitVec 16) : Cpu :=
  c.set r ((c.reg r).extractLsb' 16 16 ++ v)

/-- `al`, `dl` and so on. -/
def low8 (r : Reg) : BitVec 8 := (c.reg r).setWidth 8

def setLow8 (r : Reg) (v : BitVec 8) : Cpu := c.set r ((c.reg r).extractLsb' 8 24 ++ v)

/-- `ah`, `dh` and so on. -/
def high8 (r : Reg) : BitVec 8 := (c.reg r).extractLsb' 8 8

def setHigh8 (r : Reg) (v : BitVec 8) : Cpu :=
  c.set r ((c.reg r).extractLsb' 16 16 ++ v ++ (c.reg r).setWidth 8)

/-- `mov g, v` in real mode. -/
def setSeg (g : Seg) (v : BitVec 16) : Cpu := { c with seg := Function.update c.seg g v }

/-! ### Arithmetic. Of the flags only the carry flag is kept. -/

def xorSelf (r : Reg) : Cpu := { c.set r 0 with cf := false }

/-- `shl r, n`, for `n` between 1 and 31. -/
def shl (r : Reg) (n : ℕ) : Cpu :=
  { c.set r (c.reg r <<< n) with cf := (c.reg r).getLsbD (32 - n) }

def add (r : Reg) (v : BitVec 32) : Cpu :=
  { c.set r (c.reg r + v) with cf := decide (2 ^ 32 ≤ (c.reg r).toNat + v.toNat) }

/-- `inc` does not change the carry flag. -/
def inc (r : Reg) : Cpu := c.set r (c.reg r + 1)

def cmp (v w : BitVec 32) : Cpu := { c with cf := decide (v < w) }

/-! ### The stack -/

def push (bs : List (BitVec 8)) : Option Cpu :=
  let sp := c.sp - BitVec.ofNat 16 bs.length
  { c with sp := sp }.write .ss (sp.setWidth 32) bs

def pop (r : Reg) : Option Cpu := do
  let v ← c.read32 .ss (c.sp.setWidth 32)
  some ({ c with sp := c.sp + 4 }.set r v)

/-- `push r`, the code `f` and `pop r`. -/
def saved (r : Reg) (f : Cpu → Option Cpu) (c : Cpu) : Option Cpu := do
  let c ← c.push (bytes32 (c.reg r))
  let c ← f c
  c.pop r

/-- The call of a routine that ends with `ret`. The code after the call goes on if the return
address is still where the call left it. -/
def call (ret : BitVec 16) (f : Cpu → Option Cpu) (c : Cpu) : Option Cpu := do
  let c ← c.push (bytes16 ret)
  let c ← f c
  let a ← c.read16 .ss (c.sp.setWidth 32)
  if a = ret then some { c with sp := c.sp + 2 } else none

/-! ### Segments at address zero -/

variable {c}

theorem access_of_zero {g : Seg} {a : BitVec 32} {n : ℕ} (hseg : c.seg g = 0)
    (h : a.toNat + n ≤ c.limit g) : c.access g a n = some a.toNat := by
  have hzero : (0 : BitVec 16).toNat = 0 := rfl
  rw [access, if_pos h, hseg, hzero, Nat.zero_mul, Nat.zero_add, Nat.mod_eq_of_lt a.isLt]

theorem read8_of_zero {g : Seg} {a : BitVec 32} (hseg : c.seg g = 0)
    (h : a.toNat + 1 ≤ c.limit g) : c.read8 g a = some (c.mem a.toNat) := by
  rw [read8, access_of_zero hseg h, Option.map_some]

theorem read32_of_zero {g : Seg} {a : BitVec 32} (hseg : c.seg g = 0)
    (h : a.toNat + 4 ≤ c.limit g) : c.read32 g a = some (load32 c.mem a.toNat) := by
  rw [read32, access_of_zero hseg h, Option.map_some]

theorem write_of_zero {g : Seg} {a : BitVec 32} (bs : List (BitVec 8)) (hseg : c.seg g = 0)
    (h : a.toNat + bs.length ≤ c.limit g) :
    c.write g a bs = some { c with mem := storeBytes c.mem a.toNat bs } := by
  rw [write, access_of_zero hseg h, Option.map_some]

/-- A write that does not fault. -/
theorem eq_of_write {g : Seg} {a : BitVec 32} {bs : List (BitVec 8)} {d : Cpu}
    (hseg : c.seg g = 0) (h : c.write g a bs = some d) :
    d = { c with mem := storeBytes c.mem a.toNat bs } := by
  obtain ⟨p, hp, rfl⟩ := Option.map_eq_some_iff.mp h
  obtain ⟨hle, -⟩ := Option.ite_none_right_eq_some.mp hp
  rw [access_of_zero hseg hle, Option.some_inj] at hp
  rw [hp]

/-! ### Registers read back -/

@[simp] theorem set_reg_self (c : Cpu) (r : Reg) (v : BitVec 32) : (c.set r v).reg r = v :=
  Function.update_self ..

theorem set_reg_of_ne {r r' : Reg} (h : r' ≠ r) (v : BitVec 32) :
    (c.set r v).reg r' = c.reg r' := Function.update_of_ne h ..

theorem low8_setLow8 (c : Cpu) (r : Reg) (v : BitVec 8) : (c.setLow8 r v).low8 r = v := by
  rw [low8, setLow8, set_reg_self, BitVec.setWidth_append_eq_right]

theorem low16_setLow16 (c : Cpu) (r : Reg) (v : BitVec 16) : (c.setLow16 r v).low16 r = v := by
  rw [low16, setLow16, set_reg_self, BitVec.setWidth_append_eq_right]

theorem high8_setHigh8 (c : Cpu) (r : Reg) (v : BitVec 8) : (c.setHigh8 r v).high8 r = v := by
  rw [high8, setHigh8, set_reg_self]
  ext i hi
  simp only [BitVec.getElem_extractLsb', BitVec.getLsbD_append]
  grind

/-! ### Code that gives back stack and segments -/

/-- The processor after a push that finds room. -/
def pushed (c : Cpu) (bs : List (BitVec 8)) : Cpu :=
  { c with
    sp := c.sp - BitVec.ofNat 16 bs.length
    mem := storeBytes c.mem (c.sp.toNat - bs.length) bs }

/-- The stack segment starts at address zero, and the stack has room for `n` bytes above `lo`. -/
structure StackRoom (lo : ℕ) (c : Cpu) (n : ℕ) : Prop where
  seg : c.seg .ss = 0
  limit : c.limit .ss = 2 ^ 16
  room : lo + n ≤ c.sp.toNat

section stack

variable {lo n : ℕ} {bs : List (BitVec 8)} {A : Set ℕ} {t u : Cpu}

theorem toNat_pushed_sp (h : bs.length ≤ c.sp.toNat) :
    (c.pushed bs).sp.toNat = c.sp.toNat - bs.length := by
  have hlt := c.sp.isLt
  rw [pushed, BitVec.toNat_sub, BitVec.toNat_ofNat, Nat.mod_eq_of_lt (h.trans_lt hlt)]
  omega

theorem push_eq (h : StackRoom lo c bs.length) : c.push bs = some (c.pushed bs) := by
  have hlt := c.sp.isLt
  have hle : bs.length ≤ c.sp.toNat := (Nat.le_add_left _ _).trans h.room
  have hsp : ((c.sp - BitVec.ofNat 16 bs.length).setWidth 32).toNat = c.sp.toNat - bs.length := by
    rw [BitVec.toNat_setWidth]
    exact (Nat.mod_eq_of_lt (by omega)).trans (toNat_pushed_sp hle)
  have hlimit : c.sp.toNat - bs.length + bs.length ≤ c.limit .ss := by
    rw [h.limit]
    omega
  rw [push]
  have hwrite := write_of_zero (c := { c with sp := c.sp - BitVec.ofNat 16 bs.length }) bs h.seg
    (hsp ▸ hlimit)
  rw [hsp] at hwrite
  exact hwrite

theorem StackRoom.mono {k : ℕ} (h : StackRoom lo c k) (hk : n ≤ k) : StackRoom lo c n :=
  ⟨h.seg, h.limit, (Nat.add_le_add_left hk lo).trans h.room⟩

/-- From `c` to `t`, stack pointer and segments are as before. Memory changes in `A`, and on the
stack above `lo` and below the stack pointer. -/
structure Returns (A : Set ℕ) (lo : ℕ) (c t : Cpu) : Prop where
  sp : t.sp = c.sp
  seg : t.seg = c.seg
  limit : t.limit = c.limit
  mem : ∀ x, x ∉ A → ¬ (lo ≤ x ∧ x < c.sp.toNat) → t.mem x = c.mem x

theorem Returns.mono {B : Set ℕ} {lo' : ℕ} (h : Returns A lo c t) (hA : A ⊆ B) (hlo : lo' ≤ lo) :
    Returns B lo' c t :=
  ⟨h.sp, h.seg, h.limit, fun x hx hstack =>
    h.mem x (fun hin => hx (hA hin)) fun hin => hstack ⟨hlo.trans hin.1, hin.2⟩⟩

theorem Returns.trans (h : Returns A lo c t) (h' : Returns A lo t u) : Returns A lo c u :=
  ⟨h'.sp.trans h.sp, h'.seg.trans h.seg, h'.limit.trans h.limit, fun x hA hx =>
    (h'.mem x hA (by rwa [h.sp])).trans (h.mem x hA hx)⟩

/-- The code leaves what was pushed before it, if that is not in `A`. -/
theorem Returns.mem_pushed (h : Returns A lo (c.pushed bs) t) (hn : bs.length = n)
    (hroom : StackRoom lo c n) (hA : ∀ x ∈ A, x < lo ∨ c.sp.toNat ≤ x) (i : ℕ)
    (hi : i < bs.length) : t.mem (c.sp.toNat - n + i) = bs[i] := by
  subst hn
  have hr := hroom.room
  have hnot : c.sp.toNat - bs.length + i ∉ A := fun hin => by
    rcases hA _ hin with hlt | hle <;> omega
  have habove : ¬ (lo ≤ c.sp.toNat - bs.length + i ∧
      c.sp.toNat - bs.length + i < (c.pushed bs).sp.toNat) := by
    rw [toNat_pushed_sp (by omega)]
    omega
  rw [h.mem _ hnot habove]
  exact storeBytes_of_inside hi

/-- What the code changes between a push and the pop, seen from outside. -/
theorem Returns.of_pushed (h : Returns A lo (c.pushed bs) t) (hroom : StackRoom lo c bs.length)
    {x : ℕ} (hA : x ∉ A) (hx : ¬ (lo ≤ x ∧ x < c.sp.toNat)) : t.mem x = c.mem x := by
  have hr := hroom.room
  have habove : ¬ (lo ≤ x ∧ x < (c.pushed bs).sp.toNat) := by
    rw [toNat_pushed_sp (by omega)]
    omega
  rw [h.mem x hA habove]
  exact storeBytes_of_outside (by omega)

/-- The stack pointer after the code, where the pushed bytes are. -/
theorem Returns.toNat_sp (h : Returns A lo (c.pushed bs) t) (hn : bs.length = n)
    (hroom : StackRoom lo c n) : (t.sp.setWidth 32).toNat = c.sp.toNat - n ∧
      t.sp + BitVec.ofNat 16 n = c.sp ∧ c.sp.toNat - n + n ≤ t.limit .ss := by
  subst hn
  have hlt := c.sp.isLt
  have hr := hroom.room
  refine ⟨?_, ?_, ?_⟩
  · rw [h.sp, BitVec.toNat_setWidth, toNat_pushed_sp (by omega)]
    omega
  · rw [h.sp]
    exact BitVec.sub_add_cancel c.sp _
  · rw [h.limit]
    exact le_of_le_of_eq (by omega) hroom.limit.symm

/-- **A pair of a push and a pop** around code that returns: the register is as before. -/
theorem Returns.saved {r : Reg} {f : Cpu → Option Cpu} (hroom : StackRoom lo c 4)
    (hA : ∀ x ∈ A, x < lo ∨ c.sp.toNat ≤ x) (hf : f (c.pushed (bytes32 (c.reg r))) = some t)
    (h : Returns A lo (c.pushed (bytes32 (c.reg r))) t) :
    ∃ u, c.saved r f = some u ∧ u.reg = Function.update t.reg r (c.reg r) ∧ u.cf = t.cf ∧
      u.mem = t.mem ∧ Returns A lo c u := by
  have hlen := length_bytes32 (c.reg r)
  have hroom' : StackRoom lo c (bytes32 (c.reg r)).length := by rwa [hlen]
  obtain ⟨hsp, hback, hlimit⟩ := h.toNat_sp hlen hroom
  have hload : load32 t.mem (c.sp.toNat - 4) = c.reg r := by
    refine (load32_congr fun i hi => ?_).trans (load32_store32 t.mem (c.sp.toNat - 4) (c.reg r))
    rw [h.mem_pushed hlen hroom hA i (by rwa [hlen])]
    exact (storeBytes_of_inside _).symm
  have hread : t.read32 .ss (t.sp.setWidth 32) = some (c.reg r) := by
    rw [read32_of_zero (h.seg ▸ hroom.seg) (by rwa [hsp]), hsp, hload]
  have hpop : t.pop r = some ({ t with sp := c.sp }.set r (c.reg r)) := by
    rw [pop, hread]
    exact congrArg (fun sp => some ({ t with sp := sp }.set r (c.reg r))) hback
  refine ⟨_, Option.bind_eq_some_iff.mpr ⟨_, push_eq hroom', Option.bind_eq_some_iff.mpr
    ⟨_, hf, hpop⟩⟩, rfl, rfl, rfl, rfl, h.seg, h.limit, fun x hA' hx => ?_⟩
  exact h.of_pushed hroom' hA' hx

/-- **A call** of code that returns. -/
theorem Returns.call {ret : BitVec 16} {f : Cpu → Option Cpu} (hroom : StackRoom lo c 2)
    (hA : ∀ x ∈ A, x < lo ∨ c.sp.toNat ≤ x) (hf : f (c.pushed (bytes16 ret)) = some t)
    (h : Returns A lo (c.pushed (bytes16 ret)) t) :
    ∃ u, c.call ret f = some u ∧ u.reg = t.reg ∧ u.cf = t.cf ∧ u.mem = t.mem ∧
      Returns A lo c u := by
  have hlen : (bytes16 ret).length = 2 := rfl
  have hroom' : StackRoom lo c (bytes16 ret).length := hroom
  obtain ⟨hsp, hback, hlimit⟩ := h.toNat_sp hlen hroom
  have hbytes : ∀ i < 2, t.mem (c.sp.toNat - 2 + i)
      = store16 t.mem (c.sp.toNat - 2) ret (c.sp.toNat - 2 + i) := fun i hi =>
    (h.mem_pushed hlen hroom hA i hi).trans (storeBytes_of_inside hi).symm
  have hload : load16 t.mem (c.sp.toNat - 2) = ret :=
    (load16_congr (hbytes 0 (by omega)) (hbytes 1 (by omega))).trans
      (load16_store16 t.mem (c.sp.toNat - 2) ret)
  have hread : t.read16 .ss (t.sp.setWidth 32) = some ret := by
    rw [read16, access_of_zero (h.seg ▸ hroom.seg) (by rwa [hsp]), hsp, Option.map_some, hload]
  refine ⟨{ t with sp := t.sp + 2 }, ?_, rfl, rfl, rfl, hback, h.seg, h.limit,
    fun x hA' hx => h.of_pushed hroom' hA' hx⟩
  refine Option.bind_eq_some_iff.mpr ⟨_, push_eq hroom', Option.bind_eq_some_iff.mpr
    ⟨_, hf, Option.bind_eq_some_iff.mpr ⟨_, hread, if_pos rfl⟩⟩⟩

end stack

end Cpu

end RealMode
