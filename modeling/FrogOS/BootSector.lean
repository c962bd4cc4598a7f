import FrogOS.Lib.RealMode
import FrogOS.Lib.StepSystem

/-!
# The boot sector

`boot.asm` up to the jump to protected mode. The sector gives `gs` a limit of 4 GB, reads the first
16 MB of the disk through the BIOS, 64 KB at a time, and copies each part from the buffer at
`0x10000` to its place above 4 MB.

## Representation

* The code between two labels is one step. `.copy_loop` is a step for every word; the letters of a
  message are written in one step.
* `int 0x13` is a parameter: what the processor and memory are like after a call, for the number of
  the call. `ReadsDisk` says what is expected of it.
* Addresses are those with the A20 gate open. Of the accesses to its port nothing is kept: `al` is
  loaded again before it is used. The direction flag has no part in the code.
* `jmp $` is a step that changes nothing. The model ends with the jump to protected mode.

## Main definitions

* `BootLabels`, `bootData` — where the variables are, and what they hold at the start
* `BootSector.step` — the code
* `ReadsDisk` — the extended read function of the BIOS
-/

namespace FrogOS

open ByteMemory RealMode

/-- A string with the zero at its end. -/
def asciiz (text : String) : List (BitVec 8) :=
  (text.toList.map fun c => BitVec.ofNat 8 c.toNat) ++ [0]

/-- `dap` without the number of the first sector. -/
def dapHeader : List (BitVec 8) := [10, 0] ++ bytes16 128 ++ bytes16 0 ++ bytes16 0x1000

/-- The data of the boot sector, from `message` to the end of `dap`. -/
def bootData : List (BitVec 8) :=
  asciiz "Boot sector (asm)----" ++ asciiz "Unreal mode ---------" ++
    asciiz "Protected mode ------" ++ asciiz "Error reading disk---" ++
    asciiz "Done ----------------" ++ bytes64 0xb8000 ++ bytes64 0 ++ [0] ++ dapHeader ++ bytes64 0

/-- The address of `message`, and the addresses after the calls. The assembler chooses them, inside
the sector at `0x7c00`. -/
structure BootLabels where
  message : ℕ
  unrealRet : BitVec 16
  readRet : BitVec 16
  doneRet : BitVec 16
  errorRet : BitVec 16
  le_message : 0x7c00 ≤ message
  message_le : message + 143 ≤ 0x7e00

namespace BootLabels

variable (L : BootLabels)

def unrealMessage : ℕ := L.message + 22
def errorMessage : ℕ := L.message + 66
def doneMessage : ℕ := L.message + 88
def video : ℕ := L.message + 110
-- behind `loop_counter`
def driveNumber : ℕ := L.message + 126
def dap : ℕ := L.message + 127

end BootLabels

def BootLabels.HoldsData (L : BootLabels) (m : ByteMemory) : Prop :=
  ∀ i (h : i < bootData.length), m (L.message + i) = bootData[i]

/-- The labels at which a step starts. -/
inductive BootSector.Place
  | start
  | loop
  | copyLoop
  | done
  | readError
  | hang
  | protectedMode
  deriving DecidableEq

/-- The place in the code, the processor with memory, and how many calls of `int 0x13` there have
been. -/
structure BootSector where
  place : BootSector.Place
  cpu : Cpu
  reads : ℕ

namespace BootSector

/-! ### The routines -/

/-- The loop of `write_string`. It ends at the latest with the segment the letters are in. -/
def writeLetters : ℕ → Cpu → Option Cpu
  | 0, _ => none
  | fuel + 1, c => do
    let al ← c.read8 .ds (c.reg .esi + c.reg .ebx)
    let c := c.setLow8 .eax al
    let c := c.cmp ((c.low8 .eax).setWidth 32) 0
    if c.low8 .eax = 0 then some c
    else do
      let c ← c.write .gs (c.reg .edi + c.reg .ebx * 2) (bytes16 (c.low16 .eax))
      writeLetters fuel (c.inc .ebx)

/-- `write_string`. `esi` points to the string. -/
def writeString (L : BootLabels) (c : Cpu) : Option Cpu := do
  let video ← c.read32 .ds (BitVec.ofNat 32 L.video)
  let c := c.set .edi video
  let c := c.xorSelf .ebx
  let c := c.setHigh8 .eax 0x0f
  let c ← writeLetters (c.limit .ds) c
  let c := c.add .edi 160
  c.write .ds (BitVec.ofNat 32 L.video) (bytes32 (c.reg .edi))

/-- What `read_from_disk` does between its pushes and its pops. -/
def readBody (L : BootLabels) (int13 : Cpu → Cpu) (c : Cpu) : Option Cpu := do
  let c ← c.write .ds (BitVec.ofNat 32 (L.dap + 8)) (bytes32 (c.reg .ecx))
  let dl ← c.read8 .ds (BitVec.ofNat 32 L.driveNumber)
  let c := c.setLow8 .edx dl
  let c := c.setHigh8 .eax 0x42
  let c := c.setLow16 .ebx 0x55aa
  let c := c.setLow16 .esi (BitVec.ofNat 16 L.dap)
  some (int13 c)

/-- `read_from_disk`. -/
def readFromDisk (L : BootLabels) (int13 : Cpu → Cpu) : Cpu → Option Cpu :=
  Cpu.saved .ebx (Cpu.saved .ecx (Cpu.saved .edx (Cpu.saved .esi (readBody L int13))))

/-! ### The code between the labels -/

/-- From `mov eax, cr0` to the second `mov gs, eax`. In `.flush1` the processor is in protected
mode: the descriptor with selector `0x20` gives `gs` a limit of 4 GB. -/
def unrealMode (c : Cpu) : Cpu :=
  let c := c.set .eax c.cr0
  let c := c.set .ebx (c.reg .eax)
  let c := c.set .eax (c.reg .eax ||| 1)
  let c := { c with cr0 := c.reg .eax }
  let c := c.set .eax 0x20
  let c := { c.setSeg .gs (c.low16 .eax) with limit := Function.update c.limit .gs (2 ^ 32) }
  let c := { c with cr0 := c.reg .ebx }
  let c := c.xorSelf .eax
  c.setSeg .gs (c.low16 .eax)

/-- From the first instruction to `.loop`. -/
def start (L : BootLabels) (c : Cpu) : Option Cpu := do
  let c := { c with sp := 0x9000 }
  let c ← c.write .ds (BitVec.ofNat 32 L.driveNumber) [c.low8 .edx]
  let c := unrealMode c
  let c := c.set .esi (BitVec.ofNat 32 L.unrealMessage)
  let c ← c.call L.unrealRet (writeString L)
  some (c.xorSelf .ecx)

/-- From `.loop` to the pop after the call. -/
def readNext (L : BootLabels) (int13 : Cpu → Cpu) : Cpu → Option Cpu :=
  Cpu.saved .ecx fun c => (c.shl .ecx 7).call L.readRet (readFromDisk L int13)

/-- From there to `.copy_loop`. -/
def prepareCopy (c : Cpu) : Option Cpu := do
  let c ← c.push (bytes32 (c.reg .ecx))
  let c := c.shl .ecx 16
  let c := c.add .ecx 0x400000
  let c := c.set .edi (c.reg .ecx)
  let c := c.setLow16 .eax 0x1000
  let c := c.setSeg .fs (c.low16 .eax)
  let c := c.xorSelf .esi
  some (c.set .ecx (0x10000 / 4))

/-- `.copy_loop`. In 16-bit code `loop` counts in `cx`. -/
def copyWord (c : Cpu) : Option Cpu := do
  let v ← c.read32 .fs (c.reg .esi)
  let c := c.set .eax v
  let c ← c.write .gs (c.reg .edi) (bytes32 (c.reg .eax))
  let c := c.add .esi 4
  let c := c.add .edi 4
  some (c.setLow16 .ecx (c.low16 .ecx - 1))

/-- `READ_ITERATIONS`. -/
def readIterations : BitVec 32 := 128 * 256 / 128

/-- From the end of `.copy_loop` to the jump back to `.loop`. -/
def countIteration (c : Cpu) : Option Cpu := do
  let c ← c.pop .ecx
  let c := c.inc .ecx
  some (c.cmp (c.reg .ecx) readIterations)

/-- The step from a label to the next one. -/
def step (L : BootLabels) (int13 : ℕ → Cpu → Cpu) (s : BootSector) : Unit → Option BootSector
  | () => match s.place with
    | .start => (start L s.cpu).map fun c => ⟨.loop, c, s.reads⟩
    | .loop => do
      let c ← readNext L (int13 s.reads) s.cpu
      if c.cf = true then some ⟨.readError, c, s.reads + 1⟩
      else (prepareCopy c).map fun c => ⟨.copyLoop, c, s.reads + 1⟩
    | .copyLoop => do
      let c ← copyWord s.cpu
      if c.low16 .ecx ≠ 0 then some ⟨.copyLoop, c, s.reads⟩
      else do
        let c ← countIteration c
        if (c.reg .ecx).slt readIterations = true then some ⟨.loop, c, s.reads⟩
        else some ⟨.done, c, s.reads⟩
    | .done => do
      let c := s.cpu.set .esi (BitVec.ofNat 32 L.doneMessage)
      let c ← c.call L.doneRet (writeString L)
      let c := c.set .eax c.cr0
      let c := c.set .eax (c.reg .eax ||| 1)
      some ⟨.protectedMode, { c with cr0 := c.reg .eax }, s.reads⟩
    | .readError => do
      let c := s.cpu.set .esi (BitVec.ofNat 32 L.errorMessage)
      let c ← c.call L.errorRet (writeString L)
      some ⟨.hang, c, s.reads⟩
    | .hang => some s
    | .protectedMode => none

end BootSector

/-! ### The BIOS -/

/-- The buffer that `dap` names. -/
def diskBuffer : Set ℕ := Set.Ico 0x10000 0x20000

/-- The packet at `p` asks for the sectors from `lba` on that fill the buffer. -/
structure PacketAt (m : ByteMemory) (p lba : ℕ) : Prop where
  header : ∀ i (h : i < dapHeader.length), m (p + i) = dapHeader[i]
  lba_eq : (load64 m (p + 8)).toNat = lba

/-- A call of the extended read function for the drive, with the packet at `p`. -/
structure AsksFor (c : Cpu) (drive : BitVec 8) (p lba : ℕ) : Prop where
  function : c.high8 .eax = 0x42
  drive_eq : c.low8 .edx = drive
  address : (c.seg .ds).toNat * 16 + (c.low16 .esi).toNat = p
  packet : PacketAt c.mem p lba

/-- The result of such a call. After a success the buffer holds 128 sectors of `disk` and the carry
flag is clear; after a failure it is set. Stack and segments are given back, and memory changes in
the buffer and on the stack only, above the boot sector; a failure may also change the packet. -/
structure ReadResult (disk : ℕ → BitVec 8) (success : Bool) (c : Cpu) (p lba : ℕ) (t : Cpu) :
    Prop where
  sp : t.sp = c.sp
  seg : t.seg = c.seg
  limit : t.limit = c.limit
  cf : t.cf = !success
  buffer : success = true → ∀ k < 128 * 512, t.mem (0x10000 + k) = disk (512 * lba + k)
  mem : ∀ x, x ∉ diskBuffer → ¬ (0x7e00 ≤ x ∧ x < (c.seg .ss).toNat * 16 + c.sp.toNat) →
    (success = true ∨ ¬ (p ≤ x ∧ x < p + 16)) → t.mem x = c.mem x

/-- The BIOS reads from `disk`, and call `i` succeeds if `ok i`. Nothing is expected of a call that
asks for sectors beyond the end of the disk. -/
def ReadsDisk (int13 : ℕ → Cpu → Cpu) (disk : ℕ → BitVec 8) (sectors : ℕ) (drive : BitVec 8)
    (ok : ℕ → Bool) : Prop :=
  ∀ i c p lba, lba + 128 ≤ sectors → AsksFor c drive p lba →
    ReadResult disk (ok i) c p lba (int13 i c)

/-- A BIOS that changes the buffer and the carry flag only. -/
def biosRead (disk : ℕ → BitVec 8) (ok : ℕ → Bool) (i : ℕ) (c : Cpu) : Cpu :=
  let p := (c.seg .ds).toNat * 16 + (c.low16 .esi).toNat
  let lba := (load64 c.mem (p + 8)).toNat
  if ok i = true then
    { c with
      cf := false
      mem := fun x => if 0x10000 ≤ x ∧ x < 0x20000 then disk (512 * lba + (x - 0x10000))
        else c.mem x }
  else { c with cf := true }

theorem readsDisk_biosRead (disk : ℕ → BitVec 8) (sectors : ℕ) (drive : BitVec 8)
    (ok : ℕ → Bool) : ReadsDisk (biosRead disk ok) disk sectors drive ok := by
  rintro i c p lba - ⟨-, -, rfl, hpacket⟩
  cases hread : ok i with
  | true =>
    rw [biosRead, if_pos hread]
    refine ⟨rfl, rfl, rfl, rfl, fun _ k hk => ?_, fun x hx _ _ => if_neg hx⟩
    have hbuffer : 0x10000 ≤ 0x10000 + k ∧ 0x10000 + k < 0x20000 := by omega
    simp only [if_pos hbuffer, Nat.add_sub_cancel_left, hpacket.lba_eq]
  | false =>
    rw [biosRead, if_neg (by rw [hread]; exact Bool.false_ne_true)]
    exact ⟨rfl, rfl, rfl, rfl, fun h => absurd h Bool.false_ne_true, fun _ _ _ _ => rfl⟩

end FrogOS
