import FrogOS.Stage2Paging
import FrogOS.Lib.PagedMemory

/-!
# The ELF loader of stage 2

`stage2.asm` from `long_mode` on: the screen is cleared, the program headers of the file image at
`start_of_kernel` are processed one after the other, a greeting is written and the kernel is
called. Paging is on, so every byte goes through the tables, and an address that is not mapped ends
the run, since there is no handler for the fault.

The routines save the registers they use on the stack, with pushes at the start and pops in the
opposite order at the end: `saved r` puts one such pair around the rest of a routine. Of the flags
only the direction flag matters; the results of comparisons are used at once.

## Main definitions

* `Loader` — registers and memory
* `Loader.processHeaderEntry`, `phLoop`, `loadImage` — the loader
* `Loader.startKernel` — what follows the loop, up to the first instruction of the kernel
-/

namespace FrogOS

open ByteMemory Paging

/-- The registers stage 2 uses in long mode. -/
inductive LoaderReg
  | rax | rbx | rcx | rdi | rsi | rsp | rflags
  deriving DecidableEq

/-- The registers and memory. -/
structure Loader where
  reg : LoaderReg → BitVec 64
  mem : ByteMemory

/-- The address of `video`, at which the data of stage 2 starts, and the addresses after the calls.
The assembler chooses them; stage 2 starts at `0x400200` and has room up to the kernel. -/
structure Stage2Labels where
  video : BitVec 64
  clsRet : BitVec 64
  headerRet : BitVec 64
  writeRet : BitVec 64
  halt : BitVec 64
  le_video : 0x400200 ≤ video.toNat
  video_le : video.toNat + 52 ≤ 0x402000

namespace Stage2Labels

variable (L : Stage2Labels)

-- behind `video` and `error_message`
def message2 : BitVec 64 := L.video + 14
def e_phoff : BitVec 64 := L.video + 28
def e_phentsize : BitVec 64 := L.video + 36
def e_phnum : BitVec 64 := L.video + 44

end Stage2Labels

def ascii (text : String) : List (BitVec 8) := text.toList.map fun c => BitVec.ofNat 8 c.toNat

/-- The data of stage 2 from `video` to `message2`. The variables behind it are written before they
are read. -/
def stage2Data : List (BitVec 8) :=
  bytes64 0xb8000 ++ ascii "Error" ++ [0] ++ ascii "Hello, World!" ++ [0]

def Stage2Labels.HoldsData (L : Stage2Labels) (m : ByteMemory) : Prop :=
  ∀ i (h : i < stage2Data.length), m (L.video.toNat + i) = stage2Data[i]

namespace Loader

variable (s : Loader)

/-! ### Instructions -/

def set (r : LoaderReg) (v : BitVec 64) : Loader := { s with reg := Function.update s.reg r v }

def read8 (a : BitVec 64) : Option (BitVec 8) := Paging.read8 0x1000 s.mem a
def read16 (a : BitVec 64) : Option (BitVec 16) := Paging.read16 0x1000 s.mem a
def read32 (a : BitVec 64) : Option (BitVec 32) := Paging.read32 0x1000 s.mem a
def read64 (a : BitVec 64) : Option (BitVec 64) := Paging.read64 0x1000 s.mem a

def write (a : BitVec 64) (bs : List (BitVec 8)) : Option Loader :=
  (writeBytes 0x1000 s.mem a bs).map fun m => { s with mem := m }

/-- The lower half of a register, such as `edi`. Writing it clears the upper half. -/
def low32 (r : LoaderReg) : BitVec 32 := (s.reg r).setWidth 32

def set32 (r : LoaderReg) (v : BitVec 32) : Loader := s.set r (v.setWidth 64)

/-- `mov ax, v` keeps the upper bits. -/
def setAx (v : BitVec 16) : Loader :=
  s.set .rax (s.reg .rax &&& ~~~(0xffff : BitVec 64) ||| v.setWidth 64)

/-- `mov ah, v` -/
def setAh (v : BitVec 8) : Loader :=
  s.set .rax (s.reg .rax &&& ~~~(0xff00 : BitVec 64) ||| v.setWidth 64 <<< 8)

/-- `mov al, v` -/
def setAl (v : BitVec 8) : Loader :=
  s.set .rax (s.reg .rax &&& ~~~(0xff : BitVec 64) ||| v.setWidth 64)

def push (v : BitVec 64) : Option Loader :=
  (s.set .rsp (s.reg .rsp - 8)).write (s.reg .rsp - 8) (bytes64 v)

def pop (r : LoaderReg) : Option Loader := do
  let v ← s.read64 (s.reg .rsp)
  some ((s.set .rsp (s.reg .rsp + 8)).set r v)

/-- `push r`, the code `f` and `pop r`; `pushf` and `popf` for the flags. -/
def saved (r : LoaderReg) (f : Loader → Option Loader) (s : Loader) : Option Loader := do
  let s ← s.push (s.reg r)
  let s ← f s
  s.pop r

/-- The call of a routine that ends with `ret`. The code after the call goes on if the return
address is still where the call left it. -/
def call (ret : BitVec 64) (f : Loader → Option Loader) (s : Loader) : Option Loader := do
  let s ← s.push ret
  let s ← f s
  let a ← s.read64 (s.reg .rsp)
  if a = ret then some (s.set .rsp (s.reg .rsp + 8)) else none

def cld : Loader := s.set .rflags (s.reg .rflags &&& ~~~(0x400 : BitVec 64))

/-- How far a string instruction moves, by the direction flag. -/
def stride (size : BitVec 64) : BitVec 64 :=
  if (s.reg .rflags).getLsbD 10 = true then -size else size

/-- `rep stosb` and `rep stosd`, by the bytes of an element. -/
def repStos (bs : List (BitVec 8)) : Option Loader := do
  let n := s.reg .rcx
  let d := s.stride bs.length
  let m ← fill 0x1000 s.mem (s.reg .rdi) d bs n.toNat
  let s := { s with mem := m }
  some ((s.set .rdi (s.reg .rdi + n * d)).set .rcx 0)

def repMovsb : Option Loader := do
  let n := s.reg .rcx
  let d := s.stride 1
  let m ← copy 0x1000 s.mem (s.reg .rdi) (s.reg .rsi) d n.toNat
  let s := { s with mem := m }
  some (((s.set .rdi (s.reg .rdi + n * d)).set .rsi (s.reg .rsi + n * d)).set .rcx 0)

/-! ### The code -/

def clsBody (s : Loader) : Option Loader :=
  let s := s.set32 .rdi 0xb8000
  let s := s.set32 .rax 0x0f20
  let s := s.set32 .rcx (80 * 25)
  s.repStos (bytes32 (s.low32 .rax))

def cls : Loader → Option Loader := saved .rdi (saved .rax (saved .rcx clsBody))

/-- The code between `jne .skip` and `.skip`. -/
def loadSegment (s : Loader) : Option Loader := do
  let s := s.cld
  let p_paddr ← s.read64 (s.reg .rsi + 24)
  let s := s.set .rdi p_paddr
  let p_memsz ← s.read64 (s.reg .rsi + 40)
  let s := s.set .rcx p_memsz
  let s := s.set .rax 0
  let s ← s.repStos [(s.reg .rax).setWidth 8]
  let p_offset ← s.read64 (s.reg .rsi + 8)
  let s := s.set .rax p_offset
  let s := s.set .rax (s.reg .rax + 0x402000)
  let p_filesz ← s.read64 (s.reg .rsi + 32)
  let s := s.set .rcx p_filesz
  let p_paddr ← s.read64 (s.reg .rsi + 24)
  let s := s.set .rdi p_paddr
  let s := s.set .rsi (s.reg .rax)
  s.repMovsb

def headerBody (s : Loader) : Option Loader := do
  let p_type ← s.read32 (s.reg .rsi)
  let s := s.set32 .rax p_type
  if s.low32 .rax = 1 then s.loadSegment else some s

/-- `rsi` points to the program header. -/
def processHeaderEntry : Loader → Option Loader :=
  saved .rflags (saved .rax (saved .rcx (saved .rsi (saved .rdi headerBody))))

/-- `.ph_loop`, which ends with `loop`, and the headers it was called for. -/
def phLoop (L : Stage2Labels) : ℕ → Loader → Option (List (BitVec 64) × Loader)
  | 0, _ => none
  | fuel + 1, s => do
    let header := s.reg .rsi
    let s ← call L.headerRet processHeaderEntry s
    let e_phentsize ← s.read64 L.e_phentsize
    let s := s.set .rsi (s.reg .rsi + e_phentsize)
    let s := s.set .rcx (s.reg .rcx - 1)
    if s.reg .rcx = 0 then some ([header], s)
    else do
      let (headers, s) ← phLoop L fuel s
      some (header :: headers, s)

/-- `long_mode` up to `.ph_loop`. -/
def longMode (L : Stage2Labels) (s : Loader) : Option Loader := do
  let s ← call L.clsRet cls s
  let s := s.set .rsi 0x402000
  let e_phoff ← s.read64 (s.reg .rsi + 32)
  let s := s.set .rax e_phoff
  let s := s.set .rax (s.reg .rax + 0x402000)
  let s ← s.write L.e_phoff (bytes64 (s.reg .rax))
  let s := s.set .rax 0
  let e_phentsize ← s.read16 (s.reg .rsi + 54)
  let s := s.setAx e_phentsize
  let s ← s.write L.e_phentsize (bytes64 (s.reg .rax))
  let e_phnum ← s.read16 (s.reg .rsi + 56)
  let s := s.setAx e_phnum
  let s ← s.write L.e_phnum (bytes64 (s.reg .rax))
  let first ← s.read64 L.e_phoff
  let s := s.set .rsi first
  let count ← s.read64 L.e_phnum
  some (s.set .rcx count)

/-- `long_mode` up to the end of `.ph_loop`. -/
def loadImage (L : Stage2Labels) (fuel : ℕ) (s : Loader) : Option (List (BitVec 64) × Loader) := do
  let s ← s.longMode L
  s.phLoop L fuel

/-- The loop of `write_string`. -/
def writeLetters : ℕ → Loader → Option Loader
  | 0, _ => none
  | fuel + 1, s => do
    let al ← s.read8 ((s.low32 .rsi + s.low32 .rbx).setWidth 64)
    let s := s.setAl al
    if al = 0 then some s
    else do
      let ax := (s.reg .rax).setWidth 16
      let s ← s.write ((s.low32 .rdi + 2 * s.low32 .rbx).setWidth 64) (bytes16 ax)
      let s := s.set32 .rbx (s.low32 .rbx + 1)
      writeLetters fuel s

def writeStringBody (L : Stage2Labels) (fuel : ℕ) (s : Loader) : Option Loader := do
  let video ← s.read32 L.video
  let s := s.set32 .rdi video
  let s := s.setAh 0x0f
  let s := s.set32 .rbx 0
  let s ← s.writeLetters fuel
  let s := s.set32 .rdi (s.low32 .rdi + 160)
  s.write L.video (bytes32 (s.low32 .rdi))

/-- `rsi` points to the string. -/
def writeString (L : Stage2Labels) (fuel : ℕ) : Loader → Option Loader :=
  saved .rdi (saved .rax (saved .rbx (writeStringBody L fuel)))

/-- What follows `.ph_loop`, up to `call rax`. The result is where the call goes, and the state
there. -/
def startKernel (L : Stage2Labels) (fuel : ℕ) (s : Loader) : Option (BitVec 64 × Loader) := do
  let s := s.set .rsi L.message2
  let s ← call L.writeRet (writeString L fuel) s
  let s := s.set .rsi 0x402000
  let e_entry ← s.read64 (s.reg .rsi + 24)
  let s := s.set .rax e_entry
  let target := s.reg .rax
  let s ← s.push L.halt
  some (target, s)

end Loader

end FrogOS
