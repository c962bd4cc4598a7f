import FrogOS.Lib.ByteMemory

/-!
# The console

`lib/conio.c`: the text screen at `0xB8000`, 25 rows of 80 cells of two bytes, the cursor position
`csr_x`, `csr_y`, and the two registers of the CRT controller that hold it for the hardware.

The cursor variables are `int`s, and integers here: they stay small, and their overflow would be
undefined. The unsigned temporaries of `scroll` and `move_csr` are 32 bits wide. `putch` is cut in
three, after the statements of its body: the character, the wrap at the right edge, and the rest.

## Main definitions

* `Console`, `Console.cls`, `Console.putch` — the model of `conio.c`

## Main results

* `Console.scroll_of_lt`, `Console.scroll_eq` — the two cases of `scroll` that occur
* `Console.crtc_moveCsr` — what the hardware cursor shows
-/

namespace FrogOS

open ByteMemory

/-- `video`. -/
abbrev video : ℕ := 0xB8000

/-- `attrib`, which nothing assigns. -/
def attrib : BitVec 32 := 0xf

/-- The memory, the two cursor variables, and the CRT controller behind the ports `0x3D4` and
`0x3D5`: its index register and its data registers. -/
structure Console where
  mem : ByteMemory
  csrX : ℤ
  csrY : ℤ
  crtcIndex : BitVec 8
  crtc : BitVec 8 → BitVec 8

/-- The address of `video[i]`. -/
def cellAddress (i : ℤ) : ℕ := ((video : ℤ) + 2 * i).toNat

namespace Console

def outportb (c : Console) (port : BitVec 16) (data : BitVec 8) : Console :=
  if port = 0x3D4 then { c with crtcIndex := data }
  else if port = 0x3D5 then { c with crtc := Function.update c.crtc c.crtcIndex data }
  else c

def moveCsr (c : Console) : Console :=
  let temp : BitVec 32 := BitVec.ofInt 32 (c.csrY * 80 + c.csrX)
  (((c.outportb 0x3D4 14).outportb 0x3D5 ((temp >>> 8).setWidth 8)).outportb 0x3D4 15).outportb
    0x3D5 (temp.setWidth 8)

def cls (c : Console) : Console :=
  { c with
    mem := memsetw c.mem video ((attrib <<< 8).setWidth 16) (80 * 25)
    csrX := 0
    csrY := 0 }.moveCsr

def scroll (c : Console) : Console :=
  let blank : BitVec 32 := 0x20 ||| (attrib <<< 8)
  if c.csrY ≥ 25 then
    let temp : BitVec 32 := BitVec.ofInt 32 (c.csrY - 25 + 1)
    let mem := memcpy c.mem video (video + 2 * (temp * 80).toNat) ((25 - temp) * 80 * 2).toNat
    let mem := memsetw mem (video + 2 * ((25 - temp) * 80).toNat) (blank.setWidth 16) 80
    { c with mem := mem, csrY := 25 - 1 }
  else c

/-- The first statement of `putch`, the case distinction on the character. -/
def putchChar (c : Console) (ch : BitVec 8) : Console :=
  let att : BitVec 32 := attrib <<< 8
  if ch = 0x08 then
    if c.csrX ≠ 0 then { c with csrX := c.csrX - 1 } else c
  else if ch = 0x09 then
    -- `(csr_x + 8) & ~(8 - 1)` clears the low three bits
    { c with csrX := c.csrX + 8 - (c.csrX + 8) % 8 }
  else if ch = 0x0D then { c with csrX := 0 }
  else if ch = 0x0A then { c with csrX := 0, csrY := c.csrY + 1 }
  else if ch ≥ 0x20 then
    { c with
      mem := store16 c.mem (cellAddress (c.csrY * 80 + c.csrX))
        ((ch.setWidth 32 ||| att).setWidth 16)
      csrX := c.csrX + 1 }
  else c

/-- The second one, the new line at the right edge. -/
def putchWrap (c : Console) : Console :=
  if c.csrX ≥ 80 then { c with csrX := 0, csrY := c.csrY + 1 } else c

def putch (c : Console) (ch : BitVec 8) : Console :=
  ((c.putchChar ch).putchWrap).scroll.moveCsr

/-- The cell in row `r` and column `k` of the screen. -/
def cell (c : Console) (r k : ℕ) : BitVec 16 := load16 c.mem (video + 2 * (r * 80 + k))

/-! ### The hardware cursor -/

@[simp] theorem moveCsr_mem (c : Console) : c.moveCsr.mem = c.mem := rfl

theorem moveCsr_crtc (c : Console) :
    c.moveCsr.crtc = Function.update (Function.update c.crtc 14
        (((BitVec.ofInt 32 (c.csrY * 80 + c.csrX)) >>> 8).setWidth 8))
      15 ((BitVec.ofInt 32 (c.csrY * 80 + c.csrX)).setWidth 8) := rfl

/-- The high and the low byte of the position, when it is on the screen. -/
theorem crtc_moveCsr {c : Console} {i : ℕ} (hi : c.csrY * 80 + c.csrX = i) (h : i < 2 ^ 16) :
    (c.moveCsr.crtc 14).toNat * 256 + (c.moveCsr.crtc 15).toNat = i := by
  have hne : (14 : BitVec 8) ≠ 15 := by decide
  rw [moveCsr_crtc, Function.update_of_ne hne, Function.update_self, Function.update_self, hi,
    BitVec.ofInt_natCast]
  simp only [BitVec.toNat_setWidth, BitVec.toNat_ushiftRight, BitVec.toNat_ofNat,
    Nat.shiftRight_eq_div_pow]
  omega

/-! ### The screen -/

theorem cls_mem (c : Console) : c.cls.mem = memsetw c.mem video 0x0F00 (80 * 25) := by
  have hblank : (attrib <<< 8).setWidth 16 = (0x0F00 : BitVec 16) := by decide
  rw [cls, moveCsr_mem, hblank]

theorem scroll_of_lt {c : Console} (h : c.csrY < 25) : c.scroll = c :=
  if_neg (not_le.mpr h)

/-- One row: 24 rows move up, the last one is filled with blanks. -/
theorem scroll_eq {c : Console} (h : c.csrY = 25) :
    c.scroll = { c with
      mem := memsetw (memcpy c.mem video (video + 160) 3840) (video + 3840) 0x0F20 80
      csrY := 24 } := by
  rw [scroll, if_pos h.ge, h]
  rfl

end Console

end FrogOS
