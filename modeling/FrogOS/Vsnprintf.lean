import FrogOS.Lib.ByteMemory

/-!
# The formatter

`_vsnprintf` of `lib/printf.c` and what it calls, as `lib/Makefile` builds it: without the
floating-point conversions, so `f`, `e` and `g` are unknown specifiers here.

The format and the strings are read from memory while the output is written, and the output may go
to the same memory, so every read is from the memory of the moment, `mem s`. A `va_list` is the list
of the 64-bit slots that are still to be read; reading past its end is undefined, and `none`. The
loops that run until a byte of the memory stops them take fuel; the others are bounded by a count,
or by the buffer of `_ntoa_long`. `0 - value` for the least `int` wraps.

The three parameters `out`, `buffer` and `maxlen` that all functions pass on are a `Sink`, and
`idx` with the state that `out` acts on is a `Cursor`. The local variables of one round of the main
loop are a `Locals`.

## Main definitions

* `vsnprintf` — `_vsnprintf`
* `Vsnprintf.ntoaLong`, `Vsnprintf.ntoaFormat`, `Vsnprintf.outRev` — the integer conversions
-/

namespace FrogOS

/-- A character constant. -/
def byteOf (c : Char) : BitVec 8 := BitVec.ofNat 8 c.toNat

/-- `out_fct_type`: the character, `buffer`, `idx` and `maxlen`. -/
abbrev OutFct (σ : Type) : Type := BitVec 8 → ℕ → BitVec 64 → BitVec 64 → σ → σ

structure Sink (σ : Type) where
  out : OutFct σ
  buffer : ℕ
  maxlen : BitVec 64

structure Cursor (σ : Type) where
  idx : BitVec 64
  state : σ

namespace Vsnprintf

/-- The bits `FLAGS_ZEROPAD` to `FLAGS_PRECISION`. -/
structure Flags where
  zeropad : Bool := false
  left : Bool := false
  plus : Bool := false
  space : Bool := false
  hash : Bool := false
  uppercase : Bool := false
  char : Bool := false
  short : Bool := false
  long : Bool := false
  longLong : Bool := false
  precision : Bool := false
  deriving DecidableEq

variable {σ : Type}

/-! ### Output -/

/-- `_out_null`. -/
def outNull : OutFct σ := fun _ _ _ _ s => s

/-- `out(c, buffer, idx++, maxlen)`. -/
def put (k : Sink σ) (c : BitVec 8) (p : Cursor σ) : Cursor σ :=
  ⟨p.idx + 1, k.out c k.buffer p.idx k.maxlen p.state⟩

/-- The same character `n` times. -/
def putN (k : Sink σ) (c : BitVec 8) : ℕ → Cursor σ → Cursor σ
  | 0, p => p
  | n + 1, p => putN k c n (put k c p)

def putAll (k : Sink σ) : List (BitVec 8) → Cursor σ → Cursor σ
  | [], p => p
  | c :: cs, p => putAll k cs (put k c p)

/-- `_out_rev`. The last loop runs while `idx - start_idx < width`. -/
def outRev (k : Sink σ) (p : Cursor σ) (buf : List (BitVec 8)) (width : ℕ) (flags : Flags) :
    Cursor σ :=
  let startIdx := p.idx
  let p := if !flags.left && !flags.zeropad then putN k (byteOf ' ') (width - buf.length) p else p
  let p := putAll k buf.reverse p
  if flags.left then putN k (byteOf ' ') (width - (p.idx - startIdx).toNat) p else p

/-! ### Integers -/

/-- `PRINTF_NTOA_BUFFER_SIZE`. -/
abbrev ntoaBufferSize : ℕ := 32

/-- `if (len < PRINTF_NTOA_BUFFER_SIZE) buf[len++] = c`. -/
def push (buf : List (BitVec 8)) (c : BitVec 8) : List (BitVec 8) :=
  if buf.length < ntoaBufferSize then buf ++ [c] else buf

/-- `while ((len < n) && (len < PRINTF_NTOA_BUFFER_SIZE)) buf[len++] = '0'`. -/
def padZeros (n : ℕ) (buf : List (BitVec 8)) : List (BitVec 8) :=
  buf ++ List.replicate (min n ntoaBufferSize - buf.length) (byteOf '0')

/-- The digits that give way to the prefix under `FLAGS_HASH`, when zeros were added. -/
def hashRoom (buf : List (BitVec 8)) (base prec width : ℕ) (flags : Flags) : List (BitVec 8) :=
  if !flags.precision && buf.length ≠ 0 && (buf.length = prec || buf.length = width) then
    let buf := buf.dropLast
    if buf.length ≠ 0 && base = 16 then buf.dropLast else buf
  else buf

/-- The prefix, from its last character on. -/
def hashPrefix (buf : List (BitVec 8)) (base : ℕ) (flags : Flags) : List (BitVec 8) :=
  let buf :=
    if base = 16 && !flags.uppercase then push buf (byteOf 'x')
    else if base = 16 && flags.uppercase then push buf (byteOf 'X')
    else if base = 2 then push buf (byteOf 'b')
    else buf
  push buf (byteOf '0')

/-- The first statement of `_ntoa_format`: a sign takes one column of the zeros. -/
def ntoaWidth (negative : Bool) (width : ℕ) (flags : Flags) : ℕ :=
  if !flags.left && width ≠ 0 && flags.zeropad && (negative || flags.plus || flags.space) then
    width - 1
  else width

/-- The leading zeros. -/
def zeroFill (buf : List (BitVec 8)) (prec width : ℕ) (flags : Flags) : List (BitVec 8) :=
  if !flags.left then
    let buf := padZeros prec buf
    if flags.zeropad then padZeros width buf else buf
  else buf

/-- The sign; the space is ignored if the `+` exists. -/
def pushSign (buf : List (BitVec 8)) (negative : Bool) (flags : Flags) : List (BitVec 8) :=
  if negative then push buf (byteOf '-')
  else if flags.plus then push buf (byteOf '+')
  else if flags.space then push buf (byteOf ' ')
  else buf

/-- What `_ntoa_format` does to the buffer, which holds the number from its last digit on. -/
def ntoaBuffer (buf : List (BitVec 8)) (negative : Bool) (base prec width : ℕ) (flags : Flags) :
    List (BitVec 8) :=
  let buf := zeroFill buf prec width flags
  let buf := if flags.hash then hashPrefix (hashRoom buf base prec width flags) base flags else buf
  pushSign buf negative flags

/-- `_ntoa_format`. -/
def ntoaFormat (k : Sink σ) (p : Cursor σ) (buf : List (BitVec 8)) (negative : Bool)
    (base prec width : ℕ) (flags : Flags) : Cursor σ :=
  let width := ntoaWidth negative width flags
  outRev k p (ntoaBuffer buf negative base prec width flags) width flags

def ntoaDigit (uppercase : Bool) (digit : ℕ) : BitVec 8 :=
  if digit < 10 then byteOf '0' + BitVec.ofNat 8 digit
  else (if uppercase then byteOf 'A' else byteOf 'a') + BitVec.ofNat 8 digit - 10

/-- The `do … while` loop of `_ntoa_long`, with room for so many characters. -/
def ntoaDigits (base : ℕ) (uppercase : Bool) : ℕ → ℕ → List (BitVec 8)
  | 0, _ => []
  | room + 1, value =>
    ntoaDigit uppercase (value % base) ::
      if value / base = 0 then [] else ntoaDigits base uppercase room (value / base)

/-- The buffer of `_ntoa_long` before the call of `_ntoa_format`. -/
def ntoaNumber (value base : ℕ) (flags : Flags) : List (BitVec 8) :=
  if !flags.precision || value ≠ 0 then ntoaDigits base flags.uppercase ntoaBufferSize value else []

/-- `_ntoa_long`. -/
def ntoaLong (k : Sink σ) (p : Cursor σ) (value : ℕ) (negative : Bool) (base prec width : ℕ)
    (flags : Flags) : Cursor σ :=
  -- no hash for 0 values
  let flags := if value = 0 then { flags with hash := false } else flags
  ntoaFormat k p (ntoaNumber value base flags) negative base prec width flags

/-- `_ntoa_long_long`: `long` and `long long` are the same type here. -/
def ntoaLongLong (k : Sink σ) (p : Cursor σ) (value : ℕ) (negative : Bool) (base prec width : ℕ)
    (flags : Flags) : Cursor σ :=
  ntoaLong k p value negative base prec width flags

/-! ### The parts of a directive -/

/-- The local variables of `_vsnprintf` in one round of its loop. -/
structure Locals where
  flags : Flags
  width : ℕ
  precision : ℕ
  format : ℕ
  va : List (BitVec 64)

/-- The cases of the `switch` on a flag; `none` is its default. -/
def flagOf (c : BitVec 8) (flags : Flags) : Option Flags :=
  if c = byteOf '0' then some { flags with zeropad := true }
  else if c = byteOf '-' then some { flags with left := true }
  else if c = byteOf '+' then some { flags with plus := true }
  else if c = byteOf ' ' then some { flags with space := true }
  else if c = byteOf '#' then some { flags with hash := true }
  else none

def evalFlags (m : ByteMemory) : ℕ → Locals → Option Locals
  | 0, _ => none
  | fuel + 1, l =>
    match flagOf (m l.format) l.flags with
    | some flags => evalFlags m fuel { l with flags := flags, format := l.format + 1 }
    | none => some l

/-- `_is_digit`. -/
def isDigit (c : BitVec 8) : Bool := byteOf '0' ≤ c && c ≤ byteOf '9'

/-- One round of `_atoi`. -/
def atoiStep (i : ℕ) (c : BitVec 8) : ℕ := (i * 10 + (c - byteOf '0').toNat) % 2 ^ 32

/-- `_atoi`: the number and the new position. -/
def atoi (m : ByteMemory) : ℕ → ℕ → ℕ → Option (ℕ × ℕ)
  | 0, _, _ => none
  | fuel + 1, str, i =>
    if isDigit (m str) then atoi m fuel (str + 1) (atoiStep i (m str)) else some (i, str)

/-- `const int w = va_arg(va, int)` as a width: a negative one asks for the left margin. -/
def starWidth (w : BitVec 64) (flags : Flags) : Flags × ℕ :=
  let w := w.setWidth 32
  if w.toInt < 0 then ({ flags with left := true }, (-w).toNat) else (flags, w.toNat)

def evalWidth (m : ByteMemory) (fuel : ℕ) (l : Locals) : Option Locals :=
  if isDigit (m l.format) then
    (atoi m fuel l.format 0).map fun r => { l with width := r.1, format := r.2 }
  else if m l.format = byteOf '*' then
    match l.va with
    | [] => none
    | w :: va =>
      some { l with
        flags := (starWidth w l.flags).1
        width := (starWidth w l.flags).2
        format := l.format + 1
        va := va }
  else some l

/-- `const int prec = va_arg(va, int)` as a precision. -/
def starPrecision (w : BitVec 64) : ℕ :=
  let prec := w.setWidth 32
  if prec.toInt > 0 then prec.toNat else 0

/-- The precision behind its point. -/
def evalPoint (m : ByteMemory) (fuel : ℕ) (l : Locals) : Option Locals :=
  if isDigit (m l.format) then
    (atoi m fuel l.format 0).map fun r => { l with precision := r.1, format := r.2 }
  else if m l.format = byteOf '*' then
    match l.va with
    | [] => none
    | w :: va => some { l with precision := starPrecision w, format := l.format + 1, va := va }
  else some l

def evalPrecision (m : ByteMemory) (fuel : ℕ) (l : Locals) : Option Locals :=
  if m l.format = byteOf '.' then
    evalPoint m fuel { l with flags.precision := true, format := l.format + 1 }
  else some l

/-- The length field. `ptrdiff_t`, `intmax_t` and `size_t` have the size of `long`. -/
def evalLength (m : ByteMemory) (l : Locals) : Locals :=
  let c := m l.format
  if c = byteOf 'l' then
    let l := { l with flags.long := true, format := l.format + 1 }
    if m l.format = byteOf 'l' then { l with flags.longLong := true, format := l.format + 1 } else l
  else if c = byteOf 'h' then
    let l := { l with flags.short := true, format := l.format + 1 }
    if m l.format = byteOf 'h' then { l with flags.char := true, format := l.format + 1 } else l
  else if c = byteOf 't' || c = byteOf 'j' || c = byteOf 'z' then
    { l with flags.long := true, format := l.format + 1 }
  else l

/-- `%[flags][width][.precision][length]`, from behind the `%`. -/
def evalDirective (m : ByteMemory) (fuel format : ℕ) (va : List (BitVec 64)) : Option Locals := do
  let l ← evalFlags m fuel ⟨{}, 0, 0, format, va⟩
  let l ← evalWidth m fuel l
  let l ← evalPrecision m fuel l
  some (evalLength m l)

/-! ### The specifiers -/

/-- `d`, `i`, `u`, `x`, `X`, `o` and `b`. -/
def isInteger (c : BitVec 8) : Bool :=
  c = byteOf 'd' || c = byteOf 'i' || c = byteOf 'u' || c = byteOf 'x' || c = byteOf 'X' ||
    c = byteOf 'o' || c = byteOf 'b'

def baseOf (c : BitVec 8) : ℕ :=
  if c = byteOf 'x' || c = byteOf 'X' then 16
  else if c = byteOf 'o' then 8
  else if c = byteOf 'b' then 2
  else 10

/-- The signed specifiers. -/
def isSigned (c : BitVec 8) : Bool := c = byteOf 'i' || c = byteOf 'd'

/-- What an integer specifier does to the flags. -/
def integerFlags (c : BitVec 8) (flags : Flags) : Flags :=
  let flags := if baseOf c = 10 then { flags with hash := false } else flags
  let flags := if c = byteOf 'X' then { flags with uppercase := true } else flags
  let flags := if !isSigned c then { flags with plus := false, space := false } else flags
  if flags.precision then { flags with zeropad := false } else flags

/-- The argument of a signed conversion: `value > 0 ? value : 0 - value`, and `value < 0`. -/
def signedValue (flags : Flags) (w : BitVec 64) : ℕ × Bool :=
  if flags.longLong || flags.long then
    ((if w.toInt > 0 then w else 0 - w).toNat, w.toInt < 0)
  else
    let value : BitVec 32 :=
      if flags.char then (w.setWidth 8).signExtend 32
      else if flags.short then (w.setWidth 16).signExtend 32
      else w.setWidth 32
    ((if value.toInt > 0 then value else 0 - value).toNat, value.toInt < 0)

/-- The argument of an unsigned conversion. -/
def unsignedValue (flags : Flags) (w : BitVec 64) : ℕ :=
  if flags.longLong || flags.long then w.toNat
  else if flags.char then (w.setWidth 8).toNat
  else if flags.short then (w.setWidth 16).toNat
  else (w.setWidth 32).toNat

def integerValue (c : BitVec 8) (flags : Flags) (w : BitVec 64) : ℕ × Bool :=
  if isSigned c then signedValue flags w else (unsignedValue flags w, false)

def formatInteger (k : Sink σ) (c : BitVec 8) (l : Locals) (w : BitVec 64) (p : Cursor σ) :
    Cursor σ :=
  let flags := integerFlags c l.flags
  let v := integerValue c flags w
  if flags.longLong then ntoaLongLong k p v.1 v.2 (baseOf c) l.precision l.width flags
  else ntoaLong k p v.1 v.2 (baseOf c) l.precision l.width flags

/-- The case `c`. The counter `l` starts at 1. -/
def formatChar (k : Sink σ) (l : Locals) (w : BitVec 64) (p : Cursor σ) : Cursor σ :=
  let p := if !l.flags.left then putN k (byteOf ' ') (l.width - 1) p else p
  let p := put k (w.setWidth 8) p
  if l.flags.left then putN k (byteOf ' ') (l.width - 1) p else p

/-- `_strnlen_s`, by recursion on `maxsize`, before the conversion to `unsigned int`. -/
def strnlen (m : ByteMemory) : ℕ → ℕ → ℕ
  | 0, _ => 0
  | maxsize + 1, s => if m s = 0 then 0 else strnlen m maxsize (s + 1) + 1

/-- The string output loop of the case `s`. -/
def outString (mem : σ → ByteMemory) (k : Sink σ) (flags : Flags) :
    ℕ → ℕ → ℕ → Cursor σ → Option (Cursor σ)
  | 0, _, _, _ => none
  | fuel + 1, s, precision, p =>
    if mem p.state s ≠ 0 && (!flags.precision || precision ≠ 0) then
      outString mem k flags fuel (s + 1) (precision - 1) (put k (mem p.state s) p)
    else some p

/-- The case `s`. -/
def formatString (mem : σ → ByteMemory) (k : Sink σ) (fuel : ℕ) (l : Locals) (w : BitVec 64)
    (p : Cursor σ) : Option (Cursor σ) := do
  let len := strnlen (mem p.state) (if l.precision ≠ 0 then l.precision else 2 ^ 64 - 1) w.toNat
    % 2 ^ 32
  let len := if l.flags.precision then min len l.precision else len
  let p := if !l.flags.left then putN k (byteOf ' ') (l.width - len) p else p
  let p ← outString mem k l.flags fuel w.toNat l.precision p
  some (if l.flags.left then putN k (byteOf ' ') (l.width - len) p else p)

/-- The case `p`. The width is `sizeof(void*) * 2`, and `uintptr_t` has the size of `long long`. -/
def formatPointer (k : Sink σ) (l : Locals) (w : BitVec 64) (p : Cursor σ) : Cursor σ :=
  ntoaLongLong k p w.toNat false 16 l.precision 16
    { l.flags with zeropad := true, uppercase := true }

/-- The `switch` on the specifier, `c`: the arguments that are left, and the output. -/
def specifier (mem : σ → ByteMemory) (k : Sink σ) (fuel : ℕ) (c : BitVec 8) (l : Locals)
    (p : Cursor σ) : Option (List (BitVec 64) × Cursor σ) :=
  if isInteger c || c = byteOf 'c' || c = byteOf 's' || c = byteOf 'p' then
    match l.va with
    | [] => none
    | w :: va =>
      if isInteger c then some (va, formatInteger k c l w p)
      else if c = byteOf 'c' then some (va, formatChar k l w p)
      else if c = byteOf 's' then (formatString mem k fuel l w p).map fun p => (va, p)
      else some (va, formatPointer k l w p)
  else if c = byteOf '%' then some (l.va, put k (byteOf '%') p)
  else some (l.va, put k c p)

/-- The main loop. -/
def loop (mem : σ → ByteMemory) (k : Sink σ) :
    ℕ → ℕ → List (BitVec 64) → Cursor σ → Option (Cursor σ)
  | 0, _, _, _ => none
  | fuel + 1, format, va, p =>
    let c := mem p.state format
    if c = 0 then some p
    else if c ≠ byteOf '%' then loop mem k fuel (format + 1) va (put k c p)
    else do
      let l ← evalDirective (mem p.state) fuel (format + 1) va
      let (va, p) ← specifier mem k fuel (mem p.state l.format) l p
      loop mem k fuel (l.format + 1) va p

end Vsnprintf

open Vsnprintf

/-- `_vsnprintf`. The `int` it returns is the low half of `idx`. -/
def vsnprintf {σ : Type} (mem : σ → ByteMemory) (k : Sink σ) (fuel format : ℕ)
    (va : List (BitVec 64)) (s : σ) : Option (BitVec 32 × σ) := do
  let k := if k.buffer = 0 then { k with out := outNull } else k
  let p ← loop mem k fuel format va ⟨0, s⟩
  let last := if p.idx < k.maxlen then p.idx else k.maxlen - 1
  some (p.idx.setWidth 32, k.out 0 k.buffer last k.maxlen p.state)

end FrogOS
