import FrogOS.Vsnprintf
import Mathlib.Data.List.Basic

/-!
# The text of a format

What `_vsnprintf` prints can be said without a memory and without an output function: a format is a
list of bytes, an argument is a word or a string, and the text of the format is a list of bytes, the
characters in the order of the calls of `out`. A format that ends inside a directive has no text:
there the program reads on behind the end of its format.

## Main definitions

* `Vsnprintf.Arg` — the arguments
* `formatText` — the text of a format

## Main results

* `Vsnprintf.ntoaBuffer_length_le` — the buffer of a conversion does not overflow
* `Vsnprintf.readDirective_suffix` — a directive takes a part of the format and of the arguments
-/

namespace FrogOS

namespace Vsnprintf

/-- An argument of `printf`. -/
inductive Arg
  | int (w : BitVec 64)
  | str (s : List (BitVec 8))
  deriving DecidableEq

/-! ### The conversions -/

def revText (buf : List (BitVec 8)) (width : ℕ) (flags : Flags) : List (BitVec 8) :=
  let spaces := List.replicate (width - buf.length) (byteOf ' ')
  (if !flags.left && !flags.zeropad then spaces else []) ++ buf.reverse ++
    if flags.left then spaces else []

def ntoaText (value : ℕ) (negative : Bool) (base prec width : ℕ) (flags : Flags) :
    List (BitVec 8) :=
  let flags := if value = 0 then { flags with hash := false } else flags
  let width := ntoaWidth negative width flags
  revText (ntoaBuffer (ntoaNumber value base flags) negative base prec width flags) width flags

/-- What has been read of a directive, and what is left of the format and of the arguments. -/
structure Reading where
  flags : Flags
  width : ℕ
  precision : ℕ
  format : List (BitVec 8)
  args : List Arg

def integerText (c : BitVec 8) (r : Reading) (w : BitVec 64) : List (BitVec 8) :=
  let flags := integerFlags c r.flags
  let v := integerValue c flags w
  ntoaText v.1 v.2 (baseOf c) r.precision r.width flags

/-- A text between the spaces that bring it to the width. -/
def padText (flags : Flags) (width : ℕ) (text : List (BitVec 8)) : List (BitVec 8) :=
  let spaces := List.replicate (width - text.length) (byteOf ' ')
  (if flags.left then [] else spaces) ++ text ++ if flags.left then spaces else []

def pointerText (r : Reading) (w : BitVec 64) : List (BitVec 8) :=
  ntoaText w.toNat false 16 r.precision 16 { r.flags with zeropad := true, uppercase := true }

/-- The part of a string that is printed. -/
def stringPart (flags : Flags) (precision : ℕ) (s : List (BitVec 8)) : List (BitVec 8) :=
  if flags.precision then s.take precision else s

/-- The text of a directive with the specifier `c`, and the arguments that are left. -/
def directiveText (c : BitVec 8) (r : Reading) : Option (List (BitVec 8) × List Arg) :=
  if isInteger c || c = byteOf 'c' || c = byteOf 'p' then
    match r.args with
    | .int w :: args =>
      if isInteger c then some (integerText c r w, args)
      else if c = byteOf 'c' then some (padText r.flags r.width [w.setWidth 8], args)
      else some (pointerText r w, args)
    | _ => none
  else if c = byteOf 's' then
    match r.args with
    | .str s :: args => some (padText r.flags r.width (stringPart r.flags r.precision s), args)
    | _ => none
  else some ([c], r.args)

/-! ### The parts of a directive -/

def readFlags : List (BitVec 8) → Flags → Flags × List (BitVec 8)
  | [], flags => (flags, [])
  | c :: cs, flags =>
    match flagOf c flags with
    | some flags => readFlags cs flags
    | none => (flags, c :: cs)

def readNumber : List (BitVec 8) → ℕ → ℕ × List (BitVec 8)
  | [], i => (i, [])
  | c :: cs, i => if isDigit c then readNumber cs (atoiStep i c) else (i, c :: cs)

/-- A number, or a star that takes it from the arguments, or nothing. -/
def readAmount (number : ℕ → Reading → Reading) (star : BitVec 64 → Reading → Reading)
    (r : Reading) : Option Reading :=
  match r.format with
  | [] => some r
  | c :: cs =>
    if isDigit c then
      some (number (readNumber (c :: cs) 0).1 { r with format := (readNumber (c :: cs) 0).2 })
    else if c = byteOf '*' then
      match r.args with
      | .int w :: args => some (star w { r with format := cs, args := args })
      | _ => none
    else some r

def readWidth : Reading → Option Reading :=
  readAmount (fun n r => { r with width := n })
    fun w r => { r with flags := (starWidth w r.flags).1, width := (starWidth w r.flags).2 }

/-- The precision behind its point. -/
def readPoint : Reading → Option Reading :=
  readAmount (fun n r => { r with precision := n })
    fun w r => { r with precision := starPrecision w }

def readPrecision (r : Reading) : Option Reading :=
  match r.format with
  | [] => some r
  | c :: cs =>
    if c = byteOf '.' then readPoint { r with flags.precision := true, format := cs } else some r

def readLength (r : Reading) : Reading :=
  match r.format with
  | [] => r
  | c :: cs =>
    if c = byteOf 'l' then
      if cs.head? = some (byteOf 'l') then
        { r with flags.long := true, flags.longLong := true, format := cs.tail }
      else { r with flags.long := true, format := cs }
    else if c = byteOf 'h' then
      if cs.head? = some (byteOf 'h') then
        { r with flags.short := true, flags.char := true, format := cs.tail }
      else { r with flags.short := true, format := cs }
    else if c = byteOf 't' || c = byteOf 'j' || c = byteOf 'z' then
      { r with flags.long := true, format := cs }
    else r

/-- A directive, from behind its `%` up to the specifier. -/
def readDirective (format : List (BitVec 8)) (args : List Arg) : Option Reading := do
  let r ← readWidth ⟨(readFlags format {}).1, 0, 0, (readFlags format {}).2, args⟩
  let r ← readPrecision r
  some (readLength r)

/-- Every round takes at least one character, so the length of the format is enough fuel. -/
def textLoop : ℕ → List (BitVec 8) → List Arg → Option (List (BitVec 8))
  | 0, _, _ => none
  | _ + 1, [], _ => some []
  | fuel + 1, c :: cs, args =>
    if c ≠ byteOf '%' then (textLoop fuel cs args).map (c :: ·)
    else do
      let r ← readDirective cs args
      match r.format with
      | [] => none
      | c :: cs => do
        let (text, args) ← directiveText c r
        (textLoop fuel cs args).map (text ++ ·)

end Vsnprintf

open Vsnprintf

/-- The text of a format with arguments. There is none when the format ends inside a directive, and
when an argument is missing or of the wrong kind. -/
def formatText (format : List (BitVec 8)) (args : List Arg) : Option (List (BitVec 8)) :=
  textLoop (format.length + 1) format args

/-- The bytes of a string literal. -/
def literal (s : String) : List (BitVec 8) := s.toList.map byteOf

example : formatText (literal "%-5s|%05d|%+d|%#x|%.3s") [.str (literal "ab"), .int (-42), .int 7,
    .int 255, .str (literal "abcdef")] = some (literal "ab   |-0042|+7|0xff|abc") := by decide

namespace Vsnprintf

/-! ### Integers -/

theorem push_length_le {buf : List (BitVec 8)} (h : buf.length ≤ ntoaBufferSize) (c : BitVec 8) :
    (push buf c).length ≤ ntoaBufferSize := by
  rw [push]
  split
  · rw [List.length_append, List.length_singleton]
    omega
  · exact h

theorem padZeros_length (n : ℕ) (buf : List (BitVec 8)) :
    (padZeros n buf).length = max buf.length (min n ntoaBufferSize) := by
  rw [padZeros, List.length_append, List.length_replicate]
  omega

theorem hashRoom_length_le (buf : List (BitVec 8)) (base prec width : ℕ) (flags : Flags) :
    (hashRoom buf base prec width flags).length ≤ buf.length := by
  rw [hashRoom]
  dsimp only
  split_ifs
  · rw [List.length_dropLast, List.length_dropLast]
    omega
  · exact List.length_dropLast.trans_le (Nat.sub_le _ _)
  · exact le_rfl

theorem hashPrefix_length_le {buf : List (BitVec 8)} (h : buf.length ≤ ntoaBufferSize) (base : ℕ)
    (flags : Flags) : (hashPrefix buf base flags).length ≤ ntoaBufferSize := by
  rw [hashPrefix]
  apply push_length_le
  split_ifs <;> simp only [push_length_le, h]

theorem ntoaDigits_length_le (base : ℕ) (uppercase : Bool) :
    ∀ room value, (ntoaDigits base uppercase room value).length ≤ room
  | 0, _ => le_rfl
  | room + 1, value => by
    rw [ntoaDigits, List.length_cons]
    split
    · exact Nat.succ_le_succ (Nat.zero_le _)
    · exact Nat.succ_le_succ (ntoaDigits_length_le base uppercase room _)

theorem ntoaNumber_length_le (value base : ℕ) (flags : Flags) :
    (ntoaNumber value base flags).length ≤ ntoaBufferSize := by
  rw [ntoaNumber]
  split
  · exact ntoaDigits_length_le _ _ _ _
  · exact Nat.zero_le _

theorem zeroFill_length_le {buf : List (BitVec 8)} (h : buf.length ≤ ntoaBufferSize)
    (prec width : ℕ) (flags : Flags) : (zeroFill buf prec width flags).length ≤ ntoaBufferSize := by
  rw [zeroFill]
  dsimp only
  split_ifs
  · rw [padZeros_length, padZeros_length]
    omega
  · rw [padZeros_length]
    omega
  · exact h

theorem pushSign_length_le {buf : List (BitVec 8)} (h : buf.length ≤ ntoaBufferSize)
    (negative : Bool) (flags : Flags) : (pushSign buf negative flags).length ≤ ntoaBufferSize := by
  rw [pushSign]
  split_ifs <;> simp only [push_length_le, h]

/-- Nothing is written past the end of the buffer. -/
theorem ntoaBuffer_length_le {buf : List (BitVec 8)} (h : buf.length ≤ ntoaBufferSize)
    (negative : Bool) (base prec width : ℕ) (flags : Flags) :
    (ntoaBuffer buf negative base prec width flags).length ≤ ntoaBufferSize := by
  have hfill := zeroFill_length_le h prec width flags
  apply pushSign_length_le
  split
  · exact hashPrefix_length_le ((hashRoom_length_le _ _ _ _ _).trans hfill) _ _
  · exact hfill

/-! ### What is left of the format and of the arguments -/

theorem readFlags_suffix : ∀ {fmt : List (BitVec 8)} {flags : Flags},
    (readFlags fmt flags).2 <:+ fmt
  | [], _ => List.suffix_rfl
  | c :: fmt, flags => by
    rw [readFlags]
    cases flagOf c flags with
    | none => exact List.suffix_rfl
    | some flags' => exact readFlags_suffix.trans (List.suffix_cons c fmt)

theorem readNumber_suffix : ∀ {fmt : List (BitVec 8)} {i : ℕ}, (readNumber fmt i).2 <:+ fmt
  | [], _ => List.suffix_rfl
  | c :: fmt, i => by
    rw [readNumber]
    split
    · exact readNumber_suffix.trans (List.suffix_cons c fmt)
    · exact List.suffix_rfl

/-- A later point of a reading. -/
def Reading.Later (r' r : Reading) : Prop := r'.format <:+ r.format ∧ r'.args <:+ r.args

theorem Reading.Later.trans {r r' r'' : Reading} (h : r''.Later r') (h' : r'.Later r) :
    r''.Later r :=
  ⟨h.1.trans h'.1, h.2.trans h'.2⟩

theorem readAmount_later {number : ℕ → Reading → Reading} {star : BitVec 64 → Reading → Reading}
    (hnumber : ∀ n r, (number n r).Later r) (hstar : ∀ w r, (star w r).Later r) {r r' : Reading}
    (h : readAmount number star r = some r') : r'.Later r := by
  rw [readAmount] at h
  split at h
  · cases h
    exact ⟨List.suffix_rfl, List.suffix_rfl⟩
  · next c cs hfmt =>
    split at h
    · cases h
      exact (hnumber _ _).trans ⟨hfmt ▸ readNumber_suffix, List.suffix_rfl⟩
    split at h
    · split at h
      · next w args hargs =>
        cases h
        exact (hstar _ _).trans ⟨hfmt ▸ List.suffix_cons c cs, hargs ▸ List.suffix_cons _ args⟩
      · cases h
    · cases h
      exact ⟨List.suffix_rfl, List.suffix_rfl⟩

theorem readWidth_later {r r' : Reading} (h : readWidth r = some r') : r'.Later r := by
  refine readAmount_later ?_ ?_ h <;> exact fun _ _ => ⟨List.suffix_rfl, List.suffix_rfl⟩

theorem readPoint_later {r r' : Reading} (h : readPoint r = some r') : r'.Later r := by
  refine readAmount_later ?_ ?_ h <;> exact fun _ _ => ⟨List.suffix_rfl, List.suffix_rfl⟩

theorem readPrecision_later {r r' : Reading} (h : readPrecision r = some r') : r'.Later r := by
  rw [readPrecision] at h
  split at h
  · cases h
    exact ⟨List.suffix_rfl, List.suffix_rfl⟩
  · next c cs hfmt =>
    split at h
    · exact (readPoint_later h).trans ⟨hfmt ▸ List.suffix_cons c cs, List.suffix_rfl⟩
    · cases h
      exact ⟨List.suffix_rfl, List.suffix_rfl⟩

theorem readLength_later (r : Reading) : (readLength r).Later r := by
  rw [readLength]
  split
  · exact ⟨List.suffix_rfl, List.suffix_rfl⟩
  · next c cs hfmt =>
    have hcs : cs <:+ r.format := hfmt ▸ List.suffix_cons c cs
    split_ifs
    · exact ⟨(List.tail_suffix cs).trans hcs, List.suffix_rfl⟩
    · exact ⟨hcs, List.suffix_rfl⟩
    · exact ⟨(List.tail_suffix cs).trans hcs, List.suffix_rfl⟩
    · exact ⟨hcs, List.suffix_rfl⟩
    · exact ⟨hcs, List.suffix_rfl⟩
    · exact ⟨List.suffix_rfl, List.suffix_rfl⟩

theorem readDirective_suffix {fmt : List (BitVec 8)} {args : List Arg} {r : Reading}
    (h : readDirective fmt args = some r) : r.format <:+ fmt ∧ r.args <:+ args := by
  obtain ⟨r₁, h₁, h⟩ := Option.bind_eq_some_iff.mp h
  obtain ⟨r₂, h₂, h⟩ := Option.bind_eq_some_iff.mp h
  cases h
  obtain ⟨hformat, hargs⟩ :=
    (readLength_later r₂).trans ((readPrecision_later h₂).trans (readWidth_later h₁))
  exact ⟨hformat.trans readFlags_suffix, hargs⟩

end Vsnprintf

end FrogOS
