import FrogOS.FormatOutput
import Mathlib.Data.Nat.Digits.Lemmas

/-!
# The syntax of formats

A format is made of ordinary characters and of directives, and a directive of flags, a width, a
precision, a length and a specifier. This is the syntax as it is written; what the formatter reads
of it is `readDirective`. The two agree: a directive is read as it was written, with its numbers
modulo `2^32`, whatever comes behind it. So the text of a format is put together from the texts of
its pieces.

The specifier must not look like an earlier part of a directive. None of the specifiers that the
formatter knows does.

## Main definitions

* `Vsnprintf.Directive`, `Vsnprintf.Piece` — the syntax
* `Vsnprintf.Directive.meaning` — what a directive asks for

## Main results

* `Vsnprintf.readDirective_bytes` — a directive is read as it was written
* `Vsnprintf.vsnprintf_pieces` — the text of a format, piece by piece
-/

namespace FrogOS

namespace Vsnprintf

/-! ### The syntax -/

inductive FlagChar
  | zeropad
  | left
  | plus
  | space
  | hash
  deriving DecidableEq

def FlagChar.byte : FlagChar → BitVec 8
  | zeropad => byteOf '0'
  | left => byteOf '-'
  | plus => byteOf '+'
  | space => byteOf ' '
  | hash => byteOf '#'

/-- A number, or a star for an argument. -/
inductive Amount
  | number (n : ℕ)
  | star

/-- The decimal digits of a number. -/
def numeral (n : ℕ) : List (BitVec 8) :=
  if n = 0 then [byteOf '0'] else ((Nat.digits 10 n).map (ntoaDigit false)).reverse

def Amount.bytes : Amount → List (BitVec 8)
  | number n => numeral n
  | star => [byteOf '*']

inductive Length
  | none
  | char
  | short
  | long
  | longLong
  | ptrdiff
  | intmax
  | size

def Length.bytes : Length → List (BitVec 8)
  | none => []
  | char => [byteOf 'h', byteOf 'h']
  | short => [byteOf 'h']
  | long => [byteOf 'l']
  | longLong => [byteOf 'l', byteOf 'l']
  | ptrdiff => [byteOf 't']
  | intmax => [byteOf 'j']
  | size => [byteOf 'z']

/-- A directive without its `%` and its specifier. The precision is the part behind the point. -/
structure Directive where
  flags : List FlagChar
  width : Option Amount
  precision : Option (Option Amount)
  length : Length

def Directive.bytes (d : Directive) : List (BitVec 8) :=
  d.flags.map FlagChar.byte ++ ((d.width.elim [] Amount.bytes) ++
    (d.precision.elim [] (fun p => byteOf '.' :: p.elim [] Amount.bytes) ++ d.length.bytes))

/-- A width does not begin with a zero, which would be a flag. -/
def Directive.WellFormed (d : Directive) : Prop := d.width ≠ some (.number 0)

/-! ### The meaning -/

def FlagChar.set : FlagChar → Flags → Flags
  | zeropad, flags => { flags with zeropad := true }
  | left, flags => { flags with left := true }
  | plus, flags => { flags with plus := true }
  | space, flags => { flags with space := true }
  | hash, flags => { flags with hash := true }

/-- A star takes an argument. -/
def Amount.set (number : ℕ → Reading → Reading) (star : BitVec 64 → Reading → Reading)
    (r : Reading) : Amount → Option Reading
  | .number n => some (number (n % 2 ^ 32) r)
  | .star =>
    match r.args with
    | .int w :: args => some (star w { r with args := args })
    | _ => Option.none

def Length.set : Length → Flags → Flags
  | none, flags => flags
  | char, flags => { flags with short := true, char := true }
  | short, flags => { flags with short := true }
  | long, flags => { flags with long := true }
  | longLong, flags => { flags with long := true, longLong := true }
  | ptrdiff, flags => { flags with long := true }
  | intmax, flags => { flags with long := true }
  | size, flags => { flags with long := true }

/-- What a directive asks for, with the arguments and in front of the rest of a format. -/
def Directive.meaning (d : Directive) (rest : List (BitVec 8)) (args : List Arg) :
    Option Reading := do
  let r : Reading := ⟨d.flags.foldl (fun flags f => f.set flags) {}, 0, 0, rest, args⟩
  let r ← d.width.elim (some r) (Amount.set (fun n r => { r with width := n })
    (fun w r => { r with flags := (starWidth w r.flags).1, width := (starWidth w r.flags).2 }) r)
  let r ← d.precision.elim (some r) fun p =>
    let r := { r with flags.precision := true }
    p.elim (some r) (Amount.set (fun n r => { r with precision := n })
      (fun w r => { r with precision := starPrecision w }) r)
  some { r with flags := d.length.set r.flags }

/-- A character that ends a directive, whatever stands in front of it. -/
def isSpecifier (c : BitVec 8) : Bool :=
  (flagOf c {}).isNone && !isDigit c && c ≠ byteOf '*' && c ≠ byteOf '.' && c ≠ byteOf 'l' &&
    c ≠ byteOf 'h' && c ≠ byteOf 't' && c ≠ byteOf 'j' && c ≠ byteOf 'z'

example : ∀ c ∈ literal "diuxXobcsp%", isSpecifier c = true := by decide

/-! ### Numbers -/

theorem isDigit_ntoaDigit {d : ℕ} (hd : d < 10) : isDigit (ntoaDigit false d) = true := by
  revert d
  decide

theorem atoiStep_ntoaDigit (i : ℕ) {d : ℕ} (hd : d < 10) :
    atoiStep i (ntoaDigit false d) = (i * 10 + d) % 2 ^ 32 := by
  have hvalue : (ntoaDigit false d - byteOf '0').toNat = d := by
    revert d
    decide
  rw [atoiStep, hvalue]

variable {rest : List (BitVec 8)}

/-- The digits are read from the first one on, modulo `2^32` in every step. -/
theorem readNumber_digits (hrest : ∀ c ∈ rest.head?, isDigit c = false) :
    ∀ {ds : List ℕ} {i : ℕ}, (∀ d ∈ ds, d < 10) → i < 2 ^ 32 →
      readNumber ((ds.map (ntoaDigit false)).reverse ++ rest) i =
        ((i * 10 ^ ds.length + Nat.ofDigits 10 ds) % 2 ^ 32, rest) := by
  intro ds
  induction ds using List.reverseRecOn with
  | nil =>
    intro i _ hi
    have hread : readNumber rest i = (i, rest) := by
      cases rest with
      | nil => rfl
      | cons c rest => rw [readNumber, hrest c rfl, if_neg Bool.false_ne_true]
    simpa [hread] using (Nat.mod_eq_of_lt hi).symm
  | append_singleton ds d ih =>
    intro i hds hi
    have hd : d < 10 := hds d (List.mem_append_right _ List.mem_cons_self)
    rw [List.map_append, List.reverse_append, List.map_singleton, List.reverse_singleton,
      List.singleton_append, List.cons_append, readNumber, isDigit_ntoaDigit hd, if_pos rfl,
      atoiStep_ntoaDigit i hd, ih (fun x hx => hds x (List.mem_append_left _ hx))
        (Nat.mod_lt _ (by decide)), Nat.ofDigits_append, Nat.ofDigits_singleton, List.length_append,
      List.length_singleton]
    congr 1
    rw [Nat.add_mod, Nat.mul_mod, Nat.mod_mod, ← Nat.mul_mod, ← Nat.add_mod]
    congr 1
    ring

theorem readNumber_numeral (hrest : ∀ c ∈ rest.head?, isDigit c = false) (n : ℕ) :
    readNumber (numeral n ++ rest) 0 = (n % 2 ^ 32, rest) := by
  rw [numeral]
  split
  · next hn =>
    have h : readNumber ((([0] : List ℕ).map (ntoaDigit false)).reverse ++ rest) 0 = (0, rest) :=
      readNumber_digits hrest (by decide) (by decide)
    rw [hn]
    exact h
  · rw [readNumber_digits hrest (fun d hd => Nat.digits_lt_base (by decide) hd) (by decide),
      Nat.zero_mul, Nat.zero_add, Nat.ofDigits_digits]

/-- A numeral begins with a digit, and not with a zero unless it is one. -/
theorem numeral_eq_cons (n : ℕ) : ∃ d ds, numeral n = ntoaDigit false d :: ds ∧ d < 10 ∧
    (n ≠ 0 → d ≠ 0) := by
  rw [numeral]
  split
  · next hn => exact ⟨0, [], rfl, by decide, fun h => absurd hn h⟩
  · next hn =>
    have hne : Nat.digits 10 n ≠ [] := Nat.digits_ne_nil_iff_ne_zero.mpr hn
    rw [← List.dropLast_append_getLast hne, List.map_append, List.reverse_append]
    exact ⟨_, _, rfl, Nat.digits_lt_base (by decide) (List.getLast_mem hne),
      fun _ => Nat.getLast_digit_ne_zero 10 hn⟩

/-! ### The parts of a directive -/

theorem flagOf_byte (f : FlagChar) (flags : Flags) : flagOf f.byte flags = some (f.set flags) := by
  cases f <;> rfl

/-- Which characters are flags does not depend on the flags. -/
theorem flagOf_eq_none {c : BitVec 8} (h : flagOf c {} = none) (flags : Flags) :
    flagOf c flags = none := by
  rw [flagOf] at h ⊢
  split_ifs at h ⊢
  rfl

theorem readFlags_bytes (hrest : ∀ c ∈ rest.head?, flagOf c {} = none) :
    ∀ (fs : List FlagChar) (flags : Flags), readFlags (fs.map FlagChar.byte ++ rest) flags =
      (fs.foldl (fun flags f => f.set flags) flags, rest)
  | [], flags => by
    cases rest with
    | nil => rfl
    | cons c rest =>
      rw [List.map_nil, List.nil_append, readFlags, flagOf_eq_none (hrest c rfl)]
      rfl
  | f :: fs, flags => by
    rw [List.map_cons, List.cons_append, readFlags, flagOf_byte]
    exact readFlags_bytes hrest fs (f.set flags)

variable {number : ℕ → Reading → Reading} {star : BitVec 64 → Reading → Reading} {r : Reading}

theorem readAmount_none (hrest : ∀ c ∈ r.format.head?, isDigit c = false ∧ c ≠ byteOf '*') :
    readAmount number star r = some r := by
  rw [readAmount]
  cases hformat : r.format with
  | nil => rfl
  | cons c rest =>
    obtain ⟨hdigit, hstar⟩ := hrest c (hformat ▸ rfl)
    dsimp only
    rw [hdigit, if_neg Bool.false_ne_true, if_neg hstar]

theorem readAmount_bytes (a : Amount) (hrest : ∀ c ∈ rest.head?, isDigit c = false)
    (hformat : r.format = a.bytes ++ rest) :
    readAmount number star r = a.set number star { r with format := rest } := by
  rw [readAmount, hformat]
  cases a with
  | number n =>
    obtain ⟨d, ds, hn, hd, -⟩ := numeral_eq_cons n
    have hread := readNumber_numeral hrest n
    rw [Amount.bytes, hn, List.cons_append] at *
    dsimp only
    rw [isDigit_ntoaDigit hd, if_pos rfl, hread]
    rfl
  | star => rfl

/-- What a character must not be so that no earlier part of a directive takes it. -/
structure Later (c : BitVec 8) : Prop where
  flag : flagOf c {} = none
  digit : isDigit c = false
  star : c ≠ byteOf '*'
  point : c ≠ byteOf '.'

theorem later_of_isSpecifier {c : BitVec 8} (h : isSpecifier c = true) : Later c := by
  simp only [isSpecifier, Bool.and_eq_true, Option.isNone_iff_eq_none, Bool.not_eq_true',
    decide_eq_true_eq] at h
  obtain ⟨⟨⟨⟨⟨⟨⟨⟨hflag, hdigit⟩, hstar⟩, hpoint⟩, -⟩, -⟩, -⟩, -⟩, -⟩ := h
  exact ⟨hflag, hdigit, hstar, hpoint⟩

/-- Neither the length field nor the specifier behind it is taken for an earlier part. -/
theorem later_length (l : Length) {c : BitVec 8} (hc : isSpecifier c = true) :
    ∀ x ∈ (l.bytes ++ c :: rest).head?, Later x := by
  cases l with
  | none =>
    rintro x ⟨⟩
    exact later_of_isSpecifier hc
  | _ =>
    rintro x ⟨⟩
    exact ⟨rfl, rfl, by decide, by decide⟩

theorem with_format {format : List (BitVec 8)} (h : r.format = format) :
    { r with format := format } = r := by
  subst h
  rfl

theorem readLength_bytes (l : Length) {c : BitVec 8} (hc : isSpecifier c = true)
    (hformat : r.format = l.bytes ++ c :: rest) :
    readLength r = { r with flags := l.set r.flags, format := c :: rest } := by
  simp only [isSpecifier, Bool.and_eq_true, decide_eq_true_eq] at hc
  obtain ⟨⟨⟨⟨⟨-, hl⟩, hh⟩, ht⟩, hj⟩, hz⟩ := hc
  rw [readLength, hformat]
  cases l with
  | none =>
    simp only [Length.bytes, List.nil_append, hl, hh, ht, hj, hz, decide_false, Bool.or_self,
      Bool.false_eq_true, if_false]
    exact (with_format hformat).symm
  | short =>
    have hne : (c :: rest).head? ≠ some (byteOf 'h') := fun h => hh (Option.some_inj.mp h)
    rw [Length.bytes, List.singleton_append]
    dsimp only
    rw [if_neg (by decide), if_pos rfl, if_neg hne]
    rfl
  | long =>
    have hne : (c :: rest).head? ≠ some (byteOf 'l') := fun h => hl (Option.some_inj.mp h)
    rw [Length.bytes, List.singleton_append]
    dsimp only
    rw [if_pos rfl, if_neg hne]
    rfl
  | _ => rfl

theorem readPrecision_bytes (p : Option (Option Amount)) (hrest : ∀ c ∈ rest.head?, Later c)
    (hformat : r.format = p.elim [] (fun p => byteOf '.' :: p.elim [] Amount.bytes) ++ rest) :
    readPrecision r = p.elim (some { r with format := rest }) fun p =>
      let r := { r with flags.precision := true, format := rest }
      p.elim (some r) (Amount.set (fun n r => { r with precision := n })
        (fun w r => { r with precision := starPrecision w }) r) := by
  rw [readPrecision, hformat]
  cases p with
  | none =>
    refine Eq.trans ?_ (congrArg some (with_format hformat)).symm
    cases rest with
    | nil => rfl
    | cons c rest => exact if_neg (hrest c rfl).point
  | some p =>
    cases p with
    | none =>
      refine (if_pos rfl).trans (readAmount_none fun c hc => ?_)
      exact ⟨(hrest c hc).digit, (hrest c hc).star⟩
    | some a =>
      exact (if_pos rfl).trans (readAmount_bytes a (fun c hc => (hrest c hc).digit) rfl)

theorem readWidth_bytes (a : Option Amount)
    (hrest : ∀ c ∈ rest.head?, isDigit c = false ∧ c ≠ byteOf '*')
    (hformat : r.format = a.elim [] Amount.bytes ++ rest) :
    readWidth r = a.elim (some { r with format := rest })
      (Amount.set (fun n r => { r with width := n })
        (fun w r => { r with flags := (starWidth w r.flags).1, width := (starWidth w r.flags).2 })
        { r with format := rest }) := by
  cases a with
  | none =>
    refine Eq.trans ?_ (congrArg some (with_format hformat)).symm
    exact readAmount_none (hformat ▸ hrest)
  | some a => exact readAmount_bytes a (fun c hc => (hrest c hc).1) hformat

theorem later_precision (p : Option (Option Amount)) (hrest : ∀ c ∈ rest.head?, Later c) :
    ∀ x ∈ (p.elim [] (fun p => byteOf '.' :: p.elim [] Amount.bytes) ++ rest).head?,
      flagOf x {} = none ∧ isDigit x = false ∧ x ≠ byteOf '*' := by
  cases p with
  | none => exact fun x hx => ⟨(hrest x hx).flag, (hrest x hx).digit, (hrest x hx).star⟩
  | some p =>
    rintro x ⟨⟩
    exact ⟨rfl, rfl, by decide⟩

/-- A width is not taken for a flag. -/
theorem later_width {a : Option Amount} (ha : a ≠ some (.number 0))
    (hrest : ∀ c ∈ rest.head?, flagOf c {} = none) :
    ∀ x ∈ (a.elim [] Amount.bytes ++ rest).head?, flagOf x {} = none := by
  have hdigit : ∀ d < 10, d ≠ 0 → flagOf (ntoaDigit false d) {} = none := by decide
  cases a with
  | none => exact hrest
  | some a =>
    cases a with
    | star =>
      rintro x ⟨⟩
      rfl
    | number n =>
      obtain ⟨d, ds, hn, hd, hd0⟩ := numeral_eq_cons n
      rw [Option.elim_some, Amount.bytes, hn]
      rintro x ⟨⟩
      exact hdigit d hd (hd0 fun h0 => ha (by rw [h0]))

/-- The parts behind the width. -/
theorem readTail_bytes (p : Option (Option Amount)) (l : Length) {c : BitVec 8}
    (hc : isSpecifier c = true) (hformat : r.format =
      p.elim [] (fun p => byteOf '.' :: p.elim [] Amount.bytes) ++ (l.bytes ++ c :: rest)) :
    (readPrecision r).bind (fun r => some (readLength r)) =
      (p.elim (some { r with format := c :: rest }) fun p =>
        let r := { r with flags.precision := true, format := c :: rest }
        p.elim (some r) (Amount.set (fun n r => { r with precision := n })
          (fun w r => { r with precision := starPrecision w }) r)).bind
        fun r => some { r with flags := l.set r.flags } := by
  have hlength : ∀ r : Reading, r.format = l.bytes ++ c :: rest →
      readLength r = { r with flags := l.set r.flags, format := c :: rest } :=
    fun r hr => readLength_bytes l hc hr
  rw [readPrecision_bytes p (later_length l hc) hformat]
  rcases p with _ | _ | n | _
  · exact congrArg some (hlength _ rfl)
  · exact congrArg some (hlength _ rfl)
  · exact congrArg some (hlength _ rfl)
  · dsimp only [Option.elim_some, Amount.set]
    split
    · exact congrArg some (hlength _ rfl)
    · rfl

/-- A directive is read as it was written. -/
theorem readDirective_bytes (d : Directive) (hd : d.WellFormed) {c : BitVec 8}
    (hc : isSpecifier c = true) (rest : List (BitVec 8)) (args : List Arg) :
    readDirective (d.bytes ++ c :: rest) args = d.meaning (c :: rest) args := by
  obtain ⟨fs, width, precision, length⟩ := d
  have hlength : ∀ x ∈ (length.bytes ++ c :: rest).head?, Later x := later_length length hc
  have hprecision := later_precision precision hlength
  have hflags := readFlags_bytes (later_width hd fun x hx => (hprecision x hx).1) fs {}
  rw [readDirective, Directive.bytes, Directive.meaning]
  simp only [List.append_assoc]
  rw [hflags, readWidth_bytes width (fun x hx => (hprecision x hx).2) rfl]
  rcases width with _ | n | _
  · exact readTail_bytes precision length hc rfl
  · exact readTail_bytes precision length hc rfl
  · cases args with
    | nil => rfl
    | cons arg args =>
      cases arg with
      | int w => exact readTail_bytes precision length hc rfl
      | str s => rfl

/-! ### Formats -/

/-- An ordinary character, or a directive with its specifier. -/
inductive Piece
  | char (c : BitVec 8)
  | directive (d : Directive) (c : BitVec 8)

def Piece.bytes : Piece → List (BitVec 8)
  | char c => [c]
  | directive d c => byteOf '%' :: (d.bytes ++ [c])

def Piece.WellFormed : Piece → Prop
  | char c => c ≠ byteOf '%'
  | directive d c => d.WellFormed ∧ isSpecifier c = true

/-- The text of a piece, and the arguments that are left. -/
def Piece.text (args : List Arg) : Piece → Option (List (BitVec 8) × List Arg)
  | char c => some ([c], args)
  | directive d c => (d.meaning [] args).bind (directiveText c)

def piecesText : List Piece → List Arg → Option (List (BitVec 8))
  | [], _ => some []
  | piece :: pieces, args => do
    let (text, args) ← piece.text args
    (piecesText pieces args).map (text ++ ·)

/-- The rest of the format stands by. -/
theorem meaning_format (d : Directive) (rest : List (BitVec 8)) (args : List Arg) :
    d.meaning rest args = (d.meaning [] args).map fun r => { r with format := rest } := by
  obtain ⟨fs, width, precision, length⟩ := d
  have htail : ∀ r : Reading, (precision.elim (some { r with format := rest }) fun p =>
        let r := { r with flags.precision := true, format := rest }
        p.elim (some r) (Amount.set (fun n r => { r with precision := n })
          (fun w r => { r with precision := starPrecision w }) r)).bind
            (fun r => some { r with flags := length.set r.flags }) =
      ((precision.elim (some r) fun p =>
        let r := { r with flags.precision := true }
        p.elim (some r) (Amount.set (fun n r => { r with precision := n })
          (fun w r => { r with precision := starPrecision w }) r)).bind
            fun r => some { r with flags := length.set r.flags }).map
        fun r => { r with format := rest } := by
    intro r
    rcases precision with _ | _ | n | _
    · rfl
    · rfl
    · rfl
    · dsimp only [Option.elim_some, Amount.set]
      split <;> rfl
  rcases width with _ | n | _
  · exact htail ⟨_, _, _, [], args⟩
  · exact htail ⟨_, _, _, [], args⟩
  · cases args with
    | nil => rfl
    | cons arg args =>
      cases arg with
      | int w => exact htail ⟨_, _, _, [], args⟩
      | str s => rfl

theorem textLoop_pieces {pieces : List Piece} (h : ∀ piece ∈ pieces, piece.WellFormed) :
    ∀ {fuel : ℕ} (args : List Arg), (pieces.flatMap Piece.bytes).length < fuel →
      textLoop fuel (pieces.flatMap Piece.bytes) args = piecesText pieces args := by
  induction pieces with
  | nil =>
    intro fuel args hfuel
    obtain ⟨fuel, rfl⟩ := Nat.exists_eq_succ_of_ne_zero hfuel.ne_bot
    rfl
  | cons piece pieces ih =>
    intro fuel args hfuel
    obtain ⟨fuel, rfl⟩ := Nat.exists_eq_succ_of_ne_zero (Nat.ne_of_gt (Nat.zero_lt_of_lt hfuel))
    have hpiece := h piece List.mem_cons_self
    replace ih := @ih fun piece hp => h piece (List.mem_cons_of_mem _ hp)
    rw [List.flatMap_cons, List.length_append] at hfuel
    rw [List.flatMap_cons]
    cases piece with
    | char c =>
      rw [Piece.bytes, List.length_singleton] at hfuel
      have hc : c ≠ byteOf '%' := hpiece
      rw [Piece.bytes, List.singleton_append, textLoop, if_pos hc, ih args (by omega)]
      rfl
    | directive d c =>
      obtain ⟨hd, hc⟩ := hpiece
      rw [Piece.bytes, List.length_cons, List.length_append, List.length_singleton] at hfuel
      rw [Piece.bytes, List.cons_append, List.append_assoc, List.singleton_append, textLoop,
        if_neg (not_not_intro rfl), readDirective_bytes d hd hc, meaning_format, piecesText,
        Piece.text]
      cases hr : d.meaning [] args with
      | none => rfl
      | some r =>
        dsimp only [Option.map_some, Option.bind_eq_bind, Option.bind_some]
        change (directiveText c r).bind _ = (directiveText c r).bind _
        cases ht : directiveText c r with
        | none => rfl
        | some p => exact congrArg (Option.map _) (ih p.2 (by omega))

/-- A format of well-formed pieces has the texts of its pieces, one after the other. -/
theorem formatText_pieces {pieces : List Piece} (h : ∀ piece ∈ pieces, piece.WellFormed)
    (args : List Arg) :
    formatText (pieces.flatMap Piece.bytes) args = piecesText pieces args :=
  textLoop_pieces h args (Nat.lt_succ_self _)

/-- **The text of a format**: what `_vsnprintf` sends for a format in memory that is written as a
sequence of well-formed pieces, are the texts of the pieces, each with the arguments that the
earlier ones have left. -/
theorem vsnprintf_pieces {σ : Type} {mem : σ → ByteMemory} {k : Sink σ} {m : ByteMemory}
    {R : Set ℕ} {I : σ → Prop} (hkeeps : Keeps mem k m R I) {pieces : List Piece}
    (h : ∀ piece ∈ pieces, piece.WellFormed) {a : ℕ} {va : List (BitVec 64)} {args : List Arg}
    (hfmt : StringAt m R a (pieces.flatMap Piece.bytes)) (hargs : List.Forall₂ (ArgAt m R) va args)
    {text : List (BitVec 8)} (htext : piecesText pieces args = some text) :
    ∃ fuel₀, ∀ fuel > fuel₀, ∀ s, I s → vsnprintf mem k fuel a va s =
      some (BitVec.ofNat 32 text.length, if k.buffer = 0 then s else sendText k text s) :=
  vsnprintf_eq hkeeps ⟨_, args, hfmt, hargs, (formatText_pieces h args).trans htext⟩

theorem vsnprintf_pieces_answer :
    let m := ByteMemory.storeBytes (fun _ => 0) 0 (literal "= %04ld;" ++ [0])
    ∃ fuel₀, ∀ fuel > fuel₀, ∀ s : List (BitVec 8), True →
      vsnprintf (fun _ => m) ⟨fun c _ _ _ s => s ++ [c], 1, 0⟩ fuel 0 [42] s =
        some (7, sendText ⟨fun c _ _ _ s => s ++ [c], 1, 0⟩ (literal "= 0042;") s) := by
  intro m
  have hpieces : ∀ piece ∈ [Piece.char (byteOf '='), .char (byteOf ' '),
      .directive ⟨[.zeropad], some (.number 4), none, .long⟩ (byteOf 'd'), .char (byteOf ';')],
      piece.WellFormed := by
    simp only [List.forall_mem_cons, List.not_mem_nil, false_imp_iff, implies_true, and_true]
    exact ⟨(by decide : byteOf '=' ≠ byteOf '%'), (by decide : byteOf ' ' ≠ byteOf '%'),
      ⟨nofun, by decide⟩, (by decide : byteOf ';' ≠ byteOf '%')⟩
  have hfmt : StringAt m Set.univ 0 (literal "= %04ld;") :=
    stringAt_storeBytes (by decide) fun _ _ => trivial
  have hargs : List.Forall₂ (ArgAt m Set.univ) [42] [.int 42] := .cons rfl .nil
  have htext : piecesText [Piece.char (byteOf '='), .char (byteOf ' '),
      .directive ⟨[.zeropad], some (.number 4), none, .long⟩ (byteOf 'd'), .char (byteOf ';')]
      [.int 42] = some (literal "= 0042;") := by decide
  have hkeeps : Keeps (fun _ : List (BitVec 8) => m) ⟨fun c _ _ _ s => s ++ [c], 1, 0⟩ m Set.univ
      fun _ => True := ⟨fun _ _ _ h => h, fun _ _ _ _ => rfl⟩
  exact vsnprintf_pieces hkeeps hpieces hfmt hargs htext

end Vsnprintf

end FrogOS
