import FrogOS.IntegerReading
import FrogOS.FormatSyntax

/-!
# Reading a formatted text back

A reader that goes along a format and its text at once, as `scanf` does: an ordinary character
must be there, and at a directive a number is read, after any spaces, up to the first character that
is no digit. From the text that the formatter makes of the format it reads the arguments back, each
in the type of its directive, provided that behind every directive there is an ordinary character
that ends the number.

Of the directives these are the integer conversions and the pointers, without the flags `-` and `#`,
without a precision and without stars.

## Main definitions

* `Vsnprintf.scan` — the reader
* `Vsnprintf.Scannable` — the directives whose numbers can be told from what is around them
* `Vsnprintf.Separated` — the formats in which every number ends

## Main results

* `Vsnprintf.scanInteger_standardText` — one number
* `Vsnprintf.vsnprintf_scan` — a format in memory, with any arguments
-/

namespace FrogOS

namespace Vsnprintf

/-! ### The reader -/

/-- The digits of all bases up to 16. -/
def isDigitChar (c : BitVec 8) : Bool :=
  byteOf '0' ≤ c && c ≤ byteOf '9' || byteOf 'A' ≤ c && c ≤ byteOf 'F' ||
    byteOf 'a' ≤ c && c ≤ byteOf 'f'

def scanDigits (base : ℕ) (text : List (BitVec 8)) : ℤ × List (BitVec 8) :=
  let digits := (text.takeWhile isDigitChar).reverse.map digitValue
  ((Nat.ofDigits base digits : ℕ), text.dropWhile isDigitChar)

def scanSigned (base : ℕ) : List (BitVec 8) → ℤ × List (BitVec 8)
  | [] => (0, [])
  | c :: rest =>
    if c = byteOf '-' then (-(scanDigits base rest).1, (scanDigits base rest).2)
    else if c = byteOf '+' then scanDigits base rest
    else scanDigits base (c :: rest)

/-- A number, and the text behind it. -/
def scanInteger (base : ℕ) (text : List (BitVec 8)) : ℤ × List (BitVec 8) :=
  scanSigned base (text.dropWhile (· = byteOf ' '))

/-- The base in which a directive prints. -/
def scanBase (c : BitVec 8) : ℕ := if c = byteOf 'p' then 16 else baseOf c

/-- The numbers of a text that is made with a format of `pieces`, and the text behind it. -/
def scan : List Piece → List (BitVec 8) → Option (List ℤ × List (BitVec 8))
  | [], text => some ([], text)
  | .char _ :: _, [] => none
  | .char c :: pieces, x :: text => if x = c then scan pieces text else none
  | .directive _ c :: pieces, text =>
    let (value, rest) := scanInteger (scanBase c) text
    (scan pieces rest).map fun r => (value :: r.1, r.2)

/-! ### The formats -/

/-- A directive whose number can be told from what is around it. -/
structure Scannable (d : Directive) (c : BitVec 8) : Prop where
  specifier : isInteger c = true ∨ c = byteOf 'p'
  left : FlagChar.left ∉ d.flags
  hash : FlagChar.hash ∉ d.flags
  width : d.width = none ∨ ∃ n ≠ 0, d.width = some (.number n) ∧ n ≤ ntoaBufferSize
  precision : d.precision = none
  /-- The digits of a `long` in base 2 can be too many. -/
  length : c = byteOf 'b' → d.length = .none

/-- `%d`, `%x` and the like. -/
theorem scannable_plain {c : BitVec 8} (hc : isInteger c = true ∨ c = byteOf 'p') :
    Scannable ⟨[], none, none, .none⟩ c :=
  ⟨hc, List.not_mem_nil, List.not_mem_nil, Or.inl rfl, rfl, fun _ => rfl⟩

/-- With a width, and perhaps with the flag `0`. -/
theorem scannable_width {c : BitVec 8} {fs : List FlagChar} {n : ℕ}
    (hc : isInteger c = true ∨ c = byteOf 'p') (hfs : ∀ f ∈ fs, f = .zeropad) (hn : n ≠ 0)
    (hle : n ≤ ntoaBufferSize) : Scannable ⟨fs, some (.number n), none, .none⟩ c where
  specifier := hc
  left h := absurd (hfs _ h) (by decide)
  hash h := absurd (hfs _ h) (by decide)
  width := Or.inr ⟨n, hn, rfl, hle⟩
  precision := rfl
  length _ := rfl

/-- A piece that the reader knows. -/
def Piece.Readable : Piece → Prop
  | .char c => c ≠ byteOf '%'
  | .directive d c => Scannable d c

/-- Behind every directive comes a character that ends its number. -/
def Separated : List Piece → Prop
  | [] => True
  | .char c :: pieces => c ≠ byteOf '%' ∧ Separated pieces
  | .directive d c :: pieces => Scannable d c ∧
      (∃ x pieces', pieces = .char x :: pieces' ∧ isDigitChar x = false) ∧ Separated pieces

/-- The argument of a directive, in the type that the directive gives it. -/
def scanned (d : Directive) (c : BitVec 8) (w : BitVec 64) : ℤ :=
  if c = byteOf 'p' then w.toNat else argument c (d.length.set {}) w

/-- The arguments of a format. -/
def scannedAll : List Piece → List Arg → List ℤ
  | .char _ :: pieces, args => scannedAll pieces args
  | .directive d c :: pieces, .int w :: args => scanned d c w :: scannedAll pieces args
  | _, _ => []

/-! ### One number -/

variable {value base width : ℕ} {negative : Bool} {flags : Flags} {rest : List (BitVec 8)}

theorem isDigitChar_ntoaDigit (uppercase : Bool) {d : ℕ} (hd : d < 16) :
    isDigitChar (ntoaDigit uppercase d) = true := by
  revert d
  cases uppercase <;> decide

theorem ne_of_isDigitChar {c : BitVec 8} (h : isDigitChar c = true) :
    c ≠ byteOf ' ' ∧ c ≠ byteOf '+' ∧ c ≠ byteOf '-' := by
  refine ⟨?_, ?_, ?_⟩ <;> rintro rfl <;> exact absurd h (by decide)

theorem isDigitChar_number (hbase : 1 < base) (hbase' : base ≤ 16) (zeros : ℕ) :
    ∀ c ∈ List.replicate zeros (byteOf '0') ++ (allDigits value base flags).reverse,
      isDigitChar c = true := by
  intro c hc
  obtain hc | hc := List.mem_append.mp hc
  · rw [List.eq_of_mem_replicate hc]
    decide
  obtain ⟨d, hd, rfl⟩ := List.mem_map.mp (List.mem_reverse.mp hc)
  refine isDigitChar_ntoaDigit _ ?_
  split at hd
  · rw [List.mem_singleton.mp hd]
    decide
  · exact (Nat.digits_lt_base hbase hd).trans_le hbase'

theorem takeWhile_eq_nil {p : BitVec 8 → Bool} (h : ∀ c ∈ rest.head?, p c = false) :
    rest.takeWhile p = [] ∧ rest.dropWhile p = rest := by
  cases rest with
  | nil => exact ⟨rfl, rfl⟩
  | cons c rest => simp [h c rfl]

theorem scanDigits_eq (hbase : 1 < base) (hbase' : base ≤ 16) (zeros : ℕ)
    (hrest : ∀ c ∈ rest.head?, isDigitChar c = false) :
    scanDigits base (List.replicate zeros (byteOf '0') ++
      ((allDigits value base flags).reverse ++ rest)) = ((value : ℤ), rest) := by
  have hdigits : ∀ c ∈ List.replicate zeros (byteOf '0') ++ (allDigits value base flags).reverse,
      isDigitChar c = true := isDigitChar_number hbase hbase' zeros
  obtain ⟨htake, hdrop⟩ := takeWhile_eq_nil hrest
  rw [scanDigits, ← List.append_assoc, List.takeWhile_append_of_pos hdigits,
    List.dropWhile_append_of_pos hdigits, htake, hdrop, List.append_nil, List.reverse_append,
    List.reverse_reverse, List.reverse_replicate, List.map_append, List.map_replicate,
    show digitValue (byteOf '0') = 0 by decide, Nat.ofDigits_append_replicate_zero,
    ofDigits_allDigits hbase hbase']

/-- A number without a precision has a digit. -/
theorem allDigits_ne_nil (hno : flags.precision = false) : allDigits value base flags ≠ [] := by
  rw [allDigits]
  by_cases hvalue : value = 0
  · rw [if_pos ⟨hvalue, hno⟩]
    exact List.cons_ne_nil _ _
  · rw [if_neg fun h => hvalue h.1]
    exact mt List.map_eq_nil_iff.mp (Nat.digits_ne_nil_iff_ne_zero.mpr hvalue)

theorem scanSigned_digits {number : List (BitVec 8)} (hne : number ≠ [])
    (hnumber : ∀ c ∈ number, isDigitChar c = true) :
    scanSigned base ((number ++ rest).dropWhile (· = byteOf ' ')) =
      scanDigits base (number ++ rest) := by
  obtain ⟨c, number, rfl⟩ := List.exists_cons_of_ne_nil hne
  obtain ⟨hspace, hplus, hminus⟩ := ne_of_isDigitChar (hnumber c List.mem_cons_self)
  rw [List.cons_append, List.dropWhile_cons_of_neg (by simpa using hspace), scanSigned,
    if_neg hminus, if_neg hplus]

theorem scanInteger_layout (hbase : 1 < base) (hbase' : base ≤ 16)
    (hno : flags.precision = false) (front zeros : ℕ)
    (hrest : ∀ c ∈ rest.head?, isDigitChar c = false) :
    scanInteger base (layout front (signText negative flags) zeros
      (allDigits value base flags).reverse 0 ++ rest) =
        (if negative then -(value : ℤ) else value, rest) := by
  have hscan : scanDigits base (List.replicate zeros (byteOf '0') ++
      ((allDigits value base flags).reverse ++ rest)) = ((value : ℤ), rest) :=
    scanDigits_eq hbase hbase' zeros hrest
  have hplain : scanSigned base ((List.replicate zeros (byteOf '0') ++
      ((allDigits value base flags).reverse ++ rest)).dropWhile (· = byteOf ' ')) =
        ((value : ℤ), rest) := by
    rw [← List.append_assoc, scanSigned_digits _ (isDigitChar_number hbase hbase' zeros),
      List.append_assoc, hscan]
    simp [allDigits_ne_nil hno]
  rw [scanInteger, layout, List.append_assoc, dropWhile_spaces, List.replicate_zero,
    List.append_nil, List.append_assoc, List.append_assoc, signText]
  cases negative with
  | true => exact congrArg (fun r : ℤ × List (BitVec 8) => (-r.1, r.2)) hscan
  | false =>
    rw [if_neg Bool.false_ne_true, if_neg Bool.false_ne_true]
    split
    · exact hscan
    split
    · exact hplain
    · exact hplain

/-- A number that is not at the left margin, in front of a character that ends it. -/
theorem scanInteger_standardText (hbase : 1 < base) (hbase' : base ≤ 16)
    (hno : flags.precision = false) (hleft : flags.left = false)
    (hrest : ∀ c ∈ rest.head?, isDigitChar c = false) :
    scanInteger base (standardText value negative base 0 width flags ++ rest) =
      (if negative then -(value : ℤ) else value, rest) := by
  rw [standardText_eq_layout (fun _ => hno) (fun _ => rfl)]
  dsimp only
  rw [hleft, if_neg Bool.false_ne_true]
  exact scanInteger_layout hbase hbase' hno _ _ hrest

/-! ### One directive -/

variable {d : Directive} {c : BitVec 8} {fs : List FlagChar}

/-- Whether a flag is set. -/
def FlagChar.isSet : FlagChar → Flags → Bool
  | zeropad, flags => flags.zeropad
  | left, flags => flags.left
  | plus, flags => flags.plus
  | space, flags => flags.space
  | hash, flags => flags.hash

theorem isSet_set (f f' : FlagChar) (flags : Flags) :
    f.isSet (f'.set flags) = (f.isSet flags || f = f') := by
  cases f <;> cases f' <;> simp [FlagChar.isSet, FlagChar.set]

/-- The flags that are set are those that are written. -/
theorem isSet_foldl (f : FlagChar) : ∀ (fs : List FlagChar) (flags : Flags),
    f.isSet (fs.foldl (fun flags f => f.set flags) flags) = (f.isSet flags || f ∈ fs)
  | [], flags => by simp
  | f' :: fs, flags => by
    rw [List.foldl_cons, isSet_foldl f fs, isSet_set]
    by_cases h : f = f' <;> simp [h]

/-- The parts of the flags that only the length and the precision set. -/
theorem foldl_rest : ∀ (fs : List FlagChar) (flags : Flags),
    let flags' := fs.foldl (fun flags f => f.set flags) flags
    flags'.precision = flags.precision ∧ flags'.char = flags.char ∧ flags'.short = flags.short ∧
      flags'.long = flags.long ∧ flags'.longLong = flags.longLong
  | [], _ => ⟨rfl, rfl, rfl, rfl, rfl⟩
  | f :: fs, flags => by
    obtain ⟨h₁, h₂, h₃, h₄, h₅⟩ := foldl_rest fs (f.set flags)
    cases f <;> exact ⟨h₁, h₂, h₃, h₄, h₅⟩

/-- The flags of a directive. -/
def Directive.allFlags (d : Directive) : Flags :=
  d.length.set (d.flags.foldl (fun flags f => f.set flags) {})

theorem isSet_allFlags (f : FlagChar) : f.isSet d.allFlags = decide (f ∈ d.flags) := by
  have hfoldl := isSet_foldl f d.flags {}
  rw [show f.isSet {} = false by cases f <;> rfl, Bool.false_or] at hfoldl
  rw [← hfoldl, Directive.allFlags]
  cases d.length <;> cases f <;> rfl

theorem allFlags_precision : d.allFlags.precision = false := by
  obtain ⟨h, -⟩ := foldl_rest d.flags {}
  rw [Directive.allFlags]
  cases d.length <;> exact h

/-- The type of the argument depends on the length only. -/
theorem argument_allFlags (w : BitVec 64) :
    argument c d.allFlags w = argument c (d.length.set {}) w := by
  obtain ⟨-, hchar, hshort, hlong, hlongLong⟩ := foldl_rest d.flags {}
  obtain ⟨h₁, h₂, h₃, h₄⟩ : d.allFlags.long = (d.length.set {}).long ∧
      d.allFlags.longLong = (d.length.set {}).longLong ∧
      d.allFlags.char = (d.length.set {}).char ∧ d.allFlags.short = (d.length.set {}).short := by
    rw [Directive.allFlags]
    cases d.length <;> simp [Length.set, hchar, hshort, hlong, hlongLong]
  rw [argument, argument, unsignedValue, unsignedValue, h₁, h₂, h₃, h₄]

/-- The width of a directive without a star. -/
def Directive.fieldWidth (d : Directive) : ℕ :=
  match d.width with
  | some (.number n) => n
  | _ => 0

theorem Scannable.fieldWidth_le (h : Scannable d c) : d.fieldWidth ≤ ntoaBufferSize := by
  rw [Directive.fieldWidth]
  obtain hw | ⟨n, -, hw, hn⟩ := h.width
  · rw [hw]
    exact Nat.zero_le _
  · rw [hw]
    exact hn

theorem Scannable.meaning_eq (h : Scannable d c) (args : List Arg) :
    d.meaning [] args = some ⟨d.allFlags, d.fieldWidth, 0, [], args⟩ := by
  have hle := h.fieldWidth_le
  rw [Directive.meaning, h.precision, Directive.allFlags, Directive.fieldWidth] at *
  obtain hw | ⟨n, -, hw, hn⟩ := h.width
  · rw [hw]
    rfl
  · have hmod : n % 2 ^ 32 = n := Nat.mod_eq_of_lt (hn.trans_lt (by decide))
    rw [hw]
    simp only [Option.elim_some, Amount.set, hmod]
    rfl

theorem integerFlags_left (flags : Flags) : (integerFlags c flags).left = flags.left := by
  rw [integerFlags]
  split_ifs <;> rfl

theorem integerFlags_long (c : BitVec 8) (flags : Flags) :
    (integerFlags c flags).long = flags.long ∧
      (integerFlags c flags).longLong = flags.longLong := by
  rw [integerFlags]
  split_ifs <;> exact ⟨rfl, rfl⟩

theorem integerValue_lt (c : BitVec 8) (flags : Flags) (w : BitVec 64) :
    (integerValue c flags w).1 < 2 ^ 64 := by
  rw [integerValue]
  split
  · exact signedValue_lt flags w
  · rw [unsignedValue]
    split_ifs
    · exact w.isLt
    all_goals exact (BitVec.isLt _).trans (by decide)

/-- What is converted in base 2 has 32 bits. -/
theorem integerValue_lt_of_binary (flags : Flags) (w : BitVec 64) (hc : c = byteOf 'b')
    (hlong : flags.long = false) (hlongLong : flags.longLong = false) :
    (integerValue c flags w).1 < 2 ^ 32 := by
  rw [integerValue, hc, if_neg (by decide), unsignedValue, hlong, hlongLong,
    if_neg (by decide)]
  split_ifs
  · exact (BitVec.isLt _).trans (by decide)
  · exact (BitVec.isLt _).trans (by decide)
  · exact BitVec.isLt _

/-- Without a precision and not at the left margin, what fits is a matter of the digits and of the
width that zeros fill. -/
theorem fits_of_length_le {value base width : ℕ} {negative : Bool} {flags : Flags}
    (hleft : flags.left = false)
    (hn : (allDigits value base flags).length ≤ ntoaBufferSize) (hwidth : width ≤ ntoaBufferSize) :
    Fits value negative base 0 width flags := by
  refine ⟨hn, ?_⟩
  rw [if_neg (by rw [hleft]; exact Bool.false_ne_true)]
  split
  · exact hwidth
  · exact ⟨Nat.zero_le _, fun h => absurd h (by decide)⟩

theorem Scannable.integerText_eq (h : Scannable d c) (args : List Arg) (w : BitVec 64) :
    let flags := integerFlags c d.allFlags
    let v := integerValue c flags w
    integerText c ⟨d.allFlags, d.fieldWidth, 0, [], args⟩ w =
      standardText v.1 v.2 (baseOf c) 0 d.fieldWidth flags := by
  intro flags v
  have hhash : d.allFlags.hash = false := (isSet_allFlags .hash).trans (by simpa using h.hash)
  have hleft : flags.left = false :=
    (integerFlags_left _).trans ((isSet_allFlags .left).trans (by simpa using h.left))
  have hlt : v.1 < 2 ^ 64 := integerValue_lt c flags w
  refine (ntoaText_eq_standardText_iff (plain_integer (fun _ => rfl) (Or.inl hhash) w)).mpr
    (fits_of_length_le hleft ?_ h.fieldWidth_le)
  obtain hb | hb | hb | hb := baseOf_cases c
  · have hbinary : c = byteOf 'b' := by
      by_contra hne
      rw [baseOf, if_neg hne] at hb
      split_ifs at hb <;> exact absurd hb (by decide)
    obtain ⟨-, -, -, hlong, hlongLong⟩ := foldl_rest d.flags {}
    have hflags : d.allFlags = d.flags.foldl (fun flags f => f.set flags) {} := by
      rw [Directive.allFlags, h.length hbinary]
      rfl
    obtain ⟨hlong', hlongLong'⟩ := integerFlags_long c d.allFlags
    have hlt' := integerValue_lt_of_binary flags w hbinary
      (hlong'.trans (hflags ▸ hlong)) (hlongLong'.trans (hflags ▸ hlongLong))
    exact allDigits_length_le (k := 32) (by omega) (by decide) (by rw [hb]; exact hlt')
  · refine (allDigits_length_le (k := 22) (by omega) (by decide) ?_).trans (by decide)
    rw [hb]
    exact hlt.trans (by decide)
  · refine (allDigits_length_le (k := 20) (by omega) (by decide) ?_).trans (by decide)
    rw [hb]
    exact hlt.trans (by decide)
  · refine (allDigits_length_le (k := 16) (by omega) (by decide) ?_).trans (by decide)
    rw [hb]
    exact hlt

theorem Scannable.pointerText_eq (h : Scannable d c) (args : List Arg) (w : BitVec 64) :
    pointerText ⟨d.allFlags, d.fieldWidth, 0, [], args⟩ w =
      standardText w.toNat false 16 0 16
        { d.allFlags with zeropad := true, uppercase := true } := by
  have hhash : d.allFlags.hash = false := (isSet_allFlags .hash).trans (by simpa using h.hash)
  have hleft : d.allFlags.left = false := (isSet_allFlags .left).trans (by simpa using h.left)
  have hlength : (allDigits w.toNat 16
      { d.allFlags with zeropad := true, uppercase := true }).length ≤ 16 :=
    allDigits_length_le (by decide) (by decide) w.isLt
  refine (ntoaText_eq_standardText_iff ?_).mpr
    (fits_of_length_le hleft (hlength.trans (by decide)) (by decide))
  exact ⟨by decide, by decide, hhash, fun _ => allFlags_precision, fun _ => rfl,
    fun _ => hlength.trans_lt (by decide)⟩

/-- The text of a directive, without a precision. -/
def fieldText (d : Directive) (c : BitVec 8) (w : BitVec 64) : List (BitVec 8) :=
  if isInteger c then integerText c ⟨d.allFlags, d.fieldWidth, 0, [], []⟩ w
  else pointerText ⟨d.allFlags, d.fieldWidth, 0, [], []⟩ w

theorem Scannable.directiveText_eq (h : Scannable d c) (args : List Arg) (w : BitVec 64) :
    (d.meaning [] (.int w :: args)).bind (directiveText c) = some (fieldText d c w, args) := by
  rw [h.meaning_eq, Option.bind_some]
  obtain hc | rfl := h.specifier
  · rw [directiveText, fieldText, hc]
    rfl
  · rfl

/-- The text of a directive is read as the argument. -/
theorem Scannable.scan_fieldText (h : Scannable d c) (w : BitVec 64) {rest : List (BitVec 8)}
    (hrest : ∀ x ∈ rest.head?, isDigitChar x = false) :
    scanInteger (scanBase c) (fieldText d c w ++ rest) = (scanned d c w, rest) := by
  have hleft : d.allFlags.left = false := (isSet_allFlags .left).trans (by simpa using h.left)
  obtain hc | rfl := h.specifier
  · have hp : c ≠ byteOf 'p' := by
      rintro rfl
      exact absurd hc (by decide)
    rw [fieldText, if_pos hc, h.integerText_eq, scanBase, if_neg hp, scanned, if_neg hp]
    refine (scanInteger_standardText ?_ ?_ ?_ ?_ hrest).trans ?_
    · obtain hb | hb | hb | hb := baseOf_cases c <;> omega
    · obtain hb | hb | hb | hb := baseOf_cases c <;> omega
    · rw [integerFlags_precision, allFlags_precision]
    · rw [integerFlags_left, hleft]
    · rw [integerValue_eq, argument_integerFlags, argument_allFlags]
  · rw [fieldText, if_neg (by decide), h.pointerText_eq]
    exact scanInteger_standardText (by decide) (by decide) allFlags_precision hleft hrest

/-- The directive takes an integer. -/
theorem Scannable.args_eq (h : Scannable d c) {args : List Arg} {p : List (BitVec 8) × List Arg}
    (hp : (d.meaning [] args).bind (directiveText c) = some p) :
    ∃ w args', args = .int w :: args' := by
  have hcond : (isInteger c || c = byteOf 'c' || c = byteOf 'p') = true := by
    obtain hc | rfl := h.specifier
    · rw [hc]
      rfl
    · rfl
  rw [h.meaning_eq, Option.bind_some, directiveText, if_pos hcond] at hp
  cases args with
  | nil => cases hp
  | cons arg args =>
    cases arg with
    | int w => exact ⟨w, args, rfl⟩
    | str s => cases hp

/-! ### Formats -/

/-- What a separated format makes begins with no digit behind a number. -/
theorem head_of_char {x : BitVec 8} {pieces : List Piece} {args : List Arg}
    {text : List (BitVec 8)} (hx : isDigitChar x = false)
    (h : piecesText (.char x :: pieces) args = some text) (rest : List (BitVec 8)) :
    ∀ y ∈ (text ++ rest).head?, isDigitChar y = false := by
  obtain ⟨tail, -, rfl⟩ := Option.map_eq_some_iff.mp h
  rintro y ⟨⟩
  exact hx

/-- Along a separated format, the reader finds the arguments in the text. -/
theorem scan_piecesText {pieces : List Piece} (hsep : Separated pieces) {args : List Arg}
    {text : List (BitVec 8)} (htext : piecesText pieces args = some text)
    (rest : List (BitVec 8)) :
    scan pieces (text ++ rest) = some (scannedAll pieces args, rest) := by
  induction pieces generalizing args text with
  | nil =>
    obtain rfl := Option.some_inj.mp htext
    cases args <;> rfl
  | cons piece pieces ih =>
    cases piece with
    | char c =>
      obtain ⟨tail, htail, rfl⟩ := Option.map_eq_some_iff.mp htext
      exact (if_pos rfl).trans (ih hsep.2 htail)
    | directive d c =>
      obtain ⟨hd, ⟨x, pieces', rfl, hx⟩, hsep⟩ := hsep
      obtain ⟨p, hp, hrest⟩ := Option.bind_eq_some_iff.mp htext
      obtain ⟨w, args', rfl⟩ := hd.args_eq hp
      obtain rfl := Option.some_inj.mp ((hd.directiveText_eq args' w).symm.trans hp)
      obtain ⟨tail, htail, rfl⟩ := Option.map_eq_some_iff.mp hrest
      rw [scan, List.append_assoc, hd.scan_fieldText w (head_of_char hx htail rest)]
      dsimp only
      rw [ih hsep htail]
      rfl

/-- How many arguments a format takes. -/
def directives : List Piece → ℕ
  | [] => 0
  | .char _ :: pieces => directives pieces
  | .directive _ _ :: pieces => directives pieces + 1

theorem Separated.readable : ∀ {pieces : List Piece}, Separated pieces →
    ∀ piece ∈ pieces, piece.Readable
  | [], _ => fun _ h => absurd h List.not_mem_nil
  | .char _ :: _, h => List.forall_mem_cons.mpr ⟨h.1, h.2.readable⟩
  | .directive _ _ :: _, h => List.forall_mem_cons.mpr ⟨h.1, h.2.2.readable⟩

/-- A directive in front. -/
theorem piecesText_directive (h : Scannable d c) (pieces : List Piece) (w : BitVec 64)
    (args : List Arg) : piecesText (.directive d c :: pieces) (.int w :: args) =
      (piecesText pieces args).map (fieldText d c w ++ ·) := by
  rw [piecesText, Piece.text, h.directiveText_eq]
  rfl

/-- With enough integers there is a text. -/
theorem exists_piecesText {pieces : List Piece} (h : ∀ piece ∈ pieces, piece.Readable)
    {va : List (BitVec 64)} (hva : directives pieces ≤ va.length) :
    ∃ text, piecesText pieces (va.map .int) = some text := by
  induction pieces generalizing va with
  | nil => exact ⟨[], rfl⟩
  | cons piece pieces ih =>
    obtain ⟨hpiece, hpieces⟩ := List.forall_mem_cons.mp h
    cases piece with
    | char c =>
      obtain ⟨text, htext⟩ := ih hpieces hva
      exact ⟨c :: text, Option.map_eq_some_iff.mpr ⟨text, htext, rfl⟩⟩
    | directive d c =>
      obtain ⟨w, va, rfl⟩ := List.exists_cons_of_length_pos ((Nat.succ_pos _).trans_le hva)
      obtain ⟨text, htext⟩ := ih hpieces (Nat.le_of_succ_le_succ hva)
      rw [List.map_cons, piecesText_directive hpiece, htext]
      exact ⟨_, rfl⟩

theorem Scannable.wellFormed (h : Scannable d c) : (Piece.directive d c).WellFormed := by
  constructor
  · obtain hw | ⟨n, hn, hw, -⟩ := h.width
    · rw [Directive.WellFormed, hw]
      exact nofun
    · rw [Directive.WellFormed, hw]
      exact fun h0 => hn (Amount.number.inj (Option.some_inj.mp h0))
  · obtain hc | rfl := h.specifier
    · simp only [isInteger, Bool.or_eq_true, decide_eq_true_eq] at hc
      obtain (((((rfl | rfl) | rfl) | rfl) | rfl) | rfl) | rfl := hc <;> rfl
    · rfl

theorem Piece.Readable.wellFormed : ∀ {piece : Piece}, piece.Readable → piece.WellFormed
  | .char _, h => h
  | .directive _ _, h => Scannable.wellFormed h

/-- Such a format in memory has the text of its pieces. -/
theorem hasText_of_piecesText {m : ByteMemory} {R : Set ℕ} {pieces : List Piece}
    (h : ∀ piece ∈ pieces, piece.Readable) {a : ℕ}
    (hfmt : StringAt m R a (pieces.flatMap Piece.bytes)) {va : List (BitVec 64)}
    {text : List (BitVec 8)} (htext : piecesText pieces (va.map .int) = some text) :
    HasText m R a va text := by
  refine ⟨_, va.map .int, hfmt, ?_, ?_⟩
  · exact List.forall₂_map_right_iff.mpr (List.forall₂_same.mpr fun _ _ => rfl)
  · exact (formatText_pieces (fun piece hp => (h piece hp).wellFormed) _).trans htext

/-! ### The characters -/

theorem ne_zero_layout (front : ℕ) {sign digits : List (BitVec 8)} (hsign : ∀ c ∈ sign, c ≠ 0)
    (zeros : ℕ) (hdigits : ∀ c ∈ digits, c ≠ 0) (back : ℕ) :
    ∀ c ∈ layout front sign zeros digits back, c ≠ 0 := by
  intro c hc
  simp only [layout, List.mem_append, List.mem_replicate] at hc
  obtain ⟨-, rfl⟩ | hc | ⟨-, rfl⟩ | hc | ⟨-, rfl⟩ := hc
  · decide
  · exact hsign c hc
  · decide
  · exact hdigits c hc
  · decide

theorem ne_zero_standardText (hbase : 1 < base) (hbase' : base ≤ 16)
    (hno : flags.precision = false) :
    ∀ c ∈ standardText value negative base 0 width flags, c ≠ 0 := by
  have hdigits : ∀ c ∈ (allDigits value base flags).reverse, c ≠ 0 := by
    rintro c hc rfl
    have hdigit : isDigitChar 0 = true :=
      isDigitChar_number hbase hbase' 0 0 (List.mem_append_right _ hc)
    exact absurd hdigit (by decide)
  have hsign : ∀ c ∈ signText negative flags, c ≠ 0 := by
    rw [signText]
    split_ifs <;> decide
  rw [standardText_eq_layout (fun _ => hno) (fun _ => rfl)]
  exact ne_zero_layout _ hsign _ hdigits _

theorem Scannable.ne_zero (h : Scannable d c) (w : BitVec 64) : ∀ x ∈ fieldText d c w, x ≠ 0 := by
  rw [fieldText]
  split
  · rw [h.integerText_eq]
    refine ne_zero_standardText ?_ ?_ (by rw [integerFlags_precision, allFlags_precision])
    · obtain hb | hb | hb | hb := baseOf_cases c <;> omega
    · obtain hb | hb | hb | hb := baseOf_cases c <;> omega
  · rw [h.pointerText_eq]
    exact ne_zero_standardText (by decide) (by decide) allFlags_precision

/-- A text has no zeros unless its format has. -/
theorem ne_zero_piecesText {pieces : List Piece} (h : ∀ piece ∈ pieces, piece.Readable)
    (hchar : ∀ c, .char c ∈ pieces → c ≠ 0) {va : List (BitVec 64)} {text : List (BitVec 8)}
    (htext : piecesText pieces (va.map .int) = some text) : ∀ c ∈ text, c ≠ 0 := by
  induction pieces generalizing va text with
  | nil =>
    obtain rfl := Option.some_inj.mp htext
    exact fun _ hc => absurd hc List.not_mem_nil
  | cons piece pieces ih =>
    obtain ⟨hpiece, hpieces⟩ := List.forall_mem_cons.mp h
    have hchar' : ∀ c, .char c ∈ pieces → c ≠ 0 := fun c hc =>
      hchar c (List.mem_cons_of_mem _ hc)
    cases piece with
    | char c =>
      obtain ⟨tail, htail, rfl⟩ := Option.map_eq_some_iff.mp htext
      exact List.forall_mem_cons.mpr ⟨hchar c List.mem_cons_self, ih hpieces hchar' htail⟩
    | directive d c =>
      cases va with
      | nil =>
        obtain ⟨p, hp, -⟩ := Option.bind_eq_some_iff.mp htext
        obtain ⟨w, args, hargs⟩ := Scannable.args_eq hpiece hp
        cases hargs
      | cons w va =>
        rw [List.map_cons, piecesText_directive hpiece] at htext
        obtain ⟨tail, htail, rfl⟩ := Option.map_eq_some_iff.mp htext
        exact List.forall_mem_append.mpr ⟨Scannable.ne_zero hpiece w, ih hpieces hchar' htail⟩

/-! ### Several formats -/

theorem piecesText_char (c : BitVec 8) (pieces : List Piece) (args : List Arg) :
    piecesText (.char c :: pieces) args = (piecesText pieces args).map ([c] ++ ·) := rfl

/-- The arguments that a format leaves are those of the next one. -/
theorem piecesText_append {pieces : List Piece} (h : ∀ piece ∈ pieces, piece.Readable)
    (pieces' : List Piece) {va : List (BitVec 64)} (hva : va.length = directives pieces)
    (args : List Arg) : piecesText (pieces ++ pieces') (va.map .int ++ args) =
      (piecesText pieces (va.map .int)).bind fun text =>
        (piecesText pieces' args).map (text ++ ·) := by
  have hmap : ∀ (front : List (BitVec 8)) (x y : Option (List (BitVec 8))),
      (x.bind fun text => y.map (text ++ ·)).map (front ++ ·) =
        (x.map (front ++ ·)).bind fun text => y.map (text ++ ·) := by
    intro front x y
    cases x <;> cases y <;> simp
  induction pieces generalizing va with
  | nil =>
    obtain rfl := List.length_eq_zero_iff.mp hva
    exact (congrFun Option.map_id (piecesText pieces' args)).symm
  | cons piece pieces ih =>
    obtain ⟨hpiece, hpieces⟩ := List.forall_mem_cons.mp h
    cases piece with
    | char c =>
      rw [List.cons_append, piecesText_char, piecesText_char, ih hpieces hva, hmap]
    | directive d c =>
      obtain ⟨w, va, rfl⟩ := List.exists_cons_of_length_eq_add_one hva
      rw [List.map_cons, List.cons_append, List.cons_append, piecesText_directive hpiece,
        piecesText_directive hpiece, ih hpieces (Nat.succ_inj.mp hva), hmap]

theorem scannedAll_append {pieces pieces' : List Piece} {va : List (BitVec 64)}
    (hva : va.length = directives pieces) (args : List Arg) :
    scannedAll (pieces ++ pieces') (va.map .int ++ args) =
      scannedAll pieces (va.map .int) ++ scannedAll pieces' args := by
  induction pieces generalizing va with
  | nil =>
    obtain rfl := List.length_eq_zero_iff.mp hva
    rfl
  | cons piece pieces ih =>
    cases piece with
    | char c => exact ih hva
    | directive d c =>
      obtain ⟨w, va, rfl⟩ := List.exists_cons_of_length_eq_add_one hva
      exact congrArg (scanned d c w :: ·) (ih (Nat.succ_inj.mp hva))

/-- Ordinary characters, and what follows them. -/
theorem piecesText_chars (text : List (BitVec 8)) (pieces : List Piece) (args : List Arg) :
    piecesText (text.map .char ++ pieces) args = (piecesText pieces args).map (text ++ ·) := by
  induction text with
  | nil => exact (congrFun Option.map_id (piecesText pieces args)).symm
  | cons c text ih =>
    rw [List.map_cons, List.cons_append, piecesText_char, ih, Option.map_map]
    rfl

/-- Formats that are printed one after the other, with their arguments. -/
theorem piecesText_flatten (calls : List (List Piece × List (BitVec 64)))
    (h : ∀ call ∈ calls, ∀ piece ∈ call.1, piece.Readable)
    (hva : ∀ call ∈ calls, call.2.length = directives call.1) (texts : List (List (BitVec 8)))
    (htexts : List.Forall₂ (fun call text => piecesText call.1 (call.2.map .int) = some text)
      calls texts) :
    piecesText (calls.flatMap Prod.fst) ((calls.flatMap Prod.snd).map .int) =
      some texts.flatten := by
  induction htexts with
  | nil => rfl
  | @cons call text calls texts htext _ ih =>
    obtain ⟨hcall, h⟩ := List.forall_mem_cons.mp h
    obtain ⟨hlength, hva⟩ := List.forall_mem_cons.mp hva
    rw [List.flatMap_cons, List.flatMap_cons, List.map_append,
      piecesText_append hcall _ hlength, htext, Option.bind_some, ih h hva]
    rfl

/-- **A formatted text can be read back**: what `_vsnprintf` sends for a separated format and any
arguments, of which there are enough, is a text in which the reader finds the arguments, each in the
type of its directive, whatever is behind the text. -/
theorem vsnprintf_scan {σ : Type} {mem : σ → ByteMemory} {k : Sink σ} {m : ByteMemory} {R : Set ℕ}
    {I : σ → Prop} (hkeeps : Keeps mem k m R I) (hbuffer : k.buffer ≠ 0) {pieces : List Piece}
    (hsep : Separated pieces) {a : ℕ} (hfmt : StringAt m R a (pieces.flatMap Piece.bytes))
    {va : List (BitVec 64)} (hva : directives pieces ≤ va.length) :
    ∃ text, (∀ rest, scan pieces (text ++ rest) =
        some (scannedAll pieces (va.map .int), rest)) ∧
      ∃ fuel₀, ∀ fuel > fuel₀, ∀ s, I s → vsnprintf mem k fuel a va s =
        some (BitVec.ofNat 32 text.length, sendText k text s) := by
  obtain ⟨text, htext⟩ := exists_piecesText hsep.readable hva
  obtain ⟨fuel₀, hfuel₀⟩ := vsnprintf_eq hkeeps (hasText_of_piecesText hsep.readable hfmt htext)
  refine ⟨text, scan_piecesText hsep htext, fuel₀, fun fuel hfuel s hs => ?_⟩
  rw [hfuel₀ fuel hfuel s hs, if_neg hbuffer]

theorem vsnprintf_scan_mixed :
    let m := ByteMemory.storeBytes (fun _ => 0) 0 (literal "%5d: %x\n" ++ [0])
    ∃ text, (∀ rest, scan [.directive ⟨[], some (.number 5), none, .none⟩ (byteOf 'd'),
          .char (byteOf ':'), .char (byteOf ' '), .directive ⟨[], none, none, .none⟩ (byteOf 'x'),
          .char 10] (text ++ rest) = some ([-3, 0x89abcdef], rest)) ∧
      ∃ fuel₀, ∀ fuel > fuel₀, ∀ s : List (BitVec 8), True →
        vsnprintf (fun _ => m) collect fuel 0 [-3, 0x0123456789abcdef] s =
          some (BitVec.ofNat 32 text.length, sendText collect text s) := by
  intro m
  have hfmt : StringAt m Set.univ 0 (literal "%5d: %x\n") :=
    stringAt_storeBytes (by decide) fun _ _ => trivial
  have hkeeps : Keeps (fun _ : List (BitVec 8) => m) collect m Set.univ fun _ => True :=
    ⟨fun _ _ _ h => h, fun _ _ _ _ => rfl⟩
  have hsep : Separated [.directive ⟨[], some (.number 5), none, .none⟩ (byteOf 'd'),
      .char (byteOf ':'), .char (byteOf ' '), .directive ⟨[], none, none, .none⟩ (byteOf 'x'),
      .char 10] :=
    ⟨scannable_width (Or.inl rfl) (by decide) (by decide) (by decide), ⟨_, _, rfl, by decide⟩,
      by decide, by decide, scannable_plain (Or.inl rfl), ⟨_, _, rfl, by decide⟩, by decide,
      trivial⟩
  exact vsnprintf_scan hkeeps (by decide) hsep hfmt
    (show directives _ ≤ [-3, (0x0123456789abcdef : BitVec 64)].length from le_rfl)

end Vsnprintf

end FrogOS
