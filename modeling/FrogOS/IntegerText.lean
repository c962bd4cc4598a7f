import FrogOS.FormatOutput
import Mathlib.Data.Nat.Digits.Lemmas

/-!
# Integers as the language standard prints them

The standard describes the text of an integer conversion by the number it shows: its digits, as many
zeros in front of them as the precision asks for, a sign, and spaces or zeros up to the width. The
program builds the text backwards in a buffer of 32 characters, and differs where the buffer is too
small, or where it takes a short cut.

Both texts have the same `layout`. They are compared by the number of digit characters in them and
by their length; only a lost sign needs a look at the characters.

## Main definitions

* `Vsnprintf.standardText` — the text the standard asks for
* `Vsnprintf.Fits` — when the program prints it, without the flag `#`

## Main results

* `Vsnprintf.formatInteger_standard_iff` — `Fits` is exact
-/

namespace FrogOS

namespace Vsnprintf

/-- The digits of a value, from the last one on. Zero has one, unless a precision is given. -/
def allDigits (value base : ℕ) (flags : Flags) : List (BitVec 8) :=
  (if value = 0 ∧ flags.precision = false then [0] else Nat.digits base value).map
    (ntoaDigit flags.uppercase)

def signText (negative : Bool) (flags : Flags) : List (BitVec 8) :=
  if negative then [byteOf '-']
  else if flags.plus then [byteOf '+']
  else if flags.space then [byteOf ' ']
  else []

/-- The text of an integer conversion without the flag `#`. -/
def standardText (value : ℕ) (negative : Bool) (base prec width : ℕ) (flags : Flags) :
    List (BitVec 8) :=
  let sign := signText negative flags
  let digits := allDigits value base flags
  let number := List.replicate (prec - digits.length) (byteOf '0') ++ digits.reverse
  let blank := width - (sign.length + number.length)
  if flags.left then sign ++ number ++ List.replicate blank (byteOf ' ')
  else if flags.zeropad && !flags.precision then
    sign ++ List.replicate blank (byteOf '0') ++ number
  else List.replicate blank (byteOf ' ') ++ sign ++ number

/-! ### The digits -/

variable {value base prec width : ℕ} {negative : Bool} {flags : Flags}

theorem ntoaDigits_eq (hbase : 1 < base) (uppercase : Bool) (room : ℕ) :
    ∀ {value : ℕ}, value ≠ 0 → ntoaDigits base uppercase room value =
      ((Nat.digits base value).take room).map (ntoaDigit uppercase) := by
  induction room with
  | zero => exact fun _ => rfl
  | succ room ih =>
    intro value hvalue
    rw [ntoaDigits, Nat.digits_def' hbase (Nat.pos_of_ne_zero hvalue), List.take_succ_cons,
      List.map_cons]
    by_cases hdiv : value / base = 0
    · rw [if_pos hdiv, hdiv, Nat.digits_zero, List.take_nil, List.map_nil]
    · rw [if_neg hdiv, ih hdiv]

theorem ntoaNumber_eq (hbase : 1 < base) :
    ntoaNumber value base flags = (allDigits value base flags).take ntoaBufferSize := by
  rw [ntoaNumber, allDigits, ← List.map_take]
  by_cases hvalue : value = 0
  · subst hvalue
    cases hp : flags.precision with
    | false => simp [ntoaDigits]
    | true => simp
  · rw [if_pos (by simp [hvalue]), if_neg fun h => hvalue h.1, ntoaDigits_eq hbase _ _ hvalue]

/-! ### The layout -/

/-- A text of spaces, a sign, zeros, digits and spaces. -/
def layout (front : ℕ) (sign : List (BitVec 8)) (zeros : ℕ) (digits : List (BitVec 8))
    (back : ℕ) : List (BitVec 8) :=
  List.replicate front (byteOf ' ') ++ (sign ++ (List.replicate zeros (byteOf '0') ++
    (digits ++ List.replicate back (byteOf ' '))))

theorem layout_length (front : ℕ) (sign : List (BitVec 8)) (zeros : ℕ)
    (digits : List (BitVec 8)) (back : ℕ) : (layout front sign zeros digits back).length =
      front + sign.length + zeros + digits.length + back := by
  simp only [layout, List.length_append, List.length_replicate]
  omega

/-- The characters of a number. -/
def isNumeric (c : BitVec 8) : Bool := c ≠ byteOf ' ' && c ≠ byteOf '+' && c ≠ byteOf '-'

theorem isNumeric_ntoaDigit (uppercase : Bool) {d : ℕ} (hd : d < 16) :
    isNumeric (ntoaDigit uppercase d) = true := by
  revert d
  cases uppercase <;> decide

theorem isNumeric_allDigits (hbase : 1 < base) (hbase' : base ≤ 16) :
    ∀ c ∈ allDigits value base flags, isNumeric c = true := by
  intro c hc
  obtain ⟨d, hd, rfl⟩ := List.mem_map.mp hc
  refine isNumeric_ntoaDigit _ ?_
  split at hd
  · rw [List.mem_singleton.mp hd]
    decide
  · exact (Nat.digits_lt_base hbase hd).trans_le hbase'

theorem countP_signText : (signText negative flags).countP isNumeric = 0 := by
  rw [signText]
  split_ifs <;> decide

theorem layout_countP (front : ℕ) {sign : List (BitVec 8)} (hsign : sign.countP isNumeric = 0)
    (zeros : ℕ) {digits : List (BitVec 8)} (hdigits : ∀ c ∈ digits, isNumeric c = true)
    (back : ℕ) :
    (layout front sign zeros digits back).countP isNumeric = zeros + digits.length := by
  have hspace : isNumeric (byteOf ' ') = false := by decide
  have hzero : isNumeric (byteOf '0') = true := by decide
  simp only [layout, List.countP_append, List.countP_replicate, hspace, hzero, hsign,
    List.countP_eq_length.mpr hdigits, if_true, Bool.false_eq_true, if_false]
  omega

/-! ### The program's text -/

theorem pushSign_eq (buf : List (BitVec 8)) : pushSign buf negative flags =
    buf ++ if buf.length < ntoaBufferSize then signText negative flags else [] := by
  rw [pushSign, signText]
  split_ifs <;> simp [push, *]

theorem signText_reverse : (signText negative flags).reverse = signText negative flags := by
  rw [signText]
  split_ifs <;> rfl

theorem signText_length_le : (signText negative flags).length ≤ 1 := by
  rw [signText]
  split_ifs <;> decide

/-- The zeros in front of the digits. -/
def zeroCount (n prec width : ℕ) (flags : Flags) : ℕ :=
  if flags.left then 0
  else if flags.zeropad then max (min prec ntoaBufferSize) (min width ntoaBufferSize) - n
  else min prec ntoaBufferSize - n

theorem zeroFill_eq (buf : List (BitVec 8)) : zeroFill buf prec width flags =
    buf ++ List.replicate (zeroCount buf.length prec width flags) (byteOf '0') := by
  rw [zeroFill, zeroCount]
  cases flags.left with
  | true => simp
  | false =>
    cases flags.zeropad with
    | false => rfl
    | true =>
      simp only [Bool.not_false, if_true, Bool.false_eq_true, if_false, padZeros,
        List.append_assoc, List.replicate_append_replicate, List.length_append,
        List.length_replicate]
      congr 2
      omega

/-- The sign, if there is room for it. -/
def signWithin (n : ℕ) (negative : Bool) (flags : Flags) : List (BitVec 8) :=
  if n < ntoaBufferSize then signText negative flags else []

theorem signWithin_reverse (n : ℕ) :
    (signWithin n negative flags).reverse = signWithin n negative flags := by
  rw [signWithin]
  split
  · exact signText_reverse
  · rfl

/-- The text of the program, without the flag `#`. -/
theorem ntoaText_eq_layout (hbase : 1 < base) (hhash : flags.hash = false) :
    ntoaText value negative base prec width flags =
      let w := ntoaWidth negative width flags
      let digits := (allDigits value base flags).take ntoaBufferSize
      let zeros := zeroCount digits.length prec w flags
      let sign := signWithin (zeros + digits.length) negative flags
      let blank := w - (sign.length + zeros + digits.length)
      layout (if !flags.left && !flags.zeropad then blank else 0) sign zeros digits.reverse
        (if flags.left then blank else 0) := by
  have hflags : (if value = 0 then { flags with hash := false } else flags) = flags := by
    rw [← hhash, ite_self]
  rw [ntoaText, hflags, ntoaBuffer]
  dsimp only
  rw [hhash, ntoaNumber_eq hbase, if_neg Bool.false_ne_true, pushSign_eq, zeroFill_eq, revText]
  generalize (allDigits value base flags).take ntoaBufferSize = digits
  generalize zeroCount digits.length prec (ntoaWidth negative width flags) flags = zeros
  have hlen : (digits ++ List.replicate zeros (byteOf '0')).length = zeros + digits.length := by
    rw [List.length_append, List.length_replicate, add_comm]
  rw [hlen, ← signWithin, List.length_append, hlen, List.reverse_append, signWithin_reverse,
    List.reverse_append, List.reverse_replicate, add_comm (zeros + digits.length), ← add_assoc]
  cases flags.left <;> cases flags.zeropad <;> simp [layout]

/-! ### The standard's text -/

theorem standardText_eq_layout (hzp : flags.zeropad = true → flags.precision = false)
    (hno : flags.precision = false → prec = 0) :
    standardText value negative base prec width flags =
      let digits := allDigits value base flags
      let sign := signText negative flags
      let zeros := prec - digits.length
      let blank := width - (sign.length + zeros + digits.length)
      layout (if !flags.left && !flags.zeropad then blank else 0) sign
        (if !flags.left && flags.zeropad then blank else zeros) digits.reverse
        (if flags.left then blank else 0) := by
  rw [standardText]
  dsimp only
  generalize allDigits value base flags = digits
  have hlen : (List.replicate (prec - digits.length) (byteOf '0') ++ digits.reverse).length =
      prec - digits.length + digits.length := by
    rw [List.length_append, List.length_replicate, List.length_reverse]
  rw [hlen, ← add_assoc]
  cases hleft : flags.left <;> cases hzeropad : flags.zeropad
  · simp [layout]
  · -- there is no precision here, so no other zeros
    simp [layout, hzp hzeropad, hno (hzp hzeropad)]
  · simp [layout]
  · simp [layout]

/-! ### The comparison -/

/-- When the program prints what the standard asks for, without the flag `#`: the number fits the
buffer; on the left margin the precision adds no zeros; zeros do not go beyond the 32 characters of
the buffer, and neither does a sign in front of them, unless it is a space in front of which there
are spaces. -/
def Fits (value : ℕ) (negative : Bool) (base prec width : ℕ) (flags : Flags) : Prop :=
  let n := (allDigits value base flags).length
  let sign := signText negative flags
  n ≤ ntoaBufferSize ∧
    if flags.left then prec ≤ n
    else if flags.zeropad then width ≤ ntoaBufferSize
    else prec ≤ ntoaBufferSize ∧
      (prec = ntoaBufferSize → sign = [] ∨ sign = [byteOf ' '] ∧ ntoaBufferSize < width)

theorem ntoaWidth_eq : ntoaWidth negative width flags =
    if flags.left = false ∧ flags.zeropad = true then width - (signText negative flags).length
    else width := by
  rw [ntoaWidth, signText]
  cases flags.left <;> cases flags.zeropad <;> cases negative <;> cases flags.plus <;>
    cases flags.space <;> by_cases hw : width = 0 <;> simp [hw]

/-- A sign that may be lost. -/
theorem countP_lost {sign : List (BitVec 8)} (h : sign.countP isNumeric = 0) {p : Prop}
    [Decidable p] : (if p then sign else []).countP isNumeric = 0 := by
  split
  · exact h
  · rfl

/-- Two layouts of the same digits have as many zeros, and are as long. -/
theorem layout_eq {front front' zeros zeros' back back' : ℕ} {sign sign' d d' : List (BitVec 8)}
    (h : layout front sign zeros d back = layout front' sign' zeros' d' back')
    (hsign : sign.countP isNumeric = 0) (hsign' : sign'.countP isNumeric = 0)
    (hd : ∀ c ∈ d, isNumeric c = true) (hd' : ∀ c ∈ d', isNumeric c = true) :
    zeros + d.length = zeros' + d'.length ∧
      front + sign.length + back = front' + sign'.length + back' := by
  have hcount := congrArg (List.countP isNumeric) h
  have hlength := congrArg List.length h
  rw [layout_countP _ hsign _ hd, layout_countP _ hsign' _ hd'] at hcount
  rw [layout_length, layout_length] at hlength
  exact ⟨hcount, by omega⟩

theorem zeroCount_add_le (n : ℕ) : zeroCount n prec width flags + n ≤ max n ntoaBufferSize := by
  rw [zeroCount]
  split_ifs <;> omega

section Comparison

variable {d sign : List (BitVec 8)} (hd : ∀ c ∈ d, isNumeric c = true)
  (hsign : sign.countP isNumeric = 0) (hlen : sign.length ≤ 1) (hn : d.length ≤ ntoaBufferSize)
  (hroom : sign ≠ [] → d.length < ntoaBufferSize)

/-- The sign is there when the zeros leave room for it. -/
theorem sign_of_room {zeros : ℕ} (h : sign ≠ [] → zeros + d.length < ntoaBufferSize) :
    (if zeros + d.length < ntoaBufferSize then sign else []) = sign := by
  by_cases hs : sign = []
  · rw [hs, ite_self]
  · rw [if_pos (h hs)]

/-- A space in the place of the sign. -/
theorem layout_space_iff {f zeros back : ℕ} :
    layout (f + 1) [] zeros d back = layout f sign zeros d back ↔ sign = [byteOf ' '] := by
  rw [layout, layout, List.replicate_succ', List.append_assoc, List.nil_append,
    List.append_cancel_left_eq, List.append_cancel_right_eq, eq_comm]

include hd hsign

/-- What equal texts say about the numbers of their parts, when the sign is all there or lost. -/
theorem layout_parts {front zeros back front' zeros' back' : ℕ} {p : Prop} [Decidable p]
    (h : layout front (if p then sign else []) zeros d back =
      layout front' sign zeros' d back') :
    zeros = zeros' ∧
      front + (if p then sign else []).length + back = front' + sign.length + back' := by
  have h' := layout_eq h (countP_lost hsign) hsign hd hd
  exact ⟨by omega, h'.2⟩

include hroom

/-- On the left margin. -/
theorem layout_left_iff :
    layout 0 (if 0 + d.length < ntoaBufferSize then sign else []) 0 d
        (width - ((if 0 + d.length < ntoaBufferSize then sign else []).length + 0 + d.length)) =
      layout 0 sign (prec - d.length) d
        (width - (sign.length + (prec - d.length) + d.length)) ↔ prec ≤ d.length := by
  constructor
  · intro h
    obtain ⟨hz, -⟩ := layout_parts hd hsign h
    omega
  · intro hprec
    rw [sign_of_room fun hs => (Nat.zero_add _).trans_lt (hroom hs),
      Nat.sub_eq_zero_of_le hprec]

include hlen hn

/-- With zeros up to the width. -/
theorem layout_zeros_iff :
    let zeros := min (width - sign.length) ntoaBufferSize - d.length
    layout 0 (if zeros + d.length < ntoaBufferSize then sign else []) zeros d 0 =
      layout 0 sign (width - (sign.length + d.length)) d 0 ↔ width ≤ ntoaBufferSize := by
  intro zeros
  constructor
  · intro h
    obtain ⟨hz, hl⟩ := layout_parts hd hsign h
    split at hl
    · omega
    · rw [List.length_nil] at hl
      omega
  · intro hwidth
    have hs : sign ≠ [] → zeros + d.length < ntoaBufferSize := fun hs => by
      have hpos := List.length_pos_of_ne_nil hs
      have hdig := hroom hs
      omega
    rw [sign_of_room hs]
    congr 1
    omega

/-- With spaces in front. -/
theorem layout_blanks_iff :
    let zeros := min prec ntoaBufferSize - d.length
    let sign' := if zeros + d.length < ntoaBufferSize then sign else []
    layout (width - (sign'.length + zeros + d.length)) sign' zeros d 0 =
        layout (width - (sign.length + (prec - d.length) + d.length)) sign (prec - d.length) d 0 ↔
      prec ≤ ntoaBufferSize ∧
        (prec = ntoaBufferSize → sign = [] ∨ sign = [byteOf ' '] ∧ ntoaBufferSize < width) := by
  intro zeros sign'
  by_cases hs : sign = [] ∨ zeros + d.length < ntoaBufferSize
  · have hsign' : sign' = sign := sign_of_room fun hne => hs.resolve_left hne
    rw [hsign']
    constructor
    · intro h
      obtain ⟨hz, -⟩ := layout_parts hd hsign (p := True) h
      refine ⟨by omega, fun hprec => Or.inl (hs.resolve_right ?_)⟩
      omega
    · rintro ⟨hprec, -⟩
      rw [show zeros = prec - d.length by omega]
  · -- the buffer is full of digits, and the sign is lost
    obtain ⟨hne, hfull⟩ := not_or.mp hs
    have hdig := hroom hne
    have hone : sign.length = 1 := le_antisymm hlen (List.length_pos_of_ne_nil hne)
    have hsign' : sign' = [] := if_neg hfull
    rw [hsign', List.length_nil, hone]
    constructor
    · intro h
      obtain ⟨hz, hl⟩ := layout_parts hd hsign (p := False) h
      rw [if_neg not_false, List.length_nil, hone] at hl
      refine ⟨by omega, fun hprec => Or.inr ⟨?_, by omega⟩⟩
      rw [← hz, show width - (0 + zeros + d.length) = width - (1 + zeros + d.length) + 1 by omega]
        at h
      exact layout_space_iff.mp h
    · rintro ⟨hprec, hspace⟩
      obtain hnil | ⟨hspace, hwidth⟩ := hspace (by omega)
      · exact absurd hnil hne
      · rw [show prec - d.length = zeros by omega,
          show width - (0 + zeros + d.length) = width - (1 + zeros + d.length) + 1 by omega]
        exact layout_space_iff.mpr hspace

end Comparison

instance : Decidable (Fits value negative base prec width flags) :=
  inferInstanceAs (Decidable (_ ∧ ite _ _ (ite _ _ _)))

/-! ### The integer specifiers -/

theorem baseOf_cases (c : BitVec 8) :
    baseOf c = 2 ∨ baseOf c = 8 ∨ baseOf c = 10 ∨ baseOf c = 16 := by
  rw [baseOf]
  split_ifs <;> simp

theorem baseOf_of_isSigned {c : BitVec 8} (hc : isSigned c = true) : baseOf c = 10 := by
  rw [isSigned, Bool.or_eq_true, decide_eq_true_eq, decide_eq_true_eq] at hc
  obtain rfl | rfl := hc <;> rfl

section IntegerFlags

variable (c : BitVec 8) (flags : Flags)

theorem integerFlags_precision : (integerFlags c flags).precision = flags.precision := by
  rw [integerFlags]
  split_ifs <;> rfl

theorem integerFlags_zeropad :
    (integerFlags c flags).zeropad = (!flags.precision && flags.zeropad) := by
  rw [← integerFlags_precision c, integerFlags]
  split_ifs <;> simp_all

theorem integerFlags_hash :
    (integerFlags c flags).hash = (baseOf c ≠ 10 && flags.hash) := by
  rw [integerFlags]
  split_ifs <;> simp_all

theorem integerFlags_plus : (integerFlags c flags).plus = (isSigned c && flags.plus) := by
  rw [integerFlags]
  cases isSigned c <;> split_ifs <;> first | rfl | simp_all

theorem integerFlags_space : (integerFlags c flags).space = (isSigned c && flags.space) := by
  rw [integerFlags]
  cases isSigned c <;> split_ifs <;> first | rfl | simp_all

end IntegerFlags

/-- Only the signed specifiers print a sign. -/
theorem isSigned_of_signText {c : BitVec 8} {w : BitVec 64}
    (h : signText (integerValue c (integerFlags c flags) w).2 (integerFlags c flags) ≠ []) :
    isSigned c = true := by
  by_contra hc
  rw [Bool.not_eq_true] at hc
  rw [signText, integerFlags_plus, integerFlags_space, integerValue, hc] at h
  exact h rfl

theorem signedValue_lt (flags : Flags) (w : BitVec 64) : (signedValue flags w).1 < 2 ^ 64 := by
  rw [signedValue]
  split
  · exact BitVec.isLt _
  · exact (BitVec.isLt _).trans (by decide)

theorem allDigits_length_le {k : ℕ} (hbase : 1 < base) (hk : k ≠ 0) (h : value < base ^ k) :
    (allDigits value base flags).length ≤ k := by
  rw [allDigits, List.length_map]
  split
  · exact Nat.one_le_iff_ne_zero.mpr hk
  · exact (Nat.digits_length_le_iff hbase value).mpr h

/-- What the specifiers see to before they call `_ntoa_long`. -/
structure Plain (value : ℕ) (negative : Bool) (base prec : ℕ) (flags : Flags) : Prop where
  base_gt : 1 < base
  base_le : base ≤ 16
  hash : flags.hash = false
  zeropad : flags.zeropad = true → flags.precision = false
  precision : flags.precision = false → prec = 0
  room : signText negative flags ≠ [] → (allDigits value base flags).length < ntoaBufferSize

/-- Without the flag `#`, `_ntoa_long` prints what the language standard asks for exactly when it
fits. -/
theorem ntoaText_eq_standardText_iff (h : Plain value negative base prec flags) :
    ntoaText value negative base prec width flags =
        standardText value negative base prec width flags ↔
      Fits value negative base prec width flags := by
  obtain ⟨hbase, hbase', hhash, hzp, hno, hroom⟩ := h
  have hsign : (signText negative flags).countP isNumeric = 0 := countP_signText
  have hlen : (signText negative flags).length ≤ 1 := signText_length_le
  have hdigits : ∀ c ∈ allDigits value base flags, isNumeric c = true :=
    isNumeric_allDigits hbase hbase'
  rw [ntoaText_eq_layout hbase hhash, standardText_eq_layout hzp hno, Fits, ntoaWidth_eq]
  dsimp only [signWithin]
  generalize signText negative flags = sign at *
  generalize allDigits value base flags = digits at *
  have hd : ∀ c ∈ digits.reverse, isNumeric c = true := fun c hc =>
    hdigits c (List.mem_reverse.mp hc)
  have hrev : digits.reverse.length = digits.length := List.length_reverse
  by_cases hn : digits.length ≤ ntoaBufferSize
  · rw [List.take_of_length_le hn]
    rw [← hrev] at hn hroom ⊢
    simp only [hn, true_and]
    cases hleft : flags.left with
    | true => simpa [zeroCount, hleft] using layout_left_iff hd hsign hroom
    | false =>
      cases hzeropad : flags.zeropad with
      | true =>
        have hprec := hno (hzp hzeropad)
        simpa [zeroCount, hleft, hzeropad, hprec] using layout_zeros_iff hd hsign hlen hn hroom
      | false => simpa [zeroCount, hleft, hzeropad] using layout_blanks_iff hd hsign hlen hn hroom
  · -- no text of the program has more digits than the buffer
    refine iff_of_false (fun h => ?_) fun h => hn h.1
    have htake : (digits.take ntoaBufferSize).length = ntoaBufferSize := by
      rw [List.length_take]
      omega
    obtain ⟨hz, -⟩ := layout_eq h (countP_lost hsign) hsign
      (fun c hc => hdigits c (List.mem_of_mem_take (List.mem_reverse.mp hc))) hd
    rw [List.length_reverse, htake, hrev] at hz
    exact hn ((Nat.le_add_left _ _).trans
      (hz.symm.trans_le ((zeroCount_add_le _).trans_eq (max_self _))))

theorem plain_integer {c : BitVec 8} {prec : ℕ} (hno : flags.precision = false → prec = 0)
    (hhash : flags.hash = false ∨ baseOf c = 10) (w : BitVec 64) :
    Plain (integerValue c (integerFlags c flags) w).1 (integerValue c (integerFlags c flags) w).2
      (baseOf c) prec (integerFlags c flags) where
  base_gt := by
    obtain h | h | h | h := baseOf_cases c <;> omega
  base_le := by
    obtain h | h | h | h := baseOf_cases c <;> omega
  hash := by
    rw [integerFlags_hash]
    obtain h | h := hhash <;> simp [h]
  zeropad := by
    rw [integerFlags_zeropad, integerFlags_precision]
    cases flags.precision <;> simp
  precision := by rwa [integerFlags_precision]
  room hsign := by
    have hc := isSigned_of_signText hsign
    rw [baseOf_of_isSigned hc, integerValue, if_pos hc]
    refine (allDigits_length_le (k := 20) (by decide) (by decide) ?_).trans_lt (by decide)
    exact (signedValue_lt _ w).trans (by decide)

/-- An output function that collects the characters. -/
def collect : Sink (List (BitVec 8)) := ⟨fun c _ _ _ s => s ++ [c], 1, 0⟩

theorem putAll_collect (cs : List (BitVec 8)) (p : Cursor (List (BitVec 8))) :
    (putAll collect cs p).state = p.state ++ cs := by
  induction cs generalizing p with
  | nil => exact (List.append_nil _).symm
  | cons c cs ih => exact (ih _).trans (List.append_assoc _ _ _)

/-- A function that prints a text prints no other one. -/
theorem prints_iff {f : ∀ {σ : Type}, Sink σ → Cursor σ → Cursor σ} {text text' : List (BitVec 8)}
    (hf : ∀ {σ : Type} (k : Sink σ) (p : Cursor σ), f k p = putAll k text p) :
    (∀ {σ : Type} (k : Sink σ) (p : Cursor σ), f k p = putAll k text' p) ↔ text = text' := by
  refine ⟨fun h => ?_, fun h σ k p => by rw [hf, h]⟩
  have heq := congrArg Cursor.state ((hf collect ⟨0, []⟩).symm.trans (h collect ⟨0, []⟩))
  rwa [putAll_collect, putAll_collect] at heq

/-- **The integer conversions and the standard**: without `#`, and with any other flags, width,
precision, length and argument, `%d`, `%i`, `%u`, `%x`, `%X`, `%o` and `%b` print what the language
standard asks for exactly when it fits. -/
theorem formatInteger_standard_iff {c : BitVec 8} {l : Locals}
    (hno : l.flags.precision = false → l.precision = 0)
    (hhash : l.flags.hash = false ∨ baseOf c = 10) (w : BitVec 64) :
    let flags := integerFlags c l.flags
    let v := integerValue c flags w
    (∀ {σ : Type} (k : Sink σ) (p : Cursor σ), formatInteger k c l w p =
        putAll k (standardText v.1 v.2 (baseOf c) l.precision l.width flags) p) ↔
      Fits v.1 v.2 (baseOf c) l.precision l.width flags := by
  intro flags v
  refine Iff.trans (prints_iff fun k p => ?_) (ntoaText_eq_standardText_iff
    (plain_integer hno hhash w))
  exact formatInteger_eq_putAll k c l w p (r := ⟨l.flags, l.width, l.precision, [], []⟩) rfl rfl rfl

/-- Zeros up to a width of 32 are as they should be, and one more loses the sign. -/
theorem formatInteger_standard_iff_zeros :
    (∀ {σ : Type} (k : Sink σ) (p : Cursor σ),
      formatInteger k (byteOf 'd') ⟨{ zeropad := true }, 32, 0, 0, []⟩ (-42) p =
        putAll k (standardText 42 true 10 0 32 { zeropad := true }) p) ∧
    ¬ ∀ {σ : Type} (k : Sink σ) (p : Cursor σ),
      formatInteger k (byteOf 'd') ⟨{ zeropad := true }, 33, 0, 0, []⟩ (-42) p =
        putAll k (standardText 42 true 10 0 33 { zeropad := true }) p :=
  ⟨(formatInteger_standard_iff (l := ⟨{ zeropad := true }, 32, 0, 0, []⟩) (fun _ => rfl)
      (Or.inl rfl) (-42)).mpr (by decide),
    mt (formatInteger_standard_iff (l := ⟨{ zeropad := true }, 33, 0, 0, []⟩) (fun _ => rfl)
      (Or.inl rfl) (-42)).mp (by decide)⟩

end Vsnprintf

end FrogOS
