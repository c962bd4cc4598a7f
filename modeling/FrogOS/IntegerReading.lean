import FrogOS.IntegerText

/-!
# Reading a printed integer

A printed number is of use when its reader gets the number back. The reader here skips spaces, takes
a sign, and takes digits as long as there are any.

## Main definitions

* `Vsnprintf.argument` — the integer that an integer specifier is given
* `Vsnprintf.readInteger` — the reader

## Main results

* `Vsnprintf.formatInteger_reads` — what fits can be read back
-/

namespace FrogOS

namespace Vsnprintf

/-- The argument of an integer specifier, with the type that the length field gives it. -/
def argument (c : BitVec 8) (flags : Flags) (w : BitVec 64) : ℤ :=
  if isSigned c then
    if flags.longLong || flags.long then w.toInt
    else if flags.char then (w.setWidth 8).toInt
    else if flags.short then (w.setWidth 16).toInt
    else (w.setWidth 32).toInt
  else unsignedValue flags w

def digitValue (c : BitVec 8) : ℕ :=
  if c ≤ byteOf '9' then (c - byteOf '0').toNat
  else if c ≤ byteOf 'Z' then (c - byteOf 'A').toNat + 10
  else (c - byteOf 'a').toNat + 10

def readDigits (base : ℕ) (text : List (BitVec 8)) : ℕ :=
  Nat.ofDigits base ((text.takeWhile isNumeric).reverse.map digitValue)

/-- The reader after the spaces. -/
def readSigned (base : ℕ) : List (BitVec 8) → ℤ
  | [] => 0
  | c :: rest =>
    if c = byteOf '-' then -(readDigits base rest : ℤ)
    else if c = byteOf '+' then readDigits base rest
    else readDigits base (c :: rest)

def readInteger (base : ℕ) (text : List (BitVec 8)) : ℤ :=
  readSigned base (text.dropWhile (· = byteOf ' '))

example : readInteger 10 (literal "  -0042 ms") = -42 := by decide

variable {value base prec width : ℕ} {negative : Bool} {flags : Flags}

/-! ### The digits -/

theorem digitValue_ntoaDigit (uppercase : Bool) {d : ℕ} (hd : d < 16) :
    digitValue (ntoaDigit uppercase d) = d := by
  revert d
  cases uppercase <;> decide

/-- The digits say the value. -/
theorem ofDigits_allDigits (hbase : 1 < base) (hbase' : base ≤ 16) :
    Nat.ofDigits base ((allDigits value base flags).map digitValue) = value := by
  rw [allDigits, List.map_map]
  by_cases hvalue : value = 0 ∧ flags.precision = false
  · rw [if_pos hvalue, hvalue.1]
    cases flags.uppercase <;> rfl
  · have hdigits : (Nat.digits base value).map (digitValue ∘ ntoaDigit flags.uppercase) =
        Nat.digits base value := by
      refine (List.map_congr_left fun d hd => ?_).trans (List.map_id _)
      exact digitValue_ntoaDigit _ ((Nat.digits_lt_base hbase hd).trans_le hbase')
    rw [if_neg hvalue, hdigits, Nat.ofDigits_digits]

/-- The digits, behind zeros, are digits. -/
theorem isNumeric_number (hbase : 1 < base) (hbase' : base ≤ 16) (zeros : ℕ) :
    ∀ c ∈ List.replicate zeros (byteOf '0') ++ (allDigits value base flags).reverse,
      isNumeric c = true := by
  intro c hc
  obtain hc | hc := List.mem_append.mp hc
  · rw [List.eq_of_mem_replicate hc]
    decide
  · exact isNumeric_allDigits hbase hbase' c (List.mem_reverse.mp hc)

/-- The digits, with zeros in front of them and spaces behind them. -/
theorem readDigits_eq (hbase : 1 < base) (hbase' : base ≤ 16) (zeros back : ℕ) :
    readDigits base (List.replicate zeros (byteOf '0') ++ ((allDigits value base flags).reverse ++
      List.replicate back (byteOf ' '))) = value := by
  have hspaces : (List.replicate back (byteOf ' ')).takeWhile isNumeric = [] := by
    cases back <;> rfl
  rw [readDigits, ← List.append_assoc,
    List.takeWhile_append_of_pos (isNumeric_number hbase hbase' zeros), hspaces, List.append_nil,
    List.reverse_append, List.reverse_reverse, List.reverse_replicate, List.map_append,
    List.map_replicate, show digitValue (byteOf '0') = 0 by decide,
    Nat.ofDigits_append_replicate_zero, ofDigits_allDigits hbase hbase']

/-! ### The sign -/

theorem dropWhile_spaces (n : ℕ) (text : List (BitVec 8)) :
    (List.replicate n (byteOf ' ') ++ text).dropWhile (· = byteOf ' ') =
      text.dropWhile (· = byteOf ' ') :=
  List.dropWhile_append_of_pos fun _ hc => decide_eq_true (List.eq_of_mem_replicate hc)

/-- Without a sign. -/
theorem readSigned_digits {number : List (BitVec 8)} (hnumber : ∀ c ∈ number, isNumeric c = true)
    (back : ℕ) :
    readSigned base ((number ++ List.replicate back (byteOf ' ')).dropWhile (· = byteOf ' ')) =
      readDigits base (number ++ List.replicate back (byteOf ' ')) := by
  cases number with
  | nil =>
    have hdrop := dropWhile_spaces back []
    rw [List.append_nil] at hdrop
    rw [List.nil_append, hdrop]
    cases back <;> rfl
  | cons c number =>
    have hc := hnumber c List.mem_cons_self
    have hspace : c ≠ byteOf ' ' ∧ c ≠ byteOf '+' ∧ c ≠ byteOf '-' := by
      simpa [isNumeric, and_assoc] using hc
    rw [List.cons_append, List.dropWhile_cons_of_neg (by simpa using hspace.1), readSigned,
      if_neg hspace.2.2, if_neg hspace.2.1]

theorem readInteger_layout (hbase : 1 < base) (hbase' : base ≤ 16) (front zeros back : ℕ) :
    readInteger base (layout front (signText negative flags) zeros
      (allDigits value base flags).reverse back) = if negative then -(value : ℤ) else value := by
  have hread : readDigits base (List.replicate zeros (byteOf '0') ++
      ((allDigits value base flags).reverse ++ List.replicate back (byteOf ' '))) = value :=
    readDigits_eq hbase hbase' zeros back
  have hplain : readSigned base ((List.replicate zeros (byteOf '0') ++
      ((allDigits value base flags).reverse ++ List.replicate back (byteOf ' '))).dropWhile
        (· = byteOf ' ')) = value := by
    rw [← List.append_assoc, readSigned_digits (isNumeric_number hbase hbase' zeros),
      List.append_assoc, hread]
  rw [readInteger, layout, dropWhile_spaces, signText]
  cases negative with
  | true => exact congrArg (fun n : ℕ => -(n : ℤ)) hread
  | false =>
    rw [if_neg Bool.false_ne_true, if_neg Bool.false_ne_true]
    split
    · exact congrArg (fun n : ℕ => (n : ℤ)) hread
    split
    · exact hplain
    · exact hplain

/-! ### The arguments -/

/-- The magnitude of a signed value, as the program computes it, and its sign. -/
theorem magnitude_eq {n : ℕ} (x : BitVec n) :
    (if decide (x.toInt < 0) then -(((if x.toInt > 0 then x else 0 - x).toNat : ℕ) : ℤ)
      else (if x.toInt > 0 then x else 0 - x).toNat) = x.toInt := by
  have hx := x.isLt
  have hint := x.toInt_eq_toNat_cond
  obtain hneg | hzero | hpos := lt_trichotomy x.toInt 0
  · have htoNat : (0 - x).toNat = 2 ^ n - x.toNat := by
      rw [zero_sub, BitVec.toNat_neg, Nat.mod_eq_of_lt]
      split at hint <;> omega
    rw [if_pos (decide_eq_true hneg), if_neg hneg.not_gt, htoNat]
    split at hint <;> omega
  · have hx0 : x = 0 := BitVec.toInt_inj.mp (hzero.trans BitVec.toInt_zero.symm)
    subst hx0
    simp
  · rw [if_neg (by simpa using hpos.le), if_pos hpos]
    split at hint <;> omega

/-- What the program converts is the argument. -/
theorem integerValue_eq (c : BitVec 8) (flags : Flags) (w : BitVec 64) :
    (if (integerValue c flags w).2 then -((integerValue c flags w).1 : ℤ)
      else (integerValue c flags w).1) = argument c flags w := by
  rw [integerValue, argument]
  split
  · rw [signedValue]
    split
    · exact magnitude_eq w
    · refine (magnitude_eq _).trans ?_
      split
      · exact BitVec.toInt_signExtend_of_le (by decide)
      split
      · exact BitVec.toInt_signExtend_of_le (by decide)
      · rfl
  · rfl

theorem argument_integerFlags (c : BitVec 8) (flags : Flags) (w : BitVec 64) :
    argument c (integerFlags c flags) w = argument c flags w := by
  have hlength : (integerFlags c flags).long = flags.long ∧
      (integerFlags c flags).longLong = flags.longLong ∧
      (integerFlags c flags).char = flags.char ∧ (integerFlags c flags).short = flags.short := by
    rw [integerFlags]
    split_ifs <;> exact ⟨rfl, rfl, rfl, rfl⟩
  obtain ⟨h₁, h₂, h₃, h₄⟩ := hlength
  rw [argument, argument, unsignedValue, unsignedValue, h₁, h₂, h₃, h₄]

/-- **A printed integer can be read back**: what an integer conversion without `#` prints, if it
fits, is read as the argument. -/
theorem formatInteger_reads {c : BitVec 8} {l : Locals}
    (hno : l.flags.precision = false → l.precision = 0)
    (hhash : l.flags.hash = false ∨ baseOf c = 10) (w : BitVec 64)
    (hfits : Fits (integerValue c (integerFlags c l.flags) w).1
      (integerValue c (integerFlags c l.flags) w).2 (baseOf c) l.precision l.width
      (integerFlags c l.flags)) :
    ∃ text, (∀ {σ : Type} (k : Sink σ) (p : Cursor σ), formatInteger k c l w p = putAll k text p) ∧
      readInteger (baseOf c) text = argument c l.flags w := by
  have hplain := plain_integer hno hhash w
  have htext := (ntoaText_eq_standardText_iff hplain).mpr hfits
  refine ⟨_, fun k p => formatInteger_eq_putAll k c l w p
    (r := ⟨l.flags, l.width, l.precision, [], []⟩) rfl rfl rfl, ?_⟩
  refine (congrArg (readInteger (baseOf c)) htext).trans ?_
  rw [standardText_eq_layout hplain.zeropad hplain.precision]
  refine (readInteger_layout hplain.base_gt hplain.base_le _ _ _).trans ?_
  rw [integerValue_eq, argument_integerFlags]

theorem formatInteger_reads_short :
    ∃ text, (∀ {σ : Type} (k : Sink σ) (p : Cursor σ), formatInteger k (byteOf 'd')
        ⟨{ short := true, plus := true }, 8, 0, 0, []⟩ 65535 p = putAll k text p) ∧
      readInteger 10 text = -1 :=
  formatInteger_reads (c := byteOf 'd') (l := ⟨{ short := true, plus := true }, 8, 0, 0, []⟩)
    (fun _ => rfl) (Or.inl rfl) 65535 (by decide)

end Vsnprintf

end FrogOS
