import FrogOS.FormatText
import Mathlib.Data.List.Forall2

/-!
# The formatter sends the text of its format

The program differs from `formatText` in three ways. It reads the format and the strings from a
memory that it writes at the same time; it calls `out` with an index that counts in 64 bits; and it
does not know where its format ends. None of this matters as long as `out` leaves the bytes of the
format and of the strings alone: then it receives the text.

A reading of the format in memory and one of the format as a list go together, part by part, as long
as the list has not come to its end (`Matches`).

## Main definitions

* `Vsnprintf.StringAt`, `Vsnprintf.ArgAt` — strings and arguments in memory, with their addresses
* `Vsnprintf.Keeps` — the output function leaves these addresses alone
* `HasText` — a call of `printf` that is as it should be

## Main results

* `Vsnprintf.loop_eq_putAll` — the main loop sends the text to `out`
* `Vsnprintf.loop_exists` — every run is a sequence of calls with consecutive indices
* `vsnprintf_eq` — the whole of `_vsnprintf`
-/

namespace FrogOS

open ByteMemory

namespace Vsnprintf

/-! ### Output -/

section Output

variable {σ : Type} (k : Sink σ)

theorem putAll_append (cs ds : List (BitVec 8)) (p : Cursor σ) :
    putAll k (cs ++ ds) p = putAll k ds (putAll k cs p) := by
  induction cs generalizing p with
  | nil => rfl
  | cons c cs ih => exact ih (put k c p)

theorem putN_eq_putAll (c : BitVec 8) (n : ℕ) (p : Cursor σ) :
    putN k c n p = putAll k (List.replicate n c) p := by
  induction n generalizing p with
  | zero => rfl
  | succ n ih => exact ih (put k c p)

theorem putAll_idx (cs : List (BitVec 8)) (p : Cursor σ) :
    (putAll k cs p).idx = p.idx + BitVec.ofNat 64 cs.length := by
  induction cs generalizing p with
  | nil => simp [putAll]
  | cons c cs ih =>
    rw [putAll, ih, put, List.length_cons, BitVec.ofNat_add, add_assoc, add_comm 1]
    rfl

/-- The spaces in front of a text. -/
theorem ite_putN (b : Bool) (n : ℕ) (p : Cursor σ) :
    (if b then putN k (byteOf ' ') n p else p) =
      putAll k (if b then List.replicate n (byteOf ' ') else []) p := by
  cases b
  · rfl
  · exact putN_eq_putAll k _ n p

theorem outRev_eq_putAll {buf : List (BitVec 8)} (hbuf : buf.length < 2 ^ 64) (width : ℕ)
    (flags : Flags) (p : Cursor σ) :
    outRev k p buf width flags = putAll k (revText buf width flags) p := by
  rw [revText, putAll_append, putAll_append, outRev]
  cases hleft : flags.left
  · simp only [ite_putN, Bool.not_false, Bool.true_and, Bool.false_eq_true, if_false]
    rfl
  · -- with `FLAGS_LEFT` nothing stands in front, so `idx - start_idx` is the length
    have hidx : ((putAll k buf.reverse p).idx - p.idx).toNat = buf.length := by
      rw [putAll_idx, add_sub_cancel_left, BitVec.toNat_ofNat, List.length_reverse,
        Nat.mod_eq_of_lt hbuf]
    simp only [Bool.not_true, Bool.false_and, Bool.false_eq_true, if_false, if_true, hidx,
      putN_eq_putAll]
    rfl

end Output

section Output

variable {σ : Type} (k : Sink σ)

theorem ntoaLong_eq_putAll (value : ℕ) (negative : Bool) (base prec width : ℕ) (flags : Flags)
    (p : Cursor σ) :
    ntoaLong k p value negative base prec width flags =
      putAll k (ntoaText value negative base prec width flags) p := by
  refine outRev_eq_putAll k (lt_of_le_of_lt (ntoaBuffer_length_le ?_ _ _ _ _ _) ?_) _ _ p
  · exact ntoaNumber_length_le _ _ _
  · decide

theorem formatInteger_eq_putAll (c : BitVec 8) (l : Locals) (w : BitVec 64) (p : Cursor σ)
    {r : Reading} (hflags : l.flags = r.flags) (hwidth : l.width = r.width)
    (hprecision : l.precision = r.precision) :
    formatInteger k c l w p = putAll k (integerText c r w) p := by
  rw [formatInteger, ntoaLongLong, ntoaLong_eq_putAll, ite_self, hflags, hwidth, hprecision]
  rfl

theorem formatPointer_eq_putAll (l : Locals) (w : BitVec 64) (p : Cursor σ)
    {r : Reading} (hflags : l.flags = r.flags) (hprecision : l.precision = r.precision) :
    formatPointer k l w p = putAll k (pointerText r w) p := by
  rw [formatPointer, ntoaLongLong, ntoaLong_eq_putAll, hflags, hprecision]
  rfl

/-- A text between its spaces, as the cases `c` and `s` print it. -/
theorem putAll_padText (flags : Flags) (width : ℕ) (text : List (BitVec 8)) (p : Cursor σ) :
    putAll k (padText flags width text) p =
      let p := if !flags.left then putN k (byteOf ' ') (width - text.length) p else p
      let p := putAll k text p
      if flags.left then putN k (byteOf ' ') (width - text.length) p else p := by
  cases hleft : flags.left <;> simp [padText, hleft, putAll_append, putN_eq_putAll]

theorem formatChar_eq_putAll (l : Locals) (w : BitVec 64) (p : Cursor σ) :
    formatChar k l w p = putAll k (padText l.flags l.width [w.setWidth 8]) p :=
  (putAll_padText k l.flags l.width [w.setWidth 8] p).symm

end Output

/-! ### Strings in memory -/

/-- The string `s` stands at the address `a`, and the addresses it takes belong to `R`. -/
def StringAt (m : ByteMemory) (R : Set ℕ) : ℕ → List (BitVec 8) → Prop
  | a, [] => a ∈ R ∧ m a = 0
  | a, c :: cs => a ∈ R ∧ m a = c ∧ c ≠ 0 ∧ StringAt m R (a + 1) cs

/-- A slot of the `va_list` holds an argument. -/
def ArgAt (m : ByteMemory) (R : Set ℕ) (w : BitVec 64) : Arg → Prop
  | .int w' => w = w'
  | .str s => StringAt m R w.toNat s ∧ s.length < 2 ^ 32

variable {m m' : ByteMemory} {R : Set ℕ}

theorem StringAt.congr (h : ∀ a ∈ R, m' a = m a) :
    ∀ {s : List (BitVec 8)} {a : ℕ}, StringAt m R a s → StringAt m' R a s
  | [], _, ⟨ha, hm⟩ => ⟨ha, (h _ ha).trans hm⟩
  | _ :: _, _, ⟨ha, hm, hc, hs⟩ => ⟨ha, (h _ ha).trans hm, hc, hs.congr h⟩

theorem ArgAt.congr (h : ∀ a ∈ R, m' a = m a) {w : BitVec 64} :
    ∀ {x : Arg}, ArgAt m R w x → ArgAt m' R w x
  | .int _, hx => hx
  | .str _, hx => ⟨hx.1.congr h, hx.2⟩

/-- Whether a character comes next can be seen in memory, where the string ends with a zero. -/
theorem StringAt.head {s : List (BitVec 8)} {a : ℕ} (h : StringAt m R a s) {x : BitVec 8}
    (hx : x ≠ 0) : m a = x ↔ s.head? = some x := by
  cases s with
  | nil => exact ⟨fun he => absurd (he.symm.trans h.2) hx, fun he => nomatch he⟩
  | cons c s => rw [h.2.1, List.head?_cons, Option.some_inj]

theorem StringAt.tail {s : List (BitVec 8)} {a : ℕ} (h : StringAt m R a s) {x : BitVec 8}
    (hx : s.head? = some x) : StringAt m R (a + 1) s.tail := by
  cases s with
  | nil => cases hx
  | cons c s => exact h.2.2.2

/-- A string that has been written. -/
theorem stringAt_storeBytes {s : List (BitVec 8)} {m : ByteMemory} {a : ℕ} {R : Set ℕ}
    (hs : ∀ c ∈ s, c ≠ 0) (hR : ∀ i ≤ s.length, a + i ∈ R) :
    StringAt (storeBytes m a (s ++ [0])) R a s := by
  induction s generalizing m a with
  | nil => exact ⟨hR 0 le_rfl, Function.update_self _ _ _⟩
  | cons c s ih =>
    refine ⟨hR 0 (Nat.zero_le _), ?_, hs c List.mem_cons_self, ih ?_ fun i hi => ?_⟩
    · rw [List.cons_append, storeBytes, storeBytes_of_outside (by omega), Function.update_self]
    · exact fun x hx => hs x (List.mem_cons_of_mem c hx)
    · rw [add_assoc, add_comm 1]
      exact hR (i + 1) (Nat.succ_le_succ hi)

theorem strnlen_eq : ∀ {s : List (BitVec 8)} {a n : ℕ}, StringAt m R a s →
    strnlen m n a = min n s.length
  | _, _, 0, _ => (Nat.zero_min _).symm
  | [], _, n + 1, ⟨_, hm⟩ => by rw [strnlen, if_pos hm, List.length_nil, Nat.min_zero]
  | c :: s, a, n + 1, ⟨_, hm, hc, hs⟩ => by
    rw [strnlen, if_neg (hm ▸ hc), strnlen_eq hs, List.length_cons]
    omega

/-! ### Reading a directive -/

/-- The local variables of the program and a reading of the format agree. -/
structure Matches (m : ByteMemory) (R : Set ℕ) (l : Locals) (r : Reading) : Prop where
  flags : l.flags = r.flags
  width : l.width = r.width
  precision : l.precision = r.precision
  format : StringAt m R l.format r.format
  args : List.Forall₂ (ArgAt m R) l.va r.args
  noPrecision : r.flags.precision = false → r.precision = 0

theorem Matches.congr (h : ∀ a ∈ R, m' a = m a) {l : Locals} {r : Reading}
    (hl : Matches m R l r) : Matches m' R l r :=
  { hl with
    format := hl.format.congr h
    args := hl.args.imp fun _ _ => ArgAt.congr h }

theorem flagOf_zero (flags : Flags) : flagOf 0 flags = none := rfl

theorem evalFlags_eq {fmt : List (BitVec 8)} {fuel : ℕ} {l : Locals}
    (h : StringAt m R l.format fmt) (hfuel : fmt.length < fuel) : ∃ format',
      evalFlags m fuel l =
        some { l with flags := (readFlags fmt l.flags).1, format := format' } ∧
      StringAt m R format' (readFlags fmt l.flags).2 := by
  induction fmt generalizing fuel l with
  | nil =>
    obtain ⟨fuel, rfl⟩ := Nat.exists_eq_succ_of_ne_zero hfuel.ne_bot
    refine ⟨l.format, ?_, h⟩
    rw [evalFlags, h.2, flagOf_zero]
    rfl
  | cons c fmt ih =>
    obtain ⟨fuel, rfl⟩ := Nat.exists_eq_succ_of_ne_zero (Nat.ne_of_gt (Nat.zero_lt_of_lt hfuel))
    obtain ⟨ha, hm, hc, hs⟩ := h
    rw [evalFlags, readFlags, hm]
    cases flagOf c l.flags with
    | none => exact ⟨l.format, rfl, ha, hm, hc, hs⟩
    | some flags =>
      exact ih (l := { l with flags := flags, format := l.format + 1 }) hs
        (Nat.lt_of_succ_lt_succ hfuel)

theorem atoi_eq : ∀ {fmt : List (BitVec 8)} {fuel a i : ℕ}, StringAt m R a fmt →
    fmt.length < fuel → ∃ a', atoi m fuel a i = some ((readNumber fmt i).1, a') ∧
      StringAt m R a' (readNumber fmt i).2
  | [], fuel + 1, a, i, h, _ => by
    refine ⟨a, ?_, h⟩
    rw [atoi, h.2]
    rfl
  | c :: fmt, fuel + 1, a, i, h, hfuel => by
    obtain ⟨ha, hm, hc, hs⟩ := h
    rw [atoi, readNumber, hm]
    cases isDigit c with
    | false => exact ⟨a, rfl, ha, hm, hc, hs⟩
    | true => exact atoi_eq hs (Nat.lt_of_succ_lt_succ hfuel)

theorem Matches.int {l : Locals} {r : Reading} (h : Matches m R l r) {w : BitVec 64}
    {args : List Arg} (hr : r.args = .int w :: args) :
    ∃ va, l.va = w :: va ∧ List.Forall₂ (ArgAt m R) va args := by
  obtain ⟨w', va, hw, hva, hl⟩ := List.forall₂_cons_right_iff.mp (hr ▸ h.args)
  exact ⟨va, hl.trans (congrArg (· :: va) hw), hva⟩

/-- The three ways to read an amount, and what the program sees of them. -/
theorem Matches.amount {l : Locals} {r r' : Reading} (h : Matches m R l r) {fuel : ℕ}
    (hfuel : r.format.length < fuel) {number : ℕ → Reading → Reading}
    {star : BitVec 64 → Reading → Reading} (hr : readAmount number star r = some r') :
    (isDigit (m l.format) = true ∧ ∃ n a cs, atoi m fuel l.format 0 = some (n, a) ∧
        StringAt m R a cs ∧ r' = number n { r with format := cs }) ∨
      (isDigit (m l.format) = false ∧ m l.format = byteOf '*' ∧ ∃ w va cs args, l.va = w :: va ∧
        StringAt m R (l.format + 1) cs ∧ List.Forall₂ (ArgAt m R) va args ∧
        r' = star w { r with format := cs, args := args }) ∨
      (isDigit (m l.format) = false ∧ m l.format ≠ byteOf '*' ∧ r' = r) := by
  have hformat := h.format
  rw [readAmount] at hr
  cases hfmt : r.format with
  | nil =>
    rw [hfmt] at hr hformat
    cases hr
    rw [hformat.2]
    exact Or.inr (Or.inr ⟨rfl, by decide, rfl⟩)
  | cons c cs =>
    rw [hfmt] at hr hformat hfuel
    obtain ⟨a, hatoi, hat⟩ := atoi_eq (i := 0) hformat hfuel
    obtain ⟨-, hm, -, hs⟩ := hformat
    dsimp only at hr
    rw [hm]
    cases hdigit : isDigit c with
    | true =>
      rw [if_pos hdigit] at hr
      cases hr
      exact Or.inl ⟨rfl, _, _, _, hatoi, hat, rfl⟩
    | false =>
      rw [if_neg (hdigit ▸ Bool.false_ne_true)] at hr
      by_cases hstar : c = byteOf '*'
      · rw [if_pos hstar] at hr
        split at hr
        · next w args hargs =>
          obtain ⟨va, hva, htail⟩ := h.int hargs
          cases hr
          exact Or.inr (Or.inl ⟨rfl, hstar, w, va, cs, args, hva, hs, htail, rfl⟩)
        · cases hr
      · rw [if_neg hstar] at hr
        cases hr
        exact Or.inr (Or.inr ⟨rfl, hstar, rfl⟩)

theorem evalWidth_eq {fuel : ℕ} {l : Locals} {r r' : Reading} (h : Matches m R l r)
    (hfuel : r.format.length < fuel) (hr : readWidth r = some r') :
    ∃ l', evalWidth m fuel l = some l' ∧ Matches m R l' r' := by
  rw [evalWidth]
  obtain ⟨hdigit, n, a, cs, hatoi, hs, rfl⟩ |
    ⟨hdigit, hstar, w, va, cs, args, hva, hs, hargs, rfl⟩ | ⟨hdigit, hstar, rfl⟩ :=
    h.amount hfuel hr
  · rw [if_pos hdigit, hatoi]
    exact ⟨_, rfl, { h with width := rfl, format := hs }⟩
  · rw [if_neg (hdigit ▸ Bool.false_ne_true), if_pos hstar, hva, h.flags]
    refine ⟨_, rfl, { h with
      flags := rfl, width := rfl, format := hs, args := hargs, noPrecision := fun hp => ?_ }⟩
    -- a negative width sets `FLAGS_LEFT` only
    refine h.noPrecision (Eq.trans ?_ hp)
    rw [starWidth]
    dsimp only
    split <;> rfl
  · rw [if_neg (hdigit ▸ Bool.false_ne_true), if_neg hstar]
    exact ⟨l, rfl, h⟩

theorem evalPoint_eq {fuel : ℕ} {l : Locals} {r r' : Reading} (h : Matches m R l r)
    (hfuel : r.format.length < fuel) (hp : r.flags.precision = true) (hr : readPoint r = some r') :
    ∃ l', evalPoint m fuel l = some l' ∧ Matches m R l' r' := by
  have hno : ∀ {p : ℕ}, r.flags.precision = false → p = 0 := fun hf => nomatch hf.symm.trans hp
  rw [evalPoint]
  obtain ⟨hdigit, n, a, cs, hatoi, hs, rfl⟩ |
    ⟨hdigit, hstar, w, va, cs, args, hva, hs, hargs, rfl⟩ | ⟨hdigit, hstar, rfl⟩ :=
    h.amount hfuel hr
  · rw [if_pos hdigit, hatoi]
    exact ⟨_, rfl, { h with precision := rfl, format := hs, noPrecision := hno }⟩
  · rw [if_neg (hdigit ▸ Bool.false_ne_true), if_pos hstar, hva]
    exact ⟨_, rfl, { h with precision := rfl, format := hs, args := hargs, noPrecision := hno }⟩
  · rw [if_neg (hdigit ▸ Bool.false_ne_true), if_neg hstar]
    exact ⟨l, rfl, h⟩

theorem evalPrecision_eq {fuel : ℕ} {l : Locals} {r r' : Reading} (h : Matches m R l r)
    (hfuel : r.format.length < fuel) (hr : readPrecision r = some r') :
    ∃ l', evalPrecision m fuel l = some l' ∧ Matches m R l' r' := by
  have hformat := h.format
  rw [readPrecision] at hr
  rw [evalPrecision]
  cases hfmt : r.format with
  | nil =>
    rw [hfmt] at hr hformat
    cases hr
    refine ⟨l, ?_, h⟩
    rw [hformat.2]
    rfl
  | cons c cs =>
    rw [hfmt] at hr hformat hfuel
    obtain ⟨-, hm, -, hs⟩ := hformat
    dsimp only at hr
    rw [hm]
    by_cases hpoint : c = byteOf '.'
    · rw [if_pos hpoint] at hr ⊢
      refine evalPoint_eq ?_ (Nat.lt_of_succ_lt hfuel) rfl hr
      exact { h with
        flags := congrArg (fun flags => { flags with precision := true }) h.flags
        format := hs
        noPrecision := fun hp => absurd hp.symm Bool.false_ne_true }
    · rw [if_neg hpoint] at hr ⊢
      cases hr
      exact ⟨l, rfl, h⟩

/-- One step in the length field. -/
theorem Matches.next {l : Locals} {r : Reading} (h : Matches m R l r) (f : Flags → Flags)
    (hp : (f r.flags).precision = r.flags.precision) {a : ℕ} {cs : List (BitVec 8)}
    (hs : StringAt m R a cs) :
    Matches m R { l with flags := f l.flags, format := a }
      { r with flags := f r.flags, format := cs } :=
  { h with
    flags := congrArg f h.flags
    format := hs
    noPrecision := fun hf => h.noPrecision (hp ▸ hf) }

theorem evalLength_eq {l : Locals} {r : Reading} (h : Matches m R l r) :
    Matches m R (evalLength m l) (readLength r) := by
  have hformat := h.format
  rw [readLength, evalLength]
  cases hfmt : r.format with
  | nil =>
    rw [hfmt] at hformat
    rw [hformat.2]
    exact h
  | cons c cs =>
    rw [hfmt] at hformat
    obtain ⟨-, hm, -, hs⟩ := hformat
    dsimp only
    rw [hm]
    by_cases hl : c = byteOf 'l'
    · rw [if_pos hl, if_pos hl]
      by_cases hll : cs.head? = some (byteOf 'l')
      · rw [if_pos hll, if_pos ((hs.head (by decide)).mpr hll)]
        exact h.next (fun flags => { flags with long := true, longLong := true }) rfl (hs.tail hll)
      · rw [if_neg hll, if_neg (mt (hs.head (by decide)).mp hll)]
        exact h.next (fun flags => { flags with long := true }) rfl hs
    rw [if_neg hl, if_neg hl]
    by_cases hh : c = byteOf 'h'
    · rw [if_pos hh, if_pos hh]
      by_cases hhh : cs.head? = some (byteOf 'h')
      · rw [if_pos hhh, if_pos ((hs.head (by decide)).mpr hhh)]
        exact h.next (fun flags => { flags with short := true, char := true }) rfl (hs.tail hhh)
      · rw [if_neg hhh, if_neg (mt (hs.head (by decide)).mp hhh)]
        exact h.next (fun flags => { flags with short := true }) rfl hs
    rw [if_neg hh, if_neg hh]
    split
    · exact h.next (fun flags => { flags with long := true }) rfl hs
    · exact h

theorem evalDirective_eq {fmt : List (BitVec 8)} {args : List Arg} {va : List (BitVec 64)}
    {a fuel : ℕ} {r : Reading} (hfmt : StringAt m R a fmt)
    (hargs : List.Forall₂ (ArgAt m R) va args) (hfuel : fmt.length < fuel)
    (hr : readDirective fmt args = some r) :
    ∃ l, evalDirective m fuel a va = some l ∧ Matches m R l r := by
  obtain ⟨r₁, hr₁, hr⟩ := Option.bind_eq_some_iff.mp hr
  obtain ⟨r₂, hr₂, hr⟩ := Option.bind_eq_some_iff.mp hr
  cases hr
  have hlen : (readFlags fmt {}).2.length ≤ fmt.length := readFlags_suffix.length_le
  have hlen₁ := (readWidth_later hr₁).1.length_le
  obtain ⟨a', hflags, hat⟩ := evalFlags_eq (l := ⟨{}, 0, 0, a, va⟩) hfmt hfuel
  have hstart : Matches m R ⟨(readFlags fmt {}).1, 0, 0, a', va⟩
      ⟨(readFlags fmt {}).1, 0, 0, (readFlags fmt {}).2, args⟩ :=
    { flags := rfl, width := rfl, precision := rfl, format := hat, args := hargs,
      noPrecision := fun _ => rfl }
  obtain ⟨l₁, hl₁, hm₁⟩ := evalWidth_eq hstart (hlen.trans_lt hfuel) hr₁
  obtain ⟨l₂, hl₂, hm₂⟩ := evalPrecision_eq hm₁ ((hlen₁.trans hlen).trans_lt hfuel) hr₂
  refine ⟨evalLength m l₂, ?_, evalLength_eq hm₂⟩
  exact Option.bind_eq_some_iff.mpr ⟨_, hflags, Option.bind_eq_some_iff.mpr
    ⟨l₁, hl₁, Option.bind_eq_some_iff.mpr ⟨l₂, hl₂, rfl⟩⟩⟩

/-! ### The specifiers -/

/-- An invariant of the states that `out` leads through, under which the bytes at the addresses `R`
are those of `m`. -/
structure Keeps {σ : Type} (mem : σ → ByteMemory) (k : Sink σ) (m : ByteMemory) (R : Set ℕ)
    (I : σ → Prop) : Prop where
  out : ∀ c idx s, I s → I (k.out c k.buffer idx k.maxlen s)
  mem : ∀ s, I s → ∀ a ∈ R, mem s a = m a

section Keeps

variable {σ : Type} {mem : σ → ByteMemory} {k : Sink σ} {I : σ → Prop} {p : Cursor σ}

theorem Keeps.putAll (h : Keeps mem k m R I) (cs : List (BitVec 8)) {p : Cursor σ}
    (hp : I p.state) : I (putAll k cs p).state := by
  induction cs generalizing p with
  | nil => exact hp
  | cons c cs ih => exact ih (p := put k c p) (h.out c p.idx p.state hp)

theorem stringPart_cons {flags : Flags} {precision : ℕ} {c : BitVec 8} {cs : List (BitVec 8)} :
    stringPart flags precision (c :: cs) =
      if !flags.precision || precision ≠ 0 then c :: stringPart flags (precision - 1) cs
      else [] := by
  cases hp : flags.precision <;> cases precision <;> simp [stringPart, hp]

theorem outString_eq (h : Keeps mem k m R I) {flags : Flags} {str : List (BitVec 8)} :
    ∀ {fuel s precision : ℕ} {p : Cursor σ}, I p.state → StringAt m R s str → str.length < fuel →
      outString mem k flags fuel s precision p =
        some (Vsnprintf.putAll k (stringPart flags precision str) p) := by
  induction str with
  | nil =>
    intro fuel s precision p hp hs hfuel
    obtain ⟨fuel, rfl⟩ := Nat.exists_eq_succ_of_ne_zero hfuel.ne_bot
    have htext : stringPart flags precision [] = [] := by simp [stringPart]
    rw [outString, (hs.congr (h.mem p.state hp)).2, htext]
    rfl
  | cons c str ih =>
    intro fuel s precision p hp hs hfuel
    obtain ⟨fuel, rfl⟩ := Nat.exists_eq_succ_of_ne_zero (Nat.ne_of_gt (Nat.zero_lt_of_lt hfuel))
    obtain ⟨-, hm, hc, -⟩ := hs.congr (h.mem p.state hp)
    rw [outString, hm, stringPart_cons]
    simp only [ne_eq, hc, not_false_eq_true, decide_true, Bool.true_and]
    split
    · exact ih (h.out c p.idx p.state hp) hs.2.2.2 (Nat.lt_of_succ_lt_succ hfuel)
    · rfl

theorem formatString_eq (h : Keeps mem k m R I) (hp : I p.state) {l : Locals}
    {str : List (BitVec 8)} {w : BitVec 64} {fuel : ℕ} (hs : StringAt m R w.toNat str)
    (hstr : str.length < 2 ^ 32) (hfuel : str.length < fuel)
    (hno : l.flags.precision = false → l.precision = 0) :
    formatString mem k fuel l w p = some (Vsnprintf.putAll k
      (padText l.flags l.width (stringPart l.flags l.precision str)) p) := by
  have hlen : (if l.flags.precision then
        min (strnlen (mem p.state) (if l.precision ≠ 0 then l.precision else 2 ^ 64 - 1) w.toNat
          % 2 ^ 32) l.precision
      else strnlen (mem p.state) (if l.precision ≠ 0 then l.precision else 2 ^ 64 - 1) w.toNat
        % 2 ^ 32) = (stringPart l.flags l.precision str).length := by
    rw [strnlen_eq (hs.congr (h.mem p.state hp)), stringPart]
    cases hp : l.flags.precision with
    | false =>
      rw [hno hp]
      simp only [Bool.false_eq_true, if_false, ne_eq, not_true_eq_false]
      omega
    | true =>
      simp only [if_true, List.length_take]
      split <;> omega
  rw [formatString, hlen, putAll_padText]
  simp only [ite_putN]
  rw [outString_eq h (h.putAll _ hp) hs hfuel]
  rfl

theorem specifier_eq (h : Keeps mem k m R I) (hp : I p.state) {c : BitVec 8} {l : Locals}
    {r : Reading} {fuel : ℕ} (hl : Matches m R l r)
    (hfuel : ∀ s, .str s ∈ r.args → s.length < fuel) {text : List (BitVec 8)} {args : List Arg}
    (ht : directiveText c r = some (text, args)) :
    args <:+ r.args ∧ ∃ va, specifier mem k fuel c l p = some (va, Vsnprintf.putAll k text p) ∧
      List.Forall₂ (ArgAt m R) va args := by
  rw [directiveText] at ht
  rw [specifier]
  by_cases hword : (isInteger c || c = byteOf 'c' || c = byteOf 'p') = true
  · rw [if_pos hword] at ht
    have hs : c ≠ byteOf 's' := by
      rintro rfl
      exact absurd hword (by decide)
    rw [if_pos (by simp only [Bool.or_eq_true] at hword ⊢; tauto)]
    split at ht
    · next w args' hargs =>
      obtain ⟨va, hva, htail⟩ := hl.int hargs
      have hsuffix : args' <:+ r.args := hargs ▸ List.suffix_cons _ args'
      rw [hva]
      dsimp only
      by_cases hint : isInteger c = true
      · rw [if_pos hint] at ht ⊢
        cases ht
        rw [formatInteger_eq_putAll k c l w p hl.flags hl.width hl.precision]
        exact ⟨hsuffix, va, rfl, htail⟩
      rw [if_neg hint] at ht ⊢
      by_cases hchar : c = byteOf 'c'
      · rw [if_pos hchar] at ht ⊢
        cases ht
        rw [formatChar_eq_putAll, hl.flags, hl.width]
        exact ⟨hsuffix, va, rfl, htail⟩
      · rw [if_neg hchar] at ht ⊢
        cases ht
        rw [if_neg hs, formatPointer_eq_putAll k l w p hl.flags hl.precision]
        exact ⟨hsuffix, va, rfl, htail⟩
    · cases ht
  rw [if_neg hword] at ht
  by_cases hs : c = byteOf 's'
  · subst hs
    rw [if_pos rfl] at ht
    rw [if_pos (by decide)]
    split at ht
    · next str args' hargs =>
      obtain ⟨w, va, ⟨hat, hstr⟩, htail, hva⟩ := List.forall₂_cons_right_iff.mp (hargs ▸ hl.args)
      have hlen : str.length < fuel := hfuel str (hargs ▸ List.mem_cons_self)
      have hno : l.flags.precision = false → l.precision = 0 := by
        rw [hl.flags, hl.precision]
        exact hl.noPrecision
      cases ht
      rw [hva]
      dsimp only
      rw [formatString_eq h hp hat hstr hlen hno, hl.flags, hl.width, hl.precision]
      exact ⟨hargs ▸ List.suffix_cons _ args, va, rfl, htail⟩
    · cases ht
  · rw [if_neg hs] at ht
    cases ht
    rw [if_neg (by simp only [Bool.or_eq_true, not_or, decide_eq_true_eq] at hword ⊢; tauto)]
    refine ⟨List.suffix_rfl, l.va, ?_, hl.args⟩
    split
    · next hpercent => rw [hpercent]; rfl
    · rfl

/-! ### Every run -/

theorem outString_exists {flags : Flags} : ∀ {fuel a precision : ℕ} {p p' : Cursor σ},
    outString mem k flags fuel a precision p = some p' → ∃ cs, p' = Vsnprintf.putAll k cs p
  | 0, _, _, _, _, h => nomatch h
  | fuel + 1, a, precision, p, p', h => by
    rw [outString] at h
    split at h
    · obtain ⟨cs, hcs⟩ := outString_exists h
      exact ⟨mem p.state a :: cs, hcs⟩
    · cases h
      exact ⟨[], rfl⟩

theorem formatString_exists {fuel : ℕ} {l : Locals} {w : BitVec 64} {p' : Cursor σ}
    (h : formatString mem k fuel l w p = some p') : ∃ cs, p' = Vsnprintf.putAll k cs p := by
  obtain ⟨p₁, h₁, h⟩ := Option.bind_eq_some_iff.mp h
  obtain ⟨cs, hcs⟩ := outString_exists h₁
  simp only [ite_putN] at hcs h
  cases h
  rw [hcs, ← putAll_append, ← putAll_append]
  exact ⟨_, rfl⟩

theorem specifier_exists {fuel : ℕ} {c : BitVec 8} {l : Locals} {va : List (BitVec 64)}
    {p' : Cursor σ} (h : specifier mem k fuel c l p = some (va, p')) :
    ∃ cs, p' = Vsnprintf.putAll k cs p := by
  rw [specifier] at h
  split at h
  · split at h
    · cases h
    split at h
    · cases h
      exact ⟨_, formatInteger_eq_putAll k c l _ p (r := ⟨l.flags, l.width, l.precision, [], []⟩)
        rfl rfl rfl⟩
    split at h
    · cases h
      exact ⟨_, formatChar_eq_putAll k l _ p⟩
    split at h
    · obtain ⟨p₁, h₁, h⟩ := Option.map_eq_some_iff.mp h
      cases h
      exact formatString_exists h₁
    · cases h
      exact ⟨_, formatPointer_eq_putAll k l _ p (r := ⟨l.flags, l.width, l.precision, [], []⟩)
        rfl rfl⟩
  · split at h <;> cases h <;> exact ⟨[_], rfl⟩

/-- Every run is a sequence of calls with consecutive indices, whatever the memory holds. -/
theorem loop_exists : ∀ {fuel a : ℕ} {va : List (BitVec 64)} {p p' : Cursor σ},
    loop mem k fuel a va p = some p' → ∃ cs, p' = Vsnprintf.putAll k cs p
  | 0, _, _, _, _, h => nomatch h
  | fuel + 1, a, va, p, p', h => by
    rw [loop] at h
    dsimp only at h
    split at h
    · cases h
      exact ⟨[], rfl⟩
    split at h
    · obtain ⟨cs, hcs⟩ := loop_exists h
      exact ⟨mem p.state a :: cs, hcs⟩
    · obtain ⟨l, -, h⟩ := Option.bind_eq_some_iff.mp h
      obtain ⟨⟨va', p₁⟩, h₁, h⟩ := Option.bind_eq_some_iff.mp h
      obtain ⟨cs₁, rfl⟩ := specifier_exists h₁
      obtain ⟨cs₂, rfl⟩ := loop_exists h
      exact ⟨cs₁ ++ cs₂, (putAll_append k cs₁ cs₂ p).symm⟩

/-! ### The main loop -/

theorem loop_eq_putAll (h : Keeps mem k m R I) {n : ℕ} {fmt : List (BitVec 8)} {args : List Arg}
    {text : List (BitVec 8)} (ht : textLoop n fmt args = some text) {b : ℕ}
    (hb : ∀ s, .str s ∈ args → s.length ≤ b) {fuel a : ℕ} {va : List (BitVec 64)} {p : Cursor σ}
    (hp : I p.state) (hfmt : StringAt m R a fmt) (hargs : List.Forall₂ (ArgAt m R) va args)
    (hfuel : fmt.length + b < fuel) :
    loop mem k fuel a va p = some (Vsnprintf.putAll k text p) := by
  induction n generalizing fmt args text fuel a va p with
  | zero => cases ht
  | succ n ih =>
    obtain ⟨fuel, rfl⟩ := Nat.exists_eq_succ_of_ne_zero (Nat.ne_of_gt (Nat.zero_lt_of_lt hfuel))
    have hmem := h.mem p.state hp
    rw [loop]
    dsimp only
    cases fmt with
    | nil =>
      cases ht
      rw [if_pos (hfmt.congr hmem).2]
      rfl
    | cons c fmt =>
      obtain ⟨-, hm, hc, -⟩ := hfmt.congr hmem
      rw [List.length_cons] at hfuel
      rw [textLoop] at ht
      rw [hm, if_neg hc]
      by_cases hpercent : c ≠ byteOf '%'
      · rw [if_pos hpercent] at ht ⊢
        obtain ⟨text', ht', rfl⟩ := Option.map_eq_some_iff.mp ht
        exact ih ht' hb (h.out c p.idx p.state hp) hfmt.2.2.2 hargs (by omega)
      · rw [if_neg hpercent] at ht ⊢
        obtain ⟨r, hr, ht⟩ := Option.bind_eq_some_iff.mp ht
        obtain ⟨l, hl, hmatch⟩ := evalDirective_eq (hfmt.congr hmem).2.2.2
          (hargs.imp fun _ _ => ArgAt.congr hmem) (by omega : fmt.length < fuel) hr
        have hmatch := hmatch.congr fun x hx => (hmem x hx).symm
        obtain ⟨hformat, hrest⟩ := readDirective_suffix hr
        cases hcs : r.format with
        | nil =>
          rw [hcs] at ht
          cases ht
        | cons c' cs =>
          rw [hcs] at ht
          obtain ⟨⟨text₁, args'⟩, ht₁, ht⟩ := Option.bind_eq_some_iff.mp ht
          obtain ⟨text₂, ht₂, rfl⟩ := Option.map_eq_some_iff.mp ht
          have hat : StringAt m R l.format (c' :: cs) := hcs ▸ hmatch.format
          have hb' : ∀ s, .str s ∈ r.args → s.length ≤ b := fun s hs => hb s (hrest.subset hs)
          obtain ⟨hrest', va', hspec, hargs'⟩ := specifier_eq h hp hmatch
            (fun s hs => (hb' s hs).trans_lt (by omega : b < fuel)) ht₁
          have hlen : cs.length + 1 ≤ fmt.length := by
            rw [← List.length_cons, ← hcs]
            exact hformat.length_le
          rw [hl, Option.bind_eq_bind, Option.bind_some,
            (hat.congr hmem).2.1, hspec, Option.bind_eq_bind, Option.bind_some, putAll_append]
          exact ih ht₂ (fun s hs => hb' s (hrest'.subset hs)) (h.putAll text₁ hp) hat.2.2.2 hargs'
            (by omega)

end Keeps

end Vsnprintf

open Vsnprintf

/-- The calls `out(text[0], buffer, 0, maxlen)`, `out(text[1], buffer, 1, maxlen)`, … and the one
that ends the string. -/
def sendText {σ : Type} (k : Sink σ) (text : List (BitVec 8)) (s : σ) : σ :=
  let p := putAll k text ⟨0, s⟩
  k.out 0 k.buffer (if p.idx < k.maxlen then p.idx else k.maxlen - 1) k.maxlen p.state

/-- The format at the address `a` has a text, with the arguments `va`. -/
def HasText (m : ByteMemory) (R : Set ℕ) (a : ℕ) (va : List (BitVec 64))
    (text : List (BitVec 8)) : Prop :=
  ∃ fmt args, StringAt m R a fmt ∧ List.Forall₂ (ArgAt m R) va args ∧
    formatText fmt args = some text

/-- No string is longer than the longest. -/
theorem exists_length_bound (args : List Arg) : ∃ b, ∀ x, .str x ∈ args → x.length ≤ b := by
  induction args with
  | nil => exact ⟨0, fun _ hx => nomatch hx⟩
  | cons arg args ih =>
    obtain ⟨b, hb⟩ := ih
    refine ⟨b + match arg with | .int _ => 0 | .str x => x.length, fun x hx => ?_⟩
    obtain rfl | hx := List.mem_cons.mp hx
    · exact Nat.le_add_left _ _
    · exact (hb x hx).trans (Nat.le_add_right _ _)

/-- `_vsnprintf` sends the text: whatever the output function does with the characters, it receives
those of the text in order, each with its index, and then the terminating zero. A null buffer
receives nothing, and the text is counted all the same. -/
theorem vsnprintf_eq {σ : Type} {mem : σ → ByteMemory} {k : Sink σ} {m : ByteMemory} {R : Set ℕ}
    {I : σ → Prop} (hkeeps : Keeps mem k m R I) {a : ℕ} {va : List (BitVec 64)}
    {text : List (BitVec 8)} (htext : HasText m R a va text) :
    ∃ fuel₀, ∀ fuel > fuel₀, ∀ s, I s → vsnprintf mem k fuel a va s =
      some (BitVec.ofNat 32 text.length, if k.buffer = 0 then s else sendText k text s) := by
  obtain ⟨fmt, args, hfmt, hargs, htext⟩ := htext
  obtain ⟨b, hb⟩ := exists_length_bound args
  refine ⟨fmt.length + b, fun fuel hfuel s hs => ?_⟩
  have hidx : ∀ k : Sink σ, (putAll k text ⟨0, s⟩).idx.setWidth 32 = BitVec.ofNat 32 text.length :=
    fun k => by
      have hputAll := (putAll_idx k text ⟨0, s⟩).trans (BitVec.zero_add _)
      rw [hputAll, BitVec.setWidth_ofNat_of_le (by decide)]
  rw [vsnprintf]
  dsimp only
  split
  · have hnull : Keeps mem { k with out := outNull } m R I := ⟨fun _ _ _ h => h, hkeeps.mem⟩
    have hstate : ∀ (cs : List (BitVec 8)) (p : Cursor σ),
        (putAll { k with out := outNull } cs p).state = p.state := by
      intro cs
      induction cs with
      | nil => exact fun _ => rfl
      | cons c cs ih => exact fun p => ih _
    rw [loop_eq_putAll hnull htext hb hs hfmt hargs hfuel, Option.bind_eq_bind, Option.bind_some,
      hidx]
    exact congrArg (fun s => some (_, s)) (hstate _ _)
  · rw [loop_eq_putAll hkeeps htext hb hs hfmt hargs hfuel, Option.bind_eq_bind, Option.bind_some,
      hidx]
    rfl

/-- Without any assumption, a run sends some text. -/
theorem vsnprintf_exists {σ : Type} {mem : σ → ByteMemory} {k : Sink σ} {s s' : σ} {a fuel : ℕ}
    {va : List (BitVec 64)} {ret : BitVec 32} (hbuffer : k.buffer ≠ 0)
    (h : vsnprintf mem k fuel a va s = some (ret, s')) : ∃ text, s' = sendText k text s := by
  rw [vsnprintf, if_neg hbuffer] at h
  obtain ⟨p, hp, h⟩ := Option.bind_eq_some_iff.mp h
  obtain ⟨text, rfl⟩ := loop_exists hp
  cases h
  exact ⟨text, rfl⟩

end FrogOS
