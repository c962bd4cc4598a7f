import FrogOS.FormatOutput

/-!
# Printing into a buffer

`snprintf_` and `vsnprintf_` of `lib/printf.c`. The output function writes a character when its
index is below `maxlen`; the index that ends the string is held below `maxlen` by `_vsnprintf`
itself. With a `maxlen` of zero it is the largest `size_t`, and nothing is written.

What `snprintf` leaves behind when all is well is one list of bytes: the text cut after
`count - 1` characters, and a zero. That nothing outside the buffer changes, and that the string in
it ends, does not need the format to be a format: it is true of any run, also of one that finds its
format in the buffer it writes.

## Main definitions

* `snprintf` — with the arguments of its calls

## Main results

* `snprintf_writes` — the memory and the value returned
* `snprintf_safe` — no run writes outside the buffer or leaves it unterminated
-/

namespace FrogOS

open Vsnprintf ByteMemory

/-- `_out_buffer`. -/
def outBuffer : OutFct ByteMemory := fun character buffer idx maxlen m =>
  if idx < maxlen then Function.update m (buffer + idx.toNat) character else m

/-- `snprintf_`, and `vsnprintf_`, which differ in how the arguments come. -/
def snprintf (fuel buffer : ℕ) (count : BitVec 64) (format : ℕ) (va : List (BitVec 64))
    (m : ByteMemory) : Option (BitVec 32 × ByteMemory) :=
  vsnprintf id ⟨outBuffer, buffer, count⟩ fuel format va m

variable {m m' : ByteMemory} {buffer : ℕ} {count : BitVec 64}

/-! ### The output function -/

theorem outBuffer_of_outside {c : BitVec 8} {idx : BitVec 64} {x : ℕ}
    (hx : x < buffer ∨ buffer + count.toNat ≤ x) : outBuffer c buffer idx count m x = m x := by
  rw [outBuffer]
  split
  · next hlt =>
    have hidx : idx.toNat < count.toNat := hlt
    exact Function.update_of_ne (by omega) _ _
  · rfl

theorem outBuffer_at {c : BitVec 8} {idx : BitVec 64} (h : idx < count) :
    outBuffer c buffer idx count m (buffer + idx.toNat) = c := by
  rw [outBuffer, if_pos h, Function.update_self]

/-- The memory outside the buffer does not change. -/
theorem keeps_outBuffer {R : Set ℕ} (hR : ∀ x ∈ R, x < buffer ∨ buffer + count.toNat ≤ x) :
    Keeps id ⟨outBuffer, buffer, count⟩ m R
      fun m' => ∀ x, x < buffer ∨ buffer + count.toNat ≤ x → m' x = m x where
  out _ _ _ h x hx := (outBuffer_of_outside hx).trans (h x hx)
  mem _ h x hx := h x (hR x hx)

/-- The characters that fit, as long as the index does not wrap. -/
theorem putAll_outBuffer {text : List (BitVec 8)} {idx : BitVec 64} {m : ByteMemory}
    (h : idx.toNat + text.length < 2 ^ 64) :
    (putAll ⟨outBuffer, buffer, count⟩ text ⟨idx, m⟩).state =
      storeBytes m (buffer + idx.toNat) (text.take (count.toNat - idx.toNat)) := by
  induction text generalizing idx m with
  | nil =>
    rw [List.take_nil]
    rfl
  | cons c text ih =>
    rw [List.length_cons] at h
    have hnext : (idx + 1).toNat = idx.toNat + 1 := by
      rw [BitVec.toNat_add_of_lt]
      · rfl
      · exact lt_of_le_of_lt (by simp) h
    have hlen : (idx + 1).toNat + text.length < 2 ^ 64 := by omega
    refine (ih hlen).trans ?_
    rw [hnext]
    dsimp only [outBuffer]
    by_cases hlt : idx < count
    · have hroom : idx.toNat < count.toNat := hlt
      rw [if_pos hlt, show count.toNat - idx.toNat = count.toNat - (idx.toNat + 1) + 1 by omega,
        List.take_succ_cons, storeBytes, add_assoc]
    · have hroom : count.toNat ≤ idx.toNat := not_lt.mp hlt
      rw [if_neg hlt, Nat.sub_eq_zero_of_le hroom, Nat.sub_eq_zero_of_le (by omega)]
      rfl

/-- The index of the terminating zero. -/
theorem last_lt {idx : BitVec 64} (h : count ≠ 0) :
    (if idx < count then idx else count - 1) < count := by
  split
  · assumption
  · have hcount : 0 < count.toNat := Nat.pos_of_ne_zero fun h0 => h (BitVec.eq_of_toNat_eq h0)
    rw [BitVec.lt_def, BitVec.toNat_sub_of_le (show (1 : BitVec 64).toNat ≤ _ from hcount)]
    exact Nat.sub_lt hcount Nat.one_pos

/-- A whole text with its end. -/
theorem sendText_outBuffer {text : List (BitVec 8)} (h : text.length < 2 ^ 64) :
    sendText ⟨outBuffer, buffer, count⟩ text m =
      if count = 0 then m
      else storeBytes m buffer (text.take (count.toNat - 1) ++ [0]) := by
  have hidx : (putAll ⟨outBuffer, buffer, count⟩ text ⟨0, m⟩).idx.toNat = text.length := by
    rw [putAll_idx]
    exact (congrArg BitVec.toNat (BitVec.zero_add _)).trans (Nat.mod_eq_of_lt h)
  have hstate : (putAll ⟨outBuffer, buffer, count⟩ text ⟨0, m⟩).state =
      storeBytes m buffer (text.take count.toNat) := putAll_outBuffer ((Nat.zero_add _).trans_lt h)
  rw [sendText]
  dsimp only
  rw [hstate]
  by_cases hcount : count = 0
  · subst hcount
    rw [if_pos rfl, outBuffer, if_neg (by simp)]
    rfl
  rw [if_neg hcount, outBuffer, if_pos (last_lt hcount)]
  have hpos : 0 < count.toNat := Nat.pos_of_ne_zero fun h0 => hcount (BitVec.eq_of_toNat_eq h0)
  rw [storeBytes_append]
  split
  · next hlt =>
    have hlen : text.length < count.toNat := hidx ▸ hlt
    rw [hidx, List.take_of_length_le hlen.le, List.take_of_length_le (by omega)]
    rfl
  · next hlt =>
    have hlen : count.toNat ≤ text.length := hidx ▸ not_lt.mp hlt
    -- the last character that was written gives way to the zero
    obtain ⟨n, hn⟩ : ∃ n, count.toNat = n + 1 := ⟨count.toNat - 1, by omega⟩
    have hlast : (count - 1).toNat = n := by
      rw [BitVec.toNat_sub_of_le (show (1 : BitVec 64).toNat ≤ _ from hpos), hn]
      rfl
    rw [hlast, hn, Nat.add_sub_cancel, List.take_succ_eq_append_getElem (by omega),
      storeBytes_append, List.length_take_of_le (by omega)]
    exact Function.update_idem _ _ _

/-! ### The calls -/

/-- What the value says: it lies between 0 and `count - 1` exactly when the whole text has been
written, for a text of less than 2 GiB. Longer ones give a negative value, up to the 4 GiB at which
the value wraps. -/
theorem complete_iff {text : List (BitVec 8)} (hlen : text.length < 2 ^ 32) :
    (0 ≤ (BitVec.ofNat 32 text.length).toInt ∧
        (BitVec.ofNat 32 text.length).toInt < count.toNat) ↔
      text.length < 2 ^ 31 ∧ text.length < count.toNat := by
  rw [BitVec.toInt_eq_toNat_cond, BitVec.toNat_ofNat, Nat.mod_eq_of_lt hlen]
  split <;> omega

/-- **What `snprintf` writes**: the text cut to `count - 1` characters and a zero, and nothing with
a `count` of zero. The value is the length of the whole text, and tells whether it was cut. -/
theorem snprintf_writes {R : Set ℕ} {a : ℕ} {va : List (BitVec 64)} {text : List (BitVec 8)}
    (hbuffer : buffer ≠ 0) (hR : ∀ x ∈ R, x < buffer ∨ buffer + count.toNat ≤ x)
    (htext : HasText m R a va text) (hlen : text.length < 2 ^ 32) :
    ∃ fuel₀, ∀ fuel > fuel₀, ∃ ret,
      snprintf fuel buffer count a va m = some (ret,
        if count = 0 then m else storeBytes m buffer (text.take (count.toNat - 1) ++ [0])) ∧
      ret.toNat = text.length ∧
      (0 ≤ ret.toInt ∧ ret.toInt < count.toNat ↔
        text.length < 2 ^ 31 ∧ text.length < count.toNat) := by
  obtain ⟨fuel₀, hfuel₀⟩ := vsnprintf_eq (keeps_outBuffer (m := m) hR) htext
  refine ⟨fuel₀, fun fuel hfuel => ⟨BitVec.ofNat 32 text.length, ?_, Nat.mod_eq_of_lt hlen,
    complete_iff hlen⟩⟩
  rw [snprintf, hfuel₀ fuel hfuel m fun _ _ => rfl, if_neg hbuffer,
    sendText_outBuffer (hlen.trans (by decide))]

theorem snprintf_writes_answer :
    let m := storeBytes (fun _ => 0) 16 (literal "%d" ++ [0])
    ∃ fuel₀, ∀ fuel > fuel₀, ∃ ret,
      snprintf fuel 32 2 16 [42] m = some (ret, storeBytes m 32 (literal "4" ++ [0])) ∧
      ret.toNat = 2 ∧
      (0 ≤ ret.toInt ∧ ret.toInt < 2 ↔ 2 < 2 ^ 31 ∧ 2 < 2) := by
  intro m
  have hstring : StringAt m {x | x < 32} 16 (literal "%d") :=
    stringAt_storeBytes (by decide) fun i hi => by
      have hi : i ≤ 2 := hi
      exact Nat.lt_of_le_of_lt (Nat.add_le_add_left hi 16) (by decide)
  have htext : HasText m {x | x < 32} 16 [42] (literal "42") :=
    ⟨_, [.int 42], hstring, .cons rfl .nil, by decide⟩
  exact snprintf_writes (by decide) (fun x hx => Or.inl hx) htext (by decide)

/-- **No run of `snprintf` leaves its buffer.** -/
theorem snprintf_safe {fuel a : ℕ} {va : List (BitVec 64)} {ret : BitVec 32} (hbuffer : buffer ≠ 0)
    (h : snprintf fuel buffer count a va m = some (ret, m')) :
    (∀ x, x < buffer ∨ buffer + count.toNat ≤ x → m' x = m x) ∧
      (count ≠ 0 → ∃ i < count.toNat, m' (buffer + i) = 0) := by
  obtain ⟨text, rfl⟩ := vsnprintf_exists hbuffer h
  refine ⟨fun x hx => ?_, fun hcount => ?_⟩
  · have hkeeps : Keeps id ⟨outBuffer, buffer, count⟩ m ∅
        fun m' => ∀ x, x < buffer ∨ buffer + count.toNat ≤ x → m' x = m x :=
      keeps_outBuffer fun _ h => h.elim
    exact hkeeps.out _ _ _ (hkeeps.putAll text (p := ⟨0, m⟩) fun _ _ => rfl) x hx
  · have hlt : (if (putAll ⟨outBuffer, buffer, count⟩ text ⟨0, m⟩).idx < count then
        (putAll ⟨outBuffer, buffer, count⟩ text ⟨0, m⟩).idx else count - 1) < count :=
      last_lt hcount
    exact ⟨_, BitVec.lt_def.mp hlt, outBuffer_at hlt⟩

/-- A format that ends in a lone `%`, so that the zero behind it is printed and reading goes on; at
7, its fourth character is also the first of the buffer. -/
def overlappingFormat : ByteMemory :=
  storeBytes (fun _ => 0) 4 (literal "a%d...%" ++ [0] ++ literal "!" ++ [0])

theorem snprintf_safe_overlapping :
    ∃ m', snprintf 12 7 3 4 [42] overlappingFormat = some (8, m') ∧
      (∀ x, x < 7 ∨ 10 ≤ x → m' x = overlappingFormat x) ∧ ∃ i < 3, m' (7 + i) = 0 := by
  have h : snprintf 12 7 3 4 [42] overlappingFormat = some (8, _) := rfl
  obtain ⟨houtside, hend⟩ := snprintf_safe (by decide) h
  exact ⟨_, h, houtside, hend (by decide)⟩

end FrogOS
