import FrogOS.Diagnostics

/-!
# Memory dumps

`dump` of `lib/dump.c` prints memory in rows of 16 bytes, each with its offset. It reads the memory
while it prints, so on the screen's own memory it would print what it has just printed; elsewhere
the memory stays as it is, and can be read off the text, byte by byte.

The offset grows by 16 in 64 bits. Unless the size leaves room for it above the last row, it wraps
around and the loop never ends.

## Main definitions

* `dump` — the function
* `dumpCalls`, `dumpValues` — the calls of `printf`, and what is to be read

## Main results

* `dump_reads` — the bytes can be read
-/

namespace FrogOS

open Vsnprintf

/-! ### The code -/

/-- The inner loop, from `i` on. -/
def dumpBytes (lit : Literals) (printFuel : ℕ) (addr n idx : BitVec 64) :
    ℕ → BitVec 64 → Console → Option Console
  | 0, _, _ => none
  | fuel + 1, i, c =>
    if i < 0x10 ∧ idx + i < n then do
      let byte := c.mem (addr + idx + i).toNat
      let (_, c) ← printf printFuel (lit " %02x") [byte.setWidth 64] c
      dumpBytes lit printFuel addr n idx fuel (i + 1) c
    else some c

/-- The outer loop, from `idx` on. -/
def dumpRows (lit : Literals) (printFuel : ℕ) (addr n : BitVec 64) :
    ℕ → BitVec 64 → Console → Option Console
  | 0, _, _ => none
  | fuel + 1, idx, c =>
    if idx < n then do
      let (_, c) ← printf printFuel (lit "0x%p: ") [idx] c
      let c ← dumpBytes lit printFuel addr n idx printFuel 0 c
      let (_, c) ← printf printFuel (lit "\n") [] c
      dumpRows lit printFuel addr n fuel (idx + 0x10) c
    else some c

/-- `dump`, with fuel for each loop. -/
def dump (lit : Literals) (fuel : ℕ) (addr n : BitVec 64) (c : Console) : Option Console :=
  dumpRows lit fuel addr n fuel 0 c

/-! ### The calls -/

def byteDirective : Directive := ⟨[.zeropad], some (.number 2), none, .none⟩

theorem scannable_byte : Scannable byteDirective (byteOf 'x') :=
  scannable_width (Or.inl rfl) (by decide) (by decide) (by decide)

theorem scannable_pointer : Scannable hexDirective (byteOf 'p') := scannable_plain (Or.inr rfl)

def offsetPieces : List Piece :=
  (literal "0x").map .char ++ [.directive hexDirective (byteOf 'p'), .char (byteOf ':'),
    .char (byteOf ' ')]

theorem separated_offset (pieces : List Piece) (h : Separated pieces) :
    Separated (offsetPieces ++ pieces) := by
  rw [offsetPieces, List.append_assoc]
  refine separated_chars (by decide) ?_
  exact ⟨scannable_pointer, ⟨_, _, rfl, by decide⟩, by decide, by decide, h⟩

/-- `printf("0x%p: ", idx)`. -/
def offsetCall (idx : BitVec 64) : FormatCall where
  format := "0x%p: "
  pieces := offsetPieces
  va := [idx]
  literal_eq := by decide
  readable := by
    have h := (separated_offset [] trivial).readable
    rwa [List.append_nil] at h
  length_va := rfl

/-- `printf(" %02x", byte)`. -/
def byteCall (byte : BitVec 8) : FormatCall where
  format := " %02x"
  pieces := [.char (byteOf ' '), .directive byteDirective (byteOf 'x')]
  va := [byte.setWidth 64]
  literal_eq := by decide
  readable := List.forall_mem_cons.mpr ⟨(by decide : byteOf ' ' ≠ byteOf '%'),
    List.forall_mem_cons.mpr ⟨scannable_byte, fun _ h => absurd h List.not_mem_nil⟩⟩
  length_va := rfl

/-- `printf("\n")`. -/
def newlineCall : FormatCall where
  format := "\n"
  pieces := [.char 10]
  va := []
  literal_eq := by decide
  readable := List.forall_mem_singleton.mpr (by decide : (10 : BitVec 8) ≠ byteOf '%')
  length_va := rfl

/-- How many bytes there are in row `k`. -/
def rowLength (n k : ℕ) : ℕ := min 16 (n - 16 * k)

/-- How many rows there are. -/
def rowCount (n : ℕ) : ℕ := (n + 15) / 16

def byteAt (m : ByteMemory) (addr : BitVec 64) (x : ℕ) : BitVec 8 :=
  m (addr + BitVec.ofNat 64 x).toNat

def rowCalls (m : ByteMemory) (addr : BitVec 64) (n k : ℕ) : List FormatCall :=
  offsetCall (BitVec.ofNat 64 (16 * k)) ::
    ((List.range' 0 (rowLength n k)).map (fun i => byteCall (byteAt m addr (16 * k + i))) ++
      [newlineCall])

/-- The calls of a dump of `n` bytes. -/
def dumpCalls (m : ByteMemory) (addr : BitVec 64) (n : ℕ) : List FormatCall :=
  (List.range' 0 (rowCount n)).flatMap (rowCalls m addr n)

/-- What is to be read: for every row its offset and its bytes. -/
def dumpValues (m : ByteMemory) (addr : BitVec 64) (n : ℕ) : List ℤ :=
  (List.range' 0 (rowCount n)).flatMap fun k => ((16 * k : ℕ) : ℤ) ::
    (List.range' 0 (rowLength n k)).map fun i => ((byteAt m addr (16 * k + i)).toNat : ℤ)

section

variable {m : ByteMemory} {R : Set ℕ} {lit : Literals} {addr n : BitVec 64} {c : Console}

/-- A call that returns on every console that shows a sheet. -/
def Returns (m : ByteMemory) (fuel : ℕ) (call : ConsoleCall) : Prop :=
  ∀ c, ShowsSheet m c → ∃ c', call.exec fuel c = some c' ∧ ShowsSheet m c'

theorem printf_returns {fuel a : ℕ} {va : List (BitVec 64)} (h : Returns m fuel (.printf a va))
    (hc : ShowsSheet m c) : ∃ v c', printf fuel a va c = some (v, c') ∧ ShowsSheet m c' ∧
      (ConsoleCall.printf a va).exec fuel c = some c' := by
  obtain ⟨c', hc', hshows⟩ := h c hc
  obtain ⟨⟨v, c''⟩, hp, rfl⟩ := Option.map_eq_some_iff.mp hc'
  exact ⟨v, c'', hp, hshows, hc'⟩

/-- The condition of the inner loop. -/
theorem inRow_iff {k i : ℕ} (hn : n.toNat ≤ 2 ^ 64 - 16) (hk : 16 * k < n.toNat) (hi : i ≤ 16) :
    (BitVec.ofNat 64 i < 0x10 ∧ BitVec.ofNat 64 (16 * k) + BitVec.ofNat 64 i < n) ↔
      i < rowLength n.toNat k := by
  have h16 : (BitVec.ofNat 64 i < 0x10) ↔ i < 16 := by
    rw [BitVec.lt_def, BitVec.toNat_ofNat, Nat.mod_eq_of_lt (by omega)]
    rfl
  rw [h16, ← BitVec.ofNat_add, BitVec.lt_def, BitVec.toNat_ofNat, Nat.mod_eq_of_lt (by omega),
    rowLength]
  omega

theorem printAll_append (fuel : ℕ) : ∀ (calls calls' : List ConsoleCall) (c : Console),
    printAll fuel (calls ++ calls') c = (printAll fuel calls c).bind (printAll fuel calls')
  | [], _, _ => rfl
  | call :: calls, calls', c => by
    rw [List.cons_append, printAll, printAll, Option.bind_assoc]
    congr 1
    funext c
    exact printAll_append fuel calls calls' c

/-- The inner loop with `r` bytes to go. -/
theorem dumpBytes_eq (hscreen : ∀ a ∈ R, a < video ∨ video + 4000 ≤ a) {k : ℕ}
    (hn : n.toNat ≤ 2 ^ 64 - 16) (hk : 16 * k < n.toNat)
    (hR : ∀ x < n.toNat, (addr + BitVec.ofNat 64 x).toNat ∈ R) {printFuel : ℕ}
    (hreturns : ∀ f ∈ rowCalls m addr n.toNat k, Returns m printFuel (f.call lit))
    (r : ℕ) : ∀ {i fuel : ℕ} {c : Console}, i + r = rowLength n.toNat k → r < fuel →
      ShowsSheet m c →
      ∃ c', dumpBytes lit printFuel addr n (BitVec.ofNat 64 (16 * k)) fuel (BitVec.ofNat 64 i) c =
          some c' ∧ ShowsSheet m c' ∧
        printAll printFuel ((List.range' i r).map fun i =>
          (byteCall (byteAt m addr (16 * k + i))).call lit) c = some c' := by
  induction r with
  | zero =>
    intro i fuel c hi hfuel hc
    have hle : i ≤ 16 := hi.le.trans (Nat.min_le_left _ _)
    obtain ⟨fuel, rfl⟩ := Nat.exists_eq_succ_of_ne_zero hfuel.ne_bot
    rw [dumpBytes, if_neg (mt (inRow_iff hn hk hle).mp (by omega))]
    exact ⟨c, rfl, hc, rfl⟩
  | succ r ih =>
    intro i fuel c hi hfuel hc
    have hlt : i < rowLength n.toNat k := by omega
    have hle : i ≤ 16 := hlt.le.trans (Nat.min_le_left _ _)
    have hin : 16 * k + i < n.toNat := by
      rw [rowLength] at hlt
      omega
    obtain ⟨fuel, rfl⟩ := Nat.exists_eq_succ_of_ne_zero (Nat.ne_of_gt (Nat.zero_lt_of_lt hfuel))
    have haddr : addr + BitVec.ofNat 64 (16 * k) + BitVec.ofNat 64 i =
        addr + BitVec.ofNat 64 (16 * k + i) := by
      rw [BitVec.add_assoc, ← BitVec.ofNat_add]
    have hbyte : c.mem (addr + BitVec.ofNat 64 (16 * k + i)).toNat = byteAt m addr (16 * k + i) :=
      hc.mem_eq hscreen _ (hR _ hin)
    have hmem : byteCall (byteAt m addr (16 * k + i)) ∈ rowCalls m addr n.toNat k :=
      List.mem_cons_of_mem _ (List.mem_append_left _ (List.mem_map.mpr
        ⟨i, List.mem_range'_1.mpr ⟨Nat.zero_le i, by omega⟩, rfl⟩))
    obtain ⟨v, c₁, hprintf, hc₁, hexec⟩ := printf_returns (hreturns _ hmem) hc
    obtain ⟨c', hc', hshows, hall⟩ := ih (i := i + 1) (by omega) (Nat.lt_of_succ_lt_succ hfuel) hc₁
    refine ⟨c', ?_, hshows, ?_⟩
    · rw [dumpBytes, if_pos ((inRow_iff hn hk hle).mpr hlt), haddr, hbyte]
      refine Option.bind_eq_some_iff.mpr ⟨(v, c₁), hprintf, ?_⟩
      exact BitVec.ofNat_add i 1 ▸ hc'
    · rw [List.range'_succ, List.map_cons, printAll]
      exact Option.bind_eq_some_iff.mpr ⟨c₁, hexec, hall⟩

/-- A row. -/
theorem dumpRow_eq (hscreen : ∀ a ∈ R, a < video ∨ video + 4000 ≤ a) {k : ℕ}
    (hn : n.toNat ≤ 2 ^ 64 - 16) (hk : 16 * k < n.toNat)
    (hR : ∀ x < n.toNat, (addr + BitVec.ofNat 64 x).toNat ∈ R) {printFuel : ℕ}
    (hfuel : 16 < printFuel)
    (hreturns : ∀ f ∈ rowCalls m addr n.toNat k, Returns m printFuel (f.call lit))
    (hc : ShowsSheet m c) (fuel : ℕ) :
    ∃ c', dumpRows lit printFuel addr n (fuel + 1) (BitVec.ofNat 64 (16 * k)) c =
        dumpRows lit printFuel addr n fuel (BitVec.ofNat 64 (16 * (k + 1))) c' ∧ ShowsSheet m c' ∧
      printAll printFuel ((rowCalls m addr n.toNat k).map (FormatCall.call lit)) c = some c' := by
  have hlt : BitVec.ofNat 64 (16 * k) < n := by
    rw [BitVec.lt_def, BitVec.toNat_ofNat]
    exact (Nat.mod_le _ _).trans_lt hk
  obtain ⟨v₁, c₁, hoffset, hc₁, hexec₁⟩ :=
    printf_returns (hreturns (offsetCall _) List.mem_cons_self) hc
  obtain ⟨c₂, hbytes, hc₂, hall₂⟩ := dumpBytes_eq hscreen hn hk hR hreturns
    (rowLength n.toNat k) (i := 0) (Nat.zero_add _)
    ((Nat.min_le_left _ _).trans_lt hfuel) hc₁
  obtain ⟨v₃, c₃, hnewline, hc₃, hexec₃⟩ := printf_returns (hreturns newlineCall
    (List.mem_cons_of_mem _ (List.mem_append_right _ (List.mem_singleton_self _)))) hc₂
  refine ⟨c₃, ?_, hc₃, ?_⟩
  · have hadd : BitVec.ofNat 64 (16 * k) + 0x10 = BitVec.ofNat 64 (16 * (k + 1)) := by
      rw [Nat.mul_succ, BitVec.ofNat_add]
      rfl
    have hoffset' : printf printFuel (lit "0x%p: ") [BitVec.ofNat 64 (16 * k)] c = some (v₁, c₁) :=
      hoffset
    have hnewline' : printf printFuel (lit "\n") [] c₂ = some (v₃, c₃) := hnewline
    rw [dumpRows, if_pos hlt, hoffset', hadd]
    simp only [Option.bind_eq_bind, Option.bind_some]
    rw [show (0 : BitVec 64) = BitVec.ofNat 64 0 from rfl, hbytes]
    simp only [Option.bind_some, hnewline']
  · rw [rowCalls, List.map_cons, List.map_append, printAll]
    refine Option.bind_eq_some_iff.mpr ⟨c₁, hexec₁, ?_⟩
    rw [printAll_append, List.map_map]
    refine Option.bind_eq_some_iff.mpr ⟨c₂, hall₂, ?_⟩
    exact Option.bind_eq_some_iff.mpr ⟨c₃, hexec₃, rfl⟩

/-- The outer loop with `r` rows to go. -/
theorem dumpRows_eq (hscreen : ∀ a ∈ R, a < video ∨ video + 4000 ≤ a)
    (hn : n.toNat ≤ 2 ^ 64 - 16) (hR : ∀ x < n.toNat, (addr + BitVec.ofNat 64 x).toNat ∈ R)
    {printFuel : ℕ} (hprint : 16 < printFuel)
    (hreturns : ∀ f ∈ dumpCalls m addr n.toNat, Returns m printFuel (f.call lit)) (r : ℕ) :
    ∀ {k fuel : ℕ} {c : Console}, k + r = rowCount n.toNat → r < fuel → ShowsSheet m c →
      ∃ c', dumpRows lit printFuel addr n fuel (BitVec.ofNat 64 (16 * k)) c = some c' ∧
        printAll printFuel (((List.range' k r).flatMap (rowCalls m addr n.toNat)).map
          (FormatCall.call lit)) c = some c' := by
  induction r with
  | zero =>
    intro k fuel c hk hfuel hc
    obtain ⟨fuel, rfl⟩ := Nat.exists_eq_succ_of_ne_zero hfuel.ne_bot
    refine ⟨c, if_neg fun hlt => ?_, rfl⟩
    rw [rowCount] at hk
    rw [BitVec.lt_def, BitVec.toNat_ofNat, Nat.mod_eq_of_lt (by omega)] at hlt
    omega
  | succ r ih =>
    intro k fuel c hk hfuel hc
    obtain ⟨fuel, rfl⟩ := Nat.exists_eq_succ_of_ne_zero (Nat.ne_of_gt (Nat.zero_lt_of_lt hfuel))
    have hlt : 16 * k < n.toNat := by
      rw [rowCount] at hk
      omega
    have hrow : ∀ f ∈ rowCalls m addr n.toNat k, Returns m printFuel (f.call lit) := fun f hf =>
      hreturns f (List.mem_flatMap.mpr ⟨k, List.mem_range'_1.mpr ⟨Nat.zero_le k, by omega⟩, hf⟩)
    obtain ⟨c₁, hdump, hc₁, hcalls⟩ := dumpRow_eq hscreen hn hlt hR hprint hrow hc fuel
    obtain ⟨c', hc', hall⟩ := ih (k := k + 1) (by omega) (Nat.lt_of_succ_lt_succ hfuel) hc₁
    refine ⟨c', hdump.trans hc', ?_⟩
    rw [List.range'_succ, List.flatMap_cons, List.map_append, printAll_append]
    exact Option.bind_eq_some_iff.mpr ⟨c₁, hcalls, hall⟩

/-! ### The text -/

/-- The bytes of a row, in front of a character that ends a number. -/
theorem separated_bytes (bytes : List (BitVec 8)) {x : BitVec 8} {pieces : List Piece}
    (hx : isDigitChar x = false) (h : Separated (.char x :: pieces)) :
    ∃ y pieces', (bytes.map byteCall).flatMap FormatCall.pieces ++ .char x :: pieces =
      .char y :: pieces' ∧ isDigitChar y = false ∧ Separated (.char y :: pieces') := by
  induction bytes with
  | nil => exact ⟨x, pieces, rfl, hx, h⟩
  | cons byte bytes ih =>
    obtain ⟨y, pieces', heq, hy, hsep⟩ := ih
    refine ⟨byteOf ' ', .directive byteDirective (byteOf 'x') :: .char y :: pieces', ?_, by decide,
      by decide, scannable_byte, ⟨y, pieces', rfl, hy⟩, hsep⟩
    rw [List.map_cons, List.flatMap_cons, List.append_assoc, heq]
    rfl

theorem separated_row {k N : ℕ} {pieces : List Piece} (h : Separated pieces) :
    Separated ((rowCalls m addr N k).flatMap FormatCall.pieces ++ pieces) := by
  have hnewline : Separated (.char 10 :: pieces) := ⟨by decide, h⟩
  obtain ⟨y, pieces', heq, -, hsep⟩ := separated_bytes
    ((List.range' 0 (rowLength N k)).map fun i => byteAt m addr (16 * k + i)) (by decide) hnewline
  rw [rowCalls, List.flatMap_cons, List.append_assoc, List.flatMap_append, List.append_assoc]
  rw [List.map_map] at heq
  exact separated_offset _ (heq ▸ hsep)

theorem separated_dump (m : ByteMemory) (addr : BitVec 64) (N : ℕ) :
    Separated ((dumpCalls m addr N).flatMap FormatCall.pieces) := by
  have hrows : ∀ ks : List ℕ,
      Separated ((ks.flatMap (rowCalls m addr N)).flatMap FormatCall.pieces) := by
    intro ks
    induction ks with
    | nil => trivial
    | cons k ks ih =>
      rw [List.flatMap_cons, List.flatMap_append]
      exact separated_row ih
  exact hrows _

theorem values_byteCall (byte : BitVec 8) : (byteCall byte).values = [(byte.toNat : ℤ)] := by
  have hscanned : scanned byteDirective (byteOf 'x') (byte.setWidth 64) = byte.toNat := by
    have hlt := byte.isLt
    rw [scanned, if_neg (by decide), argument, if_neg (by decide)]
    change ((((byte.setWidth 64).setWidth 32).toNat : ℕ) : ℤ) = _
    rw [BitVec.toNat_setWidth, BitVec.toNat_setWidth, Nat.mod_eq_of_lt (by omega),
      Nat.mod_eq_of_lt (by omega)]
  exact congrArg ([·]) hscanned

theorem values_offsetCall {k : ℕ} (hk : 16 * k < 2 ^ 64) :
    (offsetCall (BitVec.ofNat 64 (16 * k))).values = [((16 * k : ℕ) : ℤ)] := by
  have htoNat : (BitVec.ofNat 64 (16 * k)).toNat = 16 * k := Nat.mod_eq_of_lt hk
  exact congrArg (fun n : ℕ => [(n : ℤ)]) htoNat

theorem values_dump {N : ℕ} (hN : N ≤ 2 ^ 64 - 16) :
    (dumpCalls m addr N).flatMap FormatCall.values = dumpValues m addr N := by
  rw [dumpCalls, dumpValues, List.flatMap_assoc]
  refine List.flatMap_congr fun k hk => ?_
  have hk : 16 * k < 2 ^ 64 := by
    have := (List.mem_range'_1.mp hk).2
    rw [rowCount] at this
    omega
  rw [rowCalls, List.flatMap_cons, values_offsetCall hk, List.flatMap_append, List.flatMap_map]
  simp only [values_byteCall]
  rw [← List.map_eq_flatMap]
  exact congrArg (_ :: ·) (List.append_nil _)

/-- Calls that print return, with enough fuel for each of them. -/
theorem exists_returns (hscreen : ∀ a ∈ R, a < video ∨ video + 4000 ≤ a)
    {calls : List ConsoleCall} {texts : List (List (BitVec 8))}
    (h : List.Forall₂ (fun call text => ConsoleCall.Prints m R call text) calls texts) :
    ∃ fuel₀, ∀ fuel > fuel₀, ∀ call ∈ calls, Returns m fuel call := by
  induction h with
  | nil => exact ⟨0, fun _ _ _ hcall => absurd hcall List.not_mem_nil⟩
  | @cons call text calls texts hcall _ ih =>
    obtain ⟨fuel₁, h₁⟩ := ConsoleCall.exec_eq hscreen hcall
    obtain ⟨fuel₂, h₂⟩ := ih
    refine ⟨max fuel₁ fuel₂, fun fuel hfuel => List.forall_mem_cons.mpr ⟨fun c hc => ?_, ?_⟩⟩
    · exact ⟨_, h₁ fuel ((le_max_left _ _).trans_lt hfuel) c hc, hc.foldl text⟩
    · exact h₂ fuel ((le_max_right _ _).trans_lt hfuel)

/-- A size that leaves no room above the last offset. -/
theorem dumpRows_eq_none (hn : 2 ^ 64 - 16 < n.toNat) (printFuel : ℕ) :
    ∀ (fuel : ℕ) {idx : BitVec 64} (c : Console), idx.toNat % 16 = 0 →
      dumpRows lit printFuel addr n fuel idx c = none := by
  intro fuel
  induction fuel with
  | zero => exact fun _ _ => rfl
  | succ fuel ih =>
    intro idx c hidx
    have hlt : idx < n := by
      have := idx.isLt
      rw [BitVec.lt_def]
      omega
    have hnext : (idx + 0x10).toNat % 16 = 0 := by
      have h16 : (0x10 : BitVec 64).toNat = 16 := rfl
      rw [BitVec.toNat_add, h16]
      omega
    rw [dumpRows, if_pos hlt, Option.eq_none_iff_forall_ne_some]
    intro c' h
    obtain ⟨p₁, -, h⟩ := Option.bind_eq_some_iff.mp h
    obtain ⟨c₂, -, h⟩ := Option.bind_eq_some_iff.mp h
    obtain ⟨p₃, -, h⟩ := Option.bind_eq_some_iff.mp h
    exact absurd (h.symm.trans (ih p₃.2 hnext)) (Option.some_ne_none c')

/-- **A dump can be read**: with 16 bytes to spare above its size, and off the screen, `dump` adds a
text to the sheet in which every byte and the offset of every row can be read, and returns. With a
larger size it never does, wherever the literals and the bytes are and whatever the console. -/
theorem dump_reads :
    (LiteralsAt m R lit ["0x%p: ", " %02x", "\n"] →
      (∀ x < n.toNat, (addr + BitVec.ofNat 64 x).toNat ∈ R) → n.toNat ≤ 2 ^ 64 - 16 → ∃ text,
        (∀ rest, scan ((dumpCalls m addr n.toNat).flatMap FormatCall.pieces) (text ++ rest) =
          some (dumpValues m addr n.toNat, rest)) ∧
        ∃ fuel₀, ∀ fuel > fuel₀, ∀ c T, Displays m T c →
          ∃ c', dump lit fuel addr n c = some c' ∧ Displays m (text.foldl Terminal.put T) c') ∧
    (2 ^ 64 - 16 < n.toNat → ∀ fuel c, dump lit fuel addr n c = none) := by
  refine ⟨fun hlit hR hn => ?_, fun hn fuel c => dumpRows_eq_none hn fuel fuel c rfl⟩
  have hss : ∀ f ∈ dumpCalls m addr n.toNat, f.format ∈ ["0x%p: ", " %02x", "\n"] := by
    intro f hf
    obtain ⟨k, -, hf⟩ := List.mem_flatMap.mp hf
    obtain rfl | hf := List.mem_cons.mp hf
    · exact List.mem_cons_self
    obtain hf | hf := List.mem_append.mp hf
    · obtain ⟨i, -, rfl⟩ := List.mem_map.mp hf
      exact List.mem_cons_of_mem _ List.mem_cons_self
    · rw [List.mem_singleton.mp hf]
      decide
  obtain ⟨texts, hprints, hscan⟩ := formatCalls_read hlit hss (separated_dump m addr n.toNat)
  obtain ⟨fuel₁, h₁⟩ := exists_returns hlit.screen hprints
  obtain ⟨fuel₂, h₂⟩ := printAll_displays hlit.screen hprints
  rw [values_dump hn] at hscan
  refine ⟨_, hscan, max (max fuel₁ fuel₂) (max 16 (rowCount n.toNat)), fun fuel hfuel c T hT => ?_⟩
  simp only [gt_iff_lt, max_lt_iff] at hfuel
  obtain ⟨⟨hfuel₁, hfuel₂⟩, hprint, hrows⟩ := hfuel
  obtain ⟨c', hc', hT'⟩ := h₂ fuel hfuel₂ c T hT
  obtain ⟨c'', hdump, hall⟩ := dumpRows_eq hlit.screen hn hR hprint
    (fun f hf => h₁ fuel hfuel₁ _ (List.mem_map_of_mem hf)) (rowCount n.toNat) (k := 0)
    (Nat.zero_add _) hrows ⟨T, hT⟩
  obtain rfl := Option.some_inj.mp (hall.symm.trans hc')
  exact ⟨c'', hdump, hT'⟩

/-- The first three bytes of the format of a row, and all memory but its last byte. -/
theorem dump_reads_format :
    (∃ text,
      (∀ rest, scan ((dumpCalls (literalMemory ["0x%p: ", " %02x", "\n"]) 0 3).flatMap
        FormatCall.pieces) (text ++ rest) = some ([0, 0x30, 0x78, 0x25], rest)) ∧
      ∃ fuel₀, ∀ fuel > fuel₀, ∀ c T, Displays (literalMemory ["0x%p: ", " %02x", "\n"]) T c →
        ∃ c', dump (literalAddress ["0x%p: ", " %02x", "\n"]) fuel 0 3 c = some c' ∧
          Displays (literalMemory ["0x%p: ", " %02x", "\n"]) (text.foldl Terminal.put T) c') ∧
    ∀ fuel c, dump (literalAddress ["0x%p: ", " %02x", "\n"]) fuel 0 (-1) c = none := by
  have hlit := literalsAt_literalMemory ["0x%p: ", " %02x", "\n"] (by decide) (by decide)
  have hR : ∀ x < 3, ((0 : BitVec 64) + BitVec.ofNat 64 x).toNat ∈ Set.Iio 4096 := fun x hx => by
    rw [zero_add, BitVec.toNat_ofNat, Set.mem_Iio]
    omega
  exact ⟨(dump_reads (n := 3)).1 hlit hR (by decide),
    (dump_reads (m := fun _ => 0) (R := ∅) (n := -1)).2 (by decide)⟩

end

end FrogOS
