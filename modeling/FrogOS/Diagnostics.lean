import FrogOS.ConsoleOutput
import FrogOS.FormatScan
import FrogOS.RunQueue

/-!
# What the kernel reports

`print_run_queue` of `process.c` and the report of an exception in `irq_handler`. They print a few
short formats one after the other, and what they print is meant to be read, so the question is what
can be told from it. The run queue is there in full. Of the registers of an exception `%x` prints
the lower halves only.

The string literals are wherever the compiler has put them.

## Main definitions

* `Printf.call` — the calls of `print_run_queue`, as calls of `printf`
* `reportException` — the first branch of `irq_handler`

## Main results

* `printRunQueue_shows` — the run queue, after any sequence of calls of its functions
* `reportException_reads` — the lower halves of the registers
-/

namespace FrogOS

open Vsnprintf StepSystem

/-- The addresses of the string literals. -/
abbrev Literals := String → ℕ

/-- The literals are in memory, in a part of it that is not the screen. -/
structure LiteralsAt (m : ByteMemory) (R : Set ℕ) (lit : Literals) (ss : List String) : Prop where
  screen : ∀ a ∈ R, a < video ∨ video + 4000 ≤ a
  string : ∀ s ∈ ss, StringAt m R (lit s) (literal s)
  bound : ∀ s ∈ ss, lit s < 2 ^ 64

section

variable {m : ByteMemory} {R : Set ℕ} {lit : Literals} {ss : List String}

theorem Vsnprintf.StringAt.ne_zero : ∀ {s : List (BitVec 8)} {a : ℕ},
    StringAt m R a s → ∀ c ∈ s, c ≠ 0
  | [], _, _ => fun _ hc => absurd hc List.not_mem_nil
  | _ :: _, _, ⟨_, _, hc, hs⟩ => List.forall_mem_cons.mpr ⟨hc, hs.ne_zero⟩

theorem stringAt_of_getElem {s : List (BitVec 8)} {a : ℕ} (hR : ∀ i ≤ s.length, a + i ∈ R)
    (hm : ∀ i (h : i < s.length), m (a + i) = s[i]) (hend : m (a + s.length) = 0)
    (hs : ∀ c ∈ s, c ≠ 0) : StringAt m R a s := by
  induction s generalizing a with
  | nil => exact ⟨hR 0 le_rfl, hend⟩
  | cons c s ih =>
    obtain ⟨hc, hs⟩ := List.forall_mem_cons.mp hs
    have hnext : ∀ i, a + 1 + i = a + (i + 1) := fun i => by omega
    refine ⟨hR 0 (Nat.zero_le _), hm 0 (Nat.succ_pos _), hc, ih ?_ ?_ ?_ hs⟩
    · exact fun i hi => hnext i ▸ hR (i + 1) (Nat.succ_le_succ hi)
    · exact fun i hi => hnext i ▸ hm (i + 1) (Nat.succ_lt_succ hi)
    · exact hnext s.length ▸ hend

/-- A memory with literals, for examples: each of them has 64 bytes. -/
def literalMemory (ss : List String) : ByteMemory := fun x =>
  (literal (ss.getD (x / 64) "")).getD (x % 64) 0

def literalAddress (ss : List String) : Literals := fun s => 64 * ss.idxOf s

theorem literalsAt_literalMemory (ss : List String) (hlength : ss.length ≤ 64)
    (hss : ∀ s ∈ ss, (literal s).length < 64 ∧ ∀ c ∈ literal s, c ≠ 0) :
    LiteralsAt (literalMemory ss) (Set.Iio 4096) (literalAddress ss) ss := by
  have hindex : ∀ s ∈ ss, ss.idxOf s < 64 := fun s hs =>
    (List.idxOf_lt_length_iff.mpr hs).trans_le hlength
  have hat : ∀ s ∈ ss, ∀ i < 64,
      literalMemory ss (literalAddress ss s + i) = (literal s).getD i 0 := by
    intro s hs i hi
    have hdiv : (64 * ss.idxOf s + i) / 64 = ss.idxOf s := by omega
    have hmod : (64 * ss.idxOf s + i) % 64 = i := by omega
    rw [literalMemory, literalAddress, hdiv, hmod, List.getD_eq_getElem?_getD (l := ss),
      List.getElem?_idxOf hs]
    rfl
  refine ⟨fun a ha => Or.inl (ha.trans (by decide)), fun s hs => ?_, fun s hs => ?_⟩
  · obtain ⟨hlt, hzero⟩ := hss s hs
    have hs64 := hindex s hs
    refine stringAt_of_getElem (fun i hi => ?_) (fun i hi => ?_) ?_ hzero
    · rw [Set.mem_Iio, literalAddress]
      omega
    · rw [hat s hs i (hi.trans hlt), List.getD_eq_getElem?_getD, List.getElem?_eq_getElem hi]
      rfl
    · rw [hat s hs _ hlt, List.getD_eq_getElem?_getD, List.getElem?_eq_none le_rfl]
      rfl
  · have hs64 := hindex s hs
    rw [literalAddress]
    omega

/-- A call of `printf` with a format of pieces. -/
theorem printf_prints (hlit : LiteralsAt m R lit ss) {s : String} (hs : s ∈ ss)
    {pieces : List Piece} (hpieces : ∀ piece ∈ pieces, piece.Readable)
    (hbytes : literal s = pieces.flatMap Piece.bytes) {va : List (BitVec 64)}
    {text : List (BitVec 8)} (htext : piecesText pieces (va.map .int) = some text) :
    ConsoleCall.Prints m R (.printf (lit s) va) text := by
  have hfmt : StringAt m R (lit s) (pieces.flatMap Piece.bytes) := hbytes ▸ hlit.string s hs
  have hchar : ∀ c, .char c ∈ pieces → c ≠ 0 := fun c hc =>
    hfmt.ne_zero c (List.mem_flatMap.mpr ⟨_, hc, List.mem_singleton_self c⟩)
  have hzero := ne_zero_piecesText hpieces hchar htext
  refine ⟨text, hasText_of_piecesText hpieces hfmt htext, ?_⟩
  exact (List.filter_eq_self.mpr fun c hc => by simpa using hzero c hc).symm

/-- A call of `printf` with integers, whose format the reader knows. -/
structure FormatCall where
  format : String
  pieces : List Piece
  va : List (BitVec 64)
  literal_eq : literal format = pieces.flatMap Piece.bytes
  readable : ∀ piece ∈ pieces, piece.Readable
  length_va : va.length = directives pieces

def FormatCall.call (lit : Literals) (f : FormatCall) : ConsoleCall := .printf (lit f.format) f.va

/-- What is to be read. -/
def FormatCall.values (f : FormatCall) : List ℤ := scannedAll f.pieces (f.va.map .int)

theorem scannedAll_flatMap (calls : List FormatCall) :
    scannedAll (calls.flatMap FormatCall.pieces) ((calls.flatMap FormatCall.va).map .int) =
      calls.flatMap FormatCall.values := by
  induction calls with
  | nil => rfl
  | cons f calls ih =>
    rw [List.flatMap_cons, List.flatMap_cons, List.map_append, scannedAll_append f.length_va, ih]
    rfl

/-- What such calls print one after the other can be read, where the formats together are
separated. -/
theorem formatCalls_read (hlit : LiteralsAt m R lit ss) {calls : List FormatCall}
    (hss : ∀ f ∈ calls, f.format ∈ ss) (hsep : Separated (calls.flatMap FormatCall.pieces)) :
    ∃ texts : List (List (BitVec 8)),
      List.Forall₂ (fun call text => ConsoleCall.Prints m R call text)
        (calls.map (FormatCall.call lit)) texts ∧
      ∀ rest, scan (calls.flatMap FormatCall.pieces) (texts.flatten ++ rest) =
        some (calls.flatMap FormatCall.values, rest) := by
  have htext : ∀ f : FormatCall, ∃ text, piecesText f.pieces (f.va.map .int) = some text :=
    fun f => exists_piecesText f.readable f.length_va.ge
  choose text htext using htext
  rw [← scannedAll_flatMap]
  refine ⟨calls.map text, ?_, scan_piecesText hsep ?_⟩
  · rw [List.forall₂_map_left_iff, List.forall₂_map_right_iff, List.forall₂_same]
    exact fun f hf => printf_prints hlit (hss f hf) f.readable f.literal_eq (htext f)
  · have hflatten := piecesText_flatten (calls.map fun f => (f.pieces, f.va)) ?_ ?_
      (calls.map text) ?_
    · rw [List.flatMap_map, List.flatMap_map] at hflatten
      exact hflatten
    · exact List.forall_mem_map.mpr fun f _ => f.readable
    · exact List.forall_mem_map.mpr fun f _ => f.length_va
    · rw [List.forall₂_map_left_iff, List.forall₂_map_right_iff, List.forall₂_same]
      exact fun f _ => htext f

/-! ### The run queue -/

def Printf.call (lit : Literals) (p : Printf) : ConsoleCall :=
  .printf (lit p.format) (p.args.map (BitVec.ofNat 64))

/-- The decimal digits, behind blanks up to a width. -/
def padded (width n : ℕ) : List (BitVec 8) :=
  List.replicate (width - (numeral n).length) (byteOf ' ') ++ numeral n

theorem standardText_padded (n width : ℕ) :
    standardText n false 10 0 width {} = padded width n := by
  have hnumeral : (allDigits n 10 {}).reverse = numeral n := by
    rw [allDigits, numeral]
    by_cases hn : n = 0
    · rw [if_pos ⟨hn, rfl⟩, if_pos hn]
      rfl
    · rw [if_neg fun h => hn h.1, if_neg hn]
  have hsign : signText false {} = [] := rfl
  simp [standardText, hsign, hnumeral, padded]

theorem padded_zero (n : ℕ) : padded 0 n = numeral n := by
  rw [padded, Nat.zero_sub, List.replicate_zero, List.nil_append]

/-- `%d` prints the decimal digits, and `%5d` puts blanks before them. -/
theorem fieldText_decimal {d : Directive} (h : Scannable d (byteOf 'd')) (hd : d.allFlags = {})
    {n : ℕ} (hn : n < 2 ^ 31) :
    fieldText d (byteOf 'd') (BitVec.ofNat 64 n) = padded d.fieldWidth n := by
  have hw : (BitVec.ofNat 64 n).setWidth 32 = BitVec.ofNat 32 n :=
    BitVec.setWidth_ofNat_of_le (by decide) n
  have htoNat : (BitVec.ofNat 32 n).toNat = n := by
    rw [BitVec.toNat_ofNat]
    omega
  have htoInt : (BitVec.ofNat 32 n).toInt = n := by
    rw [BitVec.toInt_eq_toNat_cond, htoNat, if_pos (by omega)]
  have hvalue : integerValue (byteOf 'd') {} (BitVec.ofNat 64 n) = (n, false) := by
    rw [integerValue, if_pos (by decide), signedValue]
    simp only [Bool.or_self, Bool.false_eq_true, if_false, hw, htoInt]
    by_cases hn0 : n = 0
    · subst hn0
      rfl
    · rw [if_pos (by omega), htoNat, decide_eq_false (by omega)]
  have hflags : integerFlags (byteOf 'd') {} = {} := by decide
  rw [fieldText, if_pos (by decide), h.integerText_eq, hd, hflags, hvalue]
  exact standardText_padded n _

/-- The text of `print_run_queue`. -/
def runQueueText (pids : List ℕ) : List (BitVec 8) :=
  literal "Run queue: " ++ pids.flatMap (fun pid => numeral pid ++ [byteOf ' ']) ++ literal "\n"

theorem readable_chars {text : List (BitVec 8)} (h : byteOf '%' ∉ text) :
    ∀ piece ∈ text.map Piece.char, piece.Readable := by
  intro piece hpiece
  obtain ⟨c, hc, rfl⟩ := List.mem_map.mp hpiece
  exact fun heq => h (heq ▸ hc)

theorem bytes_chars (text : List (BitVec 8)) :
    (text.map Piece.char).flatMap Piece.bytes = text := by
  rw [List.flatMap_map]
  exact List.flatMap_singleton' text

/-- A format without directives. -/
theorem printf_literal_prints (hlit : LiteralsAt m R lit ss) {s : String} (hs : s ∈ ss)
    (h : byteOf '%' ∉ literal s) : ConsoleCall.Prints m R (.printf (lit s) []) (literal s) := by
  refine printf_prints hlit hs (readable_chars h) (bytes_chars _).symm ?_
  have htext := piecesText_chars (literal s) [] []
  rw [List.append_nil] at htext
  exact htext.trans (congrArg some (List.append_nil _))

theorem printf_pid_prints (hlit : LiteralsAt m R lit ["Run queue: ", "%d ", "\n"]) {pid : ℕ}
    (hpid : pid < 2 ^ 31) :
    ConsoleCall.Prints m R (Printf.call lit ⟨"%d ", [pid]⟩) (numeral pid ++ [byteOf ' ']) := by
  have hd : Scannable ⟨[], none, none, .none⟩ (byteOf 'd') := scannable_plain (Or.inl rfl)
  have hbytes : literal "%d " = [Piece.directive ⟨[], none, none, .none⟩ (byteOf 'd'),
      .char (byteOf ' ')].flatMap Piece.bytes := by decide
  refine printf_prints hlit (s := "%d ") (by decide) ?_ hbytes ?_
  · exact List.forall_mem_cons.mpr ⟨hd, List.forall_mem_cons.mpr
      ⟨(by decide : byteOf ' ' ≠ byteOf '%'), fun _ h => absurd h List.not_mem_nil⟩⟩
  · rw [List.map_cons, List.map_cons, piecesText_directive hd, fieldText_decimal hd rfl hpid,
      Directive.fieldWidth, padded_zero]
    rfl

namespace RunQueueHistory

variable {M : Type}

/-- Only pids of the table are added. -/
theorem added_lt (k : Kernel M) (calls : List RunQueueCall) {s : RunQueueHistory M}
    (hrun : run RunQueueHistory.step ⟨k, [], []⟩ calls = some s) :
    ∀ pid ∈ s.added, pid < maxProcesses := by
  refine invariant_of_run (fun s : RunQueueHistory M => ∀ pid ∈ s.added, pid < maxProcesses)
    (fun s call t hs hstep => ?_) (fun pid hpid => absurd hpid List.not_mem_nil) hrun
  cases call with
  | addToRunQueue pid =>
    simp only [RunQueueHistory.step, Option.ite_none_right_eq_some] at hstep
    obtain ⟨⟨-, hlt, -⟩, hstep⟩ := hstep
    rw [← Option.some.inj hstep]
    exact List.forall_mem_append.mpr ⟨hs, List.forall_mem_singleton.mpr hlt⟩
  | getNextPid => exact Option.some.inj hstep ▸ hs

theorem holds_of_run (k : Kernel M) (hempty : k.runQueue.head = k.runQueue.tail)
    (calls : List RunQueueCall) {s : RunQueueHistory M}
    (hrun : run RunQueueHistory.step ⟨k, [], []⟩ calls = some s) : s.Holds := by
  have hnil : k.runQueue.toList = [] := RingBuffer.toList_eq_nil_iff.mpr hempty
  refine invariant_of_run Holds (fun _ _ _ h hstep => h.step hstep) ⟨?_, ?_⟩ hrun
  · rw [hnil]
    rfl
  · rw [hnil]
    exact fun pid hpid => absurd hpid List.not_mem_nil

/-- **`print_run_queue` shows the queue**: after every sequence of calls of the functions of the run
queue, as `step` allows them, and on a console that shows any sheet, it adds the numerals of the
outstanding pids to the sheet, in the order in which `get_next_pid` will return them. -/
theorem printRunQueue_shows (k : Kernel M) (hempty : k.runQueue.head = k.runQueue.tail)
    (calls : List RunQueueCall) {s : RunQueueHistory M}
    (hrun : run RunQueueHistory.step ⟨k, [], []⟩ calls = some s)
    (hlit : LiteralsAt m R lit ["Run queue: ", "%d ", "\n"]) :
    ∃ fuel₀, ∀ fuel > fuel₀, ∀ c T, Displays m T c →
      ∃ c', printAll fuel (s.kernel.printRunQueue.map (Printf.call lit)) c = some c' ∧
        Displays m ((runQueueText s.outstanding).foldl Terminal.put T) c' := by
  have hholds := holds_of_run k hempty calls hrun
  have hpids : ∀ pid ∈ s.outstanding, pid < 2 ^ 31 := fun pid hpid =>
    (added_lt k calls hrun pid (List.mem_of_mem_drop hpid)).trans (by decide)
  have hqueue : ∀ {pids : List ℕ}, (∀ pid ∈ pids, pid < 2 ^ 31) →
      List.Forall₂ (fun call text => ConsoleCall.Prints m R call text)
        (pids.map fun pid => Printf.call lit ⟨"%d ", [pid]⟩)
        (pids.map fun pid => numeral pid ++ [byteOf ' ']) := by
    intro pids hpids
    rw [List.forall₂_map_left_iff, List.forall₂_map_right_iff, List.forall₂_same]
    exact fun pid hpid => printf_pid_prints hlit (hpids pid hpid)
  have hcalls := List.rel_append (.cons (printf_literal_prints hlit (s := "Run queue: ")
    (by decide) (by decide)) (hqueue hpids)) (.cons (printf_literal_prints hlit (s := "\n")
    (by decide) (by decide)) .nil)
  obtain ⟨fuel₀, hfuel₀⟩ := printAll_displays hlit.screen hcalls
  have htext : ([literal "Run queue: "] ++
      s.outstanding.map (fun pid => numeral pid ++ [byteOf ' ']) ++ [literal "\n"]).flatten =
        runQueueText s.outstanding := by
    rw [runQueueText, List.flatMap_def, List.flatten_append, List.flatten_append,
      List.flatten_singleton, List.flatten_singleton]
  refine ⟨fuel₀, fun fuel hfuel c T hT => ?_⟩
  obtain ⟨c', hc', hT'⟩ := hfuel₀ fuel hfuel c T hT
  refine ⟨c', ?_, htext ▸ hT'⟩
  rw [hholds.isFifo.printRunQueue_eq, List.map_append, List.map_cons, List.map_map]
  exact hc'

/-- The theorem at a ring whose first insertion wraps around. -/
theorem printRunQueue_shows_wrapped : ∃ s : RunQueueHistory Unit, s.outstanding = [3, 5] ∧
    ∃ fuel₀, ∀ fuel > fuel₀, ∀ c T, Displays (literalMemory ["Run queue: ", "%d ", "\n"]) T c →
      ∃ c', printAll fuel (s.kernel.printRunQueue.map
          (Printf.call (literalAddress ["Run queue: ", "%d ", "\n"]))) c = some c' ∧
        Displays (literalMemory ["Run queue: ", "%d ", "\n"])
          ((runQueueText s.outstanding).foldl Terminal.put T) c' :=
  ⟨_, rfl, printRunQueue_shows
    { Kernel.initial () Heap.initial with runQueue := ⟨fun _ => 9, 127, 127⟩ } rfl
    [.addToRunQueue 3, .addToRunQueue 5] rfl (literalsAt_literalMemory _ (by decide) (by decide))⟩

end RunQueueHistory

/-! ### Exceptions -/

/-- The fields of `struct regs` that the report reads. -/
structure ExceptionRegs where
  int_no : BitVec 64
  err_code : BitVec 64
  rip : BitVec 64
  cs : BitVec 64

/-- `exception_labels`. -/
def exceptionLabels : List String :=
  ["Divide by zero", "Debug", "Non-maskable interrupt", "Breakpoint", "Overflow",
    "Bound range exceeded", "Invalid opcode", "Device not available", "Double fault",
    "Coprocessor segment overrun", "Invalid TSS", "Segment not present", "Stack-segment fault",
    "General protection fault", "Page fault", "Reserved", "x87 FPU floating-point error",
    "Alignment check", "Machine check", "SIMD floating-point exception", "Virtualization exception",
    "Control protection exception", "Reserved", "Reserved", "Reserved", "Reserved", "Reserved",
    "Reserved", "Reserved", "Reserved", "Security exception", "Reserved", "Reserved", "Reserved"]

/-- The calls that `irq_handler` makes for an exception, before it halts for good. For other
interrupts there are none. -/
def reportException (lit : Literals) (r : ExceptionRegs) (cr2 : BitVec 64) : List ConsoleCall :=
  if r.int_no < 32 then
    let label := exceptionLabels.getD r.int_no.toNat ""
    [.printf (lit "Exception %s at %x:%x (%x)")
        [BitVec.ofNat 64 (lit label), r.cs, r.rip, r.err_code],
      if r.int_no = 0xe then .printf (lit " cr2: %x\n") [cr2] else .puts (lit "\n")]
  else []

/-- The literals of the report. -/
def reportLiterals (int_no : BitVec 64) : List String :=
  ["Exception %s at %x:%x (%x)", " cr2: %x\n", "\n", exceptionLabels.getD int_no.toNat ""]

def hexDirective : Directive := ⟨[], none, none, .none⟩

/-- The report behind the label, as far as it is the same for all exceptions. -/
def locationPieces : List Piece :=
  (literal " at ").map .char ++ [.directive hexDirective (byteOf 'x'), .char (byteOf ':'),
    .directive hexDirective (byteOf 'x'), .char (byteOf ' '), .char (byteOf '('),
    .directive hexDirective (byteOf 'x'), .char (byteOf ')')]

def cr2Pieces : List Piece :=
  (literal " cr2: ").map .char ++ [.directive hexDirective (byteOf 'x'), .char 10]

/-- The report as it is read, for an exception whose label is known. -/
def reportPieces (int_no : BitVec 64) : List Piece :=
  (literal "Exception " ++ literal (exceptionLabels.getD int_no.toNat "")).map .char ++
    (locationPieces ++ if int_no = 0xe then cr2Pieces else [.char 10])

theorem separated_chars {text : List (BitVec 8)} (h : byteOf '%' ∉ text) {pieces : List Piece}
    (hpieces : Separated pieces) : Separated (text.map .char ++ pieces) := by
  induction text with
  | nil => exact hpieces
  | cons c text ih =>
    obtain ⟨hc, htext⟩ := List.ne_and_not_mem_of_not_mem_cons h
    exact ⟨hc.symm, ih htext⟩

theorem scannedAll_chars (text : List (BitVec 8)) (pieces : List Piece) (args : List Arg) :
    scannedAll (text.map .char ++ pieces) args = scannedAll pieces args := by
  induction text with
  | nil => rfl
  | cons c text ih => exact ih

/-- `%x` prints the lower half. -/
theorem scanned_hex (w : BitVec 64) :
    scanned hexDirective (byteOf 'x') w = ((w.toNat % 2 ^ 32 : ℕ) : ℤ) := by
  rw [scanned, if_neg (by decide), argument, if_neg (by decide), ← BitVec.toNat_setWidth]
  rfl

theorem scannable_hex : Scannable hexDirective (byteOf 'x') := scannable_plain (Or.inl rfl)

theorem label_mem : ∀ i < 32, exceptionLabels.getD i "" ∈ exceptionLabels := by decide

theorem percent_notMem_label : ∀ s ∈ exceptionLabels, byteOf '%' ∉ literal s := by decide

theorem separated_tail (p : Prop) [Decidable p] :
    Separated (if p then cr2Pieces else [.char 10]) := by
  split
  · exact separated_chars (by decide) ⟨scannable_hex, ⟨_, _, rfl, by decide⟩, by decide, trivial⟩
  · exact ⟨by decide, trivial⟩

theorem separated_location (pieces : List Piece) (h : Separated pieces) :
    Separated (locationPieces ++ pieces) := by
  rw [locationPieces, List.append_assoc]
  refine separated_chars (by decide) ?_
  exact ⟨scannable_hex, ⟨_, _, rfl, by decide⟩, by decide, scannable_hex, ⟨_, _, rfl, by decide⟩,
    by decide, by decide, scannable_hex, ⟨_, _, rfl, by decide⟩, by decide, h⟩

/-- A `%s`. -/
theorem piecesText_string (s : List (BitVec 8)) (pieces : List Piece) (args : List Arg) :
    piecesText (.directive hexDirective (byteOf 's') :: pieces) (.str s :: args) =
      (piecesText pieces args).map (s ++ ·) := by
  have hpad : padText {} 0 (stringPart {} 0 s) = s := by simp [padText, stringPart]
  exact congrArg (fun t => (piecesText pieces args).map (t ++ ·)) hpad

/-- The first call of the report. -/
theorem report_prints {label : String} (hlabel : label ∈ exceptionLabels)
    (hlit : LiteralsAt m R lit ["Exception %s at %x:%x (%x)", " cr2: %x\n", "\n", label])
    {va : List (BitVec 64)} {text : List (BitVec 8)}
    (htext : piecesText locationPieces (va.map .int) = some text) :
    ConsoleCall.Prints m R
      (.printf (lit "Exception %s at %x:%x (%x)") (BitVec.ofNat 64 (lit label) :: va))
      (literal "Exception " ++ (literal label ++ text)) := by
  have hfmt := hlit.string "Exception %s at %x:%x (%x)" List.mem_cons_self
  have hmem : label ∈ ["Exception %s at %x:%x (%x)", " cr2: %x\n", "\n", label] := by simp
  have hstring := hlit.string label hmem
  have haddr : (BitVec.ofNat 64 (lit label)).toNat = lit label :=
    Nat.mod_eq_of_lt (hlit.bound label hmem)
  have hlocation : ∀ piece ∈ locationPieces, piece.Readable := by
    have h := (separated_location [] trivial).readable
    rwa [List.append_nil] at h
  have hbytes : literal "Exception %s at %x:%x (%x)" = ((literal "Exception ").map Piece.char ++
      .directive hexDirective (byteOf 's') :: locationPieces).flatMap Piece.bytes := by decide
  have hwell : ∀ piece ∈ (literal "Exception ").map Piece.char ++
      .directive hexDirective (byteOf 's') :: locationPieces, piece.WellFormed := by
    refine List.forall_mem_append.mpr ⟨fun piece hp => ?_, List.forall_mem_cons.mpr
      ⟨⟨nofun, by decide⟩, fun piece hp => (hlocation piece hp).wellFormed⟩⟩
    exact (readable_chars (by decide) piece hp).wellFormed
  have hlength : (literal label).length < 2 ^ 32 :=
    (show ∀ s ∈ exceptionLabels, (literal s).length < 2 ^ 32 by decide) label hlabel
  have hargs : List.Forall₂ (ArgAt m R) (BitVec.ofNat 64 (lit label) :: va)
      (.str (literal label) :: va.map .int) :=
    .cons ⟨by rwa [haddr], hlength⟩
      (List.forall₂_map_right_iff.mpr (List.forall₂_same.mpr fun _ _ => rfl))
  have hall : formatText (literal "Exception %s at %x:%x (%x)")
      (.str (literal label) :: va.map .int) =
        some (literal "Exception " ++ (literal label ++ text)) := by
    rw [hbytes, formatText_pieces hwell, piecesText_chars, piecesText_string, htext]
    rfl
  refine ⟨_, ⟨_, _, hfmt, hargs, hall⟩, (List.filter_eq_self.mpr fun c hc => ?_).symm⟩
  have hchar : ∀ c, .char c ∈ locationPieces → c ≠ 0 := by
    intro c hc
    have hin : c ∈ literal "Exception %s at %x:%x (%x)" := by
      rw [hbytes]
      exact List.mem_flatMap.mpr ⟨_, List.mem_append_right _ (List.mem_cons_of_mem _ hc),
        List.mem_singleton_self c⟩
    exact hfmt.ne_zero c hin
  have hzero : ∀ c ∈ literal "Exception " ++ (literal label ++ text), c ≠ 0 :=
    List.forall_mem_append.mpr ⟨by decide, List.forall_mem_append.mpr
      ⟨hstring.ne_zero, ne_zero_piecesText hlocation hchar htext⟩⟩
  exact decide_eq_true (hzero c hc)

/-- The end of the line. -/
theorem reportTail_prints {int_no : BitVec 64} (hlit : LiteralsAt m R lit (reportLiterals int_no))
    (cr2 : BitVec 64) :
    ∃ text, ConsoleCall.Prints m R
        (if int_no = 0xe then .printf (lit " cr2: %x\n") [cr2] else .puts (lit "\n")) text ∧
      piecesText (if int_no = 0xe then cr2Pieces else [.char 10])
        ((if int_no = 0xe then [cr2] else []).map .int) = some text := by
  split
  · have hsep := separated_tail True
    rw [if_pos trivial] at hsep
    obtain ⟨text, htext⟩ := exists_piecesText hsep.readable
      (show directives cr2Pieces ≤ [cr2].length from le_rfl)
    have hmem : " cr2: %x\n" ∈ reportLiterals int_no := by simp [reportLiterals]
    exact ⟨text, printf_prints hlit hmem hsep.readable (by decide) htext, htext⟩
  · exact ⟨literal "\n", hlit.string "\n" (by simp [reportLiterals]), rfl⟩

/-- **What an exception reports**: the two calls add a text to the sheet in which the lower halves
of `cs`, `rip` and the error code can be read, and for a page fault that of `cr2`. -/
theorem reportException_reads (r : ExceptionRegs) (hint : r.int_no < 32) (cr2 : BitVec 64)
    (hlit : LiteralsAt m R lit (reportLiterals r.int_no)) :
    ∃ text, (∀ rest, scan (reportPieces r.int_no) (text ++ rest) =
        some ([r.cs, r.rip, r.err_code].map (fun w => ((w.toNat % 2 ^ 32 : ℕ) : ℤ)) ++
          (if r.int_no = 0xe then [((cr2.toNat % 2 ^ 32 : ℕ) : ℤ)] else []), rest)) ∧
      ∃ fuel₀, ∀ fuel > fuel₀, ∀ c T, Displays m T c →
        ∃ c', printAll fuel (reportException lit r cr2) c = some c' ∧
          Displays m (text.foldl Terminal.put T) c' := by
  have hlocation : ∀ piece ∈ locationPieces, piece.Readable := by
    have h := (separated_location [] trivial).readable
    rwa [List.append_nil] at h
  have hlabel := label_mem r.int_no.toNat hint
  obtain ⟨location, hlocationText⟩ := exists_piecesText hlocation
    (show directives locationPieces ≤ [r.cs, r.rip, r.err_code].length from le_rfl)
  obtain ⟨tail, htailPrints, htailText⟩ := reportTail_prints hlit cr2
  have hcalls : reportException lit r cr2 =
      [.printf (lit "Exception %s at %x:%x (%x)") [BitVec.ofNat 64
        (lit (exceptionLabels.getD r.int_no.toNat "")), r.cs, r.rip, r.err_code],
      if r.int_no = 0xe then .printf (lit " cr2: %x\n") [cr2] else .puts (lit "\n")] := if_pos hint
  obtain ⟨fuel₀, hfuel₀⟩ := printAll_displays hlit.screen
    (.cons (report_prints hlabel hlit hlocationText) (.cons htailPrints .nil))
  refine ⟨_, fun rest => ?_, fuel₀, fun fuel hfuel c T hT => hcalls ▸ hfuel₀ fuel hfuel c T hT⟩
  have hpercent : byteOf '%' ∉ literal "Exception " ++
      literal (exceptionLabels.getD r.int_no.toNat "") := by
    rw [List.mem_append, not_or]
    exact ⟨by decide, percent_notMem_label _ hlabel⟩
  have hsep : Separated (reportPieces r.int_no) :=
    separated_chars hpercent (separated_location _ (separated_tail _))
  have htext : piecesText (reportPieces r.int_no)
      (([r.cs, r.rip, r.err_code] ++ if r.int_no = 0xe then [cr2] else []).map .int) =
        some [literal "Exception " ++
          (literal (exceptionLabels.getD r.int_no.toNat "") ++ location), tail].flatten := by
    rw [reportPieces, piecesText_chars, List.map_append, piecesText_append hlocation _ rfl,
      hlocationText, Option.bind_some, htailText]
    simp
  rw [scan_piecesText hsep htext, reportPieces, scannedAll_chars, locationPieces,
    List.append_assoc, scannedAll_chars]
  split
  · rw [cr2Pieces]
    exact congrArg (fun v => some (v, rest)) (by
      simp only [List.map_cons, List.map_nil, scannedAll, scanned_hex, List.cons_append,
        List.nil_append, scannedAll_chars])
  · exact congrArg (fun v => some (v, rest)) (by
      simp only [List.map_cons, List.map_nil, scannedAll, scanned_hex, List.cons_append,
        List.nil_append])

/-- A page fault. -/
theorem reportException_reads_pageFault : ∃ text,
    (∀ rest, scan (reportPieces 14) (text ++ rest) =
      some ([8, 0x00201000, 2, 0x40000000], rest)) ∧
    ∃ fuel₀, ∀ fuel > fuel₀, ∀ c T, Displays (literalMemory (reportLiterals 14)) T c →
      ∃ c', printAll fuel (reportException (literalAddress (reportLiterals 14))
          ⟨14, 2, 0x00201000, 8⟩ 0x140000000) c = some c' ∧
        Displays (literalMemory (reportLiterals 14)) (text.foldl Terminal.put T) c' := by
  obtain ⟨text, hscan, hprint⟩ := reportException_reads ⟨14, 2, 0x00201000, 8⟩ (by decide)
    0x140000000 (literalsAt_literalMemory (reportLiterals 14) (by decide) (by decide))
  exact ⟨text, fun rest => (hscan rest).trans rfl, hprint⟩

end

end FrogOS
