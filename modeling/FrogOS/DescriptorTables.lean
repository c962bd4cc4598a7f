import FrogOS.InterruptEntry
import FrogOS.Lib.SlotTable
import Mathlib.Tactic.IntervalCases

/-!
# Descriptor tables

`gdt_set_gate` and `setup_gdt` of `gdt.c`, and what the processor makes of the entries that they and
`install_idt_handler` write. The C structures are packed, so an entry is a word: the first field
lies in its lowest bits. The processor does not know the fields. It takes the base of a segment from
two places in the word, with the access byte and the flags between them, and the limit from two
others.

The descriptor of the task state segment takes two slots, the second one holding the upper half of
the base. `setup_gdt` clears the table first and never sets slot 7.

## Main definitions

* `GdtEntry`, `gdtSetGate`, `setupGdt` — the global descriptor table
* `GdtEntry.word`, `InterruptDescriptor64.word` — the packed structures
* `SegmentDescriptor.decode`, `GateDescriptor.decode`, `systemBase` — what the processor reads

## Main results

* `decode_gdtGate`, `decode_idtGate` — an entry decodes to the arguments of the call
* `descriptorTables_decode` — the tables after sequences of calls
-/

namespace FrogOS

open SlotTable

/-! ### The global descriptor table -/

/-- `struct gdt_entry`. -/
structure GdtEntry where
  limitLow : BitVec 16
  baseLow : BitVec 16
  baseMiddle : BitVec 8
  access : BitVec 8
  granularity : BitVec 8
  baseHigh : BitVec 8
  deriving DecidableEq

/-- What `gdt_set_gate` assigns to an entry: all of its fields. -/
def gdtGate (base limit : BitVec 64) (access granularity : BitVec 8) : GdtEntry where
  baseLow := (base &&& 0xFFFF).setWidth 16
  baseMiddle := (base >>> 16 &&& 0xFF).setWidth 8
  baseHigh := (base >>> 24 &&& 0xFF).setWidth 8
  limitLow := (limit &&& 0xFFFF).setWidth 16
  granularity := ((limit >>> 16 &&& 0x0F) ||| (granularity.setWidth 64 &&& 0xF0)).setWidth 8
  access := access

/-- `gdt_set_gate`. -/
def gdtSetGate (gdt : ℕ → GdtEntry) (num : ℕ) (base limit : BitVec 64)
    (access granularity : BitVec 8) : ℕ → GdtEntry :=
  Function.update gdt num (gdtGate base limit access granularity)

/-- A zeroed table. -/
def zeroGdt : ℕ → GdtEntry := fun _ => ⟨0, 0, 0, 0, 0, 0⟩

/-- A zeroed table of `InterruptDescriptor64`. -/
def zeroIdt : ℕ → InterruptDescriptor64 := fun _ => ⟨0, 0, 0, 0, 0, 0, 0⟩

/-- `struct tss_entry`. -/
structure TssEntry where
  reserved1 : BitVec 32
  rsp0 : BitVec 64
  rsp1 : BitVec 64
  rsp2 : BitVec 64
  reserved2 : BitVec 64
  /-- `ist1` to `ist7`. -/
  ist : Fin 7 → BitVec 64
  reserved3 : BitVec 64
  reserved4 : BitVec 16
  iomapBase : BitVec 16
  iomap : Fin 8192 → BitVec 8

/-- The offset of `iomap` in the packed `struct tss_entry`. -/
def offsetIomap : ℕ := 4 + 3 * 8 + 8 + 7 * 8 + 8 + 2 + 2

/-- `sizeof(struct tss_entry)`. -/
def sizeofTss : ℕ := offsetIomap + 8192

/-- What `setup_gdt` leaves behind. -/
structure GdtState where
  gdt : ℕ → GdtEntry
  tss : TssEntry
  /-- The arguments of `load_gdt`. -/
  gdtr : BitVec 64 × BitVec 16
  /-- The operand of `ltr`. -/
  tr : BitVec 16

/-- `setup_gdt`, for the addresses of `gdt` and `tss`. -/
def setupGdt (gdtAddress tssAddress : BitVec 64) : GdtState :=
  let gdt := zeroGdt
  let gdt := gdtSetGate gdt 0 0 0 0 0
  let gdt := gdtSetGate gdt 1 0 0 0x9A 0x20
  let gdt := gdtSetGate gdt 2 0 0xFFFFFFFF 0x92 0xCF
  let gdt := gdtSetGate gdt 4 0 0xFFFFFFFF 0xF2 0xCF
  let gdt := gdtSetGate gdt 5 0 0 0xFA 0x20
  let tss : TssEntry := ⟨0, 0, 0, 0, 0, fun _ => 0, 0, 0, 0, fun _ => 0⟩
  let tss := { tss with rsp0 := 0xF0000 }
  let tss := { tss with iomapBase := BitVec.ofNat 16 offsetIomap }
  let gdt := gdtSetGate gdt 6 tssAddress (BitVec.ofNat 64 sizeofTss) 0xE9 0x00
  ⟨gdt, tss, (gdtAddress, 128 * 8 - 1), 0x30⟩

/-! ### What the processor reads -/

/-- The entry as it lies in memory. -/
def GdtEntry.word (e : GdtEntry) : BitVec 64 :=
  e.baseHigh ++ e.granularity ++ e.access ++ e.baseMiddle ++ e.baseLow ++ e.limitLow

/-- The entry as it lies in memory. -/
def InterruptDescriptor64.word (d : InterruptDescriptor64) : BitVec 128 :=
  d.zero ++ d.offset3 ++ d.offset2 ++ d.typeAttributes ++ d.ist ++ d.selector ++ d.offset1

/-- A segment descriptor. -/
structure SegmentDescriptor where
  base : BitVec 32
  limit : BitVec 20
  access : BitVec 8
  flags : BitVec 4
  deriving DecidableEq

def SegmentDescriptor.decode (w : BitVec 64) : SegmentDescriptor where
  base := w.extractLsb' 56 8 ++ w.extractLsb' 16 24
  limit := w.extractLsb' 48 4 ++ w.extractLsb' 0 16
  access := w.extractLsb' 40 8
  flags := w.extractLsb' 52 4

/-- The base in the 16 bytes of a system descriptor. -/
def systemBase (low high : BitVec 64) : BitVec 64 :=
  high.extractLsb' 0 32 ++ (SegmentDescriptor.decode low).base

/-- A gate of the interrupt descriptor table, with its reserved bits. -/
structure GateDescriptor where
  offset : BitVec 64
  selector : BitVec 16
  ist : BitVec 3
  /-- The bits between `ist` and the attributes. -/
  reserved1 : BitVec 5
  typeAttributes : BitVec 8
  /-- The last four bytes. -/
  reserved2 : BitVec 32
  deriving DecidableEq

def GateDescriptor.decode (w : BitVec 128) : GateDescriptor where
  offset := w.extractLsb' 64 32 ++ w.extractLsb' 48 16 ++ w.extractLsb' 0 16
  selector := w.extractLsb' 16 16
  ist := w.extractLsb' 32 3
  reserved1 := w.extractLsb' 35 5
  typeAttributes := w.extractLsb' 40 8
  reserved2 := w.extractLsb' 96 32

/-! ### One entry -/

section entry

variable (base limit func : BitVec 64) (access granularity : BitVec 8)

/-- A field is cut out by a shift and a mask of its width. -/
theorem setWidth_ushiftRight_and {k : ℕ} (x m : BitVec 64) (s : ℕ)
    (hm : m.setWidth k = BitVec.allOnes k) :
    (x >>> s &&& m).setWidth k = x.extractLsb' s k := by
  rw [BitVec.setWidth_and, hm, BitVec.and_allOnes]
  ext i hi
  simp [BitVec.getElem_extractLsb']

theorem setWidth_and_mask (x : BitVec 64) : (x &&& 0xFFFF).setWidth 16 = x.extractLsb' 0 16 := by
  simpa using setWidth_ushiftRight_and (k := 16) x 0xFFFF 0 (by decide)

/-- The lower half of the byte that limit and flags share. -/
theorem granularity_low :
    (gdtGate base limit access granularity).granularity.extractLsb' 0 4
      = limit.extractLsb' 16 4 := by
  rw [gdtGate]
  ext i hi
  interval_cases i <;> simp

/-- The upper half. -/
theorem granularity_high :
    (gdtGate base limit access granularity).granularity.extractLsb' 4 4
      = granularity.extractLsb' 4 4 := by
  rw [gdtGate]
  ext i hi
  interval_cases i <;> simp

/-- The fields of a packed entry, where the processor looks for them. -/
theorem decode_word (e : GdtEntry) : SegmentDescriptor.decode e.word =
    ⟨e.baseHigh ++ (e.baseMiddle ++ e.baseLow), e.granularity.extractLsb' 0 4 ++ e.limitLow,
      e.access, e.granularity.extractLsb' 4 4⟩ := by
  rw [SegmentDescriptor.decode, GdtEntry.word]
  simp only [SegmentDescriptor.mk.injEq]
  refine ⟨?_, ?_, ?_, ?_⟩
  all_goals
    ext i hi
    simp only [BitVec.getElem_append, BitVec.getElem_extractLsb', BitVec.getLsbD_append]
    grind

theorem decode_interruptWord (d : InterruptDescriptor64) : GateDescriptor.decode d.word =
    ⟨d.offset3 ++ d.offset2 ++ d.offset1, d.selector, d.ist.extractLsb' 0 3,
      d.ist.extractLsb' 3 5, d.typeAttributes, d.zero⟩ := by
  rw [GateDescriptor.decode, InterruptDescriptor64.word]
  simp only [GateDescriptor.mk.injEq]
  refine ⟨?_, ?_, ?_, ?_, ?_, ?_⟩
  all_goals
    ext i hi
    simp only [BitVec.getElem_append, BitVec.getElem_extractLsb', BitVec.getLsbD_append]
    grind

theorem decode_gdtGate : SegmentDescriptor.decode (gdtGate base limit access granularity).word =
    ⟨base.setWidth 32, limit.setWidth 20, access, granularity.extractLsb' 4 4⟩ := by
  have hbase : base.extractLsb' 24 8 ++ (base.extractLsb' 16 8 ++ base.extractLsb' 0 16)
      = base.setWidth 32 := by
    ext i hi
    simp only [BitVec.getElem_append, BitVec.getElem_extractLsb', BitVec.getElem_setWidth]
    grind
  have hlimit : limit.extractLsb' 16 4 ++ limit.extractLsb' 0 16 = limit.setWidth 20 := by
    ext i hi
    simp only [BitVec.getElem_append, BitVec.getElem_extractLsb', BitVec.getElem_setWidth]
    grind
  rw [decode_word, granularity_low, granularity_high, ← hbase, ← hlimit]
  simp only [gdtGate, setWidth_and_mask]
  rw [setWidth_ushiftRight_and base 0xFF 16 (by decide),
    setWidth_ushiftRight_and base 0xFF 24 (by decide)]

-- the data segment of the kernel
example :
    SegmentDescriptor.decode (gdtGate 0 0xFFFFFFFF 0x92 0xCF).word = ⟨0, 0xFFFFF, 0x92, 0xC⟩ := by
  decide

theorem decode_idtGate (idt : ℕ → InterruptDescriptor64) (num : ℕ) :
    GateDescriptor.decode (installIdtHandler idt num func num).word
      = ⟨func, 0x08, 0, 0, 0xEF, 0⟩ := by
  have hoffset : (func >>> 32).setWidth 32 ++ func.extractLsb' 16 16 ++ func.extractLsb' 0 16
      = func := by
    ext i hi
    simp only [BitVec.getElem_append, BitVec.getElem_extractLsb', BitVec.getElem_setWidth,
      BitVec.getLsbD_ushiftRight]
    grind
  rw [installIdtHandler, Function.update_self, decode_interruptWord]
  dsimp only
  rw [setWidth_ushiftRight_and func 0xffff 16 (by decide), setWidth_and_mask, hoffset]
  rfl

end entry

/-! ### Sequences of calls -/

/-- The arguments of a call of `gdt_set_gate`. -/
structure GdtCall where
  num : ℕ
  num_lt : num < 128
  base : BitVec 64
  base_lt : base.toNat < 2 ^ 32
  limit : BitVec 64
  access : BitVec 8
  granularity : BitVec 8

/-- The table after a sequence of calls, from a zeroed one. -/
def gdtAfter (calls : List GdtCall) : ℕ → GdtEntry :=
  calls.foldl (fun gdt c => gdtSetGate gdt c.num c.base c.limit c.access c.granularity) zeroGdt

/-- The arguments of a call of `install_idt_handler`. -/
structure IdtCall where
  num : ℕ
  num_lt : num < 256
  func : BitVec 64

/-- The table after a sequence of calls, from a zeroed one. -/
def idtAfter (calls : List IdtCall) : ℕ → InterruptDescriptor64 :=
  calls.foldl (fun idt c => installIdtHandler idt c.num c.func) zeroIdt

/-- The entry `w` says what the last call on its slot asked for; without a call it is zero. -/
def GdtAsked (w : BitVec 64) : Option GdtCall → Prop
  | none => w = 0
  | some c =>
    (SegmentDescriptor.decode w).base.toNat = c.base.toNat ∧
      (SegmentDescriptor.decode w).limit.toNat = c.limit.toNat % 2 ^ 20 ∧
      (SegmentDescriptor.decode w).access = c.access ∧
      (SegmentDescriptor.decode w).flags = c.granularity.extractLsb' 4 4

/-- The same for a gate. -/
def IdtAsked (w : BitVec 128) : Option IdtCall → Prop
  | none => w = 0
  | some c => GateDescriptor.decode w = ⟨c.func, 0x08, 0, 0, 0xEF, 0⟩

theorem gdtAsked_gdtAfter (calls : List GdtCall) (i : ℕ) :
    GdtAsked (gdtAfter calls i).word (lastAt GdtCall.num i calls) := by
  have hentry : gdtAfter calls i = (lastAt GdtCall.num i calls).elim (zeroGdt i)
      fun c => gdtGate c.base c.limit c.access c.granularity := writes_apply zeroGdt calls i
  rw [hentry]
  cases lastAt GdtCall.num i calls with
  | none => exact (by decide : (zeroGdt 0).word = 0)
  | some c =>
    rw [Option.elim_some, GdtAsked, decode_gdtGate]
    refine ⟨?_, ?_, rfl, rfl⟩
    · exact (BitVec.toNat_setWidth ..).trans (Nat.mod_eq_of_lt c.base_lt)
    · exact BitVec.toNat_setWidth ..

theorem idtAsked_idtAfter (calls : List IdtCall) (i : ℕ) :
    IdtAsked (idtAfter calls i).word (lastAt IdtCall.num i calls) := by
  have hentry : idtAfter calls i = (lastAt IdtCall.num i calls).elim (zeroIdt i)
      fun c => installIdtHandler zeroIdt 0 c.func 0 := writes_apply zeroIdt calls i
  rw [hentry]
  cases lastAt IdtCall.num i calls with
  | none => exact (by decide : (zeroIdt 0).word = 0)
  | some c => exact decode_idtGate c.func zeroIdt 0

/-- The slots of the task state segment: the call for slot 6 is the last one, and slot 7 keeps what
the `memset` left. -/
theorem setupGdt_tss (gdtAddress tssAddress : BitVec 64) :
    (setupGdt gdtAddress tssAddress).gdt 6
        = gdtGate tssAddress (BitVec.ofNat 64 sizeofTss) 0xE9 0x00 ∧
      (setupGdt gdtAddress tssAddress).gdt 7 = zeroGdt 7 :=
  ⟨rfl, rfl⟩

theorem systemBase_setupGdt (gdtAddress tssAddress : BitVec 64) :
    systemBase ((setupGdt gdtAddress tssAddress).gdt 6).word
        ((setupGdt gdtAddress tssAddress).gdt 7).word
      = (tssAddress.setWidth 32).setWidth 64 := by
  obtain ⟨htss, hhigh⟩ := setupGdt_tss gdtAddress tssAddress
  have hzero : (zeroGdt 7).word = 0 := by decide
  rw [systemBase, htss, hhigh, decode_gdtGate, hzero]
  ext i hi
  simp only [BitVec.getElem_append, BitVec.getElem_extractLsb', BitVec.getElem_setWidth,
    BitVec.getLsbD_setWidth]
  grind

/-- **The tables decode to what was asked for**, after every sequence of calls, and the 16 bytes in
slots 6 and 7 of `gdt` have the address of `tss` as their base, for every address below 4 GB. -/
theorem descriptorTables_decode :
    (∀ calls i, GdtAsked (gdtAfter calls i).word (lastAt GdtCall.num i calls)) ∧
      (∀ calls i, IdtAsked (idtAfter calls i).word (lastAt IdtCall.num i calls)) ∧
      ∀ (gdtAddress : BitVec 64) (tss : {a : BitVec 64 // a.toNat < 2 ^ 32}),
        systemBase ((setupGdt gdtAddress tss).gdt 6).word ((setupGdt gdtAddress tss).gdt 7).word
          = tss := by
  refine ⟨gdtAsked_gdtAfter, idtAsked_idtAfter, fun gdtAddress tss => ?_⟩
  rw [systemBase_setupGdt]
  refine BitVec.eq_of_toNat_eq ?_
  rw [BitVec.toNat_setWidth, BitVec.toNat_setWidth, Nat.mod_eq_of_lt tss.2,
    Nat.mod_eq_of_lt tss.1.isLt]

end FrogOS
