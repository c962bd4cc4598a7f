import FrogOS.Stage2Loader

/-!
# The routines of stage 2

What the routines of the loader do, in a form that composes over the stack. `Performs` says of a
routine what it leaves behind, from whatever state it is entered in: only memory off the stack is
described, and the words of the stack in use are kept. A pair of a push and a pop, or a call, around
a routine that does this does it as well, with eight more bytes of the stack.

## Main definitions

* `Loader.Performs`
* `ProgramHeader`, `ProgramHeader.process` — a header, and memory after it has been processed

## Main results

* `Performs.saved`, `Performs.call` — the rules for the stack
* `performs_cls`, `performs_processHeaderEntry`, `performs_writeString`
-/

namespace FrogOS

open ByteMemory Paging

/-- Where the boot sector puts the stack, as far down as stage 2 uses it. -/
def stage2Stack : Set ℕ := Set.Ico 0x8fd0 0x9000

def pageTables : Set ℕ := Set.Ico 0x1000 0x4000

/-- The tables of stage 2 map the first gigabyte to itself. -/
abbrev FirstGigabyte (m : ByteMemory) : Prop := IdentityOn 0x1000 pageTables (2 ^ 30) m

theorem FirstGigabyte.of_eqOn {m m' : ByteMemory} (h : FirstGigabyte m)
    (hm : Set.EqOn m' m stage2Stackᶜ) : FirstGigabyte m' := by
  refine h.congr fun x hx => hm fun hstack => ?_
  have h1 : x < 0x4000 := hx.2
  have h2 : 0x8fd0 ≤ x := hstack.1
  omega

/-- What the loop leaves depends on the tables only. -/
theorem Mapped.congr {mem m' : ByteMemory} {t : Stage2} (h : Mapped (clearedTables mem) 512 t)
    (hm : Set.EqOn m' t.mem pageTables) : Mapped (clearedTables m') 512 { t with mem := m' } := by
  obtain ⟨heax, hecx, hedi, hentry, hframe⟩ := h
  refine ⟨heax, hecx, hedi, fun i hi => ?_, fun x hx => ?_⟩
  · rw [← hentry i hi]
    exact congrArg _ (load32_congr fun j hj => hm ⟨by omega, by omega⟩)
  · by_cases hin : 0x1000 ≤ x ∧ x < 0x3000
    · have hzero : memsetd m' 0x1000 0 0x800 x = memsetd mem 0x1000 0 0x800 x := by
        rw [memsetd_zero_of_inside hin.1 (by omega), memsetd_zero_of_inside hin.1 (by omega)]
      have hcleared : clearedTables m' x = clearedTables mem x :=
        storeBytes_congr (storeBytes_congr hzero)
      rw [hcleared, ← hframe x hx]
      exact hm ⟨hin.1, by omega⟩
    · rw [clearedTables, store16_of_outside (by omega), store16_of_outside (by omega),
        memsetd_of_outside (by omega)]

/-- The upper half of an entry is what memory held there before. -/
theorem Mapped.upper_eq {mem m' : ByteMemory} {t : Stage2} (h : Mapped (clearedTables mem) 512 t)
    (hm : Set.EqOn m' t.mem pageTables) {i : ℕ} (hi : i < 512) :
    load32 m' (0x3004 + 8 * i) = load32 mem (0x3004 + 8 * i) := by
  refine load32_congr fun j hj => ?_
  rw [hm ⟨by omega, by omega⟩, h.frame _ fun k hk => by omega, clearedTables,
    store16_of_outside (by omega), store16_of_outside (by omega), memsetd_of_outside (by omega)]

/-- The tables of stage 2 are good for the loader if the address bits in the upper halves of the
entries were zero. -/
theorem Mapped.firstGigabyte {mem : ByteMemory} {t : Stage2} (h : Mapped (clearedTables mem) 512 t)
    (hzero : ∀ i < 512, (load32 mem (0x3004 + 8 * i)).toNat % 2 ^ 20 = 0) :
    FirstGigabyte t.mem := by
  refine ⟨by omega, fun m' hm a ha => ?_⟩
  have hwalk := (h.congr hm).walk_of_lt ha
  dsimp only at hwalk
  rw [hwalk, h.upper_eq hm (by omega), hzero _ (by omega), Nat.zero_mul, Nat.zero_add,
    Option.map_some]

/-- Whatever memory holds outside the tables, addresses beyond the first gigabyte are not mapped. -/
theorem Mapped.translate_eq_none {mem m' : ByteMemory} {t : Stage2}
    (h : Mapped (clearedTables mem) 512 t) (hm : Set.EqOn m' t.mem pageTables) {a : BitVec 64}
    (ha : 2 ^ 30 ≤ a.toNat) : Paging.translate 0x1000 m' a = none := by
  rw [Paging.translate]
  split
  · next hcanon => rw [(h.congr hm).walk_of_ge ha hcanon, Option.map_none]
  · rfl

/-- Addresses between the tables and the end of what they map. -/
theorem Ico_subset_mapped {a n : ℕ} (ha : 0x4000 ≤ a) (hn : a + n ≤ 2 ^ 30) :
    Set.Ico a (a + n) ⊆ Set.Iio (2 ^ 30) \ pageTables := by
  intro x hx
  have hle := hx.1
  have hlt := hx.2
  refine ⟨?_, fun ht => ?_⟩
  · rw [Set.mem_Iio]
    omega
  · have := ht.2
    omega

/-- What the loader reads of an `Elf64_Phdr`. -/
structure ProgramHeader where
  p_type : BitVec 32
  p_offset : BitVec 64
  p_paddr : BitVec 64
  p_filesz : BitVec 64
  p_memsz : BitVec 64
  deriving DecidableEq

/-- The header at address `a`. It is 56 bytes long. -/
def headerAt (m : ByteMemory) (a : ℕ) : ProgramHeader :=
  ⟨load32 m a, load64 m (a + 8), load64 m (a + 24), load64 m (a + 32), load64 m (a + 40)⟩

theorem headerAt_congr {m m' : ByteMemory} {a : ℕ}
    (h : Set.EqOn m' m (Set.Ico a (a + 56))) : headerAt m' a = headerAt m a := by
  have hload : ∀ k, k + 8 ≤ 56 → load64 m' (a + k) = load64 m (a + k) := fun k hk =>
    load64_congr fun i hi => h ⟨by omega, by omega⟩
  have htype : load32 m' a = load32 m a := load32_congr fun i hi => h ⟨by omega, by omega⟩
  rw [headerAt, headerAt, htype, hload 8 (by omega), hload 24 (by omega), hload 32 (by omega),
    hload 40 (by omega)]

namespace ProgramHeader

variable (p : ProgramHeader)

/-- Where the segment is loaded. -/
def target : Set ℕ := Set.Ico p.p_paddr.toNat (p.p_paddr.toNat + p.p_memsz.toNat)

/-- Where its bytes are in the file image. -/
def file : Set ℕ :=
  Set.Ico (0x402000 + p.p_offset.toNat) (0x402000 + p.p_offset.toNat + p.p_filesz.toNat)

/-- Memory with the segment loaded. -/
def load (m : ByteMemory) : ByteMemory := fun x =>
  if p.p_paddr.toNat ≤ x ∧ x < p.p_paddr.toNat + p.p_memsz.toNat then
    if x < p.p_paddr.toNat + p.p_filesz.toNat then
      m (0x402000 + p.p_offset.toNat + (x - p.p_paddr.toNat))
    else 0
  else m x

/-- Memory after the header has been processed. -/
def process (m : ByteMemory) : ByteMemory := if p.p_type = 1 then p.load m else m

/-- The segment can be loaded. -/
structure Fits (p : ProgramHeader) : Prop where
  filesz : p.p_filesz.toNat ≤ p.p_memsz.toNat
  file : p.file ⊆ Set.Iio (2 ^ 30)
  target : p.target ⊆ Set.Iio (2 ^ 30) \ pageTables
  apart : Disjoint p.target p.file

variable {p} {m : ByteMemory}

theorem load_of_notMem {x : ℕ} (hx : x ∉ p.target) : p.load m x = m x := if_neg hx

theorem process_of_notMem {x : ℕ} (hx : p.p_type = 1 → x ∉ p.target) : p.process m x = m x := by
  rw [process]
  split
  · next h1 => exact load_of_notMem (hx h1)
  · rfl

theorem load_of_lt {i : ℕ} (hp : p.p_filesz.toNat ≤ p.p_memsz.toNat) (hi : i < p.p_filesz.toNat) :
    p.load m (p.p_paddr.toNat + i) = m (0x402000 + p.p_offset.toNat + i) := by
  rw [load, if_pos (by omega), if_pos (by omega), Nat.add_sub_cancel_left]

theorem load_of_ge {i : ℕ} (hi : p.p_filesz.toNat ≤ i) (hi' : i < p.p_memsz.toNat) :
    p.load m (p.p_paddr.toNat + i) = 0 := by
  rw [load, if_pos (by omega), if_neg (by omega)]

/-- Zeroing the target and copying the file bytes loads the segment. -/
theorem Fits.memcpy_eq_load (hp : p.Fits) (m : ByteMemory) :
    memcpy (storeBytes m p.p_paddr.toNat (List.replicate p.p_memsz.toNat 0)) p.p_paddr.toNat
      (0x402000 + p.p_offset.toNat) p.p_filesz.toNat = p.load m := by
  have hfilesz := hp.filesz
  funext x
  by_cases hin : x ∈ p.target
  · obtain ⟨i, rfl⟩ := Nat.exists_eq_add_of_le hin.1
    have hlt : i < p.p_memsz.toNat := by
      have := hin.2
      omega
    by_cases hi : i < p.p_filesz.toNat
    · -- the two ranges being disjoint, one lies before the other
      have hdisjoint : p.p_paddr.toNat + p.p_filesz.toNat ≤ 0x402000 + p.p_offset.toNat ∨
          0x402000 + p.p_offset.toNat + p.p_filesz.toNat ≤ p.p_paddr.toNat := by
        by_contra hmeet
        push Not at hmeet
        have hmax : max p.p_paddr.toNat (0x402000 + p.p_offset.toNat) ∈ p.target :=
          ⟨by omega, by omega⟩
        exact Set.disjoint_left.mp hp.apart hmax ⟨by omega, by omega⟩
      have hsrc : 0x402000 + p.p_offset.toNat + i ∉ p.target := fun h =>
        Set.disjoint_left.mp hp.apart h ⟨by omega, by omega⟩
      rw [load_of_lt hfilesz hi, memcpy_of_disjoint hdisjoint hi, storeBytes_of_outside]
      rw [List.length_replicate]
      by_contra hmem
      exact hsrc ⟨by omega, by omega⟩
    · rw [load_of_ge (by omega) hlt, memcpy_of_outside (by omega),
        storeBytes_of_inside (by rw [List.length_replicate]; exact hlt), List.getElem_replicate]
  · have hout : x < p.p_paddr.toNat ∨ p.p_paddr.toNat + p.p_memsz.toNat ≤ x := by
      by_contra hmem
      exact hin ⟨by omega, by omega⟩
    rw [load_of_notMem hin, memcpy_of_outside (by omega),
      storeBytes_of_outside (by rw [List.length_replicate]; exact hout)]

end ProgramHeader

namespace Loader

/-- A state a routine is entered in: the registers hold `ρ`, memory off the stack is `m`, and `d`
bytes of the stack are free. -/
structure Enters (ρ : LoaderReg → BitVec 64) (m : ByteMemory) (d : ℕ) (s : Loader) : Prop where
  reg : ∀ r ≠ .rsp, s.reg r = ρ r
  mem : Set.EqOn s.mem m stage2Stackᶜ
  room : 0x8fd0 + d ≤ (s.reg .rsp).toNat
  top : (s.reg .rsp).toNat ≤ 0x9000

/-- What a routine entered in `s` leaves in `t`: registers outside of `C` are kept, as are the words
of the stack in use, and memory satisfies `Q`. -/
structure Leaves (ρ : LoaderReg → BitVec 64) (C : Set LoaderReg) (Q : ByteMemory → Prop)
    (s t : Loader) : Prop where
  reg : ∀ r ≠ .rsp, r ∉ C → t.reg r = ρ r
  rsp : t.reg .rsp = s.reg .rsp
  mem : Q t.mem
  stack : Set.EqOn t.mem s.mem (Set.Ico (s.reg .rsp).toNat 0x9000)

/-- The routine `f` returns from every such state and leaves this. -/
def Performs (ρ : LoaderReg → BitVec 64) (m : ByteMemory) (d : ℕ) (f : Loader → Option Loader)
    (C : Set LoaderReg) (Q : ByteMemory → Prop) : Prop :=
  ∀ s, Enters ρ m d s → ∃ t, f s = some t ∧ Leaves ρ C Q s t

/-- The routine `f` does not return from any such state. -/
def Faults (ρ : LoaderReg → BitVec 64) (m : ByteMemory) (d : ℕ) (f : Loader → Option Loader) :
    Prop :=
  ∀ s, Enters ρ m d s → f s = none

variable {ρ : LoaderReg → BitVec 64} {m : ByteMemory} {d : ℕ} {f : Loader → Option Loader}
  {C : Set LoaderReg} {Q : ByteMemory → Prop} {s t : Loader} {r : LoaderReg} {a v : BitVec 64}

@[simp] theorem reg_set (s : Loader) (r : LoaderReg) (v : BitVec 64) :
    (s.set r v).reg = Function.update s.reg r v := rfl

@[simp] theorem mem_set (s : Loader) (r : LoaderReg) (v : BitVec 64) : (s.set r v).mem = s.mem :=
  rfl

/-! ### The stack -/

theorem write_eq (hm : FirstGigabyte s.mem) {bs : List (BitVec 8)}
    (ha : Set.Ico a.toNat (a.toNat + bs.length) ⊆ Set.Iio (2 ^ 30) \ pageTables) :
    s.write a bs = some { s with mem := storeBytes s.mem a.toNat bs } := by
  rw [write, hm.writeBytes_eq ha, Option.map_some]

/-- The state after a push. -/
def pushed (s : Loader) (v : BitVec 64) : Loader where
  reg := Function.update s.reg .rsp (s.reg .rsp - 8)
  mem := store64 s.mem ((s.reg .rsp).toNat - 8) v

@[simp] theorem pushed_rsp (s : Loader) (v : BitVec 64) :
    (s.pushed v).reg .rsp = s.reg .rsp - 8 := by
  simp [pushed]

theorem Enters.toNat_rsp (hs : Enters ρ m (d + 8) s) :
    (s.reg .rsp - 8).toNat = (s.reg .rsp).toNat - 8 := by
  have hroom := hs.room
  have h8 : (8 : BitVec 64).toNat = 8 := rfl
  rw [BitVec.toNat_sub, h8]
  omega

theorem Enters.push_eq (hs : Enters ρ m (d + 8) s) (hm : FirstGigabyte m) (v : BitVec 64) :
    s.push v = some (s.pushed v) := by
  have hroom := hs.room
  have htop := hs.top
  have hstack : Set.Ico (s.reg .rsp - 8).toNat ((s.reg .rsp - 8).toNat + (bytes64 v).length)
      ⊆ Set.Iio (2 ^ 30) \ pageTables := by
    rw [hs.toNat_rsp, length_bytes64]
    exact Ico_subset_mapped (by omega) (by omega)
  have hm' : FirstGigabyte (s.set .rsp (s.reg .rsp - 8)).mem := hm.of_eqOn hs.mem
  rw [push, write_eq hm' hstack, hs.toNat_rsp]
  rfl

theorem Enters.pushed (hs : Enters ρ m (d + 8) s) (v : BitVec 64) : Enters ρ m d (s.pushed v) := by
  have hroom := hs.room
  have htop := hs.top
  have hrsp : ((s.pushed v).reg .rsp).toNat = (s.reg .rsp).toNat - 8 := by
    rw [pushed_rsp, hs.toNat_rsp]
  refine ⟨fun r hr => ?_, fun x hx => ?_, by omega, by omega⟩
  · exact (Function.update_of_ne hr _ _).trans (hs.reg r hr)
  · have hx' : x < 0x8fd0 ∨ 0x9000 ≤ x := by
      by_contra hin
      exact hx ⟨by omega, by omega⟩
    exact (store64_of_outside (by omega)).trans (hs.mem hx)

/-- What a word below a routine's part of the stack is after it: `f` is entered after `v` has been
pushed, and returns with `v` on top of the stack. -/
theorem Performs.pushed (h : Performs ρ m d f C Q) (hm : FirstGigabyte m)
    (hQ : ∀ mem, Q mem → FirstGigabyte mem) (hs : Enters ρ m (d + 8) s) (v : BitVec 64) :
    ∃ t, s.push v = some (s.pushed v) ∧ f (s.pushed v) = some t ∧
      t.read64 (t.reg .rsp) = some v ∧ Leaves ρ C Q s (t.set .rsp (t.reg .rsp + 8)) := by
  have hroom := hs.room
  have htop := hs.top
  obtain ⟨t, ht, hreg, hrsp, hmem, hstack⟩ := h _ (hs.pushed v)
  have hsp : t.reg .rsp = s.reg .rsp - 8 := hrsp.trans (pushed_rsp s v)
  have hspNat : (t.reg .rsp).toNat = (s.reg .rsp).toNat - 8 := by rw [hsp, hs.toNat_rsp]
  rw [← hrsp, hspNat] at hstack
  refine ⟨t, hs.push_eq hm v, ht, ?_, fun r hr hC => ?_, ?_, hmem, fun x hx => ?_⟩
  · have hload : load64 t.mem (t.reg .rsp).toNat = v := by
      rw [hspNat, ← load64_store64 s.mem ((s.reg .rsp).toNat - 8) v]
      exact load64_congr fun i hi => hstack ⟨by omega, by omega⟩
    rw [read64, (hQ _ hmem).read64_eq (by omega), hload]
  · exact (Function.update_of_ne hr _ _).trans (hreg r hr hC)
  · rw [reg_set, Function.update_self, hsp, BitVec.sub_add_cancel]
  · have hlow : (s.reg .rsp).toNat ≤ x := hx.1
    have hkeep : t.mem x = (s.pushed v).mem x := hstack ⟨by omega, hx.2⟩
    exact hkeep.trans (store64_of_outside (by omega))

theorem Performs.saved (h : Performs ρ m d f C Q) (hm : FirstGigabyte m)
    (hQ : ∀ mem, Q mem → FirstGigabyte mem) (hr : r ≠ .rsp) :
    Performs ρ m (d + 8) (saved r f) (C \ {r}) Q := by
  intro s hs
  obtain ⟨t, hpush, ht, hread, hleaves⟩ := h.pushed hm hQ hs (s.reg r)
  refine ⟨(t.set .rsp (t.reg .rsp + 8)).set r (s.reg r), ?_, fun q hq hC => ?_, ?_, hleaves.mem,
    hleaves.stack⟩
  · simp only [Loader.saved, hpush, ht, pop, hread, Option.bind_eq_bind, Option.bind_some]
  · rw [reg_set]
    by_cases heq : q = r
    · rw [heq, Function.update_self, hs.reg r hr]
    · rw [Function.update_of_ne heq]
      exact hleaves.reg q hq fun hin => hC ⟨hin, heq⟩
  · rw [reg_set, Function.update_of_ne hr.symm]
    exact hleaves.rsp

theorem Performs.call (h : Performs ρ m d f C Q) (hm : FirstGigabyte m)
    (hQ : ∀ mem, Q mem → FirstGigabyte mem) (ret : BitVec 64) :
    Performs ρ m (d + 8) (call ret f) C Q := by
  intro s hs
  obtain ⟨t, hpush, ht, hread, hleaves⟩ := h.pushed hm hQ hs ret
  refine ⟨_, ?_, hleaves⟩
  simp only [Loader.call, hpush, ht, hread, Option.bind_eq_bind, Option.bind_some, if_pos]

theorem Performs.mono {C' : Set LoaderReg} (h : Performs ρ m d f C Q) (hC : C ⊆ C') :
    Performs ρ m d f C' Q := by
  intro s hs
  obtain ⟨t, ht, hleaves⟩ := h s hs
  exact ⟨t, ht, fun r hr hnot => hleaves.reg r hr fun hin => hnot (hC hin), hleaves.rsp,
    hleaves.mem, hleaves.stack⟩

theorem Faults.saved (h : Faults ρ m d f) (hm : FirstGigabyte m) :
    Faults ρ m (d + 8) (saved r f) := by
  intro s hs
  simp only [Loader.saved, hs.push_eq hm, h _ (hs.pushed _), Option.bind_eq_bind,
    Option.bind_some, Option.bind_none]

theorem Faults.call (h : Faults ρ m d f) (hm : FirstGigabyte m) (ret : BitVec 64) :
    Faults ρ m (d + 8) (call ret f) := by
  intro s hs
  simp only [Loader.call, hs.push_eq hm, h _ (hs.pushed _), Option.bind_eq_bind,
    Option.bind_some, Option.bind_none]

/-- A state at the top of the stack. -/
theorem enters_top (hrsp : s.reg .rsp = 0x9000) (hd : d ≤ 48) : Enters s.reg s.mem d s := by
  have htop : (s.reg .rsp).toNat = 0x9000 := by
    rw [hrsp]
    rfl
  exact ⟨fun r _ => rfl, fun x _ => rfl, by omega, by omega⟩

/-- The rule at the top of the stack, where a routine keeps all registers. -/
theorem Performs.apply (h : Performs s.reg s.mem d f ∅ Q) (hrsp : s.reg .rsp = 0x9000)
    (hd : d ≤ 48) : ∃ mem, f s = some ⟨s.reg, mem⟩ ∧ Q mem := by
  obtain ⟨t, ht, hleaves⟩ := h s (enters_top hrsp hd)
  have hreg : t.reg = s.reg := by
    funext r
    by_cases hr : r = .rsp
    · rw [hr, hleaves.rsp]
    · exact hleaves.reg r hr (Set.notMem_empty r)
  refine ⟨t.mem, ?_, hleaves.mem⟩
  rw [ht, ← hreg]

/-! ### String instructions and `cls` -/

/-- With the direction flag clear. -/
theorem repStos_eq {n p : ℕ} (bs : List (BitVec 8)) (hm : FirstGigabyte s.mem)
    (hdf : (s.reg .rflags).getLsbD 10 = false) (hn : (s.reg .rcx).toNat = n)
    (hp : (s.reg .rdi).toNat = p) (hbs : bs.length < 2 ^ 64)
    (ha : Set.Ico p (p + n * bs.length) ⊆ Set.Iio (2 ^ 30) \ pageTables) :
    ∃ rdi, s.repStos bs = some
      ⟨Function.update (Function.update s.reg .rdi rdi) .rcx 0,
        storeBytes s.mem p (List.replicate n bs).flatten⟩ := by
  subst hn hp
  have hstride : s.stride bs.length = bs.length := by
    rw [stride, hdf]
    rfl
  have hlen : (bs.length : BitVec 64).toNat = bs.length := by
    rw [BitVec.natCast_eq_ofNat, BitVec.toNat_ofNat, Nat.mod_eq_of_lt hbs]
  refine ⟨s.reg .rdi + s.reg .rcx * bs.length, ?_⟩
  simp only [repStos, hstride, hm.fill_eq hlen ha, Option.bind_eq_bind, Option.bind_some]
  rfl

theorem repMovsb_eq {n p q : ℕ} (hm : FirstGigabyte s.mem)
    (hdf : (s.reg .rflags).getLsbD 10 = false) (hn : (s.reg .rcx).toNat = n)
    (hp : (s.reg .rdi).toNat = p) (hq : (s.reg .rsi).toNat = q)
    (hsrc : Set.Ico q (q + n) ⊆ Set.Iio (2 ^ 30))
    (hdest : Set.Ico p (p + n) ⊆ Set.Iio (2 ^ 30) \ pageTables) :
    ∃ rdi rsi, s.repMovsb = some
      ⟨Function.update (Function.update (Function.update s.reg .rdi rdi) .rsi rsi) .rcx 0,
        memcpy s.mem p q n⟩ := by
  subst hn hp hq
  have hstride : s.stride 1 = 1 := by
    rw [stride, hdf]
    rfl
  refine ⟨s.reg .rdi + s.reg .rcx * 1, s.reg .rsi + s.reg .rcx * 1, ?_⟩
  simp only [repMovsb, hstride, hm.copy_eq hsrc hdest, Option.bind_eq_bind, Option.bind_some]
  rfl

/-- What `cls` leaves: `80 * 25` elements of four bytes. -/
def cleared (m : ByteMemory) : ByteMemory :=
  storeBytes m 0xb8000 (List.replicate (80 * 25) (bytes32 0x0f20)).flatten

/-- The part of the text memory that `cls` writes. -/
def clsArea : Set ℕ := Set.Ico 0xb8000 (0xb8000 + 4 * (80 * 25))

theorem cleared_of_notMem {x : ℕ} (hx : x ∉ clsArea) : cleared m x = m x := by
  refine storeBytes_of_outside ?_
  rw [List.length_flatten, List.map_replicate, List.sum_replicate_nat, length_bytes32]
  by_contra hin
  exact hx ⟨by omega, by omega⟩

theorem cleared_congr {m' : ByteMemory} {x : ℕ} (h : m x = m' x) : cleared m x = cleared m' x := by
  rw [cleared, cleared]
  exact storeBytes_congr h

theorem performs_clsBody (hm : FirstGigabyte m) (hdf : (ρ .rflags).getLsbD 10 = false) :
    Performs ρ m 0 clsBody {.rdi, .rax, .rcx}
      fun mem => Set.EqOn mem (cleared m) stage2Stackᶜ := by
  intro s hs
  have hm' := hm.of_eqOn hs.mem
  have htop := hs.top
  have harea : Set.Ico 0xb8000 (0xb8000 + 80 * 25 * (bytes32 0x0f20).length)
      ⊆ Set.Iio (2 ^ 30) \ pageTables := by
    rw [length_bytes32]
    exact Ico_subset_mapped (by omega) (by omega)
  obtain ⟨rdi, hrep⟩ := repStos_eq (n := 80 * 25) (p := 0xb8000)
    (s := ((s.set32 .rdi 0xb8000).set32 .rax 0x0f20).set32 .rcx (80 * 25)) _
    hm' ((congrArg (·.getLsbD 10) (hs.reg .rflags (by decide))).trans hdf) rfl rfl
    (by rw [length_bytes32]; omega) harea
  rw [set32, set32, set32, mem_set, mem_set, mem_set, ← cleared] at hrep
  refine ⟨_, hrep, fun r hr hC => ?_, rfl, fun x hx => ?_, fun x hx => ?_⟩
  · simp only [Set.mem_insert_iff, Set.mem_singleton_iff, not_or] at hC
    obtain ⟨hrdi, hrax, hrcx⟩ := hC
    simp only [reg_set, Function.update_of_ne hrdi, Function.update_of_ne hrax,
      Function.update_of_ne hrcx]
    exact hs.reg r hr
  · dsimp only
    exact cleared_congr (hs.mem hx)
  · have hnot : x ∉ clsArea := fun hin => by
      have := hx.2
      have := hin.1
      omega
    dsimp only
    exact cleared_of_notMem hnot

theorem performs_cls (hm : FirstGigabyte m) (hdf : (ρ .rflags).getLsbD 10 = false) :
    Performs ρ m 24 cls ∅ fun mem => Set.EqOn mem (cleared m) stage2Stackᶜ := by
  have hcleared : FirstGigabyte (cleared m) := hm.congr fun x hx => cleared_of_notMem fun hin => by
    have := hx.2
    have := hin.1
    omega
  have hQ : ∀ mem, Set.EqOn mem (cleared m) stage2Stackᶜ → FirstGigabyte mem := fun mem =>
    hcleared.of_eqOn
  refine ((((performs_clsBody hm hdf).saved hm hQ ?_).saved hm hQ ?_).saved hm hQ ?_).mono ?_
  · decide
  · decide
  · decide
  · intro r
    cases r <;> simp

/-! ### `process_header_entry` -/

theorem read64_eq {k : BitVec 64} (hm : FirstGigabyte s.mem)
    (ha : a.toNat + k.toNat + 8 ≤ 2 ^ 30) :
    s.read64 (a + k) = some (load64 s.mem (a.toNat + k.toNat)) := by
  have hadd : (a + k).toNat = a.toNat + k.toNat := hm.toNat_add (by omega)
  rw [read64, hm.read64_eq (by omega), hadd]

/-- What reading the fields of a header gives. -/
theorem read_header {p : ProgramHeader} (hm : FirstGigabyte s.mem) (ha : a.toNat + 56 ≤ 2 ^ 30)
    (hp : headerAt s.mem a.toNat = p) :
    s.read32 a = some p.p_type ∧ s.read64 (a + 8) = some p.p_offset ∧
      s.read64 (a + 24) = some p.p_paddr ∧ s.read64 (a + 32) = some p.p_filesz ∧
      s.read64 (a + 40) = some p.p_memsz := by
  subst hp
  refine ⟨?_, read64_eq hm ?_, read64_eq hm ?_, read64_eq hm ?_, read64_eq hm ?_⟩
  · rw [read32, hm.read32_eq (by omega), headerAt]
  · change a.toNat + 8 + 8 ≤ 2 ^ 30
    omega
  · change a.toNat + 24 + 8 ≤ 2 ^ 30
    omega
  · change a.toNat + 32 + 8 ≤ 2 ^ 30
    omega
  · change a.toNat + 40 + 8 ≤ 2 ^ 30
    omega

/-- The registers `process_header_entry` saves. -/
def headerRegs : Set LoaderReg := {.rflags, .rax, .rcx, .rsi, .rdi}

theorem getLsbD_cld (s : Loader) : (s.cld.reg .rflags).getLsbD 10 = false := by
  simp [cld]

/-- A header whose segment fits and does not cover the header itself. -/
theorem loadSegment_eq {p : ProgramHeader} (hm : FirstGigabyte s.mem)
    (ha : (s.reg .rsi).toNat + 56 ≤ 2 ^ 30) (hp : headerAt s.mem (s.reg .rsi).toNat = p)
    (hfits : p.Fits)
    (hhead : Disjoint (Set.Ico (s.reg .rsi).toNat ((s.reg .rsi).toNat + 56)) p.target) :
    ∃ reg, s.loadSegment = some ⟨reg, p.load s.mem⟩ ∧ ∀ r ∉ headerRegs, reg r = s.reg r := by
  obtain ⟨-, -, haddr, -, hmemsz⟩ := read_header hm ha hp
  have hfilesz := hfits.filesz
  have htarget := hfits.target
  -- the target is cleared
  let zeroed := storeBytes s.mem p.p_paddr.toNat (List.replicate p.p_memsz.toNat 0)
  obtain ⟨rdi, hstos⟩ := repStos_eq (n := p.p_memsz.toNat) (p := p.p_paddr.toNat) [0]
    (s := ((s.cld.set .rdi p.p_paddr).set .rcx p.p_memsz).set .rax 0) hm (getLsbD_cld s) rfl rfl
    (by decide) (by rw [List.length_singleton, Nat.mul_one]; exact htarget)
  rw [List.flatten_replicate_singleton] at hstos
  -- the header is still there
  have hzeroed : Set.EqOn zeroed s.mem p.targetᶜ := fun x hx => by
    refine storeBytes_of_outside ?_
    rw [List.length_replicate]
    by_contra hin
    exact hx ⟨by omega, by omega⟩
  have hm' : FirstGigabyte zeroed := hm.congr fun x hx => hzeroed fun hin => (htarget hin).2 hx
  have hp' : headerAt zeroed (s.reg .rsi).toNat = p := by
    rw [headerAt_congr fun x hx => hzeroed fun hin => Set.disjoint_left.mp hhead hx hin, hp]
  let s' : Loader := ⟨Function.update (Function.update (((s.cld.set .rdi p.p_paddr).set .rcx
    p.p_memsz).set .rax 0).reg .rdi rdi) .rcx 0, zeroed⟩
  obtain ⟨-, hoffset, haddr', hsize, -⟩ := read_header (s := s') hm' ha hp'
  -- the file bytes are copied, if there are any
  obtain ⟨src, hsum⟩ : ∃ src, src = p.p_offset + 0x402000 := ⟨_, rfl⟩
  have hq : p.p_filesz.toNat = 0 ∨ src.toNat = 0x402000 + p.p_offset.toNat := by
    refine (Nat.eq_zero_or_pos _).imp_right fun hpos => ?_
    have hfirst : 0x402000 + p.p_offset.toNat < 2 ^ 30 := hfits.file ⟨le_rfl, by omega⟩
    have hstart : (0x402000 : BitVec 64).toNat = 0x402000 := rfl
    rw [hsum, BitVec.toNat_add_of_lt (by omega), hstart, Nat.add_comm]
  have hsrc : Set.Ico src.toNat (src.toNat + p.p_filesz.toNat) ⊆ Set.Iio (2 ^ 30) := by
    rcases hq with h0 | hq
    · rw [h0, Nat.add_zero, Set.Ico_self]
      exact Set.empty_subset _
    · rw [hq]
      exact hfits.file
  have hdest : Set.Ico p.p_paddr.toNat (p.p_paddr.toNat + p.p_filesz.toNat)
      ⊆ Set.Iio (2 ^ 30) \ pageTables := fun x hx => htarget ⟨hx.1, by have := hx.2; omega⟩
  let s'' := ((((s'.set .rax p.p_offset).set .rax src).set .rcx p.p_filesz).set .rdi
    p.p_paddr).set .rsi src
  obtain ⟨rdi', rsi', hmovs⟩ := repMovsb_eq (s := s'') hm' (getLsbD_cld s) rfl rfl rfl hsrc hdest
  have hload : memcpy zeroed p.p_paddr.toNat src.toNat p.p_filesz.toNat = p.load s.mem := by
    rw [← hfits.memcpy_eq_load]
    rcases hq with h0 | hq
    · rw [h0, memcpy, memcpy]
    · rw [hq]
  refine ⟨Function.update (Function.update (Function.update s''.reg .rdi rdi') .rsi rsi') .rcx 0,
    ?_, fun r hr => ?_⟩
  · refine Option.bind_eq_some_iff.mpr ⟨_, haddr, ?_⟩
    refine Option.bind_eq_some_iff.mpr ⟨_, hmemsz, ?_⟩
    refine Option.bind_eq_some_iff.mpr ⟨_, hstos, ?_⟩
    refine Option.bind_eq_some_iff.mpr ⟨_, hoffset, ?_⟩
    simp only [reg_set, Function.update_self, ← hsum]
    refine Option.bind_eq_some_iff.mpr ⟨_, hsize, ?_⟩
    refine Option.bind_eq_some_iff.mpr ⟨_, haddr', ?_⟩
    rw [← hload]
    exact hmovs
  · simp only [headerRegs, Set.mem_insert_iff, Set.mem_singleton_iff, not_or] at hr
    obtain ⟨hflags, hrax, hrcx, hrsi, hrdi⟩ := hr
    simp only [s'', s', cld, reg_set, Function.update_of_ne hflags, Function.update_of_ne hrax,
      Function.update_of_ne hrcx, Function.update_of_ne hrsi, Function.update_of_ne hrdi]

/-- A header at `a` whose segment fits and keeps away from the header and the stack. -/
structure Loadable (p : ProgramHeader) (a : ℕ) : Prop where
  fits : p.Fits
  header : Disjoint (Set.Ico a (a + 56)) p.target
  target : Disjoint p.target stage2Stack
  file : Disjoint p.file stage2Stack

@[simp] theorem low32_set32 (s : Loader) (r : LoaderReg) (v : BitVec 32) :
    (s.set32 r v).low32 r = v := by
  rw [low32, set32, reg_set, Function.update_self]
  simp

/-- A header off the stack, when the routine is entered. -/
theorem Enters.headerAt_eq {p : ProgramHeader} {d : ℕ} (hs : Enters ρ m d s)
    (hstack : Disjoint (Set.Ico (ρ .rsi).toNat ((ρ .rsi).toNat + 56)) stage2Stack)
    (hp : headerAt m (ρ .rsi).toNat = p) :
    s.reg .rsi = ρ .rsi ∧ headerAt s.mem (s.reg .rsi).toNat = p := by
  have hrsi : s.reg .rsi = ρ .rsi := hs.reg _ (by decide)
  refine ⟨hrsi, ?_⟩
  rw [hrsi, headerAt_congr fun x hx => hs.mem fun hin => Set.disjoint_left.mp hstack hx hin, hp]

theorem performs_headerBody {p : ProgramHeader} (hm : FirstGigabyte m)
    (ha : (ρ .rsi).toNat + 56 ≤ 2 ^ 30)
    (hstack : Disjoint (Set.Ico (ρ .rsi).toNat ((ρ .rsi).toNat + 56)) stage2Stack)
    (hp : headerAt m (ρ .rsi).toNat = p) (hload : p.p_type = 1 → Loadable p (ρ .rsi).toNat) :
    Performs ρ m 0 headerBody headerRegs fun mem =>
      Set.EqOn mem (p.process m) stage2Stackᶜ := by
  intro s hs
  have hm' := hm.of_eqOn hs.mem
  obtain ⟨hrsi, hp'⟩ := hs.headerAt_eq hstack hp
  have hkeep : ∀ r ≠ .rsp, r ∉ headerRegs → (s.set32 .rax p.p_type).reg r = ρ r := by
    intro r hr hC
    have hrax : r ≠ .rax := fun h => hC (by simp [h, headerRegs])
    rw [set32, reg_set, Function.update_of_ne hrax, hs.reg r hr]
  have htype : s.read32 (s.reg .rsi) = some p.p_type := (read_header hm' (hrsi ▸ ha) hp').1
  have hbody : s.headerBody = if p.p_type = 1 then (s.set32 .rax p.p_type).loadSegment
      else some (s.set32 .rax p.p_type) := by
    simp only [headerBody, htype, Option.bind_eq_bind, Option.bind_some, low32_set32]
  by_cases h1 : p.p_type = 1
  · obtain ⟨hfits, hheader, htarget, hfile⟩ := hload h1
    obtain ⟨reg, hseg, hreg⟩ := loadSegment_eq (s := s.set32 .rax p.p_type) hm' (hrsi ▸ ha) hp'
      hfits (hrsi ▸ hheader)
    refine ⟨⟨reg, p.load s.mem⟩, ?_, fun r hr hC => (hreg r hC).trans (hkeep r hr hC), ?_,
      fun x hx => ?_, fun x hx => ?_⟩
    · rw [hbody, if_pos h1]
      exact hseg
    · exact hreg .rsp (by simp [headerRegs])
    · dsimp only
      rw [ProgramHeader.process, if_pos h1, ProgramHeader.load, ProgramHeader.load]
      split
      · split
        · refine hs.mem fun hin => Set.disjoint_left.mp hfile ⟨?_, ?_⟩ hin
          · omega
          · omega
        · rfl
      · exact hs.mem hx
    · have hroom := hs.room
      have hlow := hx.1
      have hin : x ∈ stage2Stack := ⟨by omega, hx.2⟩
      exact ProgramHeader.load_of_notMem fun ht => Set.disjoint_left.mp htarget ht hin
  · refine ⟨s.set32 .rax p.p_type, ?_, hkeep, rfl, fun x hx => ?_, fun x _ => rfl⟩
    · rw [hbody, if_neg h1]
    · rw [ProgramHeader.process, if_neg h1]
      exact hs.mem hx

theorem performs_processHeaderEntry {p : ProgramHeader} (hm : FirstGigabyte m)
    (ha : (ρ .rsi).toNat + 56 ≤ 2 ^ 30)
    (hstack : Disjoint (Set.Ico (ρ .rsi).toNat ((ρ .rsi).toNat + 56)) stage2Stack)
    (hp : headerAt m (ρ .rsi).toNat = p) (hload : p.p_type = 1 → Loadable p (ρ .rsi).toNat) :
    Performs ρ m 40 processHeaderEntry ∅ fun mem =>
      Set.EqOn mem (p.process m) stage2Stackᶜ := by
  have hprocess : FirstGigabyte (p.process m) := hm.congr fun x hx =>
    ProgramHeader.process_of_notMem fun h1 ht => ((hload h1).fits.target ht).2 hx
  have hQ : ∀ mem, Set.EqOn mem (p.process m) stage2Stackᶜ → FirstGigabyte mem := fun mem =>
    hprocess.of_eqOn
  have hbody := performs_headerBody hm ha hstack hp hload
  refine ((((((hbody.saved hm hQ ?_).saved hm hQ ?_).saved hm hQ ?_).saved hm hQ ?_).saved hm hQ
    ?_).mono ?_)
  · decide
  · decide
  · decide
  · decide
  · decide
  · intro r
    cases r <;> simp [headerRegs]

/-- A header whose segment belongs where nothing is mapped. -/
theorem faults_headerBody {p : ProgramHeader} (hm : FirstGigabyte m)
    (ha : (ρ .rsi).toNat + 56 ≤ 2 ^ 30)
    (hstack : Disjoint (Set.Ico (ρ .rsi).toNat ((ρ .rsi).toNat + 56)) stage2Stack)
    (hp : headerAt m (ρ .rsi).toNat = p) (h1 : p.p_type = 1) (hmemsz : 0 < p.p_memsz.toNat)
    (hnone : ∀ m', Set.EqOn m' m stage2Stackᶜ → Paging.translate 0x1000 m' p.p_paddr = none) :
    Faults ρ m 0 headerBody := by
  intro s hs
  have hm' := hm.of_eqOn hs.mem
  obtain ⟨hrsi, hp'⟩ := hs.headerAt_eq hstack hp
  obtain ⟨htype, -, haddr, -, hsize⟩ := read_header hm' (hrsi ▸ ha) hp'
  rw [Option.eq_none_iff_forall_ne_some]
  intro t ht
  simp only [headerBody, htype, Option.bind_eq_bind, Option.bind_some, low32_set32, if_pos h1] at ht
  obtain ⟨v, hv, ht⟩ := Option.bind_eq_some_iff.mp ht
  obtain ⟨w, hw, ht⟩ := Option.bind_eq_some_iff.mp ht
  obtain ⟨u, hu, -⟩ := Option.bind_eq_some_iff.mp ht
  obtain rfl : v = p.p_paddr := Option.some.inj (hv.symm.trans haddr)
  obtain rfl : w = p.p_memsz := Option.some.inj (hw.symm.trans hsize)
  obtain ⟨mem, hmem, -⟩ := Option.bind_eq_some_iff.mp hu
  obtain ⟨n, hn⟩ := Nat.exists_eq_succ_of_ne_zero hmemsz.ne'
  have hfill : fill 0x1000 s.mem p.p_paddr _ _ p.p_memsz.toNat = some mem := hmem
  rw [hn, fill_eq_none (hnone _ hs.mem)] at hfill
  cases hfill

theorem faults_processHeaderEntry {p : ProgramHeader} (hm : FirstGigabyte m)
    (ha : (ρ .rsi).toNat + 56 ≤ 2 ^ 30)
    (hstack : Disjoint (Set.Ico (ρ .rsi).toNat ((ρ .rsi).toNat + 56)) stage2Stack)
    (hp : headerAt m (ρ .rsi).toNat = p) (h1 : p.p_type = 1) (hmemsz : 0 < p.p_memsz.toNat)
    (hnone : ∀ m', Set.EqOn m' m stage2Stackᶜ → Paging.translate 0x1000 m' p.p_paddr = none) :
    Faults ρ m 40 processHeaderEntry :=
  (((((faults_headerBody hm ha hstack hp h1 hmemsz hnone).saved hm).saved hm).saved hm).saved
    hm).saved hm

/-! ### `write_string` -/

theorem toNat_low32 (h : (s.reg r).toNat < 2 ^ 32) : (s.low32 r).toNat = (s.reg r).toNat := by
  rw [low32, BitVec.toNat_setWidth, Nat.mod_eq_of_lt h]

section Letters

variable {n x k v : ℕ}

theorem read_letter (hm : FirstGigabyte s.mem) (hx : (s.low32 .rsi).toNat = x)
    (hk : (s.low32 .rbx).toNat = k) (hlow : x + k < 2 ^ 30) :
    s.read8 ((s.low32 .rsi + s.low32 .rbx).setWidth 64) = some (s.mem (x + k)) := by
  have haddr : ((s.low32 .rsi + s.low32 .rbx).setWidth 64).toNat = x + k := by
    rw [BitVec.toNat_setWidth, BitVec.toNat_add, hx, hk]
    omega
  rw [read8, hm.read8_eq (by omega), haddr]

/-- A round of the loop, for a character that is not zero. -/
theorem writeLetters_succ (fuel : ℕ) (hm : FirstGigabyte s.mem) (hx : (s.low32 .rsi).toNat = x)
    (hk : (s.low32 .rbx).toNat = k) (hv : (s.low32 .rdi).toNat = v) (hchar : s.mem (x + k) ≠ 0)
    (hlow : x + k < 2 ^ 30) (htables : 0x4000 ≤ v) (hscreen : v + 2 * k + 2 ≤ 2 ^ 30) :
    ∃ t : Loader, s.writeLetters (fuel + 1) = t.writeLetters fuel ∧ FirstGigabyte t.mem ∧
      (t.low32 .rbx).toNat = k + 1 ∧ (∀ r, r ≠ .rax → r ≠ .rbx → t.reg r = s.reg r) ∧
      Set.EqOn t.mem s.mem (Set.Ico (v + 2 * k) (v + 2 * k + 2))ᶜ := by
  have hread := read_letter hm hx hk hlow
  let s₁ := s.setAl (s.mem (x + k))
  let ax := (s₁.reg .rax).setWidth 16
  let s₂ : Loader := ⟨s₁.reg, storeBytes s.mem (v + 2 * k) (bytes16 ax)⟩
  have haddr : ((s₁.low32 .rdi + 2 * s₁.low32 .rbx).setWidth 64).toNat = v + 2 * k := by
    have h2 : (2 : BitVec 32).toNat = 2 := rfl
    have hrdi : (s₁.low32 .rdi).toNat = v := hv
    have hrbx : (s₁.low32 .rbx).toNat = k := hk
    rw [BitVec.toNat_setWidth, BitVec.toNat_add, BitVec.toNat_mul, hrdi, hrbx, h2]
    omega
  have hrange : Set.Ico (v + 2 * k) (v + 2 * k + (bytes16 ax).length)
      ⊆ Set.Iio (2 ^ 30) \ pageTables :=
    Ico_subset_mapped (by omega) hscreen
  have hwrite : s₁.write ((s₁.low32 .rdi + 2 * s₁.low32 .rbx).setWidth 64) (bytes16 ax)
      = some s₂ := by
    refine (write_eq (s := s₁) hm ?_).trans ?_
    · rw [haddr]
      exact hrange
    · rw [haddr]
      rfl
  refine ⟨s₂.set32 .rbx (s₂.low32 .rbx + 1), ?_, ?_, ?_, fun r hrax hrbx => ?_, fun y hy => ?_⟩
  · rw [writeLetters, hread]
    simp only [Option.bind_eq_bind, Option.bind_some, if_neg hchar]
    exact (congrArg (Option.bind · _) hwrite).trans (Option.bind_some ..)
  · exact hm.storeBytes (Set.disjoint_left.mpr fun y hy => (hrange hy).2)
  · have hone : (1 : BitVec 32).toNat = 1 := rfl
    have hk₂ : (s₂.low32 .rbx).toNat = k := hk
    rw [low32_set32, BitVec.toNat_add, hk₂, hone]
    omega
  · exact (Function.update_of_ne hrbx _ _).trans (Function.update_of_ne hrax _ _)
  · refine storeBytes_of_outside (?_ : _ ∨ v + 2 * k + 2 ≤ y)
    by_contra hin
    exact hy ⟨by omega, by omega⟩

/-- The loop copies the characters up to the first zero, `n` from here on, two bytes each. -/
theorem writeLetters_eq (fuel : ℕ) (hm : FirstGigabyte s.mem) (hx : (s.low32 .rsi).toNat = x)
    (hk : (s.low32 .rbx).toNat = k) (hv : (s.low32 .rdi).toNat = v)
    (hchars : ∀ i < n, s.mem (x + k + i) ≠ 0) (hend : s.mem (x + k + n) = 0)
    (hlow : x + k + n < 2 ^ 30) (htables : 0x4000 ≤ v) (hapart : v + 2 * (k + n) ≤ x + k)
    (hfuel : n < fuel) :
    ∃ t, s.writeLetters fuel = some t ∧ (∀ r, r ≠ .rax → r ≠ .rbx → t.reg r = s.reg r) ∧
      Set.EqOn t.mem s.mem (Set.Ico (v + 2 * k) (v + 2 * (k + n)))ᶜ := by
  induction n generalizing s k fuel with
  | zero =>
    obtain ⟨fuel, rfl⟩ := Nat.exists_eq_add_of_lt hfuel
    have hread := read_letter hm hx hk (by omega)
    rw [← Nat.add_zero (x + k), hend] at hread
    refine ⟨s.setAl 0, ?_, fun r hrax _ => ?_, fun y _ => rfl⟩
    · rw [Nat.zero_add, writeLetters, hread]
      rfl
    · rw [setAl, reg_set, Function.update_of_ne hrax]
  | succ n ih =>
    obtain ⟨fuel, rfl⟩ := Nat.exists_eq_add_of_lt hfuel
    obtain ⟨s', hround, hm', hk', hreg', hmem'⟩ := writeLetters_succ (n + 1 + fuel) hm hx hk hv
      (hchars 0 (by omega)) (by omega) htables (by omega)
    have hkeep : ∀ y, v + 2 * k + 2 ≤ y → s'.mem y = s.mem y := fun y hy =>
      hmem' fun hin => by
        have := hin.2
        omega
    have hx' : (s'.low32 .rsi).toNat = x := by
      rw [low32, hreg' .rsi (by decide) (by decide), ← low32, hx]
    have hv' : (s'.low32 .rdi).toNat = v := by
      rw [low32, hreg' .rdi (by decide) (by decide), ← low32, hv]
    have hchars' : ∀ i < n, s'.mem (x + (k + 1) + i) ≠ 0 := fun i hi => by
      rw [hkeep _ (by omega), show x + (k + 1) + i = x + k + (i + 1) by omega]
      exact hchars (i + 1) (by omega)
    have hend' : s'.mem (x + (k + 1) + n) = 0 := by
      rw [hkeep _ (by omega), show x + (k + 1) + n = x + k + (n + 1) by omega]
      exact hend
    obtain ⟨t, ht, hreg, hmem⟩ := ih _ hm' hx' hk' hv' hchars' hend' (by omega) (by omega)
      (show n < n + 1 + fuel by omega)
    refine ⟨t, hround.trans ht, fun r hrax hrbx => ?_, fun y hy => ?_⟩
    · exact (hreg r hrax hrbx).trans (hreg' r hrax hrbx)
    · have hout : y < v + 2 * k ∨ v + 2 * (k + (n + 1)) ≤ y := by
        by_contra hin
        exact hy ⟨by omega, by omega⟩
      refine (hmem fun hin => ?_).trans (hmem' fun hin => ?_)
      · have := hin.1
        have := hin.2
        omega
      · have := hin.1
        have := hin.2
        omega

end Letters

/-- The letters of the greeting, and `video`. -/
def greetingArea (L : Stage2Labels) : Set ℕ :=
  Set.Ico 0xb8000 (0xb8000 + 2 * 13) ∪ Set.Ico L.video.toNat (L.video.toNat + 4)

variable {L : Stage2Labels} {fuel : ℕ}

theorem length_stage2Data : stage2Data.length = 28 := by decide

/-- The greeting has 13 characters. -/
theorem message2_ne_zero (hdata : L.HoldsData m) {i : ℕ} (hi : i < 13) :
    m (L.video.toNat + 14 + i) ≠ 0 := by
  have hall : ∀ i < 13, ∀ h : 14 + i < stage2Data.length, stage2Data[14 + i] ≠ 0 := by decide
  rw [Nat.add_assoc, hdata (14 + i) (by rw [length_stage2Data]; omega)]
  exact hall i hi _

theorem message2_end (hdata : L.HoldsData m) : m (L.video.toNat + 14 + 13) = 0 := by
  rw [Nat.add_assoc]
  exact hdata 27 (by decide)

theorem load32_video (hdata : L.HoldsData m) : load32 m L.video.toNat = 0xb8000 := by
  have h0 : m L.video.toNat = 0x00 := hdata 0 (by decide)
  have h1 : m (L.video.toNat + 1) = 0x80 := hdata 1 (by decide)
  have h2 : m (L.video.toNat + 2) = 0x0b := hdata 2 (by decide)
  have h3 : m (L.video.toNat + 3) = 0x00 := hdata 3 (by decide)
  rw [load32, h0, h1, h2, h3]
  rfl

theorem holdsData_of_eqOn {m' : ByteMemory} (hdata : L.HoldsData m)
    (h : Set.EqOn m' m (Set.Ico L.video.toNat (L.video.toNat + 28))) : L.HoldsData m' := by
  intro i hi
  have hlt : i < 28 := length_stage2Data ▸ hi
  rw [h ⟨by omega, by omega⟩, hdata i hi]

theorem performs_writeStringBody (hm : FirstGigabyte m) (hrsi : ρ .rsi = L.message2)
    (hdata : L.HoldsData m) (hfuel : 14 ≤ fuel) :
    Performs ρ m 0 (writeStringBody L fuel) {.rdi, .rax, .rbx} fun mem =>
      Set.EqOn mem m (stage2Stack ∪ greetingArea L)ᶜ := by
  intro s hs
  have hle := L.le_video
  have hlt := L.video_le
  have htop := hs.top
  have hm' := hm.of_eqOn hs.mem
  have hdata' : L.HoldsData s.mem := holdsData_of_eqOn hdata fun y hy => hs.mem fun hin => by
    have := hy.1
    have := hin.2
    omega
  have hvideo : s.read32 L.video = some 0xb8000 := by
    rw [read32, hm'.read32_eq (by omega), load32_video hdata']
  let s₁ := ((s.set32 .rdi 0xb8000).setAh 0x0f).set32 .rbx 0
  have hmessage : (s₁.low32 .rsi).toNat = L.video.toNat + 14 := by
    have h14 : (14 : BitVec 64).toNat = 14 := rfl
    have hreg : s₁.reg .rsi = L.video + 14 := (hs.reg .rsi (by decide)).trans hrsi
    have hadd : (L.video + 14).toNat = L.video.toNat + 14 := by
      rw [BitVec.toNat_add_of_lt (by omega), h14]
    rw [toNat_low32 (by rw [hreg, hadd]; omega), hreg, hadd]
  obtain ⟨t, ht, hreg, hmem⟩ := writeLetters_eq (s := s₁) (n := 13) (k := 0) (v := 0xb8000)
    fuel hm' hmessage rfl rfl (fun i hi => message2_ne_zero hdata' hi)
    (message2_end hdata') (by omega) (by omega) (by omega) (by omega)
  -- `video` moves to the next line
  let t' := t.set32 .rdi (t.low32 .rdi + 160)
  have htm : FirstGigabyte t'.mem := hm'.congr fun y hy => hmem fun hin => by
    have := hy.2
    have := hin.1
    omega
  have hrange : Set.Ico L.video.toNat (L.video.toNat + (bytes32 (t'.low32 .rdi)).length)
      ⊆ Set.Iio (2 ^ 30) \ pageTables := by
    rw [length_bytes32]
    exact Ico_subset_mapped (by omega) (by omega)
  refine ⟨⟨t'.reg, storeBytes t.mem L.video.toNat (bytes32 (t'.low32 .rdi))⟩, ?_, fun r hr hC => ?_,
    ?_, fun y hy => ?_, fun y hy => ?_⟩
  · refine Option.bind_eq_some_iff.mpr ⟨_, hvideo, ?_⟩
    refine Option.bind_eq_some_iff.mpr ⟨_, ht, ?_⟩
    exact write_eq htm hrange
  · simp only [Set.mem_insert_iff, Set.mem_singleton_iff, not_or] at hC
    obtain ⟨hrdi, hrax, hrbx⟩ := hC
    have hreg₁ : s₁.reg r = s.reg r := by
      simp only [s₁, set32, setAh, reg_set, Function.update_of_ne hrdi,
        Function.update_of_ne hrax, Function.update_of_ne hrbx]
    exact (Function.update_of_ne hrdi _ _).trans
      ((hreg r hrax hrbx).trans (hreg₁.trans (hs.reg r hr)))
  · have hrsp : t'.reg .rsp = t.reg .rsp := by simp [t', set32]
    exact hrsp.trans (hreg .rsp (by decide) (by decide))
  · obtain ⟨hstack, harea⟩ := not_or.mp hy
    obtain ⟨hletters, hvid⟩ := not_or.mp harea
    have hout : y < L.video.toNat ∨ L.video.toNat + 4 ≤ y := by
      by_contra hin
      exact hvid ⟨by omega, by omega⟩
    exact (storeBytes_of_outside (by rw [length_bytes32]; exact hout)).trans
      ((hmem hletters).trans (hs.mem hstack))
  · have := hy.2
    have hout : y ∉ Set.Ico 0xb8000 (0xb8000 + 2 * (0 + 13)) := fun hin => by
      have := hin.1
      omega
    exact (storeBytes_of_outside (by omega)).trans (hmem hout)

theorem performs_writeString (hm : FirstGigabyte m) (hrsi : ρ .rsi = L.message2)
    (hdata : L.HoldsData m) (hfuel : 14 ≤ fuel) :
    Performs ρ m 24 (writeString L fuel) ∅ fun mem =>
      Set.EqOn mem m (stage2Stack ∪ greetingArea L)ᶜ := by
  have hle := L.le_video
  have hQ : ∀ mem, Set.EqOn mem m (stage2Stack ∪ greetingArea L)ᶜ → FirstGigabyte mem :=
    fun mem hmem => hm.congr fun y hy => hmem fun hin => by
      have hlt := hy.2
      rcases hin with h | h | h
      · have := h.1
        omega
      · have := h.1
        omega
      · have := h.1
        omega
  have hbody := performs_writeStringBody hm hrsi hdata hfuel
  refine (((hbody.saved hm hQ ?_).saved hm hQ ?_).saved hm hQ ?_).mono ?_
  · decide
  · decide
  · decide
  · intro r
    cases r <;> simp

end Loader

end FrogOS
