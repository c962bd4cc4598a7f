import FrogOS.Lib.Paging

/-!
# The page tables of stage 2

`stage2.asm` from `_start` to the end of `pde_loop`: the area of the tables is cleared, the first
entries of the first two tables are written as 16-bit words, and the loop writes 512 entries that
each map two megabytes. Paging is off, so addresses are physical.

The entries of the loop are written as 32-bit words, and what is cleared before are the first two
tables only. The upper halves of the entries keep what memory held before.

## Main definitions

* `Stage2.buildTables` — the code
* `IdentityMap` — the first gigabyte is mapped to itself, and nothing else is mapped

## Main results

* `pdeLoop_spec` — what the loop writes
* `identityMap_iff` — the tables are right exactly when the address bits in the upper halves were
  zero
-/

namespace FrogOS

open ByteMemory Paging

/-- The registers the code uses, and memory. -/
structure Stage2 where
  eax : BitVec 32
  ecx : BitVec 32
  edi : BitVec 32
  mem : ByteMemory

namespace Stage2

/-- `rep stosd`, the direction flag being clear. -/
def repStosd (s : Stage2) : Stage2 :=
  { s with
    mem := memsetd s.mem s.edi.toNat s.eax s.ecx.toNat
    edi := s.edi + 4 * s.ecx
    ecx := 0 }

/-- The store and the counting in `pde_loop`. -/
def pdeBody (s : Stage2) : Stage2 :=
  { s with
    mem := store32 s.mem (s.edi + s.ecx * 8).toNat s.eax
    eax := s.eax + 1 <<< 21
    ecx := s.ecx + 1 }

/-- `pde_loop`, which ends with `jne`. -/
def pdeLoop : ℕ → Stage2 → Option Stage2
  | 0, _ => none
  | fuel + 1, s => if s.pdeBody.ecx = 512 then some s.pdeBody else pdeLoop fuel s.pdeBody

/-- From `_start` to the end of `pde_loop`. -/
def buildTables (fuel : ℕ) (mem : ByteMemory) : Option Stage2 :=
  let s : Stage2 := ⟨0, 0x800, 0x1000, mem⟩
  let s := s.repStosd
  let s := { s with mem := store16 s.mem 0x1000 (0x2003 ||| 4) }
  let s := { s with mem := store16 s.mem 0x2000 (0x3003 ||| 4) }
  -- `mov al, 0x83 | 4` leaves the upper bytes of `eax`
  let s := { s with eax := s.eax &&& 0xffffff00 ||| (0x83 ||| 4) }
  let s := { s with edi := 0x3000 }
  s.pdeLoop fuel

end Stage2

/-- Every address below `2 ^ 30` is translated to itself, with all rights at every level, and no
other canonical address is present. -/
def IdentityMap (m : ByteMemory) : Prop :=
  (∀ a < 2 ^ 30, walk m 0x1000 a = some ⟨a, true, true⟩) ∧
    ∀ a, 2 ^ 30 ≤ a → Canonical a → walk m 0x1000 a = none

/-! ### The code -/

/-- Memory before the loop. -/
def clearedTables (mem : ByteMemory) : ByteMemory :=
  store16 (store16 (memsetd mem 0x1000 0 0x800) 0x1000 0x2007) 0x2000 0x3007

/-- The state after `k` rounds of the loop. -/
structure Mapped (before : ByteMemory) (k : ℕ) (s : Stage2) : Prop where
  eax : s.eax.toNat = 0x87 + 2 ^ 21 * k
  ecx : s.ecx.toNat = k
  edi : s.edi.toNat = 0x3000
  entry : ∀ i < k, (load32 s.mem (0x3000 + 8 * i)).toNat = 0x87 + 2 ^ 21 * i
  /-- Only the lower halves of the entries have been written. -/
  frame : ∀ x, (∀ i < k, x < 0x3000 + 8 * i ∨ 0x3004 + 8 * i ≤ x) → s.mem x = before x

variable {before : ByteMemory} {k fuel : ℕ} {s : Stage2}

theorem Mapped.body (h : Mapped before k s) (hk : k < 512) : Mapped before (k + 1) s.pdeBody := by
  obtain ⟨heax, hecx, hedi, hentry, hframe⟩ := h
  have haddr : (s.edi + s.ecx * 8).toNat = 0x3000 + 8 * k := by
    have h8 : (8 : BitVec 32).toNat = 8 := rfl
    rw [BitVec.toNat_add, BitVec.toNat_mul, hedi, hecx, h8]
    omega
  have hmem : s.pdeBody.mem = store32 s.mem (0x3000 + 8 * k) s.eax := by
    rw [← haddr, Stage2.pdeBody]
  refine ⟨?_, ?_, ?_, fun i hi => ?_, fun x hx => ?_⟩
  · have hstep : (1 <<< 21 : BitVec 32).toNat = 2 ^ 21 := rfl
    rw [Stage2.pdeBody, BitVec.toNat_add, heax, hstep]
    omega
  · have hone : (1 : BitVec 32).toNat = 1 := rfl
    rw [Stage2.pdeBody, BitVec.toNat_add, hecx, hone]
    omega
  · rw [Stage2.pdeBody, hedi]
  · rw [hmem]
    rcases Nat.lt_succ_iff_lt_or_eq.mp hi with hlt | rfl
    · rw [load32_store32_of_disjoint (by omega), hentry i hlt]
    · rw [load32_store32, heax]
  · rw [hmem, store32_of_outside (by have := hx k (Nat.lt_succ_self k); omega)]
    exact hframe x fun i hi => hx i (Nat.lt_succ_of_lt hi)

/-- **The loop ends after 512 rounds.** -/
theorem Mapped.loop (h : Mapped before k s) (hk : k < 512) (hfuel : 512 ≤ k + fuel) :
    ∃ t, s.pdeLoop fuel = some t ∧ Mapped before 512 t := by
  induction fuel generalizing k s with
  | zero => omega
  | succ fuel ih =>
    have hbody := h.body hk
    rw [Stage2.pdeLoop]
    by_cases hlast : k + 1 = 512
    · have hecx : s.pdeBody.ecx = 512 := BitVec.eq_of_toNat_eq (hbody.ecx.trans hlast)
      rw [if_pos hecx]
      exact ⟨_, rfl, hlast ▸ hbody⟩
    · have hecx : s.pdeBody.ecx ≠ 512 := fun h512 =>
        hlast (hbody.ecx.symm.trans (by rw [h512]; rfl))
      rw [if_neg hecx]
      exact ih hbody (by omega) (by omega)

/-- What `buildTables` leaves. -/
theorem buildTables_spec (mem : ByteMemory) (hfuel : 512 ≤ fuel) :
    ∃ t, Stage2.buildTables fuel mem = some t ∧ Mapped (clearedTables mem) 512 t := by
  have hstart : Stage2.buildTables fuel mem = Stage2.pdeLoop fuel
      ⟨0x87, 0, 0x3000, clearedTables mem⟩ := by
    simp only [Stage2.buildTables, Stage2.repStosd]
    rfl
  rw [hstart]
  refine Mapped.loop (k := 0) ⟨rfl, rfl, rfl, fun i hi => absurd hi (Nat.not_lt_zero i),
    fun x _ => rfl⟩ (by omega) (by omega)

/-! ### The tables -/

variable {mem : ByteMemory} {t : Stage2}

/-- Words of the tables the loop does not write. -/
theorem Mapped.load64_of_lt (h : Mapped before k s) {a : ℕ} (ha : a + 8 ≤ 0x3000) :
    load64 s.mem a = load64 before a :=
  load64_congr fun i hi => h.frame _ fun j hj => by omega

/-- Of the first two tables only the first entries are not zero. -/
theorem load64_clearedTables (mem : ByteMemory) {i : ℕ} (hi : i < 512) :
    load64 (clearedTables mem) (0x1000 + 8 * i) = (if i = 0 then 0x2007 else 0) ∧
      load64 (clearedTables mem) (0x2000 + 8 * i) = (if i = 0 then 0x3007 else 0) := by
  have hzero : ∀ x, 0x1000 ≤ x → x < 0x3000 → memsetd mem 0x1000 0 0x800 x = 0 :=
    fun x h h' => memsetd_zero_of_inside h (by omega)
  rw [clearedTables]
  generalize memsetd mem 0x1000 0 0x800 = z at hzero
  constructor
  · rw [load64_store16_of_disjoint (by omega)]
    split
    · next h0 =>
      subst h0
      exact load64_store16_of_zero (fun j hj => hzero _ (by omega) (by omega)) _
    · rw [load64_store16_of_disjoint (by omega)]
      exact load64_of_zero fun j hj => hzero _ (by omega) (by omega)
  · split
    · next h0 =>
      subst h0
      refine load64_store16_of_zero (fun j hj => ?_) _
      rw [store16_of_outside (by omega)]
      exact hzero _ (by omega) (by omega)
    · rw [load64_store16_of_disjoint (by omega), load64_store16_of_disjoint (by omega)]
      exact load64_of_zero fun j hj => hzero _ (by omega) (by omega)

/-- The upper half of an entry of the loop is what memory held there. -/
theorem Mapped.entry_toNat (h : Mapped (clearedTables mem) 512 t) {i : ℕ} (hi : i < 512) :
    (load64 t.mem (0x3000 + 8 * i)).toNat
      = (load32 mem (0x3004 + 8 * i)).toNat * 2 ^ 32 + (0x87 + 2 ^ 21 * i) := by
  have hhigh : load32 t.mem (0x3000 + 8 * i + 4) = load32 mem (0x3004 + 8 * i) := by
    refine load32_congr fun j hj => ?_
    rw [show 0x3000 + 8 * i + 4 + j = 0x3004 + 8 * i + j by omega, h.frame _ fun k hk => by omega,
      clearedTables, store16_of_outside (by omega), store16_of_outside (by omega),
      memsetd_of_outside (by omega)]
  rw [load64_eq_append, BitVec.toNat_append, hhigh, h.entry i hi, Nat.shiftLeft_eq,
    ← Nat.shiftLeft_eq, ← Nat.shiftLeft_add_eq_or_of_lt (by omega), Nat.shiftLeft_eq]

theorem index_lt (level a : ℕ) : index level a < 512 := Nat.mod_lt _ (by decide)

/-- The entries of the first two tables. -/
theorem Mapped.entry_pml4 (h : Mapped (clearedTables mem) 512 t) (a : ℕ) :
    Paging.entry t.mem 3 0x1000 a = if index 3 a = 0 then 0x2007 else 0 := by
  have hlt := index_lt 3 a
  rw [Paging.entry, h.load64_of_lt (by omega)]
  exact (load64_clearedTables mem hlt).1

theorem Mapped.entry_pdpt (h : Mapped (clearedTables mem) 512 t) (a : ℕ) :
    Paging.entry t.mem 2 0x2000 a = if index 2 a = 0 then 0x3007 else 0 := by
  have hlt := index_lt 2 a
  rw [Paging.entry, h.load64_of_lt (by omega)]
  exact (load64_clearedTables mem hlt).2

/-- The first entry of the first table leads to the second one. -/
theorem Mapped.walk_eq (h : Mapped (clearedTables mem) 512 t) {a : ℕ} (h3 : index 3 a = 0) :
    walk t.mem 0x1000 a = walkFrom t.mem a 2 0x2000 true true := by
  have he : Paging.entry t.mem 3 0x1000 a = 0x2007 := by rw [h.entry_pml4, if_pos h3]
  rw [walk, walkFrom_of_table (by rw [he]; rfl) (by rw [he]; rfl), he]
  rfl

/-- The walk of an address beyond the first gigabyte ends in the first two tables. -/
theorem Mapped.walk_of_ge (h : Mapped (clearedTables mem) 512 t) {a : ℕ} (ha : 2 ^ 30 ≤ a)
    (hcanon : Canonical a) : walk t.mem 0x1000 a = none := by
  by_cases h3 : index 3 a = 0
  · have h2 : index 2 a ≠ 0 := (index_ne_zero_of_canonical hcanon ha).resolve_left (not_not.mpr h3)
    rw [h.walk_eq h3]
    refine walkFrom_of_not_present ?_
    rw [h.entry_pdpt, if_neg h2]
    rfl
  · refine walkFrom_of_not_present ?_
    rw [h.entry_pml4, if_neg h3]
    rfl

/-- The walk of an address in the first gigabyte ends in an entry of the loop. -/
theorem Mapped.walk_of_lt (h : Mapped (clearedTables mem) 512 t) {a : ℕ} (ha : a < 2 ^ 30) :
    walk t.mem 0x1000 a
      = some ⟨(load32 mem (0x3004 + 8 * (a / 2 ^ 21))).toNat % 2 ^ 20 * 2 ^ 32 + a, true,
          true⟩ := by
  have h3 : index 3 a = 0 := by
    rw [index, shift]
    omega
  have h2 : index 2 a = 0 := by
    rw [index, shift]
    omega
  have h1 : index 1 a = a / 2 ^ 21 := by
    rw [index, shift]
    omega
  have hpdpt : Paging.entry t.mem 2 0x2000 a = 0x3007 := by rw [h.entry_pdpt, if_pos h2]
  have hbase : base (0x3007 : BitVec 64) 12 = 0x3000 := rfl
  have hpde : (Paging.entry t.mem 1 0x3000 a).toNat
      = (load32 mem (0x3004 + 8 * (a / 2 ^ 21))).toNat * 2 ^ 32
        + (0x87 + 2 ^ 21 * (a / 2 ^ 21)) := by
    rw [Paging.entry, h1]
    exact h.entry_toNat (by omega)
  have hflags : (Paging.entry t.mem 1 0x3000 a).toNat % 2 ^ 8 = 0x87 := by
    rw [hpde]
    omega
  have hw : writable (Paging.entry t.mem 1 0x3000 a) = true := getLsbD_of_mod hflags (by omega)
  have hu : user (Paging.entry t.mem 1 0x3000 a) = true := getLsbD_of_mod hflags (by omega)
  rw [h.walk_eq h3, walkFrom_of_table (by rw [hpdpt]; rfl) (by rw [hpdpt]; rfl), hpdpt, hbase,
    walkFrom_of_page (getLsbD_of_mod hflags (by omega)) (getLsbD_of_mod hflags (by omega))
      (by omega), hw, hu, base, hpde, shift]
  simp only [Option.some.injEq, Translation.mk.injEq]
  refine ⟨?_, rfl, rfl⟩
  omega

/-- **Stage 2 builds an identity map of the first gigabyte exactly when the address bits in the
upper halves of the 512 entries of the third table are zero beforehand.** -/
theorem identityMap_iff (mem : ByteMemory) (fuel : ℕ) (hfuel : 512 ≤ fuel) :
    ∃ t, Stage2.buildTables fuel mem = some t ∧ (IdentityMap t.mem ↔
      ∀ i < 512, (load32 mem (0x3004 + 8 * i)).toNat % 2 ^ 20 = 0) := by
  obtain ⟨t, ht, h⟩ := buildTables_spec mem hfuel
  refine ⟨t, ht, fun hid i hi => ?_, fun hzero => ⟨fun a ha => ?_, fun a => h.walk_of_ge⟩⟩
  · -- the first address of a page shows what its entry adds
    have hwalk := (h.walk_of_lt (a := 2 ^ 21 * i) (by omega)).symm.trans (hid.1 _ (by omega))
    have hphys := congrArg Translation.physical (Option.some.inj hwalk)
    rw [Nat.mul_div_cancel_left _ (by omega)] at hphys
    dsimp only at hphys
    omega
  · rw [h.walk_of_lt ha, hzero _ (by omega), Nat.zero_mul, Nat.zero_add]

/-- The theorem where memory was zero. -/
theorem identityMap_iff_zero : ∃ t, Stage2.buildTables 512 (fun _ => 0) = some t ∧
    (IdentityMap t.mem ↔ ∀ i < 512, (load32 (fun _ => 0) (0x3004 + 8 * i)).toNat % 2 ^ 20 = 0) :=
  identityMap_iff _ 512 le_rfl

/-- **With a one left behind in the upper half of the first entry, address 0 is mapped to four
gigabytes.** -/
theorem not_identityMap_leftover : ∃ t,
    Stage2.buildTables 512 (fun a => if a = 0x3004 then 1 else 0) = some t ∧
      walk t.mem 0x1000 0 = some ⟨2 ^ 32, true, true⟩ ∧ ¬ IdentityMap t.mem := by
  obtain ⟨t, ht, h⟩ := buildTables_spec (fun a => if a = 0x3004 then 1 else 0) (le_refl 512)
  have hwalk : walk t.mem 0x1000 0 = some ⟨2 ^ 32, true, true⟩ :=
    (h.walk_of_lt (a := 0) (by omega)).trans rfl
  refine ⟨t, ht, hwalk, fun hid => ?_⟩
  have hphys := congrArg Translation.physical
    (Option.some.inj (hwalk.symm.trans (hid.1 0 (by omega))))
  exact absurd hphys (by decide)

end FrogOS
