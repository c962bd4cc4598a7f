import FrogOS.Stage2Routines
import Mathlib.Order.Interval.Set.Disjoint

/-!
# Loading the kernel image

What `.ph_loop` makes of memory. The program headers are processed in the order of the table; each
round zeroes the target of a segment and copies the file bytes to it. Nothing a round writes is
read or written by another one, because the targets are disjoint from each other, from the image
and from all that stage 2 uses.

Stage 2 maps the first gigabyte and nothing else. A segment that belongs further up is not loaded:
the first byte of its target faults.

## Main definitions

* `phdr` — the program headers of the image at `start_of_kernel`
* `ElfImage` — an image whose segments can be told apart
* `LoadsExactly` — the loop leaves the segments in memory and the kernel is called

## Main results

* `LoopAt.step`, `LoopAt.run` — a round of `.ph_loop`, and all of them
* `stage2_loadsExactly` — images with all segments in the first gigabyte are loaded
-/

namespace FrogOS

open ByteMemory Paging

/-! ### The image -/

def e_entry (m : ByteMemory) : BitVec 64 := load64 m (0x402000 + 24)
def e_phoff (m : ByteMemory) : BitVec 64 := load64 m (0x402000 + 32)
def e_phentsize (m : ByteMemory) : BitVec 16 := load16 m (0x402000 + 54)
def e_phnum (m : ByteMemory) : BitVec 16 := load16 m (0x402000 + 56)

/-- The address of program header `i`. -/
def phdrAddr (m : ByteMemory) (i : ℕ) : ℕ :=
  0x402000 + (e_phoff m).toNat + i * (e_phentsize m).toNat

def phdr (m : ByteMemory) (i : ℕ) : ProgramHeader := headerAt m (phdrAddr m i)

/-- Header `i` is one of the table, and its segment is to be loaded. -/
def IsLoad (m : ByteMemory) (i : ℕ) : Prop := i < (e_phnum m).toNat ∧ (phdr m i).p_type = 1

/-- The file image, of `n` bytes. -/
def image (n : ℕ) : Set ℕ := Set.Ico 0x402000 (0x402000 + n)

/-- Stage 2, the data at its end included. -/
def stage2Area (L : Stage2Labels) : Set ℕ := Set.Ico 0x400200 (L.video.toNat + 52)

def textScreen : Set ℕ := Set.Ico 0xb8000 (0xb8000 + 2 * (80 * 25))

/-- An image with the headers inside, whose segments have disjoint targets that keep away from the
image and from what stage 2 uses. -/
structure ElfImage (L : Stage2Labels) (m : ByteMemory) (n : ℕ) : Prop where
  size : 64 ≤ n
  phnum : 1 ≤ (e_phnum m).toNat
  headers : ∀ i < (e_phnum m).toNat, phdrAddr m i + 56 ≤ 0x402000 + n
  filesz : ∀ i, IsLoad m i → (phdr m i).p_filesz.toNat ≤ (phdr m i).p_memsz.toNat
  file : ∀ i, IsLoad m i → (phdr m i).file ⊆ image n
  disjoint : ∀ i j, IsLoad m i → IsLoad m j → i ≠ j →
    Disjoint (phdr m i).target (phdr m j).target
  apart : ∀ i, IsLoad m i → Disjoint (phdr m i).target
    (image n ∪ stage2Area L ∪ stage2Stack ∪ pageTables ∪ textScreen)

/-- What the loader writes besides the segments: its variables, its stack and the screen. -/
def loaderArea (L : Stage2Labels) : Set ℕ :=
  Set.Ico L.video.toNat (L.video.toNat + 8) ∪ Set.Ico (L.video.toNat + 28) (L.video.toNat + 52) ∪
    stage2Stack ∪ textScreen

/-- The 4000 bytes behind the screen. `cls` stores a doubleword for each cell, and a cell has two
bytes. -/
def behindScreen : Set ℕ := Set.Ico (0xb8000 + 2 * (80 * 25)) (0xb8000 + 4 * (80 * 25))

/-- `m'` is `m` after the first `k` headers have been processed. -/
structure LoadedUpTo (L : Stage2Labels) (m : ByteMemory) (k : ℕ) (m' : ByteMemory) : Prop where
  copied : ∀ i < k, IsLoad m i → ∀ j < (phdr m i).p_filesz.toNat,
    m' ((phdr m i).p_paddr.toNat + j) = m (0x402000 + (phdr m i).p_offset.toNat + j)
  zeroed : ∀ i < k, IsLoad m i → ∀ j, (phdr m i).p_filesz.toNat ≤ j →
    j < (phdr m i).p_memsz.toNat → m' ((phdr m i).p_paddr.toNat + j) = 0
  frame : ∀ x ∉ loaderArea L ∪ behindScreen, (∀ i < k, IsLoad m i → x ∉ (phdr m i).target) →
    m' x = m x

/-- All segments are in memory, and nothing else has changed. Nothing is said of the memory behind
the screen, unless it belongs to a segment. -/
def Loaded (L : Stage2Labels) (m m' : ByteMemory) : Prop := LoadedUpTo L m (e_phnum m).toNat m'

/-- `.ph_loop` ends after each header of the table has been processed once, in order, with the
segments in memory; then the entry point is called, with the segments still there. -/
def LoadsExactly (L : Stage2Labels) (fuel : ℕ) (s : Loader) : Prop :=
  ∃ headers t, s.loadImage L fuel = some (headers, t) ∧
    headers.map BitVec.toNat = (List.range (e_phnum s.mem).toNat).map (phdrAddr s.mem) ∧
    Loaded L s.mem t.mem ∧
    ∃ u, t.startKernel L fuel = some (e_entry s.mem, u) ∧ Loaded L s.mem u.mem

variable {L : Stage2Labels} {m m' : ByteMemory} {n k i fuel : ℕ} {s t : Loader}

/-! ### What a round leaves alone -/

/-- Everything outside of what the loader writes and of the targets. -/
theorem LoadedUpTo.eqOn (h : LoadedUpTo L m k m') {S : Set ℕ}
    (hS : Disjoint S (loaderArea L ∪ behindScreen))
    (htarget : ∀ i, IsLoad m i → Disjoint (phdr m i).target S) : Set.EqOn m' m S := fun x hx =>
  h.frame x (fun hin => Set.disjoint_left.mp hS hx hin) fun i _ hi hin =>
    Set.disjoint_left.mp (htarget i hi) hin hx

theorem image_disjoint_loaderArea (L : Stage2Labels) (n : ℕ) :
    Disjoint (image n) (loaderArea L ∪ behindScreen) := by
  have hvideo := L.video_le
  simp only [loaderArea, Set.disjoint_union_right]
  refine ⟨⟨⟨⟨?_, ?_⟩, ?_⟩, ?_⟩, ?_⟩
  all_goals exact Set.Ico_disjoint_Ico.mpr (by omega)

theorem pageTables_disjoint_loaderArea (L : Stage2Labels) :
    Disjoint pageTables (loaderArea L ∪ behindScreen) := by
  have hvideo := L.le_video
  simp only [loaderArea, Set.disjoint_union_right]
  refine ⟨⟨⟨⟨?_, ?_⟩, ?_⟩, ?_⟩, ?_⟩
  all_goals exact Set.Ico_disjoint_Ico.mpr (by omega)

namespace ElfImage

theorem target_disjoint_image (himg : ElfImage L m n) (hi : IsLoad m i) :
    Disjoint (phdr m i).target (image n) :=
  (himg.apart i hi).mono_right fun _ hx => Or.inl (Or.inl (Or.inl (Or.inl hx)))

theorem target_disjoint_stage2 (himg : ElfImage L m n) (hi : IsLoad m i) :
    Disjoint (phdr m i).target (stage2Area L) :=
  (himg.apart i hi).mono_right fun _ hx => Or.inl (Or.inl (Or.inl (Or.inr hx)))

theorem target_disjoint_stack (himg : ElfImage L m n) (hi : IsLoad m i) :
    Disjoint (phdr m i).target stage2Stack :=
  (himg.apart i hi).mono_right fun _ hx => Or.inl (Or.inl (Or.inr hx))

theorem target_disjoint_tables (himg : ElfImage L m n) (hi : IsLoad m i) :
    Disjoint (phdr m i).target pageTables :=
  (himg.apart i hi).mono_right fun _ hx => Or.inl (Or.inr hx)

theorem target_disjoint_screen (himg : ElfImage L m n) (hi : IsLoad m i) :
    Disjoint (phdr m i).target textScreen :=
  (himg.apart i hi).mono_right fun _ hx => Or.inr hx

/-- The image stays as it is. -/
theorem image_eqOn (himg : ElfImage L m n) (h : LoadedUpTo L m k m') : Set.EqOn m' m (image n) :=
  h.eqOn (image_disjoint_loaderArea L n) fun _ => himg.target_disjoint_image

/-- So do the tables. -/
theorem firstGigabyte (himg : ElfImage L m n) (h : LoadedUpTo L m k m')
    (hm : FirstGigabyte m) : FirstGigabyte m' :=
  hm.congr (h.eqOn (pageTables_disjoint_loaderArea L) fun _ => himg.target_disjoint_tables)

theorem header_subset (himg : ElfImage L m n) (hi : i < (e_phnum m).toNat) :
    Set.Ico (phdrAddr m i) (phdrAddr m i + 56) ⊆ image n := by
  intro x hx
  have hend := himg.headers i hi
  have hle := hx.1
  have hlt := hx.2
  have hstart : 0x402000 ≤ phdrAddr m i := by
    rw [phdrAddr]
    omega
  exact ⟨by omega, by omega⟩

theorem headerAt_eq (himg : ElfImage L m n) (h : LoadedUpTo L m k m') (hi : i < (e_phnum m).toNat) :
    headerAt m' (phdrAddr m i) = phdr m i :=
  headerAt_congr fun _ hx => himg.image_eqOn h (himg.header_subset hi hx)

end ElfImage

theorem image_disjoint_stack (L : Stage2Labels) (n : ℕ) : Disjoint (image n) stage2Stack :=
  (image_disjoint_loaderArea L n).mono_right fun _ hx => Or.inl (Or.inl (Or.inr hx))

/-- The image and the targets lie in the first gigabyte, which is all that is mapped. -/
structure LowImage (m : ByteMemory) (n : ℕ) : Prop where
  image : image n ⊆ Set.Iio (2 ^ 30)
  target : ∀ i, IsLoad m i → (phdr m i).target ⊆ Set.Iio (2 ^ 30)

theorem LowImage.loadable (hlow : LowImage m n) (himg : ElfImage L m n) (hi : IsLoad m i) :
    Loader.Loadable (phdr m i) (phdrAddr m i) where
  fits :=
    { filesz := himg.filesz i hi
      file := (himg.file i hi).trans hlow.image
      target := fun _ hx => ⟨hlow.target i hi hx,
        fun ht => Set.disjoint_left.mp (himg.target_disjoint_tables hi) hx ht⟩
      apart := (himg.target_disjoint_image hi).mono_right (himg.file i hi) }
  header := ((himg.target_disjoint_image hi).mono_right (himg.header_subset hi.1)).symm
  target := himg.target_disjoint_stack hi
  file := (image_disjoint_stack L n).mono_left (himg.file i hi)

/-- The end of the image, as a number. -/
theorem ElfImage.end_le (himg : ElfImage L m n) (hlow : image n ⊆ Set.Iio (2 ^ 30)) :
    0x402000 + n ≤ 2 ^ 30 := by
  have hsize := himg.size
  have hlast : 0x402000 + n - 1 < 2 ^ 30 := hlow ⟨by omega, by omega⟩
  omega

/-! ### The loop -/

/-- Processing header `k` is the next step. -/
theorem LoadedUpTo.process {m'' : ByteMemory} (h : LoadedUpTo L m k m') (himg : ElfImage L m n)
    (hk : k < (e_phnum m).toNat)
    (hm : Set.EqOn m'' ((phdr m k).process m') stage2Stackᶜ) : LoadedUpTo L m (k + 1) m'' := by
  have hold : ∀ i < k, IsLoad m i → ∀ x ∈ (phdr m i).target, m'' x = m' x := by
    intro i hi hload x hx
    rw [hm fun hin => Set.disjoint_left.mp (himg.target_disjoint_stack hload) hx hin]
    exact ProgramHeader.process_of_notMem fun h1 hin =>
      Set.disjoint_left.mp (himg.disjoint i k hload ⟨hk, h1⟩ (by omega)) hx hin
  have hnew : IsLoad m k → ∀ x ∈ (phdr m k).target, m'' x = (phdr m k).load m' x := by
    intro hload x hx
    rw [hm fun hin => Set.disjoint_left.mp (himg.target_disjoint_stack hload) hx hin,
      ProgramHeader.process, if_pos hload.2]
  refine ⟨fun i hi hload j hj => ?_, fun i hi hload j hj hj' => ?_, fun x hx hout => ?_⟩
  · have hfilesz := himg.filesz i hload
    have hin : (phdr m i).p_paddr.toNat + j ∈ (phdr m i).target := ⟨by omega, by omega⟩
    rcases Nat.lt_succ_iff_lt_or_eq.mp hi with hlt | rfl
    · rw [hold i hlt hload _ hin, h.copied i hlt hload j hj]
    · rw [hnew hload _ hin, ProgramHeader.load_of_lt hfilesz hj]
      exact himg.image_eqOn h (himg.file i hload ⟨by omega, by omega⟩)
  · have hin : (phdr m i).p_paddr.toNat + j ∈ (phdr m i).target := ⟨by omega, by omega⟩
    rcases Nat.lt_succ_iff_lt_or_eq.mp hi with hlt | rfl
    · rw [hold i hlt hload _ hin, h.zeroed i hlt hload j hj hj']
    · rw [hnew hload _ hin, ProgramHeader.load_of_ge hj hj']
  · rw [hm fun hin => hx (Or.inl (Or.inl (Or.inr hin))), ProgramHeader.process_of_notMem fun h1 =>
      hout k (Nat.lt_succ_self k) ⟨hk, h1⟩]
    exact h.frame x hx fun i hi => hout i (Nat.lt_succ_of_lt hi)

/-- Before round `k` of `.ph_loop`. -/
structure LoopAt (L : Stage2Labels) (m : ByteMemory) (k : ℕ) (s : Loader) : Prop where
  rsi : (s.reg .rsi).toNat = phdrAddr m k
  rcx : (s.reg .rcx).toNat = (e_phnum m).toNat - k
  rsp : s.reg .rsp = 0x9000
  stride : load64 s.mem L.e_phentsize.toNat = (e_phentsize m).setWidth 64
  data : L.HoldsData s.mem
  loaded : LoadedUpTo L m k s.mem

theorem ElfImage.phdrAddr_le (himg : ElfImage L m n) (hlow : image n ⊆ Set.Iio (2 ^ 30))
    (hk : k < (e_phnum m).toNat) : phdrAddr m k + 56 ≤ 2 ^ 30 :=
  (himg.headers k hk).trans (himg.end_le hlow)

theorem toNat_labels (L : Stage2Labels) : L.e_phoff.toNat = L.video.toNat + 28 ∧
    L.e_phentsize.toNat = L.video.toNat + 36 ∧ L.e_phnum.toNat = L.video.toNat + 44 := by
  have hvideo := L.video_le
  have h28 : (28 : BitVec 64).toNat = 28 := rfl
  have h36 : (36 : BitVec 64).toNat = 36 := rfl
  have h44 : (44 : BitVec 64).toNat = 44 := rfl
  refine ⟨?_, ?_, ?_⟩
  · rw [Stage2Labels.e_phoff, BitVec.toNat_add_of_lt (by omega), h28]
  · rw [Stage2Labels.e_phentsize, BitVec.toNat_add_of_lt (by omega), h36]
  · rw [Stage2Labels.e_phnum, BitVec.toNat_add_of_lt (by omega), h44]

/-- The call in a round. -/
theorem LoopAt.call (h : LoopAt L m k s) (himg : ElfImage L m n) (hlow : LowImage m n)
    (hm : FirstGigabyte m) (hk : k < (e_phnum m).toNat) : ∃ mem,
      Loader.call L.headerRet Loader.processHeaderEntry s = some ⟨s.reg, mem⟩ ∧
        Set.EqOn mem ((phdr m k).process s.mem) stage2Stackᶜ := by
  have hm' := himg.firstGigabyte h.loaded hm
  have hp : headerAt s.mem (s.reg .rsi).toNat = phdr m k := by
    rw [h.rsi, himg.headerAt_eq h.loaded hk]
  have hend : (s.reg .rsi).toNat + 56 ≤ 2 ^ 30 := by
    rw [h.rsi]
    exact himg.phdrAddr_le hlow.image hk
  have hstack : Disjoint (Set.Ico (s.reg .rsi).toNat ((s.reg .rsi).toNat + 56)) stage2Stack := by
    rw [h.rsi]
    exact (image_disjoint_stack L n).mono_left (himg.header_subset hk)
  have hload : (phdr m k).p_type = 1 → Loader.Loadable (phdr m k) (s.reg .rsi).toNat := by
    intro h1
    rw [h.rsi]
    exact hlow.loadable himg ⟨hk, h1⟩
  have hprocess : FirstGigabyte ((phdr m k).process s.mem) := hm'.congr fun x hx =>
    ProgramHeader.process_of_notMem fun h1 hin =>
      Set.disjoint_left.mp (himg.target_disjoint_tables ⟨hk, h1⟩) hin hx
  have hperforms := Loader.performs_processHeaderEntry hm' hend hstack hp hload
  exact (hperforms.call hm' (fun _ => hprocess.of_eqOn) L.headerRet).apply h.rsp (by omega)

/-- **A round of `.ph_loop` processes the next header.** -/
theorem LoopAt.step (h : LoopAt L m k s) (himg : ElfImage L m n) (hlow : LowImage m n)
    (hm : FirstGigabyte m) (hk : k < (e_phnum m).toNat) (fuel : ℕ) :
    ∃ t, LoopAt L m (k + 1) t ∧ s.phLoop L (fuel + 1)
      = if k + 1 = (e_phnum m).toNat then some ([s.reg .rsi], t)
        else (t.phLoop L fuel).map fun r => (s.reg .rsi :: r.1, r.2) := by
  have hvideo := L.le_video
  have hvideo' := L.video_le
  obtain ⟨-, hsize, -⟩ := toNat_labels L
  obtain ⟨mem, hcall, hmem⟩ := h.call himg hlow hm hk
  have hloaded := h.loaded.process himg hk hmem
  have hkeep : Set.EqOn mem s.mem (stage2Area L) := fun x hx => by
    rw [hmem fun hin => ?_]
    · exact ProgramHeader.process_of_notMem fun h1 hin =>
        Set.disjoint_left.mp (himg.target_disjoint_stage2 ⟨hk, h1⟩) hin hx
    · have := hin.2
      have := hx.1
      omega
  have hstride : load64 mem L.e_phentsize.toNat = (e_phentsize m).setWidth 64 := by
    rw [← h.stride]
    exact load64_congr fun j hj => hkeep ⟨by omega, by omega⟩
  have hdata : L.HoldsData mem := Loader.holdsData_of_eqOn h.data fun x hx =>
    hkeep ⟨hvideo.trans hx.1, by have := hx.2; omega⟩
  have hread : Loader.read64 ⟨s.reg, mem⟩ L.e_phentsize = some ((e_phentsize m).setWidth 64) := by
    rw [Loader.read64, (himg.firstGigabyte hloaded hm).read64_eq (by omega), hstride]
  have hrsi : (s.reg .rsi + (e_phentsize m).setWidth 64).toNat = phdrAddr m (k + 1) := by
    have hnow := himg.phdrAddr_le hlow.image hk
    have hwidth : ((e_phentsize m).setWidth 64).toNat = (e_phentsize m).toNat := by
      rw [BitVec.toNat_setWidth, Nat.mod_eq_of_lt (by omega)]
    rw [BitVec.toNat_add_of_lt (by rw [h.rsi, hwidth]; omega), h.rsi, hwidth, phdrAddr, phdrAddr,
      Nat.succ_mul, Nat.add_assoc, Nat.add_assoc]
  have hrcx : (s.reg .rcx - 1).toNat = (e_phnum m).toNat - (k + 1) := by
    have hone : (1 : BitVec 64).toNat = 1 := rfl
    have hcount := h.rcx
    rw [BitVec.toNat_sub, hone]
    omega
  have hlast : s.reg .rcx - 1 = 0 ↔ k + 1 = (e_phnum m).toNat := by
    rw [← BitVec.toNat_inj, hrcx]
    change (e_phnum m).toNat - (k + 1) = 0 ↔ _
    omega
  refine ⟨((Loader.mk s.reg mem).set .rsi (s.reg .rsi + (e_phentsize m).setWidth 64)).set .rcx
    (s.reg .rcx - 1), ⟨?_, ?_, ?_, hstride, hdata, hloaded⟩, ?_⟩
  · simpa using hrsi
  · simpa using hrcx
  · simpa using h.rsp
  · have hreg : Function.update s.reg .rsi (s.reg .rsi + (e_phentsize m).setWidth 64) .rcx
        = s.reg .rcx := Function.update_of_ne (by decide) _ _
    simp only [Loader.phLoop, hcall, hread, Option.bind_eq_bind, Option.bind_some, Loader.reg_set,
      Function.update_self, hreg, hlast]
    split
    · rfl
    · cases Loader.phLoop L fuel _ <;> rfl

/-- **The whole loop.** -/
theorem LoopAt.run (fuel : ℕ) (himg : ElfImage L m n) (hlow : LowImage m n)
    (hm : FirstGigabyte m) {r : ℕ} (h : LoopAt L m k s) (hr : k + (r + 1) = (e_phnum m).toNat)
    (hfuel : r < fuel) :
    ∃ headers t, s.phLoop L fuel = some (headers, t) ∧
      headers.map BitVec.toNat = (List.range' k (r + 1)).map (phdrAddr m) ∧
      LoopAt L m (e_phnum m).toNat t := by
  induction r generalizing s k fuel with
  | zero =>
    obtain ⟨fuel, rfl⟩ := Nat.exists_eq_add_of_lt hfuel
    obtain ⟨t, ht, hloop⟩ := h.step himg hlow hm (by omega) (0 + fuel)
    rw [if_pos hr] at hloop
    refine ⟨_, t, hloop, ?_, hr ▸ ht⟩
    rw [List.map_singleton, h.rsi]
    rfl
  | succ r ih =>
    obtain ⟨fuel, rfl⟩ := Nat.exists_eq_add_of_lt hfuel
    obtain ⟨t, ht, hloop⟩ := h.step himg hlow hm (by omega) (r + 1 + fuel)
    obtain ⟨headers, u, hu, hheaders, hend⟩ := ih _ ht (by omega) (show r < r + 1 + fuel by omega)
    rw [if_neg (by omega), hu] at hloop
    refine ⟨s.reg .rsi :: headers, u, hloop, ?_, hend⟩
    rw [List.map_cons, h.rsi, hheaders, List.range'_succ (n := r + 1), List.map_cons]

/-! ### The way to the loop -/

theorem toNat_add_start {v : BitVec 64} (h : 0x402000 + v.toNat < 2 ^ 64) :
    (v + 0x402000).toNat = 0x402000 + v.toNat := by
  have hstart : (0x402000 : BitVec 64).toNat = 0x402000 := rfl
  rw [BitVec.toNat_add_of_lt (by omega), hstart, Nat.add_comm]

/-- `mov ax, v` where `rax` holds no more than 16 bits. -/
theorem setAx_eq {v w : BitVec 16} (h : s.reg .rax = w.setWidth 64) :
    s.setAx v = s.set .rax (v.setWidth 64) := by
  have hnot : ∀ i < 64, (~~~(0xffff : BitVec 64)).getLsbD i = decide (16 ≤ i) := by decide
  have hmask : (w.setWidth 64 : BitVec 64) &&& ~~~(0xffff : BitVec 64) = 0#64 := by
    refine BitVec.eq_of_getLsbD_eq fun i hi => ?_
    rw [BitVec.getLsbD_and, BitVec.getLsbD_setWidth, hnot i hi, BitVec.getLsbD_zero]
    by_cases hlow : i < 16
    · rw [decide_eq_false (by omega : ¬ 16 ≤ i), Bool.and_false]
    · rw [BitVec.getLsbD_of_ge _ _ (by omega), Bool.and_false, Bool.false_and]
  rw [Loader.setAx, h, hmask, BitVec.zero_or]

/-- A variable of the loader is written and nothing else. -/
theorem write_variable {a v : BitVec 64} (hm : FirstGigabyte s.mem) (ha : 0x400200 ≤ a.toNat)
    (ha' : a.toNat + 8 ≤ 0x402000) :
    s.write a (bytes64 v) = some ⟨s.reg, store64 s.mem a.toNat v⟩ ∧
      FirstGigabyte (store64 s.mem a.toNat v) := by
  have hrange : Set.Ico a.toNat (a.toNat + (bytes64 v).length) ⊆ Set.Iio (2 ^ 30) \ pageTables := by
    rw [length_bytes64]
    exact Ico_subset_mapped (by omega) (by omega)
  exact ⟨Loader.write_eq hm hrange,
    hm.storeBytes (Set.disjoint_left.mpr fun x hx => (hrange hx).2)⟩

/-- The code before the loop, once the screen has been cleared: the loader sets its variables. -/
theorem longMode_eq {m₁ : ByteMemory} (hm₁ : FirstGigabyte m₁)
    (hcls : Loader.call L.clsRet Loader.cls s = some ⟨s.reg, m₁⟩)
    (hkeep₁ : ∀ x, 0x400200 ≤ x → m₁ x = s.mem x) : ∃ t, s.longMode L = some t ∧
      t.reg .rsi = e_phoff s.mem + 0x402000 ∧ t.reg .rcx = (e_phnum s.mem).setWidth 64 ∧
      t.reg .rsp = s.reg .rsp ∧
      load64 t.mem L.e_phentsize.toNat = (e_phentsize s.mem).setWidth 64 ∧
      Set.EqOn t.mem m₁ (Set.Ico (L.video.toNat + 28) (L.video.toNat + 52))ᶜ := by
  have hvideo := L.le_video
  have hvideo' := L.video_le
  obtain ⟨hphoff, hphentsize, hphnum⟩ := toNat_labels L
  obtain ⟨first, hfirst⟩ : ∃ v, v = e_phoff s.mem + 0x402000 := ⟨_, rfl⟩
  have hread₁ : ∀ ρ, Loader.read64 ⟨ρ, m₁⟩ (0x402000 + 32) = some (e_phoff s.mem) := fun ρ => by
    have haddr : (0x402000 + 32 : BitVec 64).toNat = 0x402000 + 32 := rfl
    rw [Loader.read64, hm₁.read64_eq (by rw [haddr]; omega), haddr, e_phoff]
    exact congrArg some (load64_congr fun j hj => hkeep₁ _ (by omega))
  let m₂ := store64 m₁ L.e_phoff.toNat first
  let m₃ := store64 m₂ L.e_phentsize.toNat ((e_phentsize s.mem).setWidth 64)
  let m₄ := store64 m₃ L.e_phnum.toNat ((e_phnum s.mem).setWidth 64)
  have hm₂ : FirstGigabyte m₂ := (write_variable (s := ⟨s.reg, m₁⟩) hm₁ (by omega) (by omega)).2
  have hm₃ : FirstGigabyte m₃ := (write_variable (s := ⟨s.reg, m₂⟩) hm₂ (by omega) (by omega)).2
  have hm₄ : FirstGigabyte m₄ := (write_variable (s := ⟨s.reg, m₃⟩) hm₃ (by omega) (by omega)).2
  have hwrite₂ : ∀ ρ, Loader.write ⟨ρ, m₁⟩ L.e_phoff (bytes64 first) = some ⟨ρ, m₂⟩ := fun ρ =>
    (write_variable (s := ⟨ρ, m₁⟩) hm₁ (by omega) (by omega)).1
  have hwrite₃ : ∀ ρ, Loader.write ⟨ρ, m₂⟩ L.e_phentsize
      (bytes64 ((e_phentsize s.mem).setWidth 64)) = some ⟨ρ, m₃⟩ := fun ρ =>
    (write_variable (s := ⟨ρ, m₂⟩) hm₂ (by omega) (by omega)).1
  have hwrite₄ : ∀ ρ, Loader.write ⟨ρ, m₃⟩ L.e_phnum
      (bytes64 ((e_phnum s.mem).setWidth 64)) = some ⟨ρ, m₄⟩ := fun ρ =>
    (write_variable (s := ⟨ρ, m₃⟩) hm₃ (by omega) (by omega)).1
  have hread₂ : ∀ ρ, Loader.read16 ⟨ρ, m₂⟩ (0x402000 + 54) = some (e_phentsize s.mem) := fun ρ => by
    have haddr : (0x402000 + 54 : BitVec 64).toNat = 0x402000 + 54 := rfl
    rw [Loader.read16, hm₂.read16_eq (by rw [haddr]; omega), haddr, e_phentsize]
    refine congrArg some (load16_congr ?_ ?_)
    · exact (store64_of_outside (by omega)).trans (hkeep₁ _ (by omega))
    · exact (store64_of_outside (by omega)).trans (hkeep₁ _ (by omega))
  have hread₃ : ∀ ρ, Loader.read16 ⟨ρ, m₃⟩ (0x402000 + 56) = some (e_phnum s.mem) := fun ρ => by
    have haddr : (0x402000 + 56 : BitVec 64).toNat = 0x402000 + 56 := rfl
    rw [Loader.read16, hm₃.read16_eq (by rw [haddr]; omega), haddr, e_phnum]
    refine congrArg some (load16_congr ?_ ?_)
    · exact (store64_of_outside (by omega)).trans
        ((store64_of_outside (by omega)).trans (hkeep₁ _ (by omega)))
    · exact (store64_of_outside (by omega)).trans
        ((store64_of_outside (by omega)).trans (hkeep₁ _ (by omega)))
  have hread₄ : ∀ ρ, Loader.read64 ⟨ρ, m₄⟩ L.e_phoff = some first := fun ρ => by
    rw [Loader.read64, hm₄.read64_eq (by omega), load64_store64_of_disjoint (by omega),
      load64_store64_of_disjoint (by omega), load64_store64]
  have hread₅ : ∀ ρ, Loader.read64 ⟨ρ, m₄⟩ L.e_phnum
      = some ((e_phnum s.mem).setWidth 64) := fun ρ => by
    rw [Loader.read64, hm₄.read64_eq (by omega), load64_store64]
  have hax₂ : ∀ ρ : LoaderReg → BitVec 64, Loader.setAx ⟨Function.update ρ .rax 0, m₂⟩
      (e_phentsize s.mem) = ⟨Function.update (Function.update ρ .rax 0) .rax
        ((e_phentsize s.mem).setWidth 64), m₂⟩ := fun ρ => setAx_eq (w := 0) (by simp)
  have hax₃ : ∀ ρ : LoaderReg → BitVec 64, Loader.setAx ⟨Function.update ρ .rax
      ((e_phentsize s.mem).setWidth 64), m₃⟩ (e_phnum s.mem) = ⟨Function.update (Function.update ρ
        .rax ((e_phentsize s.mem).setWidth 64)) .rax ((e_phnum s.mem).setWidth 64), m₃⟩ := fun ρ =>
    setAx_eq (w := e_phentsize s.mem) (by simp)
  have hset : ∀ (ρ : LoaderReg → BitVec 64) (m : ByteMemory) (r : LoaderReg) (v : BitVec 64),
      Loader.set ⟨ρ, m⟩ r v = ⟨Function.update ρ r v, m⟩ := fun _ _ _ _ => rfl
  rw [← hfirst]
  refine ⟨⟨?ρ, m₄⟩, ?_, ?_, ?_, ?_, ?_, fun x hx => ?_⟩
  rotate_left
  · simp only [Loader.longMode, hcls, hset, Option.bind_eq_bind, Option.bind_some,
      Function.update_self, hread₁, ← hfirst, hwrite₂, Function.update_of_ne, ne_eq,
      reduceCtorEq, not_false_eq_true, hread₂, hax₂, hwrite₃, hread₃, hax₃, hwrite₄,
      hread₄, hread₅]
    rfl
  · simp
  · simp
  · simp
  · rw [load64_store64_of_disjoint (by omega), load64_store64]
  · have hout : x < L.video.toNat + 28 ∨ L.video.toNat + 52 ≤ x := by
      by_contra hin
      exact hx ⟨by omega, by omega⟩
    exact (store64_of_outside (by omega)).trans
      ((store64_of_outside (by omega)).trans (store64_of_outside (by omega)))

/-- **The code before the loop.** -/
theorem longMode_spec (himg : ElfImage L s.mem n) (hlow : image n ⊆ Set.Iio (2 ^ 30))
    (hm : FirstGigabyte s.mem) (hdata : L.HoldsData s.mem) (hrsp : s.reg .rsp = 0x9000)
    (hdf : (s.reg .rflags).getLsbD 10 = false) :
    ∃ t, s.longMode L = some t ∧ LoopAt L s.mem 0 t := by
  have hvideo := L.le_video
  have hvideo' := L.video_le
  obtain ⟨hphoff, hphentsize, hphnum⟩ := toNat_labels L
  -- `cls`
  have hcleared : FirstGigabyte (Loader.cleared s.mem) := hm.congr fun x hx =>
    Loader.cleared_of_notMem fun hin => by
      have := hx.2
      have := hin.1
      omega
  obtain ⟨m₁, hcls, heq₁⟩ := ((Loader.performs_cls hm hdf).call hm
    (fun _ => hcleared.of_eqOn) L.clsRet).apply hrsp (by omega)
  have hm₁ : FirstGigabyte m₁ := hcleared.of_eqOn heq₁
  have hkeep₁ : ∀ x, 0x400200 ≤ x → m₁ x = s.mem x := fun x hx => by
    rw [heq₁ fun hin => ?_, Loader.cleared_of_notMem fun hin => ?_]
    · have := hin.2
      omega
    · have := hin.2
      omega
  obtain ⟨t, hrun, hrsi, hrcx, hsp, hstride, hmem⟩ := longMode_eq hm₁ hcls hkeep₁
  have hfirst := himg.phdrAddr_le hlow himg.phnum
  refine ⟨t, hrun, ?_, ?_, hsp.trans hrsp, hstride, ?_, ?_, ?_, fun x hx _ => ?_⟩
  · rw [phdrAddr, Nat.zero_mul, Nat.add_zero] at hfirst ⊢
    rw [hrsi, toNat_add_start (by omega)]
  · rw [hrcx, BitVec.toNat_setWidth, Nat.mod_eq_of_lt (by omega), Nat.sub_zero]
  · refine Loader.holdsData_of_eqOn hdata fun x hx => ?_
    have hle := hx.1
    have hlt := hx.2
    rw [hmem fun hin => ?_, hkeep₁ x (by omega)]
    have := hin.1
    omega
  · intro i hi
    exact absurd hi (Nat.not_lt_zero i)
  · intro i hi
    exact absurd hi (Nat.not_lt_zero i)
  · have hvar : x ∉ Set.Ico (L.video.toNat + 28) (L.video.toNat + 52) := fun hin =>
      hx (Or.inl (Or.inl (Or.inl (Or.inr hin))))
    rw [hmem hvar, heq₁ fun hin => hx (Or.inl (Or.inl (Or.inr hin))),
      Loader.cleared_of_notMem fun hin => hx ?_]
    rcases Nat.lt_or_ge x (0xb8000 + 2 * (80 * 25)) with hlt | hge
    · exact Or.inl (Or.inr ⟨hin.1, hlt⟩)
    · exact Or.inr ⟨hge, hin.2⟩

/-! ### The kernel -/

/-- Writes to what the loader uses leave the segments alone. -/
theorem LoadedUpTo.of_eqOn {m'' : ByteMemory} {S : Set ℕ} (h : LoadedUpTo L m k m')
    (himg : ElfImage L m n) (hm : Set.EqOn m'' m' Sᶜ) (hS : S ⊆ loaderArea L)
    (htarget : ∀ i, IsLoad m i → Disjoint (phdr m i).target S) : LoadedUpTo L m k m'' := by
  have hold : ∀ i, IsLoad m i → ∀ x ∈ (phdr m i).target, m'' x = m' x := fun i hi x hx =>
    hm fun hin => Set.disjoint_left.mp (htarget i hi) hx hin
  refine ⟨fun i hi hload j hj => ?_, fun i hi hload j hj hj' => ?_, fun x hx hout => ?_⟩
  · have hfilesz := himg.filesz i hload
    rw [hold i hload _ ⟨by omega, by omega⟩, h.copied i hi hload j hj]
  · rw [hold i hload _ ⟨by omega, by omega⟩, h.zeroed i hi hload j hj hj']
  · rw [hm fun hin => hx (Or.inl (hS hin)), h.frame x hx hout]

/-- What follows the loop writes to. -/
theorem greeting_subset (L : Stage2Labels) :
    stage2Stack ∪ Loader.greetingArea L ⊆ loaderArea L := by
  intro x hx
  rcases hx with h | h | h
  · exact Or.inl (Or.inr h)
  · have := h.2
    exact Or.inr ⟨h.1, by omega⟩
  · have := h.2
    exact Or.inl (Or.inl (Or.inl ⟨h.1, by omega⟩))

theorem ElfImage.target_disjoint_greeting (himg : ElfImage L m n) (hi : IsLoad m i) :
    Disjoint (phdr m i).target (stage2Stack ∪ Loader.greetingArea L) := by
  have hvideo := L.le_video
  rw [Set.disjoint_left]
  intro x hx hin
  rcases hin with h | h | h
  · exact Set.disjoint_left.mp (himg.target_disjoint_stack hi) hx h
  · have := h.2
    exact Set.disjoint_left.mp (himg.target_disjoint_screen hi) hx ⟨h.1, by omega⟩
  · have := h.1
    have := h.2
    exact Set.disjoint_left.mp (himg.target_disjoint_stage2 hi) hx ⟨by omega, by omega⟩

/-- **The kernel is called with the segments in memory.** -/
theorem startKernel_spec (himg : ElfImage L m n) (hm : FirstGigabyte m)
    (h : LoopAt L m (e_phnum m).toNat s) (hfuel : 14 ≤ fuel) :
    ∃ u, s.startKernel L fuel = some (e_entry m, u) ∧ Loaded L m u.mem := by
  have hm' := himg.firstGigabyte h.loaded hm
  have hvideo := L.le_video
  have hvideo' := L.video_le
  -- `write_string`
  have hQ : ∀ mem, Set.EqOn mem s.mem (stage2Stack ∪ Loader.greetingArea L)ᶜ →
      FirstGigabyte mem := fun mem hmem => himg.firstGigabyte (h.loaded.of_eqOn himg hmem
    (greeting_subset L) fun _ => himg.target_disjoint_greeting) hm
  obtain ⟨mem, hcall, hmem⟩ := ((Loader.performs_writeString (ρ := (s.set .rsi L.message2).reg) hm'
    (by simp) h.data hfuel).call hm' hQ L.writeRet).apply (s := s.set .rsi L.message2)
      (by simpa using h.rsp) (by omega)
  have hloaded := h.loaded.of_eqOn himg hmem (greeting_subset L) fun _ =>
    himg.target_disjoint_greeting
  have hmem' := himg.firstGigabyte hloaded hm
  -- the entry point is read from the image, and the call pushes the return address
  have hread : ∀ ρ, Loader.read64 ⟨ρ, mem⟩ (0x402000 + 24) = some (e_entry m) := fun ρ => by
    have hsize := himg.size
    have haddr : (0x402000 + 24 : BitVec 64).toNat = 0x402000 + 24 := rfl
    rw [Loader.read64, hmem'.read64_eq (by rw [haddr]; omega), haddr, e_entry]
    exact congrArg some (load64_congr fun j hj => himg.image_eqOn hloaded ⟨by omega, by omega⟩)
  let t := ((Loader.mk (s.set .rsi L.message2).reg mem).set .rsi 0x402000).set .rax (e_entry m)
  have hrsp : t.reg .rsp = 0x9000 := by simpa [t] using h.rsp
  have henters : Loader.Enters t.reg mem (40 + 8) t := Loader.enters_top hrsp (by omega)
  refine ⟨t.pushed L.halt, ?_, hloaded.of_eqOn himg (henters.pushed L.halt).mem
    (fun x hx => Or.inl (Or.inr hx)) fun _ => himg.target_disjoint_stack⟩
  refine Option.bind_eq_some_iff.mpr ⟨_, hcall, ?_⟩
  refine Option.bind_eq_some_iff.mpr ⟨_, hread _, ?_⟩
  refine Option.bind_eq_some_iff.mpr ⟨_, henters.push_eq hmem' L.halt, ?_⟩
  simp

/-- **Every image in the first gigabyte is loaded exactly, and its entry point is called.** The
tables are those `pde_loop` leaves where the address bits in the upper halves of the entries were
zero; the boot sector has set the stack pointer, and `_start` has cleared the direction flag. -/
theorem loadsExactly_of_low (himg : ElfImage L s.mem n) (hlow : LowImage s.mem n)
    (hm : FirstGigabyte s.mem) (hdata : L.HoldsData s.mem) (hrsp : s.reg .rsp = 0x9000)
    (hdf : (s.reg .rflags).getLsbD 10 = false) (hfuel : 2 ^ 16 ≤ fuel) :
    LoadsExactly L fuel s := by
  obtain ⟨t, ht, hloop⟩ := longMode_spec (L := L) himg hlow.image hm hdata hrsp hdf
  have hphnum := himg.phnum
  have hlt := (e_phnum s.mem).isLt
  obtain ⟨r, hr⟩ := Nat.exists_eq_add_of_le hphnum
  obtain ⟨headers, u, hu, hheaders, hend⟩ := hloop.run fuel himg hlow hm (r := r)
    (by omega) (by omega)
  refine ⟨headers, u, ?_, ?_, hend.loaded, startKernel_spec himg hm hend (by omega)⟩
  · rw [Loader.loadImage, ht]
    exact hu
  · rw [hheaders, hr, List.range_eq_range', Nat.add_comm 1 r]

/-- An image whose first segment begins where nothing is mapped ends the run. -/
theorem loadImage_eq_none (himg : ElfImage L s.mem n) (hlow : image n ⊆ Set.Iio (2 ^ 30))
    (hm : FirstGigabyte s.mem) (hdata : L.HoldsData s.mem) (hrsp : s.reg .rsp = 0x9000)
    (hdf : (s.reg .rflags).getLsbD 10 = false) (h1 : (phdr s.mem 0).p_type = 1)
    (hmemsz : 0 < (phdr s.mem 0).p_memsz.toNat)
    (hnone : ∀ m', Set.EqOn m' s.mem pageTables →
      Paging.translate 0x1000 m' (phdr s.mem 0).p_paddr = none) (fuel : ℕ) :
    s.loadImage L fuel = none := by
  obtain ⟨t, ht, hloop⟩ := longMode_spec (L := L) himg hlow hm hdata hrsp hdf
  rw [Loader.loadImage, ht]
  cases fuel with
  | zero => rfl
  | succ fuel =>
    have hm' := himg.firstGigabyte hloop.loaded hm
    have hp : headerAt t.mem (t.reg .rsi).toNat = phdr s.mem 0 := by
      rw [hloop.rsi, himg.headerAt_eq hloop.loaded himg.phnum]
    have hend : (t.reg .rsi).toNat + 56 ≤ 2 ^ 30 := by
      rw [hloop.rsi]
      exact himg.phdrAddr_le hlow himg.phnum
    have hstack : Disjoint (Set.Ico (t.reg .rsi).toNat ((t.reg .rsi).toNat + 56)) stage2Stack := by
      rw [hloop.rsi]
      exact (image_disjoint_stack L n).mono_left (himg.header_subset himg.phnum)
    have htables : Set.EqOn t.mem s.mem pageTables :=
      hloop.loaded.eqOn (pageTables_disjoint_loaderArea L) fun _ => himg.target_disjoint_tables
    have hnone' : ∀ m', Set.EqOn m' t.mem stage2Stackᶜ →
        Paging.translate 0x1000 m' (phdr s.mem 0).p_paddr = none := fun m' hm' =>
      hnone m' fun x hx => (hm' fun hin => by
        have := hx.2
        have := hin.1
        omega).trans (htables hx)
    have hfault := (Loader.faults_processHeaderEntry hm' hend hstack hp h1 hmemsz hnone').call hm'
      L.headerRet t (Loader.enters_top hloop.rsp (by omega))
    simp only [Option.bind_eq_bind, Option.bind_some, Loader.phLoop, hfault, Option.bind_none]

/-- **Stage 2 loads every image in the first gigabyte exactly and calls its entry point.** The
memory is what `pde_loop` leaves, the address bits in the upper halves of the entries of the tables
having been zero; the boot sector has set the stack pointer, and `_start` has cleared the direction
flag. -/
theorem stage2_loadsExactly {mem : ByteMemory} {rounds : ℕ} {tables : Stage2}
    (hrounds : 512 ≤ rounds) (htables : Stage2.buildTables rounds mem = some tables)
    (hzero : ∀ i < 512, (load32 mem (0x3004 + 8 * i)).toNat % 2 ^ 20 = 0)
    (hs : s.mem = tables.mem) (hrsp : s.reg .rsp = 0x9000)
    (hdf : (s.reg .rflags).getLsbD 10 = false) (hdata : L.HoldsData s.mem)
    (himg : ElfImage L s.mem n) (hlow : LowImage s.mem n) (hfuel : 2 ^ 16 ≤ fuel) :
    LoadsExactly L fuel s := by
  obtain ⟨t, ht, h⟩ := buildTables_spec mem hrounds
  obtain rfl : t = tables := Option.some.inj (ht.symm.trans htables)
  have hm : FirstGigabyte s.mem := hs ▸ h.firstGigabyte hzero
  exact loadsExactly_of_low himg hlow hm hdata hrsp hdf hfuel

/-! ### An example -/

def exampleLabels : Stage2Labels where
  video := 0x400400
  clsRet := 0
  headerRet := 0
  writeRet := 0
  halt := 0
  le_video := by decide
  video_le := by decide

/-- An image with a segment of four bytes in the file and eight in memory, and a note. -/
def exampleImage (p_paddr : BitVec 64) : List (BitVec 8) :=
  List.replicate 24 0 ++ bytes64 p_paddr ++ bytes64 64 ++ List.replicate 14 0 ++ bytes16 56 ++
    bytes16 2 ++ List.replicate 6 0 ++
    (bytes64 1 ++ bytes64 176 ++ bytes64 0 ++ bytes64 p_paddr ++ bytes64 4 ++ bytes64 8 ++
      bytes64 0) ++
    (bytes64 4 ++ List.replicate 48 0) ++ [0xf4, 0xeb, 0xfd, 0x90]

def exampleMemory (p_paddr : BitVec 64) : ByteMemory :=
  storeBytes (storeBytes (fun _ => 0) 0x400400 stage2Data) 0x402000 (exampleImage p_paddr)

/-- The headers are read as they were written. -/
structure IsExample (p_paddr : BitVec 64) (m : ByteMemory) : Prop where
  phnum : e_phnum m = 2
  phentsize : e_phentsize m = 56
  phoff : e_phoff m = 64
  load : headerAt m 0x402040 = ⟨1, 176, p_paddr, 4, 8⟩
  note : headerAt m 0x402078 = ⟨4, 0, 0, 0, 0⟩

variable {p_paddr : BitVec 64}

theorem IsExample.of_eqOn (h : IsExample p_paddr m) (hm : Set.EqOn m' m (Set.Ici 0x4000)) :
    IsExample p_paddr m' where
  phnum := (load16_congr (hm (by decide)) (hm (by decide))).trans h.phnum
  phentsize := (load16_congr (hm (by decide)) (hm (by decide))).trans h.phentsize
  phoff := (load64_congr fun j _ => hm (show 0x4000 ≤ 0x402000 + 32 + j by omega)).trans h.phoff
  load := (headerAt_congr fun x hx => hm ((show 0x4000 ≤ 0x402040 by decide).trans hx.1)).trans
    h.load
  note := (headerAt_congr fun x hx => hm ((show 0x4000 ≤ 0x402078 by decide).trans hx.1)).trans
    h.note

theorem IsExample.phdrAddr_eq (h : IsExample p_paddr m) (i : ℕ) :
    phdrAddr m i = 0x402040 + i * 56 := by
  have h64 : (64 : BitVec 64).toNat = 64 := rfl
  have h56 : (56 : BitVec 16).toNat = 56 := rfl
  rw [phdrAddr, h.phoff, h.phentsize, h64, h56]

theorem IsExample.lt_two (h : IsExample p_paddr m) (hi : i < (e_phnum m).toNat) : i < 2 := by
  rw [h.phnum] at hi
  exact hi

theorem IsExample.phdr_zero (h : IsExample p_paddr m) : phdr m 0 = ⟨1, 176, p_paddr, 4, 8⟩ := by
  rw [phdr, h.phdrAddr_eq, ← h.load]

/-- The first header is the only one to be loaded. -/
theorem IsExample.eq_zero (h : IsExample p_paddr m) (hi : IsLoad m i) : i = 0 := by
  have hlt := h.lt_two hi.1
  by_contra hne
  obtain rfl : i = 1 := by omega
  have hnote : phdr m 1 = ⟨4, 0, 0, 0, 0⟩ := by rw [phdr, h.phdrAddr_eq, ← h.note]
  have htype := hi.2
  rw [hnote] at htype
  exact absurd htype (by decide)

theorem IsExample.elfImage (h : IsExample p_paddr m)
    (hp : Disjoint (Set.Ico p_paddr.toNat (p_paddr.toNat + 8)) (image 180 ∪
      stage2Area exampleLabels ∪ stage2Stack ∪ pageTables ∪ textScreen)) :
    ElfImage exampleLabels m 180 where
  size := by omega
  phnum := by
    rw [h.phnum]
    decide
  headers i hi := by
    have hlt := h.lt_two hi
    rw [h.phdrAddr_eq]
    omega
  filesz i hi := by
    rw [h.eq_zero hi, h.phdr_zero]
    exact (by decide : (4 : BitVec 64).toNat ≤ (8 : BitVec 64).toNat)
  file i hi := by
    rw [h.eq_zero hi, h.phdr_zero]
    intro x hx
    have hle : 0x402000 + 176 ≤ x := hx.1
    have hlt : x < 0x402000 + 176 + 4 := hx.2
    exact ⟨by omega, by omega⟩
  disjoint i j hi hj hne := absurd ((h.eq_zero hi).trans (h.eq_zero hj).symm) hne
  apart i hi := by
    rw [h.eq_zero hi, h.phdr_zero]
    exact hp

/-- The example after the tables have been built. -/
theorem exists_example (p_paddr : BitVec 64)
    (h : IsExample p_paddr (exampleMemory p_paddr)) : ∃ t,
    Stage2.buildTables 512 (exampleMemory p_paddr) = some t ∧
      Mapped (clearedTables (exampleMemory p_paddr)) 512 t ∧ IsExample p_paddr t.mem ∧
      exampleLabels.HoldsData t.mem := by
  obtain ⟨t, ht, hmapped⟩ := buildTables_spec (exampleMemory p_paddr) (le_refl 512)
  have hkeep : Set.EqOn t.mem (exampleMemory p_paddr) (Set.Ici 0x4000) := fun x hx => by
    rw [Set.mem_Ici] at hx
    rw [hmapped.frame x fun i _ => by omega, clearedTables, store16_of_outside (by omega),
      store16_of_outside (by omega), memsetd_of_outside (by omega)]
  refine ⟨t, ht, hmapped, h.of_eqOn hkeep, fun i hi => ?_⟩
  have hlt : i < 28 := Loader.length_stage2Data ▸ hi
  have hvideo : exampleLabels.video.toNat = 0x400400 := rfl
  rw [hvideo, hkeep (by rw [Set.mem_Ici]; omega), exampleMemory, storeBytes_of_outside (by omega),
    storeBytes_of_inside hi]

/-- The upper halves of the entries are zero. -/
theorem exampleMemory_upper (p_paddr : BitVec 64) (i : ℕ) (hi : i < 512) :
    (load32 (exampleMemory p_paddr) (0x3004 + 8 * i)).toNat % 2 ^ 20 = 0 := by
  have hzero : load32 (exampleMemory p_paddr) (0x3004 + 8 * i) = 0 := by
    rw [load32_congr (m := fun _ => 0) (a := 0) fun j hj => ?_]
    · rfl
    · rw [exampleMemory, storeBytes_of_outside (by omega), storeBytes_of_outside (by omega)]
  rw [hzero]
  rfl

/-- Registers when `long_mode` starts. -/
def exampleRegs : LoaderReg → BitVec 64 := Function.update (fun _ => 0) .rsp 0x9000

theorem exampleRegs_rflags : (exampleRegs .rflags).getLsbD 10 = false := by simp [exampleRegs]

/-- The theorem for a segment that is loaded at two megabytes. -/
theorem stage2_loadsExactly_low : ∃ t,
    Stage2.buildTables 512 (exampleMemory 0x200000) = some t ∧
      LoadsExactly exampleLabels (2 ^ 16) ⟨exampleRegs, t.mem⟩ := by
  obtain ⟨t, ht, -, hexample, hdata⟩ := exists_example 0x200000
    ⟨by decide +kernel, by decide +kernel, by decide +kernel, by decide +kernel, by decide +kernel⟩
  have hp : Disjoint (Set.Ico (0x200000 : BitVec 64).toNat ((0x200000 : BitVec 64).toNat + 8))
      (image 180 ∪ stage2Area exampleLabels ∪ stage2Stack ∪ pageTables ∪ textScreen) := by
    simp only [Set.disjoint_union_right]
    refine ⟨⟨⟨⟨?_, ?_⟩, ?_⟩, ?_⟩, ?_⟩
    all_goals exact Set.Ico_disjoint_Ico.mpr (by decide)
  have hlow : LowImage t.mem 180 := by
    refine ⟨fun x hx => ?_, fun i hi => ?_⟩
    · have := hx.2
      rw [Set.mem_Iio]
      omega
    · rw [hexample.eq_zero hi, hexample.phdr_zero]
      intro x hx
      have hlt : x < 0x200008 := hx.2
      rw [Set.mem_Iio]
      omega
  exact ⟨t, ht, stage2_loadsExactly (s := ⟨exampleRegs, t.mem⟩) le_rfl ht (exampleMemory_upper _)
    rfl rfl exampleRegs_rflags hdata (hexample.elfImage hp) hlow le_rfl⟩

/-- **A segment that belongs at one gigabyte is never loaded.** -/
theorem not_loadsExactly_gigabyte : ∃ t,
    Stage2.buildTables 512 (exampleMemory 0x40000000) = some t ∧
      (∀ i < 512, (load32 (exampleMemory 0x40000000) (0x3004 + 8 * i)).toNat % 2 ^ 20 = 0) ∧
      exampleLabels.HoldsData t.mem ∧ ElfImage exampleLabels t.mem 180 ∧
      ∀ fuel, ¬ LoadsExactly exampleLabels fuel ⟨exampleRegs, t.mem⟩ := by
  obtain ⟨t, ht, hmapped, hexample, hdata⟩ := exists_example 0x40000000
    ⟨by decide +kernel, by decide +kernel, by decide +kernel, by decide +kernel, by decide +kernel⟩
  have hp : Disjoint (Set.Ico (0x40000000 : BitVec 64).toNat
      ((0x40000000 : BitVec 64).toNat + 8))
      (image 180 ∪ stage2Area exampleLabels ∪ stage2Stack ∪ pageTables ∪ textScreen) := by
    simp only [Set.disjoint_union_right]
    refine ⟨⟨⟨⟨?_, ?_⟩, ?_⟩, ?_⟩, ?_⟩
    all_goals exact Set.Ico_disjoint_Ico.mpr (by decide)
  have himg := hexample.elfImage hp
  refine ⟨t, ht, exampleMemory_upper _, hdata, himg, ?_⟩
  rintro fuel ⟨headers, u, hrun, -⟩
  have hlow : image 180 ⊆ Set.Iio (2 ^ 30) := fun x hx => by
    have := hx.2
    rw [Set.mem_Iio]
    omega
  have hnone := loadImage_eq_none (s := ⟨exampleRegs, t.mem⟩) himg hlow
    (hmapped.firstGigabyte (exampleMemory_upper _)) hdata rfl exampleRegs_rflags
    (by rw [hexample.phdr_zero]) (by rw [hexample.phdr_zero]; decide)
    (fun m' hm' => hmapped.translate_eq_none hm' (by rw [hexample.phdr_zero]; decide)) fuel
  rw [hnone] at hrun
  cases hrun

end FrogOS
