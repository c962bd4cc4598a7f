import FrogOS.BootProtected
import FrogOS.Diagnostics
import FrogOS.LoadImage

/-!
# From the disk to the kernel

`make_disk_img.py` numbers the sectors of the disk, and the `Makefile` puts the boot sector, stage 2
and the kernel on it. What the kernel prints first is the number of the last sector, from where the
boot sector has copied it to: the line is right if all the parts before it have worked together.

The parts are those of `FrogOS.BootProtected`, `FrogOS.Stage2Paging`, `FrogOS.LoadImage` and
`FrogOS.ConsoleOutput`. Each of them assumes of memory what the one before it leaves there. Between
the boot sector and stage 2 that is the copy of the disk; the upper halves of the page tables, which
nobody writes, must have been clear from the beginning.

## Main definitions

* `makeDiskImg`, `dd`, `diskImg` — the contents of the disk
* `Files.Bootable` — files that fit on the disk and into memory
* `cmainStart` — the first statements of `cmain`

## Main results

* `boots` — the kernel is called with its segments in memory, and prints the number
-/

namespace FrogOS

open ByteMemory RealMode StepSystem Vsnprintf

/-! ### The disk -/

/-- `DISK_SIZE`, in sectors. -/
def diskSectors : ℕ := 16 * 1024 * 2

/-- `make_disk_img.py`: sector `i` is filled with the number `i`, an `unsigned int`. -/
def makeDiskImg (k : ℕ) : BitVec 8 := (BitVec.ofNat 32 (k / 512)).extractLsb' (8 * (k % 4)) 8

/-- `dd bs=512 seek=n conv=notrunc`. -/
def dd (file : List (BitVec 8)) (seek : ℕ) (disk : ℕ → BitVec 8) : ℕ → BitVec 8 :=
  storeBytes disk (512 * seek) file

/-- What the assembler, the compiler and the linker produce. -/
structure Files where
  boot : List (BitVec 8)
  stage2 : List (BitVec 8)
  kernel : List (BitVec 8)

/-- `disk.img` after the targets `kernel`, `boot` and `stage2`. -/
def diskImg (f : Files) : ℕ → BitVec 8 :=
  dd f.stage2 1 (dd f.boot 0 (dd f.kernel 16 makeDiskImg))

/-- A memory with the kernel file where stage 2 looks for it. -/
def kernelMemory (kernel : List (BitVec 8)) : ByteMemory := storeBytes (fun _ => 0) 0x402000 kernel

/-- Where the last sector ends up. -/
def lastSector : Set ℕ := Set.Ico 0x13ffe00 0x1400000

/-- The files fit on the disk one behind the other, without the last sector. Stage 2 has its data
where its code expects them, and the segments of the kernel belong in the first gigabyte, where they
disturb neither stage 2 nor the last sector. -/
structure Files.Bootable (f : Files) (L : Stage2Labels) : Prop where
  boot : f.boot.length ≤ 512
  stage2 : f.stage2.length ≤ 15 * 512
  kernel : f.kernel.length ≤ (diskSectors - 17) * 512
  data : ∀ i (h : i < stage2Data.length),
    f.stage2[L.video.toNat - 0x400200 + i]? = some stage2Data[i]
  image : ElfImage L (kernelMemory f.kernel) f.kernel.length
  low : LowImage (kernelMemory f.kernel) f.kernel.length
  last : ∀ i, IsLoad (kernelMemory f.kernel) i →
    Disjoint (phdr (kernelMemory f.kernel) i).target lastSector

/-! ### The first statements of the kernel -/

/-- `cmain` up to `setup_gdt()`; its `cli` changes neither memory nor screen. -/
def cmainStart (lit : Literals) (fuel : ℕ) (c : Console) : Option Console := do
  let c := c.cls
  let c ← puts fuel (lit "Long Mode.") c
  let sector_number := load16 c.mem 0x13ffe00
  let (_, c) ← printf fuel (lit "Last sector number: %x\n") [sector_number.setWidth 64] c
  some c

/-! ### The contents of the disk -/

section disk

variable {f : Files} {L : Stage2Labels} {k : ℕ}

theorem diskImg_stage2 (hk : k < f.stage2.length) :
    diskImg f (512 + k) = f.stage2[k] := by
  rw [diskImg, dd, storeBytes_of_inside hk]

theorem diskImg_kernel (hf : f.Bootable L) (hk : k < f.kernel.length) :
    diskImg f (16 * 512 + k) = f.kernel[k] := by
  have hboot := hf.boot
  have hstage2 := hf.stage2
  rw [diskImg, dd, storeBytes_of_outside (by omega), dd, storeBytes_of_outside (by omega), dd,
    Nat.mul_comm 16 512, storeBytes_of_inside hk]

theorem diskImg_last (hf : f.Bootable L) (hk : k < 512) :
    diskImg f (0xfffe00 + k) = (BitVec.ofNat 32 0x7fff).extractLsb' (8 * (k % 4)) 8 := by
  have hboot := hf.boot
  have hstage2 := hf.stage2
  have hkernel := hf.kernel
  rw [diskSectors] at hkernel
  rw [diskImg, dd, storeBytes_of_outside (by omega), dd, storeBytes_of_outside (by omega), dd,
    storeBytes_of_outside (by omega), makeDiskImg]
  have hdiv : (0xfffe00 + k) / 512 = 0x7fff := by omega
  have hmod : (0xfffe00 + k) % 4 = k % 4 := by omega
  rw [hdiv, hmod]

end disk

/-! ### The image does not depend on the rest of memory -/

section image

variable {L : Stage2Labels} {m m' : ByteMemory} {n i : ℕ}

theorem ElfImage.header_congr (himg : ElfImage L m n) (hm : Set.EqOn m' m (image n)) :
    e_entry m' = e_entry m ∧ e_phoff m' = e_phoff m ∧ e_phentsize m' = e_phentsize m ∧
      e_phnum m' = e_phnum m := by
  have hsize := himg.size
  refine ⟨load64_congr fun j hj => hm ⟨by omega, by omega⟩,
    load64_congr fun j hj => hm ⟨by omega, by omega⟩, load16_congr (hm ⟨by omega, by omega⟩)
      (hm ⟨by omega, by omega⟩), load16_congr (hm ⟨by omega, by omega⟩) (hm ⟨by omega, by omega⟩)⟩

theorem ElfImage.phdrAddr_congr (himg : ElfImage L m n) (hm : Set.EqOn m' m (image n)) (i : ℕ) :
    phdrAddr m' i = phdrAddr m i := by
  obtain ⟨-, hphoff, hphentsize, -⟩ := himg.header_congr hm
  rw [phdrAddr, hphoff, hphentsize, phdrAddr]

theorem ElfImage.phdr_congr (himg : ElfImage L m n) (hm : Set.EqOn m' m (image n))
    (hi : i < (e_phnum m).toNat) : phdr m' i = phdr m i := by
  rw [phdr, himg.phdrAddr_congr hm]
  exact headerAt_congr fun x hx => hm (himg.header_subset hi hx)

theorem ElfImage.isLoad_congr (himg : ElfImage L m n) (hm : Set.EqOn m' m (image n)) :
    IsLoad m' i ↔ IsLoad m i := by
  obtain ⟨-, -, -, hphnum⟩ := himg.header_congr hm
  rw [IsLoad, IsLoad, hphnum]
  exact and_congr_right fun hi => by rw [himg.phdr_congr hm hi]

theorem ElfImage.congr (himg : ElfImage L m n) (hm : Set.EqOn m' m (image n)) :
    ElfImage L m' n where
  size := himg.size
  phnum := (himg.header_congr hm).2.2.2 ▸ himg.phnum
  headers i hi := by
    rw [himg.phdrAddr_congr hm]
    exact himg.headers i ((himg.header_congr hm).2.2.2 ▸ hi)
  filesz i hi := by
    have hi := (himg.isLoad_congr hm).mp hi
    rw [himg.phdr_congr hm hi.1]
    exact himg.filesz i hi
  file i hi := by
    have hi := (himg.isLoad_congr hm).mp hi
    rw [himg.phdr_congr hm hi.1]
    exact himg.file i hi
  disjoint i j hi hj hne := by
    have hi := (himg.isLoad_congr hm).mp hi
    have hj := (himg.isLoad_congr hm).mp hj
    rw [himg.phdr_congr hm hi.1, himg.phdr_congr hm hj.1]
    exact himg.disjoint i j hi hj hne
  apart i hi := by
    have hi := (himg.isLoad_congr hm).mp hi
    rw [himg.phdr_congr hm hi.1]
    exact himg.apart i hi

theorem LowImage.congr (hlow : LowImage m n) (himg : ElfImage L m n)
    (hm : Set.EqOn m' m (FrogOS.image n)) : LowImage m' n where
  image := hlow.image
  target i hi := by
    have hi := (himg.isLoad_congr hm).mp hi
    rw [himg.phdr_congr hm hi.1]
    exact hlow.target i hi

end image

/-! ### From the disk to the kernel -/

/-- The segments of the kernel are in memory. -/
structure SegmentsAt (kernel : List (BitVec 8)) (m : ByteMemory) : Prop where
  copied : ∀ i, IsLoad (kernelMemory kernel) i →
    ∀ j < (phdr (kernelMemory kernel) i).p_filesz.toNat,
      some (m ((phdr (kernelMemory kernel) i).p_paddr.toNat + j)) =
        kernel[(phdr (kernelMemory kernel) i).p_offset.toNat + j]?
  zeroed : ∀ i, IsLoad (kernelMemory kernel) i →
    ∀ j, (phdr (kernelMemory kernel) i).p_filesz.toNat ≤ j →
      j < (phdr (kernelMemory kernel) i).p_memsz.toNat →
        m ((phdr (kernelMemory kernel) i).p_paddr.toNat + j) = 0

section chain

variable {L : BootLabels} {K : Stage2Labels} {f : Files} {m₀ m : ByteMemory} {n : ℕ}

/-- What the tables leave of memory. -/
theorem Mapped.mem_of_ge {t : Stage2} (h : Mapped (clearedTables m) 512 t) {x : ℕ}
    (hx : 0x4000 ≤ x) : t.mem x = m x := by
  rw [h.frame x fun i _ => by omega, clearedTables, store16_of_outside (by omega),
    store16_of_outside (by omega), memsetd_of_outside (by omega)]

/-- What stage 2 finds in memory. -/
structure AtLongMode (f : Files) (K : Stage2Labels) (m : ByteMemory) : Prop where
  tables : FirstGigabyte m
  data : K.HoldsData m
  file : Set.EqOn m (kernelMemory f.kernel) (image f.kernel.length)
  last : ∀ k < 512, m (0x13ffe00 + k) = (BitVec.ofNat 32 0x7fff).extractLsb' (8 * (k % 4)) 8

/-- It is what the boot sector leaves. -/
theorem BootSector.Copied.atLongMode (h : BootSector.Copied L (diskImg f) m₀ m (0x10000 * 256))
    (hf : f.Bootable K) (hzero : ∀ i < 512, (load32 m₀ (0x3004 + 8 * i)).toNat % 2 ^ 20 = 0)
    {t : Stage2} (ht : Mapped (clearedTables m) 512 t) : AtLongMode f K t.mem := by
  have hkernel := hf.kernel
  have hstage2 := hf.stage2
  have hvideo := K.le_video
  rw [diskSectors] at hkernel
  have hcopy : ∀ k < 0x1000000, t.mem (0x400000 + k) = diskImg f k := fun k hk =>
    (ht.mem_of_ge (by omega)).trans (h.copy k hk)
  refine ⟨ht.firstGigabyte fun i hi => ?_, fun i hi => ?_, fun x hx => ?_, fun k hk => ?_⟩
  · rw [← hzero i hi]
    refine congrArg (·.toNat % 2 ^ 20)
      (load32_congr fun j hj => h.frame (0x3004 + 8 * i + j) ?_ (by omega))
    have hle := L.le_message
    have hvid : L.video = L.message + 110 := rfl
    have hdrive : L.driveNumber = L.message + 126 := rfl
    rintro (hin | hin | hin | hin | hin)
    · have := hin.1
      omega
    all_goals omega
  · obtain ⟨hlt, hbyte⟩ := List.getElem?_eq_some_iff.mp (hf.data i hi)
    rw [← hbyte, ← diskImg_stage2 hlt, ← hcopy _ (by omega)]
    congr 1
    omega
  · obtain ⟨k, rfl⟩ := Nat.exists_eq_add_of_le hx.1
    have hk : k < f.kernel.length := Nat.lt_of_add_lt_add_left hx.2
    rw [kernelMemory, storeBytes_of_inside hk, ← diskImg_kernel hf hk, ← hcopy _ (by omega)]
    congr 1
    omega
  · rw [← diskImg_last hf hk, ← hcopy _ (by omega)]
    congr 1
    omega

/-- Stage 2 loads the kernel from there, and calls it. -/
theorem AtLongMode.startsKernel {s : Loader} (h : AtLongMode f K s.mem) (hf : f.Bootable K)
    (hrsp : s.reg .rsp = 0x9000) (hdf : (s.reg .rflags).getLsbD 10 = false) :
    ∃ headers t u, s.loadImage K (2 ^ 16) = some (headers, t) ∧
      t.startKernel K (2 ^ 16) = some (e_entry (kernelMemory f.kernel), u) ∧
      SegmentsAt f.kernel u.mem ∧ load16 u.mem 0x13ffe00 = 0x7fff := by
  have himg := hf.image.congr h.file
  have hlow := hf.low.congr hf.image h.file
  obtain ⟨headers, t, ht, -, -, u, hu, hloaded⟩ :=
    loadsExactly_of_low himg hlow h.tables h.data hrsp hdf le_rfl
  rw [(hf.image.header_congr h.file).1] at hu
  have hvideo := K.video_le
  refine ⟨headers, t, u, ht, hu, ⟨fun i hi j hj => ?_, fun i hi j hj hj' => ?_⟩, ?_⟩
  · have hi' := (hf.image.isLoad_congr h.file).mpr hi
    have hcopied := hloaded.copied i hi'.1 hi' j
    rw [hf.image.phdr_congr h.file hi.1] at hcopied
    have hin : 0x402000 + (phdr (kernelMemory f.kernel) i).p_offset.toNat + j
        ∈ image f.kernel.length :=
      hf.image.file i hi ⟨Nat.le_add_right _ _, Nat.add_lt_add_left hj _⟩
    have hlt : (phdr (kernelMemory f.kernel) i).p_offset.toNat + j < f.kernel.length := by
      have := hin.2
      omega
    rw [hcopied hj, h.file hin, Nat.add_assoc, List.getElem?_eq_getElem hlt]
    exact congrArg some (storeBytes_of_inside hlt)
  · have hi' := (hf.image.isLoad_congr h.file).mpr hi
    have hzeroed := hloaded.zeroed i hi'.1 hi' j
    rw [hf.image.phdr_congr h.file hi.1] at hzeroed
    exact hzeroed hj hj'
  · have hlast : ∀ k < 512, u.mem (0x13ffe00 + k) =
        (BitVec.ofNat 32 0x7fff).extractLsb' (8 * (k % 4)) 8 := by
      intro k hk
      rw [← h.last k hk]
      refine hloaded.frame _ ?_ fun i _ hi hin => ?_
      · rintro ((((hin | hin) | hin) | hin) | hin)
        all_goals
          have := hin.2
          omega
      · have hi' := (hf.image.isLoad_congr h.file).mp hi
        rw [hf.image.phdr_congr h.file hi'.1] at hin
        exact Set.disjoint_left.mp (hf.last i hi') hin ⟨by omega, by omega⟩
    rw [load16, hlast 1 (by decide), hlast 0 (by decide)]
    decide

end chain

/-! ### The first lines -/

def sectorPieces : List Piece :=
  (literal "Last sector number: ").map .char ++
    [.directive hexDirective (byteOf 'x'), .char (byteOf '\n')]

/-- What `cmain` prints first, for a disk that has been copied. -/
theorem cmainStart_shows {m : ByteMemory} {R : Set ℕ} {lit : Literals}
    (hlit : LiteralsAt m R lit ["Long Mode.", "Last sector number: %x\n"])
    (hsector : load16 m 0x13ffe00 = 0x7fff) {c : Console} (hc : c.mem = m) :
    ∃ fuel₀, ∀ fuel > fuel₀, ∃ c', cmainStart lit fuel c = some c' ∧
      Refines c' ((literal "Long Mode.Last sector number: 7fff\n").foldl Terminal.put
        Terminal.initial) := by
  subst hc
  have hputs : ConsoleCall.Prints c.mem R (.puts (lit "Long Mode.")) (literal "Long Mode.") :=
    hlit.string _ List.mem_cons_self
  have hreadable : ∀ piece ∈ sectorPieces, piece.Readable := by
    rw [sectorPieces, List.forall_mem_append, List.forall_mem_cons, List.forall_mem_singleton]
    exact ⟨readable_chars (by decide), scannable_hex, (by decide : byteOf '\n' ≠ byteOf '%')⟩
  have hprintf : ConsoleCall.Prints c.mem R (.printf (lit "Last sector number: %x\n") [0x7fff])
      (literal "Last sector number: 7fff\n") :=
    printf_prints hlit (List.mem_cons_of_mem _ List.mem_cons_self) hreadable (by decide) (by decide)
  obtain ⟨fuel₁, h₁⟩ := ConsoleCall.exec_eq hlit.screen hputs
  obtain ⟨fuel₂, h₂⟩ := ConsoleCall.exec_eq hlit.screen hprintf
  refine ⟨max fuel₁ fuel₂, fun fuel hfuel => ?_⟩
  have hcls : ShowsSheet c.mem c.cls := ⟨Terminal.initial, shows_cls c, by decide⟩
  have hline := h₁ fuel ((le_max_left _ _).trans_lt hfuel) c.cls hcls
  -- the number is not on the screen
  have hsector' : load16 ((literal "Long Mode.").foldl Console.putch c.cls).mem 0x13ffe00 =
      0x7fff := by
    obtain ⟨T, hT⟩ := hcls.foldl (literal "Long Mode.")
    rw [← hsector]
    exact load16_congr (hT.1.outside _ (by decide)) (hT.1.outside _ (by decide))
  have hnumber := h₂ fuel ((le_max_right _ _).trans_lt hfuel) _ (hcls.foldl (literal "Long Mode."))
  obtain ⟨⟨r, c'⟩, hprinted, hc'⟩ := Option.map_eq_some_iff.mp hnumber
  refine ⟨c', ?_, ?_⟩
  · refine Option.bind_eq_some_iff.mpr ⟨_, hline, Option.bind_eq_some_iff.mpr ⟨(r, c'), ?_, rfl⟩⟩
    rw [hsector']
    exact hprinted
  · have htext : literal "Long Mode.Last sector number: 7fff\n" =
        literal "Long Mode." ++ literal "Last sector number: 7fff\n" := by decide
    have hscreen := refines_foldl c (literal "Long Mode.Last sector number: 7fff\n")
    rw [htext, List.foldl_append, ← hc'] at hscreen
    rw [htext]
    exact hscreen

/-! ### The whole chain -/

/-- **From the disk to the first lines of the kernel.** The BIOS enters the boot sector, every read
succeeds, and the bits that stage 2 never writes in its page tables are clear. Then the boot sector
copies the disk and reaches stage 2, stage 2 calls the entry point of the kernel with all its
segments in memory, and what the kernel prints is the number of the last sector of the disk. -/
theorem boots {L : BootLabels} {K : Stage2Labels} {f : Files} (hf : f.Bootable K)
    {int13 : ℕ → Cpu → Cpu} {drive : BitVec 8} {s₀ : BootSector}
    (hentry : BootSector.BootEntry L drive s₀)
    (hdisk : ReadsDisk int13 (diskImg f) diskSectors drive fun _ => true)
    (hzero : ∀ i < 512, (load32 s₀.cpu.mem (0x3004 + 8 * i)).toNat % 2 ^ 20 = 0) :
    ∃ es s c tables, run (BootSector.step L int13) s₀ es = some s ∧ s.place = .protectedMode ∧
      BootSector.protectedMode L s.cpu = some c ∧
      BootSector.Copied L (diskImg f) s₀.cpu.mem c.mem (0x10000 * 256) ∧
      Stage2.buildTables 512 c.mem = some tables ∧
      ∀ l : Loader, l.mem = tables.mem → l.reg .rsp = c.sp.setWidth 64 →
        (l.reg .rflags).getLsbD 10 = false →
        ∃ headers t u, l.loadImage K (2 ^ 16) = some (headers, t) ∧
          t.startKernel K (2 ^ 16) = some (e_entry (kernelMemory f.kernel), u) ∧
          SegmentsAt f.kernel u.mem ∧
          ∀ lit R, LiteralsAt u.mem R lit ["Long Mode.", "Last sector number: %x\n"] →
            ∀ console : Console, console.mem = u.mem →
              ∃ fuel₀, ∀ fuel > fuel₀, ∃ console', cmainStart lit fuel console = some console' ∧
                Refines console' ((literal "Long Mode.Last sector number: 7fff\n").foldl
                  Terminal.put Terminal.initial) := by
  obtain ⟨es, s, c, hrun, hplace, hc, hsp, hcopied⟩ :=
    BootSector.boot_enters hentry hdisk (by decide) fun _ _ => rfl
  obtain ⟨tables, htables, hmapped⟩ := buildTables_spec c.mem (le_refl 512)
  have hlong := hcopied.atLongMode hf hzero hmapped
  refine ⟨es, s, c, tables, hrun, hplace, hc, hcopied, htables, fun l hmem hrsp hdf => ?_⟩
  rw [← hmem] at hlong
  rw [hsp] at hrsp
  obtain ⟨headers, t, u, ht, hu, hsegments, hsector⟩ := hlong.startsKernel hf hrsp hdf
  exact ⟨headers, t, u, ht, hu, hsegments, fun lit R hlit console hconsole =>
    cmainStart_shows hlit hsector hconsole⟩

/-! ### An example -/

/-- Code that does nothing, and the literals. -/
def sampleSegment : List (BitVec 8) :=
  [0xeb, 0xfe] ++ literal "Long Mode." ++ [0] ++ literal "Last sector number: %x\n" ++ [0]

/-- A kernel with that segment at two megabytes, and zeros behind it. -/
def sampleKernel : List (BitVec 8) :=
  List.replicate 24 0 ++ bytes64 0x200000 ++ bytes64 64 ++ List.replicate 14 0 ++ bytes16 56 ++
    bytes16 1 ++ List.replicate 6 0 ++
    (bytes64 1 ++ bytes64 120 ++ bytes64 0x200000 ++ bytes64 0x200000 ++ bytes64 37 ++
      bytes64 64 ++ bytes64 0) ++ sampleSegment

def sampleLiterals : Literals := fun s => if s = "Long Mode." then 0x200002 else 0x20000d

def sampleFiles : Files where
  boot := List.replicate 512 0
  stage2 := List.replicate 0x200 0 ++ stage2Data
  kernel := sampleKernel

theorem length_sampleKernel : sampleKernel.length = 157 := by decide +kernel

theorem e_phnum_sampleKernel : e_phnum (kernelMemory sampleKernel) = 1 := by decide +kernel

theorem phdr_sampleKernel :
    phdr (kernelMemory sampleKernel) 0 = ⟨1, 120, 0x200000, 37, 64⟩ := by
  decide +kernel

theorem isLoad_sampleKernel {i : ℕ} (h : IsLoad (kernelMemory sampleKernel) i) : i = 0 := by
  have hlt := h.1
  rw [e_phnum_sampleKernel] at hlt
  exact Nat.lt_one_iff.mp hlt

theorem elfImage_sampleKernel : ElfImage exampleLabels (kernelMemory sampleKernel) 157 where
  size := by decide
  phnum := by rw [e_phnum_sampleKernel]; decide
  headers i hi := by
    rw [e_phnum_sampleKernel] at hi
    obtain rfl := Nat.lt_one_iff.mp hi
    decide +kernel
  filesz i hi := by
    rw [isLoad_sampleKernel hi, phdr_sampleKernel]
    decide
  file i hi := by
    rw [isLoad_sampleKernel hi, phdr_sampleKernel]
    intro x hx
    have hle : 0x402000 + 120 ≤ x := hx.1
    have hlt : x < 0x402000 + 120 + 37 := hx.2
    exact ⟨by omega, by omega⟩
  disjoint i j hi hj hne :=
    absurd ((isLoad_sampleKernel hi).trans (isLoad_sampleKernel hj).symm) hne
  apart i hi := by
    rw [isLoad_sampleKernel hi, phdr_sampleKernel]
    simp only [Set.disjoint_union_right]
    refine ⟨⟨⟨⟨?_, ?_⟩, ?_⟩, ?_⟩, ?_⟩
    all_goals exact Set.Ico_disjoint_Ico.mpr (by decide)

theorem lowImage_sampleKernel : LowImage (kernelMemory sampleKernel) 157 where
  image x hx := by
    have := hx.2
    rw [Set.mem_Iio]
    omega
  target i hi := by
    rw [isLoad_sampleKernel hi, phdr_sampleKernel]
    intro x hx
    have hlt : x < 0x200040 := hx.2
    rw [Set.mem_Iio]
    omega

theorem bootable_sampleFiles : sampleFiles.Bootable exampleLabels where
  boot := (List.length_replicate ..).le
  stage2 := by
    rw [sampleFiles, List.length_append, List.length_replicate, Loader.length_stage2Data]
    decide
  kernel := length_sampleKernel.trans_le (by decide)
  data i hi := by
    have hoffset : exampleLabels.video.toNat - 0x400200 = 0x200 := rfl
    have hle : (List.replicate 0x200 (0 : BitVec 8)).length ≤ 0x200 + i := by
      rw [List.length_replicate]
      exact Nat.le_add_right _ _
    rw [hoffset, sampleFiles, List.getElem?_append_right hle, List.length_replicate,
      Nat.add_sub_cancel_left, List.getElem?_eq_getElem hi]
  image := length_sampleKernel ▸ elfImage_sampleKernel
  low := length_sampleKernel ▸ lowImage_sampleKernel
  last i hi := by
    have hi' : IsLoad (kernelMemory sampleKernel) i := hi
    rw [isLoad_sampleKernel hi']
    change Disjoint (phdr (kernelMemory sampleKernel) 0).target lastSector
    rw [phdr_sampleKernel]
    exact Set.Ico_disjoint_Ico.mpr (by decide)

/-- Where the segment is, the literals are. -/
theorem literalsAt_sampleFiles {m : ByteMemory} (h : SegmentsAt sampleFiles.kernel m) :
    LiteralsAt m (Set.Ico 0x200000 0x200040) sampleLiterals
      ["Long Mode.", "Last sector number: %x\n"] := by
  have hat : SegmentsAt sampleKernel m := h
  have hload : IsLoad (kernelMemory sampleKernel) 0 := ⟨by decide +kernel, by decide +kernel⟩
  have hsegment : ∀ j < 37, sampleKernel[120 + j]? = some (sampleSegment.getD j 0) := by
    decide +kernel
  have hbyte : ∀ j < 37, m (0x200000 + j) = sampleSegment.getD j 0 := fun j hj => by
    have hcopied := hat.copied 0 hload j
    rw [phdr_sampleKernel] at hcopied
    exact Option.some_inj.mp ((hcopied hj).trans (hsegment j hj))
  have hstring : ∀ (s : List (BitVec 8)) (k : ℕ), k + s.length < 37 →
      (∀ i (hi : i < s.length), sampleSegment.getD (k + i) 0 = s[i]) →
      sampleSegment.getD (k + s.length) 0 = 0 → (∀ c ∈ s, c ≠ 0) →
      StringAt m (Set.Ico 0x200000 0x200040) (0x200000 + k) s := by
    intro s k hk hs hend hne
    refine stringAt_of_getElem (fun i hi => ⟨by omega, by omega⟩) (fun i hi => ?_) ?_ hne
    · rw [Nat.add_assoc, hbyte _ (by omega), hs i hi]
    · rw [Nat.add_assoc, hbyte _ hk, hend]
  refine ⟨fun a ha => Or.inr ?_, ?_, ?_⟩
  · exact le_trans (by decide) ha.1
  · rw [List.forall_mem_cons, List.forall_mem_singleton]
    exact ⟨hstring (literal "Long Mode.") 2 (by decide) (by decide +kernel) (by decide) (by decide),
      hstring (literal "Last sector number: %x\n") 13 (by decide) (by decide +kernel) (by decide)
        (by decide)⟩
  · rw [List.forall_mem_cons, List.forall_mem_singleton]
    exact ⟨by decide, by decide⟩

/-- The theorem for that kernel, and the boot sector with its data at `0x7d00`. -/
theorem boots_sampleFiles :
    ∃ es s c tables, run (BootSector.step sampleLabels
        (biosRead (diskImg sampleFiles) fun _ => true)) sampleEntry es = some s ∧
      s.place = .protectedMode ∧ BootSector.protectedMode sampleLabels s.cpu = some c ∧
      BootSector.Copied sampleLabels (diskImg sampleFiles) sampleEntry.cpu.mem c.mem
        (0x10000 * 256) ∧
      Stage2.buildTables 512 c.mem = some tables ∧
      ∀ l : Loader, l.mem = tables.mem → l.reg .rsp = c.sp.setWidth 64 →
        (l.reg .rflags).getLsbD 10 = false →
        ∃ headers t u, l.loadImage exampleLabels (2 ^ 16) = some (headers, t) ∧
          t.startKernel exampleLabels (2 ^ 16) =
            some (e_entry (kernelMemory sampleFiles.kernel), u) ∧
          SegmentsAt sampleFiles.kernel u.mem ∧
          ∀ console : Console, console.mem = u.mem →
            ∃ fuel₀, ∀ fuel > fuel₀, ∃ console',
              cmainStart sampleLiterals fuel console = some console' ∧
                Refines console' ((literal "Long Mode.Last sector number: 7fff\n").foldl
                  Terminal.put Terminal.initial) := by
  obtain ⟨es, s, c, tables, hrun, hplace, hc, hcopied, htables, hstage2⟩ :=
    boots bootable_sampleFiles bootEntry_sampleEntry (readsDisk_biosRead _ _ _ _) fun i hi => by
      have hzero : load32 sampleEntry.cpu.mem (0x3004 + 8 * i) = 0 := by
        rw [load32_congr (m := fun _ => 0) (a := 0) fun j hj => ?_]
        · rfl
        · have hmessage : sampleLabels.message = 0x7d00 := rfl
          rw [sampleEntry, hmessage]
          exact storeBytes_of_outside (by omega)
      rw [hzero]
      rfl
  refine ⟨es, s, c, tables, hrun, hplace, hc, hcopied, htables, fun l hmem hrsp hdf => ?_⟩
  obtain ⟨headers, t, u, ht, hu, hsegments, hshows⟩ := hstage2 l hmem hrsp hdf
  exact ⟨headers, t, u, ht, hu, hsegments, hshows _ _ (literalsAt_sampleFiles hsegments)⟩

end FrogOS
