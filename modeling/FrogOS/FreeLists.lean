import FrogOS.Mkfs

/-!
# The free lists of a new file system

Three questions about the image `mkfs` makes. The free data list is complete for every size the
program can handle. The sizes it cannot handle are not rejected: an image of fewer than four blocks
is written past its end, one of four to six blocks gets a list that starts behind its last block,
and above 2^31 blocks the loop index overflows.

The free inodes are linked through `free_inode_t`, which has half the size of `inode_t`. Read as
`free_inode_t` the list is complete. But inode `k` has its slot where the link of inode `2 * k` was
written, so that read from their slots, all links are odd, and the list never comes to inode 2.

## Main definitions

* `FreeDataComplete` — what the free data list should be
* `MkfsSafe` — no store outside the image, and a list that starts in it
* `FreeInodesInSlots` — what the free inode list should be

## Main results

* `mkfs_freeDataComplete`, `mkfsSafe_iff`, `not_freeInodesInSlots`
* `isList_freeInodes` — the free inode list as it was written
-/

namespace FrogOS

open ByteMemory LinkedList

variable {mapped : BitVec 64 → Bool} {numBlocks : BitVec 64} {numInodes : BitVec 16}
  {m : ByteMemory}

/-! ### Sizes -/

theorem toNat_mul_1024 (a : BitVec 64) : (a * 1024).toNat = a.toNat * 1024 % 2 ^ 64 :=
  BitVec.toNat_mul a 1024

/-- Counts up to 2^31 do not wrap around. -/
theorem mappedBytes_of_le (hmapped : mapped (numBlocks * 1024) = true)
    (hle : numBlocks.toNat ≤ 2 ^ 31) : mappedBytes mapped numBlocks = numBlocks.toNat * 1024 := by
  rw [mappedBytes, if_pos hmapped, toNat_mul_1024]
  omega

theorem toNat_sub_one (hpos : 0 < numBlocks.toNat) :
    (numBlocks - 1).toNat = numBlocks.toNat - 1 := by
  have hone : (1 : BitVec 64).toNat = 1 := rfl
  rw [BitVec.toNat_sub, hone]
  omega

theorem lastData_of_le (hpos : 0 < numBlocks.toNat) (hle : numBlocks.toNat ≤ 2 ^ 31) :
    ((numBlocks - 1) * 1024).toNat = 1024 * (numBlocks.toNat - 1) := by
  rw [toNat_mul_1024, toNat_sub_one hpos]
  omega

/-- `main` ends for images that hold the inodes and whose blocks can be counted. -/
theorem mkfsFits_of_le (hmapped : mapped (numBlocks * 1024) = true)
    (hinodes : 2048 + 16 * numInodes.toNat ≤ 1024 * numBlocks.toNat)
    (hpos : 0 < numInodes.toNat) (hle : numBlocks.toNat ≤ 2 ^ 31) :
    MkfsFits (mappedBytes mapped numBlocks) numInodes numBlocks := by
  have hmax : intMax = 2147483647 := rfl
  have hblocks : 0 < numBlocks.toNat := by omega
  have hsub := toNat_sub_one hblocks
  rw [mappedBytes_of_le hmapped hle]
  constructor
  · rw [sizeofSuperblock]
    omega
  · intro j _ hj
    omega
  · omega
  · intro j _ hj
    omega
  · rw [lastData_of_le hblocks hle]
    omega

/-- If `main` ends, the image is mapped, and its blocks can be counted. -/
theorem MkfsFits.bounds (h : MkfsFits (mappedBytes mapped numBlocks) numInodes numBlocks) :
    mapped (numBlocks * 1024) = true ∧ 0 < numBlocks.toNat ∧ numBlocks.toNat ≤ 2 ^ 31 := by
  have hmax : intMax = 2147483647 := rfl
  have hstart := dataStartFor_toNat numInodes
  have hlt := numInodes.isLt
  have hsuper := h.superblock
  rw [sizeofSuperblock] at hsuper
  have hmapped : mapped (numBlocks * 1024) = true := by
    by_contra hno
    rw [mappedBytes, if_neg hno] at hsuper
    omega
  rw [mappedBytes, if_pos hmapped, toNat_mul_1024] at hsuper
  have hblocks : 0 < numBlocks.toNat := by omega
  refine ⟨hmapped, hblocks, ?_⟩
  by_contra hgt
  have hsub := toNat_sub_one hblocks
  -- the index reaches the largest `int` before it reaches the bound
  exact lt_irrefl _ (h.data intMax (by omega) (by omega)).1

/-! ### The image -/

theorem sameSuperblock_mkfsImage (numInodes : BitVec 16) (hlo : 1 < numBlocks.toNat)
    (hle : numBlocks.toNat ≤ 2 ^ 31) :
    SameSuperblock (mkfsImage numInodes numBlocks) (superblockImage numBlocks numInodes) := by
  have hstart := dataStartFor_toNat numInodes
  have hlast := lastData_of_le (by omega) hle
  rw [mkfsImage]
  refine (sameSuperblock_store32 ?_ _).trans ((sameSuperblock_storeLinks fun j hj => ?_).trans
    (sameSuperblock_freeInodes (SameSuperblock.refl _)))
  · rw [hlast, sizeofSuperblock]
    omega
  · rw [sizeofSuperblock]
    omega

/-- The links of the data blocks. -/
theorem load32_mkfsImage_data {b : ℕ} (hlo : (dataStartFor numInodes).toNat ≤ b)
    (hb : b < numBlocks.toNat) (hle : numBlocks.toNat ≤ 2 ^ 31) :
    load32 (mkfsImage numInodes numBlocks) (0 + 1024 * b)
      = if b + 1 = numBlocks.toNat then -1 else BitVec.ofNat 32 (b + 1) := by
  have hpos : 0 < numBlocks.toNat := Nat.zero_lt_of_lt hb
  have hsub := toNat_sub_one hpos
  have hlast := lastData_of_le hpos hle
  rw [mkfsImage, hlast]
  split
  · rename_i heq
    rw [show 0 + 1024 * b = 1024 * (numBlocks.toNat - 1) by omega]
    exact load32_store32 ..
  · rw [load32_store32_of_disjoint (by omega)]
    exact load32_storeLinks (by omega) hlo (by omega)

/-! ### The free data list -/

theorem toNat_128 : (128 : BitVec 16).toNat = 128 := rfl

/-- When `mkfs` ends, and what it leaves. -/
theorem mkfs_eq_some_iff : mkfs mapped (some numBlocks) = some m ↔
    (mapped (numBlocks * 1024) = true ∧ 4 ≤ numBlocks.toNat ∧ numBlocks.toNat ≤ 2 ^ 31) ∧
      mkfsImage 128 numBlocks = m := by
  rw [mkfs, Option.getD_some, mkfsWith_eq_some_iff (by decide)]
  refine and_congr_left fun _ => ⟨fun h => ?_, fun h => ?_⟩
  · obtain ⟨hmapped, -, hle⟩ := h.bounds
    have hlast := h.lastInode
    rw [mappedBytes_of_le hmapped hle, toNat_128] at hlast
    exact ⟨hmapped, by omega, hle⟩
  · obtain ⟨hmapped, hlo, hle⟩ := h
    exact mkfsFits_of_le hmapped (by rw [toNat_128]; omega) (by decide) hle

/-- The free data list of an image of `N` blocks is complete, and is in nobody's way. -/
structure FreeDataComplete (m : ByteMemory) (N : ℕ) : Prop where
  numberOfBlocks_eq : (numberOfBlocks m).toNat = N
  numberOfInodes_eq : numberOfInodes m = 128
  inodeStart_eq : inodeStart m = 2
  dataStart_eq : dataStart m = 6
  /-- The blocks from `data_start` on, in ascending order. -/
  isList : IsList (nextNode m 0 1024) 0xFFFFFFFF (freeDataList m)
    ((List.range' (dataStart m).toNat (N - (dataStart m).toNat)).map (BitVec.ofNat 32))
  /-- No byte of a link lies in the superblock or among the inodes. -/
  apart : ∀ b, (dataStart m).toNat ≤ b → b < N → ∀ x, 1024 * b ≤ x → x < 1024 * b + 4 →
    sizeofSuperblock ≤ x ∧ ¬ (1024 * (inodeStart m).toNat ≤ x ∧ x < 1024 * (dataStart m).toNat)

theorem mkfsImage_fields (hlo : 1 < numBlocks.toNat) (hle : numBlocks.toNat ≤ 2 ^ 31) :
    numberOfBlocks (mkfsImage 128 numBlocks) = numBlocks.setWidth 32 ∧
      numberOfInodes (mkfsImage 128 numBlocks) = 128 ∧ inodeStart (mkfsImage 128 numBlocks) = 2 ∧
      dataStart (mkfsImage 128 numBlocks) = 6 ∧ freeInodeList (mkfsImage 128 numBlocks) = 1 ∧
      freeDataList (mkfsImage 128 numBlocks) = 6 :=
  superblock_fields (sameSuperblock_mkfsImage 128 hlo hle)

/-- **The free data list is complete.** -/
theorem mkfs_freeDataComplete (hmapped : mapped (numBlocks * 1024) = true)
    (hlo : 7 ≤ numBlocks.toNat) (hhi : numBlocks.toNat ≤ 2 ^ 31 - 1) :
    ∃ m, mkfs mapped (some numBlocks) = some m ∧ FreeDataComplete m numBlocks.toNat := by
  have hle : numBlocks.toNat ≤ 2 ^ 31 := hhi.trans (Nat.sub_le _ _)
  have hone : 1 < numBlocks.toNat := by omega
  obtain ⟨hblocks, hinodes, hinode, hdata, -, hlist⟩ := mkfsImage_fields hone hle
  have hsix : (6 : BitVec 32).toNat = 6 := rfl
  have htwo : (2 : BitVec 32).toNat = 2 := rfl
  have hstart : (dataStartFor 128).toNat = 6 := rfl
  refine ⟨_, mkfs_eq_some_iff.mpr ⟨⟨hmapped, by omega, hle⟩, rfl⟩, ?_⟩
  refine ⟨?_, hinodes, hinode, hdata, ?_, fun b hb hbN x hx hx' => ?_⟩
  · rw [hblocks, BitVec.toNat_setWidth]
    exact Nat.mod_eq_of_lt (by omega)
  · rw [hlist, hdata, hsix, show numBlocks.toNat - 6 = numBlocks.toNat - 7 + 1 by omega]
    refine isList_nextNode (i := 6) rfl (fun j hj hjk => ?_) ?_ (by omega)
    · rw [load32_mkfsImage_data (by omega) (by omega) hle, if_neg (by omega)]
    · rw [load32_mkfsImage_data (by omega) (by omega) hle, if_pos (by omega)]
      rfl
  · rw [hdata, hsix] at hb
    rw [hinode, hdata, hsix, htwo, sizeofSuperblock]
    omega

/-- The theorem at an image with six data blocks. -/
theorem mkfs_freeDataComplete_twelve : ∃ m, mkfs (fun _ => true) (some 12) = some m ∧
    FreeDataComplete m 12 ∧
    IsList (nextNode m 0 1024) 0xFFFFFFFF (freeDataList m) [6, 7, 8, 9, 10, 11] := by
  obtain ⟨m, hm, hcomplete⟩ : ∃ m, mkfs (fun _ => true) (some 12) = some m ∧
      FreeDataComplete m (12 : BitVec 64).toNat :=
    mkfs_freeDataComplete rfl (by decide) (by decide)
  have hlist := hcomplete.isList
  rw [hcomplete.dataStart_eq] at hlist
  exact ⟨m, hm, hcomplete, hlist⟩

/-! ### Block counts -/

/-- No store goes outside the image, the loops end, and the free data list starts at a data block of
the image or is empty. The source has no path on which it stops before it writes. -/
def MkfsSafe (mapped : BitVec 64 → Bool) (numBlocks : BitVec 64) : Prop :=
  ∃ m, mkfs mapped (some numBlocks) = some m ∧
    (((dataStart m).toNat ≤ (freeDataList m).toNat ∧ (freeDataList m).toNat < numBlocks.toNat) ∨
      freeDataList m = 0xFFFFFFFF)

/-- **Seven to 2^31 blocks are safe**, if the image can be mapped. -/
theorem mkfsSafe_iff (mapped : BitVec 64 → Bool) (numBlocks : BitVec 64) :
    MkfsSafe mapped numBlocks ↔
      mapped (numBlocks * 1024) = true ∧ 7 ≤ numBlocks.toNat ∧ numBlocks.toNat ≤ 2 ^ 31 := by
  have hsix : (6 : BitVec 32).toNat = 6 := rfl
  constructor
  · rintro ⟨m, hm, hlist⟩
    obtain ⟨⟨hmapped, hlo, hle⟩, rfl⟩ := mkfs_eq_some_iff.mp hm
    have hone : 1 < numBlocks.toNat := by omega
    obtain ⟨-, -, -, -, -, hdata⟩ := mkfsImage_fields hone hle
    rw [hdata] at hlist
    rcases hlist with ⟨-, hlt⟩ | hnull
    · rw [hsix] at hlt
      exact ⟨hmapped, hlt, hle⟩
    · exact absurd hnull (by decide)
  · rintro ⟨hmapped, hlo, hle⟩
    have hone : 1 < numBlocks.toNat := by omega
    obtain ⟨-, -, -, hstart, -, hdata⟩ := mkfsImage_fields hone hle
    refine ⟨_, mkfs_eq_some_iff.mpr ⟨⟨hmapped, by omega, hle⟩, rfl⟩, Or.inl ?_⟩
    rw [hstart, hdata, hsix]
    exact ⟨le_rfl, hlo⟩

/-- One block: the inodes are written past the end. -/
theorem not_mkfsSafe_one : ¬ MkfsSafe (fun _ => true) 1 := by
  rintro ⟨m, hm, -⟩
  exact absurd (mkfs_eq_some_iff.mp hm).1.2.1 (by decide)

/-! ### The free inode list -/

/-- The address of inode 0. Inode `p` has the `sizeofInode` bytes from `sizeofInode * p` on. -/
def inodeBase (m : ByteMemory) : ℕ := 1024 * (inodeStart m).toNat

/-- The free inode list of `n` inodes, each link being the first four bytes of its inode: it visits
all inodes but inode 0, and to fill in an inode that has been visited leaves the links of those that
have not been alone. -/
def FreeInodesInSlots (m : ByteMemory) (n : ℕ) : Prop :=
  ∃ l, IsList (nextNode m (inodeBase m) sizeofInode) 0xFFFFFFFF (freeInodeList m) l ∧
    l.Perm ((List.range' 1 (n - 1)).map (BitVec.ofNat 32)) ∧
    ∀ visited rest, l = visited ++ rest → ∀ p ∈ visited, ∀ q ∈ rest,
      ∀ inode : List (BitVec 8), inode.length = sizeofInode →
        nextNode (storeBytes m (inodeBase m + sizeofInode * p.toNat) inode) (inodeBase m)
          sizeofInode q = nextNode m (inodeBase m) sizeofInode q

/-- The links of the inodes, where they were written. -/
theorem load32_mkfsImage_inode {j : ℕ} (hlo : 1 ≤ j) (hj : j < numInodes.toNat)
    (h32 : 32 ∣ numInodes.toNat) (hN : (dataStartFor numInodes).toNat < numBlocks.toNat)
    (hle : numBlocks.toNat ≤ 2 ^ 31) :
    load32 (mkfsImage numInodes numBlocks) (2048 + 16 * j)
      = if j + 1 = numInodes.toNat then -1 else BitVec.ofNat 32 (j + 1) := by
  have hstart := dataStartFor_toNat numInodes
  have hblocks : 0 < numBlocks.toNat := Nat.zero_lt_of_lt hN
  have hlast := lastData_of_le hblocks hle
  rw [mkfsImage, hlast, load32_store32_of_disjoint (by omega),
    load32_storeLinks_of_disjoint fun b hb _ => by omega]
  split
  · rename_i heq
    rw [show j = numInodes.toNat - 1 by omega]
    exact load32_store32 ..
  · rw [load32_store32_of_disjoint (by omega)]
    exact load32_storeLinks (by omega) hlo (by omega)

/-- **As it was written, the free inode list is complete**: with links 16 bytes apart. -/
theorem isList_freeInodes (hpos : 0 < numInodes.toNat) (h32 : 32 ∣ numInodes.toNat)
    (hN : (dataStartFor numInodes).toNat < numBlocks.toNat) (hle : numBlocks.toNat ≤ 2 ^ 31) :
    IsList (nextNode (mkfsImage numInodes numBlocks) 2048 sizeofFreeInode) 0xFFFFFFFF
      (freeInodeList (mkfsImage numInodes numBlocks))
      ((List.range' 1 (numInodes.toNat - 1)).map (BitVec.ofNat 32)) := by
  have hlt := numInodes.isLt
  have hstart := dataStartFor_toNat numInodes
  have hone : 1 < numBlocks.toNat := by omega
  obtain ⟨-, -, -, -, hhead, -⟩ := superblock_fields (sameSuperblock_mkfsImage numInodes hone hle)
  have hstride : sizeofFreeInode = 16 := rfl
  rw [hhead, hstride, show numInodes.toNat - 1 = numInodes.toNat - 2 + 1 by omega]
  refine isList_nextNode (i := 1) rfl (fun j hj hjk => ?_) ?_ (by omega)
  · rw [load32_mkfsImage_inode hj (by omega) h32 hN hle, if_neg (by omega)]
  · rw [load32_mkfsImage_inode (by omega) (by omega) h32 hN hle, if_pos (by omega)]
    rfl

/-- In the slots of the inodes there are odd numbers and zeros: no link leads to inode 2. -/
theorem load32_mkfsImage_slot {k : ℕ} (hlo : 1 ≤ k) (hk : k < numInodes.toNat)
    (h32 : 32 ∣ numInodes.toNat) :
    load32 (mkfsImage numInodes numBlocks) (2048 + 32 * k) ≠ 2 := by
  have hlt := numInodes.isLt
  have hstart := dataStartFor_toNat numInodes
  have hlast := toNat_mul_1024 (numBlocks - 1)
  rw [mkfsImage]
  generalize ((numBlocks - 1) * 1024).toNat = last at hlast
  rcases eq_or_ne (2048 + 32 * k) last with heq | hne
  · -- the end of the data list may lie in a slot of a small image
    rw [heq, load32_store32]
    decide
  rw [load32_store32_of_disjoint (by omega), load32_storeLinks_of_disjoint fun b hb _ => by omega,
    load32_store32_of_disjoint (by omega)]
  by_cases hwritten : 2 * k < numInodes.toNat - 1
  · rw [show 2048 + 32 * k = 2048 + 16 * (2 * k) by omega,
      load32_storeLinks (by omega) (by omega) (by omega)]
    intro h
    have hval := congrArg BitVec.toNat h
    rw [BitVec.toNat_ofNat] at hval
    have htwo : (2 : BitVec 32).toNat = 2 := rfl
    omega
  · rw [load32_storeLinks_of_disjoint fun j hj hjk => by omega]
    simp (disch := omega) only [superblockImage, load32_store32_of_disjoint,
      load32_store16_of_disjoint]
    exact (by decide : load32 (fun _ => 0) 0 ≠ 2)

/-- If `main` ends, the image has room for its inodes and for a block more than the superblock. -/
theorem one_lt_of_fits (h : MkfsFits (mappedBytes mapped numBlocks) numInodes numBlocks) :
    1 < numBlocks.toNat := by
  obtain ⟨hmapped, -, hle⟩ := h.bounds
  have hlast := h.lastInode
  rw [mappedBytes_of_le hmapped hle] at hlast
  omega

theorem not_freeInodesInSlots_mkfsImage (hpos : 0 < numInodes.toNat) (h32 : 32 ∣ numInodes.toNat)
    (hlo : 1 < numBlocks.toNat) (hle : numBlocks.toNat ≤ 2 ^ 31) :
    ¬ FreeInodesInSlots (mkfsImage numInodes numBlocks) numInodes.toNat := by
  rintro ⟨l, hl, hperm, -⟩
  have hlt := numInodes.isLt
  obtain ⟨-, -, hinode, -, hhead, -⟩ :=
    superblock_fields (sameSuperblock_mkfsImage numInodes hlo hle)
  have hbase : inodeBase (mkfsImage numInodes numBlocks) = 2048 := by
    rw [inodeBase, hinode]
    rfl
  have htwo : (2 : BitVec 32) ∈ l := by
    refine hperm.mem_iff.mpr (List.mem_map.mpr ⟨2, ?_, rfl⟩)
    rw [List.mem_range'_1]
    omega
  rcases hl.eq_or_exists_next htwo with heq | ⟨p, hp, heq⟩
  · rw [hhead] at heq
    exact absurd heq (by decide)
  · obtain ⟨k, hk, rfl⟩ := List.mem_map.mp (hperm.mem_iff.mp hp)
    rw [List.mem_range'_1] at hk
    have hval : (BitVec.ofNat 32 k).toNat = k := by
      rw [BitVec.toNat_ofNat]
      exact Nat.mod_eq_of_lt (by omega)
    rw [nextNode, hbase, hval] at heq
    exact load32_mkfsImage_slot hk.1 (by omega) h32 heq

/-- **The free inodes are not linked through their slots**, for any number of them: every image that
is large enough is made, and none that is made has such a list. -/
theorem not_freeInodesInSlots (mapped : BitVec 64 → Bool) (hpos : 0 < numInodes.toNat)
    (h32 : 32 ∣ numInodes.toNat) :
    (mapped (numBlocks * 1024) = true ∧ (dataStartFor numInodes).toNat ≤ numBlocks.toNat ∧
        numBlocks.toNat ≤ 2 ^ 31 → ∃ m, mkfsWith numInodes mapped numBlocks = some m) ∧
      ∀ m, mkfsWith numInodes mapped numBlocks = some m →
        ¬ FreeInodesInSlots m numInodes.toNat := by
  have hstart := dataStartFor_toNat numInodes
  constructor
  · rintro ⟨hmapped, hN, hle⟩
    exact ⟨_, (mkfsWith_eq_some_iff hpos).mpr ⟨mkfsFits_of_le hmapped (by omega) hpos hle, rfl⟩⟩
  · rintro m hm
    obtain ⟨hfits, rfl⟩ := (mkfsWith_eq_some_iff hpos).mp hm
    exact not_freeInodesInSlots_mkfsImage hpos h32 (one_lt_of_fits hfits) hfits.bounds.2.2

/-- The theorem at the numbers the program uses if it has no argument. -/
theorem not_freeInodesInSlots_default :
    ((fun _ => true) ((1024 : BitVec 64) * 1024) = true ∧
        (dataStartFor 128).toNat ≤ (1024 : BitVec 64).toNat ∧ (1024 : BitVec 64).toNat ≤ 2 ^ 31 →
        ∃ m, mkfsWith 128 (fun _ => true) 1024 = some m) ∧
      ∀ m, mkfsWith 128 (fun _ => true) 1024 = some m →
        ¬ FreeInodesInSlots m (128 : BitVec 16).toNat :=
  not_freeInodesInSlots (fun _ => true) (by decide) (by decide)

/-- The image of a megabyte. -/
theorem exists_not_freeInodesInSlots :
    ∃ m, mkfs (fun _ => true) none = some m ∧ ¬ FreeInodesInSlots m 128 := by
  have hmade : mkfs (fun _ => true) (some 1024) = some (mkfsImage 128 1024) :=
    mkfs_eq_some_iff.mpr ⟨by decide, rfl⟩
  exact ⟨_, hmade,
    not_freeInodesInSlots_mkfsImage (by decide) (by decide) (by decide) (by decide)⟩

end FrogOS
