import FrogOS.Lib.LinkArray

/-!
# Making a file system

`fs/mkfs.c` writes an image file through a shared mapping. Three kinds of packed structures are
laid over the same bytes: the superblock in block 0, the free inodes from block `inode_start` on,
and the blocks of the whole image, linked from `data_start` on.

## Representation

* The image is a byte memory that starts at the mapped address. A store beyond the mapped bytes is a
  fault, and so is the overflow of the `int` the loops count with; a fault is `none`.
* None of the calls that create the file and map it is checked. `mapped` says for which lengths they
  succeed. After a failure `fs` is no address of the image, so that no byte is mapped.
* The fields of the superblock are read back from the image wherever the source reads them.
* The number of inodes, 128, is a parameter, so that the layout can be discussed for other numbers.

## Main definitions

* `mkfs`, `mkfsWith` — `main`
* `linkLoop` — the two loops
* `mkfsImage` — the image, without the checks

## Main results

* `linkLoop_eq_some_iff` — when a loop ends, and what it leaves
* `mkfsWith_eq_some_iff` — when `main` ends, and what it leaves
-/

namespace FrogOS

open ByteMemory LinkedList

/-! ### `fs.h` -/

/-- `sizeof(inode_t)`. -/
def sizeofInode : ℕ := 1 + 1 + 2 + 4 + 4 + 5 * 4

/-- `sizeof(free_inode_t)`. -/
def sizeofFreeInode : ℕ := 4 + 12

/-- `sizeof(free_data_t)`. -/
def sizeofFreeData : ℕ := 4 + 1020

/-! The fields of `superblock_t`, which is packed. -/

def numberOfBlocks (m : ByteMemory) : BitVec 32 := load32 m 0

def numberOfInodes (m : ByteMemory) : BitVec 16 := load16 m 4

def inodeStart (m : ByteMemory) : BitVec 32 := load32 m 6

def dataStart (m : ByteMemory) : BitVec 32 := load32 m 10

def freeInodeList (m : ByteMemory) : BitVec 32 := load32 m 14

def freeDataList (m : ByteMemory) : BitVec 32 := load32 m 18

/-- `sizeof(superblock_t)`. -/
def sizeofSuperblock : ℕ := 22

/-! ### `mkfs.c` -/

/-- The number of bytes that can be stored to: `num_blocks*1024`, a product of unsigned longs. -/
def mappedBytes (mapped : BitVec 64 → Bool) (numBlocks : BitVec 64) : ℕ :=
  if mapped (numBlocks * 1024) then (numBlocks * 1024).toNat else 0

/-- A store through the mapping. -/
def put (size : ℕ) (m : ByteMemory) (a : ℕ) (bytes : List (BitVec 8)) : Option ByteMemory :=
  if a + bytes.length ≤ size then some (storeBytes m a bytes) else none

/-- `INT_MAX`. -/
def intMax : ℕ := 2 ^ 31 - 1

/-- `for (int i = ..; more; ++i) links[i].next_node = i+1`, from `i` on. -/
def linkLoop (size base stride : ℕ) (more : ByteMemory → ℕ → Bool) (m : ByteMemory) (i : ℕ) :
    Option ByteMemory :=
  if more m i = true then
    if i < intMax then
      (put size m (base + stride * i) (bytes32 (BitVec.ofNat 32 (i + 1)))).bind fun m =>
        linkLoop size base stride more m (i + 1)
    else none
  else some m
termination_by intMax - i

/-- The assignments to the fields of the superblock. -/
def writeSuperblock (size : ℕ) (numBlocks : BitVec 64) (numInodes : BitVec 16) :
    Option ByteMemory := do
  let numInodeBlocks : BitVec 16 :=
    (numInodes.setWidth 64 * BitVec.ofNat 64 sizeofInode / 1024).setWidth 16
  let m ← put size (fun _ => 0) 0 (bytes32 (numBlocks.setWidth 32))
  let m ← put size m 4 (bytes16 numInodes)
  let m ← put size m 6 (bytes32 2)
  let m ← put size m 10 (bytes32 (2 + numInodeBlocks.setWidth 32))
  let m ← put size m 14 (bytes32 1)
  put size m 18 (bytes32 (dataStart m))

/-- `fs + superblock->inode_start * 1024`, a product of 32-bit numbers. -/
def freeInodes (m : ByteMemory) : ℕ := (inodeStart m * 1024).toNat

/-- The list of free inodes. -/
def writeFreeInodes (size : ℕ) (m : ByteMemory) : Option ByteMemory := do
  let links := freeInodes m
  let m ← linkLoop size links sizeofFreeInode
    (fun m i => (i : ℤ) < (numberOfInodes m).toNat - 1) m 1
  put size m (links + sizeofFreeInode * (((numberOfInodes m).toNat : ℤ) - 1)).toNat (bytes32 (-1))

/-- The list of free data blocks. The index `i` is converted to an unsigned long. -/
def writeFreeData (size : ℕ) (numBlocks : BitVec 64) (m : ByteMemory) : Option ByteMemory := do
  let m ← linkLoop size 0 sizeofFreeData (fun _ i => i < (numBlocks - 1).toNat) m
    (dataStart m).toNat
  put size m ((numBlocks - 1) * BitVec.ofNat 64 sizeofFreeData).toNat (bytes32 (-1))

/-- `main`, with the number of inodes as a parameter. -/
def mkfsWith (numInodes : BitVec 16) (mapped : BitVec 64 → Bool) (numBlocks : BitVec 64) :
    Option ByteMemory :=
  let size := mappedBytes mapped numBlocks
  ((writeSuperblock size numBlocks numInodes).bind (writeFreeInodes size)).bind
    (writeFreeData size numBlocks)

/-- `main`, for the number `atol` makes of the argument, if there is one. -/
def mkfs (mapped : BitVec 64 → Bool) (argument : Option (BitVec 64)) : Option ByteMemory :=
  mkfsWith 128 mapped (argument.getD 1024)

/-! ### The loops -/

variable {size base stride i last : ℕ} {m m' : ByteMemory} {more : ByteMemory → ℕ → Bool}

theorem put_eq_some_iff {a : ℕ} {bytes : List (BitVec 8)} :
    put size m a bytes = some m' ↔ a + bytes.length ≤ size ∧ storeBytes m a bytes = m' := by
  rw [put, Option.ite_none_right_eq_some, Option.some_inj]

/-- The superblocks of two images are the same. -/
def SameSuperblock (m' m : ByteMemory) : Prop := ∀ x < sizeofSuperblock, m' x = m x

theorem SameSuperblock.refl (m : ByteMemory) : SameSuperblock m m := fun _ _ => rfl

theorem SameSuperblock.trans {m₁ m₂ m₃ : ByteMemory} (h : SameSuperblock m₁ m₂)
    (h' : SameSuperblock m₂ m₃) : SameSuperblock m₁ m₃ := fun x hx => (h x hx).trans (h' x hx)

theorem sameSuperblock_store32 {a : ℕ} (h : sizeofSuperblock ≤ a) (w : BitVec 32) :
    SameSuperblock (store32 m a w) m :=
  fun _ hx => store32_of_outside (Or.inl (hx.trans_le h))

theorem sameSuperblock_storeLinks {k : ℕ} (h : ∀ j, i ≤ j → sizeofSuperblock ≤ base + stride * j) :
    SameSuperblock (storeLinks m base stride i k) m :=
  fun _ hx => storeLinks_of_outside fun j hj _ => Or.inl (hx.trans_le (h j hj))

/-- **When a loop ends, and what it leaves**, if its test asks for an index below `last` whatever
happens outside the superblock, and its stores happen outside the superblock. -/
theorem linkLoop_eq_some_iff
    (hmore : ∀ m', SameSuperblock m' m → ∀ j, more m' j = true ↔ j < last)
    (hbase : ∀ j, i ≤ j → sizeofSuperblock ≤ base + stride * j) :
    linkLoop size base stride more m i = some m' ↔
      (∀ j, i ≤ j → j < last → j < intMax ∧ base + stride * j + 4 ≤ size) ∧
        storeLinks m base stride i (last - i) = m' := by
  induction hk : last - i generalizing m i with
  | zero =>
    have hend : ¬ more m i = true := fun h => by
      have := (hmore m (SameSuperblock.refl m) i).mp h
      omega
    rw [linkLoop, if_neg hend, Option.some_inj, storeLinks]
    exact (and_iff_right fun j hj hjl => by omega).symm
  | succ k ih =>
    have hgo : more m i = true := (hmore m (SameSuperblock.refl m) i).mpr (by omega)
    rw [linkLoop, if_pos hgo, Option.ite_none_right_eq_some, Option.bind_eq_some_iff]
    have hstore := sameSuperblock_store32 (m := m) (hbase i le_rfl) (BitVec.ofNat 32 (i + 1))
    have ih' := ih (m := store32 m (base + stride * i) (BitVec.ofNat 32 (i + 1))) (i := i + 1)
      (fun m'' h => hmore m'' (h.trans hstore)) (fun j hj => hbase j (by omega)) (by omega)
    constructor
    · rintro ⟨hmax, m₁, hput, hloop⟩
      obtain ⟨hfit, rfl⟩ := put_eq_some_iff.mp hput
      obtain ⟨hall, heq⟩ := ih'.mp hloop
      refine ⟨fun j hj hjl => ?_, heq⟩
      rcases hj.eq_or_lt with rfl | hlt
      · exact ⟨hmax, by simpa using hfit⟩
      · exact hall j hlt hjl
    · rintro ⟨hall, heq⟩
      obtain ⟨hmax, hfit⟩ := hall i le_rfl (by omega)
      refine ⟨hmax, _, put_eq_some_iff.mpr ⟨by simpa using hfit, rfl⟩, ?_⟩
      exact ih'.mpr ⟨fun j hj hjl => hall j (by omega) hjl, heq⟩

/-! ### The image -/

/-- The field `data_start`. -/
def dataStartFor (numInodes : BitVec 16) : BitVec 32 :=
  2 + ((numInodes.setWidth 64 * BitVec.ofNat 64 sizeofInode / 1024).setWidth 16).setWidth 32

/-- An image that is zero apart from the superblock. -/
def superblockImage (numBlocks : BitVec 64) (numInodes : BitVec 16) : ByteMemory :=
  let m := store32 (fun _ => 0) 0 (numBlocks.setWidth 32)
  let m := store16 m 4 numInodes
  let m := store32 m 6 2
  let m := store32 m 10 (dataStartFor numInodes)
  let m := store32 m 14 1
  store32 m 18 (dataStartFor numInodes)

/-- The image `main` makes if nothing stops it, for at least one inode. -/
def mkfsImage (numInodes : BitVec 16) (numBlocks : BitVec 64) : ByteMemory :=
  let m := superblockImage numBlocks numInodes
  let m := storeLinks m 2048 16 1 (numInodes.toNat - 1 - 1)
  let m := store32 m (2048 + 16 * (numInodes.toNat - 1)) (-1)
  let m := storeLinks m 0 1024 (dataStartFor numInodes).toNat
    ((numBlocks - 1).toNat - (dataStartFor numInodes).toNat)
  store32 m ((numBlocks - 1) * 1024).toNat (-1)

/-- All stores of `main` go to one of `size` bytes, and the indices do not overflow. -/
structure MkfsFits (size : ℕ) (numInodes : BitVec 16) (numBlocks : BitVec 64) : Prop where
  superblock : sizeofSuperblock ≤ size
  inodes : ∀ j, 1 ≤ j → j < numInodes.toNat - 1 → 2048 + 16 * j + 4 ≤ size
  lastInode : 2048 + 16 * (numInodes.toNat - 1) + 4 ≤ size
  data : ∀ j, (dataStartFor numInodes).toNat ≤ j → j < (numBlocks - 1).toNat →
    j < intMax ∧ 1024 * j + 4 ≤ size
  lastData : ((numBlocks - 1) * 1024).toNat + 4 ≤ size

theorem dataStartFor_toNat (numInodes : BitVec 16) :
    (dataStartFor numInodes).toNat = 2 + numInodes.toNat / 32 := by
  have hlt := numInodes.isLt
  have htwo : (2 : BitVec 32).toNat = 2 := rfl
  have hblock : (1024 : BitVec 64).toNat = 1024 := rfl
  have hinode : (BitVec.ofNat 64 sizeofInode).toNat = 32 := rfl
  rw [dataStartFor, BitVec.toNat_add, BitVec.toNat_setWidth, BitVec.toNat_setWidth,
    BitVec.toNat_udiv, BitVec.toNat_mul, BitVec.toNat_setWidth, htwo, hblock, hinode]
  omega

section fields

variable {numBlocks : BitVec 64} {numInodes : BitVec 16}

/-- The fields of the superblock, wherever it is. -/
theorem superblock_fields (h : SameSuperblock m (superblockImage numBlocks numInodes)) :
    numberOfBlocks m = numBlocks.setWidth 32 ∧ numberOfInodes m = numInodes ∧ inodeStart m = 2 ∧
      dataStart m = dataStartFor numInodes ∧ freeInodeList m = 1 ∧
      freeDataList m = dataStartFor numInodes := by
  have h32 : ∀ a, a + 4 ≤ sizeofSuperblock →
      load32 m a = load32 (superblockImage numBlocks numInodes) a := fun a ha =>
    load32_congr fun i hi => h (a + i) (by omega)
  have h16 : load16 m 4 = load16 (superblockImage numBlocks numInodes) 4 :=
    load16_congr (h 4 (by decide)) (h 5 (by decide))
  rw [numberOfBlocks, numberOfInodes, inodeStart, dataStart, freeInodeList, freeDataList, h16,
    h32 0 (by decide), h32 6 (by decide), h32 10 (by decide), h32 14 (by decide),
    h32 18 (by decide), superblockImage]
  refine ⟨?_, ?_, ?_, ?_, ?_, ?_⟩ <;>
    simp (disch := omega) only [load32_store32, load16_store16, load32_store32_of_disjoint,
      load32_store16_of_disjoint, load16_store32_of_disjoint]

theorem writeSuperblock_eq_some_iff :
    writeSuperblock size numBlocks numInodes = some m ↔
      sizeofSuperblock ≤ size ∧ superblockImage numBlocks numInodes = m := by
  -- the last assignment reads back what the one before the last but one has stored
  have hback : ∀ (m : ByteMemory) (w : BitVec 32),
      dataStart (storeBytes (storeBytes m 10 (bytes32 w)) 14 (bytes32 1)) = w := fun m w =>
    (load32_store32_of_disjoint (by omega)).trans (load32_store32 m 10 w)
  rw [writeSuperblock]
  simp only [Option.bind_eq_bind, Option.bind_eq_some_iff, put_eq_some_iff]
  constructor
  · rintro ⟨_, ⟨-, rfl⟩, _, ⟨-, rfl⟩, _, ⟨-, rfl⟩, _, ⟨-, rfl⟩, _, ⟨-, rfl⟩, hfit, rfl⟩
    refine ⟨hfit, ?_⟩
    rw [hback]
    rfl
  · rintro ⟨hfit, rfl⟩
    rw [sizeofSuperblock] at hfit
    have hle : ∀ (a : ℕ) (w : BitVec 32), a + 4 ≤ 22 → a + (bytes32 w).length ≤ size := fun a w h =>
      by rw [length_bytes32]; omega
    refine ⟨_, ⟨hle 0 _ (by omega), rfl⟩, _, ⟨(by omega : 4 + 2 ≤ 22).trans hfit, rfl⟩, _,
      ⟨hle 6 _ (by omega), rfl⟩, _, ⟨hle 10 _ (by omega), rfl⟩, _, ⟨hle 14 _ (by omega), rfl⟩,
      hle 18 _ (by omega), ?_⟩
    rw [hback]
    rfl

/-- The list of free inodes does not reach into the superblock. -/
theorem sameSuperblock_freeInodes {k j : ℕ} {m₀ : ByteMemory} (h : SameSuperblock m m₀) :
    SameSuperblock (store32 (storeLinks m 2048 16 1 k) (2048 + 16 * j) (-1)) m₀ := by
  refine (sameSuperblock_store32 ?_ _).trans ((sameSuperblock_storeLinks fun i _ => ?_).trans h)
  · rw [sizeofSuperblock]
    omega
  · rw [sizeofSuperblock]
    omega

theorem writeFreeInodes_eq_some_iff (hpos : 0 < numInodes.toNat)
    (h : SameSuperblock m (superblockImage numBlocks numInodes)) :
    writeFreeInodes size m = some m' ↔
      ((∀ j, 1 ≤ j → j < numInodes.toNat - 1 → 2048 + 16 * j + 4 ≤ size) ∧
        2048 + 16 * (numInodes.toNat - 1) + 4 ≤ size) ∧
      store32 (storeLinks m 2048 16 1 (numInodes.toNat - 1 - 1))
        (2048 + 16 * (numInodes.toNat - 1)) (-1) = m' := by
  have hlt : numInodes.toNat < 2 ^ 16 := numInodes.isLt
  have hlinks : freeInodes m = 2048 := by
    rw [freeInodes, (superblock_fields h).2.2.1]
    rfl
  have hmore : ∀ m'', SameSuperblock m'' m → ∀ j : ℕ,
      decide ((j : ℤ) < (numberOfInodes m'').toNat - 1) = true ↔ j < numInodes.toNat - 1 := by
    intro m'' h' j
    rw [(superblock_fields (h'.trans h)).2.1, decide_eq_true_iff]
    omega
  have hloop : ∀ m₁, linkLoop size 2048 16
      (fun m i => (i : ℤ) < (numberOfInodes m).toNat - 1) m 1 = some m₁ ↔ _ := fun m₁ =>
    linkLoop_eq_some_iff hmore fun j _ => by rw [sizeofSuperblock]; omega
  have hindex : (((2048 : ℕ) : ℤ) + ((16 : ℕ) : ℤ) * ((numInodes.toNat : ℤ) - 1)).toNat
      = 2048 + 16 * (numInodes.toNat - 1) := by omega
  have hinodes : ∀ k, numberOfInodes (storeLinks m 2048 16 1 k) = numInodes := fun k =>
    (superblock_fields ((sameSuperblock_storeLinks fun j _ => by
      rw [sizeofSuperblock]; omega).trans h)).2.1
  have hstride : sizeofFreeInode = 16 := rfl
  rw [writeFreeInodes, hlinks, hstride]
  simp only [Option.bind_eq_bind, Option.bind_eq_some_iff, put_eq_some_iff]
  constructor
  · rintro ⟨m₁, hm₁, hfit, rfl⟩
    obtain ⟨hall, rfl⟩ := (hloop m₁).mp hm₁
    rw [hinodes, hindex] at hfit ⊢
    exact ⟨⟨fun j hj hjn => (hall j hj hjn).2, hfit⟩, rfl⟩
  · rintro ⟨⟨hall, hfit⟩, rfl⟩
    refine ⟨_, (hloop _).mpr ⟨fun j hj hjn => ⟨?_, hall j hj hjn⟩, rfl⟩, ?_⟩
    · rw [intMax]
      omega
    · rw [hinodes, hindex]
      exact ⟨hfit, rfl⟩

theorem writeFreeData_eq_some_iff
    (h : SameSuperblock m (superblockImage numBlocks numInodes)) :
    writeFreeData size numBlocks m = some m' ↔
      ((∀ j, (dataStartFor numInodes).toNat ≤ j → j < (numBlocks - 1).toNat →
          j < intMax ∧ 1024 * j + 4 ≤ size) ∧
        ((numBlocks - 1) * 1024).toNat + 4 ≤ size) ∧
      store32 (storeLinks m 0 1024 (dataStartFor numInodes).toNat
          ((numBlocks - 1).toNat - (dataStartFor numInodes).toNat))
        ((numBlocks - 1) * 1024).toNat (-1) = m' := by
  have hstart := dataStartFor_toNat numInodes
  have hmore : ∀ m'', SameSuperblock m'' m → ∀ j : ℕ,
      decide (j < (numBlocks - 1).toNat) = true ↔ j < (numBlocks - 1).toNat :=
    fun _ _ _ => decide_eq_true_iff
  have hloop : ∀ m₁, linkLoop size 0 1024 (fun _ i => i < (numBlocks - 1).toNat) m
      (dataStartFor numInodes).toNat = some m₁ ↔ _ := fun m₁ =>
    linkLoop_eq_some_iff hmore fun j hj => by rw [sizeofSuperblock]; omega
  have hstride : sizeofFreeData = 1024 := rfl
  have hblock : BitVec.ofNat 64 1024 = 1024 := rfl
  rw [writeFreeData, (superblock_fields h).2.2.2.1, hstride, hblock]
  simp only [Option.bind_eq_bind, Option.bind_eq_some_iff, put_eq_some_iff]
  constructor
  · rintro ⟨m₁, hm₁, hfit, rfl⟩
    obtain ⟨hall, rfl⟩ := (hloop m₁).mp hm₁
    simp only [Nat.zero_add] at hall
    exact ⟨⟨hall, hfit⟩, rfl⟩
  · rintro ⟨⟨hall, hfit⟩, rfl⟩
    exact ⟨_, (hloop _).mpr ⟨by simpa only [Nat.zero_add] using hall, rfl⟩, hfit, rfl⟩

/-- **When `main` ends, and what it leaves.** -/
theorem mkfsWith_eq_some_iff {mapped : BitVec 64 → Bool} (hpos : 0 < numInodes.toNat) :
    mkfsWith numInodes mapped numBlocks = some m ↔
      MkfsFits (mappedBytes mapped numBlocks) numInodes numBlocks ∧
        mkfsImage numInodes numBlocks = m := by
  have hsame := sameSuperblock_freeInodes (k := numInodes.toNat - 1 - 1)
    (j := numInodes.toNat - 1) (SameSuperblock.refl (superblockImage numBlocks numInodes))
  rw [mkfsWith]
  generalize mappedBytes mapped numBlocks = size
  simp only [Option.bind_eq_some_iff, writeSuperblock_eq_some_iff]
  constructor
  · rintro ⟨m₂, ⟨m₁, ⟨hsuper, rfl⟩, hinodes⟩, hdata⟩
    obtain ⟨⟨hall, hlast⟩, rfl⟩ :=
      (writeFreeInodes_eq_some_iff hpos (SameSuperblock.refl _)).mp hinodes
    obtain ⟨⟨hall', hlast'⟩, rfl⟩ := (writeFreeData_eq_some_iff hsame).mp hdata
    exact ⟨⟨hsuper, hall, hlast, hall', hlast'⟩, rfl⟩
  · rintro ⟨⟨hsuper, hall, hlast, hall', hlast'⟩, rfl⟩
    exact ⟨_, ⟨_, ⟨hsuper, rfl⟩,
      (writeFreeInodes_eq_some_iff hpos (SameSuperblock.refl _)).mpr ⟨⟨hall, hlast⟩, rfl⟩⟩,
      (writeFreeData_eq_some_iff hsame).mpr ⟨⟨hall', hlast'⟩, rfl⟩⟩

end fields

end FrogOS
