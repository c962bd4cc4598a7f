import Mathlib.Data.BitVec
import Mathlib.Data.List.Basic

/-!
# The allocator

`mem.c`: a bump allocator over one megabyte at `0x300000`. `malloc` rounds the request up to a
multiple of eight, refuses it when it exceeds what is left, and otherwise hands out the next block.
There is no `free`. All arithmetic is on `size_t`, so it wraps modulo `2 ^ 64`.

## The two regimes

The rounding addition wraps for the seven sizes above `2 ^ 64 - 8`, and then the rounded size is
zero: the comparison with `heap_size` passes, a non-null pointer is returned and nothing is
reserved. Below that bound the allocator does what it says. `malloc_of_le` and `malloc_of_lt` are
the two specifications; neither regime ever damages `Heap.Valid`, which is why the bound on the
sizes is the exact condition in `allocatorSafe_iff`.

## Main definitions

* `Heap`, `malloc` — the two globals, and the function
* `Heap.Valid` — what holds of the two globals at all times
* `mallocCalls`, `AllocatorSafe` — a sequence of calls, and what is expected of it

## Main results

* `malloc_valid` — every call keeps the invariant, whatever its size
* `allocatorSafe_iff` — a sequence of calls is safe exactly when no size is above `2 ^ 64 - 8`
-/

namespace FrogOS

/-- The globals `heap` and `heap_size`. -/
structure Heap where
  heap : BitVec 64
  heapSize : BitVec 64
  deriving DecidableEq

/-- The values the two globals are initialised with. -/
def Heap.initial : Heap := ⟨0x300000, 0x100000⟩

/-- The aligned request: `size += 8 - (size % 8)` unless it is a multiple of eight already. -/
def alignSize (size : BitVec 64) : BitVec 64 :=
  if size % 8 ≠ 0 then size + (8 - size % 8) else size

/-- The returned pointer, null being `0`, and the allocator afterwards. -/
def malloc (h : Heap) (size : BitVec 64) : BitVec 64 × Heap :=
  if size = 0 then (0, h)
  else if h.heapSize < alignSize size then (0, h)
  else (h.heap, ⟨h.heap + alignSize size, h.heapSize - alignSize size⟩)

/-- `n` rounded up to a multiple of eight, as an integer. -/
def roundUp (n : ℕ) : ℕ := (n + 7) / 8 * 8

theorem le_roundUp (n : ℕ) : n ≤ roundUp n := by unfold roundUp; omega

theorem dvd_roundUp (n : ℕ) : 8 ∣ roundUp n := ⟨_, Nat.mul_comm _ _⟩

/-- What holds of the allocator at all times. -/
structure Heap.Valid (h : Heap) : Prop where
  /-- The heap pointer and the remaining size always add up to the end of the region. -/
  sum : h.heap.toNat + h.heapSize.toNat = 0x400000
  start : 0x300000 ≤ h.heap.toNat
  aligned : 8 ∣ h.heap.toNat

theorem Heap.Valid.aligned_size {h : Heap} (hv : h.Valid) : 8 ∣ h.heapSize.toNat := by
  have := hv.sum
  have := hv.aligned
  omega

theorem Heap.Valid.heap_ne_zero {h : Heap} (hv : h.Valid) : h.heap ≠ 0 := by
  intro h0
  have := hv.start
  rw [h0] at this
  simp at this

theorem Heap.valid_initial : Heap.initial.Valid := by
  constructor <;> decide

/-! ### One call -/

theorem toNat_alignSize {size : BitVec 64} :
    (alignSize size).toNat = roundUp size.toNat % 2 ^ 64 := by
  have hlt := size.isLt
  have hmod : (size % 8).toNat = size.toNat % 8 := by simp
  unfold alignSize roundUp
  split
  · next hne =>
    have hpos : size.toNat % 8 ≠ 0 := fun h0 => hne (BitVec.eq_of_toNat_eq (by simpa using h0))
    have hsub : (8 - size % 8).toNat = 8 - size.toNat % 8 := by
      rw [BitVec.toNat_sub, hmod, show (8 : BitVec 64).toNat = 8 from rfl]
      omega
    rw [BitVec.toNat_add, hsub, show (size.toNat + 7) / 8 * 8
      = size.toNat + (8 - size.toNat % 8) by omega]
  · next heq =>
    have h0 : size.toNat % 8 = 0 := by
      rw [← hmod, Decidable.not_not.mp heq]
      rfl
    omega

/-- Below the wrap-around the rounding is the rounding of integers. -/
theorem toNat_alignSize_of_le {size : BitVec 64} (hn : size.toNat ≤ 2 ^ 64 - 8) :
    (alignSize size).toNat = roundUp size.toNat := by
  rw [toNat_alignSize]
  unfold roundUp
  omega

/-- Above it the rounded size is zero. -/
theorem alignSize_of_lt {size : BitVec 64} (hn : 2 ^ 64 - 8 < size.toNat) : alignSize size = 0 := by
  have hlt := size.isLt
  refine BitVec.eq_of_toNat_eq ?_
  rw [toNat_alignSize, show roundUp size.toNat = 2 ^ 64 by unfold roundUp; omega]
  rfl

/-- A call that reserves `n` bytes: a block at the heap pointer, which moves past it. -/
structure Reserves (h : Heap) (n : ℕ) (p : BitVec 64) (h' : Heap) : Prop where
  result : p = h.heap
  heap : h'.heap.toNat = h.heap.toNat + n
  heapSize : h'.heapSize.toNat + n = h.heapSize.toNat

/-- **`malloc` below the wrap-around.** A request that is zero or too large is refused and changes
nothing; any other is served at the heap pointer. -/
theorem malloc_of_le {h : Heap} (size : BitVec 64) (hv : h.Valid)
    (hn : size.toNat ≤ 2 ^ 64 - 8) :
    ((size = 0 ∨ h.heapSize.toNat < roundUp size.toNat) ∧ malloc h size = (0, h)) ∨
      (size ≠ 0 ∧ roundUp size.toNat ≤ h.heapSize.toNat ∧
        Reserves h (roundUp size.toNat) (malloc h size).1 (malloc h size).2) := by
  have hsum := hv.sum
  have hround := toNat_alignSize_of_le hn
  unfold malloc
  split
  · next h0 => exact Or.inl ⟨Or.inl h0, rfl⟩
  · next h0 =>
    split
    · next hlt =>
      rw [BitVec.lt_def, hround] at hlt
      exact Or.inl ⟨Or.inr hlt, rfl⟩
    · next hge =>
      rw [BitVec.lt_def, hround, Nat.not_lt] at hge
      refine Or.inr ⟨h0, hge, rfl, ?_, ?_⟩
      · rw [BitVec.toNat_add, hround]
        omega
      · rw [BitVec.toNat_sub, hround]
        omega

/-- **`malloc` above the wrap-around.** The heap pointer is handed out and nothing is reserved. -/
theorem malloc_of_lt {h : Heap} {size : BitVec 64} (hn : 2 ^ 64 - 8 < size.toNat) :
    malloc h size = (h.heap, h) := by
  have h0 : size ≠ 0 := by
    rintro rfl
    simp at hn
  rw [malloc, if_neg h0, alignSize_of_lt hn, if_neg (by simp)]
  simp

theorem Reserves.valid {h h' : Heap} {n : ℕ} {p : BitVec 64} (hr : Reserves h n p h')
    (hv : h.Valid) (hn : 8 ∣ n) : h'.Valid where
  sum := by
    have := hv.sum
    have := hr.heap
    have := hr.heapSize
    omega
  start := by
    have := hv.start
    have := hr.heap
    omega
  aligned := by
    rw [hr.heap]
    exact Nat.dvd_add hv.aligned hn

/-- Every call keeps the invariant, and the heap pointer only moves up. -/
theorem malloc_valid {h : Heap} (hv : h.Valid) (size : BitVec 64) :
    (malloc h size).2.Valid ∧ h.heap.toNat ≤ (malloc h size).2.heap.toNat := by
  rcases Nat.lt_or_ge (2 ^ 64 - 8) size.toNat with hn | hn
  · rw [malloc_of_lt hn]
    exact ⟨hv, le_rfl⟩
  · rcases malloc_of_le size hv hn with ⟨-, heq⟩ | ⟨-, -, hr⟩
    · rw [heq]
      exact ⟨hv, le_rfl⟩
    · exact ⟨hr.valid hv (dvd_roundUp _), by rw [hr.heap]; omega⟩

/-! ### Sequences of calls -/

/-- One call of `malloc`, with the allocator around it. -/
structure MallocCall where
  before : Heap
  size : BitVec 64
  result : BitVec 64
  after : Heap

def mallocCall (h : Heap) (size : BitVec 64) : MallocCall :=
  ⟨h, size, (malloc h size).1, (malloc h size).2⟩

/-- The calls of a sequence of requests, made one after the other from `h`. -/
def mallocCalls (h : Heap) : List (BitVec 64) → List MallocCall
  | [] => []
  | n :: ns => mallocCall h n :: mallocCalls (malloc h n).2 ns

/-- What one call is expected to do. -/
structure MallocCall.Safe (c : MallocCall) : Prop where
  /-- A non-null result is aligned, and the requested bytes lie inside the heap region. -/
  block : c.result ≠ 0 → 8 ∣ c.result.toNat ∧ 0x300000 ≤ c.result.toNat ∧
    c.result.toNat + c.size.toNat ≤ 0x400000
  sum : c.before.heap.toNat + c.before.heapSize.toNat = 0x400000 ∧
    c.after.heap.toNat + c.after.heapSize.toNat = 0x400000
  aligned : 8 ∣ c.before.heap.toNat ∧ 8 ∣ c.before.heapSize.toNat ∧
    8 ∣ c.after.heap.toNat ∧ 8 ∣ c.after.heapSize.toNat
  /-- A refusal changes nothing. -/
  refused : c.result = 0 → c.after = c.before
  /-- Only a request larger than the rest of the heap is refused. -/
  exhausted : c.result = 0 → 0 < c.size.toNat → c.before.heapSize.toNat < roundUp c.size.toNat

/-- The requested bytes of two successful calls do not meet. -/
def MallocCall.DisjointFrom (c d : MallocCall) : Prop :=
  c.result ≠ 0 → d.result ≠ 0 → ∀ a,
    ¬ ((c.result.toNat ≤ a ∧ a < c.result.toNat + c.size.toNat) ∧
      d.result.toNat ≤ a ∧ a < d.result.toNat + d.size.toNat)

/-- What is expected of a sequence of calls. -/
structure AllocatorSafe (calls : List MallocCall) : Prop where
  each : ∀ c ∈ calls, c.Safe
  disjoint : calls.Pairwise MallocCall.DisjointFrom

theorem mallocCall_safe {h : Heap} {size : BitVec 64} (hv : h.Valid)
    (hn : size.toNat ≤ 2 ^ 64 - 8) : (mallocCall h size).Safe := by
  have hv' := (malloc_valid hv size).1
  have hsum := hv.sum
  refine ⟨fun hne => ?_, ⟨hsum, hv'.sum⟩,
    ⟨hv.aligned, hv.aligned_size, hv'.aligned, hv'.aligned_size⟩, fun h0 => ?_, fun h0 hpos => ?_⟩
  all_goals
    simp only [mallocCall] at *
    rcases malloc_of_le size hv hn with ⟨hcase, heq⟩ | ⟨hpos, hfit, hr⟩
  · exact absurd (congrArg Prod.fst heq) hne
  · have := le_roundUp size.toNat
    rw [hr.result]
    exact ⟨hv.aligned, hv.start, by omega⟩
  · rw [heq]
  · exact absurd (hr.result.symm.trans h0) hv.heap_ne_zero
  · exact hcase.resolve_left (by rintro rfl; simp at hpos)
  · exact absurd (hr.result.symm.trans h0) hv.heap_ne_zero

/-- A size above the wrap-around breaks the promise on its own. -/
theorem not_mallocCall_safe {h : Heap} {size : BitVec 64} (hv : h.Valid)
    (hn : 2 ^ 64 - 8 < size.toNat) : ¬ (mallocCall h size).Safe := by
  intro hs
  have heq : (mallocCall h size).result = h.heap := by rw [mallocCall, malloc_of_lt hn]
  have hb := hs.block (by rw [heq]; exact hv.heap_ne_zero)
  have hle : h.heap.toNat + size.toNat ≤ 0x400000 := by
    rw [← heq]
    exact hb.2.2
  omega

/-- Every call of a sequence is made from a valid allocator, at or above the first heap pointer. -/
theorem exists_mallocCall_of_mem {h : Heap} {sizes : List (BitVec 64)} (hv : h.Valid) :
    ∀ c ∈ mallocCalls h sizes, ∃ h' : Heap, h'.Valid ∧ h.heap.toNat ≤ h'.heap.toNat ∧
      c.size ∈ sizes ∧ c = mallocCall h' c.size := by
  induction sizes generalizing h with
  | nil => simp [mallocCalls]
  | cons n ns ih =>
    intro c hc
    rcases List.mem_cons.mp hc with rfl | hc
    · exact ⟨h, hv, le_rfl, by simp [mallocCall], rfl⟩
    · obtain ⟨hv', hle⟩ := malloc_valid hv n
      obtain ⟨h', hvh, hle', hmem, heq⟩ := ih hv' c hc
      exact ⟨h', hvh, hle.trans hle', List.mem_cons_of_mem _ hmem, heq⟩

/-- And every request of the sequence is such a call. -/
theorem exists_call_of_mem_sizes {h : Heap} {sizes : List (BitVec 64)} (hv : h.Valid) :
    ∀ n ∈ sizes, ∃ h' : Heap, h'.Valid ∧ mallocCall h' n ∈ mallocCalls h sizes := by
  induction sizes generalizing h with
  | nil => simp
  | cons k ks ih =>
    intro n hn
    rcases List.mem_cons.mp hn with rfl | hn
    · exact ⟨h, hv, List.mem_cons_self⟩
    · obtain ⟨h', hvh, hmem⟩ := ih (malloc_valid hv k).1 n hn
      exact ⟨h', hvh, List.mem_cons_of_mem _ hmem⟩

/-- A served block ends below the heap pointer it leaves behind. -/
theorem block_le_heap {h : Heap} {size : BitVec 64} (hv : h.Valid)
    (hn : size.toNat ≤ 2 ^ 64 - 8) (hne : (malloc h size).1 ≠ 0) :
    (malloc h size).1.toNat + size.toNat ≤ (malloc h size).2.heap.toNat := by
  rcases malloc_of_le size hv hn with ⟨-, heq⟩ | ⟨-, -, hr⟩
  · exact absurd (congrArg Prod.fst heq) hne
  · have := le_roundUp size.toNat
    rw [hr.result, hr.heap]
    omega

theorem mallocCalls_disjoint {h : Heap} {sizes : List (BitVec 64)} (hv : h.Valid)
    (hn : ∀ n ∈ sizes, n.toNat ≤ 2 ^ 64 - 8) :
    (mallocCalls h sizes).Pairwise MallocCall.DisjointFrom := by
  induction sizes generalizing h with
  | nil => exact List.Pairwise.nil
  | cons n ns ih =>
    obtain ⟨hv', -⟩ := malloc_valid hv n
    refine List.pairwise_cons.mpr ⟨fun d hd hc hd' a ha => ?_,
      ih hv' fun k hk => hn k (List.mem_cons_of_mem _ hk)⟩
    obtain ⟨h', hvh, hle, hmem, heq⟩ := exists_mallocCall_of_mem hv' d hd
    have hend := block_le_heap hv (hn n List.mem_cons_self) hc
    have hstart : d.result = h'.heap := by
      rw [heq] at hd' ⊢
      rcases malloc_of_le _ hvh (hn _ (List.mem_cons_of_mem _ hmem)) with ⟨-, h0⟩ | ⟨-, -, hr⟩
      · exact absurd (congrArg Prod.fst h0) hd'
      · exact hr.result
    rw [hstart] at ha
    simp only [mallocCall] at ha
    omega

/-- **A sequence of `malloc` calls from the initial heap is safe exactly when no size is above
`2 ^ 64 - 8`.** The seven sizes above it are rounded to zero. -/
theorem allocatorSafe_iff (sizes : List (BitVec 64)) :
    AllocatorSafe (mallocCalls Heap.initial sizes) ↔ ∀ n ∈ sizes, n.toNat ≤ 2 ^ 64 - 8 := by
  constructor
  · intro hs n hn
    obtain ⟨h', hv, hmem⟩ := exists_call_of_mem_sizes Heap.valid_initial n hn
    by_contra hlt
    exact not_mallocCall_safe hv (Nat.not_le.mp hlt) (hs.each _ hmem)
  · intro hn
    refine ⟨fun c hc => ?_, mallocCalls_disjoint Heap.valid_initial hn⟩
    obtain ⟨h', hv, -, hmem, heq⟩ := exists_mallocCall_of_mem Heap.valid_initial c hc
    rw [heq]
    exact mallocCall_safe hv (hn _ hmem)

/-- `malloc(SIZE_MAX)` returns the heap pointer. -/
theorem not_allocatorSafe_sizeMax :
    ¬ AllocatorSafe (mallocCalls Heap.initial [0xffffffffffffffff]) := by
  intro hs
  have hb := (hs.each _ List.mem_cons_self).block (by decide)
  exact absurd hb.2.2 (by decide)

end FrogOS
