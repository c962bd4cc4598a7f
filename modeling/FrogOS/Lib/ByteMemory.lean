import Mathlib.Data.BitVec
import Mathlib.Logic.Function.Basic
import Mathlib.Tactic.Ring

/-!
# Byte-addressed memory

A memory is a total function from addresses to bytes. The string instructions of the machine are
recursions on the repeat count, moving or storing one element at a time with the direction flag
clear: `memcpy` is `rep movsb`, `memset` is `rep stosb`, `memsetw` is `rep stosw`, `memsetd` is
`rep stosd` and `repeCmpsb` is `repe cmpsb`. Multi-byte values are little-endian.

Nothing is assumed about overlap. `memcpy_of_inside` says what a forward copy leaves behind when the
destination does not lie above the source, which is the case the forward direction is right for.

## Main definitions

* `ByteMemory.memcpy`, `memset`, `memsetw`, `memsetd`, `repeCmpsb` — the string instructions
* `ByteMemory.store16`, `load16`, `store32`, `load32`, `store64`, `load64` — little-endian words
* `ByteMemory.storeWords` — consecutive 64-bit words

## Main results

* `ByteMemory.memcpy_of_inside`, `memset_of_inside`, `load16_memsetw`
* `ByteMemory.load64_store64`, `load64_store64_of_disjoint`, `loadWord_storeWords`
-/

/-- A memory: one byte at every address. -/
abbrev ByteMemory : Type := ℕ → BitVec 8

namespace ByteMemory

variable {m : ByteMemory} {a b n : ℕ}

/-! ### Bytes -/

/-- Consecutive single-byte stores. -/
def storeBytes (m : ByteMemory) (a : ℕ) : List (BitVec 8) → ByteMemory
  | [] => m
  | b :: bs => storeBytes (Function.update m a b) (a + 1) bs

theorem storeBytes_of_outside : ∀ {bs : List (BitVec 8)} {m : ByteMemory} {a x : ℕ},
    x < a ∨ a + bs.length ≤ x → storeBytes m a bs x = m x
  | [], _, _, _, _ => rfl
  | b :: bs, m, a, x, h => by
    rw [List.length_cons] at h
    rw [storeBytes, storeBytes_of_outside (by omega), Function.update_of_ne (by omega)]

theorem storeBytes_of_inside : ∀ {bs : List (BitVec 8)} {m : ByteMemory} {a i : ℕ}
    (h : i < bs.length), storeBytes m a bs (a + i) = bs[i]
  | b :: bs, m, a, 0, _ => by
    rw [storeBytes, storeBytes_of_outside (by omega)]
    simp
  | b :: bs, m, a, i + 1, h => by
    rw [storeBytes, show a + (i + 1) = a + 1 + i by omega,
      storeBytes_of_inside (by simpa using h), List.getElem_cons_succ]

/-- A store writes the same bytes over any memory. -/
theorem storeBytes_congr : ∀ {bs : List (BitVec 8)} {m m' : ByteMemory} {a x : ℕ},
    m x = m' x → storeBytes m a bs x = storeBytes m' a bs x
  | [], _, _, _, _, h => h
  | b :: bs, m, m', a, x, h => by
    rw [storeBytes, storeBytes]
    refine storeBytes_congr ?_
    by_cases hx : x = a
    · rw [hx, Function.update_self, Function.update_self]
    · rw [Function.update_of_ne hx, Function.update_of_ne hx, h]

theorem storeBytes_append : ∀ {bs cs : List (BitVec 8)} {m : ByteMemory} {a : ℕ},
    storeBytes m a (bs ++ cs) = storeBytes (storeBytes m a bs) (a + bs.length) cs
  | [], _, _, _ => rfl
  | b :: bs, cs, m, a => by
    rw [List.cons_append, storeBytes, storeBytes_append, storeBytes, List.length_cons,
      show a + 1 + bs.length = a + (bs.length + 1) by omega]

/-- `rep movsb` with the direction flag clear. -/
def memcpy (m : ByteMemory) (dest src : ℕ) : ℕ → ByteMemory
  | 0 => m
  | n + 1 => memcpy (Function.update m dest (m src)) (dest + 1) (src + 1) n

/-- `rep stosb` with the direction flag clear. -/
def memset (m : ByteMemory) (s : ℕ) (c : BitVec 8) : ℕ → ByteMemory
  | 0 => m
  | n + 1 => memset (Function.update m s c) (s + 1) c n

theorem memcpy_of_outside : ∀ {n : ℕ} {m : ByteMemory} {dest src x : ℕ},
    x < dest ∨ dest + n ≤ x → memcpy m dest src n x = m x
  | 0, _, _, _, _, _ => rfl
  | n + 1, m, dest, src, x, h => by
    rw [memcpy, memcpy_of_outside (by omega), Function.update_of_ne (by omega)]

/-- A forward copy to a destination not above its source moves the bytes the source had at the
start, overlap or not: every source byte is read before the copy reaches it. -/
theorem memcpy_of_inside : ∀ {n : ℕ} {m : ByteMemory} {dest src i : ℕ}, dest ≤ src → i < n →
    memcpy m dest src n (dest + i) = m (src + i)
  | n + 1, m, dest, src, 0, _, _ => by
    rw [memcpy, memcpy_of_outside (by omega)]
    simp
  | n + 1, m, dest, src, i + 1, h, hi => by
    rw [memcpy, show dest + (i + 1) = dest + 1 + i by omega,
      memcpy_of_inside (by omega) (by omega), Function.update_of_ne (by omega),
      show src + 1 + i = src + (i + 1) by omega]

/-- A copy between ranges that do not overlap. -/
theorem memcpy_of_disjoint : ∀ {n : ℕ} {m : ByteMemory} {dest src i : ℕ},
    dest + n ≤ src ∨ src + n ≤ dest → i < n → memcpy m dest src n (dest + i) = m (src + i)
  | n + 1, m, dest, src, 0, _, _ => by
    rw [memcpy, memcpy_of_outside (by omega)]
    simp
  | n + 1, m, dest, src, i + 1, h, hi => by
    rw [memcpy, show dest + (i + 1) = dest + 1 + i by omega,
      memcpy_of_disjoint (by omega) (by omega), Function.update_of_ne (by omega),
      show src + 1 + i = src + (i + 1) by omega]

theorem memset_of_outside : ∀ {n : ℕ} {m : ByteMemory} {s x : ℕ} {c : BitVec 8},
    x < s ∨ s + n ≤ x → memset m s c n x = m x
  | 0, _, _, _, _, _ => rfl
  | n + 1, m, s, x, c, h => by
    rw [memset, memset_of_outside (by omega), Function.update_of_ne (by omega)]

theorem memset_of_inside : ∀ {n : ℕ} {m : ByteMemory} {s i : ℕ} {c : BitVec 8}, i < n →
    memset m s c n (s + i) = c
  | n + 1, m, s, 0, c, _ => by
    rw [memset, memset_of_outside (by omega)]
    simp
  | n + 1, m, s, i + 1, c, h => by
    rw [memset, show s + (i + 1) = s + 1 + i by omega, memset_of_inside (by omega)]

/-- `repe cmpsb` with the direction flag clear: the zero flag afterwards, `zf` being the one before.
The comparison that fails is the last one. -/
def repeCmpsb (m : ByteMemory) (zf : Bool) (src dest : ℕ) : ℕ → Bool
  | 0 => zf
  | n + 1 => if m src = m dest then repeCmpsb m true (src + 1) (dest + 1) n else false

theorem repeCmpsb_eq_true_iff : ∀ {n : ℕ} {m : ByteMemory} {src dest : ℕ},
    repeCmpsb m true src dest n = true ↔ ∀ i < n, m (src + i) = m (dest + i)
  | 0, _, _, _ => iff_of_true rfl fun i hi => absurd hi (Nat.not_lt_zero i)
  | n + 1, m, src, dest => by
    rw [repeCmpsb]
    by_cases h : m src = m dest
    · rw [if_pos h, repeCmpsb_eq_true_iff]
      constructor
      · intro hall i hi
        cases i with
        | zero => exact h
        | succ i => simpa only [Nat.add_right_comm, Nat.add_assoc] using hall i (by omega)
      · intro hall i hi
        simpa only [Nat.add_right_comm, Nat.add_assoc] using hall (i + 1) (by omega)
    · rw [if_neg h]
      exact iff_of_false Bool.false_ne_true fun hall => h (hall 0 (Nat.succ_pos n))

/-! ### 16-bit words -/

def load16 (m : ByteMemory) (a : ℕ) : BitVec 16 := m (a + 1) ++ m a

/-- The bytes of a word, least significant first. -/
def bytes16 (w : BitVec 16) : List (BitVec 8) := [w.extractLsb' 0 8, w.extractLsb' 8 8]

def store16 (m : ByteMemory) (a : ℕ) (w : BitVec 16) : ByteMemory := storeBytes m a (bytes16 w)

/-- `rep stosw` with the direction flag clear. -/
def memsetw (m : ByteMemory) (s : ℕ) (c : BitVec 16) : ℕ → ByteMemory
  | 0 => m
  | n + 1 => memsetw (store16 m s c) (s + 2) c n

theorem store16_of_outside {w : BitVec 16} {x : ℕ} (h : x < a ∨ a + 2 ≤ x) :
    store16 m a w x = m x :=
  storeBytes_of_outside h

theorem load16_congr {m' : ByteMemory} (h₀ : m' b = m a) (h₁ : m' (b + 1) = m (a + 1)) :
    load16 m' b = load16 m a := by
  rw [load16, load16, h₀, h₁]

@[simp] theorem load16_store16 (m : ByteMemory) (a : ℕ) (w : BitVec 16) :
    load16 (store16 m a w) a = w := by
  have h₀ : store16 m a w a = w.extractLsb' 0 8 :=
    storeBytes_of_inside (a := a) (i := 0) (by simp [bytes16])
  have h₁ : store16 m a w (a + 1) = w.extractLsb' 8 8 :=
    storeBytes_of_inside (a := a) (i := 1) (by simp [bytes16])
  rw [load16, h₀, h₁]
  ext i hi
  simp only [BitVec.getElem_append, BitVec.getElem_extractLsb']
  split
  · rw [Nat.zero_add, BitVec.getLsbD_eq_getElem]
  · rw [show 8 + (i - 8) = i by omega, BitVec.getLsbD_eq_getElem]

theorem load16_store16_of_disjoint {w : BitVec 16} (h : b + 2 ≤ a ∨ a + 2 ≤ b) :
    load16 (store16 m a w) b = load16 m b :=
  load16_congr (store16_of_outside (by omega)) (store16_of_outside (by omega))

theorem memsetw_of_outside : ∀ {n : ℕ} {m : ByteMemory} {s x : ℕ} {c : BitVec 16},
    x < s ∨ s + 2 * n ≤ x → memsetw m s c n x = m x
  | 0, _, _, _, _, _ => rfl
  | n + 1, m, s, x, c, h => by
    rw [memsetw, memsetw_of_outside (by omega), store16_of_outside (by omega)]

theorem load16_memsetw : ∀ {n : ℕ} {m : ByteMemory} {s i : ℕ} {c : BitVec 16}, i < n →
    load16 (memsetw m s c n) (s + 2 * i) = c
  | n + 1, m, s, 0, c, _ => by
    have hkeep : load16 (memsetw (store16 m s c) (s + 2) c n) s = load16 (store16 m s c) s :=
      load16_congr (memsetw_of_outside (by omega)) (memsetw_of_outside (by omega))
    change load16 (memsetw (store16 m s c) (s + 2) c n) s = c
    rw [hkeep, load16_store16]
  | n + 1, m, s, i + 1, c, h => by
    rw [memsetw, show s + 2 * (i + 1) = s + 2 + 2 * i by omega, load16_memsetw (by omega)]

theorem load16_memsetw_of_disjoint {c : BitVec 16} (h : b + 2 ≤ a ∨ a + 2 * n ≤ b) :
    load16 (memsetw m a c n) b = load16 m b :=
  load16_congr (memsetw_of_outside (by omega)) (memsetw_of_outside (by omega))

theorem load16_memcpy {dest src i : ℕ} (h : dest ≤ src) (hi : i + 2 ≤ n) :
    load16 (memcpy m dest src n) (dest + i) = load16 m (src + i) :=
  load16_congr (memcpy_of_inside h (by omega)) (memcpy_of_inside (i := i + 1) h (by omega))

/-! ### 32-bit words -/

/-- The bytes of a word, least significant first. -/
def bytes32 (w : BitVec 32) : List (BitVec 8) := (List.range 4).map fun i => w.extractLsb' (8 * i) 8

def store32 (m : ByteMemory) (a : ℕ) (w : BitVec 32) : ByteMemory := storeBytes m a (bytes32 w)

def load32 (m : ByteMemory) (a : ℕ) : BitVec 32 := m (a + 3) ++ m (a + 2) ++ m (a + 1) ++ m a

/-- `rep stosd` with the direction flag clear. -/
def memsetd (m : ByteMemory) (s : ℕ) (c : BitVec 32) : ℕ → ByteMemory
  | 0 => m
  | n + 1 => memsetd (store32 m s c) (s + 4) c n

@[simp] theorem length_bytes32 (w : BitVec 32) : (bytes32 w).length = 4 := by simp [bytes32]

theorem store32_of_outside {w : BitVec 32} {x : ℕ} (h : x < a ∨ a + 4 ≤ x) :
    store32 m a w x = m x :=
  storeBytes_of_outside (by rw [length_bytes32]; exact h)

theorem store32_of_inside {w : BitVec 32} {i : ℕ} (h : i < 4) :
    store32 m a w (a + i) = w.extractLsb' (8 * i) 8 := by
  rw [store32, storeBytes_of_inside (by simpa using h)]
  simp [bytes32]

theorem load32_congr {m' : ByteMemory} (h : ∀ i < 4, m' (b + i) = m (a + i)) :
    load32 m' b = load32 m a := by
  have h₀ : m' b = m a := h 0 (by omega)
  simp only [load32, h₀, h 1 (by omega), h 2 (by omega), h 3 (by omega)]

@[simp] theorem load32_store32 (m : ByteMemory) (a : ℕ) (w : BitVec 32) :
    load32 (store32 m a w) a = w := by
  have h₀ : store32 m a w a = w.extractLsb' 0 8 := store32_of_inside (i := 0) (by omega)
  simp only [load32, h₀, store32_of_inside (show 1 < 4 by omega),
    store32_of_inside (show 2 < 4 by omega), store32_of_inside (show 3 < 4 by omega)]
  ext i hi
  simp only [BitVec.getElem_append, BitVec.getElem_extractLsb']
  grind

/-- A word that is loaded and stored elsewhere: its bytes. -/
theorem store32_load32_of_inside {m' : ByteMemory} {i : ℕ} (h : i < 4) :
    store32 m a (load32 m' b) (a + i) = m' (b + i) := by
  rw [store32_of_inside h]
  ext k hk
  simp only [load32, BitVec.getElem_extractLsb', BitVec.getLsbD_append]
  obtain rfl | rfl | rfl | rfl : i = 0 ∨ i = 1 ∨ i = 2 ∨ i = 3 := by omega
  all_goals grind

theorem load32_store32_of_disjoint {w : BitVec 32} (h : b + 4 ≤ a ∨ a + 4 ≤ b) :
    load32 (store32 m a w) b = load32 m b :=
  load32_congr fun i hi => store32_of_outside (by omega)

theorem load32_store16_of_disjoint {w : BitVec 16} (h : b + 4 ≤ a ∨ a + 2 ≤ b) :
    load32 (store16 m a w) b = load32 m b :=
  load32_congr fun i hi => store16_of_outside (by omega)

theorem load16_store32_of_disjoint {w : BitVec 32} (h : b + 2 ≤ a ∨ a + 4 ≤ b) :
    load16 (store32 m a w) b = load16 m b :=
  load16_congr (store32_of_outside (by omega)) (store32_of_outside (by omega))

theorem memsetd_of_outside : ∀ {n : ℕ} {m : ByteMemory} {s x : ℕ} {c : BitVec 32},
    x < s ∨ s + 4 * n ≤ x → memsetd m s c n x = m x
  | 0, _, _, _, _, _ => rfl
  | n + 1, m, s, x, c, h => by
    rw [memsetd, memsetd_of_outside (by omega), store32_of_outside (by omega)]

theorem memsetd_zero_of_inside : ∀ {n : ℕ} {m : ByteMemory} {s x : ℕ},
    s ≤ x → x < s + 4 * n → memsetd m s 0 n x = 0
  | 0, _, _, _, h, h' => by omega
  | n + 1, m, s, x, h, h' => by
    rw [memsetd]
    rcases Nat.lt_or_ge x (s + 4) with hlt | hge
    · obtain ⟨i, rfl⟩ := Nat.exists_eq_add_of_le h
      rw [memsetd_of_outside (by omega), store32_of_inside (by omega)]
      simp
    · exact memsetd_zero_of_inside hge (by omega)

/-! ### 64-bit words -/

/-- The bytes of a word, least significant first. -/
def bytes64 (w : BitVec 64) : List (BitVec 8) := (List.range 8).map fun i => w.extractLsb' (8 * i) 8

def store64 (m : ByteMemory) (a : ℕ) (w : BitVec 64) : ByteMemory := storeBytes m a (bytes64 w)

def load64 (m : ByteMemory) (a : ℕ) : BitVec 64 :=
  m (a + 7) ++ m (a + 6) ++ m (a + 5) ++ m (a + 4) ++ m (a + 3) ++ m (a + 2) ++ m (a + 1) ++ m a

@[simp] theorem length_bytes64 (w : BitVec 64) : (bytes64 w).length = 8 := by simp [bytes64]

theorem store64_of_outside {w : BitVec 64} {x : ℕ} (h : x < a ∨ a + 8 ≤ x) :
    store64 m a w x = m x :=
  storeBytes_of_outside (by rw [length_bytes64]; exact h)

theorem store64_of_inside {w : BitVec 64} {i : ℕ} (h : i < 8) :
    store64 m a w (a + i) = w.extractLsb' (8 * i) 8 := by
  rw [store64, storeBytes_of_inside (by simpa using h)]
  simp [bytes64]

theorem load64_congr {m' : ByteMemory} (h : ∀ i < 8, m' (b + i) = m (a + i)) :
    load64 m' b = load64 m a := by
  have h₀ : m' b = m a := h 0 (by omega)
  simp only [load64, h₀, h 1 (by omega), h 2 (by omega), h 3 (by omega), h 4 (by omega),
    h 5 (by omega), h 6 (by omega), h 7 (by omega)]

@[simp] theorem load64_store64 (m : ByteMemory) (a : ℕ) (w : BitVec 64) :
    load64 (store64 m a w) a = w := by
  have h₀ : store64 m a w a = w.extractLsb' 0 8 := store64_of_inside (i := 0) (by omega)
  simp only [load64, h₀, store64_of_inside (show 1 < 8 by omega),
    store64_of_inside (show 2 < 8 by omega), store64_of_inside (show 3 < 8 by omega),
    store64_of_inside (show 4 < 8 by omega), store64_of_inside (show 5 < 8 by omega),
    store64_of_inside (show 6 < 8 by omega), store64_of_inside (show 7 < 8 by omega)]
  ext i hi
  simp only [BitVec.getElem_append, BitVec.getElem_extractLsb']
  grind

theorem load32_eq_append (m : ByteMemory) (a : ℕ) :
    load32 m a = load16 m (a + 2) ++ load16 m a := by
  simp only [load32, load16, Nat.add_assoc, Nat.reduceAdd]
  ext i hi
  grind

/-- A word is its two halves. -/
theorem load64_eq_append (m : ByteMemory) (a : ℕ) :
    load64 m a = load32 m (a + 4) ++ load32 m a := by
  simp only [load64, load32, Nat.add_assoc, Nat.reduceAdd]
  ext i hi
  grind

theorem load64_store64_of_disjoint {w : BitVec 64} (h : b + 8 ≤ a ∨ a + 8 ≤ b) :
    load64 (store64 m a w) b = load64 m b :=
  load64_congr fun i hi => store64_of_outside (by omega)

theorem load64_of_zero (h : ∀ i < 8, m (a + i) = 0) : load64 m a = 0 := by
  rw [load64_congr (m := fun _ => 0) (a := 0) h]
  rfl

/-- A 16-bit store into a word that was zero. -/
theorem load64_store16_of_zero (h : ∀ i < 8, m (a + i) = 0) (w : BitVec 16) :
    load64 (store16 m a w) a = w.setWidth 64 := by
  have h₀ : store16 m a w a = w.extractLsb' 0 8 :=
    storeBytes_of_inside (a := a) (i := 0) (by simp [bytes16])
  have h₁ : store16 m a w (a + 1) = w.extractLsb' 8 8 :=
    storeBytes_of_inside (a := a) (i := 1) (by simp [bytes16])
  have hzero : ∀ i, 2 ≤ i → i < 8 → store16 m a w (a + i) = 0 := fun i hi hi' => by
    rw [store16_of_outside (by omega), h i hi']
  simp only [load64, h₀, h₁, hzero 2 (by omega) (by omega), hzero 3 (by omega) (by omega),
    hzero 4 (by omega) (by omega), hzero 5 (by omega) (by omega), hzero 6 (by omega) (by omega),
    hzero 7 (by omega) (by omega)]
  ext i hi
  simp only [BitVec.getElem_append, BitVec.getElem_extractLsb', BitVec.getElem_setWidth]
  grind

theorem load64_store16_of_disjoint {w : BitVec 16} (h : b + 8 ≤ a ∨ a + 2 ≤ b) :
    load64 (store16 m a w) b = load64 m b :=
  load64_congr fun i hi => store16_of_outside (by omega)

theorem load64_memset_zero (h : a ≤ b) (h' : b + 8 ≤ a + n) :
    load64 (memset m a 0 n) b = 0 := by
  refine load64_of_zero fun i hi => ?_
  rw [show b + i = a + (b - a + i) by omega]
  exact memset_of_inside (by omega)

theorem load64_memset_of_disjoint {c : BitVec 8} (h : b + 8 ≤ a ∨ a + n ≤ b) :
    load64 (memset m a c n) b = load64 m b :=
  load64_congr fun i hi => memset_of_outside (by omega)

/-! ### Arrays of 64-bit words -/

/-- Word `i` of the array at `a`. -/
def loadWord (m : ByteMemory) (a i : ℕ) : BitVec 64 := load64 m (a + 8 * i)

def storeWord (m : ByteMemory) (a i : ℕ) (w : BitVec 64) : ByteMemory := store64 m (a + 8 * i) w

@[simp] theorem loadWord_storeWord (m : ByteMemory) (a i : ℕ) (w : BitVec 64) :
    loadWord (storeWord m a i w) a i = w := load64_store64 ..

theorem loadWord_storeWord_of_ne {i j : ℕ} {w : BitVec 64} (h : j ≠ i) :
    loadWord (storeWord m a i w) a j = loadWord m a j :=
  load64_store64_of_disjoint (by omega)

theorem loadWord_storeWord_of_disjoint {i j N : ℕ} {w : BitVec 64} (hi : i < N) (hj : j < N)
    (h : a + 8 * N ≤ b ∨ b + 8 * N ≤ a) :
    loadWord (storeWord m a i w) b j = loadWord m b j :=
  load64_store64_of_disjoint (by omega)

theorem loadWord_memset_zero {i : ℕ} (h : 8 * i + 8 ≤ n) : loadWord (memset m a 0 n) a i = 0 :=
  load64_memset_zero (by omega) (by omega)

/-- Consecutive 64-bit words, the first at `a`. -/
def storeWords (m : ByteMemory) (a : ℕ) : List (BitVec 64) → ByteMemory
  | [] => m
  | w :: ws => storeWords (store64 m a w) (a + 8) ws

theorem load64_storeWords_of_disjoint : ∀ {ws : List (BitVec 64)} {m : ByteMemory} {a b : ℕ},
    b + 8 ≤ a ∨ a + 8 * ws.length ≤ b → load64 (storeWords m a ws) b = load64 m b
  | [], _, _, _, _ => rfl
  | w :: ws, m, a, b, h => by
    rw [List.length_cons] at h
    rw [storeWords, load64_storeWords_of_disjoint (by omega),
      load64_store64_of_disjoint (by omega)]

theorem loadWord_storeWords : ∀ {ws : List (BitVec 64)} {m : ByteMemory} {a i : ℕ}
    (h : i < ws.length), loadWord (storeWords m a ws) a i = ws[i]
  | w :: ws, m, a, 0, _ => by
    change load64 (storeWords (store64 m a w) (a + 8) ws) a = w
    rw [load64_storeWords_of_disjoint (by omega), load64_store64]
  | w :: ws, m, a, i + 1, h => by
    rw [loadWord, storeWords, show a + 8 * (i + 1) = a + 8 + 8 * i by ring,
      ← loadWord, loadWord_storeWords (by simpa using h), List.getElem_cons_succ]

end ByteMemory
