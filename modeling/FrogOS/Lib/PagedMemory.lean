import FrogOS.Lib.Paging
import Mathlib.Data.Set.Lattice
import Mathlib.Order.CompletePartialOrder
import Mathlib.Order.Interval.Set.Basic

/-!
# Memory behind page tables

Byte, word and string accesses at linear addresses. Every byte is translated on its own, by the
tables as they are when the access is made, and an access at an address that is not mapped gives
`none`. Rights play no part: the accesses are those of a supervisor that may write everywhere.

Where the tables map an address to itself, and keep doing so, an access is the access to physical
memory. `IdentityOn` says so for the addresses below a bound, whatever happens to memory outside
the tables.

## Main definitions

* `Paging.translate`
* `Paging.read8`, `read16`, `read32`, `read64`, `writeBytes` — accesses
* `Paging.fill`, `Paging.copy` — the string instructions with a repeat prefix
* `Paging.IdentityOn`

## Main results

* `IdentityOn.read64_eq`, `writeBytes_eq`, `fill_eq`, `copy_eq` — accesses below the bound
* `fill_eq_none` — a fill that starts outside what is mapped
-/

namespace Paging

open ByteMemory

instance : DecidablePred Canonical := fun _ => inferInstanceAs (Decidable (_ ∨ _))

section Access

variable (cr3 : ℕ)

/-- The physical address, if there is one. -/
def translate (m : ByteMemory) (a : BitVec 64) : Option ℕ :=
  if Canonical a.toNat then (walk m cr3 a.toNat).map Translation.physical else none

def read8 (m : ByteMemory) (a : BitVec 64) : Option (BitVec 8) := (translate cr3 m a).map m

def read16 (m : ByteMemory) (a : BitVec 64) : Option (BitVec 16) := do
  let low ← read8 cr3 m a
  let high ← read8 cr3 m (a + 1)
  some (high ++ low)

def read32 (m : ByteMemory) (a : BitVec 64) : Option (BitVec 32) := do
  let low ← read16 cr3 m a
  let high ← read16 cr3 m (a + 2)
  some (high ++ low)

def read64 (m : ByteMemory) (a : BitVec 64) : Option (BitVec 64) := do
  let low ← read32 cr3 m a
  let high ← read32 cr3 m (a + 4)
  some (high ++ low)

def write8 (m : ByteMemory) (a : BitVec 64) (b : BitVec 8) : Option ByteMemory :=
  (translate cr3 m a).map fun p => Function.update m p b

/-- Consecutive bytes. -/
def writeBytes (m : ByteMemory) (a : BitVec 64) : List (BitVec 8) → Option ByteMemory
  | [] => some m
  | b :: bs => do
    let m ← write8 cr3 m a b
    writeBytes m (a + 1) bs

/-- `rep stos`: the bytes of an element again and again, each time `d` further on. -/
def fill (m : ByteMemory) (a d : BitVec 64) (bs : List (BitVec 8)) : ℕ → Option ByteMemory
  | 0 => some m
  | n + 1 => do
    let m ← writeBytes cr3 m a bs
    fill m (a + d) d bs n

/-- `rep movsb`, each byte `d` further on. -/
def copy (m : ByteMemory) (dest src d : BitVec 64) : ℕ → Option ByteMemory
  | 0 => some m
  | n + 1 => do
    let b ← read8 cr3 m src
    let m ← write8 cr3 m dest b
    copy m (dest + d) (src + d) d n

end Access

/-- The addresses below `N` are mapped to themselves by tables that lie in `T`: this remains so
whatever is written outside of `T`. -/
structure IdentityOn (cr3 : ℕ) (T : Set ℕ) (N : ℕ) (m : ByteMemory) : Prop where
  canonical : N ≤ 2 ^ 47
  physical : ∀ m' : ByteMemory, (∀ x ∈ T, m' x = m x) → ∀ a < N,
    (walk m' cr3 a).map Translation.physical = some a

namespace IdentityOn

variable {cr3 N n : ℕ} {T : Set ℕ} {m m' : ByteMemory} {a d dest src : BitVec 64}
  {bs : List (BitVec 8)}

theorem congr (h : IdentityOn cr3 T N m) (hm : ∀ x ∈ T, m' x = m x) : IdentityOn cr3 T N m' :=
  ⟨h.canonical, fun m'' hm'' => h.physical m'' fun x hx => (hm'' x hx).trans (hm x hx)⟩

theorem update (h : IdentityOn cr3 T N m) {p : ℕ} (hp : p ∉ T) (b : BitVec 8) :
    IdentityOn cr3 T N (Function.update m p b) := by
  refine h.congr fun x hx => Function.update_of_ne ?_ _ _
  rintro rfl
  exact hp hx

theorem storeBytes (h : IdentityOn cr3 T N m) {p : ℕ}
    (hp : Disjoint (Set.Ico p (p + bs.length)) T) :
    IdentityOn cr3 T N (ByteMemory.storeBytes m p bs) := by
  refine h.congr fun x hx => storeBytes_of_outside ?_
  have hnot : x ∉ Set.Ico p (p + bs.length) := fun hin => Set.disjoint_left.mp hp hin hx
  rw [Set.mem_Ico] at hnot
  omega

theorem translate_eq (h : IdentityOn cr3 T N m) (ha : a.toNat < N) :
    translate cr3 m a = some a.toNat := by
  have hcanon : Canonical a.toNat := Or.inl (lt_of_lt_of_le ha h.canonical)
  rw [translate, if_pos hcanon]
  exact h.physical m (fun x _ => rfl) _ ha

/-! ### Reading -/

theorem read8_eq (h : IdentityOn cr3 T N m) (ha : a.toNat < N) :
    read8 cr3 m a = some (m a.toNat) := by
  rw [read8, h.translate_eq ha, Option.map_some]

/-- Addresses below the bound do not wrap. -/
theorem toNat_add (h : IdentityOn cr3 T N m) (ha : a.toNat + d.toNat ≤ N) :
    (a + d).toNat = a.toNat + d.toNat := by
  have hN := h.canonical
  exact BitVec.toNat_add_of_lt (by omega)

theorem read16_eq (h : IdentityOn cr3 T N m) (ha : a.toNat + 2 ≤ N) :
    read16 cr3 m a = some (load16 m a.toNat) := by
  have h1 : (a + 1).toNat = a.toNat + 1 := h.toNat_add (d := 1) (by simp; omega)
  rw [read16, h.read8_eq (by omega), h.read8_eq (by omega), h1]
  rfl

theorem read32_eq (h : IdentityOn cr3 T N m) (ha : a.toNat + 4 ≤ N) :
    read32 cr3 m a = some (load32 m a.toNat) := by
  have h2 : (a + 2).toNat = a.toNat + 2 := h.toNat_add (d := 2) (by simp; omega)
  rw [read32, h.read16_eq (by omega), h.read16_eq (by omega), h2, load32_eq_append]
  rfl

theorem read64_eq (h : IdentityOn cr3 T N m) (ha : a.toNat + 8 ≤ N) :
    read64 cr3 m a = some (load64 m a.toNat) := by
  have h4 : (a + 4).toNat = a.toNat + 4 := h.toNat_add (d := 4) (by simp; omega)
  rw [read64, h.read32_eq (by omega), h.read32_eq (by omega), h4, load64_eq_append]
  rfl

/-! ### Writing -/

theorem write8_eq (h : IdentityOn cr3 T N m) (ha : a.toNat < N) (b : BitVec 8) :
    write8 cr3 m a b = some (Function.update m a.toNat b) := by
  rw [write8, h.translate_eq ha, Option.map_some]

theorem writeBytes_eq (h : IdentityOn cr3 T N m)
    (ha : Set.Ico a.toNat (a.toNat + bs.length) ⊆ Set.Iio N \ T) :
    writeBytes cr3 m a bs = some (ByteMemory.storeBytes m a.toNat bs) := by
  induction bs generalizing m a with
  | nil => rfl
  | cons b bs ih =>
    rw [List.length_cons] at ha
    have hfirst : a.toNat < N ∧ a.toNat ∉ T := ha ⟨le_rfl, by omega⟩
    have h1 : (a + 1).toNat = a.toNat + 1 := h.toNat_add (d := 1) hfirst.1
    have hrest : Set.Ico (a + 1).toNat ((a + 1).toNat + bs.length) ⊆ Set.Iio N \ T := by
      rw [h1]
      intro x hx
      exact ha ⟨by have := hx.1; omega, by have := hx.2; omega⟩
    rw [writeBytes, h.write8_eq hfirst.1]
    exact (ih (h.update hfirst.2 b) hrest).trans (by rw [h1, ByteMemory.storeBytes])

/-- A fill writes the element as often as the count says. -/
theorem fill_eq (h : IdentityOn cr3 T N m) (hd : d.toNat = bs.length)
    (ha : Set.Ico a.toNat (a.toNat + n * bs.length) ⊆ Set.Iio N \ T) :
    fill cr3 m a d bs n
      = some (ByteMemory.storeBytes m a.toNat (List.replicate n bs).flatten) := by
  induction n generalizing m a with
  | zero => rfl
  | succ n ih =>
    rw [Nat.succ_mul] at ha
    have hfirst : Set.Ico a.toNat (a.toNat + bs.length) ⊆ Set.Iio N \ T := fun x hx =>
      ha ⟨hx.1, by have := hx.2; omega⟩
    have hnext : (a + d).toNat = a.toNat + bs.length := by
      rcases Nat.eq_zero_or_pos bs.length with h0 | hpos
      · rw [BitVec.toNat_add_of_lt (by omega), hd]
      · have hlast : a.toNat + bs.length - 1 < N :=
          (hfirst (a := a.toNat + bs.length - 1) ⟨by omega, by omega⟩).1
        rw [h.toNat_add (by omega), hd]
    have hrest : Set.Ico (a + d).toNat ((a + d).toNat + n * bs.length) ⊆ Set.Iio N \ T := by
      rw [hnext]
      intro x hx
      exact ha ⟨by have := hx.1; omega, by have := hx.2; omega⟩
    have hkeep : IdentityOn cr3 T N (ByteMemory.storeBytes m a.toNat bs) :=
      h.storeBytes (Set.disjoint_left.mpr fun x hx => (hfirst hx).2)
    rw [fill, h.writeBytes_eq hfirst, List.replicate_succ, List.flatten_cons, storeBytes_append,
      ← hnext]
    exact ih hkeep hrest

/-- A copy in the forward direction. -/
theorem copy_eq (h : IdentityOn cr3 T N m)
    (hsrc : Set.Ico src.toNat (src.toNat + n) ⊆ Set.Iio N)
    (hdest : Set.Ico dest.toNat (dest.toNat + n) ⊆ Set.Iio N \ T) :
    copy cr3 m dest src 1 n = some (memcpy m dest.toNat src.toNat n) := by
  induction n generalizing m dest src with
  | zero => rfl
  | succ n ih =>
    have hs : src.toNat < N := hsrc ⟨le_rfl, by omega⟩
    have hd : dest.toNat < N ∧ dest.toNat ∉ T := hdest ⟨le_rfl, by omega⟩
    have hs1 : (src + 1).toNat = src.toNat + 1 := h.toNat_add (d := 1) hs
    have hd1 : (dest + 1).toNat = dest.toNat + 1 := h.toNat_add (d := 1) hd.1
    have hsrc' : Set.Ico (src + 1).toNat ((src + 1).toNat + n) ⊆ Set.Iio N := by
      rw [hs1]
      intro x hx
      exact hsrc ⟨by have := hx.1; omega, by have := hx.2; omega⟩
    have hdest' : Set.Ico (dest + 1).toNat ((dest + 1).toNat + n) ⊆ Set.Iio N \ T := by
      rw [hd1]
      intro x hx
      exact hdest ⟨by have := hx.1; omega, by have := hx.2; omega⟩
    have hwrite := h.write8_eq hd.1 (m src.toNat)
    have hcopy := ih (h.update hd.2 (m src.toNat)) hsrc' hdest'
    rw [hs1, hd1] at hcopy
    simp only [copy, h.read8_eq hs, hwrite, Option.bind_eq_bind, Option.bind_some]
    exact hcopy

end IdentityOn

/-- A fill whose first byte is not mapped. -/
theorem fill_eq_none {cr3 n : ℕ} {m : ByteMemory} {a d : BitVec 64} {b : BitVec 8}
    {bs : List (BitVec 8)} (h : translate cr3 m a = none) :
    fill cr3 m a d (b :: bs) (n + 1) = none := by
  rw [fill, writeBytes, write8, h]
  rfl

end Paging
