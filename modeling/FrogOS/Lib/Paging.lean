import FrogOS.Lib.ByteMemory

/-!
# Four-level page tables

The page walk of the 64-bit processor: four levels of tables with 512 entries of 64 bits, the last
two of which may be skipped by an entry with the PS bit. Bits 51 to 12 of an entry hold the address
of the next table, and those above the page size the address of a page.

The walk knows no reserved bits, no protection keys and no execute-disable bit: it translates what a
processor may refuse. Below the 52 address bits it depends on the processor which ones are reserved;
bit 63 of an entry makes it fault as long as `EFER.NXE` is clear.

## Main definitions

* `Paging.walk` — the translation of an address
* `Paging.Canonical`

## Main results

* `Paging.walkFrom_of_not_present`, `walkFrom_of_table`, `walkFrom_of_page` — the walk, level by
  level
-/

namespace Paging

/-- The result of a walk: the physical address, and the rights all levels grant. -/
structure Translation where
  physical : ℕ
  writable : Bool
  user : Bool
  deriving DecidableEq

section entry

variable (e : BitVec 64)

def present : Bool := e.getLsbD 0
def writable : Bool := e.getLsbD 1
def user : Bool := e.getLsbD 2
def pageSize : Bool := e.getLsbD 7

/-- Bits 51 to `k`, as an address. -/
def base (k : ℕ) : ℕ := e.toNat % 2 ^ 52 / 2 ^ k * 2 ^ k

end entry

/-- The number of bits a table of this level leaves to the levels below. -/
def shift (level : ℕ) : ℕ := 12 + 9 * level

/-- The index into a table of this level, the last one being 0. -/
def index (level a : ℕ) : ℕ := a / 2 ^ shift level % 512

/-- The entry of the table at `table` that `a` selects. -/
def entry (m : ByteMemory) (level table a : ℕ) : BitVec 64 :=
  m.load64 (table + 8 * index level a)

/-- The walk from a table on, with the rights granted so far. -/
def walkFrom (m : ByteMemory) (a : ℕ) : ℕ → ℕ → Bool → Bool → Option Translation
  | level, table, w, u =>
    let e := entry m level table a
    if present e = true then
      match level with
      | 0 => some ⟨base e (shift 0) + a % 2 ^ shift 0, w && writable e, u && user e⟩
      | level + 1 =>
        if pageSize e = true ∧ level < 2 then
          some ⟨base e (shift (level + 1)) + a % 2 ^ shift (level + 1), w && writable e,
            u && user e⟩
        else walkFrom m a level (base e 12) (w && writable e) (u && user e)
    else none

/-- The translation of `a`, the first table being at `cr3`; of the entries, only the bits for
presence, rights, page size and address count. -/
def walk (m : ByteMemory) (cr3 a : ℕ) : Option Translation := walkFrom m a 3 cr3 true true

/-- Bits 63 to 47 are equal. -/
def Canonical (a : ℕ) : Prop := a < 2 ^ 47 ∨ 2 ^ 64 - 2 ^ 47 ≤ a ∧ a < 2 ^ 64

variable {m : ByteMemory} {a level table : ℕ} {w u : Bool}

theorem walkFrom_of_not_present (h : present (entry m level table a) = false) :
    walkFrom m a level table w u = none := by
  rw [walkFrom.eq_def]
  exact if_neg (Bool.eq_false_iff.mp h)

theorem walkFrom_of_table (h : present (entry m (level + 1) table a) = true)
    (hps : pageSize (entry m (level + 1) table a) = false) :
    walkFrom m a (level + 1) table w u = walkFrom m a level (base (entry m (level + 1) table a) 12)
      (w && writable (entry m (level + 1) table a)) (u && user (entry m (level + 1) table a)) := by
  rw [walkFrom, if_pos h, if_neg fun h' => Bool.eq_false_iff.mp hps h'.1]

theorem walkFrom_of_page (h : present (entry m (level + 1) table a) = true)
    (hps : pageSize (entry m (level + 1) table a) = true) (hlevel : level < 2) :
    walkFrom m a (level + 1) table w u
      = some ⟨base (entry m (level + 1) table a) (shift (level + 1)) + a % 2 ^ shift (level + 1),
          w && writable (entry m (level + 1) table a),
          u && user (entry m (level + 1) table a)⟩ := by
  rw [walkFrom, if_pos h, if_pos ⟨hps, hlevel⟩]

/-- The flags are in the low byte. -/
theorem getLsbD_of_mod {e : BitVec 64} {f j : ℕ} (h : e.toNat % 2 ^ 8 = f) (hj : j < 8) :
    e.getLsbD j = f.testBit j := by
  rw [← h, Nat.testBit_mod_two_pow, decide_eq_true hj, Bool.true_and]
  rfl

/-- The first entries of the first two tables cover one gigabyte. -/
theorem index_ne_zero_of_canonical (h : Canonical a) (hlow : 2 ^ 30 ≤ a) :
    index 3 a ≠ 0 ∨ index 2 a ≠ 0 := by
  rw [index, index, shift, shift]
  rcases h with h | ⟨h, h'⟩
  · omega
  · omega

end Paging
