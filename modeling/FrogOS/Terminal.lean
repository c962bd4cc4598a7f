import FrogOS.Console

/-!
# The console refines an unbounded terminal

What the console is for can be said without a screen: an unbounded sheet of rows of 80 cells, and a
cursor that moves over it and writes. The screen shows 25 rows of the sheet. The window stands at
the top until the cursor leaves it at the bottom, and then follows the cursor, so its first row is
`T.row - 24` in truncated subtraction.

Inside `putch` the two sides are out of step: the cursor has moved to row 25 of the window, and the
window moves only in `scroll`. The simulation therefore carries the first row of the window as a
parameter, `Shows base`, which the character and the wrap leave alone and `scroll` moves.

## Main definitions

* `Terminal`, `Terminal.put` — the sheet, and what a byte does to it
* `Refines` — the correspondence between calls
* `Shows` — the simulation relation

## Main results

* `console_refines_terminal` — after `cls` and any string
-/

namespace FrogOS

open ByteMemory

/-- A sheet of rows of 80 cells, written or not, and the cursor. -/
structure Terminal where
  row : ℕ
  x : ℕ
  cells : ℕ → ℕ → Option (BitVec 16)

namespace Terminal

/-- An empty sheet. -/
def initial : Terminal := ⟨0, 0, fun _ _ => none⟩

/-- What a cell reads. The blanks of the first screen and those that come from below differ. -/
def cell (T : Terminal) (r k : ℕ) : BitVec 16 :=
  (T.cells r k).getD (if r < 25 then 0x0F00 else 0x0F20)

/-- The effect of a byte up to the right edge. -/
def act (T : Terminal) (c : BitVec 8) : Terminal :=
  if c ≥ 0x20 then
    { T with
      cells := fun r k => if r = T.row ∧ k = T.x then some (c.setWidth 16 ||| 0x0F00)
        else T.cells r k
      x := T.x + 1 }
  else if c = 0x08 then { T with x := T.x - 1 }
  else if c = 0x09 then { T with x := (T.x / 8 + 1) * 8 }
  else if c = 0x0D then { T with x := 0 }
  else if c = 0x0A then { T with row := T.row + 1, x := 0 }
  else T

/-- A cursor that has reached column 80 goes to the next row. -/
def wrap (T : Terminal) : Terminal := if T.x = 80 then { T with row := T.row + 1, x := 0 } else T

def put (T : Terminal) (c : BitVec 8) : Terminal := (T.act c).wrap

theorem act_backspace (T : Terminal) : T.act 0x08 = { T with x := T.x - 1 } := rfl
theorem act_tab (T : Terminal) : T.act 0x09 = { T with x := (T.x / 8 + 1) * 8 } := rfl
theorem act_cr (T : Terminal) : T.act 0x0D = { T with x := 0 } := rfl
theorem act_lf (T : Terminal) : T.act 0x0A = { T with row := T.row + 1, x := 0 } := rfl

end Terminal

/-- Between two calls of `putch`, the screen shows the 25 rows of the sheet that end with row 24 or
with the row of the cursor, and the hardware knows the cursor. -/
structure Refines (c : Console) (T : Terminal) : Prop where
  csrX : c.csrX = T.x
  csrY : c.csrY = min T.row 24
  cells : ∀ r < 25, ∀ k < 80, c.cell r k = T.cell (T.row - 24 + r) k
  cursor : (((c.crtc 14).toNat * 256 + (c.crtc 15).toNat : ℕ) : ℤ) = c.csrY * 80 + c.csrX
  onScreen : c.csrY * 80 + c.csrX < 2000

/-- The screen shows the 25 rows of the sheet from row `base` on, the rows below are unwritten, and
the memory outside the screen is `m`. -/
structure Shows (m : ByteMemory) (base : ℕ) (c : Console) (T : Terminal) : Prop where
  csrX : c.csrX = T.x
  csrY : c.csrY = T.row - base
  cells : ∀ r < 25, ∀ k < 80, c.cell r k = T.cell (base + r) k
  fresh : ∀ r, base + 25 ≤ r → ∀ k, T.cells r k = none
  outside : ∀ a, a < video ∨ video + 4000 ≤ a → c.mem a = m a

variable {m : ByteMemory} {base : ℕ} {c : Console} {T : Terminal}

/-! ### The printable characters -/

/-- The cell `putch` stores. -/
theorem putch_cell (ch : BitVec 8) :
    (ch.setWidth 32 ||| (attrib <<< 8)).setWidth 16 = ch.setWidth 16 ||| 0x0F00 := by
  rw [BitVec.setWidth_or, BitVec.setWidth_setWidth_of_le _ (by decide)]
  rfl

/-- The address of the cell at the cursor. -/
theorem cellAddress_cursor {x y : ℕ} :
    cellAddress ((y : ℤ) * 80 + x) = video + 2 * (y * 80 + x) := by
  rw [cellAddress]
  omega

theorem Shows.store (h : Shows m base c T) (hx : T.x < 80) (hbase : base ≤ T.row)
    (hrow : T.row < base + 25) (w : BitVec 16) :
    Shows m base
      { c with mem := store16 c.mem (cellAddress (c.csrY * 80 + c.csrX)) w, csrX := c.csrX + 1 }
      { T with
        cells := fun r k => if r = T.row ∧ k = T.x then some w else T.cells r k
        x := T.x + 1 } := by
  obtain ⟨y, hy⟩ : ∃ y, T.row = base + y := ⟨T.row - base, by omega⟩
  have hcsrY : c.csrY = y := by
    rw [h.csrY]
    omega
  rw [hcsrY, h.csrX, cellAddress_cursor]
  refine ⟨?_, ?_, fun r hr k hk => ?_, fun r hr k => ?_, fun a ha => ?_⟩
  · dsimp only
    omega
  · exact hcsrY.symm.trans h.csrY
  · by_cases hcell : r = y ∧ k = T.x
    · obtain ⟨rfl, rfl⟩ := hcell
      simp [Console.cell, Terminal.cell, hy]
    · have hne : ¬ (base + r = T.row ∧ k = T.x) := by omega
      simp only [Console.cell, Terminal.cell, if_neg hne]
      rw [load16_store16_of_disjoint (by omega)]
      exact h.cells r hr k hk
  · have hne : ¬ (r = T.row ∧ k = T.x) := by omega
    simp only [if_neg hne]
    exact h.fresh r hr k
  · rw [← h.outside a ha]
    exact store16_of_outside (by omega)

/-! ### One call -/

/-- Moving the cursor shows nothing else. -/
theorem Shows.move (h : Shows m base c T) {x y : ℤ} {x' y' : ℕ} (hx : x = x')
    (hy : y = y' - base) :
    Shows m base { c with csrX := x, csrY := y } { T with x := x', row := y' } :=
  ⟨hx, hy, h.cells, h.fresh, h.outside⟩

/-- The hardware cursor is not part of the sheet. -/
theorem Shows.moveCsr (h : Shows m base c T) : Shows m base c.moveCsr T :=
  ⟨h.csrX, h.csrY, h.cells, h.fresh, h.outside⟩

theorem Shows.putchChar (h : Shows m base c T) (hx : T.x < 80) (hbase : base ≤ T.row)
    (hrow : T.row < base + 25) (ch : BitVec 8) :
    Shows m base (c.putchChar ch) (T.act ch) ∧ base ≤ (T.act ch).row ∧
      ((T.act ch).x ≤ 80 ∧ (T.act ch).row = T.row ∨
        (T.act ch).x = 0 ∧ (T.act ch).row = T.row + 1) := by
  have hcsrX := h.csrX
  have hcsrY := h.csrY
  rw [Console.putchChar]
  by_cases h08 : ch = 0x08
  · subst h08
    rw [if_pos rfl, Terminal.act_backspace]
    refine ⟨?_, hbase, Or.inl ⟨(Nat.sub_le _ _).trans hx.le, rfl⟩⟩
    split
    · exact h.move (by omega) hcsrY
    · exact h.move (x := c.csrX) (by omega) hcsrY
  rw [if_neg h08]
  by_cases h09 : ch = 0x09
  · subst h09
    rw [if_pos rfl, Terminal.act_tab]
    exact ⟨h.move (by omega) hcsrY, hbase, Or.inl ⟨by dsimp only; omega, rfl⟩⟩
  rw [if_neg h09]
  by_cases h0D : ch = 0x0D
  · subst h0D
    rw [if_pos rfl, Terminal.act_cr]
    exact ⟨h.move rfl hcsrY, hbase, Or.inl ⟨Nat.zero_le _, rfl⟩⟩
  rw [if_neg h0D]
  by_cases h0A : ch = 0x0A
  · subst h0A
    rw [if_pos rfl, Terminal.act_lf]
    exact ⟨h.move rfl (by omega), hbase.trans (Nat.le_succ _), Or.inr ⟨rfl, rfl⟩⟩
  rw [if_neg h0A, Terminal.act]
  by_cases h20 : ch ≥ 0x20
  · rw [if_pos h20, if_pos h20, putch_cell]
    exact ⟨h.store hx hbase hrow _, hbase, Or.inl ⟨hx, rfl⟩⟩
  · rw [if_neg h20, if_neg h20, if_neg h08, if_neg h09, if_neg h0D, if_neg h0A]
    exact ⟨h, hbase, Or.inl ⟨hx.le, rfl⟩⟩

theorem Shows.putchWrap (h : Shows m base c T) (hx : T.x ≤ 80) :
    Shows m base c.putchWrap T.wrap := by
  have hcsrX := h.csrX
  have hcsrY := h.csrY
  rw [Console.putchWrap, Terminal.wrap]
  by_cases hedge : T.x = 80
  · rw [if_pos (by omega), if_pos hedge]
    exact h.move rfl (by omega)
  · rw [if_neg (by omega), if_neg hedge]
    exact h

/-- The window moves down by one row when the cursor has left it. -/
theorem Shows.scroll (h : Shows m base c T) (hrow : T.row = base + 25) :
    Shows m (base + 1) c.scroll T := by
  have hcsrY := h.csrY
  rw [Console.scroll_eq (by omega)]
  have hcsrY' : (24 : ℤ) = T.row - (base + 1 : ℕ) := by omega
  refine ⟨h.csrX, hcsrY', fun r hr k hk => ?_, fun r hr k => h.fresh r (by omega) k,
    fun a ha => ?_⟩
  · rw [Console.cell]
    by_cases hlast : r = 24
    · subst hlast
      have hblank : T.cell (base + 1 + 24) k = 0x0F20 := by
        rw [Terminal.cell, h.fresh _ (by omega), Option.getD_none, if_neg (by omega)]
      rw [hblank, show video + 2 * (24 * 80 + k) = video + 3840 + 2 * k by omega]
      exact load16_memsetw hk
    · dsimp only
      rw [load16_memsetw_of_disjoint (by omega), load16_memcpy (by omega) (by omega),
        show base + 1 + r = base + (r + 1) by omega, ← h.cells (r + 1) (by omega) k hk,
        Console.cell, show video + 160 + 2 * (r * 80 + k) = video + 2 * ((r + 1) * 80 + k) by omega]
  · dsimp only
    rw [memsetw_of_outside (by omega), memcpy_of_outside (by omega), h.outside a ha]

/-- **One call.** -/
theorem Shows.putch (h : Shows m (T.row - 24) c T) (hx : T.x < 80) (ch : BitVec 8) :
    Shows m ((T.put ch).row - 24) (c.putch ch) (T.put ch) ∧ (T.put ch).x < 80 := by
  obtain ⟨h₁, hbase, hmove⟩ := h.putchChar hx (Nat.sub_le _ _) (by omega) ch
  have hx₁ : (T.act ch).x ≤ 80 := hmove.elim (fun hm => hm.1) fun hm => hm.1 ▸ Nat.zero_le 80
  have h₂ := h₁.putchWrap hx₁
  -- where the cursor is before `scroll`
  have hput : (T.put ch).x < 80 ∧ T.row ≤ (T.put ch).row ∧ (T.put ch).row ≤ T.row + 1 := by
    rw [Terminal.put, Terminal.wrap]
    split
    · dsimp only
      omega
    · omega
  have hcsrY := h₂.csrY
  rw [← Terminal.put] at h₂ hcsrY
  refine ⟨Shows.moveCsr ?_, hput.1⟩
  by_cases hrow : (T.put ch).row = T.row - 24 + 25
  · rw [show (T.put ch).row - 24 = T.row - 24 + 1 by omega]
    exact h₂.scroll hrow
  · rw [Console.scroll_of_lt (by omega), show (T.put ch).row - 24 = T.row - 24 by omega]
    exact h₂

/-! ### Runs -/

theorem shows_cls (c : Console) : Shows c.mem 0 c.cls Terminal.initial := by
  refine ⟨rfl, rfl, fun r hr k hk => ?_, fun r _ k => rfl, fun a ha => ?_⟩
  · have hcell : Terminal.initial.cell (0 + r) k = 0x0F00 := by
      rw [Terminal.cell, if_pos (by omega)]
      rfl
    rw [hcell, Console.cell, Console.cls_mem]
    exact load16_memsetw (by omega)
  · rw [Console.cls_mem]
    exact memsetw_of_outside (by omega)

theorem shows_run (c : Console) (s : List (BitVec 8)) :
    Shows c.mem ((s.foldl Terminal.put Terminal.initial).row - 24) (s.foldl Console.putch c.cls)
        (s.foldl Terminal.put Terminal.initial) ∧
      (s.foldl Terminal.put Terminal.initial).x < 80 := by
  induction s using List.reverseRecOn with
  | nil => exact ⟨shows_cls c, by decide⟩
  | append_singleton s ch ih =>
    simp only [List.foldl_append, List.foldl_cons, List.foldl_nil]
    exact ih.1.putch ih.2 ch

/-- The cursor registers are set last in `cls` and in `putch`. -/
theorem exists_moveCsr (c : Console) (s : List (BitVec 8)) :
    ∃ c' : Console, s.foldl Console.putch c.cls = c'.moveCsr := by
  induction s using List.reverseRecOn with
  | nil => exact ⟨_, rfl⟩
  | append_singleton s ch ih =>
    rw [List.foldl_append]
    exact ⟨_, rfl⟩

theorem Shows.refines (h : Shows m (T.row - 24) c.moveCsr T) (hx : T.x < 80) :
    Refines c.moveCsr T := by
  have hcsrX : c.csrX = T.x := h.csrX
  have hcsrY : c.csrY = T.row - (T.row - 24 : ℕ) := h.csrY
  obtain ⟨i, hi⟩ : ∃ i : ℕ, c.csrY * 80 + c.csrX = i :=
    ⟨(T.row - (T.row - 24)) * 80 + T.x, by omega⟩
  have hmin : c.csrY = min T.row 24 := by omega
  have hlt : c.csrY * 80 + c.csrX < 2000 := by omega
  refine ⟨hcsrX, hmin, h.cells, ?_, hlt⟩
  rw [Console.crtc_moveCsr hi (by omega)]
  exact hi.symm

/-- **The console refines the terminal**: after `cls` and any string, the cursor, the screen and the
cursor registers are those of the unbounded terminal, and no memory outside the screen has
changed. -/
theorem console_refines_terminal (c : Console) (s : List (BitVec 8)) :
    Refines (s.foldl Console.putch c.cls) (s.foldl Terminal.put Terminal.initial) ∧
      ∀ a, a < video ∨ video + 4000 ≤ a → (s.foldl Console.putch c.cls).mem a = c.mem a := by
  obtain ⟨h, hx⟩ := shows_run c s
  refine ⟨?_, h.outside⟩
  obtain ⟨c', hc'⟩ := exists_moveCsr c s
  rw [hc'] at h ⊢
  exact h.refines hx

end FrogOS
