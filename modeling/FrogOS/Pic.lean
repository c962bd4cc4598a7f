import Mathlib.Data.List.Basic
import Mathlib.Tactic.IntervalCases

/-!
# The interrupt controllers

The two 8259s, as far as the kernel programs them: a controller has a mask register, one bit for
each of its eight lines, and takes initialisation words. `setup_idt` initialises both of them and
masks every line but the one the second controller hangs on; `irq_clear_mask` reads a mask register,
clears one bit and writes it back.

## Main definitions

* `Pics` — the two controllers, and the ports they answer to
* `Pics.masked` — whether a line is masked

## Main results

* `Pics.masked_irqClearMask` — `irq_clear_mask` unmasks one line and no other
-/

namespace FrogOS

/-- An 8259: its mask register, and how many initialisation words it waits for. -/
structure Pic where
  imr : BitVec 8
  awaited : ℕ
  deriving DecidableEq

namespace Pic

/-- A write to the command port. `ICW1` has bit 4 set, clears the mask and announces the words that
follow: one always, one more unless bit 1 says there is a single controller, and one more if bit 0
asks for it. -/
def command (p : Pic) (value : BitVec 8) : Pic :=
  if value.getLsbD 4 = true then
    ⟨0, 1 + (if value.getLsbD 1 = true then 0 else 1) + (if value.getLsbD 0 = true then 1 else 0)⟩
  else p

/-- A write to the data port. -/
def data (p : Pic) (value : BitVec 8) : Pic :=
  if p.awaited = 0 then { p with imr := value } else { p with awaited := p.awaited - 1 }

end Pic

/-- The two controllers of the machine. -/
structure Pics where
  master : Pic
  slave : Pic

namespace Pics

/-- `outportb`. Writes to the ports of other devices do not reach the controllers. -/
def outportb (c : Pics) (port : ℕ) (value : BitVec 8) : Pics :=
  match port with
  | 0x20 => { c with master := c.master.command value }
  | 0x21 => { c with master := c.master.data value }
  | 0xA0 => { c with slave := c.slave.command value }
  | 0xA1 => { c with slave := c.slave.data value }
  | _ => c

/-- Several writes, in order. -/
def writeAll (c : Pics) (writes : List (ℕ × BitVec 8)) : Pics :=
  writes.foldl (fun c w => c.outportb w.1 w.2) c

end Pics

/-- The writes of `setup_idt`. -/
def picWrites : List (ℕ × BitVec 8) :=
  [(0x20, 0x11), (0xA0, 0x11), (0x21, 0x20), (0xA1, 0x28), (0x21, 0x04), (0xA1, 0x02), (0x21, 0x01),
    (0xA1, 0x01), (0x21, 0xfb), (0xA1, 0xff)]

namespace Pics

/-- `inportb`: a read from a data port gives the mask register. The kernel reads no other port of
the controllers. -/
def inportb (c : Pics) (port : ℕ) : BitVec 8 :=
  match port with
  | 0x21 => c.master.imr
  | 0xA1 => c.slave.imr
  | _ => 0

/-- `irq_clear_mask`, without the `disable` and `enable` in it. -/
def irqClearMask (c : Pics) (irq : ℕ) : Pics :=
  if irq ≥ 16 then c
  else
    let port := if irq ≥ 8 then 0xA1 else 0x21
    let irq := if irq ≥ 8 then irq - 8 else irq
    c.outportb port (c.inportb port &&& ~~~(1#8 <<< irq))

/-- The mask bit of a line. -/
def masked (c : Pics) (n : ℕ) : Bool :=
  if n < 8 then c.master.imr.getLsbD n else c.slave.imr.getLsbD (n - 8)

/-- No controller waits for an initialisation word. -/
structure Ready (c : Pics) : Prop where
  master : c.master.awaited = 0
  slave : c.slave.awaited = 0

/-- What `setup_idt` leaves, whatever the state before. -/
theorem writeAll_picWrites (c : Pics) : c.writeAll picWrites = ⟨⟨0xfb, 0⟩, ⟨0xff, 0⟩⟩ := rfl

theorem masked_writeAll_picWrites (c : Pics) {n : ℕ} (hn : n < 16) :
    (c.writeAll picWrites).masked n = decide (n ≠ 2) := by
  rw [writeAll_picWrites]
  interval_cases n <;> rfl

theorem getLsbD_clear (imr : BitVec 8) {m : ℕ} (hm : m < 8) (n : ℕ) :
    (imr &&& ~~~(1#8 <<< n)).getLsbD m = (imr.getLsbD m && decide (m ≠ n)) := by
  rw [← BitVec.twoPow_eq, BitVec.getLsbD_and, BitVec.getLsbD_not, BitVec.getLsbD_twoPow]
  rcases eq_or_ne m n with rfl | hne
  · simp [hm]
  · simp [hm, hne, hne.symm]

/-- `irq_clear_mask` on a line of the first controller, and of the second one. -/
theorem irqClearMask_of_lt {c : Pics} (h : c.Ready) {irq : ℕ} (hirq : irq < 8) :
    c.irqClearMask irq = ⟨⟨c.master.imr &&& ~~~(1#8 <<< irq), 0⟩, c.slave⟩ := by
  have h16 : ¬ irq ≥ 16 := by omega
  have h8 : ¬ irq ≥ 8 := by omega
  simp only [irqClearMask, h16, h8, if_false, outportb, inportb, Pic.data, h.master, if_true]

theorem irqClearMask_of_ge {c : Pics} (h : c.Ready) {irq : ℕ} (hirq : 8 ≤ irq) (hlt : irq < 16) :
    c.irqClearMask irq = ⟨c.master, ⟨c.slave.imr &&& ~~~(1#8 <<< (irq - 8)), 0⟩⟩ := by
  have h16 : ¬ irq ≥ 16 := by omega
  simp only [irqClearMask, h16, ge_iff_le, hirq, if_false, outportb, inportb, Pic.data, h.slave,
    if_true]

/-- Any value can be written to a mask register. -/
theorem Ready.outportb {c : Pics} (h : c.Ready) {port : ℕ} (hport : port = 0x21 ∨ port = 0xA1)
    (value : BitVec 8) : (c.outportb port value).Ready := by
  rcases hport with rfl | rfl
  · refine ⟨?_, h.slave⟩
    simp only [Pics.outportb, Pic.data, h.master, if_true]
  · refine ⟨h.master, ?_⟩
    simp only [Pics.outportb, Pic.data, h.slave, if_true]

theorem Ready.irqClearMask {c : Pics} (h : c.Ready) (irq : ℕ) : (c.irqClearMask irq).Ready := by
  rcases Nat.lt_or_ge irq 8 with hlt | hge
  · rw [irqClearMask_of_lt h hlt]
    exact ⟨rfl, h.slave⟩
  · rcases Nat.lt_or_ge irq 16 with hlt | hge'
    · rw [irqClearMask_of_ge h hge hlt]
      exact ⟨h.master, rfl⟩
    · rwa [Pics.irqClearMask, if_pos hge']

/-- **`irq_clear_mask` unmasks one line and no other.** -/
theorem masked_irqClearMask {c : Pics} (h : c.Ready) (irq : ℕ) {n : ℕ} (hn : n < 16) :
    (c.irqClearMask irq).masked n = (c.masked n && decide (n ≠ irq)) := by
  rcases Nat.lt_or_ge irq 8 with hlt | hge
  · rw [irqClearMask_of_lt h hlt]
    by_cases hn8 : n < 8
    · simp only [masked, hn8, if_true, getLsbD_clear]
    · have hne : n ≠ irq := by omega
      simp only [masked, hn8, if_false, hne, ne_eq, not_false_eq_true, decide_true, Bool.and_true]
  · rcases Nat.lt_or_ge irq 16 with hlt | hge'
    · rw [irqClearMask_of_ge h hge hlt]
      by_cases hn8 : n < 8
      · have hne : n ≠ irq := by omega
        simp only [masked, hn8, if_true, hne, ne_eq, not_false_eq_true, decide_true, Bool.and_true]
      · have hiff : n - 8 ≠ irq - 8 ↔ n ≠ irq := by omega
        simp only [masked, hn8, if_false]
        rw [getLsbD_clear _ (by omega), decide_eq_decide.mpr hiff]
    · have hne : n ≠ irq := by omega
      rw [irqClearMask, if_pos hge', decide_eq_true hne, Bool.and_true]

/-- An end of interrupt reaches the mask registers as little as a write elsewhere does. -/
theorem outportb_eoi (c : Pics) {port : ℕ} (h : port = 0x20 ∨ port = 0xA0) :
    c.outportb port 0x20 = c := by
  rcases h with rfl | rfl <;> rfl

end Pics

end FrogOS
