import FrogOS.Console
import FrogOS.Lib.StepSystem
import Mathlib.Logic.Relation

/-!
# Preempted console output

`putch` never disables interrupts, and every process that prints runs it. Here each read and each
write of `csr_x`, `csr_y` and the screen is a step of its own, and between any two steps another
process may run. The screen copy of `scroll` is a string instruction, which an interrupt can split
between two of its iterations.

Inside `putch` the cursor may stand at column 80 or in row 25; it is brought back by later
statements. A process that reads it in between stores outside the screen. So the stores stay on the
screen, and the cursor in range, as long as the part of `putch` from its first access to the cursor
to the end of `scroll` is not overlapped by the same part of another process. What follows it,
`move_csr`, only reads, and may be overlapped by anything.

## Main definitions

* `Putch`, `putchStep` — `putch`, access by access
* `Screen`, `screenStep` — any number of processes
* `Exclusive` — the condition on a step; `OnScreen` — what is expected of it
* `Expects` — what a process that runs undisturbed knows at each of its steps

## Main results

* `putch_alone` — run without interruption, the steps are `Console.putch`
* `console_along` — in a run whose steps meet the condition, no store leaves the screen and the
  cursor is in range whenever nobody is inside `putch`
-/

namespace FrogOS

open ByteMemory StepSystem

/-- Where a process is in `putch`, with the values it has read. -/
inductive Putch
  /-- Not in `putch`. -/
  | idle
  /-- Called with a character; nothing has been read or written yet. -/
  | start (ch : BitVec 8)
  /-- `csr_x--`. -/
  | backRead
  | backWrite (x : ℤ)
  /-- `csr_x = (csr_x + 8) & ~(8 - 1)`. -/
  | tabWrite (x : ℤ)
  /-- `csr_y++` after a newline character. -/
  | lfRead
  | lfWrite (y : ℤ)
  /-- `where = video + (csr_y * 80 + csr_x)`, and `*where = c | att`. -/
  | printRead (ch : BitVec 8) (y : ℤ)
  | printStore (ch : BitVec 8) (y x : ℤ)
  /-- `csr_x++`. -/
  | printReadX
  | printWriteX (x : ℤ)
  /-- The test of the right edge, and the new line there. -/
  | wrapTest
  | wrapWriteX
  | wrapRead
  | wrapWrite (y : ℤ)
  /-- The test of the last row, and `temp = csr_y - 25 + 1`. -/
  | scrollTest
  | scrollRead
  /-- Iteration `i` of `memcpy`, and of `memsetw`. -/
  | scrollCopy (temp : BitVec 32) (i : ℕ)
  | scrollFill (temp : BitVec 32) (i : ℕ)
  /-- `csr_y = 25 - 1`. -/
  | scrollWrite
  /-- The two reads of `move_csr`, and its four writes to ports. -/
  | moveReadY
  | moveReadX (y : ℤ)
  | moveIndexHigh (temp : BitVec 32)
  | moveHigh (temp : BitVec 32)
  | moveIndexLow (temp : BitVec 32)
  | moveLow (temp : BitVec 32)

/-- How many bytes `memcpy` copies. -/
def copyBytes (temp : BitVec 32) : ℕ := ((25 - temp) * 80 * 2).toNat

/-- Where it copies from. -/
def copySource (temp : BitVec 32) : ℕ := video + 2 * (temp * 80).toNat

/-- The first of the 80 cells `memsetw` fills. -/
def fillCell (temp : BitVec 32) : ℕ := ((25 - temp) * 80).toNat

/-- The next step of a process that is in `putch`. -/
def putchStep (c : Console) : Putch → Option (Console × Putch)
  | .idle => none
  | .start ch =>
    if ch = 0x08 then some (c, if c.csrX ≠ 0 then .backRead else .wrapTest)
    else if ch = 0x09 then some (c, .tabWrite c.csrX)
    else if ch = 0x0D then some ({ c with csrX := 0 }, .wrapTest)
    else if ch = 0x0A then some ({ c with csrX := 0 }, .lfRead)
    else if ch ≥ 0x20 then some (c, .printRead ch c.csrY)
    else some (c, if c.csrX ≥ 80 then .wrapWriteX else .scrollTest)
  | .backRead => some (c, .backWrite c.csrX)
  | .backWrite x => some ({ c with csrX := x - 1 }, .wrapTest)
  | .tabWrite x => some ({ c with csrX := x + 8 - (x + 8) % 8 }, .wrapTest)
  | .lfRead => some (c, .lfWrite c.csrY)
  | .lfWrite y => some ({ c with csrY := y + 1 }, .wrapTest)
  | .printRead ch y => some (c, .printStore ch y c.csrX)
  | .printStore ch y x =>
    some ({ c with
      mem := store16 c.mem (cellAddress (y * 80 + x))
        ((ch.setWidth 32 ||| (attrib <<< 8)).setWidth 16) }, .printReadX)
  | .printReadX => some (c, .printWriteX c.csrX)
  | .printWriteX x => some ({ c with csrX := x + 1 }, .wrapTest)
  | .wrapTest => some (c, if c.csrX ≥ 80 then .wrapWriteX else .scrollTest)
  | .wrapWriteX => some ({ c with csrX := 0 }, .wrapRead)
  | .wrapRead => some (c, .wrapWrite c.csrY)
  | .wrapWrite y => some ({ c with csrY := y + 1 }, .scrollTest)
  | .scrollTest => some (c, if c.csrY ≥ 25 then .scrollRead else .moveReadY)
  | .scrollRead => some (c, .scrollCopy (BitVec.ofInt 32 (c.csrY - 25 + 1)) 0)
  | .scrollCopy temp i =>
    if i < copyBytes temp then
      some ({ c with mem := Function.update c.mem (video + i) (c.mem (copySource temp + i)) },
        .scrollCopy temp (i + 1))
    else some (c, .scrollFill temp 0)
  | .scrollFill temp i =>
    if i < 80 then
      some ({ c with
        mem := store16 c.mem (video + 2 * (fillCell temp + i))
          (((0x20 : BitVec 32) ||| (attrib <<< 8)).setWidth 16) }, .scrollFill temp (i + 1))
    else some (c, .scrollWrite)
  | .scrollWrite => some ({ c with csrY := 25 - 1 }, .moveReadY)
  | .moveReadY => some (c, .moveReadX c.csrY)
  | .moveReadX y => some (c, .moveIndexHigh (BitVec.ofInt 32 (y * 80 + c.csrX)))
  | .moveIndexHigh temp => some (c.outportb 0x3D4 14, .moveHigh temp)
  | .moveHigh temp => some (c.outportb 0x3D5 ((temp >>> 8).setWidth 8), .moveIndexLow temp)
  | .moveIndexLow temp => some (c.outportb 0x3D4 15, .moveLow temp)
  | .moveLow temp => some (c.outportb 0x3D5 (temp.setWidth 8), .idle)

/-- The index of the screen cell the next step stores to, if it is a store. -/
def storeIndex : Putch → Option ℤ
  | .printStore _ y x => some (y * 80 + x)
  | .scrollCopy temp i => if i < copyBytes temp then some ((i / 2 : ℕ) : ℤ) else none
  | .scrollFill temp i => if i < 80 then some ((fillCell temp + i : ℕ) : ℤ) else none
  | _ => none

/-- The process has accessed the cursor and not reached the end of `scroll`. -/
def Putch.inside : Putch → Bool
  | idle | start _ | moveReadY | moveReadX _ | moveIndexHigh _ | moveHigh _ | moveIndexLow _
  | moveLow _ => false
  | _ => true

/-- The next step is in the part of `putch` that changes the cursor. -/
def Putch.critical : Putch → Bool
  | start _ => true
  | p => p.inside

/-- The console and the processes that share it. -/
structure Screen (ι : Type) where
  console : Console
  procs : ι → Putch

inductive ScreenEvent (ι : Type)
  /-- Process `p` calls `putch`. -/
  | call (p : ι) (ch : BitVec 8)
  /-- Process `p` takes its next step in it. -/
  | step (p : ι)

variable {ι : Type} [DecidableEq ι]

def screenStep (s : Screen ι) : ScreenEvent ι → Option (Screen ι)
  | .call p ch =>
    match s.procs p with
    | .idle => some { s with procs := Function.update s.procs p (.start ch) }
    | _ => none
  | .step p => (putchStep s.console (s.procs p)).map fun r =>
      ⟨r.1, Function.update s.procs p r.2⟩

/-- The cursor is on the screen. -/
def InRange (c : Console) : Prop := 0 ≤ c.csrX ∧ c.csrX < 80 ∧ 0 ≤ c.csrY ∧ c.csrY < 25

omit [DecidableEq ι] in
/-- A process takes a step that may change the cursor only while no other process is inside that
part of `putch`. -/
def Exclusive (s : Screen ι) : ScreenEvent ι → Prop
  | .call _ _ => True
  | .step p => (s.procs p).critical = true → ∀ q, q ≠ p → (s.procs q).inside = false

omit [DecidableEq ι] in
/-- What is expected of a step: a store goes to a cell of the screen. -/
def OnScreen (s : Screen ι) : ScreenEvent ι → Prop
  | .call _ _ => True
  | .step p => ∀ i, storeIndex (s.procs p) = some i → 0 ≤ i ∧ i < 80 * 25

/-! ### Without interruption -/

/-- One process takes some steps. -/
def Goes : Console × Putch → Console × Putch → Prop :=
  Relation.ReflTransGen fun a b => putchStep a.1 a.2 = some b

variable {c c' : Console} {u u' : Putch}

/-- One step, and then more. -/
theorem Goes.step {a : Console × Putch} (hst : putchStep c u = some (c', u'))
    (h : Goes (c', u') a) : Goes (c, u) a :=
  Relation.ReflTransGen.head hst h

theorem goes_wrap (c : Console) : Goes (c, .wrapTest) (c.putchWrap, .scrollTest) := by
  rw [Console.putchWrap]
  by_cases h : c.csrX ≥ 80
  · rw [if_pos h]
    refine Goes.step (by rw [putchStep, if_pos h])
      (Goes.step rfl (Goes.step rfl (Goes.step rfl ?_)))
    exact Relation.ReflTransGen.refl
  · rw [if_neg h]
    exact Goes.step (by rw [putchStep, if_neg h]) Relation.ReflTransGen.refl

/-- The statements on the character, and the test at the edge that follows them. -/
theorem goes_putchChar (c : Console) (ch : BitVec 8) :
    Goes (c, .start ch) ((c.putchChar ch).putchWrap, .scrollTest) := by
  have hwrap : ∀ {c' : Console} {a}, a = (c'.putchWrap, Putch.scrollTest) →
      Goes (c', .wrapTest) a := fun h => h ▸ goes_wrap _
  by_cases h08 : ch = 0x08
  · subst h08
    by_cases hx : c.csrX ≠ 0
    · refine Goes.step (by rw [putchStep, if_pos rfl, if_pos hx]) (Goes.step rfl (Goes.step rfl ?_))
      exact hwrap (by rw [Console.putchChar, if_pos rfl, if_pos hx])
    · refine Goes.step (by rw [putchStep, if_pos rfl, if_neg hx]) ?_
      exact hwrap (by rw [Console.putchChar, if_pos rfl, if_neg hx])
  by_cases h09 : ch = 0x09
  · subst h09
    exact Goes.step rfl (Goes.step rfl (hwrap rfl))
  by_cases h0D : ch = 0x0D
  · subst h0D
    exact Goes.step rfl (hwrap rfl)
  by_cases h0A : ch = 0x0A
  · subst h0A
    exact Goes.step rfl (Goes.step rfl (Goes.step rfl (hwrap rfl)))
  rw [Console.putchChar, if_neg h08, if_neg h09, if_neg h0D, if_neg h0A]
  by_cases h20 : ch ≥ 0x20
  · refine Goes.step (by rw [putchStep, if_neg h08, if_neg h09, if_neg h0D, if_neg h0A, if_pos h20])
      (Goes.step rfl (Goes.step rfl (Goes.step rfl (Goes.step rfl ?_))))
    exact hwrap (by rw [if_pos h20])
  · -- the other control characters go straight to the test at the edge
    have hsame : putchStep c (.start ch) = putchStep c .wrapTest := by
      rw [putchStep, if_neg h08, if_neg h09, if_neg h0D, if_neg h0A, if_neg h20, putchStep]
    rw [if_neg h20, Console.putchWrap]
    by_cases h : c.csrX ≥ 80
    · rw [if_pos h]
      refine Goes.step (hsame.trans (by rw [putchStep, if_pos h]))
        (Goes.step rfl (Goes.step rfl (Goes.step rfl ?_)))
      exact Relation.ReflTransGen.refl
    · rw [if_neg h]
      exact Goes.step (hsame.trans (by rw [putchStep, if_neg h])) Relation.ReflTransGen.refl

/-- The loop of `memcpy`, from iteration `i` on. -/
theorem goes_copy (temp : BitVec 32) (k : ℕ) : ∀ (c : Console) (i : ℕ), i + k = copyBytes temp →
    Goes (c, .scrollCopy temp i)
      ({ c with mem := memcpy c.mem (video + i) (copySource temp + i) k }, .scrollFill temp 0) := by
  induction k with
  | zero =>
    intro c i hi
    exact Goes.step (if_neg (by omega)) Relation.ReflTransGen.refl
  | succ k ih =>
    intro c i hi
    refine Goes.step (if_pos (by omega)) ?_
    have h := ih { c with
      mem := Function.update c.mem (video + i) (c.mem (copySource temp + i)) } (i + 1) (by omega)
    rwa [← Nat.add_assoc, ← Nat.add_assoc] at h

/-- The loop of `memsetw`, from iteration `i` on. -/
theorem goes_fill (temp : BitVec 32) (k : ℕ) : ∀ (c : Console) (i : ℕ), i + k = 80 →
    Goes (c, .scrollFill temp i)
      ({ c with
        mem := memsetw c.mem (video + 2 * (fillCell temp + i))
          (((0x20 : BitVec 32) ||| (attrib <<< 8)).setWidth 16) k }, .scrollWrite) := by
  induction k with
  | zero =>
    intro c i hi
    exact Goes.step (if_neg (by omega)) Relation.ReflTransGen.refl
  | succ k ih =>
    intro c i hi
    refine Goes.step (if_pos (by omega)) ?_
    have h := ih { c with
      mem := store16 c.mem (video + 2 * (fillCell temp + i))
        (((0x20 : BitVec 32) ||| (attrib <<< 8)).setWidth 16) } (i + 1) (by omega)
    rwa [show video + 2 * (fillCell temp + (i + 1)) = video + 2 * (fillCell temp + i) + 2 by omega]
      at h

theorem goes_scroll (c : Console) : Goes (c, .scrollTest) (c.scroll, .moveReadY) := by
  rw [Console.scroll]
  by_cases h : c.csrY ≥ 25
  · rw [if_pos h]
    refine Goes.step (by rw [putchStep, if_pos h]) (Goes.step rfl ?_)
    have hcopy := goes_copy (BitVec.ofInt 32 (c.csrY - 25 + 1)) _ c 0 (Nat.zero_add _)
    have hfill := goes_fill (BitVec.ofInt 32 (c.csrY - 25 + 1)) 80 { c with
      mem := memcpy c.mem video (copySource (BitVec.ofInt 32 (c.csrY - 25 + 1)))
        (copyBytes (BitVec.ofInt 32 (c.csrY - 25 + 1))) } 0 (Nat.zero_add _)
    rw [Nat.add_zero, Nat.add_zero] at hcopy
    rw [Nat.add_zero] at hfill
    rw [copySource, copyBytes] at hcopy hfill
    rw [fillCell] at hfill
    exact Relation.ReflTransGen.trans hcopy (Relation.ReflTransGen.tail hfill rfl)
  · rw [if_neg h]
    exact Goes.step (by rw [putchStep, if_neg h]) Relation.ReflTransGen.refl

theorem goes_moveCsr (c : Console) : Goes (c, .moveReadY) (c.moveCsr, .idle) :=
  Goes.step rfl (Goes.step rfl (Goes.step rfl (Goes.step rfl (Goes.step rfl (Goes.step rfl
    Relation.ReflTransGen.refl)))))

theorem goes_putch (c : Console) (ch : BitVec 8) : Goes (c, .start ch) (c.putch ch, .idle) :=
  Relation.ReflTransGen.trans (goes_putchChar c ch)
    (Relation.ReflTransGen.trans (goes_scroll _) (goes_moveCsr _))

/-- What one process does alone it does among others, and if none of them is inside `putch` it meets
the condition. -/
theorem exists_run_of_goes {a b : Console × Putch} (h : Goes a b) (p : ι) :
    ∃ k, ∀ procs : ι → Putch, procs p = a.2 →
      run screenStep ⟨a.1, procs⟩ (List.replicate k (.step p)) =
          some ⟨b.1, Function.update procs p b.2⟩ ∧
        ((∀ q, q ≠ p → (procs q).inside = false) →
          Along screenStep Exclusive ⟨a.1, procs⟩ (List.replicate k (.step p))) := by
  induction h using Relation.ReflTransGen.head_induction_on with
  | refl =>
    refine ⟨0, fun procs hp => ⟨?_, fun _ => trivial⟩⟩
    have hsame : Function.update procs p b.2 = procs := Function.update_eq_iff.mpr ⟨hp.symm,
      fun _ _ => rfl⟩
    rw [List.replicate_zero, run_nil, hsame]
  | @head a c hac _ ih =>
    obtain ⟨k, hk⟩ := ih
    refine ⟨k + 1, fun procs hp => ?_⟩
    have hst : screenStep ⟨a.1, procs⟩ (.step p) = some ⟨c.1, Function.update procs p c.2⟩ := by
      simp only [screenStep, hp, hac, Option.map_some]
    obtain ⟨hrun, halong⟩ := hk (Function.update procs p c.2) (Function.update_self ..)
    refine ⟨?_, fun hothers => ⟨fun _ => hothers, fun t ht => ?_⟩⟩
    · rw [List.replicate_succ, run, hst, Option.bind_some, hrun, Function.update_idem]
    · obtain rfl := Option.some.inj (hst.symm.trans ht)
      refine halong fun q hq => ?_
      rw [Function.update_of_ne hq]
      exact hothers q hq

/-- **Without interruption, the steps of `putch` are `putch`.** -/
theorem putch_alone (s : Screen ι) (p : ι) (ch : BitVec 8) (hp : s.procs p = .start ch) :
    ∃ k, run screenStep s (List.replicate k (.step p)) =
      some ⟨s.console.putch ch, Function.update s.procs p .idle⟩ := by
  obtain ⟨k, hk⟩ := exists_run_of_goes (goes_putch s.console ch) p
  exact ⟨k, (hk s.procs hp).1⟩

/-! ### One process -/

/-- What a process knows about the cursor at each of its steps, if nobody disturbs it. -/
def Expects (c : Console) : Putch → Prop
  | .backRead => InRange c ∧ c.csrX ≠ 0
  | .backWrite x => InRange c ∧ 0 < x ∧ x < 80
  | .tabWrite x => InRange c ∧ 0 ≤ x ∧ x < 80
  | .lfRead | .wrapRead => InRange c ∧ c.csrX = 0
  | .lfWrite y | .wrapWrite y => c.csrX = 0 ∧ 0 ≤ y ∧ y < 25
  | .printRead _ y => InRange c ∧ 0 ≤ y ∧ y < 25
  | .printStore _ y x => InRange c ∧ 0 ≤ y ∧ y < 25 ∧ 0 ≤ x ∧ x < 80
  | .printReadX => InRange c
  | .printWriteX x => InRange c ∧ 0 ≤ x ∧ x < 80
  | .wrapTest => 0 ≤ c.csrX ∧ c.csrX ≤ 80 ∧ 0 ≤ c.csrY ∧ c.csrY ≤ 25 ∧
      (c.csrX = 80 → c.csrY < 25)
  | .wrapWriteX => 0 ≤ c.csrY ∧ c.csrY < 25
  | .scrollTest => 0 ≤ c.csrX ∧ c.csrX < 80 ∧ 0 ≤ c.csrY ∧ c.csrY ≤ 25
  | .scrollRead => 0 ≤ c.csrX ∧ c.csrX < 80 ∧ c.csrY = 25
  | .scrollCopy temp _ | .scrollFill temp _ => 0 ≤ c.csrX ∧ c.csrX < 80 ∧ temp = 1
  | .scrollWrite => 0 ≤ c.csrX ∧ c.csrX < 80
  -- outside
  | _ => InRange c

/-- A process that is about to enter, or inside, keeps to its expectations. -/
theorem expects_putchStep (h : Expects c u) (hst : putchStep c u = some (c', u'))
    (hu : u.critical = true) : Expects c' u' := by
  cases u with
  | idle | moveReadY | moveReadX | moveIndexHigh | moveHigh | moveIndexLow | moveLow =>
    exact absurd hu (by simp [Putch.critical, Putch.inside])
  | start ch =>
    have hr : InRange c := h
    obtain ⟨hx₀, hx, hy₀, hy⟩ := id hr
    simp only [putchStep] at hst
    split_ifs at hst <;> obtain ⟨rfl, rfl⟩ := Prod.mk.inj (Option.some.inj hst)
    · exact ⟨hr, by assumption⟩
    · exact ⟨hx₀, hx.le, hy₀, hy.le, fun _ => hy⟩
    · exact ⟨hr, hx₀, hx⟩
    · exact ⟨le_rfl, by simp, hy₀, hy.le, fun _ => hy⟩
    · exact ⟨⟨le_rfl, by simp, hy₀, hy⟩, rfl⟩
    · exact ⟨hr, hy₀, hy⟩
    · exact ⟨hy₀, hy⟩
    · exact ⟨hx₀, hx, hy₀, hy.le⟩
  | backRead =>
    obtain ⟨rfl, rfl⟩ := Prod.mk.inj (Option.some.inj hst)
    obtain ⟨⟨hx₀, hx, hy⟩, hne⟩ := h
    exact ⟨⟨hx₀, hx, hy⟩, lt_of_le_of_ne hx₀ hne.symm, hx⟩
  | backWrite x =>
    obtain ⟨rfl, rfl⟩ := Prod.mk.inj (Option.some.inj hst)
    obtain ⟨⟨-, -, hy₀, hy⟩, hx₀, hx⟩ := h
    simp only [Expects]
    omega
  | tabWrite x =>
    obtain ⟨rfl, rfl⟩ := Prod.mk.inj (Option.some.inj hst)
    obtain ⟨⟨-, -, hy₀, hy⟩, hx₀, hx⟩ := h
    simp only [Expects]
    omega
  | lfRead | wrapRead =>
    obtain ⟨rfl, rfl⟩ := Prod.mk.inj (Option.some.inj hst)
    obtain ⟨⟨-, -, hy⟩, hx⟩ := h
    exact ⟨hx, hy⟩
  | lfWrite y | wrapWrite y =>
    obtain ⟨rfl, rfl⟩ := Prod.mk.inj (Option.some.inj hst)
    obtain ⟨hx, hy₀, hy⟩ := h
    simp only [Expects]
    omega
  | printRead ch y =>
    obtain ⟨rfl, rfl⟩ := Prod.mk.inj (Option.some.inj hst)
    obtain ⟨hr, hy₀, hy⟩ := h
    exact ⟨hr, hy₀, hy, hr.1, hr.2.1⟩
  | printStore ch y x =>
    obtain ⟨rfl, rfl⟩ := Prod.mk.inj (Option.some.inj hst)
    exact h.1
  | printReadX =>
    obtain ⟨rfl, rfl⟩ := Prod.mk.inj (Option.some.inj hst)
    exact ⟨h, h.1, h.2.1⟩
  | printWriteX x =>
    obtain ⟨rfl, rfl⟩ := Prod.mk.inj (Option.some.inj hst)
    obtain ⟨⟨-, -, hy₀, hy⟩, hx₀, hx⟩ := h
    simp only [Expects]
    omega
  | wrapTest =>
    obtain ⟨rfl, rfl⟩ := Prod.mk.inj (Option.some.inj hst)
    obtain ⟨hx₀, hx, hy₀, hy, hedge⟩ := h
    split
    · exact ⟨hy₀, hedge (by omega)⟩
    · exact ⟨hx₀, by omega, hy₀, hy⟩
  | wrapWriteX =>
    obtain ⟨rfl, rfl⟩ := Prod.mk.inj (Option.some.inj hst)
    exact ⟨⟨le_rfl, by simp, h.1, h.2⟩, rfl⟩
  | scrollTest =>
    obtain ⟨rfl, rfl⟩ := Prod.mk.inj (Option.some.inj hst)
    obtain ⟨hx₀, hx, hy₀, hy⟩ := h
    split
    · exact ⟨hx₀, hx, by omega⟩
    · exact ⟨hx₀, hx, hy₀, by omega⟩
  | scrollRead =>
    obtain ⟨rfl, rfl⟩ := Prod.mk.inj (Option.some.inj hst)
    obtain ⟨hx₀, hx, hy⟩ := h
    refine ⟨hx₀, hx, ?_⟩
    rw [hy]
    rfl
  | scrollCopy temp i | scrollFill temp i =>
    simp only [putchStep] at hst
    split_ifs at hst <;> obtain ⟨rfl, rfl⟩ := Prod.mk.inj (Option.some.inj hst)
    · exact h
    · first | exact h | exact ⟨h.1, h.2.1⟩
  | scrollWrite =>
    obtain ⟨rfl, rfl⟩ := Prod.mk.inj (Option.some.inj hst)
    exact ⟨h.1, h.2, by simp, by simp⟩

/-- A process that knows this stores to the screen only. -/
theorem onScreen_of_expects (h : Expects c u) {i : ℤ} (hi : storeIndex u = some i) :
    0 ≤ i ∧ i < 80 * 25 := by
  cases u <;> simp only [storeIndex, reduceCtorEq] at hi
  case printStore ch y x =>
    obtain ⟨-, hy₀, hy, hx₀, hx⟩ := h
    obtain rfl := Option.some.inj hi
    omega
  case scrollCopy temp j =>
    obtain ⟨-, -, rfl⟩ := h
    obtain ⟨hj, hi⟩ := Option.ite_none_right_eq_some.mp hi
    obtain rfl := Option.some.inj hi
    have hcopy : copyBytes 1 = 3840 := by decide
    omega
  case scrollFill temp j =>
    obtain ⟨-, -, rfl⟩ := h
    obtain ⟨hj, hi⟩ := Option.ite_none_right_eq_some.mp hi
    obtain rfl := Option.some.inj hi
    have hfill : fillCell 1 = 1920 := by decide
    omega

/-- The port writes of `move_csr` do not move the cursor. -/
theorem csr_outportb (c : Console) (port : BitVec 16) (data : BitVec 8) :
    (c.outportb port data).csrX = c.csrX ∧ (c.outportb port data).csrY = c.csrY := by
  rw [Console.outportb]
  split_ifs <;> exact ⟨rfl, rfl⟩

/-- The steps outside that part do not either, and do not lead into it. -/
theorem putchStep_of_not_critical (hst : putchStep c u = some (c', u'))
    (hu : u.critical = false) :
    c'.csrX = c.csrX ∧ c'.csrY = c.csrY ∧ u'.inside = false ∧ storeIndex u = none := by
  cases u with
  | idle => exact absurd hst (Option.some_ne_none _).symm
  | moveReadY | moveReadX =>
    obtain ⟨rfl, rfl⟩ := Prod.mk.inj (Option.some.inj hst)
    exact ⟨rfl, rfl, rfl, rfl⟩
  | moveIndexHigh | moveHigh | moveIndexLow | moveLow =>
    obtain ⟨rfl, rfl⟩ := Prod.mk.inj (Option.some.inj hst)
    exact ⟨(csr_outportb _ _ _).1, (csr_outportb _ _ _).2, rfl, rfl⟩
  | _ => exact absurd hu (by simp [Putch.critical, Putch.inside])

/-! ### Many processes -/

omit [DecidableEq ι] in
/-- The invariant: while a process is inside, it is the only one and its expectations hold; while
nobody is, the cursor is on the screen. -/
structure ScreenInv (s : Screen ι) : Prop where
  single : ∀ p q, (s.procs p).inside = true → (s.procs q).inside = true → p = q
  expects : ∀ p, (s.procs p).inside = true → Expects s.console (s.procs p)
  rest : (∀ p, (s.procs p).inside = false) → InRange s.console

variable {s t : Screen ι}

omit [DecidableEq ι] in
/-- Whoever takes a critical step is in order. -/
theorem ScreenInv.expects_of_exclusive (h : ScreenInv s) {p : ι} (he : Exclusive s (.step p))
    (hp : (s.procs p).critical = true) : Expects s.console (s.procs p) := by
  have hothers := he hp
  by_cases hin : (s.procs p).inside = true
  · exact h.expects p hin
  · have hrest : InRange s.console := h.rest fun q => by
      by_cases hq : q = p
      · rw [hq]
        exact Bool.eq_false_iff.mpr hin
      · exact hothers q hq
    cases hpc : s.procs p with
    | start ch => exact hrest
    | _ => simp_all [Putch.critical, Putch.inside]

/-- The expectations are about the cursor only. -/
theorem expects_congr (hx : c'.csrX = c.csrX) (hy : c'.csrY = c.csrY) (h : Expects c u) :
    Expects c' u := by
  cases u <;> simpa only [Expects, InRange, hx, hy] using h

theorem inRange_of_expects (h : Expects c u) (hu : u.inside = false) : InRange c := by
  cases u
  case idle | start | moveReadY | moveReadX | moveIndexHigh | moveHigh | moveIndexLow | moveLow =>
    exact h
  all_goals exact absurd hu (by simp [Putch.inside])

theorem ScreenInv.call (h : ScreenInv s) {p : ι} {u : Putch} (hp : (s.procs p).inside = false)
    (hu : u.inside = false) :
    ScreenInv { s with procs := Function.update s.procs p u } := by
  have hsame : ∀ q, (Function.update s.procs p u q).inside = true →
      q ≠ p ∧ (s.procs q).inside = true := by
    intro q hq
    rcases eq_or_ne q p with rfl | hne
    · rw [Function.update_self, hu] at hq
      exact absurd hq Bool.false_ne_true
    · rw [Function.update_of_ne hne] at hq
      exact ⟨hne, hq⟩
  refine ⟨fun q r hq hr => h.single q r (hsame q hq).2 (hsame r hr).2, fun q hq => ?_,
    fun hout => h.rest fun q => ?_⟩
  · obtain ⟨hne, hin⟩ := hsame q hq
    dsimp only
    rw [Function.update_of_ne hne]
    exact h.expects q hin
  · rcases eq_or_ne q p with rfl | hne
    · exact hp
    · simpa only [Function.update_of_ne hne] using hout q

/-- A step inside: nobody else is there. -/
theorem ScreenInv.critical (h : ScreenInv s) {p : ι} (he : Exclusive s (.step p))
    (hp : (s.procs p).critical = true) (hst : putchStep s.console (s.procs p) = some (c', u')) :
    ScreenInv ⟨c', Function.update s.procs p u'⟩ := by
  have hexp := expects_putchStep (h.expects_of_exclusive he hp) hst hp
  have honly : ∀ q, (Function.update s.procs p u' q).inside = true → q = p := by
    intro q hq
    by_contra hne
    rw [Function.update_of_ne hne, he hp q hne] at hq
    exact Bool.false_ne_true hq
  refine ⟨fun q r hq hr => (honly q hq).trans (honly r hr).symm, fun q hq => ?_, fun hout => ?_⟩
  · dsimp only
    rw [honly q hq, Function.update_self]
    exact hexp
  · have hu : (Function.update s.procs p u' p).inside = false := hout p
    rw [Function.update_self] at hu
    exact inRange_of_expects hexp hu

/-- A step outside changes nothing anybody relies on. -/
theorem ScreenInv.outside (h : ScreenInv s) {p : ι} (hp : (s.procs p).critical = false)
    (hst : putchStep s.console (s.procs p) = some (c', u')) :
    ScreenInv ⟨c', Function.update s.procs p u'⟩ := by
  obtain ⟨hx, hy, hu, -⟩ := putchStep_of_not_critical hst hp
  have hin : (s.procs p).inside = false := by
    cases hpc : s.procs p <;> simp_all [Putch.critical, Putch.inside]
  have h' := h.call hin hu
  refine ⟨h'.single, fun q hq => expects_congr hx hy (h'.expects q hq), fun hout => ?_⟩
  have hr := h'.rest hout
  simp only [InRange] at hr ⊢
  rwa [hx, hy]

theorem ScreenInv.step (h : ScreenInv s) {e : ScreenEvent ι} (he : Exclusive s e)
    (hst : screenStep s e = some t) : ScreenInv t := by
  cases e with
  | call p ch =>
    simp only [screenStep] at hst
    split at hst
    · next hidle =>
      obtain rfl := Option.some.inj hst
      exact h.call (by rw [hidle]; rfl) rfl
    · exact absurd hst (Option.some_ne_none t).symm
  | step p =>
    obtain ⟨r, hr, rfl⟩ := Option.map_eq_some_iff.mp hst
    cases hp : (s.procs p).critical with
    | true => exact h.critical he hp hr
    | false => exact h.outside hp hr

omit [DecidableEq ι] in
theorem ScreenInv.onScreen (h : ScreenInv s) {e : ScreenEvent ι} (he : Exclusive s e) :
    OnScreen s e := by
  cases e with
  | call p ch => trivial
  | step p =>
    intro i hi
    cases hp : (s.procs p).critical with
    | true => exact onScreen_of_expects (h.expects_of_exclusive he hp) hi
    | false =>
      cases hpc : s.procs p <;> simp_all [storeIndex, Putch.critical, Putch.inside]

/-- Nobody is in `putch`, and the cursor is at the given place of the screen. -/
def Screen.initial (c : Console) : Screen ι := ⟨c, fun _ => .idle⟩

omit [DecidableEq ι] in
theorem screenInv_initial (hc : InRange c) : ScreenInv (Screen.initial c : Screen ι) where
  single _ _ hp _ := absurd hp Bool.false_ne_true
  expects _ hp := absurd hp Bool.false_ne_true
  rest _ := hc

/-- **In a run in which the parts of `putch` that change the cursor do not overlap, every store goes
to a cell of the screen, and the cursor is in range whenever nobody is in `putch`.** -/
theorem console_along (hc : InRange c) (es : List (ScreenEvent ι))
    (ha : Along screenStep Exclusive (Screen.initial c) es) :
    Along screenStep OnScreen (Screen.initial c) es ∧
      ∀ s, run screenStep (Screen.initial c) es = some s → (∀ p, s.procs p = .idle) →
        InRange s.console := by
  have h₀ : ScreenInv (Screen.initial c : Screen ι) := screenInv_initial hc
  refine ⟨along_of_along ScreenInv (fun _ _ _ hi he hst => hi.step he hst)
    (fun _ _ hi he => hi.onScreen he) h₀ ha, fun s hr hidle => ?_⟩
  have h : ScreenInv s :=
    invariant_of_along ScreenInv (fun _ _ _ hi he hst => hi.step he hst) h₀ ha hr
  exact h.rest fun p => by rw [hidle p]; rfl

/-- An empty screen with the cursor at the given place. -/
def Console.blank (x y : ℤ) : Console := ⟨fun _ => 0, x, y, 0, fun _ => 0⟩

/-- A process that is not inside stays so for the others. -/
theorem outside_update {procs : ℕ → Putch} (h : ∀ q, (procs q).inside = false) (p : ℕ) {u : Putch}
    (hu : u.inside = false) (q : ℕ) : (Function.update procs p u q).inside = false := by
  by_cases hq : q = p
  · rw [hq, Function.update_self, hu]
  · rw [Function.update_of_ne hq, h q]

/-- Two processes print in the corner of the screen. Both have called `putch` when the first one
starts; the second one starts when the first has scrolled the screen and is about to move the
cursor, and the first one goes on when the second is done. -/
theorem console_along_corner : ∃ (i j k : ℕ) (s : Screen ℕ),
    let es : List (ScreenEvent ℕ) := [.call 1 0x41, .call 2 0x42] ++ List.replicate i (.step 1) ++
      List.replicate j (.step 2) ++ List.replicate k (.step 1)
    run screenStep (Screen.initial (Console.blank 79 24)) es = some s ∧
      s.console = ((((Console.blank 79 24).putchChar 0x41).putchWrap.scroll).putch 0x42).moveCsr ∧
      (∀ p, s.procs p = .idle) ∧
      Along screenStep OnScreen (Screen.initial (Console.blank 79 24)) es ∧ InRange s.console := by
  let c := ((Console.blank 79 24).putchChar 0x41).putchWrap.scroll
  obtain ⟨i, hi⟩ := exists_run_of_goes (Relation.ReflTransGen.trans
    (goes_putchChar (Console.blank 79 24) 0x41) (goes_scroll _)) 1
  obtain ⟨j, hj⟩ := exists_run_of_goes (goes_putch c 0x42) 2
  obtain ⟨k, hk⟩ := exists_run_of_goes (goes_moveCsr (c.putch 0x42)) 1
  -- the processes after the calls, when the first one stops, and when the second one is done
  let procs₀ : ℕ → Putch := Function.update (Function.update (fun _ => .idle) 1 (.start 0x41)) 2
    (.start 0x42)
  let procs₁ : ℕ → Putch := Function.update procs₀ 1 .moveReadY
  let procs₂ : ℕ → Putch := Function.update procs₁ 2 .idle
  have hout₀ : ∀ q, (procs₀ q).inside = false :=
    outside_update (outside_update (fun _ => rfl) 1 rfl) 2 rfl
  have hout₁ : ∀ q, (procs₁ q).inside = false := outside_update hout₀ 1 rfl
  have hout₂ : ∀ q, (procs₂ q).inside = false := outside_update hout₁ 2 rfl
  obtain ⟨hrun₁, halong₁⟩ := hi procs₀ rfl
  obtain ⟨hrun₂, halong₂⟩ := hj procs₁ rfl
  obtain ⟨hrun₃, halong₃⟩ := hk procs₂ rfl
  have hidle : ∀ p, Function.update procs₂ 1 .idle p = .idle := fun p => by
    by_cases h1 : p = 1
    · rw [h1, Function.update_self]
    by_cases h2 : p = 2
    · rw [h2]
      rfl
    · simp only [procs₂, procs₁, procs₀, Function.update_of_ne h1, Function.update_of_ne h2]
  have hcalls : run screenStep (Screen.initial (Console.blank 79 24))
      [.call 1 0x41, .call 2 0x42] = some ⟨Console.blank 79 24, procs₀⟩ := rfl
  have hfirst : run screenStep (Screen.initial (Console.blank 79 24))
      ([.call 1 0x41, .call 2 0x42] ++ List.replicate i (.step 1)) = some ⟨c, procs₁⟩ := by
    rw [run_append, hcalls, Option.bind_some]
    exact hrun₁
  have hsecond : run screenStep (Screen.initial (Console.blank 79 24))
      ([.call 1 0x41, .call 2 0x42] ++ List.replicate i (.step 1) ++ List.replicate j (.step 2))
        = some ⟨c.putch 0x42, procs₂⟩ := by
    rw [run_append, hfirst, Option.bind_some]
    exact hrun₂
  have hrun : run screenStep (Screen.initial (Console.blank 79 24))
      ([.call 1 0x41, .call 2 0x42] ++ List.replicate i (.step 1) ++ List.replicate j (.step 2) ++
        List.replicate k (.step 1))
        = some ⟨(c.putch 0x42).moveCsr, Function.update procs₂ 1 .idle⟩ := by
    rw [run_append, hsecond, Option.bind_some]
    exact hrun₃
  have halong₀ : Along screenStep Exclusive (Screen.initial (Console.blank 79 24))
      [.call 1 0x41, .call 2 0x42] := ⟨trivial, fun _ _ => ⟨trivial, fun _ _ => trivial⟩⟩
  have halong := ((halong₀.append hcalls (halong₁ fun q _ => hout₀ q)).append hfirst
    (halong₂ fun q _ => hout₁ q)).append hsecond (halong₃ fun q _ => hout₂ q)
  obtain ⟨hscreen, hrange⟩ := console_along ⟨by decide, by decide, by decide, by decide⟩ _ halong
  exact ⟨i, j, k, _, hrun, rfl, hidle, hscreen, hrange _ hrun hidle⟩

/-- Two processes print in the corner of the screen: the second one starts when the first has
advanced the column and not wrapped it yet, and stores behind the last cell. -/
theorem not_onScreen_corner :
    ¬ Along screenStep OnScreen (Screen.initial (Console.blank 79 24) : Screen ℕ)
      [.call 1 0x41, .step 1, .step 1, .step 1, .step 1, .step 1,
        .call 2 0x42, .step 2, .step 2, .step 2] := by
  rintro ⟨-, h⟩
  obtain ⟨-, h⟩ := h _ rfl
  obtain ⟨-, h⟩ := h _ rfl
  obtain ⟨-, h⟩ := h _ rfl
  obtain ⟨-, h⟩ := h _ rfl
  obtain ⟨-, h⟩ := h _ rfl
  obtain ⟨-, h⟩ := h _ rfl
  obtain ⟨-, h⟩ := h _ rfl
  obtain ⟨-, h⟩ := h _ rfl
  obtain ⟨hstore, -⟩ := h _ rfl
  exact absurd (hstore 2000 rfl).2 (by decide)

end FrogOS
