import FrogOS.SetupProcess

/-!
# The scheduler, abstractly

What `schedule_process` is for can be said without rings, counters and saved frames: there is a
current process, a first-in first-out queue of waiting ones, and one bit that says whether the
current process still wants the processor. `SchedView` is that state, `SchedView.Tick` what a
timer tick may do to it, labelled with the process it starts, if any.

The kernel refines this as long as no `add_to_run_queue` meets a full ring: `Kernel.view_tick` is
the only theorem that looks at the six paths through `schedule_process`, and everything about who
waits where, and who runs next, is proved of `SchedView` from then on.

## Main definitions

* `SchedView`, `SchedView.Tick` — the abstract scheduler
* `Kernel.view`, `Kernel.Expiring` — the view of a kernel, and the ticks that end a time slice

## Main results

* `Kernel.view_tick` — a tick of the kernel is a tick of its view
* `Kernel.view_storeRunQueue`, `Kernel.view_addToRunQueue`, `Kernel.view_setReady` — and so are
  the steps of system calls
-/

namespace FrogOS

/-- The scheduler's state, abstractly. -/
structure SchedView where
  /-- The process that has the processor; `none` while the boot code has it. -/
  current : Option ℕ
  /-- The waiting processes, the next one first. -/
  queue : List ℕ
  /-- The current process has not given up the processor. -/
  running : Bool

namespace SchedView

/-- The queue when the current process `c` leaves: a process that is still running joins the
queue, the idle process and one that has given up the processor do not. -/
def leaving (v : SchedView) (c : ℕ) : List ℕ :=
  if c ≠ 0 ∧ v.running = true then v.queue ++ [c] else v.queue

/-- A timer tick, with the process it starts. -/
inductive Tick (v : SchedView) : Option ℕ → SchedView → Prop
  /-- The boot code gives way to the idle process. -/
  | first (hcur : v.current = none) : Tick v (some 0) ⟨some 0, v.queue, true⟩
  /-- The current process goes on. -/
  | stay {c : ℕ} (hcur : v.current = some c) (hidle : c = 0 → v.queue = [])
      (hrun : c ≠ 0 → v.running = true) : Tick v none v
  /-- The head of the queue takes over. -/
  | switch {c p : ℕ} {q : List ℕ} (hcur : v.current = some c) (hq : v.leaving c = p :: q) :
      Tick v (some p) ⟨some p, q, true⟩
  /-- The current process gives up the processor and nobody waits: the idle process runs. -/
  | starve {c : ℕ} (hcur : v.current = some c) (hc : c ≠ 0) (hrun : v.running = false)
      (hq : v.queue = []) : Tick v (some 0) ⟨some 0, [], true⟩

/-- The user process that has the processor after a tick is running. -/
theorem Tick.running {v v' : SchedView} {p : Option ℕ} (h : v.Tick p v') {c : ℕ}
    (hc : v'.current = some c) (h0 : c ≠ 0) : v'.running = true := by
  cases h with
  | first | switch | starve => rfl
  | stay hcur hidle hrun =>
    obtain rfl := Option.some.inj (hcur.symm.trans hc)
    exact hrun h0

end SchedView

namespace Kernel

variable {M F : Type}

def view (k : Kernel M) : SchedView where
  current := k.currentPid
  queue := k.runQueue.toList
  running := match k.currentPid with
    | none => false
    | some c => (k.processTable c).state = .running

/-- The next tick ends the time slice of the current process, and so queues it. -/
def Expiring (k : Kernel M) : Prop :=
  ∃ c, k.currentPid = some c ∧ c ≠ 0 ∧ (k.processTable c).state = .running ∧
    (k.processTable c).timeRemaining = 1

instance (k : Kernel M) : Decidable k.Expiring :=
  inferInstanceAs (Decidable (∃ c ∈ k.currentPid, _))

@[simp] theorem view_current (k : Kernel M) : k.view.current = k.currentPid := rfl
@[simp] theorem view_queue (k : Kernel M) : k.view.queue = k.runQueue.toList := rfl

theorem view_running {k : Kernel M} {c : ℕ} (h : k.currentPid = some c) :
    k.view.running = decide ((k.processTable c).state = .running) := by
  simp only [view, h]

theorem view_running_iff {k : Kernel M} {c : ℕ} (h : k.currentPid = some c) :
    k.view.running = true ↔ (k.processTable c).state = .running := by
  rw [view_running h, decide_eq_true_iff]

/-- Two kernels with the same current process, queue and state of the current process. -/
theorem view_congr {k k' : Kernel M} (hcur : k'.currentPid = k.currentPid)
    (hq : k'.runQueue.toList = k.runQueue.toList)
    (hs : ∀ c, k.currentPid = some c →
      (k'.processTable c).state = (k.processTable c).state) : k'.view = k.view := by
  cases hc : k.currentPid with
  | none => simp only [view, hcur, hq, hc]
  | some c => simp only [view, hcur, hq, hc, hs c hc]

/-! ### System calls -/

theorem view_storeRunQueue (k : Kernel M) (pid : ℕ) : (k.storeRunQueue pid).view = k.view :=
  view_congr rfl (RingBuffer.toList_store _ _) fun _ _ => rfl

theorem view_advanceRunQueueTail {k : Kernel M} (h : ¬ k.runQueue.Full) :
    k.advanceRunQueueTail.view =
      { k.view with queue := k.view.queue ++ [k.runQueue.slots k.runQueue.tail] } := by
  simp only [view, advanceRunQueueTail_runQueue, RingBuffer.toList_advanceTail h]
  rfl

theorem view_addToRunQueue {k : Kernel M} {pid : ℕ} (h : ¬ k.runQueue.Full) :
    (k.addToRunQueue pid).view = { k.view with queue := k.view.queue ++ [pid] } := by
  simp only [view, addToRunQueue_runQueue, RingBuffer.toList_push h]
  rfl

theorem view_setReady {k : Kernel M} {c : ℕ} (h : k.currentPid = some c) :
    (k.setReady c).view = { k.view with running := false } := by
  simp only [view, setReady_currentPid, setReady_runQueue, h]
  simp [setReady]

/-! ### Timer ticks -/

variable [ContextMemory M F]

theorem view_startProcess (k : Kernel M) (pid : ℕ) (context : F) :
    (k.startProcess pid context).1.view = ⟨some pid, k.runQueue.toList, true⟩ := by
  simp [view]

/-- `start_process(get_next_pid(), context)` takes the head of the queue, or the idle process. -/
theorem dispatch_cases (k : Kernel M) (context : F) :
    (k.runQueue.toList = [] ∧ k.dispatch context = k.startProcess 0 context) ∨
      ∃ p q, k.runQueue.toList = p :: q ∧
        k.dispatch context = k.advanceRunQueueHead.startProcess p context ∧
        k.advanceRunQueueHead.runQueue.toList = q := by
  by_cases h : k.runQueue.head = k.runQueue.tail
  · refine Or.inl ⟨RingBuffer.toList_eq_nil_iff.mpr h, ?_⟩
    rw [dispatch, getNextPid_of_empty h]
  · refine Or.inr ⟨_, _, RingBuffer.toList_eq_cons h, ?_, rfl⟩
    rw [dispatch, getNextPid_of_ne h]

/-- A dispatch from a non-empty queue. -/
theorem dispatch_of_cons {k : Kernel M} {p : ℕ} {q : List ℕ} (context : F)
    (h : k.runQueue.toList = p :: q) :
    (k.dispatch context).1.view = ⟨some p, q, true⟩ ∧
      (k.dispatch context).1.started = k.started ++ [p] := by
  rcases k.dispatch_cases context with ⟨h0, -⟩ | ⟨p', q', hq, heq, hrest⟩
  · rw [h] at h0
    exact absurd h0 (List.cons_ne_nil _ _)
  · obtain ⟨rfl, rfl⟩ := List.cons_eq_cons.mp (h.symm.trans hq)
    rw [heq, view_startProcess, startProcess_started, hrest]
    exact ⟨rfl, rfl⟩

/-- **Refinement.** Unless a time slice ends on a full ring, a tick of the kernel is a tick of its
view, and `start_process` is called for the process the view starts. -/
theorem view_tick {k : Kernel M} (context : F) (hfull : k.Expiring → ¬ k.runQueue.Full) :
    ∃ p, k.view.Tick p (k.pitHandler context).1.view ∧
      (k.pitHandler context).1.started = k.started ++ p.toList := by
  have h := scheduleProcess_tick { k with pitCounter := k.pitCounter + 1 } context
  rw [← pitHandler] at h
  generalize hr : k.pitHandler context = r at h ⊢
  clear hr
  have hstate : ∀ (k : Kernel M) (c : ℕ),
      ((k.countTick c).processTable c).state = (k.processTable c).state := fun k c => by
    simp [countTick]
  cases h with
  | first hcur =>
    refine ⟨some 0, ?_, startProcess_started _ _ _⟩
    rw [view_startProcess]
    exact SchedView.Tick.first hcur
  | idle hcur hq =>
    have hv : ({ k with pitCounter := k.pitCounter + 1 }.countTick 0).view = k.view :=
      view_congr rfl rfl fun c hc => by
        obtain rfl : 0 = c := Option.some.inj (hcur.symm.trans hc)
        exact hstate _ 0
    refine ⟨none, ?_, by simp⟩
    rw [hv]
    exact SchedView.Tick.stay hcur (fun _ => RingBuffer.toList_eq_nil_iff.mpr hq)
      fun h0 => absurd rfl h0
  | wake hcur hq =>
    obtain ⟨hv, hs⟩ := dispatch_of_cons
      (k := { k with pitCounter := k.pitCounter + 1 }.countTick 0) context
      (RingBuffer.toList_eq_cons hq)
    refine ⟨some k.runQueue.front, ?_, hs⟩
    rw [hv]
    refine SchedView.Tick.switch hcur ?_
    rw [SchedView.leaving, if_neg (fun h => h.1 rfl)]
    exact RingBuffer.toList_eq_cons hq
  | @slice c hcur hc hs ht =>
    have hv : (({ k with pitCounter := k.pitCounter + 1 }.countTick c).chargeQuantum c).view
        = k.view :=
      view_congr rfl rfl fun d hd => by
        obtain rfl : c = d := Option.some.inj (hcur.symm.trans hd)
        simp [countTick, chargeQuantum]
    refine ⟨none, ?_, by simp⟩
    rw [hv]
    exact SchedView.Tick.stay hcur (fun h0 => absurd h0 hc)
      fun _ => (view_running_iff hcur).mpr hs
  | @expire c hcur hc hs ht =>
    have hq := RingBuffer.toList_push (a := c) (hfull ⟨c, hcur, hc, hs, ht⟩)
    have hrun : k.view.running = true := (view_running_iff hcur).mpr hs
    have hleave : k.view.leaving c = k.runQueue.toList ++ [c] := if_pos ⟨hc, hrun⟩
    obtain ⟨p, q, hpq⟩ : ∃ p q, k.runQueue.toList ++ [c] = p :: q :=
      List.exists_cons_of_ne_nil (by simp)
    obtain ⟨hv, hst⟩ := dispatch_of_cons
      (k := ((({ k with pitCounter := k.pitCounter + 1 }.countTick c).chargeQuantum c).setReady
        c).addToRunQueue c) context (hq.trans hpq)
    refine ⟨some p, ?_, hst⟩
    rw [hv]
    exact SchedView.Tick.switch hcur (hleave.trans hpq)
  | @leave c hcur hc hs =>
    have hrun : k.view.running = false :=
      (view_running (k := k) hcur).trans (decide_eq_false hs)
    cases hq : k.runQueue.toList with
    | nil =>
      rcases ({ k with pitCounter := k.pitCounter + 1 }.countTick c).dispatch_cases context with
        ⟨-, heq⟩ | ⟨p, q, h, -⟩
      · refine ⟨some 0, ?_, by rw [heq]; exact startProcess_started _ _ _⟩
        rw [heq, view_startProcess, countTick_runQueue, hq]
        exact SchedView.Tick.starve hcur hc hrun hq
      · exact absurd (hq.symm.trans h) (List.cons_ne_nil _ _).symm
    | cons p q =>
      obtain ⟨hv, hst⟩ := dispatch_of_cons
        (k := { k with pitCounter := k.pitCounter + 1 }.countTick c) context hq
      refine ⟨some p, ?_, hst⟩
      rw [hv]
      refine SchedView.Tick.switch hcur ?_
      rw [SchedView.leaving, if_neg (fun h => Bool.false_ne_true (hrun.symm.trans h.2))]
      exact hq

/-- A time slice that ends on a full ring empties the ring: the idle process is all that is
left. -/
theorem view_tick_of_full {k : Kernel M} (context : F) (he : k.Expiring) (hfull : k.runQueue.Full) :
    (k.pitHandler context).1.view = ⟨some 0, [], true⟩ := by
  obtain ⟨c, hcur, hc, hs, ht⟩ := he
  have hstate : (({ k with pitCounter := k.pitCounter + 1 }.countTick c).processTable c).state
      = .running := by
    simpa [countTick] using hs
  have htime : ((({ k with pitCounter := k.pitCounter + 1 }.countTick c).chargeQuantum
      c).processTable c).timeRemaining = 0 := by
    simp [countTick, chargeQuantum, updateProcess, ht]
  rw [pitHandler, scheduleProcess_of_some (k := { k with pitCounter := k.pitCounter + 1 }) context
    hcur, if_neg hc, if_pos hstate, if_pos htime]
  have hempty := RingBuffer.toList_push_of_full (a := c) hfull
  rcases dispatch_cases (((({ k with pitCounter := k.pitCounter + 1 }.countTick c).chargeQuantum
    c).setReady c).addToRunQueue c) context with ⟨h, heq⟩ | ⟨p, q, h, -⟩
  · rw [heq, view_startProcess, h]
  · exact absurd (hempty.symm.trans h) (List.cons_ne_nil p q).symm

/-! ### The first two ticks -/

theorem not_expiring_of_none {k : Kernel M} (h : k.currentPid = none) : ¬ k.Expiring := by
  rintro ⟨c, hc, -⟩
  exact Option.some_ne_none c (hc.symm.trans h)

theorem not_expiring_of_idle {k : Kernel M} (h : k.currentPid = some 0) : ¬ k.Expiring := by
  rintro ⟨c, hc, h0, -⟩
  exact h0 (Option.some.inj (hc.symm.trans h))

omit [ContextMemory M F] in
/-- A kernel whose current process is known has the view one expects. -/
theorem currentPid_of_view {k : Kernel M} {v : SchedView} (h : k.view = v) :
    k.currentPid = v.current ∧ k.runQueue.toList = v.queue :=
  ⟨congrArg SchedView.current h, congrArg SchedView.queue h⟩

/-- The first tick starts the idle process. -/
theorem view_tick_of_none {k : Kernel M} (context : F) (h : k.currentPid = none) :
    (k.pitHandler context).1.view = ⟨some 0, k.view.queue, true⟩ := by
  obtain ⟨p, ht, -⟩ := view_tick context fun he => absurd he (not_expiring_of_none h)
  generalize (k.pitHandler context).1.view = v at ht
  cases ht with
  | first => rfl
  | stay hcur | switch hcur | starve hcur =>
    exact absurd (hcur.symm.trans h) (Option.some_ne_none _)

/-- The idle process gives way to the head of the queue. -/
theorem view_tick_of_idle {k : Kernel M} {p : ℕ} {q : List ℕ} (context : F)
    (h : k.currentPid = some 0) (hq : k.runQueue.toList = p :: q) :
    (k.pitHandler context).1.view = ⟨some p, q, true⟩ := by
  obtain ⟨r, ht, -⟩ := view_tick context fun he => absurd he (not_expiring_of_idle h)
  generalize (k.pitHandler context).1.view = v at ht
  cases ht with
  | first hcur => exact absurd (h.symm.trans hcur) (Option.some_ne_none _)
  | stay hcur hidle =>
    have h0 := hidle (Option.some.inj (hcur.symm.trans h))
    exact absurd (h0.symm.trans hq) (List.cons_ne_nil _ _).symm
  | switch hcur hleave =>
    obtain rfl := Option.some.inj (hcur.symm.trans h)
    rw [SchedView.leaving, if_neg (fun h => h.1 rfl)] at hleave
    obtain ⟨rfl, rfl⟩ := List.cons_eq_cons.mp (hleave.symm.trans hq)
    rfl
  | starve hcur hc => exact absurd (Option.some.inj (hcur.symm.trans h)) hc

end Kernel

end FrogOS
