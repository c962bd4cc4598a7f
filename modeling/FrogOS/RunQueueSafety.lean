import FrogOS.Lib.StepSystem
import FrogOS.Scheduler

/-!
# Duplicates and overflow of the run queue

The ring of the run queue has no full check. It is safe because a process is in it at most once,
and it has a slot more than there are user processes. What makes a process be in it at most once
is that `schedule_process` queues a process only when it stops it, and that the sleep loop halts
after it has queued its caller. `yield` does neither: it queues the caller and returns, and the
caller may queue itself again before the next tick.

Here every operation is atomic: a tick, one iteration of the sleep loop, and the system calls
`yield`, `getpid` and `hlt` of the running process.

## The condition

`RunQueueSafe` and `RequeuesOnce` are both conditions on single steps, and they agree on every
state the invariant describes (`runQueueSafe_iff_requeuesOnce`): a process that requeues itself
while it is `RUNNING` is not in the queue, one that does so while it is `READY` is. The agreement
carries over to runs by `StepSystem.along_iff_of_safe`.

## Main definitions

* `AtomicState`, `AtomicOp`, `atomicStep` — the machine
* `RunQueueSafe`, `RequeuesOnce` — what is expected of a step, and when it is met
* `QueueInv` — the invariant

## Main results

* `runQueueSafe_along_iff` — a run is safe exactly when no process requeues itself twice
-/

namespace FrogOS

open Kernel StepSystem

/-- The kernel, and whether the current process is waiting for an interrupt. -/
structure AtomicState where
  kernel : Kernel ByteMemory
  halted : Bool

/-- What happens, every event being atomic. All but the tick are system calls of the running
process. -/
inductive AtomicOp
  /-- A timer tick that interrupts the given frame. -/
  | tick (context : ProcessContext)
  /-- One iteration of the loop of `SYSCALL_SLEEP`, up to and including `hlt`. -/
  | sleep
  /-- System call 4. -/
  | yield
  | getpid
  | hlt

/-- The process that can make a system call: the current one, unless it is the idle process or
waits for an interrupt. -/
def AtomicState.caller (s : AtomicState) : Option ℕ :=
  match s.kernel.currentPid with
  | none => none
  | some c => if c = 0 ∨ s.halted = true then none else some c

def atomicStep (s : AtomicState) : AtomicOp → Option AtomicState
  | .tick context => some ⟨(s.kernel.pitHandler context).1, false⟩
  | .sleep => s.caller.map fun c => ⟨(s.kernel.addToRunQueue c).setReady c, true⟩
  | .yield => s.caller.map fun c => ⟨(s.kernel.setReady c).addToRunQueue c, s.halted⟩
  | .getpid => s.caller.map fun _ => s
  | .hlt => s.caller.map fun _ => { s with halted := true }

/-- The state `setup_process` leaves with `n` user processes. -/
def AtomicState.initial (mem : ByteMemory) (init userTask : BitVec 64) (n : ℕ) : AtomicState :=
  ⟨boot mem init userTask n, false⟩

/-- The process a system call puts into the run queue. -/
def AtomicState.requeues (s : AtomicState) : AtomicOp → Option ℕ
  | .sleep => s.caller
  | .yield => s.caller
  | _ => none

/-- The step calls `add_to_run_queue`. -/
def AtomicState.Adds (s : AtomicState) (op : AtomicOp) : Prop :=
  (∃ c, s.requeues op = some c) ∨ ∃ context, op = .tick context ∧ s.kernel.Expiring

/-- No pid is queued twice, and the idle process is not queued. -/
def QueueOk (k : Kernel ByteMemory) : Prop := k.runQueue.toList.Nodup ∧ 0 ∉ k.runQueue.toList

/-- What is expected of a step: the queue is in order before and after it, and it does not make
the tail catch up with the head. -/
def RunQueueSafe (s : AtomicState) (op : AtomicOp) : Prop :=
  QueueOk s.kernel ∧ (s.Adds op → ¬ s.kernel.runQueue.Full) ∧
    ∀ t, atomicStep s op = some t → QueueOk t.kernel

/-- A system call that requeues its caller finds it `RUNNING`: it has not been requeued since it
was started. -/
def RequeuesOnce (s : AtomicState) (op : AtomicOp) : Prop :=
  ∀ c, s.requeues op = some c → (s.kernel.processTable c).state = .running

/-! ### The invariant -/

/-- Who waits where, in terms of the scheduler's view: the queue holds user processes, each once,
and the current process among them exactly when it has given up the processor. -/
structure QueueInv (n : ℕ) (v : SchedView) : Prop where
  nodup : v.queue.Nodup
  range : ∀ p ∈ v.queue, 0 < p ∧ p ≤ n
  current : ∀ c, v.current = some c → c ≤ n ∧ (c ≠ 0 → (v.running = true ↔ c ∉ v.queue))

variable {n : ℕ} {v v' : SchedView}

/-- A running process leaves room in a ring of 128 slots. -/
theorem QueueInv.length_lt (h : QueueInv n v) {c : ℕ} (hcur : v.current = some c) (hc : c ≠ 0)
    (hrun : v.running = true) : v.queue.length < n := by
  obtain ⟨hcn, hmem⟩ := h.current c hcur
  have hnot : c ∉ v.queue := (hmem hc).mp hrun
  have hsub : (c :: v.queue) ⊆ List.range' 1 n := by
    intro p hp
    rw [List.mem_range'_1]
    rcases List.mem_cons.mp hp with rfl | hp
    · omega
    · have := h.range p hp
      omega
  have hle := (List.subperm_of_subset (List.nodup_cons.mpr ⟨hnot, h.nodup⟩) hsub).length_le
  rw [List.length_cons, List.length_range'] at hle
  omega

/-- A process that is running joins the queue. -/
theorem QueueInv.push (h : QueueInv n v) {c : ℕ} (hcur : v.current = some c) (hc : c ≠ 0)
    (hrun : v.running = true) : QueueInv n ⟨v.current, v.queue ++ [c], false⟩ := by
  obtain ⟨hcn, hmem⟩ := h.current c hcur
  refine ⟨List.nodup_append_comm.mp (List.nodup_cons.mpr ⟨(hmem hc).mp hrun, h.nodup⟩),
    fun p hp => ?_, fun d hd => ?_⟩
  · rcases List.mem_append.mp hp with hp | hp
    · exact h.range p hp
    · rw [List.mem_singleton.mp hp]
      exact ⟨Nat.pos_of_ne_zero hc, hcn⟩
  · obtain rfl : c = d := Option.some.inj (hcur.symm.trans hd)
    exact ⟨hcn, fun _ => by simp⟩

/-- A tick keeps the invariant. -/
theorem QueueInv.tick (h : QueueInv n v) {p : Option ℕ} (ht : v.Tick p v') : QueueInv n v' := by
  cases ht with
  | first hcur =>
    refine ⟨h.nodup, h.range, fun c hc => ?_⟩
    obtain rfl : 0 = c := Option.some.inj hc
    exact ⟨Nat.zero_le n, fun h0 => absurd rfl h0⟩
  | stay => exact h
  | @switch c p q hcur hq =>
    -- the queue the head is taken from
    have hleave : QueueInv n ⟨v.current, v.leaving c, false⟩ ∨ v.leaving c = v.queue := by
      by_cases hrun : c ≠ 0 ∧ v.running = true
      · rw [SchedView.leaving, if_pos hrun]
        exact Or.inl (h.push hcur hrun.1 hrun.2)
      · exact Or.inr (if_neg hrun)
    have hnodup : (v.leaving c).Nodup := hleave.elim (fun hi => hi.nodup) fun he => he ▸ h.nodup
    have hrange : ∀ r ∈ v.leaving c, 0 < r ∧ r ≤ n :=
      hleave.elim (fun hi => hi.range) fun he => he ▸ h.range
    rw [hq] at hnodup hrange
    obtain ⟨hnot, hnodup⟩ := List.nodup_cons.mp hnodup
    refine ⟨hnodup, fun r hr => hrange r (List.mem_cons_of_mem _ hr), fun d hd => ?_⟩
    obtain rfl : p = d := Option.some.inj hd
    exact ⟨(hrange p List.mem_cons_self).2, fun _ => iff_of_true rfl hnot⟩
  | starve =>
    refine ⟨List.nodup_nil, by simp, fun d hd => ?_⟩
    obtain rfl : 0 = d := Option.some.inj hd
    exact ⟨Nat.zero_le n, fun h0 => absurd rfl h0⟩

theorem queueInv_boot (mem : ByteMemory) (init userTask : BitVec 64) (hn : n < maxProcesses) :
    QueueInv n (boot mem init userTask n).view := by
  have h := setupSpec_boot mem init userTask hn
  refine ⟨?_, fun p hp => ?_, fun c hc => ?_⟩
  · rw [view_queue, h.runQueue]
    exact List.nodup_range'
  · rw [view_queue, h.runQueue, List.mem_range'_1] at hp
    omega
  · rw [view_current, h.currentPid] at hc
    exact absurd hc (Option.some_ne_none c).symm

/-! ### One step -/

theorem AtomicState.caller_eq_some {s : AtomicState} {c : ℕ} (h : s.caller = some c) :
    s.kernel.currentPid = some c ∧ c ≠ 0 := by
  unfold AtomicState.caller at h
  split at h
  · exact absurd h (Option.some_ne_none c).symm
  · next d hd =>
    split at h
    · exact absurd h (Option.some_ne_none c).symm
    · next hne =>
      obtain rfl := Option.some.inj h
      exact ⟨hd, fun h0 => hne (Or.inl h0)⟩

theorem queueOk_of_inv {k : Kernel ByteMemory} (h : QueueInv n k.view) : QueueOk k :=
  ⟨h.nodup, fun h0 => absurd (h.range 0 h0).1 (Nat.lt_irrefl 0)⟩

/-- A running process never meets a full ring. -/
theorem QueueInv.not_full {k : Kernel ByteMemory} (h : QueueInv n k.view) (hn : n < maxProcesses)
    {c : ℕ} (hcur : k.currentPid = some c) (hc : c ≠ 0)
    (hs : (k.processTable c).state = .running) : ¬ k.runQueue.Full := by
  have hlen := h.length_lt hcur hc ((view_running_iff hcur).mpr hs)
  rw [view_queue, RingBuffer.length_toList] at hlen
  rw [RingBuffer.full_iff_size]
  omega

theorem QueueInv.not_full_of_expiring {k : Kernel ByteMemory} (h : QueueInv n k.view)
    (hn : n < maxProcesses) (he : k.Expiring) : ¬ k.runQueue.Full := by
  obtain ⟨c, hcur, hc, hs, -⟩ := he
  exact h.not_full hn hcur hc hs

/-- Both ways of requeueing have one effect on the view. -/
theorem view_requeue {k : Kernel ByteMemory} {c : ℕ} (hcur : k.currentPid = some c)
    (hfull : ¬ k.runQueue.Full) :
    ((k.addToRunQueue c).setReady c).view = ⟨k.view.current, k.view.queue ++ [c], false⟩ ∧
      ((k.setReady c).addToRunQueue c).view = ⟨k.view.current, k.view.queue ++ [c], false⟩ := by
  constructor
  · rw [view_setReady (k := k.addToRunQueue c) hcur, view_addToRunQueue hfull]
  · rw [view_addToRunQueue (k := k.setReady c) hfull, view_setReady hcur]

/-- A requeue that is possible leads to a state with the caller at the end of the queue. -/
theorem exists_requeue {s : AtomicState} (op : AtomicOp) {c : ℕ} (hr : s.requeues op = some c)
    (hfull : ¬ s.kernel.runQueue.Full) : ∃ t, atomicStep s op = some t ∧
      t.kernel.view = ⟨s.kernel.view.current, s.kernel.view.queue ++ [c], false⟩ := by
  cases op with
  | tick | getpid | hlt => exact absurd hr (Option.some_ne_none c).symm
  | sleep =>
    have hcall : s.caller = some c := hr
    refine ⟨_, congrArg (Option.map _) hcall, ?_⟩
    exact (view_requeue (AtomicState.caller_eq_some hcall).1 hfull).1
  | yield =>
    have hcall : s.caller = some c := hr
    refine ⟨_, congrArg (Option.map _) hcall, ?_⟩
    exact (view_requeue (AtomicState.caller_eq_some hcall).1 hfull).2

/-- Everything a step can do to the view. -/
theorem view_atomicStep {s t : AtomicState} {op : AtomicOp} (hst : atomicStep s op = some t)
    (hfull : s.Adds op → ¬ s.kernel.runQueue.Full) :
    (∃ p, s.kernel.view.Tick p t.kernel.view) ∨ t.kernel.view = s.kernel.view ∨
      ∃ c, s.requeues op = some c ∧
        t.kernel.view = ⟨s.kernel.view.current, s.kernel.view.queue ++ [c], false⟩ := by
  cases op with
  | tick context =>
    obtain rfl := Option.some.inj hst
    obtain ⟨p, hp, -⟩ := view_tick context fun he => hfull (Or.inr ⟨context, rfl, he⟩)
    exact Or.inl ⟨p, hp⟩
  | sleep =>
    obtain ⟨c, hcall, -⟩ := Option.map_eq_some_iff.mp hst
    obtain ⟨t', ht', hv⟩ := exists_requeue .sleep hcall (hfull (Or.inl ⟨c, hcall⟩))
    obtain rfl := Option.some.inj (hst.symm.trans ht')
    exact Or.inr (Or.inr ⟨c, hcall, hv⟩)
  | yield =>
    obtain ⟨c, hcall, -⟩ := Option.map_eq_some_iff.mp hst
    obtain ⟨t', ht', hv⟩ := exists_requeue .yield hcall (hfull (Or.inl ⟨c, hcall⟩))
    obtain rfl := Option.some.inj (hst.symm.trans ht')
    exact Or.inr (Or.inr ⟨c, hcall, hv⟩)
  | getpid | hlt =>
    obtain ⟨c, -, rfl⟩ := Option.map_eq_some_iff.mp hst
    exact Or.inr (Or.inl rfl)

theorem AtomicState.caller_of_requeues {s : AtomicState} {op : AtomicOp} {c : ℕ}
    (hr : s.requeues op = some c) : s.kernel.currentPid = some c ∧ c ≠ 0 := by
  cases op with
  | tick | getpid | hlt => exact absurd hr (Option.some_ne_none c).symm
  | sleep | yield => exact AtomicState.caller_eq_some hr

/-- Under the invariant, an allowed step meets no full ring. -/
theorem RequeuesOnce.not_full {s : AtomicState} {op : AtomicOp} (hr : RequeuesOnce s op)
    (h : QueueInv n s.kernel.view) (hn : n < maxProcesses) (ha : s.Adds op) :
    ¬ s.kernel.runQueue.Full := by
  rcases ha with ⟨c, hc⟩ | ⟨_, -, he⟩
  · obtain ⟨hcur, h0⟩ := AtomicState.caller_of_requeues hc
    exact h.not_full hn hcur h0 (hr c hc)
  · exact h.not_full_of_expiring hn he

/-- An allowed step keeps the invariant. -/
theorem QueueInv.step {s t : AtomicState} {op : AtomicOp} (h : QueueInv n s.kernel.view)
    (hn : n < maxProcesses) (hr : RequeuesOnce s op) (hst : atomicStep s op = some t) :
    QueueInv n t.kernel.view := by
  rcases view_atomicStep hst (hr.not_full h hn) with ⟨p, ht⟩ | hv | ⟨c, hc, hv⟩
  · exact h.tick ht
  · rwa [hv]
  · obtain ⟨hcur, h0⟩ := AtomicState.caller_of_requeues hc
    rw [hv]
    exact h.push hcur h0 ((view_running_iff hcur).mpr (hr c hc))

/-- Under the invariant, a step is safe exactly when it requeues nobody twice. -/
theorem runQueueSafe_iff_requeuesOnce {s : AtomicState} {op : AtomicOp}
    (h : QueueInv n s.kernel.view) (hn : n < maxProcesses) :
    RunQueueSafe s op ↔ RequeuesOnce s op := by
  constructor
  · rintro ⟨-, hfull, hok⟩ c hc
    obtain ⟨hcur, h0⟩ := AtomicState.caller_of_requeues hc
    obtain ⟨t, ht, hv⟩ := exists_requeue op hc (hfull (Or.inl ⟨c, hc⟩))
    by_contra hs
    have hmem : c ∈ s.kernel.view.queue := by
      by_contra hnot
      exact hs ((view_running_iff hcur).mp (((h.current c hcur).2 h0).mpr hnot))
    have hdup : (s.kernel.view.queue ++ [c]).Nodup := by
      have hq : t.kernel.runQueue.toList = s.kernel.view.queue ++ [c] :=
        congrArg SchedView.queue hv
      exact hq ▸ (hok t ht).1
    exact absurd hmem (List.nodup_cons.mp (List.nodup_append_comm.mp hdup)).1
  · intro hr
    exact ⟨queueOk_of_inv h, hr.not_full h hn, fun t ht => queueOk_of_inv (h.step hn hr ht)⟩

/-- The agreement of the two conditions along runs. -/
theorem along_runQueueSafe_iff {s : AtomicState} {ops : List AtomicOp}
    (h : QueueInv n s.kernel.view) (hn : n < maxProcesses) :
    Along atomicStep RunQueueSafe s ops ↔ Along atomicStep RequeuesOnce s ops :=
  along_iff_of_safe (fun s => QueueInv n s.kernel.view)
    (fun _ _ _ hi hr ht => hi.step hn hr ht) (fun _ _ hi => runQueueSafe_iff_requeuesOnce hi hn) h

/-- **The run queue stays free of duplicates and never overflows exactly in the runs in which no
process requeues itself twice without having been started in between.** -/
theorem runQueueSafe_along_iff (mem : ByteMemory) (init userTask : BitVec 64)
    (hn : n < maxProcesses) (ops : List AtomicOp) :
    QueueOk (AtomicState.initial mem init userTask n).kernel ∧
        Along atomicStep RunQueueSafe (AtomicState.initial mem init userTask n) ops ↔
      Along atomicStep RequeuesOnce (AtomicState.initial mem init userTask n) ops := by
  have h := queueInv_boot mem init userTask hn
  exact (and_iff_right (queueOk_of_inv h)).trans (along_runQueueSafe_iff h hn)

/-- The four user processes of the source, one of them going to sleep. -/
theorem runQueueSafe_along_iff_four :
    QueueOk (AtomicState.initial (fun _ => 0) 0x200000 0x200100 4).kernel ∧
        Along atomicStep RunQueueSafe (AtomicState.initial (fun _ => 0) 0x200000 0x200100 4)
          [.tick .zero, .tick .zero, .sleep] ↔
      Along atomicStep RequeuesOnce (AtomicState.initial (fun _ => 0) 0x200000 0x200100 4)
        [.tick .zero, .tick .zero, .sleep] :=
  runQueueSafe_along_iff _ _ _ (by decide) _

/-- Two calls of `yield` right after the first user process has been started requeue it twice. -/
theorem not_requeuesOnce_yield_twice {k : Kernel ByteMemory} {p : ℕ} {q : List ℕ}
    (context : ProcessContext) (hcur : k.currentPid = none) (hq : k.runQueue.toList = p :: q)
    (hp : p ≠ 0) :
    ¬ Along atomicStep RequeuesOnce ⟨k, false⟩ [.tick context, .tick context, .yield, .yield] := by
  have h₁ := currentPid_of_view (view_tick_of_none context hcur)
  have h₂ := currentPid_of_view (view_tick_of_idle context h₁.1 (h₁.2.trans hq))
  rintro ⟨-, h⟩
  obtain ⟨-, h⟩ := h ⟨(k.pitHandler context).1, false⟩ rfl
  obtain ⟨-, h⟩ := h ⟨((k.pitHandler context).1.pitHandler context).1, false⟩ rfl
  generalize ((k.pitHandler context).1.pitHandler context).1 = k' at h h₂
  have hcall : ∀ k'' : Kernel ByteMemory, k''.currentPid = some p →
      (AtomicState.mk k'' false).caller = some p := fun k'' h => by
    simp only [AtomicState.caller, h, hp, Bool.false_eq_true, or_self, if_false]
  obtain ⟨hr, -⟩ := h _ (congrArg (Option.map _) (hcall k' h₂.1))
  have hready : (((k'.setReady p).addToRunQueue p).processTable p).state = .ready := by
    simp [setReady]
  exact absurd (hready.symm.trans (hr p (hcall _ h₂.1))) (by decide)

/-- After two ticks the first user process runs, and two calls of `yield` queue it twice. -/
theorem not_runQueueSafe_yield_twice :
    ¬ Along atomicStep RunQueueSafe (AtomicState.initial (fun _ => 0) 0x200000 0x200100 4)
      [.tick .zero, .tick .zero, .yield, .yield] := by
  have hn : 4 < maxProcesses := by decide
  have h : SetupSpec (boot (fun _ => 0 : ByteMemory) 0x200000 0x200100 4) 0x200000 0x200100 5 :=
    setupSpec_boot _ _ _ hn
  have hinv := queueInv_boot (fun _ => 0) 0x200000 0x200100 hn
  rw [AtomicState.initial]
  generalize boot (fun _ => 0 : ByteMemory) 0x200000 0x200100 4 = k at h hinv ⊢
  rw [along_runQueueSafe_iff hinv hn]
  exact not_requeuesOnce_yield_twice .zero h.currentPid h.runQueue Nat.one_ne_zero

end FrogOS
