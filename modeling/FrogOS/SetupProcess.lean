import FrogOS.ProcessCreate

/-!
# The state `setup_process` leaves behind

`setup_process` creates `init` as pid 0, takes it out of the run queue again, and creates the user
processes. `SetupSpec` says what has been reached after the first `m` processes, and one more
call of `process_create` takes `SetupSpec m` to `SetupSpec (m + 1)` as long as slots and heap last.
Every question about the scheduler starts from `setupProcess_spec`.

## Main results

* `setupProcess_spec` — with up to 127 user processes, on a heap with room for all of them
* `setupSpec_boot` — the heap `setup_pit` leaves has that room
-/

namespace FrogOS

open ContextMemory

namespace Kernel

variable {M F : Type} [ContextMemory M F] {init userTask : BitVec 64}

/-- After the first `m` processes, `init` being out of the run queue. -/
structure SetupSpec (k : Kernel M) (init userTask : BitVec 64) (m : ℕ) : Prop where
  currentPid : k.currentPid = none
  started : k.started = []
  heap : k.heap.Valid
  freeSlots : ∀ i, k.freeQueue.slots i = i.val
  freeHead : k.freeQueue.head = Fin.ofNat maxProcesses m
  runQueue : k.runQueue.toList = List.range' 1 (m - 1)
  /-- Every slot of the run queue, occupied or not, holds the pid of a created process. -/
  runSlots : ∀ i, k.runQueue.slots i < m
  state : ∀ p < m, (k.processTable p).state = .ready
  /-- Every saved context is the initial one. -/
  frame : ∀ p < m, ∃ rsp, load k.mem (k.processTable p).context
    = initialFrame M ⟨if p = 0 then init else userTask, p = 0, rsp, p⟩
  context : ∀ p < m, 0x300000 ≤ (k.processTable p).context.toNat ∧
    (k.processTable p).context.toNat + 208 ≤ k.heap.heap.toNat
  apart : ∀ p < m, ∀ q < m, p ≠ q → Apart (k.processTable p).context (k.processTable q).context

theorem SetupSpec.context_ne_zero {k : Kernel M} {m p : ℕ} (h : SetupSpec k init userTask m)
    (hp : p < m) : (k.processTable p).context ≠ 0 := by
  intro h0
  have := (h.context p hp).1
  rw [h0] at this
  simp at this

/-- One more user process. -/
theorem SetupSpec.create {k : Kernel M} {m : ℕ} (h : SetupSpec k init userTask m) (hm : 0 < m)
    (hm' : m < maxProcesses) (hroom : 4304 ≤ k.heap.heapSize.toNat) :
    SetupSpec (k.processCreate userTask false).1 init userTask (m + 1) ∧
      (k.processCreate userTask false).1.heap.heapSize.toNat + 4304 = k.heap.heapSize.toNat := by
  obtain ⟨heap, hv, hheap, hsize, heq⟩ := processCreate_of_room userTask false h.heap hroom
  have hfront : k.freeQueue.front = m := by
    rw [RingBuffer.front, h.freeSlots, h.freeHead, Fin.val_ofNat, Nat.mod_eq_of_lt hm']
  have hfull : ¬ k.runQueue.Full := by
    rw [RingBuffer.full_iff_size, ← RingBuffer.length_toList, h.runQueue, List.length_range']
    omega
  have hstart := h.heap.start
  have hnew : ∀ q < m, Apart k.heap.heap (k.processTable q).context :=
    fun q hq => Or.inr (h.context q hq).2
  have hold : ∀ q < m, q ≠ m := fun q hq => Nat.ne_of_lt hq
  rw [heq, hfront]
  refine ⟨⟨h.currentPid, h.started, hv, h.freeSlots, ?_, ?_, fun i => ?_, fun p hp => ?_,
    fun p hp => ?_, fun p hp => ?_, fun p hp q hq hne => ?_⟩, hsize⟩
  · simp only [RingBuffer.advanceHead_head, h.freeHead]
    ext
    rw [Fin.val_add, Fin.val_one', Fin.val_ofNat, Fin.val_ofNat, ← Nat.add_mod]
  · rw [RingBuffer.toList_push hfull, h.runQueue]
    obtain ⟨j, rfl⟩ : ∃ j, m = j + 1 := ⟨m - 1, by omega⟩
    rw [Nat.add_sub_cancel, Nat.add_sub_cancel, List.range'_1_concat, Nat.add_comm]
  · exact RingBuffer.forall_slots_store (p := (· < m + 1)) (fun j => (h.runSlots j).trans
      (Nat.lt_succ_self m)) (Nat.lt_succ_self m) i
  all_goals rcases Nat.lt_succ_iff_lt_or_eq.mp hp with hp | rfl
  · simpa only [Function.update_of_ne (hold p hp)] using h.state p hp
  · simp only [Function.update_self]
  · simp only [Function.update_of_ne (hold p hp), load_create_of_apart (hnew p hp)]
    exact h.frame p hp
  · refine ⟨k.stackBlock.1 + 4096, ?_⟩
    simp only [Function.update_self, load_create, nextInit, hfront, Nat.ne_of_gt hm, if_false,
      decide_false]
  · simp only [Function.update_of_ne (hold p hp), hheap]
    exact ⟨(h.context p hp).1, (h.context p hp).2.trans (Nat.le_add_right _ _)⟩
  · simp only [Function.update_self, hheap]
    omega
  all_goals rcases Nat.lt_succ_iff_lt_or_eq.mp hq with hq | rfl
  · simpa only [Function.update_of_ne (hold p hp), Function.update_of_ne (hold q hq)]
      using h.apart p hp q hq hne
  · simpa only [Function.update_of_ne (hold p hp), Function.update_self] using (hnew p hp).symm
  · simpa only [Function.update_self, Function.update_of_ne (hold q hq)] using hnew q hq
  · exact absurd rfl hne

/-- `init`, the first process. -/
theorem setupSpec_init (init userTask : BitVec 64) (mem : M) {h : Heap} (hv : h.Valid)
    (hroom : 4304 ≤ h.heapSize.toNat) :
    SetupSpec (((Kernel.initial mem h).fillFreeQueue.processCreate init true).1.advanceRunQueueHead)
        init userTask 1 ∧
      ((Kernel.initial mem h).fillFreeQueue.processCreate init true).1.heap.heapSize.toNat + 4304
        = h.heapSize.toNat := by
  obtain ⟨heap, hv', hheap, hsize, heq⟩ :=
    processCreate_of_room (k := (Kernel.initial mem h).fillFreeQueue) init true hv hroom
  have hslots := fillFreeQueue_slots (Kernel.initial mem h)
  have hfront : (Kernel.initial mem h).fillFreeQueue.freeQueue.front = 0 := hslots 0
  have hheap' : heap.heap.toNat = h.heap.toNat + 4304 := hheap
  have hstart := hv.start
  rw [heq, hfront]
  refine ⟨⟨rfl, rfl, hv', hslots, rfl, ?_, fun i => ?_, fun p hp => ?_, fun p hp => ?_,
    fun p hp => ?_, fun p hp q hq hne => ?_⟩, hsize⟩
  · exact RingBuffer.toList_eq_nil_iff.mpr rfl
  · exact RingBuffer.forall_slots_store (r := zeroQueue) (p := (· < 1))
      (fun _ => Nat.one_pos) Nat.one_pos i
  all_goals obtain rfl := Nat.lt_one_iff.mp hp
  · simp only [advanceRunQueueHead, Function.update_self]
  · refine ⟨(Kernel.initial mem h).fillFreeQueue.stackBlock.1 + 4096, ?_⟩
    simp only [advanceRunQueueHead, Function.update_self, load_create, nextInit, hfront, if_true,
      decide_true]
  · simp only [advanceRunQueueHead, Function.update_self]
    change 0x300000 ≤ h.heap.toNat ∧ h.heap.toNat + 208 ≤ heap.heap.toNat
    omega
  · exact absurd (Nat.lt_one_iff.mp hq).symm hne

theorem SetupSpec.createUserTasks {n : ℕ} : ∀ {k : Kernel M} {m : ℕ},
    SetupSpec k init userTask m → 0 < m → m + n ≤ maxProcesses →
    4304 * n ≤ k.heap.heapSize.toNat →
    SetupSpec (k.createUserTasks userTask n) init userTask (m + n) := by
  induction n with
  | zero => exact fun h _ _ _ => h
  | succ n ih =>
    intro k m h hm hle hroom
    obtain ⟨h', hsize⟩ := h.create hm (by omega) (by omega)
    have := ih h' (Nat.succ_pos m) (by omega) (by omega)
    rwa [show m + 1 + n = m + (n + 1) by omega] at this

/-- **The state after `setup_process`**, with `n` user processes. -/
theorem setupProcess_spec (mem : M) {h : Heap} (hv : h.Valid) {n : ℕ} (hn : n < maxProcesses)
    (hroom : 4304 * (n + 1) ≤ h.heapSize.toNat) :
    SetupSpec ((Kernel.initial mem h).setupProcess init userTask n) init userTask (n + 1) := by
  obtain ⟨h₁, hsize⟩ := setupSpec_init init userTask mem hv (by omega)
  have := h₁.createUserTasks (n := n) Nat.one_pos (by omega) (by
    change 4304 * n
      ≤ ((Kernel.initial mem h).fillFreeQueue.processCreate init true).1.heap.heapSize.toNat
    omega)
  rwa [Nat.add_comm 1 n] at this

/-- The heap after `setup_pit` has allocated its `irq_handler_t`. -/
def bootHeap : Heap := (malloc Heap.initial 24).2

/-- The kernel at the first tick: `setup_process` has run on the heap `setup_pit` left. -/
def boot (mem : M) (init userTask : BitVec 64) (n : ℕ) : Kernel M :=
  (Kernel.initial mem bootHeap).setupProcess init userTask n

theorem setupSpec_boot (mem : M) (init userTask : BitVec 64) {n : ℕ} (hn : n < maxProcesses) :
    SetupSpec (boot mem init userTask n) init userTask (n + 1) := by
  have hv : bootHeap.Valid := (malloc_valid Heap.valid_initial 24).1
  have hsize : bootHeap.heapSize.toNat = 0x100000 - 24 := by decide
  have hn' : n < 128 := hn
  exact setupProcess_spec mem hv hn (by omega)

end Kernel

end FrogOS
