import FrogOS.Process
import FrogOS.Lib.StepSystem

/-!
# The run queue

`add_to_run_queue` writes at the tail, `get_next_pid` reads at the head, and `print_run_queue` walks
from the one to the other. None of them keeps a count: an empty ring and a ring with 128 pids look
the same. As long as at most 127 pids are outstanding the three agree on a first-in first-out queue.

What is outstanding is not read off the ring. The calls are accompanied by the list of pids they
have added and the list of pids they have returned, and the outstanding pids are the added ones
after as many as have been returned.

## Main definitions

* `Kernel.printRunQueue` — `print_run_queue`, as the calls of `printf` it makes
* `RunQueueHistory` — the kernel with the pids added and returned so far
* `RunQueueHistory.IsFifo` — the three functions agree on a queue

## Main results

* `RunQueueHistory.isFifo_of_run` — the law after every sequence of calls
-/

namespace FrogOS

open StepSystem

/-- A call of `printf` with integer arguments. -/
structure Printf where
  format : String
  args : List ℕ
  deriving DecidableEq

namespace Kernel

variable {M : Type}

/-- The loop of `print_run_queue`, from `i` on: the pids it prints. -/
def printLoop (r : RingBuffer ℕ maxProcesses) (i : Fin maxProcesses) : List ℕ :=
  if h : i = r.tail then [] else r.slots i :: printLoop r (i + 1)
termination_by (r.tail - i).val
decreasing_by rw [RingBuffer.val_sub_eq_succ h]; exact Nat.lt_succ_self _

/-- `print_run_queue`. -/
def printRunQueue (k : Kernel M) : List Printf :=
  ⟨"Run queue: ", []⟩ ::
    (printLoop k.runQueue k.runQueue.head).map (fun pid => ⟨"%d ", [pid]⟩) ++ [⟨"\n", []⟩]

/-- The loop walks the segment. -/
theorem printLoop_eq_toList (r : RingBuffer ℕ maxProcesses) (i : Fin maxProcesses) :
    printLoop r i = RingBuffer.toList { r with head := i } := by
  induction i using printLoop.induct r with
  | case1 =>
    rw [printLoop, dif_pos rfl]
    exact (RingBuffer.toList_eq_nil_iff.mpr rfl).symm
  | case2 i h ih =>
    rw [printLoop, dif_neg h, ih]
    exact (RingBuffer.toList_eq_cons (r := { r with head := i }) h).symm

end Kernel

/-- The two functions that change the run queue. -/
inductive RunQueueCall
  | addToRunQueue (pid : ℕ)
  | getNextPid
  deriving DecidableEq

/-- A kernel with what the calls so far have added to its run queue, and what they have returned
from it, both in order. A returned `0` is not a pid. -/
structure RunQueueHistory (M : Type) where
  kernel : Kernel M
  added : List ℕ
  returned : List ℕ

namespace RunQueueHistory

variable {M : Type}

/-- The pids that have been added and not returned, for calls that return them in order. -/
def outstanding (s : RunQueueHistory M) : List ℕ := s.added.drop s.returned.length

/-- A call of one of the two functions. A pid that is added lies between `0` and `128`, and fewer
than 127 are outstanding before it. -/
def step (s : RunQueueHistory M) : RunQueueCall → Option (RunQueueHistory M)
  | .addToRunQueue pid =>
    if 0 < pid ∧ pid < maxProcesses ∧ s.outstanding.length < 127 then
      some { s with kernel := s.kernel.addToRunQueue pid, added := s.added ++ [pid] }
    else none
  | .getNextPid =>
    some { s with
      kernel := s.kernel.getNextPid.2
      returned := s.returned ++ [s.kernel.getNextPid.1].filter (· ≠ 0) }

/-- The run queue is a first-in first-out queue: what has been returned is the beginning of what has
been added, `get_next_pid` returns the oldest outstanding pid, or `0` without a change if there is
none, and `print_run_queue` prints the outstanding pids in the order they will be returned. -/
structure IsFifo (s : RunQueueHistory M) : Prop where
  returned_append : s.returned ++ s.outstanding = s.added
  getNextPid_eq_zero : s.kernel.getNextPid.1 = 0 ↔ s.outstanding = []
  getNextPid_of_nil : s.outstanding = [] → s.kernel.getNextPid.2 = s.kernel
  getNextPid_of_cons : ∀ pid pids, s.outstanding = pid :: pids → s.kernel.getNextPid.1 = pid
  printRunQueue_eq : s.kernel.printRunQueue =
    ⟨"Run queue: ", []⟩ :: s.outstanding.map (fun pid => ⟨"%d ", [pid]⟩) ++ [⟨"\n", []⟩]

/-- The ring holds what is outstanding. -/
structure Holds (s : RunQueueHistory M) : Prop where
  added_eq : s.added = s.returned ++ s.kernel.runQueue.toList
  pos : ∀ pid ∈ s.kernel.runQueue.toList, 0 < pid

variable {s t : RunQueueHistory M}

theorem Holds.outstanding_eq (h : s.Holds) : s.outstanding = s.kernel.runQueue.toList := by
  rw [outstanding, h.added_eq, List.drop_left]

theorem not_full_of_outstanding (h : s.Holds) (hlt : s.outstanding.length < 127) :
    ¬ s.kernel.runQueue.Full := by
  rw [h.outstanding_eq, RingBuffer.length_toList] at hlt
  rw [RingBuffer.full_iff_size]
  exact (Nat.succ_lt_succ hlt).ne

theorem Holds.addToRunQueue (h : s.Holds) {pid : ℕ} (hpos : 0 < pid)
    (hlt : s.outstanding.length < 127) :
    Holds { s with kernel := s.kernel.addToRunQueue pid, added := s.added ++ [pid] } := by
  have hpush : (s.kernel.addToRunQueue pid).runQueue.toList
      = s.kernel.runQueue.toList ++ [pid] := by
    rw [Kernel.addToRunQueue_runQueue, RingBuffer.toList_push (not_full_of_outstanding h hlt)]
  constructor
  · rw [hpush, h.added_eq, List.append_assoc]
  · rw [hpush, List.forall_mem_append, List.forall_mem_singleton]
    exact ⟨h.pos, hpos⟩

theorem Holds.getNextPid (h : s.Holds) :
    Holds { s with
      kernel := s.kernel.getNextPid.2
      returned := s.returned ++ [s.kernel.getNextPid.1].filter (· ≠ 0) } := by
  rcases eq_or_ne s.kernel.runQueue.head s.kernel.runQueue.tail with hempty | hne
  · rw [Kernel.getNextPid_of_empty hempty]
    constructor
    · rw [h.added_eq]
      simp
    · exact h.pos
  · have hcons := RingBuffer.toList_eq_cons hne
    have hfront : 0 < s.kernel.runQueue.front := h.pos _ (hcons ▸ List.mem_cons_self)
    rw [Kernel.getNextPid_of_ne hne]
    constructor
    · have hadvance : s.kernel.advanceRunQueueHead.runQueue = s.kernel.runQueue.advanceHead := rfl
      simp only [hadvance]
      rw [h.added_eq, hcons, List.filter_cons_of_pos (by simpa using hfront.ne'), List.filter_nil,
        List.append_assoc, List.singleton_append]
    · exact fun pid hpid => h.pos pid (hcons ▸ List.mem_cons_of_mem _ hpid)

theorem Holds.step {call : RunQueueCall} (h : s.Holds)
    (hstep : RunQueueHistory.step s call = some t) : t.Holds := by
  cases call with
  | addToRunQueue pid =>
    simp only [RunQueueHistory.step, Option.ite_none_right_eq_some] at hstep
    obtain ⟨⟨hpos, -, hlt⟩, hstep⟩ := hstep
    exact Option.some.inj hstep ▸ h.addToRunQueue hpos hlt
  | getNextPid => exact Option.some.inj hstep ▸ h.getNextPid

theorem Holds.isFifo (h : s.Holds) : s.IsFifo := by
  have heq := h.outstanding_eq
  have hzero : s.kernel.getNextPid.1 = 0 ↔ s.outstanding = [] := by
    rw [heq, RingBuffer.toList_eq_nil_iff]
    constructor
    · intro h0
      by_contra hne
      rw [Kernel.getNextPid_of_ne hne] at h0
      exact (h.pos _ (RingBuffer.toList_eq_cons hne ▸ List.mem_cons_self)).ne' h0
    · intro hempty
      rw [Kernel.getNextPid_of_empty hempty]
  refine ⟨by rw [heq, h.added_eq], hzero, fun hnil => ?_, fun pid pids hcons => ?_, ?_⟩
  · rw [heq, RingBuffer.toList_eq_nil_iff] at hnil
    rw [Kernel.getNextPid_of_empty hnil]
  · have hne : s.kernel.runQueue.head ≠ s.kernel.runQueue.tail := fun hempty => by
      rw [heq, RingBuffer.toList_eq_nil_iff.mpr hempty] at hcons
      exact List.cons_ne_nil _ _ hcons.symm
    rw [heq, RingBuffer.toList_eq_cons hne] at hcons
    rw [Kernel.getNextPid_of_ne hne]
    exact (List.cons.inj hcons).1
  · rw [Kernel.printRunQueue, Kernel.printLoop_eq_toList, heq]

/-- **The run ring is a queue**, from any position of its indices and with any contents of its
slots, after every sequence of calls. -/
theorem isFifo_of_run (k : Kernel M) (hempty : k.runQueue.head = k.runQueue.tail)
    (calls : List RunQueueCall) {s : RunQueueHistory M}
    (hrun : run RunQueueHistory.step ⟨k, [], []⟩ calls = some s) : s.IsFifo := by
  have hnil : k.runQueue.toList = [] := RingBuffer.toList_eq_nil_iff.mpr hempty
  have h₀ : Holds (⟨k, [], []⟩ : RunQueueHistory M) := by
    constructor
    · rw [hnil, List.append_nil]
    · rw [hnil]
      exact fun pid hpid => absurd hpid List.not_mem_nil
  exact (invariant_of_run Holds (fun _ _ _ h hstep => h.step hstep) h₀ hrun).isFifo

/-- The theorem at a ring whose first insertion wraps around. -/
theorem isFifo_of_run_wrapped : ∃ s : RunQueueHistory Unit,
    run RunQueueHistory.step
      ⟨{ Kernel.initial () Heap.initial with runQueue := ⟨fun _ => 9, 127, 127⟩ }, [], []⟩
      [.addToRunQueue 3, .addToRunQueue 3, .getNextPid] = some s ∧ s.IsFifo :=
  ⟨_, rfl, isFifo_of_run _ rfl [.addToRunQueue 3, .addToRunQueue 3, .getNextPid] rfl⟩

end RunQueueHistory

end FrogOS
