import FrogOS.Process
import FrogOS.Lib.ExchangeSort
import FrogOS.Lib.StepSystem

/-!
# The sleep queue

`sleep_process` appends the calling process to `sleep_queue` and sorts the ring by remaining time,
unless a first loop finds that this is not necessary. That loop looks for an entry with less time
left than the new one. The entries that are in the way of the new one are those with *more* time
left, so the loop gives the wrong answer whenever the new entry belongs in front of all others.

## Main definitions

* `Kernel.sleepProcess` — `sleep_process`, its loops being `scanSorted`, `sortInner`
  and `sortOuter`
* `Kernel.SleepQueued` — what is expected of a call
* `Kernel.Insertable` — when a call meets it

## Main results

* `Kernel.sortOuter_spec`, `sortOuter_sorts` — the two nested loops are an exchange sort of the
  segment
* `Kernel.sleepQueue_along_iff` — a sequence of calls keeps the queue sorted exactly when every call
  is `Insertable`
-/

namespace FrogOS

open StepSystem

namespace Kernel

section loops

variable (table : ℕ → Process)

/-- The first loop, from `i` on: the value it leaves in `sorted`. -/
def scanSorted (pid : ℕ) (r : RingBuffer ℕ maxProcesses) (i : Fin maxProcesses) : Bool :=
  if h : i = r.tail then true
  else if (table (r.slots i)).timeRemaining < (table pid).timeRemaining then false
  else scanSorted pid r (i + 1)
termination_by (r.tail - i).val
decreasing_by rw [RingBuffer.val_sub_eq_succ h]; exact Nat.lt_succ_self _

/-- The body of the inner loop. -/
def compareExchange (r : RingBuffer ℕ maxProcesses) (i j : Fin maxProcesses) :
    RingBuffer ℕ maxProcesses :=
  if (table (r.slots i)).timeRemaining > (table (r.slots j)).timeRemaining then
    { r with slots := Function.update (Function.update r.slots i (r.slots j)) j (r.slots i) }
  else r

@[simp] theorem compareExchange_head (r : RingBuffer ℕ maxProcesses) (i j : Fin maxProcesses) :
    (compareExchange table r i j).head = r.head := by
  rw [compareExchange]
  split <;> rfl

@[simp] theorem compareExchange_tail (r : RingBuffer ℕ maxProcesses) (i j : Fin maxProcesses) :
    (compareExchange table r i j).tail = r.tail := by
  rw [compareExchange]
  split <;> rfl

/-- The inner loop, from `j` on. -/
def sortInner (i : Fin maxProcesses) (r : RingBuffer ℕ maxProcesses) (j : Fin maxProcesses) :
    RingBuffer ℕ maxProcesses :=
  if h : j = r.tail then r else sortInner i (compareExchange table r i j) (j + 1)
termination_by (r.tail - j).val
decreasing_by
  rw [compareExchange_tail, RingBuffer.val_sub_eq_succ h]
  exact Nat.lt_succ_self _

theorem sortInner_frame (i : Fin maxProcesses) (r : RingBuffer ℕ maxProcesses)
    (j : Fin maxProcesses) :
    (sortInner table i r j).head = r.head ∧ (sortInner table i r j).tail = r.tail := by
  induction r, j using sortInner.induct table i with
  | case1 r => rw [sortInner, dif_pos rfl]; exact ⟨rfl, rfl⟩
  | case2 r j h ih =>
    rw [sortInner, dif_neg h]
    rwa [compareExchange_head, compareExchange_tail] at ih

/-- The outer loop, from `i` on. -/
def sortOuter (r : RingBuffer ℕ maxProcesses) (i : Fin maxProcesses) : RingBuffer ℕ maxProcesses :=
  if h : i = r.tail then r else sortOuter (sortInner table i r i) (i + 1)
termination_by (r.tail - i).val
decreasing_by
  rw [(sortInner_frame table i r i).2, RingBuffer.val_sub_eq_succ h]
  exact Nat.lt_succ_self _

/-- The loops of `sleep_process`: the nested ones run only if the first one asks for it. -/
def sortSleepQueue (pid : ℕ) (r : RingBuffer ℕ maxProcesses) : RingBuffer ℕ maxProcesses :=
  if scanSorted table pid r r.head = true then r else sortOuter table r r.head

end loops

variable {M : Type}

/-- `sleep_process`. With no current process it stores to `process_table[-1]`. -/
def sleepProcess (k : Kernel M) (time : BitVec 32) : Option (Kernel M) :=
  k.currentPid.map fun pid =>
    let k := k.updateProcess pid fun p => { p with timeRemaining := time }
    let k := k.updateProcess pid fun p => { p with state := .sleeping }
    let k := { k with sleepQueue := k.sleepQueue.push pid }
    { k with sleepQueue := sortSleepQueue k.processTable pid k.sleepQueue }

/-! ### The loops on the segment as a list -/

section loops

variable {table : ℕ → Process} {r : RingBuffer ℕ maxProcesses} {i j : Fin maxProcesses}

/-- The part of the segment from `i` on. -/
abbrev segment (r : RingBuffer ℕ maxProcesses) (i : Fin maxProcesses) : List ℕ :=
  RingBuffer.toList { r with head := i }

/-- What the queue is sorted by. -/
def sleepKey (table : ℕ → Process) (pid : ℕ) : ℕ := (table pid).timeRemaining.toNat

theorem segment_tail (r : RingBuffer ℕ maxProcesses) : segment r r.tail = [] :=
  RingBuffer.toList_eq_nil_iff.mpr rfl

theorem segment_cons (h : i ≠ r.tail) : segment r i = r.slots i :: segment r (i + 1) :=
  RingBuffer.toList_eq_cons (r := { r with head := i }) h

theorem scanSorted_iff (pid : ℕ) : scanSorted table pid r i = true ↔
    ∀ q ∈ segment r i, ¬ sleepKey table q < sleepKey table pid := by
  induction i using scanSorted.induct table pid r with
  | case1 => rw [scanSorted, dif_pos rfl, segment_tail]; simp
  | case2 i h hlt =>
    rw [scanSorted, dif_neg h, if_pos hlt, segment_cons h]
    exact iff_of_false Bool.false_ne_true fun hall =>
      hall _ List.mem_cons_self (BitVec.lt_def.mp hlt)
  | case3 i h hlt ih =>
    rw [scanSorted, dif_neg h, if_neg hlt, segment_cons h, List.forall_mem_cons, ih]
    exact (and_iff_right fun hkey => hlt (BitVec.lt_def.mpr hkey)).symm

theorem compareExchange_of_lt (h : sleepKey table (r.slots j) < sleepKey table (r.slots i)) :
    (compareExchange table r i j).slots
      = Function.update (Function.update r.slots i (r.slots j)) j (r.slots i) := by
  rw [compareExchange, if_pos (BitVec.lt_def.mpr h)]

theorem compareExchange_of_not_lt (h : ¬ sleepKey table (r.slots j) < sleepKey table (r.slots i)) :
    compareExchange table r i j = r := by
  rw [compareExchange, if_neg fun hgt => h (BitVec.lt_def.mp hgt)]

/-- Only the two slots that are compared can change. -/
theorem compareExchange_of_ne {p : Fin maxProcesses} (hi : p ≠ i) (hj : p ≠ j) :
    (compareExchange table r i j).slots p = r.slots p := by
  by_cases h : sleepKey table (r.slots j) < sleepKey table (r.slots i)
  · rw [compareExchange_of_lt h, Function.update_of_ne hj, Function.update_of_ne hi]
  · rw [compareExchange_of_not_lt h]

theorem compareExchange_self : compareExchange table r i i = r :=
  compareExchange_of_not_lt (lt_irrefl _)

/-- A round of the inner loop bubbles the smallest entry into slot `i`. -/
theorem sortInner_spec (table : ℕ → Process) (hi : ¬ RingBuffer.Within r.tail j i) :
    (sortInner table i r j).slots i
        = (ExchangeSort.bubble (sleepKey table) (r.slots i) (segment r j)).1 ∧
      segment (sortInner table i r j) j
        = (ExchangeSort.bubble (sleepKey table) (r.slots i) (segment r j)).2 ∧
      ∀ p, p ≠ i → ¬ RingBuffer.Within r.tail j p →
        (sortInner table i r j).slots p = r.slots p := by
  induction r, j using sortInner.induct table i with
  | case1 r =>
    rw [sortInner, dif_pos rfl, segment_tail]
    exact ⟨rfl, rfl, fun _ _ _ => rfl⟩
  | case2 r j h ih =>
    rw [RingBuffer.within_iff h, not_or] at hi
    obtain ⟨hij, hi⟩ := hi
    obtain ⟨hslot, hseg, hframe⟩ := ih (by rwa [compareExchange_tail])
    rw [compareExchange_tail] at hframe
    -- the rest of the segment has neither slot in it
    have hrest : segment (compareExchange table r i j) (j + 1) = segment r (j + 1) := by
      refine RingBuffer.toList_congr rfl (compareExchange_tail table r i j) fun p hp => ?_
      refine compareExchange_of_ne ?_ ?_
      · rintro rfl
        exact hi hp
      · rintro rfl
        exact RingBuffer.not_within_succ r.tail _ hp
    have hj := hframe j (Ne.symm hij) (RingBuffer.not_within_succ r.tail j)
    have htail : (sortInner table i (compareExchange table r i j) (j + 1)).tail = r.tail :=
      (sortInner_frame table i _ _).2.trans (compareExchange_tail table r i j)
    have hcons : segment (sortInner table i (compareExchange table r i j) (j + 1)) j
        = _ :: segment (sortInner table i (compareExchange table r i j) (j + 1)) (j + 1) :=
      segment_cons (by rwa [htail])
    rw [hseg, hj, hrest] at hcons
    rw [hrest] at hslot
    rw [sortInner, dif_neg h, hcons, hslot, segment_cons h]
    refine ⟨?_, ?_, fun p hp hw => ?_⟩
    · by_cases hlt : sleepKey table (r.slots j) < sleepKey table (r.slots i)
      · rw [ExchangeSort.bubble_cons_of_lt hlt, compareExchange_of_lt hlt,
          Function.update_of_ne hij, Function.update_self]
      · rw [ExchangeSort.bubble_cons_of_not_lt hlt, compareExchange_of_not_lt hlt]
    · by_cases hlt : sleepKey table (r.slots j) < sleepKey table (r.slots i)
      · rw [ExchangeSort.bubble_cons_of_lt hlt, compareExchange_of_lt hlt,
          Function.update_of_ne hij, Function.update_self, Function.update_self]
      · rw [ExchangeSort.bubble_cons_of_not_lt hlt, compareExchange_of_not_lt hlt]
    · rw [RingBuffer.within_iff h, not_or] at hw
      rw [hframe p hp hw.2, compareExchange_of_ne hp hw.1]

/-- **The nested loops sort the segment**, and write nothing outside it. -/
theorem sortOuter_spec (table : ℕ → Process) :
    segment (sortOuter table r i) i = ExchangeSort.sort (sleepKey table) (segment r i) ∧
      (sortOuter table r i).head = r.head ∧ (sortOuter table r i).tail = r.tail ∧
      ∀ p, ¬ RingBuffer.Within r.tail i p → (sortOuter table r i).slots p = r.slots p := by
  induction r, i using sortOuter.induct table with
  | case1 r =>
    rw [sortOuter, dif_pos rfl, segment_tail, ExchangeSort.sort_nil]
    exact ⟨rfl, rfl, rfl, fun _ _ => rfl⟩
  | case2 r i h ih =>
    -- the first comparison of a round is that of the slot with itself
    have hself : sortInner table i r i = sortInner table i r (i + 1) := by
      rw [sortInner, dif_neg h, compareExchange_self]
    obtain ⟨hhead, htail⟩ := sortInner_frame table i r (i + 1)
    obtain ⟨hslot, hseg, hframe⟩ :=
      sortInner_spec table (RingBuffer.not_within_succ r.tail i)
    rw [sortOuter, dif_neg h]
    rw [hself] at ih ⊢
    obtain ⟨ihseg, ihhead, ihtail, ihframe⟩ := ih
    rw [htail] at ihframe
    have hi := ihframe i (RingBuffer.not_within_succ r.tail i)
    have hcons : segment (sortOuter table (sortInner table i r (i + 1)) (i + 1)) i
        = _ :: segment (sortOuter table (sortInner table i r (i + 1)) (i + 1)) (i + 1) :=
      segment_cons (by rwa [ihtail, htail])
    refine ⟨?_, ihhead.trans hhead, ihtail.trans htail, fun p hp => ?_⟩
    · rw [hcons, ihseg, hi, hslot, hseg, segment_cons h, ExchangeSort.sort_cons]
    · rw [RingBuffer.within_iff h, not_or] at hp
      rw [ihframe p hp.2, hframe p hp.1 hp.2]

/-- Both indices advance along the segment only, so the loops end. -/
theorem sortOuter_sorts (table : ℕ → Process) (r : RingBuffer ℕ maxProcesses) :
    (sortOuter table r r.head).head = r.head ∧ (sortOuter table r r.head).tail = r.tail ∧
      (∀ p, ¬ RingBuffer.Within r.tail r.head p →
        (sortOuter table r r.head).slots p = r.slots p) ∧
      (sortOuter table r r.head).toList.Perm r.toList ∧
      (sortOuter table r r.head).toList.Pairwise fun p q =>
        (table p).timeRemaining ≤ (table q).timeRemaining := by
  obtain ⟨hseg, hhead, htail, hframe⟩ := sortOuter_spec table (r := r) (i := r.head)
  have hlist : (sortOuter table r r.head).toList = ExchangeSort.sort (sleepKey table) r.toList :=
    (congrArg (segment _) hhead).trans hseg
  refine ⟨hhead, htail, hframe, ?_, ?_⟩
  · rw [hlist]
    exact ExchangeSort.sort_perm _ _
  · rw [hlist]
    exact (ExchangeSort.sort_pairwise (sleepKey table) r.toList).imp BitVec.le_def.mpr

end loops

/-! ### A call -/

variable {k k' : Kernel M} {c : ℕ} {time : BitVec 32}

/-- The queue is in ascending order of the remaining times. -/
def SleepQueueSorted (k : Kernel M) : Prop :=
  k.sleepQueue.toList.Pairwise fun p q => sleepKey k.processTable p ≤ sleepKey k.processTable q

/-- Process `c` has been put for `time` ticks into the sleep queue that held `queue` before. -/
structure SleepQueued (queue : List ℕ) (k' : Kernel M) (c : ℕ) (time : BitVec 32) : Prop where
  sorted : k'.SleepQueueSorted
  perm : k'.sleepQueue.toList.Perm (queue ++ [c])
  timeRemaining : (k'.processTable c).timeRemaining = time
  state : (k'.processTable c).state = .sleeping

/-- Some process in the queue has less time left than the new one, or none has more. -/
def Insertable (k : Kernel M) (time : BitVec 32) : Prop :=
  (∃ q ∈ k.sleepQueue.toList, (k.processTable q).timeRemaining < time) ∨
    ∀ q ∈ k.sleepQueue.toList, (k.processTable q).timeRemaining ≤ time

/-- The process table after the two assignments. -/
def sleepTable (k : Kernel M) (c : ℕ) (time : BitVec 32) : ℕ → Process :=
  Function.update k.processTable c
    { k.processTable c with timeRemaining := time, state := .sleeping }

theorem sleepProcess_eq (time : BitVec 32) (hcur : k.currentPid = some c) :
    k.sleepProcess time = some { k with
      processTable := k.sleepTable c time
      sleepQueue := sortSleepQueue (k.sleepTable c time) c (k.sleepQueue.push c) } := by
  rw [sleepProcess, hcur, Option.map_some]
  simp only [updateProcess, Function.update_self, Function.update_idem, sleepTable, hcur]

/-- The effect of a call in a ring with room: the first loop decides about the sort. -/
theorem sleepProcess_spec (time : BitVec 32) (hcur : k.currentPid = some c)
    (hroom : ¬ k.sleepQueue.Full) (hc : c ∉ k.sleepQueue.toList) :
    ∃ k', k.sleepProcess time = some k' ∧
      (k'.processTable c).timeRemaining = time ∧ (k'.processTable c).state = .sleeping ∧
      (∀ q, q ≠ c → k'.processTable q = k.processTable q) ∧
      k'.sleepQueue.toList =
        if ∀ q ∈ k.sleepQueue.toList, ¬ (k.processTable q).timeRemaining < time then
          k.sleepQueue.toList ++ [c]
        else ExchangeSort.sort (sleepKey k'.processTable) (k.sleepQueue.toList ++ [c]) := by
  have heq := sleepProcess_eq time hcur
  have hself : (k.sleepTable c time c).timeRemaining = time ∧
      (k.sleepTable c time c).state = .sleeping := by
    rw [sleepTable, Function.update_self]
    exact ⟨rfl, rfl⟩
  have hne : ∀ q, q ≠ c → k.sleepTable c time q = k.processTable q := fun q hq => by
    rw [sleepTable, Function.update_of_ne hq]
  generalize k.sleepTable c time = table at heq hself hne
  have hpush := RingBuffer.toList_push (a := c) hroom
  have hscan : scanSorted table c (k.sleepQueue.push c) (k.sleepQueue.push c).head = true ↔
      ∀ q ∈ k.sleepQueue.toList, ¬ (k.processTable q).timeRemaining < time := by
    have hsegment : segment (k.sleepQueue.push c) (k.sleepQueue.push c).head
        = k.sleepQueue.toList ++ [c] := hpush
    rw [scanSorted_iff, hsegment, List.forall_mem_append, List.forall_mem_singleton,
      and_iff_left (lt_irrefl _)]
    refine forall₂_congr fun q hq => not_congr ?_
    rw [sleepKey, sleepKey, hself.1, hne q (ne_of_mem_of_not_mem hq hc), BitVec.lt_def]
  refine ⟨_, heq, hself.1, hself.2, hne, ?_⟩
  by_cases h : ∀ q ∈ k.sleepQueue.toList, ¬ (k.processTable q).timeRemaining < time
  · simp only [sortSleepQueue, if_pos (hscan.mpr h), if_pos h, hpush]
  · obtain ⟨hseg, hhead, -⟩ := sortOuter_spec table (r := k.sleepQueue.push c)
      (i := (k.sleepQueue.push c).head)
    simp only [sortSleepQueue, if_neg fun hs => h (hscan.mp hs), if_neg h]
    have hlist : (sortOuter table (k.sleepQueue.push c) (k.sleepQueue.push c).head).toList
        = segment _ (k.sleepQueue.push c).head := congrArg (segment _) hhead
    rw [← hpush, hlist, hseg]

/-- **What one call does**: everything that is expected of it except, in one case, the order. -/
theorem sleepQueued_iff (hs : k.SleepQueueSorted) (hcur : k.currentPid = some c)
    (hroom : ¬ k.sleepQueue.Full) (hc : c ∉ k.sleepQueue.toList)
    (h : k.sleepProcess time = some k') :
    SleepQueued k.sleepQueue.toList k' c time ↔ k.Insertable time := by
  obtain ⟨k'', heq, htime, hstate, hne, hlist⟩ := sleepProcess_spec time hcur hroom hc
  obtain rfl := Option.some.inj (h.symm.trans heq)
  have hkey : ∀ q ∈ k.sleepQueue.toList, sleepKey k'.processTable q = sleepKey k.processTable q :=
    fun q hq => by rw [sleepKey, sleepKey, hne q (ne_of_mem_of_not_mem hq hc)]
  have hold : k.sleepQueue.toList.Pairwise fun p q =>
      sleepKey k'.processTable p ≤ sleepKey k'.processTable q :=
    hs.imp_of_mem fun hp hq hle => by rwa [hkey _ hp, hkey _ hq]
  by_cases hall : ∀ q ∈ k.sleepQueue.toList, ¬ (k.processTable q).timeRemaining < time
  · -- the new process stays at the end
    rw [if_pos hall] at hlist
    have hsorted : k'.SleepQueueSorted ↔
        ∀ q ∈ k.sleepQueue.toList, (k.processTable q).timeRemaining ≤ time := by
      rw [SleepQueueSorted, hlist, List.pairwise_append]
      constructor
      · rintro ⟨-, -, hlast⟩ q hq
        have := hlast q hq c (List.mem_singleton_self c)
        rwa [hkey q hq, sleepKey, sleepKey, htime, ← BitVec.le_def] at this
      · refine fun hle => ⟨hold, List.pairwise_singleton _ c, fun q hq d hd => ?_⟩
        rw [List.mem_singleton.mp hd, hkey q hq, sleepKey, sleepKey, htime, ← BitVec.le_def]
        exact hle q hq
    constructor
    · exact fun hright => Or.inr (hsorted.mp hright.sorted)
    · rintro (⟨q, hq, hlt⟩ | hle)
      · exact absurd hlt (hall q hq)
      · exact ⟨hsorted.mpr hle, by rw [hlist], htime, hstate⟩
  · rw [if_neg hall] at hlist
    push Not at hall
    refine iff_of_true ⟨?_, ?_, htime, hstate⟩ (Or.inl hall)
    · rw [SleepQueueSorted, hlist]
      exact ExchangeSort.sort_pairwise _ _
    · rw [hlist]
      exact ExchangeSort.sort_perm _ _

/-! ### Sequences of calls -/

/-- A call of `sleep_process(time)` by process `pid`. -/
structure SleepRequest where
  pid : ℕ
  time : BitVec 32

/-- The caller is not in the queue, and the queue has room. -/
def MaySleep (k : Kernel M) (request : SleepRequest) : Prop :=
  request.pid ∉ k.sleepQueue.toList ∧ k.sleepQueue.toList.length ≤ 126

instance (k : Kernel M) (request : SleepRequest) : Decidable (k.MaySleep request) :=
  inferInstanceAs (Decidable (_ ∧ _))

/-- The caller has become the current process in between. -/
def sleepStep (k : Kernel M) (request : SleepRequest) : Option (Kernel M) :=
  if k.MaySleep request then
    { k with currentPid := some request.pid }.sleepProcess request.time
  else none

/-- A call does what is expected of it. -/
def SleepsRight (k : Kernel M) (request : SleepRequest) : Prop :=
  ∀ k', sleepStep k request = some k' →
    SleepQueued k.sleepQueue.toList k' request.pid request.time

theorem not_full_of_maySleep {request : SleepRequest} (h : k.MaySleep request) :
    ¬ k.sleepQueue.Full := by
  rw [RingBuffer.full_iff_size, ← RingBuffer.length_toList]
  exact ((Nat.succ_le_succ h.2).trans_lt (by decide : 126 + 1 < maxProcesses)).ne

theorem sleepsRight_iff (hs : k.SleepQueueSorted) (request : SleepRequest) :
    SleepsRight k request ↔ (k.MaySleep request → k.Insertable request.time) := by
  by_cases hmay : k.MaySleep request
  · have hstep : sleepStep k request
        = { k with currentPid := some request.pid }.sleepProcess request.time := if_pos hmay
    have hroom := not_full_of_maySleep hmay
    obtain ⟨k', hk', -⟩ := sleepProcess_spec (k := { k with currentPid := some request.pid })
      request.time rfl hroom hmay.1
    have hiff : SleepQueued k.sleepQueue.toList k' request.pid request.time
        ↔ k.Insertable request.time :=
      sleepQueued_iff (k := { k with currentPid := some request.pid }) hs rfl hroom hmay.1 hk'
    rw [SleepsRight, hstep, hk']
    simp only [Option.some.injEq, forall_eq', hmay, forall_const, hiff]
  · refine iff_of_true (fun k' h => ?_) fun h => absurd h hmay
    rw [sleepStep, if_neg hmay] at h
    exact absurd h.symm (Option.some_ne_none k')

theorem SleepQueueSorted.step {request : SleepRequest} (hs : k.SleepQueueSorted)
    (hins : k.MaySleep request → k.Insertable request.time) (h : sleepStep k request = some k') :
    k'.SleepQueueSorted :=
  ((sleepsRight_iff hs request).mpr hins k' h).sorted

/-- **A sequence of calls keeps the sleep queue sorted exactly when every call finds an entry with
less time left than its own, or none with more.** -/
theorem sleepQueue_along_iff (hs : k.SleepQueueSorted) (requests : List SleepRequest) :
    Along sleepStep SleepsRight k requests ↔
      Along sleepStep (fun k request => k.MaySleep request → k.Insertable request.time) k
        requests :=
  along_iff_of_safe SleepQueueSorted (fun _ _ _ hs hins h => hs.step hins h)
    (fun _ request hs => sleepsRight_iff hs request) hs

/-- The theorem at two calls that find an empty queue. -/
theorem sleepQueue_along_iff_two :
    Along sleepStep SleepsRight (Kernel.initial () Heap.initial) [⟨1, 5⟩, ⟨2, 3⟩] ↔
      Along sleepStep (fun k request => k.MaySleep request → k.Insertable request.time)
        (Kernel.initial () Heap.initial) [⟨1, 5⟩, ⟨2, 3⟩] :=
  sleepQueue_along_iff (List.Pairwise.nil : SleepQueueSorted (Kernel.initial () Heap.initial)) _

/-- A queue that holds process 1, which has 5 ticks left. -/
def oneSleeper : Kernel Unit :=
  { (Kernel.initial () Heap.initial).updateProcess 1 fun p =>
      { p with timeRemaining := 5, state := .sleeping } with
    sleepQueue := zeroQueue.push 1 }

theorem oneSleeper_toList : oneSleeper.sleepQueue.toList = [1] := by
  have hroom : ¬ (zeroQueue : RingBuffer ℕ maxProcesses).Full := by decide
  exact (RingBuffer.toList_push hroom).trans (by rfl)

/-- **A call for 3 ticks leaves its caller behind the process with 5 ticks.** -/
theorem not_sleepsRight_oneSleeper :
    oneSleeper.SleepQueueSorted ∧ oneSleeper.MaySleep ⟨2, 3⟩ ∧ ¬ SleepsRight oneSleeper ⟨2, 3⟩ := by
  have hs : oneSleeper.SleepQueueSorted := by
    rw [SleepQueueSorted, oneSleeper_toList]
    exact List.pairwise_singleton _ 1
  have hmay : oneSleeper.MaySleep ⟨2, 3⟩ := by
    rw [MaySleep, oneSleeper_toList]
    decide
  refine ⟨hs, hmay, fun hright => ?_⟩
  have hins := (sleepsRight_iff hs ⟨2, 3⟩).mp hright hmay
  rw [Insertable, oneSleeper_toList] at hins
  have h5 : (oneSleeper.processTable 1).timeRemaining = 5 := rfl
  rcases hins with ⟨q, hq, hlt⟩ | hle
  · rw [List.mem_singleton.mp hq, h5] at hlt
    exact absurd hlt (by decide)
  · have := hle 1 (List.mem_singleton_self 1)
    rw [h5] at this
    exact absurd this (by decide)

end Kernel

end FrogOS
