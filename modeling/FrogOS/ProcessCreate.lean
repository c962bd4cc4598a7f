import FrogOS.ProcessContext

/-!
# Creating processes

`process_create` takes the next pid out of `free_queue`, fills a table entry, allocates a context
and a stack, and appends the pid to the run queue. It checks nothing on the way: neither that a
free slot is left, nor that the two allocations succeeded, nor that the run queue has room.

## What is proved

`CreateState.run` is any history of the kernel's globals from the initialisation of `free_queue`
on, in which calls of `process_create` alternate with everything else that touches the same
globals: other callers of `malloc`, the removal of `init` from the run queue, timer ticks and
voluntary requeues. `CreateInv` is what all of them keep: slot `i` of `free_queue` holds `i`, its
head counts the calls, and every context is either null or lies in the allocated part of the heap.

From it, one call is harmless exactly when the three unchecked conditions hold
(`processCreate_safe_iff`). The success path alone is `processCreate_of_room`, which
`FrogOS.SetupProcess` goes on from.

## Main definitions

* `CreateState`, `CreateOp`, `CreateInv` — histories and their invariant
* `CreateSafe` — a call either succeeds without touching older processes or changes nothing

## Main results

* `processCreate_of_room`, `processCreate_safe_iff`
-/

namespace FrogOS

open ContextMemory

namespace Kernel

variable {M F : Type} [ContextMemory M F]

/-! ### One call -/

/-- The address the context of the next process gets, and the allocator after that. -/
def contextBlock (k : Kernel M) : BitVec 64 × Heap := malloc k.heap sizeofContext

/-- The address its stack gets, and the allocator after that. -/
def stackBlock (k : Kernel M) : BitVec 64 × Heap := malloc k.contextBlock.2 4096

/-- The context it is given. -/
def nextInit (k : Kernel M) (entryPoint : BitVec 64) (kernelTask : Bool) : ContextInit :=
  ⟨entryPoint, kernelTask, k.stackBlock.1 + 4096, k.freeQueue.front⟩

/-- All effects of `process_create` at once. -/
theorem processCreate_eq (k : Kernel M) (entryPoint : BitVec 64) (kernelTask : Bool) :
    k.processCreate entryPoint kernelTask =
      ({ k with
          freeQueue := k.freeQueue.advanceHead
          processTable := Function.update k.processTable k.freeQueue.front
            { k.processTable k.freeQueue.front with
              pid := k.freeQueue.front, state := .ready, context := k.contextBlock.1 }
          runQueue := k.runQueue.push k.freeQueue.front
          heap := k.stackBlock.2
          mem := create k.mem k.contextBlock.1 (k.nextInit entryPoint kernelTask) },
        k.freeQueue.front) := by
  simp only [processCreate, updateProcess, addToRunQueue, storeRunQueue, advanceRunQueueTail,
    Function.update_idem, Function.update_self, RingBuffer.push]
  rfl

theorem roundUp_sizeofContext : roundUp sizeofContext.toNat = 208 := by decide

theorem roundUp_stack : roundUp (4096 : BitVec 64).toNat = 4096 := by decide

/-- A request that fits is served. -/
theorem malloc_of_fits {h : Heap} (size : BitVec 64) {n : ℕ} (hv : h.Valid) (h0 : size ≠ 0)
    (hn : size.toNat ≤ 2 ^ 64 - 8) (hround : roundUp size.toNat = n)
    (hfit : n ≤ h.heapSize.toNat) : Reserves h n (malloc h size).1 (malloc h size).2 := by
  subst hround
  rcases malloc_of_le size hv hn with ⟨hrefuse, -⟩ | ⟨-, -, hr⟩
  · rcases hrefuse with h0' | hlt
    · exact absurd h0' h0
    · omega
  · exact hr

/-- The two blocks of a call that finds room for both. -/
theorem blocks_of_room {k : Kernel M} (hv : k.heap.Valid) (hroom : 4304 ≤ k.heap.heapSize.toNat) :
    k.contextBlock.1 = k.heap.heap ∧ k.stackBlock.1.toNat = k.heap.heap.toNat + 208 ∧
      k.stackBlock.2.Valid ∧ k.stackBlock.2.heap.toNat = k.heap.heap.toNat + 4304 ∧
      k.stackBlock.2.heapSize.toNat + 4304 = k.heap.heapSize.toNat := by
  have hc : Reserves k.heap 208 k.contextBlock.1 k.contextBlock.2 :=
    malloc_of_fits _ hv (by decide) (by decide) roundUp_sizeofContext (by omega)
  have hvc : k.contextBlock.2.Valid := hc.valid hv (by decide)
  have hs : Reserves k.contextBlock.2 4096 k.stackBlock.1 k.stackBlock.2 :=
    malloc_of_fits _ hvc (by decide) (by decide) roundUp_stack (by
      have := hc.heapSize
      omega)
  have h₁ := hc.heap
  have h₂ := hc.heapSize
  have h₃ := hs.heap
  have h₄ := hs.heapSize
  exact ⟨hc.result, by rw [hs.result, h₁], hs.valid hvc (by decide), by omega, by omega⟩

/-- **The success path.** With room on the heap, the context is the next block, the stack follows
it, and the allocator has moved by both. -/
theorem processCreate_of_room {k : Kernel M} (entryPoint : BitVec 64) (kernelTask : Bool)
    (hv : k.heap.Valid) (hroom : 4304 ≤ k.heap.heapSize.toNat) :
    ∃ heap : Heap, heap.Valid ∧ heap.heap.toNat = k.heap.heap.toNat + 4304 ∧
      heap.heapSize.toNat + 4304 = k.heap.heapSize.toNat ∧
      k.processCreate entryPoint kernelTask =
        ({ k with
            freeQueue := k.freeQueue.advanceHead
            processTable := Function.update k.processTable k.freeQueue.front
              { k.processTable k.freeQueue.front with
                pid := k.freeQueue.front, state := .ready, context := k.heap.heap }
            runQueue := k.runQueue.push k.freeQueue.front
            heap := heap
            mem := create k.mem k.heap.heap (k.nextInit entryPoint kernelTask) },
          k.freeQueue.front) := by
  obtain ⟨hc, -, hv', hh, hs⟩ := blocks_of_room hv hroom
  exact ⟨k.stackBlock.2, hv', hh, hs, by rw [processCreate_eq, hc]⟩

/-! ### What the scheduler leaves alone -/

/-- The globals only `process_create` and `malloc` write: the allocator, the free pids, and the
context pointers of the table. -/
def layout (k : Kernel M) : Heap × RingBuffer ℕ maxProcesses × (ℕ → BitVec 64) :=
  (k.heap, k.freeQueue, fun q => (k.processTable q).context)

omit [ContextMemory M F] in
theorem layout_updateProcess (k : Kernel M) (pid : ℕ) {f : Process → Process}
    (hf : ∀ p, (f p).context = p.context) : (k.updateProcess pid f).layout = k.layout := by
  have : (fun q => ((k.updateProcess pid f).processTable q).context)
      = fun q => (k.processTable q).context := funext fun q => updateProcess_field k pid f hf q
  rw [layout, this, updateProcess_heap, updateProcess_freeQueue, layout]

omit [ContextMemory M F] in
@[simp] theorem layout_setReady (k : Kernel M) (pid : ℕ) : (k.setReady pid).layout = k.layout :=
  layout_updateProcess k pid fun _ => rfl

omit [ContextMemory M F] in
@[simp] theorem layout_countTick (k : Kernel M) (pid : ℕ) : (k.countTick pid).layout = k.layout :=
  layout_updateProcess k pid fun _ => rfl

omit [ContextMemory M F] in
@[simp] theorem layout_chargeQuantum (k : Kernel M) (pid : ℕ) :
    (k.chargeQuantum pid).layout = k.layout :=
  layout_updateProcess k pid fun _ => rfl

omit [ContextMemory M F] in
@[simp] theorem layout_addToRunQueue (k : Kernel M) (pid : ℕ) :
    (k.addToRunQueue pid).layout = k.layout := rfl

@[simp] theorem layout_startProcess (k : Kernel M) (pid : ℕ) (context : F) :
    (k.startProcess pid context).1.layout = k.layout := by
  have hheap : (k.startProcess pid context).1.heap = k.heap := by
    unfold startProcess; split <;> rfl
  have hfree : (k.startProcess pid context).1.freeQueue = k.freeQueue := by
    unfold startProcess; split <;> rfl
  have hctx : (fun q => ((k.startProcess pid context).1.processTable q).context)
      = fun q => (k.processTable q).context := by
    funext q
    rw [startProcess_processTable]
    by_cases h : q = pid
    · subst h; rw [Function.update_self]
    · rw [Function.update_of_ne h]
  rw [layout, hheap, hfree, hctx, layout]

@[simp] theorem layout_dispatch (k : Kernel M) (context : F) :
    (k.dispatch context).1.layout = k.layout := by
  rw [dispatch, layout_startProcess, getNextPid]
  split <;> rfl

theorem layout_scheduleProcess (k : Kernel M) (context : F) :
    (k.scheduleProcess context).1.layout = k.layout := by
  have h := k.scheduleProcess_tick context
  generalize k.scheduleProcess context = r at h
  cases h <;> simp

@[simp] theorem layout_pitHandler (k : Kernel M) (context : F) :
    (k.pitHandler context).1.layout = k.layout :=
  layout_scheduleProcess _ context

end Kernel

/-! ### Histories -/

open Kernel ProcessContext

/-- The kernel, and the pids `process_create` has returned, oldest first. -/
structure CreateState where
  kernel : Kernel ByteMemory
  created : List ℕ

/-- What happens to the globals `process_create` works on. -/
inductive CreateOp
  | create (entryPoint : BitVec 64) (kernelTask : Bool)
  /-- Another caller of the allocator. -/
  | malloc (size : BitVec 64)
  /-- `setup_process` takes `init` out of the run queue. -/
  | advanceHead
  /-- A timer tick that interrupts the given frame. -/
  | tick (context : ProcessContext)
  /-- The running process gives up the processor. -/
  | requeue

namespace CreateState

/-- The state in which `setup_process` has initialised `free_queue`. -/
def initial (mem : ByteMemory) : CreateState :=
  ⟨(Kernel.initial mem Heap.initial).fillFreeQueue, []⟩

def step (s : CreateState) : CreateOp → CreateState
  | .create entryPoint kernelTask =>
    let r := s.kernel.processCreate entryPoint kernelTask
    ⟨r.1, s.created ++ [r.2]⟩
  | .malloc size =>
    { s with kernel := { s.kernel with heap := (FrogOS.malloc s.kernel.heap size).2 } }
  | .advanceHead => { s with kernel := s.kernel.advanceRunQueueHead }
  | .tick context => { s with kernel := (s.kernel.pitHandler context).1 }
  | .requeue => match s.kernel.currentPid with
    | none => s
    | some c => { s with kernel := (s.kernel.setReady c).addToRunQueue c }

def run (s : CreateState) (ops : List CreateOp) : CreateState := ops.foldl step s

end CreateState

/-- `process_create` has succeeded: a new pid with a context and a stack of its own, at the end of
the run queue, every older process being as it was. -/
structure CreateSucceeds (s : CreateState) (r : Kernel ByteMemory × ℕ) : Prop where
  fresh : r.2 ∉ s.created
  context : (r.1.processTable r.2).context ≠ 0
  /-- The saved stack pointer is the end of a non-null block of 4096 bytes, reserved here. -/
  stack : ∃ stack : BitVec 64, stack ≠ 0 ∧
    (readContext r.1.mem (r.1.processTable r.2).context).rsp = stack + 4096 ∧
    s.kernel.heap.heap.toNat ≤ stack.toNat ∧ stack.toNat + 4096 ≤ r.1.heap.heap.toNat
  queued : r.1.runQueue.toList = s.kernel.runQueue.toList ++ [r.2]
  entries : ∀ q ∈ s.created, r.1.processTable q = s.kernel.processTable q
  contexts : ∀ q ∈ s.created,
    readContext r.1.mem (r.1.processTable q).context
      = readContext s.kernel.mem (s.kernel.processTable q).context

/-- `process_create` has failed and left the processes alone. -/
structure CreateFails (s : CreateState) (r : Kernel ByteMemory × ℕ) : Prop where
  table : r.1.processTable = s.kernel.processTable
  queue : r.1.runQueue = s.kernel.runQueue
  contexts : ∀ q ∈ s.created,
    readContext r.1.mem (r.1.processTable q).context
      = readContext s.kernel.mem (s.kernel.processTable q).context

/-- The call of `process_create` in this state damages no live process. -/
def CreateSafe (s : CreateState) (entryPoint : BitVec 64) (kernelTask : Bool) : Prop :=
  CreateSucceeds s (s.kernel.processCreate entryPoint kernelTask) ∨
    CreateFails s (s.kernel.processCreate entryPoint kernelTask)

/-- What every history keeps. -/
structure CreateInv (s : CreateState) : Prop where
  heap : s.kernel.heap.Valid
  slots : ∀ i, s.kernel.freeQueue.slots i = i.val
  head : s.kernel.freeQueue.head = Fin.ofNat maxProcesses s.created.length
  created : s.created = (List.range s.created.length).map (· % maxProcesses)
  /-- A context pointer is null or points into the part of the heap that has been handed out. -/
  context : ∀ q, (s.kernel.processTable q).context = 0 ∨
    (0x300000 ≤ (s.kernel.processTable q).context.toNat ∧
      (s.kernel.processTable q).context.toNat + 208 ≤ s.kernel.heap.heap.toNat)

/-- The `for` loop of `setup_process` fills the free ring with all pids. -/
theorem fillFreeQueue_slots {M : Type} (k : Kernel M) (i : Fin maxProcesses) :
    k.fillFreeQueue.freeQueue.slots i = i.val := by
  have key : ∀ (l : List (Fin maxProcesses)) (f : Fin maxProcesses → ℕ), i ∈ l ∨ f i = i.val →
      l.foldl (fun slots j => Function.update slots j j.val) f i = i.val := by
    intro l
    induction l with
    | nil => intro f h; simpa using h
    | cons j l ih =>
      intro f h
      refine ih _ ?_
      by_cases hj : i = j
      · subst hj; exact Or.inr (Function.update_self ..)
      · change i ∈ l ∨ Function.update f j j.val i = i.val
        rw [Function.update_of_ne hj]
        exact h.imp_left fun hmem => (List.mem_cons.mp hmem).resolve_left hj
  exact key _ _ (Or.inl (List.mem_finRange i))

theorem createInv_initial (mem : ByteMemory) : CreateInv (CreateState.initial mem) where
  heap := Heap.valid_initial
  slots := fillFreeQueue_slots _
  head := rfl
  created := rfl
  context := fun _ => Or.inl rfl

/-- The invariant only reads the layout and the list of pids. -/
theorem CreateInv.congr {s : CreateState} {k : Kernel ByteMemory} (h : CreateInv s)
    (hk : k.layout = s.kernel.layout) : CreateInv ⟨k, s.created⟩ := by
  have hheap : k.heap = s.kernel.heap := congrArg Prod.fst hk
  have hfree : k.freeQueue = s.kernel.freeQueue := congrArg (fun l => l.2.1) hk
  have hctx : ∀ q, (k.processTable q).context = (s.kernel.processTable q).context :=
    fun q => congrFun (congrArg (fun l => l.2.2) hk) q
  exact
    { heap := hheap ▸ h.heap
      slots := hfree ▸ h.slots
      head := hfree ▸ h.head
      created := h.created
      context := fun q => by
        simpa only [hctx, hheap] using h.context q }

/-- The pid the next call returns. -/
theorem CreateInv.front {s : CreateState} (h : CreateInv s) :
    s.kernel.freeQueue.front = s.created.length % maxProcesses := by
  rw [RingBuffer.front, h.slots, h.head]
  rfl

/-- The context pointer of a call, whether or not the allocations succeed. -/
theorem contextBlock_cases {k : Kernel ByteMemory} (hv : k.heap.Valid) :
    k.stackBlock.2.Valid ∧ k.heap.heap.toNat ≤ k.stackBlock.2.heap.toNat ∧
      (k.contextBlock.1 = 0 ∨ (k.contextBlock.1 = k.heap.heap ∧
        k.heap.heap.toNat + 208 ≤ k.stackBlock.2.heap.toNat)) := by
  obtain ⟨hvc, hle⟩ := malloc_valid hv sizeofContext
  obtain ⟨hvs, hle'⟩ := malloc_valid hvc 4096
  refine ⟨hvs, hle.trans hle', ?_⟩
  rcases malloc_of_le sizeofContext hv (by decide) with ⟨-, heq⟩ | ⟨-, -, hr⟩
  · exact Or.inl (congrArg Prod.fst heq)
  · refine Or.inr ⟨hr.result, le_trans ?_ hle'⟩
    rw [hr.heap, roundUp_sizeofContext]

theorem CreateInv.create {s : CreateState} (h : CreateInv s) (entryPoint : BitVec 64)
    (kernelTask : Bool) : CreateInv (s.step (.create entryPoint kernelTask)) := by
  obtain ⟨hv, hle, hctx⟩ := contextBlock_cases h.heap
  have hstart := h.heap.start
  simp only [CreateState.step, processCreate_eq]
  refine ⟨hv, h.slots, ?_, ?_, fun q => ?_⟩
  · simp only [RingBuffer.advanceHead_head, h.head, List.length_append, List.length_singleton]
    ext
    rw [Fin.val_add, Fin.val_one', Fin.val_ofNat, Fin.val_ofNat, ← Nat.add_mod]
  · simp only [List.length_append, List.length_singleton, List.range_succ, List.map_append,
      List.map_cons, List.map_nil, h.front, ← h.created]
  · by_cases hq : q = s.kernel.freeQueue.front
    · subst hq
      simp only [Function.update_self]
      rcases hctx with h0 | ⟨heq, hend⟩
      · exact Or.inl h0
      · exact Or.inr (by rw [heq]; exact ⟨hstart, hend⟩)
    · simp only [Function.update_of_ne hq]
      exact (h.context q).imp_right fun hc => ⟨hc.1, hc.2.trans hle⟩

theorem CreateInv.step {s : CreateState} (h : CreateInv s) (op : CreateOp) :
    CreateInv (s.step op) := by
  cases op with
  | create entryPoint kernelTask => exact h.create entryPoint kernelTask
  | malloc size =>
    obtain ⟨hv, hle⟩ := malloc_valid h.heap size
    exact ⟨hv, h.slots, h.head, h.created,
      fun q => (h.context q).imp_right fun hc => ⟨hc.1, hc.2.trans hle⟩⟩
  | advanceHead => exact h.congr rfl
  | tick context => exact h.congr (layout_pitHandler _ _)
  | requeue =>
    simp only [CreateState.step]
    split
    · exact h
    · exact h.congr (by simp)

theorem createInv_run (mem : ByteMemory) (ops : List CreateOp) :
    CreateInv ((CreateState.initial mem).run ops) := by
  have key : ∀ (ops : List CreateOp) (s : CreateState), CreateInv s → CreateInv (s.run ops) := by
    intro ops
    induction ops with
    | nil => exact fun s h => h
    | cons op ops ih => exact fun s h => ih _ (h.step op)
  exact key ops _ (createInv_initial mem)

/-! ### When a call is harmless -/

/-- The tail of the run queue always moves, so a call never leaves the run queue as it was. -/
theorem not_createFails (s : CreateState) (entryPoint : BitVec 64) (kernelTask : Bool) :
    ¬ CreateFails s (s.kernel.processCreate entryPoint kernelTask) := by
  intro hf
  have htail : s.kernel.runQueue.tail + 1 = s.kernel.runQueue.tail := by
    have := hf.queue
    rw [processCreate_eq] at this
    exact congrArg RingBuffer.tail this
  exact absurd (add_eq_left.mp htail) (by decide)

theorem CreateInv.mem_created {s : CreateState} (h : CreateInv s) {q : ℕ} :
    q ∈ s.created ↔ ∃ j < s.created.length, j % maxProcesses = q := by
  rw [h.created]
  simp

/-- A failed allocation shows in the context or in the stack pointer. -/
theorem room_of_createSucceeds {s : CreateState} (h : CreateInv s) {entryPoint : BitVec 64}
    {kernelTask : Bool}
    (hs : CreateSucceeds s (s.kernel.processCreate entryPoint kernelTask)) :
    4304 ≤ s.kernel.heap.heapSize.toNat := by
  have hc0 : s.kernel.contextBlock.1 ≠ 0 := by
    have := hs.context
    simpa only [processCreate_eq, Function.update_self] using this
  obtain ⟨stack, hne, hrsp, -⟩ := hs.stack
  simp only [processCreate_eq, Function.update_self] at hrsp
  have hread := readContext_initContext s.kernel.mem s.kernel.contextBlock.1
    (s.kernel.nextInit entryPoint kernelTask)
  have hstack : s.kernel.stackBlock.1 = stack := by
    have hr := congrArg ProcessContext.rsp hread
    exact add_right_cancel (hr.symm.trans hrsp)
  have hrc := roundUp_sizeofContext
  have hrs := roundUp_stack
  rcases malloc_of_le sizeofContext h.heap (by decide) with ⟨-, heq⟩ | ⟨-, hfit, hr⟩
  · exact absurd (congrArg Prod.fst heq) hc0
  · have hvc := (malloc_valid h.heap sizeofContext).1
    have hsz := hr.heapSize
    rcases malloc_of_le 4096 hvc (by decide) with ⟨-, heq⟩ | ⟨-, hfit', -⟩
    · exact absurd (hstack.symm.trans (congrArg Prod.fst heq)) hne
    · omega

theorem createSucceeds_of_room {s : CreateState} (h : CreateInv s) (entryPoint : BitVec 64)
    (kernelTask : Bool) (hlen : s.created.length < maxProcesses)
    (hroom : 4304 ≤ s.kernel.heap.heapSize.toNat) (hfull : ¬ s.kernel.runQueue.Full) :
    CreateSucceeds s (s.kernel.processCreate entryPoint kernelTask) := by
  have hpid : s.kernel.freeQueue.front = s.created.length := by
    rw [h.front, Nat.mod_eq_of_lt hlen]
  have hne : ∀ q ∈ s.created, q ≠ s.kernel.freeQueue.front := by
    intro q hq
    obtain ⟨j, hj, rfl⟩ := h.mem_created.mp hq
    rw [hpid, Nat.mod_eq_of_lt (hj.trans hlen)]
    exact Nat.ne_of_lt hj
  obtain ⟨hc, hstack, -, hheap, -⟩ := blocks_of_room h.heap hroom
  have hstart := h.heap.start
  simp only [processCreate_eq]
  refine ⟨fun hmem => hne _ hmem rfl, ?_, ⟨s.kernel.stackBlock.1, ?_, ?_, ?_, ?_⟩,
    RingBuffer.toList_push hfull, fun q hq => Function.update_of_ne (hne q hq) _ _, fun q hq => ?_⟩
  · simp only [Function.update_self, hc]
    exact h.heap.heap_ne_zero
  · intro h0
    rw [h0] at hstack
    simp at hstack
  · simp only [Function.update_self, readContext_create, initialContext, nextInit]
  · omega
  · simp only [hheap]
    omega
  · simp only [Function.update_of_ne (hne q hq)]
    refine readContext_initContext_of_apart ?_
    rw [hc]
    rcases h.context q with h0 | ⟨-, hend⟩
    · rw [h0]
      exact Or.inr (by simpa using by omega)
    · exact Or.inr hend

/-- **A call of `process_create` damages no live process exactly when it finds a free slot, room
for a context and a stack, and room in the run queue.** -/
theorem processCreate_safe_iff (mem : ByteMemory) (ops : List CreateOp) (entryPoint : BitVec 64)
    (kernelTask : Bool) :
    CreateSafe ((CreateState.initial mem).run ops) entryPoint kernelTask ↔
      ((CreateState.initial mem).run ops).created.length < maxProcesses ∧
        208 + 4096 ≤ ((CreateState.initial mem).run ops).kernel.heap.heapSize.toNat ∧
        ¬ ((CreateState.initial mem).run ops).kernel.runQueue.Full := by
  have h := createInv_run mem ops
  generalize (CreateState.initial mem).run ops = s at h ⊢
  constructor
  · rintro (hs | hf)
    · refine ⟨?_, room_of_createSucceeds h hs, fun hfull => ?_⟩
      · by_contra hlen
        refine hs.fresh (h.mem_created.mpr ⟨s.created.length % maxProcesses, ?_, ?_⟩)
        · exact (Nat.mod_lt _ (Nat.succ_pos _)).trans_le (Nat.not_lt.mp hlen)
        · rw [Nat.mod_mod, processCreate_eq, h.front]
      · have hq := hs.queued
        rw [processCreate_eq] at hq
        simp only [RingBuffer.toList_push_of_full hfull] at hq
        exact absurd hq (by simp)
    · exact absurd hf (not_createFails s entryPoint kernelTask)
  · rintro ⟨hlen, hroom, hfull⟩
    exact Or.inl (createSucceeds_of_room h entryPoint kernelTask hlen hroom hfull)

/-- With the heap used up, the first call records a null context and queues the pid. -/
theorem not_createSafe_heap_exhausted :
    ¬ CreateSafe ((CreateState.initial fun _ => 0).run [.malloc 0x100000]) 0x200000 true := by
  rintro (hs | hf)
  · have hc := hs.context
    simp only [processCreate_eq, Function.update_self] at hc
    exact hc rfl
  · exact not_createFails _ _ _ hf

end FrogOS
