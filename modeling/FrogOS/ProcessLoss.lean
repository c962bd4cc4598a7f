import FrogOS.Syscall

/-!
# Lost processes

A user process that is neither the current process nor in the run queue is lost: nothing will ever
dispatch it again. The scheduler stops a process without queueing it when it finds it `READY`, so a
system call that makes its caller `READY` has to queue it before the next tick. `SYSCALL_SLEEP` does
it between `disable` and `enable`. `yield` does it with interrupts on, and in the wrong order:
between the store to the state and the store to the tail of the queue, the caller is `READY` and in
no queue.

The other way to lose processes is to queue on a full ring, which reads as empty afterwards.

A step of a system call is a statement of the source. `add_to_run_queue` has two, the store to the
slot and the new tail, and the second one reads and stores `run_queue_tail` at once; a compiler that
keeps the tail in a register from the first to the second is not modelled.

## Main definitions

* `NoProcessLost` — every user process is on the processor or in the queue
* `Undisturbed` — the condition on a step: no tick in that window, no insertion into a full ring
* `LossInv` — the invariant, step by step through the system calls

## Main results

* `noProcessLost_along` — no process is lost in a run whose steps meet the condition; with two or
  more user processes, in no other
-/

namespace FrogOS

open Kernel StepSystem Machine

/-- Every user process is on the processor or can be dispatched again. -/
def NoProcessLost (n : ℕ) (k : Kernel ThreadMap) : Prop :=
  ∀ p, 0 < p → p ≤ n → k.currentPid ≠ some p → p ∈ k.runQueue.toList

/-- A tick may come: the process `c` is still running, or somebody will find it in the queue. -/
def Kernel.Kept (k : Kernel ThreadMap) (c : ℕ) : Prop :=
  (k.processTable c).state = .running ∨ c ∈ k.runQueue.toList

/-- No tick comes while `yield` has made its caller `READY` and not queued it yet, unless the caller
is in the queue from an earlier call; and nothing is put into a full run queue, neither by a system
call nor at the end of a time slice. -/
def Undisturbed (s : Machine) : Event → Prop
  | .tick => (s.cpu.pc = .yieldStore ∨ s.cpu.pc = .yieldAdvance →
        ∀ c, s.kernel.currentPid = some c → s.kernel.Kept c) ∧
      (s.cpu.interruptFlag = true → s.kernel.Expiring → ¬ s.kernel.runQueue.Full)
  | .exec => s.cpu.pc = .sleepAdvance ∨ s.cpu.pc = .yieldAdvance → ¬ s.kernel.runQueue.Full
  | _ => True

instance (k : Kernel ThreadMap) (c : ℕ) : Decidable (k.Kept c) :=
  inferInstanceAs (Decidable (_ ∨ _))

instance (s : Machine) : ∀ e, Decidable (Undisturbed s e)
  | .tick =>
    have : Decidable (∀ c, s.kernel.currentPid = some c → s.kernel.Kept c) :=
      inferInstanceAs (Decidable (∀ c ∈ s.kernel.currentPid, _))
    inferInstanceAs (Decidable (_ ∧ _))
  | .exec => inferInstanceAs (Decidable (_ → _))
  | .syscall _ | .compute => isTrue trivial

/-- What is expected of a step: no process is lost before or after it. -/
def LosesNobody (n : ℕ) (s : Machine) (e : Event) : Prop :=
  NoProcessLost n s.kernel ∧ ∀ t, s.step e = some t → NoProcessLost n t.kernel

/-- What is known about the current process `c` at each step. -/
def Holds (k : Kernel ThreadMap) (c : ℕ) : Pc → Prop
  | .yieldStore => True
  | .yieldAdvance => k.Kept c ∨ k.runQueue.slots k.runQueue.tail = c
  | .sleepAdvance => k.runQueue.slots k.runQueue.tail = c
  | .sleepReady => c ∈ k.runQueue.toList
  | _ => k.Kept c

/-- The invariant. -/
structure LossInv (n : ℕ) (s : Machine) : Prop where
  fit : s.Fit n
  waiting : NoProcessLost n s.kernel
  current : ∀ c, s.kernel.currentPid = some c → c ≠ 0 → Holds s.kernel c s.cpu.pc

variable {n : ℕ} {s t : Machine} {k k' : Kernel ThreadMap} {c : ℕ}

theorem NoProcessLost.mono (h : NoProcessLost n k) (hcur : k'.currentPid = k.currentPid)
    (hq : ∀ p ∈ k.runQueue.toList, p ∈ k'.runQueue.toList) : NoProcessLost n k' :=
  fun p hp hpn hne => hq p (h p hp hpn fun hc => hne (hcur.trans hc))

/-- On a ring with room, moving the tail adds the slot at the tail and drops nothing. -/
theorem mem_advanceRunQueueTail (hfull : ¬ k.runQueue.Full) {p : ℕ} :
    p ∈ k.advanceRunQueueTail.runQueue.toList ↔
      p ∈ k.runQueue.toList ∨ p = k.runQueue.slots k.runQueue.tail := by
  rw [advanceRunQueueTail_runQueue, RingBuffer.toList_advanceTail hfull, List.mem_append,
    List.mem_singleton]

theorem Kernel.Kept.advance (h : k.Kept c) (hfull : ¬ k.runQueue.Full) :
    k.advanceRunQueueTail.Kept c :=
  h.imp_right fun hq => (mem_advanceRunQueueTail hfull).mpr (Or.inl hq)

/-! ### Every allowed step keeps the invariant -/

theorem lossInv_initial (mem : ThreadMap) (init userTask : BitVec 64) (hn : n < maxProcesses) :
    LossInv n (Machine.initial mem init userTask n) := by
  have h := setupSpec_boot mem init userTask hn
  refine ⟨fit_initial mem init userTask hn, fun p hp hpn _ => ?_, fun c hc => ?_⟩
  · have hq : (Machine.initial mem init userTask n).kernel.runQueue.toList = List.range' 1 n :=
      h.runQueue
    rw [hq, List.mem_range'_1]
    omega
  · exact absurd (h.currentPid.symm.trans hc) (Option.some_ne_none c).symm

/-- At a step at which a tick may come, the current process is kept. -/
theorem LossInv.kept (h : LossInv n s) (hu : Undisturbed s .tick)
    (hif : s.cpu.interruptFlag = true) (hc : s.kernel.currentPid = some c) (h0 : c ≠ 0) :
    s.kernel.Kept c := by
  have hcur := h.current c hc h0
  have hflag := h.fit.flag
  cases hpc : s.cpu.pc <;> simp only [hpc] at hcur hflag
  case yieldStore => exact hu.1 (Or.inl hpc) c hc
  case yieldAdvance => exact hu.1 (Or.inr hpc) c hc
  case sleepAdvance | sleepReady => exact absurd (hif.symm.trans hflag) (by decide)
  all_goals exact hcur

/-- A process that is running is in order at every step at which a tick can come. -/
theorem holds_of_kept (h : k.Kept c) {pc : Pc} (hm : pc.masked = false) : Holds k c pc := by
  cases pc
  case sleepAdvance | sleepReady => exact absurd hm (by decide)
  case yieldStore => trivial
  case yieldAdvance => exact Or.inl h
  all_goals exact h

/-- The processes waiting after a tick, when the current one was kept. -/
theorem NoProcessLost.tick (h : NoProcessLost n k) {p : Option ℕ}
    (hkept : ∀ c, k.currentPid = some c → c ≠ 0 → k.Kept c)
    (ht : k.view.Tick p k'.view) : NoProcessLost n k' := by
  have hleave : ∀ c, k.currentPid = some c → ∀ q, 0 < q → q ≤ n → q ∈ k.view.leaving c := by
    intro c hc q hq hqn
    rw [SchedView.leaving]
    by_cases hqc : q = c
    · subst hqc
      rcases hkept q hc (Nat.ne_of_gt hq) with hrun | hmem
      · rw [if_pos ⟨Nat.ne_of_gt hq, (view_running_iff hc).mpr hrun⟩]
        exact List.mem_append_right _ (List.mem_singleton_self q)
      · split
        · exact List.mem_append_left _ hmem
        · exact hmem
    · have hmem := h q hq hqn fun hc' => hqc (Option.some.inj (hc'.symm.trans hc))
      split
      · exact List.mem_append_left _ hmem
      · exact hmem
  intro q hq hqn hne
  have hview : k'.currentPid = k'.view.current ∧ k'.runQueue.toList = k'.view.queue := ⟨rfl, rfl⟩
  rw [hview.1] at hne
  rw [hview.2]
  generalize k'.view = v at ht hne
  cases ht with
  | first hcur => exact h q hq hqn fun hc => Option.some_ne_none q (hc.symm.trans hcur)
  | stay hcur => exact h q hq hqn hne
  | switch hcur hpq =>
    have hmem := hleave _ hcur q hq hqn
    rw [hpq] at hmem
    rcases List.mem_cons.mp hmem with rfl | hmem
    · exact absurd rfl hne
    · exact hmem
  | @starve c hcur hc hrun hempty =>
    rcases hkept c hcur hc with hs | hmem
    · exact absurd ((view_running_iff hcur).mpr hs) (by simp [hrun])
    · rw [view_queue] at hempty
      rw [hempty] at hmem
      exact absurd hmem List.not_mem_nil

theorem LossInv.tick (h : LossInv n s) (hu : Undisturbed s .tick) (hst : s.step .tick = some t) :
    LossInv n t := by
  have hif := (step_tick_eq hst).1
  obtain ⟨hfit, -, hmask⟩ := h.fit.tick hst
  obtain ⟨p, htick, -, -, -⟩ := step_tick h.fit (hu.2 hif) hst
  have hkept : ∀ c, s.kernel.currentPid = some c → c ≠ 0 → s.kernel.Kept c :=
    fun c hc h0 => h.kept hu hif hc h0
  refine ⟨hfit, h.waiting.tick hkept htick, fun c hc h0 => holds_of_kept (Or.inl ?_) hmask⟩
  -- whoever has the processor after a tick is running
  exact (view_running_iff hc).mp (htick.running hc h0)

theorem LossInv.exec (h : LossInv n s) (hu : Undisturbed s .exec) (hst : s.step .exec = some t) :
    LossInv n t := by
  have hfit := h.fit.step hst
  obtain ⟨c, hc, hk⟩ := step_exec hst
  obtain ⟨hsame, -, hne, -⟩ := ksyscallStep_spec hk h.fit.flag
  obtain ⟨c', hc', h0⟩ := h.fit.caller hne
  obtain rfl : c = c' := Option.some.inj (hc.symm.trans hc')
  have hcur := h.current c hc h0
  suffices hsuff : (∀ p ∈ s.kernel.runQueue.toList, p ∈ t.kernel.runQueue.toList) ∧
      Holds t.kernel c t.cpu.pc by
    refine ⟨hfit, h.waiting.mono hsame.currentPid hsuff.1, fun d hd _ => ?_⟩
    obtain rfl : c = d := Option.some.inj (hc.symm.trans (hsame.currentPid.symm.trans hd))
    exact hsuff.2
  have hstore : ∀ p ∈ s.kernel.runQueue.toList, p ∈ (s.kernel.storeRunQueue c).runQueue.toList :=
    fun p hp => by rwa [storeRunQueue_runQueue, RingBuffer.toList_store]
  have hadvance : ¬ s.kernel.runQueue.Full → ∀ p ∈ s.kernel.runQueue.toList,
      p ∈ s.kernel.advanceRunQueueTail.runQueue.toList :=
    fun hfull p hp => (mem_advanceRunQueueTail hfull).mpr (Or.inl hp)
  cases hpc : s.cpu.pc <;> simp only [ksyscallStep, hpc, reduceCtorEq, Option.some.injEq,
    Prod.mk.injEq] at hk hcur
  all_goals obtain ⟨hk, hcpu⟩ := hk
  all_goals rw [← hk, ← hcpu]
  case sleepCheck =>
    refine ⟨fun p hp => hp, ?_⟩
    dsimp only
    split <;> exact hcur
  case sleepStore => exact ⟨hstore, RingBuffer.store_slots_tail _ _⟩
  case sleepAdvance =>
    have hfull := hu (Or.inl hpc)
    exact ⟨hadvance hfull, (mem_advanceRunQueueTail hfull).mpr (Or.inr (Eq.symm hcur))⟩
  case sleepReady => exact ⟨fun p hp => hp, Or.inr hcur⟩
  case yieldReady => exact ⟨fun p hp => hp, trivial⟩
  case yieldStore => exact ⟨hstore, Or.inr (RingBuffer.store_slots_tail _ _)⟩
  case yieldAdvance =>
    have hfull := hu (Or.inr hpc)
    refine ⟨hadvance hfull, ?_⟩
    rcases hcur with hkept | hslot
    · exact hkept.advance hfull
    · exact Or.inr ((mem_advanceRunQueueTail hfull).mpr (Or.inr hslot.symm))
  all_goals exact ⟨fun p hp => hp, hcur⟩

theorem LossInv.step (h : LossInv n s) {e : Event} (hu : Undisturbed s e)
    (hst : s.step e = some t) : LossInv n t := by
  cases e with
  | tick => exact h.tick hu hst
  | exec => exact h.exec hu hst
  | syscall request =>
    obtain ⟨c, hc, h0, hpc, rfl⟩ := step_syscall hst
    refine ⟨h.fit.step hst, h.waiting, fun d hd h0 => ?_⟩
    have hcur := h.current d hd h0
    rw [hpc] at hcur
    cases request with
    | output => simpa only [Thread.enter, hpc] using hcur
    | sleep | getpid | hlt | yield => exact hcur
  | compute =>
    obtain rfl := step_compute hst
    exact h

/-! ### No other step does -/

/-- A process that is neither running nor queued when a tick comes is lost by it. -/
theorem lost_of_tick (hc : k.currentPid = some c) (h0 : c ≠ 0) (hkept : ¬ k.Kept c) {p : Option ℕ}
    (ht : k.view.Tick p k'.view) : k'.currentPid ≠ some c ∧ c ∉ k'.runQueue.toList := by
  obtain ⟨hstate, hmem⟩ := not_or.mp hkept
  have hrun : ¬ k.view.running = true := fun h => hstate ((view_running_iff hc).mp h)
  have hview : k'.currentPid = k'.view.current ∧ k'.runQueue.toList = k'.view.queue := ⟨rfl, rfl⟩
  rw [hview.1, hview.2]
  generalize k'.view = v at ht
  cases ht with
  | first hcur => exact absurd (hcur.symm.trans hc) (Option.some_ne_none c).symm
  | stay hcur hidle hrun' =>
    obtain rfl := Option.some.inj (hcur.symm.trans hc)
    exact absurd (hrun' h0) hrun
  | @switch d p q hcur hpq =>
    rw [SchedView.leaving, if_neg fun h => hrun h.2] at hpq
    have hq : k.runQueue.toList = p :: q := hpq
    rw [hq, List.mem_cons, not_or] at hmem
    exact ⟨fun h => hmem.1 (Option.some.inj h).symm, hmem.2⟩
  | starve => exact ⟨fun h => h0 (Option.some.inj h).symm, List.not_mem_nil⟩

theorem LossInv.undisturbed_tick (h : LossInv n s) (hs : LosesNobody n s .tick) :
    Undisturbed s .tick := by
  constructor
  · intro hpc c hc
    by_contra hkept
    have hif : s.cpu.interruptFlag = true := by
      rcases hpc with hpc | hpc <;> simpa [hpc, Pc.masked] using h.fit.flag
    obtain ⟨d, hd, h0⟩ := h.fit.caller (by rcases hpc with hpc | hpc <;> simp [hpc])
    obtain rfl : c = d := Option.some.inj (hc.symm.trans hd)
    have hst : s.step .tick = some _ := if_pos hif
    have hexp : ¬ s.kernel.Expiring := by
      rintro ⟨d, hd, -, hrun, -⟩
      obtain rfl := Option.some.inj (hc.symm.trans hd)
      exact hkept (Or.inl hrun)
    obtain ⟨p, htick, -⟩ := step_tick h.fit (fun he => absurd he hexp) hst
    obtain ⟨hcur, hmem⟩ := lost_of_tick hc h0 hkept htick
    exact hmem (hs.2 _ hst c (Nat.pos_of_ne_zero h0)
      (Nat.lt_succ_iff.mp (h.fit.frames.current c hc)) hcur)
  · intro hif he hfull
    have hst : s.step .tick = some _ := if_pos hif
    have hview := currentPid_of_view (view_tick_of_full s.cpu.wake he hfull)
    obtain ⟨c, hc, h0, -⟩ := he
    have hmem := hs.2 _ hst c (Nat.pos_of_ne_zero h0)
      (Nat.lt_succ_iff.mp (h.fit.frames.current c hc)) fun hc' =>
        h0 (Option.some.inj (hview.1.symm.trans hc')).symm
    rw [hview.2] at hmem
    exact absurd hmem List.not_mem_nil

theorem LossInv.undisturbed_exec (h : LossInv n s) (hn : 2 ≤ n) (hs : LosesNobody n s .exec) :
    Undisturbed s .exec := by
  intro hpc hfull
  obtain ⟨c, hc, h0⟩ := h.fit.caller (by rcases hpc with hpc | hpc <;> simp [hpc])
  obtain ⟨t, hst, hk⟩ : ∃ t, s.step .exec = some t ∧ t.kernel = s.kernel.advanceRunQueueTail := by
    rcases hpc with hpc | hpc <;> simp [Machine.step, hc, ksyscallStep, hpc]
  -- there is a user process other than the current one
  obtain ⟨p, hp, hpn, hpc⟩ : ∃ p, 0 < p ∧ p ≤ n ∧ c ≠ p := by
    by_cases hc1 : c = 1
    · exact ⟨2, Nat.two_pos, hn, by omega⟩
    · exact ⟨1, Nat.one_pos, Nat.le_of_succ_le hn, hc1⟩
  have hmem := hs.2 t hst p hp hpn fun hc' => by
    rw [hk, advanceRunQueueTail_currentPid, hc] at hc'
    exact hpc (Option.some.inj hc')
  rw [hk, advanceRunQueueTail_runQueue, RingBuffer.toList_advanceTail_of_full hfull] at hmem
  exact absurd hmem List.not_mem_nil

/-- In a state the invariant describes, with two or more user processes, exactly the allowed steps
lose nobody. -/
theorem losesNobody_iff (h : LossInv n s) (hn : 2 ≤ n) (e : Event) :
    LosesNobody n s e ↔ Undisturbed s e := by
  refine ⟨fun hs => ?_, fun hu => ⟨h.waiting, fun t hst => (h.step hu hst).waiting⟩⟩
  cases e with
  | tick => exact h.undisturbed_tick hs
  | exec => exact h.undisturbed_exec hn hs
  | syscall | compute => trivial

/-- **No process is ever lost in a run in which no tick falls into the window of `yield` and nothing
is put into a full queue.** With two or more user processes, there are no other runs in which nobody
is lost. -/
theorem noProcessLost_along (mem : ThreadMap) (init userTask : BitVec 64) (hn : n < maxProcesses)
    (es : List Event) :
    (∀ s, Along Machine.step Undisturbed (Machine.initial mem init userTask n) es →
        run Machine.step (Machine.initial mem init userTask n) es = some s →
        NoProcessLost n s.kernel) ∧
      (2 ≤ n → (Along Machine.step (LosesNobody n) (Machine.initial mem init userTask n) es ↔
        Along Machine.step Undisturbed (Machine.initial mem init userTask n) es)) := by
  have h₀ := lossInv_initial mem init userTask hn
  constructor
  · intro s ha hr
    have h : LossInv n s := invariant_of_along (LossInv n) (fun _ _ _ hi hu hst => hi.step hu hst)
      h₀ ha hr
    exact h.waiting
  · intro hn2
    exact along_iff_of_safe (LossInv n) (fun _ _ _ hi hu hst => hi.step hu hst)
      (fun _ e hi => losesNobody_iff hi hn2 e) h₀

/-- What the window costs: `p` has been started and calls `yield`, and a tick comes right after the
store to its state. -/
theorem exists_lost {p : ℕ} (hfit : s.Fit n) (hcur : s.kernel.currentPid = some p) (hp : p ≠ 0)
    (hq : p ∉ s.kernel.runQueue.toList) (hpc : s.cpu.pc = .user) :
    ∃ t, run Machine.step s [.syscall .yield, .exec, .tick] = some t ∧
      t.kernel.currentPid ≠ some p ∧ p ∉ t.kernel.runQueue.toList := by
  obtain ⟨s₁, hst₁, hk₁, hpc₁, hif₁⟩ : ∃ t, s.step (.syscall .yield) = some t ∧
      t.kernel = s.kernel ∧ t.cpu.pc = .yieldReady ∧ t.cpu.interruptFlag = true := by
    simp [Machine.step, hcur, hp, hpc, Thread.enter]
  obtain ⟨s₂, hst₂, hk₂, hif₂⟩ : ∃ t, s₁.step .exec = some t ∧
      t.kernel = s.kernel.setReady p ∧ t.cpu.interruptFlag = true := by
    simp [Machine.step, hk₁, hcur, ksyscallStep, hpc₁, hif₁]
  obtain ⟨s₃, hst₃⟩ : ∃ t, s₂.step .tick = some t := ⟨_, if_pos hif₂⟩
  have hcur₂ : s₂.kernel.currentPid = some p := by rw [hk₂]; exact hcur
  have hkept : ¬ s₂.kernel.Kept p := by
    rw [hk₂]
    rintro (hrun | hmem)
    · simp [setReady] at hrun
    · exact hq hmem
  have hexp : ¬ s₂.kernel.Expiring := by
    rintro ⟨d, hd, -, hrun, -⟩
    obtain rfl := Option.some.inj (hcur₂.symm.trans hd)
    exact hkept (Or.inl hrun)
  obtain ⟨r, htick, -⟩ := step_tick ((hfit.step hst₁).step hst₂) (fun he => absurd he hexp) hst₃
  refine ⟨s₃, ?_, lost_of_tick hcur₂ hp hkept htick⟩
  rw [run, hst₁, Option.bind_some, run, hst₂, Option.bind_some, run, hst₃, Option.bind_some,
    run_nil]

/-- Of the four user processes of the source, 2 yields and the others sleep, until 1 has slept for
its 20 ms and returns. -/
def sleepAndYield : List Event :=
  [.tick, .tick] ++ sleepEvents 20 ++ [.tick, .syscall .yield, .exec, .exec, .exec, .tick] ++
    sleepEvents 20 ++ [.tick] ++ sleepEvents 20 ++ [.tick, .exec, .exec]

theorem noProcessLost_sleepAndYield :
    ∃ s, run Machine.step sourceMachine sleepAndYield = some s ∧
      s.kernel.currentPid = some 1 ∧ s.cpu.rax = 40 ∧ s.kernel.runQueue.toList = [2, 3, 4] ∧
      NoProcessLost 4 s.kernel ∧
      Along Machine.step (LosesNobody 4) sourceMachine sleepAndYield := by
  have hstate : (run Machine.step sourceMachine sleepAndYield).map
      (fun s => (s.kernel.currentPid, s.cpu.rax, s.kernel.runQueue.toList)) =
        some (some 1, 40, [2, 3, 4]) := by
    decide +kernel
  have halong : Along Machine.step Undisturbed sourceMachine sleepAndYield := by decide +kernel
  obtain ⟨s, hs, hvalues⟩ := Option.map_eq_some_iff.mp hstate
  simp only [Prod.mk.injEq] at hvalues
  obtain ⟨hcur, hrax, hq⟩ := hvalues
  obtain ⟨hlost, hiff⟩ := noProcessLost_along ⟨fun _ => initialThread ⟨0, false, 0, 0⟩⟩ 0x200000
    0x200100 (n := 4) (by decide) sleepAndYield
  exact ⟨s, hs, hcur, hrax, hq, hlost s halong hs, (hiff (by decide)).mpr halong⟩

/-- Process 1 of these four is lost by a tick in the window of `yield`. -/
theorem processLost_yield :
    ∃ s, run Machine.step sourceMachine [.tick, .tick, .syscall .yield, .exec, .tick] = some s ∧
      ¬ NoProcessLost 4 s.kernel := by
  obtain ⟨hfit, hif, hnone, hq, hsaved⟩ := sourceMachine_spec
  obtain ⟨s, hs, hfit, hcur, hq, hpc⟩ :=
    exists_started hfit hif hnone hq Nat.one_ne_zero (by decide) hsaved
  obtain ⟨t, ht, hcur', hmem⟩ := exists_lost hfit hcur Nat.one_ne_zero (by rw [hq]; decide) hpc
  refine ⟨t, ?_, fun hlost => hmem (hlost 1 Nat.one_pos (by decide) hcur')⟩
  exact (run_append _ [Event.tick, .tick] _).trans (by rw [hs, Option.bind_some, ht])

end FrogOS
