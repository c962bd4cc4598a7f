import FrogOS.Syscall

/-!
# Round robin

With no system call but the sleeping one requeueing its caller, the scheduler dispatches the user
processes strictly in turn. A process leaves the processor in two ways: its time slice ends, and the
tick queues it; or it queues itself in the sleep loop, and the switch comes with a later tick. Seen
from the queue the two are the same: when the process leaves, the queue with that process at its end
is the rotation that starts with the next one.

`Rotation` says this of the scheduler's view, and a tick keeps it and starts the right process
(`Rotation.tick`). `TurnInv` adds what is true at each step of the sleep loop: up to the store to
the tail of the queue the process is running and not queued, from the store to its state on it is
queued and not running.

## Main definitions

* `roundRobin`, `upcoming` — the sequence of pids, and a segment of it
* `Rotation`, `TurnInv` — the invariants

## Main results

* `started_roundRobin` — the calls of `start_process`, in every run without `yield`
-/

namespace FrogOS

open Kernel StepSystem Machine

/-- The sequence `0, 1, 2, ..., n, 1, 2, ..., n, ...`. -/
def roundRobin (n : ℕ) : ℕ → ℕ
  | 0 => 0
  | j + 1 => j % n + 1

/-- Its segment of the given length from place `m` on. -/
def upcoming (n m length : ℕ) : List ℕ := (List.range length).map fun i => roundRobin n (m + i)

variable {n m : ℕ}

theorem roundRobin_succ_add (n j : ℕ) : roundRobin n (j + 1 + n) = roundRobin n (j + 1) := by
  rw [show j + 1 + n = j + n + 1 by omega, roundRobin, roundRobin, Nat.add_mod_right]

theorem roundRobin_ne_zero (n : ℕ) (hm : m ≠ 0) : roundRobin n m ≠ 0 := by
  obtain ⟨j, rfl⟩ := Nat.exists_eq_succ_of_ne_zero hm
  exact Nat.succ_ne_zero _

@[simp] theorem length_upcoming (n m length : ℕ) : (upcoming n m length).length = length := by
  simp [upcoming]

theorem upcoming_succ (n m length : ℕ) :
    upcoming n m (length + 1) = upcoming n m length ++ [roundRobin n (m + length)] := by
  simp [upcoming, List.range_succ]

theorem upcoming_eq_cons (n m length : ℕ) :
    upcoming n m (length + 1) = roundRobin n m :: upcoming n (m + 1) length := by
  simp only [upcoming, List.range_succ_eq_map, List.map_cons, List.map_map, Nat.add_zero]
  refine congrArg _ (List.map_congr_left fun i _ => ?_)
  simp only [Function.comp_apply, Nat.succ_eq_add_one]
  congr 1
  omega

/-- The first round. -/
theorem upcoming_one (n : ℕ) : upcoming n 1 n = List.range' 1 n := by
  rw [List.range'_eq_map_range, upcoming]
  refine List.map_congr_left fun i hi => ?_
  rw [Nat.add_comm 1 i, roundRobin, Nat.mod_eq_of_lt (List.mem_range.mp hi)]

/-! ### Ticks -/

/-- `m` calls of `start_process` have been made, and whenever the current process leaves, the queue
holds one whole round from place `m` on. -/
def Rotation (n m : ℕ) (v : SchedView) : Prop :=
  match v.current with
  | none => m = 0 ∧ v.queue = upcoming n 1 n
  | some c => 0 < m ∧ c = roundRobin n (m - 1) ∧ v.leaving c = upcoming n m n

variable {v v' : SchedView}

/-- A round that the current process opens after the last place is the one it would close. -/
theorem Rotation.queue_of_running (h : Rotation (n + 1) m v) {c : ℕ} (hcur : v.current = some c)
    (hc : c ≠ 0) (hrun : v.running = true) : v.queue = upcoming (n + 1) m n := by
  simp only [Rotation, hcur] at h
  obtain ⟨-, -, hleave⟩ := h
  rw [SchedView.leaving, if_pos ⟨hc, hrun⟩, upcoming_succ] at hleave
  exact List.append_inj_left' hleave rfl

/-- **One tick**: it starts at most one process, and the right one. -/
theorem Rotation.tick (h : Rotation (n + 1) m v) {p : Option ℕ} (ht : v.Tick p v') :
    Rotation (n + 1) (m + p.toList.length) v' ∧ ∀ q, p = some q → q = roundRobin (n + 1) m := by
  cases ht with
  | first hcur =>
    simp only [Rotation, hcur] at h
    obtain ⟨rfl, hq⟩ := h
    refine ⟨⟨Nat.one_pos, rfl, ?_⟩, fun q hq => (Option.some.inj hq).symm⟩
    rw [SchedView.leaving, if_neg fun h => h.1 rfl]
    exact hq
  | stay => exact ⟨h, fun q hq => absurd hq.symm (Option.some_ne_none q)⟩
  | @switch c p q hcur hpq =>
    simp only [Rotation, hcur] at h
    obtain ⟨hm, -, hleave⟩ := h
    obtain ⟨rfl, rfl⟩ := List.cons_eq_cons.mp
      (hpq.symm.trans (hleave.trans (upcoming_eq_cons (n + 1) m n)))
    have hp : roundRobin (n + 1) m ≠ 0 := roundRobin_ne_zero _ (Nat.ne_of_gt hm)
    refine ⟨⟨Nat.succ_pos m, rfl, ?_⟩, fun q hq => (Option.some.inj hq).symm⟩
    -- the process that has just been started closes the next round
    rw [SchedView.leaving, if_pos ⟨hp, rfl⟩, Option.toList_some, List.length_singleton,
      upcoming_succ, show m + 1 + n = m + (n + 1) by omega]
    obtain ⟨j, rfl⟩ := Nat.exists_eq_succ_of_ne_zero (Nat.ne_of_gt hm)
    rw [Nat.succ_eq_add_one, roundRobin_succ_add]
  | starve hcur hc hrun hq =>
    simp only [Rotation, hcur, SchedView.leaving, hrun, Bool.false_eq_true, and_false,
      if_false] at h
    have hlen := congrArg List.length (hq.symm.trans h.2.2)
    rw [length_upcoming] at hlen
    exact absurd hlen (Nat.succ_ne_zero n).symm

/-! ### The steps of the sleep loop -/

/-- What is known about the current process `c` at each step, `m` calls of `start_process` having
been made. -/
def AtTurn (n m c : ℕ) (k : Kernel ThreadMap) : Pc → Prop
  | .sleepAdvance => Rotation n m k.view ∧ k.view.running = true ∧
      k.runQueue.slots k.runQueue.tail = c
  -- queued already, and still running
  | .sleepReady => c = roundRobin n (m - 1) ∧ k.view.queue = upcoming n m n
  | .sleepEnable | .sleepHlt | .sleepHalted => Rotation n m k.view
  | _ => Rotation n m k.view ∧ k.view.running = true

/-- The invariant. -/
structure TurnInv (n : ℕ) (s : Machine) : Prop where
  fit : s.Fit n
  /-- Nobody is inside `yield`. -/
  cpu : s.cpu.pc.yielding = false
  saved : ∀ p < n + 1, s.kernel.currentPid ≠ some p → (s.kernel.saved p).pc.yielding = false
  started : s.kernel.started = (List.range s.kernel.started.length).map (roundRobin n)
  idle : (∀ c, s.kernel.currentPid = some c → c = 0) →
    Rotation n s.kernel.started.length s.kernel.view
  turn : ∀ c, s.kernel.currentPid = some c → c ≠ 0 →
    0 < s.kernel.started.length ∧ AtTurn n s.kernel.started.length c s.kernel s.cpu.pc

theorem atTurn_of_running {k : Kernel ThreadMap} {c : ℕ} (h : Rotation n m k.view)
    (hrun : k.view.running = true) {pc : Pc} (hm : pc.masked = false) : AtTurn n m c k pc := by
  cases pc
  case sleepAdvance | sleepReady | sleepEnable => exact absurd hm (by decide)
  case sleepHlt | sleepHalted => exact h
  all_goals exact ⟨h, hrun⟩

variable {s t : Machine}

theorem turnInv_initial (mem : ThreadMap) (init userTask : BitVec 64) (hn : n < maxProcesses) :
    TurnInv n (Machine.initial mem init userTask n) := by
  have h := setupSpec_boot mem init userTask hn
  have hfit := fit_initial mem init userTask hn
  rw [Machine.initial] at hfit ⊢
  generalize boot mem init userTask n = k at h hfit
  refine ⟨hfit, rfl, fun p hp _ => ?_, ?_, fun _ => ?_, fun c hc => ?_⟩
  · obtain ⟨rsp, hf⟩ := h.frame p hp
    have hsaved : k.saved p = initialThread ⟨if p = 0 then init else userTask, p = 0, rsp, p⟩ := hf
    rw [hsaved]
    rfl
  · rw [h.started]
    rfl
  · rw [h.started]
    simp only [Rotation, view_current, h.currentPid, view_queue, h.runQueue]
    exact ⟨rfl, (upcoming_one n).symm⟩
  · exact absurd (h.currentPid.symm.trans hc) (Option.some_ne_none c).symm

/-- Where a tick can come, the queue is a rotation. -/
theorem TurnInv.rotation (h : TurnInv n s) (hif : s.cpu.interruptFlag = true) :
    Rotation n s.kernel.started.length s.kernel.view := by
  by_cases hidle : ∀ c, s.kernel.currentPid = some c → c = 0
  · exact h.idle hidle
  · push Not at hidle
    obtain ⟨c, hc, h0⟩ := hidle
    have hturn := (h.turn c hc h0).2
    have hflag := h.fit.flag
    cases hpc : s.cpu.pc <;> simp only [hpc] at hturn hflag
    case sleepAdvance | sleepReady => exact absurd (hif.symm.trans hflag) (by decide)
    case sleepEnable | sleepHlt | sleepHalted => exact hturn
    all_goals exact hturn.1

/-- A running process is not queued, so the queue has room for it. -/
theorem Rotation.not_full {k : Kernel ThreadMap} (h : Rotation (n + 1) m k.view)
    (hn : n + 1 < maxProcesses) {c : ℕ} (hcur : k.currentPid = some c) (hc : c ≠ 0)
    (hrun : k.view.running = true) : ¬ k.runQueue.Full := by
  have hlen := congrArg List.length (h.queue_of_running hcur hc hrun)
  rw [length_upcoming, view_queue, RingBuffer.length_toList] at hlen
  rw [RingBuffer.full_iff_size]
  omega

theorem TurnInv.tick (h : TurnInv (n + 1) s) (hn : n + 1 < maxProcesses)
    (hst : s.step .tick = some t) : TurnInv (n + 1) t := by
  have hif := (step_tick_eq hst).1
  have hrot := h.rotation hif
  obtain ⟨hfit, -, hmask⟩ := h.fit.tick hst
  have hfull : s.kernel.Expiring → ¬ s.kernel.runQueue.Full := by
    rintro ⟨c, hc, h0, hs, -⟩
    exact hrot.not_full hn hc h0 ((view_running_iff hc).mpr hs)
  obtain ⟨p, htick, hstarted, hstay, hstart⟩ := step_tick h.fit hfull hst
  obtain ⟨hrot', hp⟩ := hrot.tick htick
  rw [← List.length_append, ← hstarted] at hrot'
  have hwake : s.cpu.wake.pc.yielding = false := (wake_yielding _).trans h.cpu
  have hyield : t.cpu.pc.yielding = false ∧ ∀ q < n + 1 + 1, t.kernel.currentPid ≠ some q →
      (t.kernel.saved q).pc.yielding = false := by
    cases p with
    | none =>
      obtain ⟨hcpu, hsame⟩ := hstay rfl
      refine ⟨hcpu ▸ hwake, fun q hq hne => ?_⟩
      rw [hsame.saved]
      exact h.saved q hq fun hc => hne (hsame.currentPid.trans hc)
    | some q =>
      obtain ⟨hq, hcpu, hsaved⟩ := hstart q rfl
      have hall : ∀ r < n + 1 + 1, (t.kernel.saved r).pc.yielding = false := by
        intro r hr
        rw [hsaved r hr]
        split
        · exact hwake
        · next hne => exact h.saved r hr hne
      exact ⟨hcpu ▸ hall q hq, fun r hr _ => hall r hr⟩
  refine ⟨hfit, hyield.1, hyield.2, ?_, fun _ => hrot', fun c hc h0 => ⟨?_, ?_⟩⟩
  · rw [hstarted]
    cases p with
    | none => simpa using h.started
    | some q =>
      rw [Option.toList_some, List.length_append, List.length_singleton, List.range_succ,
        List.map_append, List.map_singleton, ← h.started, hp q rfl]
  · have hcur : t.kernel.view.current = some c := hc
    simp only [Rotation, hcur] at hrot'
    exact hrot'.1
  · exact atTurn_of_running hrot' (htick.running hc h0) hmask

theorem TurnInv.exec (h : TurnInv (n + 1) s) (hn : n + 1 < maxProcesses)
    (hst : s.step .exec = some t) : TurnInv (n + 1) t := by
  have hfit := h.fit.step hst
  obtain ⟨c, hc, hk⟩ := step_exec hst
  obtain ⟨hsame, -, hne, -⟩ := ksyscallStep_spec hk h.fit.flag
  obtain ⟨c', hc', h0⟩ := h.fit.caller hne
  obtain rfl : c = c' := Option.some.inj (hc.symm.trans hc')
  obtain ⟨hpos, hturn⟩ := h.turn c hc h0
  have hcpu := h.cpu
  have hcur := hsame.currentPid
  suffices hsuff : t.cpu.pc.yielding = false ∧
      AtTurn (n + 1) s.kernel.started.length c t.kernel t.cpu.pc by
    refine ⟨hfit, hsuff.1, fun p hp hne => ?_, by rw [hsame.started]; exact h.started,
      fun hidle => absurd (hidle c (hcur.trans hc)) h0, fun d hd _ => ?_⟩
    · rw [hsame.saved]
      exact h.saved p hp fun h' => hne (hcur.trans h')
    · obtain rfl : c = d := Option.some.inj (hc.symm.trans (hcur.symm.trans hd))
      rw [hsame.started]
      exact ⟨hpos, hsuff.2⟩
  cases hpc : s.cpu.pc <;> simp only [ksyscallStep, hpc, reduceCtorEq, Option.some.injEq,
    Prod.mk.injEq] at hk hturn hcpu
  case yieldReady | yieldStore | yieldAdvance => exact absurd hcpu (by decide)
  all_goals obtain ⟨hk, hu⟩ := hk
  all_goals rw [← hk, ← hu]
  case sleepCheck =>
    dsimp only
    split <;> exact ⟨rfl, hturn⟩
  case sleepStore =>
    refine ⟨rfl, ?_⟩
    rw [AtTurn, view_storeRunQueue]
    exact ⟨hturn.1, hturn.2, RingBuffer.store_slots_tail _ _⟩
  case sleepAdvance =>
    obtain ⟨hrot, hrun, hslot⟩ := hturn
    have hfull := hrot.not_full hn hc h0 hrun
    simp only [Rotation, view_current, hc, SchedView.leaving, if_pos (And.intro h0 hrun)] at hrot
    refine ⟨rfl, hrot.2.1, ?_⟩
    rw [view_advanceRunQueueTail hfull, hslot]
    exact hrot.2.2
  case sleepReady =>
    obtain ⟨hc', hq⟩ := hturn
    refine ⟨rfl, ?_⟩
    rw [AtTurn, view_setReady hc]
    simp only [Rotation, view_current, hc, SchedView.leaving, Bool.false_eq_true, and_false,
      if_false]
    exact ⟨hpos, hc', hq⟩
  all_goals exact ⟨rfl, hturn⟩

theorem TurnInv.step (h : TurnInv (n + 1) s) (hn : n + 1 < maxProcesses) {e : Event}
    (he : e ≠ .syscall .yield) (hst : s.step e = some t) : TurnInv (n + 1) t := by
  cases e with
  | tick => exact h.tick hn hst
  | exec => exact h.exec hn hst
  | syscall request =>
    obtain ⟨c, hc, h0, hpc, rfl⟩ := step_syscall hst
    have hy : (s.cpu.enter request).pc.yielding = false := by
      cases request with
      | yield => exact absurd rfl he
      | output => exact h.cpu
      | sleep | getpid | hlt => rfl
    refine ⟨h.fit.step hst, hy, h.saved, h.started, h.idle, fun d hd h0 => ?_⟩
    have hturn := h.turn d hd h0
    rw [hpc] at hturn
    cases request with
    | yield => exact absurd rfl he
    | output => simpa only [Thread.enter, hpc] using hturn
    | sleep | getpid | hlt => exact hturn
  | compute =>
    obtain rfl := step_compute hst
    exact h

/-- **Strict round robin**: the pids passed to `start_process` are a prefix of
`0, 1, 2, ..., n, 1, 2, ..., n, ...`, in every run in which no process calls `yield`. -/
theorem started_roundRobin (mem : ThreadMap) (init userTask : BitVec 64) (hpos : 1 ≤ n)
    (hn : n < maxProcesses) (es : List Event) (hyield : ∀ e ∈ es, e ≠ .syscall .yield)
    (hrun : run Machine.step (Machine.initial mem init userTask n) es = some s) :
    s.kernel.started = (List.range s.kernel.started.length).map (roundRobin n) := by
  obtain ⟨n, rfl⟩ := Nat.exists_eq_add_of_le' hpos
  have h₀ := turnInv_initial mem init userTask hn
  have ha : Along Machine.step (fun _ e => e ≠ .syscall .yield)
      (Machine.initial mem init userTask (n + 1)) es :=
    along_of_forall_mem fun e he _ => hyield e he
  have h : TurnInv (n + 1) s := invariant_of_along (TurnInv (n + 1))
    (fun _ _ _ hi he hst => hi.step hn he hst) h₀ ha hrun
  exact h.started

/-- The four user processes of the source: all of them sleep, 1 returns and computes until its time
slice ends, and 2 is back on the processor. -/
def sleepingRound : List Event :=
  [.tick, .tick] ++ sleepEvents 20 ++ [.tick] ++ sleepEvents 20 ++ [.tick] ++ sleepEvents 20 ++
    [.tick] ++ sleepEvents 20 ++ [.tick, .exec, .exec, .compute] ++ List.replicate 100 .tick

theorem started_roundRobin_sleepingRound :
    ∃ s, run Machine.step sourceMachine sleepingRound = some s ∧
      s.kernel.started.length = 7 ∧
      s.kernel.started = (List.range s.kernel.started.length).map (roundRobin 4) := by
  have hstate : (run Machine.step sourceMachine sleepingRound).map (·.kernel.started.length) =
      some 7 := by
    decide +kernel
  obtain ⟨s, hs, hlength⟩ := Option.map_eq_some_iff.mp hstate
  exact ⟨s, hs, hlength, started_roundRobin _ _ _ (by decide) (by decide) sleepingRound
    (by simp [sleepingRound, sleepEvents]) hs⟩

end FrogOS
