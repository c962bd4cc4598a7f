import FrogOS.HandlerChain

/-!
# Installing the first handler of a line

`install_irq_handler` disables interrupts while it links a node. For the first node of a line it
calls `irq_clear_mask` in between, which disables interrupts too, and enables them again when it has
unmasked the line. From there on the link is made with interrupts enabled, on a line that is
unmasked and has no handler yet.

Here the call is taken apart into its steps. Requests for interrupts arrive at any time and are
latched by the controllers; one that is pending on an unmasked line while the interrupt flag is set
is taken before the next step. An interrupt runs `irq_handler` of `FrogOS.HandlerChain` to its end.

## Main definitions

* `InstallMachine`, `InstallMachine.step` — the machine
* `InterruptSafe` — what is expected of an interrupt
* `Quiet` — nothing is pending behind the enabled flag while the node is being linked
* `InstallInv` — the invariant

## Main results

* `install_along` — the interrupts are as expected if the line has a handler before the call, or all
  states are quiet; and a state that is not quiet has to take an interrupt that is not
-/

namespace FrogOS

open StepSystem LinkedList

/-- The steps of the call. -/
inductive InstallPc
  | disable
  /-- `if (irq_handlers[num] == 0)`. -/
  | testChain
  /-- `irq_clear_mask`: `disable()`, the two halves of the update, `enable()`. -/
  | maskDisable
  | maskRead
  | maskWrite (value : BitVec 8)
  | maskEnable
  /-- `node->next = irq_handlers[num]`. -/
  | setNext
  /-- `irq_handlers[num] = node`. -/
  | link
  | enable
  /-- The call has returned. -/
  | done
  deriving DecidableEq

namespace InstallPc

/-- `disable()` has been executed, and the `enable()` at the end has not. -/
def inside : InstallPc → Bool
  | disable | done => false
  | _ => true

/-- In `irq_clear_mask`. -/
def masking : InstallPc → Bool
  | maskDisable | maskRead | maskWrite _ | maskEnable => true
  | _ => false

/-- After `irq_clear_mask`. -/
def linking : InstallPc → Bool
  | setNext | link | enable => true
  | _ => false

/-- The node is on its chain. -/
def linked : InstallPc → Bool
  | enable | done => true
  | _ => false

end InstallPc

structure InstallMachine (W : Type) where
  pc : InstallPc
  interruptFlag : Bool
  irq : IrqState W
  /-- The requests the controllers have latched, by line. -/
  requests : ℕ → Bool

inductive InstallEvent
  /-- The next step of the call. -/
  | step
  /-- A device requests an interrupt. -/
  | request (n : ℕ)
  /-- The interrupt is taken, its frame being at `r`. -/
  | interrupt (n : ℕ) (r : BitVec 64)
  /-- After the call, the caller sets the interrupt flag to some value. -/
  | caller (flag : Bool)

namespace InstallMachine

variable {W : Type}

def deliverable (s : InstallMachine W) (n : ℕ) : Bool :=
  s.interruptFlag && !s.irq.pics.masked n && s.requests n

section

variable (num : ℕ) (node : BitVec 64)

/-- One step of `install_irq_handler(num, node)`. -/
def installStep (s : InstallMachine W) : Option (InstallMachine W) :=
  let port := if num ≥ 8 then 0xA1 else 0x21
  let irq := if num ≥ 8 then num - 8 else num
  match s.pc with
  | .disable => some { s with interruptFlag := false, pc := .testChain }
  | .testChain => some { s with
      -- `irq_clear_mask` returns at once for a line it does not have
      pc := if s.irq.irqHandlers num = 0 ∧ num < 16 then .maskDisable else .setNext }
  | .maskDisable => some { s with interruptFlag := false, pc := .maskRead }
  | .maskRead => some { s with
      pc := .maskWrite (s.irq.pics.inportb port &&& ~~~(1#8 <<< irq)) }
  | .maskWrite value => some { s with irq := s.irq.outportb port value, pc := .maskEnable }
  | .maskEnable => some { s with interruptFlag := true, pc := .setNext }
  | .setNext => some { s with irq := s.irq.setNext num node, pc := .link }
  | .link => some { s with irq := s.irq.link num node, pc := .enable }
  | .enable => some { s with interruptFlag := true, pc := .done }
  | .done => none

variable (code : HandlerCall → W → W) (fuel : ℕ)

/-- Interrupts go first. -/
def step (s : InstallMachine W) : InstallEvent → Option (InstallMachine W)
  | .step => if (List.range 16).any s.deliverable then none else s.installStep num node
  | .request n => some { s with requests := Function.update s.requests n true }
  | .interrupt n r =>
    if n < 16 ∧ s.deliverable n = true then
      (s.irq.irqHandler code fuel r (32 + n)).map fun irq =>
        { s with irq := irq, requests := Function.update s.requests n false }
    else none
  | .caller flag => if s.pc = .done then some { s with interruptFlag := flag } else none

/-- An interrupt that is taken once the call has begun does not fall into its critical section, and
one on its line runs the handler that is installed. -/
def InterruptSafe (nodes : BitVec 64 → IrqHandlerStruct) (s : InstallMachine W) (e : InstallEvent) :
    Prop :=
  ∀ n r t, e = .interrupt n r → s.step num node code fuel e = some t → s.pc ≠ .disable →
    s.pc.inside = false ∧
      (n = num → ∃ calls, t.irq.calls = s.irq.calls ++ calls ∧
        ⟨(nodes node).handler, r, (nodes node).data⟩ ∈ calls)

end

/-- While the node is being linked, the flag is clear or no request is pending on an unmasked
line. -/
def Quiet (s : InstallMachine W) : Prop :=
  s.pc.linking = true → s.interruptFlag = true →
    ∀ n < 16, s.irq.pics.masked n = false → s.requests n = false

instance (s : InstallMachine W) : Decidable s.Quiet :=
  inferInstanceAs (Decidable (_ → _ → ∀ n < 16, _ → _))

/-- What every run keeps, `c` being the chains before the call. -/
structure InstallInv (nodes : BitVec 64 → IrqHandlerStruct) (c : Chains) (num : ℕ)
    (node : BitVec 64) (s : InstallMachine W) : Prop where
  chains : Linked nodes s.irq
    (if s.pc.linked = true then c.step (.install num node) else c)
  next : s.pc = .link → (s.irq.nodes node).next = s.irq.irqHandlers num
  masking : s.pc.masking = true → c num = []
  /-- The flag is set in the critical section only after `irq_clear_mask`. -/
  flag : s.pc.inside = true → s.interruptFlag = true → s.pc.linking = true ∧ c num = []

variable {nodes : BitVec 64 → IrqHandlerStruct} {c : Chains} {num : ℕ} {node : BitVec 64}
  {code : HandlerCall → W → W} {fuel : ℕ} {s t : InstallMachine W}

/-! ### One step -/

/-- Writing a mask register back concerns no chain. -/
theorem linked_outportb {irq : IrqState W} (h : Linked nodes irq c) {port : ℕ}
    (hport : port = 0x21 ∨ port = 0xA1) (value : BitVec 8) :
    Linked nodes (irq.outportb port value) c :=
  ⟨h.chain, h.handler, h.data, h.ready.outportb hport value⟩

theorem InstallInv.installStep (h : InstallInv nodes c num node s) (hne : node ≠ 0)
    (hfresh : ∀ n, node ∉ c n) (hst : s.installStep num node = some t) :
    InstallInv nodes c num node t := by
  obtain ⟨hchains, hnext, hmasking, hflag⟩ := h
  cases hpc : s.pc <;> simp only [InstallMachine.installStep, hpc, reduceCtorEq,
    Option.some.injEq] at hst
  all_goals subst hst
  all_goals simp only [hpc, InstallPc.linked, InstallPc.masking, InstallPc.inside,
    InstallPc.linking, Bool.false_eq_true, if_false, if_true, forall_const, false_and, true_and,
    imp_false, Bool.not_eq_true] at hchains hmasking hflag
  case disable =>
    exact ⟨hchains, InstallPc.noConfusion, fun h => absurd h Bool.noConfusion,
      fun _ h => absurd h Bool.noConfusion⟩
  case testChain =>
    by_cases hnull : s.irq.irqHandlers num = 0 ∧ num < 16
    · rw [if_pos hnull]
      exact ⟨hchains, InstallPc.noConfusion, fun _ => (hchains.chain num).eq_null_iff.mp hnull.1,
        fun _ h => absurd h (Bool.eq_false_iff.mp hflag)⟩
    · rw [if_neg hnull]
      exact ⟨hchains, InstallPc.noConfusion, fun h => absurd h Bool.noConfusion,
        fun _ h => absurd h (Bool.eq_false_iff.mp hflag)⟩
  case maskDisable =>
    exact ⟨hchains, InstallPc.noConfusion, fun _ => hmasking, fun _ h => absurd h Bool.noConfusion⟩
  case maskRead =>
    exact ⟨hchains, InstallPc.noConfusion, fun _ => hmasking,
      fun _ h => absurd h (Bool.eq_false_iff.mp hflag)⟩
  case maskWrite value =>
    refine ⟨linked_outportb hchains ?_ value, InstallPc.noConfusion, fun _ => hmasking,
      fun _ h => absurd h (Bool.eq_false_iff.mp hflag)⟩
    split
    · exact Or.inr rfl
    · exact Or.inl rfl
  case maskEnable =>
    exact ⟨hchains, InstallPc.noConfusion, fun h => absurd h Bool.noConfusion,
      fun _ _ => ⟨rfl, hmasking⟩⟩
  case setNext =>
    obtain ⟨hset, hnext⟩ := hchains.setNext num hfresh
    exact ⟨hset, fun _ => hnext, fun h => absurd h Bool.noConfusion, fun _ h => ⟨rfl, hflag h⟩⟩
  case link =>
    exact ⟨hchains.link hne (hnext hpc), InstallPc.noConfusion, fun h => absurd h Bool.noConfusion,
      fun _ h => ⟨rfl, hflag h⟩⟩
  case enable =>
    exact ⟨hchains, InstallPc.noConfusion, fun h => absurd h Bool.noConfusion,
      fun h => absurd h Bool.noConfusion⟩

/-- An interrupt runs the handlers on its line, and leaves everything the invariant is about. -/
theorem InstallInv.interrupt (h : InstallInv nodes c num node s)
    (hfuel : ∀ n < 16, (c n).length + 1 < fuel) {n : ℕ} (hn : n < 16)
    (hdel : s.deliverable n = true) (r : BitVec 64) :
    s.step num node code fuel (.interrupt n r) = some { s with
      irq := s.irq.deliver code (handlerCalls nodes r
        ((if s.pc.linked = true then c.step (.install num node) else c) n))
      requests := Function.update s.requests n false } := by
  have hlen : ((if s.pc.linked = true then c.step (.install num node) else c) n).length < fuel := by
    have := hfuel n hn
    split
    · rw [Chains.step]
      rcases eq_or_ne n num with rfl | hne
      · rwa [Function.update_self]
      · rw [Function.update_of_ne hne]
        omega
    · omega
  rw [step, if_pos ⟨hn, hdel⟩, h.chains.irqHandler code (by omega) hlen, Option.map_some]

theorem InstallInv.step (h : InstallInv nodes c num node s) (hne : node ≠ 0)
    (hfresh : ∀ n, node ∉ c n) (hfuel : ∀ n < 16, (c n).length + 1 < fuel) {e : InstallEvent}
    (hst : s.step num node code fuel e = some t) : InstallInv nodes c num node t := by
  cases e with
  | step =>
    obtain ⟨-, hst⟩ := Option.ite_none_left_eq_some.mp hst
    exact h.installStep hne hfresh hst
  | request n =>
    obtain rfl := Option.some.inj hst
    exact ⟨h.chains, h.next, h.masking, h.flag⟩
  | interrupt n r =>
    obtain ⟨⟨hn, hdel⟩, -⟩ := Option.ite_none_right_eq_some.mp hst
    obtain rfl := Option.some.inj ((h.interrupt hfuel hn hdel r).symm.trans hst)
    exact ⟨h.chains.deliver code _, h.next, h.masking, h.flag⟩
  | caller flag =>
    obtain ⟨hpc, hst⟩ := Option.ite_none_right_eq_some.mp hst
    obtain rfl := Option.some.inj hst
    refine ⟨h.chains, h.next, h.masking, fun hin => ?_⟩
    rw [hpc] at hin
    exact absurd hin Bool.noConfusion

/-! ### Interrupts -/

/-- An interrupt during the call is taken in the unprotected part of the critical section, and only
on a line that has a request pending. -/
theorem InstallInv.interruptSafe (h : InstallInv nodes c num node s)
    (hfuel : ∀ n < 16, (c n).length + 1 < fuel) (hquiet : s.Quiet) (e : InstallEvent) :
    InterruptSafe num node code fuel nodes s e := by
  rintro n r t rfl hst hbegun
  obtain ⟨⟨hn, hdel⟩, -⟩ := Option.ite_none_right_eq_some.mp hst
  have hirq : s.step num node code fuel (.interrupt n r) = _ := h.interrupt hfuel hn hdel r
  obtain ⟨⟨hif, hmask⟩, hreq⟩ : (s.interruptFlag = true ∧ s.irq.pics.masked n = false) ∧
      s.requests n = true := by
    simpa [deliverable] using hdel
  have hout : s.pc.inside = false := by
    by_contra hin
    have hlinking := (h.flag (Bool.not_eq_false _ ▸ hin) hif).1
    exact Bool.false_ne_true ((hquiet hlinking hif n hn hmask).symm.trans hreq)
  refine ⟨hout, ?_⟩
  rintro rfl
  obtain rfl := Option.some.inj (hirq.symm.trans hst)
  have hlinked : s.pc.linked = true := by
    cases hpc : s.pc <;> rw [hpc] at hout hbegun <;> first | rfl | contradiction
  refine ⟨_, rfl, List.mem_map.mpr ⟨node, ?_, rfl⟩⟩
  rw [if_pos hlinked, Chains.step, Function.update_self]
  exact List.mem_cons_self

/-- With a request pending behind the flag the next thing that happens is an interrupt in the
critical section, unless it is another request. -/
theorem InstallInv.not_interruptSafe (h : InstallInv nodes c num node s)
    (hfuel : ∀ n < 16, (c n).length + 1 < fuel) (hquiet : ¬ s.Quiet) :
    s.step num node code fuel .step = none ∧ ∃ n, ∀ r,
      (∃ t, s.step num node code fuel (.interrupt n r) = some t) ∧
        ¬ InterruptSafe num node code fuel nodes s (.interrupt n r) := by
  simp only [Quiet, not_forall, Bool.not_eq_false] at hquiet
  obtain ⟨hlinking, hif, n, hn, hmask, hreq⟩ := hquiet
  have hdel : s.deliverable n = true := by
    rw [deliverable, hif, hmask, hreq]
    rfl
  have hany : (List.range 16).any s.deliverable = true :=
    List.any_eq_true.mpr ⟨n, List.mem_range.mpr hn, hdel⟩
  have hinside : s.pc.inside = true ∧ s.pc ≠ .disable := by
    cases hpc : s.pc <;> rw [hpc] at hlinking <;>
      first | exact ⟨rfl, InstallPc.noConfusion⟩ | contradiction
  refine ⟨if_pos hany, n, fun r => ⟨⟨_, h.interrupt hfuel hn hdel r⟩, fun hsafe => ?_⟩⟩
  have hout := (hsafe n r _ rfl (h.interrupt hfuel hn hdel r) hinside.2).1
  exact Bool.false_ne_true (hout.symm.trans hinside.1)

/-- The start of a call, the chains being given. -/
def start (flag : Bool) (irq : IrqState W) (requests : ℕ → Bool) : InstallMachine W :=
  ⟨.disable, flag, irq, requests⟩

theorem installInv_start {irq : IrqState W} (h : Linked nodes irq c) (num : ℕ) (node : BitVec 64)
    (flag : Bool) (requests : ℕ → Bool) :
    InstallInv nodes c num node (start flag irq requests) :=
  ⟨h, InstallPc.noConfusion, fun h => absurd h Bool.noConfusion,
    fun h => absurd h Bool.noConfusion⟩

/-- **Installing a handler loses no interrupt, and is not interrupted, if the line has a handler
already, or if no request is pending on an unmasked line while the node is being linked behind the
`enable()` of `irq_clear_mask`.** Where one is pending, an interrupt is taken at once, in the middle
of the update. -/
theorem install_along {irq : IrqState W} (h : Linked nodes irq c) (num : ℕ) (hne : node ≠ 0)
    (hfresh : ∀ n, node ∉ c n) (code : HandlerCall → W → W)
    (hfuel : ∀ n < 16, (c n).length + 1 < fuel) (flag : Bool) (requests : ℕ → Bool)
    (es : List InstallEvent) :
    (c num ≠ [] ∨
        Along (step num node code fuel) (fun s _ => s.Quiet) (start flag irq requests) es →
      Along (step num node code fuel) (InterruptSafe num node code fuel nodes)
        (start flag irq requests) es) ∧
    ∀ s, run (step num node code fuel) (start flag irq requests) es = some s → ¬ s.Quiet →
      s.step num node code fuel .step = none ∧ ∃ n, ∀ r,
        (∃ t, s.step num node code fuel (.interrupt n r) = some t) ∧
          ¬ InterruptSafe num node code fuel nodes s (.interrupt n r) := by
  have h₀ := installInv_start h num node flag requests
  have hstep : ∀ (s : InstallMachine W) (e : InstallEvent) (t : InstallMachine W),
      InstallInv nodes c num node s → s.step num node code fuel e = some t →
      InstallInv nodes c num node t := fun _ _ _ hi hst => hi.step hne hfresh hfuel hst
  refine ⟨?_, fun s hrun hquiet => ?_⟩
  · rintro (hc | hquiet)
    · refine along_of_along (P := fun _ _ => True) (InstallInv nodes c num node)
        (fun s e t hi _ hst => hstep s e t hi hst) (fun s e hi _ => ?_) h₀
        (along_of_forall_mem fun _ _ _ => trivial)
      refine hi.interruptSafe hfuel (fun hlinking hif => ?_) e
      have hinside : s.pc.inside = true := by
        cases hpc : s.pc <;> rw [hpc] at hlinking <;> first | rfl | contradiction
      exact absurd (hi.flag hinside hif).2 hc
    · exact along_of_along (InstallInv nodes c num node)
        (fun s e t hi _ hst => hstep s e t hi hst)
        (fun s e hi hquiet => hi.interruptSafe hfuel hquiet e) h₀ hquiet
  · exact (invariant_of_run (InstallInv nodes c num node) hstep h₀ hrun).not_interruptSafe hfuel
      hquiet

/-- The state `setup_idt` leaves, before the handler of the timer is installed. -/
def beforeTimer : InstallMachine Unit :=
  start true (IrqState.initial (fun _ => ⟨0x100000, 0, 0⟩) ⟨⟨0, 0⟩, ⟨0, 0⟩⟩ ()) fun _ => false

/-- The timer requests an interrupt before its handler is installed, and the request waits until
`irq_clear_mask` has enabled interrupts. -/
def timerPending : List InstallEvent := .request 0 :: List.replicate 6 .step

def timerRequest : List InstallEvent := timerPending ++ [.interrupt 0 0xefff0]

/-- The timer waits for the end of the call. -/
def timerInstalled : List InstallEvent :=
  List.replicate 9 .step ++ [.request 0, .interrupt 0 0xefff0]

/-- The theorem at both runs: after the call the handler is called, and inside the call the request
gets in the way. -/
theorem install_along_timer :
    (∃ s, run (step 0 0x300000 (fun _ w => w) 4) beforeTimer timerInstalled = some s ∧
      s.irq.calls = [⟨0x100000, 0xefff0, 0⟩]) ∧
    Along (step 0 0x300000 (fun _ w => w) 4)
      (InterruptSafe 0 0x300000 (fun _ w => w) 4 fun _ => ⟨0x100000, 0, 0⟩) beforeTimer
      timerInstalled ∧
    ∃ s, run (step 0 0x300000 (fun _ w => w) 4) beforeTimer timerPending = some s ∧
      s.step 0 0x300000 (fun _ w => w) 4 .step = none ∧ ∃ n, ∀ r,
        (∃ t, s.step 0 0x300000 (fun _ w => w) 4 (.interrupt n r) = some t) ∧
          ¬ InterruptSafe 0 0x300000 (fun _ w => w) 4 (fun _ => ⟨0x100000, 0, 0⟩) s
            (.interrupt n r) := by
  have hlinked := (represents_initial (fun _ => ⟨0x100000, 0, 0⟩) ⟨⟨0, 0⟩, ⟨0, 0⟩⟩ ()).toLinked
  have hquiet : Along (step 0 0x300000 (fun _ w => w) 4) (fun s _ => s.Quiet) beforeTimer
      timerInstalled := by
    decide +kernel
  have hne : (0x300000 : BitVec 64) ≠ 0 := by decide
  have hfuel : ∀ n < 16, ([] : List (BitVec 64)).length + 1 < 4 := fun _ _ => by decide
  have htimer := install_along hlinked 0 hne (fun _ => List.not_mem_nil) (fun _ w => w) hfuel true
    (fun _ => false)
  exact ⟨⟨_, rfl, rfl⟩, (htimer timerInstalled).1 (Or.inr hquiet),
    _, rfl, (htimer timerPending).2 _ rfl (by decide +kernel)⟩

/-- **The request is served before the node is linked**: no handler is called. -/
theorem not_interruptSafe_timer :
    (∃ s, run (step 0 0x300000 (fun _ w => w) 4) beforeTimer timerRequest = some s ∧
      s.irq.calls = []) ∧
    ¬ Along (step 0 0x300000 (fun _ w => w) 4)
      (InterruptSafe 0 0x300000 (fun _ w => w) 4 fun _ => ⟨0x100000, 0, 0⟩) beforeTimer
      timerRequest := by
  refine ⟨⟨_, rfl, rfl⟩, fun h => ?_⟩
  rw [timerRequest] at h
  have hlast := Along.of_append h rfl
  have hout := (hlast.1 0 0xefff0 _ rfl rfl InstallPc.noConfusion).1
  exact Bool.false_ne_true hout.symm

end InstallMachine

end FrogOS
