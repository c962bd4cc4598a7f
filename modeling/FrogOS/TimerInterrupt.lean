import FrogOS.ContextSwitch

/-!
# The timer interrupt path

The instructions from the acceptance of IRQ 0 to its `iretq`: the entry `irq32`, `irq_stub`, the
part of `irq_handler` that a timer interrupt goes through, and `pit_handler`. The interrupt
controller latches a request (`irr`) and delivers it when the interrupt flag is set and no earlier
one is in service (`isr`); the gate is a trap gate (`0xEF`), so delivery leaves the flag alone.

On the way in, the in-service bit keeps a second timer interrupt out. On the way out nothing does:
`pit_handler` ends with an unconditional `enable`, and `irq_handler` then writes the end of
interrupt to port `0x20`, so from there to `iretq`, which would restore the flag anyway, a latched
request is delivered. The path is not re-entered exactly as long as no request arrives while it
runs.

A frame is the place where an interrupt hit, with the flag of the saved `rflags`: the code of a
process, which can do anything a process and its system calls do to the kernel, or the path itself.

## Main definitions

* `PathPc`, `IrqMachine`, `IrqMachine.step` — the machine
* `ArrivesOutside`, `AcceptsOutside` — the condition on a step, and what is expected of it
* `PathInv` — the invariant

## Main results

* `timerPath_along` — with requests outside the path only, it is not re-entered and every saved
  frame is one of the process's own; a request inside the path is accepted inside
-/

namespace FrogOS

open ContextMemory Kernel StepSystem

/-- How many instructions of `irq_stub` lie between its `cli` and the first test of `irq_handler`:
15 pushes, 4 segment registers with a move and a push each, 5 moves that load them, and the two
arguments and the call. -/
def saveCount : ℕ := 15 + 8 + 5 + 3

/-- How many lie between the end of `irq_handler` and `iretq`: 4 segment registers with a pop and a
move each, 15 pops, and the removal of number and error code. -/
def restoreCount : ℕ := 8 + 15 + 1

/-- The instructions of the path. -/
inductive PathPc
  /-- `irq32`: `cli`, and the two pushes. -/
  | entry
  | pushError
  | pushNumber
  /-- `irq_stub`: `cli`, and the instructions that save registers. -/
  | stubCli
  | save (i : ℕ)
  /-- `irq_handler`: the head of the chain is `pit_handler`'s node. -/
  | handler
  /-- `pit_handler`: `++pit_counter`, `disable()`, `schedule_process(...)`, `enable()`. -/
  | count
  | disable
  | schedule
  | enable
  /-- The end of the chain. -/
  | chainEnd
  /-- `outportb(0x20, 0x20)`. -/
  | endOfInterrupt
  /-- The instructions that restore registers. -/
  | restore (i : ℕ)
  | iretq
  deriving DecidableEq

/-- The end of interrupt has been written. -/
def PathPc.acknowledged : PathPc → Bool
  | restore _ | iretq => true
  | _ => false

/-- `pit_handler` has executed `enable`. -/
def PathPc.enabled : PathPc → Bool
  | chainEnd | endOfInterrupt | restore _ | iretq => true
  | _ => false

/-- How many instructions of the path are left up to the end of interrupt. -/
def PathPc.remaining : PathPc → ℕ
  | restore _ | iretq => 0
  | endOfInterrupt => 1
  | chainEnd => 2
  | enable => 3
  | schedule => 4
  | disable => 5
  | count => 6
  | handler => 7
  | save i => 8 + (saveCount - 1 - i)
  | stubCli => 8 + saveCount
  | pushNumber => 9 + saveCount
  | pushError => 10 + saveCount
  | entry => 11 + saveCount

/-- Where execution stands: in the code of a process, `none` being `cmain`, or on the path. -/
inductive Location
  | code (owner : Option ℕ) (position : BitVec 64)
  | path (pc : PathPc)
  deriving DecidableEq

/-- What an interrupt saves: `rip` and the interrupt flag of `rflags`. -/
structure IrqFrame where
  rip : Location
  interruptFlag : Bool
  deriving DecidableEq

/-- A new process starts at its entry point, with the flag set. -/
def initialIrqFrame (i : ContextInit) : IrqFrame := ⟨.code (some i.pid) i.entryPoint, true⟩

abbrev IrqMap := FrameMap IrqFrame initialIrqFrame

structure IrqMachine where
  kernel : Kernel IrqMap
  rip : Location
  interruptFlag : Bool
  /-- A request of the timer is latched. -/
  irr : Bool
  /-- A timer interrupt is in service. -/
  isr : Bool
  /-- The frames of the interrupts that have not returned, the latest first. -/
  stack : List IrqFrame

inductive IrqEvent
  /-- The timer requests an interrupt. -/
  | arrive
  /-- The processor accepts a request, or executes its next instruction. In the code of a process,
  that instruction has the given effect and leads to the given place. -/
  | cpu (effect : CodeEffect) (next : BitVec 64)

namespace IrqMachine

/-- The state `setup_process` leaves with `n` user processes. -/
def initial (mem : IrqMap) (init userTask : BitVec 64) (n : ℕ) : IrqMachine where
  kernel := boot mem init userTask n
  rip := .code none 0
  interruptFlag := true
  irr := false
  isr := false
  stack := []

/-- A request is delivered before the next instruction. -/
def accepts (s : IrqMachine) : Bool := s.interruptFlag && s.irr && !s.isr

/-- Delivery, through a trap gate. -/
def accept (s : IrqMachine) : IrqMachine :=
  { s with
    rip := .path .entry
    irr := false
    isr := true
    stack := ⟨s.rip, s.interruptFlag⟩ :: s.stack }

def codeStep (s : IrqMachine) (owner : Option ℕ) (effect : CodeEffect) (next : BitVec 64) :
    IrqMachine :=
  { s with
    kernel := s.kernel.applyEffect effect
    rip := .code owner next
    interruptFlag := match effect with
      | .disable => false
      | .enable => true
      | _ => s.interruptFlag }

/-- The next instruction of the path. -/
def pathStep (s : IrqMachine) : PathPc → Option IrqMachine
  | .entry => some { s with rip := .path .pushError, interruptFlag := false }
  | .pushError => some { s with rip := .path .pushNumber }
  | .pushNumber => some { s with rip := .path .stubCli }
  | .stubCli => some { s with rip := .path (.save 0), interruptFlag := false }
  | .save i => some { s with
      rip := .path (if i + 1 < saveCount then .save (i + 1) else .handler) }
  | .handler => some { s with rip := .path .count }
  | .count => some { s with
      kernel := { s.kernel with pitCounter := s.kernel.pitCounter + 1 }
      rip := .path .disable }
  | .disable => some { s with rip := .path .schedule, interruptFlag := false }
  | .schedule => match s.stack with
    | [] => none
    | f :: rest => some { s with
        kernel := (s.kernel.scheduleProcess f).1
        rip := .path .enable
        stack := (s.kernel.scheduleProcess f).2 :: rest }
  | .enable => some { s with rip := .path .chainEnd, interruptFlag := true }
  | .chainEnd => some { s with rip := .path .endOfInterrupt }
  | .endOfInterrupt => some { s with rip := .path (.restore 0), isr := false }
  | .restore i => some { s with
      rip := .path (if i + 1 < restoreCount then .restore (i + 1) else .iretq) }
  | .iretq => match s.stack with
    | [] => none
    | f :: rest => some { s with
        rip := f.rip
        interruptFlag := f.interruptFlag
        stack := rest }

def step (s : IrqMachine) : IrqEvent → Option IrqMachine
  | .arrive => some { s with irr := true }
  | .cpu effect next =>
    if s.accepts = true then some s.accept
    else match s.rip with
      | .code owner _ => some (s.codeStep owner effect next)
      | .path pc => s.pathStep pc

/-- No timer interrupt arrives between the acceptance of one and its `iretq`. -/
def ArrivesOutside (s : IrqMachine) : IrqEvent → Prop
  | .arrive => ∃ owner position, s.rip = .code owner position
  | .cpu _ _ => True

instance (s : IrqMachine) : ∀ e, Decidable (ArrivesOutside s e)
  | .arrive =>
    match h : s.rip with
    | .code owner position => isTrue ⟨owner, position, h⟩
    | .path _ => isFalse fun ⟨_, _, hcode⟩ => Location.noConfusion (h.symm.trans hcode)
  | .cpu _ _ => isTrue trivial

/-- No timer interrupt is accepted there. -/
def AcceptsOutside (s : IrqMachine) : IrqEvent → Prop
  | .arrive => True
  | .cpu _ _ => s.accepts = true → ∃ owner position, s.rip = .code owner position

/-- Every saved frame is a frame of the process's own code. -/
def SavedOwn (n : ℕ) (k : Kernel IrqMap) : Prop :=
  ∀ p < n + 1, ∃ position, (k.saved p).rip = .code (some p) position

/-- The flags on the path. -/
structure OnPath (s : IrqMachine) (pc : PathPc) : Prop where
  rip : s.rip = .path pc
  isr : s.isr = !pc.acknowledged
  enabled : pc.enabled = true → s.interruptFlag = true
  stack : s.stack ≠ []

/-- The invariant. -/
structure PathInv (n : ℕ) (s : IrqMachine) : Prop where
  fit : FramesFit (n + 1) s.kernel
  saved : SavedOwn n s.kernel
  code : ∀ owner position, s.rip = .code owner position →
    owner = s.kernel.currentPid ∧ s.stack = []
  path : ∀ pc, s.rip = .path pc → s.irr = false ∧ OnPath s pc ∧
    ∃ position flag, s.stack = [⟨.code s.kernel.currentPid position, flag⟩]

variable {n : ℕ} {s t : IrqMachine}

theorem pathInv_initial (mem : IrqMap) (init userTask : BitVec 64) (hn : n < maxProcesses) :
    PathInv n (IrqMachine.initial mem init userTask n) := by
  have h := setupSpec_boot mem init userTask hn
  rw [IrqMachine.initial]
  generalize boot mem init userTask n = k at h ⊢
  refine ⟨h.framesFit (Nat.succ_pos n), fun p hp => ?_, fun owner position hrip => ?_,
    fun pc hrip => Location.noConfusion hrip⟩
  · obtain ⟨rsp, hf⟩ := h.frame p hp
    exact ⟨_, congrArg IrqFrame.rip hf⟩
  · obtain ⟨rfl, -⟩ := Location.code.inj hrip
    exact ⟨h.currentPid.symm, rfl⟩

/-! ### One step of the processor -/

theorem step_cpu_of_accepts {effect : CodeEffect} {next : BitVec 64} (h : s.accepts = true) :
    s.step (.cpu effect next) = some s.accept := if_pos h

theorem step_cpu_of_code {effect : CodeEffect} {next : BitVec 64} {owner : Option ℕ}
    {position : BitVec 64} (h : ¬ s.accepts = true) (hrip : s.rip = .code owner position) :
    s.step (.cpu effect next) = some (s.codeStep owner effect next) := by
  rw [step, if_neg h, hrip]

theorem step_cpu_of_path {effect : CodeEffect} {next : BitVec 64} {pc : PathPc}
    (h : ¬ s.accepts = true) (hrip : s.rip = .path pc) :
    s.step (.cpu effect next) = s.pathStep pc := by
  rw [step, if_neg h, hrip]

theorem pathStep_schedule {f : IrqFrame} {rest : List IrqFrame} (h : s.stack = f :: rest) :
    s.pathStep .schedule = some { s with
      kernel := (s.kernel.scheduleProcess f).1
      rip := .path .enable
      stack := (s.kernel.scheduleProcess f).2 :: rest } := by
  simp only [pathStep, h]

theorem pathStep_iretq {f : IrqFrame} {rest : List IrqFrame} (h : s.stack = f :: rest) :
    s.pathStep .iretq = some { s with
      rip := f.rip
      interruptFlag := f.interruptFlag
      stack := rest } := by
  simp only [pathStep, h]

theorem PathInv.accept (h : PathInv n s) (ha : s.accepts = true) : PathInv n s.accept := by
  have hirr : s.irr = true := by
    simp only [accepts, Bool.and_eq_true] at ha
    exact ha.1.2
  -- on the path no request is latched, so this hits the code of the current process
  obtain ⟨owner, position, hrip⟩ : ∃ owner position, s.rip = .code owner position := by
    cases hrip : s.rip with
    | code owner position => exact ⟨owner, position, rfl⟩
    | path pc => exact absurd (hirr.symm.trans (h.path pc hrip).1) (by decide)
  obtain ⟨rfl, hstack⟩ := h.code owner position hrip
  refine ⟨h.fit, h.saved, fun owner position hrip => Location.noConfusion hrip, fun pc hpc => ?_⟩
  obtain rfl := Location.path.inj hpc
  refine ⟨rfl, ⟨rfl, rfl, fun he => absurd he Bool.false_ne_true, List.cons_ne_nil _ _⟩, position,
    s.interruptFlag, ?_⟩
  rw [IrqMachine.accept, hrip, hstack]

theorem PathInv.codeStep (h : PathInv n s) {owner : Option ℕ} {position : BitVec 64}
    (hrip : s.rip = .code owner position) (effect : CodeEffect) (next : BitVec 64) :
    PathInv n (s.codeStep owner effect next) := by
  obtain ⟨hsame, hslots⟩ := h.fit.applyEffect effect
  obtain ⟨rfl, hstack⟩ := h.code owner position hrip
  refine ⟨h.fit.congr hsame hslots, fun p hp => ?_, fun owner position hrip => ?_,
    fun pc hrip => Location.noConfusion hrip⟩
  · obtain ⟨position, hp⟩ := h.saved p hp
    exact ⟨position, (congrArg IrqFrame.rip (hsame.saved p)).trans hp⟩
  · obtain ⟨rfl, -⟩ := Location.code.inj hrip
    exact ⟨hsame.currentPid.symm, hstack⟩

/-- What an instruction of the path does to the flags, before `iretq`. -/
theorem OnPath.pathStep {pc : PathPc} (h : OnPath s pc) (hpc : pc ≠ .iretq) :
    ∃ t pc', s.pathStep pc = some t ∧ OnPath t pc' ∧ t.irr = s.irr ∧
      (pc.acknowledged = false → pc'.remaining + 1 = pc.remaining) := by
  obtain ⟨hrip, hisr, hen, hstack⟩ := h
  have hoff : false = true → s.interruptFlag = true := fun he => absurd he Bool.false_ne_true
  cases pc with
  | iretq => exact absurd rfl hpc
  | schedule =>
    cases hs : s.stack with
    | nil => exact absurd hs hstack
    | cons f rest =>
      exact ⟨_, .enable, pathStep_schedule hs, ⟨rfl, hisr, hoff, List.cons_ne_nil _ _⟩, rfl,
        fun _ => rfl⟩
  | save i =>
    by_cases hi : i + 1 < saveCount
    · refine ⟨_, .save (i + 1), rfl, ⟨congrArg _ (if_pos hi), hisr, hoff, hstack⟩, rfl, fun _ => ?_⟩
      simp only [PathPc.remaining]
      omega
    · refine ⟨_, .handler, rfl, ⟨congrArg _ (if_neg hi), hisr, hoff, hstack⟩, rfl, fun _ => ?_⟩
      simp only [PathPc.remaining]
      omega
  | restore i =>
    refine ⟨_, _, rfl, ⟨rfl, ?_, fun _ => hen rfl, hstack⟩, rfl, fun ha => ?_⟩
    · split <;> exact hisr
    · exact absurd ha.symm Bool.false_ne_true
  | enable => exact ⟨_, .chainEnd, rfl, ⟨rfl, hisr, fun _ => rfl, hstack⟩, rfl, fun _ => rfl⟩
  | chainEnd =>
    exact ⟨_, .endOfInterrupt, rfl, ⟨rfl, hisr, fun _ => hen rfl, hstack⟩, rfl, fun _ => rfl⟩
  | endOfInterrupt =>
    exact ⟨_, .restore 0, rfl, ⟨rfl, rfl, fun _ => hen rfl, hstack⟩, rfl, fun _ => rfl⟩
  | entry =>
    exact ⟨_, .pushError, rfl, ⟨rfl, hisr, fun he => absurd he Bool.false_ne_true, hstack⟩, rfl,
      fun _ => rfl⟩
  | stubCli =>
    refine ⟨_, .save 0, rfl, ⟨rfl, hisr, fun he => absurd he Bool.false_ne_true, hstack⟩, rfl,
      fun _ => ?_⟩
    rfl
  | disable =>
    exact ⟨_, .schedule, rfl, ⟨rfl, hisr, fun he => absurd he Bool.false_ne_true, hstack⟩, rfl,
      fun _ => rfl⟩
  | pushError | pushNumber | handler | count =>
    exact ⟨_, _, rfl, ⟨rfl, hisr, hoff, hstack⟩, rfl, fun _ => rfl⟩

/-- `schedule_process`, called on a frame of the current process, keeps saved frames where they
belong and leaves a frame of the process it has started. -/
theorem savedOwn_scheduleProcess {k : Kernel IrqMap} (hfit : FramesFit (n + 1) k)
    (hsaved : SavedOwn n k) {f : IrqFrame} {position : BitVec 64}
    (hf : f.rip = .code k.currentPid position) :
    FramesFit (n + 1) (k.scheduleProcess f).1 ∧ SavedOwn n (k.scheduleProcess f).1 ∧
      ∃ position', (k.scheduleProcess f).2.rip
        = .code (k.scheduleProcess f).1.currentPid position' := by
  obtain ⟨hfit', ⟨hframe, hsame⟩ | ⟨p, hp, hcur, -, -, hsv, hframe⟩⟩ :=
    scheduleProcess_frames hfit f
  · refine ⟨hfit', fun q hq => ?_, position, ?_⟩
    · rw [hsame.saved]
      exact hsaved q hq
    · rw [hframe, hsame.currentPid, hf]
  · have hown : SavedOwn n (k.scheduleProcess f).1 := by
      intro q hq
      rw [hsv q hq]
      split
      · next hc => exact ⟨position, by rw [hf, hc]⟩
      · exact hsaved q hq
    obtain ⟨position', hp'⟩ := hown p hp
    exact ⟨hfit', hown, position', by rw [hframe, hcur, hp']⟩

theorem PathInv.pathStep (h : PathInv n s) {pc : PathPc} (hrip : s.rip = .path pc)
    (hst : s.pathStep pc = some t) : PathInv n t := by
  obtain ⟨hirr, hpath, position, flag, hstack⟩ := h.path pc hrip
  by_cases hlast : pc = .iretq
  · -- the code of the current process goes on
    subst hlast
    obtain rfl := Option.some.inj ((pathStep_iretq hstack).symm.trans hst)
    refine ⟨h.fit, h.saved, fun owner position hc => ?_, fun pc hc => Location.noConfusion hc⟩
    obtain ⟨rfl, -⟩ := Location.code.inj hc
    exact ⟨rfl, rfl⟩
  obtain ⟨t', pc', hst', hpath', hirr', -⟩ := hpath.pathStep hlast
  obtain rfl : t = t' := Option.some.inj (hst.symm.trans hst')
  suffices hk : FramesFit (n + 1) t.kernel ∧ SavedOwn n t.kernel ∧
      ∃ position flag, t.stack = [⟨.code t.kernel.currentPid position, flag⟩] by
    refine ⟨hk.1, hk.2.1, fun owner position hc => ?_,
      fun pc'' hc => ⟨hirr'.trans hirr, ?_, hk.2.2⟩⟩
    · exact absurd (hpath'.rip.symm.trans hc) Location.noConfusion
    · obtain rfl : pc' = pc'' := Location.path.inj (hpath'.rip.symm.trans hc)
      exact hpath'
  cases pc with
  | iretq => exact absurd rfl hlast
  | schedule =>
    obtain rfl := Option.some.inj ((pathStep_schedule hstack).symm.trans hst)
    obtain ⟨hfit, hown, position', hrip'⟩ := savedOwn_scheduleProcess h.fit h.saved
      (f := ⟨.code s.kernel.currentPid position, flag⟩) rfl
    exact ⟨hfit, hown, position', _, congrArg (fun rip => [IrqFrame.mk rip _]) hrip'⟩
  | count =>
    obtain rfl := Option.some.inj hst
    exact ⟨h.fit.congr (sameFrames_runQueue s.kernel _ _) h.fit.slots, h.saved, position, flag,
      hstack⟩
  | entry | pushError | pushNumber | stubCli | save | handler | disable | enable | chainEnd
  | endOfInterrupt | restore =>
    obtain rfl := Option.some.inj hst
    exact ⟨h.fit, h.saved, position, flag, hstack⟩

theorem PathInv.step (h : PathInv n s) {e : IrqEvent} (he : ArrivesOutside s e)
    (hst : s.step e = some t) : PathInv n t := by
  cases e with
  | arrive =>
    obtain ⟨owner, position, hrip⟩ := he
    obtain rfl := Option.some.inj hst
    exact ⟨h.fit, h.saved, h.code, fun pc hpc => absurd (hrip.symm.trans hpc) Location.noConfusion⟩
  | cpu effect next =>
    by_cases ha : s.accepts = true
    · obtain rfl := Option.some.inj ((step_cpu_of_accepts ha).symm.trans hst)
      exact h.accept ha
    cases hrip : s.rip with
    | code owner position =>
      obtain rfl := Option.some.inj ((step_cpu_of_code ha hrip).symm.trans hst)
      exact h.codeStep hrip effect next
    | path pc => exact h.pathStep hrip ((step_cpu_of_path ha hrip).symm.trans hst)

theorem PathInv.acceptsOutside (h : PathInv n s) (e : IrqEvent) : AcceptsOutside s e := by
  cases e with
  | arrive => trivial
  | cpu effect next =>
    intro ha
    cases hrip : s.rip with
    | code owner position => exact ⟨owner, position, rfl⟩
    | path pc =>
      rw [accepts, (h.path pc hrip).1, Bool.and_false, Bool.false_and] at ha
      exact absurd ha Bool.false_ne_true

/-! ### A request on the path -/

/-- After the end of interrupt, a latched request is delivered. -/
theorem OnPath.accepts {pc : PathPc} (h : OnPath s pc) (hpc : pc.acknowledged = true)
    (hirr : s.irr = true) : s.accepts = true := by
  have hen : pc.enabled = true := by
    cases pc with
    | restore | iretq => rfl
    | _ => exact absurd hpc Bool.false_ne_true
  rw [IrqMachine.accepts, h.enabled hen, hirr, h.isr, hpc]
  rfl

/-- A request that is latched on the path is accepted on the path, as soon as the end of interrupt
has been written. -/
theorem OnPath.exists_accepts {pc : PathPc} (h : OnPath s pc) (hirr : s.irr = true) :
    ∃ t pc', run IrqMachine.step s (List.replicate pc.remaining (.cpu .compute 0)) = some t ∧
      OnPath t pc' ∧ t.accepts = true := by
  generalize hk : pc.remaining = k
  induction k generalizing s pc with
  | zero =>
    have hack : pc.acknowledged = true := by
      cases pc <;> simp only [PathPc.remaining] at hk
      case restore | iretq => rfl
      all_goals omega
    exact ⟨s, pc, rfl, h, h.accepts hack hirr⟩
  | succ k ih =>
    have hack : pc.acknowledged = false := by
      cases pc with
      | restore | iretq => exact absurd hk (Nat.succ_ne_zero k).symm
      | _ => rfl
    have hnot : ¬ s.accepts = true := by
      rw [IrqMachine.accepts, h.isr, hack, Bool.not_false, Bool.not_true, Bool.and_false]
      exact Bool.false_ne_true
    have hlast : pc ≠ .iretq := by
      rintro rfl
      exact absurd hack.symm Bool.false_ne_true
    obtain ⟨t, pc', hst, hpath, hirr', hrem⟩ := h.pathStep hlast
    obtain ⟨u, pc'', hrun, hu⟩ := ih hpath (hirr'.trans hirr) (by have := hrem hack; omega)
    refine ⟨u, pc'', ?_, hu⟩
    rw [List.replicate_succ, run, step_cpu_of_path hnot h.rip, hst, Option.bind_some, hrun]

/-- **The timer interrupt path is not re-entered, and every saved frame is one of the process's own,
in every run in which no request arrives on the path.** In any other run, the request leads to an
acceptance on the path. -/
theorem timerPath_along (mem : IrqMap) (init userTask : BitVec 64) (hn : n < maxProcesses)
    (es : List IrqEvent)
    (ha : Along IrqMachine.step ArrivesOutside (IrqMachine.initial mem init userTask n) es) :
    Along IrqMachine.step AcceptsOutside (IrqMachine.initial mem init userTask n) es ∧
      ∀ s, run IrqMachine.step (IrqMachine.initial mem init userTask n) es = some s →
        SavedOwn n s.kernel ∧
          (¬ ArrivesOutside s .arrive → ∃ k t,
            run IrqMachine.step s (.arrive :: List.replicate k (.cpu .compute 0)) = some t ∧
              ¬ AcceptsOutside t (.cpu .compute 0)) := by
  have h₀ := pathInv_initial mem init userTask hn
  refine ⟨along_of_along (PathInv n) (fun _ _ _ hi he hst => hi.step he hst)
    (fun _ e hi _ => hi.acceptsOutside e) h₀ ha, fun s hr => ?_⟩
  have h : PathInv n s := invariant_of_along (PathInv n) (fun _ _ _ hi he hst => hi.step he hst)
    h₀ ha hr
  refine ⟨h.saved, fun hin => ?_⟩
  cases hrip : s.rip with
  | code owner position => exact absurd ⟨owner, position, hrip⟩ hin
  | path pc =>
    obtain ⟨-, ⟨hrip, hisr, hen, hstack⟩, -⟩ := h.path pc hrip
    obtain ⟨t, pc', hrun, hpath, hacc⟩ := OnPath.exists_accepts (s := { s with irr := true })
      ⟨hrip, hisr, hen, hstack⟩ rfl
    refine ⟨pc.remaining, t, hrun, fun hout => ?_⟩
    obtain ⟨owner, position, hcode⟩ := hout hacc
    exact Location.noConfusion (hpath.rip.symm.trans hcode)

/-- The machine with the four user processes of the source. -/
def sourceIrqMachine : IrqMachine :=
  IrqMachine.initial ⟨fun _ => initialIrqFrame ⟨0, false, 0, 0⟩⟩ 0x200000 0x200100 4

/-- A tick in the final loop of `cmain`, up to the `iretq` that starts the idle process, an
instruction of that process, and a part of the next tick. -/
def secondTick : List IrqEvent :=
  .arrive :: List.replicate 69 (.cpu .compute 0) ++ .arrive :: List.replicate 20 (.cpu .compute 0)

theorem timerPath_along_secondTick :
    Along IrqMachine.step AcceptsOutside sourceIrqMachine secondTick ∧
      ∃ s, run IrqMachine.step sourceIrqMachine secondTick = some s ∧
        s.rip = .path (.save 15) ∧ s.stack = [⟨.code (some 0) 0, true⟩] ∧
        SavedOwn 4 s.kernel ∧ ∃ k t,
          run IrqMachine.step s (.arrive :: List.replicate k (.cpu .compute 0)) = some t ∧
            ¬ AcceptsOutside t (.cpu .compute 0) := by
  have hstate : (run IrqMachine.step sourceIrqMachine secondTick).map (fun s => (s.rip, s.stack)) =
      some (.path (.save 15), [⟨.code (some 0) 0, true⟩]) := by
    decide +kernel
  have halong : Along IrqMachine.step ArrivesOutside sourceIrqMachine secondTick := by
    decide +kernel
  obtain ⟨s, hs, hvalues⟩ := Option.map_eq_some_iff.mp hstate
  obtain ⟨hrip, hstack⟩ := Prod.mk.injEq .. ▸ hvalues
  obtain ⟨houtside, hfinal⟩ := timerPath_along ⟨fun _ => initialIrqFrame ⟨0, false, 0, 0⟩⟩ 0x200000
    0x200100 (n := 4) (by decide) secondTick halong
  obtain ⟨hsaved, hinside⟩ := hfinal s hs
  refine ⟨houtside, s, hs, hrip, hstack, hsaved, hinside ?_⟩
  rintro ⟨owner, position, hcode⟩
  exact Location.noConfusion (hrip.symm.trans hcode)

/-- A second request that arrives right after the first has been accepted is accepted between the
end of interrupt and `iretq`. -/
theorem not_acceptsOutside_second_request :
    ¬ Along IrqMachine.step AcceptsOutside sourceIrqMachine
      ([.arrive, .cpu .compute 0, .arrive] ++
        (List.replicate PathPc.entry.remaining (.cpu .compute 0) ++ [.cpu .compute 0])) := by
  rw [sourceIrqMachine, IrqMachine.initial]
  generalize boot (⟨fun _ => initialIrqFrame ⟨0, false, 0, 0⟩⟩ : IrqMap) 0x200000 0x200100 4 = k
  intro h
  -- the first request has been accepted, the second one is latched
  have hpath : OnPath ⟨k, .path .entry, true, true, true, [⟨.code none 0, true⟩]⟩ .entry :=
    ⟨rfl, rfl, fun he => absurd he Bool.false_ne_true, List.cons_ne_nil _ _⟩
  have htwo : run IrqMachine.step ⟨k, .code none 0, true, false, false, []⟩
      [.arrive, .cpu .compute 0, .arrive]
        = some ⟨k, .path .entry, true, true, true, [⟨.code none 0, true⟩]⟩ := rfl
  obtain ⟨t, pc, hrun, hpath', hacc⟩ := hpath.exists_accepts rfl
  obtain ⟨owner, position, hcode⟩ := ((h.of_append htwo).of_append hrun).1 hacc
  exact Location.noConfusion (hpath'.rip.symm.trans hcode)

end IrqMachine

end FrogOS
