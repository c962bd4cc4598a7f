import FrogOS.Pic
import FrogOS.Lib.LinkedList
import FrogOS.Lib.StepSystem
import Mathlib.Data.List.Induction

/-!
# Chains of interrupt handlers

`irq_handlers` holds, for every line, the first node of a linked list; `install_irq_handler` puts a
node in front of the list of its line and unmasks the line when that was empty, and `irq_handler`
calls the handlers of the list of the line that was raised. All lists share the memory of the nodes,
which the callers of `install_irq_handler` provide.

Between the calls of `install_irq_handler` interrupts may be taken. A handler may do anything to the
rest of the machine, `world`; it does not touch the chains or the controllers. That `irq_handler`
comes to an end is part of the claim, so its loop gets fuel.

## Main definitions

* `IrqState`, `installIrqHandler`, `irqHandler` — the code
* `Chains` — for every line, the nodes installed so far
* `Linked`, `Represents` — how the code keeps them

## Main results

* `Represents.install`, `Linked.irqHandler` — the two operations on the abstract chains
* `handlerChains_run` — after any sequence of calls and interrupts, an interrupt runs exactly the
  handlers installed on its line, and exactly the lines with handlers are unmasked
-/

namespace FrogOS

open StepSystem LinkedList

/-- `irq_handler_t`. -/
structure IrqHandlerStruct where
  handler : BitVec 64
  next : BitVec 64
  data : BitVec 64
  deriving DecidableEq

/-- A call of a handler: `handler(r, data)`. -/
structure HandlerCall where
  handler : BitVec 64
  r : BitVec 64
  data : BitVec 64
  deriving DecidableEq

/-- The nodes, by address, the array `irq_handlers`, and the controllers. The calls of handlers are
recorded. -/
structure IrqState (W : Type) where
  nodes : BitVec 64 → IrqHandlerStruct
  irqHandlers : ℕ → BitVec 64
  pics : Pics
  world : W
  calls : List HandlerCall

inductive ChainEvent
  /-- `install_irq_handler(num, node)`. -/
  | install (num : ℕ) (node : BitVec 64)
  /-- An interrupt on line `n`, its frame being at `r`. -/
  | interrupt (n : ℕ) (r : BitVec 64)
  deriving DecidableEq

namespace IrqState

variable {W : Type}

/-- The state after `setup_idt`. The nodes hold anything. -/
def initial (nodes : BitVec 64 → IrqHandlerStruct) (pics : Pics) (world : W) : IrqState W where
  nodes := nodes
  irqHandlers := fun _ => 0
  pics := pics.writeAll picWrites
  world := world
  calls := []

/-- `node->next = irq_handlers[num]`. -/
def setNext (s : IrqState W) (num : ℕ) (node : BitVec 64) : IrqState W :=
  { s with nodes := Function.update s.nodes node { s.nodes node with next := s.irqHandlers num } }

/-- `irq_handlers[num] = node`. -/
def link (s : IrqState W) (num : ℕ) (node : BitVec 64) : IrqState W :=
  { s with irqHandlers := Function.update s.irqHandlers num node }

/-- `install_irq_handler`, interrupts being disabled. -/
def installIrqHandler (s : IrqState W) (num : ℕ) (node : BitVec 64) : IrqState W :=
  let s := if s.irqHandlers num = 0 then { s with pics := s.pics.irqClearMask num } else s
  (s.setNext num node).link num node

section

variable (code : HandlerCall → W → W)

/-- The body of the loop: `head->handler(r, head->data)`. -/
def callHandler (r : BitVec 64) (s : IrqState W) (head : BitVec 64) : IrqState W :=
  let call := ⟨(s.nodes head).handler, r, (s.nodes head).data⟩
  { s with world := code call s.world, calls := s.calls ++ [call] }

/-- The loop, over the chain that starts at `head`. -/
def callChain (fuel : ℕ) (s : IrqState W) (r head : BitVec 64) : Option (IrqState W) :=
  walk (fun a => (s.nodes a).next) 0 (callHandler code r) fuel s head

/-- The `outportb` of an end of interrupt. -/
def outportb (s : IrqState W) (port : ℕ) (value : BitVec 8) : IrqState W :=
  { s with pics := s.pics.outportb port value }

/-- `irq_handler`. An exception is reported, and then the processor halts for good. -/
def irqHandler (fuel : ℕ) (s : IrqState W) (r : BitVec 64) (intNo : ℕ) : Option (IrqState W) :=
  if intNo < 32 then none
  else
    let irqNo := intNo - 32
    (if s.irqHandlers irqNo ≠ 0 then callChain code fuel s r (s.irqHandlers irqNo)
      else some s).map fun s =>
        if intNo ≤ 48 then
          (if intNo ≥ 40 then s.outportb 0xA0 0x20 else s).outportb 0x20 0x20
        else s

def step (fuel : ℕ) (s : IrqState W) : ChainEvent → Option (IrqState W)
  | .install num node => some (s.installIrqHandler num node)
  | .interrupt n r => s.irqHandler code fuel r (32 + n)

end

end IrqState

/-! ### The chains, abstractly -/

/-- For every line the nodes installed on it, newest first. -/
abbrev Chains := ℕ → List (BitVec 64)

namespace Chains

def step (c : Chains) : ChainEvent → Chains
  | .install num node => Function.update c num (node :: c num)
  | .interrupt _ _ => c

/-- The chains after a sequence of events. -/
def after (es : List ChainEvent) : Chains := es.foldl step fun _ => []

end Chains

/-- The nodes installed by an event. -/
def ChainEvent.node : ChainEvent → Option (BitVec 64)
  | .install _ node => some node
  | .interrupt _ _ => none

/-- The line an event is about. -/
def ChainEvent.line : ChainEvent → ℕ
  | .install num _ => num
  | .interrupt n _ => n

/-- Lines are at most 16, nodes are not null, and every node is installed at most once. -/
structure ProperEvents (es : List ChainEvent) : Prop where
  line : ∀ e ∈ es, e.line ≤ 16
  node : (0 : BitVec 64) ∉ es.filterMap ChainEvent.node
  nodup : (es.filterMap ChainEvent.node).Nodup

/-- The chains `c` are linked lists of nodes with the given handlers and data. -/
structure Linked {W : Type} (nodes : BitVec 64 → IrqHandlerStruct) (s : IrqState W) (c : Chains) :
    Prop where
  chain : ∀ n, IsList (fun a => (s.nodes a).next) 0 (s.irqHandlers n) (c n)
  handler : ∀ a, (s.nodes a).handler = (nodes a).handler
  data : ∀ a, (s.nodes a).data = (nodes a).data
  ready : s.pics.Ready

/-- Besides, exactly the lines with handlers are unmasked, and line 2. -/
structure Represents {W : Type} (nodes : BitVec 64 → IrqHandlerStruct) (s : IrqState W)
    (c : Chains) : Prop extends Linked nodes s c where
  mask : ∀ n < 16, s.pics.masked n = false ↔ n = 2 ∨ c n ≠ []

variable {W : Type} {nodes : BitVec 64 → IrqHandlerStruct} {s t : IrqState W} {c : Chains}

theorem represents_initial (nodes : BitVec 64 → IrqHandlerStruct) (pics : Pics) (world : W) :
    Represents nodes (IrqState.initial nodes pics world) fun _ => [] := by
  refine ⟨⟨fun n => isList_null _ _, fun _ => rfl, fun _ => rfl, ⟨rfl, rfl⟩⟩, fun n hn => ?_⟩
  rw [IrqState.initial, Pics.masked_writeAll_picWrites pics hn]
  simp

/-! ### Installing -/

theorem setNext_nodes (s : IrqState W) (num : ℕ) (node : BitVec 64) :
    (s.setNext num node).nodes
      = Function.update s.nodes node { s.nodes node with next := s.irqHandlers num } := rfl

/-- The first assignment concerns no chain, the node being on none. -/
theorem Linked.setNext (h : Linked nodes s c) (num : ℕ) {node : BitVec 64}
    (hfresh : ∀ n, node ∉ c n) : Linked nodes (s.setNext num node) c ∧
      ((s.setNext num node).nodes node).next = (s.setNext num node).irqHandlers num := by
  have hnext : (fun a => ((s.setNext num node).nodes a).next)
      = Function.update (fun a => (s.nodes a).next) node (s.irqHandlers num) := by
    funext a
    rw [setNext_nodes]
    rcases eq_or_ne a node with rfl | ha
    · rw [Function.update_self, Function.update_self]
    · rw [Function.update_of_ne ha, Function.update_of_ne ha]
  have hfield : ∀ {β : Type} (g : IrqHandlerStruct → β), (∀ x q, g { x with next := q } = g x) →
      ∀ a, g ((s.setNext num node).nodes a) = g (s.nodes a) := by
    intro β g hg a
    rw [setNext_nodes]
    rcases eq_or_ne a node with rfl | ha
    · rw [Function.update_self, hg]
    · rw [Function.update_of_ne ha]
  refine ⟨⟨fun n => ?_, fun a => ?_, fun a => ?_, h.ready⟩, ?_⟩
  · rw [hnext]
    exact (h.chain n).update (hfresh n) _
  · rw [hfield IrqHandlerStruct.handler fun _ _ => rfl, h.handler]
  · rw [hfield IrqHandlerStruct.data fun _ _ => rfl, h.data]
  · exact (congrFun hnext node).trans (Function.update_self _ _ _)

/-- The second one puts the node in front of its chain. -/
theorem Linked.link (h : Linked nodes s c) {num : ℕ} {node : BitVec 64} (hne : node ≠ 0)
    (hnext : (s.nodes node).next = s.irqHandlers num) :
    Linked nodes (s.link num node) (c.step (.install num node)) := by
  refine ⟨fun n => ?_, h.handler, h.data, h.ready⟩
  rw [Chains.step, IrqState.link]
  dsimp only
  rcases eq_or_ne n num with rfl | hn
  · rw [Function.update_self, Function.update_self]
    refine ⟨rfl, hne, ?_⟩
    dsimp only
    rw [hnext]
    exact h.chain n
  · rw [Function.update_of_ne hn, Function.update_of_ne hn]
    exact h.chain n

/-- A new node goes in front of the chain of its line. -/
theorem Linked.install (h : Linked nodes s c) (num : ℕ) {node : BitVec 64} (hne : node ≠ 0)
    (hfresh : ∀ n, node ∉ c n) :
    Linked nodes (s.installIrqHandler num node) (c.step (.install num node)) := by
  have hmask : Linked nodes
      (if s.irqHandlers num = 0 then { s with pics := s.pics.irqClearMask num } else s) c := by
    split
    · exact ⟨h.chain, h.handler, h.data, h.ready.irqClearMask num⟩
    · exact h
  obtain ⟨hset, hnext⟩ := hmask.setNext num hfresh
  exact hset.link hne hnext

/-- Only the line that is installed on can be unmasked. -/
theorem masked_installIrqHandler (h : s.pics.Ready) (num : ℕ) (node : BitVec 64) {n : ℕ}
    (hn : n < 16) : (s.installIrqHandler num node).pics.masked n
      = (s.pics.masked n && !decide (n = num ∧ s.irqHandlers num = 0)) := by
  rw [IrqState.installIrqHandler, IrqState.link, IrqState.setNext]
  dsimp only
  by_cases hempty : s.irqHandlers num = 0
  · rw [if_pos hempty, Pics.masked_irqClearMask h num hn]
    simp [hempty]
  · rw [if_neg hempty, decide_eq_false fun h => hempty h.2, Bool.not_false, Bool.and_true]

/-- **A new node unmasks its line.** -/
theorem Represents.install (h : Represents nodes s c) (num : ℕ) {node : BitVec 64} (hne : node ≠ 0)
    (hfresh : ∀ n, node ∉ c n) :
    Represents nodes (s.installIrqHandler num node) (c.step (.install num node)) := by
  refine ⟨h.toLinked.install num hne hfresh, fun n hn => ?_⟩
  have hnull := (h.chain num).eq_null_iff
  have hmask := h.mask n hn
  rw [masked_installIrqHandler h.ready num node hn, Bool.and_eq_false_iff, hmask,
    Bool.not_eq_false', decide_eq_true_iff, hnull, Chains.step]
  rcases eq_or_ne n num with rfl | hnum
  · rw [Function.update_self]
    simp only [true_and, ne_eq, List.cons_ne_nil, not_false_eq_true, or_true, iff_true]
    exact or_assoc.mpr (Or.inr (em' _))
  · rw [Function.update_of_ne hnum]
    simp only [hnum, false_and, or_false]

/-! ### Interrupts -/

section

variable (code : HandlerCall → W → W)

/-- The calls an interrupt makes. -/
def handlerCalls (nodes : BitVec 64 → IrqHandlerStruct) (r : BitVec 64) (chain : List (BitVec 64)) :
    List HandlerCall :=
  chain.map fun a => ⟨(nodes a).handler, r, (nodes a).data⟩

/-- The state after some calls of handlers. -/
def IrqState.deliver (s : IrqState W) (calls : List HandlerCall) : IrqState W :=
  { s with
    world := calls.foldl (fun world call => code call world) s.world
    calls := s.calls ++ calls }

/-- Visiting the nodes of a chain runs their handlers, and does nothing else. -/
theorem foldl_callHandler (r : BitVec 64) (chain : List (BitVec 64)) (s : IrqState W) :
    chain.foldl (IrqState.callHandler code r) s
      = s.deliver code (handlerCalls s.nodes r chain) := by
  induction chain generalizing s with
  | nil => simp [IrqState.deliver, handlerCalls]
  | cons a chain ih =>
    rw [List.foldl_cons, ih]
    simp [IrqState.deliver, IrqState.callHandler, handlerCalls]

theorem Linked.deliver (h : Linked nodes s c) (calls : List HandlerCall) :
    Linked nodes (s.deliver code calls) c :=
  ⟨h.chain, h.handler, h.data, h.ready⟩

theorem Linked.handlerCalls_eq (h : Linked nodes s c) (r : BitVec 64)
    (chain : List (BitVec 64)) : handlerCalls s.nodes r chain = handlerCalls nodes r chain :=
  List.map_congr_left fun a _ => by rw [h.handler, h.data]

theorem outportb_eoi (s : IrqState W) {port : ℕ} (h : port = 0x20 ∨ port = 0xA0) :
    s.outportb port 0x20 = s := by
  rw [IrqState.outportb, Pics.outportb_eoi s.pics h]

/-- **An interrupt calls the handlers on its line, newest first, and comes to an end.** -/
theorem Linked.irqHandler (h : Linked nodes s c) {fuel n : ℕ} (hn : n ≤ 16)
    (hfuel : (c n).length < fuel) (r : BitVec 64) :
    s.irqHandler code fuel r (32 + n) = some (s.deliver code (handlerCalls nodes r (c n))) := by
  have hwalk : IrqState.callChain code fuel s r (s.irqHandlers n)
      = some (s.deliver code (handlerCalls nodes r (c n))) := by
    rw [IrqState.callChain, walk_eq (IrqState.callHandler code r) (h.chain n) hfuel,
      foldl_callHandler, h.handlerCalls_eq]
  -- an empty chain is not walked, with the same result
  have hcalls : (if s.irqHandlers n ≠ 0 then IrqState.callChain code fuel s r (s.irqHandlers n)
      else some s) = some (s.deliver code (handlerCalls nodes r (c n))) := by
    by_cases hnull : s.irqHandlers n = 0
    · rw [if_neg (not_not.mpr hnull), (h.chain n).eq_null_iff.mp hnull]
      simp [IrqState.deliver, handlerCalls]
    · rw [if_pos hnull, hwalk]
  have h32 : ¬ 32 + n < 32 := by omega
  have h48 : 32 + n ≤ 48 := by omega
  rw [IrqState.irqHandler, if_neg h32, Nat.add_sub_cancel_left]
  dsimp only
  rw [hcalls, Option.map_some, if_pos h48]
  split
  · rw [outportb_eoi _ (Or.inr rfl), outportb_eoi _ (Or.inl rfl)]
  · rw [outportb_eoi _ (Or.inl rfl)]

/-! ### Runs -/

theorem Chains.after_append (es : List ChainEvent) (e : ChainEvent) :
    Chains.after (es ++ [e]) = (Chains.after es).step e := by
  rw [after, List.foldl_append]
  rfl

/-- The chains hold installed nodes only, so there are no more of them than events. -/
theorem Chains.mem_after {es : List ChainEvent} {n : ℕ} {a : BitVec 64} (h : a ∈ after es n) :
    a ∈ es.filterMap ChainEvent.node := by
  induction es using List.reverseRecOn with
  | nil => exact absurd h List.not_mem_nil
  | append_singleton es e ih =>
    rw [after_append] at h
    rw [List.filterMap_append, List.mem_append]
    cases e with
    | interrupt _ _ => exact Or.inl (ih h)
    | install num node =>
      rw [step] at h
      rcases eq_or_ne n num with rfl | hn
      · rw [Function.update_self] at h
        rcases List.mem_cons.mp h with rfl | h
        · exact Or.inr List.mem_cons_self
        · exact Or.inl (ih h)
      · rw [Function.update_of_ne hn] at h
        exact Or.inl (ih h)

theorem Chains.length_after_le (es : List ChainEvent) (n : ℕ) :
    (after es n).length ≤ es.length := by
  induction es using List.reverseRecOn with
  | nil => exact le_rfl
  | append_singleton es e ih =>
    rw [after_append, List.length_append, List.length_singleton]
    cases e with
    | interrupt _ _ => exact ih.trans (Nat.le_succ _)
    | install num node =>
      rw [step]
      rcases eq_or_ne n num with rfl | hn
      · rw [Function.update_self, List.length_cons]
        exact Nat.succ_le_succ ih
      · rw [Function.update_of_ne hn]
        exact ih.trans (Nat.le_succ _)

theorem ProperEvents.of_append {es : List ChainEvent} {e : ChainEvent}
    (h : ProperEvents (es ++ [e])) : ProperEvents es := by
  refine ⟨fun e' he' => h.line e' (List.mem_append_left _ he'), fun h0 => h.node ?_, ?_⟩
  · rw [List.filterMap_append]
    exact List.mem_append_left _ h0
  · have := h.nodup
    rw [List.filterMap_append] at this
    exact (List.nodup_append.mp this).1

/-- The node that is installed last is on no chain yet. -/
theorem ProperEvents.fresh {es : List ChainEvent} {num : ℕ} {node : BitVec 64}
    (h : ProperEvents (es ++ [.install num node])) : node ≠ 0 ∧ ∀ n, node ∉ Chains.after es n := by
  have hnode := h.node
  have hnodup := h.nodup
  rw [List.filterMap_append] at hnode hnodup
  have hmem : node ∈ [ChainEvent.install num node].filterMap ChainEvent.node := List.mem_cons_self
  refine ⟨?_, fun n hn => ?_⟩
  · rintro rfl
    exact hnode (List.mem_append_right _ hmem)
  · exact (List.nodup_append.mp hnodup).2.2 node (Chains.mem_after hn) node hmem rfl

theorem ProperEvents.nodup_after {es : List ChainEvent} (h : ProperEvents es) (n : ℕ) :
    (Chains.after es n).Nodup := by
  induction es using List.reverseRecOn with
  | nil => exact List.nodup_nil
  | append_singleton es e ih =>
    have hes := ih h.of_append
    rw [Chains.after_append]
    cases e with
    | interrupt _ _ => exact hes
    | install num node =>
      rw [Chains.step]
      rcases eq_or_ne n num with rfl | hn
      · rw [Function.update_self]
        exact List.nodup_cons.mpr ⟨h.fresh.2 n, hes⟩
      · rwa [Function.update_of_ne hn]

/-- The code keeps up with the abstract chains. -/
theorem represents_run (nodes : BitVec 64 → IrqHandlerStruct) (pics : Pics) (world : W) {fuel : ℕ}
    {es : List ChainEvent} (h : ProperEvents es) (hfuel : es.length < fuel) :
    ∃ s, run (IrqState.step code fuel) (IrqState.initial nodes pics world) es = some s ∧
      Represents nodes s (Chains.after es) := by
  induction es using List.reverseRecOn with
  | nil => exact ⟨_, rfl, represents_initial nodes pics world⟩
  | append_singleton es e ih =>
    rw [List.length_append, List.length_singleton] at hfuel
    obtain ⟨s, hs, hrep⟩ := ih h.of_append (by omega)
    have hlast := h.line e (List.mem_append_right _ List.mem_cons_self)
    rw [run_append, hs, Option.bind_some, Chains.after_append]
    cases e with
    | interrupt n r =>
      have hstep := hrep.toLinked.irqHandler code (r := r) hlast
        ((Chains.length_after_le es n).trans_lt (by omega : es.length < fuel))
      exact ⟨_, run_cons_eq_some.mpr ⟨_, hstep, rfl⟩, ⟨hrep.toLinked.deliver code _, hrep.mask⟩⟩
    | install num node =>
      exact ⟨_, run_cons_eq_some.mpr ⟨_, rfl, rfl⟩, hrep.install num h.fresh.1 h.fresh.2⟩

/-- A step changes the mask bit of no line but the one it installs on. -/
theorem Represents.masked_step (h : Represents nodes s c) {fuel : ℕ} {e : ChainEvent}
    (he : e.line ≤ 16) (hfuel : (c e.line).length < fuel)
    (hst : s.step code fuel e = some t) {n : ℕ} (hn : n < 16)
    (hother : ∀ node, e ≠ .install n node) : t.pics.masked n = s.pics.masked n := by
  cases e with
  | interrupt m r =>
    obtain rfl := Option.some.inj ((h.toLinked.irqHandler code he hfuel r).symm.trans hst)
    rfl
  | install num node =>
    have hne : n ≠ num := by
      rintro rfl
      exact hother node rfl
    obtain rfl := Option.some.inj hst
    rw [masked_installIrqHandler h.ready num node hn, decide_eq_false fun h => hne h.1,
      Bool.not_false, Bool.and_true]

/-- **After any sequence of installations and interrupts, an interrupt calls exactly the handlers
installed on its line, each once, newest first, and comes to an end; and exactly the lines with
handlers, and line 2, are unmasked.** -/
theorem handlerChains_run (nodes : BitVec 64 → IrqHandlerStruct) (pics : Pics) (world : W)
    (es : List ChainEvent) (h : ProperEvents es) (fuel : ℕ) (hfuel : es.length < fuel) :
    ∃ s, run (IrqState.step code fuel) (IrqState.initial nodes pics world) es = some s ∧
      (∀ n ≤ 16, (Chains.after es n).Nodup ∧ ∀ r, s.irqHandler code fuel r (32 + n)
        = some (s.deliver code (handlerCalls nodes r (Chains.after es n)))) ∧
      (∀ n < 16, s.pics.masked n = false ↔ n = 2 ∨ Chains.after es n ≠ []) ∧
      ∀ e, e.line ≤ 16 → ∀ t, s.step code fuel e = some t → ∀ n < 16,
        (∀ node, e ≠ .install n node) → t.pics.masked n = s.pics.masked n := by
  obtain ⟨s, hs, hrep⟩ := represents_run code nodes pics world h hfuel
  have hlen := fun n => (Chains.length_after_le es n).trans_lt hfuel
  exact ⟨s, hs, fun n hn => ⟨h.nodup_after n, fun r => hrep.toLinked.irqHandler code hn (hlen n) r⟩,
    hrep.mask, fun e he t hst n hn hother => hrep.masked_step code he (hlen _) hst hn hother⟩

/-- The theorem at two handlers for the timer and one for the keyboard, with an interrupt in
between. -/
theorem handlerChains_run_three : ∃ s,
    run (IrqState.step (fun _ world => world) 5)
      (IrqState.initial (fun a => ⟨a + 1, 0, a + 2⟩) ⟨⟨0, 0⟩, ⟨0, 0⟩⟩ ())
      [.install 0 0x300000, .install 1 0x300018, .interrupt 1 0xefff0, .install 0 0x300030]
        = some s ∧
    s.pics.masked 1 = false ∧ s.pics.masked 3 = true ∧
    s.irqHandler (fun _ world => world) 5 0xefff0 32 = some (s.deliver (fun _ world => world)
      [⟨0x300031, 0xefff0, 0x300032⟩, ⟨0x300001, 0xefff0, 0x300002⟩]) := by
  obtain ⟨s, hs, hcalls, hmask, -⟩ := handlerChains_run (fun _ world => world)
    (fun a => ⟨a + 1, 0, a + 2⟩) ⟨⟨0, 0⟩, ⟨0, 0⟩⟩ ()
    [.install 0 0x300000, .install 1 0x300018, .interrupt 1 0xefff0, .install 0 0x300030]
    ⟨by decide, by decide, by decide⟩ 5 (by decide)
  refine ⟨s, hs, (hmask 1 (by decide)).mpr (by decide), ?_, (hcalls 0 (by decide)).2 0xefff0⟩
  by_contra hfalse
  exact absurd ((hmask 3 (by decide)).mp (Bool.eq_false_iff.mpr hfalse)) (by decide)

end

end FrogOS
