import FrogOS.Lib.ByteMemory
import FrogOS.Lib.LinkedList

/-!
# Lists laid out in an array

An array of nodes in which the first four bytes of a node are the index of the next one. The usual
way to make a list of all of them is a loop that links every node to its successor and a store that
ends the list. Between the links lie the other bytes of the nodes, which the loop leaves alone, and
which may belong to something else.

## Main definitions

* `ByteMemory.storeLinks` — the memory after the loop
* `ByteMemory.nextNode` — the link of a node

## Main results

* `ByteMemory.load32_storeLinks`, `load32_storeLinks_of_disjoint`
* `ByteMemory.isList_nextNode` — the nodes form a list in ascending order
-/

namespace ByteMemory

open LinkedList

variable {m : ByteMemory} {base stride i j k a : ℕ}

/-- `for (; k > 0; --k, ++i) links[i].next = i + 1`, for nodes of size `stride`, the first one at
`base`. -/
def storeLinks (m : ByteMemory) (base stride i : ℕ) : ℕ → ByteMemory
  | 0 => m
  | k + 1 =>
    storeLinks (store32 m (base + stride * i) (BitVec.ofNat 32 (i + 1))) base stride (i + 1) k

/-- The link of node `p`. -/
def nextNode (m : ByteMemory) (base stride : ℕ) (p : BitVec 32) : BitVec 32 :=
  load32 m (base + stride * p.toNat)

theorem storeLinks_of_outside {x : ℕ} (h : ∀ j, i ≤ j → j < i + k →
    x < base + stride * j ∨ base + stride * j + 4 ≤ x) :
    storeLinks m base stride i k x = m x := by
  induction k generalizing m i with
  | zero => rfl
  | succ k ih =>
    rw [storeLinks, ih fun j hj hjk => h j (by omega) (by omega),
      store32_of_outside (h i le_rfl (by omega))]

theorem load32_storeLinks_of_disjoint (h : ∀ j, i ≤ j → j < i + k →
    a + 4 ≤ base + stride * j ∨ base + stride * j + 4 ≤ a) :
    load32 (storeLinks m base stride i k) a = load32 m a := by
  refine load32_congr fun d hd => storeLinks_of_outside fun j hj hjk => ?_
  have := h j hj hjk
  omega

/-- The links of two nodes do not overlap. -/
theorem add_four_le_of_lt (hstride : 4 ≤ stride) (h : i < j) :
    base + stride * i + 4 ≤ base + stride * j := by
  have hle : stride * (i + 1) ≤ stride * j := Nat.mul_le_mul_left stride h
  rw [Nat.mul_succ] at hle
  omega

theorem load32_storeLinks (hstride : 4 ≤ stride) (hi : i ≤ j) (hj : j < i + k) :
    load32 (storeLinks m base stride i k) (base + stride * j) = BitVec.ofNat 32 (j + 1) := by
  induction k generalizing m i with
  | zero => omega
  | succ k ih =>
    rw [storeLinks]
    rcases hi.eq_or_lt with rfl | hlt
    · rw [load32_storeLinks_of_disjoint fun l hl _ => Or.inl (add_four_le_of_lt hstride hl),
        load32_store32]
    · exact ih hlt (by omega)

/-- Nodes `i` to `i + k`, each linked to the one after it and the last one to `null`. -/
theorem isList_nextNode {null : BitVec 32} (hnull : null.toNat = 2 ^ 32 - 1)
    (hlink : ∀ j, i ≤ j → j < i + k →
      load32 m (base + stride * j) = BitVec.ofNat 32 (j + 1))
    (hlast : load32 m (base + stride * (i + k)) = null) (hlt : i + k < 2 ^ 32 - 1) :
    IsList (nextNode m base stride) null (BitVec.ofNat 32 i)
      ((List.range' i (k + 1)).map (BitVec.ofNat 32)) := by
  have hnode : ∀ j < 2 ^ 32 - 1, (BitVec.ofNat 32 j).toNat = j ∧ BitVec.ofNat 32 j ≠ null := by
    intro j hj
    have hval : (BitVec.ofNat 32 j).toNat = j := by
      rw [BitVec.toNat_ofNat]
      exact Nat.mod_eq_of_lt (by omega)
    refine ⟨hval, fun h => ?_⟩
    rw [h, hnull] at hval
    omega
  induction k generalizing i with
  | zero =>
    obtain ⟨hval, hne⟩ := hnode i hlt
    refine ⟨rfl, hne, ?_⟩
    rw [nextNode, hval]
    exact hlast
  | succ k ih =>
    obtain ⟨hval, hne⟩ := hnode i (by omega)
    refine ⟨rfl, hne, ?_⟩
    rw [nextNode, hval, hlink i le_rfl (by omega)]
    refine ih (fun j hj hjk => hlink j (by omega) (by omega)) ?_ (by omega)
    rw [Nat.add_right_comm]
    exact hlast

end ByteMemory
