import LinuxStudy.HeapSort

/-!
# Heaps and their subtrees

`Heapify` sifts the nodes of the vector down, from the last that has a child to
the root. When it comes to a node, the two subtrees below are heaps, and the node
is the only one of its own subtree that may be out of order. `ShiftDown` makes a
heap of the subtree and moves nothing outside of it, so that the other subtrees
stay heaps.

That needs nothing of the nodes outside: `ShiftDown` works on a subtree whatever
the rest of the vector is.

The index of a right child is computed before it is compared with the bound. For
the last element of a vector of `2 ^ 30` it is no `int` (`getMaxInPC_eq_none`), and
`Heapify` comes to that element if it is greater than its parent.
-/

namespace Sorting

open InPlace IntArith
open HeapOrder (parent)

variable {α : Type} [LinearOrder α]

/-- **The subtree of a node**: what is reached from it by `lChild` and
`rChild`. -/
inductive InSubtree (p : ℕ) : ℕ → Prop
  | root : InSubtree p p
  | left {k : ℕ} (h : InSubtree p k) : InSubtree p (lChild k)
  | right {k : ℕ} (h : InSubtree p k) : InSubtree p (rChild k)

namespace InSubtree

variable {p k : ℕ}

theorem le (h : InSubtree p k) : p ≤ k := by
  induction h with
  | root => exact Nat.le_refl p
  | left _ ih =>
    unfold lChild
    omega
  | right _ ih =>
    unfold rChild
    omega

theorem of_parent (hpos : 0 < k) (h : InSubtree p (parent k)) : InSubtree p k := by
  obtain ⟨q, hq⟩ : ∃ q, parent k = q := ⟨_, rfl⟩
  rw [hq] at h
  rcases eq_child_of_parent hpos hq with rfl | rfl
  · exact h.left
  · exact h.right

theorem parent_of_ne (h : InSubtree p k) (hne : k ≠ p) : InSubtree p (parent k) := by
  cases h with
  | root => exact absurd rfl hne
  | left h =>
    rw [parent_lChild]
    exact h
  | right h =>
    rw [parent_rChild]
    exact h

/-- The rest of a subtree are the subtrees of the two children. -/
theorem child_of_ne (h : InSubtree p k) (hne : k ≠ p) :
    InSubtree (lChild p) k ∨ InSubtree (rChild p) k := by
  induction h with
  | root => exact absurd rfl hne
  | @left q h ih =>
    by_cases hq : q = p
    · rw [hq]
      exact Or.inl .root
    · exact (ih hq).imp .left .left
  | @right q h ih =>
    by_cases hq : q = p
    · rw [hq]
      exact Or.inr .root
    · exact (ih hq).imp .right .right

end InSubtree

/-! ## A subtree that is a heap

The subtree of a node is a set that has the children of its nodes, so what
`ShiftDown` does in it is a case of what it does in any such set. When both
subtrees of a node are heaps, the node is a hole of the heap of its own subtree.
Before the loop of `Heapify` nothing is known but that a node without a child is a
heap by itself. -/

/-- **The subtree of a node is a heap** among the first `n` elements: none of it
is greater than its parent. -/
def SubtreeHeap (p n : ℕ) (nums : List α) : Prop :=
  ∀ k x y, InSubtree p k → k ≠ p → k < n → nums[parent k]? = some x → nums[k]? = some y → y ≤ x

theorem subtreeHeap_of_leaf {p n : ℕ} (h : n ≤ lChild p) (nums : List α) :
    SubtreeHeap p n nums := by
  intro k x y hmem hne hk
  have hlr : rChild p = lChild p + 1 := rfl
  rcases hmem.child_of_ne hne with hsub | hsub
  · have hle := hsub.le
    omega
  · have hle := hsub.le
    omega

/-- **Max-heap order**: no element is greater than the one at `(i-1)/2`. -/
def MaxHeap (nums : List α) : Prop :=
  ∀ i x y, 1 ≤ i → i < nums.length → nums[(i - 1) / 2]? = some x → nums[i]? = some y → y ≤ x

section

open Classical

variable {p n : ℕ} {nums b : List α}

/-- The node whose two subtrees are heaps is the only one of its subtree that
may be out of order. -/
theorem hole_of_subtrees (hn : n ≤ nums.length) (hleft : SubtreeHeap (lChild p) n nums)
    (hright : SubtreeHeap (rChild p) n nums) :
    HeapOrder.Hole n (keyIn (InSubtree p) nums) p
      ∧ HeapOrder.Above (keyIn (InSubtree p) nums) p := by
  have hparent : 0 < p → keyIn (InSubtree p) nums (parent p) = ⊥ := by
    intro hpos
    exact keyIn_of_not_mem (fun hmem => absurd hmem.le (Nat.not_le.mpr (HeapOrder.parent_lt hpos)))
  refine ⟨⟨fun k hpos hk hne hpar => ?_, fun hp k _ _ _ => ?_⟩, fun hp => ?_⟩
  · by_cases hmem : InSubtree p (parent k)
    · have hlt := HeapOrder.parent_lt hpos
      have hx : nums[parent k]? = some nums[parent k] := List.getElem?_eq_getElem (by omega)
      have hy : nums[k]? = some nums[k] := List.getElem?_eq_getElem (by omega)
      rw [keyIn_of_mem hmem, keyIn_of_mem (hmem.of_parent hpos),
        keyAt_le_iff (Nat.zero_le _) (Nat.zero_le _) hx hy]
      -- both are in the subtree of one child
      rcases hmem.child_of_ne hpar with hsub | hsub
      · exact hleft k _ _ (hsub.of_parent hpos) (by have := hsub.le; omega) hk hx hy
      · exact hright k _ _ (hsub.of_parent hpos) (by have := hsub.le; omega) hk hx hy
    · rw [keyIn_of_not_mem hmem]
      exact bot_le
  · rw [hparent hp]
    exact bot_le
  · rw [hparent hp]
    exact bot_le

theorem subtreeHeap_of_ordered (h : HeapOrder.Ordered n (keyIn (InSubtree p) b)) :
    SubtreeHeap p n b := by
  intro k x y hmem hne hk hx hy
  have hpos : 0 < k := by
    have hle := hmem.le
    omega
  have hordered := h k hpos hk
  rw [keyIn_of_mem hmem, keyIn_of_mem (hmem.parent_of_ne hne)] at hordered
  exact (keyAt_le_iff (Nat.zero_le _) (Nat.zero_le _) hx hy).mp hordered

/-- **`ShiftDown` makes a heap of a subtree**, and moves nothing outside of
it. -/
theorem shiftDown_subtree (hn : n ≤ nums.length) (hint : n < 2 ^ 30) (hp : p < n)
    (hleft : SubtreeHeap (lChild p) n nums)
    (hright : SubtreeHeap (rChild p) n nums) :
    ∃ b, shiftDown (n + 1) nums p n = some b ∧ b.Perm nums
      ∧ (∀ k, ¬ InSubtree p k ∨ n ≤ k → b[k]? = nums[k]?) ∧ SubtreeHeap p n b := by
  obtain ⟨hhole, habove⟩ := hole_of_subtrees hn hleft hright
  obtain ⟨b, hb, hordered, hperm, hframe⟩ := shiftDown_in (fun _ => .of_parent) .root hn
    hint (by omega) hhole habove (show n - p < n + 1 by omega)
  exact ⟨b, hb, hperm, hframe, subtreeHeap_of_ordered hordered⟩

end

/-- **`Heapify` makes a max-heap** of a vector of fewer than `2 ^ 30` elements. -/
theorem heapify_maxHeap {nums : List α} (hint : nums.length < 2 ^ 30) :
    ∃ b, heapify nums = some b ∧ b.Perm nums ∧ MaxHeap b := by
  rcases Nat.lt_or_ge nums.length 2 with hshort | hlong
  · refine ⟨nums, if_pos hshort, List.Perm.refl nums, fun i _ _ hi hlt => ?_⟩
    omega
  · obtain ⟨b, hb, hordered, hperm⟩ := heapify_spec hlong hint
    refine ⟨b, hb, hperm, fun i x y hi hlt hx hy => ?_⟩
    rw [hperm.length_eq] at hlt
    exact (keyAt_le_iff (Nat.zero_le _) (Nat.zero_le _) hx hy).mp (hordered i hi hlt)

/-- **`Heapify` builds a heap, and `ShiftDown` is why**: it makes a heap of the
subtree of any node whose two subtrees are heaps, and leaves every element
outside of it where it is. The vector has fewer than `2 ^ 30` elements. -/
theorem heapify_builds_heap {nums : List α} (hint : nums.length < 2 ^ 30) :
    (∃ b, heapify nums = some b ∧ b.Perm nums ∧ MaxHeap b)
      ∧ ∀ n p, n ≤ nums.length → p < n → SubtreeHeap (lChild p) n nums
        → SubtreeHeap (rChild p) n nums →
        ∃ b, shiftDown (n + 1) nums p n = some b ∧ b.Perm nums
          ∧ (∀ k, ¬ InSubtree p k ∨ n ≤ k → b[k]? = nums[k]?) ∧ SubtreeHeap p n b :=
  ⟨heapify_maxHeap hint, fun _ _ hn hp hleft hright =>
    shiftDown_subtree hn (Nat.lt_of_le_of_lt hn hint) hp hleft hright⟩

/-- The root of three elements, whose children have none. -/
theorem heapify_builds_heap_three : ∃ b, shiftDown 4 [(1 : ℤ), 3, 2] 0 3 = some b
    ∧ b.Perm [1, 3, 2] ∧ (∀ k, ¬ InSubtree 0 k ∨ 3 ≤ k → b[k]? = [(1 : ℤ), 3, 2][k]?)
    ∧ SubtreeHeap 0 3 b :=
  (heapify_builds_heap (show [(1 : ℤ), 3, 2].length < 2 ^ 30 by decide)).2 3 0 (by decide)
    (by decide) (subtreeHeap_of_leaf (by decide) _) (subtreeHeap_of_leaf (by decide) _)

/-! ## Vectors that are too long

The index of the right child is computed before that of the left one is looked at.
The node `2 ^ 30 - 1` has a left child only in vectors that are longer than `2 ^
31 - 1`, and no right one that an `int` could be. It is enough that `ShiftDown`
comes to it: with `2 ^ 30` elements it is the last, and has a parent to change
places with. -/

/-- **A node without an index for its right child.** -/
theorem getMaxInPC_eq_none {p : ℕ} (h : 2 ^ 30 - 1 ≤ p) (nums : List α) (n : ℕ) :
    getMaxInPC nums p n = none := by
  have hright : int (rChild p) = none := by
    refine int_of_le ?_
    unfold rChild
    omega
  unfold getMaxInPC
  rw [hright]
  rfl

/-- The last of `2 ^ 30` elements gets its parent to sink to its place, where
`ShiftDown` goes on. -/
theorem heapify_eq_none {nums : List α} (h : nums.length = 2 ^ 30) {x y : α}
    (hx : nums[2 ^ 29 - 1]? = some x) (hy : nums[2 ^ 30 - 1]? = some y) (hxy : x < y) :
    heapify nums = none := by
  have hright : int (rChild (2 ^ 29 - 1)) = some (2 ^ 30) := by decide
  have hleft : lChild (2 ^ 29 - 1) = 2 ^ 30 - 1 := by decide
  have hmax : getMaxInPC nums (2 ^ 29 - 1) (2 ^ 30) = some (2 ^ 30 - 1) := by
    unfold getMaxInPC
    rw [hright, Option.bind_eq_bind, Option.bind_some, if_neg (Nat.lt_irrefl _), hleft,
      if_pos (by decide), hx, hy]
    exact congrArg some (if_neg (not_le.mpr hxy))
  have hshift : ∀ rounds, shiftDown (rounds + 1) nums (2 ^ 29 - 1) (2 ^ 30) = none := by
    intro rounds
    unfold shiftDown
    rw [hmax, Option.bind_eq_bind, Option.bind_some, if_neg (by decide)]
    refine Option.bind_eq_none_iff.mpr fun b _ => ?_
    cases rounds with
    | zero => rfl
    | succ rounds =>
      unfold shiftDown
      rw [getMaxInPC_eq_none (Nat.le_refl _)]
      rfl
  rw [heapify_eq (by omega) (by omega), h]
  exact Option.bind_eq_none_iff.mpr fun b hb => by cases (hshift _).symm.trans hb

/-- `2 ^ 30 - 1` zeros and a one behind them. -/
theorem heapify_zeros_one :
    ¬ ∃ b, heapify (List.replicate (2 ^ 30 - 1) (0 : ℤ) ++ [1]) = some b
      ∧ b.Perm (List.replicate (2 ^ 30 - 1) 0 ++ [1]) ∧ MaxHeap b := by
  rintro ⟨b, hb, -⟩
  have hlength : (List.replicate (2 ^ 30 - 1) (0 : ℤ) ++ [1]).length = 2 ^ 30 := by
    rw [List.length_append, List.length_replicate]
    rfl
  have hx : (List.replicate (2 ^ 30 - 1) (0 : ℤ) ++ [1])[2 ^ 29 - 1]? = some 0 := by
    rw [List.getElem?_append_left (by rw [List.length_replicate]; decide),
      List.getElem?_replicate, if_pos (by decide)]
  have hy : (List.replicate (2 ^ 30 - 1) (0 : ℤ) ++ [1])[2 ^ 30 - 1]? = some 1 := by
    rw [List.getElem?_append_right (by rw [List.length_replicate]), List.length_replicate,
      Nat.sub_self]
    rfl
  rw [heapify_eq_none hlength hx hy (by decide)] at hb
  cases hb

end Sorting
