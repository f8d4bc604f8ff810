import Mathlib.Data.Nat.Basic
import Mathlib.Order.Lattice

/-!
# The order of a binary heap

A binary heap of `n` nodes is read here as the key at each index, `f : ℕ → K`,
whatever the nodes are and however they are kept. It is in order (`Ordered`)
where no node is less than its parent, and then none is less than the one at
the root (`Ordered.root_le`).

What breaks the order is one node: it has been added, changed, or put where
another was. Without it the heap is in order, its own parent and children
included (`Hole`). The node may be too small for its parent or too great for its
children, but not both, so a swap with its parent, or with the least of its
children, moves the hole and keeps the rest (`Hole.up`, `Hole.down`). A sift is a
row of such swaps, and it ends where the node fits in (`Hole.ordered`).
-/

namespace HeapOrder

variable {K : Type} [LinearOrder K] {n i j k : ℕ} {f g : ℕ → K}

/-- The parent of a node. The root has none, though this is an index. -/
def parent (i : ℕ) : ℕ := (i - 1) / 2

theorem parent_lt (h : 0 < i) : parent i < i := by
  unfold parent
  omega

theorem parent_eq_iff (h : 0 < j) : parent j = i ↔ j = i * 2 + 1 ∨ j = i * 2 + 1 + 1 := by
  unfold parent
  omega

/-! ## In order, but for a node

Sifting goes on as long as one node is out of order, and that node is the hole.
Without it the heap is in order, and its children are not less than its parent, so
that it may change places with either. Where it fits in between its parent and its
children the heap is in order as a whole. -/

/-- **In order**: no node is less than its parent. -/
def Ordered (n : ℕ) (f : ℕ → K) : Prop := ∀ k, 0 < k → k < n → f (parent k) ≤ f k

/-- **No node is less than the root.** -/
theorem Ordered.root_le (h : Ordered n f) {k : ℕ} (hk : k < n) : f 0 ≤ f k := by
  induction k using Nat.strongRecOn with
  | ind k ih =>
    rcases Nat.eq_zero_or_pos k with rfl | hpos
    · exact le_rfl
    · have hlt := parent_lt hpos
      exact (ih (parent k) hlt (hlt.trans hk)).trans (h k hpos hk)

/-- No node but the root is less than both nodes below the root. -/
theorem Ordered.child_le (h : Ordered n f) (hpos : 0 < k) (hk : k < n) :
    f 1 ≤ f k ∨ f 2 ≤ f k := by
  induction k using Nat.strongRecOn with
  | ind k ih =>
    rcases Nat.eq_zero_or_pos (parent k) with hroot | hparent
    · rcases (parent_eq_iff hpos).mp hroot with rfl | rfl
      · exact Or.inl le_rfl
      · exact Or.inr le_rfl
    · have hlt := parent_lt hpos
      have hle := h k hpos hk
      exact (ih (parent k) hlt hparent (hlt.trans hk)).imp (·.trans hle) (·.trans hle)

theorem Ordered.mono {m : ℕ} (h : Ordered n f) (hm : m ≤ n) : Ordered m f :=
  fun k hpos hk => h k hpos (Nat.lt_of_lt_of_le hk hm)

theorem Ordered.congr (h : Ordered n f) (hfg : ∀ k < n, g k = f k) : Ordered n g := by
  intro k hpos hk
  rw [hfg k hk, hfg _ ((parent_lt hpos).trans hk)]
  exact h k hpos hk

/-- **In order without a node**: the others are in order, and the children of
the node are not less than its parent. -/
structure Hole (n : ℕ) (f : ℕ → K) (i : ℕ) : Prop where
  off : ∀ k, 0 < k → k < n → k ≠ i → parent k ≠ i → f (parent k) ≤ f k
  past : 0 < i → ∀ k, 0 < k → k < n → parent k = i → f (parent i) ≤ f k

/-- A node is not less than its parent. -/
def Above (f : ℕ → K) (i : ℕ) : Prop := 0 < i → f (parent i) ≤ f i

/-- The children of a node are not less than it. -/
def Below (n : ℕ) (f : ℕ → K) (i : ℕ) : Prop :=
  ∀ k, 0 < k → k < n → parent k = i → f i ≤ f k

namespace Hole

theorem congr (h : Hole n f i) (hfg : ∀ k < n, k ≠ i → g k = f k) : Hole n g i := by
  refine ⟨fun k hpos hk hne hpar => ?_, fun hi k hpos hk hpar => ?_⟩
  · rw [hfg k hk hne, hfg _ ((parent_lt hpos).trans hk) hpar]
    exact h.off k hpos hk hne hpar
  · have hik : i < k := hpar ▸ parent_lt hpos
    rw [hfg k hk (Nat.ne_of_gt hik),
      hfg _ ((parent_lt hi).trans (hik.trans hk)) (Nat.ne_of_lt (parent_lt hi))]
    exact h.past hi k hpos hk hpar

/-- **Where the node fits in, the heap is in order.** -/
theorem ordered (h : Hole n f i) (habove : Above f i) (hbelow : Below n f i) : Ordered n f := by
  intro k hpos hk
  by_cases hki : k = i
  · subst hki
    exact habove hpos
  · by_cases hpar : parent k = i
    · rw [hpar]
      exact hbelow k hpos hk hpar
    · exact h.off k hpos hk hki hpar

end Hole

theorem Ordered.hole (h : Ordered n f) (i : ℕ) : Hole n f i := by
  refine ⟨fun k hpos hk _ _ => h k hpos hk, fun hi k hpos hk hpar => ?_⟩
  have hik : i < k := hpar ▸ parent_lt hpos
  exact (h i hi (hik.trans hk)).trans (hpar ▸ h k hpos hk)

theorem Ordered.below (h : Ordered n f) (i : ℕ) : Below n f i :=
  fun k hpos hk hpar => hpar ▸ h k hpos hk

/-- **A node added at the end** has no children yet. -/
theorem Ordered.push (h : Ordered n f) (hfg : ∀ k < n, g k = f k) :
    Hole (n + 1) g n ∧ Below (n + 1) g n := by
  have hleaf : ∀ k, 0 < k → k < n + 1 → parent k ≠ n := by
    intro k hpos hk hpar
    have hlt := parent_lt hpos
    omega
  have hg := h.congr hfg
  refine ⟨⟨fun k hpos hk hne _ => hg k hpos (by omega), fun _ k hpos hk hpar => ?_⟩,
    fun k hpos hk hpar => ?_⟩
  · exact absurd hpar (hleaf k hpos hk)
  · exact absurd hpar (hleaf k hpos hk)

/-! ## Swaps

A swap with the parent moves the hole up, and one with the lesser child moves it
down. In the first case the node that comes down is not less than what is above,
and not greater than the other child; in the second the node that comes up is the
least of three. So one of the two comparisons that are open before the swap is
settled by it, and sifting in one direction is enough. -/

/-- The keys after two nodes are swapped. -/
structure Swapped (f g : ℕ → K) (i j : ℕ) : Prop where
  left : g i = f j
  right : g j = f i
  other : ∀ k, k ≠ i → k ≠ j → g k = f k

theorem Hole.sibling (h : Hole n f i) (hpos : 0 < i) (hk : 0 < k) (hkn : k < n) (hne : k ≠ i)
    (hpar : parent k = parent i) : f (parent i) ≤ f k := by
  have hoff := h.off k hk hkn hne (hpar ▸ Nat.ne_of_lt (parent_lt hpos))
  rwa [hpar] at hoff

/-- A swap of the node with its parent moves the hole there. -/
theorem Hole.swap_parent (h : Hole n f i) (hpos : 0 < i) (hi : i < n)
    (hswap : Swapped f g i (parent i)) : Hole n g (parent i) := by
  have hlt := parent_lt hpos
  refine ⟨fun k hk hkn hne hpar => ?_, fun hp k hk hkn hpar => ?_⟩
  · have hki : k ≠ i := fun heq => hpar (congrArg parent heq)
    rw [hswap.other k hki hne]
    by_cases hparent : parent k = i
    · rw [hparent, hswap.left]
      exact h.past hpos k hk hkn hparent
    · rw [hswap.other _ hparent hpar]
      exact h.off k hk hkn hki hparent
  · have hpp := parent_lt hp
    have hup := h.off (parent i) hp (hlt.trans hi) (Nat.ne_of_lt hlt) (by omega)
    rw [hswap.other _ (by omega) (Nat.ne_of_lt hpp)]
    by_cases hki : k = i
    · rw [hki, hswap.left]
      exact hup
    · rw [hswap.other k hki (by have := parent_lt hk; omega)]
      exact hup.trans (h.sibling hpos hk hkn hki hpar)

/-- **A swap with the parent** of a node that is less. -/
theorem Hole.up (h : Hole n f i) (hpos : 0 < i) (hi : i < n)
    (hless : f i ≤ f (parent i)) (hswap : Swapped f g i (parent i)) :
    Hole n g (parent i) ∧ Below n g (parent i) := by
  refine ⟨h.swap_parent hpos hi hswap, fun k hk hkn hpar => ?_⟩
  rw [hswap.right]
  by_cases hki : k = i
  · rw [hki, hswap.left]
    exact hless
  · rw [hswap.other k hki (by have := parent_lt hk; omega)]
    exact hless.trans (h.sibling hpos hk hkn hki hpar)

/-- **A swap with the least child** of a node that is greater. -/
theorem Hole.down (h : Hole n f i) (hpos : 0 < j) (hj : j < n) (hpar : parent j = i)
    (hleast : ∀ k, 0 < k → k < n → parent k = i → f j ≤ f k) (hless : f j ≤ f i)
    (hswap : Swapped f g i j) : Hole n g j ∧ Above g j := by
  have hlt : i < j := hpar ▸ parent_lt hpos
  refine ⟨⟨fun k hk hkn hne hparent => ?_, fun _ k hk hkn hparent => ?_⟩, fun _ => ?_⟩
  · by_cases hki : k = i
    · subst hki
      have hpp := parent_lt hk
      rw [hswap.left, hswap.other _ (Nat.ne_of_lt hpp) hparent]
      exact h.past hk j hpos hj hpar
    · rw [hswap.other k hki hne]
      by_cases hki' : parent k = i
      · rw [hki', hswap.left]
        exact hleast k hk hkn hki'
      · rw [hswap.other _ hki' hparent]
        exact h.off k hk hkn hki hki'
  · have hjk : j < k := hparent ▸ parent_lt hk
    have hoff := h.off k hk hkn (by omega) (by omega)
    rw [hparent] at hoff
    rw [hpar, hswap.left, hswap.other k (by omega) (by omega)]
    exact hoff
  · rw [hpar, hswap.left, hswap.right]
    exact hless

end HeapOrder
