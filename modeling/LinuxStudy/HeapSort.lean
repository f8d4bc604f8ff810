import Mathlib.Algebra.Order.Ring.Int
import Mathlib.Order.WithBot
import LinuxStudy.HeapOrder
import LinuxStudy.InPlace
import LinuxStudy.IntArith

/-!
# Heap sort

`HeapSort` makes a heap of the vector with the greatest element at the root and
then takes the root away in every round: it changes places with the last
element of the heap, and the one that came to the root is sifted down in what
is left.

The bound of `ShiftDown` is exclusive, and the loop counts `tail` down before it
calls it. The element at the new `tail` is thus not sifted, though it is the
next to change places with the root: the heap that a round finds has one element
less than it should, and the round is right only if that element is not greater
than the root (`LastFits`). As long as the element has a parent other than the
root it is not: the parent was in the heap and still is. That leaves the rounds
with `tail` two and one, and what comes out is in order exactly if the element
fits in both (`heapSort_sorted_iff`).

Which of the three least elements is left out in these rounds depends on all the
sifts before them, and where the elements stood at first says little about it.
If the three are equal it does not matter, and the vector is sorted
(`heapSorts_of_leastThrice`).

`HeapOrder` has the least key at the root, so that the order of the elements is
turned round. A heap of the nodes from `m` on is a heap of all nodes in which
those before `m` have the least key.
-/

namespace Sorting

open InPlace IntArith
open HeapOrder (parent)

variable {α : Type} [LinearOrder α]

/-- `lChild`. -/
def lChild (i : ℕ) : ℕ := 2 * i + 1

/-- `rChild`. -/
def rChild (i : ℕ) : ℕ := 2 * i + 2

/-- `GetMaxInPC`. The index of the right child is computed first, and is the
greater one. -/
def getMaxInPC (nums : List α) (p n : ℕ) : Option ℕ := do
  let right ← int (rChild p)
  if right < n then
    let l ← nums[lChild p]?
    let r ← nums[right]?
    let tmpMax := if r ≤ l then lChild p else right
    let x ← nums[p]?
    let y ← nums[tmpMax]?
    return if y ≤ x then p else tmpMax
  else if lChild p < n then
    let x ← nums[p]?
    let l ← nums[lChild p]?
    return if l ≤ x then p else lChild p
  else return p

/-- `ShiftDown`, in at most so many rounds. -/
def shiftDown : ℕ → List α → ℕ → ℕ → Option (List α)
  | 0, _, _, _ => none
  | rounds + 1, nums, p, n => do
    let j ← getMaxInPC nums p n
    if p = j then some nums
    else do
      let nums ← swap nums p j
      shiftDown rounds nums j n

/-- The loop of `Heapify`. The argument is `i+1`. -/
def heapifyLoop (n : ℕ) : ℕ → List α → Option (List α)
  | 0, nums => some nums
  | i + 1, nums => do
    let nums ← shiftDown (n + 1) nums i n
    heapifyLoop n i nums

/-- `Heapify`. The size is converted before one is taken from it. The parent of a
negative `r` is negative, and there is nothing to do. -/
def heapify (nums : List α) : Option (List α) :=
  if nums.length < 2 then some nums
  else
    let r := wrap nums.length - 1
    if ¬ IsInt r then none
    else if r < 0 then some nums
    else heapifyLoop (r.toNat + 1) (parent r.toNat + 1) nums

/-- A round of `HeapSort`, with `tail` as it is after the decrement. -/
def heapRound (tail : ℕ) (nums : List α) : Option (List α) := do
  let nums ← swap nums 0 (tail + 1)
  shiftDown (tail + 1) nums 0 tail

/-- The rounds of `HeapSort`, as long as `tail` is greater than `stop`. It goes
on to zero, and where it stops before the round with a greater `tail` is to
be found. -/
def heapRounds (stop : ℕ) : ℕ → List α → Option (List α)
  | 0, nums => some nums
  | tail + 1, nums =>
    if tail + 1 ≤ stop then some nums
    else do
      let nums ← heapRound tail nums
      heapRounds stop tail nums

/-- **`HeapSort`.** -/
def heapSort (nums : List α) : Option (List α) :=
  if nums.length < 2 then some nums
  else do
    let heap ← heapify nums
    let tail := wrap (nums.length - 1 : ℕ)
    heapRounds 0 tail.toNat heap

/-- The vector before the round of `HeapSort` with a given `tail`. One that is
too short for the round has no element at `tail`. -/
def beforeRound (tail : ℕ) (nums : List α) : Option (List α) :=
  if nums.length < 2 then none
  else do
    let heap ← heapify nums
    heapRounds tail (nums.length - 1) heap

/-- **The last element fits**: it is not greater than the one at the root. -/
def LastFits (tail : ℕ) (nums : List α) : Prop :=
  ∀ x y, nums[tail]? = some x → nums[0]? = some y → x ≤ y

/-- **`HeapSort` sorts the vector.** -/
def HeapSorts (nums : List α) : Prop :=
  ∃ r, heapSort nums = some r ∧ r.Perm nums ∧ r.Pairwise (· ≤ ·)

/-- The least element of the vector is there three times. -/
def LeastThrice (nums : List α) : Prop := ∃ m, 3 ≤ nums.count m ∧ ∀ x ∈ nums, m ≤ x

/-! ## The heap

The greatest element is at the root, so a key is an element in the opposite order.
`ShiftDown` is said once for any set of nodes that has the children of its nodes:
the nodes from an index on, for `Heapify` before it is done, and the subtree of a
node. A node that is not in the set has the least key of all, so that it is in
order with everything below it and nothing is said of it. -/

/-- The key of a node in a heap of the nodes from `m` on. -/
def keyAt (m : ℕ) (nums : List α) (k : ℕ) : WithBot αᵒᵈ :=
  if k < m then ⊥ else (nums[k]?.map OrderDual.toDual : Option αᵒᵈ)

section

variable {m n p i j k k' : ℕ} {nums a b : List α}

omit [LinearOrder α] in
theorem keyAt_of_lt (h : k < m) : keyAt m nums k = ⊥ := if_pos h

omit [LinearOrder α] in
theorem keyAt_of_le (h : m ≤ k) :
    keyAt m nums k = (nums[k]?.map OrderDual.toDual : Option αᵒᵈ) := if_neg (Nat.not_lt.mpr h)

theorem keyAt_le_iff {x y : α} (hk : m ≤ k) (hk' : m ≤ k') (hx : nums[k]? = some x)
    (hy : nums[k']? = some y) : keyAt m nums k ≤ keyAt m nums k' ↔ y ≤ x := by
  rw [keyAt_of_le hk, keyAt_of_le hk', hx, hy]
  exact WithBot.coe_le_coe

omit [LinearOrder α] in
theorem keyAt_eq (h : b[k']? = a[k]?) (hk : m ≤ k) (hk' : m ≤ k') :
    keyAt m b k' = keyAt m a k := by
  rw [keyAt_of_le hk, keyAt_of_le hk', h]

omit [LinearOrder α] in
theorem swapped_keyAt (h : Swapped a b i j) (hi : m ≤ i) (hj : m ≤ j) :
    HeapOrder.Swapped (keyAt m a) (keyAt m b) i j where
  left := keyAt_eq h.left hj hi
  right := keyAt_eq h.right hi hj
  other := fun k hki hkj => by
    rcases Nat.lt_or_ge k m with hlt | hge
    · rw [keyAt_of_lt hlt, keyAt_of_lt hlt]
    · exact keyAt_eq (h.other k hki hkj) hge hge

theorem parent_lChild (p : ℕ) : parent (lChild p) = p := by
  unfold parent lChild
  omega

theorem parent_rChild (p : ℕ) : parent (rChild p) = p := by
  unfold parent rChild
  omega

theorem eq_child_of_parent (hpos : 0 < k) (h : parent k = p) : k = lChild p ∨ k = rChild p := by
  unfold lChild rChild
  have hchild := (HeapOrder.parent_eq_iff hpos).mp h
  omega

/-- What `GetMaxInPC` gives: the node itself if no child is greater, or a child
that is greater and none greater than it. -/
def IsMaxInPC (m n : ℕ) (nums : List α) (p j : ℕ) : Prop :=
  (j = p ∧ HeapOrder.Below n (keyAt m nums) p)
  ∨ (p < j ∧ j < n ∧ parent j = p ∧ keyAt m nums j ≤ keyAt m nums p
    ∧ ∀ k, 0 < k → k < n → parent k = p → keyAt m nums j ≤ keyAt m nums k)

/-- The comparison of the node with its greatest child. -/
theorem isMaxInPC_ite {x y : α} (hm : m ≤ p) (hn : n ≤ nums.length) (hx : nums[p]? = some x)
    (hy : nums[j]? = some y) (hpj : p < j) (hj : j < n) (hparent : parent j = p)
    (hgreatest : ∀ k z, 0 < k → k < n → parent k = p → nums[k]? = some z → z ≤ y) :
    IsMaxInPC m n nums p (if y ≤ x then p else j) := by
  have hchild : ∀ k, 0 < k → k < n → parent k = p →
      m ≤ k ∧ ∃ z, nums[k]? = some z ∧ z ≤ y := by
    intro k hpos hk hpar
    have hlt : p < k := hpar ▸ HeapOrder.parent_lt hpos
    have hz : nums[k]? = some nums[k] := List.getElem?_eq_getElem (by omega)
    exact ⟨by omega, _, hz, hgreatest k _ hpos hk hpar hz⟩
  split
  · next hle =>
    refine Or.inl ⟨rfl, fun k hpos hk hpar => ?_⟩
    obtain ⟨hmk, z, hz, hzy⟩ := hchild k hpos hk hpar
    exact (keyAt_le_iff hm hmk hx hz).mpr (hzy.trans hle)
  · next hgt =>
    refine Or.inr ⟨hpj, hj, hparent, (keyAt_le_iff (by omega) hm hy hx).mpr (not_le.mp hgt).le,
      fun k hpos hk hpar => ?_⟩
    obtain ⟨hmk, z, hz, hzy⟩ := hchild k hpos hk hpar
    exact (keyAt_le_iff (by omega) hmk hy hz).mpr hzy

/-- **The greatest of a node and its children.** -/
theorem getMaxInPC_spec (hm : m ≤ p) (hn : n ≤ nums.length) (hint : p < 2 ^ 30 - 1) :
    ∃ j, getMaxInPC nums p n = some j ∧ IsMaxInPC m n nums p j := by
  have hpl : p < lChild p := by
    unfold lChild
    omega
  have hlr : rChild p = lChild p + 1 := rfl
  have hright : int (rChild p) = some (rChild p) := by
    refine int_of_lt ?_
    unfold rChild
    omega
  unfold getMaxInPC
  rw [hright, Option.bind_eq_bind, Option.bind_some]
  split
  · next hboth =>
    have hx : nums[p]? = some nums[p] := List.getElem?_eq_getElem (by omega)
    have hl : nums[lChild p]? = some nums[lChild p] := List.getElem?_eq_getElem (by omega)
    have hr : nums[rChild p]? = some nums[rChild p] := List.getElem?_eq_getElem (by omega)
    simp only [hx, hl, hr, Option.bind_eq_bind, Option.bind_some]
    by_cases hle : nums[rChild p] ≤ nums[lChild p]
    · rw [if_pos hle, hl]
      refine ⟨_, rfl, isMaxInPC_ite hm hn hx hl hpl (by omega) (parent_lChild p) ?_⟩
      intro k z hpos hk hpar hz
      rcases eq_child_of_parent hpos hpar with rfl | rfl
      · exact (Option.some_inj.mp (hz.symm.trans hl)).le
      · exact (Option.some_inj.mp (hz.symm.trans hr)).trans_le hle
    · rw [if_neg hle, hr]
      refine ⟨_, rfl, isMaxInPC_ite hm hn hx hr (by omega) hboth (parent_rChild p) ?_⟩
      intro k z hpos hk hpar hz
      rcases eq_child_of_parent hpos hpar with rfl | rfl
      · exact (Option.some_inj.mp (hz.symm.trans hl)).trans_le (not_le.mp hle).le
      · exact (Option.some_inj.mp (hz.symm.trans hr)).le
  · next hone =>
    split
    · next hleft =>
      have hx : nums[p]? = some nums[p] := List.getElem?_eq_getElem (by omega)
      have hl : nums[lChild p]? = some nums[lChild p] := List.getElem?_eq_getElem (by omega)
      simp only [hx, hl, Option.bind_eq_bind, Option.bind_some]
      refine ⟨_, rfl, isMaxInPC_ite hm hn hx hl hpl hleft (parent_lChild p) ?_⟩
      intro k z hpos hk hpar hz
      rcases eq_child_of_parent hpos hpar with rfl | rfl
      · exact (Option.some_inj.mp (hz.symm.trans hl)).le
      · exact absurd hk hone
    · next hnone =>
      refine ⟨p, rfl, Or.inl ⟨rfl, fun k hpos hk hpar => ?_⟩⟩
      rcases eq_child_of_parent hpos hpar with rfl | rfl <;> omega

/-- The key of a node in a heap of the nodes of `S`, a set that has the children
of its nodes. -/
def keyIn (S : ℕ → Prop) [DecidablePred S] (nums : List α) (k : ℕ) : WithBot αᵒᵈ :=
  if S k then keyAt 0 nums k else ⊥

variable {S : ℕ → Prop} [DecidablePred S]

omit [LinearOrder α] in
theorem keyIn_of_mem (h : S k) : keyIn S nums k = keyAt 0 nums k := if_pos h

omit [LinearOrder α] in
theorem keyIn_of_not_mem (h : ¬ S k) : keyIn S nums k = ⊥ := if_neg h

omit [LinearOrder α] in
theorem swapped_keyIn (h : Swapped a b i j) (hi : S i) (hj : S j) :
    HeapOrder.Swapped (keyIn S a) (keyIn S b) i j := by
  have hkeys := swapped_keyAt h (Nat.zero_le i) (Nat.zero_le j)
  refine ⟨?_, ?_, fun k hki hkj => ?_⟩
  · rw [keyIn_of_mem hi, keyIn_of_mem hj, hkeys.left]
  · rw [keyIn_of_mem hi, keyIn_of_mem hj, hkeys.right]
  · unfold keyIn
    rw [hkeys.other k hki hkj]

/-- **`ShiftDown`** puts a heap in order that is so without the node, and moves
no other nodes than those of the heap. -/
theorem shiftDown_in {rounds : ℕ} (hS : ∀ k, 0 < k → S (parent k) → S k) (hp : S p)
    (hn : n ≤ nums.length) (hint : n < 2 ^ 30) (hint' : p < 2 ^ 30 - 1)
    (hhole : HeapOrder.Hole n (keyIn S nums) p) (habove : HeapOrder.Above (keyIn S nums) p)
    (hrounds : n - p < rounds) :
    ∃ b, shiftDown rounds nums p n = some b ∧ HeapOrder.Ordered n (keyIn S b) ∧ b.Perm nums
      ∧ ∀ k, ¬ S k ∨ n ≤ k → b[k]? = nums[k]? := by
  induction rounds generalizing nums p with
  | zero => exact absurd hrounds (Nat.not_lt_zero _)
  | succ rounds ih =>
    obtain ⟨j, hj, hmax⟩ := getMaxInPC_spec (Nat.zero_le p) hn hint'
    have hchild : ∀ k, 0 < k → parent k = p → S k := fun k hpos hpar => hS k hpos (hpar ▸ hp)
    unfold shiftDown
    simp only [hj, Option.bind_eq_bind, Option.bind_some]
    rcases hmax with ⟨rfl, hbelow⟩ | ⟨hpj, hjn, hparent, hless, hleast⟩
    · rw [if_pos rfl]
      refine ⟨nums, rfl, hhole.ordered habove (fun k hpos hk hpar => ?_), List.Perm.refl nums,
        fun _ _ => rfl⟩
      rw [keyIn_of_mem hp, keyIn_of_mem (hchild k hpos hpar)]
      exact hbelow k hpos hk hpar
    · rw [if_neg (Nat.ne_of_lt hpj)]
      have hjS := hchild j (by omega) hparent
      obtain ⟨a, ha, hswapped⟩ := exists_swap (show p < nums.length by omega)
        (show j < nums.length by omega)
      obtain ⟨hhole', habove'⟩ := hhole.down (by omega) hjn hparent
        (fun k hpos hk hpar => by
          rw [keyIn_of_mem hjS, keyIn_of_mem (hchild k hpos hpar)]
          exact hleast k hpos hk hpar)
        (by rwa [keyIn_of_mem hjS, keyIn_of_mem hp]) (swapped_keyIn hswapped hp hjS)
      obtain ⟨b, hb, hordered, hperm, hframe⟩ :=
        ih hjS (hswapped.perm.length_eq ▸ hn) (by omega) hhole' habove' (by omega)
      rw [ha, Option.bind_some]
      refine ⟨b, hb, hordered, hperm.trans hswapped.perm, fun k hk => ?_⟩
      rw [hframe k hk]
      refine hswapped.other k ?_ ?_
      · rintro rfl
        exact hk.elim (fun hnot => hnot hp) (fun hge => by omega)
      · rintro rfl
        exact hk.elim (fun hnot => hnot hjS) (fun hge => by omega)

omit [LinearOrder α] in
theorem keyIn_le (m : ℕ) (nums : List α) : keyIn (m ≤ ·) nums = keyAt m nums := by
  funext k
  rcases Nat.lt_or_ge k m with hlt | hge
  · rw [keyIn_of_not_mem (Nat.not_le.mpr hlt), keyAt_of_lt hlt]
  · rw [keyIn_of_mem (S := (m ≤ ·)) hge, keyAt_of_le (Nat.zero_le k), keyAt_of_le hge]

/-- **`ShiftDown`** in a heap of the nodes from `m` on. -/
theorem shiftDown_spec {rounds : ℕ} (hm : m ≤ p) (hn : n ≤ nums.length) (hint : n < 2 ^ 30)
    (hint' : p < 2 ^ 30 - 1) (hhole : HeapOrder.Hole n (keyAt m nums) p)
    (habove : HeapOrder.Above (keyAt m nums) p)
    (hrounds : n - p < rounds) :
    ∃ b, shiftDown rounds nums p n = some b ∧ HeapOrder.Ordered n (keyAt m b)
      ∧ Within m n nums b := by
  have hchild : ∀ k, 0 < k → m ≤ parent k → m ≤ k :=
    fun k hpos hle => hle.trans (HeapOrder.parent_lt hpos).le
  rw [← keyIn_le] at hhole habove
  obtain ⟨b, hb, hordered, hperm, hframe⟩ :=
    shiftDown_in hchild hm hn hint hint' hhole habove hrounds
  rw [keyIn_le] at hordered
  exact ⟨b, hb, hordered, hperm, fun k hk => hframe k (hk.imp_left Nat.not_le.mpr)⟩

/-- A node before those of a heap is the next to be put in order. -/
theorem hole_of_ordered (h : HeapOrder.Ordered n (keyAt (i + 1) nums)) :
    HeapOrder.Hole n (keyAt i nums) i ∧ HeapOrder.Above (keyAt i nums) i := by
  have hparent : 0 < i → keyAt i nums (parent i) = ⊥ :=
    fun hpos => keyAt_of_lt (HeapOrder.parent_lt hpos)
  refine ⟨⟨fun k hpos hk _ hpar => ?_, fun hi k _ _ _ => ?_⟩, fun hi => ?_⟩
  · rcases Nat.lt_or_ge (parent k) i with hlt | hge
    · rw [keyAt_of_lt hlt]
      exact bot_le
    · have hlt := HeapOrder.parent_lt hpos
      have hordered := h k hpos hk
      rw [keyAt_of_le (by omega), keyAt_of_le (by omega)] at hordered
      rw [keyAt_of_le hge, keyAt_of_le (by omega)]
      exact hordered
  · rw [hparent hi]
    exact bot_le
  · rw [hparent hi]
    exact bot_le

theorem heapifyLoop_spec (hn : n ≤ nums.length) (hint : n < 2 ^ 30) (hi : i ≤ 2 ^ 30 - 1)
    (h : HeapOrder.Ordered n (keyAt i nums)) :
    ∃ b, heapifyLoop n i nums = some b ∧ HeapOrder.Ordered n (keyAt 0 b) ∧ b.Perm nums := by
  induction i generalizing nums with
  | zero => exact ⟨nums, rfl, h, List.Perm.refl nums⟩
  | succ i ih =>
    obtain ⟨hhole, habove⟩ := hole_of_ordered h
    obtain ⟨a, ha, hordered, hwithin⟩ :=
      shiftDown_spec (Nat.le_refl i) hn hint hi hhole habove (show n - i < n + 1 by omega)
    obtain ⟨b, hb, hordered', hperm⟩ := ih (hwithin.length_eq ▸ hn) (by omega) hordered
    unfold heapifyLoop
    rw [ha, Option.bind_eq_bind, Option.bind_some]
    exact ⟨b, hb, hordered', hperm.trans hwithin.perm⟩

/-- `Heapify` of a vector whose size is an `int`. -/
theorem heapify_eq (h : 2 ≤ nums.length) (hint : nums.length < 2 ^ 31) :
    heapify nums = heapifyLoop (nums.length - 1 + 1) (parent (nums.length - 1) + 1) nums := by
  have hr : wrap nums.length - 1 = ((nums.length - 1 : ℕ) : ℤ) := by
    rw [wrap_natCast hint]
    omega
  have hisInt : ¬¬ IsInt ((nums.length - 1 : ℕ) : ℤ) := not_not.mpr ⟨by omega, by omega⟩
  unfold heapify
  rw [if_neg (by omega)]
  simp only [hr]
  rw [if_neg hisInt, if_neg (by omega), Int.toNat_natCast]

/-- **`Heapify` makes a heap** of the vector. -/
theorem heapify_spec (h : 2 ≤ nums.length) (hint : nums.length < 2 ^ 30) :
    ∃ b, heapify nums = some b ∧ HeapOrder.Ordered nums.length (keyAt 0 b) ∧ b.Perm nums := by
  have hlast : nums.length - 1 + 1 = nums.length := by omega
  have hparents : parent (nums.length - 1) + 1 ≤ 2 ^ 30 - 1 := by
    unfold parent
    omega
  rw [heapify_eq h (by omega), hlast]
  refine heapifyLoop_spec (Nat.le_refl _) hint hparents (fun k hpos hk => ?_)
  -- the parents of all nodes are still to come
  have hparent : parent k < parent (nums.length - 1) + 1 := by
    unfold parent
    omega
  rw [keyAt_of_lt hparent]
  exact bot_le

theorem le_root {x y : α} (h : HeapOrder.Ordered n (keyAt 0 a)) (hk : k < n)
    (hx : a[k]? = some x) (hy : a[0]? = some y) : x ≤ y :=
  (keyAt_le_iff (Nat.zero_le 0) (Nat.zero_le k) hy hx).mp (h.root_le hk)

/-! ## The rounds

A round takes the root to the end of the part. The element that came from there to
the root is sifted down among the first `tail`, that is without the last one of
them, because the bound is the index and not the number: that last element stays
where it is, and the heap is in order but for it. So after each round all is well
exactly if this last element is not greater than the root. From `tail` three on it
is, as it has a parent in the heap other than the root that it was not greater
than; before the last two rounds it is a question of the vector. -/

/-- **A round**: the root is where it stays, and what is left is a heap but for
its last element. -/
theorem heapRound_spec {tail : ℕ} (h : HeapOrder.Ordered (tail + 1) (keyAt 0 a))
    (htail : tail + 1 < a.length) (hint : a.length < 2 ^ 30) :
    ∃ b, heapRound tail a = some b ∧ HeapOrder.Ordered tail (keyAt 0 b)
      ∧ Within 0 (tail + 2) a b ∧ b[tail + 1]? = a[0]? ∧ (3 ≤ tail → LastFits tail b) := by
  obtain ⟨c, hc, hswapped⟩ := exists_swap (show 0 < a.length by omega) htail
  have hwithin : Within 0 (tail + 2) a c :=
    .of_swapped hswapped ⟨Nat.le_refl 0, by omega⟩ ⟨Nat.zero_le _, by omega⟩
  have hhole : HeapOrder.Hole tail (keyAt 0 c) 0 :=
    ((h.mono (Nat.le_succ tail)).hole 0).congr fun k hk hne =>
      keyAt_eq (hswapped.other k hne (by omega)) (Nat.zero_le k) (Nat.zero_le k)
  obtain ⟨b, hb, hordered, hwithin'⟩ := shiftDown_spec (Nat.le_refl 0)
    (show tail ≤ c.length by rw [hwithin.length_eq]; omega) (by omega) (by decide) hhole
    (fun hpos => absurd hpos (Nat.lt_irrefl 0)) (show tail - 0 < tail + 1 by omega)
  refine ⟨b, ?_, hordered, hwithin.trans (hwithin'.mono (Nat.le_refl 0) (by omega)), ?_,
    fun hthree x y hx hy => ?_⟩
  · unfold heapRound
    rw [hc, Option.bind_eq_bind, Option.bind_some, hb]
  · rw [hwithin'.outside _ (Or.inr (Nat.le_succ tail)), hswapped.right]
  · -- the parent of the last element has not been moved to the end
    have hparent : 0 < parent tail ∧ parent tail < tail := by
      unfold parent
      omega
    have hz : a[parent tail]? = some a[parent tail] := List.getElem?_eq_getElem (by omega)
    have hroot : a[parent tail] ≤ y :=
      hwithin'.symm.forall_mem (fun k z _ hk hz => le_root hordered hk hz hy) (parent tail) _
        (Nat.zero_le _) hparent.2
        ((hswapped.other _ (by omega) (by omega)).trans hz)
    rw [hwithin'.outside tail (Or.inr (Nat.le_refl tail)),
      hswapped.other tail (by omega) (by omega)] at hx
    have hheap := h tail (by omega) (Nat.lt_succ_self tail)
    exact ((keyAt_le_iff (Nat.zero_le _) (Nat.zero_le _) hz hx).mp hheap).trans hroot

theorem heapRounds_of_le {stop tail : ℕ} (h : tail ≤ stop) : heapRounds stop tail a = some a := by
  cases tail with
  | zero => rfl
  | succ tail => exact if_pos h

theorem heapRounds_succ {stop tail : ℕ} (h : stop ≤ tail) (hround : heapRound tail a = some b) :
    heapRounds stop (tail + 1) a = heapRounds stop tail b := by
  unfold heapRounds
  rw [if_neg (by omega), hround, Option.bind_eq_bind, Option.bind_some]
  cases tail with
  | zero => rfl
  | succ tail => rfl

/-- What a round puts at the end of the part is not less than the rest of it
exactly if the last element fits. -/
theorem forall_le_iff_lastFits {tail : ℕ} {y : α} (h : HeapOrder.Ordered (tail + 1) (keyAt 0 a))
    (hy : a[0]? = some y) :
    (∀ k x, 0 ≤ k → k < tail + 2 → a[k]? = some x → x ≤ y) ↔ LastFits (tail + 1) a := by
  constructor
  · intro hall x y' hx hy'
    rw [hy] at hy'
    exact Option.some_inj.mp hy' ▸ hall (tail + 1) x (Nat.zero_le _) (Nat.lt_succ_self _) hx
  · intro hfits k x _ hk hx
    rcases Nat.lt_succ_iff_lt_or_eq.mp hk with hlt | rfl
    · exact le_root h hlt hx hy
    · exact hfits x y hx hy

/-- The root of a round is not less than what ends up before it exactly if the
last element fits. -/
theorem forall_le_last_iff_lastFits {tail : ℕ} {r : List α} {y : α}
    (h : HeapOrder.Ordered (tail + 1) (keyAt 0 a)) (hwithin : Within 0 (tail + 2) a r)
    (hy : a[0]? = some y) (hlast : r[tail + 1]? = some y) :
    (∀ z, r[tail + 1]? = some z → ∀ k x, 0 ≤ k → k < tail + 1 → r[k]? = some x → x ≤ z)
      ↔ LastFits (tail + 1) a := by
  rw [← forall_le_iff_lastFits h hy]
  constructor
  · intro hall
    refine hwithin.symm.forall_mem fun k x hk hlt hx => ?_
    rcases Nat.lt_succ_iff_lt_or_eq.mp hlt with hlt' | rfl
    · exact hall y hlast k x hk hlt' hx
    · exact (Option.some_inj.mp (hx.symm.trans hlast)).le
  · intro hall z hz k x hk hlt hx
    rw [hlast] at hz
    exact Option.some_inj.mp hz ▸ hwithin.forall_mem hall k x hk (Nat.lt_succ_of_lt hlt) hx

/-- **The rounds** leave the part in order exactly if the last element fits
before each of them. -/
theorem heapRounds_spec {tail : ℕ} (h : HeapOrder.Ordered tail (keyAt 0 a))
    (htail : tail < a.length) (hint : a.length < 2 ^ 30) :
    ∃ r, heapRounds 0 tail a = some r ∧ Within 0 (tail + 1) a r
      ∧ (SortedOn 0 (tail + 1) r
        ↔ ∀ t, 0 < t → t ≤ tail → ∀ s, heapRounds t tail a = some s → LastFits t s) := by
  induction tail generalizing a with
  | zero =>
    exact ⟨a, rfl, Within.refl 0 1 a,
      iff_of_true (sortedOn_of_le (Nat.le_refl 1) a) fun t hpos ht => by omega⟩
  | succ tail ih =>
    obtain ⟨b, hround, hordered, hwithin, hlast, -⟩ := heapRound_spec h htail hint
    have hlength := hwithin.length_eq
    obtain ⟨r, hr, hwithin', hsorted⟩ := ih hordered (by omega) (by omega)
    have hy : a[0]? = some a[0] := List.getElem?_eq_getElem (by omega)
    have hwhole := hwithin.trans (hwithin'.mono (Nat.le_refl 0) (Nat.le_succ (tail + 1)))
    have hlast' : r[tail + 1]? = some a[0] := by
      rw [hwithin'.outside _ (Or.inr (Nat.le_refl _)), hlast, hy]
    refine ⟨r, (heapRounds_succ (Nat.zero_le tail) hround).trans hr, hwhole, ?_⟩
    rw [sortedOn_succ_iff, hsorted, forall_le_last_iff_lastFits h hwhole hy hlast']
    constructor
    · rintro ⟨hlater, hfits⟩ t hpos ht s hs
      rcases Nat.lt_succ_iff_lt_or_eq.mp (Nat.lt_succ_of_le ht) with hlt | rfl
      · rw [heapRounds_succ (Nat.le_of_lt_succ hlt) hround] at hs
        exact hlater t hpos (Nat.le_of_lt_succ hlt) s hs
      · rw [heapRounds_of_le (Nat.le_refl _)] at hs
        exact Option.some_inj.mp hs ▸ hfits
    · intro hall
      refine ⟨fun t hpos ht s hs => hall t hpos (Nat.le_succ_of_le ht) s ?_,
        hall (tail + 1) (Nat.succ_pos tail) (Nat.le_refl _) a (heapRounds_of_le (Nat.le_refl _))⟩
      rw [heapRounds_succ ht hround]
      exact hs

/-- **Before a round with `tail` from three on the last element fits**, if it
did in the first. -/
theorem lastFits_of_three_le {tail t : ℕ} {s : List α} (h : HeapOrder.Ordered tail (keyAt 0 a))
    (htail : tail < a.length) (hint : a.length < 2 ^ 30) (hfits : LastFits tail a)
    (hthree : 3 ≤ t) (ht : t ≤ tail)
    (hs : heapRounds t tail a = some s) : LastFits t s := by
  induction tail generalizing a with
  | zero => omega
  | succ tail ih =>
    rcases Nat.lt_succ_iff_lt_or_eq.mp (Nat.lt_succ_of_le ht) with hlt | rfl
    · obtain ⟨b, hround, hordered, hwithin, -, hnext⟩ := heapRound_spec h htail hint
      have hlength := hwithin.length_eq
      rw [heapRounds_succ (Nat.le_of_lt_succ hlt) hround] at hs
      exact ih hordered (by omega) (by omega) (hnext (by omega)) (Nat.le_of_lt_succ hlt) hs
    · rw [heapRounds_of_le (Nat.le_refl _)] at hs
      exact Option.some_inj.mp hs ▸ hfits

end

theorem heapSort_eq {nums heap : List α} (h : 2 ≤ nums.length) (hint : nums.length < 2 ^ 31)
    (hheap : heapify nums = some heap) :
    heapSort nums = heapRounds 0 (nums.length - 1) heap := by
  have htail : (wrap (nums.length - 1 : ℕ)).toNat = nums.length - 1 := by
    rw [wrap_natCast (by omega), Int.toNat_natCast]
  unfold heapSort
  rw [if_neg (by omega), hheap, Option.bind_eq_bind, Option.bind_some]
  simp only [htail]

theorem beforeRound_eq {nums heap : List α} (h : 2 ≤ nums.length)
    (hheap : heapify nums = some heap) (tail : ℕ) :
    beforeRound tail nums = heapRounds tail (nums.length - 1) heap := by
  unfold beforeRound
  rw [if_neg (by omega), hheap]
  rfl

/-- **What `HeapSort` does**: it comes to an end, keeps to the vector and
rearranges it, and it sorts exactly if before the rounds with `tail` two and one
the element at `tail` is not greater than the one at the root. -/
theorem heapSort_sorted_iff {nums : List α} (hint : nums.length < 2 ^ 30) :
    ∃ r, heapSort nums = some r ∧ r.Perm nums
      ∧ (r.Pairwise (· ≤ ·)
        ↔ ∀ tail, 0 < tail → tail ≤ 2 → ∀ a, beforeRound tail nums = some a →
          LastFits tail a) := by
  rcases Nat.lt_or_ge nums.length 2 with hshort | hlong
  · refine ⟨nums, if_pos hshort, List.Perm.refl nums,
      iff_of_true (pairwise_of_length_lt_two hshort) fun _ _ _ a h => ?_⟩
    unfold beforeRound at h
    rw [if_pos hshort] at h
    cases h
  · obtain ⟨heap, hheap, hordered, hperm⟩ := heapify_spec hlong hint
    have hlength := hperm.length_eq
    have hfirst : LastFits (nums.length - 1) heap :=
      fun x y hx hy => le_root hordered (by omega) hx hy
    have hheap' : HeapOrder.Ordered (nums.length - 1) (keyAt 0 heap) := hordered.mono (by omega)
    obtain ⟨r, hr, hwithin, hsorted⟩ := heapRounds_spec hheap' (by omega) (by omega)
    rw [heapSort_eq hlong (by omega) hheap]
    simp only [beforeRound_eq hlong hheap]
    have hend : nums.length - 1 + 1 = r.length := by
      rw [hwithin.length_eq]
      omega
    rw [hend, sortedOn_iff_pairwise] at hsorted
    refine ⟨r, hr, hwithin.perm.trans hperm, hsorted.trans ⟨fun hall t hpos ht s hs => ?_,
      fun hall t hpos ht s hs => ?_⟩⟩
    · rcases Nat.lt_or_ge (nums.length - 1) t with hgt | hle
      · -- there is no such round
        rw [heapRounds_of_le hgt.le] at hs
        obtain rfl := Option.some_inj.mp hs
        intro x y hx
        rw [List.getElem?_eq_none (by omega)] at hx
        cases hx
      · exact hall t hpos hle s hs
    · rcases Nat.lt_or_ge 2 t with hgt | hle
      · exact lastFits_of_three_le hheap' (by omega) (by omega) hfirst hgt ht hs
      · exact hall t hpos hle s hs

/-! ## The three least elements

The rounds before the last two leave the three least elements in the first three
places, in some order with the greatest of them at the root. If the least element
is there three times, nothing can go wrong with them. -/

section

variable {a s : List α} {m : α}

theorem heapRounds_within {stop tail : ℕ} (h : HeapOrder.Ordered tail (keyAt 0 a))
    (htail : tail < a.length) (hint : a.length < 2 ^ 30) (hs : heapRounds stop tail a = some s) :
    Within 0 (tail + 1) a s := by
  induction tail generalizing a with
  | zero =>
    rw [heapRounds_of_le (Nat.zero_le stop)] at hs
    exact Option.some_inj.mp hs ▸ Within.refl 0 1 a
  | succ tail ih =>
    rcases Nat.lt_or_ge stop (tail + 1) with hlt | hge
    · obtain ⟨b, hround, hordered, hwithin, -⟩ := heapRound_spec h htail hint
      have hlength := hwithin.length_eq
      rw [heapRounds_succ (Nat.le_of_lt_succ hlt) hround] at hs
      exact hwithin.trans ((ih hordered (by omega) (by omega) hs).mono (Nat.le_refl 0)
        (Nat.le_succ _))
    · rw [heapRounds_of_le hge] at hs
      exact Option.some_inj.mp hs ▸ Within.refl 0 _ a

/-- **What the rounds leave before an index** is not greater than what they have
put behind it, from index two on. -/
theorem heapRounds_left {stop tail n : ℕ} (h : HeapOrder.Ordered tail (keyAt 0 a))
    (htail : tail < a.length) (hint : a.length < 2 ^ 30) (hfits : LastFits tail a)
    (htwo : 2 ≤ n) (hstop : stop ≤ n) (hs : heapRounds stop tail a = some s) :
    ∀ j k x y, j ≤ n → n < k → k ≤ tail → s[j]? = some x → s[k]? = some y → x ≤ y := by
  intro j k x y hj hk hk' hx hy
  induction tail generalizing a with
  | zero => omega
  | succ tail ih =>
    obtain ⟨b, hround, hordered, hwithin, hlast, hnext⟩ := heapRound_spec h htail hint
    have hlength := hwithin.length_eq
    rw [heapRounds_succ (by omega) hround] at hs
    rcases Nat.lt_succ_iff_lt_or_eq.mp (Nat.lt_succ_of_le hk') with hlt | rfl
    · exact ih hordered (by omega) (by omega) (hnext (by omega)) hs (Nat.le_of_lt_succ hlt)
    · -- the first of the rounds has put the root there
      have hrest := heapRounds_within hordered (by omega) (by omega) hs
      have hwhole := hwithin.trans (hrest.mono (Nat.le_refl 0) (Nat.le_succ _))
      rw [hrest.outside _ (Or.inr (Nat.le_refl _)), hlast] at hy
      exact hwhole.forall_mem ((forall_le_iff_lastFits h hy).mpr hfits) j x (Nat.zero_le j)
        (by omega) hx

/-- A least element that occurs three times takes up the first three places, if
nothing behind them is less than what they hold. -/
theorem eq_least_of_left (hcount : 3 ≤ s.count m) (hleast : ∀ x ∈ s, m ≤ x)
    (hleft : ∀ j k x y, j ≤ 2 → 2 < k → s[j]? = some x → s[k]? = some y → x ≤ y) :
    ∀ k x, 0 ≤ k → k < 3 → s[k]? = some x → x = m := by
  intro k x _ hk hx
  by_cases hm : m ∈ s.drop 3
  · obtain ⟨i, hi⟩ := List.mem_iff_getElem?.mp hm
    rw [List.getElem?_drop] at hi
    exact le_antisymm (hleft k (3 + i) x m (by omega) (by omega) hx hi)
      (hleast x (List.mem_of_getElem? hx))
  · have hsplit : s.count m = (s.take 3).count m + (s.drop 3).count m := by
      rw [← List.count_append, List.take_append_drop]
    have hall : (s.take 3).count m = (s.take 3).length := by
      have hle : (s.take 3).count m ≤ (s.take 3).length := List.count_le_length
      rw [List.count_eq_zero_of_not_mem hm] at hsplit
      have htake : (s.take 3).length ≤ 3 := List.length_take_le 3 s
      omega
    have hmem : x ∈ s.take 3 := List.mem_of_getElem? ((List.getElem?_take_of_lt hk).trans hx)
    exact (List.count_eq_length.mp hall x hmem).symm

end

/-- **Vectors that come out in order**: those of less than three elements, and
those in which the least element is there three times. -/
theorem heapSorts_of_leastThrice {nums : List α} (hint : nums.length < 2 ^ 30)
    (h : nums.length < 3 ∨ LeastThrice nums) : HeapSorts nums := by
  obtain ⟨r, hr, hperm, hsorted⟩ := heapSort_sorted_iff hint
  refine ⟨r, hr, hperm, hsorted.mpr fun tail hpos htail s hs => ?_⟩
  rcases Nat.lt_or_ge nums.length 2 with hshort | hlong
  · unfold beforeRound at hs
    rw [if_pos hshort] at hs
    cases hs
  · obtain ⟨heap, hheap, hordered, hheapPerm⟩ := heapify_spec hlong hint
    have hlength := hheapPerm.length_eq
    have hfirst : LastFits (nums.length - 1) heap :=
      fun x y hx hy => le_root hordered (by omega) hx hy
    have hheap' : HeapOrder.Ordered (nums.length - 1) (keyAt 0 heap) := hordered.mono (by omega)
    rw [beforeRound_eq hlong hheap] at hs
    rcases h with hthree | ⟨m, hcount, hleast⟩
    · -- there is one round, and it begins with the heap
      rw [heapRounds_of_le (by omega)] at hs
      obtain rfl := Option.some_inj.mp hs
      rcases Nat.lt_succ_iff_lt_or_eq.mp (Nat.lt_succ_of_le htail) with hlt | rfl
      · have hone : tail = nums.length - 1 := by omega
        exact hone ▸ hfirst
      · intro x y hx
        rw [List.getElem?_eq_none (by omega)] at hx
        cases hx
    · have hwithin := heapRounds_within hheap' (by omega) (by omega) hs
      have hperm' := hwithin.perm.trans hheapPerm
      have heq := eq_least_of_left (hperm'.count_eq m ▸ hcount)
        (fun x hx => hleast x (hperm'.mem_iff.mp hx))
        (fun j k x y hj hk hx hy => by
          have hlt := (List.getElem?_eq_some_iff.mp hy).1
          have hlength' := hperm'.length_eq
          exact heapRounds_left hheap' (by omega) (by omega) hfirst (Nat.le_refl 2) htail hs j k x
            y hj hk (by omega) hx hy)
      intro x y hx hy
      rw [heq tail x (Nat.zero_le _) (by omega) hx, heq 0 y (Nat.le_refl 0) (by decide) hy]

/-- Three elements that are in the wrong order already and do not come out in
order. -/
theorem heapSort_three_two_one : ¬ HeapSorts [(3 : ℤ), 2, 1] := by
  rintro ⟨r, hr, -, hsorted⟩
  have hcomputed : heapSort [(3 : ℤ), 2, 1] = some [2, 1, 3] := by decide
  rw [hcomputed] at hr
  obtain rfl := Option.some_inj.mp hr
  exact absurd hsorted (by decide)

end Sorting
