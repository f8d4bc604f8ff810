import Mathlib.Data.Int.Order.Basic
import LinuxStudy.HeapOrder
import LinuxStudy.Timer

/-!
# The order of the timers

The heap of a `TimerManager` is kept in order by the times at which its nodes
expire, so that `heap_.front()` is a timer that expires first. The sifts are
rows of swaps in the sense of `HeapOrder`: `shiftup` puts a node in order that
is too small, `shiftdown` one that is not too small, and the two after one
another any node (`ordered_shift`). `addTimer` and `del_` do that with the node
they put somewhere, and keep the order.

`update` changes the time of a node and does the one half of it only. So it
keeps the order exactly if the node does not expire before its parent
(`ordered_update_iff`): then `shiftdown` is enough, and else it does nothing.
-/

namespace MiniDcs

open HeapOrder (Hole Above Below Swapped parent)

namespace TimerManager

variable {C : Type} {t : TimerManager C} {n i j : ℕ}

/-- When the node at an index expires. -/
def expireAt (t : TimerManager C) (k : ℕ) : ℤ := (t.heap[k]?.map TimeNode.expire).getD 0

theorem expireAt_of_getElem? {k : ℕ} {node : TimeNode C} (h : t.heap[k]? = some node) :
    t.expireAt k = node.expire := by
  unfold expireAt
  rw [h]
  rfl

/-- **The min-heap order** of `heap_`: `heap_[(i-1)/2].expire <= heap_[i].expire`
for every node but the first. -/
def Ordered (t : TimerManager C) : Prop :=
  ∀ i, 1 ≤ i → ∀ a b, t.heap[(i - 1) / 2]? = some a → t.heap[i]? = some b → a.expire ≤ b.expire

/-- The order, by the times at the indices. -/
theorem ordered_iff : t.Ordered ↔ HeapOrder.Ordered t.heap.size t.expireAt := by
  constructor
  · intro h k hpos hk
    have ha := Array.getElem?_eq_getElem ((HeapOrder.parent_lt hpos).trans hk)
    have hb := Array.getElem?_eq_getElem hk
    rw [expireAt_of_getElem? ha, expireAt_of_getElem? hb]
    exact h k hpos _ _ ha hb
  · intro h i hi a b ha hb
    have hle := h i hi (Array.getElem?_eq_some_iff.mp hb).1
    rw [← expireAt_of_getElem? ha, ← expireAt_of_getElem? hb]
    exact hle

/-- **In order, the front expires first.** -/
theorem Ordered.front_le (h : t.Ordered) {front node : TimeNode C}
    (hfront : t.heap[0]? = some front) (hnode : node ∈ t.heap.toList) :
    front.expire ≤ node.expire := by
  obtain ⟨k, hk⟩ := List.mem_iff_getElem?.mp hnode
  rw [Array.getElem?_toList] at hk
  have hle := (ordered_iff.mp h).root_le (Array.getElem?_eq_some_iff.mp hk).1
  rwa [expireAt_of_getElem? hfront, expireAt_of_getElem? hk] at hle

theorem less_iff (hi : i < t.heap.size) (hj : j < t.heap.size) :
    t.less i j = true ↔ t.expireAt i < t.expireAt j := by
  unfold less expireAt
  rw [Array.getElem?_eq_getElem hi, Array.getElem?_eq_getElem hj]
  exact decide_eq_true_iff

/-- `swapNode` swaps the times. -/
theorem swapped_swapNode (hi : i < t.heap.size) (hj : j < t.heap.size) :
    Swapped t.expireAt (t.swapNode i j).expireAt i j := by
  have hget : ∀ k : ℕ, (t.swapNode i j).heap[k]?
      = if j = k then some t.heap[i] else if i = k then some t.heap[j] else t.heap[k]? := by
    intro k
    unfold swapNode
    rw [dif_pos ⟨hi, hj⟩]
    exact Array.getElem?_swap hi hj
  unfold expireAt
  refine ⟨?_, ?_, fun k hki hkj => ?_⟩
  · rw [hget, Array.getElem?_eq_getElem hj]
    split
    · next h => subst h; rfl
    · rw [if_pos rfl]
  · rw [hget, if_pos rfl, Array.getElem?_eq_getElem hi]
  · rw [hget, if_neg (Ne.symm hkj), if_neg (Ne.symm hki)]

theorem size_swapNode (t : TimerManager C) (i j : ℕ) :
    (t.swapNode i j).heap.size = t.heap.size := by
  unfold swapNode
  split
  · exact Array.size_swap
  · rfl

/-! ## Sifting

The times of the nodes by their indices are a heap as `HeapOrder` has it, and a
swap of nodes is one of times. Sifting up and down is then what is said there of
one step, repeated until the node fits in. -/

/-- **Sifting up puts a node in order** whose children are not less. -/
theorem ordered_shiftupLoop (rounds : ℕ) (t : TimerManager C) {i : ℕ} (hn : n ≤ t.heap.size)
    (hi : i < n) (hrounds : i ≤ rounds) (hhole : Hole n t.expireAt i)
    (hbelow : Below n t.expireAt i) :
    HeapOrder.Ordered n (shiftupLoop rounds t i).expireAt := by
  induction rounds generalizing t i with
  | zero =>
    obtain rfl : i = 0 := Nat.le_zero.mp hrounds
    exact hhole.ordered (fun h => absurd h (Nat.lt_irrefl 0)) hbelow
  | succ rounds ih =>
    have hi' : i < t.heap.size := hi.trans_le hn
    unfold shiftupLoop
    dsimp only
    split
    · next hroot =>
      subst hroot
      exact hhole.ordered (fun h => absurd h (Nat.lt_irrefl 0)) hbelow
    · next hroot =>
      have hpos : 0 < i := Nat.pos_of_ne_zero hroot
      have hlt : parent i < i := HeapOrder.parent_lt hpos
      split
      · next hless =>
        exact hhole.ordered (fun _ => ((less_iff (hlt.trans hi') hi').mp hless).le) hbelow
      · next hless =>
        have hle : t.expireAt i ≤ t.expireAt (parent i) :=
          not_lt.mp (fun h => hless ((less_iff (hlt.trans hi') hi').mpr h))
        obtain ⟨hhole', hbelow'⟩ :=
          hhole.up hpos hi hle (swapped_swapNode hi' (hlt.trans hi'))
        refine ih (t.swapNode i (parent i)) ?_ (hlt.trans hi) (by omega) hhole' hbelow'
        rw [size_swapNode]
        exact hn

/-- The child that `shiftdown` takes is a child, and none expires before it. -/
theorem child_spec (hn : n ≤ t.heap.size) (hj : i * 2 + 1 < n) :
    t.child n (i * 2 + 1) < n ∧ parent (t.child n (i * 2 + 1)) = i
      ∧ 0 < t.child n (i * 2 + 1)
      ∧ ∀ k, 0 < k → k < n → parent k = i →
        t.expireAt (t.child n (i * 2 + 1)) ≤ t.expireAt k := by
  have hj' : i * 2 + 1 < t.heap.size := hj.trans_le hn
  unfold child
  split
  · next h =>
    have hless := (less_iff (h.1.trans_le hn) hj').mp h.2
    refine ⟨h.1, (HeapOrder.parent_eq_iff (Nat.succ_pos _)).mpr (Or.inr rfl), Nat.succ_pos _,
      fun k hpos _ hk => ?_⟩
    rcases (HeapOrder.parent_eq_iff hpos).mp hk with rfl | rfl
    · exact hless.le
    · exact le_rfl
  · next h =>
    refine ⟨hj, (HeapOrder.parent_eq_iff (Nat.succ_pos _)).mpr (Or.inl rfl), Nat.succ_pos _,
      fun k hpos hkn hk => ?_⟩
    rcases (HeapOrder.parent_eq_iff hpos).mp hk with rfl | rfl
    · exact le_rfl
    · exact not_lt.mp (fun hlt => h ⟨hkn, (less_iff (hkn.trans_le hn) hj').mpr hlt⟩)

/-- **Sifting down puts a node in order** that is not less than its parent. -/
theorem ordered_shiftdownLoop (rounds : ℕ) (t : TimerManager C) {i : ℕ} (hn : n ≤ t.heap.size)
    (hi : i < n) (hrounds : n ≤ rounds + i) (hhole : Hole n t.expireAt i)
    (habove : Above t.expireAt i) :
    HeapOrder.Ordered n (shiftdownLoop n rounds t i).1.expireAt := by
  induction rounds generalizing t i with
  | zero => omega
  | succ rounds ih =>
    have hi' : i < t.heap.size := hi.trans_le hn
    unfold shiftdownLoop
    dsimp only
    split
    · next hj =>
      obtain ⟨hchild, hpar, hpos, hleast⟩ := child_spec hn hj
      generalize t.child n (i * 2 + 1) = c at hchild hpar hpos hleast ⊢
      have hc' : c < t.heap.size := hchild.trans_le hn
      split
      · next hless =>
        have hlt := (less_iff hi' hc').mp hless
        exact hhole.ordered habove (fun k hk hkn hkpar => hlt.le.trans (hleast k hk hkn hkpar))
      · next hless =>
        have hle : t.expireAt c ≤ t.expireAt i :=
          not_lt.mp (fun h => hless ((less_iff hi' hc').mpr h))
        obtain ⟨hhole', habove'⟩ :=
          hhole.down hpos hchild hpar hleast hle (swapped_swapNode hi' hc')
        have hic : i < c := hpar ▸ HeapOrder.parent_lt hpos
        refine ih (t.swapNode i c) ?_ hchild (by omega) hhole' habove'
        rw [size_swapNode]
        exact hn
    · next hj =>
      -- a node without children
      refine hhole.ordered habove (fun k hk hkn hkpar => ?_)
      rcases (HeapOrder.parent_eq_iff hk).mp hkpar with rfl | rfl <;> omega

/-- A node whose children are all greater is not sifted down. -/
theorem shiftdownLoop_eq_self (rounds : ℕ) (hn : n ≤ t.heap.size) (hi : i < n)
    (hgreater : ∀ k, 0 < k → k < n → parent k = i → t.expireAt i < t.expireAt k) :
    shiftdownLoop n rounds t i = (t, i) := by
  cases rounds with
  | zero => rfl
  | succ rounds =>
    unfold shiftdownLoop
    dsimp only
    split
    · next hj =>
      obtain ⟨hchild, hpar, hpos, -⟩ := child_spec hn hj
      rw [if_pos ((less_iff (hi.trans_le hn) (hchild.trans_le hn)).mpr
        (hgreater _ hpos hchild hpar))]
    · rfl

/-- Sifting down goes down, or changes nothing. -/
theorem shiftdownLoop_index (rounds : ℕ) (t : TimerManager C) (i : ℕ) (hn : n ≤ t.heap.size) :
    shiftdownLoop n rounds t i = (t, i) ∨ i < (shiftdownLoop n rounds t i).2 := by
  induction rounds generalizing t i with
  | zero => exact Or.inl rfl
  | succ rounds ih =>
    unfold shiftdownLoop
    dsimp only
    split
    · next hj =>
      obtain ⟨-, hpar, hpos, -⟩ := child_spec hn hj
      have hlt : i < t.child n (i * 2 + 1) := by
        have h := HeapOrder.parent_lt hpos
        rwa [hpar] at h
      split
      · exact Or.inl rfl
      · refine Or.inr ?_
        have hn' : n ≤ (t.swapNode i (t.child n (i * 2 + 1))).heap.size := by
          rw [size_swapNode]
          exact hn
        rcases ih (t.swapNode i (t.child n (i * 2 + 1))) (t.child n (i * 2 + 1)) hn' with h | h
        · rw [h]
          exact hlt
        · exact hlt.trans h
    · exact Or.inl rfl

/-- **Sifting puts any node in order.** If the node is less than its parent, its
children are greater, so that it is sifted up and not down. -/
theorem ordered_shift (t : TimerManager C) {i : ℕ} (hn : n ≤ t.heap.size) (hi : i < n)
    (hhole : Hole n t.expireAt i) : HeapOrder.Ordered n (t.shift i n).expireAt := by
  unfold shift shiftdown
  dsimp only
  by_cases habove : Above t.expireAt i
  · have hdown := ordered_shiftdownLoop n t hn hi (Nat.le_add_right n i) hhole habove
    rcases shiftdownLoop_index n t i hn with hstay | hmoved
    · rw [hstay] at hdown ⊢
      rw [if_neg (by simp)]
      exact ordered_shiftupLoop i t hn hi le_rfl hhole (hdown.below i)
    · rw [if_pos (decide_eq_true hmoved)]
      exact hdown
  · obtain ⟨hpos, hless⟩ := Classical.not_imp.mp habove
    have hgreater : ∀ k, 0 < k → k < n → parent k = i → t.expireAt i < t.expireAt k :=
      fun k hk hkn hkpar => (not_le.mp hless).trans_le (hhole.past hpos k hk hkn hkpar)
    rw [shiftdownLoop_eq_self n hn hi hgreater, if_neg (by simp)]
    exact ordered_shiftupLoop i t hn hi le_rfl hhole
      (fun k hk hkn hkpar => (hgreater k hk hkn hkpar).le)

/-! ## The operations

A node that is changed where it stands, or put in the place of another, is the
only one that may be out of order. Sifting it down first and up only if it was not
moved puts it right in both cases: a node that is less than its parent is less
than its children too. `update` sifts down only. That is right if the node does
not expire before its parent, and if it does, nothing puts it right. -/

theorem Rearranged.size_eq {t' : TimerManager C} (h : Rearranged n t t') :
    t'.heap.size = t.heap.size := by
  simpa using h.perm.length_eq

theorem expireAt_modify_of_ne (f : TimeNode C → TimeNode C) {k : ℕ} (hk : k ≠ i) :
    (t.modify i f).expireAt k = t.expireAt k := by
  unfold expireAt modify
  rw [Array.getElem?_modify, if_neg (Ne.symm hk)]

theorem Ordered.hole_modify (h : t.Ordered) (i : ℕ) (f : TimeNode C → TimeNode C) :
    Hole t.heap.size (t.modify i f).expireAt i :=
  ((ordered_iff.mp h).hole i).congr (fun _ _ hk => expireAt_modify_of_ne f hk)

theorem size_modify (t : TimerManager C) (i : ℕ) (f : TimeNode C → TimeNode C) :
    (t.modify i f).heap.size = t.heap.size :=
  Array.size_modify

/-- What `addTimer` does: a new node is sifted up, a node that is there is
changed and sifted. -/
theorem addTimer_cases {now id timeout : ℤ} {cb : C} {t' : TimerManager C}
    (h : t.addTimer now id timeout cb = some t') :
    0 ≤ id
      ∧ ((t.ref.lookup id = none
          ∧ t' = shiftup ⟨t.heap.push ⟨id, now + ms timeout, cb⟩, t.ref.insert id t.heap.size⟩
            t.heap.size)
        ∨ ∃ i, t.ref.lookup id = some i
          ∧ t' = (t.modify i (fun node => { node with expire := now + ms timeout, cb := cb })).shift
            i t.heap.size) := by
  unfold addTimer at h
  split at h
  · exact absurd h (by simp)
  · next hid =>
    refine ⟨by omega, ?_⟩
    cases href : t.ref.lookup id with
    | none =>
      rw [href] at h
      exact Or.inl ⟨rfl, (Option.some.inj h).symm⟩
    | some i =>
      rw [href] at h
      dsimp only at h
      rw [size_modify] at h
      exact Or.inr ⟨i, rfl, (Option.some.inj h).symm⟩

/-- **`addTimer` keeps the order.** -/
theorem Ordered.addTimer (h : t.Ordered) (hindexed : t.Indexed) {now id timeout : ℤ} {cb : C}
    {t' : TimerManager C} (hadd : t.addTimer now id timeout cb = some t') : t'.Ordered := by
  rw [ordered_iff]
  obtain ⟨-, ⟨-, rfl⟩ | ⟨i, href, rfl⟩⟩ := addTimer_cases hadd
  · generalize hu : (⟨t.heap.push ⟨id, now + ms timeout, cb⟩, t.ref.insert id t.heap.size⟩ :
      TimerManager C) = u
    have hheap : u.heap = t.heap.push ⟨id, now + ms timeout, cb⟩ := by rw [← hu]
    have hsize : u.heap.size = t.heap.size + 1 := by rw [hheap, Array.size_push]
    have hkeys : ∀ k < t.heap.size, u.expireAt k = t.expireAt k := by
      intro k hk
      unfold expireAt
      rw [hheap, Array.getElem?_push, if_neg (Nat.ne_of_lt hk)]
    obtain ⟨hhole, hbelow⟩ := (ordered_iff.mp h).push hkeys
    have hlast : t.heap.size < t.heap.size + 1 := Nat.lt_succ_self _
    unfold shiftup
    rw [(rearranged_shiftupLoop t.heap.size u hlast).size_eq, hsize]
    exact ordered_shiftupLoop t.heap.size u (Nat.le_of_eq hsize.symm) hlast le_rfl hhole hbelow
  · obtain ⟨node, hnode, -⟩ := (hindexed id i).mp href
    have hi := (Array.getElem?_eq_some_iff.mp hnode).1
    rw [(rearranged_shift _ hi).size_eq, size_modify]
    exact ordered_shift _ (Nat.le_of_eq (size_modify t i _).symm) hi (h.hole_modify i _)

/-- What `del_` leaves of the heap. -/
theorem del_heap {index : ℕ} (hindex : index < t.heap.size) :
    (t.del index).heap
      = (if index < t.heap.size - 1 then
          (t.swapNode index (t.heap.size - 1)).shift index (t.heap.size - 1) else t).heap.pop := by
  unfold del
  dsimp only
  split
  · next hnone =>
    have hsize := Array.getElem?_eq_none_iff.mp hnone
    split at hsize
    · next hlt =>
      rw [(rearranged_shift _ hlt).size_eq, size_swapNode] at hsize
      omega
    · omega
  · rfl

/-- **`del_` keeps the order.** -/
theorem Ordered.del (h : t.Ordered) {index : ℕ} (hindex : index < t.heap.size) :
    (t.del index).Ordered := by
  have hord := ordered_iff.mp h
  -- what is left when the last node goes
  have hpop : ∀ {u : TimerManager C}, u.heap.size = t.heap.size →
      HeapOrder.Ordered (t.heap.size - 1) u.expireAt → (t.del index).heap = u.heap.pop →
      (t.del index).Ordered := by
    intro u hsize hu hheap
    have hsize' : (t.del index).heap.size = t.heap.size - 1 := by
      rw [hheap, Array.size_pop, hsize]
    rw [ordered_iff, hsize']
    refine hu.congr (fun k hk => ?_)
    unfold expireAt
    rw [hheap, Array.getElem?_pop, if_pos (by omega)]
  have hheap := del_heap hindex
  split at hheap
  · next hlt =>
    have hlast : t.heap.size - 1 < t.heap.size := by omega
    have hswap := swapped_swapNode hindex hlast
    have hsize : (t.swapNode index (t.heap.size - 1)).heap.size = t.heap.size := size_swapNode _ _ _
    have hhole : Hole (t.heap.size - 1) (t.swapNode index (t.heap.size - 1)).expireAt index :=
      ((hord.mono (Nat.sub_le _ _)).hole index).congr
        (fun k hk hne => hswap.other k hne (Nat.ne_of_lt hk))
    refine hpop ?_ (ordered_shift _ (by omega) hlt hhole) hheap
    rw [(rearranged_shift _ hlt).size_eq, hsize]
  · exact hpop rfl (hord.mono (Nat.sub_le _ _)) hheap

theorem Ordered.pop (h : t.Ordered) {front : TimeNode C} (hfront : t.heap[0]? = some front) :
    t.pop.Ordered :=
  h.del (Array.getElem?_eq_some_iff.mp hfront).1

/-- **The node may expire then**: its parent expires no later. -/
def FitsParent (t : TimerManager C) (id expire : ℤ) : Prop :=
  ∀ i ∈ t.ref.lookup id, 1 ≤ i → t.expireAt ((i - 1) / 2) ≤ expire

instance (t : TimerManager C) (id expire : ℤ) : Decidable (t.FitsParent id expire) :=
  inferInstanceAs (Decidable (∀ i ∈ t.ref.lookup id, 1 ≤ i → t.expireAt ((i - 1) / 2) ≤ expire))

/-- What `update` does: the node is changed and sifted down. -/
theorem update_cases {now id timeout : ℤ} {t' : TimerManager C}
    (h : t.update now id timeout = some t') :
    ∃ i, t.ref.lookup id = some i
      ∧ t' = ((t.modify i (fun node => { node with expire := now + ms timeout })).shiftdown
        i t.heap.size).1 := by
  unfold update at h
  split at h
  · exact absurd h (by simp)
  · cases href : t.ref.lookup id with
    | none =>
      rw [href] at h
      exact absurd h (by simp)
    | some i =>
      rw [href] at h
      dsimp only at h
      rw [size_modify] at h
      exact ⟨i, rfl, (Option.some.inj h).symm⟩

/-- **When `update` keeps the order**: exactly if the node does not expire
before its parent. If it does, its children are greater and it stays where it
is. -/
theorem ordered_update_iff (h : t.Ordered) (hindexed : t.Indexed) {now id timeout : ℤ}
    {t' : TimerManager C} (hupdate : t.update now id timeout = some t') :
    t'.Ordered ↔ t.FitsParent id (now + ms timeout) := by
  obtain ⟨i, href, rfl⟩ := update_cases hupdate
  obtain ⟨node, hnode, -⟩ := (hindexed id i).mp href
  have hi := (Array.getElem?_eq_some_iff.mp hnode).1
  generalize hu : t.modify i (fun node => { node with expire := now + ms timeout }) = u
  have hsize : u.heap.size = t.heap.size := by rw [← hu, size_modify]
  have hhole : Hole t.heap.size u.expireAt i := hu ▸ h.hole_modify i _
  have hself : u.expireAt i = now + ms timeout := by
    have hget : u.heap[i]? = some { node with expire := now + ms timeout } := by
      rw [← hu]
      show (t.heap.modify i _)[i]? = _
      rw [Array.getElem?_modify, if_pos rfl, hnode]
      rfl
    exact expireAt_of_getElem? hget
  have hfits : t.FitsParent id (now + ms timeout) ↔ Above u.expireAt i := by
    unfold FitsParent Above
    rw [href, hself]
    simp only [Option.mem_some_iff, forall_eq']
    refine forall_congr' (fun hpos => ?_)
    rw [← hu, expireAt_modify_of_ne _ (Nat.ne_of_lt (HeapOrder.parent_lt hpos))]
    rfl
  rw [ordered_iff, (rearranged_shiftdown u hi).size_eq, hsize, hfits]
  unfold shiftdown
  dsimp only
  constructor
  · intro hord
    by_contra habove
    obtain ⟨hpos, hless⟩ := Classical.not_imp.mp habove
    rw [shiftdownLoop_eq_self _ (Nat.le_of_eq hsize.symm) hi
      (fun k hk hkn hkpar => (not_le.mp hless).trans_le (hhole.past hpos k hk hkn hkpar))] at hord
    exact hless (hord i hpos hi)
  · exact ordered_shiftdownLoop _ u (Nat.le_of_eq hsize.symm) hi (Nat.le_add_right _ _) hhole

end TimerManager

end MiniDcs
