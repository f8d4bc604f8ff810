import Mathlib.Data.List.Sort
import LinuxStudy.HeapSort

/-!
# What `HeapSort` sorts, and what it does not

A vector of less than three elements comes out of `HeapSort` in order, and so
does one in which the least element is there three times. Of a vector that has
three or more elements, all different, this cannot be said whatever the elements
are: there is always an arrangement of them that comes out wrong
(`exists_perm_not_heapSorts`), so that a condition that allows for longer vectors
has to look at the order the elements are in.

The arrangement is found from the end. A round can be undone: the last element
of its heap goes to the end of the part, what is there goes to the root, and the
elements between the two move down a level each. The element that was taken is
less than the others, so that the round brings it back to where it was
(`exists_descent`).
What has to be kept from round to round is that the two least elements are the
last of the heap and the one that the heap is short of (`GoesWrong`): undoing a
round exchanges the two, and the one that is then the next node of the heap is in
order there, as it is less than any parent.
-/

namespace Sorting

open InPlace IntArith
open HeapOrder (parent)

variable {α : Type} [LinearOrder α]

section

variable {a b c s : List α} {i j k n p t : ℕ}

omit [LinearOrder α] in
theorem exists_getElem? (h : k < a.length) : ∃ x, a[k]? = some x :=
  ⟨a[k], List.getElem?_eq_getElem h⟩

theorem keyAt_lt_of_le (hnodup : a.Nodup) (hj : j < a.length) (hk : k < a.length) (hne : j ≠ k)
    (h : keyAt 0 a j ≤ keyAt 0 a k) : keyAt 0 a j < keyAt 0 a k := by
  have hx : a[j]? = some a[j] := List.getElem?_eq_getElem hj
  have hy : a[k]? = some a[k] := List.getElem?_eq_getElem hk
  refine lt_of_le_not_ge h fun hge => hne ?_
  have hle := (keyAt_le_iff (Nat.zero_le j) (Nat.zero_le k) hx hy).mp h
  have hle' := (keyAt_le_iff (Nat.zero_le k) (Nat.zero_le j) hy hx).mp hge
  exact (List.getElem_inj hnodup).mp (le_antisymm hle' hle)

theorem keyAt_lt_iff {x y : α} (hx : a[j]? = some x) (hy : a[k]? = some y) :
    keyAt 0 a j < keyAt 0 a k ↔ y < x := by
  rw [← not_le, keyAt_le_iff (Nat.zero_le k) (Nat.zero_le j) hy hx, not_le]

theorem getMaxInPC_self (hn : n ≤ a.length) (hint : p < 2 ^ 30 - 1)
    (hbelow : ∀ k, p < k → k < n → HeapOrder.parent k = p → keyAt 0 a p < keyAt 0 a k) :
    getMaxInPC a p n = some p := by
  obtain ⟨j, hj, hmax⟩ := getMaxInPC_spec (Nat.zero_le p) hn hint
  rcases hmax with ⟨rfl, -⟩ | ⟨hpj, hjn, hparent, hless, -⟩
  · exact hj
  · exact absurd hless (not_le.mpr (hbelow j hpj hjn hparent))

/-- A child that is greater than the node and its other child is taken. -/
theorem getMaxInPC_child (hn : n ≤ a.length) (hint : p < 2 ^ 30 - 1) (hpos : 0 < i) (hi : i < n)
    (hparent : parent i = p) (hless : keyAt 0 a i < keyAt 0 a p)
    (hother : ∀ k, 0 < k → k < n → parent k = p → k ≠ i → keyAt 0 a i < keyAt 0 a k) :
    getMaxInPC a p n = some i := by
  obtain ⟨j, hj, hmax⟩ := getMaxInPC_spec (Nat.zero_le p) hn hint
  rcases hmax with ⟨rfl, hbelow⟩ | ⟨hpj, hjn, hparent', -, hleast⟩
  · exact absurd (hbelow i hpos hi hparent) (not_le.mpr hless)
  · by_cases heq : j = i
    · exact heq ▸ hj
    · exact absurd (hleast i hpos hi hparent)
        (not_le.mpr (hother j (by omega) hjn hparent' heq))

omit [LinearOrder α] in
/-- A second swap undoes the first. -/
theorem swap_of_swapped (h : Swapped a b i j) (hi : i < a.length) (hj : j < a.length) :
    swap b i j = some a := by
  have hlength := h.perm.length_eq
  obtain ⟨c, hc, hback⟩ := exists_swap (show i < b.length by omega) (show j < b.length by omega)
  rw [hc]
  refine congrArg some (List.ext_getElem? fun k => ?_)
  by_cases hki : k = i
  · rw [hki, hback.left, h.right]
  · by_cases hkj : k = j
    · rw [hkj, hback.right, h.left]
    · rw [hback.other k hki hkj, h.other k hki hkj]

/-- **A descent undone**: a heap but for the least of its elements is what a
descent from the root comes to. -/
theorem exists_descent (hnodup : a.Nodup) (hi : i < n) (hn : n ≤ a.length)
    (hint : a.length < 2 ^ 30) (hhole : HeapOrder.Hole n (keyAt 0 a) i)
    (hleast : ∀ k < n, k ≠ i → keyAt 0 a k < keyAt 0 a i) :
    ∃ e d, Within 0 n a e ∧ e[0]? = a[i]? ∧ HeapOrder.Hole n (keyAt 0 e) 0 ∧ d ≤ i
      ∧ ∀ rounds, shiftDown (rounds + d) e 0 n = shiftDown rounds a i n := by
  induction i using Nat.strongRecOn generalizing a with
  | ind i ih =>
    rcases Nat.eq_zero_or_pos i with rfl | hpos
    · exact ⟨a, 0, Within.refl 0 n a, rfl, hhole, Nat.le_refl 0, fun _ => rfl⟩
    · have hlt := HeapOrder.parent_lt hpos
      obtain ⟨b, -, hswapped⟩ := exists_swap (show i < a.length by omega)
        (show parent i < a.length by omega)
      have hkeys := swapped_keyAt hswapped (Nat.zero_le i) (Nat.zero_le (parent i))
      have hwithin : Within 0 n a b :=
        .of_swapped hswapped ⟨Nat.zero_le i, hi⟩ ⟨Nat.zero_le _, hlt.trans hi⟩
      have hlength := hwithin.length_eq
      obtain ⟨c, d, hwithin', hroot, hhole', hd, hrounds⟩ := ih (parent i) hlt
        (hwithin.perm.nodup_iff.mpr hnodup) (hlt.trans hi) (by omega) (by omega)
        (hhole.swap_parent hpos hi hkeys) fun k hk hne => by
          rw [hkeys.right]
          by_cases hki : k = i
          · rw [hki, hkeys.left]
            exact hleast _ (hlt.trans hi) (Nat.ne_of_lt hlt)
          · rw [hkeys.other k hki hne]
            exact hleast k hk hki
      refine ⟨c, d + 1, hwithin.trans hwithin', hroot.trans hswapped.right, hhole', by omega,
        fun rounds => ?_⟩
      -- the element goes back to the child it came from, the greater one
      have hchild : getMaxInPC b (parent i) n = some i := by
        refine getMaxInPC_child (by omega) (by omega) hpos hi rfl ?_ fun k hk hkn hpar hne => ?_
        · rw [hkeys.left, hkeys.right]
          exact hleast _ (hlt.trans hi) (Nat.ne_of_lt hlt)
        · have hpk := HeapOrder.parent_lt hk
          rw [hkeys.left, hkeys.other k hne (by omega)]
          exact keyAt_lt_of_le hnodup (by omega) (by omega) (by omega)
            (hhole.sibling hpos hk hkn hne hpar)
      have hback : swap b (parent i) i = some a :=
        swap_of_swapped ⟨hswapped.right, hswapped.left, fun k h h' => hswapped.other k h' h,
          hswapped.perm⟩ (by omega) (by omega)
      have hstep : shiftDown (rounds + 1) b (parent i) n = shiftDown rounds a i n := by
        unfold shiftDown
        simp only [hchild, hback, Option.bind_eq_bind, Option.bind_some]
        rw [if_neg (Nat.ne_of_lt hlt)]
        cases rounds <;> rfl
      rw [← hstep, ← hrounds, Nat.add_right_comm, Nat.add_assoc]

/-! ## Rounds undone

What a round does is to be had from any vector, so it is asked which vector it
comes from. `exists_descent` is the part of this that is about sifting: the way
from the root to a node is chosen, what is on it is moved down by a node, and the
sift from the root then takes this way and moves it up again. The rest of a round
are two swaps, which are undone by themselves. With three elements an arrangement
that goes wrong is seen by looking at it (`goesWrong_two`), and from there it is
one round more with each step. -/

/-- **The vector before a round with a given `tail`, where the result is not in
order.** The two least elements are the last of the heap and the one that is
left out of it. -/
structure GoesWrong (tail : ℕ) (s : List α) : Prop where
  heap : HeapOrder.Ordered tail (keyAt 0 s)
  behind : ∀ j k x y, tail < k → j < k → s[j]? = some x → s[k]? = some y → x ≤ y
  least : ∀ j k x y, j + 1 < tail → tail ≤ k + 1 → k ≤ tail →
    s[j]? = some x → s[k]? = some y → y < x
  wrong : ∃ r, heapRounds 0 tail s = some r ∧ ¬ r.Pairwise (· ≤ ·)

/-- **A round undone**: the last element of the heap goes to the end of the part,
the one from there to the root, and those between are moved down. -/
theorem GoesWrong.exists_round (h : GoesWrong t s) (hnodup : s.Nodup) (htwo : 2 ≤ t)
    (ht : t + 1 < s.length) (hint : s.length < 2 ^ 30) :
    ∃ s', heapRound t s' = some s ∧ Within 0 (t + 2) s s' ∧ HeapOrder.Hole t (keyAt 0 s') 0
      ∧ s'[0]? = s[t + 1]? ∧ s'[t]? = s[t]? ∧ s'[t + 1]? = s[t - 1]? := by
  obtain ⟨y, hy⟩ := exists_getElem? (show t - 1 < s.length by omega)
  have hleast : ∀ k < t, k ≠ t - 1 → keyAt 0 s k < keyAt 0 s (t - 1) := by
    intro k hk hne
    obtain ⟨x, hx⟩ := exists_getElem? (show k < s.length by omega)
    exact (keyAt_lt_iff hx hy).mpr (h.least k (t - 1) x y (by omega) (by omega) (by omega) hx hy)
  obtain ⟨c, d, hwithin, hroot, hhole, hd, hrounds⟩ := exists_descent hnodup
    (show t - 1 < t by omega) (show t ≤ s.length by omega) hint (h.heap.hole (t - 1)) hleast
  have hlength := hwithin.length_eq
  obtain ⟨s', -, hswapped⟩ := exists_swap (show 0 < c.length by omega)
    (show t + 1 < c.length by omega)
  have hlast : shiftDown (t + 1 - d) s (t - 1) t = some s := by
    obtain ⟨rounds, hfuel⟩ : ∃ rounds, t + 1 - d = rounds + 1 := ⟨t - d, by omega⟩
    have hself : getMaxInPC s (t - 1) t = some (t - 1) :=
      getMaxInPC_self (by omega) (by omega) fun k hk hkt _ => by omega
    rw [hfuel]
    unfold shiftDown
    rw [hself, Option.bind_eq_bind, Option.bind_some, if_pos rfl]
  have hround := hrounds (t + 1 - d)
  rw [Nat.sub_add_cancel (by omega), hlast] at hround
  refine ⟨s', ?_, (hwithin.mono (Nat.le_refl 0) (by omega)).trans
    (.of_swapped hswapped ⟨Nat.le_refl 0, by omega⟩ ⟨Nat.zero_le _, by omega⟩),
    hhole.congr fun k hk hne =>
      keyAt_eq (hswapped.other k hne (by omega)) (Nat.zero_le k) (Nat.zero_le k),
    hswapped.left.trans (hwithin.outside _ (Or.inr (by omega))),
    (hswapped.other t (by omega) (by omega)).trans (hwithin.outside t (Or.inr (Nat.le_refl t))),
    hswapped.right.trans hroot⟩
  unfold heapRound
  rw [swap_of_swapped hswapped (by omega) (by omega), Option.bind_eq_bind, Option.bind_some, hround]

/-- The two least elements are not in the heap of the round any more. -/
theorem GoesWrong.lt_of_round (h : GoesWrong t s) {s' : List α} (hwithin : Within 0 (t + 2) s s')
    (hnodup : s'.Nodup) (htwo : 2 ≤ t) (ht : t + 1 < s.length) (hmid : s'[t]? = s[t]?)
    (hend : s'[t + 1]? = s[t - 1]?) {j k : ℕ} {x y : α} (hj : j < t) (hx : s'[j]? = some x)
    (hk : t ≤ k + 1) (hk' : k ≤ t) (hy : s[k]? = some y) : y < x := by
  have hlength := hwithin.length_eq
  refine hwithin.forall_mem (P := fun z => s'[t]? ≠ some z → s'[t + 1]? ≠ some z → y < z)
    (fun i z _ hi hz hne hne' => ?_) j x (Nat.zero_le j) (by omega) hx (fun heq => ?_)
    (fun heq => ?_)
  · have hit : i ≠ t := fun heq => hne (hmid.trans (heq ▸ hz))
    have hit' : i ≠ t - 1 := fun heq => hne' (hend.trans (heq ▸ hz))
    rcases Nat.lt_or_ge i t with hlt | hge
    · exact h.least i k z y (by omega) hk hk' hz hy
    · obtain rfl : i = t + 1 := by omega
      obtain ⟨x₀, hx₀⟩ := exists_getElem? (show 0 < s.length by omega)
      exact (h.least 0 k x₀ y (by omega) hk hk' hx₀ hy).trans_le
        (h.behind 0 (t + 1) x₀ z (Nat.lt_succ_self t) (Nat.succ_pos t) hx₀ hz)
  · have hinj := (List.getElem?_inj (show j < s'.length by omega) hnodup).mp (hx.trans heq.symm)
    omega
  · have hinj := (List.getElem?_inj (show j < s'.length by omega) hnodup).mp (hx.trans heq.symm)
    omega

/-- **There is such a vector one round before.** -/
theorem GoesWrong.exists_before (h : GoesWrong t s) (hnodup : s.Nodup) (htwo : 2 ≤ t)
    (ht : t + 1 < s.length) (hint : s.length < 2 ^ 30) :
    ∃ s', s'.Perm s ∧ GoesWrong (t + 1) s' := by
  obtain ⟨s', hround, hwithin, hhole, htop, hmid, hend⟩ := h.exists_round hnodup htwo ht hint
  have hlength := hwithin.length_eq
  have hnodup' := hwithin.perm.nodup_iff.mpr hnodup
  obtain ⟨top, hs⟩ := exists_getElem? ht
  have hle : ∀ i z, 0 ≤ i → i < t + 2 → s'[i]? = some z → z ≤ top := by
    refine hwithin.forall_mem fun i z _ hi hz => ?_
    rcases Nat.lt_succ_iff_lt_or_eq.mp hi with hlt | rfl
    · exact h.behind i (t + 1) z top (Nat.lt_succ_self t) hlt hz hs
    · exact (Option.some_inj.mp (hz.symm.trans hs)).le
  have hheap : HeapOrder.Ordered t (keyAt 0 s') := by
    refine hhole.ordered (fun hpos => absurd hpos (Nat.lt_irrefl 0)) fun k hpos hk _ => ?_
    obtain ⟨x, hx⟩ := exists_getElem? (show k < s'.length by omega)
    exact (keyAt_le_iff (Nat.zero_le 0) (Nat.zero_le k) (htop.trans hs) hx).mpr
      (hle k x (Nat.zero_le k) (by omega) hx)
  refine ⟨s', hwithin.perm, fun k hpos hk => ?_, fun j k x y hk hjk hx hy => ?_,
    fun j k x y hj hk hk' hx hy => ?_, ?_⟩
  · rcases Nat.lt_succ_iff_lt_or_eq.mp hk with hlt | rfl
    · exact hheap k hpos hlt
    · have hparent := HeapOrder.parent_lt hpos
      obtain ⟨x, hx⟩ := exists_getElem? (show parent k < s'.length by omega)
      obtain ⟨y, hy⟩ := exists_getElem? (show k < s.length by omega)
      exact (keyAt_le_iff (Nat.zero_le _) (Nat.zero_le k) hx (hmid.trans hy)).mpr
        (h.lt_of_round hwithin hnodup' htwo ht hmid hend hparent hx (Nat.le_succ k) (Nat.le_refl k)
          hy).le
  · rw [hwithin.outside k (Or.inr hk)] at hy
    rcases Nat.lt_or_ge j (t + 2) with hlt | hge
    · exact hwithin.forall_mem (P := (· ≤ y))
        (fun i z _ hi hz => h.behind i k z y (by omega) (by omega) hz hy) j x (Nat.zero_le j) hlt hx
    · rw [hwithin.outside j (Or.inr hge)] at hx
      exact h.behind j k x y (by omega) hjk hx hy
  · rcases Nat.lt_or_ge k (t + 1) with hlt | hge
    · obtain rfl : k = t := by omega
      exact h.lt_of_round hwithin hnodup' htwo ht hmid hend (show j < k by omega) hx (Nat.le_succ k)
        (Nat.le_refl k) (hmid ▸ hy)
    · obtain rfl : k = t + 1 := by omega
      exact h.lt_of_round hwithin hnodup' htwo ht hmid hend (show j < t by omega) hx
        (show t ≤ t - 1 + 1 by omega) (Nat.sub_le t 1) (hend ▸ hy)
  · obtain ⟨r, hr, hwrong⟩ := h.wrong
    exact ⟨r, (heapRounds_succ (Nat.zero_le t) hround).trans hr, hwrong⟩

/-- The three least elements with the greatest of them at the root. -/
theorem goesWrong_two {x y z : α} (hsorted : (x :: y :: z :: a).Pairwise (· < ·)) :
    GoesWrong 2 (z :: y :: x :: a) := by
  have hxy : x < y := List.rel_of_pairwise_cons hsorted (by simp)
  have hxz : x < z := List.rel_of_pairwise_cons hsorted (by simp)
  have hyz : y < z := List.rel_of_pairwise_cons hsorted.of_cons (by simp)
  have hordered : SortedOn 0 (x :: y :: z :: a).length (x :: y :: z :: a) :=
    sortedOn_iff_pairwise.mpr (hsorted.imp le_of_lt)
  obtain ⟨b, hb, hswapped⟩ := exists_swap (a := x :: y :: z :: a) (i := 0) (j := 2) (by simp)
    (by simp)
  obtain rfl : z :: y :: x :: a = b := Option.some_inj.mp hb
  have hwithin : Within 0 3 (x :: y :: z :: a) (z :: y :: x :: a) :=
    .of_swapped hswapped ⟨Nat.le_refl 0, by decide⟩ ⟨Nat.zero_le 2, by decide⟩
  refine ⟨fun k hpos hk => ?_, fun j k u v hk hjk hu hv => ?_, fun j k u v hj hk hk' hu hv => ?_,
    y :: x :: z :: a, rfl, fun h => ?_⟩
  · obtain rfl : k = 1 := by omega
    exact (keyAt_le_iff (Nat.le_refl 0) (Nat.zero_le 1) rfl rfl).mpr hyz.le
  · rw [hwithin.outside k (Or.inr hk)] at hv
    have hlt := (List.getElem?_eq_some_iff.mp hv).1
    rcases Nat.lt_or_ge j 3 with hj | hj
    · exact hwithin.forall_mem (P := (· ≤ v)) (fun i w _ hi hw =>
        hordered i k w v (Nat.zero_le i) (by omega) hlt hw hv) j u (Nat.zero_le j) hj hu
    · rw [hwithin.outside j (Or.inr hj)] at hu
      exact hordered j k u v (Nat.zero_le j) hjk hlt hu hv
  · obtain rfl : j = 0 := by omega
    obtain rfl : z = u := Option.some_inj.mp hu
    obtain rfl | rfl : k = 1 ∨ k = 2 := by omega
    · exact Option.some_inj.mp hv ▸ hyz
    · exact Option.some_inj.mp hv ▸ hxz
  · exact absurd (List.rel_of_pairwise_cons h (List.mem_cons_self)) (not_le.mpr hxy)

/-- **Every vector of three or more different elements has an arrangement that
goes wrong** from any round on. -/
theorem exists_goesWrong {nums : List α} (hnodup : nums.Nodup) (hint : nums.length < 2 ^ 30)
    (htwo : 2 ≤ t) (ht : t < nums.length) : ∃ s, s.Perm nums ∧ GoesWrong t s := by
  induction t, htwo using Nat.le_induction with
  | base =>
    have hperm := nums.perm_insertionSort (· ≤ ·)
    have hlength := hperm.length_eq
    have hsorted : (nums.insertionSort (· ≤ ·)).Pairwise (· < ·) :=
      (nums.pairwise_insertionSort (· ≤ ·)).imp₂ (fun _ _ => lt_of_le_of_ne)
        (hperm.nodup_iff.mpr hnodup)
    generalize nums.insertionSort (· ≤ ·) = l at hperm hlength hsorted
    match l with
    | [] | [_] | [_, _] =>
      simp only [List.length_cons, List.length_nil] at hlength
      omega
    | x :: y :: z :: a =>
      have hswap : (z :: y :: x :: a).Perm (x :: y :: z :: a) := by
        refine (List.Perm.swap y z _).trans (((List.Perm.swap x z a).cons y).trans ?_)
        exact List.Perm.swap x y (z :: a)
      exact ⟨_, hswap.trans hperm, goesWrong_two hsorted⟩
  | succ t htwo ih =>
    obtain ⟨s, hperm, hs⟩ := ih (by omega)
    have hlength := hperm.length_eq
    obtain ⟨s', hperm', hs'⟩ := hs.exists_before (hperm.nodup_iff.mpr hnodup) htwo (by omega)
      (by omega)
    exact ⟨s', hperm'.trans hperm, hs'⟩

/-! ## All vectors

A heap is what `Heapify` leaves, and it leaves a heap as it is. So the arrangement
found before the first round is itself a vector that `HeapSort` starts with. -/

/-- A heap is left as it is. -/
theorem heapifyLoop_self (hnodup : a.Nodup) (h : HeapOrder.Ordered a.length (keyAt 0 a))
    (hi : i ≤ a.length) (hint : a.length < 2 ^ 30) : heapifyLoop a.length i a = some a := by
  induction i with
  | zero => rfl
  | succ i ih =>
    have hself : getMaxInPC a i a.length = some i :=
      getMaxInPC_self (Nat.le_refl _) (by omega) fun k hk hkn hpar =>
        keyAt_lt_of_le hnodup (by omega) hkn (by omega) (hpar ▸ h k (by omega) hkn)
    have hdown : shiftDown (a.length + 1) a i a.length = some a := by
      unfold shiftDown
      rw [hself, Option.bind_eq_bind, Option.bind_some, if_pos rfl]
    unfold heapifyLoop
    rw [hdown, Option.bind_eq_bind, Option.bind_some]
    exact ih (by omega)

/-- **`HeapSort` does not sort every arrangement** of three or more different
elements. -/
theorem exists_perm_not_heapSorts {nums : List α} (hint : nums.length < 2 ^ 30)
    (hthree : 3 ≤ nums.length) (hnodup : nums.Nodup) : ∃ l, l.Perm nums ∧ ¬ HeapSorts l := by
  obtain ⟨s, hperm, hs⟩ := exists_goesWrong hnodup hint (show 2 ≤ nums.length - 1 by omega)
    (by omega)
  have hlength := hperm.length_eq
  have hheap : HeapOrder.Ordered s.length (keyAt 0 s) := by
    intro k hpos hk
    rcases Nat.lt_or_ge k (nums.length - 1) with hlt | hge
    · exact hs.heap k hpos hlt
    · have hparent : parent k + 1 < k := by
        unfold parent
        omega
      obtain ⟨x, hx⟩ := exists_getElem? (show parent k < s.length by omega)
      obtain ⟨y, hy⟩ := exists_getElem? hk
      exact (keyAt_le_iff (Nat.zero_le _) (Nat.zero_le k) hx hy).mpr
        (hs.least _ k x y (by omega) (by omega) (by omega) hx hy).le
  have hheapify : heapify s = some s := by
    have hparent : parent (s.length - 1) + 1 ≤ s.length := by
      unfold parent
      omega
    rw [heapify_eq (by omega) (by omega), Nat.sub_add_cancel (by omega)]
    exact heapifyLoop_self (hperm.nodup_iff.mpr hnodup) hheap hparent (by omega)
  refine ⟨s, hperm, ?_⟩
  rintro ⟨r, hr, -, hsorted⟩
  obtain ⟨r', hr', hwrong⟩ := hs.wrong
  rw [heapSort_eq (by omega) (by omega) hheapify, hlength, hr'] at hr
  exact hwrong (Option.some_inj.mp hr ▸ hsorted)

end

/-- **What `HeapSort` sorts**: a vector of less than three elements, and one in
which the least element is there three times. Of three or more different
elements there is an arrangement that it does not sort. -/
theorem heapSort_sorts {nums : List α} (hint : nums.length < 2 ^ 30) :
    (nums.length < 3 ∨ LeastThrice nums → HeapSorts nums)
      ∧ (3 ≤ nums.length → nums.Nodup → ∃ l, l.Perm nums ∧ ¬ HeapSorts l) :=
  ⟨heapSorts_of_leastThrice hint, exists_perm_not_heapSorts hint⟩

/-- Five elements, three of them the least, and three different ones. -/
theorem heapSort_sorts_five_three : HeapSorts [(5 : ℤ), 1, 3, 1, 1]
    ∧ ∃ l, l.Perm [(1 : ℤ), 2, 3] ∧ ¬ HeapSorts l :=
  ⟨(heapSort_sorts (by decide)).1 (Or.inr ⟨1, by decide, by decide⟩),
    (heapSort_sorts (by decide)).2 (by decide) (by decide)⟩

end Sorting
