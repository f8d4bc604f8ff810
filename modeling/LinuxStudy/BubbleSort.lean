import LinuxStudy.InPlace
import LinuxStudy.IntArith
import LinuxStudy.StableSort

/-!
# Bubble sort

The three bubble sorts of `sort.cpp` have one inner loop: it goes through the
vector and makes neighbours change places where the first is greater. They
differ in how far it goes and in what they remember of it. `BubbleSort` makes
as many rounds as could be needed, each by one shorter than the one before;
`BubbleSort2` stops after a round without a swap; and `BubbleSort3` goes in the
next round only as far as the last swap.

After a round everything behind its last swap is where it belongs
(`bubblePass_spec`), and that is all the three need: what they leave is the
stable sort of the vector, hence the same.

The vectors are of records, which are compared by their keys, and their indices
are `int`s. A vector of more than `2 ^ 31` records has some that are not: the
loops of `BubbleSort` and `BubbleSort2` count up beyond the `int`s, and the index
from which `BubbleSort3` goes down is negative, so that it does nothing
(`bubbleSort3_of_long`).
-/

namespace Sorting

open InPlace IntArith StableSort

variable {α κ : Type} [LinearOrder κ] {key : α → κ}

/-- The inner loop, from an index on and for so many steps: the vector, and the
index of the last swap if there was one. -/
def bubblePass (key : α → κ) : ℕ → ℕ → Option ℕ → List α → Option (List α × Option ℕ)
  | 0, _, last, nums => some (nums, last)
  | left + 1, j, last, nums => do
    let next ← int (j + 1)
    let x ← nums[j]?
    let y ← nums[next]?
    if key y < key x then
      let nums ← swap nums j next
      bubblePass key left next (some j) nums
    else bubblePass key left next last nums

/-- The rounds of `BubbleSort`. The first argument is `nums.size()-1-i`, the second
`i`. -/
def bubbleRounds (key : α → κ) : ℕ → ℕ → List α → Option (List α)
  | 0, _, nums => some nums
  | bound + 1, i, nums => do
    let r ← bubblePass key (bound + 1) 0 none nums
    let next ← int (i + 1)
    bubbleRounds key bound next r.1

/-- **`BubbleSort`.** -/
def bubbleSort (key : α → κ) (nums : List α) : Option (List α) :=
  if nums.length < 2 then some nums else bubbleRounds key (nums.length - 1) 0 nums

/-- The rounds of `BubbleSort2`, which end with one that has made no swap. -/
def bubbleRounds2 (key : α → κ) : ℕ → ℕ → List α → Option (List α)
  | 0, _, nums => some nums
  | bound + 1, i, nums => do
    let r ← bubblePass key (bound + 1) 0 none nums
    if r.2.isSome then
      let next ← int (i + 1)
      bubbleRounds2 key bound next r.1
    else return r.1

/-- **`BubbleSort2`.** -/
def bubbleSort2 (key : α → κ) (nums : List α) : Option (List α) :=
  if nums.length < 2 then some nums else bubbleRounds2 key (nums.length - 1) 0 nums

/-- The rounds of `BubbleSort3`, at most so many: each goes as far as the last
swap of the one before. -/
def bubbleRounds3 (key : α → κ) : ℕ → ℕ → List α → Option (List α)
  | 0, _, _ => none
  | rounds + 1, lastSortedIdx, nums =>
    if 0 < lastSortedIdx then do
      let r ← bubblePass key lastSortedIdx 0 none nums
      bubbleRounds3 key rounds (r.2.getD 0) r.1
    else some nums

/-- **`BubbleSort3`.** A negative `lastSortedIdx` ends the loop at once, as zero
does. -/
def bubbleSort3 (key : α → κ) (nums : List α) : Option (List α) :=
  if nums.length < 2 then some nums
  else
    let lastSortedIdx := wrap (nums.length - 1 : ℕ)
    bubbleRounds3 key nums.length lastSortedIdx.toNat nums

/-! ## A round

Two things are said of a round. Up to where it has come, the record it stands at
is not less than any it has passed; and behind the last swap nothing was moved, so
that everything there is in its place among what was passed. The index behind the
last swap carries both (`SettledTo`), and is `0` as long as there was no swap.

That the sort is stable comes from the comparison, which is strict: two records
with the same key never change places, and so the records of one key stay in their
order in every swap (`keeps_swap`). -/

/-- From an index on, everything up to another is where it belongs: no key is
less than one before it. -/
def SettledTo (key : α → κ) (nums : List α) (m hi : ℕ) : Prop :=
  ∀ i j x y, i < j → m ≤ j → j < hi → nums[i]? = some x → nums[j]? = some y → key x ≤ key y

/-- **From an index on, everything is where it belongs.** -/
def Settled (key : α → κ) (nums : List α) (m : ℕ) : Prop := SettledTo key nums m nums.length

theorem Settled.mono {nums : List α} {m m' : ℕ} (h : Settled key nums m) (hm : m ≤ m') :
    Settled key nums m' :=
  fun i j x y hij hj => h i j x y hij (hm.trans hj)

theorem Settled.inOrder {nums : List α} (h : Settled key nums 1) : InOrder key nums := by
  refine List.pairwise_iff_getElem.mpr (fun i j hi hj hij => ?_)
  exact h i j _ _ hij (by omega) hj (List.getElem?_eq_getElem hi) (List.getElem?_eq_getElem hj)

/-- The index behind the last swap. -/
def behind (last : Option ℕ) : ℕ := last.elim 0 (· + 1)

variable {nums : List α} {x y : α} {j m : ℕ} {last : Option ℕ}

/-- Where the next record is not less, it is in its place. -/
theorem SettledTo.of_le (h : SettledTo key nums m (j + 1)) (hm : m ≤ j)
    (hx : nums[j]? = some x) (hy : nums[j + 1]? = some y) (hxy : key x ≤ key y) :
    SettledTo key nums m (j + 1 + 1) := by
  intro i k u v hik hk hlt hu hv
  rcases Nat.lt_or_ge k (j + 1) with hk' | hk'
  · exact h i k u v hik hk hk' hu hv
  · obtain rfl : k = j + 1 := by omega
    obtain rfl := Option.some.inj (hy.symm.trans hv)
    rcases Nat.lt_or_ge i j with hi | hi
    · exact (h i j u x hi hm (Nat.lt_succ_self j) hu hx).trans hxy
    · obtain rfl : i = j := by omega
      obtain rfl := Option.some.inj (hx.symm.trans hu)
      exact hxy

/-- Where the next record is less, it changes places with the greatest of those
before it. -/
theorem SettledTo.of_swapped {nums' : List α} (h : SettledTo key nums m (j + 1)) (hm : m ≤ j)
    (hx : nums[j]? = some x) (hy : nums[j + 1]? = some y) (hxy : key y ≤ key x)
    (hswap : Swapped nums nums' j (j + 1)) :
    SettledTo key nums' (j + 1) (j + 1 + 1) := by
  intro i k u v hik hk hlt hu hv
  obtain rfl : k = j + 1 := by omega
  rw [hswap.right, hx] at hv
  obtain rfl := Option.some.inj hv
  rcases Nat.lt_or_ge i j with hi | hi
  · rw [hswap.other i (by omega) (by omega)] at hu
    exact h i j u x hi hm (Nat.lt_succ_self j) hu hx
  · obtain rfl : i = j := by omega
    rw [hswap.left, hy] at hu
    obtain rfl := Option.some.inj hu
    exact hxy

theorem keeps_swap {nums' : List α} (hx : nums[j]? = some x) (hy : nums[j + 1]? = some y)
    (hxy : key x ≠ key y) (hswap : swap nums j (j + 1) = some nums') : Keeps key nums nums' := by
  obtain ⟨p, q, rfl, rfl⟩ := exists_append_cons_cons hx hy
  obtain rfl := Option.some.inj ((swap_append_cons_cons p q x y).symm.trans hswap)
  exact Keeps.swap hxy p q

/-- **The inner loop**, from an index on: behind the last swap everything is in
its place among what the loop has seen. -/
theorem bubblePass_from (left : ℕ) {j : ℕ} {last : Option ℕ} {nums : List α}
    (hlength : j + left < nums.length) (hint : j + left < 2 ^ 31) (hlast : behind last ≤ j)
    (hsettled : SettledTo key nums (behind last) (j + 1)) :
    ∃ nums' last', bubblePass key left j last nums = some (nums', last')
      ∧ Keeps key nums nums' ∧ Within 0 (j + left + 1) nums nums' ∧ behind last' ≤ j + left
      ∧ SettledTo key nums' (behind last') (j + left + 1) := by
  induction left generalizing j last nums with
  | zero => exact ⟨nums, last, rfl, Keeps.refl nums, Within.refl _ _ nums, hlast, hsettled⟩
  | succ left ih =>
    obtain ⟨x, hx⟩ : ∃ x, nums[j]? = some x := ⟨_, List.getElem?_eq_getElem (by omega)⟩
    obtain ⟨y, hy⟩ : ∃ y, nums[j + 1]? = some y := ⟨_, List.getElem?_eq_getElem (by omega)⟩
    have hsum : j + (left + 1) = j + 1 + left := by omega
    unfold bubblePass
    simp only [int_of_lt (show j + 1 < 2 ^ 31 by omega), hx, hy, Option.bind_eq_bind,
      Option.bind_some]
    rw [hsum]
    by_cases hxy : key y < key x
    · obtain ⟨nums₁, hswap, hswapped⟩ : ∃ b, swap nums j (j + 1) = some b
          ∧ Swapped nums b j (j + 1) := exists_swap (by omega) (by omega)
      have hlength₁ := hswapped.perm.length_eq
      have hlast₁ : behind (some j) ≤ j + 1 := Nat.le_refl _
      have hsettled₁ : SettledTo key nums₁ (behind (some j)) (j + 1 + 1) :=
        hsettled.of_swapped hlast hx hy hxy.le hswapped
      obtain ⟨nums', last', hpass, hkeeps, hwithin, hbehind, hfinal⟩ :=
        ih (by omega) (by omega) hlast₁ hsettled₁
      rw [if_pos hxy, hswap, Option.bind_some, hpass]
      refine ⟨nums', last', rfl, (keeps_swap hx hy hxy.ne' hswap).trans hkeeps, ?_, hbehind, hfinal⟩
      exact (Within.of_swapped hswapped (by omega) (by omega)).trans hwithin
    · obtain ⟨nums', last', hpass, hkeeps, hwithin, hbehind, hfinal⟩ :=
        ih (by omega) (by omega) (by omega) (hsettled.of_le hlast hx hy (not_lt.mp hxy))
      rw [if_neg hxy, hpass]
      exact ⟨nums', last', rfl, hkeeps, hwithin, hbehind, hfinal⟩

/-- **A round**, with everything behind where it goes in its place: behind the
last swap everything is. -/
theorem bubblePass_spec {bound : ℕ} (hbound : bound < nums.length) (hint : bound < 2 ^ 31)
    (h : Settled key nums (bound + 1)) :
    ∃ nums' last, bubblePass key bound 0 none nums = some (nums', last)
      ∧ Keeps key nums nums' ∧ nums'.length = nums.length ∧ behind last ≤ bound
      ∧ Settled key nums' (behind last) := by
  have hnone : behind none ≤ 0 := Nat.le_refl _
  have hstart : SettledTo key nums (behind none) (0 + 1) :=
    fun i j _ _ hij _ hlt => absurd hlt (by omega)
  obtain ⟨nums', last, hpass, hkeeps, hwithin, hbehind, hsettled⟩ :=
    bubblePass_from bound (by omega) (by omega) hnone hstart
  rw [Nat.zero_add] at hwithin hbehind hsettled
  refine ⟨nums', last, hpass, hkeeps, hwithin.length_eq, hbehind, ?_⟩
  intro i j u v hij hj hlt hu hv
  rcases Nat.lt_or_ge j (bound + 1) with hj' | hj'
  · exact hsettled i j u v hij hj hj' hu hv
  · rw [hwithin.outside j (Or.inr hj')] at hv
    rw [hwithin.length_eq] at hlt
    rcases Nat.lt_or_ge i (bound + 1) with hi | hi
    · refine hwithin.forall_mem (P := fun u => key u ≤ key v) ?_ i u (Nat.zero_le i) hi hu
      exact fun k w _ hk hw => h k j w v (by omega) hj' hlt hw hv
    · rw [hwithin.outside i (Or.inr hi)] at hu
      exact h i j u v hij hj' hlt hu hv

/-! ## The sorts

The bound of the next round is one less than that of this one in `BubbleSort` and
`BubbleSort2`, and the last swap in `BubbleSort3`; in each case everything behind
it is in its place. A round without a swap has nothing behind its last swap that
is not in its place, which is everything, so stopping then is right. All three
leave a vector in order that has the records of each key as they were, and there
is only one. -/

theorem settled_length (nums : List α) : Settled key nums nums.length :=
  fun _ _ _ _ _ hj hlt => absurd hlt (Nat.not_lt.mpr hj)

/-- The rounds of `BubbleSort` sort stably. -/
theorem bubbleRounds_spec {bound i : ℕ} (hbound : bound < nums.length)
    (hint : i + bound < 2 ^ 31) (h : Settled key nums (bound + 1)) :
    ∃ r, bubbleRounds key bound i nums = some r ∧ Sorts key nums r := by
  induction bound generalizing i nums with
  | zero => exact ⟨nums, rfl, h.inOrder, Keeps.refl nums⟩
  | succ bound ih =>
    obtain ⟨nums', last, hpass, hkeeps, hlength, hbehind, hsettled⟩ :=
      bubblePass_spec hbound (by omega) h
    obtain ⟨r, hr, hsorts⟩ :=
      ih (i := i + 1) (by omega) (by omega) (hsettled.mono hbehind)
    unfold bubbleRounds
    simp only [hpass, int_of_lt (show i + 1 < 2 ^ 31 by omega), Option.bind_eq_bind,
      Option.bind_some]
    exact ⟨r, hr, hsorts.inOrder, hkeeps.trans hsorts.keeps⟩

/-- **`BubbleSort` sorts stably.** -/
theorem bubbleSort_sorts (key : α → κ) {nums : List α} (hint : nums.length ≤ 2 ^ 31) :
    ∃ r, bubbleSort key nums = some r ∧ Sorts key nums r := by
  unfold bubbleSort
  split
  · exact ⟨nums, rfl, Sorts.of_length_le_one (by omega)⟩
  · refine bubbleRounds_spec (by omega) (by omega) ?_
    rw [Nat.sub_add_cancel (by omega)]
    exact settled_length nums

/-- The rounds of `BubbleSort2` sort stably: after a round without a swap
everything is in its place. -/
theorem bubbleRounds2_spec {bound i : ℕ} (hbound : bound < nums.length)
    (hint : i + bound < 2 ^ 31) (h : Settled key nums (bound + 1)) :
    ∃ r, bubbleRounds2 key bound i nums = some r ∧ Sorts key nums r := by
  induction bound generalizing i nums with
  | zero => exact ⟨nums, rfl, h.inOrder, Keeps.refl nums⟩
  | succ bound ih =>
    obtain ⟨nums', last, hpass, hkeeps, hlength, hbehind, hsettled⟩ :=
      bubblePass_spec hbound (by omega) h
    unfold bubbleRounds2
    simp only [hpass, int_of_lt (show i + 1 < 2 ^ 31 by omega), Option.bind_eq_bind,
      Option.bind_some]
    cases last with
    | some last =>
      obtain ⟨r, hr, hsorts⟩ :=
        ih (i := i + 1) (by omega) (by omega) (hsettled.mono hbehind)
      exact ⟨r, hr, hsorts.inOrder, hkeeps.trans hsorts.keeps⟩
    | none => exact ⟨nums', rfl, (hsettled.mono (Nat.zero_le 1)).inOrder, hkeeps⟩

/-- **`BubbleSort2` sorts stably.** -/
theorem bubbleSort2_sorts (key : α → κ) {nums : List α} (hint : nums.length ≤ 2 ^ 31) :
    ∃ r, bubbleSort2 key nums = some r ∧ Sorts key nums r := by
  unfold bubbleSort2
  split
  · exact ⟨nums, rfl, Sorts.of_length_le_one (by omega)⟩
  · refine bubbleRounds2_spec (by omega) (by omega) ?_
    rw [Nat.sub_add_cancel (by omega)]
    exact settled_length nums

/-- The rounds of `BubbleSort3` sort stably, and are no more than the index they
start with: the last swap of a round is before where it ends. -/
theorem bubbleRounds3_spec {rounds lastSortedIdx : ℕ} (hrounds : lastSortedIdx < rounds)
    (hlast : lastSortedIdx < nums.length) (hint : lastSortedIdx < 2 ^ 31)
    (h : Settled key nums (lastSortedIdx + 1)) :
    ∃ r, bubbleRounds3 key rounds lastSortedIdx nums = some r ∧ Sorts key nums r := by
  induction rounds generalizing lastSortedIdx nums with
  | zero => exact absurd hrounds (Nat.not_lt_zero _)
  | succ rounds ih =>
    unfold bubbleRounds3
    split
    · next hpos =>
      obtain ⟨nums', last, hpass, hkeeps, hlength, hbehind, hsettled⟩ :=
        bubblePass_spec hlast hint h
      have hnext : last.getD 0 < lastSortedIdx ∧ behind last ≤ last.getD 0 + 1 := by
        cases last with
        | none => exact ⟨hpos, Nat.zero_le _⟩
        | some c => exact ⟨hbehind, Nat.le_refl _⟩
      obtain ⟨r, hr, hsorts⟩ := ih (by omega) (by omega) (by omega) (hsettled.mono hnext.2)
      rw [hpass]
      exact ⟨r, hr, hsorts.inOrder, hkeeps.trans hsorts.keeps⟩
    · next hzero =>
      exact ⟨nums, rfl, (h.mono (by omega)).inOrder, Keeps.refl nums⟩

/-- **`BubbleSort3` sorts stably.** -/
theorem bubbleSort3_sorts (key : α → κ) {nums : List α} (hint : nums.length ≤ 2 ^ 31) :
    ∃ r, bubbleSort3 key nums = some r ∧ Sorts key nums r := by
  unfold bubbleSort3
  split
  · exact ⟨nums, rfl, Sorts.of_length_le_one (by omega)⟩
  · show ∃ r, bubbleRounds3 key nums.length (wrap (nums.length - 1 : ℕ)).toNat nums = some r ∧ _
    rw [wrap_natCast (show nums.length - 1 < 2 ^ 31 by omega), Int.toNat_natCast]
    refine bubbleRounds3_spec (by omega) (by omega) (by omega) ?_
    rw [Nat.sub_add_cancel (by omega)]
    exact settled_length nums

/-- **The three bubble sorts are one**: on every vector of at most `2 ^ 31` records
each comes to an end and leaves the stable sort of it. -/
theorem bubbleSorts_agree (key : α → κ) {nums : List α} (hint : nums.length ≤ 2 ^ 31) :
    ∃ r, Sorts key nums r ∧ bubbleSort key nums = some r ∧ bubbleSort2 key nums = some r
      ∧ bubbleSort3 key nums = some r := by
  obtain ⟨r, hr, hsorts⟩ := bubbleSort_sorts key hint
  obtain ⟨r₂, hr₂, hsorts₂⟩ := bubbleSort2_sorts key hint
  obtain ⟨r₃, hr₃, hsorts₃⟩ := bubbleSort3_sorts key hint
  rw [hsorts₂.unique hsorts] at hr₂
  rw [hsorts₃.unique hsorts] at hr₃
  exact ⟨r, hsorts, hr, hr₂, hr₃⟩

/-- Four records of two keys: those with the same key stay as they were. -/
theorem bubbleSorts_agree_four : ∃ r, Sorts Prod.fst [(2, 'a'), (1, 'b'), (2, 'c'), (1, 'd')] r
    ∧ bubbleSort Prod.fst [(2, 'a'), (1, 'b'), (2, 'c'), (1, 'd')] = some r
    ∧ bubbleSort2 Prod.fst [(2, 'a'), (1, 'b'), (2, 'c'), (1, 'd')] = some r
    ∧ bubbleSort3 Prod.fst [(2, 'a'), (1, 'b'), (2, 'c'), (1, 'd')] = some r :=
  bubbleSorts_agree Prod.fst (by decide)

/-- **A vector that is too long** is left as it is: its last index is negative as
an `int`. -/
theorem bubbleSort3_of_long (key : α → κ) {nums : List α} (h : 2 ^ 31 < nums.length)
    (hlength : nums.length ≤ 2 ^ 32) : bubbleSort3 key nums = some nums := by
  have hwrap := wrap_natCast_of_le (show 2 ^ 31 ≤ nums.length - 1 by omega) (by omega)
  unfold bubbleSort3
  rw [if_neg (by omega)]
  show bubbleRounds3 key nums.length (wrap (nums.length - 1 : ℕ)).toNat nums = some nums
  rw [hwrap, Int.toNat_of_nonpos (by omega)]
  obtain ⟨rounds, hrounds⟩ : ∃ rounds, nums.length = rounds + 1 := ⟨nums.length - 1, by omega⟩
  rw [hrounds]
  rfl

/-- A one and `2 ^ 31` zeros behind it. -/
theorem bubbleSort3_one_zeros :
    ¬ ∃ r, Sorts id (1 :: List.replicate (2 ^ 31) 0) r
      ∧ bubbleSort id (1 :: List.replicate (2 ^ 31) 0) = some r
      ∧ bubbleSort2 id (1 :: List.replicate (2 ^ 31) 0) = some r
      ∧ bubbleSort3 id (1 :: List.replicate (2 ^ 31) 0) = some r := by
  rintro ⟨r, hsorts, -, -, hr⟩
  have hlength : (1 :: List.replicate (2 ^ 31) 0).length = 2 ^ 31 + 1 := by
    rw [List.length_cons, List.length_replicate]
  rw [bubbleSort3_of_long id (by omega) (by omega)] at hr
  obtain rfl := Option.some_inj.mp hr
  have hzero : (0 : ℕ) ∈ List.replicate (2 ^ 31) 0 := List.mem_replicate.mpr ⟨by decide, rfl⟩
  exact absurd (hsorts.inOrder.key_le_of_mem (List.mem_cons_of_mem 1 hzero)) (by decide)

end Sorting
