import Mathlib.Data.List.Sort
import Mathlib.Algebra.Order.Ring.Int
import LinuxStudy.InPlace
import LinuxStudy.IntArith

/-!
# Quick sort

`QuickSort_Head` takes the first element of a range as the pivot, moves what is
smaller before it and what is greater behind it, and calls itself on the two
parts. `QuickSort_Random` puts an element that it draws first and does the
same; `QuickSort` calls it on the whole vector. `QuickSort2` keeps the ranges
that are still to be done on a stack and takes the last one pushed.

A range goes from `lo` to `hi`, both included, and the ranges on either side of
the pivot can be empty: `hi` is then `lo-1`, which is below zero for the first
range of a vector. The indices of the ranges are integers for that reason, and
an element below zero is not read.

The three take a range apart in the same way (`partition_spec`), and a range is
in order if its two parts are (`Divided.sortedOn`). The ranges that are not yet
done lie elsewhere in the vector, so that it does not matter which of them is
done next.

The indices are `int`s. With fewer than `2 ^ 31` elements all of them are, also the
one behind the last that the part after the pivot begins with; with `2 ^ 31` the
number of the elements that `QuickSort` draws from is none (`quickSort_eq_none`).
-/

namespace Sorting

open InPlace IntArith

variable {α : Type} [LinearOrder α]

/-- `while(i<j && nums[j]>=pivot) j--`. The argument is `j-i`. -/
def scanRight (pivot : α) (nums : List α) (i : ℕ) : ℕ → Option ℕ
  | 0 => some i
  | d + 1 => do
    let y ← nums[i + (d + 1)]?
    if pivot ≤ y then scanRight pivot nums i d else some (i + (d + 1))

/-- `while(i<j && nums[i]<=pivot) i++`. The argument is `j-i`. -/
def scanLeft (pivot : α) (nums : List α) (j : ℕ) : ℕ → Option ℕ
  | 0 => some j
  | d + 1 => do
    let x ← nums[j - (d + 1)]?
    if x ≤ pivot then scanLeft pivot nums j d else some (j - (d + 1))

/-- `if(i<j) swap(nums[i],nums[j])`. -/
def swapApart (nums : List α) (i j : ℕ) : Option (List α) :=
  if i < j then swap nums i j else some nums

/-- The loop that moves `i` and `j` towards each other, in at most so many
rounds: where they meet, and the vector. -/
def partitionLoop (pivot : α) : ℕ → ℕ → ℕ → List α → Option (ℕ × List α)
  | 0, _, _, _ => none
  | rounds + 1, i, j, nums =>
    if i < j then do
      let j ← scanRight pivot nums i (j - i)
      let i ← scanLeft pivot nums j (j - i)
      let nums ← swapApart nums i j
      partitionLoop pivot rounds i j nums
    else some (i, nums)

/-- From the choice of the pivot to the calls: the index the pivot gets to, and
the vector. `QuickSort2` names the two elements of the last swap in the other
order. -/
def partition (pivot : α) (lo hi : ℕ) (nums : List α) : Option (ℕ × List α) := do
  let (i, nums) ← partitionLoop pivot (hi - lo + 1) lo hi nums
  let nums ← swap nums i lo
  return (i, nums)

/-- **`QuickSort_Head`**, with calls nested at most so deep. -/
def quickSortHead : ℕ → ℤ → ℤ → List α → Option (List α)
  | 0, _, _, _ => none
  | depth + 1, lo, hi, nums =>
    if hi ≤ lo then some nums
    else do
      let first ← lo.toNat?
      let last ← hi.toNat?
      let pivot ← nums[first]?
      let (i, nums) ← partition pivot first last nums
      let nums ← quickSortHead depth lo (i - 1) nums
      let next ← int (i + 1)
      quickSortHead depth next hi nums

/-- **`QuickSort_Random`**, with calls nested at most so deep. `rand` gives the
results of the calls of `rand()`, and the number of those made so far goes along
with the vector. -/
def quickSortRandom (rand : ℕ → ℕ) : ℕ → ℤ → ℤ → List α × ℕ → Option (List α × ℕ)
  | 0, _, _, _ => none
  | depth + 1, lo, hi, (nums, calls) =>
    if hi ≤ lo then some (nums, calls)
    else do
      let first ← lo.toNat?
      let last ← hi.toNat?
      let size ← int (last - first + 1)
      let randomIdx := first + rand calls % size
      let pivot ← nums[randomIdx]?
      let nums ← swap nums first randomIdx
      let (i, nums) ← partition pivot first last nums
      let (nums, calls) ← quickSortRandom rand depth lo (i - 1) (nums, calls + 1)
      let next ← int (i + 1)
      quickSortRandom rand depth next hi (nums, calls)

/-- **`QuickSort`.** -/
def quickSort (rand : ℕ → ℕ) (nums : List α) : Option (List α) :=
  if nums.length < 2 then some nums
  else do
    let hi := wrap (nums.length - 1 : ℕ)
    let (nums, _) ← quickSortRandom rand (nums.length + 1) 0 hi (nums, 0)
    return nums

/-- The loop of `QuickSort2`, in at most so many rounds, with the top of the
stack first. -/
def quickLoop : ℕ → List ℤ → List α → Option (List α)
  | 0, _, _ => none
  | _ + 1, [], nums => some nums
  | _ + 1, [_], _ => none
  | rounds + 1, hi :: lo :: sta, nums =>
    if hi ≤ lo then quickLoop rounds sta nums
    else do
      let first ← lo.toNat?
      let last ← hi.toNat?
      let pivot ← nums[first]?
      let (i, nums) ← partition pivot first last nums
      let next ← int (i + 1)
      quickLoop rounds (hi :: next :: (i - 1) :: lo :: sta) nums

/-- **`QuickSort2`.** -/
def quickSort2 (nums : List α) : Option (List α) :=
  if nums.length < 2 then some nums
  else quickLoop (2 * nums.length + 2) [wrap (nums.length - 1 : ℕ), 0] nums

/-! ## Taking a range apart

The two indices move towards each other and stop at an element on the wrong side,
or where they meet. The scan from the right is the first, and so they meet at an
element that is not greater than the pivot, which may then change places with the
pivot. What has been passed on the left is not greater than the pivot, and what
has been passed on the right is not smaller. -/

/-- The scan from the right stops at `i`, or at an element below the pivot, and
passes none. -/
theorem scanRight_spec (pivot : α) {nums : List α} {i d : ℕ} (h : i + d < nums.length) :
    ∃ j, scanRight pivot nums i d = some j ∧ i ≤ j ∧ j ≤ i + d
      ∧ (∀ k x, j < k → k ≤ i + d → nums[k]? = some x → pivot ≤ x)
      ∧ (j = i ∨ ∃ y, nums[j]? = some y ∧ y < pivot) := by
  induction d with
  | zero => exact ⟨i, rfl, Nat.le_refl i, Nat.le_refl i, fun k _ _ _ => by omega, Or.inl rfl⟩
  | succ d ih =>
    have hy : nums[i + (d + 1)]? = some nums[i + (d + 1)] := List.getElem?_eq_getElem h
    unfold scanRight
    rw [hy, Option.bind_eq_bind, Option.bind_some]
    split
    · next hle =>
      obtain ⟨j, hj, hij, hjd, hpassed, hstop⟩ := ih (by omega)
      refine ⟨j, hj, hij, by omega, fun k x hjk hk hx => ?_, hstop⟩
      rcases Nat.eq_or_lt_of_le hk with rfl | hlt
      · rw [hy] at hx
        exact Option.some_inj.mp hx ▸ hle
      · exact hpassed k x hjk (by omega) hx
    · next hgt =>
      exact ⟨_, rfl, by omega, Nat.le_refl _, fun k _ _ _ => by omega,
        Or.inr ⟨_, hy, not_le.mp hgt⟩⟩

/-- The scan from the left stops at `j`, or at an element above the pivot, and
passes none. -/
theorem scanLeft_spec (pivot : α) {nums : List α} {j d : ℕ} (hd : d ≤ j)
    (h : j < nums.length) :
    ∃ i, scanLeft pivot nums j d = some i ∧ j - d ≤ i ∧ i ≤ j
      ∧ (∀ k x, j - d ≤ k → k < i → nums[k]? = some x → x ≤ pivot)
      ∧ (i = j ∨ ∃ x, nums[i]? = some x ∧ pivot < x) := by
  induction d with
  | zero => exact ⟨j, rfl, Nat.le_refl j, Nat.le_refl j, fun k _ _ _ => by omega, Or.inl rfl⟩
  | succ d ih =>
    have hx : nums[j - (d + 1)]? = some nums[j - (d + 1)] := List.getElem?_eq_getElem (by omega)
    unfold scanLeft
    rw [hx, Option.bind_eq_bind, Option.bind_some]
    split
    · next hle =>
      obtain ⟨i, hi, hdi, hij, hpassed, hstop⟩ := ih (by omega)
      refine ⟨i, hi, by omega, hij, fun k x hk hki hx' => ?_, hstop⟩
      rcases Nat.eq_or_lt_of_le hk with rfl | hlt
      · rw [hx] at hx'
        exact Option.some_inj.mp hx' ▸ hle
      · exact hpassed k x (by omega) hki hx'
    · next hgt =>
      exact ⟨_, rfl, Nat.le_refl _, by omega, fun k _ _ _ => by omega,
        Or.inr ⟨_, hx, not_le.mp hgt⟩⟩

/-- What the loop keeps to: the pivot is the first of the range, nothing up to
`i` is greater and nothing behind `j` is smaller. The range goes from `lo` up to
`hi`, without `hi`. -/
structure Closing (pivot : α) (lo hi i j : ℕ) (a : List α) : Prop where
  first : a[lo]? = some pivot
  lo_le : lo ≤ i
  le : i ≤ j
  lt_hi : j < hi
  below : ∀ k x, lo ≤ k → k ≤ i → a[k]? = some x → x ≤ pivot
  above : ∀ k x, j < k → k < hi → a[k]? = some x → pivot ≤ x

/-- Where the two scans of a round stop: they have met, or they are at two
elements on the wrong side. The scan from the right comes first, so that they
meet at an element that is not above the pivot. -/
structure Scanned (pivot : α) (lo hi i j : ℕ) (a : List α) : Prop where
  first : a[lo]? = some pivot
  lo_le : lo ≤ i
  lt_hi : j < hi
  below : ∀ k x, lo ≤ k → k < i → a[k]? = some x → x ≤ pivot
  above : ∀ k x, j < k → k < hi → a[k]? = some x → pivot ≤ x
  stop : (i = j ∧ ∀ x, a[j]? = some x → x ≤ pivot)
    ∨ (lo < i ∧ i < j ∧ ∃ y, a[j]? = some y ∧ y < pivot)

/-- The scans of a round, of which at least one moves. -/
theorem Closing.scan {pivot : α} {lo hi i j : ℕ} {a : List α} (h : Closing pivot lo hi i j a)
    (hhi : hi ≤ a.length) (hij : i < j) :
    ∃ i' j', scanRight pivot a i (j - i) = some j' ∧ scanLeft pivot a j' (j' - i) = some i'
      ∧ Scanned pivot lo hi i' j' a ∧ j' - i' < j - i := by
  have hlo := h.lo_le
  have hlt := h.lt_hi
  obtain ⟨j', hj', hij', hj'j, hright, hstopj⟩ :=
    scanRight_spec pivot (show i + (j - i) < a.length by omega)
  rw [Nat.add_sub_cancel' h.le] at hj'j hright
  obtain ⟨i', hi', hii', hi'j', hleft, hstopi⟩ :=
    scanLeft_spec pivot (Nat.sub_le j' i) (show j' < a.length by omega)
  rw [Nat.sub_sub_self hij'] at hii' hleft
  -- the scan from the right has stopped at nothing above the pivot
  have hnotabove : ∀ y, a[j']? = some y → y ≤ pivot := by
    intro y hy
    rcases hstopj with rfl | ⟨y', hy', hsmall⟩
    · exact h.below _ y hlo (Nat.le_refl _) hy
    · rw [hy'] at hy
      exact Option.some_inj.mp hy ▸ hsmall.le
  have hscanned : i' = j' ∨ (i < i' ∧ i' < j') := by
    rcases hstopi with rfl | ⟨x, hx, hgt⟩
    · exact Or.inl rfl
    · refine Or.inr ⟨?_, ?_⟩
      · refine Nat.lt_of_le_of_ne hii' (fun heq => ?_)
        subst heq
        exact absurd (h.below _ x hlo (Nat.le_refl _) hx) (not_le.mpr hgt)
      · refine Nat.lt_of_le_of_ne hi'j' (fun heq => ?_)
        subst heq
        exact absurd (hnotabove x hx) (not_le.mpr hgt)
  refine ⟨i', j', hj', hi', ⟨h.first, by omega, by omega, fun k x hk hki hx => ?_,
    fun k x hk hkhi hx => ?_, ?_⟩, by omega⟩
  · rcases Nat.lt_or_ge k i with hlt' | hge
    · exact h.below k x hk (by omega) hx
    · exact hleft k x hge hki hx
  · rcases Nat.lt_or_ge j k with hjk | hkj
    · exact h.above k x hjk hkhi hx
    · exact hright k x hk hkj hx
  · rcases hscanned with hmet | ⟨hi'i, hapart⟩
    · exact Or.inl ⟨hmet, hnotabove⟩
    · exact Or.inr ⟨by omega, hapart, hstopj.resolve_left (by omega)⟩

/-- Two elements on the wrong side change places. -/
theorem Scanned.swapApart {pivot : α} {lo hi i j : ℕ} {a : List α}
    (h : Scanned pivot lo hi i j a) (hhi : hi ≤ a.length) :
    ∃ b, swapApart a i j = some b ∧ Closing pivot lo hi i j b ∧ Within lo hi a b := by
  have hlt := h.lt_hi
  rcases h.stop with ⟨rfl, hmet⟩ | ⟨hloi, hij, y, hy, hsmall⟩
  · refine ⟨a, if_neg (Nat.lt_irrefl _), ⟨h.first, h.lo_le, Nat.le_refl _, hlt,
      fun k x hk hki hx => ?_, h.above⟩, Within.refl lo hi a⟩
    rcases Nat.eq_or_lt_of_le hki with rfl | hlt'
    · exact hmet x hx
    · exact h.below k x hk hlt' hx
  · obtain ⟨b, hswap, hswapped⟩ := exists_swap (show i < a.length by omega)
      (show j < a.length by omega)
    refine ⟨b, (if_pos hij).trans hswap, ⟨?_, h.lo_le, hij.le, hlt, fun k z hk hki hz => ?_,
      fun k z hk hkhi hz => ?_⟩,
      Within.of_swapped hswapped ⟨by omega, by omega⟩ ⟨by omega, by omega⟩⟩
    · rw [hswapped.other lo (by omega) (by omega)]
      exact h.first
    · rcases Nat.eq_or_lt_of_le hki with rfl | hlt'
      · rw [hswapped.left, hy] at hz
        exact Option.some_inj.mp hz ▸ hsmall.le
      · rw [hswapped.other k (by omega) (by omega)] at hz
        exact h.below k z hk hlt' hz
    · rw [hswapped.other k (by omega) (by omega)] at hz
      exact h.above k z hk hkhi hz

/-- The loop ends where the two indices meet. -/
theorem partitionLoop_spec {pivot : α} {lo hi i j rounds : ℕ} {a : List α}
    (h : Closing pivot lo hi i j a) (hhi : hi ≤ a.length) (hrounds : j - i < rounds) :
    ∃ m b, partitionLoop pivot rounds i j a = some (m, b) ∧ Closing pivot lo hi m m b
      ∧ Within lo hi a b := by
  induction rounds generalizing i j a with
  | zero => exact absurd hrounds (Nat.not_lt_zero _)
  | succ rounds ih =>
    unfold partitionLoop
    split
    · next hij =>
      obtain ⟨i', j', hj', hi', hscanned, hless⟩ := h.scan hhi hij
      obtain ⟨b, hb, hclosing, hwithin⟩ := hscanned.swapApart hhi
      obtain ⟨m, c, hc, hmet, hwithin'⟩ :=
        ih hclosing (hwithin.length_eq ▸ hhi) (by omega)
      simp only [hj', hi', hb, hc, Option.bind_eq_bind, Option.bind_some]
      exact ⟨m, c, rfl, hmet, hwithin.trans hwithin'⟩
    · next hmet =>
      obtain rfl : i = j := Nat.le_antisymm h.le (not_lt.mp hmet)
      exact ⟨i, a, rfl, h, Within.refl lo hi a⟩

/-- **A range that is taken apart**: the pivot is at `i`, nothing before it is
greater and nothing behind it is smaller. -/
structure Divided (pivot : α) (lo i hi : ℕ) (a : List α) : Prop where
  middle : a[i]? = some pivot
  below : ∀ k x, lo ≤ k → k < i → a[k]? = some x → x ≤ pivot
  above : ∀ k x, i + 1 ≤ k → k < hi → a[k]? = some x → pivot ≤ x

/-- **The partition** of a range of at least two elements, with its first
element as the pivot. -/
theorem partition_spec {pivot : α} {lo hi : ℕ} {a : List α} (hlo : lo + 1 < hi)
    (hhi : hi ≤ a.length) (hpivot : a[lo]? = some pivot) :
    ∃ i b, partition pivot lo (hi - 1) a = some (i, b) ∧ lo ≤ i ∧ i < hi
      ∧ Divided pivot lo i hi b ∧ Within lo hi a b := by
  have hstart : Closing pivot lo hi lo (hi - 1) a := by
    refine ⟨hpivot, Nat.le_refl lo, by omega, by omega, fun k x hk hk' hx => ?_,
      fun k _ _ _ => by omega⟩
    obtain rfl : lo = k := Nat.le_antisymm hk hk'
    rw [hpivot] at hx
    exact (Option.some_inj.mp hx).ge
  obtain ⟨i, b, hloop, hmet, hwithin⟩ :=
    partitionLoop_spec hstart hhi (Nat.lt_succ_self (hi - 1 - lo))
  have hlength := hwithin.length_eq
  have hloi := hmet.lo_le
  have hihi := hmet.lt_hi
  obtain ⟨c, hswap, hswapped⟩ := exists_swap (show i < b.length by omega)
    (show lo < b.length by omega)
  refine ⟨i, c, ?_, hloi, hihi, ⟨?_, fun k x hk hki hx => ?_, fun k x hk hkhi hx => ?_⟩,
    hwithin.trans (Within.of_swapped hswapped ⟨hloi, hihi⟩ ⟨Nat.le_refl lo, by omega⟩)⟩
  · simp only [partition, hloop, hswap, Option.bind_eq_bind, Option.bind_some, Option.pure_def]
  · rw [hswapped.left]
    exact hmet.first
  · rcases Nat.eq_or_lt_of_le hk with rfl | hlt
    · rw [hswapped.right] at hx
      exact hmet.below i x hloi (Nat.le_refl i) hx
    · rw [hswapped.other k (by omega) (by omega)] at hx
      exact hmet.below k x hk (by omega) hx
  · rw [hswapped.other k (by omega) (by omega)] at hx
    exact hmet.above k x (by omega) hkhi hx

/-! ## Putting the parts in order -/

namespace Divided

variable {pivot : α} {lo i hi : ℕ} {a b c : List α}

theorem of_within_left (h : Divided pivot lo i hi a) (hwithin : Within lo i a b) :
    Divided pivot lo i hi b where
  middle := (hwithin.outside i (Or.inr (Nat.le_refl i))).trans h.middle
  below := hwithin.forall_mem h.below
  above := fun k x hk hkhi hx =>
    h.above k x hk hkhi ((hwithin.outside k (Or.inr (by omega))).symm.trans hx)

theorem of_within_right (h : Divided pivot lo i hi a) (hwithin : Within (i + 1) hi a b) :
    Divided pivot lo i hi b where
  middle := (hwithin.outside i (Or.inl (Nat.lt_succ_self i))).trans h.middle
  below := fun k x hk hki hx =>
    h.below k x hk hki ((hwithin.outside k (Or.inl (by omega))).symm.trans hx)
  above := hwithin.forall_mem h.above

/-- **A range is in order** if its two parts are. -/
theorem sortedOn (h : Divided pivot lo i hi a) (hleft : SortedOn lo i a)
    (hright : SortedOn (i + 1) hi a) : SortedOn lo hi a := by
  intro k k' x y hk hkk' hk' hx hy
  rcases Nat.lt_trichotomy k i with hki | rfl | hik
  · have hxp := h.below k x hk hki hx
    rcases Nat.lt_trichotomy k' i with hki' | rfl | hik'
    · exact hleft k k' x y hk hkk' hki' hx hy
    · rw [h.middle] at hy
      exact Option.some_inj.mp hy ▸ hxp
    · exact hxp.trans (h.above k' y hik' hk' hy)
  · rw [h.middle] at hx
    exact Option.some_inj.mp hx ▸ h.above k' y hkk' hk' hy
  · exact hright k k' x y hik hkk' hk' hx hy

end Divided

/-- **A part that is sorted**: its elements are rearranged and in order. -/
structure SortsPart (lo hi : ℕ) (a b : List α) : Prop where
  within : Within lo hi a b
  sorted : SortedOn lo hi b

namespace SortsPart

variable {pivot : α} {lo i hi : ℕ} {a a' b c : List α}

theorem of_left_right (hwithin : Within lo hi a a') (hlo : lo ≤ i) (hi' : i < hi)
    (h : Divided pivot lo i hi a') (hleft : SortsPart lo i a' b)
    (hright : SortsPart (i + 1) hi b c) : SortsPart lo hi a c where
  within := (hwithin.trans (hleft.within.mono (Nat.le_refl lo) hi'.le)).trans
    (hright.within.mono (by omega) (Nat.le_refl hi))
  sorted := ((h.of_within_left hleft.within).of_within_right hright.within).sortedOn
    (hleft.sorted.of_within hright.within (Or.inl (Nat.le_succ i))) hright.sorted

theorem of_right_left (hwithin : Within lo hi a a') (hlo : lo ≤ i) (hi' : i < hi)
    (h : Divided pivot lo i hi a') (hright : SortsPart (i + 1) hi a' b)
    (hleft : SortsPart lo i b c) : SortsPart lo hi a c where
  within := (hwithin.trans (hright.within.mono (by omega) (Nat.le_refl hi))).trans
    (hleft.within.mono (Nat.le_refl lo) hi'.le)
  sorted := ((h.of_within_right hright.within).of_within_left hleft.within).sortedOn
    hleft.sorted (hright.sorted.of_within hleft.within (Or.inr (Nat.le_succ i)))

end SortsPart

/-! ## The three sorts

The parts are sorted one after the other, each within its range. The pivot stays
between them. `QuickSort2` has a stack of ranges in place of the calls: a range is
taken from the top, taken apart, and both parts are put there, so that what is
below is done after both. The number of its rounds is bounded by about twice the
length, as a range without its pivot is divided among its parts.

The last index is one less than the size, as an `int`. Where that is negative
there is no range, and the vector is left as it is. `QuickSort_Random` computes
how many elements there are to draw from, and `2 ^ 31` of them is no `int`. -/

theorem toNat?_first (lo : ℕ) : Int.toNat? (lo : ℤ) = some lo := rfl

theorem toNat?_last {hi : ℕ} (h : 0 < hi) : Int.toNat? ((hi : ℤ) - 1) = some (hi - 1) :=
  Int.mem_toNat?.mpr (by omega)

/-- **`QuickSort_Head` sorts a range.** -/
theorem quickSortHead_spec {depth lo hi : ℕ} {a : List α} (hlo : lo ≤ hi) (hhi : hi ≤ a.length)
    (hint : hi < 2 ^ 31) (hdepth : hi - lo < depth) :
    ∃ b, quickSortHead depth lo ((hi : ℤ) - 1) a = some b ∧ SortsPart lo hi a b := by
  induction depth generalizing lo hi a with
  | zero => exact absurd hdepth (Nat.not_lt_zero _)
  | succ depth ih =>
    unfold quickSortHead
    split
    · exact ⟨a, rfl, Within.refl lo hi a, sortedOn_of_le (by omega) a⟩
    · next hmore =>
      have hpivot : a[lo]? = some a[lo] := List.getElem?_eq_getElem (by omega)
      obtain ⟨i, a', hpart, hloi, hihi, hdivided, hwithin⟩ :=
        partition_spec (show lo + 1 < hi by omega) hhi hpivot
      have hlength := hwithin.length_eq
      obtain ⟨b, hb, hleft⟩ := ih hloi (show i ≤ a'.length by omega) (by omega) (by omega)
      have hlength' := hleft.within.length_eq
      obtain ⟨c, hc, hright⟩ := ih hihi (show hi ≤ b.length by omega) hint (by omega)
      simp only [toNat?_first, toNat?_last (show 0 < hi by omega), hpivot, hpart, hb,
        int_of_lt (show i + 1 < 2 ^ 31 by omega), hc, Option.bind_eq_bind, Option.bind_some]
      exact ⟨c, rfl, .of_left_right hwithin hloi hihi hdivided hleft hright⟩

/-- **`QuickSort_Random` sorts a range**, whatever is drawn. -/
theorem quickSortRandom_spec (rand : ℕ → ℕ) (calls : ℕ) {depth lo hi : ℕ} {a : List α}
    (hlo : lo ≤ hi) (hhi : hi ≤ a.length) (hint : hi < 2 ^ 31) (hdepth : hi - lo < depth) :
    ∃ b calls', quickSortRandom rand depth lo ((hi : ℤ) - 1) (a, calls) = some (b, calls')
      ∧ SortsPart lo hi a b := by
  induction depth generalizing lo hi calls a with
  | zero => exact absurd hdepth (Nat.not_lt_zero _)
  | succ depth ih =>
    unfold quickSortRandom
    split
    · exact ⟨a, calls, rfl, Within.refl lo hi a, sortedOn_of_le (by omega) a⟩
    · next hmore =>
      -- the element drawn is in the range, and gets to its beginning
      have hdrawn : rand calls % (hi - 1 - lo + 1) < hi - 1 - lo + 1 :=
        Nat.mod_lt _ (Nat.succ_pos _)
      obtain ⟨r, hr⟩ : ∃ r, r = lo + rand calls % (hi - 1 - lo + 1) := ⟨_, rfl⟩
      have hpivot : a[r]? = some a[r] := List.getElem?_eq_getElem (by omega)
      obtain ⟨a₁, hswap, hswapped⟩ := exists_swap (show lo < a.length by omega)
        (show r < a.length by omega)
      have hwithin₁ : Within lo hi a a₁ :=
        .of_swapped hswapped ⟨Nat.le_refl lo, by omega⟩ ⟨by omega, by omega⟩
      have hlength₁ := hwithin₁.length_eq
      obtain ⟨i, a₂, hpart, hloi, hihi, hdivided, hwithin₂⟩ :=
        partition_spec (show lo + 1 < hi by omega) (by omega) (hswapped.left.trans hpivot)
      have hlength₂ := hwithin₂.length_eq
      obtain ⟨b, calls₁, hb, hleft⟩ := ih (calls + 1) hloi (show i ≤ a₂.length by omega) (by omega)
        (by omega)
      have hlength := hleft.within.length_eq
      obtain ⟨c, calls₂, hc, hright⟩ :=
        ih calls₁ hihi (show hi ≤ b.length by omega) hint (by omega)
      simp only [toNat?_first, toNat?_last (show 0 < hi by omega),
        int_of_lt (show hi - 1 - lo + 1 < 2 ^ 31 by omega), ← hr, hpivot, hswap, hpart, hb,
        int_of_lt (show i + 1 < 2 ^ 31 by omega), hc, Option.bind_eq_bind, Option.bind_some]
      exact ⟨c, calls₂, rfl,
        .of_left_right (hwithin₁.trans hwithin₂) hloi hihi hdivided hleft hright⟩

/-- **`QuickSort2` sorts the range on the top of the stack** and then goes on
with the others. The range and the two parts of it, and the parts of these, are
at most `2 * (hi - lo) + 1` ranges. -/
theorem quickLoop_spec {n lo hi : ℕ} {a : List α} (sta : List ℤ) (hn : hi - lo ≤ n) (hlo : lo ≤ hi)
    (hhi : hi ≤ a.length) (hint : hi < 2 ^ 31) :
    ∃ used b, used ≤ 2 * (hi - lo) + 1 ∧ SortsPart lo hi a b
      ∧ ∀ rounds, quickLoop (rounds + used) (((hi : ℤ) - 1) :: (lo : ℤ) :: sta) a
        = quickLoop rounds sta b := by
  induction n generalizing lo hi a sta with
  | zero =>
    refine ⟨1, a, by omega, ⟨Within.refl lo hi a, sortedOn_of_le (by omega) a⟩, fun rounds => ?_⟩
    rw [quickLoop, if_pos (by omega)]
  | succ n ih =>
    by_cases hmore : hi ≤ lo + 1
    · refine ⟨1, a, by omega, ⟨Within.refl lo hi a, sortedOn_of_le hmore a⟩, fun rounds => ?_⟩
      rw [quickLoop, if_pos (by omega)]
    · have hpivot : a[lo]? = some a[lo] := List.getElem?_eq_getElem (by omega)
      obtain ⟨i, a', hpart, hloi, hihi, hdivided, hwithin⟩ :=
        partition_spec (show lo + 1 < hi by omega) hhi hpivot
      have hlength := hwithin.length_eq
      obtain ⟨used₁, b, hused₁, hright, hrun₁⟩ :=
        ih (((i : ℤ) - 1) :: (lo : ℤ) :: sta) (show hi - (i + 1) ≤ n by omega) hihi
          (show hi ≤ a'.length by omega) hint
      have hlength' := hright.within.length_eq
      obtain ⟨used₂, c, hused₂, hleft, hrun₂⟩ :=
        ih sta (show i - lo ≤ n by omega) hloi (show i ≤ b.length by omega) (by omega)
      refine ⟨used₂ + used₁ + 1, c, by omega,
        .of_right_left hwithin hloi hihi hdivided hright hleft, fun rounds => ?_⟩
      rw [← Nat.add_assoc, quickLoop, if_neg (by omega)]
      simp only [toNat?_first, toNat?_last (show 0 < hi by omega), hpivot, hpart,
        int_of_lt (show i + 1 < 2 ^ 31 by omega), Option.bind_eq_bind, Option.bind_some]
      rw [← Nat.add_assoc, hrun₁, hrun₂]

theorem SortsPart.perm_and_pairwise {a b : List α} (h : SortsPart 0 a.length a b) :
    b.Perm a ∧ b.Pairwise (· ≤ ·) :=
  ⟨h.within.perm, sortedOn_iff_pairwise.mp (h.within.length_eq ▸ h.sorted)⟩

/-- **`QuickSort` sorts.** -/
theorem quickSort_sorts (rand : ℕ → ℕ) {nums : List α} (hint : nums.length < 2 ^ 31) :
    ∃ r, quickSort rand nums = some r ∧ r.Perm nums ∧ r.Pairwise (· ≤ ·) := by
  unfold quickSort
  split
  · next hshort => exact ⟨nums, rfl, List.Perm.refl nums, pairwise_of_length_lt_two hshort⟩
  · obtain ⟨r, calls, hr, hsorts⟩ := quickSortRandom_spec rand 0 (Nat.zero_le nums.length)
      (Nat.le_refl _) hint (show nums.length - 0 < nums.length + 1 by omega)
    rw [Nat.cast_zero] at hr
    simp only [wrap_pred (show 1 ≤ nums.length by omega) hint.le, hr, Option.bind_eq_bind,
      Option.bind_some]
    exact ⟨r, rfl, hsorts.perm_and_pairwise⟩

/-- **`QuickSort_Head` sorts** on the whole range. -/
theorem quickSortHead_sorts {nums : List α} (hint : nums.length < 2 ^ 31) :
    ∃ r, quickSortHead (nums.length + 1) 0 ((nums.length : ℤ) - 1) nums = some r ∧ r.Perm nums
      ∧ r.Pairwise (· ≤ ·) := by
  obtain ⟨r, hr, hsorts⟩ := quickSortHead_spec (Nat.zero_le nums.length) (Nat.le_refl _) hint
    (show nums.length - 0 < nums.length + 1 by omega)
  exact ⟨r, hr, hsorts.perm_and_pairwise⟩

/-- **`QuickSort2` sorts.** -/
theorem quickSort2_sorts {nums : List α} (hint : nums.length < 2 ^ 31) :
    ∃ r, quickSort2 nums = some r ∧ r.Perm nums ∧ r.Pairwise (· ≤ ·) := by
  unfold quickSort2
  split
  · next hshort => exact ⟨nums, rfl, List.Perm.refl nums, pairwise_of_length_lt_two hshort⟩
  · obtain ⟨used, r, hused, hsorts, hrun⟩ := quickLoop_spec [] (Nat.le_refl (nums.length - 0))
      (Nat.zero_le nums.length) (Nat.le_refl _) hint
    have hrounds : 2 * nums.length + 2 = 2 * nums.length + 2 - used + used := by omega
    obtain ⟨left, hleft⟩ : ∃ left, 2 * nums.length + 2 - used = left + 1 :=
      ⟨2 * nums.length + 1 - used, by omega⟩
    rw [Nat.cast_zero] at hrun
    rw [wrap_pred (by omega) hint.le, hrounds, hrun, hleft]
    exact ⟨r, rfl, hsorts.perm_and_pairwise⟩

/-- **The quick sorts agree**: whatever is drawn, each comes to an end, keeps to
the vector, and leaves its elements in order, if there are fewer than `2 ^ 31` of
them. -/
theorem quickSorts_agree (rand : ℕ → ℕ) {nums : List α} (hint : nums.length < 2 ^ 31) :
    ∃ r, r.Perm nums ∧ r.Pairwise (· ≤ ·) ∧ quickSort rand nums = some r
      ∧ quickSortHead (nums.length + 1) 0 ((nums.length : ℤ) - 1) nums = some r
      ∧ quickSort2 nums = some r := by
  obtain ⟨r, hr, hperm, hsorted⟩ := quickSort_sorts rand hint
  obtain ⟨r₁, hr₁, hperm₁, hsorted₁⟩ := quickSortHead_sorts hint
  obtain ⟨r₂, hr₂, hperm₂, hsorted₂⟩ := quickSort2_sorts hint
  have heq₁ : r₁ = r := (hperm₁.trans hperm.symm).eq_of_pairwise' hsorted₁ hsorted
  have heq₂ : r₂ = r := (hperm₂.trans hperm.symm).eq_of_pairwise' hsorted₂ hsorted
  rw [heq₁] at hr₁
  rw [heq₂] at hr₂
  exact ⟨r, hperm, hsorted, hr, hr₁, hr₂⟩

/-- The numbers `main` sorts, with 7 for every number drawn. -/
theorem quickSorts_agree_main :
    ∃ r, r.Perm [(808 : ℤ), 84, 6, 684, 0, 84, -18, 90974, -907, 684] ∧ r.Pairwise (· ≤ ·)
      ∧ quickSort (fun _ => 7) [808, 84, 6, 684, 0, 84, -18, 90974, -907, 684] = some r
      ∧ quickSortHead ([(808 : ℤ), 84, 6, 684, 0, 84, -18, 90974, -907, 684].length + 1) 0
          (([(808 : ℤ), 84, 6, 684, 0, 84, -18, 90974, -907, 684].length : ℤ) - 1)
          [808, 84, 6, 684, 0, 84, -18, 90974, -907, 684] = some r
      ∧ quickSort2 [808, 84, 6, 684, 0, 84, -18, 90974, -907, 684] = some r :=
  quickSorts_agree (fun _ => 7) (by decide)

/-- **A vector of `2 ^ 31` elements**: there is no `int` for as many to draw from. -/
theorem quickSort_eq_none (rand : ℕ → ℕ) {nums : List α} (h : nums.length = 2 ^ 31) :
    quickSort rand nums = none := by
  have hsize : int (nums.length - 1 - 0 + 1) = none := int_of_le (by omega)
  have hrange : ¬ (nums.length : ℤ) - 1 ≤ 0 := by omega
  have hlast : ((nums.length : ℤ) - 1).toNat? = some (nums.length - 1) := toNat?_last (by omega)
  unfold quickSort
  rw [if_neg (by omega)]
  simp only [wrap_pred (show 1 ≤ nums.length by omega) h.le]
  unfold quickSortRandom
  rw [if_neg hrange, hlast]
  simp only [Option.bind_eq_bind, Option.bind_some]
  rw [show Int.toNat? 0 = some 0 from rfl, Option.bind_some, hsize]
  rfl

/-- `2 ^ 31` zeros. -/
theorem quickSort_zeros :
    ¬ ∃ r, r.Perm (List.replicate (2 ^ 31) (0 : ℤ)) ∧ r.Pairwise (· ≤ ·)
      ∧ quickSort (fun _ => 0) (List.replicate (2 ^ 31) (0 : ℤ)) = some r
      ∧ quickSortHead ((List.replicate (2 ^ 31) (0 : ℤ)).length + 1) 0
          (((List.replicate (2 ^ 31) (0 : ℤ)).length : ℤ) - 1)
          (List.replicate (2 ^ 31) (0 : ℤ)) = some r
      ∧ quickSort2 (List.replicate (2 ^ 31) (0 : ℤ)) = some r := by
  rintro ⟨r, -, -, hr, -⟩
  rw [quickSort_eq_none _ List.length_replicate] at hr
  cases hr

end Sorting
