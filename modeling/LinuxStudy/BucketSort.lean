import Mathlib.Data.Rat.Floor
import LinuxStudy.CountingSort

/-!
# Bucket sort

`BucketSort` has a bucket for every three numbers. The distance from the least
number to the greatest is divided among them, so that every number has a bucket
and greater numbers have later ones, and the buckets are sorted by the library
and put one behind the other.

The distance is divided by the number of buckets less one, and the numbers are
divided by what comes out (`gap`). With fewer than three numbers there is no
bucket, with fewer than six there is one, and the distance is divided by zero;
and where all numbers are equal, `gap` is zero. The loop that looks for the least
and the greatest counts up to the size of the vector, which has to be an `int`. In
every other case the sort is right (`bucketSort_iff`).

`gap` is a rational number here, without rounding, and a division by zero is
undefined.
-/

namespace Sorting

open InPlace IntArith StableSort

/-- A division of `double`s. -/
def divide (a b : ℚ) : Option ℚ := if b = 0 then none else some (a / b)

/-- A `double` as an `int`: without its fraction. -/
def trunc (q : ℚ) : ℤ := q.num.tdiv q.den

/-- `(int)(nums[i]-min)/gap`, as an `int`. -/
def bucketOf (min : ℤ) (gap : ℚ) (x : ℤ) : Option ℤ := do
  let q ← divide (wrap (x - min)) gap
  return trunc q

/-- The loop that puts the numbers into the buckets. -/
def bucketLoop (min : ℤ) (gap : ℚ) : List ℤ → List (List ℤ) → Option (List (List ℤ))
  | [], bucket => some bucket
  | x :: rest, bucket => do
    let idx ← bucketOf min gap x
    let i ← idx.toNat?
    let b ← bucket[i]?
    let bucket ← put bucket i (b ++ [x])
    bucketLoop min gap rest bucket

/-- The loop that writes numbers to the vector, from an index on. -/
def writeLoop : List ℤ → ℕ → List ℤ → Option (List ℤ)
  | [], _, nums => some nums
  | j :: rest, index, nums => do
    let nums ← put nums index j
    writeLoop rest (index + 1) nums

/-- **`BucketSort`.** The index of the loop for `min` and `max` ends at the size. -/
def bucketSort (nums : List ℤ) : Option (List ℤ) :=
  if nums.length < 2 then some nums
  else do
    let n := wrap nums.length
    let bucketNum := n.tdiv 3
    let _ ← int nums.length
    let (min, max) ← minMax id nums
    let size ← bucketNum.toNat?
    let gap ← divide (wrap (max - min)) (bucketNum - 1 : ℤ)
    let bucket ← bucketLoop min gap nums (List.replicate size [])
    writeLoop (bucket.map fun b => b.mergeSort (· ≤ ·)).flatten 0 nums

/-! ## The buckets

What the sort does with the buckets does not depend on how a bucket is chosen. The
loop appends each number to the bucket it belongs to, so a bucket has its numbers
in the order of the vector. If greater numbers are never in earlier buckets, the
sorted buckets one behind the other are sorted, and they have the numbers of the
vector, each as often as it is there. -/

/-- The bucket of a number, where `gap` is not zero. -/
def bucketAt (min : ℤ) (gap : ℚ) (x : ℤ) : ℤ := trunc (wrap (x - min) / gap)

theorem bucketOf_eq {min : ℤ} {gap : ℚ} (h : gap ≠ 0) (x : ℤ) :
    bucketOf min gap x = some (bucketAt min gap x) := by
  unfold bucketOf divide
  rw [if_neg h]
  rfl

/-- **The loop fills the buckets**, each with its numbers in order. -/
theorem bucketLoop_spec {min : ℤ} {gap : ℚ} (hgap : gap ≠ 0) {size : ℕ} {l : List ℤ}
    (h : InSlots (bucketAt min gap) size l) (f : ℤ → List ℤ) :
    bucketLoop min gap l (tally size f)
      = some (tally size fun k => f k ++ withKey (bucketAt min gap) k l) := by
  induction l generalizing f with
  | nil =>
    refine congrArg some (tally_congr fun k _ => ?_)
    exact (List.append_nil (f k)).symm
  | cons x l ih =>
    obtain ⟨i, hi, hidx, hlt⟩ := h.exists_nat List.mem_cons_self
    have hput : put (tally size f) i (f i ++ [x])
        = some (tally size fun k => f k ++ if bucketAt min gap x = k then [x] else []) :=
      put_tally hlt (by rw [if_pos hi]) fun k hk => by
        rw [if_neg (fun hkx => hk (hkx.symm.trans hi)), List.append_nil]
    unfold bucketLoop
    simp only [bucketOf_eq hgap, hidx, getElem?_tally hlt, hput, Option.bind_eq_bind,
      Option.bind_some]
    rw [ih fun y hy => h y (List.mem_cons_of_mem x hy)]
    refine congrArg some (tally_congr fun k _ => ?_)
    rw [withKey_cons, List.append_assoc]
    split
    · rfl
    · rfl

/-- The buckets have all the numbers. -/
theorem flatMap_withKey_perm (key : ℤ → ℤ) (l : List ℤ) (m : ℕ) :
    ((List.range m).flatMap fun k : ℕ => withKey key k l).Perm
      (l.filter fun x => 0 ≤ key x ∧ key x < m) := by
  induction m with
  | zero =>
    have hnone : (l.filter fun x => 0 ≤ key x ∧ key x < (0 : ℕ)) = [] :=
      List.filter_eq_nil_iff.mpr fun x _ hx => by
        have := of_decide_eq_true hx
        omega
    rw [hnone]
    exact List.Perm.refl []
  | succ m ih =>
    have hsplit := List.filter_append_perm (fun x => decide (key x < m))
      (l.filter fun x => 0 ≤ key x ∧ key x < (m + 1 : ℕ))
    rw [List.filter_filter, List.filter_filter] at hsplit
    have hless : (l.filter fun x => decide (key x < m) && decide (0 ≤ key x ∧ key x < (m + 1 : ℕ)))
        = l.filter fun x => 0 ≤ key x ∧ key x < m := by
      refine List.filter_congr fun x _ => ?_
      rw [← Bool.decide_and]
      exact decide_eq_decide.mpr (by omega)
    have hlast : (l.filter fun x =>
          !decide (key x < m) && decide (0 ≤ key x ∧ key x < (m + 1 : ℕ)))
        = withKey key m l := by
      refine List.filter_congr fun x _ => ?_
      rw [← decide_not, ← Bool.decide_and]
      exact decide_eq_decide.mpr (by omega)
    rw [hless, hlast] at hsplit
    rw [List.range_succ, List.flatMap_append, List.flatMap_singleton]
    exact (ih.append_right _).trans hsplit

/-- **The buckets sorted, one behind the other**: a sorted list, if greater
numbers are not in earlier buckets. -/
theorem flatten_buckets {key : ℤ → ℤ} {size : ℕ} {l : List ℤ} (h : InSlots key size l)
    (hmono : ∀ x ∈ l, ∀ y ∈ l, x ≤ y → key x ≤ key y) :
    ((tally size fun k => withKey key k l).map fun b => b.mergeSort (· ≤ ·)).flatten.Perm l
    ∧ ((tally size fun k => withKey key k l).map fun b => b.mergeSort (· ≤ ·)).flatten.Pairwise
      (· ≤ ·) := by
  rw [tally, List.map_map, ← List.flatMap_def]
  constructor
  · have hall : (l.filter fun x => 0 ≤ key x ∧ key x < size) = l :=
      List.filter_eq_self.mpr fun x hx => decide_eq_true (h x hx)
    have hperm := flatMap_withKey_perm key l size
    rw [hall] at hperm
    exact (List.Perm.flatMap_left _ fun k _ => List.mergeSort_perm _ _).trans hperm
  · refine List.pairwise_flatMap.mpr ⟨fun k _ => List.pairwise_mergeSort' (· ≤ ·) _,
      List.pairwise_lt_range.imp fun {k k'} hlt x hx y hy => ?_⟩
    have hx := List.mem_filter.mp (List.mem_mergeSort.mp hx)
    have hy := List.mem_filter.mp (List.mem_mergeSort.mp hy)
    have hkx : key x = k := of_decide_eq_true hx.2
    have hky : key y = k' := of_decide_eq_true hy.2
    by_contra hxy
    have hle := hmono y hy.1 x hx.1 (not_le.mp hxy).le
    omega

/-- The vector is written from one end to the other. -/
theorem writeLoop_spec (p l : List ℤ) {q : List ℤ} (h : q.length = l.length) :
    writeLoop l p.length (p ++ q) = some (p ++ l) := by
  induction l generalizing p q with
  | nil =>
    obtain rfl := List.length_eq_zero_iff.mp h
    rfl
  | cons x l ih =>
    cases q with
    | nil => cases h
    | cons y q =>
      have hnext := ih (p ++ [x]) (Nat.succ_inj.mp h)
      rw [List.length_append, List.length_singleton, List.append_assoc, List.append_assoc] at hnext
      unfold writeLoop
      rw [put_append_cons, Option.bind_eq_bind, Option.bind_some]
      exact hnext

/-! ## The index of a bucket

The index is the distance from the least number divided by `gap`, without its
fraction. It is at least zero, and it grows with the number. The greatest number
has the whole distance, which divided by `gap` is the number of the buckets less
one, so it goes to the last bucket. For this `gap` must not be zero, and it is the
distance divided by the number of the buckets less one: the numbers must not all
be equal, and there must be at least two buckets. -/

theorem trunc_of_nonneg {q : ℚ} (h : 0 ≤ q) : trunc q = ⌊q⌋ := by
  rw [trunc, Rat.floor_def', Int.tdiv_eq_ediv_of_nonneg (Rat.num_nonneg.mpr h)]

section

variable {min max x y : ℤ} {gap : ℚ}

theorem quotient_nonneg (hgap : 0 < gap) (h : min ≤ x) : 0 ≤ ((x - min : ℤ) : ℚ) / gap := by
  have hdist : (0 : ℚ) ≤ (x - min : ℤ) := by exact_mod_cast (show 0 ≤ x - min by omega)
  exact div_nonneg hdist hgap.le

theorem quotient_le_quotient (hgap : 0 < gap) (h : x ≤ y) :
    ((x - min : ℤ) : ℚ) / gap ≤ ((y - min : ℤ) : ℚ) / gap := by
  refine div_le_div_of_nonneg_right ?_ hgap.le
  exact_mod_cast (show x - min ≤ y - min by omega)

theorem bucketAt_eq_floor (hgap : 0 < gap) (h : min ≤ x) (hint : x - min < 2 ^ 31) :
    bucketAt min gap x = ⌊((x - min : ℤ) : ℚ) / gap⌋ := by
  rw [bucketAt, wrap_of_isInt ⟨by omega, hint⟩, trunc_of_nonneg (quotient_nonneg hgap h)]

/-- **The greatest number is in the last bucket**, and no other in a later one. -/
theorem quotient_lt {bucketNum : ℕ} (hlt : min < max) (hbuckets : 2 ≤ bucketNum)
    (hgapEq : gap = ((max - min : ℤ) : ℚ) / ((bucketNum : ℤ) - 1 : ℤ)) (h : x ≤ max) :
    0 < gap ∧ ((x - min : ℤ) : ℚ) / gap < ((bucketNum : ℤ) : ℚ) := by
  have hdist : (0 : ℚ) < (max - min : ℤ) := by exact_mod_cast (show 0 < max - min by omega)
  have hless : (0 : ℚ) < ((bucketNum : ℤ) - 1 : ℤ) := by
    exact_mod_cast (show 0 < (bucketNum : ℤ) - 1 by omega)
  have hgap : 0 < gap := hgapEq ▸ div_pos hdist hless
  refine ⟨hgap, ?_⟩
  calc ((x - min : ℤ) : ℚ) / gap ≤ ((max - min : ℤ) : ℚ) / gap := quotient_le_quotient hgap h
    _ = ((bucketNum : ℤ) - 1 : ℤ) := by
        rw [hgapEq]
        exact div_div_cancel₀ hdist.ne'
    _ < ((bucketNum : ℤ) : ℚ) := by exact_mod_cast (show (bucketNum : ℤ) - 1 < bucketNum by omega)

/-- **The buckets of the numbers**, if the least is less than the greatest and
there are at least two buckets: each is there, and greater numbers are not in
earlier ones. -/
theorem bucketAt_spec {nums : List ℤ} {bucketNum : ℕ} (hmin : IsLeast (values id nums) min)
    (hmax : IsGreatest (values id nums) max) (hrange : max - min < 2 ^ 31) (hne : min ≠ max)
    (hbuckets : 2 ≤ bucketNum)
    (hgapEq : gap = ((max - min : ℤ) : ℚ) / ((bucketNum : ℤ) - 1 : ℤ)) :
    InSlots (bucketAt min gap) bucketNum nums
    ∧ ∀ x ∈ nums, ∀ y ∈ nums, x ≤ y → bucketAt min gap x ≤ bucketAt min gap y := by
  have hlt : min < max := lt_of_le_of_ne (hmin.2 hmax.1) hne
  have hlo : ∀ x ∈ nums, min ≤ x := fun x hx => hmin.2 ⟨x, hx, rfl⟩
  have hhi : ∀ x ∈ nums, x ≤ max := fun x hx => hmax.2 ⟨x, hx, rfl⟩
  have hgap : 0 < gap := (quotient_lt hlt hbuckets hgapEq le_rfl).1
  have hfloor : ∀ x ∈ nums, bucketAt min gap x = ⌊((x - min : ℤ) : ℚ) / gap⌋ := by
    intro x hx
    have hx' := hhi x hx
    exact bucketAt_eq_floor hgap (hlo x hx) (by omega)
  refine ⟨fun x hx => ?_, fun x hx y hy hxy => ?_⟩
  · rw [hfloor x hx]
    exact ⟨Int.floor_nonneg.mpr (quotient_nonneg hgap (hlo x hx)),
      Int.floor_lt.mpr (quotient_lt hlt hbuckets hgapEq (hhi x hx)).2⟩
  · rw [hfloor x hx, hfloor y hy]
    exact Int.floor_mono (quotient_le_quotient hgap hxy)

end

/-- `BucketSort` of a vector whose size is an `int`. -/
theorem bucketSort_eq {nums : List ℤ} {min max : ℤ} (hlength : 2 ≤ nums.length)
    (hint : nums.length < 2 ^ 31) (hminMax : minMax id nums = some (min, max)) :
    bucketSort nums
      = (divide (wrap (max - min)) (((nums.length / 3 : ℕ) : ℤ) - 1 : ℤ)).bind fun gap =>
        (bucketLoop min gap nums (List.replicate (nums.length / 3) [])).bind fun bucket =>
          writeLoop (bucket.map fun b => b.mergeSort (· ≤ ·)).flatten 0 nums := by
  have hbucketNum : (nums.length : ℤ).tdiv 3 = ((nums.length / 3 : ℕ) : ℤ) := rfl
  have hsize : ((nums.length / 3 : ℕ) : ℤ).toNat? = some (nums.length / 3) := rfl
  unfold bucketSort
  rw [if_neg (by omega)]
  simp only [wrap_natCast hint, hbucketNum, int_of_lt hint, hminMax, hsize, Option.bind_eq_bind,
    Option.bind_some]

/-- **`BucketSort` sorts** numbers that are not all equal, if there are at least
two buckets. -/
theorem bucketSort_sorts {nums : List ℤ} {min max : ℤ} (hminMax : minMax id nums = some (min, max))
    (hmin : IsLeast (values id nums) min) (hmax : IsGreatest (values id nums) max)
    (hrange : max - min < 2 ^ 31) (hne : min ≠ max) (hlength : 6 ≤ nums.length)
    (hint : nums.length < 2 ^ 31) :
    ∃ r, bucketSort nums = some r ∧ r.Perm nums ∧ r.Pairwise (· ≤ ·) := by
  have hbuckets : 2 ≤ nums.length / 3 := by omega
  have hle : min ≤ max := hmin.2 hmax.1
  obtain ⟨hin, hmono⟩ := bucketAt_spec hmin hmax hrange hne hbuckets rfl
  have hless : (((nums.length / 3 : ℕ) : ℤ) - 1 : ℤ) ≠ 0 := by omega
  have hless' : ((((nums.length / 3 : ℕ) : ℤ) - 1 : ℤ) : ℚ) ≠ 0 := by exact_mod_cast hless
  have hgap : ((max - min : ℤ) : ℚ) / (((nums.length / 3 : ℕ) : ℤ) - 1 : ℤ) ≠ 0 :=
    div_ne_zero (by exact_mod_cast (show max - min ≠ 0 by omega)) hless'
  have hloop := bucketLoop_spec hgap hin fun _ => []
  simp only [List.nil_append] at hloop
  obtain ⟨hperm, hsorted⟩ := flatten_buckets hin hmono
  refine ⟨_, ?_, hperm, hsorted⟩
  rw [bucketSort_eq (by omega) hint hminMax]
  simp only [wrap_of_isInt (show IsInt (max - min) from ⟨by omega, hrange⟩), divide,
    if_neg hless', replicate_eq_tally, hloop, Option.bind_some]
  exact writeLoop_spec [] _ hperm.length_eq.symm

theorem bucketSort_of_long {nums : List ℤ} (h : 2 ^ 31 ≤ nums.length) :
    bucketSort nums = none := by
  unfold bucketSort
  rw [if_neg (by omega), int_of_le h]
  rfl

/-- A vector without a bucket, with one, or of equal numbers. -/
theorem bucketSort_eq_none {nums : List ℤ} {min max : ℤ}
    (hminMax : minMax id nums = some (min, max)) (hlength : 2 ≤ nums.length)
    (h : nums.length < 6 ∨ min = max) : bucketSort nums = none := by
  rcases Nat.lt_or_ge nums.length (2 ^ 31) with hint | hlong
  swap
  · exact bucketSort_of_long hlong
  rw [bucketSort_eq hlength hint hminMax]
  obtain ⟨x, rest, rfl⟩ := List.exists_cons_of_length_pos (show 0 < nums.length by omega)
  by_cases hone : (((x :: rest).length / 3 : ℕ) : ℤ) - 1 = 0
  · rw [hone]
    rfl
  · have hone' : (((((x :: rest).length / 3 : ℕ) : ℤ) - 1 : ℤ) : ℚ) ≠ 0 := by exact_mod_cast hone
    rw [divide, if_neg hone', Option.bind_some]
    have hloop : ∀ bucket : List (List ℤ), (bucket = [] ∨ min = max) →
        bucketLoop min (wrap (max - min) / ((((x :: rest).length / 3 : ℕ) : ℤ) - 1 : ℤ))
          (x :: rest) bucket = none := by
      intro bucket hbucket
      unfold bucketLoop
      rcases hbucket with rfl | rfl
      · simp only [Option.bind_eq_bind, Option.bind_eq_none_iff, List.getElem?_nil]
        intros
        contradiction
      · have hzero : ((wrap (min - min) : ℤ) : ℚ) = 0 := by
          rw [sub_self]
          rfl
        rw [hzero, zero_div]
        rfl
    rw [hloop]
    · rfl
    · rcases h with hshort | heq
      · refine Or.inl ?_
        rw [show (x :: rest).length / 3 = 0 by omega]
        rfl
      · exact Or.inr heq

/-- **When `BucketSort` sorts**: exactly if there are at least six numbers, but fewer
than `2 ^ 31`, and they are not all equal. -/
theorem bucketSort_iff {nums : List ℤ} (hlength : 2 ≤ nums.length)
    (hrange : ∀ x ∈ nums, ∀ y ∈ nums, x - y < 2 ^ 31) :
    (∃ r, bucketSort nums = some r ∧ r.Perm nums ∧ r.Pairwise (· ≤ ·))
      ↔ 6 ≤ nums.length ∧ nums.length < 2 ^ 31 ∧ ∃ x ∈ nums, ∃ y ∈ nums, x ≠ y := by
  have hne : nums ≠ [] := List.ne_nil_of_length_pos (by omega)
  obtain ⟨min, max, hminMax, hmin, hmax⟩ := minMax_spec id hne
  obtain ⟨x, hx, hxmin⟩ := hmin.1
  obtain ⟨y, hy, hymax⟩ := hmax.1
  constructor
  · rintro ⟨r, hr, -⟩
    have hint : nums.length < 2 ^ 31 := by
      by_contra hlong
      rw [bucketSort_of_long (not_lt.mp hlong)] at hr
      cases hr
    by_contra hnot
    rw [bucketSort_eq_none hminMax hlength] at hr
    · cases hr
    · by_contra hgood
      rw [not_or, not_lt] at hgood
      exact hnot ⟨hgood.1, hint, x, hx, y, hy,
        fun heq => hgood.2 (hxmin.symm.trans (heq ▸ hymax))⟩
  · rintro ⟨hsix, hint, a, ha, b, hb, hab⟩
    have hmm : min ≠ max := by
      rintro rfl
      have hla : min ≤ a := hmin.2 ⟨a, ha, rfl⟩
      have hlb : min ≤ b := hmin.2 ⟨b, hb, rfl⟩
      have hga : a ≤ min := hmax.2 ⟨a, ha, rfl⟩
      have hgb : b ≤ min := hmax.2 ⟨b, hb, rfl⟩
      omega
    have hdist : max - min < 2 ^ 31 := by
      rw [← hxmin, ← hymax]
      exact hrange y hy x hx
    exact bucketSort_sorts hminMax hmin hmax hdist hmm hsix hint

/-- Seven numbers in two buckets. -/
theorem bucketSort_iff_seven :
    (∃ r, bucketSort [3, -1, 200, -3000, 5, 0, 99] = some r
        ∧ r.Perm [3, -1, 200, -3000, 5, 0, 99] ∧ r.Pairwise (· ≤ ·))
      ↔ 6 ≤ [(3 : ℤ), -1, 200, -3000, 5, 0, 99].length
        ∧ [(3 : ℤ), -1, 200, -3000, 5, 0, 99].length < 2 ^ 31
        ∧ ∃ x ∈ [(3 : ℤ), -1, 200, -3000, 5, 0, 99], ∃ y ∈ [(3 : ℤ), -1, 200, -3000, 5, 0, 99],
          x ≠ y :=
  bucketSort_iff (by decide) (by decide)

/-- Two numbers have no bucket. -/
theorem bucketSort_two_one :
    ¬ ∃ r, bucketSort [2, 1] = some r ∧ r.Perm [2, 1] ∧ r.Pairwise (· ≤ ·) := by
  rintro ⟨r, hr, -⟩
  have hminMax : minMax id [(2 : ℤ), 1] = some (1, 2) := by decide
  have hnone : bucketSort [2, 1] = none :=
    bucketSort_eq_none hminMax (by decide) (Or.inl (by decide))
  rw [hnone] at hr
  cases hr

end Sorting
