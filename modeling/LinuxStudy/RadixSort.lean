import Mathlib.Data.List.MinMax
import Mathlib.Data.Nat.Digits.Lemmas
import LinuxStudy.CountingSort

/-!
# Radix sort

`RadixSort` sorts by the last decimal digit, then by the one before it, and so
on, each time by a pass of counting sort. A digit has the sign of the number,
and there are nineteen counters for it.

The number of passes is that of the digits of the greatest magnitude, and it
goes wrong in two ways. The magnitude of the least `int` is no `int`: it stays
negative and is passed over, so that there can be too few passes for it. And a
tenth pass would need a base of `10 ^ 10`, which is no `int` either: it has
become 1410065408, and what the pass sorts by (`topDigit`) is neither a digit
nor in the order of the numbers, and for some it is out of the counters.

What a number is sorted by after so many passes is its `rank`. Up to the ninth
pass it is the number without its upper digits. The result is in order exactly
if the ranks of the numbers are (`radixSort_sorts_iff`), which is so for all
numbers of at most nine digits (`radixSort_sorts_of_lt`).

That is so for up to `2 ^ 31` numbers. With more, up to `2 ^ 32`, a pass writes nothing
and the two vectors only change places: what comes out is the vector that went in, if
the number of passes is even, and zeros otherwise (`radixSort_of_long_iff`).
-/

namespace Sorting

open InPlace IntArith StableSort

/-- `abs`. The magnitude of the least `int` is no `int`. -/
def intAbs (x : ℤ) : ℤ := wrap |x|

/-- One step of the loop that finds the greatest magnitude. -/
def widenAbs (max x : ℤ) : ℤ := if max < intAbs x then intAbs x else max

/-- The greatest magnitude. -/
def maxAbs : List ℤ → Option ℤ
  | [] => none
  | x :: rest => some ((x :: rest).foldl widenAbs (intAbs x))

/-- The number of digits, in at most so many rounds. -/
def widthLoop : ℕ → ℤ → ℕ → Option ℕ
  | 0, _, _ => none
  | rounds + 1, max, width =>
    if max ≠ 0 then widthLoop rounds (max.tdiv 10) (width + 1) else some width

/-- `(nums[k]%base)/(base/10) + 9`. -/
def bucketIdx (base x : ℤ) : ℤ := (x.tmod base).tdiv (base.tdiv 10) + 9

/-- The passes, so many of them. The two vectors change places after each. -/
def radixPasses : ℕ → ℤ → List ℤ → List ℤ → Option (List ℤ)
  | 0, _, nums, _ => some nums
  | left + 1, base, nums, sortedNums => do
    let (sorted, _) ← countingPass (bucketIdx base) 19 nums sortedNums
    radixPasses left (wrap (base * 10)) sorted nums

/-- **`RadixSort`.** An `int` has at most ten digits. -/
def radixSort (nums : List ℤ) : Option (List ℤ) :=
  if nums.length < 2 then some nums
  else do
    let max ← maxAbs nums
    let width ← widthLoop 11 max 0
    radixPasses width 10 nums (List.replicate nums.length 0)

/-! ## The passes

A pass is counting sort with nineteen counters, for the digits from `-9` to `9`.
After as many passes as there are digits the numbers are in the order of what they
were sorted by, the last pass first. For nine digits that is the order of the
numbers. In the tenth pass `base` is `10 ^ 10` modulo `2 ^ 32`, and what it sorts
by is a remainder and a quotient of other numbers. -/

/-- The base of a pass. -/
def baseAt (pass : ℕ) : ℤ := if pass = 9 then 1410065408 else 10 ^ (pass + 1)

/-- What the tenth pass sorts by. -/
def topDigit (x : ℤ) : ℤ := (x.tmod 1410065408).tdiv 141006540

/-- **What a number is sorted by** after so many passes. -/
def rank (passes : ℕ) (x : ℤ) : ℤ ×ₗ ℤ :=
  toLex (if passes = 10 then topDigit x else 0, x.tmod (10 ^ min passes 9))

theorem wrap_baseAt {pass : ℕ} (h : pass < 9) : wrap (baseAt pass * 10) = baseAt (pass + 1) := by
  interval_cases pass <;> decide

/-- Numbers are in the order of their quotients, and where these are equal in
that of their remainders, with the division that truncates. -/
theorem le_iff_tdiv_tmod {P : ℤ} (hP : 0 < P) (a b : ℤ) :
    a ≤ b ↔ a.tdiv P < b.tdiv P ∨ a.tdiv P = b.tdiv P ∧ a.tmod P ≤ b.tmod P := by
  have ha := Int.mul_tdiv_add_tmod a P
  have hb := Int.mul_tdiv_add_tmod b P
  constructor
  · intro hab
    rcases (Int.tdiv_le_tdiv hP hab).lt_or_eq with hlt | heq
    · exact Or.inl hlt
    · rw [heq] at ha
      exact Or.inr ⟨heq, by omega⟩
  · rintro (hlt | ⟨heq, hle⟩)
    · by_contra hba
      exact absurd (Int.tdiv_le_tdiv hP (not_le.mp hba).le) (not_le.mpr hlt)
    · rw [heq] at ha
      omega

theorem rank_le_iff {passes : ℕ} (h : passes ≤ 9) {x y : ℤ} :
    rank passes x ≤ rank passes y ↔ x.tmod (10 ^ passes) ≤ y.tmod (10 ^ passes) := by
  rw [rank, rank, Prod.Lex.toLex_le_toLex, if_neg (by omega), if_neg (by omega), min_eq_left h]
  simp only [lt_self_iff_false, false_or, true_and]

theorem rank_ten_le_iff {x y : ℤ} : rank 10 x ≤ rank 10 y
    ↔ topDigit x < topDigit y ∨ topDigit x = topDigit y ∧ x.tmod (10 ^ 9) ≤ y.tmod (10 ^ 9) :=
  Prod.Lex.toLex_le_toLex

theorem bucketIdx_nine (x : ℤ) : bucketIdx (baseAt 9) x = topDigit x + 9 := rfl

theorem bucketIdx_baseAt {pass : ℕ} (h : pass < 9) (x : ℤ) :
    bucketIdx (baseAt pass) x = (x.tmod (10 ^ (pass + 1))).tdiv (10 ^ pass) + 9 := by
  have hdiv : ((10 : ℤ) ^ (pass + 1)).tdiv 10 = 10 ^ pass := by
    rw [pow_succ]
    exact Int.mul_tdiv_cancel _ (by decide)
  rw [bucketIdx, baseAt, if_neg (by omega), hdiv]

/-- **A pass** puts the next digit before what the numbers are sorted by. -/
theorem bucketIdx_rank_le_iff {pass : ℕ} (h : pass < 10) (x y : ℤ) :
    toLex (bucketIdx (baseAt pass) x, rank pass x) ≤ toLex (bucketIdx (baseAt pass) y, rank pass y)
      ↔ rank (pass + 1) x ≤ rank (pass + 1) y := by
  rw [Prod.Lex.toLex_le_toLex]
  rcases Nat.lt_succ_iff_lt_or_eq.mp h with hlt | rfl
  · have hrest : ∀ z : ℤ, (z.tmod (10 ^ (pass + 1))).tmod (10 ^ pass) = z.tmod (10 ^ pass) :=
      fun z => Int.tmod_tmod_of_dvd z (pow_dvd_pow 10 (Nat.le_succ pass))
    rw [rank_le_iff (show pass + 1 ≤ 9 by omega), le_iff_tdiv_tmod (P := 10 ^ pass) (by positivity),
      hrest, hrest, bucketIdx_baseAt hlt, bucketIdx_baseAt hlt, rank_le_iff (by omega)]
    simp only [Int.add_lt_add_iff_right, add_left_inj]
  · rw [rank_le_iff (Nat.le_refl 9), rank_ten_le_iff, bucketIdx_nine, bucketIdx_nine]
    simp only [Int.add_lt_add_iff_right, add_left_inj]

/-- **The digits of the first nine passes** are within the counters. -/
theorem bucketIdx_mem {pass : ℕ} (h : pass < 9) (x : ℤ) :
    0 ≤ bucketIdx (baseAt pass) x ∧ bucketIdx (baseAt pass) x < 19 := by
  have hdigit : ((x.tmod (10 ^ (pass + 1))).tdiv (10 ^ pass)).natAbs < 10 := by
    rw [Int.natAbs_tdiv, Int.natAbs_tmod, Int.natAbs_pow, Int.natAbs_pow]
    exact Nat.div_lt_of_lt_mul (Nat.mod_lt _ (Nat.pow_pos (by decide)))
  rw [bucketIdx_baseAt h]
  omega

/-- Numbers that the tenth pass has a counter for. -/
def HasTopDigit (x : ℤ) : Prop := x.natAbs < 1410065400 ∨ 1410065408 ≤ x.natAbs

/-- **The tenth pass** has a counter for most of the numbers. -/
theorem bucketIdx_nine_mem_iff {x : ℤ} (h : IsInt x) :
    (0 ≤ bucketIdx (baseAt 9) x ∧ bucketIdx (baseAt 9) x < 19) ↔ HasTopDigit x := by
  have habs : (topDigit x).natAbs = x.natAbs % 1410065408 / 141006540 := by
    rw [topDigit, Int.natAbs_tdiv, Int.natAbs_tmod]
    rfl
  obtain ⟨hlo, hhi⟩ := h
  rw [bucketIdx_nine, HasTopDigit]
  omega

/-- **The passes sort** by the rank, if a tenth pass has counters for all
numbers. -/
theorem radixPasses_sorts {left pass : ℕ} (hpasses : pass + left ≤ 10) {base : ℤ}
    (hbase : 0 < left → base = baseAt pass) {l nums sortedNums : List ℤ}
    (hsorts : Sorts (rank pass) l nums) (hlength : sortedNums.length = nums.length)
    (hpos : 1 ≤ nums.length) (hshort : nums.length ≤ 2 ^ 31) (hint : ∀ x ∈ l, IsInt x)
    (htop : pass + left = 10 → ∀ x ∈ l, HasTopDigit x) :
    ∃ r, radixPasses left base nums sortedNums = some r ∧ Sorts (rank (pass + left)) l r := by
  induction left generalizing pass base nums sortedNums with
  | zero => exact ⟨nums, rfl, hsorts⟩
  | succ left ih =>
    have hin : InSlots (bucketIdx (baseAt pass)) 19 nums := by
      intro x hx
      have hx := hsorts.keeps.perm.mem_iff.mp hx
      rcases Nat.lt_succ_iff_lt_or_eq.mp (show pass < 9 + 1 by omega) with hlt | rfl
      · exact bucketIdx_mem hlt x
      · exact (bucketIdx_nine_mem_iff (hint x hx)).mpr (htop (by omega) x hx)
    obtain ⟨r, written, hpass, hsorts', -⟩ :=
      countingPass_sorts hin (by decide) hlength hpos hshort
    have hlength' := hsorts'.keeps.perm.length_eq
    have hnext : Sorts (rank (pass + 1)) l r :=
      (hsorts.lex hsorts').congr_key fun x _ y _ => bucketIdx_rank_le_iff (by omega) x y
    obtain ⟨r', hr', hsorts''⟩ := ih (show pass + 1 + left ≤ 10 by omega)
      (fun hpos => wrap_baseAt (show pass < 9 by omega)) hnext hlength'.symm
      (hlength'.symm ▸ hpos) (hlength'.symm ▸ hshort) (fun heq => htop (by omega))
    unfold radixPasses
    rw [hbase (Nat.succ_pos left), hpass, Option.bind_eq_bind, Option.bind_some]
    refine ⟨r', hr', ?_⟩
    rwa [show pass + 1 + left = pass + (left + 1) by omega] at hsorts''

/-- A tenth pass is out of the counters if it has none for a number. -/
theorem radixPasses_eq_none {left pass : ℕ} (hpasses : pass + left = 10) (hleft : 0 < left)
    {nums sortedNums : List ℤ} (hlength : sortedNums.length = nums.length)
    (hshort : nums.length ≤ 2 ^ 31) {x : ℤ} (hx : x ∈ nums) (hint : IsInt x)
    (htop : ¬ HasTopDigit x) :
    radixPasses left (baseAt pass) nums sortedNums = none := by
  induction left generalizing pass nums sortedNums with
  | zero => exact absurd hleft (Nat.lt_irrefl 0)
  | succ left ih =>
    have hpos : 1 ≤ nums.length := List.length_pos_of_mem hx
    unfold radixPasses
    rcases Nat.lt_succ_iff_lt_or_eq.mp (show pass < 9 + 1 by omega) with hlt | rfl
    · obtain ⟨r, written, hpass, hsorts, -⟩ := countingPass_sorts
        (fun x _ => bucketIdx_mem hlt x : InSlots (bucketIdx (baseAt pass)) 19 nums) (by decide)
        hlength hpos hshort
      have hlength' := hsorts.keeps.perm.length_eq
      rw [hpass, Option.bind_eq_bind, Option.bind_some]
      show radixPasses left (wrap (baseAt pass * 10)) r nums = none
      rw [wrap_baseAt hlt]
      exact ih (by omega) (by omega) hlength'.symm (hlength'.symm ▸ hshort)
        (hsorts.keeps.perm.mem_iff.mpr hx)
    · have hout : bucketIdx (baseAt 9) x < 0
          ∨ ((List.replicate 19 0 : List ℤ).length : ℤ) ≤ bucketIdx (baseAt 9) x := by
        by_contra hin
        rw [not_or, not_lt, not_le] at hin
        exact htop ((bucketIdx_nine_mem_iff hint).mp hin)
      unfold countingPass
      rw [reached_of_le hshort, countLoop_eq_none hx hout]
      rfl

/-! ## The number of passes -/

theorem intAbs_of_ne {x : ℤ} (h : IsInt x) (hne : x ≠ -2 ^ 31) : intAbs x = |x| := by
  obtain ⟨hlo, hhi⟩ := h
  refine wrap_of_isInt ⟨?_, abs_lt.mpr ⟨?_, hhi⟩⟩
  · have := abs_nonneg x
    omega
  · omega

/-- **The greatest magnitude**, where that of the least `int` counts only if
there is no other number. -/
def magnitude (nums : List ℤ) : ℕ :=
  if ∀ x ∈ nums, x = -2 ^ 31 then 2 ^ 31
  else ((nums.filter fun x => x ≠ -2 ^ 31).map Int.natAbs).foldr max 0

/-- The number of digits of the greatest magnitude. -/
def width (nums : List ℤ) : ℕ := (Nat.digits 10 (magnitude nums)).length

theorem foldl_widenAbs (l : List ℤ) (range : ℤ × ℤ) :
    l.foldl widenAbs range.2 = (l.foldl (widen intAbs) range).2 := by
  induction l generalizing range with
  | nil => rfl
  | cons x l ih => exact ih (widen intAbs range x)

theorem maxAbs_spec {nums : List ℤ} (h : nums ≠ []) :
    ∃ m, maxAbs nums = some m ∧ IsGreatest (values intAbs nums) m := by
  obtain ⟨least, m, hminMax, -, hmax⟩ := minMax_spec intAbs h
  refine ⟨m, ?_, hmax⟩
  cases nums with
  | nil => exact absurd rfl h
  | cons x rest =>
    rw [minMax, Option.some_inj] at hminMax
    exact congrArg some ((foldl_widenAbs (x :: rest) (intAbs x, intAbs x)).trans
      (congrArg Prod.snd hminMax))

/-- **What the first loop finds** is the greatest magnitude. -/
theorem natAbs_eq_magnitude {nums : List ℤ} {m : ℤ} (hint : ∀ x ∈ nums, IsInt x)
    (h : IsGreatest (values intAbs nums) m) : m.natAbs = magnitude nums := by
  obtain ⟨⟨x, hx, rfl⟩, hmax⟩ := h
  unfold magnitude
  split
  · next hall =>
    rw [hall x hx]
    rfl
  · next hsome =>
    -- there is a number whose magnitude is an `int`
    simp only [not_forall] at hsome
    obtain ⟨y, hy, hne⟩ := hsome
    have hyx : |y| ≤ intAbs x := intAbs_of_ne (hint y hy) hne ▸ hmax ⟨y, hy, rfl⟩
    have hxne : x ≠ -2 ^ 31 := by
      rintro rfl
      exact absurd (hyx.trans (show intAbs (-2 ^ 31) ≤ -1 by decide)) (by
        have := abs_nonneg y
        omega)
    rw [intAbs_of_ne (hint x hx) hxne, Int.natAbs_abs]
    refine le_antisymm (List.le_max_of_le (List.mem_map.mpr ⟨x, ?_, rfl⟩) le_rfl)
      (List.max_le_of_forall_le _ _ fun n hn => ?_)
    · exact List.mem_filter.mpr ⟨hx, decide_eq_true hxne⟩
    · obtain ⟨z, hz, rfl⟩ := List.mem_map.mp hn
      obtain ⟨hmem, hzne⟩ := List.mem_filter.mp hz
      have hzx : intAbs z ≤ intAbs x := hmax ⟨z, hmem, rfl⟩
      rw [intAbs_of_ne (hint z hmem) (of_decide_eq_true hzne), intAbs_of_ne (hint x hx) hxne,
        Int.abs_eq_natAbs, Int.abs_eq_natAbs] at hzx
      omega

/-- **The second loop counts** the digits. -/
theorem widthLoop_spec {rounds w : ℕ} {m : ℤ} (h : (Nat.digits 10 m.natAbs).length < rounds) :
    widthLoop rounds m w = some (w + (Nat.digits 10 m.natAbs).length) := by
  induction rounds generalizing m w with
  | zero => exact absurd h (Nat.not_lt_zero _)
  | succ rounds ih =>
    unfold widthLoop
    split
    · next hne =>
      have hdigits : (Nat.digits 10 m.natAbs).length
          = (Nat.digits 10 (m.tdiv 10).natAbs).length + 1 := by
        rw [Nat.digits_def' (by decide) (Int.natAbs_pos.mpr hne), List.length_cons,
          Int.natAbs_tdiv]
        rfl
      rw [ih (by omega), hdigits]
      exact congrArg some (by omega)
    · next heq =>
      rw [not_not] at heq
      subst heq
      rfl

theorem magnitude_le {nums : List ℤ} (hint : ∀ x ∈ nums, IsInt x) : magnitude nums ≤ 2 ^ 31 := by
  unfold magnitude
  split
  · exact le_rfl
  · refine List.max_le_of_forall_le _ _ fun n hn => ?_
    obtain ⟨z, hz, rfl⟩ := List.mem_map.mp hn
    obtain ⟨hlo, hhi⟩ := hint z (List.mem_filter.mp hz).1
    omega

theorem width_le_ten {nums : List ℤ} (hint : ∀ x ∈ nums, IsInt x) : width nums ≤ 10 :=
  (Nat.digits_length_le_iff (by decide) _).mpr ((magnitude_le hint).trans_lt (by decide))

theorem radixSort_eq {nums : List ℤ} (h : 2 ≤ nums.length) (hint : ∀ x ∈ nums, IsInt x) :
    radixSort nums = radixPasses (width nums) 10 nums (List.replicate nums.length 0) := by
  have hne : nums ≠ [] := List.ne_nil_of_length_pos (by omega)
  obtain ⟨m, hm, hmax⟩ := maxAbs_spec hne
  have hmagnitude := natAbs_eq_magnitude hint hmax
  have hwidth : widthLoop 11 m 0 = some (width nums) := by
    have hdigits : (Nat.digits 10 m.natAbs).length = width nums := by rw [hmagnitude, width]
    rw [widthLoop_spec (by rw [hdigits]; exact Nat.lt_succ_of_le (width_le_ten hint)), hdigits,
      Nat.zero_add]
  unfold radixSort
  rw [if_neg (by omega)]
  simp only [hm, hwidth, Option.bind_eq_bind, Option.bind_some]

/-! ## The order of the ranks

After ten passes the numbers are in the order of their ranks, and where ranks are
equal in that of the vector. Whether this is the order of the numbers is a
question about the numbers that are there: of two that differ, the lesser must
have the lesser rank, or the same and come first. -/

theorem sorts_rank_zero (nums : List ℤ) : Sorts (rank 0) nums nums := by
  have hrank : ∀ x y : ℤ, rank 0 x ≤ rank 0 y := by
    intro x y
    rw [rank_le_iff (Nat.zero_le 9), pow_zero, Int.tmod_one, Int.tmod_one]
  exact ⟨List.pairwise_of_forall hrank, Keeps.refl nums⟩

/-- **`RadixSort` sorts by the rank** of as many passes as the greatest
magnitude has digits, if there are counters for them. -/
theorem radixSort_sorts {nums : List ℤ} (h : 2 ≤ nums.length) (hshort : nums.length ≤ 2 ^ 31)
    (hint : ∀ x ∈ nums, IsInt x)
    (htop : width nums = 10 → ∀ x ∈ nums, HasTopDigit x) :
    ∃ r, radixSort nums = some r ∧ Sorts (rank (width nums)) nums r := by
  rw [radixSort_eq h hint]
  have hpasses : 0 + width nums ≤ 10 := (Nat.zero_add _).trans_le (width_le_ten hint)
  have hspec := radixPasses_sorts hpasses (fun _ => rfl) (sorts_rank_zero nums)
    (show (List.replicate nums.length (0 : ℤ)).length = nums.length from List.length_replicate)
    (by omega) hshort hint (fun heq => htop (by omega))
  rwa [Nat.zero_add] at hspec

/-- The numbers are ranked in their order: of two that differ, the lesser has
the lesser rank, or the same and comes first. -/
def RanksInOrder (passes : ℕ) (nums : List ℤ) : Prop :=
  nums.Pairwise fun x y =>
    (x < y → rank passes x ≤ rank passes y) ∧ (y < x → rank passes y < rank passes x)

/-- **When `RadixSort` sorts** up to `2 ^ 31` numbers: exactly if there are fewer than
two, or a tenth pass has counters for all of them and they are ranked in their
order. -/
theorem radixSort_of_short_iff {nums : List ℤ} (hint : ∀ x ∈ nums, IsInt x)
    (hshort : nums.length ≤ 2 ^ 31) :
    (∃ r, radixSort nums = some r ∧ r.Perm nums ∧ r.Pairwise (· ≤ ·))
      ↔ nums.length < 2 ∨ (width nums = 10 → ∀ x ∈ nums, HasTopDigit x)
        ∧ RanksInOrder (width nums) nums := by
  rcases Nat.lt_or_ge nums.length 2 with hone | hmany
  · exact iff_of_true ⟨nums, if_pos hone, List.Perm.refl nums, pairwise_of_length_lt_two hone⟩
      (Or.inl hone)
  · rw [or_iff_right (by omega)]
    by_cases htop : width nums = 10 → ∀ x ∈ nums, HasTopDigit x
    · obtain ⟨r, hr, hsorts⟩ := radixSort_sorts hmany hshort hint htop
      have hiff : InOrder id r ↔ RanksInOrder (width nums) nums := hsorts.inOrder_iff id
      rw [and_iff_right htop, ← hiff]
      constructor
      · rintro ⟨r', hr', -, hsorted⟩
        rw [hr] at hr'
        exact Option.some_inj.mp hr' ▸ hsorted
      · exact fun hinOrder => ⟨r, hr, hsorts.keeps.perm, hinOrder⟩
    · refine iff_of_false ?_ fun hfits => htop hfits.1
      rintro ⟨r, hr, -⟩
      simp only [not_forall] at htop
      obtain ⟨hten, x, hx, hout⟩ := htop
      rw [radixSort_eq hmany hint, hten] at hr
      have hnone : radixPasses 10 (baseAt 0) nums (List.replicate nums.length 0) = none :=
        radixPasses_eq_none rfl (by decide) List.length_replicate hshort hx (hint x hx) hout
      exact absurd (hr.symm.trans hnone) (by simp)

/-! ## More than `2 ^ 31` numbers

The third loop of a pass begins below zero and copies nothing, so that the second
vector stays as it is, with zeros at first. The two vectors change places after
each pass. After an even number of them the first is the one that was given, and
after an odd number it is the one with zeros. -/

/-- **The passes over two long vectors** make them change places, if there are
counters for the one that a tenth pass counts. -/
theorem radixPasses_of_long {left pass : ℕ} (hpasses : pass + left ≤ 10) {base : ℤ}
    (hbase : 0 < left → base = baseAt pass) {a b : List ℤ} (hlength : b.length = a.length)
    (hlong : 2 ^ 31 < a.length) (hshort : a.length ≤ 2 ^ 32) (hint : ∀ x ∈ a, IsInt x)
    (hint' : ∀ x ∈ b, IsInt x)
    (htop : pass + left = 10 → ∀ x ∈ if Even left then b else a, HasTopDigit x) :
    radixPasses left base a b = some (if Even left then a else b) := by
  induction left generalizing pass base a b with
  | zero => exact congrArg some (if_pos Even.zero).symm
  | succ left ih =>
    have hin : InSlots (bucketIdx (baseAt pass)) 19 a := by
      intro x hx
      rcases Nat.lt_succ_iff_lt_or_eq.mp (show pass < 9 + 1 by omega) with hlt | rfl
      · exact bucketIdx_mem hlt x
      · obtain rfl : left = 0 := by omega
        refine (bucketIdx_nine_mem_iff (hint x hx)).mpr (htop rfl x ?_)
        rwa [if_neg (by decide)]
    have hswap : ∀ l r : List ℤ, (if Even (left + 1) then l else r)
        = if Even left then r else l := by
      intro l r
      by_cases heven : Even left
      · rw [if_pos heven, if_neg (Nat.even_add_one.not_left.mpr heven)]
      · rw [if_neg heven, if_pos (Nat.even_add_one.mpr heven)]
    rw [hswap] at htop
    unfold radixPasses
    rw [hbase (Nat.succ_pos left), countingPass_of_long hin (by decide) hlong hshort,
      Option.bind_eq_bind, Option.bind_some, hswap]
    exact ih (show pass + 1 + left ≤ 10 by omega)
      (fun hpos => wrap_baseAt (show pass < 9 by omega)) hlength.symm (hlength ▸ hlong)
      (hlength ▸ hshort) hint' hint (fun heq => htop (by omega))

/-- Zeros have no digits. -/
theorem width_of_zero {nums : List ℤ} (hne : nums ≠ []) (h : ∀ x ∈ nums, x = 0) :
    width nums = 0 := by
  have hmagnitude : magnitude nums = 0 := by
    obtain ⟨x, hx⟩ := List.exists_mem_of_ne_nil nums hne
    unfold magnitude
    rw [if_neg fun hall => absurd ((h x hx).symm.trans (hall x hx)) (by decide)]
    refine Nat.le_zero.mp (List.max_le_of_forall_le _ _ fun n hn => ?_)
    obtain ⟨z, hz, rfl⟩ := List.mem_map.mp hn
    rw [h z (List.mem_filter.mp hz).1]
    rfl
  unfold width
  rw [hmagnitude, Nat.digits_zero]
  rfl

/-- **When `RadixSort` sorts** more than `2 ^ 31` numbers: exactly if they are in order
already and the number of passes is even. -/
theorem radixSort_of_long_iff {nums : List ℤ} (hint : ∀ x ∈ nums, IsInt x)
    (hlong : 2 ^ 31 < nums.length) (hshort : nums.length ≤ 2 ^ 32) :
    (∃ r, radixSort nums = some r ∧ r.Perm nums ∧ r.Pairwise (· ≤ ·))
      ↔ Even (width nums) ∧ nums.Pairwise (· ≤ ·) := by
  have hzero : ∀ x ∈ List.replicate nums.length (0 : ℤ), x = 0 :=
    fun x hx => List.eq_of_mem_replicate hx
  have hr : radixSort nums
      = some (if Even (width nums) then nums else List.replicate nums.length 0) := by
    rw [radixSort_eq (by omega) hint]
    refine radixPasses_of_long ((Nat.zero_add _).trans_le (width_le_ten hint)) (fun _ => rfl)
      List.length_replicate hlong hshort hint (fun x hx => ?_) (fun hten x hx => ?_)
    · rw [hzero x hx]
      decide
    · rw [Nat.zero_add] at hten
      rw [hten, if_pos (by decide)] at hx
      rw [hzero x hx]
      exact Or.inl (by decide)
  rw [hr]
  by_cases heven : Even (width nums)
  · rw [if_pos heven, and_iff_right heven]
    constructor
    · rintro ⟨r, hr, -, hsorted⟩
      exact Option.some_inj.mp hr ▸ hsorted
    · exact fun hsorted => ⟨nums, rfl, List.Perm.refl nums, hsorted⟩
  · rw [if_neg heven]
    refine iff_of_false ?_ fun h => heven h.1
    rintro ⟨r, hr, hperm, -⟩
    obtain rfl := Option.some_inj.mp hr
    have hwidth := width_of_zero (List.ne_nil_of_length_pos (show 0 < nums.length by omega))
      fun x hx => hzero x (hperm.mem_iff.mpr hx)
    exact heven (hwidth ▸ Even.zero)

/-- **When `RadixSort` sorts**: up to `2 ^ 31` numbers exactly if there are fewer than
two, or a tenth pass has counters for all of them and they are ranked in their
order; and more, up to `2 ^ 32`, exactly if they are in order already and the number
of passes is even. -/
theorem radixSort_sorts_iff {nums : List ℤ} (hint : ∀ x ∈ nums, IsInt x) :
    (nums.length ≤ 2 ^ 31 →
      ((∃ r, radixSort nums = some r ∧ r.Perm nums ∧ r.Pairwise (· ≤ ·))
        ↔ nums.length < 2 ∨ (width nums = 10 → ∀ x ∈ nums, HasTopDigit x)
          ∧ RanksInOrder (width nums) nums))
    ∧ (2 ^ 31 < nums.length → nums.length ≤ 2 ^ 32 →
      ((∃ r, radixSort nums = some r ∧ r.Perm nums ∧ r.Pairwise (· ≤ ·))
        ↔ Even (width nums) ∧ nums.Pairwise (· ≤ ·))) :=
  ⟨radixSort_of_short_iff hint, radixSort_of_long_iff hint⟩

/-- Numbers of both signs. -/
theorem radixSort_sorts_iff_three :
    (∃ r, radixSort [5, -17, 0] = some r ∧ r.Perm [5, -17, 0] ∧ r.Pairwise (· ≤ ·))
      ↔ [(5 : ℤ), -17, 0].length < 2
        ∨ (width [5, -17, 0] = 10 → ∀ x ∈ [(5 : ℤ), -17, 0], HasTopDigit x)
          ∧ RanksInOrder (width [5, -17, 0]) [5, -17, 0] :=
  (radixSort_sorts_iff (show ∀ x ∈ [(5 : ℤ), -17, 0], IsInt x by decide)).1 (by decide)

/-- Two numbers of ten digits that the tenth pass has in the wrong order. -/
theorem radixSort_ten_digits :
    ¬ ∃ r, radixSort [2147483647, 1000000000] = some r ∧ r.Perm [2147483647, 1000000000]
      ∧ r.Pairwise (· ≤ ·) := by
  rintro ⟨r, hr, -, hsorted⟩
  have hcomputed : radixSort [2147483647, 1000000000] = some [2147483647, 1000000000] := by
    decide +kernel
  rw [hcomputed] at hr
  obtain rfl := Option.some_inj.mp hr
  exact absurd hsorted (by decide)

/-- **Numbers of at most nine digits are sorted.** -/
theorem radixSort_sorts_of_lt {nums : List ℤ} (h : ∀ x ∈ nums, x.natAbs < 10 ^ 9)
    (hshort : nums.length ≤ 2 ^ 31) :
    ∃ r, radixSort nums = some r ∧ r.Perm nums ∧ r.Pairwise (· ≤ ·) := by
  rcases Nat.lt_or_ge nums.length 2 with hone | hmany
  · exact ⟨nums, if_pos hone, List.Perm.refl nums, pairwise_of_length_lt_two hone⟩
  · have hint : ∀ x ∈ nums, IsInt x := by
      intro x hx
      have hlt := h x hx
      exact ⟨by omega, by omega⟩
    have hne : ∀ x ∈ nums, x ≠ -2 ^ 31 := by
      rintro x hx rfl
      exact absurd (h _ hx) (by decide)
    have hmagnitude : magnitude nums
        = ((nums.filter fun x => x ≠ -2 ^ 31).map Int.natAbs).foldr max 0 := by
      refine if_neg fun hall => ?_
      have hmem : nums[0] ∈ nums := List.getElem_mem (by omega)
      exact hne _ hmem (hall _ hmem)
    have hle : ∀ x ∈ nums, x.natAbs ≤ magnitude nums := by
      intro x hx
      rw [hmagnitude]
      exact List.le_max_of_le (List.mem_map.mpr
        ⟨x, List.mem_filter.mpr ⟨hx, decide_eq_true (hne x hx)⟩, rfl⟩) le_rfl
    have hwidth : width nums ≤ 9 := by
      refine (Nat.digits_length_le_iff (by decide) _).mpr ?_
      rw [hmagnitude]
      refine Nat.lt_of_le_pred (by decide) (List.max_le_of_forall_le _ _ fun n hn => ?_)
      obtain ⟨z, hz, rfl⟩ := List.mem_map.mp hn
      exact Nat.le_pred_of_lt (h z (List.mem_filter.mp hz).1)
    obtain ⟨r, hr, hsorts⟩ := radixSort_sorts hmany hshort hint (fun hten => by omega)
    -- no digit is left out
    have hmod : ∀ z ∈ nums, z.tmod (10 ^ width nums) = z := by
      intro z hz
      have hlt : z.natAbs < 10 ^ width nums :=
        (hle z hz).trans_lt (Nat.lt_base_pow_length_digits (by decide))
      have hzero : z.tdiv (10 ^ width nums) = 0 := by
        rw [← Int.natAbs_eq_zero, Int.natAbs_tdiv, Int.natAbs_pow]
        exact Nat.div_eq_of_lt hlt
      have hdiv := Int.mul_tdiv_add_tmod z (10 ^ width nums)
      rwa [hzero, mul_zero, zero_add] at hdiv
    have hsorted : Sorts id nums r := by
      refine hsorts.congr_key fun x hx y hy => ?_
      rw [rank_le_iff hwidth, hmod x hx, hmod y hy]
      rfl
    exact ⟨r, hr, hsorts.keeps.perm, hsorted.inOrder⟩

end Sorting
