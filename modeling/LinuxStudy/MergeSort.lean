import Mathlib.Algebra.Group.Nat.Defs
import LinuxStudy.InPlace
import LinuxStudy.IntArith
import LinuxStudy.StableSort

/-!
# Merge sort

`MergeSort` divides the vector in the middle, sorts both halves and merges
them; `MergeSort2` merges runs of one record to runs of two, of two to runs of
four and so on, where the last run may be shorter. Both merge by way of a
second vector, with the same loops: the two runs are copied to it, and then
written back in order, with a tie in favour of the first.

A merge in place is `List.merge` of the runs (`mergeParts_spec`), so from the
stable sorts of two parts it makes the stable sort of both. For `MergeSort` that
is the induction on the parts. For `MergeSort2` the invariant is that the vector
is a row of runs, each the stable sort of what was there (`SortedRuns`); a round makes
of it a row of runs twice as long.

The vectors are of records, which are compared by their keys. The indices are
of type `int`, and a sum that is none is undefined (`int`).
-/

namespace Sorting

open InPlace IntArith StableSort

variable {α κ : Type} [LinearOrder κ] {key : α → κ}

/-- A loop that copies from an index of one vector to an index of another, for
so many elements. -/
def copyTo (src : List α) : ℕ → ℕ → ℕ → List α → Option (List α)
  | 0, _, _, dst => some dst
  | left + 1, i, k, dst => do
    let x ← src[i]?
    let dst ← put dst k x
    copyTo src left (i + 1) (k + 1) dst

/-- The loop that merges, in at most so many rounds, and the two that copy what
is left of either run. -/
def mergeLoop (key : α → κ) (tmpArr : List α) (mi hi : ℕ) :
    ℕ → ℕ → ℕ → ℕ → List α → Option (List α)
  | 0, _, _, _, _ => none
  | rounds + 1, i, j, k, nums =>
    if i < mi ∧ j < hi then do
      let x ← tmpArr[i]?
      let y ← tmpArr[j]?
      if key x ≤ key y then
        let nums ← put nums k x
        mergeLoop key tmpArr mi hi rounds (i + 1) j (k + 1) nums
      else
        let nums ← put nums k y
        mergeLoop key tmpArr mi hi rounds i (j + 1) (k + 1) nums
    else do
      let nums ← copyTo tmpArr (mi - i) i k nums
      copyTo tmpArr (hi - j) j (k + (mi - i)) nums

/-- The merge of the part from `lo` to `mi` with that from `mi` to `hi`: the
vector, and `tmpArr`. -/
def mergeParts (key : α → κ) (v : List α × List α) (lo mi hi : ℕ) :
    Option (List α × List α) := do
  let tmpArr ← copyTo v.1 (hi - lo) lo lo v.2
  let nums ← mergeLoop key tmpArr mi hi (hi - lo + 1) lo mi lo v.1
  return (nums, tmpArr)

/-- `MergeSort` of a part, to at most a depth. -/
def mergeSortPart (key : α → κ) : ℕ → List α × List α → ℕ → ℕ → Option (List α × List α)
  | 0, _, _, _ => none
  | depth + 1, v, lo, hi => do
    let next ← int (lo + 1)
    if hi ≤ next then return v
    else
      let sum ← int (lo + hi)
      let mi := sum >>> 1
      let v ← mergeSortPart key depth v lo mi
      let v ← mergeSortPart key depth v mi hi
      mergeParts key v lo mi hi

/-- **`MergeSort`.** -/
def mergeSort (key : α → κ) (nums : List α) : Option (List α) :=
  if nums.length < 2 then some nums
  else do
    let len ← int nums.length
    let v ← mergeSortPart key (nums.length + 1) (nums, nums) 0 len
    return v.1

/-- The inner loop of `MergeSort2`, in at most so many rounds. -/
def mergeRound (key : α → κ) (len gap : ℕ) : ℕ → ℕ → List α × List α → Option (List α × List α)
  | 0, _, _ => none
  | rounds + 1, lo, v =>
    if lo < len - gap then do
      let gap2 ← int (2 * gap)
      let next ← int (lo + gap2)
      let v ← mergeParts key v lo (lo + gap) (min next len)
      mergeRound key len gap rounds next v
    else some v

/-- The outer loop of `MergeSort2`, in at most so many rounds. -/
def mergeRounds (key : α → κ) (len : ℕ) : ℕ → ℕ → List α × List α → Option (List α × List α)
  | 0, _, _ => none
  | rounds + 1, gap, v =>
    if gap < len then do
      let v ← mergeRound key len gap (len + 1) 0 v
      let gap ← int (gap * 2)
      mergeRounds key len rounds gap v
    else some v

/-- **`MergeSort2`.** -/
def mergeSort2 (key : α → κ) (nums : List α) : Option (List α) :=
  if nums.length < 2 then some nums
  else do
    let len ← int nums.length
    let v ← mergeRounds key len (nums.length + 1) 1 (nums, nums)
    return v.1

/-! ## Merging two parts

A merge reads both parts from a copy and writes from the beginning of the first.
What is written is never ahead of what has been read, and the copy is not written
to, so nothing is lost. When one part is used up, the rest of the other is copied.
The result is the merge of two lists that takes from the first where the keys are
equal, which is the one the stable sort of a list put together of two is made
with. -/

/-- **A copy** of a part to a part. -/
theorem copyTo_spec (src : List α) {left i k : ℕ} {dst : List α} (hsrc : i + left ≤ src.length)
    (hdst : k + left ≤ dst.length) :
    copyTo src left i k dst
      = some (dst.take k ++ (part src i (i + left) ++ dst.drop (k + left))) := by
  induction left generalizing i k dst with
  | zero =>
    rw [Nat.add_zero, Nat.add_zero, part_eq_nil (Nat.le_refl i), List.nil_append,
      List.take_append_drop]
    rfl
  | succ left ih =>
    have hx : src[i]? = some src[i] := List.getElem?_eq_getElem (by omega)
    unfold copyTo
    simp only [hx, put_of_lt (show k < dst.length by omega), Option.bind_eq_bind,
      Option.bind_some]
    rw [ih (by omega) (by rw [List.length_set]; omega), part_eq_cons (by omega) hx,
      take_succ_set (by omega), List.drop_set_of_lt (by omega)]
    rw [show i + (left + 1) = i + 1 + left by omega, show k + (left + 1) = k + 1 + left by omega]
    simp

/-- **The loops of a merge** write the merge of the two parts. -/
theorem mergeLoop_spec (tmpArr : List α) {mi hi rounds i j k : ℕ} {nums : List α}
    (hi' : i ≤ mi) (hj : j ≤ hi) (hmi : mi ≤ tmpArr.length) (hhi : hi ≤ tmpArr.length)
    (hnums : k + (mi - i) + (hi - j) ≤ nums.length) (hrounds : mi - i + (hi - j) < rounds) :
    mergeLoop key tmpArr mi hi rounds i j k nums
      = some (nums.take k
        ++ ((part tmpArr i mi).merge (part tmpArr j hi) (fun a b => key a ≤ key b)
          ++ nums.drop (k + (mi - i) + (hi - j)))) := by
  induction rounds generalizing i j k nums with
  | zero => exact absurd hrounds (Nat.not_lt_zero _)
  | succ rounds ih =>
    unfold mergeLoop
    split
    · next hboth =>
      have hx : tmpArr[i]? = some tmpArr[i] := List.getElem?_eq_getElem (by omega)
      have hy : tmpArr[j]? = some tmpArr[j] := List.getElem?_eq_getElem (by omega)
      have hput : ∀ x, put nums k x = some (nums.set k x) := put_of_lt (by omega)
      simp only [hx, hy, hput, Option.bind_eq_bind, Option.bind_some]
      rw [part_eq_cons hboth.1 hx, part_eq_cons hboth.2 hy, List.cons_merge_cons]
      split
      · next hle =>
        rw [ih (by omega) hj (by rw [List.length_set]; omega) (by omega),
          if_pos (decide_eq_true hle), take_succ_set (by omega), List.drop_set_of_lt (by omega),
          part_eq_cons hboth.2 hy]
        rw [show k + 1 + (mi - (i + 1)) + (hi - j) = k + (mi - i) + (hi - j) by omega]
        simp
      · next hgt =>
        rw [ih hi' (by omega) (by rw [List.length_set]; omega) (by omega),
          if_neg (fun h => hgt (of_decide_eq_true h)), take_succ_set (by omega),
          List.drop_set_of_lt (by omega), part_eq_cons hboth.1 hx]
        rw [show k + 1 + (mi - i) + (hi - (j + 1)) = k + (mi - i) + (hi - j) by omega]
        simp
    · next hone =>
      -- one of the two parts is done
      have hmerge : (part tmpArr i mi).merge (part tmpArr j hi) (fun a b => key a ≤ key b)
          = part tmpArr i mi ++ part tmpArr j hi := by
        rcases not_and_or.mp hone with hdone | hdone
        · rw [part_eq_nil (Nat.not_lt.mp hdone), List.nil_merge, List.nil_append]
        · rw [part_eq_nil (Nat.not_lt.mp hdone), List.merge_right, List.append_nil]
      have hfirst : (nums.take k).length = k := List.length_take_of_le (by omega)
      have hsecond : (nums.take k ++ part tmpArr i mi).length = k + (mi - i) := by
        rw [List.length_append, hfirst, length_part hmi]
      have hcopy : copyTo tmpArr (mi - i) i k nums = _ :=
        copyTo_spec tmpArr (by omega) (by omega)
      rw [Nat.add_sub_cancel' hi', ← List.append_assoc] at hcopy
      rw [hcopy, Option.bind_eq_bind, Option.bind_some, hmerge, copyTo_spec tmpArr (by omega),
        List.take_left' hsecond, Nat.add_sub_cancel' hj, ← hsecond, List.drop_length_add_append,
        hsecond, List.drop_drop]
      · simp
      · rw [List.length_append, hsecond, List.length_drop]
        omega

/-- The copy of two parts that follow each other stands where they do. -/
theorem backUp_spec (p x y q tmpArr : List α)
    (htmp : tmpArr.length = (p ++ (x ++ (y ++ q))).length) :
    ∃ start rest, copyTo (p ++ (x ++ (y ++ q))) (p.length + x.length + y.length - p.length)
        p.length p.length tmpArr = some (start ++ (x ++ (y ++ rest)))
      ∧ start.length = p.length ∧ rest.length = q.length := by
  have hhi : p.length + x.length + y.length = p.length + (x ++ y).length := by
    rw [List.length_append, Nat.add_assoc]
  have hlength : (p ++ (x ++ (y ++ q))).length = p.length + x.length + y.length + q.length := by
    simp only [List.length_append]
    omega
  have hcopy : copyTo (p ++ (x ++ (y ++ q))) (p.length + x.length + y.length - p.length) p.length
      p.length tmpArr = _ := copyTo_spec _ (by omega) (by omega)
  have hall : part (p ++ (x ++ (y ++ q))) p.length (p.length + x.length + y.length) = x ++ y := by
    rw [hhi, ← List.append_assoc x]
    exact part_append_append p (x ++ y) q
  rw [show p.length + (p.length + x.length + y.length - p.length)
      = p.length + x.length + y.length by omega, hall, List.append_assoc] at hcopy
  refine ⟨_, _, hcopy, List.length_take_of_le (by omega), ?_⟩
  rw [List.length_drop]
  omega

/-- **A merge of two parts** that follow each other: between what is before and
what is after them stands the merge. -/
theorem mergeParts_spec (key : α → κ) (p x y q tmpArr : List α)
    (htmp : tmpArr.length = (p ++ (x ++ (y ++ q))).length) :
    ∃ tmpArr', mergeParts key (p ++ (x ++ (y ++ q)), tmpArr) p.length (p.length + x.length)
        (p.length + x.length + y.length)
        = some (p ++ (x.merge y (fun a b => key a ≤ key b) ++ q), tmpArr')
      ∧ tmpArr'.length = tmpArr.length := by
  obtain ⟨start, rest, hcopy, hstart, hrest⟩ := backUp_spec p x y q tmpArr htmp
  have hlength : (start ++ (x ++ (y ++ rest))).length = tmpArr.length := by
    simp only [htmp, List.length_append, hstart, hrest]
  have hlength' : tmpArr.length = p.length + x.length + y.length + q.length := by
    simp only [htmp, List.length_append]
    omega
  have hx : part (start ++ (x ++ (y ++ rest))) p.length (p.length + x.length) = x := by
    rw [← hstart]
    exact part_append_append start x (y ++ rest)
  have hy : part (start ++ (x ++ (y ++ rest))) (p.length + x.length)
      (p.length + x.length + y.length) = y := by
    rw [← hstart, ← List.append_assoc, ← List.length_append]
    exact part_append_append (start ++ x) y rest
  have hafter : (p ++ (x ++ (y ++ q))).drop (p.length + x.length + y.length) = q := by
    rw [← List.append_assoc x, ← List.append_assoc p, Nat.add_assoc, ← List.length_append,
      ← List.length_append, List.drop_left]
  unfold mergeParts
  simp only [hcopy, Option.bind_eq_bind, Option.bind_some]
  rw [mergeLoop_spec _ (by omega) (by omega) (by omega) (by omega) (by rw [← htmp]; omega)
    (by omega), hx, hy, List.take_left,
    show p.length + (p.length + x.length - p.length)
      + (p.length + x.length + y.length - (p.length + x.length))
      = p.length + x.length + y.length by omega, hafter]
  exact ⟨_, rfl, hlength⟩

/-! ## From the top down -/

/-- **`MergeSort` of a part** leaves the stable sort of it, with what is before
and after it. -/
theorem mergeSortPart_spec (key : α → κ) {depth : ℕ} (p x q : List α) {tmpArr : List α}
    (hdepth : x.length < depth) (hlength : (p ++ (x ++ q)).length < 2 ^ 30)
    (htmp : tmpArr.length = (p ++ (x ++ q)).length) :
    ∃ r tmpArr', mergeSortPart key depth (p ++ (x ++ q), tmpArr) p.length (p.length + x.length)
        = some (p ++ (r ++ q), tmpArr')
      ∧ Sorts key x r ∧ tmpArr'.length = tmpArr.length := by
  induction depth generalizing p x q tmpArr with
  | zero => exact absurd hdepth (Nat.not_lt_zero _)
  | succ depth ih =>
    have hsum : p.length + x.length < 2 ^ 30 := by
      simp only [List.length_append] at hlength
      omega
    unfold mergeSortPart
    rw [int_of_lt (by omega), Option.bind_eq_bind, Option.bind_some]
    split
    · next hshort => exact ⟨x, tmpArr, rfl, Sorts.of_length_le_one (by omega), rfl⟩
    · next hlong =>
      -- the two halves
      obtain ⟨x₁, x₂, rfl, hhalf⟩ : ∃ x₁ x₂, x = x₁ ++ x₂ ∧ x₁.length = x.length / 2 :=
        ⟨x.take (x.length / 2), x.drop (x.length / 2), (List.take_append_drop _ x).symm,
          List.length_take_of_le (by omega)⟩
      rw [List.length_append] at hsum hdepth hhalf hlong
      have hmi : (p.length + (p.length + (x₁ ++ x₂).length)) >>> 1 = p.length + x₁.length := by
        rw [Nat.shiftRight_eq_div_pow, Nat.pow_one, List.length_append]
        omega
      rw [int_of_lt (by rw [List.length_append]; omega), Option.bind_some, hmi]
      dsimp only
      rw [List.append_assoc x₁] at hlength htmp ⊢
      obtain ⟨r₁, tmp₁, hcall₁, hsorts₁, htmp₁⟩ := ih p x₁ (x₂ ++ q) (by omega) hlength htmp
      have hlength₁ := hsorts₁.keeps.perm.length_eq
      have hsame : (p ++ r₁ ++ (x₂ ++ q)).length = (p ++ (x₁ ++ (x₂ ++ q))).length := by
        simp only [List.length_append, hlength₁]
        omega
      obtain ⟨r₂, tmp₂, hcall₂, hsorts₂, htmp₂⟩ :=
        ih (p ++ r₁) x₂ q (by omega) (by omega) (htmp₁.trans (htmp.trans hsame.symm))
      have hlength₂ := hsorts₂.keeps.perm.length_eq
      rw [List.append_assoc, List.append_assoc, List.length_append, hlength₁] at hcall₂
      obtain ⟨tmp₃, hmerge, htmp₃⟩ := mergeParts_spec key p r₁ r₂ q tmp₂ (by
        simp only [List.length_append] at htmp htmp₁ htmp₂ ⊢
        omega)
      rw [hlength₁, hlength₂] at hmerge
      rw [List.length_append, ← Nat.add_assoc]
      simp only [hcall₁, hcall₂, hmerge, Option.bind_eq_bind, Option.bind_some]
      exact ⟨_, tmp₃, rfl, hsorts₁.merge hsorts₂, by omega⟩

/-- **`MergeSort` sorts stably.** -/
theorem mergeSort_sorts (key : α → κ) {nums : List α} (h : nums.length < 2 ^ 30) :
    ∃ r, mergeSort key nums = some r ∧ Sorts key nums r := by
  unfold mergeSort
  split
  · exact ⟨nums, rfl, Sorts.of_length_le_one (by omega)⟩
  · have hlength : ([] ++ (nums ++ [])).length = nums.length := by simp
    obtain ⟨r, tmpArr, hcall, hsorts, -⟩ := mergeSortPart_spec key [] nums []
      (Nat.lt_succ_self nums.length) (by rwa [hlength]) hlength.symm
    rw [List.nil_append, List.nil_append, List.append_nil, List.append_nil, List.length_nil,
      Nat.zero_add] at hcall
    rw [int_of_lt (by omega), Option.bind_eq_bind, Option.bind_some, hcall]
    exact ⟨r, rfl, hsorts⟩

/-! ## From the bottom up

The vector is a row of runs, each the stable sort of what stood at its place at
first. A round merges the first with the second, the third with the fourth and so
on; a run that is left over without a partner stays. The lengths double, but for
the last run, which is as long as it is. When a run is as long as the vector the
row has one run. -/

/-- **A row of runs**: each is the stable sort of what was there, of the length
that is given; the last may be shorter. -/
inductive SortedRuns (key : α → κ) (gap : ℕ) : List α → List α → Prop
  | last {l r : List α} (hlength : l.length ≤ gap) (h : Sorts key l r) : SortedRuns key gap l r
  | cons {x y l r : List α} (hlength : x.length = gap) (h : Sorts key x y)
      (hrest : SortedRuns key gap l r) : SortedRuns key gap (x ++ l) (y ++ r)

theorem SortedRuns.length_eq {gap : ℕ} {l r : List α} (h : SortedRuns key gap l r) :
    r.length = l.length := by
  induction h with
  | last _ h => exact h.keeps.perm.length_eq
  | cons _ h _ ih => rw [List.length_append, List.length_append, h.keeps.perm.length_eq, ih]

theorem sortedRuns_one (key : α → κ) (l : List α) : SortedRuns key 1 l l := by
  induction l with
  | nil => exact .last (Nat.zero_le 1) Sorts.nil
  | cons a l ih =>
    have hone : Sorts key [a] [a] := Sorts.of_length_le_one (Nat.le_refl 1)
    exact .cons (x := [a]) rfl hone ih

/-- A row of one run is sorted. -/
theorem SortedRuns.sorts {gap : ℕ} {l r : List α} (h : SortedRuns key gap l r)
    (hlength : l.length ≤ gap) : Sorts key l r := by
  cases h with
  | last _ h => exact h
  | cons hx h hrest =>
    rename_i x y l r
    rw [List.length_append] at hlength
    obtain rfl : l = [] := List.length_eq_zero_iff.mp (by omega)
    obtain rfl : r = [] := List.length_eq_zero_iff.mp hrest.length_eq
    rwa [List.append_nil, List.append_nil]

/-- The first two of more than one run; the second may be the last and
shorter. -/
theorem SortedRuns.exists_two {gap : ℕ} {l r : List α} (h : SortedRuns key gap l r)
    (hlength : gap < l.length) :
    ∃ x₁ y₁ x₂ y₂ l' r', l = x₁ ++ (x₂ ++ l') ∧ r = y₁ ++ (y₂ ++ r') ∧ x₁.length = gap
      ∧ Sorts key x₁ y₁ ∧ Sorts key x₂ y₂ ∧ SortedRuns key gap l' r'
      ∧ (x₂.length = gap ∨ x₂.length < gap ∧ l' = [] ∧ r' = []) := by
  cases h with
  | last hle _ => exact absurd hlength (Nat.not_lt.mpr hle)
  | cons hx h hrest =>
    rename_i x₁ y₁ l r
    cases hrest with
    | last hle hlast =>
      refine ⟨x₁, y₁, l, r, [], [], by simp, by simp, hx, h, hlast, .last (Nat.zero_le _) Sorts.nil,
        ?_⟩
      rcases Nat.lt_or_eq_of_le hle with hlt | heq
      · exact Or.inr ⟨hlt, rfl, rfl⟩
      · exact Or.inl heq
    | cons hx₂ h₂ hrest =>
      rename_i x₂ y₂ l' r'
      exact ⟨x₁, y₁, x₂, y₂, l', r', rfl, rfl, hx, h, h₂, hrest, Or.inl hx₂⟩

theorem mergeRound_succ {gap rounds len lo : ℕ} {v v' : List α × List α} (hmore : lo < len - gap)
    (hint : lo + 2 * gap < 2 ^ 31)
    (hmerge : mergeParts key v lo (lo + gap) (min (lo + 2 * gap) len) = some v') :
    mergeRound key len gap (rounds + 1) lo v = mergeRound key len gap rounds (lo + 2 * gap) v' := by
  rw [mergeRound, if_pos hmore]
  simp only [int_of_lt (show 2 * gap < 2 ^ 31 by omega), int_of_lt hint, hmerge,
    Option.bind_eq_bind, Option.bind_some]

theorem mergeRound_stop {gap rounds len lo : ℕ} {v : List α × List α} (hstop : ¬ lo < len - gap) :
    mergeRound key len gap (rounds + 1) lo v = some v := by
  rw [mergeRound, if_neg hstop]

/-- **A round** of merges, from an index on: of a row of runs it makes one of
runs twice as long. -/
theorem mergeRound_spec {gap rounds len : ℕ} (hgap : 0 < gap) (hlen : gap < len)
    (hlen' : len < 2 ^ 30) {l r : List α} (hruns : SortedRuns key gap l r) (done : List α)
    {tmpArr : List α} (hlength : done.length + r.length = len) (htmp : tmpArr.length = len)
    (hrounds : r.length < rounds) :
    ∃ r' tmpArr', mergeRound key len gap rounds done.length (done ++ r, tmpArr)
        = some (done ++ r', tmpArr')
      ∧ SortedRuns key (gap * 2) l r' ∧ tmpArr'.length = len := by
  induction rounds generalizing l r done tmpArr with
  | zero => exact absurd hrounds (Nat.not_lt_zero _)
  | succ rounds ih =>
    have hlength' := hruns.length_eq
    by_cases hmore : done.length < len - gap
    · obtain ⟨x₁, y₁, x₂, y₂, l', r', rfl, rfl, hx₁, hsorts₁, hsorts₂, hrest, hlast⟩ :=
        hruns.exists_two (by omega)
      have hy₁ := hsorts₁.keeps.perm.length_eq
      have hy₂ := hsorts₂.keeps.perm.length_eq
      have hmerged := hsorts₁.merge hsorts₂
      have hm := hmerged.keeps.perm.length_eq
      simp only [List.length_append] at hlength hrounds hm
      obtain ⟨tmp₁, hmerge, htmp₁⟩ := mergeParts_spec key done y₁ y₂ r' tmpArr (by
        simp only [List.length_append]
        omega)
      have hhi : min (done.length + 2 * gap) len = done.length + y₁.length + y₂.length := by
        rcases hlast with hfull | ⟨hshort, rfl, rfl⟩
        · omega
        · rw [List.length_nil] at hlength
          omega
      rw [← hhi, hy₁, hx₁] at hmerge
      rw [mergeRound_succ hmore (by omega) hmerge]
      rcases hlast with hfull | ⟨hshort, rfl, rfl⟩
      · -- the round goes on behind the two runs
        have hnext : done.length + 2 * gap
            = (done ++ y₁.merge y₂ (fun a b => key a ≤ key b)).length := by
          rw [List.length_append]
          omega
        obtain ⟨r'', tmp₂, hround, hruns', htmp₂⟩ := ih hrest
          (done ++ y₁.merge y₂ (fun a b => key a ≤ key b)) (by omega) (htmp₁.trans htmp) (by omega)
        rw [← hnext, List.append_assoc, List.append_assoc] at hround
        refine ⟨_, tmp₂, hround, ?_, htmp₂⟩
        rw [← List.append_assoc]
        exact .cons (by rw [List.length_append]; omega) hmerged hruns'
      · -- they were the last
        rw [List.length_nil] at hrounds hlength
        obtain ⟨left, rfl⟩ : ∃ left, rounds = left + 1 := ⟨rounds - 1, by omega⟩
        rw [mergeRound_stop (by omega)]
        refine ⟨_, tmp₁, rfl, .last ?_ ?_, htmp₁.trans htmp⟩
        · simp only [List.length_append, List.length_nil]
          omega
        · rwa [List.append_nil, List.append_nil]
    · rw [mergeRound_stop hmore]
      exact ⟨r, tmpArr, rfl, .last (by omega) (hruns.sorts (by omega)), htmp⟩

/-- **The rounds** make one run of the whole vector. -/
theorem mergeRounds_spec {gap rounds len : ℕ} (hgap : 0 < gap) (hlen : len < 2 ^ 30)
    {l r tmpArr : List α} (hruns : SortedRuns key gap l r) (hlength : l.length = len)
    (htmp : tmpArr.length = len) (hrounds : len - gap < rounds) :
    ∃ r' tmpArr', mergeRounds key len rounds gap (r, tmpArr) = some (r', tmpArr')
      ∧ Sorts key l r' := by
  induction rounds generalizing gap r tmpArr with
  | zero => exact absurd hrounds (Nat.not_lt_zero _)
  | succ rounds ih =>
    unfold mergeRounds
    split
    · next hless =>
      have hlength' := hruns.length_eq
      obtain ⟨r₁, tmp₁, hround, hruns₁, htmp₁⟩ :=
        mergeRound_spec hgap hless hlen hruns [] (by rw [List.length_nil]; omega) htmp
          (show r.length < len + 1 by omega)
      rw [List.length_nil, List.nil_append, List.nil_append] at hround
      obtain ⟨r', tmp', hrest, hsorts⟩ := ih (by omega) hruns₁ htmp₁ (by omega)
      simp only [hround, int_of_lt (show gap * 2 < 2 ^ 31 by omega), hrest, Option.bind_eq_bind,
        Option.bind_some]
      exact ⟨r', tmp', rfl, hsorts⟩
    · next hdone => exact ⟨r, tmpArr, rfl, hruns.sorts (by omega)⟩

/-- **`MergeSort2` sorts stably.** -/
theorem mergeSort2_sorts (key : α → κ) {nums : List α} (h : nums.length < 2 ^ 30) :
    ∃ r, mergeSort2 key nums = some r ∧ Sorts key nums r := by
  unfold mergeSort2
  split
  · exact ⟨nums, rfl, Sorts.of_length_le_one (by omega)⟩
  · obtain ⟨r, tmpArr, hrounds, hsorts⟩ := mergeRounds_spec Nat.one_pos h
      (sortedRuns_one key nums) rfl rfl (show nums.length - 1 < nums.length + 1 by omega)
    rw [int_of_lt (by omega), Option.bind_eq_bind, Option.bind_some, hrounds]
    exact ⟨r, rfl, hsorts⟩

/-- **The two merge sorts are one**: on every vector of fewer than `2 ^ 30`
records each comes to an end, keeps to the two vectors, and leaves the stable
sort. -/
theorem mergeSorts_agree (key : α → κ) {nums : List α} (h : nums.length < 2 ^ 30) :
    ∃ r, Sorts key nums r ∧ mergeSort key nums = some r ∧ mergeSort2 key nums = some r := by
  obtain ⟨r, hr, hsorts⟩ := mergeSort_sorts key h
  obtain ⟨r₂, hr₂, hsorts₂⟩ := mergeSort2_sorts key h
  rw [hsorts₂.unique hsorts] at hr₂
  exact ⟨r, hsorts, hr, hr₂⟩

/-- Five records of two keys, where the two divide the vector at different
places. -/
theorem mergeSorts_agree_five_records :
    ∃ r, Sorts Prod.fst [(2, 'a'), (1, 'b'), (2, 'c'), (1, 'd'), (2, 'e')] r
      ∧ mergeSort Prod.fst [(2, 'a'), (1, 'b'), (2, 'c'), (1, 'd'), (2, 'e')] = some r
      ∧ mergeSort2 Prod.fst [(2, 'a'), (1, 'b'), (2, 'c'), (1, 'd'), (2, 'e')] = some r :=
  mergeSorts_agree Prod.fst (by decide)

end Sorting
