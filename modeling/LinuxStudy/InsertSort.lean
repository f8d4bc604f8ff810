import Mathlib.Data.List.Induction
import LinuxStudy.InPlace
import LinuxStudy.IntArith
import LinuxStudy.StableSort

/-!
# Insertion sort

Both insertion sorts of `sort.cpp` take one record after the other and put it
among those before it, which are in order. `InsertSort` goes back from the
record and moves every greater one up by a place until it meets one that is
not greater. `InsertSort2` finds the place first, by bisection, and then moves
the records behind it.

The place is the same, behind the last record that is not greater: the step
from the right stops there, and the bisection goes to the right where keys are
equal. What a way of inserting has to do is `Inserts`, and either does it.

The vectors are of records, which are compared by their keys, and their indices
are `int`s. The bisection adds two of them, and from the record at `2 ^ 30 + 1` on
the sum can be too great: that is so for every vector that is in order, where the
bisection goes to the right until it has two records or fewer to choose from
(`upperBound_eq_none`).
-/

namespace Sorting

open InPlace IntArith StableSort

variable {α κ : Type} [LinearOrder κ] {key : α → κ}

/-- The inner loop of `InsertSort`, and the write that follows. The argument is
`cur+1`. -/
def insertLinear (key : α → κ) (tmp : α) : ℕ → List α → Option (List α)
  | 0, nums => put nums 0 tmp
  | cur + 1, nums => do
    let y ← nums[cur]?
    if key tmp < key y then
      let nums ← put nums (cur + 1) y
      insertLinear key tmp cur nums
    else put nums (cur + 1) tmp

/-- The bisection of `InsertSort2`, in at most so many rounds. -/
def upperBound (key : α → κ) (tmp : α) (nums : List α) : ℕ → ℕ → ℕ → Option ℕ
  | 0, _, _ => none
  | rounds + 1, lo, hi =>
    if lo < hi then do
      let sum ← int (lo + hi)
      let mi := sum >>> 1
      let y ← nums[mi]?
      if key tmp < key y then upperBound key tmp nums rounds lo mi
      else upperBound key tmp nums rounds (mi + 1) hi
    else some lo

/-- The loop of `InsertSort2` that moves the records behind `lo` up by a place.
The argument is `j-lo`. -/
def shiftUp (lo : ℕ) : ℕ → List α → Option (List α)
  | 0, nums => some nums
  | d + 1, nums => do
    let y ← nums[lo + d]?
    let nums ← put nums (lo + d + 1) y
    shiftUp lo d nums

/-- The body of the loop of `InsertSort2`, for the record at `i`. -/
def insertBinary (key : α → κ) (tmp : α) (i : ℕ) (nums : List α) : Option (List α) := do
  let lo ← upperBound key tmp nums (i + 1) 0 i
  let nums ← shiftUp lo (i - lo) nums
  put nums lo tmp

/-- The outer loop, with a way of inserting the record at an index: from an
index on, for so many records. -/
def insertRounds (insert : α → ℕ → List α → Option (List α)) :
    ℕ → ℕ → List α → Option (List α)
  | 0, _, nums => some nums
  | left + 1, i, nums => do
    let tmp ← nums[i]?
    let nums ← insert tmp i nums
    let next ← int (i + 1)
    insertRounds insert left next nums

/-- **`InsertSort`.** -/
def insertSort (key : α → κ) (nums : List α) : Option (List α) :=
  if nums.length < 2 then some nums
  else insertRounds (insertLinear key) (nums.length - 1) 1 nums

/-- **`InsertSort2`.** -/
def insertSort2 (key : α → κ) (nums : List α) : Option (List α) :=
  if nums.length < 2 then some nums
  else insertRounds (insertBinary key) (nums.length - 1) 1 nums

/-! ## Inserting a record

The place of a record among others that are in order is behind the last one that
is not greater. There equal records stay in the order in which they were. Going
back from the record finds this place because what it passes is greater; the
bisection finds it since what is before the place is not greater and what is
behind is, so that each comparison tells on which side it lies. -/

/-- The place of a record among others: behind the last that is not greater. -/
structure Place (key : α → κ) (tmp : α) (p₁ p₂ : List α) : Prop where
  notGreater : ∀ b ∈ p₁, key b ≤ key tmp
  greater : ∀ b ∈ p₂, key tmp < key b

/-- **A way of inserting**: the record behind a list in order, of at most so many
records, gets to its place in it. -/
def Inserts (key : α → κ) (most : ℕ) (insert : α → ℕ → List α → Option (List α)) : Prop :=
  ∀ p tmp rest, p.length ≤ most → InOrder key p → ∃ p₁ p₂, p = p₁ ++ p₂ ∧ Place key tmp p₁ p₂
    ∧ insert tmp p.length (p ++ tmp :: rest) = some (p₁ ++ tmp :: (p₂ ++ rest))

/-- The loop of `InsertSort`, with a place that is free and the records moved
up so far behind it. -/
theorem insertLinear_spec (tmp x : α) (p moved rest : List α) (hp : InOrder key p)
    (hmoved : ∀ b ∈ moved, key tmp < key b) :
    ∃ p₁ p₂, p = p₁ ++ p₂ ∧ Place key tmp p₁ (p₂ ++ moved)
      ∧ insertLinear key tmp p.length (p ++ x :: (moved ++ rest))
        = some (p₁ ++ tmp :: (p₂ ++ moved ++ rest)) := by
  induction p using List.reverseRecOn generalizing x moved with
  | nil => exact ⟨[], [], rfl, ⟨nofun, hmoved⟩, put_append_cons [] (moved ++ rest) x tmp⟩
  | append_singleton p y ih =>
    have hread : (p ++ [y] ++ x :: (moved ++ rest))[p.length]? = some y := by
      rw [List.append_assoc]
      exact getElem?_append_cons p _ y
    rw [List.length_append, List.length_singleton]
    unfold insertLinear
    simp only [hread, Option.bind_eq_bind, Option.bind_some]
    have hput : ∀ z, put (p ++ [y] ++ x :: (moved ++ rest)) (p.length + 1) z
        = some (p ++ [y] ++ z :: (moved ++ rest)) := by
      intro z
      have hlength : p.length + 1 = (p ++ [y]).length := by simp
      rw [hlength]
      exact put_append_cons _ _ x z
    rw [hput, hput]
    split
    · next hlt =>
      obtain ⟨p₁, p₂, rfl, hplace, hloop⟩ := ih y (y :: moved) (List.pairwise_append.mp hp).1
        (List.forall_mem_cons.mpr ⟨hlt, hmoved⟩)
      refine ⟨p₁, p₂ ++ [y], (List.append_assoc _ _ _), ?_, ?_⟩
      · rwa [List.append_assoc]
      · rw [Option.bind_some, List.append_assoc (p₁ ++ p₂), List.append_assoc p₂]
        exact hloop
    · next hge =>
      refine ⟨p ++ [y], [], (List.append_nil _).symm, ⟨fun b hb => ?_, hmoved⟩, rfl⟩
      refine le_trans ?_ (not_lt.mp hge)
      rcases List.mem_append.mp hb with hmem | hmem
      · exact (List.pairwise_append.mp hp).2.2 b hmem y (List.mem_singleton.mpr rfl)
      · rw [List.mem_singleton.mp hmem]

/-- **Going back** inserts. -/
theorem inserts_insertLinear (key : α → κ) (most : ℕ) : Inserts key most (insertLinear key) := by
  intro p tmp rest _ hp
  obtain ⟨p₁, p₂, hsplit, hplace, hloop⟩ := insertLinear_spec tmp tmp p [] rest hp nofun
  rw [List.append_nil] at hplace hloop
  exact ⟨p₁, p₂, hsplit, hplace, hloop⟩

/-- **The bisection** finds the place in a list in order. -/
theorem upperBound_spec {p : List α} (hp : InOrder key p) (tmp : α) (rest : List α)
    (hint : p.length ≤ 2 ^ 30) {rounds lo hi : ℕ} (hle : lo ≤ hi) (hhi : hi ≤ p.length)
    (hrounds : hi - lo < rounds)
    (h : Place key tmp (p.take lo) (p.drop hi)) :
    ∃ k, upperBound key tmp (p ++ rest) rounds lo hi = some k ∧ k ≤ p.length
      ∧ Place key tmp (p.take k) (p.drop k) := by
  induction rounds generalizing lo hi with
  | zero => exact absurd hrounds (Nat.not_lt_zero _)
  | succ rounds ih =>
    unfold upperBound
    split
    · next hlt =>
      have hmi : (lo + hi) >>> 1 = (lo + hi) / 2 := by
        rw [Nat.shiftRight_eq_div_pow, Nat.pow_one]
      have hlt' : (lo + hi) / 2 < p.length := by omega
      have hread : (p ++ rest)[(lo + hi) / 2]? = some p[(lo + hi) / 2] := by
        rw [List.getElem?_append_left hlt', List.getElem?_eq_getElem hlt']
      -- the list is in order around the record that is looked at
      have hsplit : InOrder key (p.take ((lo + hi) / 2)
          ++ p[(lo + hi) / 2] :: p.drop ((lo + hi) / 2 + 1)) := by
        rw [← List.drop_eq_getElem_cons hlt', List.take_append_drop]
        exact hp
      obtain ⟨-, hright, hleft⟩ := List.pairwise_append.mp hsplit
      simp only [int_of_lt (show lo + hi < 2 ^ 31 by omega), hmi, hread, Option.bind_eq_bind,
        Option.bind_some]
      split
      · next hless =>
        refine ih (by omega) (by omega) (by omega) ⟨h.notGreater, ?_⟩
        rw [List.drop_eq_getElem_cons hlt']
        refine List.forall_mem_cons.mpr ⟨hless, fun b hb => ?_⟩
        exact hless.trans_le ((List.pairwise_cons.mp hright).1 b hb)
      · next hnot =>
        refine ih (by omega) (by omega) (by omega) ⟨?_, h.greater⟩
        rw [List.take_succ_eq_append_getElem hlt']
        intro b hb
        refine le_trans ?_ (not_lt.mp hnot)
        rcases List.mem_append.mp hb with hmem | hmem
        · exact hleft b hmem _ List.mem_cons_self
        · rw [List.mem_singleton.mp hmem]
    · next hge =>
      obtain rfl : lo = hi := by omega
      exact ⟨lo, rfl, hhi, h⟩

/-- Moving records up by a place leaves the first place free. -/
theorem shiftUp_spec (p q rest : List α) (x : α) :
    ∃ y, shiftUp p.length q.length (p ++ (q ++ x :: rest)) = some (p ++ y :: (q ++ rest)) := by
  induction q using List.reverseRecOn generalizing x rest with
  | nil => exact ⟨x, rfl⟩
  | append_singleton q z ih =>
    have hassoc : p ++ (q ++ [z] ++ x :: rest) = p ++ q ++ z :: (x :: rest) := by simp
    have hread : (p ++ (q ++ [z] ++ x :: rest))[p.length + q.length]? = some z := by
      rw [hassoc, ← List.length_append]
      exact getElem?_append_cons _ _ z
    have hput : put (p ++ (q ++ [z] ++ x :: rest)) (p.length + q.length + 1) z
        = some (p ++ (q ++ z :: (z :: rest))) := by
      have hlength : p.length + q.length + 1 = (p ++ q ++ [z]).length := by
        rw [List.length_append, List.length_append, List.length_singleton]
      rw [hlength, show p ++ (q ++ [z] ++ x :: rest) = p ++ q ++ [z] ++ x :: rest by simp,
        put_append_cons]
      simp
    obtain ⟨y, hy⟩ := ih (z :: rest) z
    refine ⟨y, ?_⟩
    rw [List.length_append, List.length_singleton]
    unfold shiftUp
    simp only [hread, hput, Option.bind_eq_bind, Option.bind_some]
    rw [hy]
    simp

/-- **The bisection and the move** insert. -/
theorem inserts_insertBinary (key : α → κ) : Inserts key (2 ^ 30) (insertBinary key) := by
  intro p tmp rest hlong hp
  have hstart : Place key tmp (p.take 0) (p.drop p.length) := by
    rw [List.take_zero, List.drop_length]
    exact ⟨nofun, nofun⟩
  have hrounds : p.length - 0 < p.length + 1 := by omega
  obtain ⟨k, hk, hle, hplace⟩ :=
    upperBound_spec hp tmp (tmp :: rest) hlong (Nat.zero_le _) (Nat.le_refl _) hrounds hstart
  obtain ⟨y, hy⟩ := shiftUp_spec (p.take k) (p.drop k) rest tmp
  refine ⟨p.take k, p.drop k, (List.take_append_drop k p).symm, hplace, ?_⟩
  have hlength : (p.take k).length = k := List.length_take_of_le hle
  rw [hlength, List.length_drop, ← List.append_assoc, List.take_append_drop] at hy
  have hput := put_append_cons (p.take k) (p.drop k ++ rest) y tmp
  rw [hlength] at hput
  unfold insertBinary
  simp only [hk, hy, hput, Option.bind_eq_bind, Option.bind_some]

/-! ## The sorts

Both sorts have the same outer loop with another way to insert, and what is asked
of the way is that it takes a record to its place in a list in order. So the loop
is looked at once. `InsertSort` does it for vectors of any length an index can
have, and `InsertSort2` for those in which the sum of two indices is an `int`. -/

variable {insert : α → ℕ → List α → Option (List α)} {most : ℕ}

/-- **The outer loop**, with the records before the index sorted. -/
theorem insertRounds_spec (hinsert : Inserts key most insert) (hmost : most < 2 ^ 31 - 1)
    {l p : List α} (h : Sorts key l p) (rest : List α) (hrest : p.length + rest.length ≤ most + 1) :
    ∃ r, insertRounds insert rest.length p.length (p ++ rest) = some r
      ∧ Sorts key (l ++ rest) r := by
  induction rest generalizing l p with
  | nil => exact ⟨p ++ [], rfl, by rwa [List.append_nil, List.append_nil]⟩
  | cons tmp rest ih =>
    rw [List.length_cons] at hrest
    obtain ⟨p₁, p₂, rfl, hplace, hstep⟩ := hinsert p tmp rest (by omega) h.inOrder
    have hlength : (p₁ ++ tmp :: p₂).length = (p₁ ++ p₂).length + 1 := by
      rw [List.length_append, List.length_append, List.length_cons, Nat.add_assoc]
    obtain ⟨r, hr, hsorts⟩ := ih (h.insert hplace.notGreater hplace.greater) (by omega)
    refine ⟨r, ?_, ?_⟩
    · rw [List.length_cons]
      unfold insertRounds
      simp only [getElem?_append_cons, hstep, Option.bind_eq_bind, Option.bind_some,
        int_of_lt (show (p₁ ++ p₂).length + 1 < 2 ^ 31 by omega)]
      rw [hlength, List.append_assoc] at hr
      exact hr
    · rwa [List.append_assoc] at hsorts

/-- An insertion sort with a way of inserting sorts stably. -/
theorem insertRounds_sorts (hinsert : Inserts key most insert) (hmost : most < 2 ^ 31 - 1)
    {nums : List α} (hint : nums.length ≤ most + 1) :
    ∃ r, (if nums.length < 2 then some nums
        else insertRounds insert (nums.length - 1) 1 nums) = some r ∧ Sorts key nums r := by
  split
  · exact ⟨nums, rfl, Sorts.of_length_le_one (by omega)⟩
  · cases nums with
    | nil => exact ⟨[], rfl, Sorts.nil⟩
    | cons a rest =>
      have hone : Sorts key [a] [a] := Sorts.of_length_le_one (Nat.le_refl 1)
      refine insertRounds_spec hinsert hmost hone rest ?_
      rwa [List.length_cons, Nat.add_comm] at hint

/-- **The two insertion sorts are one**: on every vector of at most `2 ^ 30 + 1`
records each leaves the stable sort of it. -/
theorem insertSorts_agree (key : α → κ) {nums : List α} (hint : nums.length ≤ 2 ^ 30 + 1) :
    ∃ r, Sorts key nums r ∧ insertSort key nums = some r ∧ insertSort2 key nums = some r := by
  obtain ⟨r, hr, hsorts⟩ :=
    insertRounds_sorts (inserts_insertLinear key (2 ^ 30)) (by decide) hint
  obtain ⟨r₂, hr₂, hsorts₂⟩ := insertRounds_sorts (inserts_insertBinary key) (by decide) hint
  rw [hsorts₂.unique hsorts] at hr₂
  exact ⟨r, hsorts, hr, hr₂⟩

/-- Records of two keys: those with the same key stay as they were. -/
theorem insertSorts_agree_four : ∃ r, Sorts Prod.fst [(2, 'a'), (1, 'b'), (2, 'c'), (1, 'd')] r
    ∧ insertSort Prod.fst [(2, 'a'), (1, 'b'), (2, 'c'), (1, 'd')] = some r
    ∧ insertSort2 Prod.fst [(2, 'a'), (1, 'b'), (2, 'c'), (1, 'd')] = some r :=
  insertSorts_agree Prod.fst (by decide)

/-! ## Vectors that are too long

With records of one key the bisection goes to the right every time. For the record
at `2 ^ 30 + 1` it comes to two indices whose sum is no `int`. -/

/-- **The sum of the bisection is no `int`** at the record at `2 ^ 30 + 1` or behind
it, where no record is greater than the one to be inserted. -/
theorem upperBound_eq_none {tmp : α} {nums : List α} {rounds lo hi : ℕ}
    (h : ∀ y ∈ nums, key y ≤ key tmp) (hlt : lo < hi) (hhi : 2 ^ 30 + 1 ≤ hi) :
    upperBound key tmp nums rounds lo hi = none := by
  induction rounds generalizing lo with
  | zero => rfl
  | succ rounds ih =>
    unfold upperBound
    rw [if_pos hlt]
    rcases Nat.lt_or_ge (lo + hi) (2 ^ 31) with hsum | hsum
    · have hmi : (lo + hi) >>> 1 = (lo + hi) / 2 := by
        rw [Nat.shiftRight_eq_div_pow, Nat.pow_one]
      rw [int_of_lt hsum, Option.bind_eq_bind, Option.bind_some, hmi]
      refine Option.bind_eq_none_iff.mpr fun y hy => ?_
      rw [if_neg (not_lt.mpr (h y (List.mem_of_getElem? hy)))]
      -- more than two records are left, so that there is one behind the middle
      exact ih (by omega)
    · rw [int_of_le hsum]
      rfl

theorem mem_of_put {nums nums' : List α} {i : ℕ} {x y : α} (h : put nums i x = some nums')
    (hy : y ∈ nums') : y ∈ nums ∨ y = x := by
  unfold put at h
  split at h
  · obtain rfl := Option.some_inj.mp h
    exact List.mem_or_eq_of_mem_set hy
  · cases h

/-- Records are moved only. -/
theorem mem_of_shiftUp {nums nums' : List α} {lo d : ℕ} {y : α}
    (h : shiftUp lo d nums = some nums') (hy : y ∈ nums') : y ∈ nums := by
  induction d generalizing nums with
  | zero =>
    obtain rfl := Option.some_inj.mp h
    exact hy
  | succ d ih =>
    unfold shiftUp at h
    obtain ⟨x, hx, nums₁, hput, hrest⟩ : ∃ x, nums[lo + d]? = some x
        ∧ ∃ nums₁, put nums (lo + d + 1) x = some nums₁ ∧ shiftUp lo d nums₁ = some nums' := by
      simpa only [Option.bind_eq_bind, Option.bind_eq_some_iff] using h
    rcases mem_of_put hput (ih hrest) with hmem | rfl
    · exact hmem
    · exact List.mem_of_getElem? hx

/-- Insertions into a vector of one key come to the record at `2 ^ 30 + 1`, if there
is one, and no further. -/
theorem insertRounds_eq_none {k : κ} {left i : ℕ} {nums : List α} (h : ∀ y ∈ nums, key y = k)
    (hi : i ≤ 2 ^ 30 + 1) (hleft : 2 ^ 30 + 1 < i + left) :
    insertRounds (insertBinary key) left i nums = none := by
  induction left generalizing i nums with
  | zero => omega
  | succ left ih =>
    unfold insertRounds
    refine Option.bind_eq_none_iff.mpr fun tmp htmp => Option.bind_eq_none_iff.mpr
      fun nums' hinsert => ?_
    have htmp' := h tmp (List.mem_of_getElem? htmp)
    unfold insertBinary at hinsert
    obtain ⟨lo, hlo, nums₁, hshift, hput⟩ : ∃ lo, upperBound key tmp nums (i + 1) 0 i = some lo
        ∧ ∃ nums₁, shiftUp lo (i - lo) nums = some nums₁ ∧ put nums₁ lo tmp = some nums' := by
      simpa only [Option.bind_eq_bind, Option.bind_eq_some_iff] using hinsert
    rcases Nat.lt_or_eq_of_le hi with hlt | rfl
    · refine Option.bind_eq_none_iff.mpr fun next hnext => ?_
      rw [int_of_lt (by omega)] at hnext
      obtain rfl := Option.some_inj.mp hnext
      refine ih (fun y hy => ?_) hlt (by omega)
      rcases mem_of_put hput hy with hmem | rfl
      · exact h y (mem_of_shiftUp hshift hmem)
      · exact htmp'
    · rw [upperBound_eq_none (fun y hy => ((h y hy).trans htmp'.symm).le) (by omega)
        (Nat.le_refl _)] at hlo
      cases hlo

/-- `2 ^ 30 + 2` zeros. -/
theorem insertSort2_zeros :
    ¬ ∃ r, Sorts id (List.replicate (2 ^ 30 + 2) 0) r
      ∧ insertSort id (List.replicate (2 ^ 30 + 2) 0) = some r
      ∧ insertSort2 id (List.replicate (2 ^ 30 + 2) 0) = some r := by
  rintro ⟨r, -, -, hr⟩
  have hzero : ∀ y ∈ List.replicate (2 ^ 30 + 2) 0, id y = 0 :=
    fun y hy => List.eq_of_mem_replicate hy
  unfold insertSort2 at hr
  rw [List.length_replicate, if_neg (by decide),
    insertRounds_eq_none hzero (by decide) (by decide)] at hr
  cases hr

end Sorting
