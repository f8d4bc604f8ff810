import Mathlib.Order.Bounds.Basic
import Mathlib.Algebra.Order.Ring.Int
import LinuxStudy.InPlace
import LinuxStudy.IntArith
import LinuxStudy.StableSort

/-!
# Counting sort

`CountingSort_Stable` has a counter for every value between the least and the
greatest of the vector. It counts the values, adds up the counters, so that
each has the number of records that are not greater, and then goes through the
vector from its end: the counter of a record is one more than its place.

These three loops are a pass (`countingPass`) that `RadixSort` makes for every
digit. Whatever the slots of the records are, as long as they are within the
counters, the pass writes every place once and leaves the stable sort
(`countingPass_sorts`).

The number of counters is computed as an `int`. It is one more than the
difference of two values, so that it can be too great, and what comes out is
negative then, or zero: the vector of the counters cannot be made, or has no
element (`countingSortStable_iff`).

The vectors are of records with an `int` each, and `int` arithmetic is modulo
`2 ^ 32`. A counter of `2 ^ 31` records is negative then, and one less is their last
place all the same. A loop that counts up to the size reaches `2 ^ 31` records, since
the index that follows is negative, which is more than any size when the two are
compared (`reached`). The loop that goes through the vector from its end is too short
for more than `2 ^ 31` records, and leaves places that are not written
(`length_written_lt`).
-/

namespace Sorting

open InPlace IntArith StableSort

variable {α : Type}

/-- The records that a loop with an `int` index reaches. -/
def reached (nums : List α) : List α := nums.take (2 ^ 31)

/-- The loop that counts: a counter for every slot. -/
def countLoop (slot : α → ℤ) : List α → List ℤ → Option (List ℤ)
  | [], counter => some counter
  | x :: rest, counter => do
    let i ← (slot x).toNat?
    let c ← counter[i]?
    let counter ← put counter i (wrap (c + 1))
    countLoop slot rest counter

/-- The loop that adds up the counters, from an index on and for so many of
them. -/
def sumLoop : ℕ → ℕ → List ℤ → Option (List ℤ)
  | 0, _, counter => some counter
  | left + 1, i, counter => do
    let c ← counter[i]?
    let before ← counter[i - 1]?
    let counter ← put counter i (wrap (c + before))
    sumLoop left (i + 1) counter

/-- The loop that puts the records into `sortedNums`, with the indices that
have been written, the last first. The argument is the index of the record plus
one. -/
def placeLoop (slot : α → ℤ) (nums : List α) :
    ℕ → List ℤ → List α → List ℕ → Option (List α × List ℕ)
  | 0, _, sortedNums, written => some (sortedNums, written)
  | i + 1, counter, sortedNums, written => do
    let x ← nums[i]?
    let countIdx ← (slot x).toNat?
    let c ← counter[countIdx]?
    let sortedIdx ← (wrap (c - 1)).toNat?
    let sortedNums ← put sortedNums sortedIdx x
    let counter ← put counter countIdx (wrap (c - 1))
    placeLoop slot nums i counter sortedNums (sortedIdx :: written)

/-- **A pass**: the three loops with so many counters. The third begins at the last
index, if that is not negative as an `int`. -/
def countingPass (slot : α → ℤ) (size : ℕ) (nums sortedNums : List α) :
    Option (List α × List ℕ) := do
  let counter ← countLoop slot (reached nums) (List.replicate size 0)
  let counter ← sumLoop (size - 1) 1 counter
  placeLoop slot nums (wrap (nums.length - 1 : ℕ) + 1).toNat counter sortedNums []

/-- One step of the loop that finds the least and the greatest. -/
def widen (key : α → ℤ) (range : ℤ × ℤ) (x : α) : ℤ × ℤ :=
  (if key x < range.1 then key x else range.1, if range.2 < key x then key x else range.2)

/-- `min` and `max`. -/
def minMax (key : α → ℤ) : List α → Option (ℤ × ℤ)
  | [] => none
  | x :: rest => some ((x :: rest).foldl (widen key) (key x, key x))

/-- What `CountingSort_Stable` leaves, the number of the counters it had, and
the indices it has written. -/
structure Counted (α : Type) where
  sorted : List α
  slots : ℕ
  written : List ℕ

/-- **`CountingSort_Stable`.** The vector of the counters cannot be made with a
negative size. -/
def countingSortStable [Inhabited α] (key : α → ℤ) (nums : List α) : Option (Counted α) :=
  if nums.length < 2 then some ⟨nums, 0, []⟩
  else do
    let (min, max) ← minMax key (reached nums)
    let size ← (wrap (max - min + 1)).toNat?
    let (sorted, written) ←
      countingPass (fun x => wrap (key x - min)) size nums (List.replicate nums.length default)
    return ⟨sorted, size, written⟩

/-! ## The counters

The counters are a function of the slot, so that what a loop does to them is said
for all slots at once. After the first loop a slot has the number of its records,
and after the second the number of those in it and before it. Both are numbers
modulo `2 ^ 32`, of vectors of any length; it is only where a counter is used as
an index that it has to be an `int`. -/

/-- A vector with an entry for every slot, as a function of the slot. -/
def tally {β : Type} (size : ℕ) (f : ℤ → β) : List β :=
  (List.range size).map fun k : ℕ => f k

section

variable {β : Type} {size i : ℕ} {f g : ℤ → β}

theorem length_tally (size : ℕ) (f : ℤ → β) : (tally size f).length = size := by
  rw [tally, List.length_map, List.length_range]

theorem getElem?_tally (h : i < size) : (tally size f)[i]? = some (f i) := by
  rw [tally, List.getElem?_map, List.getElem?_range h]
  rfl

theorem tally_congr (h : ∀ k : ℕ, k < size → f k = g k) : tally size f = tally size g :=
  List.map_congr_left fun k hk => h k (List.mem_range.mp hk)

theorem replicate_eq_tally (size : ℕ) (v : β) : List.replicate size v = tally size fun _ => v := by
  rw [tally, List.map_const', List.length_range]

/-- An entry is written. -/
theorem put_tally (h : i < size) {v : β} (hi : g i = v) (hne : ∀ k : ℤ, k ≠ i → g k = f k) :
    put (tally size f) i v = some (tally size g) := by
  rw [put_of_lt (by rwa [length_tally])]
  refine congrArg some (List.ext_getElem? fun k => ?_)
  rcases Nat.lt_or_ge k size with hk | hk
  · rw [getElem?_tally hk]
    by_cases hki : k = i
    · subst hki
      rw [List.getElem?_set_self (by rwa [length_tally]), hi]
    · rw [List.getElem?_set_ne (Ne.symm hki), getElem?_tally hk, hne k (by omega)]
  · rw [List.getElem?_eq_none (by rwa [List.length_set, length_tally]),
      List.getElem?_eq_none (by rwa [length_tally])]

end

/-- Counters with so many records each. -/
def counters (size : ℕ) (f : ℤ → ℕ) : List ℤ := tally size fun k => wrap (f k)

section

variable {size i : ℕ} {f g : ℤ → ℕ}

theorem getElem?_counters (h : i < size) : (counters size f)[i]? = some (wrap (f i)) :=
  getElem?_tally h

theorem counters_congr (h : ∀ k : ℕ, k < size → f k = g k) : counters size f = counters size g :=
  tally_congr fun k hk => by rw [h k hk]

theorem put_counters (h : i < size) {n : ℕ} (hi : g i = n) (hne : ∀ k : ℤ, k ≠ i → g k = f k) :
    put (counters size f) i (wrap n) = some (counters size g) :=
  put_tally h (by rw [hi]) fun k hk => by rw [hne k hk]

theorem replicate_zero_eq_counters (size : ℕ) :
    List.replicate size 0 = counters size fun _ => 0 := by
  have hzero : wrap ((0 : ℕ) : ℤ) = 0 := wrap_zero
  unfold counters
  simp only [hzero]
  exact replicate_eq_tally size 0

end

theorem reached_of_le {nums : List α} (h : nums.length ≤ 2 ^ 31) : reached nums = nums :=
  List.take_of_length_le h

/-- Slots within the counters. -/
def InSlots (slot : α → ℤ) (size : ℕ) (l : List α) : Prop :=
  ∀ x ∈ l, 0 ≤ slot x ∧ slot x < size

theorem InSlots.exists_nat {slot : α → ℤ} {size : ℕ} {l : List α} {x : α}
    (h : InSlots slot size l) (hx : x ∈ l) :
    ∃ i : ℕ, slot x = i ∧ (slot x).toNat? = some i ∧ i < size := by
  obtain ⟨hlo, hhi⟩ := h x hx
  obtain ⟨i, hi⟩ := Int.eq_ofNat_of_zero_le hlo
  exact ⟨i, hi, Int.mem_toNat?.mpr hi, by omega⟩

/-- The number of records in a slot. -/
def inSlot (slot : α → ℤ) (l : List α) (k : ℤ) : ℕ := l.countP fun x => slot x = k

/-- The number of records in the slots before one. -/
def beforeSlot (slot : α → ℤ) (l : List α) (k : ℤ) : ℕ := l.countP fun x => slot x < k

/-- **The loop counts** the records in every slot. -/
theorem countLoop_spec {slot : α → ℤ} {size : ℕ} {l : List α} (h : InSlots slot size l)
    (f : ℤ → ℕ) :
    countLoop slot l (counters size f) = some (counters size fun k => f k + inSlot slot l k) := by
  induction l generalizing f with
  | nil => rfl
  | cons x l ih =>
    obtain ⟨i, hi, hidx, hlt⟩ := h.exists_nat List.mem_cons_self
    have hput : put (counters size f) i (wrap (wrap (f i) + 1))
        = some (counters size fun k => f k + if slot x = k then 1 else 0) := by
      rw [wrap_wrap_add, ← Nat.cast_succ]
      refine put_counters hlt ?_ fun k hk => ?_
      · rw [if_pos hi]
      · rw [if_neg (fun hkx => hk (hkx.symm.trans hi)), Nat.add_zero]
    unfold countLoop
    simp only [hidx, getElem?_counters hlt, hput, Option.bind_eq_bind, Option.bind_some]
    rw [ih fun y hy => h y (List.mem_cons_of_mem x hy)]
    refine congrArg some (counters_congr fun k _ => ?_)
    simp only [inSlot, List.countP_cons, decide_eq_true_eq]
    omega

theorem toNat?_of_neg {x : ℤ} (h : x < 0) : x.toNat? = none := by
  rw [Option.eq_none_iff_forall_ne_some]
  intro i hi
  have hx := Int.mem_toNat?.mp hi
  omega

/-- A record out of the slots is read or written out of the counters. -/
theorem countLoop_eq_none {slot : α → ℤ} {l : List α} {counter : List ℤ} {x : α} (hx : x ∈ l)
    (h : slot x < 0 ∨ counter.length ≤ slot x) : countLoop slot l counter = none := by
  induction l generalizing counter with
  | nil => exact absurd hx List.not_mem_nil
  | cons y l ih =>
    unfold countLoop
    rcases List.mem_cons.mp hx with rfl | hmem
    · rcases h with hneg | hbig
      · rw [toNat?_of_neg hneg]
        rfl
      · obtain ⟨i, hi⟩ := Int.eq_ofNat_of_zero_le (show 0 ≤ slot x by omega)
        rw [Int.mem_toNat?.mpr hi, Option.bind_eq_bind, Option.bind_some,
          List.getElem?_eq_none (by omega)]
        rfl
    · simp only [Option.bind_eq_bind, Option.bind_eq_none_iff]
      intro i _ c _ counter' hput
      exact ih hmem (by rwa [length_of_put hput])

theorem beforeSlot_succ (slot : α → ℤ) (l : List α) (k : ℤ) :
    beforeSlot slot l (k + 1) = beforeSlot slot l k + inSlot slot l k := by
  induction l with
  | nil => rfl
  | cons x l ih =>
    simp only [beforeSlot, inSlot, List.countP_cons, decide_eq_true_eq] at ih ⊢
    rcases lt_trichotomy (slot x) k with hlt | heq | hgt
    · rw [if_pos (by omega), if_pos hlt, if_neg hlt.ne]
      omega
    · rw [if_pos (by omega), if_neg heq.not_lt, if_pos heq]
      omega
    · rw [if_neg (by omega), if_neg hgt.not_gt, if_neg hgt.ne']
      omega

/-- **The counters added up**: each has the number of records in its slot and in
those before it. -/
theorem sumLoop_spec (slot : α → ℤ) (l : List α) {size left i : ℕ} (hi : 1 ≤ i)
    (hleft : i + left = size) :
    sumLoop left i (counters size fun k =>
        if k < i then beforeSlot slot l k + inSlot slot l k else inSlot slot l k)
      = some (counters size fun k => beforeSlot slot l k + inSlot slot l k) := by
  induction left generalizing i with
  | zero => exact congrArg some (counters_congr fun k hk => if_pos (by omega))
  | succ left ih =>
    obtain ⟨j, rfl⟩ : ∃ j, i = j + 1 := ⟨i - 1, by omega⟩
    have hput : put (counters size fun k => if k < ((j + 1 : ℕ) : ℤ)
            then beforeSlot slot l k + inSlot slot l k else inSlot slot l k)
          (j + 1) (wrap (wrap (inSlot slot l ((j + 1 : ℕ) : ℤ))
            + wrap (beforeSlot slot l ((j + 1 : ℕ) : ℤ))))
        = some (counters size fun k => if k < ((j + 1 + 1 : ℕ) : ℤ)
            then beforeSlot slot l k + inSlot slot l k else inSlot slot l k) := by
      rw [wrap_wrap_add, wrap_add_wrap, ← Nat.cast_add]
      refine put_counters (by omega) ?_ fun k hk => ?_
      · rw [if_pos (by omega), Nat.add_comm]
      · by_cases hlt : k < ((j + 1 : ℕ) : ℤ)
        · rw [if_pos hlt, if_pos (by omega)]
        · rw [if_neg hlt, if_neg (by omega)]
    have hbefore : beforeSlot slot l ((j + 1 : ℕ) : ℤ) = beforeSlot slot l j + inSlot slot l j :=
      beforeSlot_succ slot l j
    unfold sumLoop
    simp only [getElem?_counters (show j + 1 < size by omega), Nat.add_sub_cancel,
      getElem?_counters (show j < size by omega), Option.bind_eq_bind, Option.bind_some]
    rw [if_neg (Int.lt_irrefl _), if_pos (by omega), ← hbefore, hput, Option.bind_some]
    exact ih (by omega) (by omega)

/-! ## The places

The third loop goes from the last record to the first, and each time the counter
of the slot is one more than the place of the record: the number of records before
it in the order, which are those with less and those with the same slot that stand
before it in the vector. So every record goes to its place, every place is written
once, and records of one slot stay in their order.

The loop begins at the last index as an `int`. With more than `2 ^ 31` records
that is negative, and the loop does nothing. -/

/-- **The loop puts every record at its place**, from the end of the vector to
its beginning. -/
theorem placeLoop_spec {slot : α → ℤ} {size : ℕ} {nums r : List α} (h : InSlots slot size nums)
    (hr : Sorts slot nums r) (hint : nums.length ≤ 2 ^ 31) (p q : List α) (hnums : nums = p ++ q)
    {sortedNums : List α}
    (hlength : sortedNums.length = nums.length)
    (hwritten : ∀ m ∈ places slot nums p q, sortedNums[m]? = r[m]?) :
    placeLoop slot nums p.length (counters size fun k => beforeSlot slot nums k + inSlot slot p k)
        sortedNums (places slot nums p q)
      = some (r, places slot nums [] nums) := by
  induction p using List.reverseRecOn generalizing q sortedNums with
  | nil =>
    obtain rfl : nums = q := hnums
    have hdone : sortedNums = r := by
      refine List.ext_getElem? fun m => ?_
      rcases Nat.lt_or_ge m nums.length with hm | hm
      · exact hwritten m ((places_perm_range slot nums).mem_iff.mpr (List.mem_range.mpr hm))
      · rw [List.getElem?_eq_none (by omega),
          List.getElem?_eq_none (by rw [hr.keeps.perm.length_eq]; omega)]
    rw [hdone]
    rfl
  | append_singleton p x ih =>
    have hsplit : nums = p ++ x :: q := by rw [hnums, List.append_assoc]; rfl
    have hread : nums[p.length]? = some x := by
      rw [hsplit]
      exact getElem?_append_cons p q x
    have hplace : r[place slot nums p x]? = some x := by
      have hsorts := hr
      rw [hsplit] at hsorts ⊢
      exact hsorts.getElem?_place
    have hlt : place slot nums p x < sortedNums.length := by
      have hlt := (List.getElem?_eq_some_iff.mp hplace).1
      rw [hr.keeps.perm.length_eq] at hlt
      omega
    obtain ⟨i, hi, hidx, hisize⟩ := h.exists_nat (List.mem_of_getElem? hread)
    -- the counter of the record is one more than its place
    have hcount : beforeSlot slot nums i + inSlot slot (p ++ [x]) i
        = place slot nums p x + 1 := by
      rw [place, inSlot, List.countP_append, List.countP_singleton,
        if_pos (decide_eq_true hi), hi]
      rfl
    have hput : put (counters size fun k => beforeSlot slot nums k + inSlot slot (p ++ [x]) k) i
          (wrap (place slot nums p x))
        = some (counters size fun k => beforeSlot slot nums k + inSlot slot p k) := by
      refine put_counters hisize ?_ fun k hk => ?_
      · rw [place, hi]
        rfl
      · rw [inSlot, inSlot, List.countP_append, List.countP_singleton,
          if_neg (fun hkx => hk ((of_decide_eq_true hkx).symm.trans hi)), Nat.add_zero]
    have hless := wrap_succ_sub_one (place slot nums p x)
    have hidx' : (wrap (place slot nums p x)).toNat? = some (place slot nums p x) :=
      toNat?_wrap (by omega)
    rw [List.length_append, List.length_singleton]
    unfold placeLoop
    rw [hread, Option.bind_eq_bind, Option.bind_some, hidx, Option.bind_eq_bind, Option.bind_some,
      getElem?_counters hisize, Option.bind_eq_bind, Option.bind_some, hcount, hless, hidx',
      Option.bind_eq_bind, Option.bind_some, put_of_lt hlt, Option.bind_eq_bind, Option.bind_some,
      hput, Option.bind_some]
    refine ih (x :: q) hsplit (List.length_set.trans hlength) fun m hm => ?_
    rcases List.mem_cons.mp hm with rfl | hmem
    · rw [List.getElem?_set_self hlt, hplace]
    · by_cases hm' : m = place slot nums p x
      · subst hm'
        rw [List.getElem?_set_self hlt, hplace]
      · rw [List.getElem?_set_ne (Ne.symm hm'), hwritten m hmem]

/-- **The first two loops** leave in every counter the number of records in its
slot and in those before it. -/
theorem counters_spec {slot : α → ℤ} {size : ℕ} {l : List α} (h : InSlots slot size l)
    (hsize : 0 < size) :
    (countLoop slot l (List.replicate size 0)).bind (sumLoop (size - 1) 1)
      = some (counters size fun k => beforeSlot slot l k + inSlot slot l k) := by
  have hcount : countLoop slot l (List.replicate size 0)
      = some (counters size fun k => inSlot slot l k) := by
    rw [replicate_zero_eq_counters, countLoop_spec h]
    simp only [Nat.zero_add]
  -- there is nothing in the slots below zero
  have hstart : (counters size fun k => inSlot slot l k) = counters size fun k =>
      if k < ((1 : ℕ) : ℤ) then beforeSlot slot l k + inSlot slot l k else inSlot slot l k := by
    refine counters_congr fun k _ => ?_
    split
    · next hk =>
      have hnone : beforeSlot slot l k = 0 := by
        refine List.countP_eq_zero.mpr fun x hx hlt => ?_
        have hx := (h x hx).1
        have hlt := of_decide_eq_true hlt
        omega
      rw [hnone, Nat.zero_add]
    · rfl
  rw [hcount, Option.bind_some, hstart]
  exact sumLoop_spec slot l (Nat.le_refl 1) (show 1 + (size - 1) = size by omega)

/-- **A pass** after its first two loops. -/
theorem countingPass_eq {slot : α → ℤ} {size : ℕ} {nums : List α}
    (h : InSlots slot size (reached nums)) (hsize : 0 < size) (sortedNums : List α) :
    countingPass slot size nums sortedNums
      = placeLoop slot nums (wrap (nums.length - 1 : ℕ) + 1).toNat
        (counters size fun k => beforeSlot slot (reached nums) k + inSlot slot (reached nums) k)
        sortedNums [] := by
  obtain ⟨counter, hcount, hsum⟩ := Option.bind_eq_some_iff.mp (counters_spec h hsize)
  unfold countingPass
  rw [hcount, Option.bind_eq_bind, Option.bind_some, hsum, Option.bind_some]

/-- **A pass sorts stably** by the slots, whatever `sortedNums` was before, and
writes every place once. -/
theorem countingPass_sorts {slot : α → ℤ} {size : ℕ} {nums sortedNums : List α}
    (h : InSlots slot size nums) (hsize : 0 < size) (hlength : sortedNums.length = nums.length)
    (hpos : 1 ≤ nums.length) (hint : nums.length ≤ 2 ^ 31) :
    ∃ r written, countingPass slot size nums sortedNums = some (r, written)
      ∧ Sorts slot nums r ∧ written.Perm (List.range nums.length) := by
  obtain ⟨r, hr⟩ := Sorts.exists_sorts slot nums
  have hlast : (wrap (nums.length - 1 : ℕ) + 1).toNat = nums.length := by
    rw [wrap_pred hpos hint, Int.sub_add_cancel, Int.toNat_natCast]
  have hplace := placeLoop_spec h hr hint nums [] (List.append_nil nums).symm hlength
    fun m hm => absurd hm List.not_mem_nil
  have hreached := reached_of_le hint
  refine ⟨r, places slot nums [] nums, ?_, hr, places_perm_range slot nums⟩
  rw [countingPass_eq (hreached.symm ▸ h) hsize, hreached, hlast]
  exact hplace

/-- **A pass over more than `2 ^ 31` records** begins below zero, and leaves
`sortedNums` as it was. -/
theorem countingPass_of_long {slot : α → ℤ} {size : ℕ} {nums : List α}
    (h : InSlots slot size nums) (hsize : 0 < size) (hlong : 2 ^ 31 < nums.length)
    (hlength : nums.length ≤ 2 ^ 32) (sortedNums : List α) :
    countingPass slot size nums sortedNums = some (sortedNums, []) := by
  have hlast : (wrap (nums.length - 1 : ℕ) + 1).toNat = 0 := by
    rw [wrap_natCast_of_le (by omega) (by omega)]
    omega
  rw [countingPass_eq (fun x hx => h x (List.mem_of_mem_take hx)) hsize, hlast]
  rfl

/-- The loop writes an index for every record it looks at. -/
theorem length_written {slot : α → ℤ} {nums r : List α} {n : ℕ} {counter : List ℤ}
    {sortedNums : List α} {before written : List ℕ}
    (h : placeLoop slot nums n counter sortedNums before = some (r, written)) :
    written.length = before.length + n := by
  induction n generalizing counter sortedNums before with
  | zero =>
    obtain ⟨-, rfl⟩ := Prod.mk.inj (Option.some_inj.mp h)
    rfl
  | succ n ih =>
    unfold placeLoop at h
    obtain ⟨x, -, countIdx, -, c, -, sortedIdx, -, sortedNums', -, counter', -, hrest⟩ :
        ∃ x, nums[n]? = some x ∧ ∃ countIdx, (slot x).toNat? = some countIdx
          ∧ ∃ c, counter[countIdx]? = some c ∧ ∃ sortedIdx, (wrap (c - 1)).toNat? = some sortedIdx
          ∧ ∃ sortedNums', put sortedNums sortedIdx x = some sortedNums'
          ∧ ∃ counter', put counter countIdx (wrap (c - 1)) = some counter'
          ∧ placeLoop slot nums n counter' sortedNums' (sortedIdx :: before)
            = some (r, written) := by
      simpa only [Option.bind_eq_bind, Option.bind_eq_some_iff] using h
    rw [ih hrest, List.length_cons, Nat.succ_add_eq_add_succ]

/-- **In a vector of more than `2 ^ 31` records** there are places that are not
written. -/
theorem length_written_lt {slot : α → ℤ} {size : ℕ} {nums sortedNums r : List α}
    {written : List ℕ} (hlong : 2 ^ 31 < nums.length)
    (h : countingPass slot size nums sortedNums = some (r, written)) :
    written.length < nums.length := by
  have hlast := (isInt_wrap (nums.length - 1 : ℕ)).2
  unfold countingPass at h
  obtain ⟨counter, -, h⟩ := Option.bind_eq_some_iff.mp h
  obtain ⟨counter', -, h⟩ := Option.bind_eq_some_iff.mp h
  rw [length_written h, List.length_nil]
  omega

/-! ## The least and the greatest -/

/-- The values of the records. -/
def values (key : α → ℤ) (l : List α) : Set ℤ := {v | ∃ x ∈ l, key x = v}

theorem widen_fst (key : α → ℤ) (range : ℤ × ℤ) (x : α) :
    (widen key range x).1 = min range.1 (key x) := by
  show (if key x < range.1 then key x else range.1) = _
  split
  · next h => exact (min_eq_right h.le).symm
  · next h => exact (min_eq_left (not_lt.mp h)).symm

theorem widen_snd (key : α → ℤ) (range : ℤ × ℤ) (x : α) :
    (widen key range x).2 = max range.2 (key x) := by
  show (if range.2 < key x then key x else range.2) = _
  split
  · next h => exact (max_eq_right h.le).symm
  · next h => exact (max_eq_left (not_lt.mp h)).symm

theorem values_cons (key : α → ℤ) (x : α) (l : List α) :
    values key (x :: l) = insert (key x) (values key l) := by
  ext v
  simp only [values, List.mem_cons, Set.mem_ofPred_eq, Set.mem_insert_iff, exists_eq_or_imp,
    @eq_comm _ v]

/-- The loop keeps the least and the greatest of what it has seen. -/
theorem foldl_widen (key : α → ℤ) (l : List α) {seen : Set ℤ} {range : ℤ × ℤ}
    (hmin : IsLeast seen range.1) (hmax : IsGreatest seen range.2) :
    IsLeast (values key l ∪ seen) (l.foldl (widen key) range).1
    ∧ IsGreatest (values key l ∪ seen) (l.foldl (widen key) range).2 := by
  induction l generalizing seen range with
  | nil =>
    have hnil : values key ([] : List α) ∪ seen = seen := by simp [values]
    rw [hnil]
    exact ⟨hmin, hmax⟩
  | cons x l ih =>
    have hnext : values key (x :: l) ∪ seen = values key l ∪ insert (key x) seen := by
      rw [values_cons, Set.insert_union, Set.union_insert]
    rw [hnext, List.foldl_cons]
    refine ih ?_ ?_
    · rw [widen_fst, min_comm]
      exact hmin.insert (key x)
    · rw [widen_snd, max_comm]
      exact hmax.insert (key x)

/-- **`min` and `max`** are the least and the greatest of the values. -/
theorem minMax_spec (key : α → ℤ) {nums : List α} (h : nums ≠ []) :
    ∃ min max, minMax key nums = some (min, max) ∧ IsLeast (values key nums) min
      ∧ IsGreatest (values key nums) max := by
  cases nums with
  | nil => exact absurd rfl h
  | cons x rest =>
    have hsame : values key (x :: rest) ∪ {key x} = values key (x :: rest) :=
      Set.union_eq_left.mpr (Set.singleton_subset_iff.mpr ⟨x, List.mem_cons_self, rfl⟩)
    have hmin : IsLeast {key x} (key x, key x).1 := isLeast_singleton
    have hmax : IsGreatest {key x} (key x, key x).2 := isGreatest_singleton
    have hspec := foldl_widen key (x :: rest) hmin hmax
    rw [hsame] at hspec
    exact ⟨_, _, rfl, hspec.1, hspec.2⟩

/-! ## The number of the counters

The number of counters is the greatest less the least and one more, modulo `2 ^
32`. If it is an `int` all slots are in range and the pass sorts. If it is not, it
is zero or negative as an `int`, since the distance of two `int`s is less than `2
^ 32`; with a negative size no vector can be made, and with zero counters the
first record is out of range. -/

/-- **What is asked of the sort**: a counter for every value from the least to
the greatest, every index written once, and the stable sort as the result. -/
structure SortsByCounting (key : α → ℤ) (nums : List α) (c : Counted α) : Prop where
  slots : ∀ min max, IsLeast (values key nums) min → IsGreatest (values key nums) max →
    (c.slots : ℤ) = max - min + 1
  written : c.written.Perm (List.range nums.length)
  sorts : Sorts key nums c.sorted

/-- **`CountingSort_Stable` sorts** if the number of counters is an `int`. -/
theorem countingSortStable_sorts [Inhabited α] {key : α → ℤ} {nums : List α} {min max : ℤ}
    (hlength : 2 ≤ nums.length) (hint : nums.length ≤ 2 ^ 31)
    (hmin : IsLeast (values key nums) min) (hmax : IsGreatest (values key nums) max)
    (hminMax : minMax key nums = some (min, max)) (hrange : max - min < 2 ^ 31 - 1) :
    ∃ c, countingSortStable key nums = some c ∧ SortsByCounting key nums c := by
  have hbounds : ∀ x ∈ nums, min ≤ key x ∧ key x ≤ max :=
    fun x hx => ⟨hmin.2 ⟨x, hx, rfl⟩, hmax.2 ⟨x, hx, rfl⟩⟩
  have hle : min ≤ max := hmin.2 hmax.1
  obtain ⟨size, hsize⟩ := Int.eq_ofNat_of_zero_le (show 0 ≤ max - min + 1 by omega)
  have hwrap : wrap (max - min + 1) = size := by
    rw [wrap_of_isInt ⟨by omega, by omega⟩, hsize]
  have hslot : ∀ x ∈ nums, wrap (key x - min) = key x - min := by
    intro x hx
    obtain ⟨hlo, hhi⟩ := hbounds x hx
    exact wrap_of_isInt ⟨by omega, by omega⟩
  have hin : InSlots (fun x => wrap (key x - min)) size nums := by
    intro x hx
    obtain ⟨hlo, hhi⟩ := hbounds x hx
    show 0 ≤ wrap (key x - min) ∧ wrap (key x - min) < size
    rw [hslot x hx]
    omega
  obtain ⟨r, written, hpass, hsorts, hwritten⟩ :=
    countingPass_sorts hin (show 0 < size by omega)
      (show (List.replicate nums.length (default : α)).length = nums.length from
        List.length_replicate) (by omega) hint
  refine ⟨⟨r, size, written⟩, ?_, fun min' max' hmin' hmax' => ?_, hwritten,
    hsorts.congr_key fun x hx y hy => ?_⟩
  · unfold countingSortStable
    rw [if_neg (by omega)]
    simp only [reached_of_le hint, hminMax, hwrap, Int.mem_toNat?.mpr rfl, hpass,
      Option.bind_eq_bind, Option.bind_some, Option.pure_def]
  · rw [hmin'.unique hmin, hmax'.unique hmax]
    exact hsize.symm
  · rw [hslot x hx, hslot y hy]
    omega

/-- **Too many counters**: the number of them is negative as an `int`, or
zero. -/
theorem countingSortStable_eq_none [Inhabited α] {key : α → ℤ} {nums : List α} {min max : ℤ}
    (hlength : 2 ≤ nums.length) (hint : nums.length ≤ 2 ^ 31)
    (hminMax : minMax key nums = some (min, max)) (hmin : IsInt min) (hmax : IsInt max)
    (hrange : 2 ^ 31 - 1 ≤ max - min) :
    countingSortStable key nums = none := by
  obtain ⟨hmin, -⟩ := hmin
  obtain ⟨-, hmax⟩ := hmax
  unfold countingSortStable
  rw [if_neg (by omega), reached_of_le hint, hminMax]
  simp only [Option.bind_eq_bind, Option.bind_some]
  have hwrap : wrap (max - min + 1) = max - min + 1 - 2 ^ 32 := by
    rw [← wrap_sub]
    exact wrap_of_isInt ⟨by omega, by omega⟩
  rcases (show max - min + 1 ≤ 2 ^ 32 by omega).lt_or_eq with hless | heq
  · rw [hwrap, toNat?_of_neg (by omega)]
    rfl
  · -- there is no counter, but a record to be counted
    have hzero : (wrap (max - min + 1)).toNat? = some 0 := Int.mem_toNat?.mpr (by omega)
    have hnone : ∀ (slot : α → ℤ) (sortedNums : List α),
        countingPass slot 0 nums sortedNums = none := by
      intro slot sortedNums
      have hmem : nums[0] ∈ nums := List.getElem_mem (by omega)
      have hcount : countLoop slot nums (List.replicate 0 0) = none := by
        refine countLoop_eq_none hmem ?_
        rw [List.length_replicate]
        omega
      unfold countingPass
      rw [reached_of_le hint, hcount]
      rfl
    rw [hzero, Option.bind_some, hnone]
    rfl

/-- More than `2 ^ 31` records are not sorted by counting. -/
theorem length_le_of_sortsByCounting [Inhabited α] {key : α → ℤ} {nums : List α}
    {c : Counted α} (hc : countingSortStable key nums = some c)
    (h : SortsByCounting key nums c) : nums.length ≤ 2 ^ 31 := by
  by_contra hlong
  unfold countingSortStable at hc
  rw [if_neg (by omega)] at hc
  obtain ⟨⟨min, max⟩, -, hc⟩ := Option.bind_eq_some_iff.mp hc
  obtain ⟨size, -, hc⟩ := Option.bind_eq_some_iff.mp hc
  obtain ⟨⟨r, written⟩, hpass, hc⟩ := Option.bind_eq_some_iff.mp hc
  obtain rfl := Option.some_inj.mp hc
  have hall : written.length = nums.length := by
    rw [h.written.length_eq, List.length_range]
  exact absurd (length_written_lt (not_le.mp hlong) hpass) (by omega)

/-- **When `CountingSort_Stable` does what is asked**: on a vector of at least
two records exactly if there are at most `2 ^ 31` of them and no two values are
`2 ^ 31 - 1` or more apart. -/
theorem countingSortStable_iff [Inhabited α] (key : α → ℤ) {nums : List α}
    (hlength : 2 ≤ nums.length) (hkeys : ∀ x ∈ nums, IsInt (key x)) :
    (∃ c, countingSortStable key nums = some c ∧ SortsByCounting key nums c)
      ↔ nums.length ≤ 2 ^ 31 ∧ ∀ x ∈ nums, ∀ y ∈ nums, key x - key y < 2 ^ 31 - 1 := by
  have hne : nums ≠ [] := List.ne_nil_of_length_pos (by omega)
  obtain ⟨min, max, hminMax, hmin, hmax⟩ := minMax_spec key hne
  obtain ⟨x, hx, rfl⟩ := hmin.1
  obtain ⟨y, hy, rfl⟩ := hmax.1
  constructor
  · rintro ⟨c, hc, hsorts⟩
    have hint := length_le_of_sortsByCounting hc hsorts
    refine ⟨hint, fun a ha b hb => ?_⟩
    by_contra hfar
    have hlo : key x ≤ key b := hmin.2 ⟨b, hb, rfl⟩
    have hhi : key a ≤ key y := hmax.2 ⟨a, ha, rfl⟩
    rw [countingSortStable_eq_none hlength hint hminMax (hkeys x hx) (hkeys y hy) (by omega)] at hc
    cases hc
  · rintro ⟨hint, hnear⟩
    exact countingSortStable_sorts hlength hint hmin hmax hminMax (hnear y hy x hx)

/-- Records with negative and equal keys. -/
theorem countingSortStable_iff_four_records :
    (∃ c, countingSortStable Prod.fst [((3 : ℤ), 'a'), (-2, 'b'), (3, 'c'), (0, 'd')] = some c
        ∧ SortsByCounting Prod.fst [((3 : ℤ), 'a'), (-2, 'b'), (3, 'c'), (0, 'd')] c)
      ↔ [((3 : ℤ), 'a'), (-2, 'b'), (3, 'c'), (0, 'd')].length ≤ 2 ^ 31
        ∧ ∀ x ∈ [((3 : ℤ), 'a'), (-2, 'b'), (3, 'c'), (0, 'd')],
          ∀ y ∈ [((3 : ℤ), 'a'), (-2, 'b'), (3, 'c'), (0, 'd')], x.1 - y.1 < 2 ^ 31 - 1 :=
  countingSortStable_iff Prod.fst (by decide) (by decide)

/-- The greatest `int` and the least that is not negative: `2 ^ 31` counters are
asked for. -/
theorem countingSortStable_far_apart :
    ¬ ∃ c, countingSortStable id [(2147483647 : ℤ), 0] = some c
      ∧ SortsByCounting id [2147483647, 0] c := by
  rintro ⟨c, hc, -⟩
  have hnone : countingSortStable id [(2147483647 : ℤ), 0] = none := by decide
  rw [hnone] at hc
  cases hc

end Sorting
