import LinuxStudy.QuickSort

/-!
# Selection sort

`SelectSort` looks for the least element of what is left of the vector and puts
it first, one element a round. `SelectSort2` looks for the greatest as well and
puts it last, so that what is left gets shorter at both ends.

The first of the two swaps of a round can move the greatest element: it is then
where the least one was, and `maxIdx` follows it. A round in which the least and
the greatest are at one index has found all of what is left equal, and is the
last.

Both keep to one invariant (`Placed`): what is before `head` or behind `tail` is
where it belongs, whatever the elements between them do.

The indices are `int`s. Every round of either looks at the last element and counts
beyond it, to an index that is no `int` where there are `2 ^ 31` elements
(`scanMin_eq_none`).
-/

namespace Sorting

open InPlace IntArith

variable {α : Type} [LinearOrder α]

/-- The inner loop of `SelectSort`. The argument is the number of elements that
are left up to `last`, the last of the vector. The index is counted up after every
one of them. -/
def scanMin (nums : List α) (last : ℕ) : ℕ → ℕ → Option ℕ
  | 0, minIdx => some minIdx
  | d + 1, minIdx => do
    let x ← nums[last - d]?
    let least ← nums[minIdx]?
    let _ ← int (last - d + 1)
    scanMin nums last d (if x < least then last - d else minIdx)

/-- The outer loop of `SelectSort`, in at most so many rounds. -/
def selectLoop : ℕ → ℕ → List α → Option (List α)
  | 0, _, _ => none
  | rounds + 1, i, nums =>
    if i < nums.length - 1 then do
      let minIdx ← scanMin nums (nums.length - 1) (nums.length - 1 - i) i
      let nums ← swap nums i minIdx
      let next ← int (i + 1)
      selectLoop rounds next nums
    else some nums

/-- **`SelectSort`.** -/
def selectSort (nums : List α) : Option (List α) :=
  if nums.length < 2 then some nums else selectLoop (nums.length + 1) 0 nums

/-- The inner loop of `SelectSort2`: `minIdx` and `maxIdx`. The argument is the
number of elements that are left up to `tail`. -/
def scanMinMax (nums : List α) (tail : ℕ) : ℕ → ℕ × ℕ → Option (ℕ × ℕ)
  | 0, idx => some idx
  | d + 1, (minIdx, maxIdx) => do
    let x ← nums[tail - d]?
    let least ← nums[minIdx]?
    let greatest ← nums[maxIdx]?
    let _ ← int (tail - d + 1)
    scanMinMax nums tail d
      (if x < least then tail - d else minIdx, if greatest < x then tail - d else maxIdx)

/-- The loop of `SelectSort2`, in at most so many rounds. -/
def selectLoop2 : ℕ → ℕ → ℤ → List α → Option (List α)
  | 0, _, _, _ => none
  | rounds + 1, head, tail, nums =>
    if head ≤ tail then do
      let last ← tail.toNat?
      let (minIdx, maxIdx) ← scanMinMax nums last (last - head) (head, head)
      if minIdx = maxIdx then some nums
      else do
        let nums ← swap nums head minIdx
        let nums ← swap nums last (if maxIdx = head then minIdx else maxIdx)
        selectLoop2 rounds (head + 1) (tail - 1) nums
    else some nums

/-- **`SelectSort2`.** -/
def selectSort2 (nums : List α) : Option (List α) :=
  if nums.length < 2 then some nums
  else selectLoop2 (nums.length + 1) 0 (wrap (nums.length - 1 : ℕ)) nums

/-! ## The least and the greatest of a part

Both scans keep the index of an element that is at one end of what they have seen.
Of equal elements they keep the first one or the last one, and which of them makes
no difference to the order of what comes out, as the elements are all that is
looked at. -/

/-- The element at `m` is at one end of the part from `lo` up to `hi`, without
`hi`: the least of it if `r` is `≤`, the greatest if `r` is `≥`. -/
structure Extreme {α : Type} (r : α → α → Prop) (lo hi : ℕ) (a : List α) (m : ℕ) : Prop where
  lo_le : lo ≤ m
  lt_hi : m < hi
  bound : ∀ y, a[m]? = some y → ∀ k x, lo ≤ k → k < hi → a[k]? = some x → r y x

namespace Extreme

variable {α : Type} {r : α → α → Prop} {lo hi m i : ℕ} {a b : List α}

theorem single (hrefl : ∀ x, r x x) (lo : ℕ) (a : List α) : Extreme r lo (lo + 1) a lo := by
  refine ⟨Nat.le_refl lo, Nat.lt_succ_self lo, fun y hy k x hk hk' hx => ?_⟩
  obtain rfl : lo = k := by omega
  rw [hy] at hx
  exact Option.some_inj.mp hx ▸ hrefl y

/-- **One more element** is compared with the one found so far. -/
theorem succ [Std.Total r] [IsTrans α r] {x y : α} {c : Prop} [Decidable c]
    (h : Extreme r lo hi a m) (hx : a[hi]? = some x) (hy : a[m]? = some y) (hc : c ↔ ¬ r y x) :
    Extreme r lo (hi + 1) a (if c then hi else m) := by
  have hlo := h.lo_le
  have hhi := h.lt_hi
  have hbound := h.bound y hy
  by_cases hr : r y x
  · rw [if_neg (fun hcond => hc.mp hcond hr)]
    refine ⟨hlo, by omega, fun y' hy' k z hk hk' hz => ?_⟩
    obtain rfl : y = y' := Option.some_inj.mp (hy.symm.trans hy')
    rcases Nat.lt_succ_iff_lt_or_eq.mp hk' with hlt | rfl
    · exact hbound k z hk hlt hz
    · exact Option.some_inj.mp (hx.symm.trans hz) ▸ hr
  · have hrx : r x y := (Std.Total.total x y).resolve_right hr
    rw [if_pos (hc.mpr hr)]
    refine ⟨by omega, Nat.lt_succ_self hi, fun x' hx' k z hk hk' hz => ?_⟩
    obtain rfl : x = x' := Option.some_inj.mp (hx.symm.trans hx')
    rcases Nat.lt_succ_iff_lt_or_eq.mp hk' with hlt | rfl
    · exact IsTrans.trans x y z hrx (hbound k z hk hlt hz)
    · rcases Std.Total.total (r := r) x x with hxx | hxx <;>
        exact Option.some_inj.mp (hx.symm.trans hz) ▸ hxx

theorem of_within (h : Extreme r lo hi a m) (hwithin : Within lo hi a b)
    (hm : b[i]? = a[m]?) (hi' : lo ≤ i ∧ i < hi) : Extreme r lo hi b i :=
  ⟨hi'.1, hi'.2, fun y hy => hwithin.forall_mem (h.bound y (hm.symm.trans hy))⟩

end Extreme

/-- The scan of `SelectSort` finds the least. -/
theorem scanMin_spec {lo d m last : ℕ} {a : List α} (hlast : last < a.length)
    (hint : last + 1 < 2 ^ 31) (hd : d ≤ last) (h : Extreme (· ≤ ·) lo (last + 1 - d) a m) :
    ∃ m', scanMin a last d m = some m' ∧ Extreme (· ≤ ·) lo (last + 1) a m' := by
  induction d generalizing m with
  | zero => exact ⟨m, rfl, h⟩
  | succ d ih =>
    have hm := h.lt_hi
    rw [show last + 1 - (d + 1) = last - d by omega] at h
    have hx : a[last - d]? = some a[last - d] := List.getElem?_eq_getElem (by omega)
    have hy : a[m]? = some a[m] := List.getElem?_eq_getElem (by omega)
    have hnext := h.succ hx hy (not_le (a := a[m]) (b := a[last - d])).symm
    rw [show last - d + 1 = last + 1 - d by omega] at hnext
    obtain ⟨m', hm', hleast⟩ := ih (by omega) hnext
    refine ⟨m', ?_, hleast⟩
    simp only [scanMin, hx, hy, int_of_lt (show last - d + 1 < 2 ^ 31 by omega),
      Option.bind_eq_bind, Option.bind_some]
    exact hm'

/-- The scan of `SelectSort2` finds the least and the greatest. -/
theorem scanMinMax_spec {lo d m n last : ℕ} {a : List α} (hlast : last < a.length)
    (hint : last + 1 < 2 ^ 31) (hd : d ≤ last) (hmin : Extreme (· ≤ ·) lo (last + 1 - d) a m)
    (hmax : Extreme (· ≥ ·) lo (last + 1 - d) a n) :
    ∃ m' n', scanMinMax a last d (m, n) = some (m', n')
      ∧ Extreme (· ≤ ·) lo (last + 1) a m' ∧ Extreme (· ≥ ·) lo (last + 1) a n' := by
  induction d generalizing m n with
  | zero => exact ⟨m, n, rfl, hmin, hmax⟩
  | succ d ih =>
    have hm := hmin.lt_hi
    have hn := hmax.lt_hi
    rw [show last + 1 - (d + 1) = last - d by omega] at hmin hmax
    have hx : a[last - d]? = some a[last - d] := List.getElem?_eq_getElem (by omega)
    have hy : a[m]? = some a[m] := List.getElem?_eq_getElem (by omega)
    have hz : a[n]? = some a[n] := List.getElem?_eq_getElem (by omega)
    have hmin' := hmin.succ hx hy (not_le (a := a[m]) (b := a[last - d])).symm
    have hmax' := hmax.succ hx hz (not_le (a := a[last - d]) (b := a[n])).symm
    rw [show last - d + 1 = last + 1 - d by omega] at hmin' hmax'
    obtain ⟨m', n', hscan, hleast, hgreatest⟩ := ih (by omega) hmin' hmax'
    refine ⟨m', n', ?_, hleast, hgreatest⟩
    simp only [scanMinMax, hx, hy, hz, int_of_lt (show last - d + 1 < 2 ^ 31 by omega),
      Option.bind_eq_bind, Option.bind_some]
    exact hscan

/-! ## The rounds

`SelectSort2` places two elements in a round. If the greatest is the first of the
part, the swap that puts the least in front moves it to where the least was, and
the second swap must look for it there. When what is left is one element, or when
all that is left are equal, there is nothing to be placed any more. -/

/-- **What is before `head`, and what is from `hi` on, is where it belongs**:
nothing behind an element of the first part is smaller, and nothing before an
element of the last part is greater. -/
structure Placed (head hi : ℕ) (a : List α) : Prop where
  below : ∀ k k' x y, k < head → k < k' → a[k]? = some x → a[k']? = some y → x ≤ y
  above : ∀ k k' x y, hi ≤ k' → k < k' → a[k]? = some x → a[k']? = some y → x ≤ y

namespace Placed

variable {head hi : ℕ} {a b : List α}

theorem start (a : List α) : Placed 0 a.length a where
  below := fun _ _ _ _ hk => absurd hk (Nat.not_lt_zero _)
  above := fun _ k' _ _ hk' _ _ hy => by
    rw [List.getElem?_eq_none hk'] at hy
    cases hy

/-- What is between them can be rearranged. -/
theorem of_within (h : Placed head hi a) (hwithin : Within head hi a b) : Placed head hi b where
  below := fun k k' x y hk hkk' hx hy => by
    rw [hwithin.outside k (Or.inl hk)] at hx
    by_cases hout : k' < head ∨ hi ≤ k'
    · rw [hwithin.outside k' hout] at hy
      exact h.below k k' x y hk hkk' hx hy
    · exact hwithin.forall_mem (P := fun z => x ≤ z)
        (fun j z hj _ hz => h.below k j x z hk (by omega) hx hz) k' y (by omega) (by omega) hy
  above := fun k k' x y hk' hkk' hx hy => by
    rw [hwithin.outside k' (Or.inr hk')] at hy
    by_cases hout : k < head ∨ hi ≤ k
    · rw [hwithin.outside k hout] at hx
      exact h.above k k' x y hk' hkk' hx hy
    · exact hwithin.forall_mem (P := fun z => z ≤ y)
        (fun j z _ hj hz => h.above j k' z y hk' (by omega) hz hy) k x (by omega) (by omega) hx

theorem head_succ (h : Placed head hi a) (hleast : Extreme (· ≤ ·) head hi a head) :
    Placed (head + 1) hi a where
  below := fun k k' x y hk hkk' hx hy => by
    rcases Nat.lt_succ_iff_lt_or_eq.mp hk with hlt | rfl
    · exact h.below k k' x y hlt hkk' hx hy
    · rcases Nat.lt_or_ge k' hi with hlt | hge
      · exact hleast.bound x hx k' y hkk'.le hlt hy
      · exact h.above k k' x y hge hkk' hx hy
  above := h.above

theorem tail_pred (h : Placed head (hi + 1) a) (hgreatest : Extreme (· ≥ ·) head (hi + 1) a hi) :
    Placed head hi a where
  below := h.below
  above := fun k k' x y hk' hkk' hx hy => by
    rcases Nat.eq_or_lt_of_le hk' with rfl | hlt
    · rcases Nat.lt_or_ge k head with hlt | hge
      · exact h.below k _ x y hlt hkk' hx hy
      · exact hgreatest.bound y hy k x hge (by omega) hx
    · exact h.above k k' x y hlt hkk' hx hy

/-- **The vector is in order** if what is left of it is. -/
theorem pairwise (h : Placed head hi a) (hmiddle : SortedOn head hi a) : a.Pairwise (· ≤ ·) := by
  refine sortedOn_iff_pairwise.mp (fun k k' x y _ hkk' _ hx hy => ?_)
  rcases Nat.lt_or_ge k head with hlt | hge
  · exact h.below k k' x y hlt hkk' hx hy
  · rcases Nat.lt_or_ge k' hi with hlt' | hge'
    · exact hmiddle k k' x y hge hkk' hlt' hx hy
    · exact h.above k k' x y hge' hkk' hx hy

end Placed

theorem sortedOn_of_extreme {lo hi m : ℕ} {a : List α} (hhi : hi ≤ a.length)
    (hmin : Extreme (· ≤ ·) lo hi a m) (hmax : Extreme (· ≥ ·) lo hi a m) : SortedOn lo hi a := by
  have hm := hmin.lt_hi
  have hv : a[m]? = some a[m] := List.getElem?_eq_getElem (by omega)
  intro k k' x y hk hkk' hk' hx hy
  exact (hmax.bound _ hv k x hk (by omega) hx).trans (hmin.bound _ hv k' y (by omega) hk' hy)

/-- **`SelectSort` sorts** from any round on. -/
theorem selectLoop_spec {rounds i : ℕ} {a : List α} (hint : a.length < 2 ^ 31)
    (h : Placed i a.length a) (hrounds : a.length - i < rounds) :
    ∃ b, selectLoop rounds i a = some b ∧ b.Perm a ∧ b.Pairwise (· ≤ ·) := by
  induction rounds generalizing i a with
  | zero => exact absurd hrounds (Nat.not_lt_zero _)
  | succ rounds ih =>
    unfold selectLoop
    split
    · next hi =>
      have hstart : Extreme (· ≤ ·) i (a.length - 1 + 1 - (a.length - 1 - i)) a i := by
        rw [show a.length - 1 + 1 - (a.length - 1 - i) = i + 1 by omega]
        exact .single le_refl i a
      obtain ⟨m, hm, hleast⟩ := scanMin_spec (by omega) (by omega) (by omega) hstart
      rw [Nat.sub_add_cancel (by omega)] at hleast
      obtain ⟨b, hswap, hswapped⟩ := exists_swap (show i < a.length by omega) hleast.lt_hi
      have hwithin : Within i a.length a b :=
        .of_swapped hswapped ⟨Nat.le_refl i, by omega⟩ ⟨hleast.lo_le, hleast.lt_hi⟩
      have hfirst := hleast.of_within hwithin hswapped.left ⟨Nat.le_refl i, by omega⟩
      have hplaced := (h.of_within hwithin).head_succ hfirst
      rw [← hwithin.length_eq] at hplaced
      obtain ⟨c, hc, hperm, hsorted⟩ := ih (by rwa [hwithin.length_eq]) hplaced
        (by rw [hwithin.length_eq]; omega)
      simp only [hm, hswap, int_of_lt (show i + 1 < 2 ^ 31 by omega), hc, Option.bind_eq_bind,
        Option.bind_some]
      exact ⟨c, rfl, hperm.trans hswapped.perm, hsorted⟩
    · next hi => exact ⟨a, rfl, List.Perm.refl a, h.pairwise (sortedOn_of_le (by omega) a)⟩

/-- **The two swaps of a round** of `SelectSort2` put the least first and the
greatest last, also where the first swap moves the greatest. -/
theorem swap_swap_spec {head last m n : ℕ} {a : List α} (hlast : last < a.length)
    (hmin : Extreme (· ≤ ·) head (last + 1) a m) (hmax : Extreme (· ≥ ·) head (last + 1) a n)
    (hne : m ≠ n) :
    ∃ b c, head < last ∧ swap a head m = some b
      ∧ swap b last (if n = head then m else n) = some c
      ∧ Within head (last + 1) a c ∧ Extreme (· ≤ ·) head (last + 1) c head
      ∧ Extreme (· ≥ ·) head (last + 1) c last := by
  have hm := hmin.lo_le
  have hm' := hmin.lt_hi
  have hn := hmax.lo_le
  have hn' := hmax.lt_hi
  obtain ⟨b, hswap, hswapped⟩ := exists_swap (show head < a.length by omega)
    (show m < a.length by omega)
  have hwithin : Within head (last + 1) a b :=
    .of_swapped hswapped ⟨Nat.le_refl head, by omega⟩ ⟨hm, hm'⟩
  have hlength := hwithin.length_eq
  -- where the greatest is after the first swap
  obtain ⟨n', hn'eq⟩ : ∃ n', n' = if n = head then m else n := ⟨_, rfl⟩
  have hmoved : head < n' ∧ n' < last + 1 ∧ b[n']? = a[n]? := by
    rw [hn'eq]
    split
    · next heq => exact ⟨by omega, hm', heq ▸ hswapped.right⟩
    · next hother => exact ⟨by omega, hn', hswapped.other n hother hne.symm⟩
  obtain ⟨hheadn', hn'last, hbn'⟩ := hmoved
  obtain ⟨c, hswap', hswapped'⟩ := exists_swap (show last < b.length by omega)
    (show n' < b.length by omega)
  have hwithin' : Within head (last + 1) b c :=
    .of_swapped hswapped' ⟨by omega, by omega⟩ ⟨hheadn'.le, hn'last⟩
  have hleast := hmin.of_within hwithin hswapped.left ⟨Nat.le_refl head, by omega⟩
  have hgreatest := hmax.of_within hwithin hbn' ⟨hheadn'.le, hn'last⟩
  rw [hn'eq] at hswap'
  exact ⟨b, c, by omega, hswap, hswap', hwithin.trans hwithin',
    hleast.of_within hwithin' (hswapped'.other head (by omega) (by omega))
      ⟨Nat.le_refl head, by omega⟩,
    hgreatest.of_within hwithin' hswapped'.left ⟨by omega, by omega⟩⟩

/-- **`SelectSort2` sorts** from any round on. -/
theorem selectLoop2_spec {rounds head hi : ℕ} {a : List α} (hhi : hi ≤ a.length)
    (hint : a.length < 2 ^ 31) (h : Placed head hi a) (hrounds : hi - head < rounds) :
    ∃ b, selectLoop2 rounds head ((hi : ℤ) - 1) a = some b ∧ b.Perm a ∧ b.Pairwise (· ≤ ·) := by
  induction rounds generalizing head hi a with
  | zero => exact absurd hrounds (Nat.not_lt_zero _)
  | succ rounds ih =>
    unfold selectLoop2
    split
    · next hmore =>
      obtain ⟨last, rfl⟩ : ∃ last, hi = last + 1 := ⟨hi - 1, by omega⟩
      have hend : last + 1 - (last - head) = head + 1 := by omega
      have hleast : Extreme (· ≤ ·) head (last + 1 - (last - head)) a head :=
        hend ▸ Extreme.single le_refl head a
      have hgreatest : Extreme (· ≥ ·) head (last + 1 - (last - head)) a head :=
        hend ▸ Extreme.single (r := (· ≥ ·)) le_refl head a
      obtain ⟨m, n, hscan, hmin, hmax⟩ :=
        scanMinMax_spec hhi (by omega) (Nat.sub_le last head) hleast hgreatest
      have htail : (((last + 1 : ℕ) : ℤ) - 1).toNat? = some last := toNat?_last (Nat.succ_pos last)
      simp only [htail, hscan, Option.bind_eq_bind, Option.bind_some]
      split
      · next heq =>
        subst heq
        exact ⟨a, rfl, List.Perm.refl a, h.pairwise (sortedOn_of_extreme hhi hmin hmax)⟩
      · next hne =>
        obtain ⟨b, c, hlt, hswap, hswap', hwithin, hfirst, hlast⟩ :=
          swap_swap_spec hhi hmin hmax hne
        have hplaced : Placed (head + 1) last c :=
          ((h.of_within hwithin).tail_pred hlast).head_succ
            ⟨hfirst.lo_le, hlt, fun y hy k x hk hk' hx => hfirst.bound y hy k x hk (by omega) hx⟩
        have hlength := hwithin.length_eq
        obtain ⟨d, hd, hperm, hsorted⟩ := ih (by omega) (by omega) hplaced (by omega)
        simp only [hswap, hswap', Option.bind_some]
        rw [show ((last + 1 : ℕ) : ℤ) - 1 - 1 = (last : ℤ) - 1 by omega]
        exact ⟨d, hd, hperm.trans hwithin.perm, hsorted⟩
    · next hless => exact ⟨a, rfl, List.Perm.refl a, h.pairwise (sortedOn_of_le (by omega) a)⟩

/-- **The selection sorts agree**: each comes to an end, keeps to the vector, and
leaves its elements in order, if there are fewer than `2 ^ 31` of them. -/
theorem selectSorts_agree {nums : List α} (hint : nums.length < 2 ^ 31) :
    ∃ r, r.Perm nums ∧ r.Pairwise (· ≤ ·) ∧ selectSort nums = some r
      ∧ selectSort2 nums = some r := by
  unfold selectSort selectSort2
  split
  · next hshort =>
    exact ⟨nums, List.Perm.refl nums, pairwise_of_length_lt_two hshort, rfl, rfl⟩
  · obtain ⟨r, hr, hperm, hsorted⟩ := selectLoop_spec hint (Placed.start nums)
      (show nums.length - 0 < nums.length + 1 by omega)
    obtain ⟨r₂, hr₂, hperm₂, hsorted₂⟩ := selectLoop2_spec (Nat.le_refl _) hint
      (Placed.start nums) (show nums.length - 0 < nums.length + 1 by omega)
    have heq : r₂ = r := (hperm₂.trans hperm.symm).eq_of_pairwise' hsorted₂ hsorted
    rw [wrap_pred (by omega) hint.le]
    exact ⟨r, hperm, hsorted, hr, heq ▸ hr₂⟩

/-- Five numbers, of which the greatest comes first: the first swap moves it. -/
theorem selectSorts_agree_five :
    ∃ r, r.Perm [(9 : ℤ), 4, -2, 4, 0] ∧ r.Pairwise (· ≤ ·)
      ∧ selectSort [9, 4, -2, 4, 0] = some r ∧ selectSort2 [9, 4, -2, 4, 0] = some r :=
  selectSorts_agree (by decide)

/-- **The inner loop counts beyond the last element**, and that is no `int` where
there are `2 ^ 31` elements. -/
theorem scanMin_eq_none {last : ℕ} (h : 2 ^ 31 ≤ last + 1) (d m : ℕ) (nums : List α) :
    scanMin nums last (d + 1) m = none := by
  induction d generalizing m with
  | zero =>
    refine Option.bind_eq_none_iff.mpr fun x _ => Option.bind_eq_none_iff.mpr fun least _ => ?_
    rw [Nat.sub_zero, int_of_le h]
    rfl
  | succ d ih =>
    exact Option.bind_eq_none_iff.mpr fun x _ => Option.bind_eq_none_iff.mpr fun least _ =>
      Option.bind_eq_none_iff.mpr fun _ _ => ih _

/-- `2 ^ 31` zeros. -/
theorem selectSort_zeros :
    ¬ ∃ r, r.Perm (List.replicate (2 ^ 31) (0 : ℤ)) ∧ r.Pairwise (· ≤ ·)
      ∧ selectSort (List.replicate (2 ^ 31) (0 : ℤ)) = some r
      ∧ selectSort2 (List.replicate (2 ^ 31) (0 : ℤ)) = some r := by
  rintro ⟨r, -, -, hr, -⟩
  have hnone : ∀ nums : List ℤ, nums.length = 2 ^ 31 → selectSort nums = none := by
    intro nums hlength
    obtain ⟨d, hd⟩ : ∃ d, nums.length - 1 - 0 = d + 1 := ⟨2 ^ 31 - 2, by omega⟩
    unfold selectSort selectLoop
    rw [if_neg (by omega), if_pos (by omega), hd, scanMin_eq_none (by omega)]
    rfl
  rw [hnone _ List.length_replicate] at hr
  cases hr

end Sorting
