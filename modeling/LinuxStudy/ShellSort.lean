import Mathlib.Algebra.Order.Ring.Int
import LinuxStudy.InPlace
import LinuxStudy.IntArith

/-!
# Shell sort

`ShellSort` takes the elements of the vector that are `gap` apart for a vector
of its own, and sorts every such vector by insertion. It does so for a gap of
half the length, then for half of that, and so on down to one.

The elements that are `gap` apart are at `st`, `st + gap`, `st + 2 * gap` and so
on, for one `st` below the gap: a class. An insertion moves elements of one class
up and leaves a hole among them, which it fills in the end. The other classes are
elsewhere in the vector, so that they stay as they are, and a pass puts one
class after the other in order. Where the gap does not divide the length, the
first classes have an element more than the others.

The index `cur` of an insertion gets below zero where an element becomes the
first of its class, and is an integer for that reason.

The loop over a class counts a gap beyond the vector, which in the first pass is
half as far again as the vector is long. That is an `int` for up to 1431655765
elements, and with one more it is none (`passLoop_eq_none`).
-/

namespace Sorting

open InPlace IntArith

variable {α : Type} [LinearOrder α]

/-- The inner loop: `cur` and the vector after it, in at most so many rounds. -/
def shiftLoop (gap st : ℕ) (tmp : α) : ℕ → ℤ → List α → Option (ℤ × List α)
  | 0, _, _ => none
  | rounds + 1, cur, nums =>
    if st ≤ cur then do
      let k ← cur.toNat?
      let y ← nums[k]?
      if tmp < y then do
        let nums ← put nums (k + gap) y
        shiftLoop gap st tmp rounds (cur - gap) nums
      else some (cur, nums)
    else some (cur, nums)

/-- The insertion of the element at `i` among those of its class before it. -/
def gapInsert (gap st i : ℕ) (nums : List α) : Option (List α) := do
  let tmp ← nums[i]?
  let (cur, nums) ← shiftLoop gap st tmp (i + 1) (i - gap) nums
  let k ← (cur + gap).toNat?
  put nums k tmp

/-- The loop over a class, in at most so many rounds. -/
def classLoop (len gap st : ℕ) : ℕ → ℕ → List α → Option (List α)
  | 0, _, _ => none
  | rounds + 1, i, nums =>
    if i < len then do
      let nums ← gapInsert gap st i nums
      let next ← int (i + gap)
      classLoop len gap st rounds next nums
    else some nums

/-- The loop over the classes. The argument is `gap-st`. -/
def passLoop (len gap : ℕ) : ℕ → List α → Option (List α)
  | 0, nums => some nums
  | d + 1, nums => do
    let st := gap - (d + 1)
    let nums ← classLoop len gap st (nums.length + 1) (st + gap) nums
    passLoop len gap d nums

/-- **A pass**: what `ShellSort` does for one gap. -/
def gapPass (len gap : ℕ) (nums : List α) : Option (List α) := passLoop len gap gap nums

/-- The loop over the gaps, in at most so many rounds. -/
def shellLoop (len : ℕ) : ℕ → ℕ → List α → Option (List α)
  | 0, _, _ => none
  | rounds + 1, gap, nums =>
    if 0 < gap then do
      let nums ← gapPass len gap nums
      shellLoop len rounds (gap / 2) nums
    else some nums

/-- **`ShellSort`.** A negative `len` has no positive `gap`, as zero has none. -/
def shellSort (nums : List α) : Option (List α) :=
  if nums.length < 2 then some nums
  else
    let len := (wrap nums.length).toNat
    shellLoop len (nums.length + 1) (len / 2) nums

/-- The gap and the vector after so many passes. -/
def afterPasses (nums : List α) : ℕ → Option (ℕ × List α)
  | 0 => some (nums.length / 2, nums)
  | p + 1 => do
    let (gap, before) ← afterPasses nums p
    let after ← gapPass nums.length gap before
    return (gap / 2, after)

/-! ## The elements that are a gap apart

The elements that are a gap apart form a class, and an insertion works on one
class as insertion sort does on a vector. The index of an element modulo the gap
tells its class. So whatever is done in one class leaves the others as they are,
and a pass is as many sorts as the gap has classes. -/

/-- The first `m` elements of a class are in order. -/
def ClassSorted (gap st m : ℕ) (a : List α) : Prop :=
  ∀ j j' x y, j < j' → j' < m → a[st + gap * j]? = some x → a[st + gap * j']? = some y → x ≤ y

/-- **The elements that are a gap apart** are in order, wherever one begins. -/
def GapSorted (gap : ℕ) (a : List α) : Prop :=
  ∀ st j j' x y, j < j' → a[st + gap * j]? = some x → a[st + gap * j']? = some y → x ≤ y

/-- Only the class of `st` is rearranged. -/
structure WithinClass {α : Type} (gap st : ℕ) (a b : List α) : Prop where
  perm : b.Perm a
  outside : ∀ k, k % gap ≠ st → b[k]? = a[k]?

theorem WithinClass.refl {α : Type} (gap st : ℕ) (a : List α) : WithinClass gap st a a :=
  ⟨List.Perm.refl a, fun _ _ => rfl⟩

theorem WithinClass.trans {α : Type} {gap st : ℕ} {a b c : List α} (h : WithinClass gap st a b)
    (h' : WithinClass gap st b c) : WithinClass gap st a c :=
  ⟨h'.perm.trans h.perm, fun k hk => (h'.outside k hk).trans (h.outside k hk)⟩

theorem add_mul_mod {gap st : ℕ} (h : st < gap) (j : ℕ) : (st + gap * j) % gap = st := by
  rw [Nat.add_mul_mod_self_left, Nat.mod_eq_of_lt h]

theorem add_mul_inj {gap st j j' : ℕ} (h : st < gap) :
    st + gap * j = st + gap * j' ↔ j = j' := by
  rw [Nat.add_left_cancel_iff, Nat.mul_right_inj (by omega)]

/-- What is read of a class after one of its elements was written. -/
theorem getElem?_set_class_cases {β : Type} {a : List β} {x y : β} {gap st j c : ℕ} (h : st < gap)
    (hread : (a.set (st + gap * c) x)[st + gap * j]? = some y) :
    (j = c ∧ x = y) ∨ (j ≠ c ∧ a[st + gap * j]? = some y) := by
  by_cases hj : j = c
  · subst hj
    rw [List.getElem?_set_self'] at hread
    obtain ⟨_, _, heq⟩ := Option.map_eq_some_iff.mp hread
    exact Or.inl ⟨rfl, heq⟩
  · rw [List.getElem?_set_ne (fun heq => hj ((add_mul_inj h).mp heq.symm))] at hread
    exact Or.inr ⟨hj, hread⟩

theorem ClassSorted.of_withinClass {gap st st' m : ℕ} {a b : List α} (h : ClassSorted gap st' m a)
    (hwithin : WithinClass gap st a b) (hst' : st' < gap) (hne : st' ≠ st) :
    ClassSorted gap st' m b := by
  intro j j' x y hjj' hj' hx hy
  rw [hwithin.outside _ (by rwa [add_mul_mod hst'])] at hx hy
  exact h j j' x y hjj' hj' hx hy

/-- Classes that are in order as far as the vector goes. -/
theorem gapSorted_of_classSorted {gap : ℕ} {a : List α} (hgap : 0 < gap)
    (h : ∀ st < gap, ClassSorted gap st a.length a) : GapSorted gap a := by
  intro st j j' x y hjj' hx hy
  have hindex : ∀ j, st + gap * j = st % gap + gap * (st / gap + j) := by
    intro j
    rw [Nat.mul_add, ← Nat.add_assoc, Nat.mod_add_div]
  have hlt : st / gap + j' < a.length := by
    have hlt' := (List.getElem?_eq_some_iff.mp hy).1
    rw [hindex] at hlt'
    have := Nat.le_mul_of_pos_left (st / gap + j') hgap
    omega
  rw [hindex] at hx hy
  exact h (st % gap) (Nat.mod_lt st hgap) _ _ x y (by omega) hlt hx hy

theorem GapSorted.pairwise {a : List α} (h : GapSorted 1 a) : a.Pairwise (· ≤ ·) := by
  refine sortedOn_iff_pairwise.mp (fun k k' x y _ hkk' _ hx hy => ?_)
  refine h 0 k k' x y hkk' ?_ ?_
  · rwa [Nat.zero_add, Nat.one_mul]
  · rwa [Nat.zero_add, Nat.one_mul]

/-! ## An insertion -/

/-- **A class with a hole**: its first `m` elements are in order but for the one
at `c`, and none behind that is less than the element the hole is for. -/
structure ClassHole (gap st m c : ℕ) (tmp : α) (a : List α) : Prop where
  others : ∀ j j' x y, j < j' → j' < m → j ≠ c → j' ≠ c → a[st + gap * j]? = some x
    → a[st + gap * j']? = some y → x ≤ y
  behind : ∀ j x, c < j → j < m → a[st + gap * j]? = some x → tmp ≤ x

namespace ClassHole

variable {gap st m c : ℕ} {tmp : α} {a : List α}

theorem of_classSorted (h : ClassSorted gap st m a) (tmp : α) :
    ClassHole gap st (m + 1) m tmp a where
  others := fun j j' x y hjj' _ _ hj' => h j j' x y hjj' (by omega)
  behind := fun j _ hj _ => by omega

/-- A greater element moves up into the hole. -/
theorem shift {y : α} (h : ClassHole gap st m (c + 1) tmp a) (hst : st < gap)
    (hc : c + 1 < m) (hy : a[st + gap * c]? = some y) (hlt : tmp < y) :
    ClassHole gap st m c tmp (a.set (st + gap * (c + 1)) y) := by
  refine ⟨fun j j' x z hjj' hj' hjc hj'c hx hz => ?_, fun j x hj hjm hx => ?_⟩
  · rcases getElem?_set_class_cases hst hx with ⟨rfl, rfl⟩ | ⟨hjhole, hx'⟩
    · rcases getElem?_set_class_cases hst hz with ⟨rfl, _⟩ | ⟨hj'hole, hz'⟩
      · exact absurd hjj' (Nat.lt_irrefl _)
      · exact h.others c j' y z (by omega) hj' (by omega) hj'hole hy hz'
    · rcases getElem?_set_class_cases hst hz with ⟨rfl, rfl⟩ | ⟨hj'hole, hz'⟩
      · exact h.others j c x y (by omega) (by omega) hjhole (by omega) hx' hy
      · exact h.others j j' x z hjj' hj' hjhole hj'hole hx' hz'
  · rcases getElem?_set_class_cases hst hx with ⟨_, rfl⟩ | ⟨hjhole, hx'⟩
    · exact hlt.le
    · exact h.behind j x (by omega) hjm hx'

/-- **The hole is filled** where nothing before it is greater. -/
theorem fill (h : ClassHole gap st m c tmp a) (hst : st < gap)
    (hbefore : ∀ j x, j < c → a[st + gap * j]? = some x → x ≤ tmp) :
    ClassSorted gap st m (a.set (st + gap * c) tmp) := by
  intro j j' x y hjj' hj' hx hy
  rcases getElem?_set_class_cases hst hx with ⟨rfl, rfl⟩ | ⟨hjhole, hx'⟩
  · rcases getElem?_set_class_cases hst hy with ⟨rfl, _⟩ | ⟨_, hy'⟩
    · exact absurd hjj' (Nat.lt_irrefl _)
    · exact h.behind j' y hjj' hj' hy'
  · rcases getElem?_set_class_cases hst hy with ⟨rfl, rfl⟩ | ⟨hj'hole, hy'⟩
    · exact hbefore j x hjj' hx'
    · exact h.others j j' x y hjj' hj' hjhole hj'hole hx' hy'

end ClassHole

/-- To move an element into the hole and to put the element the hole is for in
its place is to swap the two. -/
theorem WithinClass.shift {β : Type} {a : List β} {x y : β} {gap st c : ℕ} (hst : st < gap)
    (hc : st + gap * (c + 1) < a.length) (hy : a[st + gap * c]? = some y) :
    WithinClass gap st (a.set (st + gap * (c + 1)) x)
      ((a.set (st + gap * (c + 1)) y).set (st + gap * c) x) := by
  refine ⟨?_, fun k hk => ?_⟩
  · obtain ⟨hc', rfl⟩ := List.getElem?_eq_some_iff.mp hy
    have hne : st + gap * (c + 1) ≠ st + gap * c := fun heq => by
      rw [add_mul_inj hst] at heq
      omega
    have hhole : st + gap * (c + 1) < (a.set (st + gap * (c + 1)) x).length := by
      rwa [List.length_set]
    have hbefore : st + gap * c < (a.set (st + gap * (c + 1)) x).length := by
      rwa [List.length_set]
    have hperm := List.set_set_perm hhole hbefore
    rwa [List.getElem_set_self, List.getElem_set_ne hne, List.set_set] at hperm
  · have hne : ∀ j, st + gap * j ≠ k := fun j heq => hk (heq ▸ add_mul_mod hst j)
    rw [List.getElem?_set_ne (hne _), List.getElem?_set_ne (hne _), List.getElem?_set_ne (hne _)]

/-- **The inner loop** leaves the hole where the element belongs. The hole is a
gap behind `cur`. -/
theorem shiftLoop_spec {gap st m c rounds : ℕ} {tmp : α} {a : List α} (hst : st < gap)
    (hc : c < m) (hlength : st + gap * c < a.length) (h : ClassHole gap st m c tmp a)
    (hrounds : c < rounds) :
    ∃ cur b c', shiftLoop gap st tmp rounds (((st + gap * c : ℕ) : ℤ) - gap) a = some (cur, b)
      ∧ cur + gap = ((st + gap * c' : ℕ) : ℤ) ∧ st + gap * c' < b.length
      ∧ ClassSorted gap st m (b.set (st + gap * c') tmp)
      ∧ WithinClass gap st (a.set (st + gap * c) tmp) (b.set (st + gap * c') tmp) := by
  induction c generalizing rounds a with
  | zero =>
    obtain ⟨rounds, rfl⟩ : ∃ r, rounds = r + 1 := ⟨rounds - 1, by omega⟩
    refine ⟨((st + gap * 0 : ℕ) : ℤ) - gap, a, 0, ?_, by omega, hlength,
      h.fill hst (fun j _ hj => by omega), WithinClass.refl gap st _⟩
    unfold shiftLoop
    rw [if_neg (by omega)]
  | succ c ih =>
    obtain ⟨rounds, rfl⟩ : ∃ r, rounds = r + 1 := ⟨rounds - 1, by omega⟩
    have hcur : ((st + gap * (c + 1) : ℕ) : ℤ) - gap = ((st + gap * c : ℕ) : ℤ) := by
      rw [Nat.mul_succ]
      omega
    have hput : st + gap * c + gap = st + gap * (c + 1) := by
      rw [Nat.mul_succ, Nat.add_assoc]
    have hy : a[st + gap * c]? = some a[st + gap * c] := List.getElem?_eq_getElem (by omega)
    obtain ⟨y, hyeq⟩ : ∃ y, y = a[st + gap * c] := ⟨_, rfl⟩
    rw [← hyeq] at hy
    unfold shiftLoop
    have hindex : ((st + gap * c : ℕ) : ℤ).toNat? = some (st + gap * c) := rfl
    rw [hcur, if_pos (by omega), hindex]
    simp only [hy, Option.bind_eq_bind, Option.bind_some]
    split
    · next hlt =>
      rw [hput, put_of_lt hlength, Option.bind_some]
      obtain ⟨cur, b, c', hloop, hcur', hb, hsorted, hwithin⟩ := ih (by omega)
        (by rw [List.length_set]; omega) (h.shift hst hc hy hlt) (show c < rounds by omega)
      exact ⟨cur, b, c', hloop, hcur', hb, hsorted,
        (WithinClass.shift hst hlength hy).trans hwithin⟩
    · next hge =>
      refine ⟨_, a, c + 1, rfl, by omega, hlength, h.fill hst (fun j x hj hx => ?_),
        WithinClass.refl gap st _⟩
      refine le_trans ?_ (not_lt.mp hge)
      rcases Nat.lt_succ_iff_lt_or_eq.mp hj with hlt | rfl
      · exact h.others j c x y hlt (by omega) (by omega) (by omega) hx hy
      · exact (Option.some_inj.mp (hx.symm.trans hy)).le

/-- **An insertion** puts one more element of a class in order. -/
theorem gapInsert_spec {gap st m : ℕ} {a : List α} (hst : st < gap)
    (hlength : st + gap * m < a.length) (h : ClassSorted gap st m a) :
    ∃ b, gapInsert gap st (st + gap * m) a = some b ∧ ClassSorted gap st (m + 1) b
      ∧ WithinClass gap st a b := by
  have htmp : a[st + gap * m]? = some a[st + gap * m] := List.getElem?_eq_getElem hlength
  have hrounds : m < st + gap * m + 1 := by
    have := Nat.le_mul_of_pos_left m (show 0 < gap by omega)
    omega
  obtain ⟨cur, b, c, hloop, hcur, hb, hsorted, hwithin⟩ := shiftLoop_spec hst (Nat.lt_succ_self m)
    hlength (ClassHole.of_classSorted h a[st + gap * m]) hrounds
  rw [List.set_getElem_self] at hwithin
  refine ⟨_, ?_, hsorted, hwithin⟩
  unfold gapInsert
  simp only [htmp, hloop, hcur, Option.bind_eq_bind, Option.bind_some]
  exact put_of_lt hb _

/-! ## A pass -/

/-- **The loop over a class** puts it in order. -/
theorem classLoop_spec {gap st m rounds : ℕ} {a : List α} (hst : st < gap)
    (hint : a.length + gap ≤ 2 ^ 31) (h : ClassSorted gap st m a)
    (hrounds : a.length < rounds + m) (hpos : 0 < rounds) :
    ∃ b, classLoop a.length gap st rounds (st + gap * m) a = some b
      ∧ ClassSorted gap st b.length b ∧ WithinClass gap st a b := by
  induction rounds generalizing m a with
  | zero => exact absurd hpos (Nat.lt_irrefl 0)
  | succ rounds ih =>
    unfold classLoop
    split
    · next hlt =>
      obtain ⟨b, hb, hsorted, hwithin⟩ := gapInsert_spec hst hlt h
      have hlength := hwithin.perm.length_eq
      have hm : m ≤ gap * m := Nat.le_mul_of_pos_left m (by omega)
      obtain ⟨c, hc, hsorted', hwithin'⟩ := ih (by omega) hsorted (by omega) (by omega)
      rw [Nat.mul_succ, ← Nat.add_assoc, hlength] at hc
      simp only [hb, int_of_lt (show st + gap * m + gap < 2 ^ 31 by omega), Option.bind_eq_bind,
        Option.bind_some]
      exact ⟨c, hc, hsorted', hwithin.trans hwithin'⟩
    · next hge =>
      -- the elements of the class are all before `m`
      refine ⟨a, rfl, fun j j' x y hjj' _ hx hy => h j j' x y hjj' ?_ hx hy,
        WithinClass.refl gap st a⟩
      have hlt := (List.getElem?_eq_some_iff.mp hy).1
      exact Nat.lt_of_mul_lt_mul_left (a := gap) (by omega)

/-- **The loop over the classes** puts them in order one after the other. -/
theorem passLoop_spec {gap d : ℕ} {a : List α} (hint : a.length + gap ≤ 2 ^ 31) (hd : d ≤ gap)
    (h : ∀ st < gap - d, ClassSorted gap st a.length a) :
    ∃ b, passLoop a.length gap d a = some b ∧ b.Perm a
      ∧ ∀ st < gap, ClassSorted gap st b.length b := by
  induction d generalizing a with
  | zero => exact ⟨a, rfl, List.Perm.refl a, h⟩
  | succ d ih =>
    -- the first element of a class is in order
    have hfirst : ClassSorted gap (gap - (d + 1)) 1 a := fun j j' _ _ hjj' hj' => by omega
    obtain ⟨b, hb, hsorted, hwithin⟩ := classLoop_spec (show gap - (d + 1) < gap by omega) hint
      hfirst (show a.length < a.length + 1 + 1 by omega) (Nat.succ_pos _)
    rw [Nat.mul_one] at hb
    have hlength := hwithin.perm.length_eq
    obtain ⟨c, hc, hperm, hall⟩ := ih (a := b) (by omega) (by omega) (fun st hst => by
      rcases Nat.lt_or_ge st (gap - (d + 1)) with hlt | hge
      · rw [hlength]
        exact (h st hlt).of_withinClass hwithin (by omega) (by omega)
      · obtain rfl : st = gap - (d + 1) := by omega
        exact hsorted)
    rw [hlength] at hc
    refine ⟨c, ?_, hperm.trans hwithin.perm, hall⟩
    simp only [passLoop, hb, hc, Option.bind_eq_bind, Option.bind_some]

/-- **A pass** puts the elements that are a gap apart in order. -/
theorem gapPass_spec {gap : ℕ} {a : List α} (hint : a.length + gap ≤ 2 ^ 31) :
    ∃ b, gapPass a.length gap a = some b ∧ b.Perm a ∧ GapSorted gap b := by
  obtain ⟨b, hb, hperm, hall⟩ := passLoop_spec hint (Nat.le_refl gap) (fun st hst => by omega)
  refine ⟨b, hb, hperm, ?_⟩
  rcases Nat.eq_zero_or_pos gap with rfl | hpos
  · intro st j j' x y _ hx hy
    rw [Nat.zero_mul] at hx hy
    exact (Option.some_inj.mp (hx.symm.trans hy)).le
  · exact gapSorted_of_classSorted hpos hall

/-! ## The passes

The gap is halved until it is zero. Nothing is used of the passes with a greater
gap but that they rearrange: the last pass has gap one and is an insertion sort of
the whole vector. What the others are for is speed.

The indices go up by the gap, and the last one to be computed is the first that is
not in the vector. In the first pass that is up to half the length more than the
length, and it has to be an `int`. -/

section

variable {nums : List α}

/-- The gap is halved by every pass, and the vector has the elements it had. -/
theorem afterPasses_spec (hint : nums.length ≤ 1431655765) (p : ℕ) :
    ∃ a b, afterPasses nums p = some (nums.length / 2 / 2 ^ p, a) ∧ a.Perm nums
      ∧ gapPass nums.length (nums.length / 2 / 2 ^ p) a = some b ∧ b.Perm nums
      ∧ GapSorted (nums.length / 2 / 2 ^ p) b
      ∧ afterPasses nums (p + 1) = some (nums.length / 2 / 2 ^ (p + 1), b) := by
  have hpass : ∀ (gap : ℕ) (a : List α), gap ≤ nums.length / 2 → a.Perm nums →
      ∃ b, gapPass nums.length gap a = some b ∧ b.Perm nums ∧ GapSorted gap b := by
    intro gap a hgap hperm
    have hlength := hperm.length_eq
    obtain ⟨b, hb, hperm', hsorted⟩ := gapPass_spec (show a.length + gap ≤ 2 ^ 31 by omega)
    exact ⟨b, hlength ▸ hb, hperm'.trans hperm, hsorted⟩
  have hnext : ∀ a b, afterPasses nums p = some (nums.length / 2 / 2 ^ p, a) →
      gapPass nums.length (nums.length / 2 / 2 ^ p) a = some b →
      afterPasses nums (p + 1) = some (nums.length / 2 / 2 ^ (p + 1), b) := by
    intro a b ha hb
    rw [pow_succ, ← Nat.div_div_eq_div_mul]
    simp only [afterPasses, ha, hb, Option.bind_eq_bind, Option.bind_some, Option.pure_def]
  have hbefore : ∃ a, afterPasses nums p = some (nums.length / 2 / 2 ^ p, a) ∧ a.Perm nums := by
    cases p with
    | zero => exact ⟨nums, by rw [pow_zero, Nat.div_one]; rfl, List.Perm.refl nums⟩
    | succ p =>
      obtain ⟨-, b, -, -, -, hperm, -, hb⟩ := afterPasses_spec hint p
      exact ⟨b, hb, hperm⟩
  obtain ⟨a, ha, hperm⟩ := hbefore
  obtain ⟨b, hb, hperm', hsorted⟩ := hpass _ a (Nat.div_le_self _ (2 ^ p)) hperm
  exact ⟨a, b, ha, hperm, hb, hperm', hsorted, hnext a b ha hb⟩

/-- **The loop over the gaps** goes through the passes until the gap is zero, and
the last of them has put the vector in order. -/
theorem shellLoop_spec (hint : nums.length ≤ 1431655765) {a : List α} {p gap rounds : ℕ}
    (h : afterPasses nums p = some (gap, a)) (hrounds : gap < rounds) :
    ∃ q r, afterPasses nums q = some (0, r) ∧ shellLoop nums.length rounds gap a = some r
      ∧ (0 < gap → r.Pairwise (· ≤ ·)) := by
  induction rounds generalizing p gap a with
  | zero => exact absurd hrounds (Nat.not_lt_zero _)
  | succ rounds ih =>
    unfold shellLoop
    split
    · next hpos =>
      obtain ⟨a', b, ha', -, hb, -, hsorted, hnext⟩ := afterPasses_spec hint p
      obtain ⟨rfl, rfl⟩ : gap = nums.length / 2 / 2 ^ p ∧ a = a' :=
        Prod.mk.inj (Option.some_inj.mp (h.symm.trans ha'))
      have hhalf : nums.length / 2 / 2 ^ (p + 1) = nums.length / 2 / 2 ^ p / 2 := by
        rw [pow_succ]
        exact (Nat.div_div_eq_div_mul _ _ _).symm
      rw [hhalf] at hnext
      obtain ⟨q, r, hq, hr, hlast⟩ := ih hnext (by omega)
      rw [hb, Option.bind_eq_bind, Option.bind_some]
      refine ⟨q, r, hq, hr, fun _ => ?_⟩
      rcases Nat.eq_zero_or_pos (nums.length / 2 / 2 ^ p / 2) with hzero | hmore
      · -- the gap was one
        have hone : nums.length / 2 / 2 ^ p = 1 := by omega
        rw [hone] at hr hsorted
        obtain ⟨rounds, rfl⟩ : ∃ n, rounds = n + 1 := ⟨rounds - 1, by omega⟩
        obtain rfl : b = r := Option.some_inj.mp hr
        exact hsorted.pairwise
      · exact hlast hmore
    · next hzero =>
      obtain rfl : gap = 0 := by omega
      exact ⟨p, a, h, rfl, fun hpos => absurd hpos (Nat.lt_irrefl 0)⟩

/-- **`ShellSort` sorts** a vector of at most 1431655765 elements: it comes to an end,
keeps to the vector, and leaves its elements in order. It gets there through passes,
each of which puts the elements in order that are as far apart as its gap. -/
theorem shellSort_sorts (hint : nums.length ≤ 1431655765) :
    (∃ r passes, shellSort nums = some r ∧ r.Perm nums ∧ r.Pairwise (· ≤ ·)
        ∧ afterPasses nums passes = some (0, r))
      ∧ ∀ p, ∃ a b, afterPasses nums p = some (nums.length / 2 / 2 ^ p, a)
        ∧ gapPass nums.length (nums.length / 2 / 2 ^ p) a = some b ∧ b.Perm nums
        ∧ GapSorted (nums.length / 2 / 2 ^ p) b
        ∧ afterPasses nums (p + 1) = some (nums.length / 2 / 2 ^ (p + 1), b) := by
  constructor
  · have hstart : afterPasses nums 0 = some (nums.length / 2, nums) := rfl
    have hlen : (wrap nums.length).toNat = nums.length := by
      rw [wrap_natCast (by omega), Int.toNat_natCast]
    unfold shellSort
    simp only [hlen]
    split
    · next hshort =>
      rw [show nums.length / 2 = 0 by omega] at hstart
      exact ⟨nums, 0, rfl, List.Perm.refl nums, pairwise_of_length_lt_two hshort, hstart⟩
    · next hlong =>
      obtain ⟨q, r, hq, hr, hsorted⟩ := shellLoop_spec hint hstart
        (show nums.length / 2 < nums.length + 1 by omega)
      obtain ⟨r', -, hr', hperm, -⟩ := afterPasses_spec hint q
      rw [hq] at hr'
      obtain rfl : r = r' := congrArg Prod.snd (Option.some_inj.mp hr')
      exact ⟨r, q, hr, hperm, hsorted (by omega), hq⟩
  · intro p
    obtain ⟨a, b, ha, -, hrest⟩ := afterPasses_spec hint p
    exact ⟨a, b, ha, hrest⟩

end

/-- Five numbers: one pass for a gap of two, and one for a gap of one. -/
theorem shellSort_sorts_five :
    (∃ r passes, shellSort [(9 : ℤ), 4, -2, 4, 0] = some r ∧ r.Perm [9, 4, -2, 4, 0]
        ∧ r.Pairwise (· ≤ ·) ∧ afterPasses [9, 4, -2, 4, 0] passes = some (0, r))
      ∧ ∀ p, ∃ a b, afterPasses [9, 4, -2, 4, 0] p = some (5 / 2 / 2 ^ p, a)
        ∧ gapPass 5 (5 / 2 / 2 ^ p) a = some b ∧ b.Perm [(9 : ℤ), 4, -2, 4, 0]
        ∧ GapSorted (5 / 2 / 2 ^ p) b
        ∧ afterPasses [9, 4, -2, 4, 0] (p + 1) = some (5 / 2 / 2 ^ (p + 1), b) :=
  shellSort_sorts (by decide)

/-- **A first pass that counts beyond the `int`s** does so at the last class. -/
theorem passLoop_eq_none {len gap : ℕ} (hlen : 2 * gap ≤ len) (h : 2 ^ 31 < 3 * gap) (d : ℕ)
    (nums : List α) : passLoop len gap (d + 1) nums = none := by
  induction d generalizing nums with
  | zero =>
    have hclass : classLoop len gap (gap - 1) (nums.length + 1) (gap - 1 + gap) nums = none := by
      unfold classLoop
      rw [if_pos (by omega)]
      refine Option.bind_eq_none_iff.mpr fun b _ => ?_
      rw [int_of_le (by omega)]
      rfl
    exact Option.bind_eq_none_iff.mpr fun b hb => by cases hclass.symm.trans hb
  | succ d ih => exact Option.bind_eq_none_iff.mpr fun nums _ => ih nums

/-- 1431655766 zeros. -/
theorem shellSort_zeros :
    ¬ ∃ r, shellSort (List.replicate 1431655766 (0 : ℤ)) = some r
      ∧ r.Perm (List.replicate 1431655766 0) ∧ r.Pairwise (· ≤ ·) := by
  rintro ⟨r, hr, -⟩
  have hnone : ∀ nums : List ℤ, nums.length = 1431655766 → shellSort nums = none := by
    intro nums hlength
    have hlen : (wrap nums.length).toNat = 1431655766 := by
      rw [wrap_natCast (by omega), Int.toNat_natCast, hlength]
    have hpass : gapPass 1431655766 715827883 nums = none :=
      passLoop_eq_none (by decide) (by decide) 715827882 nums
    unfold shellSort
    rw [if_neg (by omega)]
    simp only [hlen]
    unfold shellLoop
    rw [if_pos (by decide)]
    exact Option.bind_eq_none_iff.mpr fun b hb => by
      cases hpass.symm.trans hb
  rw [hnone _ List.length_replicate] at hr
  cases hr

end Sorting
