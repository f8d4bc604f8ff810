import Mathlib.Data.List.Basic
import Mathlib.Order.Lattice

/-!
# Sorting in place

A vector is a list here, and what is read or written past its end is
undefined: `a[i]?`, `put` and `swap` give nothing there, so a computation that
gives a result has kept to the vector.

An algorithm that works on a part of a vector moves the elements of the part
about and leaves the others where they are (`Within`). What is true of every
element of the part is then true of every element of it afterwards
(`Within.forall_mem`): that is what a step of a divide and conquer needs to
know of the calls it makes. A part can be in order while the rest is not
(`SortedOn`), and it stays so while another part is rearranged.
-/

namespace InPlace

variable {α : Type} {a b c : List α} {i j k lo hi : ℕ}

/-! ## Reading and writing -/

/-- `a[i] = x`. -/
def put (a : List α) (i : ℕ) (x : α) : Option (List α) :=
  if i < a.length then some (a.set i x) else none

theorem put_of_lt (h : i < a.length) (x : α) : put a i x = some (a.set i x) := if_pos h

theorem length_of_put {x : α} (h : put a i x = some b) : b.length = a.length := by
  unfold put at h
  split at h
  · obtain rfl := Option.some_inj.mp h
    exact List.length_set
  · cases h

theorem take_succ_set (h : k < a.length) (x : α) : (a.set k x).take (k + 1) = a.take k ++ [x] := by
  have hlength : k < (a.set k x).length := by rwa [List.length_set]
  rw [List.take_succ_eq_append_getElem hlength, List.getElem_set_self,
    List.take_set_of_le (Nat.le_refl k)]

theorem put_append_cons (p q : List α) (x y : α) :
    put (p ++ x :: q) p.length y = some (p ++ y :: q) := by
  rw [put_of_lt (by simp), List.set_append_right _ _ (Nat.le_refl _), Nat.sub_self,
    List.set_cons_zero]

theorem getElem?_append_cons (p q : List α) (x : α) : (p ++ x :: q)[p.length]? = some x := by
  rw [List.getElem?_append_right (Nat.le_refl _), Nat.sub_self, List.getElem?_cons_zero]

/-! ## Swaps -/

/-- `swap(a[i], a[j])`. -/
def swap (a : List α) (i j : ℕ) : Option (List α) := do
  let x ← a[i]?
  let y ← a[j]?
  return (a.set i y).set j x

/-- Two elements have changed places. -/
structure Swapped (a b : List α) (i j : ℕ) : Prop where
  left : b[i]? = a[j]?
  right : b[j]? = a[i]?
  other : ∀ k, k ≠ i → k ≠ j → b[k]? = a[k]?
  perm : b.Perm a

/-- **A swap within the vector** is done. -/
theorem exists_swap (hi : i < a.length) (hj : j < a.length) :
    ∃ b, swap a i j = some b ∧ Swapped a b i j := by
  refine ⟨(a.set i a[j]).set j a[i], ?_, ?_, ?_, fun k hki hkj => ?_, List.set_set_perm hi hj⟩
  · unfold swap
    rw [List.getElem?_eq_getElem hi, List.getElem?_eq_getElem hj]
    rfl
  · rw [List.getElem?_eq_getElem hj]
    by_cases hij : j = i
    · subst hij
      rw [List.getElem?_set_self (by rwa [List.length_set])]
    · rw [List.getElem?_set_ne hij, List.getElem?_set_self hi]
  · rw [List.getElem?_set_self (by rwa [List.length_set]), List.getElem?_eq_getElem hi]
  · rw [List.getElem?_set_ne hkj.symm, List.getElem?_set_ne hki.symm]

/-- A swap of neighbours. -/
theorem swap_append_cons_cons (p q : List α) (x y : α) :
    swap (p ++ x :: y :: q) p.length (p.length + 1) = some (p ++ y :: x :: q) := by
  have hy : (p ++ x :: y :: q)[p.length + 1]? = some y := by
    rw [List.getElem?_append_right (by omega), Nat.add_sub_cancel_left]
    rfl
  unfold swap
  rw [getElem?_append_cons, hy]
  show some (((p ++ x :: y :: q).set p.length y).set (p.length + 1) x) = _
  rw [List.set_append_right _ _ (Nat.le_refl _), List.set_append_right _ _ (by omega),
    Nat.sub_self, Nat.add_sub_cancel_left]
  rfl

theorem exists_append_cons_cons {x y : α} (hx : a[i]? = some x) (hy : a[i + 1]? = some y) :
    ∃ p q, a = p ++ x :: y :: q ∧ p.length = i := by
  obtain ⟨hi, rfl⟩ := List.getElem?_eq_some_iff.mp hx
  obtain ⟨hi', rfl⟩ := List.getElem?_eq_some_iff.mp hy
  refine ⟨a.take i, a.drop (i + 2), ?_, List.length_take_of_le (Nat.le_of_lt hi)⟩
  rw [← List.drop_eq_getElem_cons hi', ← List.drop_eq_getElem_cons hi, List.take_append_drop]

/-! ## A part and the rest

An algorithm that works on a part leaves what is before it and what is behind it,
and rearranges what is in it. Whatever is true of each element of the part before
is then true of each of them afterwards, at whatever place, and this is all that
most steps need. -/

/-- The part of a vector from `lo` up to `hi`, without `hi`. -/
def part (a : List α) (lo hi : ℕ) : List α := (a.take hi).drop lo

theorem part_eq_nil (h : hi ≤ lo) : part a lo hi = [] := by
  refine List.drop_eq_nil_of_le ?_
  rw [List.length_take]
  omega

theorem length_part (h : hi ≤ a.length) : (part a lo hi).length = hi - lo := by
  rw [part, List.length_drop, List.length_take_of_le h]

theorem part_eq_cons {x : α} (h : lo < hi) (hx : a[lo]? = some x) :
    part a lo hi = x :: part a (lo + 1) hi := by
  obtain ⟨hlo, rfl⟩ := List.getElem?_eq_some_iff.mp hx
  have hlt : lo < (a.take hi).length := by
    rw [List.length_take]
    omega
  rw [part, List.drop_eq_getElem_cons hlt, List.getElem_take]
  rfl

theorem take_append_part_append_drop (h : lo ≤ hi) (a : List α) :
    a.take lo ++ (part a lo hi ++ a.drop hi) = a := by
  have htake : a.take lo = (a.take hi).take lo := by
    rw [List.take_take, Nat.min_eq_left h]
  rw [part, ← List.append_assoc, htake, List.take_append_drop, List.take_append_drop]

theorem part_append_append (p x q : List α) :
    part (p ++ (x ++ q)) p.length (p.length + x.length) = x := by
  rw [part, List.take_length_add_append, List.take_left, List.drop_left]

/-- The elements of a part are those at its indices. -/
theorem mem_part {x : α} : x ∈ part a lo hi ↔ ∃ k, lo ≤ k ∧ k < hi ∧ a[k]? = some x := by
  rw [part, List.mem_iff_getElem?]
  constructor
  · rintro ⟨k, hk⟩
    rw [List.getElem?_drop, List.getElem?_take] at hk
    split at hk
    · next hlt => exact ⟨lo + k, Nat.le_add_right lo k, hlt, hk⟩
    · exact absurd hk (by simp)
  · rintro ⟨k, hlo, hlt, hk⟩
    refine ⟨k - lo, ?_⟩
    rw [List.getElem?_drop, Nat.add_sub_cancel' hlo, List.getElem?_take_of_lt hlt]
    exact hk

/-- **A vector with a part rearranged**: the part from `lo` up to `hi`, without
`hi`. -/
structure Within (lo hi : ℕ) (a b : List α) : Prop where
  perm : b.Perm a
  outside : ∀ k, k < lo ∨ hi ≤ k → b[k]? = a[k]?

namespace Within

theorem refl (lo hi : ℕ) (a : List α) : Within lo hi a a := ⟨List.Perm.refl a, fun _ _ => rfl⟩

theorem trans (h : Within lo hi a b) (h' : Within lo hi b c) : Within lo hi a c :=
  ⟨h'.perm.trans h.perm, fun k hk => (h'.outside k hk).trans (h.outside k hk)⟩

theorem mono {lo' hi' : ℕ} (h : Within lo hi a b) (hlo : lo' ≤ lo) (hhi : hi ≤ hi') :
    Within lo' hi' a b :=
  ⟨h.perm, fun k hk => h.outside k (by omega)⟩

theorem symm (h : Within lo hi a b) : Within lo hi b a :=
  ⟨h.perm.symm, fun k hk => (h.outside k hk).symm⟩

theorem length_eq (h : Within lo hi a b) : b.length = a.length := h.perm.length_eq

theorem of_swapped (h : Swapped a b i j) (hi' : lo ≤ i ∧ i < hi) (hj : lo ≤ j ∧ j < hi) :
    Within lo hi a b :=
  ⟨h.perm, fun k hk => h.other k (by omega) (by omega)⟩

theorem take_eq (h : Within lo hi a b) : b.take lo = a.take lo := by
  refine List.ext_getElem? (fun k => ?_)
  rw [List.getElem?_take, List.getElem?_take]
  split
  · next hk => exact h.outside k (Or.inl hk)
  · rfl

theorem drop_eq (h : Within lo hi a b) : b.drop hi = a.drop hi := by
  refine List.ext_getElem? (fun k => ?_)
  rw [List.getElem?_drop, List.getElem?_drop]
  exact h.outside (hi + k) (Or.inr (Nat.le_add_right hi k))

/-- **The part has the elements it had.** -/
theorem perm_part (h : Within lo hi a b) : (part b lo hi).Perm (part a lo hi) := by
  rcases Nat.le_total lo hi with hle | hle
  · have hperm := h.perm
    rw [← take_append_part_append_drop hle b, ← take_append_part_append_drop hle a, h.take_eq,
      h.drop_eq] at hperm
    exact (List.perm_append_right_iff _).mp ((List.perm_append_left_iff _).mp hperm)
  · rw [part_eq_nil hle, part_eq_nil hle]

/-- **What is true of every element of the part** is true of every element of
it afterwards. -/
theorem forall_mem (h : Within lo hi a b) {P : α → Prop}
    (ha : ∀ k x, lo ≤ k → k < hi → a[k]? = some x → P x) :
    ∀ k x, lo ≤ k → k < hi → b[k]? = some x → P x := by
  intro k x hlo hlt hk
  have hmem : x ∈ part a lo hi := h.perm_part.mem_iff.mp (mem_part.mpr ⟨k, hlo, hlt, hk⟩)
  obtain ⟨k', hlo', hlt', hk'⟩ := mem_part.mp hmem
  exact ha k' x hlo' hlt' hk'

end Within

/-! ## Parts in order -/

section SortedOn

variable [LinearOrder α]

/-- A part of a vector that is in order. -/
def SortedOn (lo hi : ℕ) (a : List α) : Prop :=
  ∀ k k' x y, lo ≤ k → k < k' → k' < hi → a[k]? = some x → a[k']? = some y → x ≤ y

theorem sortedOn_of_le (h : hi ≤ lo + 1) (a : List α) : SortedOn lo hi a :=
  fun _ _ _ _ _ _ _ => by omega

theorem SortedOn.of_within {lo' hi' : ℕ} (h : SortedOn lo hi a)
    (hwithin : Within lo' hi' a b) (hapart : hi ≤ lo' ∨ hi' ≤ lo) : SortedOn lo hi b := by
  intro k k' x y hk hkk' hk' hx hy
  rw [hwithin.outside k (by omega)] at hx
  rw [hwithin.outside k' (by omega)] at hy
  exact h k k' x y hk hkk' hk' hx hy

/-- A part with one element more at its end. -/
theorem sortedOn_succ_iff : SortedOn lo (hi + 1) a ↔ SortedOn lo hi a
    ∧ ∀ y, a[hi]? = some y → ∀ k x, lo ≤ k → k < hi → a[k]? = some x → x ≤ y := by
  constructor
  · intro h
    exact ⟨fun k k' x y hk hkk' hk' => h k k' x y hk hkk' (Nat.lt_succ_of_lt hk'),
      fun y hy k x hk hlt hx => h k hi x y hk hlt (Nat.lt_succ_self hi) hx hy⟩
  · rintro ⟨h, hlast⟩ k k' x y hk hkk' hk' hx hy
    rcases Nat.lt_succ_iff_lt_or_eq.mp hk' with hlt | rfl
    · exact h k k' x y hk hkk' hlt hx hy
    · exact hlast y hy k x hk hkk' hx

/-- A vector that is in order from one end to the other. -/
theorem sortedOn_iff_pairwise : SortedOn 0 a.length a ↔ a.Pairwise (· ≤ ·) := by
  constructor
  · intro h
    exact List.pairwise_iff_getElem.mpr fun k k' hk hk' hkk' =>
      h k k' _ _ (Nat.zero_le k) hkk' hk' (List.getElem?_eq_getElem hk)
        (List.getElem?_eq_getElem hk')
  · intro h k k' x y _ hkk' _ hx hy
    obtain ⟨hk, rfl⟩ := List.getElem?_eq_some_iff.mp hx
    obtain ⟨hk', rfl⟩ := List.getElem?_eq_some_iff.mp hy
    exact List.pairwise_iff_getElem.mp h k k' hk hk' hkk'

theorem pairwise_of_length_lt_two (h : a.length < 2) : a.Pairwise (· ≤ ·) :=
  sortedOn_iff_pairwise.mp (sortedOn_of_le (Nat.le_of_lt_succ h) a)

end SortedOn

end InPlace
