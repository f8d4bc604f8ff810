import Mathlib.Data.List.Nodup
import Mathlib.Data.Int.Order.Basic

/-!
# Caches by recency

What a cache that drops the least recently used entry is for, without any
representation: a list of pairs of a key and a value, the most recently used
first. A write moves its key to the front with the new value, and if the
list has then become longer than the capacity the last pair goes. A read may
count as a use or not; if it does, it moves its key to the front as well.

An implementation refines this if the pairs it holds, in the order it holds
them, are those of the list after every operation, and if it answers reads
as the list does.
-/

namespace Recency

variable {κ ν : Type} [DecidableEq κ]

/-- The value of a key. -/
def find (l : List (κ × ν)) (k : κ) : Option ν := (l.find? (fun e => e.1 = k)).map Prod.snd

/-- The pairs of the other keys. -/
def without (l : List (κ × ν)) (k : κ) : List (κ × ν) := l.filter (fun e => e.1 ≠ k)

/-- The least recent pair is dropped if the capacity is exceeded. -/
def trim (capacity : ℤ) (l : List (κ × ν)) : List (κ × ν) :=
  if capacity < l.length then l.dropLast else l

/-- A write. -/
def put (capacity : ℤ) (l : List (κ × ν)) (k : κ) (v : ν) : List (κ × ν) :=
  trim capacity ((k, v) :: without l k)

/-- A read that counts as a use. -/
def touch (l : List (κ × ν)) (k : κ) : List (κ × ν) :=
  match find l k with
  | none => l
  | some v => (k, v) :: without l k

/-- What is done with a cache. -/
inductive Op (κ ν : Type)
  | put (key : κ) (value : ν)
  /-- A read; the flag says whether it counts as a use. -/
  | get (key : κ) (flag : Bool)
  deriving DecidableEq

/-- **One operation**: the pairs after it, and what a read answers. A key that
is not there is answered by `absent`. -/
def perform (capacity : ℤ) (absent : ν) (l : List (κ × ν)) :
    Op κ ν → List (κ × ν) × Option ν
  | .put k v => (put capacity l k v, none)
  | .get k flag => (if flag then touch l k else l, some ((find l k).getD absent))

variable {l : List (κ × ν)} {k : κ} {v : ν}

/-! ## Reading and writing pairs

The keys of the pairs are distinct, so that a key has one value. A write takes the
pair of its key out, if there is one, puts a pair in front and drops the last one
if there are too many. -/

theorem without_sublist (l : List (κ × ν)) (k : κ) : (without l k).Sublist l :=
  List.filter_sublist

theorem without_of_notMem (h : k ∉ l.map Prod.fst) : without l k = l := by
  refine List.filter_eq_self.mpr (fun e he => decide_eq_true ?_)
  rintro rfl
  exact h (List.mem_map_of_mem he)

theorem find_eq_none_iff : find l k = none ↔ k ∉ l.map Prod.fst := by
  unfold find
  rw [Option.map_eq_none_iff, List.find?_eq_none]
  constructor
  · intro h hmem
    obtain ⟨e, he, hk⟩ := List.mem_map.mp hmem
    exact h e he (decide_eq_true hk)
  · intro h e he hk
    exact h (List.mem_map.mpr ⟨e, he, of_decide_eq_true hk⟩)

theorem mem_of_find (h : find l k = some v) : (k, v) ∈ l := by
  obtain ⟨e, he, rfl⟩ := Option.map_eq_some_iff.mp h
  have hk : e.1 = k := by simpa using List.find?_some he
  rw [← hk]
  exact List.mem_of_find?_eq_some he

theorem find_eq_some_iff (hnodup : (l.map Prod.fst).Nodup) : find l k = some v ↔ (k, v) ∈ l := by
  refine ⟨mem_of_find, fun h => ?_⟩
  cases hfind : find l k with
  | none => exact absurd (List.mem_map_of_mem h) (find_eq_none_iff.mp hfind)
  | some w =>
    have hw := mem_of_find hfind
    have heq := List.inj_on_of_nodup_map hnodup hw h rfl
    rw [(Prod.mk.inj heq).2]

/-! ## Reads and the order

A read changes the order only, and this only if its key is there and not in front.
Two reads in either order leave two different keys in front, unless they read the
same key or one of them reads nothing. -/

theorem touch_of_find (h : find l k = some v) : touch l k = (k, v) :: without l k := by
  unfold touch
  rw [h]

theorem touch_of_notMem (h : k ∉ l.map Prod.fst) : touch l k = l := by
  unfold touch
  rw [find_eq_none_iff.mpr h]

/-- **A read leaves the order alone exactly if the key is not there or comes
first.** -/
theorem touch_eq_self_iff (hnodup : (l.map Prod.fst).Nodup) :
    touch l k = l ↔ k ∉ l.map Prod.fst ∨ (l.map Prod.fst).head? = some k := by
  cases hfind : find l k with
  | none =>
    have hno : k ∉ l.map Prod.fst := find_eq_none_iff.mp hfind
    exact iff_of_true (touch_of_notMem hno) (Or.inl hno)
  | some v =>
    have hmem : k ∈ l.map Prod.fst := List.mem_map_of_mem (mem_of_find hfind)
    rw [touch_of_find hfind, or_iff_right (not_not_intro hmem)]
    cases l with
    | nil => exact absurd hmem List.not_mem_nil
    | cons e l =>
      obtain ⟨hhead, -⟩ := List.nodup_cons.mp hnodup
      constructor
      · intro h
        rw [← (List.cons.inj h).1]
        rfl
      · intro h
        obtain rfl : e.1 = k := Option.some.inj h
        have hv : find (e :: l) e.1 = some e.2 :=
          (find_eq_some_iff hnodup).mpr List.mem_cons_self
        obtain rfl := Option.some.inj (hfind.symm.trans hv)
        show e :: (e :: l).filter _ = e :: l
        rw [List.filter_cons_of_neg (by simp)]
        exact congrArg _ (without_of_notMem hhead)

/-- A read keeps the keys. -/
theorem mem_keys_touch (l : List (κ × ν)) (j i : κ) :
    i ∈ (touch l j).map Prod.fst ↔ i ∈ l.map Prod.fst := by
  cases hfind : find l j with
  | none => rw [touch_of_notMem (find_eq_none_iff.mp hfind)]
  | some v =>
    rw [touch_of_find hfind, List.map_cons, List.mem_cons]
    by_cases hij : i = j
    · rw [hij]
      exact iff_of_true (Or.inl rfl) (List.mem_map_of_mem (mem_of_find hfind))
    · rw [or_iff_right hij, List.mem_map, List.mem_map]
      refine ⟨fun ⟨e, he, hi⟩ => ⟨e, (without_sublist l j).subset he, hi⟩, ?_⟩
      rintro ⟨e, he, rfl⟩
      exact ⟨e, List.mem_filter.mpr ⟨he, decide_eq_true hij⟩, rfl⟩

theorem head?_keys_touch (h : k ∈ l.map Prod.fst) :
    ((touch l k).map Prod.fst).head? = some k := by
  cases hfind : find l k with
  | none => exact absurd h (find_eq_none_iff.mp hfind)
  | some v =>
    rw [touch_of_find hfind]
    rfl

/-- **Two reads commute exactly if they read the same key or one of them reads
nothing.** -/
theorem touch_comm_iff {k k' : κ} :
    touch (touch l k) k' = touch (touch l k') k
      ↔ k = k' ∨ k ∉ l.map Prod.fst ∨ k' ∉ l.map Prod.fst := by
  constructor
  · intro h
    by_contra hno
    obtain ⟨hne, hk, hk'⟩ : k ≠ k' ∧ k ∈ l.map Prod.fst ∧ k' ∈ l.map Prod.fst := by
      simpa only [not_or, not_not] using hno
    have h₁ := head?_keys_touch ((mem_keys_touch l k k').mpr hk')
    have h₂ := head?_keys_touch ((mem_keys_touch l k' k).mpr hk)
    rw [h, h₂] at h₁
    exact hne (Option.some.inj h₁)
  · rintro (rfl | hk | hk')
    · rfl
    · rw [touch_of_notMem hk, touch_of_notMem (fun h => hk ((mem_keys_touch l k' k).mp h))]
    · rw [touch_of_notMem hk', touch_of_notMem (fun h => hk' ((mem_keys_touch l k k').mp h))]

end Recency
