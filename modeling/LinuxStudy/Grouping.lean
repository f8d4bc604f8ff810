import Mathlib.Data.List.AList
import Mathlib.Data.List.Dedup

/-!
# Grouping into buckets

An unordered map of vectors, filled by `m[f(a)].push_back(a)` for each `a` of
a list. The map has no order of its own, so what a grouping is worth is said
up to order: the pairs of a bucket's label and a member of it are the pairs
of `f a` and `a`, each as often as `a` occurs (`pairs_group`). Every element
is in one bucket, and in the right one.

The label is allowed to be undefined, and then so is the grouping.
-/

variable {α β : Type} [DecidableEq β]

/-- Buckets of elements, by label. -/
abbrev Buckets (β α : Type) := AList (fun _ : β => List α)

namespace Buckets

/-- `m[b].push_back(a)`: a bucket that is not there is made first. -/
def push (m : Buckets β α) (b : β) (a : α) : Buckets β α :=
  m.insert b ((m.lookup b).getD [] ++ [a])

/-! ## The pairs of a grouping

The order in which an unordered map is walked is not specified, and a program that
walks one may come to any. What can be said of a grouping whatever the order is
which pairs of a label and an element it has. A push adds one pair and touches no
other. -/

/-- Every member of every bucket, with the bucket's label. -/
def pairs (m : Buckets β α) : List (β × α) :=
  m.entries.flatMap (fun e => e.2.map (fun a => (e.1, a)))

/-- A pair is a label and a member of its bucket. -/
theorem mem_pairs_iff (m : Buckets β α) (b : β) (a : α) :
    (b, a) ∈ m.pairs ↔ a ∈ (m.lookup b).getD [] := by
  unfold pairs
  rw [List.mem_flatMap]
  constructor
  · rintro ⟨e, he, ha⟩
    obtain ⟨a', ha', heq⟩ := List.mem_map.mp ha
    obtain ⟨rfl, rfl⟩ := Prod.mk.inj heq
    rw [AList.mem_lookup_iff.mpr he]
    exact ha'
  · intro ha
    cases hb : m.lookup b with
    | none =>
      rw [hb] at ha
      exact absurd ha List.not_mem_nil
    | some l =>
      rw [hb] at ha
      exact ⟨⟨b, l⟩, AList.mem_lookup_iff.mp hb, List.mem_map.mpr ⟨a, ha, rfl⟩⟩

/-- The pairs of some of the labels, bucket by bucket. -/
theorem filter_pairs (m : Buckets β α) (p : β → Bool) :
    m.pairs.filter (fun e => p e.1)
      = (m.keys.filter p).flatMap
          (fun b => ((m.lookup b).getD []).map (fun a => (b, a))) := by
  have hlook : ∀ e ∈ m.entries, m.lookup e.1 = some e.2 :=
    fun e he => AList.mem_lookup_iff.mpr he
  show (m.entries.flatMap _).filter _ = ((m.entries.map Sigma.fst).filter p).flatMap _
  generalize m.entries = l at hlook
  induction l with
  | nil => rfl
  | cons e l ih =>
    have hrest := ih (fun e' he' => hlook e' (List.mem_cons_of_mem _ he'))
    have hbucket : (e.2.map (fun a => (e.1, a))).filter (fun x => p x.1)
        = if p e.1 then e.2.map (fun a => (e.1, a)) else [] := by
      rw [List.filter_map]
      cases hp : p e.1 with
      | false => simp [Function.comp_def, hp]
      | true => simp [Function.comp_def, hp]
    rw [List.flatMap_cons, List.filter_append, hrest, hbucket, List.map_cons,
      List.filter_cons]
    cases hp : p e.1 with
    | false => rfl
    | true =>
      rw [if_pos rfl, if_pos rfl, List.flatMap_cons, hlook e List.mem_cons_self]
      rfl

/-- The pairs of one label are those of its bucket. -/
theorem filter_pairs_eq (m : Buckets β α) (b : β) :
    m.pairs.filter (fun e => e.1 = b) = ((m.lookup b).getD []).map (fun a => (b, a)) := by
  have hcount : m.keys.filter (fun b' => decide (b' = b)) = if b ∈ m then [b] else [] := by
    rw [List.filter_eq]
    by_cases hb : b ∈ m
    · rw [if_pos hb, List.count_eq_one_of_mem m.keys_nodup (AList.mem_keys.mp hb)]
      rfl
    · rw [if_neg hb, List.count_eq_zero_of_not_mem (fun h => hb (AList.mem_keys.mpr h))]
      rfl
  rw [filter_pairs m (fun b' => decide (b' = b)), hcount]
  by_cases hb : b ∈ m
  · rw [if_pos hb, List.flatMap_singleton]
  · rw [if_neg hb, AList.lookup_eq_none.mpr hb]
    rfl

/-- A push adds one pair. -/
theorem pairs_push (m : Buckets β α) (b : β) (a : α) :
    (m.push b a).pairs.Perm ((b, a) :: m.pairs) := by
  unfold push pairs
  rw [AList.entries_insert, List.flatMap_cons]
  by_cases hb : b ∈ m
  · obtain ⟨old, l₁, l₂, -, hsplit, herase⟩ := List.exists_of_kerase (AList.mem_keys.mp hb)
    have hold : m.lookup b = some old :=
      AList.mem_lookup_iff.mpr (hsplit ▸ List.mem_append_right l₁ List.mem_cons_self)
    rw [herase, hsplit, hold, Option.getD_some, List.map_append, List.flatMap_append,
      List.flatMap_append, List.flatMap_cons]
    simp only [List.map_cons, List.map_nil, List.append_assoc, List.singleton_append]
    refine List.Perm.trans (List.perm_middle) (List.Perm.cons _ ?_)
    rw [← List.append_assoc, ← List.append_assoc]
    exact List.Perm.append_right _ List.perm_append_comm
  · rw [List.kerase_of_notMem_keys (fun h => hb (AList.mem_keys.mpr h)),
      AList.lookup_eq_none.mpr hb]
    rfl

/-! ## Grouping a list

A label may be undefined, and then the loop does not come to its end. Otherwise
every element is in the bucket of its label and in no other, in the order of the
list, and there is a bucket for each label that some element has. -/

/-- Group a list by a label, which may be undefined. -/
def group (f : α → Option β) (l : List α) : Option (Buckets β α) :=
  l.foldlM (fun m a => (f a).map (fun b => m.push b a)) ∅

omit [DecidableEq β] in
/-- A loop that needs a label for each element fails exactly if some element
has none. -/
theorem foldlM_map_eq_none_iff {γ : Type} (f : α → Option β) (g : γ → α → β → γ) (l : List α)
    (m₀ : γ) :
    l.foldlM (fun m a => (f a).map (g m a)) m₀ = none ↔ ∃ a ∈ l, f a = none := by
  induction l generalizing m₀ with
  | nil => exact iff_of_false (by simp) (by simp)
  | cons a l ih =>
    rw [List.foldlM_cons, List.exists_mem_cons_iff]
    cases hf : f a with
    | none => exact iff_of_true rfl (Or.inl rfl)
    | some b =>
      refine (ih (g m₀ a b)).trans ?_
      exact (or_iff_right (Option.some_ne_none b)).symm

theorem group_eq_none_iff {f : α → Option β} {l : List α} :
    group f l = none ↔ ∃ a ∈ l, f a = none :=
  foldlM_map_eq_none_iff f _ l ∅

theorem exists_group {f : α → Option β} {l : List α} (h : ∀ a ∈ l, ∃ b, f a = some b) :
    ∃ m, group f l = some m := by
  refine Option.ne_none_iff_exists'.mp (fun hnone => ?_)
  obtain ⟨a, ha, hfa⟩ := group_eq_none_iff.mp hnone
  obtain ⟨b, hb⟩ := h a ha
  exact Option.some_ne_none b (hb.symm.trans hfa)

/-- What grouping adds to buckets already there. -/
theorem pairs_foldlM (f : α → Option β) (l : List α) {m m' : Buckets β α}
    (h : l.foldlM (fun m a => (f a).map (fun b => m.push b a)) m = some m') :
    m'.pairs.Perm (l.filterMap (fun a => (f a).map (fun b => (b, a))) ++ m.pairs) := by
  induction l generalizing m with
  | nil =>
    obtain rfl : m = m' := Option.some.inj h
    exact List.Perm.refl _
  | cons a l ih =>
    rw [List.foldlM_cons] at h
    cases hf : f a with
    | none =>
      rw [hf] at h
      exact absurd h (by simp)
    | some b =>
      rw [hf] at h
      refine (ih h).trans ?_
      rw [List.filterMap_cons, hf]
      exact (List.Perm.append_left _ (pairs_push m b a)).trans List.perm_middle

/-- **Every element is in one bucket, and in the right one.** -/
theorem pairs_group {f : α → Option β} {l : List α} {m : Buckets β α}
    (h : group f l = some m) :
    m.pairs.Perm (l.filterMap (fun a => (f a).map (fun b => (b, a)))) := by
  have hp := pairs_foldlM f l h
  rwa [show (∅ : Buckets β α).pairs = [] from rfl, List.append_nil] at hp

/-- The labels of a grouping are those of the elements. -/
theorem mem_group {f : α → Option β} {l : List α} {m : Buckets β α} (h : group f l = some m)
    (b : β) : b ∈ m ↔ ∃ a ∈ l, f a = some b := by
  have hfold : ∀ (l : List α) (m₀ : Buckets β α),
      l.foldlM (fun m a => (f a).map (fun b => m.push b a)) m₀ = some m →
        (b ∈ m ↔ b ∈ m₀ ∨ ∃ a ∈ l, f a = some b) := by
    intro l
    induction l with
    | nil =>
      intro m₀ h
      obtain rfl : m₀ = m := Option.some.inj h
      simp
    | cons a l ih =>
      intro m₀ h
      rw [List.foldlM_cons] at h
      cases hf : f a with
      | none =>
        rw [hf] at h
        exact absurd h (by simp)
      | some b' =>
        rw [hf] at h
        rw [ih (m₀.push b' a) h, List.exists_mem_cons_iff, hf, Option.some_inj]
        unfold push
        rw [AList.mem_insert, eq_comm (a := b), or_comm (b := b ∈ m₀), or_assoc]
  refine (hfold l ∅ h).trans (or_iff_right (AList.notMem_empty b))

/-- **A grouping has a bucket for each label**, and no other. -/
theorem keys_group {f : α → Option β} {l : List α} {m : Buckets β α} (h : group f l = some m) :
    m.keys.Perm (l.filterMap f).dedup := by
  refine (List.perm_ext_iff_of_nodup m.keys_nodup (List.nodup_dedup _)).mpr (fun b => ?_)
  rw [List.mem_dedup, List.mem_filterMap, ← AList.mem_keys]
  exact mem_group h b

theorem nodup_pairs_group {f : α → Option β} {l : List α} {m : Buckets β α}
    (h : group f l = some m) (hl : l.Nodup) : m.pairs.Nodup := by
  rw [(pairs_group h).nodup_iff]
  refine List.Nodup.filterMap (fun a a' e he he' => ?_) hl
  obtain ⟨b, -, rfl⟩ := Option.map_eq_some_iff.mp he
  obtain ⟨b', -, heq⟩ := Option.map_eq_some_iff.mp he'
  exact (Prod.mk.inj heq).2.symm

/-- A pair of the grouping is an element and its label. -/
theorem mem_pairs_group {f : α → Option β} {l : List α} {m : Buckets β α}
    (h : group f l = some m) (b : β) (a : α) :
    (b, a) ∈ m.pairs ↔ a ∈ l ∧ f a = some b := by
  rw [(pairs_group h).mem_iff, List.mem_filterMap]
  constructor
  · rintro ⟨a', ha', he⟩
    obtain ⟨b', hb', heq⟩ := Option.map_eq_some_iff.mp he
    obtain ⟨rfl, rfl⟩ := Prod.mk.inj heq
    exact ⟨ha', hb'⟩
  · rintro ⟨ha, hb⟩
    exact ⟨a, ha, by rw [hb]; rfl⟩

end Buckets
