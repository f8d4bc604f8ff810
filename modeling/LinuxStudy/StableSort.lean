import Mathlib.Data.List.Induction
import Mathlib.Data.List.Sort
import Mathlib.Data.Prod.Lex

/-!
# Stable sorting

What it means to sort records by a key, whatever the algorithm. A list is in
order (`InOrder`) where no key is greater than a later one, and one list keeps
another (`Keeps`) where for every key the records that have it are the same,
in the same order. A list that does both is the stable sort (`Sorts`),
and there is only one (`Sorts.unique`): two algorithms that sort stably
need not be compared step by step.

The ways to come by a stable sort are those of the algorithms: neighbours with
different keys change places (`Keeps.swap`), a record is put behind the last
one that is not greater (`Sorts.insert`), two stable sorts are merged
(`Sorts.merge`), or a list is sorted by one key and then by another
(`Sorts.lex`). The place a record gets can also be counted beforehand (`place`),
and two records never get the same (`places_perm_range`).
-/

namespace StableSort

variable {α κ μ : Type} [LinearOrder κ] [LinearOrder μ] {key : α → κ} {l r s : List α}

/-- The records that have the key, in order. -/
def withKey (key : α → κ) (k : κ) (l : List α) : List α := l.filter (fun a => key a = k)

theorem withKey_append (k : κ) (l r : List α) :
    withKey key k (l ++ r) = withKey key k l ++ withKey key k r :=
  List.filter_append l r

theorem withKey_cons (k : κ) (a : α) (l : List α) :
    withKey key k (a :: l) = if key a = k then a :: withKey key k l else withKey key k l := by
  unfold withKey
  rw [List.filter_cons]
  split
  · next h => rw [if_pos (of_decide_eq_true h)]
  · next h => rw [if_neg (fun heq => h (decide_eq_true heq))]

theorem withKey_cons_self (a : α) (l : List α) :
    withKey key (key a) (a :: l) = a :: withKey key (key a) l := by
  rw [withKey_cons, if_pos rfl]

theorem withKey_cons_of_ne {k : κ} {a : α} (h : key a ≠ k) (l : List α) :
    withKey key k (a :: l) = withKey key k l := by
  rw [withKey_cons, if_neg h]

theorem withKey_eq_nil {k : κ} (h : ∀ a ∈ l, key a ≠ k) : withKey key k l = [] :=
  List.filter_eq_nil_iff.mpr (fun a ha hk => h a ha (of_decide_eq_true hk))

theorem withKey_sublist (k : κ) (l : List α) : (withKey key k l).Sublist l :=
  List.filter_sublist

/-! ## Keeping the order of equal keys

A sort is stable if the records of each key are those that were there, in the
order they were in. That is said key by key, so no bookkeeping of positions is
needed. -/

/-- **One list keeps another**: for every key the same records, in the same
order. -/
def Keeps (key : α → κ) (l r : List α) : Prop := ∀ k, withKey key k r = withKey key k l

namespace Keeps

theorem refl (l : List α) : Keeps key l l := fun _ => rfl

theorem trans (h : Keeps key l r) (h' : Keeps key r s) : Keeps key l s :=
  fun k => (h' k).trans (h k)

theorem append {l' r' : List α} (h : Keeps key l r) (h' : Keeps key l' r') :
    Keeps key (l ++ l') (r ++ r') := by
  intro k
  rw [withKey_append, withKey_append, h k, h' k]

/-- **Neighbours with different keys** may change places. -/
theorem swap {a b : α} (h : key a ≠ key b) (l r : List α) :
    Keeps key (l ++ a :: b :: r) (l ++ b :: a :: r) := by
  refine (refl l).append (fun k => ?_)
  by_cases ha : key a = k
  · subst ha
    rw [withKey_cons_of_ne h.symm, withKey_cons_self, withKey_cons_self,
      withKey_cons_of_ne h.symm]
  · rw [withKey_cons k b, withKey_cons_of_ne ha, withKey_cons_of_ne ha, withKey_cons k b]

theorem perm (h : Keeps key l r) : r.Perm l := by
  classical
  refine List.perm_iff_count.mpr (fun a => ?_)
  have hcount : ∀ m : List α, m.count a = (withKey key (key a) m).count a := by
    intro m
    exact (List.count_filter (p := fun b => decide (key b = key a)) (decide_eq_true rfl)).symm
  rw [hcount r, hcount l, h (key a)]

/-- Records of one key are in the order they were in. -/
theorem pair_sublist (h : Keeps key l r) {a b : α} (hab : key a = key b) :
    [a, b].Sublist r ↔ [a, b].Sublist l := by
  have hiff : ∀ m : List α, [a, b].Sublist m ↔ [a, b].Sublist (withKey key (key a) m) := by
    intro m
    constructor
    · intro hm
      have hfilter := hm.filter (fun c => decide (key c = key a))
      rwa [List.filter_eq_self.mpr] at hfilter
      intro c hc
      rcases List.mem_pair.mp hc with rfl | rfl
      · exact decide_eq_true rfl
      · exact decide_eq_true hab.symm
    · exact fun hm => hm.trans (withKey_sublist _ m)
  rw [hiff r, hiff l, h (key a)]

end Keeps

/-! ## The stable sort

Two lists in order that have the same records of every key, in the same order, are
equal. So there is one stable sort of a list, and an algorithm is right if what it
leaves is in order and keeps the list. Insertion, merging and sorting by one key
after another are shown to give it for lists, and what is left to an algorithm is
that it does the same in a vector. -/

/-- **In order**: no key is greater than a later one. -/
def InOrder (key : α → κ) (l : List α) : Prop := l.Pairwise (fun a b => key a ≤ key b)

/-- **The stable sort** of a list. -/
structure Sorts (key : α → κ) (l r : List α) : Prop where
  inOrder : InOrder key r
  keeps : Keeps key l r

/-- Of the lists in order, the first record of one has a least key of the
other. -/
theorem InOrder.key_le_of_mem {a b : α} (h : InOrder key (a :: l)) (hb : b ∈ a :: l) :
    key a ≤ key b := by
  rcases List.mem_cons.mp hb with rfl | hmem
  · exact le_rfl
  · exact (List.pairwise_cons.mp h).1 b hmem

/-- Lists in order with the same records of every key are equal. -/
theorem InOrder.eq_of_keeps (hl : InOrder key l) (hr : InOrder key r) (h : Keeps key l r) :
    l = r := by
  induction l generalizing r with
  | nil => exact (h.perm.eq_nil).symm
  | cons a l ih =>
    cases r with
    | nil => exact absurd h.perm.symm.eq_nil (List.cons_ne_nil a l)
    | cons b r =>
      have hkey : key a = key b :=
        le_antisymm (hl.key_le_of_mem (h.perm.mem_iff.mp List.mem_cons_self))
          (hr.key_le_of_mem (h.perm.mem_iff.mpr List.mem_cons_self))
      have hhead := h (key a)
      rw [withKey_cons_self, hkey, withKey_cons_self] at hhead
      obtain rfl : b = a := (List.cons.inj hhead).1
      refine congrArg (b :: ·) (ih hl.tail hr.tail (fun k => ?_))
      have hk := h k
      rw [withKey_cons, withKey_cons] at hk
      split at hk
      · exact (List.cons.inj hk).2
      · exact hk

/-- Of two different records one comes first. -/
theorem pair_sublist_or {a b : α} (ha : a ∈ l) (hb : b ∈ l) (hne : a ≠ b) :
    [a, b].Sublist l ∨ [b, a].Sublist l := by
  induction l with
  | nil => exact absurd ha List.not_mem_nil
  | cons c l ih =>
    rcases List.mem_cons.mp ha with rfl | ha'
    · rcases List.mem_cons.mp hb with rfl | hb'
      · exact absurd rfl hne
      · exact Or.inl ((List.singleton_sublist.mpr hb').cons_cons a)
    · rcases List.mem_cons.mp hb with rfl | hb'
      · exact Or.inr ((List.singleton_sublist.mpr ha').cons_cons b)
      · exact (ih ha' hb').imp (fun h => h.cons c) (fun h => h.cons c)

theorem InOrder.forall_sublist (h : InOrder key l) {a b : α} (hab : [a, b].Sublist l) :
    key a ≤ key b :=
  List.pairwise_iff_forall_sublist.mp h hab

/-- **The records of a key after a merge**: those of the first list, which is in
order, and then those of the second. -/
theorem withKey_merge (h : InOrder key l) (r : List α) (k : κ) :
    withKey key k (l.merge r (fun a b => key a ≤ key b)) = withKey key k l ++ withKey key k r := by
  induction l generalizing r with
  | nil => rw [List.nil_merge]; rfl
  | cons a l ih =>
    induction r with
    | nil => rw [List.merge_right]; exact (List.append_nil _).symm
    | cons b r ihr =>
      rw [List.cons_merge_cons]
      by_cases hab : key a ≤ key b
      · rw [if_pos (decide_eq_true hab), withKey_cons, withKey_cons k a l, ih h.tail]
        split
        · rfl
        · rfl
      · rw [if_neg (by simpa using hab), withKey_cons, ihr, withKey_cons k b r]
        split
        · next hb =>
          -- the records of the first list are all greater
          rw [withKey_eq_nil (l := a :: l)]
          · rfl
          · intro c hc hck
            exact hab ((h.key_le_of_mem hc).trans (hck.trans hb.symm).le)
        · rfl

/-- A list in order, divided at a key. -/
theorem InOrder.eq_append (h : InOrder key l) (k : κ) :
    l = l.filter (fun a => key a < k) ++ (withKey key k l ++ l.filter (fun a => k < key a)) := by
  induction l with
  | nil => rfl
  | cons a l ih =>
    have hrest := ih h.tail
    have hle := (List.pairwise_cons.mp h).1
    have hnone : k ≤ key a → l.filter (fun b => key b < k) = [] := fun hka =>
      List.filter_eq_nil_iff.mpr fun b hb hbk =>
        (hka.trans (hle b hb)).not_gt (of_decide_eq_true hbk)
    rcases lt_trichotomy (key a) k with hlt | heq | hgt
    · rw [List.filter_cons_of_pos (by simpa using hlt), withKey_cons_of_ne hlt.ne,
        List.filter_cons_of_neg (by simpa using hlt.le), List.cons_append, ← hrest]
    · rw [List.filter_cons_of_neg (by simpa using heq.ge), hnone heq.ge, withKey_cons, if_pos heq,
        List.filter_cons_of_neg (by simpa using heq.le)]
      rw [hnone heq.ge] at hrest
      exact congrArg (a :: ·) hrest
    · have hsame : withKey key k l = [] := withKey_eq_nil fun b hb => (hgt.trans_le (hle b hb)).ne'
      rw [List.filter_cons_of_neg (by simpa using hgt.le), hnone hgt.le,
        withKey_cons_of_ne hgt.ne', hsame, List.filter_cons_of_pos (by simpa using hgt)]
      rw [hnone hgt.le, hsame] at hrest
      exact congrArg (a :: ·) hrest

theorem InOrder.exists_append (h : InOrder key l) (a : α) :
    ∃ p q, l = p ++ q ∧ (∀ b ∈ p, key b ≤ key a) ∧ ∀ b ∈ q, key a < key b := by
  refine ⟨_, _, (h.eq_append (key a)).trans (List.append_assoc _ _ _).symm, fun b hb => ?_,
    fun b hb => of_decide_eq_true (List.mem_filter.mp hb).2⟩
  rcases List.mem_append.mp hb with hless | hsame
  · exact (of_decide_eq_true (List.mem_filter.mp hless).2).le
  · exact (of_decide_eq_true (List.mem_filter.mp hsame).2).le

namespace Sorts

/-- **There is only one stable sort** of a list. -/
theorem unique (h : Sorts key l r) (h' : Sorts key l s) : r = s :=
  h.inOrder.eq_of_keeps h'.inOrder (fun k => (h'.keeps k).trans (h.keeps k).symm)

theorem nil : Sorts key ([] : List α) [] := ⟨List.Pairwise.nil, Keeps.refl []⟩

theorem of_length_le_one (h : l.length ≤ 1) : Sorts key l l := by
  refine ⟨?_, Keeps.refl l⟩
  match l, h with
  | [], _ => exact List.Pairwise.nil
  | [a], _ => exact List.pairwise_singleton _ a

/-- **A record put behind the last one that is not greater.** -/
theorem insert {a : α} {p q : List α} (h : Sorts key l (p ++ q))
    (hp : ∀ b ∈ p, key b ≤ key a) (hq : ∀ b ∈ q, key a < key b) :
    Sorts key (l ++ [a]) (p ++ a :: q) := by
  obtain ⟨hinOrder, hkeeps⟩ := h
  obtain ⟨hpp, hqq, hpq⟩ := List.pairwise_append.mp hinOrder
  refine ⟨?_, fun k => ?_⟩
  · refine List.pairwise_append.mpr ⟨hpp, List.pairwise_cons.mpr ⟨?_, hqq⟩, ?_⟩
    · exact fun b hb => (hq b hb).le
    · intro b hb c hc
      rcases List.mem_cons.mp hc with rfl | hmem
      · exact hp b hb
      · exact hpq b hb c hmem
  · rw [withKey_append, withKey_append, ← hkeeps k, withKey_append]
    by_cases hk : key a = k
    · subst hk
      rw [withKey_cons_self, withKey_cons_self, withKey_eq_nil (fun b hb => (hq b hb).ne'),
        List.append_nil]
      rfl
    · rw [withKey_cons_of_ne hk, withKey_cons_of_ne hk]
      exact (List.append_nil _).symm

/-- **Two stable sorts merged**, with ties in favour of the first. -/
theorem merge {l' r' : List α} (h : Sorts key l r) (h' : Sorts key l' r') :
    Sorts key (l ++ l') (r.merge r' (fun a b => key a ≤ key b)) := by
  refine ⟨?_, fun k => ?_⟩
  · have htotal : ∀ a b : α, (decide (key a ≤ key b) || decide (key b ≤ key a)) = true := by
      intro a b
      rcases le_total (key a) (key b) with hle | hle <;> simp [hle]
    have htrans : ∀ a b c : α, decide (key a ≤ key b) = true → decide (key b ≤ key c) = true →
        decide (key a ≤ key c) = true := by
      intro a b c hab hbc
      exact decide_eq_true ((of_decide_eq_true hab).trans (of_decide_eq_true hbc))
    have hr : r.Pairwise (fun a b => decide (key a ≤ key b) = true) :=
      h.inOrder.imp (fun hab => decide_eq_true hab)
    have hr' : r'.Pairwise (fun a b => decide (key a ≤ key b) = true) :=
      h'.inOrder.imp (fun hab => decide_eq_true hab)
    exact (List.pairwise_merge htrans htotal r r' hr hr').imp (fun hab => of_decide_eq_true hab)
  · rw [withKey_append, ← h.keeps k, ← h'.keeps k]
    exact withKey_merge h.inOrder r' k

/-- **Sorted by one key, and then by another**: by the second, and where that
is equal by the first. -/
theorem lex {key' : α → μ} (h : Sorts key l r) (h' : Sorts key' r s) :
    Sorts (fun a => toLex (key' a, key a)) l s := by
  have hclass : ∀ (k : μ) (j : κ) (m : List α),
      withKey (fun a => toLex (key' a, key a)) (toLex (k, j)) m
        = withKey key j (withKey key' k m) := by
    intro k j m
    unfold withKey
    rw [List.filter_filter]
    refine List.filter_congr (fun a _ => ?_)
    rw [← Bool.decide_and]
    refine decide_eq_decide.mpr ?_
    rw [toLex_inj, Prod.mk.injEq]
    exact and_comm
  have hcomm : ∀ (k : μ) (j : κ) (m : List α),
      withKey key j (withKey key' k m) = withKey key' k (withKey key j m) :=
    fun k j m => List.filter_comm _ _ m
  refine ⟨?_, fun k => ?_⟩
  · refine List.pairwise_iff_forall_sublist.mpr (fun {a b} hab => ?_)
    rcases (h'.inOrder.forall_sublist hab).lt_or_eq with hlt | heq
    · exact Prod.Lex.toLex_le_toLex.mpr (Or.inl hlt)
    · have hab' := (h'.keeps.pair_sublist heq).mp hab
      exact Prod.Lex.toLex_le_toLex.mpr (Or.inr ⟨heq, h.inOrder.forall_sublist hab'⟩)
  · obtain ⟨k, rfl⟩ := toLex.surjective k
    rw [hclass, hclass, h'.keeps k.1, hcomm, h.keeps k.2, hcomm]

theorem pair_sublist_of_lt (h : Sorts key l r) {a b : α} (ha : a ∈ l) (hb : b ∈ l)
    (hlt : key a < key b) : [a, b].Sublist r := by
  have hne : a ≠ b := fun heq => hlt.ne (congrArg key heq)
  rcases pair_sublist_or (h.keeps.perm.mem_iff.mpr ha) (h.keeps.perm.mem_iff.mpr hb) hne
    with hab | hba
  · exact hab
  · exact absurd (h.inOrder.forall_sublist hba) hlt.not_ge

/-- **When a stable sort by one key is in order by another**: of any two
records, the one whose other key is less comes first by the key, which breaks
a tie only in favour of the one that was first. -/
theorem inOrder_iff (h : Sorts key l r) (value : α → μ) :
    InOrder value r ↔ l.Pairwise (fun a b =>
      (value a < value b → key a ≤ key b) ∧ (value b < value a → key b < key a)) := by
  constructor
  · intro hr
    refine List.pairwise_iff_forall_sublist.mpr (fun {a b} hab => ?_)
    have ha : a ∈ l := hab.subset List.mem_cons_self
    have hb : b ∈ l := hab.subset (List.mem_cons_of_mem a List.mem_cons_self)
    refine ⟨fun hlt => not_lt.mp (fun hkey => ?_), fun hlt => not_le.mp (fun hkey => ?_)⟩
    · exact (hr.forall_sublist (h.pair_sublist_of_lt hb ha hkey)).not_gt hlt
    · rcases hkey.lt_or_eq with hkey | hkey
      · exact (hr.forall_sublist (h.pair_sublist_of_lt ha hb hkey)).not_gt hlt
      · exact (hr.forall_sublist ((h.keeps.pair_sublist hkey).mpr hab)).not_gt hlt
  · intro hl
    refine List.pairwise_iff_forall_sublist.mpr (fun {a b} hab => not_lt.mp (fun hlt => ?_))
    have hkey := h.inOrder.forall_sublist hab
    have ha : a ∈ l := h.keeps.perm.mem_iff.mp (hab.subset List.mem_cons_self)
    have hb : b ∈ l :=
      h.keeps.perm.mem_iff.mp (hab.subset (List.mem_cons_of_mem a List.mem_cons_self))
    have hfirst : ¬ [a, b].Sublist l := fun hab' =>
      ((List.pairwise_iff_forall_sublist.mp hl hab').2 hlt).not_ge hkey
    rcases pair_sublist_or ha hb (fun heq => hlt.ne (congrArg value heq.symm)) with hab' | hba
    · exact hfirst hab'
    · have hkey' := (List.pairwise_iff_forall_sublist.mp hl hba).1 hlt
      exact hfirst ((h.keeps.pair_sublist (le_antisymm hkey hkey')).mp hab)

/-- **Every list has a stable sort.** -/
theorem exists_sorts (key : α → κ) (l : List α) : ∃ r, Sorts key l r := by
  induction l using List.reverseRecOn with
  | nil => exact ⟨[], nil⟩
  | append_singleton l a ih =>
    obtain ⟨r, hr⟩ := ih
    obtain ⟨p, q, rfl, hp, hq⟩ := hr.inOrder.exists_append a
    exact ⟨_, hr.insert hp hq⟩

/-- Only the order of the keys matters. -/
theorem congr_key {key' : α → μ} (h : Sorts key l r)
    (hkey : ∀ a ∈ l, ∀ b ∈ l, key a ≤ key b ↔ key' a ≤ key' b) : Sorts key' l r := by
  have heq : ∀ a ∈ l, ∀ b ∈ l, key a = key b ↔ key' a = key' b := by
    intro a ha b hb
    rw [le_antisymm_iff, le_antisymm_iff, hkey a ha b hb, hkey b hb a ha]
  have hmem : ∀ a, a ∈ r ↔ a ∈ l := fun a => h.keeps.perm.mem_iff
  refine ⟨h.inOrder.imp_of_mem fun ha hb hab => ?_, fun k => ?_⟩
  · exact (hkey _ ((hmem _).mp ha) _ ((hmem _).mp hb)).mp hab
  · by_cases hk : ∃ a ∈ l, key' a = k
    · obtain ⟨a, ha, rfl⟩ := hk
      have hclass : ∀ m : List α, (∀ b ∈ m, b ∈ l) →
          withKey key' (key' a) m = withKey key (key a) m := fun m hm =>
        List.filter_congr fun b hb => decide_eq_decide.mpr (heq b (hm b hb) a ha).symm
      rw [hclass r fun b hb => (hmem b).mp hb, hclass l fun b hb => hb, h.keeps]
    · rw [not_exists] at hk
      rw [withKey_eq_nil fun a ha heq' => hk a ⟨(hmem a).mp ha, heq'⟩,
        withKey_eq_nil fun a ha heq' => hk a ⟨ha, heq'⟩]

end Sorts

/-! ## The places in the stable sort -/

/-- **The place of a record** that comes behind `p` in the list: behind the
records with a lesser key, and those with the same key that come before it. -/
def place (key : α → κ) (l p : List α) (x : α) : ℕ :=
  l.countP (fun a => key a < key x) + p.countP (fun a => key a = key x)

/-- The places of the last records of a list. -/
def places (key : α → κ) (l : List α) : List α → List α → List ℕ
  | _, [] => []
  | p, x :: q => place key l p x :: places key l (p ++ [x]) q

/-- The places of records with a key are between those of the records with
a lesser one and those of the records with a greater one. -/
theorem place_lt {p q : List α} {x : α} (hl : l = p ++ x :: q) :
    place key l p x < l.countP (fun a => key a ≤ key x) := by
  have hsplit : ∀ m : List α, m.countP (fun a => key a ≤ key x)
      = m.countP (fun a => key a < key x) + m.countP (fun a => key a = key x) := by
    intro m
    induction m with
    | nil => rfl
    | cons b m ih =>
      simp only [List.countP_cons, ih, decide_eq_true_eq]
      rcases lt_trichotomy (key b) (key x) with hlt | heq | hgt
      · rw [if_pos hlt.le, if_pos hlt, if_neg hlt.ne]
        omega
      · rw [if_pos heq.le, if_neg heq.not_lt, if_pos heq]
        omega
      · rw [if_neg hgt.not_ge, if_neg hgt.not_gt, if_neg hgt.ne']
        rfl
  have hmore : p.countP (fun a => key a = key x) < l.countP (fun a => key a = key x) := by
    rw [hl, List.countP_append, List.countP_cons_of_pos (by simp)]
    omega
  rw [place, hsplit]
  omega

theorem countP_le_place {p : List α} {x : α} {k : κ} (hk : k < key x) :
    l.countP (fun a => key a ≤ k) ≤ place key l p x := by
  refine Nat.le_add_right_of_le (List.countP_mono_left fun a _ ha => ?_)
  exact decide_eq_true ((of_decide_eq_true ha).trans_lt hk)

/-- **Two records have two places.** -/
theorem place_ne {p q s : List α} {x y : α} (hl : l = p ++ x :: (q ++ y :: s)) :
    place key l p x ≠ place key l (p ++ x :: q) y := by
  have hl' : l = (p ++ x :: q) ++ y :: s := by simp [hl]
  rcases lt_trichotomy (key x) (key y) with hlt | heq | hgt
  · exact ((place_lt hl).trans_le (countP_le_place hlt)).ne
  · unfold place
    rw [heq, List.countP_append, List.countP_cons_of_pos (by simpa using heq)]
    omega
  · exact ((place_lt hl').trans_le (countP_le_place hgt)).ne'

theorem mem_places {l p q : List α} {m : ℕ} :
    m ∈ places key l p q ↔ ∃ q₁ y q₂, q = q₁ ++ y :: q₂ ∧ m = place key l (p ++ q₁) y := by
  induction q generalizing p with
  | nil => exact iff_of_false List.not_mem_nil (by rintro ⟨q₁, y, q₂, h, -⟩; simp at h)
  | cons x q ih =>
    rw [places, List.mem_cons, ih]
    constructor
    · rintro (rfl | ⟨q₁, y, q₂, rfl, rfl⟩)
      · exact ⟨[], x, q, rfl, by rw [List.append_nil]⟩
      · exact ⟨x :: q₁, y, q₂, rfl, by rw [List.append_assoc]; rfl⟩
    · rintro ⟨q₁, y, q₂, hq, rfl⟩
      cases q₁ with
      | nil =>
        obtain ⟨rfl, rfl⟩ := List.cons.inj hq
        exact Or.inl (by rw [List.append_nil])
      | cons z q₁ =>
        obtain ⟨rfl, rfl⟩ := List.cons.inj hq
        exact Or.inr ⟨q₁, y, q₂, rfl, by rw [List.append_assoc]; rfl⟩

theorem length_places (key : α → κ) (l p q : List α) : (places key l p q).length = q.length := by
  induction q generalizing p with
  | nil => rfl
  | cons x q ih => rw [places, List.length_cons, List.length_cons, ih]

theorem nodup_places {p q : List α} (hl : l = p ++ q) : (places key l p q).Nodup := by
  induction q generalizing p with
  | nil => exact List.nodup_nil
  | cons x q ih =>
    rw [places, List.nodup_cons]
    refine ⟨fun hmem => ?_, ih (by rw [hl, List.append_assoc]; rfl)⟩
    obtain ⟨q₁, y, q₂, rfl, heq⟩ := mem_places.mp hmem
    rw [List.append_assoc] at heq
    exact place_ne hl heq

/-- **What the record at a place is.** -/
theorem Sorts.getElem?_place {p q : List α} {x : α} (h : Sorts key (p ++ x :: q) r) :
    r[place key (p ++ x :: q) p x]? = some x := by
  have hless : (r.filter (fun a => key a < key x)).length
      = (p ++ x :: q).countP (fun a => key a < key x) := by
    rw [← List.countP_eq_length_filter]
    exact h.keeps.perm.countP_eq _
  have hsame : (withKey key (key x) p).length = p.countP (fun a => key a = key x) :=
    List.countP_eq_length_filter.symm
  rw [h.inOrder.eq_append (key x), h.keeps, withKey_append, withKey_cons_self, place, ← hless,
    ← hsame, List.getElem?_append_right (Nat.le_add_right _ _), Nat.add_sub_cancel_left,
    List.append_assoc, List.getElem?_append_right (Nat.le_refl _), Nat.sub_self]
  rfl

/-- **The places are all there are**, each once. -/
theorem places_perm_range (key : α → κ) (l : List α) :
    (places key l [] l).Perm (List.range l.length) := by
  obtain ⟨r, hr⟩ := Sorts.exists_sorts key l
  have hsubset : places key l [] l ⊆ List.range l.length := by
    intro m hm
    obtain ⟨q₁, y, q₂, rfl, rfl⟩ := mem_places.mp hm
    have hlt := (List.getElem?_eq_some_iff.mp hr.getElem?_place).1
    rw [hr.keeps.perm.length_eq] at hlt
    exact List.mem_range.mpr hlt
  have hsubperm := List.subperm_of_subset (nodup_places (List.nil_append l).symm) hsubset
  refine hsubperm.perm_of_length_le ?_
  rw [length_places, List.length_range]

end StableSort
