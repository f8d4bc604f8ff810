import Mathlib.Data.List.Nodup
import Mathlib.Logic.Function.Basic

/-!
# Doubly linked lists

A heap of nodes that carry a link to the next node and one to the previous
node. A list is read off such a heap between two ends: `Linked a l b` says
that the links lead from `a` through the nodes of `l` to `b`, forwards by
`next` and backwards by `prev`.

The ends are not part of the list, and they may be two sentinels or one: with
`a = b` the same words describe a ring. An implementation without sentinels,
which keeps the ends of the list in two variables and a null link at either
end, is a ring through the null node. Taking a node out (`unlink`) and putting
one behind the front end (`linkAfter`) are each a handful of assignments, and
the lemmas say what they do to the list.
-/

/-- The links of a heap. -/
structure Links (α : Type) where
  next : α → α
  prev : α → α

namespace Links

variable {α : Type}

/-- **The links lead from one end to the other** through the nodes of a list,
and back. -/
def Linked (L : Links α) : α → List α → α → Prop
  | a, [], b => L.next a = b ∧ L.prev b = a
  | a, x :: l, b => (L.next a = x ∧ L.prev x = a) ∧ L.Linked x l b

/-- The nodes met on a walk of so many steps. -/
def walk (L : Links α) : ℕ → α → List α
  | 0, _ => []
  | n + 1, a => L.next a :: L.walk n (L.next a)

variable {L M : Links α} {a b x : α} {l l₁ l₂ : List α}

/-! ## Lists that are cut and joined -/

theorem linked_append : L.Linked a (l₁ ++ x :: l₂) b ↔ L.Linked a l₁ x ∧ L.Linked x l₂ b := by
  induction l₁ generalizing a with
  | nil => exact Iff.rfl
  | cons y l₁ ih =>
    show _ ∧ L.Linked y (l₁ ++ x :: l₂) b ↔ (_ ∧ L.Linked y l₁ x) ∧ _
    rw [ih]
    exact and_assoc.symm

/-- Only the links between the ends matter. -/
theorem Linked.congr (h : L.Linked a l b) (hnext : ∀ y ∈ a :: l, M.next y = L.next y)
    (hprev : ∀ y ∈ b :: l, M.prev y = L.prev y) : M.Linked a l b := by
  induction l generalizing a with
  | nil =>
    exact ⟨(hnext a List.mem_cons_self).trans h.1, (hprev b List.mem_cons_self).trans h.2⟩
  | cons y l ih =>
    obtain ⟨⟨hay, hya⟩, hrest⟩ := h
    refine ⟨⟨(hnext a List.mem_cons_self).trans hay, ?_⟩, ih hrest ?_ ?_⟩
    · exact (hprev y (List.mem_cons_of_mem _ List.mem_cons_self)).trans hya
    · exact fun z hz => hnext z (List.mem_cons_of_mem _ hz)
    · intro z hz
      refine hprev z ?_
      rcases List.mem_cons.mp hz with rfl | hz
      · exact List.mem_cons_self
      · exact List.mem_cons_of_mem _ (List.mem_cons_of_mem _ hz)

theorem Linked.next_mem (h : L.Linked a l b) : L.next a ∈ b :: l := by
  cases l with
  | nil => exact h.1 ▸ List.mem_cons_self
  | cons y l => exact h.1.1 ▸ List.mem_cons_of_mem _ List.mem_cons_self

theorem Linked.prev_mem (h : L.Linked a l b) : L.prev b ∈ a :: l := by
  induction l generalizing a with
  | nil => exact h.2 ▸ List.mem_cons_self
  | cons y l ih => exact List.mem_cons_of_mem _ (ih h.2)

theorem Linked.prev_end (h : L.Linked a (l ++ [x]) b) : L.prev b = x :=
  (linked_append.mp h).2.2

/-- **A walk of the right length reads the list.** -/
theorem Linked.walk_eq (h : L.Linked a l b) : L.walk l.length a = l := by
  induction l generalizing a with
  | nil => rfl
  | cons y l ih =>
    obtain ⟨⟨hay, -⟩, hrest⟩ := h
    show L.next a :: L.walk l.length (L.next a) = y :: l
    rw [hay, ih hrest]

section Update

variable [DecidableEq α]

/-! ## Nodes that are taken out and put in

To take out a node its neighbours are linked to each other, and to put one in it
is linked to its neighbours and they to it. In both cases the list is cut at the
node, and what is before and behind is left as it is, since its links are among
nodes that are not written. The ends are no nodes of the list; a write to their
links to the inside changes nothing outside. -/

/-- A node is taken out: its neighbours are linked to each other. -/
def unlink (L : Links α) (x : α) : Links α where
  next := Function.update L.next (L.prev x) (L.next x)
  prev := Function.update L.prev (L.next x) (L.prev x)

/-- A node is put behind another. -/
def linkAfter (L : Links α) (a x : α) : Links α where
  next := Function.update (Function.update L.next x (L.next a)) a x
  prev := Function.update (Function.update L.prev x a) (L.next a) x

theorem linkAfter_next_self (L : Links α) (a x : α) : (L.linkAfter a x).next a = x := by
  simp only [linkAfter, Function.update_self]

/-- **A node that is taken out** is missing from the list, and nothing else
is. -/
theorem Linked.unlink (h : L.Linked a (l₁ ++ x :: l₂) b) (ha : a ∉ l₁ ++ x :: l₂)
    (hb : b ∉ l₁ ++ x :: l₂) (hnodup : (l₁ ++ x :: l₂).Nodup) :
    (L.unlink x).Linked a (l₁ ++ l₂) b := by
  obtain ⟨hfront, hback⟩ := linked_append.mp h
  -- the induction walks to the node that goes
  induction l₁ generalizing a with
  | nil =>
    obtain ⟨-, hprev⟩ := hfront
    have hx : x ∉ l₂ := (List.nodup_cons.mp hnodup).1
    cases l₂ with
    | nil =>
      obtain ⟨hnext, -⟩ := hback
      refine ⟨?_, ?_⟩
      · simp only [Links.unlink, hprev, hnext, Function.update_self]
      · simp only [Links.unlink, hprev, hnext, Function.update_self]
    | cons y l₂ =>
      obtain ⟨⟨hnext, -⟩, hrest⟩ := hback
      have hy : y ∉ l₂ := (List.nodup_cons.mp (List.nodup_cons.mp hnodup).2).1
      refine ⟨⟨?_, ?_⟩, hrest.congr (fun z hz => ?_) (fun z hz => ?_)⟩
      · simp only [Links.unlink, hprev, hnext, Function.update_self]
      · simp only [Links.unlink, hprev, hnext, Function.update_self]
      · have hne : z ≠ L.prev x := by
          rintro rfl
          rw [hprev] at hz
          exact ha (List.mem_cons_of_mem _ hz)
        exact Function.update_of_ne hne _ _
      · have hne : z ≠ L.next x := by
          rintro rfl
          rw [hnext] at hz
          rcases List.mem_cons.mp hz with rfl | hz
          · exact hb (List.mem_cons_of_mem _ List.mem_cons_self)
          · exact hy hz
        exact Function.update_of_ne hne _ _
  | cons y l₁ ih =>
    obtain ⟨⟨hnext, hprev⟩, hrest⟩ := hfront
    obtain ⟨hy, hnodup⟩ := List.nodup_cons.mp hnodup
    have hback' : L.next x ∈ b :: l₂ := hback.next_mem
    refine ⟨⟨?_, ?_⟩, ih (linked_append.mpr ⟨hrest, hback⟩) hy
      (fun hmem => hb (List.mem_cons_of_mem _ hmem)) hnodup hrest⟩
    · have hne : a ≠ L.prev x := by
        intro hax
        have hmem : a ∈ y :: l₁ := hax ▸ hrest.prev_mem
        exact ha (List.mem_append_left (x :: l₂) hmem)
      exact (Function.update_of_ne hne _ _).trans hnext
    · have hne : y ≠ L.next x := by
        rintro rfl
        rcases List.mem_cons.mp hback' with hyb | hmem
        · exact hb (hyb ▸ List.mem_cons_self)
        · exact hy (List.mem_append_right l₁ (List.mem_cons_of_mem _ hmem))
      exact (Function.update_of_ne hne _ _).trans hprev

/-- **A node that is put behind the front end** is the first of the list. -/
theorem Linked.linkAfter (h : L.Linked a l b) (ha : a ∉ l) (hb : b ∉ l) (hnodup : l.Nodup)
    (hxa : x ≠ a) (hxb : x ≠ b) (hx : x ∉ l) : (L.linkAfter a x).Linked a (x :: l) b := by
  have hne : x ≠ L.next a := by
    rintro rfl
    rcases List.mem_cons.mp h.next_mem with hmem | hmem
    · exact hxb hmem
    · exact hx hmem
  have hnextx : (L.linkAfter a x).next x = L.next a := by
    simp only [Links.linkAfter, Function.update_of_ne hxa, Function.update_self]
  have hprevx : (L.linkAfter a x).prev x = a := by
    simp only [Links.linkAfter, Function.update_of_ne hne, Function.update_self]
  have hprevn : (L.linkAfter a x).prev (L.next a) = x := by
    simp only [Links.linkAfter, Function.update_self]
  refine ⟨⟨L.linkAfter_next_self a x, hprevx⟩, ?_⟩
  cases l with
  | nil => exact ⟨hnextx.trans h.1, h.1 ▸ hprevn⟩
  | cons y l =>
    obtain ⟨⟨hnext, hprev⟩, hrest⟩ := h
    refine ⟨⟨hnextx.trans hnext, hnext ▸ hprevn⟩, hrest.congr (fun z hz => ?_) (fun z hz => ?_)⟩
    · have hza : z ≠ a := by
        rintro rfl
        exact ha hz
      have hzx : z ≠ x := by
        rintro rfl
        exact hx hz
      simp only [Links.linkAfter, Function.update_of_ne hza, Function.update_of_ne hzx]
    · have hzy : z ≠ L.next a := by
        rw [hnext]
        rintro rfl
        rcases List.mem_cons.mp hz with rfl | hz
        · exact hb List.mem_cons_self
        · exact (List.nodup_cons.mp hnodup).1 hz
      have hzx : z ≠ x := by
        rintro rfl
        rcases List.mem_cons.mp hz with hzb | hz
        · exact hxb hzb
        · exact hx (List.mem_cons_of_mem _ hz)
      simp only [Links.linkAfter, Function.update_of_ne hzy, Function.update_of_ne hzx]

/-- **A node that is put behind another** follows it in the list. -/
theorem Linked.linkAfter_mid {p : α} (h : L.Linked a (l₁ ++ p :: l₂) b) (ha : a ∉ l₁ ++ p :: l₂)
    (hb : b ∉ l₁ ++ p :: l₂) (hnodup : (l₁ ++ p :: l₂).Nodup) (hxa : x ≠ a) (hxb : x ≠ b)
    (hx : x ∉ l₁ ++ p :: l₂) : (L.linkAfter p x).Linked a (l₁ ++ p :: x :: l₂) b := by
  obtain ⟨hfront, hback⟩ := linked_append.mp h
  obtain ⟨-, hnodup₂, hdisjoint⟩ := List.nodup_append.mp hnodup
  obtain ⟨hp, hnodup₂⟩ := List.nodup_cons.mp hnodup₂
  have hxp : x ≠ p := by
    rintro rfl
    exact hx (List.mem_append_right _ List.mem_cons_self)
  refine linked_append.mpr ⟨hfront.congr (fun z hz => ?_) (fun z hz => ?_), ?_⟩
  · have hzp : z ≠ p := by
      rcases List.mem_cons.mp hz with rfl | hz
      · rintro rfl
        exact ha (List.mem_append_right _ List.mem_cons_self)
      · exact hdisjoint z hz p List.mem_cons_self
    have hzx : z ≠ x := by
      rcases List.mem_cons.mp hz with rfl | hz
      · exact hxa.symm
      · rintro rfl
        exact hx (List.mem_append_left _ hz)
    simp only [Links.linkAfter, Function.update_of_ne hzp, Function.update_of_ne hzx]
  · have hzx : z ≠ x := by
      rcases List.mem_cons.mp hz with rfl | hz
      · exact hxp.symm
      · rintro rfl
        exact hx (List.mem_append_left _ hz)
    have hzn : z ≠ L.next p := by
      intro hzn
      have hmem : z ∈ b :: l₂ := hzn ▸ hback.next_mem
      rcases List.mem_cons.mp hz with rfl | hz
      · rcases List.mem_cons.mp hmem with rfl | hmem
        · exact hb (List.mem_append_right _ List.mem_cons_self)
        · exact hp hmem
      · rcases List.mem_cons.mp hmem with rfl | hmem
        · exact hb (List.mem_append_left _ hz)
        · exact hdisjoint z hz z (List.mem_cons_of_mem _ hmem) rfl
    simp only [Links.linkAfter, Function.update_of_ne hzx, Function.update_of_ne hzn]
  · exact hback.linkAfter hp
      (fun hmem => hb (List.mem_append_right _ (List.mem_cons_of_mem _ hmem)))
      hnodup₂ hxp hxb (fun hmem => hx (List.mem_append_right _ (List.mem_cons_of_mem _ hmem)))

/-- **Taking out the first node and putting it back** changes no link. -/
theorem Linked.relink_first (h : L.Linked a (x :: l) b) (hxa : x ≠ a) (hxb : x ≠ b)
    (hx : x ∉ l) : (L.unlink x).linkAfter a x = L := by
  obtain ⟨⟨hnext, hprev⟩, hrest⟩ := h
  have hback : L.prev (L.next x) = x := by
    cases l with
    | nil => exact hrest.1 ▸ hrest.2
    | cons y l => exact hrest.1.1 ▸ hrest.1.2
  have hne : x ≠ L.next x := by
    intro hxx
    have hmem : x ∈ b :: l := by
      have hmem := hrest.next_mem
      rwa [← hxx] at hmem
    rcases List.mem_cons.mp hmem with hmem | hmem
    · exact hxb hmem
    · exact hx hmem
  have hfirst : (L.unlink x).next a = L.next x := by
    simp only [Links.unlink, hprev, Function.update_self]
  have hnexts : ((L.unlink x).linkAfter a x).next = L.next := by
    funext z
    by_cases hza : z = a
    · rw [hza]
      exact ((L.unlink x).linkAfter_next_self a x).trans hnext.symm
    · by_cases hzx : z = x
      · rw [hzx]
        simp only [Links.linkAfter, hfirst, Function.update_of_ne hxa, Function.update_self]
      · simp only [Links.linkAfter, Links.unlink, hprev, Function.update_of_ne hza,
          Function.update_of_ne hzx]
  have hprevs : ((L.unlink x).linkAfter a x).prev = L.prev := by
    funext z
    by_cases hzn : z = L.next x
    · rw [hzn]
      simp only [Links.linkAfter, hfirst, Function.update_self, hback]
    · by_cases hzx : z = x
      · rw [hzx]
        simp only [Links.linkAfter, hfirst, Function.update_of_ne hne, Function.update_self, hprev]
      · simp only [Links.linkAfter, hfirst, Function.update_of_ne hzn, Function.update_of_ne hzx]
        exact Function.update_of_ne hzn _ _
  calc (L.unlink x).linkAfter a x
      = ⟨((L.unlink x).linkAfter a x).next, ((L.unlink x).linkAfter a x).prev⟩ := rfl
    _ = ⟨L.next, L.prev⟩ := by rw [hnexts, hprevs]

end Update

end Links
