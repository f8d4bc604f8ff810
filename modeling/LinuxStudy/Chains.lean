import Mathlib.Data.List.Nodup
import Mathlib.Data.List.GetD
import Mathlib.Logic.Function.Basic

/-!
# Singly linked chains

Nodes with one link each, and a family of chains that begin at fixed places: a
hash table with the list of what is free beside it is one. A place where a chain
begins holds a link as a node does, so that one function `next` has them all, and
to take a node out of a chain is to write the link of the place before it, which
may be the beginning.

`Family` says that the chains have no node in common. A node that is new, or was
taken out, can be put in front of any chain (`Family.push`); a node is taken out of
the middle of its chain by one write (`Family.unlink`); and three writes move it
from one chain to the front of another (`Family.move`), in an order that leaves the
link before it to the end.
-/

namespace Chains

variable {α ι : Type}

/-- **The links lead** from one place through the nodes of a list to another. -/
def Leads (next : α → α) : α → List α → α → Prop
  | a, [], b => next a = b
  | a, x :: l, b => next a = x ∧ Leads next x l b

/-- **Chains that have no node in common**, with where each of them begins. -/
structure Family (null : α) (next : α → α) (start : ι → α) (lists : ι → List α) : Prop where
  leads : ∀ i, Leads next (start i) (lists i) null
  notNull : ∀ i, null ∉ lists i
  nodup : ∀ i, (lists i).Nodup
  apart : ∀ i j, i ≠ j → ∀ x ∈ lists i, x ∉ lists j
  start_injective : Function.Injective start
  start_notMem : ∀ i j, start i ∉ lists j

variable {null a b x : α} {next next' : α → α} {start : ι → α} {lists : ι → List α}
  {l l₁ l₂ : List α} {i j : ι}

/-! ## Cutting and joining

A chain from one place to another is cut at any of its nodes, and what is before
the cut depends only on the links there. A write to the last place leads
elsewhere, and nothing else is changed. -/

theorem leads_append : Leads next a (l₁ ++ x :: l₂) b ↔ Leads next a l₁ x ∧ Leads next x l₂ b := by
  induction l₁ generalizing a with
  | nil => exact Iff.rfl
  | cons y l₁ ih =>
    show _ ∧ Leads next y (l₁ ++ x :: l₂) b ↔ (_ ∧ Leads next y l₁ x) ∧ _
    rw [ih]
    exact and_assoc.symm

theorem Leads.congr (h : Leads next a l b) (heq : ∀ y ∈ a :: l, next' y = next y) :
    Leads next' a l b := by
  induction l generalizing a with
  | nil => exact (heq a List.mem_cons_self).trans h
  | cons y l ih =>
    exact ⟨(heq a List.mem_cons_self).trans h.1,
      ih h.2 fun z hz => heq z (List.mem_cons_of_mem _ hz)⟩

theorem Leads.next_last (h : Leads next a l b) : next (l.getLastD a) = b := by
  induction l generalizing a with
  | nil => exact h
  | cons y l ih =>
    rw [List.getLastD_cons]
    exact ih h.2

theorem getLastD_mem (l : List α) (a : α) : l.getLastD a ∈ a :: l := by
  rcases List.eq_nil_or_concat' l with rfl | ⟨l, x, rfl⟩
  · exact List.mem_cons_self
  · rw [List.getLastD_concat]
    exact List.mem_cons_of_mem _ (List.mem_append_right _ List.mem_cons_self)

variable [DecidableEq α]

/-- To write the last link is to lead elsewhere. -/
theorem Leads.update_last (h : Leads next a l b) (hnodup : (a :: l).Nodup) (x : α) :
    Leads (Function.update next (l.getLastD a) x) a l x := by
  induction l generalizing a with
  | nil => exact Function.update_self _ _ _
  | cons y l ih =>
    rw [List.getLastD_cons]
    obtain ⟨ha, hl⟩ := List.nodup_cons.mp hnodup
    refine ⟨?_, ih h.2 hl⟩
    have hne : a ≠ l.getLastD y := fun heq => ha (heq ▸ getLastD_mem l y)
    exact (Function.update_of_ne hne _ _).trans h.1

namespace Family

omit [DecidableEq α] in
/-! ## One node more or less

In a family every node is on one chain at most, and a write to the place before a
node changes the chain that place is on and no other. So each of the three
operations is a few such writes, and what has to be said is which places are
written, and that they are not on the other chains. -/

theorem notMem_other (h : Family null next start lists) (hij : i ≠ j)
    (hx : x ∈ start i :: lists i) : x ∉ start j :: lists j := by
  intro hmem
  rcases List.mem_cons.mp hx with rfl | hx <;> rcases List.mem_cons.mp hmem with heq | hmem
  · exact hij (h.start_injective heq)
  · exact h.start_notMem _ _ hmem
  · exact h.start_notMem _ _ (heq ▸ hx)
  · exact h.apart i j hij x hx hmem

variable [DecidableEq ι]

omit [DecidableEq α] in
/-- What is left when a node was taken out. -/
theorem mem_unlink (h : Family null next start lists) (hi : lists i = l₁ ++ x :: l₂) :
    a ∈ Function.update lists i (l₁ ++ l₂) j ↔ a ∈ lists j ∧ a ≠ x := by
  have hperm : (lists i).Perm (x :: (l₁ ++ l₂)) := hi ▸ List.perm_middle
  have hx : x ∉ l₁ ++ l₂ := (List.nodup_cons.mp (hperm.nodup_iff.mp (h.nodup i))).1
  by_cases hj : j = i
  · subst hj
    rw [Function.update_self, hperm.mem_iff, List.mem_cons]
    constructor
    · exact fun ha => ⟨Or.inr ha, fun heq => hx (heq ▸ ha)⟩
    · rintro ⟨heq | ha, hne⟩
      · exact absurd heq hne
      · exact ha
  · rw [Function.update_of_ne hj]
    refine ⟨fun ha => ⟨ha, fun heq => ?_⟩, And.left⟩
    exact h.apart i j (Ne.symm hj) x (hperm.mem_iff.mpr List.mem_cons_self) (heq ▸ ha)

omit [DecidableEq α] in
theorem mem_push : a ∈ Function.update lists i (x :: lists i) j ↔ a = x ∧ j = i ∨ a ∈ lists j := by
  by_cases hj : j = i
  · subst hj
    rw [Function.update_self, List.mem_cons]
    simp
  · rw [Function.update_of_ne hj]
    simp [hj]

/-- **A node is taken out** by a write to the place before it. -/
theorem unlink (h : Family null next start lists) (hi : lists i = l₁ ++ x :: l₂) :
    Family null (Function.update next (l₁.getLastD (start i)) (next x)) start
      (Function.update lists i (l₁ ++ l₂)) := by
  have hsub : (l₁ ++ l₂).Sublist (lists i) := by
    rw [hi]
    exact (List.Sublist.refl l₁).append (List.sublist_cons_self x l₂)
  have hmem : ∀ j, ∀ y ∈ Function.update lists i (l₁ ++ l₂) j, y ∈ lists j :=
    fun j y hy => ((h.mem_unlink hi).mp hy).1
  have hlast : l₁.getLastD (start i) ∈ start i :: lists i := by
    rw [hi]
    rcases List.mem_cons.mp (getLastD_mem l₁ (start i)) with heq | hin
    · rw [heq]
      exact List.mem_cons_self
    · exact List.mem_cons_of_mem _ (List.mem_append_left _ hin)
  refine ⟨fun j => ?_, fun j hj => h.notNull j (hmem j _ hj), fun j => ?_,
    fun j k hjk y hy hy' => h.apart j k hjk y (hmem j y hy) (hmem k y hy'), h.start_injective,
    fun j k hjk => h.start_notMem j k (hmem k _ hjk)⟩
  · by_cases hj : j = i
    · subst hj
      rw [Function.update_self]
      have hleads := h.leads j
      have hnodup := h.nodup j
      have hstart := h.start_notMem j j
      rw [hi] at hleads hnodup hstart
      obtain ⟨hfront, hback⟩ := leads_append.mp hleads
      obtain ⟨hnodup₁, hnodup₂, hapart⟩ := List.nodup_append.mp hnodup
      have hfront' : Leads (Function.update next (l₁.getLastD (start j)) (next x)) (start j) l₁
          (next x) :=
        hfront.update_last (List.nodup_cons.mpr
          ⟨fun hin => hstart (List.mem_append_left _ hin), hnodup₁⟩) _
      cases l₂ with
      | nil =>
        rw [List.append_nil]
        rwa [show next x = null from hback] at hfront' ⊢
      | cons y l₂ =>
        rw [hback.1] at hfront' ⊢
        refine leads_append.mpr ⟨hfront', hback.2.congr fun z hz => Function.update_of_ne ?_ _ _⟩
        intro heq
        have hz' : z ∈ x :: y :: l₂ := List.mem_cons_of_mem _ hz
        rcases List.mem_cons.mp (getLastD_mem l₁ (start j)) with hst | hin
        · exact hstart (List.mem_append_right _ (hst ▸ heq ▸ hz'))
        · exact hapart _ hin _ hz' heq.symm
    · rw [Function.update_of_ne hj]
      refine (h.leads j).congr fun y hy => Function.update_of_ne ?_ _ _
      exact fun heq => h.notMem_other (Ne.symm hj) hlast (heq ▸ hy)
  · by_cases hj : j = i
    · subst hj
      rw [Function.update_self]
      exact (h.nodup j).sublist hsub
    · rw [Function.update_of_ne hj]
      exact h.nodup j

/-- **A node is put in front** of a chain. -/
theorem push (h : Family null next start lists) (hnull : x ≠ null) (hstart : ∀ j, x ≠ start j)
    (hnew : ∀ j, x ∉ lists j) (i : ι) :
    Family null (Function.update (Function.update next x (next (start i))) (start i) x) start
      (Function.update lists i (x :: lists i)) := by
  have hmem : ∀ j, ∀ y ∈ Function.update lists i (x :: lists i) j, y = x ∧ j = i ∨ y ∈ lists j :=
    fun j y hy => mem_push.mp hy
  have hkeep : ∀ j, ∀ y ∈ lists j,
      Function.update (Function.update next x (next (start i))) (start i) x y = next y := by
    intro j y hy
    have hy_start : y ≠ start i := fun heq => h.start_notMem i j (heq ▸ hy)
    have hy_x : y ≠ x := fun heq => hnew j (heq ▸ hy)
    rw [Function.update_of_ne hy_start, Function.update_of_ne hy_x]
  refine ⟨fun j => ?_, fun j hj => ?_, fun j => ?_, fun j k hjk y hy hy' => ?_, h.start_injective,
    fun j k hjk => ?_⟩
  · by_cases hj : j = i
    · subst hj
      rw [Function.update_self]
      refine ⟨Function.update_self _ _ _, ?_⟩
      have hx : Function.update (Function.update next x (next (start j))) (start j) x x
          = next (start j) := by
        rw [Function.update_of_ne (hstart j), Function.update_self]
      have hleads := h.leads j
      revert hleads
      cases hl : lists j with
      | nil => exact fun hleads => hx.trans hleads
      | cons y l =>
        refine fun hleads => ⟨hx.trans hleads.1, hleads.2.congr fun z hz => hkeep j z ?_⟩
        rw [hl]
        exact hz
    · rw [Function.update_of_ne hj]
      refine (h.leads j).congr fun y hy => ?_
      rcases List.mem_cons.mp hy with rfl | hy
      · rw [Function.update_of_ne (fun heq => hj (h.start_injective heq)),
          Function.update_of_ne (fun heq => hstart j heq.symm)]
      · exact hkeep j y hy
  · rcases hmem j _ hj with ⟨heq, -⟩ | hin
    · exact hnull heq.symm
    · exact h.notNull j hin
  · by_cases hj : j = i
    · subst hj
      rw [Function.update_self]
      exact List.nodup_cons.mpr ⟨hnew j, h.nodup j⟩
    · rw [Function.update_of_ne hj]
      exact h.nodup j
  · rcases hmem j y hy with ⟨rfl, rfl⟩ | hin <;> rcases hmem k y hy' with ⟨heq, rfl⟩ | hin'
    · exact hjk rfl
    · exact hnew k hin'
    · exact hnew j (heq ▸ hin)
    · exact h.apart j k hjk y hin hin'
  · rcases hmem k _ hjk with ⟨heq, -⟩ | hin
    · exact hstart j heq.symm
    · exact h.start_notMem j k hin

/-- **A node is moved** to the front of another chain: it gets the link of the
beginning, the beginning gets the node, and the place before it gets the link it
had. -/
theorem move (h : Family null next start lists) (hij : i ≠ j) (hi : lists i = l₁ ++ x :: l₂) :
    Family null (Function.update (Function.update (Function.update next x (next (start j)))
        (start j) x) (l₁.getLastD (start i)) (next x)) start
      (Function.update (Function.update lists i (l₁ ++ l₂)) j (x :: lists j)) := by
  have hx : x ∈ lists i := by
    rw [hi]
    exact List.mem_append_right _ List.mem_cons_self
  have hlast : l₁.getLastD (start i) ∈ start i :: lists i := by
    rw [hi]
    rcases List.mem_cons.mp (getLastD_mem l₁ (start i)) with heq | hin
    · rw [heq]
      exact List.mem_cons_self
    · exact List.mem_cons_of_mem _ (List.mem_append_left _ hin)
  have hlast_start : l₁.getLastD (start i) ≠ start j :=
    fun heq => h.notMem_other hij hlast (heq ▸ List.mem_cons_self)
  have hlast_x : l₁.getLastD (start i) ≠ x := by
    intro heq
    have hnodup := h.nodup i
    rw [hi] at hnodup
    rcases List.mem_cons.mp (getLastD_mem l₁ (start i)) with hst | hin
    · exact h.start_notMem i i (by rw [← hst, heq]; exact hx)
    · exact (List.nodup_append.mp hnodup).2.2 _ hin _ List.mem_cons_self heq
  have hnew : ∀ k, x ∉ Function.update lists i (l₁ ++ l₂) k :=
    fun k hk => ((h.mem_unlink hi).mp hk).2 rfl
  have hpush := (h.unlink hi).push (fun heq => h.notNull i (heq ▸ hx))
    (fun k heq => h.start_notMem k i (heq ▸ hx)) hnew j
  rw [Function.update_of_ne (Ne.symm hlast_start), Function.update_of_ne (Ne.symm hij)] at hpush
  rwa [Function.update_comm hlast_x, Function.update_comm hlast_start] at hpush

end Family

end Chains
