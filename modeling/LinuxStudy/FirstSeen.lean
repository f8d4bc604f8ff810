import Mathlib.Data.List.Induction
import Mathlib.Data.List.Nodup

/-!
# The first with each key

A list is gone through, and what has a key that none before it had is put into
another list (`firsts`). What comes out has every key once. It is the list
without its repetitions exactly if a key tells the elements of the list apart
(`firsts_eq_eraseDups_iff`): two with one key would both have to be there.
-/

namespace FirstSeen

variable {α κ : Type} [DecidableEq κ] {key : α → κ} {l : List α} {a : α}

/-- An element with a new key is added. -/
def keep (key : α → κ) (l : List α) (a : α) : List α := if key a ∈ l.map key then l else l ++ [a]

/-- **The first element with each key**, in order. -/
def firsts (key : α → κ) (l : List α) : List α := l.foldl (keep key) []

theorem firsts_concat (key : α → κ) (l : List α) (a : α) :
    firsts key (l ++ [a]) = keep key (firsts key l) a := List.foldl_concat ..

/-- The keys are the keys of the list. -/
theorem mem_map_firsts (key : α → κ) (l : List α) (k : κ) :
    k ∈ (firsts key l).map key ↔ k ∈ l.map key := by
  induction l using List.reverseRecOn with
  | nil => exact Iff.rfl
  | append_singleton l a ih =>
    rw [firsts_concat, List.map_append, List.mem_append, List.map_singleton, List.mem_singleton,
      ← ih]
    unfold keep
    split
    · next hmem => exact ⟨Or.inl, fun h => h.elim id (fun hk => hk ▸ hmem)⟩
    · rw [List.map_append, List.mem_append, List.map_singleton, List.mem_singleton]

/-- Every key is there once. -/
theorem nodup_map_firsts (key : α → κ) (l : List α) : ((firsts key l).map key).Nodup := by
  induction l using List.reverseRecOn with
  | nil => exact List.nodup_nil
  | append_singleton l a ih =>
    rw [firsts_concat]
    unfold keep
    split
    · exact ih
    · next hnew =>
      rw [List.map_append]
      exact ih.append (List.nodup_singleton _) (List.disjoint_singleton.mpr hnew)

variable [BEq α] [LawfulBEq α]

theorem eraseDups_concat (l : List α) (a : α) :
    (l ++ [a]).eraseDups = if a ∈ l then l.eraseDups else l.eraseDups ++ [a] := by
  rw [List.eraseDups_append]
  split
  · next hmem => simp [List.removeAll, hmem]
  · next hnew => simp [List.removeAll, hnew, List.eraseDups_cons]

/-- **The first with each key are the different elements, in the order in which
they first appear, exactly if the key tells the elements apart.** -/
theorem firsts_eq_eraseDups_iff (key : α → κ) (l : List α) :
    firsts key l = l.eraseDups ↔ ∀ a ∈ l, ∀ b ∈ l, key a = key b → a = b := by
  constructor
  · intro heq a ha b hb hkey
    have hnodup := nodup_map_firsts key l
    rw [heq] at hnodup
    exact List.inj_on_of_nodup_map hnodup (List.mem_eraseDups.mpr ha)
      (List.mem_eraseDups.mpr hb) hkey
  · induction l using List.reverseRecOn with
    | nil => exact fun _ => rfl
    | append_singleton l a ih =>
      intro hinj
      have hleft : ∀ {b}, b ∈ l → b ∈ l ++ [a] := fun hb => List.mem_append_left _ hb
      have hlast : a ∈ l ++ [a] := List.mem_append_right _ List.mem_cons_self
      have hold := ih (fun b hb c hc => hinj b (hleft hb) c (hleft hc))
      -- the key has been seen exactly if the element has
      have hseen : key a ∈ (firsts key l).map key ↔ a ∈ l := by
        rw [mem_map_firsts, List.mem_map]
        constructor
        · rintro ⟨b, hb, hkey⟩
          exact hinj b (hleft hb) a hlast hkey ▸ hb
        · exact fun ha => ⟨a, ha, rfl⟩
      rw [firsts_concat, eraseDups_concat]
      unfold keep
      rw [← hold]
      exact if_congr hseen rfl rfl

end FirstSeen
