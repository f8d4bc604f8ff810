import Mathlib.Data.List.AList

/-!
# Marks and rounds

To tell everyone of a group something, one may keep a mark for each, set it
when it was told, count the marks set, and be done when the count is the size
of the group. The marks are a map from names to numbers, `0` or `1`; the
count is a number kept beside it.

What makes this sound is that the count is right: then the count reaching the
size of the map means that every mark is set (`lookup_eq_one`). Setting a
mark that was not set adds one to it, a new name with mark `0` adds nothing,
and clearing all marks makes it `0`. A name that is taken out takes its mark
along (`ones_erase`).
-/

variable {α : Type} [DecidableEq α]

/-- A number for each of some names. -/
abbrev Marks (α : Type) := AList (fun _ : α => ℕ)

namespace Marks

/-- `emplace`: a name that is there keeps its number. -/
def emplace (m : Marks α) (a : α) (n : ℕ) : Marks α := if a ∈ m then m else m.insert a n

/-- `m.find(a)`, and if it is there `++`. -/
def bump (m : Marks α) (a : α) : Marks α :=
  match m.lookup a with
  | none => m
  | some n => m.insert a (n + 1)

/-- `m.size()`. -/
def size (m : Marks α) : ℕ := m.keys.length

/-- Every number set to `0`. -/
def clear (m : Marks α) : Marks α where
  entries := m.entries.map (fun e => ⟨e.1, 0⟩)
  nodupKeys := by
    have hkeys : (m.entries.map (fun e => (⟨e.1, 0⟩ : Sigma (fun _ : α => ℕ)))).keys
        = m.entries.keys := by
      unfold List.keys
      rw [List.map_map]
      rfl
    unfold List.NodupKeys
    rw [hkeys]
    exact m.nodupKeys

/-- The mark of a name is set, if it is `0`. -/
def tell (m : Marks α) (a : α) : Marks α := if m.lookup a = some 0 then m.insert a 1 else m

/-- Every mark is set. -/
def Complete (m : Marks α) : Prop := ∀ a ∈ m, m.lookup a = some 1

/-- How many marks are set. -/
def ones (m : Marks α) : ℕ := m.entries.countP (fun e => e.2 = 1)

variable {m : Marks α} {a b : α} {n : ℕ}

/-! ## The names -/

theorem mem_emplace : b ∈ m.emplace a n ↔ b = a ∨ b ∈ m := by
  unfold emplace
  split
  next ha => exact ⟨Or.inr, fun h => h.elim (fun hb => hb ▸ ha) id⟩
  next => exact AList.mem_insert m

theorem mem_insert_of_lookup (h : m.lookup a = some n) {k : ℕ} : b ∈ m.insert a k ↔ b ∈ m := by
  have ha : a ∈ m := AList.lookup_isSome.mp (by rw [h]; rfl)
  exact (AList.mem_insert m).trans ⟨fun hb => hb.elim (fun hab => hab ▸ ha) id, Or.inr⟩

theorem mem_bump : b ∈ m.bump a ↔ b ∈ m := by
  unfold bump
  cases hl : m.lookup a with
  | none => exact Iff.rfl
  | some k => exact mem_insert_of_lookup hl

/-- Clearing keeps the names. -/
theorem lookup_clear (m : Marks α) (a : α) : m.clear.lookup a = (m.lookup a).map (fun _ => 0) := by
  have hmem : ∀ n, ⟨a, n⟩ ∈ m.clear.entries ↔ (∃ k, ⟨a, k⟩ ∈ m.entries) ∧ n = 0 := by
    intro n
    unfold clear
    rw [List.mem_map]
    constructor
    · rintro ⟨⟨b, k⟩, he, heq⟩
      obtain ⟨rfl, hn⟩ := Sigma.mk.inj heq
      exact ⟨⟨k, he⟩, (eq_of_heq hn).symm⟩
    · rintro ⟨⟨k, he⟩, rfl⟩
      exact ⟨⟨a, k⟩, he, rfl⟩
  cases hl : m.lookup a with
  | none =>
    cases hc : m.clear.lookup a with
    | none => rfl
    | some n =>
      obtain ⟨⟨k, hk⟩, -⟩ := (hmem n).mp (AList.mem_lookup_iff.mp hc)
      rw [AList.mem_lookup_iff.mpr hk] at hl
      exact absurd hl (Option.some_ne_none k)
  | some k =>
    exact AList.mem_lookup_iff.mpr ((hmem 0).mpr ⟨⟨k, AList.mem_lookup_iff.mp hl⟩, rfl⟩)

theorem mem_clear : b ∈ m.clear ↔ b ∈ m := by
  rw [← AList.lookup_isSome, ← AList.lookup_isSome, lookup_clear, Option.isSome_map]

omit [DecidableEq α] in
/-! ## The count

The count of the marks is a sum over the names. Setting a mark that was not set
adds one, taking out a name takes its mark from the sum, and every other operation
leaves the sum. A counter that is kept beside the marks is right as long as it is
changed with them, and the one thing that is not seen by a counter is a name that
is taken out with its mark set (`eq_ones_erase_iff`). -/

theorem ones_clear (m : Marks α) : m.clear.ones = 0 := by
  show (m.entries.map _).countP _ = 0
  rw [List.countP_map, List.countP_eq_zero]
  intro e he
  simp

/-- A name that is there splits the map. -/
theorem exists_split (h : m.lookup a = some n) :
    ∃ l₁ l₂, m.entries = l₁ ++ ⟨a, n⟩ :: l₂ ∧ m.entries.kerase a = l₁ ++ l₂ := by
  have hmem : a ∈ m.entries.keys :=
    AList.mem_keys.mp (AList.lookup_isSome.mp (by rw [h]; rfl))
  obtain ⟨k, l₁, l₂, -, hsplit, herase⟩ := List.exists_of_kerase hmem
  have hk : m.lookup a = some k :=
    AList.mem_lookup_iff.mpr (hsplit ▸ List.mem_append_right l₁ List.mem_cons_self)
  rw [h] at hk
  rw [← Option.some.inj hk] at hsplit
  exact ⟨l₁, l₂, hsplit, herase⟩

/-- **Setting a mark that was not set** adds one to the count, and no name. -/
theorem ones_insert_one (h : m.lookup a = some 0) :
    Marks.ones (m.insert a 1) = m.ones + 1 ∧ Marks.size (m.insert a 1) = m.size := by
  obtain ⟨l₁, l₂, hsplit, herase⟩ := exists_split h
  -- the entry goes from its place to the front, with its mark set
  constructor
  · show (⟨a, 1⟩ :: m.entries.kerase a : List (Sigma fun _ : α => ℕ)).countP _ = _
    unfold ones
    rw [herase, hsplit, List.countP_cons, List.countP_append,
      List.countP_append, List.countP_cons]
    simp
  · show (⟨a, 1⟩ :: m.entries.kerase a : List (Sigma fun _ : α => ℕ)).keys.length = _
    show _ = m.entries.keys.length
    rw [herase, hsplit]
    simp only [List.keys, List.map_cons, List.map_append, List.length_cons,
      List.length_append]
    omega

theorem ones_insert_zero (h : a ∉ m) : Marks.ones (m.insert a 0) = m.ones := by
  unfold ones
  rw [AList.entries_insert_of_notMem h, List.countP_cons]
  simp

/-- **When the count is the size, every mark is set.** -/
theorem lookup_eq_one (h : m.ones = m.size) (ha : a ∈ m) : m.lookup a = some 1 := by
  have hlen : m.entries.countP (fun e => e.2 = 1) = m.entries.length := by
    unfold ones size at h
    rw [h]
    exact List.length_map _
  rw [List.countP_eq_length] at hlen
  obtain ⟨n, hn⟩ := Option.isSome_iff_exists.mp (AList.lookup_isSome.mpr ha)
  have hone : n = 1 := of_decide_eq_true (hlen ⟨a, n⟩ (AList.mem_lookup_iff.mp hn))
  rw [hn, hone]

/-- **The count is the size exactly if every mark is set.** -/
theorem ones_eq_size_iff (m : Marks α) : m.ones = m.size ↔ m.Complete := by
  constructor
  · exact fun h a ha => lookup_eq_one h ha
  · intro h
    have hall : m.entries.countP (fun e => e.2 = 1) = m.entries.length := by
      refine List.countP_eq_length.mpr (fun e he => ?_)
      have hlookup : m.lookup e.1 = some e.2 := AList.mem_lookup_iff.mpr he
      rw [h e.1 (AList.lookup_isSome.mp (by rw [hlookup]; rfl))] at hlookup
      exact decide_eq_true (Option.some_inj.mp hlookup).symm
    unfold ones size
    rw [hall]
    exact (List.length_map _).symm

theorem lookup_ne_one (h : m.ones = 0) (a : α) : m.lookup a ≠ some 1 := by
  intro hone
  have hnone := List.countP_eq_zero.mp h ⟨a, 1⟩ (AList.mem_lookup_iff.mp hone)
  exact hnone (decide_eq_true rfl)

/-- A name that comes in has its mark not set. -/
theorem lookup_emplace_eq_one_iff :
    (m.emplace a 0).lookup b = some 1 ↔ m.lookup b = some 1 := by
  unfold emplace
  split
  · exact Iff.rfl
  · next hnew =>
    by_cases hba : b = a
    · subst hba
      rw [AList.lookup_insert, AList.lookup_eq_none.mpr hnew]
      simp
    · rw [AList.lookup_insert_ne hba]

theorem ones_emplace (m : Marks α) (a : α) : Marks.ones (m.emplace a 0) = m.ones := by
  unfold emplace
  split
  · rfl
  · next hnew => exact ones_insert_zero hnew

theorem ones_tell (m : Marks α) (a : α) :
    (m.tell a).ones = m.ones + if m.lookup a = some 0 then 1 else 0 := by
  unfold tell
  split
  · next hzero => exact (ones_insert_one hzero).1
  · rfl

/-- Whose marks are set then. -/
theorem lookup_tell_eq_one_iff :
    (m.tell a).lookup b = some 1 ↔ m.lookup b = some 1 ∨ (b = a ∧ m.lookup b = some 0) := by
  unfold tell
  by_cases hba : b = a
  · subst hba
    split
    · next hzero =>
      rw [AList.lookup_insert]
      exact iff_of_true rfl (Or.inr ⟨rfl, hzero⟩)
    · next hnonzero => exact (or_iff_left (fun hc => hnonzero hc.2)).symm
  · have hother : ¬ (b = a ∧ m.lookup b = some 0) := fun hc => hba hc.1
    rw [or_iff_left hother]
    split
    · rw [AList.lookup_insert_ne hba]
    · rfl

/-- **A name that is taken out takes its mark along.** -/
theorem ones_erase (m : Marks α) (a : α) :
    m.ones = Marks.ones (m.erase a) + if m.lookup a = some 1 then 1 else 0 := by
  cases hlookup : m.lookup a with
  | none =>
    rw [if_neg (Option.some_ne_none 1).symm]
    show m.ones = (m.entries.kerase a).countP _
    rw [List.kerase_of_notMem_keys (fun hmem => ?_)]
    · rfl
    · exact AList.lookup_eq_none.mp hlookup (AList.mem_keys.mpr hmem)
  | some n =>
    obtain ⟨l₁, l₂, hsplit, herase⟩ := exists_split hlookup
    show m.entries.countP _ = (m.entries.kerase a).countP _ + _
    rw [herase, hsplit, List.countP_append, List.countP_cons, List.countP_append, Nat.add_assoc]
    by_cases hone : n = 1
    · simp [hone]
    · simp [hone]

/-- **A count that was right** stays so exactly if the name that is taken out had
no mark. -/
theorem eq_ones_erase_iff {n : ℕ} (h : n = m.ones) (a : α) :
    n = Marks.ones (m.erase a) ↔ m.lookup a ≠ some 1 := by
  have herase := ones_erase m a
  by_cases hone : m.lookup a = some 1
  · rw [if_pos hone] at herase
    exact iff_of_false (by omega) (fun hc => hc hone)
  · rw [if_neg hone] at herase
    exact iff_of_true (by omega) hone

end Marks
