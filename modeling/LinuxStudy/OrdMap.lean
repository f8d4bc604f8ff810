import Mathlib.Data.List.Find
import Mathlib.Data.List.Sort
import Mathlib.Data.Prod.Lex
import Mathlib.Order.Lattice

/-!
# Ordered maps and the walk around them

An ordered map keeps its entries in strictly increasing order of the key.
The order is what `lower_bound` and `upper_bound` search by, so it is a
field of the structure and not a hypothesis: an out-of-order map cannot
be built, and no result below asks for it.

Insertion **does not overwrite**. An entry already present at the key
stays, and the new one is dropped, so a map filled from a list keeps for
each key the *first* entry of the list that has it (`get?_insertAll`).
Assignment does overwrite, and keeps the *last* (`get?_assignAll`); the one
is the other on the list from its end (`assignAll_empty`).

A ring reads the map as a circle: the entry at or after a position, and
the smallest entry when there is none. Both ways of doing it – at or
after, and strictly after – are one search `firstFrom p` for the first
key satisfying `p`, wrapping to the smallest, and one statement covers
them: the entry found is the one of least `rank`, where the keys that
satisfy `p` come before those that do not and each of the two groups is in
increasing order (`firstFrom_eq_some_iff`). Stated so, the wrap-around is
no separate case.
-/

variable {K V : Type} [LinearOrder K]

/-- **An ordered map**: its entries, in strictly increasing order of the
key. -/
structure OrdMap (K V : Type) [LinearOrder K] where
  /-- The entries, smallest key first. -/
  entries : List (K × V)
  /-- The keys increase strictly, so no key occurs twice. -/
  sorted : entries.Pairwise (fun a b => a.1 < b.1)

namespace OrdMap

/-- The map with no entries. -/
def empty : OrdMap K V := ⟨[], List.Pairwise.nil⟩

/-- The value at a key. -/
def get? (m : OrdMap K V) (k : K) : Option V :=
  (m.entries.find? (fun e => e.1 = k)).map Prod.snd

/-- Of a key there is one entry. -/
theorem filter_key_eq (m : OrdMap K V) {e : K × V} (h : e ∈ m.entries) :
    m.entries.filter (fun e' => e'.1 = e.1) = [e] := by
  obtain ⟨l, hs⟩ := m
  show l.filter (fun e' => e'.1 = e.1) = [e]
  induction l with
  | nil => exact absurd h List.not_mem_nil
  | cons a l ih =>
    obtain ⟨hless, hrest⟩ := List.pairwise_cons.mp hs
    rcases List.mem_cons.mp h with rfl | hmem
    · have hnone : l.filter (fun e' => e'.1 = e.1) = [] :=
        List.filter_eq_nil_iff.mpr (fun e' he' heq => (hless e' he').ne' (of_decide_eq_true heq))
      rw [List.filter_cons_of_pos (by simp), hnone]
    · rw [List.filter_cons_of_neg (by simpa using (hless e hmem).ne)]
      exact ih hrest hmem

theorem snd_eq_of_mem (m : OrdMap K V) {k : K} {v w : V}
    (hv : (k, v) ∈ m.entries) (hw : (k, w) ∈ m.entries) : v = w := by
  have hmem : (k, w) ∈ m.entries.filter (fun e => e.1 = k) :=
    List.mem_filter.mpr ⟨hw, decide_eq_true rfl⟩
  rw [m.filter_key_eq hv] at hmem
  exact (congrArg Prod.snd (List.mem_singleton.mp hmem)).symm

/-- Reading a key is membership of the entry. -/
theorem get?_eq_some_iff (m : OrdMap K V) (k : K) (v : V) :
    m.get? k = some v ↔ (k, v) ∈ m.entries := by
  unfold get?
  constructor
  · intro h
    obtain ⟨e, he, rfl⟩ := Option.map_eq_some_iff.mp h
    have hk : e.1 = k := by simpa using List.find?_some he
    rw [← hk]
    exact List.mem_of_find?_eq_some he
  · intro h
    obtain ⟨e, he⟩ : ∃ e, m.entries.find? (fun e => e.1 = k) = some e :=
      Option.isSome_iff_exists.mp
        (List.find?_isSome.mpr ⟨(k, v), h, decide_eq_true rfl⟩)
    have hk : e.1 = k := by simpa using List.find?_some he
    have hmem : (k, e.2) ∈ m.entries := hk ▸ List.mem_of_find?_eq_some he
    rw [he, Option.map_some, m.snd_eq_of_mem hmem h]

/-- No value at a key is no entry at that key. -/
theorem get?_eq_none_iff (m : OrdMap K V) (k : K) :
    m.get? k = none ↔ ∀ v, (k, v) ∉ m.entries := by
  constructor
  · intro h v hv
    rw [(m.get?_eq_some_iff k v).mpr hv] at h
    exact Option.some_ne_none v h
  · intro h
    cases hg : m.get? k with
    | none => rfl
    | some v => exact absurd ((m.get?_eq_some_iff k v).mp hg) (h v)

/-! ## Insertion and deletion -/

/-- Insert an entry into a sorted list, dropping it where the key is
already there. -/
def insertEntry (k : K) (v : V) : List (K × V) → List (K × V)
  | [] => [(k, v)]
  | e :: l =>
    if k < e.1 then (k, v) :: e :: l
    else if e.1 < k then e :: insertEntry k v l
    else e :: l

/-- What is in the list after an insertion was there before or is the new
entry. -/
theorem mem_of_mem_insertEntry {k : K} {v : V} {e : K × V} :
    ∀ {l : List (K × V)}, e ∈ insertEntry k v l → e = (k, v) ∨ e ∈ l
  | [], h => Or.inl (List.mem_singleton.mp h)
  | a :: l, h => by
    unfold insertEntry at h
    split at h
    · exact List.mem_cons.mp h
    · split at h
      · rcases List.mem_cons.mp h with rfl | h'
        · exact Or.inr List.mem_cons_self
        · exact (mem_of_mem_insertEntry h').imp id (List.mem_cons_of_mem a)
      · exact Or.inr h

/-- Nothing that was in the list is lost. -/
theorem mem_insertEntry_of_mem {k : K} {v : V} {e : K × V} :
    ∀ {l : List (K × V)}, e ∈ l → e ∈ insertEntry k v l
  | a :: l, h => by
    unfold insertEntry
    split
    · exact List.mem_cons_of_mem _ h
    · split
      · rcases List.mem_cons.mp h with rfl | h'
        · exact List.mem_cons_self
        · exact List.mem_cons_of_mem a (mem_insertEntry_of_mem h')
      · exact h

/-- The new entry goes in where its key is free. -/
theorem mem_insertEntry_self {k : K} {v : V} :
    ∀ {l : List (K × V)}, (∀ w, (k, w) ∉ l) → (k, v) ∈ insertEntry k v l
  | [], _ => List.mem_singleton.mpr rfl
  | a :: l, h => by
    unfold insertEntry
    split
    · exact List.mem_cons_self
    · split
      · exact List.mem_cons_of_mem a
          (mem_insertEntry_self (fun w hw => h w (List.mem_cons_of_mem a hw)))
      · next h₁ h₂ =>
        have hk : a.1 = k := le_antisymm (not_lt.mp h₁) (not_lt.mp h₂)
        exact absurd (hk ▸ List.mem_cons_self : (k, a.2) ∈ a :: l) (h a.2)

/-- An insertion keeps the keys increasing. -/
theorem sorted_insertEntry (k : K) (v : V) :
    ∀ {l : List (K × V)}, l.Pairwise (fun a b => a.1 < b.1) →
      (insertEntry k v l).Pairwise (fun a b => a.1 < b.1)
  | [], _ => List.pairwise_singleton _ _
  | a :: l, h => by
    rw [List.pairwise_cons] at h
    unfold insertEntry
    split
    · next hlt =>
      refine List.pairwise_cons.mpr ⟨fun b hb => ?_, List.pairwise_cons.mpr h⟩
      rcases List.mem_cons.mp hb with rfl | hb'
      · exact hlt
      · exact hlt.trans (h.1 b hb')
    · split
      · next hgt =>
        refine List.pairwise_cons.mpr ⟨fun b hb => ?_, sorted_insertEntry k v h.2⟩
        rcases mem_of_mem_insertEntry hb with rfl | hb'
        · exact hgt
        · exact h.1 b hb'
      · exact List.pairwise_cons.mpr h

/-- `insert`: an entry already present at the key stays. -/
def insert (k : K) (v : V) (m : OrdMap K V) : OrdMap K V :=
  ⟨insertEntry k v m.entries, sorted_insertEntry k v m.sorted⟩

/-- `erase`: the entry at the key, if any, goes. -/
def erase (k : K) (m : OrdMap K V) : OrdMap K V :=
  ⟨m.entries.filter (fun e => e.1 ≠ k), m.sorted.filter _⟩

/-- **An insertion never overwrites**: at the key the old value wins, and
every other key reads as before. -/
theorem get?_insert (m : OrdMap K V) (k k' : K) (v : V) :
    (m.insert k v).get? k'
      = if k' = k then (m.get? k).or (some v) else m.get? k' := by
  split
  · next h =>
    subst h
    cases hg : m.get? k' with
    | some w =>
      exact (get?_eq_some_iff _ _ _).mpr
        (mem_insertEntry_of_mem ((m.get?_eq_some_iff k' w).mp hg))
    | none =>
      exact (get?_eq_some_iff _ _ _).mpr
        (mem_insertEntry_self ((m.get?_eq_none_iff k').mp hg))
  · next h =>
    refine Option.ext (fun w => ?_)
    rw [get?_eq_some_iff, get?_eq_some_iff]
    constructor
    · intro hw
      rcases mem_of_mem_insertEntry hw with he | he
      · exact absurd (congrArg Prod.fst he) h
      · exact he
    · exact mem_insertEntry_of_mem

theorem mem_erase (m : OrdMap K V) (k : K) (e : K × V) :
    e ∈ (m.erase k).entries ↔ e ∈ m.entries ∧ e.1 ≠ k := by
  unfold erase
  rw [List.mem_filter, decide_eq_true_iff]

/-- Insert the entries of a list, in order. -/
def insertAll (m : OrdMap K V) (pts : List (K × V)) : OrdMap K V :=
  pts.foldl (fun m e => m.insert e.1 e.2) m

@[simp] theorem insertAll_nil (m : OrdMap K V) : m.insertAll [] = m := rfl

@[simp] theorem insertAll_cons (m : OrdMap K V) (e : K × V)
    (pts : List (K × V)) :
    m.insertAll (e :: pts) = (m.insert e.1 e.2).insertAll pts := rfl

theorem insertAll_append (m : OrdMap K V) (pts qts : List (K × V)) :
    m.insertAll (pts ++ qts) = (m.insertAll pts).insertAll qts :=
  List.foldl_append

/-- **The first entry wins**: a key reads what the map already had there,
and otherwise the first entry of the list at that key. -/
theorem get?_insertAll (pts : List (K × V)) (m : OrdMap K V) (k : K) :
    (m.insertAll pts).get? k
      = (m.get? k).or ((pts.find? (fun e => e.1 = k)).map Prod.snd) := by
  induction pts generalizing m with
  | nil => simp
  | cons e pts ih =>
    rw [insertAll_cons, ih, get?_insert, List.find?_cons]
    by_cases h : k = e.1
    · rw [if_pos h, ← h, decide_eq_true rfl]
      cases m.get? k <;> rfl
    · rw [if_neg h, decide_eq_false (Ne.symm h)]

theorem mem_insertAll_of_mem {m : OrdMap K V} {e : K × V} (h : e ∈ m.entries)
    (pts : List (K × V)) : e ∈ (m.insertAll pts).entries := by
  refine (get?_eq_some_iff _ e.1 e.2).mp ?_
  rw [get?_insertAll, (get?_eq_some_iff m e.1 e.2).mpr h, Option.some_or]

/-! ## Overwriting -/

/-- **A map is what it reads at each key.** -/
theorem ext_get? {m n : OrdMap K V} (h : ∀ k, m.get? k = n.get? k) : m = n := by
  have hmem : ∀ e, e ∈ m.entries ↔ e ∈ n.entries := by
    rintro ⟨k, v⟩
    rw [← get?_eq_some_iff, ← get?_eq_some_iff, h k]
  have hirrefl : Std.Irrefl (fun a b : K × V => a.1 < b.1) := ⟨fun a => lt_irrefl a.1⟩
  have hantisymm : Std.Antisymm (fun a b : K × V => a.1 < b.1) :=
    ⟨fun a b hab hba => absurd hab (lt_asymm hba)⟩
  have hentries : m.entries = n.entries := m.sorted.eq_of_mem_iff n.sorted (fun {e} => hmem e)
  cases m
  cases n
  congr

theorem get?_erase (m : OrdMap K V) (k k' : K) :
    (m.erase k).get? k' = if k' = k then none else m.get? k' := by
  refine Option.ext (fun v => ?_)
  rw [get?_eq_some_iff, mem_erase]
  split
  · next h => simp [h]
  · next h => rw [get?_eq_some_iff, and_iff_left h]

/-- `m[k] = v`: what stood at the key goes. -/
def assign (k : K) (v : V) (m : OrdMap K V) : OrdMap K V := (m.erase k).insert k v

/-- **An assignment overwrites**, and every other key reads as before. -/
theorem get?_assign (m : OrdMap K V) (k k' : K) (v : V) :
    (m.assign k v).get? k' = if k' = k then some v else m.get? k' := by
  unfold assign
  rw [get?_insert, get?_erase, get?_erase, if_pos rfl]
  split <;> rfl

/-- Assign the entries of a list, in order. -/
def assignAll (m : OrdMap K V) (pts : List (K × V)) : OrdMap K V :=
  pts.foldl (fun m e => m.assign e.1 e.2) m

/-- **The last entry wins**: a key reads the last entry of the list at that
key, and otherwise what the map already had there. -/
theorem get?_assignAll (pts : List (K × V)) (m : OrdMap K V) (k : K) :
    (m.assignAll pts).get? k
      = ((pts.reverse.find? (fun e => e.1 = k)).map Prod.snd).or (m.get? k) := by
  induction pts generalizing m with
  | nil => rfl
  | cons e pts ih =>
    show ((m.assign e.1 e.2).assignAll pts).get? k = _
    rw [ih, get?_assign, List.reverse_cons, List.find?_append]
    cases pts.reverse.find? (fun e => e.1 = k) with
    | some e' => rfl
    | none =>
      by_cases h : k = e.1
      · simp [h]
      · simp [h, Ne.symm h]

/-- To assign the entries of a list is to insert them from the last to the
first. -/
theorem assignAll_empty (pts : List (K × V)) :
    (empty : OrdMap K V).assignAll pts = empty.insertAll pts.reverse := by
  refine ext_get? (fun k => ?_)
  rw [get?_assignAll, get?_insertAll]
  show Option.or _ none = Option.or none _
  rw [Option.or_none, Option.none_or]

/-! ## Erasing many keys -/

/-- Erase the keys of a list, in order. -/
def eraseAll (m : OrdMap K V) (ks : List K) : OrdMap K V :=
  ks.foldl (fun m k => m.erase k) m

theorem mem_eraseAll (m : OrdMap K V) (ks : List K) (e : K × V) :
    e ∈ (m.eraseAll ks).entries ↔ e ∈ m.entries ∧ e.1 ∉ ks := by
  induction ks generalizing m with
  | nil => exact (and_iff_left List.not_mem_nil).symm
  | cons k ks ih =>
    show e ∈ ((m.erase k).eraseAll ks).entries ↔ _
    rw [ih, mem_erase, List.mem_cons, not_or, and_assoc]

theorem get?_eraseAll (m : OrdMap K V) (ks : List K) (k : K) :
    (m.eraseAll ks).get? k = if k ∈ ks then none else m.get? k := by
  refine Option.ext (fun v => ?_)
  rw [get?_eq_some_iff, mem_eraseAll]
  split
  · next h => simp [h]
  · next h => rw [get?_eq_some_iff, and_iff_left h]

/-! ## Walking around the map

The two searches of the library, from a key on or past it, and the wrap-around to
the smallest entry are one function: the first entry whose key satisfies a
predicate, or the first of all. Given the predicate, each key has a rank, and the
walk stops at the entry of least rank. So two walks are compared by ranks, and how
the search is done does not come up again. -/

/-- `lower_bound`: the first entry whose key is not less. -/
def lowerBound (m : OrdMap K V) (k : K) : Option (K × V) :=
  m.entries.find? (fun e => k ≤ e.1)

/-- `upper_bound`: the first entry whose key is greater. -/
def upperBound (m : OrdMap K V) (k : K) : Option (K × V) :=
  m.entries.find? (fun e => k < e.1)

/-- The first entry whose key satisfies `p`, or the smallest entry when no
key does. -/
def firstFrom (p : K → Bool) (m : OrdMap K V) : Option (K × V) :=
  (m.entries.find? (fun e => p e.1)).or m.entries.head?

/-- The order in which a walk meets the keys: those that satisfy `p`
first, then the others, increasing within each group. -/
def rank (p : K → Bool) (k : K) : Bool ×ₗ K := toLex (!p k, k)

omit [LinearOrder K] in
theorem rank_injective (p : K → Bool) : Function.Injective (rank p) := by
  intro a b h
  exact congrArg (fun x => (ofLex x).2) h

theorem rank_le_rank_iff (p : K → Bool) (a b : K) :
    rank p a ≤ rank p b ↔ (p a = true ∧ p b = false) ∨ (p a = p b ∧ a ≤ b) := by
  unfold rank
  rw [Prod.Lex.toLex_le_toLex]
  cases p a <;> cases p b <;> simp

/-- The walk finds an entry of the map, and no entry is met earlier. -/
theorem firstFrom_spec {p : K → Bool} {m : OrdMap K V} {e : K × V}
    (h : m.firstFrom p = some e) :
    e ∈ m.entries ∧ ∀ e' ∈ m.entries, rank p e.1 ≤ rank p e'.1 := by
  obtain ⟨l, hs⟩ := m
  unfold firstFrom at h
  dsimp only at h ⊢
  cases hf : l.find? (fun e => p e.1) with
  | some e₀ =>
    rw [hf, Option.some_or, Option.some.injEq] at h
    subst h
    obtain ⟨hp, as, bs, rfl, has⟩ := List.find?_eq_some_iff_append.mp hf
    refine ⟨by simp, fun e' he' => (rank_le_rank_iff p _ _).mpr ?_⟩
    rcases List.mem_append.mp he' with hin | hin
    · exact Or.inl ⟨hp, by simpa using has e' hin⟩
    · -- at or after the entry found, so the key is at least its key
      have hle : e₀.1 ≤ e'.1 := by
        rcases List.mem_cons.mp hin with rfl | hin'
        · exact le_rfl
        · exact le_of_lt ((List.pairwise_cons.mp (List.pairwise_append.mp hs).2.1).1 e' hin')
      cases hp' : p e'.1 with
      | true => exact Or.inr ⟨hp, hle⟩
      | false => exact Or.inl ⟨hp, rfl⟩
  | none =>
    rw [hf, Option.none_or] at h
    have hnone := List.find?_eq_none.mp hf
    cases l with
    | nil => exact absurd h (by simp)
    | cons a l =>
      rw [List.head?_cons, Option.some.injEq] at h
      subst h
      refine ⟨List.mem_cons_self, fun e' he' => (rank_le_rank_iff p _ _).mpr (Or.inr ⟨?_, ?_⟩)⟩
      · rw [Bool.eq_false_of_not_eq_true (hnone a List.mem_cons_self),
          Bool.eq_false_of_not_eq_true (hnone e' he')]
      · rcases List.mem_cons.mp he' with rfl | hin
        · exact le_rfl
        · exact le_of_lt ((List.pairwise_cons.mp hs).1 e' hin)

theorem firstFrom_isSome {m : OrdMap K V} (p : K → Bool) (h : m.entries ≠ []) :
    ∃ e, m.firstFrom p = some e := by
  unfold firstFrom
  cases m.entries.find? (fun e => p e.1) with
  | some e => exact ⟨e, rfl⟩
  | none =>
    obtain ⟨a, l, hl⟩ := List.exists_cons_of_ne_nil h
    exact ⟨a, by rw [hl]; rfl⟩

/-- **The walk stops at the entry of least rank**, and only there. -/
theorem firstFrom_eq_some_iff {p : K → Bool} {m : OrdMap K V} {e : K × V} :
    m.firstFrom p = some e
      ↔ e ∈ m.entries ∧ ∀ e' ∈ m.entries, rank p e.1 ≤ rank p e'.1 := by
  refine ⟨firstFrom_spec, fun ⟨hmem, hmin⟩ => ?_⟩
  obtain ⟨e₀, h₀⟩ := firstFrom_isSome p (List.ne_nil_of_mem hmem)
  obtain ⟨hmem₀, hmin₀⟩ := firstFrom_spec h₀
  have hk : e₀.1 = e.1 :=
    rank_injective p (le_antisymm (hmin₀ e hmem) (hmin e₀ hmem₀))
  have hv : e₀.2 = e.2 :=
    m.snd_eq_of_mem (k := e.1) (hk ▸ hmem₀) hmem
  rw [h₀, Prod.ext hk hv]

/-- **What is inserted takes the walk over, or leaves it.** After insertions of
one value the walk stops at that value, or where it stopped before. -/
theorem firstFrom_insertAll_map {p : K → Bool} {m : OrdMap K V} {ks : List K} {v : V}
    {e : K × V} (h : (m.insertAll (ks.map (fun k => (k, v)))).firstFrom p = some e) :
    e.2 = v ∨ m.firstFrom p = some e := by
  obtain ⟨hmem, hmin⟩ := firstFrom_spec h
  have hget := (get?_eq_some_iff _ _ _).mpr hmem
  rw [get?_insertAll] at hget
  cases hold : m.get? e.1 with
  | none =>
    rw [hold, Option.none_or] at hget
    obtain ⟨e', he', heq⟩ := Option.map_eq_some_iff.mp hget
    obtain ⟨k, -, rfl⟩ := List.mem_map.mp (List.mem_of_find?_eq_some he')
    exact Or.inl heq.symm
  | some w =>
    rw [hold, Option.some_or, Option.some.injEq] at hget
    rw [hget] at hold
    refine Or.inr (firstFrom_eq_some_iff.mpr ⟨(get?_eq_some_iff _ _ _).mp hold, fun a ha => ?_⟩)
    exact hmin a (mem_insertAll_of_mem ha _)

/-- **Past an entry comes the one after it**, and past the last the first. -/
theorem firstFrom_past_getElem (m : OrdMap K V) {i : ℕ} (hi : i < m.entries.length) :
    m.firstFrom (fun k => m.entries[i].1 < k)
      = m.entries[(i + 1) % m.entries.length]? := by
  have hpos : 0 < m.entries.length := Nat.zero_lt_of_lt hi
  have hmod : (i + 1) % m.entries.length < m.entries.length := Nat.mod_lt _ hpos
  have hlt : ∀ {a b : ℕ} (ha : a < m.entries.length) (hb : b < m.entries.length),
      a < b → m.entries[a].1 < m.entries[b].1 :=
    fun ha hb hab => List.pairwise_iff_getElem.mp m.sorted _ _ ha hb hab
  have hle : ∀ {a b : ℕ} (ha : a < m.entries.length) (hb : b < m.entries.length),
      a ≤ b → m.entries[a].1 ≤ m.entries[b].1 := by
    intro a b ha hb hab
    rcases Nat.lt_or_eq_of_le hab with h | rfl
    · exact le_of_lt (hlt ha hb h)
    · exact le_rfl
  rw [List.getElem?_eq_getElem hmod]
  refine firstFrom_eq_some_iff.mpr ⟨List.getElem_mem hmod, fun e he => ?_⟩
  obtain ⟨j, hj, rfl⟩ := List.mem_iff_getElem.mp he
  rw [rank_le_rank_iff]
  rcases Nat.lt_or_ge (i + 1) m.entries.length with hnext | hlast
  · -- the next entry is past it, and the entries up to it are not
    have hpast := decide_eq_true (hlt hi hnext (Nat.lt_succ_self i))
    simp only [Nat.mod_eq_of_lt hnext]
    rcases Nat.lt_or_ge i j with hij | hji
    · exact Or.inr ⟨hpast.trans (decide_eq_true (hlt hi hj hij)).symm, hle hnext hj hij⟩
    · exact Or.inl ⟨hpast, decide_eq_false (not_lt.mpr (hle hj hi hji))⟩
  · -- no entry is past the last
    have hwrap : (i + 1) % m.entries.length = 0 := by
      rw [show i + 1 = m.entries.length by omega, Nat.mod_self]
    simp only [hwrap]
    refine Or.inr ⟨?_, hle hpos hj (Nat.zero_le j)⟩
    rw [decide_eq_false (not_lt.mpr (hle hpos hi (Nat.zero_le i))),
      decide_eq_false (not_lt.mpr (hle hj hi (by omega)))]

/-! ## A map filled by owners

A list of owners, each with its keys, fills a map owner by owner. A key
several owners have goes to the one that comes earliest in the list. -/

section Owners

variable [BEq V] [LawfulBEq V]

/-- The entries of a list of owners, owner by owner. -/
def ownerEntries (f : V → List K) (L : List V) : List (K × V) :=
  L.flatMap (fun v => (f v).map (fun k => (k, v)))

omit [LinearOrder K] [BEq V] [LawfulBEq V] in
/-- An entry is an owner of the list at one of its keys. -/
theorem mem_ownerEntries (f : V → List K) (L : List V) (e : K × V) :
    e ∈ ownerEntries f L ↔ e.2 ∈ L ∧ e.1 ∈ f e.2 := by
  unfold ownerEntries
  rw [List.mem_flatMap]
  constructor
  · rintro ⟨v, hv, he⟩
    obtain ⟨k, hk, rfl⟩ := List.mem_map.mp he
    exact ⟨hv, hk⟩
  · intro ⟨hv, hk⟩
    exact ⟨e.2, hv, List.mem_map.mpr ⟨e.1, hk, rfl⟩⟩

omit [BEq V] [LawfulBEq V] in
/-- A key among the entries of one owner. -/
theorem find?_map_owner (ks : List K) (k : K) (v : V) :
    (ks.map (fun q => (q, v))).find? (fun e => e.1 = k)
      = if k ∈ ks then some (k, v) else none := by
  rw [List.find?_map]
  split
  next hk =>
    obtain ⟨q, hq⟩ := Option.isSome_iff_exists.mp
      (List.find?_isSome.mpr ⟨k, hk, decide_eq_true rfl⟩ : (ks.find? (fun q => q = k)).isSome)
    have hqk : q = k := by simpa using List.find?_some hq
    exact Option.map_eq_some_iff.mpr ⟨q, hq, by rw [hqk]⟩
  next hk =>
    rw [Option.map_eq_none_iff, List.find?_eq_none]
    intro q hq hqk
    exact hk ((of_decide_eq_true hqk : q = k) ▸ hq)

/-- **The earliest owner gets the key.** -/
theorem find?_ownerEntries (f : V → List K) (L : List V) (k : K) (v : V) :
    (ownerEntries f L).find? (fun e => e.1 = k) = some (k, v)
      ↔ v ∈ L ∧ k ∈ f v ∧ ∀ w ∈ L, k ∈ f w → L.idxOf v ≤ L.idxOf w := by
  induction L with
  | nil => simp [ownerEntries]
  | cons a L ih =>
    have hcons : ownerEntries f (a :: L) = (f a).map (fun q => (q, a)) ++ ownerEntries f L := rfl
    rw [hcons, List.find?_append, find?_map_owner]
    by_cases ha : k ∈ f a
    · -- the head has the key, so the search ends with it
      rw [if_pos ha, Option.some_or]
      constructor
      · intro h
        obtain rfl : a = v := congrArg Prod.snd (Option.some.inj h)
        exact ⟨List.mem_cons_self, ha, fun w _ _ => by simp [List.idxOf_cons_self]⟩
      · rintro ⟨-, -, hmin⟩
        have h0 := hmin a List.mem_cons_self ha
        rw [List.idxOf_cons_self, Nat.le_zero] at h0
        by_cases hav : a = v
        · rw [hav]
        · rw [List.idxOf_cons_ne L hav] at h0
          exact absurd h0 (Nat.succ_ne_zero _)
    · have hne : ∀ w, k ∈ f w → a ≠ w := fun w hw h => ha (h ▸ hw)
      rw [if_neg ha, Option.none_or, ih]
      constructor
      · rintro ⟨hv, hk, hmin⟩
        refine ⟨List.mem_cons_of_mem a hv, hk, fun w hw hkw => ?_⟩
        rw [List.idxOf_cons_ne L (hne v hk), List.idxOf_cons_ne L (hne w hkw)]
        exact Nat.succ_le_succ
          (hmin w ((List.mem_cons.mp hw).resolve_left (hne w hkw).symm) hkw)
      · rintro ⟨hv, hk, hmin⟩
        refine ⟨(List.mem_cons.mp hv).resolve_left (hne v hk).symm, hk, fun w hw hkw => ?_⟩
        have h := hmin w (List.mem_cons_of_mem a hw) hkw
        rw [List.idxOf_cons_ne L (hne v hk), List.idxOf_cons_ne L (hne w hkw)] at h
        exact Nat.le_of_succ_le_succ h

/-- What a map filled by owners alone holds. -/
theorem mem_insertAll_ownerEntries (f : V → List K) (L : List V) (k : K) (v : V) :
    (k, v) ∈ (empty.insertAll (ownerEntries f L)).entries
      ↔ v ∈ L ∧ k ∈ f v ∧ ∀ w ∈ L, k ∈ f w → L.idxOf v ≤ L.idxOf w := by
  rw [← get?_eq_some_iff, get?_insertAll, ← find?_ownerEntries]
  show ((ownerEntries f L).find? (fun e => e.1 = k)).map Prod.snd = some v ↔ _
  constructor
  · intro h
    obtain ⟨e, he, rfl⟩ := Option.map_eq_some_iff.mp h
    have hk : e.1 = k := by simpa using List.find?_some he
    rw [he, ← hk]
  · intro h
    rw [h]
    rfl

omit [BEq V] [LawfulBEq V] in
theorem exists_mem_insertAll_ownerEntries (m : OrdMap K V) {f : V → List K} {L : List V}
    {v : V} {k : K} (hv : v ∈ L) (hk : k ∈ f v) :
    ∃ w, (k, w) ∈ (m.insertAll (ownerEntries f L)).entries := by
  have hmem : (k, v) ∈ ownerEntries f L := (mem_ownerEntries f L (k, v)).mpr ⟨hv, hk⟩
  by_contra hno
  have hnone := ((m.insertAll (ownerEntries f L)).get?_eq_none_iff k).mpr
    (fun w hw => hno ⟨w, hw⟩)
  rw [get?_insertAll, Option.or_eq_none_iff, Option.map_eq_none_iff] at hnone
  exact List.find?_eq_none.mp hnone.2 (k, v) hmem (decide_eq_true rfl)

omit [LinearOrder K] [BEq V] [LawfulBEq V] in
theorem reverse_ownerEntries (f : V → List K) (L : List V) :
    (ownerEntries f L).reverse = ownerEntries (fun v => (f v).reverse) L.reverse := by
  unfold ownerEntries
  rw [List.reverse_flatMap]
  refine List.flatMap_congr (fun v _ => ?_)
  exact List.map_reverse.symm

/-- **The first owner met on the walk.** Around a map filled by owners, with
some keys erased, the walk stops at a key of its owner, no owner's key that is
left is met earlier, and of the owners of that key it is the earliest. -/
theorem firstFrom_eraseAll_ownerEntries_iff (p : K → Bool) (f : V → List K) (L : List V)
    (ks : List K) (k : K) (v : V) :
    ((empty.insertAll (ownerEntries f L)).eraseAll ks).firstFrom p = some (k, v)
      ↔ v ∈ L ∧ k ∈ f v ∧ k ∉ ks
        ∧ (∀ w ∈ L, ∀ q ∈ f w, q ∉ ks → rank p k ≤ rank p q)
        ∧ ∀ w ∈ L, k ∈ f w → L.idxOf v ≤ L.idxOf w := by
  rw [firstFrom_eq_some_iff, mem_eraseAll, mem_insertAll_ownerEntries]
  constructor
  · rintro ⟨⟨⟨hv, hk, hfirst⟩, hleft⟩, hmin⟩
    refine ⟨hv, hk, hleft, fun w hw q hq hqleft => ?_, hfirst⟩
    obtain ⟨u, hu⟩ := exists_mem_insertAll_ownerEntries empty hw hq
    exact hmin (q, u) ((mem_eraseAll _ _ _).mpr ⟨hu, hqleft⟩)
  · rintro ⟨hv, hk, hleft, hmin, hfirst⟩
    refine ⟨⟨⟨hv, hk, hfirst⟩, hleft⟩, fun e he => ?_⟩
    obtain ⟨hmem, heleft⟩ := (mem_eraseAll _ _ _).mp he
    obtain ⟨hw, hq, -⟩ := (mem_insertAll_ownerEntries f L e.1 e.2).mp hmem
    exact hmin e.2 hw e.1 hq heleft

theorem firstFrom_ownerEntries_iff (p : K → Bool) (f : V → List K) (L : List V)
    (k : K) (v : V) :
    (empty.insertAll (ownerEntries f L)).firstFrom p = some (k, v)
      ↔ v ∈ L ∧ k ∈ f v
        ∧ (∀ w ∈ L, ∀ q ∈ f w, rank p k ≤ rank p q)
        ∧ ∀ w ∈ L, k ∈ f w → L.idxOf v ≤ L.idxOf w := by
  have h := firstFrom_eraseAll_ownerEntries_iff p f L [] k v
  simp only [List.not_mem_nil, not_false_iff, true_and, forall_const] at h
  exact h

omit [LinearOrder K] [BEq V] [LawfulBEq V] in
/-- The entries of some of the owners. -/
theorem ownerEntries_filter (f : V → List K) (L : List V) (q : V → Bool) :
    ownerEntries f (L.filter q) = (ownerEntries f L).filter (fun e => q e.2) := by
  induction L with
  | nil => rfl
  | cons v L ih =>
    have hcons : ∀ L, ownerEntries f (v :: L) = (f v).map (fun k => (k, v)) ++ ownerEntries f L :=
      fun _ => rfl
    have hkeys : ((f v).map (fun k => (k, v))).filter (fun e => q e.2)
        = if q v then (f v).map (fun k => (k, v)) else [] := by
      rw [List.filter_map]
      cases hq : q v <;> simp [Function.comp_def, hq]
    rw [hcons, List.filter_append, hkeys, ← ih, List.filter_cons]
    cases q v <;> rfl

omit [BEq V] [LawfulBEq V] in
theorem get?_assignAll_ownerEntries_ne_none (m : OrdMap K V) {f : V → List K} {L : List V}
    {v : V} {k : K} (hv : v ∈ L) (hk : k ∈ f v) :
    (m.assignAll (ownerEntries f L)).get? k ≠ none := by
  rw [get?_assignAll, Ne, Option.or_eq_none_iff, Option.map_eq_none_iff]
  rintro ⟨hnone, -⟩
  have hmem : (k, v) ∈ (ownerEntries f L).reverse :=
    List.mem_reverse.mpr ((mem_ownerEntries f L (k, v)).mpr ⟨hv, hk⟩)
  exact List.find?_eq_none.mp hnone (k, v) hmem (decide_eq_true rfl)

omit [BEq V] [LawfulBEq V] in
/-- **Erasing the keys of an owner** leaves what the other owners fill, exactly
if they have none of its keys. -/
theorem eraseAll_assignAll_ownerEntries_iff [DecidableEq V] (f : V → List K) (L : List V)
    (x : V) :
    ((empty : OrdMap K V).assignAll (ownerEntries f L)).eraseAll (f x)
        = empty.assignAll (ownerEntries f (L.filter (fun y => y ≠ x)))
      ↔ ∀ y ∈ L, y ≠ x → ∀ k ∈ f x, k ∉ f y := by
  constructor
  · intro heq y hy hne k hkx hky
    refine get?_assignAll_ownerEntries_ne_none empty
      (List.mem_filter.mpr ⟨hy, decide_eq_true hne⟩ : y ∈ L.filter (fun y => y ≠ x)) hky ?_
    rw [← heq, get?_eraseAll, if_pos hkx]
  · intro hdisjoint
    refine ext_get? (fun k => ?_)
    rw [get?_eraseAll, get?_assignAll, get?_assignAll, ownerEntries_filter, ← List.filter_reverse,
      List.find?_filter]
    split
    · next hkx =>
      -- every entry at the key is of that owner
      rw [List.find?_eq_none.mpr]
      · rfl
      · intro e he hfound
        obtain ⟨hother, hkey⟩ := of_decide_eq_true hfound
        obtain ⟨hmem, hk⟩ := (mem_ownerEntries f L e).mp (List.mem_reverse.mp he)
        refine hdisjoint e.2 hmem (of_decide_eq_true hother) k hkx ?_
        exact (of_decide_eq_true hkey : e.1 = k) ▸ hk
    · next hkx =>
      -- no entry at the key is of that owner
      congr 2
      refine List.find?_congr (fun e he => ?_)
      have hother : e.1 = k → e.2 ≠ x := by
        rintro rfl rfl
        exact hkx ((mem_ownerEntries f L e).mp (List.mem_reverse.mp he)).2
      by_cases hkey : e.1 = k
      · simp [hkey, hother hkey]
      · simp [hkey]

end Owners

end OrdMap
