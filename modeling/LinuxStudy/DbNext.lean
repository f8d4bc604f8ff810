import LinuxStudy.DbStore

/-!
# The records in order

`db_rewind` and then `db_nextrec`, again and again, read the index file from the
first record to the last. The records of the free list lie between the others; they
have blanks for keys, and `db_nextrec` passes over every key of blanks. So it gives
each record that `db_fetch` finds, once, and no other, but for the records whose
keys are blanks (**`scan_run`**).
-/

namespace ApueDb

open FileBytes

/-- `db_nextrec` until there is no record. -/
def Db.scan : ℕ → Db → Option (List (Bytes × Bytes))
  | 0, _ => none
  | rounds + 1, db =>
    db.nextRec.bind fun (db, found) =>
      match found with
      | none => some []
      | some record => (db.scan rounds).map (record :: ·)

variable {db : Db} {T : Table} {lists : Fin (nhashDef + 1) → List ℕ} {m : Store} {s t : Slot}
  {l : List Slot} {rounds : ℕ}

section Laid

variable {σ : Type} {off size : σ → ℕ} {a b : ℕ} {u : σ} {l₁ l₂ : List σ}

theorem Laid.behind (h : Laid off size a (l₁ ++ u :: l₂) b) :
    Laid off size (off u + size u) l₂ b := by
  induction l₁ generalizing a with
  | nil =>
    rw [h.1]
    exact h.2
  | cons v l₁ ih => exact ih h.2

/-- Nothing is there twice. -/
theorem Laid.nodup (h : Laid off size a l₁ b) (hsize : ∀ v ∈ l₁, 0 < size v) : l₁.Nodup := by
  induction l₁ generalizing a with
  | nil => exact List.nodup_nil
  | cons v l₁ ih =>
    refine List.nodup_cons.mpr
      ⟨fun hmem => ?_, ih h.2 fun w hw => hsize w (List.mem_cons_of_mem _ hw)⟩
    have hle := (h.2.within hmem).1
    have hpos := hsize v List.mem_cons_self
    have hoff := h.1
    omega

end Laid

/-! ## From one record to the next

`db_nextrec` reads on from where the index file is and takes no notice of the
chains. It skips what has a key of blanks, which is how a deleted record looks.
Since the records lie one behind the other without a gap, the ones it gives are
those of the table in the order of the file. -/

/-- **The next record** whose key is not blanks, from where the file is. -/
theorem nextLoop_spec (h : Reads db.idx db.dat T)
    (hl : Laid Slot.off Slot.size db.pos l db.idx.length)
    (hslots : ∀ s ∈ l, s ∈ T.slots) (hrounds : l.length < rounds) :
    (∃ db', Db.nextLoop rounds db = some (db', false) ∧ ∀ s ∈ l, Db.Blank (T.key s.off)) ∨
    ∃ (db' : Db) (l₁ : List Slot) (s : Slot) (l₂ : List Slot),
      Db.nextLoop rounds db = some (db', true) ∧ l = l₁ ++ s :: l₂ ∧
        (∀ t ∈ l₁, Db.Blank (T.key t.off)) ∧ ¬Db.Blank (T.key s.off) ∧
        Current db' T s ∧ Same db db' ∧
        db'.pos = s.off + s.size := by
  induction l generalizing db rounds with
  | nil =>
    obtain ⟨rounds, rfl⟩ : ∃ r, rounds = r + 1 := ⟨rounds - 1, by omega⟩
    have hpos : db.pos = db.idx.length := hl
    have hfront : pread db.idx db.pos (ptrSz + idxlenSz) = [] := by
      unfold pread
      rw [hpos, List.drop_length, List.take_nil]
    have hread : db.readIdx 0 = some ({ db with idxoff := db.pos }, -1) := by
      unfold Db.readIdx
      rw [if_pos rfl, Option.bind_some]
      simp [hfront]
    refine Or.inl ⟨{ db with idxoff := db.pos }, ?_, fun s hs => absurd hs List.not_mem_nil⟩
    unfold Db.nextLoop
    exact Option.bind_eq_some_iff.mpr ⟨_, hread, if_pos (by decide)⟩
  | cons s l ih =>
    obtain ⟨rounds, rfl⟩ : ∃ r, rounds = r + 1 := ⟨rounds - 1, by omega⟩
    have hs := hslots s List.mem_cons_self
    obtain ⟨hcurrent, hsame⟩ := current_at db hs
    have hread : db.readIdx 0 = some (db.at s (T.key s.off) (T.ptr s.off), (T.ptr s.off : ℤ)) :=
      h.readIdx hs (by rw [if_pos rfl, hl.1])
    have hptr : ¬((T.ptr s.off : ℕ) : ℤ) < 0 := by omega
    have hpos : (db.at s (T.key s.off) (T.ptr s.off)).pos = s.off + s.size := by
      show s.off + ptrSz + idxlenSz + s.idxlen = s.off + (ptrSz + (idxlenSz + s.idxlen))
      omega
    by_cases hblank : Db.Blank (T.key s.off)
    · have hl' : Laid Slot.off Slot.size
        (db.at s (T.key s.off) (T.ptr s.off)).pos l db.idx.length := by
        rw [hpos, hl.1]
        exact hl.2
      have hnext := ih (hsame.reads h) hl'
        (fun t ht => hslots t (List.mem_cons_of_mem _ ht)) (Nat.lt_of_succ_lt_succ hrounds)
      have hloop : ∀ r, Db.nextLoop rounds (db.at s (T.key s.off) (T.ptr s.off)) = some r →
          Db.nextLoop (rounds + 1) db = some r := fun r hr => by
        unfold Db.nextLoop
        exact Option.bind_eq_some_iff.mpr ⟨_, hread, (if_neg hptr).trans ((if_pos hblank).trans hr)⟩
      rcases hnext with ⟨db', hdone, hall⟩ | ⟨db', l₁, t, l₂, hdone, rfl, hall, hrest⟩
      · exact Or.inl ⟨db', hloop _ hdone, List.forall_mem_cons.mpr ⟨hblank, hall⟩⟩
      · obtain ⟨hnot, hcurrent', hsame', hpos'⟩ := hrest
        exact Or.inr ⟨db', s :: l₁, t, l₂, hloop _ hdone, rfl,
          List.forall_mem_cons.mpr ⟨hblank, hall⟩, hnot, hcurrent', hsame.trans hsame', hpos'⟩
    · refine Or.inr ⟨_, [], s, l, ?_, rfl, fun t ht => absurd ht List.not_mem_nil, hblank, hcurrent,
        hsame, hpos⟩
      unfold Db.nextLoop
      exact Option.bind_eq_some_iff.mpr ⟨_, hread, (if_neg hptr).trans (if_neg hblank)⟩

/-- The records whose keys are not blanks. -/
def Table.shown (T : Table) (l : List Slot) : List (Bytes × Bytes) :=
  (l.filter fun s => ¬Db.Blank (T.key s.off)).map fun s => (T.key s.off, T.data s.off)

/-- **All the records** from where the file is. -/
theorem scan_spec (h : Reads db.idx db.dat T) (hl : Laid Slot.off Slot.size db.pos l db.idx.length)
    (hslots : ∀ s ∈ l, s ∈ T.slots) (hlength : l.length < db.idx.length)
    (hrounds : l.length < rounds) : db.scan rounds = some (T.shown l) := by
  induction rounds generalizing db l with
  | zero => exact absurd hrounds (Nat.not_lt_zero _)
  | succ rounds ih =>
    unfold Db.scan
    rcases nextLoop_spec h hl hslots hlength with ⟨db', hloop, hall⟩ |
      ⟨db', l₁, s, l₂, hloop, rfl, hall, hnot, hcurrent, hsame, hpos⟩
    · have hnext : db.nextRec = some (db', none) := by
        unfold Db.nextRec
        exact Option.bind_eq_some_iff.mpr ⟨_, hloop, rfl⟩
      have hshown : T.shown l = [] := by
        unfold Table.shown
        rw [List.filter_eq_nil_iff.mpr fun s hs => by simpa using hall s hs, List.map_nil]
      rw [hnext, hshown]
      rfl
    · have hreads' := hsame.reads h
      have hread := hreads'.readDat hcurrent.mem hcurrent.datoff hcurrent.datlen
      have hnext : db.nextRec = some ({ db' with datbuf := T.data s.off },
          some (T.key s.off, T.data s.off)) := by
        unfold Db.nextRec
        refine Option.bind_eq_some_iff.mpr ⟨_, hloop, Option.bind_eq_some_iff.mpr ⟨_, hread, ?_⟩⟩
        rw [hcurrent.idxbuf]
        rfl
      have hback : Laid Slot.off Slot.size db'.pos l₂ db'.idx.length := by
        rw [hpos, hsame.idx]
        exact hl.behind
      rw [List.length_append, List.length_cons] at hlength hrounds
      have hreads'' : Reads ({ db' with datbuf := T.data s.off } : Db).idx
          ({ db' with datbuf := T.data s.off } : Db).dat T := hreads'
      have hrest := ih (l := l₂) hreads'' hback
        (fun t ht => hslots t (List.mem_append_right _ (List.mem_cons_of_mem _ ht)))
        (show l₂.length < db'.idx.length by rw [hsame.idx]; omega) (by omega)
      have hshown : T.shown (l₁ ++ s :: l₂) = (T.key s.off, T.data s.off) :: T.shown l₂ := by
        unfold Table.shown
        rw [List.filter_append, List.filter_eq_nil_iff.mpr fun t ht => by simpa using hall t ht,
          List.nil_append, List.filter_cons_of_pos (by simpa using hnot), List.map_cons]
      rw [hnext, Option.bind_some, hshown]
      show (Db.scan rounds { db' with datbuf := T.data s.off }).map _ = _
      rw [hrest]
      rfl

/-! ## What is shown

A record whose key is not blanks is not free, so it is on the chain of its key,
and what it has is what the map gives to the key. Two records with one key would
be on the same chain, where there is one at most. So nothing is shown twice, and
nothing of the map is left out but a key of blanks, which can be stored and is
skipped. -/

theorem Holds.chained (h : Holds db T lists m) (hs : s ∈ T.slots) (hnot : ¬Db.Blank (T.key s.off)) :
    s.off ∈ lists (dbHash (T.key s.off)).succ := by
  obtain ⟨j, hj⟩ := (h.filed.mem_iff s.off).mpr ⟨s, hs, rfl⟩
  cases j using Fin.cases with
  | zero => exact absurd (h.filed.blanked s.off hj) hnot
  | succ i =>
    rw [h.filed.hashed i s.off hj]
    exact hj

/-- What is shown of the files is the map, but for keys of blanks. -/
theorem Holds.mem_shown (h : Holds db T lists m) (key data : Bytes) :
    (key, data) ∈ T.shown T.slots ↔ m key = some data ∧ ¬Db.Blank key := by
  unfold Table.shown
  simp only [List.mem_map, List.mem_filter, decide_not, Bool.not_eq_true', decide_eq_false_iff_not,
    Prod.mk.injEq]
  constructor
  · rintro ⟨s, ⟨hs, hnot⟩, rfl, rfl⟩
    exact ⟨h.keeps.eq_some h.filed (h.chained hs hnot), hnot⟩
  · rintro ⟨hm, hnot⟩
    obtain ⟨a, ha, hkey, hdata⟩ := (h.keeps key data).mp hm
    obtain ⟨s, hs, rfl⟩ := h.slot ha
    exact ⟨s, ⟨hs, by rw [hkey]; exact hnot⟩, hkey, hdata⟩

/-- No key is shown twice. -/
theorem Holds.nodup_shown (h : Holds db T lists m) : ((T.shown T.slots).map Prod.fst).Nodup := by
  have hnodup : T.slots.Nodup :=
    h.reads.laid.nodup fun s _ => Nat.lt_of_le_of_lt (Nat.zero_le _) (size_pos s)
  unfold Table.shown
  rw [List.map_map]
  refine (hnodup.filter _).map_on fun s hs t ht hkey => ?_
  obtain ⟨hs, hs_not⟩ := List.mem_filter.mp hs
  obtain ⟨ht, ht_not⟩ := List.mem_filter.mp ht
  have hkey' : T.key s.off = T.key t.off := hkey
  have hs_chain := h.chained hs (by simpa using hs_not)
  have ht_chain := h.chained ht (by simpa using ht_not)
  rw [hkey'] at hs_chain
  exact h.reads.eq_of_off hs ht (h.filed.unique _ _ hs_chain _ ht_chain hkey')

/-- **`db_nextrec` gives every record once.** After any run of calls, from
`db_rewind` on it gives the keys and strings of the map, each once, but for keys of
blanks. -/
theorem scan_run {calls : List Call} (hcalls : Runs.Guarded Db.step Possible dbCreate calls) :
    ∃ db records, Runs.exec Db.step dbCreate calls = some db ∧
      db.rewind.scan db.idx.length = some records ∧ (records.map Prod.fst).Nodup ∧
      ∀ key data, (key, data) ∈ records ↔
        (Runs.answers Store.call (fun _ => none) calls).1 key = some data ∧ ¬Db.Blank key := by
  obtain ⟨-, db, T, lists, hexec, hholds⟩ := run_spec holds_create hcalls
  have hlength := hholds.reads.length_slots_lt
  have hreads : Reads db.rewind.idx db.rewind.dat T := hholds.reads
  exact ⟨db, _, hexec, scan_spec hreads hholds.reads.laid (fun _ hs => hs) hlength hlength,
    hholds.nodup_shown, hholds.mem_shown⟩

/-- A record that was deleted is not shown. -/
theorem scan_run_deleted : ∃ db records,
    Runs.exec Db.step dbCreate [.store [97] [49, 50] .insert, .store [98] [51] .insert,
      .delete [97]] = some db ∧
    db.rewind.scan db.idx.length = some records ∧ ([98], [51]) ∈ records ∧
      ∀ data, ([97], data) ∉ records := by
  have hcalls : Runs.Guarded Db.step Possible dbCreate [.store [97] [49, 50] .insert,
      .store [98] [51] .insert, .delete [97]] := by decide +kernel
  obtain ⟨db, records, hexec, hscan, -, hmem⟩ := scan_run hcalls
  refine ⟨db, records, hexec, hscan, (hmem _ _).mpr (by decide), fun data hdata => ?_⟩
  exact absurd (show none = some data from ((hmem _ _).mp hdata).1).symm (Option.some_ne_none _)

end ApueDb
