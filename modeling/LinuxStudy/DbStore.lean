import LinuxStudy.DbChains
import Mathlib.Data.List.Perm.Subperm
import Mathlib.Algebra.BigOperators.Group.List.Basic

/-!
# The database is a map

What `db_store`, `db_fetch` and `db_delete` do to the files is to move a record from
one chain to the front of another, to put a new one in front, or to write a string
over another. So in every run of calls the answers are those of a map from keys to
strings (**`db_run`**), whichever records are used again, and whether the database
is closed and opened between the calls.

A key must not be empty and must not have a colon, which separates the fields of an
index record; it has at most 1000 bytes, so that the record is not too long. And
pointers have seven digits: nothing is asked of a `db_store` that finds a longer
index file.
-/

namespace ApueDb

open FileBytes Chains

variable {db db' : Db} {T : Table} {lists : Fin (nhashDef + 1) → List ℕ} {m : Store} {s : Slot}
  {key data : Bytes} {i : Fin nhashDef} {l l₁ l₂ : List ℕ}

/-- A key that can be stored. -/
structure GoodKey (key : Bytes) : Prop where
  ne_nil : key ≠ []
  length_le : key.length ≤ 1000
  clean : ∀ c ∈ key, c ≠ sep ∧ c ≠ nul

/-- A string that can be stored. -/
structure GoodData (data : Bytes) : Prop where
  ne_nil : data ≠ []
  length_lt : data.length < datlenMax
  clean : nul ∉ data

/-! ## Sizes

The loops along a chain take at most as many rounds as there are bytes in the
index file. A chain has no record twice, and the records lie one behind the other,
so there are fewer of them than bytes, and no loop goes on for too long. -/

section Laid

variable {σ : Type} {off size off' size' : σ → ℕ} {a b a' b' k n : ℕ} {l : List σ}

theorem Laid.length_le (h : Laid off size a l b) (hsize : ∀ s ∈ l, 0 < size s) :
    a + l.length ≤ b := by
  induction l generalizing a with
  | nil => exact Nat.le_of_eq h
  | cons s l ih =>
    have hrest := ih h.2 fun t ht => hsize t (List.mem_cons_of_mem _ ht)
    have hs := hsize s List.mem_cons_self
    rw [List.length_cons]
    omega

theorem Laid.eq_end (h : Laid off size a l b) (h' : Laid off size a l b') : b = b' := by
  induction l generalizing a with
  | nil => exact Eq.trans (Eq.symm h) h'
  | cons s l ih => exact ih h.2 h'.2

theorem Laid.scale (h : Laid off size a l b) (h' : Laid off' size' a' l b')
    (hsize : ∀ s ∈ l, k * size' s ≤ n * size s) : k * b' + n * a ≤ n * b + k * a' := by
  induction l generalizing a a' with
  | nil =>
    obtain rfl : a = b := h
    obtain rfl : a' = b' := h'
    exact Nat.le_of_eq (Nat.add_comm _ _)
  | cons s l ih =>
    have hrest := ih h.2 h'.2 fun t ht => hsize t (List.mem_cons_of_mem _ ht)
    have hs := hsize s List.mem_cons_self
    rw [Nat.mul_add, Nat.mul_add] at hrest
    omega

end Laid

/-- **The data file is not too long** for its offsets, as long as pointers are not. -/
theorem Reads.length_dat_lt {idx dat : Bytes} (h : Reads idx dat T) (hlen : idx.length ≤ ptrMax) :
    dat.length < 10 ^ 9 := by
  have hscale := h.laid.scale (k := 17) (n := 1024) h.datLaid fun s hs => by
    have hsound := h.sound s hs
    have hmax : s.datlen ≤ 1024 := hsound.datlen_max
    have hmin : 6 ≤ s.idxlen := hsound.idxlen_min
    have hsize : s.size = 7 + (4 + s.idxlen) := rfl
    omega
  have hlen' : idx.length ≤ 9999999 := hlen
  omega

theorem Reads.length_slots_lt {idx dat : Bytes} (h : Reads idx dat T) :
    T.slots.length < idx.length := by
  have hroom := h.laid.length_le fun s _ => Nat.lt_of_le_of_lt (Nat.zero_le _) (size_pos s)
  have hpos : 0 < recordsOff := by decide
  omega

/-- A new record is not too long. -/
theorem slot_sound (hkey : GoodKey key) (hdata : GoodData data) {off datoff : ℕ}
    (hdatoff : datoff < 10 ^ 9) :
    (Slot.mk off datoff key.length (data.length + 1)).Sound := by
  have hkey_pos := List.length_pos_iff.mpr hkey.ne_nil
  have hdata_pos := List.length_pos_iff.mpr hdata.ne_nil
  have hkey_le := hkey.length_le
  have hdata_lt : data.length < 1024 := hdata.length_lt
  have hoff_pos := List.length_pos_iff.mpr (decimal_ne_nil datoff)
  have hlen_pos := List.length_pos_iff.mpr (decimal_ne_nil (data.length + 1))
  have hoff_le : (decimal datoff).length ≤ 9 := (length_decimal_le_iff (by decide)).mpr hdatoff
  have hlen_le : (decimal (data.length + 1)).length ≤ 4 :=
    (length_decimal_le_iff (by decide)).mpr (by omega)
  have hidxlen : (Slot.mk off datoff key.length (data.length + 1)).idxlen = key.length +
      (1 + ((decimal datoff).length + (1 + ((decimal (data.length + 1)).length + 1)))) := rfl
  refine ⟨?_, ?_, ?_, ?_⟩
  · show 6 ≤ _
    omega
  · show _ ≤ 1024
    omega
  · show 2 ≤ data.length + 1
    omega
  · show data.length + 1 ≤ 1024
    omega

namespace Holds

theorem slot (h : Holds db T lists m) {j : Fin (nhashDef + 1)} {b : ℕ} (hb : b ∈ lists j) :
    ∃ s ∈ T.slots, s.off = b :=
  (h.filed.mem_iff b).mp ⟨j, hb⟩

/-- The place before a record of a chain has a pointer, which leads to the record. -/
theorem before (h : Holds db T lists m) {j : Fin (nhashDef + 1)} {x : ℕ}
    (hj : lists j = l₁ ++ x :: l₂) : Place T (l₁.getLastD (chainOff j)) ∧
      T.ptr (l₁.getLastD (chainOff j)) = x := by
  constructor
  · rcases List.mem_cons.mp (getLastD_mem l₁ (chainOff j)) with heq | hmem
    · exact Or.inl ⟨j, heq⟩
    · obtain ⟨t, ht, hoff⟩ := h.slot (hj ▸ List.mem_append_left _ hmem)
      exact Or.inr ⟨t, ht, hoff.symm⟩
  · have hleads := h.family.leads j
    rw [hj] at hleads
    exact (leads_append.mp hleads).1.next_last

theorem length_lt (h : Holds db T lists m) (j : Fin (nhashDef + 1)) :
    (lists j).length < db.idx.length := by
  have hsubset : lists j ⊆ T.slots.map Slot.off := fun b hb => List.mem_map.mpr (h.slot hb)
  have hle := ((h.family.nodup j).subperm hsubset).length_le
  rw [List.length_map] at hle
  exact Nat.lt_of_le_of_lt hle h.reads.length_slots_lt

end Holds

theorem bind_spec {α β : Type} {o : Option α} {f : α → Option β} {a : α} {P : β → Prop}
    (ho : o = some a) (hf : ∃ b, f a = some b ∧ P b) : ∃ b, o.bind f = some b ∧ P b := by
  rw [ho]
  exact hf

/-! ## The key is looked up -/

/-- The handle, when the chain of a key was looked through. -/
structure Locked (db db' : Db) (key : Bytes) : Prop where
  idx : db'.idx = db.idx
  dat : db'.dat = db.dat
  chainoff : db'.chainoff = chainOff (dbHash key).succ

theorem Locked.holds (hl : Locked db db' key) (h : Holds db T lists m) : Holds db' T lists m := by
  refine ⟨?_, h.family, h.filed, h.keeps⟩
  rw [hl.idx, hl.dat]
  exact h.reads

/-- **`_db_find_and_lock`** finds the record of the key, if there is one. -/
theorem findAndLock_spec (h : Holds db T lists m) (key : Bytes) :
    (∃ db', db.findAndLock key = some (db', false) ∧ Locked db db' key ∧ m key = none) ∨
    ∃ (db' : Db) (l₁ : List ℕ) (s : Slot) (l₂ : List ℕ),
      db.findAndLock key = some (db', true) ∧ Locked db db' key ∧ Current db' T s ∧
        lists (dbHash key).succ = l₁ ++ s.off :: l₂ ∧ T.key s.off = key ∧
        db'.ptroff = (l₁.getLastD (chainOff (dbHash key).succ) : ℕ) := by
  have hchain : (dbHash key : ℕ) * ptrSz + hashOff = chainOff (dbHash key).succ := by
    show (dbHash key : ℕ) * 7 + 7 = ((dbHash key).succ : ℕ) * 7
    rw [Fin.val_succ]
    omega
  have hloop := findLoop_spec (k := key)
    (d := { db with
      chainoff := chainOff (dbHash key).succ
      ptroff := chainOff (dbHash key).succ
      pos := chainOff (dbHash key).succ + ptrSz })
    h.reads (h.family.leads (dbHash key).succ) (fun b hb => h.slot hb) rfl
    (h.length_lt (dbHash key).succ)
  have hread := Reads.readPtr (d := { db with
    chainoff := chainOff (dbHash key).succ, ptroff := chainOff (dbHash key).succ }) h.reads
    (Or.inl ⟨(dbHash key).succ, rfl⟩)
  unfold Db.findAndLock
  simp only [hchain, hread, Option.bind_eq_bind, Option.bind_some]
  rcases hloop with ⟨db', hloop, hsame, hnone⟩ | ⟨db', l₁, s, l₂, hloop, hsame, hfound⟩
  · refine Or.inl ⟨db', ?_, ⟨hsame.idx, hsame.dat, hsame.chainoff⟩, h.keeps.eq_none hnone⟩
    rw [hloop]
    rfl
  · obtain ⟨hcurrent, hl, hkey, hlast⟩ := hfound
    refine Or.inr ⟨db', l₁, s, l₂, ?_, ⟨hsame.idx, hsame.dat, hsame.chainoff⟩, hcurrent, hl, hkey,
      hlast⟩
    have hoff : s.off ≠ 0 := by
      have hle := h.reads.recordsOff_le hcurrent.mem
      have hpos : 0 < recordsOff := by decide
      omega
    rw [hloop]
    simp [hoff]

/-! ## Records move

Deleting writes to four places: the string and the key become blanks, the free
list gets the record in front, the record gets the pointer of the free list, and
the place before the record gets the record's. Between two of the writes the files
are not in order, so what they say is followed write by write (`doDelete_reads`),
and only at the end is it put together to the chains again.

A free record is used again only for a key and a string of the same lengths. While
it is on no chain (`Loose`) everything else is in order. -/

theorem back_iff {N : ℕ → Prop} {x : ℕ} (hx : N x) (a : ℕ) : (a = x ∨ N a ∧ a ≠ x) ↔ N a := by
  constructor
  · rintro (rfl | ha)
    · exact hx
    · exact ha.1
  · intro ha
    by_cases heq : a = x
    · exact Or.inl heq
    · exact Or.inr ⟨ha, heq⟩

/-- A record is deleted: it has blanks, and is in front of the free list instead of
behind a place. -/
def Table.deleted (T : Table) (s : Slot) (before : ℕ) : Table where
  slots := T.slots
  ptr := Function.update (Function.update (Function.update T.ptr s.off (T.ptr 0)) 0 s.off) before
    (T.ptr s.off)
  key := Function.update T.key s.off (List.replicate s.keylen blank)
  data := Function.update T.data s.off (List.replicate (s.datlen - 1) blank)

/-- **The writes of `_db_dodelete`**, one after the other. -/
theorem doDelete_reads (h : Reads db.idx db.dat T) (hcurrent : Current db T s) {a : ℕ}
    (ha : Place T a) (hptr : T.ptr a = s.off) (hptroff : db.ptroff = a) :
    ∃ db', db.doDelete = some db' ∧ db'.chainoff = db.chainoff ∧
      Reads db'.idx db'.dat (T.deleted s a) := by
  have hs := hcurrent.mem
  have hfits := h.fits s hs
  have hsound := h.sound s hs
  have hblank : ∀ n, ∀ c ∈ List.replicate n blank, c = blank :=
    fun n c hc => List.eq_of_mem_replicate hc
  have hclean : ∀ n, nul ∉ List.replicate n blank :=
    fun n hmem => absurd (hblank n nul hmem) (by decide)
  have hdatlen : (List.replicate (s.datlen - 1) blank).length + 1 = s.datlen := by
    rw [List.length_replicate]
    have hmin : 2 ≤ s.datlen := hsound.datlen_min
    omega
  have hidxbuf : db.idxbuf.length = s.keylen := by rw [hcurrent.idxbuf, hfits.keylen]
  have hidxoff_le : db.idxoff ≤ ptrMax := by
    rw [hcurrent.idxoff, ← hptr]
    exact h.place_le ha
  have hreads₁ : Reads db.idx
      (pwrite db.dat db.datoff (List.replicate (db.datlen - 1) blank ++ [newline]))
      { T with data := Function.update T.data s.off (List.replicate (s.datlen - 1) blank) } := by
    rw [hcurrent.datoff, hcurrent.datlen]
    exact h.writeDat hs ⟨hfits.keylen, hdatlen, hfits.key_clean, hclean _⟩
  have hreads₂ : Reads (pwrite db.idx db.idxoff
      (recordBytes s (T.ptr 0) (List.replicate db.idxbuf.length blank)))
      (pwrite db.dat db.datoff (List.replicate (db.datlen - 1) blank ++ [newline]))
      { T with
        ptr := Function.update T.ptr s.off (T.ptr 0)
        key := Function.update T.key s.off (List.replicate s.keylen blank)
        data := Function.update T.data s.off (List.replicate (s.datlen - 1) blank) } := by
    rw [hcurrent.idxoff, hidxbuf]
    exact hreads₁.writeIdx hs ⟨List.length_replicate, (hreads₁.fits s hs).datlen,
      fun c hc => by rw [hblank _ c hc]; decide, (hreads₁.fits s hs).data_clean⟩ (h.head_le 0)
  have hreads₃ : Reads (pwrite (pwrite db.idx db.idxoff
      (recordBytes s (T.ptr 0) (List.replicate db.idxbuf.length blank))) 0 (field ptrSz db.idxoff))
      (pwrite db.dat db.datoff (List.replicate (db.datlen - 1) blank ++ [newline]))
      { T with
        ptr := Function.update (Function.update T.ptr s.off (T.ptr 0)) 0 s.off
        key := Function.update T.key s.off (List.replicate s.keylen blank)
        data := Function.update T.data s.off (List.replicate (s.datlen - 1) blank) } := by
    have hwritten := hreads₂.writePtr (a := 0) (v := db.idxoff) (Or.inl ⟨0, rfl⟩) hidxoff_le
    rw [hcurrent.idxoff] at hwritten ⊢
    exact hwritten
  have hdatlen' : (List.replicate (db.datlen - 1) blank).length + 1 = s.datlen := by
    rw [hcurrent.datlen]
    exact hdatlen
  have hkeylen' : (List.replicate db.idxbuf.length blank).length = s.keylen := by
    rw [List.length_replicate, hidxbuf]
  have hwrite : ∀ d : Db, d.writePtr db.ptroff db.ptrval = some { d with
      idx := pwrite d.idx a (field ptrSz (T.ptr s.off)), pos := a + ptrSz } := fun d => by
    rw [hptroff, hcurrent.ptrval]
    exact writePtr_eq (h.ptr_le s hs)
  unfold Db.doDelete
  refine bind_spec (hreads₁.readPtr (Or.inl ⟨0, rfl⟩)) ?_
  refine bind_spec (writeIdx_eq hsound hkeylen' (by exact hcurrent.datoff) (by exact hdatlen')
    (h.head_le 0) (some _)) ?_
  exact bind_spec (writePtr_eq hidxoff_le)
    ⟨_, hwrite _, rfl, hreads₃.writePtr ha (h.ptr_le s hs)⟩

/-- **A record is deleted**: it moves to the free list, and its key is not there any
more. -/
theorem doDelete_spec (h : Holds db T lists m) (hcurrent : Current db T s)
    (hi : lists i.succ = l₁ ++ s.off :: l₂)
    (hptroff : db.ptroff = (l₁.getLastD (chainOff i.succ) : ℕ)) :
    ∃ db', db.doDelete = some db' ∧ db'.chainoff = db.chainoff ∧
      db'.idx.length = db.idx.length ∧
      ∃ T' lists', Holds db' T' lists' (Function.update m (T.key s.off) none) := by
  obtain ⟨hplace, hptr⟩ := h.before hi
  obtain ⟨db', hdelete, hchain, hreads⟩ := doDelete_reads h.reads hcurrent hplace hptr hptroff
  have hother : ∀ b, b ≠ s.off →
      Function.update T.key s.off (List.replicate s.keylen blank) b = T.key b :=
    fun b hb => Function.update_of_ne hb _ _
  have hlist₀ : Function.update lists i.succ (l₁ ++ l₂) 0 = lists 0 :=
    Function.update_of_ne (Fin.succ_ne_zero i).symm _ _
  have hfamily := h.family.move (Fin.succ_ne_zero i) hi
  have hfiled := ((h.filed.unlink h.family hi).congr fun b hb => hother b hb.2).free (x := s.off)
    fun c hc => by
      rw [Function.update_self] at hc
      exact List.eq_of_mem_replicate hc
  rw [hlist₀] at hfiled
  have hkeeps : Keeps _ (Function.update T.data s.off (List.replicate (s.datlen - 1) blank)) _ _ :=
    ((h.keeps.unlink h.filed h.family hi).congr fun j b hb =>
      have hne := ((h.family.mem_unlink hi).mp hb).2
      ⟨hother b hne, Function.update_of_ne hne _ _⟩).of_free (s.off :: lists 0)
  exact ⟨db', hdelete, hchain, hreads.laid.eq_end h.reads.laid, _, _, hreads, hfamily,
    hfiled.of_iff (back_iff ⟨s, hcurrent.mem, rfl⟩), hkeeps⟩

/-- **A record is appended** to the files, and put in front of the chain of its
key. -/
theorem appendRecord_spec (h : Holds db T lists m) (hkey : GoodKey key) (hdata : GoodData data)
    (hchain : db.chainoff = chainOff (dbHash key).succ) (hnone : m key = none)
    (hlen : db.idx.length ≤ ptrMax) :
    ∃ db', db.appendRecord key data (T.ptr db.chainoff) = some db' ∧
      ∃ T' lists', Holds db' T' lists' (Function.update m key (some data)) := by
  have hsound : (Slot.mk db.idx.length db.dat.length key.length (data.length + 1)).Sound :=
    slot_sound hkey hdata (h.reads.length_dat_lt hlen)
  have hnew : ¬∃ t ∈ T.slots, t.off = db.idx.length := by
    rintro ⟨t, ht, heq⟩
    have hend := (h.reads.laid.within ht).2
    have hsize := size_pos t
    omega
  have hnewStart : ∀ j, db.idx.length ≠ chainOff j := by
    intro j heq
    have hlt := chainOff_lt j
    have hle := h.reads.recordsOff_le_length
    omega
  have hptr_le : T.ptr db.chainoff ≤ ptrMax := hchain ▸ h.reads.head_le _
  have hreads₁ : Reads (pwrite db.idx db.idx.length (recordBytes
      (Slot.mk db.idx.length db.dat.length key.length (data.length + 1)) (T.ptr db.chainoff) key))
      (pwrite db.dat db.dat.length (data ++ [newline]))
      { slots := T.slots ++ [Slot.mk db.idx.length db.dat.length key.length (data.length + 1)]
        ptr := Function.update T.ptr db.idx.length (T.ptr db.chainoff)
        key := Function.update T.key db.idx.length key
        data := Function.update T.data db.idx.length data } := by
    rw [pwrite_end, pwrite_end]
    exact h.reads.appendRecord rfl rfl hsound ⟨rfl, rfl, hkey.clean, hdata.clean⟩ hptr_le
  have hreads₂ := hreads₁.writePtr (a := db.chainoff) (v := db.idx.length)
    (Or.inl ⟨_, hchain⟩) hlen
  have hne := h.keeps.ne_of_none hnone
  have hfamily := h.family.push (x := db.idx.length)
    (fun heq => hnewStart 0 heq) hnewStart (fun j hj => hnew (h.slot hj)) (dbHash key).succ
  rw [← hchain] at hfamily
  unfold Db.appendRecord
  refine bind_spec (writeIdx_eq hsound rfl rfl rfl hptr_le none) ?_
  refine ⟨_, writePtr_eq hlen, _, _, hreads₂, hfamily, (h.filed.put hnew hne).of_iff fun a => ?_,
    h.keeps.put h.filed hnew hne⟩
  simp [or_comm, eq_comm]

/-- **A record is on no chain**, and all the others are. -/
structure Loose (db : Db) (T : Table) (lists : Fin (nhashDef + 1) → List ℕ) (m : Store)
    (s : Slot) : Prop where
  mem : s ∈ T.slots
  reads : Reads db.idx db.dat T
  family : Family 0 T.ptr chainOff lists
  notMem : ∀ j, s.off ∉ lists j
  filed : Filed T.key (fun a => (∃ t ∈ T.slots, t.off = a) ∧ a ≠ s.off) lists
  keeps : Keeps T.key T.data lists m
  idxoff : db.idxoff = s.off
  datoff : db.datoff = s.datoff

/-- **A free record is taken** from the free list, if there is one of the lengths. -/
theorem findFree_spec (h : Holds db T lists m) (keylen datlen : ℕ) :
    (∃ db', db.findFree keylen datlen = some (db', false) ∧ Same db db') ∨
    ∃ r, db.findFree keylen datlen = some r ∧ r.2 = true ∧ r.1.chainoff = db.chainoff ∧
      r.1.idx.length = db.idx.length ∧ ∃ T' lists' s, Loose r.1 T' lists' m s ∧
        s.keylen = keylen ∧ s.datlen = datlen ∧
        ∀ i : Fin nhashDef, T'.ptr (chainOff i.succ) = T.ptr (chainOff i.succ) := by
  have hread := h.reads.readPtr (a := 0) (Or.inl ⟨0, rfl⟩)
  have hloop := findFreeLoop_spec (k := keylen) (n := datlen)
    (d := { db with pos := 0 + ptrSz }) h.reads (h.family.leads 0) (fun b hb => h.slot hb)
    (h.length_lt 0)
  rcases hloop with ⟨db', save, hloop, hsame⟩ | ⟨db', l₁, s, l₂, hloop, hsame, hfound⟩
  · refine Or.inl ⟨db', ?_, ⟨hsame.idx, hsame.dat, hsame.chainoff⟩⟩
    unfold Db.findFree
    refine Option.bind_eq_some_iff.mpr ⟨_, hread, ?_⟩
    exact Option.bind_eq_some_iff.mpr ⟨_, hloop, rfl⟩
  · obtain ⟨hcurrent, hl, hkeylen, hdatlen⟩ := hfound
    have hs := hcurrent.mem
    have hreads' : Reads db'.idx db'.dat T := hsame.reads h.reads
    have hreads := hreads'.writePtr (h.before hl).1 (h.reads.ptr_le s hs)
    have hoff : ((s.off : ℕ) : ℤ) ≠ 0 := by
      have hle := h.reads.recordsOff_le hs
      have hpos : 0 < recordsOff := by decide
      omega
    have hwrite : ∀ d : Db, d.writePtr (l₁.getLastD (chainOff 0) : ℕ) db'.ptrval = some { d with
        idx := pwrite d.idx (l₁.getLastD (chainOff 0)) (field ptrSz (T.ptr s.off))
        pos := l₁.getLastD (chainOff 0) + ptrSz } := fun d => by
      rw [hcurrent.ptrval]
      exact writePtr_eq (h.reads.ptr_le s hs)
    -- only the beginning of the free list, or a free record, is written
    have hnext : ∀ i : Fin nhashDef, Function.update T.ptr (l₁.getLastD (chainOff 0)) (T.ptr s.off)
        (chainOff i.succ) = T.ptr (chainOff i.succ) := by
      intro i
      refine Function.update_of_ne ?_ _ _
      rcases List.mem_cons.mp (getLastD_mem l₁ (chainOff 0)) with heq | hmem
      · rw [heq]
        exact fun hzero => Fin.succ_ne_zero i (chainOff_injective hzero)
      · exact fun heq => h.family.start_notMem i.succ 0
          (by rw [hl, heq]; exact List.mem_append_left _ hmem)
    unfold Db.findFree
    refine Or.inr (bind_spec hread (bind_spec hloop ?_))
    show ∃ r, (if (s.off : ℤ) = 0 then _ else _) = some r ∧ _
    rw [if_neg hoff]
    exact bind_spec (hwrite db') ⟨_, rfl, rfl, hsame.chainoff, hreads.laid.eq_end h.reads.laid,
      { T with ptr := Function.update T.ptr (l₁.getLastD (chainOff 0)) (T.ptr s.off) }, _, s,
      ⟨hs, hreads, h.family.unlink hl, fun j hj => ((h.family.mem_unlink hl).mp hj).2 rfl,
        h.filed.unlink h.family hl, h.keeps.of_free (l₁ ++ l₂), hcurrent.idxoff, hcurrent.datoff⟩,
      hkeylen, hdatlen, hnext⟩

/-- **A record is used again** for another key. -/
theorem Loose.reuse (h : Loose db T lists m s) (hkey : GoodKey key) (hdata : GoodData data)
    (hkeylen : s.keylen = key.length) (hdatlen : s.datlen = data.length + 1)
    (hchain : db.chainoff = chainOff (dbHash key).succ) (hnone : m key = none)
    (hlen : db.idx.length ≤ ptrMax) :
    ∃ d, (db.writeDat data (some db.datoff)).writeIdx key (some db.idxoff) (T.ptr db.chainoff)
        = some d ∧
      ∃ db', d.writePtr d.chainoff d.idxoff = some db' ∧
        ∃ T' lists', Holds db' T' lists' (Function.update m key (some data)) := by
  have hs := h.mem
  have hfits := h.reads.fits s hs
  have hsound := h.reads.sound s hs
  have hptr_le : T.ptr db.chainoff ≤ ptrMax := hchain ▸ h.reads.head_le _
  have hoff_le : db.idxoff ≤ ptrMax := by
    have hend := (h.reads.laid.within hs).2
    have hidxoff := h.idxoff
    omega
  have hreads₁ : Reads db.idx (pwrite db.dat db.datoff (data ++ [newline]))
      { T with data := Function.update T.data s.off data } := by
    rw [h.datoff]
    exact h.reads.writeDat hs ⟨hfits.keylen, hdatlen.symm, hfits.key_clean, hdata.clean⟩
  have hreads₂ : Reads (pwrite db.idx db.idxoff (recordBytes s (T.ptr db.chainoff) key))
      (pwrite db.dat db.datoff (data ++ [newline]))
      { T with
        ptr := Function.update T.ptr s.off (T.ptr db.chainoff)
        key := Function.update T.key s.off key
        data := Function.update T.data s.off data } := by
    rw [h.idxoff]
    exact hreads₁.writeIdx hs ⟨hkeylen.symm, (hreads₁.fits s hs).datlen, hkey.clean,
      (hreads₁.fits s hs).data_clean⟩ hptr_le
  have hreads₃ := hreads₂.writePtr (a := db.chainoff) (v := db.idxoff) (Or.inl ⟨_, hchain⟩) hoff_le
  have hfamily : Family 0 (Function.update (Function.update T.ptr s.off (T.ptr db.chainoff))
      db.chainoff db.idxoff) chainOff
      (Function.update lists (dbHash key).succ (s.off :: lists (dbHash key).succ)) := by
    rw [h.idxoff, hchain]
    exact h.family.push (h.reads.chainOff_ne hs 0) (h.reads.chainOff_ne hs) h.notMem _
  have hx : ¬((∃ t ∈ T.slots, t.off = s.off) ∧ s.off ≠ s.off) := fun hx => hx.2 rfl
  have hne := h.keeps.ne_of_none hnone
  exact ⟨_, writeIdx_eq hsound hkeylen.symm (by exact h.datoff) (by exact hdatlen.symm) hptr_le
    (some _), _, writePtr_eq hoff_le, _, _, hreads₃, hfamily,
    (h.filed.put hx hne).of_iff (back_iff ⟨s, hs, rfl⟩), h.keeps.put h.filed hx hne⟩

/-! ## `db_store`

A string of the same length is written over the old one. With another length the
record is deleted and a new one is appended. A key that is not there takes a free
record, if there is one of the same lengths, and otherwise one is appended as
well. In each case the chain of the key is the one that gets a record in front. -/

/-- **The string of a record is replaced**, in its place or in a new record. -/
theorem storeFound_spec (h : Holds db T lists m) (hcurrent : Current db T s) (hkey : GoodKey key)
    (hdata : GoodData data) (hchain : db.chainoff = chainOff (dbHash key).succ)
    (hi : lists (dbHash key).succ = l₁ ++ s.off :: l₂) (hs_key : T.key s.off = key)
    (hptroff : db.ptroff = (l₁.getLastD (chainOff (dbHash key).succ) : ℕ))
    (hlen : db.idx.length ≤ ptrMax) {flag : Db.Flag} (hflag : flag ≠ .insert) :
    ∃ r, db.storeFound key data flag = some r ∧ r.2 = 0 ∧
      ∃ T' lists', Holds r.1 T' lists' (Function.update m key (some data)) := by
  unfold Db.storeFound
  rw [if_neg hflag]
  by_cases hsize : data.length + 1 = db.datlen
  · have hs := hcurrent.mem
    have hmem : s.off ∈ lists (dbHash key).succ := by
      rw [hi]
      exact List.mem_append_right _ List.mem_cons_self
    have hfits : Fits s (T.key s.off) data := by
      have hold := h.reads.fits s hs
      exact ⟨hold.keylen, hsize.trans hcurrent.datlen, hold.key_clean, hdata.clean⟩
    have hreads : Reads db.idx (pwrite db.dat db.datoff (data ++ [newline]))
        { T with data := Function.update T.data s.off data } := by
      rw [hcurrent.datoff]
      exact h.reads.writeDat hs hfits
    refine ⟨_, if_neg fun hne => hne hsize, rfl, _, lists, hreads, h.family, h.filed, ?_⟩
    rw [← hs_key]
    exact h.keeps.write h.filed hmem data
  · obtain ⟨db₁, hdelete, hchain₁, hlen₁, T₁, lists₁, hholds₁⟩ :=
      doDelete_spec h hcurrent hi hptroff
    rw [hs_key] at hholds₁
    rw [hchain] at hchain₁
    have hread := hholds₁.reads.readPtr (Or.inl ⟨_, hchain₁⟩)
    have hholds₂ : Holds { db₁ with pos := db₁.chainoff + ptrSz } T₁ lists₁ _ :=
      ⟨hholds₁.reads, hholds₁.family, hholds₁.filed, hholds₁.keeps⟩
    obtain ⟨db', happend, T', lists', hholds⟩ := appendRecord_spec hholds₂ hkey hdata hchain₁
      (Function.update_self _ _ _)
      (show db₁.idx.length ≤ ptrMax from hlen₁ ▸ hlen)
    rw [Function.update_idem] at hholds
    rw [if_pos hsize]
    exact bind_spec hdelete (bind_spec hread (bind_spec happend ⟨_, rfl, rfl, T', lists', hholds⟩))

/-- **A key gets a record**, a free one of the same lengths or a new one. -/
theorem storeNew_spec (h : Holds db T lists m) (hkey : GoodKey key) (hdata : GoodData data)
    (hchain : db.chainoff = chainOff (dbHash key).succ) (hnone : m key = none)
    (hlen : db.idx.length ≤ ptrMax) {flag : Db.Flag} (hflag : flag ≠ .replace) :
    ∃ r, db.storeNew key data flag = some r ∧ r.2 = 0 ∧
      ∃ T' lists', Holds r.1 T' lists' (Function.update m key (some data)) := by
  unfold Db.storeNew
  rw [if_neg hflag]
  have hread := h.reads.readPtr (Or.inl ⟨_, hchain⟩)
  have hholds₀ : Holds { db with pos := db.chainoff + ptrSz } T lists m :=
    ⟨h.reads, h.family, h.filed, h.keeps⟩
  have hfree := findFree_spec hholds₀ key.length (data.length + 1)
  rcases hfree with ⟨db', hfree, hsame⟩ | ⟨⟨db', free⟩, hfree, hfound⟩
  · have hholds' : Holds db' T lists m := ⟨hsame.reads h.reads, h.family, h.filed, h.keeps⟩
    obtain ⟨db'', happend, T'', lists'', hholds⟩ := appendRecord_spec hholds' hkey hdata
      (hsame.chainoff.trans hchain) hnone (hsame.idx ▸ hlen)
    rw [hsame.chainoff] at happend
    exact bind_spec hread (bind_spec hfree (bind_spec happend ⟨_, rfl, rfl, T'', lists'', hholds⟩))
  · obtain ⟨rfl, hchain', hlen', T', lists', s, hloose, hkeylen, hdatlen, hnext⟩ := hfound
    replace hchain' : db'.chainoff = db.chainoff := hchain'
    obtain ⟨d, hidx, db'', hptr, hholds⟩ := hloose.reuse hkey hdata hkeylen hdatlen
      (hchain'.trans hchain) hnone (hlen' ▸ hlen)
    have hptrval : T'.ptr db'.chainoff = T.ptr db.chainoff := by
      rw [hchain', hchain]
      exact hnext (dbHash key)
    rw [hptrval] at hidx
    exact bind_spec hread (bind_spec hfree (bind_spec hidx (bind_spec hptr ⟨_, rfl, rfl, hholds⟩)))

/-! ## One call -/

/-- **`db_fetch`** gives the string of the key. -/
theorem fetch_spec (h : Holds db T lists m) (key : Bytes) :
    ∃ db', db.fetch key = some (db', m key) ∧ Holds db' T lists m := by
  unfold Db.fetch
  rcases findAndLock_spec h key with ⟨db', hfind, hlocked, hnone⟩ |
    ⟨db', l₁, s, l₂, hfind, hlocked, hcurrent, hl, hs_key, -⟩
  · refine ⟨db', Option.bind_eq_some_iff.mpr ⟨_, hfind, ?_⟩, hlocked.holds h⟩
    rw [hnone]
    rfl
  · have hholds := hlocked.holds h
    have hread := hholds.reads.readDat hcurrent.mem hcurrent.datoff hcurrent.datlen
    have hsome := h.keeps.eq_some h.filed (hl ▸ List.mem_append_right _ List.mem_cons_self)
    rw [hs_key] at hsome
    rw [hsome]
    exact ⟨{ db' with datbuf := T.data s.off }, Option.bind_eq_some_iff.mpr ⟨_, hfind,
      Option.bind_eq_some_iff.mpr ⟨_, hread, rfl⟩⟩, hholds.reads, hholds.family, hholds.filed,
      hholds.keeps⟩

/-- **`db_delete`** deletes the record of the key. -/
theorem delete_spec (h : Holds db T lists m) (key : Bytes) :
    (m key = none → ∃ db', db.delete key = some (db', -1) ∧ Holds db' T lists m) ∧
    (m key ≠ none → ∃ db', db.delete key = some (db', 0) ∧
      ∃ T' lists', Holds db' T' lists' (Function.update m key none)) := by
  unfold Db.delete
  rcases findAndLock_spec h key with ⟨db', hfind, hlocked, hnone⟩ |
    ⟨db', l₁, s, l₂, hfind, hlocked, hcurrent, hl, hs_key, hptroff⟩
  · refine ⟨fun _ => ⟨db', ?_, hlocked.holds h⟩, fun hsome => absurd hnone hsome⟩
    exact Option.bind_eq_some_iff.mpr ⟨_, hfind, rfl⟩
  · have hsome := h.keeps.eq_some h.filed (hl ▸ List.mem_append_right _ List.mem_cons_self)
    rw [hs_key] at hsome
    refine ⟨fun hnone => absurd (hsome.symm.trans hnone) (Option.some_ne_none _), fun _ => ?_⟩
    obtain ⟨db₁, hdelete, -, -, T₁, lists₁, hholds⟩ :=
      doDelete_spec (hlocked.holds h) hcurrent hl hptroff
    rw [hs_key] at hholds
    exact ⟨db₁, Option.bind_eq_some_iff.mpr ⟨_, hfind, Option.bind_eq_some_iff.mpr
      ⟨_, hdelete, rfl⟩⟩, T₁, lists₁, hholds⟩

/-- **`db_store`** stores the string, or says why it does not. -/
theorem store_spec (h : Holds db T lists m) (hkey : GoodKey key) (hdata : GoodData data)
    (hlen : db.idx.length ≤ ptrMax) (flag : Db.Flag) :
    (m key ≠ none → flag = .insert → ∃ db', db.store key data flag = some (db', 1) ∧
      Holds db' T lists m) ∧
    (m key = none → flag = .replace → ∃ db', db.store key data flag = some (db', -1) ∧
      Holds db' T lists m) ∧
    ((m key ≠ none → flag ≠ .insert) → (m key = none → flag ≠ .replace) →
      ∃ r, db.store key data flag = some r ∧ r.2 = 0 ∧
        ∃ T' lists', Holds r.1 T' lists' (Function.update m key (some data))) := by
  have hdata_pos := List.length_pos_iff.mpr hdata.ne_nil
  have hdata_lt : data.length < 1024 := hdata.length_lt
  have hrange : ¬(data.length + 1 < datlenMin ∨ datlenMax < data.length + 1) := by
    show ¬(data.length + 1 < 2 ∨ 1024 < data.length + 1)
    omega
  unfold Db.store
  rw [if_neg hrange]
  rcases findAndLock_spec h key with ⟨db', hfind, hlocked, hnone⟩ |
    ⟨db', l₁, s, l₂, hfind, hlocked, hcurrent, hl, hs_key, hptroff⟩
  · have hholds := hlocked.holds h
    rw [hfind]
    refine ⟨fun hsome => absurd hnone hsome, fun _ hflag => ⟨db', ?_, hholds⟩, fun _ hflag => ?_⟩
    · exact if_pos hflag
    · exact storeNew_spec hholds hkey hdata hlocked.chainoff hnone (hlocked.idx ▸ hlen)
        (hflag hnone)
  · have hholds := hlocked.holds h
    have hsome := h.keeps.eq_some h.filed (hl ▸ List.mem_append_right _ List.mem_cons_self)
    rw [hs_key] at hsome
    have hne : m key ≠ none := fun hnone => absurd (hsome.symm.trans hnone) (Option.some_ne_none _)
    rw [hfind]
    refine ⟨fun _ hflag => ⟨db', ?_, hholds⟩, fun hnone => absurd hnone hne, fun hflag _ => ?_⟩
    · exact if_pos hflag
    · exact storeFound_spec hholds hcurrent hkey hdata hlocked.chainoff hl hs_key hptroff
        (hlocked.idx ▸ hlen) (hflag hne)

/-! ## Runs

A call either does what it does to the map and gives what the map gives, or gives
what the library gives when it declines: `1` where a key is there and is to be
inserted, `-1` where it is not there and is to be replaced. The run follows from
the call by induction. -/

/-- A call of the library. -/
inductive Call
  | fetch (key : Bytes)
  | store (key data : Bytes) (flag : Db.Flag)
  | delete (key : Bytes)
  /-- The database is closed and opened. -/
  | reopen

/-- What a call gives: the string that was fetched, if there is one, or what is
returned. -/
inductive Answer
  | data (found : Option Bytes)
  | rc (rc : ℤ)
  deriving DecidableEq

/-- One call. -/
def Db.call (db : Db) : Call → Option (Db × Answer)
  | .fetch key => (db.fetch key).map fun (db, found) => (db, .data found)
  | .store key data flag => (db.store key data flag).map fun (db, rc) => (db, .rc rc)
  | .delete key => (db.delete key).map fun (db, rc) => (db, .rc rc)
  | .reopen => some (db.reopen, .rc 0)

/-- **One call of a map.** A key that is there is not inserted, and one that is not
there is not replaced. -/
def Store.call (m : Store) : Call → Store × Answer
  | .fetch key => (m, .data (m key))
  | .store key data flag =>
    match m key, flag with
    | some _, .insert => (m, .rc 1)
    | none, .replace => (m, .rc (-1))
    | _, _ => (Function.update m key (some data), .rc 0)
  | .delete key => if m key = none then (m, .rc (-1)) else (Function.update m key none, .rc 0)
  | .reopen => (m, .rc 0)

/-- Calls one after the other, with what they give. -/
def Db.run : Db → List Call → Option (List Answer)
  | _, [] => some []
  | db, c :: calls =>
    (db.call c).bind fun (db, answer) => (db.run calls).map (answer :: ·)

/-- What is asked of a call. -/
def Possible (db : Db) : Call → Prop
  | .store key data _ => GoodKey key ∧ GoodData data ∧ db.idx.length ≤ ptrMax
  | _ => True

theorem Store.call_insert (h : m key ≠ none) :
    m.call (.store key data .insert) = (m, .rc 1) := by
  obtain ⟨d, hd⟩ := Option.ne_none_iff_exists'.mp h
  simp only [Store.call, hd]

theorem Store.call_replace (h : m key = none) :
    m.call (.store key data .replace) = (m, .rc (-1)) := by
  simp only [Store.call, h]

/-- A string is stored. -/
theorem Store.call_store {flag : Db.Flag} (hinsert : m key ≠ none → flag ≠ .insert)
    (hreplace : m key = none → flag ≠ .replace) :
    m.call (.store key data flag) = (Function.update m key (some data), .rc 0) := by
  cases hm : m key with
  | none =>
    cases flag with
    | replace => exact absurd rfl (hreplace hm)
    | insert => simp only [Store.call, hm]
    | store => simp only [Store.call, hm]
  | some d =>
    cases flag with
    | insert => exact absurd rfl (hinsert (hm ▸ Option.some_ne_none d))
    | replace => simp only [Store.call, hm]
    | store => simp only [Store.call, hm]

/-- **One call does what it does to the map.** -/
theorem call_spec (h : Holds db T lists m) {c : Call} (hc : Possible db c) :
    ∃ db' T' lists', db.call c = some (db', (m.call c).2) ∧
      Holds db' T' lists' (m.call c).1 := by
  cases c with
  | fetch key =>
    obtain ⟨db', hfetch, hholds⟩ := fetch_spec h key
    exact ⟨db', T, lists, congrArg (Option.map _) hfetch, hholds⟩
  | store key data flag =>
    obtain ⟨hkey, hdata, hlen⟩ := hc
    obtain ⟨hinsert, hreplace, hstore⟩ := store_spec h hkey hdata hlen flag
    by_cases hi : m key ≠ none ∧ flag = .insert
    · obtain ⟨hm, rfl⟩ := hi
      obtain ⟨db', heq, hholds⟩ := hinsert hm rfl
      rw [Store.call_insert hm]
      exact ⟨db', T, lists, congrArg (Option.map _) heq, hholds⟩
    · by_cases hr : m key = none ∧ flag = .replace
      · obtain ⟨hm, rfl⟩ := hr
        obtain ⟨db', heq, hholds⟩ := hreplace hm rfl
        rw [Store.call_replace hm]
        exact ⟨db', T, lists, congrArg (Option.map _) heq, hholds⟩
      · have hi' : m key ≠ none → flag ≠ .insert := fun hm hflag => hi ⟨hm, hflag⟩
        have hr' : m key = none → flag ≠ .replace := fun hm hflag => hr ⟨hm, hflag⟩
        obtain ⟨⟨db', rc⟩, heq, hrc, T', lists', hholds⟩ := hstore hi' hr'
        obtain rfl : rc = 0 := hrc
        rw [Store.call_store hi' hr']
        exact ⟨db', T', lists', congrArg (Option.map _) heq, hholds⟩
  | delete key =>
    obtain ⟨hnone, hsome⟩ := delete_spec h key
    unfold Store.call
    simp only
    by_cases hm : m key = none
    · obtain ⟨db', heq, hholds⟩ := hnone hm
      rw [if_pos hm]
      exact ⟨db', T, lists, congrArg (Option.map _) heq, hholds⟩
    · obtain ⟨db', heq, T', lists', hholds⟩ := hsome hm
      rw [if_neg hm]
      exact ⟨db', T', lists', congrArg (Option.map _) heq, hholds⟩
  | reopen => exact ⟨_, T, lists, rfl, h.reads, h.family, h.filed, h.keeps⟩

/-- The fields of a new file. -/
theorem has_flatten_replicate {b : Bytes} {n k : ℕ} (hk : k < n) :
    Has (List.replicate n b).flatten (k * b.length) b := by
  induction n generalizing k with
  | zero => exact absurd hk (Nat.not_lt_zero k)
  | succ n ih =>
    rw [List.replicate_succ, List.flatten_cons]
    cases k with
    | zero =>
      exact ⟨⟨_, by rw [Nat.zero_mul, List.drop_zero]⟩, by rw [Nat.zero_mul]; exact Nat.zero_le _⟩
    | succ k =>
      obtain ⟨hfront, hle⟩ := ih (Nat.lt_of_succ_lt_succ hk)
      refine ⟨?_, ?_⟩
      · rw [Nat.succ_mul, Nat.add_comm, ← List.drop_drop, List.drop_left]
        exact hfront
      · rw [List.length_append, Nat.succ_mul]
        omega

/-- A new database holds nothing. -/
theorem holds_create :
    Holds dbCreate ⟨[], fun _ => 0, fun _ => [], fun _ => []⟩ (fun _ => []) (fun _ => none) := by
  have hlength : (field ptrSz 0).length = ptrSz := length_field_ptr (Nat.zero_le _)
  refine ⟨⟨fun i => ?_, ?_, ?_, ?_, rfl, ?_, ?_, fun _ => Nat.zero_le _, ?_⟩,
    ⟨fun _ => rfl, ?_, fun _ => List.nodup_nil, ?_, chainOff_injective, ?_⟩,
    ⟨fun a => ?_, ?_, ?_, ?_⟩, fun k d => ?_⟩
  · have hhas := has_flatten_replicate (b := field ptrSz 0) i.isLt
    rw [hlength] at hhas
    exact hhas.append [newline]
  · exact fun s hs => absurd hs List.not_mem_nil
  · exact fun s hs => absurd hs List.not_mem_nil
  · show recordsOff = ((List.replicate (nhashDef + 1) (field ptrSz 0)).flatten ++ [newline]).length
    rw [List.length_append, List.length_flatten, List.map_replicate, hlength, List.sum_replicate]
    rfl
  · exact fun s hs => absurd hs List.not_mem_nil
  · exact fun s hs => absurd hs List.not_mem_nil
  · exact fun s hs => absurd hs List.not_mem_nil
  · exact fun _ => List.not_mem_nil
  · exact fun _ _ _ x hx => absurd hx List.not_mem_nil
  · exact fun _ _ => List.not_mem_nil
  · exact ⟨fun ⟨_, ha⟩ => absurd ha List.not_mem_nil, fun ⟨s, hs, _⟩ => absurd hs List.not_mem_nil⟩
  · exact fun _ a ha => absurd ha List.not_mem_nil
  · exact fun _ a ha => absurd ha List.not_mem_nil
  · exact fun a ha => absurd ha List.not_mem_nil
  · exact iff_of_false (fun heq => absurd heq.symm (Option.some_ne_none _))
      fun ⟨a, ha, _⟩ => absurd ha List.not_mem_nil

/-- The files after a call. -/
def Db.step (db : Db) (c : Call) : Option Db := (db.call c).map Prod.fst

/-- The run of a database that holds a map. -/
theorem run_spec (h : Holds db T lists m) {calls : List Call}
    (hcalls : Runs.Guarded Db.step Possible db calls) :
    db.run calls = some (Runs.answers Store.call m calls).2 ∧
      ∃ db' T' lists', Runs.exec Db.step db calls = some db' ∧
        Holds db' T' lists' (Runs.answers Store.call m calls).1 := by
  induction calls generalizing db T lists m with
  | nil => exact ⟨rfl, db, T, lists, rfl, h⟩
  | cons c calls ih =>
    obtain ⟨db', T', lists', hcall, hholds⟩ := call_spec h hcalls.1
    have hstep : db.step c = some db' := by
      unfold Db.step
      rw [hcall]
      rfl
    obtain ⟨hrun, db'', T'', lists'', hexec, hholds'⟩ := ih hholds (hcalls.2 db' hstep)
    refine ⟨?_, db'', T'', lists'', Runs.exec_cons_eq_some.mpr ⟨db', hstep, hexec⟩, hholds'⟩
    unfold Db.run
    rw [hcall, Option.bind_some]
    exact congrArg (Option.map _) hrun

/-- **The database is a map.** In every run of calls, from a new database on, each
call gives what it gives of a map from keys to strings, and none of them ends the
process. -/
theorem db_run {calls : List Call}
    (hcalls : Runs.Guarded Db.step Possible dbCreate calls) :
    dbCreate.run calls = some (Runs.answers Store.call (fun _ => none) calls).2 :=
  (run_spec holds_create hcalls).1

instance (key : Bytes) : Decidable (GoodKey key) :=
  letI : Decidable (∀ c ∈ key, c ≠ sep ∧ c ≠ nul) := List.decidableBAll _ _
  decidable_of_iff (key ≠ [] ∧ key.length ≤ 1000 ∧ ∀ c ∈ key, c ≠ sep ∧ c ≠ nul)
    ⟨fun h => ⟨h.1, h.2.1, h.2.2⟩, fun h => ⟨h.ne_nil, h.length_le, h.clean⟩⟩

instance (data : Bytes) : Decidable (GoodData data) :=
  decidable_of_iff (data ≠ [] ∧ data.length < datlenMax ∧ nul ∉ data)
    ⟨fun h => ⟨h.1, h.2.1, h.2.2⟩, fun h => ⟨h.ne_nil, h.length_lt, h.clean⟩⟩

instance (db : Db) : (c : Call) → Decidable (Possible db c)
  | .store _ _ _ => inferInstanceAs (Decidable (_ ∧ _ ∧ _))
  | .fetch _ => isTrue trivial
  | .delete _ => isTrue trivial
  | .reopen => isTrue trivial

/-- A record is deleted and used again for another key. -/
theorem db_run_reused :
    dbCreate.run [.store [97] [49, 50] .insert, .delete [97], .store [99] [52, 53] .store, .reopen,
      .fetch [97], .fetch [99]]
    = some [.rc 0, .rc 0, .rc 0, .rc 0, .data none, .data (some [52, 53])] :=
  (db_run (by decide +kernel)).trans (by decide)

end ApueDb
