import LinuxStudy.ApueDb
import LinuxStudy.Chains

/-!
# Records in the files

A record of the database has a place in the index file and one in the data file,
of lengths that never change (`Slot`): it is deleted and used again where it
stands. What changes is its pointer, its key and its string. `Table` is the files
with these taken apart, and `Reads` says that the files read as a table: the
records stand one behind the other in both files, with nothing between them.

So a pointer that is written is written in its own field, and a record in its own
place, and every other record is read as before (`Reads.writePtr`,
`Reads.writeIdx`, `Reads.writeDat`, `Reads.appendRecord`).
-/

namespace ApueDb

open FileBytes

/-! ## One behind the other -/

section Laid

variable {σ : Type} (off size : σ → ℕ)

/-- **One behind the other** from one place to another. -/
def Laid : ℕ → List σ → ℕ → Prop
  | a, [], b => a = b
  | a, s :: l, b => off s = a ∧ Laid (a + size s) l b

variable {off size} {a b : ℕ} {s t : σ} {l : List σ}

theorem Laid.append (h : Laid off size a l b) (hs : off s = b) :
    Laid off size a (l ++ [s]) (b + size s) := by
  induction l generalizing a with
  | nil => exact ⟨hs.trans (Eq.symm h), congrArg (· + size s) h⟩
  | cons t l ih => exact ⟨h.1, ih h.2⟩

theorem Laid.le (h : Laid off size a l b) : a ≤ b := by
  induction l generalizing a with
  | nil => exact Nat.le_of_eq h
  | cons t l ih => exact Nat.le_trans (Nat.le_add_right _ _) (ih h.2)

theorem Laid.within (h : Laid off size a l b) (hs : s ∈ l) : a ≤ off s ∧ off s + size s ≤ b := by
  induction l generalizing a with
  | nil => exact absurd hs List.not_mem_nil
  | cons t l ih =>
    rcases List.mem_cons.mp hs with rfl | hs
    · rw [h.1]
      exact ⟨Nat.le_refl _, h.2.le⟩
    · obtain ⟨hle, hend⟩ := ih h.2 hs
      exact ⟨Nat.le_trans (Nat.le_add_right _ _) hle, hend⟩

/-- **Two of them do not overlap.** -/
theorem Laid.apart (h : Laid off size a l b) (hs : s ∈ l) (ht : t ∈ l) (hne : s ≠ t) :
    off s + size s ≤ off t ∨ off t + size t ≤ off s := by
  induction l generalizing a with
  | nil => exact absurd hs List.not_mem_nil
  | cons u l ih =>
    rcases List.mem_cons.mp hs with rfl | hs'
    · rcases List.mem_cons.mp ht with rfl | ht'
      · exact absurd rfl hne
      · rw [h.1]
        exact Or.inl (h.2.within ht').1
    · rcases List.mem_cons.mp ht with rfl | ht'
      · rw [h.1]
        exact Or.inr (h.2.within hs').1
      · exact ih h.2 hs' ht'

end Laid

/-! ## Slots

A slot is what of a record never changes: the two places and the two lengths. The
table has beside it what does change, as functions of the slot's place, so that a
write is an update of one function at one place. The files read as a table if at
each place the bytes are those the table says; and a write keeps this because the
bytes at other places are elsewhere. -/

/-- **Where a record is**, and how long its key is and its string, with the
newline. -/
structure Slot where
  off : ℕ
  datoff : ℕ
  keylen : ℕ
  datlen : ℕ
  deriving DecidableEq

namespace Slot

/-- The length of the text. -/
def idxlen (s : Slot) : ℕ :=
  s.keylen + (1 + ((decimal s.datoff).length + (1 + ((decimal s.datlen).length + 1))))

/-- The length of the record. -/
def size (s : Slot) : ℕ := ptrSz + (idxlenSz + s.idxlen)

end Slot

/-- Where the records begin. -/
abbrev recordsOff : ℕ := (nhashDef + 1) * ptrSz + 1

/-- **What the files say.** -/
structure Table where
  slots : List Slot
  /-- The pointer at a place: of the free list, of the hash table, or of a record. -/
  ptr : ℕ → ℕ
  /-- The key and the string of the record at a place. -/
  key : ℕ → Bytes
  data : ℕ → Bytes

/-- What a key and a string are to be like. -/
structure Fits (s : Slot) (key data : Bytes) : Prop where
  keylen : key.length = s.keylen
  datlen : data.length + 1 = s.datlen
  key_clean : ∀ c ∈ key, c ≠ sep ∧ c ≠ nul
  data_clean : nul ∉ data

/-- What a slot is to be like. -/
structure Slot.Sound (s : Slot) : Prop where
  idxlen_min : idxlenMin ≤ s.idxlen
  idxlen_max : s.idxlen ≤ idxlenMax
  datlen_min : datlenMin ≤ s.datlen
  datlen_max : s.datlen ≤ datlenMax

/-- The record of a slot. -/
def recordBytes (s : Slot) (ptr : ℕ) (key : Bytes) : Bytes :=
  field ptrSz ptr ++ (field idxlenSz s.idxlen ++ Db.recordText key s.datoff s.datlen)

/-- The places where the chains begin: the free list, and the hash table. -/
def chainOff (i : Fin (nhashDef + 1)) : ℕ := i * ptrSz

/-- **The files read as a table.** -/
structure Reads (idx dat : Bytes) (T : Table) : Prop where
  heads : ∀ i, Has idx (chainOff i) (field ptrSz (T.ptr (chainOff i)))
  record : ∀ s ∈ T.slots, Has idx s.off (recordBytes s (T.ptr s.off) (T.key s.off))
  content : ∀ s ∈ T.slots, Has dat s.datoff (T.data s.off ++ [newline])
  laid : Laid Slot.off Slot.size recordsOff T.slots idx.length
  datLaid : Laid Slot.datoff Slot.datlen 0 T.slots dat.length
  sound : ∀ s ∈ T.slots, s.Sound
  fits : ∀ s ∈ T.slots, Fits s (T.key s.off) (T.data s.off)
  head_le : ∀ i, T.ptr (chainOff i) ≤ ptrMax
  ptr_le : ∀ s ∈ T.slots, T.ptr s.off ≤ ptrMax

variable {idx dat : Bytes} {T : Table} {s t : Slot} {key data : Bytes} {ptr v : ℕ} {db : Db}
  {i j : Fin (nhashDef + 1)}

/-! ## Sizes

A pointer is printed into seven characters, so it must have no more than seven
digits. `_db_writeptr` ends the process where a pointer is greater than `PTR_MAX`,
so that no chain leads to a record that begins behind it. The length of an index
record is printed into four characters, which is enough as no record is longer
than `IDXLEN_MAX`. -/

theorem length_field_ptr (h : ptr ≤ ptrMax) : (field ptrSz ptr).length = ptrSz :=
  length_field (by decide) (Nat.lt_of_le_of_lt h (by decide))

theorem Slot.Sound.length_field (h : s.Sound) : (field idxlenSz s.idxlen).length = idxlenSz :=
  FileBytes.length_field (by decide) (Nat.lt_of_le_of_lt h.idxlen_max (by decide))

theorem length_recordText (hkey : key.length = s.keylen) :
    (Db.recordText key s.datoff s.datlen).length = s.idxlen := by
  unfold Db.recordText Slot.idxlen
  rw [List.length_append, List.length_cons, List.length_append, List.length_cons,
    List.length_append, List.length_singleton, hkey]
  omega

theorem length_recordBytes (hs : s.Sound) (hkey : key.length = s.keylen) (hptr : ptr ≤ ptrMax) :
    (recordBytes s ptr key).length = s.size := by
  unfold recordBytes Slot.size
  rw [List.length_append, List.length_append, length_recordText hkey, length_field_ptr hptr,
    hs.length_field]

theorem size_pos (s : Slot) : ptrSz + idxlenSz < s.size := by
  unfold Slot.size Slot.idxlen
  omega

theorem chainOff_lt (i : Fin (nhashDef + 1)) : chainOff i + ptrSz < recordsOff := by
  have hi := i.isLt
  show (i : ℕ) * 7 + 7 < 967
  change (i : ℕ) < 138 at hi
  omega

theorem chainOff_apart (h : i ≠ j) :
    chainOff i + ptrSz ≤ chainOff j ∨ chainOff j + ptrSz ≤ chainOff i := by
  have hne : (i : ℕ) ≠ j := fun heq => h (Fin.ext heq)
  show (i : ℕ) * 7 + 7 ≤ j * 7 ∨ (j : ℕ) * 7 + 7 ≤ i * 7
  omega

theorem chainOff_injective : Function.Injective chainOff := by
  intro i j h
  by_contra hne
  have hsize : 0 < ptrSz := by decide
  have := chainOff_apart hne
  omega

namespace Reads

theorem recordsOff_le (h : Reads idx dat T) (hs : s ∈ T.slots) : recordsOff ≤ s.off :=
  (h.laid.within hs).1

theorem eq_of_off (h : Reads idx dat T) (hs : s ∈ T.slots) (ht : t ∈ T.slots)
    (heq : s.off = t.off) : s = t := by
  by_contra hne
  have hsize := size_pos s
  have hsize' := size_pos t
  have := h.laid.apart hs ht hne
  omega

theorem chainOff_ne (h : Reads idx dat T) (hs : s ∈ T.slots) (i : Fin (nhashDef + 1)) :
    s.off ≠ chainOff i := by
  have hle := h.recordsOff_le hs
  have hlt := chainOff_lt i
  omega

theorem recordsOff_le_length (h : Reads idx dat T) : recordsOff ≤ idx.length := h.laid.le

end Reads

/-! ## What is read

What is read from a record is its text without the newline, cut at the separators.
A key may not have a separator in it, since the cuts are looked for from the
front, and no terminator, since `db_store` measures it by `strlen`. Then the cuts
come out where the fields were put together. -/

theorem cstring_of_clean {b : Bytes} (h : nul ∉ b) : cstring b = b :=
  List.takeWhile_eq_self_iff.mpr fun _ hc => decide_eq_true fun heq => h (heq ▸ hc)

theorem cut_append {c : UInt8} {a b : Bytes} (h : c ∉ a) : cut c (a ++ c :: b) = some (a, b) := by
  have hall : ∀ d ∈ a, decide (d ≠ c) = true := fun d hd => decide_eq_true fun heq => h (heq ▸ hd)
  unfold cut
  rw [if_pos (List.mem_append_right _ List.mem_cons_self),
    List.takeWhile_append_of_pos hall, List.dropWhile_append_of_pos hall]
  simp

theorem nul_notMem_field (w n : ℕ) : nul ∉ field w n := by
  unfold field
  intro hmem
  rcases List.mem_append.mp hmem with hmem | hmem
  · exact absurd (List.eq_of_mem_replicate hmem) (by decide)
  · exact notMem_decimal (by decide) n hmem

theorem seek_natCast (n : ℕ) : seek n = some n := by
  unfold seek
  rw [if_pos (Int.natCast_nonneg n), Int.toNat_natCast]

theorem atoi_cstring_field (w n : ℕ) : atoi (cstring (field w n)) = n := by
  rw [cstring_of_clean (nul_notMem_field w n), atoi_field]

/-- **A pointer is read.** -/
theorem readPtr_of_has {a : ℕ} (h : Has db.idx a (field ptrSz ptr)) (hptr : ptr ≤ ptrMax) :
    db.readPtr a = some ({ db with pos := a + ptrSz }, (ptr : ℤ)) := by
  have hread := h.pread_eq
  rw [length_field_ptr hptr] at hread
  unfold Db.readPtr
  simp [seek_natCast, hread, length_field_ptr hptr, atoi_cstring_field]

/-- The handle, when a record was read. -/
def Db.at (db : Db) (s : Slot) (key : Bytes) (ptr : ℕ) : Db :=
  { db with
    pos := s.off + ptrSz + idxlenSz + s.idxlen
    idxoff := s.off
    idxlen := s.idxlen
    idxbuf := key
    datoff := s.datoff
    datlen := s.datlen
    ptrval := ptr }

theorem recordText_eq (key : Bytes) (datoff datlen : ℕ) :
    Db.recordText key datoff datlen
      = (key ++ sep :: (decimal datoff ++ sep :: decimal datlen)) ++ [newline] := by
  unfold Db.recordText
  rw [List.append_assoc, List.cons_append, List.append_assoc, List.cons_append]

/-- **A record is read.** -/
theorem readIdx_of_has (h : Has db.idx s.off (recordBytes s ptr key)) (hs : s.Sound)
    (hfits : Fits s key data) (hptr : ptr ≤ ptrMax) {offset : ℤ}
    (hoff : (if offset = 0 then some db.pos else seek offset) = some s.off) :
    db.readIdx offset = some (db.at s key ptr, (ptr : ℤ)) := by
  have hlength := length_recordText hfits.keylen
  have hfront : (field ptrSz ptr ++ field idxlenSz s.idxlen).length = ptrSz + idxlenSz := by
    rw [List.length_append, length_field_ptr hptr, hs.length_field]
  unfold recordBytes at h
  rw [← List.append_assoc] at h
  obtain ⟨hhas, htext⟩ := has_append.mp h
  have hread := hhas.pread_eq
  rw [hfront] at hread htext
  have hread_text := htext.pread_eq
  rw [hlength] at hread_text
  have htake : (field ptrSz ptr ++ field idxlenSz s.idxlen).take ptrSz = field ptrSz ptr :=
    List.take_left' (length_field_ptr hptr)
  have hdrop : (field ptrSz ptr ++ field idxlenSz s.idxlen).drop ptrSz = field idxlenSz s.idxlen :=
    List.drop_left' (length_field_ptr hptr)
  have hkey : ∀ c ∈ key ++ sep :: (decimal s.datoff ++ sep :: decimal s.datlen), c ≠ nul := by
    intro c hc heq
    subst heq
    simp only [List.mem_append, List.mem_cons] at hc
    rcases hc with hc | hc | hc | hc | hc
    · exact (hfits.key_clean _ hc).2 rfl
    · exact absurd hc (by decide)
    · exact notMem_decimal (by decide) _ hc
    · exact absurd hc (by decide)
    · exact notMem_decimal (by decide) _ hc
  have hcut₁ : cut sep (key ++ sep :: (decimal s.datoff ++ sep :: decimal s.datlen))
      = some (key, decimal s.datoff ++ sep :: decimal s.datlen) :=
    cut_append fun hmem => (hfits.key_clean _ hmem).1 rfl
  have hcut₂ : cut sep (decimal s.datoff ++ sep :: decimal s.datlen)
      = some (decimal s.datoff, decimal s.datlen) :=
    cut_append (notMem_decimal (by decide) _)
  have hmin := hs.idxlen_min
  have hmax := hs.idxlen_max
  have hdat_pos : 0 < s.datlen := Nat.lt_of_lt_of_le (by decide) hs.datlen_min
  have hdat_max := hs.datlen_max
  have hseparators : Db.findSeparators (key ++ sep :: (decimal s.datoff ++ sep :: decimal s.datlen))
      = some (key, s.datoff, s.datlen) := by
    unfold Db.findSeparators
    simp only [hcut₁, hcut₂, Option.bind_some, atoi_decimal, Int.toNat_natCast]
    have hdatoff : ¬(s.datoff : ℤ) < 0 := by omega
    have hdatlen : ¬((s.datlen : ℤ) ≤ 0 ∨ (datlenMax : ℤ) < s.datlen) := by omega
    rw [if_neg (notMem_decimal (by decide) _), if_neg hdatoff, if_neg hdatlen]
  have hlast : (Db.recordText key s.datoff s.datlen).getLast? = some newline := by
    rw [recordText_eq, List.getLast?_concat]
  have hdropLast : cstring (Db.recordText key s.datoff s.datlen).dropLast
      = key ++ sep :: (decimal s.datoff ++ sep :: decimal s.datlen) := by
    rw [recordText_eq, List.dropLast_concat]
    exact cstring_of_clean fun hmem => hkey _ hmem rfl
  have hrange : ¬((s.idxlen : ℤ) < idxlenMin ∨ (idxlenMax : ℤ) < s.idxlen) := by omega
  unfold Db.readIdx
  rw [hoff]
  simp only [Option.bind_some, hread, hfront, htake, hdrop, atoi_cstring_field, Int.toNat_natCast,
    Nat.add_assoc, hread_text, hlength, hlast, hdropLast, hseparators, Option.map_some]
  rw [if_neg (by simp), if_neg hrange, if_neg (by simp)]
  unfold Db.at
  simp only [Nat.add_assoc]

/-! ## What is written -/

/-- A place that has a pointer. -/
def Place (T : Table) (a : ℕ) : Prop := (∃ i, a = chainOff i) ∨ ∃ s ∈ T.slots, a = s.off

namespace Reads

theorem place_within (h : Reads idx dat T) {a : ℕ} (ha : Place T a) : a + ptrSz ≤ idx.length := by
  have hle := h.recordsOff_le_length
  rcases ha with ⟨i, rfl⟩ | ⟨s, hs, rfl⟩
  · have hlt := chainOff_lt i
    omega
  · have hend := (h.laid.within hs).2
    have hsize := size_pos s
    omega

theorem place_le (h : Reads idx dat T) {a : ℕ} (ha : Place T a) : T.ptr a ≤ ptrMax := by
  rcases ha with ⟨i, rfl⟩ | ⟨s, hs, rfl⟩
  · exact h.head_le i
  · exact h.ptr_le s hs

/-- Other places are elsewhere. -/
theorem place_apart (h : Reads idx dat T) {a : ℕ} (ha : Place T a) (hs : s ∈ T.slots)
    (hne : a ≠ s.off) : s.off + s.size ≤ a ∨ a + ptrSz ≤ s.off := by
  rcases ha with ⟨i, rfl⟩ | ⟨t, ht, rfl⟩
  · have hlt := chainOff_lt i
    have hle := h.recordsOff_le hs
    omega
  · have hsize := size_pos t
    have hne' : s ≠ t := fun heq => hne (heq ▸ rfl)
    have := h.laid.apart hs ht hne'
    omega

theorem place_apart_head (h : Reads idx dat T) {a : ℕ} (ha : Place T a) (hne : a ≠ chainOff i) :
    chainOff i + ptrSz ≤ a ∨ a + ptrSz ≤ chainOff i := by
  rcases ha with ⟨j, rfl⟩ | ⟨t, ht, rfl⟩
  · exact chainOff_apart fun heq => hne (heq ▸ rfl)
  · have hlt := chainOff_lt i
    have hle := h.recordsOff_le ht
    omega

theorem length_record (h : Reads idx dat T) (hs : s ∈ T.slots) :
    (recordBytes s (T.ptr s.off) (T.key s.off)).length = s.size :=
  length_recordBytes (h.sound s hs) (h.fits s hs).keylen (h.ptr_le s hs)

/-- **A pointer is written.** -/
theorem writePtr (h : Reads idx dat T) {a : ℕ} (ha : Place T a) (hv : v ≤ ptrMax) :
    Reads (pwrite idx a (field ptrSz v)) dat { T with ptr := Function.update T.ptr a v } := by
  have hwithin := h.place_within ha
  have hlength := length_field_ptr hv
  have hle : a ≤ idx.length := by omega
  refine ⟨fun i => ?_, fun s hs => ?_, h.content, ?_, h.datLaid, h.sound, h.fits, fun i => ?_,
    fun s hs => ?_⟩
  · by_cases heq : a = chainOff i
    · subst heq
      show Has _ _ (field ptrSz (Function.update T.ptr _ v _))
      rw [Function.update_self]
      exact has_pwrite_self hle
    · show Has _ _ (field ptrSz (Function.update T.ptr _ v _))
      rw [Function.update_of_ne (Ne.symm heq)]
      refine (h.heads i).pwrite hle ?_
      rw [hlength, length_field_ptr (h.head_le i)]
      exact h.place_apart_head ha heq
  · by_cases heq : a = s.off
    · subst heq
      show Has _ _ (recordBytes s (Function.update T.ptr _ v _) _)
      rw [Function.update_self]
      have hrest := (has_append.mp (h.record s hs)).2
      rw [length_field_ptr (h.ptr_le s hs)] at hrest
      refine has_append.mpr ⟨has_pwrite_self hle, ?_⟩
      rw [hlength]
      exact hrest.pwrite hle (Or.inr (by rw [hlength]))
    · show Has _ _ (recordBytes s (Function.update T.ptr _ v _) _)
      rw [Function.update_of_ne (Ne.symm heq)]
      refine (h.record s hs).pwrite hle ?_
      rw [hlength, h.length_record hs]
      exact h.place_apart ha hs heq
  · rw [length_pwrite (by rw [hlength]; exact hwithin)]
    exact h.laid
  · show Function.update T.ptr a v _ ≤ ptrMax
    rw [Function.update_apply]
    split
    · exact hv
    · exact h.head_le i
  · show Function.update T.ptr a v _ ≤ ptrMax
    rw [Function.update_apply]
    split
    · exact hv
    · exact h.ptr_le s hs

/-- **A record is written** where it was. -/
theorem writeIdx (h : Reads idx dat T) (hs : s ∈ T.slots) (hfits : Fits s key (T.data s.off))
    (hv : v ≤ ptrMax) : Reads (pwrite idx s.off (recordBytes s v key)) dat { T with
      ptr := Function.update T.ptr s.off v
      key := Function.update T.key s.off key } := by
  have hlength := length_recordBytes (h.sound s hs) hfits.keylen hv
  have hwithin := (h.laid.within hs).2
  have hle : s.off ≤ idx.length := by omega
  refine ⟨fun i => ?_, fun t ht => ?_, h.content, ?_, h.datLaid, h.sound, fun t ht => ?_,
    fun i => ?_, fun t ht => ?_⟩
  · show Has _ _ (field ptrSz (Function.update T.ptr _ v _))
    rw [Function.update_of_ne (h.chainOff_ne hs i).symm]
    refine (h.heads i).pwrite hle (Or.inl ?_)
    have hlt := chainOff_lt i
    have hoff := h.recordsOff_le hs
    rw [length_field_ptr (h.head_le i)]
    omega
  · show Has _ _ (recordBytes t (Function.update T.ptr _ v _) (Function.update T.key _ key _))
    by_cases heq : t = s
    · subst heq
      rw [Function.update_self, Function.update_self]
      exact has_pwrite_self hle
    · have hoff : t.off ≠ s.off := fun hoff => heq (h.eq_of_off ht hs hoff)
      rw [Function.update_of_ne hoff, Function.update_of_ne hoff]
      refine (h.record t ht).pwrite hle ?_
      rw [hlength, h.length_record ht]
      exact h.laid.apart ht hs heq
  · rw [length_pwrite (by rw [hlength]; exact hwithin)]
    exact h.laid
  · show Fits t (Function.update T.key _ key _) _
    by_cases heq : t = s
    · subst heq
      rwa [Function.update_self]
    · rw [Function.update_of_ne fun hoff => heq (h.eq_of_off ht hs hoff)]
      exact h.fits t ht
  · show Function.update T.ptr _ v _ ≤ ptrMax
    rw [Function.update_of_ne (h.chainOff_ne hs i).symm]
    exact h.head_le i
  · show Function.update T.ptr _ v _ ≤ ptrMax
    rw [Function.update_apply]
    split
    · exact hv
    · exact h.ptr_le t ht

/-- **A string is written** where it was. -/
theorem writeDat (h : Reads idx dat T) (hs : s ∈ T.slots) (hfits : Fits s (T.key s.off) data) :
    Reads idx (pwrite dat s.datoff (data ++ [newline]))
      { T with data := Function.update T.data s.off data } := by
  have hlength : (data ++ [newline]).length = s.datlen := by
    rw [List.length_append]
    exact hfits.datlen
  have hwithin := (h.datLaid.within hs).2
  have hle : s.datoff ≤ dat.length := by omega
  refine ⟨h.heads, h.record, fun t ht => ?_, h.laid, ?_, h.sound, fun t ht => ?_, h.head_le,
    h.ptr_le⟩
  · show Has _ _ (Function.update T.data _ data _ ++ _)
    by_cases heq : t = s
    · subst heq
      rw [Function.update_self]
      exact has_pwrite_self hle
    · rw [Function.update_of_ne fun hoff => heq (h.eq_of_off ht hs hoff)]
      refine (h.content t ht).pwrite hle ?_
      rw [hlength, List.length_append]
      have hdatlen := (h.fits t ht).datlen
      have := h.datLaid.apart ht hs heq
      show t.datoff + ((T.data t.off).length + 1) ≤ _ ∨ _
      omega
  · rw [length_pwrite (by rw [hlength]; exact hwithin)]
    exact h.datLaid
  · show Fits t _ (Function.update T.data _ data _)
    by_cases heq : t = s
    · subst heq
      rwa [Function.update_self]
    · rw [Function.update_of_ne fun hoff => heq (h.eq_of_off ht hs hoff)]
      exact h.fits t ht

/-- **A record is appended.** -/
theorem appendRecord (h : Reads idx dat T) (hoff : s.off = idx.length)
    (hdatoff : s.datoff = dat.length) (hs : s.Sound) (hfits : Fits s key data) (hv : v ≤ ptrMax) :
    Reads (idx ++ recordBytes s v key) (dat ++ (data ++ [newline]))
      { slots := T.slots ++ [s]
        ptr := Function.update T.ptr s.off v
        key := Function.update T.key s.off key
        data := Function.update T.data s.off data } := by
  have hlength := length_recordBytes hs hfits.keylen hv
  have hne : ∀ t ∈ T.slots, t.off ≠ s.off := by
    intro t ht heq
    have hend := (h.laid.within ht).2
    have hsize := size_pos t
    omega
  have hhead : ∀ i, chainOff i ≠ s.off := by
    intro i heq
    have hlt := chainOff_lt i
    have hle := h.recordsOff_le_length
    omega
  have hcases : ∀ t ∈ T.slots ++ [s], t = s ∨ t ∈ T.slots := by
    intro t ht
    rcases List.mem_append.mp ht with ht | ht
    · exact Or.inr ht
    · exact Or.inl (List.mem_singleton.mp ht)
  refine ⟨fun i => ?_, fun t ht => ?_, fun t ht => ?_, ?_, ?_, fun t ht => ?_, fun t ht => ?_,
    fun i => ?_, fun t ht => ?_⟩
  · show Has _ _ (field ptrSz (Function.update T.ptr _ v _))
    rw [Function.update_of_ne (hhead i)]
    exact (h.heads i).append _
  · show Has _ _ (recordBytes t (Function.update T.ptr _ v _) (Function.update T.key _ key _))
    rcases hcases t ht with rfl | ht
    · rw [Function.update_self, Function.update_self, hoff]
      exact has_append_self _ _
    · rw [Function.update_of_ne (hne t ht), Function.update_of_ne (hne t ht)]
      exact (h.record t ht).append _
  · show Has _ _ (Function.update T.data _ data _ ++ _)
    rcases hcases t ht with rfl | ht
    · rw [Function.update_self, hdatoff]
      exact has_append_self _ _
    · rw [Function.update_of_ne (hne t ht)]
      exact (h.content t ht).append _
  · rw [List.length_append, hlength]
    exact h.laid.append hoff
  · rw [List.length_append, List.length_append, List.length_singleton, hfits.datlen]
    exact h.datLaid.append hdatoff
  · rcases hcases t ht with rfl | ht
    · exact hs
    · exact h.sound t ht
  · show Fits t (Function.update T.key _ key _) (Function.update T.data _ data _)
    rcases hcases t ht with rfl | ht
    · rwa [Function.update_self, Function.update_self]
    · rw [Function.update_of_ne (hne t ht), Function.update_of_ne (hne t ht)]
      exact h.fits t ht
  · show Function.update T.ptr _ v _ ≤ ptrMax
    rw [Function.update_of_ne (hhead i)]
    exact h.head_le i
  · show Function.update T.ptr _ v _ ≤ ptrMax
    rcases hcases t ht with rfl | ht
    · rwa [Function.update_self]
    · rw [Function.update_of_ne (hne t ht)]
      exact h.ptr_le t ht

end Reads

/-! ## The functions of the handle

Here the reads and writes are those of the handle, with the fields that they set.
A function of the library is put together from these. -/

theorem writePtr_eq {a : ℕ} (hv : v ≤ ptrMax) :
    db.writePtr a v = some { db with
      idx := pwrite db.idx a (field ptrSz v), pos := a + ptrSz } := by
  have hrange : ¬((v : ℤ) < 0 ∨ (ptrMax : ℤ) < v) := by omega
  unfold Db.writePtr
  rw [if_neg hrange, seek_natCast, Option.map_some, Int.toNat_natCast]

theorem writeIdx_eq (hs : s.Sound) (hkey : key.length = s.keylen) (hdatoff : db.datoff = s.datoff)
    (hdatlen : db.datlen = s.datlen) (hv : v ≤ ptrMax) (offset : Option ℕ) :
    db.writeIdx key offset v = some { db with
      idx := pwrite db.idx (offset.getD db.idx.length) (recordBytes s v key)
      pos := offset.getD db.idx.length + ptrSz + idxlenSz + s.idxlen
      idxbuf := Db.recordText key s.datoff s.datlen
      idxoff := offset.getD db.idx.length
      ptrval := v } := by
  have hrange : ¬((v : ℤ) < 0 ∨ (ptrMax : ℤ) < v) := by omega
  have hlen : ¬(s.idxlen < idxlenMin ∨ idxlenMax < s.idxlen) := by
    have hmin := hs.idxlen_min
    have hmax := hs.idxlen_max
    omega
  unfold Db.writeIdx
  simp only [hdatoff, hdatlen, length_recordText hkey]
  rw [if_neg hrange, if_neg hlen, Int.toNat_natCast]
  rfl

namespace Reads

theorem readPtr {d : Db} (h : Reads d.idx d.dat T) {a : ℕ} (ha : Place T a) :
    d.readPtr a = some ({ d with pos := a + ptrSz }, (T.ptr a : ℤ)) := by
  rcases ha with ⟨i, rfl⟩ | ⟨s, hs, rfl⟩
  · exact readPtr_of_has (h.heads i) (h.head_le i)
  · exact readPtr_of_has (has_append.mp (h.record s hs)).1 (h.ptr_le s hs)

theorem readIdx (h : Reads db.idx db.dat T) (hs : s ∈ T.slots) {offset : ℤ}
    (hoff : (if offset = 0 then some db.pos else seek offset) = some s.off) :
    db.readIdx offset = some (db.at s (T.key s.off) (T.ptr s.off), (T.ptr s.off : ℤ)) :=
  readIdx_of_has (h.record s hs) (h.sound s hs) (h.fits s hs) (h.ptr_le s hs) hoff

theorem readIdx_off (h : Reads db.idx db.dat T) (hs : s ∈ T.slots) :
    db.readIdx s.off = some (db.at s (T.key s.off) (T.ptr s.off), (T.ptr s.off : ℤ)) := by
  refine h.readIdx hs ?_
  have hle := h.recordsOff_le hs
  have hpos : 0 < recordsOff := by decide
  rw [if_neg (by omega), seek_natCast]

/-- The string of a record is read. -/
theorem readDat (h : Reads db.idx db.dat T) (hs : s ∈ T.slots) (hdatoff : db.datoff = s.datoff)
    (hdatlen : db.datlen = s.datlen) :
    db.readDat = some ({ db with datbuf := T.data s.off }, T.data s.off) := by
  have hread := (h.content s hs).pread_eq
  have hfits := h.fits s hs
  have hlength : (T.data s.off ++ [newline]).length = s.datlen := by
    rw [List.length_append]
    exact hfits.datlen
  rw [hlength] at hread
  unfold Db.readDat
  simp only [hdatoff, hdatlen, hread, hlength, List.getLast?_concat, List.dropLast_concat,
    cstring_of_clean hfits.data_clean]
  exact if_neg (by simp)

end Reads

end ApueDb
