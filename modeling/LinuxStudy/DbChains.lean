import LinuxStudy.DbRecords

/-!
# Records on their chains

Every record is on one chain: the one of the hash value of its key, or the free
list (`Filed`). A key is looked up on its chain, and a free record by its lengths
on the free list (`findLoop_spec`, `findFreeLoop_spec`). What the chains of the hash
table hold is a map from keys to strings (`Keeps`), and a record that is taken from
its chain, or put on it, is a change of the map at one key.
-/

namespace ApueDb

open FileBytes Chains

/-! ## The chains

A chain is followed by the pointers of its records until the pointer zero. The
handle knows two places, that of the record and that of the pointer which leads to
it, as `ptroff` is set to the place of the next pointer in every round; a record
is found with both. What is read from the files says the keys, and that a record
is on the chain of its key is what makes a search of one chain enough. -/

/-- **Every record is on the chain of its key, or free**: the records at some
places, with the keys they have. A free one has a key of blanks. -/
structure Filed (key : ℕ → Bytes) (N : ℕ → Prop) (lists : Fin (nhashDef + 1) → List ℕ) : Prop where
  mem_iff : ∀ a, (∃ i, a ∈ lists i) ↔ N a
  hashed : ∀ i : Fin nhashDef, ∀ a ∈ lists i.succ, dbHash (key a) = i
  unique : ∀ i : Fin nhashDef, ∀ a ∈ lists i.succ, ∀ b ∈ lists i.succ, key a = key b → a = b
  blanked : ∀ a ∈ lists 0, ∀ c ∈ key a, c = blank

/-- The strings by their keys. -/
abbrev Store := Bytes → Option Bytes

/-- **What the chains hold.** -/
def Keeps (key data : ℕ → Bytes) (lists : Fin (nhashDef + 1) → List ℕ) (m : Store) : Prop :=
  ∀ k d, m k = some d ↔ ∃ a ∈ lists (dbHash k).succ, key a = k ∧ data a = d

/-- **The files hold a table**, whose records are on their chains and keep a map. -/
structure Holds (db : Db) (T : Table) (lists : Fin (nhashDef + 1) → List ℕ) (m : Store) : Prop where
  reads : Reads db.idx db.dat T
  family : Family 0 T.ptr chainOff lists
  filed : Filed T.key (fun a => ∃ s ∈ T.slots, s.off = a) lists
  keeps : Keeps T.key T.data lists m

/-- The record that was read last. -/
structure Current (db : Db) (T : Table) (s : Slot) : Prop where
  mem : s ∈ T.slots
  idxoff : db.idxoff = s.off
  idxbuf : db.idxbuf = T.key s.off
  datoff : db.datoff = s.datoff
  datlen : db.datlen = s.datlen
  ptrval : db.ptrval = T.ptr s.off

/-- The same files, and the same chain. -/
structure Same (db db' : Db) : Prop where
  idx : db'.idx = db.idx
  dat : db'.dat = db.dat
  chainoff : db'.chainoff = db.chainoff

variable {db db' : Db} {T : Table} {lists : Fin (nhashDef + 1) → List ℕ} {m : Store} {s : Slot}
  {key data : Bytes} {keys keys' datas datas' : ℕ → Bytes} {N N' : ℕ → Prop} {i : Fin nhashDef}
  {a x : ℕ} {l l₁ l₂ : List ℕ} {rounds : ℕ}

theorem Same.refl (db : Db) : Same db db := ⟨rfl, rfl, rfl⟩

theorem Same.trans {db'' : Db} (h : Same db db') (h' : Same db' db'') : Same db db'' :=
  ⟨h'.idx.trans h.idx, h'.dat.trans h.dat, h'.chainoff.trans h.chainoff⟩

theorem Same.reads (h : Same db db') (hreads : Reads db.idx db.dat T) :
    Reads db'.idx db'.dat T := by
  rw [h.idx, h.dat]
  exact hreads

theorem current_at (db : Db) (hs : s ∈ T.slots) :
    Current (db.at s (T.key s.off) (T.ptr s.off)) T s ∧
      Same db (db.at s (T.key s.off) (T.ptr s.off)) :=
  ⟨⟨hs, rfl, rfl, rfl, rfl, rfl⟩, ⟨rfl, rfl, rfl⟩⟩

/-- **A key is looked for** on a chain: it is not there, or the first record that has
it is read, and the handle knows the place before it. -/
theorem findLoop_spec {d : Db} {k : Bytes} (h : Reads d.idx d.dat T) (hl : Leads T.ptr a l 0)
    (hmem : ∀ b ∈ l, ∃ s ∈ T.slots, s.off = b) (hptroff : d.ptroff = a)
    (hrounds : l.length < rounds) :
    (∃ d', Db.findLoop k rounds d (T.ptr a) = some (d', 0) ∧ Same d d' ∧
      ∀ b ∈ l, T.key b ≠ k) ∨
    ∃ (d' : Db) (l₁ : List ℕ) (s : Slot) (l₂ : List ℕ),
      Db.findLoop k rounds d (T.ptr a) = some (d', (s.off : ℤ)) ∧
        Same d d' ∧ Current d' T s ∧ l = l₁ ++ s.off :: l₂ ∧ T.key s.off = k ∧
        d'.ptroff = (l₁.getLastD a : ℕ) := by
  induction l generalizing d a rounds with
  | nil =>
    obtain ⟨rounds, rfl⟩ : ∃ r, rounds = r + 1 := ⟨rounds - 1, by omega⟩
    refine Or.inl ⟨d, ?_, Same.refl d, fun b hb => absurd hb List.not_mem_nil⟩
    rw [show T.ptr a = 0 from hl]
    rfl
  | cons b l ih =>
    obtain ⟨rounds, rfl⟩ : ∃ r, rounds = r + 1 := ⟨rounds - 1, by omega⟩
    obtain ⟨s, hs, rfl⟩ := hmem b List.mem_cons_self
    obtain ⟨hcurrent, hsame⟩ := current_at d hs
    have hoff : ((s.off : ℕ) : ℤ) ≠ 0 := by
      have hle := h.recordsOff_le hs
      have hpos : 0 < recordsOff := by decide
      omega
    rw [hl.1]
    unfold Db.findLoop
    rw [if_neg hoff, h.readIdx_off hs]
    simp only [Option.bind_eq_bind, Option.bind_some]
    by_cases hkey : T.key s.off = k
    · refine Or.inr ⟨_, [], s, l, if_pos hkey, hsame, hcurrent, rfl, hkey, hptroff⟩
    · rw [if_neg (show ¬(d.at s (T.key s.off) (T.ptr s.off)).idxbuf = k from hkey)]
      have hreads : Reads ({ d.at s (T.key s.off) (T.ptr s.off) with ptroff := s.off } : Db).idx
          ({ d.at s (T.key s.off) (T.ptr s.off) with ptroff := s.off } : Db).dat T := h
      have hnext := ih hreads hl.2 (fun c hc => hmem c (List.mem_cons_of_mem _ hc)) rfl
        (show l.length < rounds from Nat.lt_of_succ_lt_succ hrounds)
      rcases hnext with ⟨d', hloop, hsame', hnone⟩ | ⟨d', l₁, t, l₂, hloop, hsame', hfound⟩
      · refine Or.inl ⟨d', hloop, ⟨hsame'.idx, hsame'.dat, hsame'.chainoff⟩, fun c hc => ?_⟩
        rcases List.mem_cons.mp hc with rfl | hc
        · exact hkey
        · exact hnone c hc
      · obtain ⟨hcurrent', rfl, hkey', hlast⟩ := hfound
        refine Or.inr ⟨d', s.off :: l₁, t, l₂, hloop, ⟨hsame'.idx, hsame'.dat, hsame'.chainoff⟩,
          hcurrent', rfl, hkey', ?_⟩
        rw [List.getLastD_cons]
        exact hlast

/-- **A free record is looked for** in the same way, by its lengths. -/
theorem findFreeLoop_spec {d : Db} {k n : ℕ} (h : Reads d.idx d.dat T) (hl : Leads T.ptr a l 0)
    (hmem : ∀ b ∈ l, ∃ s ∈ T.slots, s.off = b) (hrounds : l.length < rounds) :
    (∃ d' save, Db.findFreeLoop k n rounds d a (T.ptr a) = some (d', save, 0) ∧
      Same d d') ∨
    ∃ (d' : Db) (l₁ : List ℕ) (s : Slot) (l₂ : List ℕ),
      Db.findFreeLoop k n rounds d a (T.ptr a)
          = some (d', ((l₁.getLastD a : ℕ) : ℤ), (s.off : ℤ)) ∧
        Same d d' ∧ Current d' T s ∧ l = l₁ ++ s.off :: l₂ ∧ s.keylen = k ∧
        s.datlen = n := by
  induction l generalizing d a rounds with
  | nil =>
    obtain ⟨rounds, rfl⟩ : ∃ r, rounds = r + 1 := ⟨rounds - 1, by omega⟩
    refine Or.inl ⟨d, a, ?_, Same.refl d⟩
    rw [show T.ptr a = 0 from hl]
    rfl
  | cons b l ih =>
    obtain ⟨rounds, rfl⟩ : ∃ r, rounds = r + 1 := ⟨rounds - 1, by omega⟩
    obtain ⟨s, hs, rfl⟩ := hmem b List.mem_cons_self
    obtain ⟨hcurrent, hsame⟩ := current_at d hs
    have hoff : ((s.off : ℕ) : ℤ) ≠ 0 := by
      have hle := h.recordsOff_le hs
      have hpos : 0 < recordsOff := by decide
      omega
    rw [hl.1]
    unfold Db.findFreeLoop
    rw [if_neg hoff, h.readIdx_off hs]
    simp only [Option.bind_eq_bind, Option.bind_some]
    have hkeylen := (h.fits s hs).keylen
    by_cases hfit : s.keylen = k ∧ s.datlen = n
    · refine Or.inr ⟨_, [], s, l, if_pos ⟨?_, hfit.2⟩, hsame, hcurrent, rfl, hfit⟩
      exact hkeylen.trans hfit.1
    · have hnot : ¬((d.at s (T.key s.off) (T.ptr s.off)).idxbuf.length = k ∧
          (d.at s (T.key s.off) (T.ptr s.off)).datlen = n) :=
        fun hfit' => hfit ⟨hkeylen.symm.trans hfit'.1, hfit'.2⟩
      rw [if_neg hnot]
      have hnext := ih (hsame.reads h) hl.2 (fun c hc => hmem c (List.mem_cons_of_mem _ hc))
        (show l.length < rounds from Nat.lt_of_succ_lt_succ hrounds)
      rcases hnext with ⟨d', save, hloop, hsame'⟩ | ⟨d', l₁, t, l₂, hloop, hsame', hfound⟩
      · exact Or.inl ⟨d', save, hloop, hsame.trans hsame'⟩
      · obtain ⟨hcurrent', rfl, hlens⟩ := hfound
        refine Or.inr ⟨d', s.off :: l₁, t, l₂, ?_, hsame.trans hsame', hcurrent', rfl, hlens⟩
        rw [List.getLastD_cons]
        exact hloop

/-! ## Records are filed

When a record moves, all others stay where they are, with their keys. So each of
these takes the family of the chains before, and gives the one with one chain
shorter by the record, or longer by it. -/

namespace Filed

/-- Other records may change. -/
theorem congr (h : Filed keys N lists) (heq : ∀ a, N a → keys' a = keys a) :
    Filed keys' N lists := by
  have hmem : ∀ i, ∀ a ∈ lists i, keys' a = keys a :=
    fun i a ha => heq a ((h.mem_iff a).mp ⟨i, ha⟩)
  refine ⟨h.mem_iff, fun i a ha => ?_, fun i a ha b hb hab => ?_, fun a ha => ?_⟩
  · rw [hmem _ a ha]
    exact h.hashed i a ha
  · rw [hmem _ a ha, hmem _ b hb] at hab
    exact h.unique i a ha b hb hab
  · rw [hmem _ a ha]
    exact h.blanked a ha

theorem of_iff (h : Filed keys N lists) (heq : ∀ a, N a ↔ N' a) : Filed keys N' lists :=
  ⟨fun a => (h.mem_iff a).trans (heq a), h.hashed, h.unique, h.blanked⟩

theorem unlink (h : Filed keys N lists) {next : ℕ → ℕ} (hfamily : Family 0 next chainOff lists)
    {j : Fin (nhashDef + 1)} (hj : lists j = l₁ ++ x :: l₂) :
    Filed keys (fun a => N a ∧ a ≠ x) (Function.update lists j (l₁ ++ l₂)) := by
  refine ⟨fun a => ?_, fun i a ha => ?_, fun i a ha b hb => ?_, fun a ha => ?_⟩
  · rw [← h.mem_iff, exists_congr fun i => hfamily.mem_unlink hj, exists_and_right]
  · exact h.hashed i a ((hfamily.mem_unlink hj).mp ha).1
  · exact h.unique i a ((hfamily.mem_unlink hj).mp ha).1 b ((hfamily.mem_unlink hj).mp hb).1
  · exact h.blanked a ((hfamily.mem_unlink hj).mp ha).1

/-- A record becomes free. -/
theorem free (h : Filed keys N lists) (hblank : ∀ c ∈ keys x, c = blank) :
    Filed keys (fun a => a = x ∨ N a) (Function.update lists 0 (x :: lists 0)) := by
  have hsucc : ∀ i : Fin nhashDef, Function.update lists 0 (x :: lists 0) i.succ = lists i.succ :=
    fun i => Function.update_of_ne (Fin.succ_ne_zero i) _ _
  refine ⟨fun a => ?_, fun i a ha => ?_, fun i a ha b hb => ?_, fun a ha => ?_⟩
  · rw [exists_congr fun i => Family.mem_push, exists_or, h.mem_iff]
    simp
  · rw [hsucc] at ha
    exact h.hashed i a ha
  · rw [hsucc] at ha hb
    exact h.unique i a ha b hb
  · rcases Family.mem_push.mp ha with ⟨rfl, -⟩ | ha
    · exact hblank
    · exact h.blanked a ha

/-- A record gets a key that is not there. -/
theorem file (h : Filed keys N lists) (hi : dbHash (keys x) = i)
    (hnew : ∀ b ∈ lists i.succ, keys b ≠ keys x) :
    Filed keys (fun a => a = x ∨ N a) (Function.update lists i.succ (x :: lists i.succ)) := by
  refine ⟨fun a => ?_, fun j a ha => ?_, fun j a ha b hb hab => ?_, fun a ha => ?_⟩
  · rw [exists_congr fun j => Family.mem_push, exists_or, h.mem_iff]
    simp
  · rcases Family.mem_push.mp ha with ⟨rfl, hj⟩ | ha
    · rw [hi, Fin.succ_inj.mp hj]
    · exact h.hashed j a ha
  · rcases Family.mem_push.mp ha with ⟨rfl, hj⟩ | ha' <;>
      rcases Family.mem_push.mp hb with ⟨rfl, hj'⟩ | hb'
    · rfl
    · exact absurd hab.symm (hnew b (hj ▸ hb'))
    · exact absurd hab (hnew a (hj' ▸ ha'))
    · exact h.unique j a ha' b hb' hab
  · rw [Function.update_of_ne (Fin.succ_ne_zero i).symm] at ha
    exact h.blanked a ha

/-- A record that was not on a chain gets a key and is put on its chain. -/
theorem put (h : Filed keys N lists) (hx : ¬N x)
    (hnew : ∀ b ∈ lists (dbHash key).succ, keys b ≠ key) :
    Filed (Function.update keys x key) (fun a => a = x ∨ N a)
      (Function.update lists (dbHash key).succ (x :: lists (dbHash key).succ)) := by
  have hother : ∀ a, N a → Function.update keys x key a = keys a :=
    fun a ha => Function.update_of_ne (fun heq : a = x => hx (heq ▸ ha)) _ _
  refine (h.congr hother).file ?_ fun b hb => ?_
  · rw [Function.update_self]
  · rw [Function.update_self, hother b ((h.mem_iff b).mp ⟨_, hb⟩)]
    exact hnew b hb

end Filed

/-! ## What is kept

The map gives a string to a key exactly if there is a record on the chain of the
key that has it and the string. A free record has a key of blanks and is on the
free list alone, so it stands for no string, and not for one of that key either. -/

namespace Keeps

theorem congr (h : Keeps keys datas lists m)
    (heq : ∀ i : Fin nhashDef, ∀ a ∈ lists i.succ, keys' a = keys a ∧ datas' a = datas a) :
    Keeps keys' datas' lists m := by
  intro k d
  rw [h k d]
  refine exists_congr fun a => and_congr_right fun ha => ?_
  rw [(heq _ a ha).1, (heq _ a ha).2]

/-- A record that is taken from its chain is not there any more. -/
theorem unlink (h : Keeps keys datas lists m) (hfiled : Filed keys N lists) {next : ℕ → ℕ}
    (hfamily : Family 0 next chainOff lists) (hi : lists i.succ = l₁ ++ x :: l₂) :
    Keeps keys datas (Function.update lists i.succ (l₁ ++ l₂))
      (Function.update m (keys x) none) := by
  have hx : x ∈ lists i.succ := by
    rw [hi]
    exact List.mem_append_right _ List.mem_cons_self
  intro k d
  rw [Function.update_apply]
  by_cases hk : k = keys x
  · subst hk
    rw [if_pos rfl, hfiled.hashed i x hx]
    refine iff_of_false (fun heq => Option.noConfusion rfl (heq_of_eq heq)) ?_
    rintro ⟨a, ha, hkey, -⟩
    obtain ⟨ha, hne⟩ := (hfamily.mem_unlink hi).mp ha
    exact hne (hfiled.unique i a ha x hx hkey)
  · rw [if_neg hk, h k d]
    refine exists_congr fun a => ?_
    rw [hfamily.mem_unlink hi]
    constructor
    · rintro ⟨ha, hkey, hdata⟩
      exact ⟨⟨ha, fun heq => hk (hkey ▸ heq ▸ rfl)⟩, hkey, hdata⟩
    · rintro ⟨⟨ha, -⟩, hkey, hdata⟩
      exact ⟨ha, hkey, hdata⟩

theorem of_free (h : Keeps keys datas lists m) (l : List ℕ) :
    Keeps keys datas (Function.update lists 0 l) m := by
  intro k d
  rw [Function.update_of_ne (Fin.succ_ne_zero _)]
  exact h k d

/-- A record that is put on the chain of its key is there. -/
theorem file (h : Keeps keys datas lists m) (hi : dbHash (keys x) = i)
    (hnew : ∀ b ∈ lists i.succ, keys b ≠ keys x) :
    Keeps keys datas (Function.update lists i.succ (x :: lists i.succ))
      (Function.update m (keys x) (some (datas x))) := by
  intro k d
  rw [Function.update_apply]
  by_cases hk : k = keys x
  · subst hk
    rw [if_pos rfl, hi]
    constructor
    · rintro heq
      exact ⟨x, Family.mem_push.mpr (Or.inl ⟨rfl, rfl⟩), rfl, Option.some.inj heq⟩
    · rintro ⟨a, ha, hkey, hdata⟩
      rcases Family.mem_push.mp ha with ⟨rfl, -⟩ | ha
      · rw [hdata]
      · exact absurd hkey (hnew a ha)
  · rw [if_neg hk, h k d]
    refine exists_congr fun a => ?_
    rw [Family.mem_push]
    constructor
    · rintro ⟨ha, hkey, hdata⟩
      exact ⟨Or.inr ha, hkey, hdata⟩
    · rintro ⟨⟨rfl, -⟩ | ha, hkey, hdata⟩
      · exact absurd hkey.symm hk
      · exact ⟨ha, hkey, hdata⟩

theorem eq_none (h : Keeps keys datas lists m)
    (hnone : ∀ b ∈ lists (dbHash key).succ, keys b ≠ key) :
    m key = none := by
  cases hm : m key with
  | none => rfl
  | some d =>
    obtain ⟨a, ha, hkey, -⟩ := (h key d).mp hm
    exact absurd hkey (hnone a ha)

theorem eq_some (h : Keeps keys datas lists m) (hfiled : Filed keys N lists)
    (hx : x ∈ lists i.succ) : m (keys x) = some (datas x) := by
  refine (h _ _).mpr ⟨x, ?_, rfl, rfl⟩
  rw [hfiled.hashed i x hx]
  exact hx

theorem ne_of_none (h : Keeps keys datas lists m) (hnone : m key = none) :
    ∀ b ∈ lists (dbHash key).succ, keys b ≠ key := by
  intro b hb hkey
  have hsome := (h key (datas b)).mpr ⟨b, hb, hkey, rfl⟩
  exact absurd (hsome.symm.trans hnone) (Option.some_ne_none _)

/-- A string is replaced. -/
theorem write (h : Keeps keys datas lists m) (hfiled : Filed keys N lists)
    (hx : x ∈ lists i.succ) (d : Bytes) :
    Keeps keys (Function.update datas x d) lists (Function.update m (keys x) (some d)) := by
  intro k d'
  rw [Function.update_apply]
  by_cases hk : k = keys x
  · subst hk
    rw [if_pos rfl, hfiled.hashed i x hx]
    constructor
    · rintro heq
      exact ⟨x, hx, rfl, (Function.update_self _ _ _).trans (Option.some.inj heq)⟩
    · rintro ⟨a, ha, hkey, hdata⟩
      rw [hfiled.unique i a ha x hx hkey, Function.update_self] at hdata
      rw [hdata]
  · rw [if_neg hk, h k d']
    refine exists_congr fun a => and_congr_right fun _ => and_congr_right fun hkey => ?_
    rw [Function.update_of_ne fun heq => hk (by rw [← hkey, heq])]

/-- A record that was not on a chain gets a key and a string. -/
theorem put (h : Keeps keys datas lists m) (hfiled : Filed keys N lists) (hx : ¬N x)
    (hnew : ∀ b ∈ lists (dbHash key).succ, keys b ≠ key) :
    Keeps (Function.update keys x key) (Function.update datas x data)
      (Function.update lists (dbHash key).succ (x :: lists (dbHash key).succ))
      (Function.update m key (some data)) := by
  have hother : ∀ j, ∀ a ∈ lists j, a ≠ x :=
    fun j a ha heq => hx (heq ▸ (hfiled.mem_iff a).mp ⟨j, ha⟩)
  have hkeeps : Keeps (Function.update keys x key) (Function.update datas x data) lists m :=
    h.congr fun j a ha =>
      ⟨Function.update_of_ne (hother _ a ha) _ _, Function.update_of_ne (hother _ a ha) _ _⟩
  have hfile := hkeeps.file (x := x) (i := dbHash key) (by rw [Function.update_self])
    fun b hb => by
      rw [Function.update_self, Function.update_of_ne (hother _ b hb)]
      exact hnew b hb
  rwa [Function.update_self, Function.update_self] at hfile

end Keeps

end ApueDb
