import LinuxStudy.CacheCluster

/-!
# Writes and migrations

When caches join, every listed cache sends the keys of its `LC` to their
owners on the new ring. It sends *all* of them: `organize_data` does not ask
who owned a key before, and a key that was sent stays in `LC`. So a cache
that gave a key away keeps a copy, and at the next change sends it again –
to a cache that may have been written to in the meantime, and that takes it
for a client's write.

`copiesAgree_run_get_eq_last` says when this does no harm. At the start of each list
change every copy about to be sent has to be the value the current owner
holds. Then through any interleaving of the change every message in flight
carries the value last written, the new owner of a key ends with it, and at
the end of any run the owner of a key holds the last write. Without the
condition a join, a write and a second join already lose the write
(`migration_overwrites_newer_value`).
-/

namespace Dcs

/-! ## What a write leaves -/

namespace Cluster

/-- Backups change no `LC`, and keep the room. -/
theorem foldl_taskCfd_backups {num : ℕ} {K : Finset Bytes} {key value : Bytes}
    (hk : key ∈ K) (ms : List (Bytes × Info))
    (hms : ∀ m ∈ ms, m.2 = Info.keyValueRespondBk key value)
    (caches : Bytes → CacheServer) (hfit : ∀ addr, (caches addr).Fits num K addr) :
    let caches' := ms.foldl
      (fun caches m => Function.update caches m.1 ((caches m.1).taskCfd m.2).1) caches
    ∀ addr, (caches' addr).Fits num K addr ∧ (caches' addr).lc = (caches addr).lc
      ∧ (caches' addr).keyAddr = (caches addr).keyAddr := by
  induction ms generalizing caches with
  | nil => exact fun addr => ⟨hfit addr, rfl, rfl⟩
  | cons m ms ih =>
    have hm : m.2 = Info.keyValueRespondBk key value := hms m List.mem_cons_self
    have hin : (Info.keyValueRespondBk key value).KeyIn K := hk
    have hone : ∀ addr,
        (Function.update caches m.1 ((caches m.1).taskCfd m.2).1 addr).Fits num K addr
          ∧ (Function.update caches m.1 ((caches m.1).taskCfd m.2).1 addr).lc
            = (caches addr).lc
          ∧ (Function.update caches m.1 ((caches m.1).taskCfd m.2).1 addr).keyAddr
            = (caches addr).keyAddr := by
      intro addr
      by_cases ha : addr = m.1
      · subst ha
        rw [Function.update_self, hm]
        exact ⟨((hfit m.1).taskCfd hin).1, rfl, rfl⟩
      · rw [Function.update_of_ne ha]
        exact ⟨hfit addr, rfl, rfl⟩
    intro caches' addr
    obtain ⟨h₁, h₂, h₃⟩ := ih (fun m hm => hms m (List.mem_cons_of_mem _ hm)) _
      (fun addr => (hone addr).1) addr
    exact ⟨h₁, h₂.trans (hone addr).2.1, h₃.trans (hone addr).2.2⟩

/-- **A write puts the key into the `LC` of its owner** and changes no other
`LC` and no ring. -/
theorem setKey_spec {num : ℕ} {K : Finset Bytes} {s : Cluster} {key : Bytes}
    (o value : Bytes) (hk : key ∈ K) (hfit : ∀ addr, (s.caches addr).Fits num K addr)
    (addr : Bytes) :
    ((s.setKey o key value).caches addr).Fits num K addr
      ∧ ((s.setKey o key value).caches addr).lc
        = (if addr = o then (s.caches o).lc.put key value else (s.caches addr).lc)
      ∧ ((s.setKey o key value).caches addr).keyAddr = (s.caches addr).keyAddr := by
  set r := (s.caches o).kvrespondHandler false key value with hr
  have hr₁ : r.1 = { s.caches o with lc := (s.caches o).lc.put key value } :=
    CacheServer.kvrespondHandler_false _ _ _
  have hin : (Info.keyValueRespond key value).KeyIn K := hk
  have hfit' : ∀ a, (Function.update s.caches o r.1 a).Fits num K a := by
    intro a
    by_cases ha : a = o
    · rw [ha, Function.update_self]
      exact ((hfit o).taskCfd hin).1
    · rw [Function.update_of_ne ha]
      exact hfit a
  obtain ⟨h₁, h₂, h₃⟩ := foldl_taskCfd_backups hk r.2
    (fun m hm => CacheServer.mem_kvrespondHandler_false hm) _ hfit' addr
  refine ⟨h₁, h₂.trans ?_, h₃.trans ?_⟩
  all_goals
    by_cases ha : addr = o
    · subst ha
      simp only [Function.update_self, if_true, hr₁]
    · simp only [Function.update_of_ne ha, if_neg ha]

theorem last_setKey (s : Cluster) (o key value k : Bytes) :
    (s.setKey o key value).last k = if k = key then some value else s.last k := by
  show (((key, value) :: s.sets).find? (fun e => e.1 = k)).map Prod.snd = _
  rw [List.find?_cons]
  by_cases hk : k = key
  · rw [if_pos hk, hk, decide_eq_true rfl]
    rfl
  · rw [if_neg hk, decide_eq_false (Ne.symm hk)]
    rfl

end Cluster

/-! ## The owner holds the last write

The invariant is about the owner of each key: it holds what was last written. The
other caches may hold anything, and do, as keys that were sent stay in `LC`. When
the list changes the owner of a key may be another one than before, and then the
former owner sends the value; but so does every other cache that has the key, and
the last message to arrive decides. So the condition is that all of them send the
same. With it, every message on its way for a key has the last value, and that is
kept by every move (`Net.Migrating.move`).

In the middle of a change the new owner may not have the value yet. What is said
there is that it has it, or that it is on its way to it, or that the cache that
has it has not started. -/

theorem exists_owner_of_subset {num : ℕ} {L L' : List Bytes} {key o : Bytes}
    (h : owner num L key = some o) (hsub : L ⊆ L') : ∃ o', owner num L' key = some o' := by
  obtain ⟨hmem, i, hi, -⟩ :=
    (ConsistentHash.getServerIndex_refreshIPList_iff (ConsistentHash.new num) L key o).mp h
  exact ConsistentHash.exists_getServerIndex (ConsistentHash.new num)
    (List.ne_nil_of_mem (hsub hmem)) (Nat.lt_of_le_of_lt (Nat.zero_le i) hi) key

theorem mem_of_owner {num : ℕ} {L : List Bytes} {key o : Bytes}
    (h : owner num L key = some o) : o ∈ L :=
  ((ConsistentHash.getServerIndex_refreshIPList_iff (ConsistentHash.new num)
    L key o).mp h).1

/-- **The cluster is up to date**: the owner of a key holds the value last
written, and no cache holds a key that was never written. -/
structure Cluster.UpToDate (num : ℕ) (K : Finset Bytes) (s : Cluster) : Prop where
  fits : ∀ addr, (s.caches addr).Fits num K addr
  /-- The owner holds the last write. -/
  stored : ∀ {key o}, owner num s.list key = some o →
    (s.caches o).lc.value? key = s.last key
  /-- A key never written is nowhere. -/
  known : ∀ addr {key}, s.last key = none → (s.caches addr).lc.value? key = none
  /-- A key that was written has an owner. -/
  owned : ∀ {key}, s.last key ≠ none → ∃ o, owner num s.list key = some o

/-- **Every copy about to be sent is current**: what a cache of the new list
holds of a key it does not own on the new ring is what the owner on the
present ring holds. -/
def Cluster.CopiesAgree (num : ℕ) (s : Cluster) (iplist : List Bytes) : Prop :=
  ∀ addr ∈ iplist, ∀ key value, (s.caches addr).lc.value? key = some value →
    owner num iplist key ≠ some addr →
      ∃ o, owner num s.list key = some o ∧ (s.caches o).lc.value? key = some value

/-- The condition on an event: a list change starts with current copies. -/
def Event.CopiesAgree (num : ℕ) (s : Cluster) : Event → Prop
  | .set _ _ => True
  | .addCache iplist _ => s.CopiesAgree num iplist

/-- **A migration under way**, seen from the cluster `b` it started from. -/
structure Net.Migrating (num : ℕ) (K : Finset Bytes) (b : Cluster)
    (iplist : List Bytes) (s : Net) : Prop where
  fits : s.Fits num K
  listed : ∀ addr ∈ s.waiting, addr ∈ iplist
  /-- A cache that does not own a key keeps what it held of it. -/
  kept : ∀ {addr key}, owner num iplist key ≠ some addr →
    (s.caches addr).lc.value? key = (b.caches addr).lc.value? key
  /-- The new owner holds what it held, or the last write. -/
  fresh : ∀ {addr key}, owner num iplist key = some addr →
    (s.caches addr).lc.value? key = (b.caches addr).lc.value? key
      ∨ (s.caches addr).lc.value? key = b.last key
  /-- What is left to send goes to the new owner and is current. -/
  jobs : ∀ {addr dest key}, (addr, dest, key) ∈ s.jobs →
    owner num iplist key = some dest ∧ addr ≠ dest ∧ b.last key ≠ none
      ∧ (b.caches addr).lc.value? key = b.last key
  /-- What is in flight goes to the new owner and is current. -/
  inflight : ∀ {dest key value}, (dest, Info.keyValueRespond key value) ∈ s.inflight →
    owner num iplist key = some dest ∧ b.last key = some value
  /-- The old owner's copy is on its way or has arrived. -/
  progress : ∀ {key o dest}, owner num b.list key = some o →
    owner num iplist key = some dest → o ≠ dest → b.last key ≠ none →
    o ∈ s.waiting ∨ (o, dest, key) ∈ s.jobs
      ∨ (∃ value, (dest, Info.keyValueRespond key value) ∈ s.inflight)
      ∨ (s.caches dest).lc.value? key = b.last key

section Migration

variable {num : ℕ} {K : Finset Bytes} {b : Cluster} {iplist : List Bytes} {s : Net}

/-- What a started cache has to send: the keys it holds and does not own on
the new ring. -/
theorem mem_outgoing_doitIplistchange {c : CacheServer}
    {r : CacheServer × Buckets Bytes Bytes} {addr : Bytes} (hc : c.Fits num K addr)
    (hr : CacheServer.doitIplistchange iplist c = some r) (dest key : Bytes) :
    (dest, key) ∈ r.1.outgoing r.2
      ↔ key ∈ c.lc.cache ∧ owner num iplist key = some dest ∧ addr ≠ dest := by
  obtain ⟨ipportAndKey, hb, rfl⟩ := Option.map_eq_some_iff.mp hr
  unfold CacheServer.outgoing
  rw [List.mem_filter, Buckets.mem_pairs_group hb, decide_eq_true_iff,
    CacheServer.getServerIndex_iplistchange, hc.virtualNodeNum, AList.mem_keys]
  show (_ ∧ _) ∧ dest ≠ c.curenAddr ↔ _
  rw [hc.curenAddr, and_assoc]
  exact and_congr_right' (and_congr_right' ne_comm)

theorem begin_lc {c : CacheServer} {r : CacheServer × Buckets Bytes Bytes} {addr : Bytes}
    (hc : s.caches addr = c) (hr : CacheServer.doitIplistchange iplist c = some r)
    (a : Bytes) : ((s.begin addr r).caches a).lc = (s.caches a).lc := by
  obtain ⟨ipportAndKey, -, rfl⟩ := Option.map_eq_some_iff.mp hr
  rw [Net.begin_caches]
  by_cases ha : a = addr
  · rw [if_pos ha, ha, hc]
    rfl
  · rw [if_neg ha]

/-- A cache starts on the change. -/
theorem Net.Migrating.begin (hb : b.UpToDate num K) (hagree : b.CopiesAgree num iplist)
    (h : s.Migrating num K b iplist) {addr : Bytes}
    {r : CacheServer × Buckets Bytes Bytes} (hw : addr ∈ s.waiting)
    (hr : CacheServer.doitIplistchange iplist (s.caches addr) = some r)
    (hfit : (s.begin addr r).Fits num K) : (s.begin addr r).Migrating num K b iplist := by
  have hlc := begin_lc rfl hr
  have hout := mem_outgoing_doitIplistchange (h.fits.caches addr) hr
  refine ⟨hfit, fun a ha => h.listed a (List.mem_of_mem_erase ha), fun hne => ?_,
    fun ho => ?_, fun {a dest key} hj => ?_, h.inflight, fun {key o dest} ho hd hne hl => ?_⟩
  · rw [hlc]
    exact h.kept hne
  · rw [hlc]
    exact h.fresh ho
  · rcases List.mem_append.mp hj with hold | hnew
    · exact h.jobs hold
    · obtain ⟨e, he, heq⟩ := List.mem_map.mp hnew
      obtain ⟨rfl, rfl, rfl⟩ : addr = a ∧ e.1 = dest ∧ e.2 = key := by
        simpa only [Prod.mk.injEq] using heq
      obtain ⟨hmem, ho, hne⟩ := (hout e.1 e.2).mp he
      have hnot : owner num iplist e.2 ≠ some addr := by
        rw [ho]
        exact fun hc => hne (Option.some.inj hc).symm
      -- the copy is the one the cache had, and so the present owner's
      obtain ⟨v, hv⟩ := LRUCache.exists_value?_of_mem hmem
      rw [h.kept hnot] at hv
      obtain ⟨o, hown, hval⟩ := hagree addr (h.listed addr hw) e.2 v hv hnot
      have hlast : b.last e.2 = some v := (hb.stored hown).symm.trans hval
      exact ⟨ho, hne, by rw [hlast]; exact Option.some_ne_none v, hv.trans hlast.symm⟩
  · rw [hlc]
    rcases h.progress ho hd hne hl with hwait | hjob | hrest
    · by_cases hoa : o = addr
      · -- the old owner itself starts: it holds the key, so it is among the jobs
        subst hoa
        have hnot : owner num iplist key ≠ some o := by
          rw [hd]
          exact fun hc => hne (Option.some.inj hc).symm
        have hmem : key ∈ (s.caches o).lc.cache := by
          refine by_contra fun hno => hl ?_
          rw [← hb.stored ho, ← h.kept hnot]
          exact (LRUCache.value?_eq_none_iff _ key).mpr hno
        exact Or.inr (Or.inl (List.mem_append_right _
          (List.mem_map.mpr ⟨(dest, key), (hout dest key).mpr ⟨hmem, hd, hne⟩, rfl⟩)))
      · exact Or.inl ((List.mem_erase_of_ne hoa).mpr hwait)
    · exact Or.inr (Or.inl (List.mem_append_left _ hjob))
    · exact Or.inr (Or.inr hrest)

/-- A thread sends a key. -/
theorem Net.Migrating.post (h : s.Migrating num K b iplist)
    {job : Bytes × Bytes × Bytes} (hj : job ∈ s.jobs)
    (hfit : (s.post (Change.addCache iplist) job).Fits num K) :
    (s.post (Change.addCache iplist) job).Migrating num K b iplist := by
  obtain ⟨addr, dest, key⟩ := job
  obtain ⟨ho, hne, hl, hval⟩ := h.jobs hj
  have hnot : owner num iplist key ≠ some addr := by
    rw [ho]
    exact fun hc => hne (Option.some.inj hc).symm
  -- the sender does not own the key, so it still holds what it held
  have hread : b.last key = some ((s.caches addr).lc.get key false).2 := by
    obtain ⟨v, hv⟩ := Option.ne_none_iff_exists'.mp hl
    rw [LRUCache.get_snd, h.kept hnot, hval, hv, Option.getD_some]
  refine ⟨hfit, h.listed, h.kept, h.fresh,
    fun hj' => h.jobs (List.mem_of_mem_erase hj'), fun {d k v} hm => ?_,
    fun {k o d} ho' hd hne' hl' => ?_⟩
  · rcases List.mem_append.mp hm with hold | hnew
    · exact h.inflight hold
    · obtain ⟨rfl, rfl, rfl⟩ : d = dest ∧ k = key
          ∧ v = ((s.caches addr).lc.get key false).2 := by
        simpa only [CacheServer.sendoutData, Change.addCache, Prod.mk.injEq,
          Info.keyValueRespond.injEq] using List.mem_singleton.mp hnew
      exact ⟨ho, hread⟩
  · rcases h.progress ho' hd hne' hl' with hwait | hjob | ⟨v, hm⟩ | hval'
    · exact Or.inl hwait
    · by_cases heq : (o, d, k) = (addr, dest, key)
      · obtain ⟨rfl, rfl, rfl⟩ : o = addr ∧ d = dest ∧ k = key := by
          simpa only [Prod.mk.injEq] using heq
        exact Or.inr (Or.inr (Or.inl ⟨_, List.mem_append_right _ (List.mem_singleton.mpr rfl)⟩))
      · exact Or.inr (Or.inl ((List.mem_erase_of_ne heq).mpr hjob))
    · exact Or.inr (Or.inr (Or.inl ⟨v, List.mem_append_left _ hm⟩))
    · exact Or.inr (Or.inr (Or.inr hval'))

/-- A backup is handled: it changes no `LC` and sends nothing. -/
theorem Net.Migrating.handle_backup (h : s.Migrating num K b iplist) {up : Bytes → Bool}
    {d key value : Bytes}
    (hfit : (s.handle up (d, Info.keyValueRespondBk key value)).Fits num K) :
    (s.handle up (d, Info.keyValueRespondBk key value)).Migrating num K b iplist := by
  have hlc : ∀ a, ((s.handle up (d, Info.keyValueRespondBk key value)).caches a).lc
      = (s.caches a).lc :=
    Net.forall_handle_caches (P := fun a c => c.lc = (s.caches a).lc) rfl (fun _ => rfl)
  refine ⟨hfit, h.listed, fun hne => ?_, fun ho => ?_, h.jobs, fun {d' k v} hin => ?_,
    fun {k o d'} ho hd hne hl => ?_⟩
  · rw [hlc]
    exact h.kept hne
  · rw [hlc]
    exact h.fresh ho
  · rcases List.mem_append.mp hin with hold | hnew
    · exact h.inflight (List.mem_of_mem_erase hold)
    · exact absurd (List.mem_filter.mp hnew).1 List.not_mem_nil
  · rw [hlc]
    refine (h.progress ho hd hne hl).imp_right (Or.imp_right (Or.imp_left ?_))
    rintro ⟨v, hin⟩
    exact ⟨v, List.mem_append_left _ ((List.mem_erase_of_ne (by simp)).mpr hin)⟩

/-- A key arrives: the destination holds the last write now, and no other
reading changed. -/
theorem Net.Migrating.handle_respond (h : s.Migrating num K b iplist) {up : Bytes → Bool}
    {d key value : Bytes} (hm : (d, Info.keyValueRespond key value) ∈ s.inflight)
    (hfit : (s.handle up (d, Info.keyValueRespond key value)).Fits num K) :
    (s.handle up (d, Info.keyValueRespond key value)).Migrating num K b iplist := by
  have hkey : key ∈ K := h.fits.inflight _ hm
  obtain ⟨hown, hlast⟩ := h.inflight hm
  have hval : ∀ a k,
      ((s.handle up (d, Info.keyValueRespond key value)).caches a).lc.value? k
        = if a = d ∧ k = key then some value else (s.caches a).lc.value? k := by
    intro a k
    rw [Net.handle_caches]
    by_cases ha : a = d
    · show (if a = d then ((s.caches d).kvrespondHandler false key value).1
        else s.caches a).lc.value? k = _
      rw [if_pos ha, CacheServer.kvrespondHandler_false, ha]
      exact ((h.fits.caches d).lc.value?_put hkey value k).trans
        (if_congr (and_iff_right rfl).symm rfl rfl)
    · rw [if_neg ha, if_neg (fun hc => ha hc.1)]
  refine ⟨hfit, h.listed, fun {a k} hne => ?_, fun {a k} ho => ?_, h.jobs,
    fun {d' k v} hin => ?_, fun {k o d'} ho hd hne hl => ?_⟩
  · rw [hval, if_neg]
    · exact h.kept hne
    · rintro ⟨rfl, rfl⟩
      exact hne hown
  · rw [hval]
    by_cases hc : a = d ∧ k = key
    · rw [if_pos hc, hc.2, hlast]
      exact Or.inr rfl
    · rw [if_neg hc]
      exact h.fresh ho
  · rcases List.mem_append.mp hin with hold | hnew
    · exact h.inflight (List.mem_of_mem_erase hold)
    · have hbk := CacheServer.mem_kvrespondHandler_false (List.mem_filter.mp hnew).1
      exact absurd hbk (by simp)
  · rw [hval]
    by_cases hc : d' = d ∧ k = key
    · rw [if_pos hc, hc.2, hlast]
      exact Or.inr (Or.inr (Or.inr rfl))
    · rw [if_neg hc]
      refine (h.progress ho hd hne hl).imp_right (Or.imp_right (Or.imp_left ?_))
      rintro ⟨v, hin⟩
      refine ⟨v, List.mem_append_left _ ((List.mem_erase_of_ne ?_).mpr hin)⟩
      simp only [ne_eq, Prod.mk.injEq, Info.keyValueRespond.injEq]
      exact fun heq => hc ⟨heq.1, heq.2.1⟩

/-- A message is handled. -/
theorem Net.Migrating.handle (h : s.Migrating num K b iplist) {up : Bytes → Bool}
    {message : Bytes × Info} (hm : message ∈ s.inflight)
    (hfit : (s.handle up message).Fits num K) :
    (s.handle up message).Migrating num K b iplist := by
  obtain ⟨d, info⟩ := message
  have hkey := h.fits.inflight _ hm
  cases info with
  | keyValueRequest key => exact hkey.elim
  | refleshMaster ip => exact hkey.elim
  | keyValueRespondBk key value => exact h.handle_backup hfit
  | keyValueRespond key value => exact h.handle_respond hm hfit

/-- **Every move of a migration keeps it current.** -/
theorem Net.Migrating.move (hb : b.UpToDate num K) (hagree : b.CopiesAgree num iplist)
    {up : Bytes → Bool} {t : Net} {m : Move} (h : s.Migrating num K b iplist)
    (hmove : s.move (Change.addCache iplist) up m = some t) :
    t.Migrating num K b iplist := by
  have hfit := h.fits.move (Change.fits_addCache num K iplist) hmove
  obtain ⟨addr, r, hw, hr, rfl⟩ | ⟨job, hj, rfl⟩ | ⟨message, hm, rfl⟩ :=
    Net.move_cases hmove
  · exact h.begin hb hagree hw hr hfit
  · exact h.post hj hfit
  · exact h.handle hm hfit

/-- At the start nothing has moved. -/
theorem Cluster.UpToDate.migrating_net (hb : b.UpToDate num K) (hsub : b.list ⊆ iplist) :
    (b.net iplist).Migrating num K b iplist where
  fits := ⟨hb.fits, fun _ hj => absurd hj List.not_mem_nil,
    fun _ hm => absurd hm List.not_mem_nil⟩
  listed _ ha := List.mem_dedup.mp ha
  kept _ := rfl
  fresh _ := Or.inl rfl
  jobs hj := absurd hj List.not_mem_nil
  inflight hm := absurd hm List.not_mem_nil
  progress ho _ _ _ := Or.inl (List.mem_dedup.mpr (hsub (mem_of_owner ho)))

/-- **At the end of a migration the new owners are up to date.** -/
theorem Net.Migrating.upToDate (hb : b.UpToDate num K) (hsub : b.list ⊆ iplist)
    (h : s.Migrating num K b iplist) (hdone : s.Done) :
    Cluster.UpToDate num K ⟨s.caches, iplist, b.sets⟩ := by
  refine ⟨h.fits.caches, fun {key d} hd => ?_, fun addr {key} hl => ?_, fun {key} hl => ?_⟩
  · show (s.caches d).lc.value? key = b.last key
    cases hlast : b.last key with
    | none =>
      rcases h.fresh hd with hval | hval
      · rw [hval, hb.known d hlast]
      · rw [hval, hlast]
    | some v =>
      have hne : b.last key ≠ none := by
        rw [hlast]
        exact Option.some_ne_none v
      obtain ⟨o, ho⟩ := hb.owned hne
      by_cases hod : o = d
      · subst hod
        rcases h.fresh hd with hval | hval
        · rw [hval, hb.stored ho, hlast]
        · rw [hval, hlast]
      · rw [← hlast]
        exact hdone.arrived (fun ⟨value, hm⟩ => ⟨_, hm⟩) (h.progress ho hd hod hne)
  · show (s.caches addr).lc.value? key = none
    have hlast : b.last key = none := hl
    by_cases ho : owner num iplist key = some addr
    · rcases h.fresh ho with hval | hval
      · rw [hval, hb.known addr hlast]
      · rw [hval, hlast]
    · rw [h.kept ho, hb.known addr hlast]
  · obtain ⟨o, ho⟩ := hb.owned hl
    exact exists_owner_of_subset ho hsub

end Migration

/-! ## Whole runs

A run begins with caches that have no keys, and then the invariant holds of none.
A write makes it true of its key, and a change keeps it. The room of the caches is
what keeps a `put` from evicting another key: as long as all keys fit, no cache
ever forgets one. -/

section WholeRuns

variable {num : ℕ} {K : Finset Bytes} {s : Cluster}

/-- A write at the owner keeps the cluster up to date. -/
theorem Cluster.UpToDate.setKey (h : s.UpToDate num K) {o key value : Bytes}
    (hk : key ∈ K) (ho : owner num s.list key = some o) :
    (s.setKey o key value).UpToDate num K := by
  have hspec := Cluster.setKey_spec o value hk h.fits
  have hval : ∀ a k, ((s.setKey o key value).caches a).lc.value? k
      = if a = o ∧ k = key then some value else (s.caches a).lc.value? k := by
    intro a k
    rw [(hspec a).2.1]
    by_cases ha : a = o
    · subst ha
      rw [if_pos rfl, (h.fits a).lc.value?_put hk]
      simp only [true_and]
    · rw [if_neg ha, if_neg (fun hc => ha hc.1)]
  refine ⟨fun a => (hspec a).1, fun {k a} hown => ?_, fun a {k} hl => ?_, fun {k} hl => ?_⟩
  · rw [hval, Cluster.last_setKey]
    have hown' : owner num s.list k = some a := hown
    by_cases hkk : k = key
    · subst hkk
      rw [ho] at hown'
      rw [if_pos ⟨(Option.some.inj hown').symm, rfl⟩, if_pos rfl]
    · rw [if_neg (fun hc => hkk hc.2), if_neg hkk, h.stored hown']
  · rw [Cluster.last_setKey] at hl
    rw [hval]
    by_cases hkk : k = key
    · rw [if_pos hkk] at hl
      exact absurd hl (Option.some_ne_none value)
    · rw [if_neg hkk] at hl
      rw [if_neg (fun hc => hkk hc.2), h.known a hl]
  · rw [Cluster.last_setKey] at hl
    show ∃ a, owner num s.list k = some a
    by_cases hkk : k = key
    · subst hkk
      exact ⟨o, ho⟩
    · rw [if_neg hkk] at hl
      exact h.owned hl

/-- A cluster that has just started is up to date. -/
theorem Cluster.upToDate_init (num : ℕ) {capacity : Bytes → ℤ} (list : List Bytes)
    (hcap : ∀ addr, (K.card : ℤ) ≤ capacity addr) :
    (Cluster.init num capacity list).UpToDate num K := by
  have hempty : ∀ addr, ((Cluster.init num capacity list).caches addr).lc
      = LRUCache.new (capacity addr) := by
    intro addr
    unfold Cluster.init
    dsimp only
    split <;> rfl
  refine ⟨Cluster.fits_init num list hcap, fun {key o} _ => ?_, fun addr {key} _ => ?_,
    fun hl => ?_⟩
  · rw [hempty]
    rfl
  · rw [hempty]
    rfl
  · exact absurd rfl hl

/-- **One event keeps the cluster up to date** when its copies agree and its
key is of the set. -/
theorem Cluster.UpToDate.step (h : s.UpToDate num K) {e : Event} {t : Cluster}
    (hguard : e.CopiesAgree num s) (hstep : s.step num e = some t) (hK : t.keys ⊆ K) :
    t.UpToDate num K := by
  obtain ⟨o, key, value, rfl, ho, rfl⟩ | ⟨iplist, moves, n, rfl, hsub, hrun, hdone, rfl⟩ :=
    Cluster.step_cases hstep
  · exact h.setKey (hK (List.mem_toFinset.mpr List.mem_cons_self)) ho
  · have hmig : n.Migrating num K s iplist :=
      Runs.exec_invariant' (Net.Migrating num K s iplist)
        (fun hn hm => hn.move h hguard hm) (h.migrating_net hsub) hrun
    exact hmig.upToDate h hsub hdone

/-- **No stale value after scale-out**, as long as copies agree. In every run
of client writes and joins from a started cluster whose caches have room for
the keys written, in which every list change starts with each copy about to
be sent equal to the one the current owner holds: a read at the current owner
of a key misses, or gives the value last written. -/
theorem copiesAgree_run_get_eq_last (num : ℕ) (capacity : Bytes → ℤ)
    (list : List Bytes) (es : List Event) (s : Cluster)
    (hrun : (Cluster.init num capacity list).run num es = some s)
    (hcap : ∀ addr, (s.keys.card : ℤ) ≤ capacity addr)
    (hguard : Runs.Guarded (Cluster.step num) (fun s e => e.CopiesAgree num s)
      (Cluster.init num capacity list) es)
    (key o : Bytes) (ho : owner num s.list key = some o) :
    key ∉ (s.caches o).lc.cache
      ∨ s.last key = some ((s.caches o).lc.get key true).2 := by
  have hup : s.UpToDate num s.keys :=
    Cluster.run_invariant (Cluster.UpToDate num s.keys)
      (fun hu hagree hstep hK => hu.step hagree hstep hK)
      (Cluster.upToDate_init num list hcap) hguard hrun (Finset.Subset.refl _)
  rw [LRUCache.get_snd, hup.stored ho]
  cases hlast : s.last key with
  | none =>
    refine Or.inl ((LRUCache.value?_eq_none_iff _ key).mp ?_)
    rw [hup.stored ho, hlast]
  | some v => exact Or.inr rfl

end WholeRuns

/-! ## A write that is lost

Three caches are needed. The first has the key and sends it to the second, which
is the owner from then on, and keeps its own copy. The key is written again at the
second. When the third cache comes in, the first sends its copy to the owner once
more, which is now the older value, and the owner takes it. -/

/-- The cache of the examples that is there from the start. -/
def cacheA : Bytes := str "127.0.0.1:8000"

/-- The cache that joins first, and owns the key from then on. -/
def cacheB : Bytes := str "127.0.0.1:8001"

/-- The cache that joins last. -/
def cacheC : Bytes := str "127.0.0.1:8002"

/-- A key is written at `A`; `B` joins and gets it. -/
def firstJoin : List Event :=
  let key := str "b"
  [Event.set key (str "1"),
    Event.addCache [cacheA, cacheB]
      [.start cacheA, .start cacheB, .send (cacheA, cacheB, key),
        .deliver (cacheB, Info.keyValueRespond key (str "1"))]]

/-- The key is written again, at `B`; `C` joins. `A` still has the first value
and sends it to `B`. -/
def secondJoin : List Event :=
  let key := str "b"
  [Event.set key (str "2"),
    Event.addCache [cacheA, cacheB, cacheC]
      [.start cacheA, .start cacheB, .start cacheC, .send (cacheA, cacheB, key),
        .deliver (cacheB, Info.keyValueRespond key (str "1")),
        .deliver (cacheC, Info.keyValueRespondBk key (str "1"))]]

/-- What the last owner answers after a run, and what was last written. -/
def readBack (capacity : Bytes → ℤ) (es : List Event) (key o : Bytes) :
    Option (Bool × Option Bytes × Bytes) :=
  ((Cluster.init 1 capacity [cacheA]).run 1 es).map (fun s =>
    (decide (owner 1 s.list key = some o ∧ key ∈ (s.caches o).lc.cache
      ∧ s.keys.card ≤ 100), s.last key, ((s.caches o).lc.get key true).2))

/-- What a run that reads back means for its last state. -/
theorem exists_run_of_readBack {es : List Event} {key o : Bytes} {w : Option Bytes}
    {v : Bytes} (h : readBack (fun _ => 100) es key o = some (true, w, v)) :
    ∃ s : Cluster, (Cluster.init 1 (fun _ => 100) [cacheA]).run 1 es = some s
      ∧ owner 1 s.list key = some o ∧ key ∈ (s.caches o).lc.cache
      ∧ s.keys.card ≤ 100 ∧ s.last key = w ∧ ((s.caches o).lc.get key true).2 = v := by
  obtain ⟨s, hs, heq⟩ := Option.map_eq_some_iff.mp h
  obtain ⟨hdec, hlast, hget⟩ : _ ∧ _ ∧ _ := by
    simpa only [Prod.mk.injEq] using heq
  obtain ⟨ho, hmem, hcard⟩ := of_decide_eq_true hdec
  exact ⟨s, hs, ho, hmem, hcard, hlast, hget⟩

/-- The first join of a cluster of one cache: the only copies are its own. -/
theorem copiesAgree_run_get_eq_last_firstJoin :
    ∃ s : Cluster, (Cluster.init 1 (fun _ => 100) [cacheA]).run 1 firstJoin = some s
      ∧ owner 1 s.list (str "b") = some cacheB
      ∧ s.last (str "b") = some ((s.caches cacheB).lc.get (str "b") true).2 := by
  have hread : readBack (fun _ => 100) firstJoin (str "b") cacheB
      = some (true, some (str "1"), str "1") := by decide +kernel
  obtain ⟨s, hs, ho, hmem, hcard, -⟩ := exists_run_of_readBack hread
  refine ⟨s, hs, ho, ?_⟩
  refine (copiesAgree_run_get_eq_last 1 (fun _ => 100) [cacheA] firstJoin s hs
    (fun _ => by exact_mod_cast hcard) ⟨trivial, fun u hu => ⟨?_, fun _ _ => trivial⟩⟩
    (str "b") cacheB ho).resolve_left (fun hno => hno hmem)
  have hfirst : ((Cluster.init 1 (fun _ => 100) [cacheA]).step 1
      (Event.set (str "b") (str "1"))).map (fun u => (u.list, (u.caches cacheB).lc.cache.keys))
        = some ([cacheA], []) := by decide +kernel
  rw [hu] at hfirst
  obtain ⟨hlist, hkeys⟩ := Prod.mk.inj (Option.some.inj hfirst)
  intro addr haddr key value hval hne
  rcases List.mem_cons.mp haddr with rfl | hB
  · -- `A` is the only cache of the ring so far
    obtain ⟨o, hown⟩ := ConsistentHash.exists_getServerIndex (ConsistentHash.new 1)
      (List.cons_ne_nil cacheA []) Nat.one_pos key
    obtain rfl : o = cacheA := List.mem_singleton.mp (mem_of_owner hown)
    exact ⟨cacheA, by rw [hlist]; exact hown, hval⟩
  · obtain rfl : addr = cacheB := List.mem_singleton.mp hB
    have hnone : (u.caches cacheB).lc.value? key = none := by
      rw [LRUCache.value?_eq_none_iff, AList.mem_keys, hkeys]
      exact List.not_mem_nil
    rw [hnone] at hval
    exact absurd hval (by simp)

/-- **A migration overwrites a newer value by an older one.** After the run
the owner of the key answers with the value that was overwritten. -/
theorem migration_overwrites_newer_value :
    ¬ ∀ (num : ℕ) (capacity : Bytes → ℤ) (list : List Bytes) (es : List Event)
      (s : Cluster), (Cluster.init num capacity list).run num es = some s →
      (∀ addr, (s.keys.card : ℤ) ≤ capacity addr) →
      ∀ key o, owner num s.list key = some o →
        key ∉ (s.caches o).lc.cache
          ∨ s.last key = some ((s.caches o).lc.get key true).2 := by
  intro h
  have hread : readBack (fun _ => 100) (firstJoin ++ secondJoin) (str "b") cacheB
      = some (true, some (str "2"), str "1") := by decide +kernel
  obtain ⟨s, hs, ho, hmem, hcard, hlast, hget⟩ := exists_run_of_readBack hread
  rcases h 1 (fun _ => 100) [cacheA] (firstJoin ++ secondJoin) s hs
    (fun _ => by exact_mod_cast hcard) (str "b") cacheB ho with hno | hyes
  · exact hno hmem
  · rw [hlast, hget] at hyes
    exact absurd hyes (by decide +kernel)

end Dcs
