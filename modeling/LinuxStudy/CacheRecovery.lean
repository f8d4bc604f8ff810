import LinuxStudy.CacheMigration

/-!
# Recovery after a crash

A cache is lost. The master sends the others the list without it, and each
survivor looks through `LC_BK` for keys whose owner, on the ring it had so
far, is not on the list any more. Such a key is *orphaned*. The survivor
rebuilds its ring, and every orphaned backup goes to the new owner of its
key: into the survivor's own `LC`, or by a message that the new owner takes
for a write.

Where a key's backup is kept changes when caches join, and the backup that
was made before stays where it is. So several survivors may hold a backup of
one key, each sends what it has, and the new owner keeps what arrives last.
`recovery_get_eq_last` says that nothing else can go wrong: as long as every
backup of the key among the survivors is the value last written, and there is
one, the new owner ends with that value, whatever the order of the messages.
With an older backup left behind by a join the value restored may be the
older one (`recovery_restores_older_value`).
-/

namespace Dcs

/-! ## The orphaned backups

The survivor goes through its backups with the ring it has, on which the cache
that was lost still stands. A backup is orphaned if the owner found there is not
on the new list. Then the ring is rebuilt, and each orphaned key goes to the owner
found on the new ring; the survivor's own go straight from `LC_BK` to `LC`. -/

namespace CacheServer

/-- A backup whose owner, on the ring the server has, is not on the list. -/
def Orphaned (c : CacheServer) (iplist : List Bytes) (key : Bytes) : Prop :=
  key ∈ c.lcBk.cache ∧ ∃ addr, c.keyAddr.getServerIndex key = some addr ∧ addr ∉ iplist

/-- The loop of `reflesh_handler` over `LC_BK`, from what it has so far. -/
theorem foldlM_keySend (f : Bytes → Option Bytes) (iplist : List Bytes)
    {l send keys : List Bytes}
    (h : l.foldlM (fun send key => (f key).map
      (fun addr => if addr ∈ iplist then send else send ++ [key])) send = some keys) :
    keys = send ++ l.filter (fun key => (f key).any (fun addr => addr ∉ iplist)) := by
  induction l generalizing send with
  | nil =>
    obtain rfl : send = keys := Option.some.inj h
    exact (List.append_nil send).symm
  | cons k l ih =>
    rw [List.foldlM_cons] at h
    cases hf : f k with
    | none =>
      rw [hf] at h
      exact absurd h (by simp)
    | some a =>
      rw [hf] at h
      rw [ih h, List.filter_cons, hf]
      by_cases ha : a ∈ iplist
      · -- the key has its owner still, and is passed over
        simp [ha]
      · simp [ha]

theorem keySend_eq {c : CacheServer} {iplist keys : List Bytes}
    (h : c.keySend iplist = some keys) :
    keys = c.lcBk.cache.keys.filter
      (fun key => (c.keyAddr.getServerIndex key).any (fun addr => addr ∉ iplist)) :=
  (foldlM_keySend c.keyAddr.getServerIndex iplist h).trans (List.nil_append _)

theorem mem_keySend {c : CacheServer} {iplist keys : List Bytes}
    (h : c.keySend iplist = some keys) (key : Bytes) :
    key ∈ keys ↔ c.Orphaned iplist key := by
  rw [keySend_eq h, List.mem_filter, Option.any_eq_true]
  refine and_congr_right (fun _ => exists_congr (fun addr => and_congr_right (fun _ => ?_)))
  exact decide_eq_true_iff

/-- **What `reflesh_handler` leaves**: the ring of the list, the orphaned
backups on their way to their new owners, and the server's own in `LC`. -/
structure Refleshed (num : ℕ) (K : Finset Bytes) (iplist : List Bytes) (addr : Bytes)
    (c : CacheServer) (r : CacheServer × Buckets Bytes Bytes) : Prop where
  fits : r.1.Fits num K addr
  lcBk : r.1.lcBk = c.lcBk
  /-- The buckets have the orphaned backups by their new owners. -/
  sends : ∀ dest key, (dest, key) ∈ r.2.pairs
    ↔ c.Orphaned iplist key ∧ owner num iplist key = some dest
  /-- An orphaned backup of its own is in `LC`. -/
  taken : ∀ {key}, c.Orphaned iplist key → owner num iplist key = some addr →
    r.1.lc.value? key = c.lcBk.value? key
  /-- Of any other key `LC` has what it had. -/
  left : ∀ {key}, ¬ (c.Orphaned iplist key ∧ owner num iplist key = some addr) →
    r.1.lc.value? key = c.lc.value? key

/-- `reflesh_handler` does what it is for. -/
theorem refleshed_refleshHandler {num : ℕ} {K : Finset Bytes} {iplist : List Bytes}
    {addr : Bytes} {c : CacheServer} {r : CacheServer × Buckets Bytes Bytes}
    (hc : c.Fits num K addr) (hr : refleshHandler iplist c = some r) :
    c.Refleshed num K iplist addr r := by
  obtain ⟨keys, hkeys, hr⟩ := Option.bind_eq_some_iff.mp hr
  obtain ⟨sendoutBk, hb, hr⟩ := Option.bind_eq_some_iff.mp hr
  obtain rfl := Option.some.inj hr
  have hsend : ∀ dest key, (dest, key) ∈ sendoutBk.pairs
      ↔ c.Orphaned iplist key ∧ owner num iplist key = some dest := by
    intro dest key
    rw [Buckets.mem_pairs_group hb, mem_keySend hkeys, getServerIndex_iplistchange,
      hc.virtualNodeNum]
    rfl
  have hown : ∀ key, key ∈ (sendoutBk.lookup (c.iplistchange iplist).curenAddr).getD []
      ↔ c.Orphaned iplist key ∧ owner num iplist key = some addr := by
    intro key
    rw [← Buckets.mem_pairs_iff, hsend]
    show _ ∧ _ = some c.curenAddr ↔ _
    rw [hc.curenAddr]
  obtain ⟨hroom, hval⟩ := hc.lc.foldl_put (fun key => (c.lcBk.get key false).2)
    (fun key hk => hc.lcBk.held key ((hown key).mp hk).1.1)
  refine ⟨⟨hc.curenAddr, ?_, hroom, hc.lcBk⟩, rfl, hsend, fun {key} horph ho => ?_,
    fun {key} hnot => ?_⟩
  · exact (ConsistentHash.refreshIPList_virtualNodeNum _ _).trans hc.virtualNodeNum
  · refine (hval key).trans ?_
    rw [if_pos ((hown key).mpr ⟨horph, ho⟩), LRUCache.get_snd]
    obtain ⟨v, hv⟩ := LRUCache.exists_value?_of_mem horph.1
    rw [hv, Option.getD_some]
  · refine (hval key).trans ?_
    rw [if_neg (fun hc => hnot ((hown key).mp hc))]

end CacheServer

theorem Change.fits_refleshIp (num : ℕ) (K : Finset Bytes) (iplist : List Bytes) :
    (Change.refleshIp iplist).Fits num K := by
  intro addr c r hc hr
  have hspec := CacheServer.refleshed_refleshHandler hc hr
  exact ⟨hspec.fits, fun e he => hc.lcBk.held e.2 ((hspec.sends e.1 e.2).mp he).1.1⟩

/-! ## The rings of a running cluster

Whether a backup is orphaned depends on the ring the survivor has, so what is
needed of a run is that every listed cache has the ring of the list when the
change begins. A cache gets its ring when it starts on a change, and a change is
over when all have started. -/

/-- **Every listed cache has the ring of the list**, and room for the keys. -/
structure Cluster.Settled (num : ℕ) (K : Finset Bytes) (s : Cluster) : Prop where
  fits : ∀ addr, (s.caches addr).Fits num K addr
  ring : ∀ addr ∈ s.list, ∀ key,
    (s.caches addr).keyAddr.getServerIndex key = owner num s.list key

/-- While caches join, a listed cache waits or has the new ring. -/
structure Net.Settling (num : ℕ) (K : Finset Bytes) (iplist : List Bytes)
    (s : Net) : Prop where
  fits : s.Fits num K
  ring : ∀ addr ∈ iplist, addr ∈ s.waiting
    ∨ ∀ key, (s.caches addr).keyAddr.getServerIndex key = owner num iplist key

/-- Every move of a join keeps or gives the new ring. -/
theorem Net.Settling.move {num : ℕ} {K : Finset Bytes} {iplist : List Bytes} {s t : Net}
    {up : Bytes → Bool} {m : Move} (h : s.Settling num K iplist)
    (hmove : s.move (Change.addCache iplist) up m = some t) : t.Settling num K iplist := by
  refine ⟨h.fits.move (Change.fits_addCache num K iplist) hmove, fun a ha => ?_⟩
  obtain ⟨addr, r, hw, hr, rfl⟩ | ⟨job, hj, rfl⟩ | ⟨message, hm, rfl⟩ :=
    Net.move_cases hmove
  · by_cases haddr : a = addr
    · -- the cache that starts builds the ring of the list from scratch
      subst haddr
      obtain ⟨b, -, rfl⟩ := Option.map_eq_some_iff.mp hr
      refine Or.inr (fun key => ?_)
      rw [Net.begin_caches, if_pos rfl, CacheServer.getServerIndex_iplistchange,
        (h.fits.caches a).virtualNodeNum]
      rfl
    · refine (h.ring a ha).imp (List.mem_erase_of_ne haddr).mpr (fun hring key => ?_)
      rw [Net.begin_caches, if_neg haddr, hring]
  · exact h.ring a ha
  · refine (h.ring a ha).imp_right (fun hring key => ?_)
    rw [Net.handle_keyAddr, hring]

/-- A cluster that has just started is settled. -/
theorem Cluster.settled_init (num : ℕ) {K : Finset Bytes} {capacity : Bytes → ℤ}
    (list : List Bytes) (hcap : ∀ addr, (K.card : ℤ) ≤ capacity addr) :
    (Cluster.init num capacity list).Settled num K := by
  refine ⟨Cluster.fits_init num list hcap, fun addr (ha : addr ∈ list) key => ?_⟩
  show (if addr ∈ list then _ else _ : CacheServer).keyAddr.getServerIndex key = _
  rw [if_pos ha, CacheServer.getServerIndex_iplistchange]
  show ((ConsistentHash.new ((ConsistentHash.new num).refreshIPList
    [addr]).virtualNodeNum).refreshIPList list).getServerIndex key = _
  rw [ConsistentHash.refreshIPList_virtualNodeNum]
  rfl

/-- One event keeps the cluster settled. -/
theorem Cluster.Settled.step {num : ℕ} {K : Finset Bytes} {s t : Cluster} {e : Event}
    (h : s.Settled num K) (hstep : s.step num e = some t) (hK : t.keys ⊆ K) :
    t.Settled num K := by
  obtain ⟨o, key, value, rfl, -, rfl⟩ | ⟨iplist, moves, n, rfl, -, hrun, hdone, rfl⟩ :=
    Cluster.step_cases hstep
  · have hspec := Cluster.setKey_spec o value
      (hK (List.mem_toFinset.mpr List.mem_cons_self)) h.fits
    refine ⟨fun a => (hspec a).1, fun a ha k => ?_⟩
    rw [(hspec a).2.2]
    exact h.ring a ha k
  · have hsettling : n.Settling num K iplist :=
      Runs.exec_invariant' (Net.Settling num K iplist) (fun hn hm => hn.move hm)
        ⟨⟨h.fits, fun _ hj => absurd hj List.not_mem_nil,
          fun _ hm => absurd hm List.not_mem_nil⟩,
          fun a ha => Or.inl (List.mem_dedup.mpr ha)⟩ hrun
    refine ⟨hsettling.fits.caches, fun a ha => (hsettling.ring a ha).resolve_left ?_⟩
    rw [hdone.1]
    exact List.not_mem_nil

/-! ## A recovery under way

One key is followed. It was owned by the cache that was lost, and one survivor has
a backup of it, the holder. What is asked of the state before is that the backups
of that key among the survivors have the last value, and that there is one. From
then on every message about the key carries that value, the holder's backup is
still there, is on its way or has arrived, and at the end the new owner has it.
The other keys do not matter, and no order of the moves does. -/

namespace Cluster

/-- The list without the cache that was lost. -/
def survivors (s : Cluster) (crashed : Bytes) : List Bytes :=
  s.list.filter (fun addr => addr ≠ crashed)

/-- **The handling of `REFLESH_IP`** by the survivors, in the order of the
moves. Nothing reaches the cache that was lost. -/
def recovery (s : Cluster) (crashed : Bytes) (moves : List Move) : Option Net :=
  Net.run (Change.refleshIp (s.survivors crashed)) (fun addr => addr ≠ crashed)
    (s.net (s.survivors crashed)) moves

end Cluster

/-- **The recovery of one key.** The survivors `iplist` had the ring of
`list`; `key` goes to `dest`, `value` is to be restored, and `holder` has a
backup of it. -/
structure Net.Recovering (num : ℕ) (K : Finset Bytes) (list iplist : List Bytes)
    (key value dest holder : Bytes) (s : Net) : Prop where
  fits : s.Fits num K
  nodup : s.waiting.Nodup
  listed : ∀ addr ∈ s.waiting, addr ∈ iplist
  /-- A cache that waits has the ring it had. -/
  ring : ∀ addr ∈ s.waiting, ∀ k,
    (s.caches addr).keyAddr.getServerIndex k = owner num list k
  /-- Every backup of the key is the value. -/
  copies : ∀ addr ∈ iplist, ∀ w, (s.caches addr).lcBk.value? key = some w → w = value
  /-- A thread with the key sends the value to the new owner. -/
  jobs : ∀ {addr d}, (addr, d, key) ∈ s.jobs →
    d = dest ∧ (s.caches addr).lcBk.value? key = some value
  /-- A message with the key goes to the new owner and has the value. -/
  responds : ∀ {d w}, (d, Info.keyValueRespond key w) ∈ s.inflight → d = dest ∧ w = value
  /-- A backup on its way has the value. -/
  backups : ∀ {d w}, (d, Info.keyValueRespondBk key w) ∈ s.inflight → w = value
  held : (s.caches holder).lcBk.value? key = some value
  /-- The holder's backup is on its way or has arrived. -/
  progress : holder ∈ s.waiting ∨ (holder, dest, key) ∈ s.jobs
    ∨ (dest, Info.keyValueRespond key value) ∈ s.inflight
    ∨ (s.caches dest).lc.value? key = some value

section Recovery

variable {num : ℕ} {K : Finset Bytes} {list iplist : List Bytes}
  {key value dest holder : Bytes} {s : Net}

theorem Net.Recovering.orphaned (h : s.Recovering num K list iplist key value dest holder)
    {crashed : Bytes} (hcrashed : owner num list key = some crashed)
    (hgone : crashed ∉ iplist) {addr : Bytes} (hw : addr ∈ s.waiting)
    (hmem : key ∈ (s.caches addr).lcBk.cache) :
    (s.caches addr).Orphaned iplist key :=
  ⟨hmem, crashed, (h.ring addr hw key).trans hcrashed, hgone⟩

theorem Net.Recovering.value?_of_orphaned
    (h : s.Recovering num K list iplist key value dest holder) {addr : Bytes}
    (hw : addr ∈ s.waiting) (horph : (s.caches addr).Orphaned iplist key) :
    (s.caches addr).lcBk.value? key = some value := by
  obtain ⟨w, hv⟩ := LRUCache.exists_value?_of_mem horph.1
  rw [hv, h.copies addr (h.listed addr hw) w hv]

/-- What a survivor that starts has to send. -/
theorem mem_jobs_begin {c : CacheServer} {r : CacheServer × Buckets Bytes Bytes}
    {addr a d k : Bytes} (hspec : c.Refleshed num K iplist addr r) :
    (a, d, k) ∈ (r.1.outgoing r.2).map (fun e => (addr, e.1, e.2))
      ↔ a = addr ∧ d ≠ addr ∧ c.Orphaned iplist k ∧ owner num iplist k = some d := by
  unfold CacheServer.outgoing
  rw [hspec.fits.curenAddr, ← hspec.sends]
  simp only [List.mem_map, List.mem_filter, Prod.mk.injEq, decide_eq_true_eq, Prod.exists]
  constructor
  · rintro ⟨d', k', ⟨hp, hne⟩, rfl, rfl, rfl⟩
    exact ⟨rfl, hne, hp⟩
  · rintro ⟨rfl, hne, hp⟩
    exact ⟨d, k, ⟨hp, hne⟩, rfl, rfl, rfl⟩

/-- A survivor that starts leaves the value in the new owner's `LC`. -/
theorem Net.Recovering.lc_begin (h : s.Recovering num K list iplist key value dest holder)
    (hdest : owner num iplist key = some dest) {addr : Bytes}
    {r : CacheServer × Buckets Bytes Bytes} (hw : addr ∈ s.waiting)
    (hspec : (s.caches addr).Refleshed num K iplist addr r)
    (hval : (s.caches dest).lc.value? key = some value) :
    ((s.begin addr r).caches dest).lc.value? key = some value := by
  rw [Net.begin_caches]
  by_cases ha : dest = addr
  · subst ha
    rw [if_pos rfl]
    by_cases horph : (s.caches dest).Orphaned iplist key
    · rw [hspec.taken horph hdest, h.value?_of_orphaned hw horph]
    · rw [hspec.left (fun hc => horph hc.1), hval]
  · rw [if_neg ha, hval]

/-- The holder's backup is on its way, or has arrived, after a survivor
started. -/
theorem Net.Recovering.progress_begin
    (h : s.Recovering num K list iplist key value dest holder)
    {crashed : Bytes} (hcrashed : owner num list key = some crashed)
    (hgone : crashed ∉ iplist) (hdest : owner num iplist key = some dest) {addr : Bytes}
    {r : CacheServer × Buckets Bytes Bytes} (hw : addr ∈ s.waiting)
    (hspec : (s.caches addr).Refleshed num K iplist addr r) :
    holder ∈ (s.begin addr r).waiting ∨ (holder, dest, key) ∈ (s.begin addr r).jobs
      ∨ (dest, Info.keyValueRespond key value) ∈ s.inflight
      ∨ ((s.begin addr r).caches dest).lc.value? key = some value := by
  rcases h.progress with hwait | hjob | hmsg | hval
  · by_cases ha : holder = addr
    · subst ha
      have horph := h.orphaned hcrashed hgone hw (LRUCache.mem_of_value?_eq_some h.held)
      by_cases hd : dest = holder
      · -- the holder is the new owner, and restores the key itself
        subst hd
        refine Or.inr (Or.inr (Or.inr ?_))
        rw [Net.begin_caches, if_pos rfl, hspec.taken horph hdest, h.held]
      · exact Or.inr (Or.inl (List.mem_append_right _
          ((mem_jobs_begin hspec).mpr ⟨rfl, hd, horph, hdest⟩)))
    · exact Or.inl ((List.mem_erase_of_ne ha).mpr hwait)
  · exact Or.inr (Or.inl (List.mem_append_left _ hjob))
  · exact Or.inr (Or.inr (Or.inl hmsg))
  · exact Or.inr (Or.inr (Or.inr (h.lc_begin hdest hw hspec hval)))

/-- A survivor starts on the list. -/
theorem Net.Recovering.begin (h : s.Recovering num K list iplist key value dest holder)
    {crashed : Bytes} (hcrashed : owner num list key = some crashed)
    (hgone : crashed ∉ iplist) (hdest : owner num iplist key = some dest) {addr : Bytes}
    {r : CacheServer × Buckets Bytes Bytes} (hw : addr ∈ s.waiting)
    (hr : CacheServer.refleshHandler iplist (s.caches addr) = some r)
    (hfit : (s.begin addr r).Fits num K) :
    (s.begin addr r).Recovering num K list iplist key value dest holder := by
  have hspec := CacheServer.refleshed_refleshHandler (h.fits.caches addr) hr
  have hbk : ∀ a, ((s.begin addr r).caches a).lcBk = (s.caches a).lcBk := by
    intro a
    rw [Net.begin_caches]
    by_cases ha : a = addr
    · rw [if_pos ha, ha, hspec.lcBk]
    · rw [if_neg ha]
  refine ⟨hfit, h.nodup.erase addr, fun a ha => h.listed a (List.mem_of_mem_erase ha),
    fun a ha k => ?_, fun a ha w hv => ?_, fun {a d} hj => ?_, h.responds, h.backups, ?_,
    h.progress_begin hcrashed hgone hdest hw hspec⟩
  · obtain ⟨hne, ha'⟩ := h.nodup.mem_erase_iff.mp ha
    rw [Net.begin_caches, if_neg hne, h.ring a ha']
  · rw [hbk] at hv
    exact h.copies a ha w hv
  · rw [hbk]
    rcases List.mem_append.mp hj with hold | hnew
    · exact h.jobs hold
    · obtain ⟨rfl, -, horph, ho⟩ := (mem_jobs_begin hspec).mp hnew
      rw [hdest] at ho
      exact ⟨(Option.some.inj ho).symm, h.value?_of_orphaned hw horph⟩
  · rw [hbk]
    exact h.held

/-- A thread sends a key. -/
theorem Net.Recovering.post (h : s.Recovering num K list iplist key value dest holder)
    {job : Bytes × Bytes × Bytes} (hj : job ∈ s.jobs)
    (hfit : (s.post (Change.refleshIp iplist) job).Fits num K) :
    (s.post (Change.refleshIp iplist) job).Recovering num K list iplist key value dest
      holder := by
  obtain ⟨addr, d, k⟩ := job
  -- what is sent of the key is the value, to the new owner
  have hsent : k = key →
      (d, CacheServer.sendoutData (s.caches addr).lcBk k)
        = (dest, Info.keyValueRespond key value) := by
    rintro rfl
    obtain ⟨rfl, hval⟩ := h.jobs hj
    show (_, Info.keyValueRespond k ((s.caches addr).lcBk.get k false).2) = _
    rw [LRUCache.get_snd, hval, Option.getD_some]
  refine ⟨hfit, h.nodup, h.listed, h.ring, h.copies,
    fun hj' => h.jobs (List.mem_of_mem_erase hj'), fun {d' w} hm => ?_,
    fun {d' w} hm => ?_, h.held, ?_⟩
  · rcases List.mem_append.mp hm with hold | hnew
    · exact h.responds hold
    · have heq : (d', Info.keyValueRespond key w)
          = (d, CacheServer.sendoutData (s.caches addr).lcBk k) := List.mem_singleton.mp hnew
      have hk : key = k := by
        injection heq with _ hinfo
        injection hinfo
      rw [hsent hk.symm] at heq
      simpa only [Prod.mk.injEq, Info.keyValueRespond.injEq, true_and] using heq
  · rcases List.mem_append.mp hm with hold | hnew
    · exact h.backups hold
    · have heq : (d', Info.keyValueRespondBk key w)
          = (d, CacheServer.sendoutData (s.caches addr).lcBk k) := List.mem_singleton.mp hnew
      injection heq with _ hinfo
      exact absurd hinfo (by simp [CacheServer.sendoutData])
  · rcases h.progress with hwait | hjob | hmsg | hval
    · exact Or.inl hwait
    · by_cases heq : (holder, dest, key) = (addr, d, k)
      · obtain ⟨-, -, hk⟩ : holder = addr ∧ dest = d ∧ key = k := by
          simpa only [Prod.mk.injEq] using heq
        exact Or.inr (Or.inr (Or.inl (List.mem_append_right _
          (List.mem_singleton.mpr (hsent hk.symm).symm))))
      · exact Or.inr (Or.inl ((List.mem_erase_of_ne heq).mpr hjob))
    · exact Or.inr (Or.inr (Or.inl (List.mem_append_left _ hmsg)))
    · exact Or.inr (Or.inr (Or.inr hval))

/-- What the key reads in the two caches of a server after a message that is
right about it: what it read, or the value. -/
theorem CacheServer.taskCfd_value? {addr : Bytes} {c : CacheServer}
    (hc : c.Fits num K addr) {info : Info} (hin : info.KeyIn K)
    (hresp : ∀ w, info = Info.keyValueRespond key w → w = value)
    (hback : ∀ w, info = Info.keyValueRespondBk key w → w = value) :
    ((c.taskCfd info).1.lc.value? key = c.lc.value? key
        ∨ (c.taskCfd info).1.lc.value? key = some value)
      ∧ ((c.taskCfd info).1.lcBk.value? key = c.lcBk.value? key
        ∨ (c.taskCfd info).1.lcBk.value? key = some value) := by
  cases info with
  | keyValueRequest k => exact hin.elim
  | refleshMaster ip => exact hin.elim
  | keyValueRespondBk k w =>
    refine ⟨Or.inl rfl, ?_⟩
    show (c.lcBk.put k w).value? key = _ ∨ (c.lcBk.put k w).value? key = _
    rw [hc.lcBk.value?_put hin]
    by_cases hk : key = k
    · subst hk
      rw [if_pos rfl, hback w rfl]
      exact Or.inr rfl
    · rw [if_neg hk]
      exact Or.inl rfl
  | keyValueRespond k w =>
    have heq : (c.taskCfd (Info.keyValueRespond k w)).1 = { c with lc := c.lc.put k w } :=
      CacheServer.kvrespondHandler_false c k w
    rw [heq]
    refine ⟨?_, Or.inl rfl⟩
    rw [hc.lc.value?_put hin]
    by_cases hk : key = k
    · subst hk
      rw [if_pos rfl, hresp w rfl]
      exact Or.inr rfl
    · rw [if_neg hk]
      exact Or.inl rfl

/-- A message is handled. -/
theorem Net.Recovering.handle (h : s.Recovering num K list iplist key value dest holder)
    {up : Bytes → Bool} {message : Bytes × Info} (hm : message ∈ s.inflight)
    (hfit : (s.handle up message).Fits num K) :
    (s.handle up message).Recovering num K list iplist key value dest holder := by
  obtain ⟨d, info⟩ := message
  have hin : info.KeyIn K := h.fits.inflight _ hm
  obtain ⟨hlcd, hbkd⟩ := CacheServer.taskCfd_value? (h.fits.caches d) hin
    (fun w hw => (h.responds (by rw [← hw]; exact hm)).2)
    (fun w hw => h.backups (by rw [← hw]; exact hm))
  have hlc : ∀ a, ((s.handle up (d, info)).caches a).lc.value? key
        = (s.caches a).lc.value? key
      ∨ ((s.handle up (d, info)).caches a).lc.value? key = some value := by
    exact Net.forall_handle_caches (P := fun a c => c.lc.value? key = (s.caches a).lc.value? key
      ∨ c.lc.value? key = some value) hlcd (fun _ => Or.inl rfl)
  have hbk : ∀ a, ((s.handle up (d, info)).caches a).lcBk.value? key
        = (s.caches a).lcBk.value? key
      ∨ ((s.handle up (d, info)).caches a).lcBk.value? key = some value := by
    exact Net.forall_handle_caches (P := fun a c => c.lcBk.value? key = (s.caches a).lcBk.value? key
      ∨ c.lcBk.value? key = some value) hbkd (fun _ => Or.inl rfl)
  have hnew : ∀ {m}, m ∈ ((s.caches d).taskCfd info).2.filter (fun m => up m.1) →
      ∃ k w, info = Info.keyValueRespond k w ∧ m.2 = Info.keyValueRespondBk k w :=
    fun hm' => CacheServer.mem_taskCfd (List.mem_filter.mp hm').1
  refine ⟨hfit, h.nodup, h.listed, fun a ha k => ?_, fun a ha w hv => ?_,
    fun {a d'} hj => ⟨(h.jobs hj).1, ?_⟩, fun {d' w} hm' => ?_,
    fun {d' w} hm' => ?_, ?_, ?_⟩
  · rw [Net.handle_keyAddr, h.ring a ha]
  · rcases hbk a with hold | hnew'
    · rw [hold] at hv
      exact h.copies a ha w hv
    · rw [hnew'] at hv
      exact (Option.some.inj hv).symm
  · exact (hbk a).elim (fun hold => hold.trans (h.jobs hj).2) id
  · rcases List.mem_append.mp hm' with hold | hm'
    · exact h.responds (List.mem_of_mem_erase hold)
    · obtain ⟨k, w', -, hback⟩ := hnew hm'
      exact absurd hback (by simp)
  · rcases List.mem_append.mp hm' with hold | hm'
    · exact h.backups (List.mem_of_mem_erase hold)
    · obtain ⟨k, w', hinfo, hback⟩ := hnew hm'
      obtain ⟨rfl, rfl⟩ : key = k ∧ w = w' := by
        simpa only [Info.keyValueRespondBk.injEq] using hback
      exact (h.responds (hinfo ▸ hm)).2
  · exact (hbk holder).elim (fun hold => hold.trans h.held) id
  · rcases h.progress with hwait | hjob | hmsg | hval
    · exact Or.inl hwait
    · exact Or.inr (Or.inl hjob)
    · by_cases heq : (dest, Info.keyValueRespond key value) = (d, info)
      · -- this is the message: the new owner has the value now
        obtain ⟨rfl, rfl⟩ : dest = d ∧ Info.keyValueRespond key value = info := by
          simpa only [Prod.mk.injEq] using heq
        refine Or.inr (Or.inr (Or.inr ?_))
        rw [Net.handle_caches, if_pos rfl]
        show ((s.caches dest).kvrespondHandler false key value).1.lc.value? key = _
        rw [CacheServer.kvrespondHandler_false, (h.fits.caches dest).lc.value?_put hin,
          if_pos rfl]
      · exact Or.inr (Or.inr (Or.inl (List.mem_append_left _
          ((List.mem_erase_of_ne heq).mpr hmsg))))
    · exact Or.inr (Or.inr (Or.inr ((hlc dest).elim (fun hold => hold.trans hval) id)))

/-- **Every move of a recovery keeps the value.** -/
theorem Net.Recovering.move (h : s.Recovering num K list iplist key value dest holder)
    {crashed : Bytes} (hcrashed : owner num list key = some crashed)
    (hgone : crashed ∉ iplist) (hdest : owner num iplist key = some dest)
    {up : Bytes → Bool} {t : Net} {m : Move}
    (hmove : s.move (Change.refleshIp iplist) up m = some t) :
    t.Recovering num K list iplist key value dest holder := by
  have hfit := h.fits.move (Change.fits_refleshIp num K iplist) hmove
  obtain ⟨addr, r, hw, hr, rfl⟩ | ⟨job, hj, rfl⟩ | ⟨message, hm, rfl⟩ :=
    Net.move_cases hmove
  · exact h.begin hcrashed hgone hdest hw hr hfit
  · exact h.post hj hfit
  · exact h.handle hm hfit

theorem Net.Recovering.value?_eq
    (h : s.Recovering num K list iplist key value dest holder) (hdone : s.Done) :
    (s.caches dest).lc.value? key = some value :=
  hdone.arrived (fun hm => ⟨_, hm⟩) h.progress

end Recovery

/-- **Recovery restores the last write**, as long as backups agree. Take any
run of client writes and joins from a started cluster whose caches have room
for the keys written, the loss of the owner of a key, and any order of the
recovery that follows. If a survivor has a backup of the key with the value
last written, and no survivor has one with another value, the new owner ends
with the value last written. -/
theorem recovery_get_eq_last (num : ℕ) (capacity : Bytes → ℤ) (list : List Bytes)
    (es : List Event) (s : Cluster)
    (hrun : (Cluster.init num capacity list).run num es = some s)
    (hcap : ∀ addr, (s.keys.card : ℤ) ≤ capacity addr)
    (crashed : Bytes) (moves : List Move) (t : Net)
    (hrec : s.recovery crashed moves = some t) (hdone : t.Done) (key value : Bytes)
    (hcrashed : owner num s.list key = some crashed) (hlast : s.last key = some value)
    (hcopy : ∃ addr ∈ s.survivors crashed, (s.caches addr).lcBk.value? key = some value)
    (hagree : ∀ addr ∈ s.survivors crashed, ∀ w,
      (s.caches addr).lcBk.value? key = some w → s.last key = some w) :
    ∃ o, owner num (s.survivors crashed) key = some o
      ∧ ((t.caches o).lc.get key true).2 = value := by
  have hset : s.Settled num s.keys :=
    Cluster.run_invariant (Cluster.Settled num s.keys) (fun hs _ hstep hK => hs.step hstep hK)
      (Cluster.settled_init num list hcap) (Runs.guarded_true _ _) hrun
      (Finset.Subset.refl _)
  obtain ⟨holder, hholder, hheld⟩ := hcopy
  have hgone : crashed ∉ s.survivors crashed := by
    intro hmem
    exact of_decide_eq_true (List.mem_filter.mp hmem).2 rfl
  obtain ⟨-, i, hi, -⟩ := (ConsistentHash.getServerIndex_refreshIPList_iff
    (ConsistentHash.new num) s.list key crashed).mp hcrashed
  obtain ⟨o, ho⟩ := ConsistentHash.exists_getServerIndex (ConsistentHash.new num)
    (List.ne_nil_of_mem hholder) (Nat.lt_of_le_of_lt (Nat.zero_le i) hi) key
  have hstart : (s.net (s.survivors crashed)).Recovering num s.keys s.list
      (s.survivors crashed) key value o holder := by
    refine ⟨⟨hset.fits, fun _ hj => absurd hj List.not_mem_nil,
      fun _ hm => absurd hm List.not_mem_nil⟩, List.nodup_dedup _,
      fun _ ha => List.mem_dedup.mp ha, fun a ha k => ?_, fun a ha w hv => ?_,
      fun hj => absurd hj List.not_mem_nil,
      fun hm => absurd hm List.not_mem_nil, fun hm => absurd hm List.not_mem_nil, hheld,
      Or.inl (List.mem_dedup.mpr hholder)⟩
    · exact hset.ring a (List.mem_filter.mp (List.mem_dedup.mp ha)).1 k
    · have hw := hagree a ha w hv
      rw [hlast] at hw
      exact (Option.some.inj hw).symm
  have hend := Runs.exec_invariant'
    (Net.Recovering num s.keys s.list (s.survivors crashed) key value o holder)
    (fun hn hm => hn.move hcrashed hgone ho hm) hstart hrec
  refine ⟨o, ho, ?_⟩
  rw [LRUCache.get_snd, hend.value?_eq hdone, Option.getD_some]

/-! ## A write that is not restored

A backup is not taken away when the place for it changes. After a cache has come
in between, the next write has its backup somewhere else, and the older one stays
where it was. Both are orphaned when the owner is lost, and both are sent. -/

/-- What a recovery of `A` ends with: the key's value before, the backups of
the survivors, and what the new owner `o` answers. -/
def recoverBack (list : List Bytes) (es : List Event) (moves : List Move)
    (key o : Bytes) : Option (Bool × Option Bytes × List (Option Bytes) × Bytes) :=
  ((Cluster.init 1 (fun _ => 100) list).run 1 es).bind (fun s =>
    (s.recovery cacheA moves).map (fun t =>
      (decide (owner 1 s.list key = some cacheA ∧ s.keys.card ≤ 100 ∧ t.Done
          ∧ owner 1 (s.survivors cacheA) key = some o),
        s.last key, (s.survivors cacheA).map (fun a => (s.caches a).lcBk.value? key),
        ((t.caches o).lc.get key true).2)))

/-- What a recovery that reads back means for its states. -/
theorem exists_recovery_of_recoverBack {list : List Bytes} {es : List Event}
    {moves : List Move} {key o v : Bytes} {w : Option Bytes} {copies : List (Option Bytes)}
    (h : recoverBack list es moves key o = some (true, w, copies, v)) :
    ∃ (s : Cluster) (t : Net), (Cluster.init 1 (fun _ => 100) list).run 1 es = some s
      ∧ s.recovery cacheA moves = some t ∧ owner 1 s.list key = some cacheA
      ∧ s.keys.card ≤ 100 ∧ t.Done ∧ owner 1 (s.survivors cacheA) key = some o
      ∧ s.last key = w
      ∧ (s.survivors cacheA).map (fun a => (s.caches a).lcBk.value? key) = copies
      ∧ ((t.caches o).lc.get key true).2 = v := by
  obtain ⟨s, hs, hrest⟩ := Option.bind_eq_some_iff.mp h
  obtain ⟨t, ht, heq⟩ := Option.map_eq_some_iff.mp hrest
  obtain ⟨hdec, hlast, hcopies, hget⟩ : _ ∧ _ ∧ _ ∧ _ := by
    simpa only [Prod.mk.injEq] using heq
  obtain ⟨ho, hcard, hdone, hnew⟩ := of_decide_eq_true hdec
  exact ⟨s, t, hs, ht, ho, hcard, hdone, hnew, hlast, hcopies, hget⟩

/-- Two caches, one write, the owner lost: its backup is all there is. -/
theorem recovery_get_eq_last_two_caches :
    ∃ (s : Cluster) (t : Net),
      (Cluster.init 1 (fun _ => 100) [cacheA, cacheB]).run 1 [Event.set (str "c") (str "1")]
        = some s
      ∧ s.recovery cacheA [.start cacheB] = some t
      ∧ ∃ o, owner 1 (s.survivors cacheA) (str "c") = some o
        ∧ ((t.caches o).lc.get (str "c") true).2 = str "1" := by
  have hread : recoverBack [cacheA, cacheB] [Event.set (str "c") (str "1")] [.start cacheB]
      (str "c") cacheB = some (true, some (str "1"), [some (str "1")], str "1") := by
    decide +kernel
  obtain ⟨s, t, hs, ht, ho, hcard, hdone, -, hlast, hcopies, -⟩ :=
    exists_recovery_of_recoverBack hread
  have hcopy : ∀ addr ∈ s.survivors cacheA,
      (s.caches addr).lcBk.value? (str "c") = some (str "1") := by
    intro addr haddr
    have hmem := List.mem_map_of_mem (f := fun a => (s.caches a).lcBk.value? (str "c")) haddr
    rw [hcopies] at hmem
    exact List.mem_singleton.mp hmem
  have hsome : ∃ addr, addr ∈ s.survivors cacheA := by
    refine List.exists_mem_of_ne_nil _ (fun hnil => ?_)
    rw [hnil] at hcopies
    exact absurd hcopies (by simp)
  obtain ⟨addr, haddr⟩ := hsome
  refine ⟨s, t, hs, ht, recovery_get_eq_last 1 (fun _ => 100) [cacheA, cacheB]
    [Event.set (str "c") (str "1")] s hs (fun _ => by exact_mod_cast hcard) cacheA
    [.start cacheB] t ht hdone (str "c") (str "1") ho hlast ⟨addr, haddr, hcopy addr haddr⟩
    (fun a ha w hw => ?_)⟩
  rw [hcopy a ha] at hw
  rw [hlast, hw]

/-- A key is written at `A` with its backup at `B`; `C` joins; the key is
written again at `A`, with its backup at `C`. -/
def movedBackup : List Event :=
  [Event.set (str "c") (str "1"),
    Event.addCache [cacheA, cacheB, cacheC] [.start cacheA, .start cacheB, .start cacheC],
    Event.set (str "c") (str "2")]

/-- `A` is lost. `C` is the new owner and puts its own backup into `LC`; then
the older one arrives from `B`. -/
def staleRecovery : List Move :=
  [.start cacheC, .start cacheB, .send (cacheB, cacheC, str "c"),
    .deliver (cacheC, Info.keyValueRespond (str "c") (str "1"))]

/-- **A recovery restores an older value**, although a survivor, here the new
owner itself, has a backup with the value last written. -/
theorem recovery_restores_older_value :
    ¬ ∀ (num : ℕ) (capacity : Bytes → ℤ) (list : List Bytes) (es : List Event)
      (s : Cluster), (Cluster.init num capacity list).run num es = some s →
      (∀ addr, (s.keys.card : ℤ) ≤ capacity addr) →
      ∀ (crashed : Bytes) (moves : List Move) (t : Net),
        s.recovery crashed moves = some t → t.Done →
        ∀ key value, owner num s.list key = some crashed → s.last key = some value →
          (∃ addr ∈ s.survivors crashed,
            (s.caches addr).lcBk.value? key = some value) →
          ∃ o, owner num (s.survivors crashed) key = some o
            ∧ ((t.caches o).lc.get key true).2 = value := by
  intro h
  have hread : recoverBack [cacheA, cacheB] movedBackup staleRecovery (str "c") cacheC
      = some (true, some (str "2"), [some (str "1"), some (str "2")], str "1") := by
    decide +kernel
  obtain ⟨s, t, hs, ht, ho, hcard, hdone, hnew, hlast, hcopies, hget⟩ :=
    exists_recovery_of_recoverBack hread
  have hcopy : ∃ addr ∈ s.survivors cacheA,
      (s.caches addr).lcBk.value? (str "c") = some (str "2") := by
    refine List.mem_map.mp ?_
    rw [hcopies]
    exact List.mem_cons_of_mem _ List.mem_cons_self
  obtain ⟨o, ho', hval⟩ := h 1 (fun _ => 100) [cacheA, cacheB] movedBackup s hs
    (fun _ => by exact_mod_cast hcard) cacheA staleRecovery t ht hdone (str "c") (str "2")
    ho hlast hcopy
  rw [hnew] at ho'
  rw [← Option.some.inj ho', hget] at hval
  exact absurd hval (by decide +kernel)

end Dcs
