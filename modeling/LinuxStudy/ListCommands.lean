import LinuxStudy.CacheRecovery
import LinuxStudy.MasterHandler

/-!
# The lists a cache is sent

A cache takes three commands from the master, each with a list of caches. On
`SHUTDOWN_CACHE` and `ADD_CACHE` it rebuilds its ring from the list and looks
up every key of `LC` on it; the two differ in that the first ends the program
when the keys are sent. On `REFLESH_IP` it looks up every key of `LC_BK` on
the ring it has, rebuilds the ring, and looks up the orphaned ones again.

What `REFLESH_IP` is for it does (`refleshHandler_rehomes`): the orphaned
backups, and no others, go each to its owner on the new ring. There is a thread
for each owner, and `takeout_allval` has room for two hundred of them, which is
more than `LC_BK` has keys as `main` makes it; with more owners the threads go
past the end (`refleshHandler_past_takeoutAllval`).

But the list may be empty. It is, when the master removes the last cache, and the command that
carries it is `SHUTDOWN_CACHE`. A lookup on the ring of the empty list goes
through the first entry of an empty map. So a command is safe exactly if
there is nothing to look up, or no ring it looks at is empty
(`handleCommand_isSome_iff`).
-/

namespace Dcs

/-! ## Rings -/

namespace ConsistentHash

/-- A ring as a cache server has it: made for the server itself, and rebuilt
from one list after the other. -/
def reached (num : ℕ) (addr : Bytes) (lists : List (List Bytes)) : ConsistentHash :=
  lists.foldl refreshIPList ((new num).refreshIPList [addr])

/-- The ring of a list is empty exactly if the list is, or servers have no
virtual nodes. -/
theorem ring_entries_eq_nil_iff (num : ℕ) (ipList : List Bytes) :
    (ring num ipList).entries = [] ↔ num = 0 ∨ ipList = [] := by
  constructor
  · intro h
    by_contra hno
    obtain ⟨hnum, hlist⟩ := not_or.mp hno
    obtain ⟨ip, rest, rfl⟩ := List.exists_cons_of_ne_nil hlist
    have hpoint : nodePoint ip 0 ∈ nodePoints num ip :=
      mem_nodePoints.mpr ⟨0, Nat.pos_of_ne_zero hnum, rfl⟩
    obtain ⟨w, hw⟩ := OrdMap.exists_mem_insertAll_ownerEntries OrdMap.empty
      (f := nodePoints num) (List.mem_cons_self (a := ip) (l := rest)) hpoint
    have hmem : (nodePoint ip 0, w) ∈ (ring num (ip :: rest)).entries := hw
    rw [h] at hmem
    exact List.not_mem_nil hmem
  · rintro (rfl | rfl)
    · have hempty : OrdMap.ownerEntries (nodePoints 0) ipList = [] :=
        List.flatMap_eq_nil_iff.mpr (fun _ _ => rfl)
      unfold ring
      rw [hempty]
      rfl
    · rfl

/-- A lookup fails exactly on an empty ring. -/
theorem getServerIndex_eq_none_iff (c : ConsistentHash) (key : Bytes) :
    c.getServerIndex key = none ↔ c.virtualNodes.entries = [] := by
  rw [getServerIndex_eq, Option.map_eq_none_iff]
  constructor
  · intro h
    by_contra hno
    obtain ⟨e, he⟩ := OrdMap.firstFrom_isSome (fromKey key) hno
    exact Option.some_ne_none e (he.symm.trans h)
  · intro h
    unfold OrdMap.firstFrom
    rw [h]
    rfl

/-- A ring that was reached is the ring of some list. -/
theorem reached_spec (num : ℕ) (addr : Bytes) (lists : List (List Bytes)) :
    (reached num addr lists).virtualNodeNum = num
      ∧ ∃ ipList, (reached num addr lists).virtualNodes = ring num ipList := by
  have hfold : ∀ c : ConsistentHash,
      c.virtualNodeNum = num ∧ (∃ ipList, c.virtualNodes = ring num ipList) →
      (lists.foldl refreshIPList c).virtualNodeNum = num
        ∧ ∃ ipList, (lists.foldl refreshIPList c).virtualNodes = ring num ipList := by
    induction lists with
    | nil => exact fun c hc => hc
    | cons ipList lists ih =>
      rintro c ⟨hnum, -⟩
      refine ih (c.refreshIPList ipList) ⟨?_, ipList, ?_⟩
      · rw [refreshIPList_virtualNodeNum, hnum]
      · rw [refreshIPList_virtualNodes, hnum]
  refine hfold _ ⟨?_, [addr], ?_⟩
  · rw [refreshIPList_virtualNodeNum]
    rfl
  · rw [refreshIPList_virtualNodes]
    rfl

theorem refreshIPList_entries_eq_nil_iff {c : ConsistentHash} (hnum : 0 < c.virtualNodeNum)
    (ipList : List Bytes) :
    (c.refreshIPList ipList).virtualNodes.entries = [] ↔ ipList = [] := by
  rw [refreshIPList_virtualNodes, ring_entries_eq_nil_iff]
  exact or_iff_right hnum.ne'

end ConsistentHash

namespace CacheServer

open ConsistentHash (reached)

/-! ## Backups on their way

The loop walks the buckets in the order of an unordered map, and counts. Each
bucket gets a place of the array, that of the server itself included, for which no
thread is made. With at most two hundred buckets all threads have their place, and
whatever the order is, the same keys go to the same caches.

With more than two hundred besides the server's own, a thread is written past the
end of the array in every order, and there is no result. In between, with two
hundred and the server's own, it depends on which bucket comes last. -/

/-- What `reflesh_handler` produces: destination, key and value. -/
def rehomed (r : CacheServer × Buckets Bytes Bytes) : List (Bytes × Bytes × Bytes) :=
  r.2.pairs.map (fun e => (e.1, e.2, (r.1.lcBk.get e.2 false).2))

/-- How many threads `takeout_allval` has room for. -/
def takeoutAllval : ℕ := 200

/-- The loop of `reflesh_handler` over the buckets, from a count on: for which of
them a thread is created. Each is counted, the server's own as well, and the
thread of another is kept in `takeout_allval` at the count, which is undefined
past its end. -/
def createThreads (curenAddr : Bytes) : ℕ → List Bytes → Option (List Bytes)
  | _, [] => some []
  | count, dest :: dests =>
    if dest = curenAddr then createThreads curenAddr (count + 1) dests
    else if count < takeoutAllval then
      (createThreads curenAddr (count + 1) dests).map (fun threads => dest :: threads)
    else none

/-- **`reflesh_handler`** with its threads, by the order in which the map has its
buckets. -/
def refleshHandlerThreads (order : Buckets Bytes Bytes → List Bytes) (iplist : List Bytes)
    (c : CacheServer) : Option ((CacheServer × Buckets Bytes Bytes) × List Bytes) := do
  let r ← refleshHandler iplist c
  let threads ← createThreads c.curenAddr 0 (order r.2)
  some (r, threads)

/-- The messages the threads send. -/
def backupMessages (r : CacheServer × Buckets Bytes Bytes) (threads : List Bytes) :
    List (Bytes × Info) :=
  threads.flatMap (fun dest => ((r.2.lookup dest).getD []).map
    (fun key => (dest, sendoutData r.1.lcBk key)))

/-- The owners the orphaned backups have on the ring of the list, each once. -/
def destinations (c : CacheServer) (iplist : List Bytes) : List Bytes :=
  ((c.lcBk.cache.keys.filter
      (fun key => (c.keyAddr.getServerIndex key).any (fun addr => addr ∉ iplist))).filterMap
    (c.keyAddr.refreshIPList iplist).getServerIndex).dedup

/-- Where there is room for a thread for each bucket, each but the server's own
gets one. -/
theorem createThreads_eq_some {curenAddr : Bytes} {count : ℕ} {dests : List Bytes}
    (h : count + dests.length ≤ takeoutAllval) :
    createThreads curenAddr count dests = some (dests.filter (· ≠ curenAddr)) := by
  induction dests generalizing count with
  | nil => rfl
  | cons dest dests ih =>
    rw [List.length_cons] at h
    rw [createThreads, ih (by omega), List.filter_cons]
    by_cases hown : dest = curenAddr
    · rw [if_pos hown, if_neg (by simp [hown])]
    · rw [if_neg hown, if_pos (show count < takeoutAllval by omega), if_pos (by simp [hown])]
      rfl

/-- Where there is not even room for those, the threads go past the end. -/
theorem createThreads_eq_none {curenAddr : Bytes} {count : ℕ} {dests : List Bytes}
    (hsome : dests.filter (· ≠ curenAddr) ≠ [])
    (h : takeoutAllval < count + (dests.filter (· ≠ curenAddr)).length) :
    createThreads curenAddr count dests = none := by
  induction dests generalizing count with
  | nil => exact absurd rfl hsome
  | cons dest dests ih =>
    rw [List.filter_cons] at hsome h
    rw [createThreads]
    by_cases hown : dest = curenAddr
    · rw [if_neg (by simp [hown])] at hsome h
      rw [if_pos hown]
      exact ih hsome (by omega)
    · rw [if_pos (by simp [hown]), List.length_cons] at h
      rw [if_neg hown]
      split
      · next hlt =>
        have hrest : dests.filter (· ≠ curenAddr) ≠ [] := by
          intro hnil
          rw [hnil, List.length_nil] at h
          omega
        rw [ih hrest (by omega)]
        rfl
      · rfl

/-- `reflesh_handler` finds an owner for every key where neither ring is
empty. -/
theorem exists_refleshHandler {c : CacheServer} {iplist : List Bytes}
    (hold : c.keyAddr.virtualNodes.entries ≠ [])
    (hnew : (c.keyAddr.refreshIPList iplist).virtualNodes.entries ≠ []) :
    ∃ keys sendoutBk, c.keySend iplist = some keys
      ∧ Buckets.group (c.keyAddr.refreshIPList iplist).getServerIndex keys = some sendoutBk := by
  obtain ⟨keys, hkeys⟩ : ∃ keys, c.keySend iplist = some keys := by
    refine Option.ne_none_iff_exists'.mp (fun hnone => ?_)
    obtain ⟨key, -, hkey⟩ := (Buckets.foldlM_map_eq_none_iff _ _ _ _).mp hnone
    exact hold ((ConsistentHash.getServerIndex_eq_none_iff _ key).mp hkey)
  obtain ⟨sendoutBk, hsend⟩ : ∃ m, Buckets.group
      (c.keyAddr.refreshIPList iplist).getServerIndex keys = some m := by
    refine Option.ne_none_iff_exists'.mp (fun hnone => ?_)
    obtain ⟨key, -, hkey⟩ := Buckets.group_eq_none_iff.mp hnone
    exact hnew ((ConsistentHash.getServerIndex_eq_none_iff _ key).mp hkey)
  exact ⟨keys, sendoutBk, hkeys, hsend⟩

/-- The members of the buckets are the keys that were grouped. -/
theorem map_snd_pairs_perm {f : Bytes → Option Bytes} {keys : List Bytes}
    {m : Buckets Bytes Bytes} (h : Buckets.group f keys = some m) :
    (m.pairs.map Prod.snd).Perm keys := by
  have hall : ∀ key ∈ keys, f key ≠ none := by
    intro key hkey hnone
    exact Option.some_ne_none m (h.symm.trans (Buckets.group_eq_none_iff.mpr ⟨key, hkey, hnone⟩))
  refine ((Buckets.pairs_group h).map Prod.snd).trans (List.Perm.of_eq ?_)
  rw [List.map_filterMap]
  refine (List.filterMap_congr (fun key hkey => ?_)).trans (List.filterMap_some)
  obtain ⟨addr, haddr⟩ := Option.ne_none_iff_exists'.mp (hall key hkey)
  rw [haddr]
  rfl

/-- What `reflesh_handler` does, once every key has found its owner. -/
theorem refleshHandler_eq {c : CacheServer} {iplist keys : List Bytes}
    {sendoutBk : Buckets Bytes Bytes} (hkeys : c.keySend iplist = some keys)
    (hsend : Buckets.group (c.keyAddr.refreshIPList iplist).getServerIndex keys
      = some sendoutBk) :
    refleshHandler iplist c = some ({ c.iplistchange iplist with
      lc := ((sendoutBk.lookup c.curenAddr).getD []).foldl
        (fun lc key => lc.put key (c.lcBk.get key false).2) c.lc }, sendoutBk) := by
  unfold refleshHandler
  rw [hkeys]
  show Option.bind (Buckets.group (c.keyAddr.refreshIPList iplist).getServerIndex keys) _ = _
  rw [hsend]
  rfl

theorem refleshHandlerThreads_eq {c : CacheServer} {iplist threads : List Bytes}
    {order : Buckets Bytes Bytes → List Bytes} {r : CacheServer × Buckets Bytes Bytes}
    (hr : refleshHandler iplist c = some r)
    (hthreads : createThreads c.curenAddr 0 (order r.2) = some threads) :
    refleshHandlerThreads order iplist c = some (r, threads) := by
  unfold refleshHandlerThreads
  rw [hr, Option.bind_eq_bind, Option.bind_some, hthreads]
  rfl

/-- A destination and a key of the buckets, with the value of the key. -/
theorem mem_rehomed_iff (r : CacheServer × Buckets Bytes Bytes) {dest key value : Bytes} :
    (dest, key, value) ∈ rehomed r
      ↔ (dest, key) ∈ r.2.pairs ∧ (r.1.lcBk.get key false).2 = value := by
  unfold rehomed
  rw [List.mem_map]
  constructor
  · rintro ⟨e, he, heq⟩
    obtain ⟨rfl, hrest⟩ := Prod.mk.inj heq
    obtain ⟨rfl, rfl⟩ := Prod.mk.inj hrest
    exact ⟨he, rfl⟩
  · rintro ⟨he, rfl⟩
    exact ⟨(dest, key), he, rfl⟩

theorem keys_perm_destinations {c : CacheServer} {iplist keys : List Bytes}
    {sendoutBk : Buckets Bytes Bytes} (hkeys : c.keySend iplist = some keys)
    (hsend : Buckets.group (c.keyAddr.refreshIPList iplist).getServerIndex keys
      = some sendoutBk) : sendoutBk.keys.Perm (c.destinations iplist) := by
  unfold destinations
  rw [← keySend_eq hkeys]
  exact Buckets.keys_group hsend

/-- The messages are those of the buckets but the server's own, whatever order
the threads are created in. -/
theorem backupMessages_perm (r : CacheServer × Buckets Bytes Bytes) {dests : List Bytes}
    (hdests : dests.Perm r.2.keys) :
    (backupMessages r (dests.filter (· ≠ r.1.curenAddr))).Perm
      (((rehomed r).filter (fun t => t.1 ≠ r.1.curenAddr)).map
        (fun t => (t.1, Info.keyValueRespond t.2.1 t.2.2))) := by
  have hbuckets : ((rehomed r).filter (fun t => t.1 ≠ r.1.curenAddr)).map
      (fun t => (t.1, Info.keyValueRespond t.2.1 t.2.2))
      = backupMessages r (r.2.keys.filter (· ≠ r.1.curenAddr)) := by
    unfold rehomed backupMessages
    rw [List.filter_map, List.map_map]
    show ((r.2.pairs.filter (fun e => decide (e.1 ≠ r.1.curenAddr))).map _) = _
    rw [Buckets.filter_pairs r.2 (fun b => decide (b ≠ r.1.curenAddr)), List.map_flatMap]
    simp only [List.map_map]
    rfl
  rw [hbuckets]
  exact (hdests.filter _).flatMap_right _

/-- **Where the destinations are too many**, the threads go past the end. -/
theorem refleshHandlerThreads_eq_none {c : CacheServer} {iplist : List Bytes}
    {order : Buckets Bytes Bytes → List Bytes} (horder : ∀ m, (order m).Perm m.keys)
    (h : takeoutAllval < ((c.destinations iplist).filter (· ≠ c.curenAddr)).length) :
    refleshHandlerThreads order iplist c = none := by
  refine Option.bind_eq_none_iff.mpr fun r hr => ?_
  obtain ⟨keys, hkeys, hr⟩ := Option.bind_eq_some_iff.mp hr
  obtain ⟨sendoutBk, hsend, hr⟩ := Option.bind_eq_some_iff.mp hr
  obtain rfl := Option.some.inj hr
  have hperm := ((horder sendoutBk).trans (keys_perm_destinations hkeys hsend)).filter
    (· ≠ c.curenAddr)
  have hnone : createThreads c.curenAddr 0 (order sendoutBk) = none := by
    refine createThreads_eq_none (List.ne_nil_of_length_pos ?_) ?_
    · rw [hperm.length_eq]
      omega
    · rw [Nat.zero_add, hperm.length_eq]
      exact h
  show Option.bind (createThreads c.curenAddr 0 (order sendoutBk)) _ = none
  rw [hnone]
  rfl

/-- What the buckets have is the orphaned backups, each under its owner on the new
ring. -/
theorem mem_pairs_orphaned_iff {c : CacheServer} {iplist keys : List Bytes}
    {sendoutBk : Buckets Bytes Bytes} (hkeys : c.keySend iplist = some keys)
    (hsend : Buckets.group (c.keyAddr.refreshIPList iplist).getServerIndex keys = some sendoutBk)
    {dest key value : Bytes} :
    (dest, key) ∈ sendoutBk.pairs ∧ (c.lcBk.get key false).2 = value
      ↔ c.lcBk.value? key = some value
        ∧ (∃ owner, c.keyAddr.getServerIndex key = some owner ∧ owner ∉ iplist)
        ∧ (c.keyAddr.refreshIPList iplist).getServerIndex key = some dest := by
  have hget : (c.lcBk.get key false).2 = (c.lcBk.value? key).getD [] := c.lcBk.get_snd key false
  rw [Buckets.mem_pairs_group hsend, mem_keySend hkeys, hget]
  unfold Orphaned
  constructor
  · rintro ⟨⟨⟨hbackup, horphan⟩, hdest⟩, hvalue⟩
    obtain ⟨v, hv⟩ := LRUCache.exists_value?_of_mem hbackup
    rw [hv, Option.getD_some] at hvalue
    exact ⟨hvalue ▸ hv, horphan, hdest⟩
  · rintro ⟨hvalue, horphan, hdest⟩
    refine ⟨⟨⟨LRUCache.mem_of_value?_eq_some hvalue, horphan⟩, hdest⟩, ?_⟩
    rw [hvalue, Option.getD_some]

/-- **`reflesh_handler` re-homes the orphaned backups**, and nothing else. The
ring it has was reached and is not empty, neither is the list, and there is room
for the threads. What it produces is each backup whose owner has left, once, with
its value and its owner on the new ring. Those for the server itself are put into
`LC`, the others are sent. `LC_BK` is as it was, and the ring is that of the
list. -/
theorem refleshHandler_rehomes (c : CacheServer) (num : ℕ) (addr : Bytes)
    (lists : List (List Bytes)) (hring : c.keyAddr = reached num addr lists)
    (hold : c.keyAddr.virtualNodes.entries ≠ []) (iplist : List Bytes) (hlist : iplist ≠ [])
    (hroom : (c.destinations iplist).length ≤ takeoutAllval)
    (order : Buckets Bytes Bytes → List Bytes) (horder : ∀ m, (order m).Perm m.keys) :
    ∃ r threads, refleshHandlerThreads order iplist c = some (r, threads)
      ∧ (∀ dest key value, (dest, key, value) ∈ rehomed r
        ↔ c.lcBk.value? key = some value
          ∧ (∃ owner, c.keyAddr.getServerIndex key = some owner ∧ owner ∉ iplist)
          ∧ (c.keyAddr.refreshIPList iplist).getServerIndex key = some dest)
      ∧ ((rehomed r).map (fun t => t.2.1)).Nodup
      ∧ r.1.lc = ((rehomed r).filter (fun t => t.1 = c.curenAddr)).foldl
        (fun lc t => lc.put t.2.1 t.2.2) c.lc
      ∧ (backupMessages r threads).Perm (((rehomed r).filter (fun t => t.1 ≠ c.curenAddr)).map
        (fun t => (t.1, Info.keyValueRespond t.2.1 t.2.2)))
      ∧ r.1.lcBk = c.lcBk
      ∧ r.1.keyAddr = c.keyAddr.refreshIPList iplist := by
  obtain ⟨hnum, old, hnodes⟩ := ConsistentHash.reached_spec num addr lists
  rw [← hring] at hnum hnodes
  have hpos : 0 < c.keyAddr.virtualNodeNum := by
    rw [hnum]
    refine Nat.pos_of_ne_zero (fun h0 => hold ?_)
    rw [hnodes]
    exact (ConsistentHash.ring_entries_eq_nil_iff num old).mpr (Or.inl h0)
  have hnew : (c.keyAddr.refreshIPList iplist).virtualNodes.entries ≠ [] := fun hnil =>
    hlist ((ConsistentHash.refreshIPList_entries_eq_nil_iff hpos iplist).mp hnil)
  obtain ⟨keys, sendoutBk, hkeys, hsend⟩ := exists_refleshHandler hold hnew
  have hthreads : createThreads c.curenAddr 0 (order sendoutBk)
      = some ((order sendoutBk).filter (· ≠ c.curenAddr)) := by
    refine createThreads_eq_some ?_
    rw [Nat.zero_add, (horder sendoutBk).length_eq, (keys_perm_destinations hkeys hsend).length_eq]
    exact hroom
  refine ⟨_, _, refleshHandlerThreads_eq (refleshHandler_eq hkeys hsend) hthreads,
    fun dest key value => ?_, ?_, ?_, backupMessages_perm _ (horder _), rfl, rfl⟩
  · exact (mem_rehomed_iff _).trans (mem_pairs_orphaned_iff hkeys hsend)
  · unfold rehomed
    rw [List.map_map]
    refine ((map_snd_pairs_perm hsend).nodup_iff).mpr ?_
    rw [keySend_eq hkeys]
    exact c.lcBk.cache.keys_nodup.filter _
  · unfold rehomed
    rw [List.filter_map, List.foldl_map]
    show _ = (sendoutBk.pairs.filter (fun e => decide (e.1 = c.curenAddr))).foldl _ _
    rw [Buckets.filter_pairs_eq, List.foldl_map]
    rfl

/-- A server that keeps a backup for another. -/
def keepsBackup : CacheServer :=
  { new (str "127.0.0.1:8001") 1 10 with
    lcBk := (LRUCache.new 10).put (str "k") [1]
    keyAddr := reached 1 (str "127.0.0.1:8001") [[str "127.0.0.1:8000", str "127.0.0.1:8001"]] }

/-- The statement on it: the other server is lost, and the backup goes into
`LC`. -/
theorem refleshHandler_rehomes_keepsBackup :
    ∃ r threads, refleshHandlerThreads AList.keys [str "127.0.0.1:8001"] keepsBackup
        = some (r, threads)
      ∧ (str "127.0.0.1:8001", str "k", [1]) ∈ rehomed r ∧ r.1.lcBk = keepsBackup.lcBk := by
  obtain ⟨r, threads, hr, hmem, -, -, -, hlcBk, -⟩ := refleshHandler_rehomes keepsBackup 1
    (str "127.0.0.1:8001") [[str "127.0.0.1:8000", str "127.0.0.1:8001"]] rfl (by decide +kernel)
    [str "127.0.0.1:8001"] (by decide +kernel) (by decide +kernel) AList.keys
    (fun m => List.Perm.refl m.keys)
  refine ⟨r, threads, hr, (hmem _ _ _).mpr ⟨by decide +kernel, ⟨str "127.0.0.1:8000", ?_⟩, ?_⟩,
    hlcBk⟩
  · decide +kernel
  · decide +kernel

/-- A key that has the point of a server is there, if no other server has the
point. -/
theorem getServerIndex_nodeKey {c : ConsistentHash} (hnum : c.virtualNodeNum = 1)
    {L : List Bytes} (hpoints : (L.map (fun t => (ConsistentHash.nodePoint t 0).toNat)).Nodup)
    {s : Bytes} (hs : s ∈ L) :
    (c.refreshIPList L).getServerIndex (ConsistentHash.nodeKey s 0) = some s := by
  refine (ConsistentHash.getServerIndex_refreshIPList_iff c L _ s).mpr
    ⟨hs, 0, by omega, fun t _ j _ => ?_, fun t ht ⟨j, hj, hpoint⟩ => ?_⟩
  · refine (OrdMap.rank_le_rank_iff _ _ _).mpr ?_
    have hself : ConsistentHash.fromKey (ConsistentHash.nodeKey s 0)
        (ConsistentHash.nodePoint s 0) = true := decide_eq_true (le_refl _)
    cases hp : ConsistentHash.fromKey (ConsistentHash.nodeKey s 0)
        (ConsistentHash.nodePoint t j) with
    | false => exact Or.inl ⟨hself, rfl⟩
    | true => exact Or.inr ⟨hself, of_decide_eq_true hp⟩
  · obtain rfl : j = 0 := by omega
    have hsame : t = s := List.inj_on_of_nodup_map hpoints ht hs (congrArg UInt32.toNat hpoint)
    rw [hsame]

/-- More caches than `takeout_allval` has places. -/
def manyCaches : List Bytes :=
  (List.range 202).map (fun i => str "127.0.0.1:" ++ decimal (8000 + i))

/-- A backup for each of them. -/
def backups : LRUCache :=
  (manyCaches.map (fun s => ConsistentHash.nodeKey s 0)).foldl (fun lc key => lc.put key [1])
    (LRUCache.new 202)

/-- The first of them, which keeps the backups for a cache that is lost. -/
def manyBackups : CacheServer :=
  { new (str "127.0.0.1:8000") 1 202 with
    lcBk := backups
    keyAddr := reached 1 (str "127.0.0.1:8000") [[str "127.0.0.1:9000"]] }

theorem manyCaches_nodup :
    (manyCaches.map (fun s => (ConsistentHash.nodePoint s 0).toNat)).Nodup := by
  decide +kernel

/-- Every key has a backup. -/
theorem mem_backups {s : Bytes} (hs : s ∈ manyCaches) :
    ConsistentHash.nodeKey s 0 ∈ backups.cache := by
  have hkey : ConsistentHash.nodeKey s 0
      ∈ manyCaches.map (fun s => ConsistentHash.nodeKey s 0) := List.mem_map_of_mem hs
  have hcard : ((manyCaches.map (fun s => ConsistentHash.nodeKey s 0)).toFinset.card : ℤ)
      ≤ 202 := by
    have hle := List.toFinset_card_le (manyCaches.map (fun s => ConsistentHash.nodeKey s 0))
    have hlength : (manyCaches.map (fun s => ConsistentHash.nodeKey s 0)).length = 202 := by
      simp [manyCaches]
    omega
  have hvalue := ((LRUCache.holdsIn_new hcard).foldl_put (fun _ => [1])
    (fun key hk => List.mem_toFinset.mpr hk)).2 (ConsistentHash.nodeKey s 0)
  rw [if_pos hkey] at hvalue
  exact LRUCache.mem_of_value?_eq_some hvalue

/-- Every cache is a destination. -/
theorem mem_destinations_manyBackups {s : Bytes} (hs : s ∈ manyCaches) :
    s ∈ manyBackups.destinations manyCaches := by
  have hold : manyBackups.keyAddr.getServerIndex (ConsistentHash.nodeKey s 0)
      = some (str "127.0.0.1:9000") := by
    obtain ⟨o, ho⟩ := ConsistentHash.exists_getServerIndex
      ((ConsistentHash.new 1).refreshIPList [str "127.0.0.1:8000"])
      (List.cons_ne_nil (str "127.0.0.1:9000") []) Nat.one_pos (ConsistentHash.nodeKey s 0)
    have hmem := ((ConsistentHash.getServerIndex_refreshIPList_iff _ _ _ o).mp ho).1
    rw [List.mem_singleton.mp hmem] at ho
    exact ho
  unfold destinations
  rw [List.mem_dedup, List.mem_filterMap]
  refine ⟨ConsistentHash.nodeKey s 0, List.mem_filter.mpr
    ⟨AList.mem_keys.mp (mem_backups hs), ?_⟩, getServerIndex_nodeKey rfl manyCaches_nodup hs⟩
  rw [hold]
  decide +kernel

/-- **The threads go past the end of `takeout_allval`** when the orphaned backups
of a cache go to more than two hundred others. -/
theorem refleshHandler_past_takeoutAllval :
    ¬ ∀ (c : CacheServer) (num : ℕ) (addr : Bytes) (lists : List (List Bytes)),
      c.keyAddr = reached num addr lists → c.keyAddr.virtualNodes.entries ≠ [] →
      ∀ iplist : List Bytes, iplist ≠ [] →
      ∀ order : Buckets Bytes Bytes → List Bytes, (∀ m, (order m).Perm m.keys) →
        ∃ r threads, refleshHandlerThreads order iplist c = some (r, threads) := by
  intro h
  obtain ⟨r, threads, hr⟩ := h manyBackups 1 (str "127.0.0.1:8000") [[str "127.0.0.1:9000"]] rfl
    (by decide +kernel) manyCaches (by decide +kernel) AList.keys (fun m => List.Perm.refl m.keys)
  have hothers : takeoutAllval < (manyCaches.filter (· ≠ str "127.0.0.1:8000")).length := by
    decide +kernel
  have hle : (manyCaches.filter (· ≠ str "127.0.0.1:8000")).length
      ≤ ((manyBackups.destinations manyCaches).filter (· ≠ str "127.0.0.1:8000")).length := by
    refine (List.Nodup.subperm ((List.Nodup.of_map _ manyCaches_nodup).filter _)
      fun s hs => ?_).length_le
    obtain ⟨hs, hother⟩ := List.mem_filter.mp hs
    exact List.mem_filter.mpr ⟨mem_destinations_manyBackups hs, hother⟩
  exact Option.some_ne_none (r, threads) (hr.symm.trans (refleshHandlerThreads_eq_none
    (fun m => List.Perm.refl m.keys) (hothers.trans_le hle)))

/-! ## Commands that look up an empty ring

The ring of a list is empty if the list is, as every server has a virtual node. It
is looked up for each key of `LC`, or of `LC_BK`; so a command goes wrong exactly
if there is such a key and the ring is empty. `reflesh_handler` looks up twice:
the ring it has for every backup, and the new one for those that are orphaned. -/

/-- What a cache does with a command and its list, up to the threads that
send: `shutdown_handler`, `add_handler` and `reflesh_handler`. It is undefined
where the code looks up an empty ring. No cache is sent a
`DISTRIBUTION_RESPOND`, and it would be passed over. -/
def handleCommand (c : CacheServer) (iplist : List Bytes) :
    Command → Option (CacheServer × Buckets Bytes Bytes)
  | .shutdownCache => doitIplistchange iplist c
  | .addCache => doitIplistchange iplist c
  | .refleshIp => refleshHandler iplist c
  | .distributionRespond => some (c, ∅)

/-- **There is nothing to look up, or no ring that is looked at is empty.** -/
def Lookable (c : CacheServer) (iplist : List Bytes) : Command → Prop
  | .shutdownCache => c.lc.cache.keys = [] ∨ iplist ≠ []
  | .addCache => c.lc.cache.keys = [] ∨ iplist ≠ []
  | .refleshIp => c.lcBk.cache.keys = []
    ∨ c.keyAddr.virtualNodes.entries ≠ [] ∧ iplist ≠ []
  | .distributionRespond => True

/-- A changed list is looked up for the keys of `LC`. -/
theorem doitIplistchange_isSome_iff {c : CacheServer} (hnum : 0 < c.keyAddr.virtualNodeNum)
    (iplist : List Bytes) :
    (doitIplistchange iplist c).isSome ↔ c.lc.cache.keys = [] ∨ iplist ≠ [] := by
  have hnone : Buckets.group (c.keyAddr.refreshIPList iplist).getServerIndex c.lc.cache.keys = none
      ↔ c.lc.cache.keys ≠ [] ∧ iplist = [] := by
    rw [Buckets.group_eq_none_iff]
    simp only [ConsistentHash.getServerIndex_eq_none_iff,
      ConsistentHash.refreshIPList_entries_eq_nil_iff hnum]
    constructor
    · rintro ⟨key, hkey, hlist⟩
      exact ⟨List.ne_nil_of_mem hkey, hlist⟩
    · rintro ⟨hkeys, hlist⟩
      obtain ⟨key, hkey⟩ := List.exists_mem_of_ne_nil _ hkeys
      exact ⟨key, hkey, hlist⟩
  unfold doitIplistchange organizeData
  rw [Option.isSome_map, Option.isSome_iff_ne_none]
  refine (not_congr hnone).trans ?_
  rw [not_and_or, not_not]

/-- A lost cache is looked up for the keys of `LC_BK`, on the old ring and on
the new one. -/
theorem refleshHandler_isSome_iff {c : CacheServer} (hnum : 0 < c.keyAddr.virtualNodeNum)
    (iplist : List Bytes) :
    (refleshHandler iplist c).isSome
      ↔ c.lcBk.cache.keys = [] ∨ c.keyAddr.virtualNodes.entries ≠ [] ∧ iplist ≠ [] := by
  constructor
  · intro hsome
    obtain ⟨r, hr⟩ := Option.isSome_iff_exists.mp hsome
    obtain ⟨keys, hkeys, hr⟩ := Option.bind_eq_some_iff.mp hr
    obtain ⟨sendoutBk, hsend, -⟩ := Option.bind_eq_some_iff.mp hr
    refine or_iff_not_imp_left.mpr (fun hne => ?_)
    obtain ⟨key, hkey⟩ := List.exists_mem_of_ne_nil _ hne
    have hold : c.keyAddr.virtualNodes.entries ≠ [] := by
      intro hnil
      have hnone : c.keySend iplist = none := (Buckets.foldlM_map_eq_none_iff _ _ _ _).mpr
        ⟨key, hkey, (ConsistentHash.getServerIndex_eq_none_iff _ key).mpr hnil⟩
      exact Option.some_ne_none keys (hkeys.symm.trans hnone)
    refine ⟨hold, fun hempty => ?_⟩
    -- no server is on the empty list, so the key is looked up again
    have hmem : key ∈ keys := by
      refine (mem_keySend hkeys key).mpr ⟨hkey, ?_⟩
      obtain ⟨owner, howner⟩ := Option.ne_none_iff_exists'.mp
        (fun hnone => hold ((ConsistentHash.getServerIndex_eq_none_iff _ key).mp hnone))
      exact ⟨owner, howner, hempty ▸ List.not_mem_nil⟩
    have hnone := Buckets.group_eq_none_iff.mpr ⟨key, hmem,
      (ConsistentHash.getServerIndex_eq_none_iff (c.keyAddr.refreshIPList iplist) key).mpr
        ((ConsistentHash.refreshIPList_entries_eq_nil_iff hnum iplist).mpr hempty)⟩
    exact Option.some_ne_none sendoutBk (hsend.symm.trans hnone)
  · rintro (hkeys | ⟨hold, hlist⟩)
    · unfold refleshHandler keySend
      rw [hkeys]
      rfl
    · have hnew : (c.keyAddr.refreshIPList iplist).virtualNodes.entries ≠ [] := fun hnil =>
        hlist ((ConsistentHash.refreshIPList_entries_eq_nil_iff hnum iplist).mp hnil)
      obtain ⟨keys, sendoutBk, hkeys, hsend⟩ := exists_refleshHandler hold hnew
      unfold refleshHandler
      rw [hkeys]
      show (Option.bind (Buckets.group (c.keyAddr.refreshIPList iplist).getServerIndex keys)
        _).isSome
      rw [hsend]
      rfl

/-- **A command looks up no empty ring exactly if** there is nothing to look
up or no ring it looks at is empty, whatever the caches hold and whatever
lists the ring was built from before. -/
theorem handleCommand_isSome_iff (c : CacheServer) (num : ℕ) (hnum : 0 < num) (addr : Bytes)
    (lists : List (List Bytes)) (hring : c.keyAddr = reached num addr lists)
    (iplist : List Bytes) (command : Command) :
    (c.handleCommand iplist command).isSome ↔ c.Lookable iplist command := by
  have hpos : 0 < c.keyAddr.virtualNodeNum := by
    rw [hring, (ConsistentHash.reached_spec num addr lists).1]
    exact hnum
  cases command with
  | distributionRespond => exact iff_of_true rfl trivial
  | shutdownCache => exact doitIplistchange_isSome_iff hpos iplist
  | addCache => exact doitIplistchange_isSome_iff hpos iplist
  | refleshIp => exact refleshHandler_isSome_iff hpos iplist

/-- The statement for the lists two servers are sent. -/
theorem handleCommand_keepsBackup :
    (keepsBackup.handleCommand [str "127.0.0.1:8001"] .refleshIp).isSome
      ∧ (keepsBackup.handleCommand [] .shutdownCache).isSome :=
  ⟨(handleCommand_isSome_iff keepsBackup 1 Nat.one_pos (str "127.0.0.1:8001")
      [[str "127.0.0.1:8000", str "127.0.0.1:8001"]] rfl [str "127.0.0.1:8001"]
      .refleshIp).mpr (Or.inr ⟨by decide +kernel, by decide +kernel⟩),
    (handleCommand_isSome_iff keepsBackup 1 Nat.one_pos (str "127.0.0.1:8001")
      [[str "127.0.0.1:8000", str "127.0.0.1:8001"]] rfl [] .shutdownCache).mpr
      (Or.inl (by decide +kernel))⟩

/-- A server that stores a key. -/
def storesKey : CacheServer :=
  { new (str "127.0.0.1:8000") 1 10 with lc := (LRUCache.new 10).put (str "k") [1] }

/-- **The last cache looks up an empty ring when it is shut down.** The master
removes it and sends it the empty list, and it stores a key. -/
theorem shutdown_of_last_cache :
    ((((Master.init.heartBeat (str "127.0.0.1:8000") true).1.shutdownCache
        [str "127.0.0.1:8000"]).heartBeat (str "127.0.0.1:8000") true).2
      = [⟨some .shutdownCache, []⟩])
      ∧ ¬ ∀ (c : CacheServer) (num : ℕ) (addr : Bytes) (lists : List (List Bytes)),
        0 < num → c.keyAddr = reached num addr lists →
        ∀ (iplist : List Bytes) (command : Command), (c.handleCommand iplist command).isSome := by
  refine ⟨by decide +kernel, fun h => ?_⟩
  have hsome := h storesKey 1 (str "127.0.0.1:8000") [] Nat.one_pos rfl [] .shutdownCache
  exact absurd hsome (by decide +kernel)

end CacheServer

end Dcs
