import Mathlib.Data.Nat.ModEq
import LinuxStudy.BackUpServer

/-!
# Servers that come and go on the ring

What the ring answers, and what becomes of the answers when the servers
change. A key is stored at the clockwise successor of its hash
(`getServerIndex_refreshIPList_clockwise`): the least point of the list at or
after it, or the least point of all, and a point that several servers have is
the server's that comes first in the list.

A server that is added inserts its points and overwrites none, so a key goes
to the new server or stays (`getServerIndex_addServer`). A server that is
deleted is not the converse of that. `DeleteServer` erases the points of the
server by their hashes, and a point it shares with an earlier server was never
its own: the earlier server loses it. `getServerIndex_deleteServer_iff` says
for which keys that shows, and `deleteServer_moves_other_key` is a pair of
addresses whose points are all shared, as their hashes collide before the
number of the virtual node is appended.

The backup of a server is the server after it. Where the servers have
different hashes, the backups go once around the servers
(`getBackUpServer_cycle`).
-/

namespace Dcs

namespace ConsistentHash

/-! ## Where a key is stored -/

/-- **The clockwise successor of a key** among the virtual nodes of a list: the
least point that is not before the hash of the key, and where every point is
before it, the least point. -/
def ClockwiseSuccessor (num : ℕ) (L : List Bytes) (key : Bytes) (h : UInt32) : Prop :=
  (fnvHash key ≤ h
      ∧ ∀ t ∈ L, ∀ i < num, fnvHash key ≤ nodePoint t i → h ≤ nodePoint t i)
    ∨ ((∀ t ∈ L, ∀ i < num, nodePoint t i < fnvHash key)
      ∧ ∀ t ∈ L, ∀ i < num, h ≤ nodePoint t i)

/-- The point of least rank on the walk from a key is its clockwise
successor. -/
theorem clockwiseSuccessor_of_rank {num : ℕ} {L : List Bytes} {key s : Bytes} {i : ℕ}
    (hmin : ∀ t ∈ L, ∀ j < num,
      OrdMap.rank (fromKey key) (nodePoint s i)
        ≤ OrdMap.rank (fromKey key) (nodePoint t j)) :
    ClockwiseSuccessor num L key (nodePoint s i) := by
  have hcases := fun t ht j hj => (OrdMap.rank_le_rank_iff _ _ _).mp (hmin t ht j hj)
  cases hp : fromKey key (nodePoint s i) with
  | true =>
    refine Or.inl ⟨of_decide_eq_true hp, fun t ht j hj hle => ?_⟩
    rcases hcases t ht j hj with ⟨-, hbefore⟩ | ⟨-, hle'⟩
    · exact absurd hle (of_decide_eq_false hbefore)
    · exact hle'
  | false =>
    have hsame : ∀ t ∈ L, ∀ j < num, fromKey key (nodePoint t j) = false
        ∧ nodePoint s i ≤ nodePoint t j := by
      intro t ht j hj
      rcases hcases t ht j hj with ⟨hafter, -⟩ | ⟨heq, hle⟩
      · rw [hp] at hafter
        exact absurd hafter Bool.false_ne_true
      · exact ⟨heq.symm.trans hp, hle⟩
    exact Or.inr ⟨fun t ht j hj => not_le.mp (of_decide_eq_false (hsame t ht j hj).1),
      fun t ht j hj => (hsame t ht j hj).2⟩

/-- **A key is stored at its clockwise successor.** Whatever the ring was
before, after a refresh with a non-empty list the key is at a server of the
list that owns the clockwise successor of its hash, and of the servers of the
list that have this point it is the one that comes first. -/
theorem getServerIndex_refreshIPList_clockwise (c : ConsistentHash) {L : List Bytes}
    (hL : L ≠ []) (hnum : 1 ≤ c.virtualNodeNum) (key : Bytes) :
    ∃ s ∈ L, (c.refreshIPList L).getServerIndex key = some s
      ∧ ∃ i < c.virtualNodeNum,
        ClockwiseSuccessor c.virtualNodeNum L key (nodePoint s i)
        ∧ ∀ t ∈ L, (∃ j < c.virtualNodeNum, nodePoint t j = nodePoint s i) →
          L.idxOf s ≤ L.idxOf t := by
  obtain ⟨s, hindex⟩ := exists_getServerIndex c hL hnum key
  obtain ⟨hs, i, hi, hmin, hfirst⟩ := (getServerIndex_refreshIPList_iff c L key s).mp hindex
  exact ⟨s, hs, hindex, i, hi, clockwiseSuccessor_of_rank hmin, hfirst⟩

/-- A key of the ring of the two caches, after a refresh with another list. -/
theorem getServerIndex_refreshIPList_clockwise_two_servers :
    ∃ s ∈ twoServers,
      (((new 2).addServer (str "127.0.0.1:9000")).refreshIPList twoServers).getServerIndex
          (str "c") = some s
      ∧ ∃ i < 2, ClockwiseSuccessor 2 twoServers (str "c") (nodePoint s i)
        ∧ ∀ t ∈ twoServers, (∃ j < 2, nodePoint t j = nodePoint s i) →
          twoServers.idxOf s ≤ twoServers.idxOf t :=
  getServerIndex_refreshIPList_clockwise ((new 2).addServer (str "127.0.0.1:9000"))
    (by decide) (by decide) (str "c")

/-! ## A server that is added

A server that comes last never takes a point from another, since an insertion
leaves what is there. So the walk from a key meets the points it met before, and
new ones of the new server between them: it stops where it did, or earlier at a
point of the new server. -/

/-- **A server that is added attracts keys and moves no others.** On a ring with
a virtual node, however it came about, a key is afterwards at the new server
or where it was. -/
theorem getServerIndex_addServer (c : ConsistentHash) (hne : c.virtualNodes.entries ≠ [])
    (ip key : Bytes) :
    ∃ s, c.getServerIndex key = some s
      ∧ ((c.addServer ip).getServerIndex key = some ip
        ∨ (c.addServer ip).getServerIndex key = some s) := by
  obtain ⟨e, he⟩ := OrdMap.firstFrom_isSome (fromKey key) hne
  have hold : c.getServerIndex key = some e.2 := by
    rw [getServerIndex_eq, he]
    rfl
  refine ⟨e.2, hold, ?_⟩
  have hmem : e ∈ (c.addServer ip).virtualNodes.entries := by
    rw [addServer_virtualNodes]
    exact OrdMap.mem_insertAll_of_mem (OrdMap.firstFrom_spec he).1 _
  obtain ⟨e', he'⟩ := OrdMap.firstFrom_isSome (fromKey key) (List.ne_nil_of_mem hmem)
  have hnew : (c.addServer ip).getServerIndex key = some e'.2 := by
    rw [getServerIndex_eq, he']
    rfl
  rw [addServer_virtualNodes] at he'
  rw [hnew]
  rcases OrdMap.firstFrom_insertAll_map he' with hip | hsame
  · exact Or.inl (congrArg some hip)
  · rw [he] at hsame
    exact Or.inr (congrArg (fun e => some e.2) (Option.some.inj hsame).symm)

/-- A third cache beside the two. -/
theorem getServerIndex_addServer_third :
    ∃ s, ((new 2).refreshIPList twoServers).getServerIndex (str "c") = some s
      ∧ ((((new 2).refreshIPList twoServers).addServer (str "127.0.0.1:8002")).getServerIndex
            (str "c") = some (str "127.0.0.1:8002")
        ∨ (((new 2).refreshIPList twoServers).addServer (str "127.0.0.1:8002")).getServerIndex
            (str "c") = some s) :=
  getServerIndex_addServer _ (by decide +kernel) (str "127.0.0.1:8002") (str "c")

/-! ## A server that is deleted

A deletion erases the points of the server's virtual nodes, and a point is erased
whoever has it. A key of another server stays where it is exactly if the point at
which the walk from it stops is not one of those, or if the walk goes on to
another point of the same server before it meets any other. -/

theorem deleteServer_virtualNodes (c : ConsistentHash) (ip : Bytes) :
    (c.deleteServer ip).virtualNodes
      = c.virtualNodes.eraseAll (nodePoints c.virtualNodeNum ip) := by
  unfold deleteServer OrdMap.eraseAll nodePoints
  rw [List.foldl_map]

/-- **Where the walk from a key stops** on the virtual nodes of a list, some
points being gone: at the point `p` of the server `s`, with no point that is
left met earlier, and no earlier server of the list at that point. -/
def StopsAt (num : ℕ) (L : List Bytes) (key : Bytes) (gone : List UInt32) (s : Bytes)
    (p : UInt32) : Prop :=
  s ∈ L ∧ p ∈ nodePoints num s ∧ p ∉ gone
    ∧ (∀ t ∈ L, ∀ q ∈ nodePoints num t, q ∉ gone →
      OrdMap.rank (fromKey key) p ≤ OrdMap.rank (fromKey key) q)
    ∧ ∀ t ∈ L, p ∈ nodePoints num t → L.idxOf s ≤ L.idxOf t

/-- What the walk over the ring of a list finds, some points being gone. -/
theorem firstFrom_ring_iff (num : ℕ) (L : List Bytes) (key : Bytes) (gone : List UInt32)
    (s : Bytes) :
    (((ring num L).eraseAll gone).firstFrom (fromKey key)).map Prod.snd = some s
      ↔ ∃ p, StopsAt num L key gone s p := by
  have hwalk := OrdMap.firstFrom_eraseAll_ownerEntries_iff (fromKey key) (nodePoints num) L gone
  rw [Option.map_eq_some_iff]
  constructor
  · rintro ⟨⟨p, u⟩, h, rfl⟩
    exact ⟨p, (hwalk p u).mp h⟩
  · rintro ⟨p, hp⟩
    exact ⟨(p, s), (hwalk p s).mpr hp, rfl⟩

theorem getServerIndex_iff_stopsAt (c : ConsistentHash) (L : List Bytes) (key s : Bytes) :
    (c.refreshIPList L).getServerIndex key = some s
      ↔ ∃ p, StopsAt c.virtualNodeNum L key [] s p := by
  rw [getServerIndex_eq, refreshIPList_virtualNodes]
  exact firstFrom_ring_iff c.virtualNodeNum L key [] s

/-- After a server is deleted, a key is stored where the walk stops without the
points of that server. -/
theorem getServerIndex_deleteServer_iff_stopsAt (c : ConsistentHash) (L : List Bytes)
    (ip key s : Bytes) :
    ((c.refreshIPList L).deleteServer ip).getServerIndex key = some s
      ↔ ∃ p, StopsAt c.virtualNodeNum L key (nodePoints c.virtualNodeNum ip) s p := by
  rw [getServerIndex_eq, deleteServer_virtualNodes, refreshIPList_virtualNodes,
    refreshIPList_virtualNodeNum]
  exact firstFrom_ring_iff c.virtualNodeNum L key _ s

theorem StopsAt.of_left {num : ℕ} {L : List Bytes} {key : Bytes} {gone : List UInt32}
    {s : Bytes} {p : UInt32} (h : StopsAt num L key [] s p) (hleft : p ∉ gone) :
    StopsAt num L key gone s p := by
  obtain ⟨hs, hp, -, hmin, hfirst⟩ := h
  exact ⟨hs, hp, hleft, fun t ht q hq _ => hmin t ht q hq List.not_mem_nil, hfirst⟩

theorem StopsAt.exists_getServerIndex {c : ConsistentHash} {L : List Bytes} {key : Bytes}
    {gone : List UInt32} {s : Bytes} {p : UInt32}
    (h : StopsAt c.virtualNodeNum L key gone s p) :
    ∃ s, (c.refreshIPList L).getServerIndex key = some s := by
  obtain ⟨hs, hp, -⟩ := h
  obtain ⟨i, hi, -⟩ := mem_nodePoints.mp hp
  exact ConsistentHash.exists_getServerIndex c (List.ne_nil_of_mem hs)
    (Nat.one_le_iff_ne_zero.mpr (Nat.ne_zero_of_lt hi)) key

/-- **When a server that is deleted leaves a key of another one where it is.**
After a refresh, deleting `ip` moves no key that is stored elsewhere, exactly
if the point the walk from the key stops at is no point of `ip`, or the next
point that is none belongs to the same server. -/
theorem getServerIndex_deleteServer_iff (c : ConsistentHash) (L : List Bytes)
    (ip key : Bytes) :
    ((c.refreshIPList L).getServerIndex key ≠ some ip →
        ((c.refreshIPList L).deleteServer ip).getServerIndex key
          = (c.refreshIPList L).getServerIndex key)
      ↔ ∀ s p, StopsAt c.virtualNodeNum L key [] s p → s ≠ ip →
        p ∉ nodePoints c.virtualNodeNum ip
          ∨ ∃ q, StopsAt c.virtualNodeNum L key (nodePoints c.virtualNodeNum ip) s q := by
  constructor
  · intro hstays s p hstop hne
    have hbefore := (getServerIndex_iff_stopsAt c L key s).mpr ⟨p, hstop⟩
    rw [hbefore] at hstays
    refine Or.inr ((getServerIndex_deleteServer_iff_stopsAt c L ip key s).mp (hstays ?_))
    exact fun h => hne (Option.some.inj h)
  · intro hcond hne
    cases hbefore : (c.refreshIPList L).getServerIndex key with
    | none =>
      refine Option.eq_none_iff_forall_ne_some.mpr (fun s hafter => ?_)
      obtain ⟨p, hstop⟩ := (getServerIndex_deleteServer_iff_stopsAt c L ip key s).mp hafter
      obtain ⟨u, hu⟩ := hstop.exists_getServerIndex
      rw [hbefore] at hu
      exact absurd hu (Option.some_ne_none u).symm
    | some s =>
      obtain ⟨p, hstop⟩ := (getServerIndex_iff_stopsAt c L key s).mp hbefore
      have hs : s ≠ ip := fun h => hne (h ▸ hbefore)
      refine (getServerIndex_deleteServer_iff_stopsAt c L ip key s).mpr ?_
      rcases hcond s p hstop hs with hleft | hnext
      · exact ⟨p, hstop.of_left hleft⟩
      · exact hnext

/-- Three caches. The hashes of the first two collide, and so do those of all
their virtual nodes. -/
def collidingServers : List Bytes :=
  [str "192.168.61.234:8000", str "192.168.99.133:8003", str "127.0.0.1:8001"]

/-- **Deleting a server may move a key of another.** The key
`192.168.61.234:8000#0` is stored at `192.168.61.234:8000`; when
`192.168.99.133:8003` is deleted, it goes to `127.0.0.1:8001`. -/
theorem deleteServer_moves_other_key :
    ¬ ∀ (num : ℕ) (L : List Bytes) (ip key : Bytes), 1 ≤ num → L.Nodup →
      2 ≤ L.length → ip ∈ L →
      ((new num).refreshIPList L).getServerIndex key ≠ some ip →
      (((new num).refreshIPList L).deleteServer ip).getServerIndex key
        = ((new num).refreshIPList L).getServerIndex key := by
  intro h
  have hmoved := h 1 collidingServers (str "192.168.99.133:8003") (str "192.168.61.234:8000#0")
    (by decide) (by decide +kernel) (by decide) (by decide +kernel) (by decide +kernel)
  revert hmoved
  decide +kernel

example : ((new 1).refreshIPList collidingServers).getServerIndex (str "192.168.61.234:8000#0")
      = some (str "192.168.61.234:8000")
    ∧ (((new 1).refreshIPList collidingServers).deleteServer
        (str "192.168.99.133:8003")).getServerIndex (str "192.168.61.234:8000#0")
      = some (str "127.0.0.1:8001") := by
  decide +kernel

/-! ## The backups go around the servers

`GetBackUpServer` of a server is the next one on the ring of the servers, as the
walk begins past its own point. Asking again and again is going around this ring.
That all servers are on it, each once, needs that no two have the same hash. -/

/-- What is found from a server by asking so many times for the backup. -/
def backUps (c : ConsistentHash) (s : Bytes) : ℕ → Option Bytes
  | 0 => some s
  | k + 1 => (c.backUps s k).bind c.getBackUpServer

/-- The recorded servers, in the order of their points. -/
def recorded (c : ConsistentHash) : List Bytes := c.serverNodes.entries.map Prod.snd

/-- The backup of a recorded server is the next recorded server. -/
theorem getBackUpServer_of_recorded {c : ConsistentHash} (hc : c.ServerPoints) {i : ℕ}
    {s : Bytes} (hs : c.recorded[i]? = some s) :
    c.getBackUpServer s = c.recorded[(i + 1) % c.recorded.length]? := by
  unfold recorded at hs ⊢
  rw [List.getElem?_map, Option.map_eq_some_iff] at hs
  obtain ⟨e, he, rfl⟩ := hs
  obtain ⟨hi, rfl⟩ := List.getElem?_eq_some_iff.mp he
  rw [List.length_map, List.getElem?_map, ← OrdMap.firstFrom_past_getElem c.serverNodes hi,
    getBackUpServer_eq, hc _ (List.getElem_mem hi)]
  rfl

/-- **From a recorded server the backups go around the recorded servers.** -/
theorem backUps_of_recorded {c : ConsistentHash} (hc : c.ServerPoints) {i : ℕ} {s : Bytes}
    (hs : c.recorded[i]? = some s) (k : ℕ) :
    c.backUps s k = c.recorded[(i + k) % c.recorded.length]? := by
  have hi := (List.getElem?_eq_some_iff.mp hs).1
  induction k with
  | zero =>
    rw [Nat.add_zero, Nat.mod_eq_of_lt hi, hs]
    rfl
  | succ k ih =>
    have hmod : (i + k) % c.recorded.length < c.recorded.length :=
      Nat.mod_lt _ (Nat.zero_lt_of_lt hi)
    have hthere := List.getElem?_eq_getElem hmod
    rw [backUps, ih, hthere, Option.bind_some, getBackUpServer_of_recorded hc hthere,
      Nat.mod_add_mod, Nat.add_assoc]

/-- A fresh ring records the servers of the list, each at its own hash, where
their hashes differ. -/
theorem mem_serverNodes_iff {num : ℕ} {L : List Bytes}
    (hinj : ∀ s ∈ L, ∀ t ∈ L, fnvHash s = fnvHash t → s = t) (e : UInt32 × Bytes) :
    e ∈ ((new num).refreshIPList L).serverNodes.entries ↔ e.2 ∈ L ∧ e.1 = fnvHash e.2 := by
  rw [refreshIPList_serverNodes]
  refine (OrdMap.mem_insertAll_ownerEntries _ L e.1 e.2).trans ?_
  simp only [List.mem_singleton]
  constructor
  · rintro ⟨hmem, hpoint, -⟩
    exact ⟨hmem, hpoint⟩
  · rintro ⟨hmem, hpoint⟩
    refine ⟨hmem, hpoint, fun w hw heq => ?_⟩
    rw [hinj _ hmem w hw (hpoint.symm.trans heq)]

/-- **Where the hashes differ, the recorded servers are those of the list.** -/
theorem recorded_perm {num : ℕ} {L : List Bytes} (hnd : L.Nodup)
    (hinj : ∀ s ∈ L, ∀ t ∈ L, fnvHash s = fnvHash t → s = t) :
    ((new num).refreshIPList L).recorded.Perm L := by
  have hmem := @mem_serverNodes_iff num L hinj
  unfold recorded
  refine (List.perm_ext_iff_of_nodup ?_ hnd).mpr (fun t => ?_)
  · refine List.Nodup.map_on (fun a ha b hb heq => ?_)
      (((new num).refreshIPList L).serverNodes.sorted.imp (fun hlt heq => ?_))
    · refine Prod.ext ?_ heq
      rw [((hmem a).mp ha).2, ((hmem b).mp hb).2, heq]
    · rw [heq] at hlt
      exact lt_irrefl _ hlt
  · rw [List.mem_map]
    constructor
    · rintro ⟨e, he, rfl⟩
      exact ((hmem e).mp he).1
    · exact fun ht => ⟨(fnvHash t, t), (hmem _).mpr ⟨ht, rfl⟩, rfl⟩

/-- **The backups form one cycle.** On a fresh ring of a list of distinct
servers with distinct hashes, asking for the backup again and again leads from
any server of the list once through all of them and back. -/
theorem getBackUpServer_cycle (num : ℕ) {L : List Bytes} (hnd : L.Nodup)
    (hinj : ∀ s ∈ L, ∀ t ∈ L, fnvHash s = fnvHash t → s = t) {s : Bytes} (hs : s ∈ L) :
    (∀ i < L.length, ∀ j < L.length,
        ((new num).refreshIPList L).backUps s i = ((new num).refreshIPList L).backUps s j →
          i = j)
      ∧ (∀ t, t ∈ L ↔ ∃ k < L.length, ((new num).refreshIPList L).backUps s k = some t)
      ∧ ((new num).refreshIPList L).backUps s L.length = some s := by
  have hperm := @recorded_perm num L hnd hinj
  have hpoints : ((new num).refreshIPList L).ServerPoints :=
    (Reachable.new.refreshIPList L).serverPoints
  generalize (new num).refreshIPList L = c at hperm hpoints ⊢
  rw [← hperm.length_eq]
  obtain ⟨i₀, hi₀⟩ := List.mem_iff_getElem?.mp (hperm.mem_iff.mpr hs)
  have hlt := (List.getElem?_eq_some_iff.mp hi₀).1
  have hpos : 0 < c.recorded.length := Nat.zero_lt_of_lt hlt
  simp only [backUps_of_recorded hpoints hi₀]
  refine ⟨fun i hi j hj heq => ?_, fun t => ⟨fun ht => ?_, ?_⟩, ?_⟩
  · have hmod := (List.getElem?_inj (Nat.mod_lt _ hpos) (hperm.nodup_iff.mpr hnd)).mp heq
    exact Nat.ModEq.eq_of_lt_of_lt (Nat.ModEq.add_left_cancel' i₀ hmod) hi hj
  · obtain ⟨j, hj⟩ := List.mem_iff_getElem?.mp (hperm.mem_iff.mpr ht)
    have hj' := (List.getElem?_eq_some_iff.mp hj).1
    -- from the index of the one to the index of the other, around
    refine ⟨(j + (c.recorded.length - i₀)) % c.recorded.length, Nat.mod_lt _ hpos, ?_⟩
    rw [Nat.add_mod_mod, show i₀ + (j + (c.recorded.length - i₀)) = j + c.recorded.length by omega,
      Nat.add_mod_right, Nat.mod_eq_of_lt hj', hj]
  · rintro ⟨k, -, hk⟩
    exact hperm.mem_iff.mp (List.mem_iff_getElem?.mpr ⟨_, hk⟩)
  · rw [Nat.add_mod_right, Nat.mod_eq_of_lt hlt, hi₀]

/-- The backups of the two caches of the default configuration. -/
theorem getBackUpServer_cycle_two_servers :
    ((new 1).refreshIPList twoServers).backUps (str "127.0.0.1:8000") 2
      = some (str "127.0.0.1:8000") :=
  (getBackUpServer_cycle 1 (by decide +kernel) (by decide +kernel)
    (List.mem_cons_self : str "127.0.0.1:8000" ∈ twoServers)).2.2

end ConsistentHash

end Dcs
