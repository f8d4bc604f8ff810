import LinuxStudy.ConsistentHash

/-!
# Where a key is backed up

A stored key is meant to have a second copy on another cache:
`kvrespond_handler` asks `GetBackUpServer` for an address and skips the
backup when the answer is the cache itself. Whether there is a second copy
is therefore a question about two walks that start at the same hash – one
over the virtual nodes, one over the servers – and nothing in either walk
knows about the other.

`getBackUpServer_ne_getServerIndex_iff` says when they end at different
servers: some *other* server has a virtual node met before every virtual
node of the server that the second walk stops at. Nothing makes that so, and
two servers and one key already fail it
(`getBackUpServer_eq_getServerIndex_of_two_servers`). The unit test of the
ring calls `GetBackUpServer` with a *server's* address, where the walk over
the servers starts at the server's own point and leaves it.

The second half is about histories. `serverNodes` is never cleared, so the
walk past a key may stop at a server that left long ago.
`refreshIPList_getBackUpServer_iff` says exactly when it does not: no
departed server has its point between the key and the first server of the
list.
-/

namespace Dcs

namespace ConsistentHash

/-! ## The two walks over the ring of a list

Both walks start at the hash of the key. The one for storing looks at virtual
nodes, and takes one that stands at the hash itself; the one for the backup looks
at the servers' own points, and takes only what is past it. Two points may be the
same. Then `AddServer` has kept the one that was added first, and so it is the
place in the list that decides between them, which is why the orders below compare
the places as well as the points.

For the ring of a list both answers are described by the list alone. With more
than what the list has put there, in `serverNodes`, the third part is concerned. -/

/-- On the walk from a key over the virtual nodes, node `i` of `t` comes
before node `j` of `s`: it is met earlier, or the two collide and `t` was
added first. -/
def NodeBefore (L : List Bytes) (key : Bytes) (t : Bytes) (i : ℕ) (s : Bytes)
    (j : ℕ) : Prop :=
  OrdMap.rank (fromKey key) (nodePoint t i)
      < OrdMap.rank (fromKey key) (nodePoint s j)
    ∨ (nodePoint t i = nodePoint s j ∧ L.idxOf t < L.idxOf s)

/-- **The server next to a key**: of the servers of the list, the one whose
own point comes first strictly after the hash of the key – on a collision
the one added first. -/
def NextServer (L : List Bytes) (key s : Bytes) : Prop :=
  s ∈ L ∧ ∀ t ∈ L,
    OrdMap.rank (pastKey key) (fnvHash s) ≤ OrdMap.rank (pastKey key) (fnvHash t)
      ∧ (fnvHash t = fnvHash s → L.idxOf s ≤ L.idxOf t)

/-- The walk over the ring of a list stops at the server with the first
virtual node. -/
theorem getServerIndex_refreshIPList_iff (c : ConsistentHash) (L : List Bytes)
    (key s : Bytes) :
    (c.refreshIPList L).getServerIndex key = some s
      ↔ s ∈ L ∧ ∃ i < c.virtualNodeNum,
        (∀ t ∈ L, ∀ j < c.virtualNodeNum,
          OrdMap.rank (fromKey key) (nodePoint s i)
            ≤ OrdMap.rank (fromKey key) (nodePoint t j))
        ∧ ∀ t ∈ L, (∃ j < c.virtualNodeNum, nodePoint t j = nodePoint s i) →
          L.idxOf s ≤ L.idxOf t := by
  rw [getServerIndex_eq, refreshIPList_virtualNodes, ring, Option.map_eq_some_iff]
  constructor
  · rintro ⟨⟨p, u⟩, h, rfl⟩
    obtain ⟨hs, hp, hmin, hfirst⟩ :=
      (OrdMap.firstFrom_ownerEntries_iff _ _ L p u).mp h
    obtain ⟨i, hi, rfl⟩ := mem_nodePoints.mp hp
    exact ⟨hs, i, hi,
      fun t ht j hj => hmin t ht _ (mem_nodePoints.mpr ⟨j, hj, rfl⟩),
      fun t ht hj => hfirst t ht (mem_nodePoints.mpr hj)⟩
  · rintro ⟨hs, i, hi, hmin, hfirst⟩
    refine ⟨(nodePoint s i, s), ?_, rfl⟩
    refine (OrdMap.firstFrom_ownerEntries_iff _ _ L _ _).mpr
      ⟨hs, mem_nodePoints.mpr ⟨i, hi, rfl⟩, fun t ht q hq => ?_,
        fun t ht hq => hfirst t ht (mem_nodePoints.mp hq)⟩
    obtain ⟨j, hj, rfl⟩ := mem_nodePoints.mp hq
    exact hmin t ht j hj

/-- On a fresh ring the backup of a key is the server next to it. -/
theorem getBackUpServer_new_iff (num : ℕ) (L : List Bytes) (key s : Bytes) :
    ((new num).refreshIPList L).getBackUpServer key = some s
      ↔ NextServer L key s := by
  rw [getBackUpServer_eq, refreshIPList_serverNodes, Option.map_eq_some_iff]
  show (∃ e, (OrdMap.empty.insertAll _).firstFrom _ = some e ∧ _) ↔ _
  constructor
  · rintro ⟨⟨p, u⟩, h, rfl⟩
    obtain ⟨hs, hp, hmin, hfirst⟩ :=
      (OrdMap.firstFrom_ownerEntries_iff _ _ L p u).mp h
    obtain rfl : p = fnvHash u := List.mem_singleton.mp hp
    exact ⟨hs, fun t ht => ⟨hmin t ht _ (List.mem_singleton.mpr rfl),
      fun he => hfirst t ht (List.mem_singleton.mpr he.symm)⟩⟩
  · rintro ⟨hs, h⟩
    refine ⟨(fnvHash s, s), (OrdMap.firstFrom_ownerEntries_iff _ _ L _ _).mpr
      ⟨hs, List.mem_singleton.mpr rfl, fun t ht q hq => ?_, fun t ht hq => ?_⟩, rfl⟩
    · rw [List.mem_singleton.mp hq]
      exact (h t ht).1
    · exact (h t ht).2 (List.mem_singleton.mp hq).symm

/-- A ring with a server and a virtual node stores every key somewhere. -/
theorem exists_getServerIndex (c : ConsistentHash) {L : List Bytes} (hL : L ≠ [])
    (hnum : 1 ≤ c.virtualNodeNum) (key : Bytes) :
    ∃ s, (c.refreshIPList L).getServerIndex key = some s := by
  obtain ⟨a, ha⟩ := List.exists_mem_of_ne_nil L hL
  obtain ⟨w, hw⟩ := OrdMap.exists_mem_insertAll_ownerEntries OrdMap.empty ha
    (mem_nodePoints.mpr ⟨0, hnum, rfl⟩ : nodePoint a 0 ∈ nodePoints c.virtualNodeNum a)
  obtain ⟨e, he⟩ := OrdMap.firstFrom_isSome (fromKey key) (List.ne_nil_of_mem hw)
  refine ⟨e.2, ?_⟩
  rw [getServerIndex_eq, refreshIPList_virtualNodes, ring, he]
  rfl

theorem exists_getBackUpServer (c : ConsistentHash) {L : List Bytes} (hL : L ≠ [])
    (key : Bytes) : ∃ s, (c.refreshIPList L).getBackUpServer key = some s := by
  obtain ⟨a, ha⟩ := List.exists_mem_of_ne_nil L hL
  obtain ⟨w, hw⟩ := OrdMap.exists_mem_insertAll_ownerEntries c.serverNodes
    (f := fun ip => [fnvHash ip]) ha (List.mem_singleton.mpr rfl)
  obtain ⟨e, he⟩ := OrdMap.firstFrom_isSome (pastKey key) (List.ne_nil_of_mem hw)
  refine ⟨e.2, ?_⟩
  rw [getBackUpServer_eq, refreshIPList_serverNodes, he]
  rfl

/-! ## Backup and primary

The server next to the key is one answer, the owner of the first virtual node the
other. So they are different exactly if some other server has a virtual node
before all of those of the server next to the key: then the first virtual node is
of that one, or of one that is still before it. Nothing in the ring makes it so,
and two servers with one virtual node each are enough for a key for which it is
not. -/

/-- **When the backup is not the primary.** On a fresh ring of a list of at
least two distinct servers, `GetBackUpServer` and `GetServerIndex` answer
differently exactly when, for the server next to the key, another server has
a virtual node met before all of its virtual nodes. -/
theorem getBackUpServer_ne_getServerIndex_iff (num : ℕ) (L : List Bytes)
    (key : Bytes) (hnum : 1 ≤ num) (hnd : L.Nodup) (hlen : 2 ≤ L.length) :
    ((new num).refreshIPList L).getBackUpServer key
        ≠ ((new num).refreshIPList L).getServerIndex key
      ↔ ∀ s, NextServer L key s →
        ∃ t ∈ L, t ≠ s ∧ ∃ i < num, ∀ j < num, NodeBefore L key t i s j := by
  have hL : L ≠ [] := by
    rintro rfl
    exact absurd hlen (by simp)
  obtain ⟨b, hb⟩ := exists_getBackUpServer (new num) hL key
  obtain ⟨s₁, h₁⟩ := exists_getServerIndex (new num) hL hnum key
  have hnext : ∀ s, NextServer L key s ↔ s = b := by
    intro s
    rw [← getBackUpServer_new_iff num, hb, Option.some.injEq]
    exact eq_comm
  obtain ⟨hs₁, i, hi, hmin, hfirst⟩ :=
    (getServerIndex_refreshIPList_iff (new num) L key s₁).mp h₁
  have hbL : b ∈ L := ((hnext b).mpr rfl).1
  rw [hb, h₁, Ne, Option.some.injEq]
  simp only [hnext, forall_eq]
  constructor
  · -- the owner itself is met before the backup server
    intro hne
    refine ⟨s₁, hs₁, Ne.symm hne, i, hi, fun j hj => ?_⟩
    rcases (hmin b hbL j hj).lt_or_eq with hlt | heq
    · exact Or.inl hlt
    · have hp := OrdMap.rank_injective _ heq
      refine Or.inr ⟨hp, lt_of_le_of_ne (hfirst b hbL ⟨j, hj, hp.symm⟩) ?_⟩
      exact fun hidx => hne ((List.idxOf_inj hbL).mp hidx.symm)
  · rintro ⟨t, ht, -, k, hk, hbefore⟩ rfl
    rcases hbefore i hi with hlt | ⟨heq, hidx⟩
    · exact absurd (hmin t ht k hk) (not_le.mpr hlt)
    · exact absurd (hfirst t ht ⟨k, hk, heq⟩) (not_le.mpr hidx)

/-- The two caches of the default configuration. -/
def twoServers : List Bytes := [str "127.0.0.1:8000", str "127.0.0.1:8001"]

/-- A key of the ring of two servers whose backup is another server. -/
theorem getBackUpServer_ne_getServerIndex_two_servers :
    ((new 1).refreshIPList twoServers).getBackUpServer (str "c")
        ≠ ((new 1).refreshIPList twoServers).getServerIndex (str "c")
      ∧ ∀ s, NextServer twoServers (str "c") s →
        ∃ t ∈ twoServers, t ≠ s ∧ ∃ i < 1, ∀ j < 1,
          NodeBefore twoServers (str "c") t i s j := by
  have hne : ((new 1).refreshIPList twoServers).getBackUpServer (str "c")
      ≠ ((new 1).refreshIPList twoServers).getServerIndex (str "c") := by decide +kernel
  exact ⟨hne, (getBackUpServer_ne_getServerIndex_iff 1 twoServers (str "c") (by decide)
    (by decide +kernel) (by decide)).mp hne⟩

/-- **A key may be backed up on its primary.** With two servers and one
virtual node each, the key `a` is stored at `127.0.0.1:8000` and its backup
server is the same. -/
theorem getBackUpServer_eq_getServerIndex_of_two_servers :
    ¬ ∀ (num : ℕ) (L : List Bytes) (key : Bytes), 1 ≤ num → L.Nodup →
      2 ≤ L.length →
      ((new num).refreshIPList L).getBackUpServer key
        ≠ ((new num).refreshIPList L).getServerIndex key := by
  intro h
  exact h 1 twoServers (str "a") (by decide) (by decide +kernel) (by decide)
    (by decide +kernel)

/-! ## Backups and history

A program can do three things to its object, in any order, and none of them ever
takes a server from `serverNodes` but `DeleteServer`, and that one by its point.
So all that is known of `serverNodes` is that every server there stands at its own
hash (`Reachable.serverPoints`), and nothing says that it is a server of the list.

The walk after a refresh is then one among points some of which are of the list
and some of servers that have left. It stops at a server of the list exactly if
none of the others is in the way, and two objects stop at the same one exactly if
that is so for both and the first point has the same owner in both, which is a
question only where the points of two servers collide. -/

/-- **The objects a program can build**: a new ring, and any sequence of the
three operations on it. -/
inductive Reachable (num : ℕ) : ConsistentHash → Prop
  | new : Reachable num (new num)
  | refreshIPList {c : ConsistentHash} (L : List Bytes) :
      Reachable num c → Reachable num (c.refreshIPList L)
  | addServer {c : ConsistentHash} (nodeIp : Bytes) :
      Reachable num c → Reachable num (c.addServer nodeIp)
  | deleteServer {c : ConsistentHash} (nodeIp : Bytes) :
      Reachable num c → Reachable num (c.deleteServer nodeIp)

/-- Every server sits at its own hash. -/
def ServerPoints (c : ConsistentHash) : Prop :=
  ∀ e ∈ c.serverNodes.entries, e.1 = fnvHash e.2

theorem ServerPoints.addServer {c : ConsistentHash} (h : c.ServerPoints)
    (nodeIp : Bytes) : (c.addServer nodeIp).ServerPoints := by
  intro e he
  rcases OrdMap.mem_of_mem_insertEntry he with rfl | he'
  · rfl
  · exact h e he'

theorem ServerPoints.foldl_addServer (L : List Bytes) :
    ∀ {c : ConsistentHash}, c.ServerPoints →
      (L.foldl ConsistentHash.addServer c).ServerPoints := by
  induction L with
  | nil => exact fun h => h
  | cons ip L ih => exact fun h => ih (h.addServer ip)

theorem ServerPoints.refreshIPList {c : ConsistentHash} (h : c.ServerPoints)
    (L : List Bytes) : (c.refreshIPList L).ServerPoints :=
  ServerPoints.foldl_addServer L (fun e he => h e he)

/-- **Every object keeps its servers at their own hashes.** -/
theorem Reachable.serverPoints {num : ℕ} {c : ConsistentHash}
    (h : Reachable num c) : c.ServerPoints := by
  induction h with
  | new => exact fun e he => absurd he List.not_mem_nil
  | refreshIPList L _ ih => exact ih.refreshIPList L
  | addServer nodeIp _ ih => exact ih.addServer nodeIp
  | deleteServer nodeIp _ ih =>
    exact fun e he => ih e ((OrdMap.mem_erase _ _ e).mp he).1

/-- The server a point belongs to once a list has been added: the one
already recorded there, and otherwise the first of the list that hashes to
it. -/
def ownerAt (c : ConsistentHash) (L : List Bytes) (p : UInt32) : Option Bytes :=
  (c.serverNodes.get? p).or (L.find? (fun t => fnvHash t = p))

/-- What `serverNodes` reads after a refresh. -/
theorem get?_serverNodes_refreshIPList (c : ConsistentHash) (L : List Bytes)
    (p : UInt32) : (c.refreshIPList L).serverNodes.get? p = c.ownerAt L p := by
  have hmap : OrdMap.ownerEntries (fun ip => [fnvHash ip]) L
      = L.map (fun ip => (fnvHash ip, ip)) := by
    unfold OrdMap.ownerEntries
    rw [← List.flatMap_pure_eq_map]
    rfl
  unfold ownerAt
  rw [refreshIPList_serverNodes, OrdMap.get?_insertAll, hmap, List.find?_map,
    Option.map_map]
  refine congrArg _ ?_
  exact Option.map_id'

/-- **No departed server is in the way**: a recorded server met, past the
key, no later than every server of the list is one of the list. -/
def Undisturbed (c : ConsistentHash) (L : List Bytes) (key : Bytes) : Prop :=
  ∀ e ∈ c.serverNodes.entries,
    (∀ t ∈ L, OrdMap.rank (pastKey key) e.1 ≤ OrdMap.rank (pastKey key) (fnvHash t)) →
      e.2 ∈ L

/-- A server of the list that no other server of the list comes before. -/
def FirstOfList (L : List Bytes) (key s : Bytes) : Prop :=
  s ∈ L ∧ ∀ t ∈ L,
    OrdMap.rank (pastKey key) (fnvHash s) ≤ OrdMap.rank (pastKey key) (fnvHash t)

theorem FirstOfList.fnvHash_eq {L : List Bytes} {key s t : Bytes}
    (hs : FirstOfList L key s) (ht : FirstOfList L key t) : fnvHash s = fnvHash t :=
  OrdMap.rank_injective _ (le_antisymm (hs.2 t ht.1) (ht.2 s hs.1))

/-- What the walk past a key finds after a refresh: the owner of a point
that neither a recorded server nor a server of the list comes before. -/
theorem getBackUpServer_refreshIPList_spec {c : ConsistentHash} {L : List Bytes}
    {key s : Bytes} (hc : c.ServerPoints)
    (h : (c.refreshIPList L).getBackUpServer key = some s) :
    c.ownerAt L (fnvHash s) = some s
      ∧ (∀ t ∈ L, OrdMap.rank (pastKey key) (fnvHash s)
          ≤ OrdMap.rank (pastKey key) (fnvHash t))
      ∧ ∀ e ∈ c.serverNodes.entries,
          OrdMap.rank (pastKey key) (fnvHash s) ≤ OrdMap.rank (pastKey key) e.1 := by
  rw [getBackUpServer_eq, Option.map_eq_some_iff] at h
  obtain ⟨e, he, rfl⟩ := h
  obtain ⟨hmem, hmin⟩ := OrdMap.firstFrom_spec he
  have hpt : e.1 = fnvHash e.2 := hc.refreshIPList L e hmem
  rw [← hpt]
  refine ⟨?_, fun t ht => ?_, fun e' he' => ?_⟩
  · rw [← get?_serverNodes_refreshIPList]
    exact (OrdMap.get?_eq_some_iff _ _ _).mpr hmem
  · obtain ⟨w, hw⟩ := OrdMap.exists_mem_insertAll_ownerEntries c.serverNodes
      (f := fun ip => [fnvHash ip]) ht (List.mem_singleton.mpr rfl)
    rw [← refreshIPList_serverNodes] at hw
    exact hmin (fnvHash t, w) hw
  · -- a recorded server stays through the refresh
    refine hmin e' ?_
    rw [refreshIPList_serverNodes]
    exact OrdMap.mem_insertAll_of_mem he' _

/-- **The backup server is of the list exactly when no departed server is in
the way.** -/
theorem getBackUpServer_mem_iff {c : ConsistentHash} {L : List Bytes} {key s : Bytes}
    (hc : c.ServerPoints) (h : (c.refreshIPList L).getBackUpServer key = some s) :
    s ∈ L ↔ c.Undisturbed L key := by
  obtain ⟨hown, hminL, hmin⟩ := getBackUpServer_refreshIPList_spec hc h
  constructor
  · intro hs e he hfirst
    have hp : fnvHash s = e.1 :=
      OrdMap.rank_injective _ (le_antisymm (hmin e he) (hfirst s hs))
    have hg := (OrdMap.get?_eq_some_iff c.serverNodes e.1 e.2).mpr he
    rw [ownerAt, hp, hg, Option.some_or, Option.some.injEq] at hown
    rw [hown]
    exact hs
  · intro hund
    cases hg : c.serverNodes.get? (fnvHash s) with
    | some u =>
      have hu : u = s := by
        rw [ownerAt, hg, Option.some_or, Option.some.injEq] at hown
        exact hown
      rw [← hu]
      exact hund (fnvHash s, u) ((OrdMap.get?_eq_some_iff _ _ _).mp hg) hminL
    | none =>
      rw [ownerAt, hg, Option.none_or] at hown
      exact List.mem_of_find?_eq_some hown

/-- **When a refresh forgets the past.** Two objects with any histories,
refreshed with the same non-empty list, back a key up on the same server,
and on one of the list, exactly when no departed server is in the way in
either and the two record the same owner at the first point of the list. -/
theorem refreshIPList_getBackUpServer_iff {num : ℕ} {c₁ c₂ : ConsistentHash}
    (h₁ : Reachable num c₁) (h₂ : Reachable num c₂) {L : List Bytes} (hL : L ≠ [])
    (key : Bytes) :
    ((c₁.refreshIPList L).getBackUpServer key = (c₂.refreshIPList L).getBackUpServer key
        ∧ ∃ s ∈ L, (c₁.refreshIPList L).getBackUpServer key = some s)
      ↔ c₁.Undisturbed L key ∧ c₂.Undisturbed L key
        ∧ ∀ s, FirstOfList L key s →
          c₁.ownerAt L (fnvHash s) = c₂.ownerAt L (fnvHash s) := by
  obtain ⟨b₁, hb₁⟩ := exists_getBackUpServer c₁ hL key
  obtain ⟨b₂, hb₂⟩ := exists_getBackUpServer c₂ hL key
  obtain ⟨hown₁, hmin₁, -⟩ := getBackUpServer_refreshIPList_spec h₁.serverPoints hb₁
  obtain ⟨hown₂, hmin₂, -⟩ := getBackUpServer_refreshIPList_spec h₂.serverPoints hb₂
  rw [← getBackUpServer_mem_iff h₁.serverPoints hb₁,
    ← getBackUpServer_mem_iff h₂.serverPoints hb₂, hb₁, hb₂, Option.some.injEq]
  constructor
  · rintro ⟨rfl, s, hs, hbs⟩
    obtain rfl : b₁ = s := Option.some.inj hbs
    refine ⟨hs, hs, fun t ht => ?_⟩
    have hp : fnvHash t = fnvHash b₁ := ht.fnvHash_eq ⟨hs, hmin₁⟩
    rw [hp, hown₁, hown₂]
  · rintro ⟨hs₁, hs₂, hagree⟩
    have hp : fnvHash b₁ = fnvHash b₂ :=
      FirstOfList.fnvHash_eq ⟨hs₁, hmin₁⟩ ⟨hs₂, hmin₂⟩
    have hown := hagree b₁ ⟨hs₁, hmin₁⟩
    rw [hown₁, hp, hown₂] at hown
    exact ⟨Option.some.inj hown, b₁, hs₁, rfl⟩

/-- An object that has had other servers, which a refresh leaves where they are. -/
def afterRefresh : ConsistentHash :=
  (new 1).refreshIPList [str "127.0.0.1:8002", str "127.0.0.1:8000"]

/-- An object that has had a server taken away and another one added. -/
def afterChanges : ConsistentHash :=
  (((new 1).refreshIPList [str "127.0.0.1:8001"]).addServer (str "127.0.0.1:8003")).deleteServer
    (str "127.0.0.1:8001")

theorem reachable_afterRefresh : Reachable 1 afterRefresh := .refreshIPList _ .new

theorem reachable_afterChanges : Reachable 1 afterChanges :=
  .deleteServer _ (.addServer _ (.refreshIPList _ .new))

/-- The key `g` comes before the first server of the list, and the departed
servers behind it: the two agree. -/
theorem refreshIPList_getBackUpServer_histories :
    afterRefresh.Undisturbed twoServers (str "g")
      ∧ afterChanges.Undisturbed twoServers (str "g")
      ∧ ∀ s, FirstOfList twoServers (str "g") s →
        afterRefresh.ownerAt twoServers (fnvHash s) = afterChanges.ownerAt twoServers (fnvHash s) :=
  (refreshIPList_getBackUpServer_iff reachable_afterRefresh reachable_afterChanges (by decide)
    (str "g")).mp (by decide +kernel)

/-- **A refresh does not forget a departed server.** After `127.0.0.1:8000`
was on the list and left, the key `g` is still backed up there, while a
fresh object backs it up on the only server of the list. -/
theorem refreshIPList_getBackUpServer_departed :
    ¬ ∀ (num : ℕ) (c₁ c₂ : ConsistentHash) (L : List Bytes) (key : Bytes),
      Reachable num c₁ → Reachable num c₂ → L ≠ [] →
      (c₁.refreshIPList L).getBackUpServer key = (c₂.refreshIPList L).getBackUpServer key
        ∧ ∃ s ∈ L, (c₁.refreshIPList L).getBackUpServer key = some s := by
  intro h
  have hbad := (h 1 (new 1) ((new 1).refreshIPList [str "127.0.0.1:8000"])
    [str "127.0.0.1:8001"] (str "g") Reachable.new
    (Reachable.refreshIPList _ Reachable.new) (by decide)).1
  revert hbad
  decide +kernel

end ConsistentHash

end Dcs
