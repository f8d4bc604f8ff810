import LinuxStudy.Bytes
import LinuxStudy.OrdMap

/-!
# The consistent-hash ring of the cache system

`ConsistentHash` keeps two ordered maps from 32-bit hashes to server
addresses. `virtualNodes` holds `virtualNodeNum` points per server, the
hashes of `ip#0`, `ip#1`, …, and decides where a key is stored: at the owner
of the first point at or after the hash of the key. `serverNodes` holds one
point per server, the hash of the address itself, and decides where a key is
backed up: at the owner of the first point strictly after the hash of the
key. Both searches wrap to the smallest point.

`refreshIPList` clears `virtualNodes` and not `serverNodes`. After it the
owner of a key depends on the list alone (`refreshIPList_virtualNodes`);
the backup server depends on every server the object ever knew
(`refreshIPList_serverNodes`).
-/

/-- The order of `uint32_t`, by which `std::map` keeps its keys. -/
instance instLinearOrderUInt32 : LinearOrder UInt32 where
  le_refl := UInt32.le_refl
  le_trans _ _ _ := UInt32.le_trans
  le_antisymm _ _ := UInt32.le_antisymm
  le_total := UInt32.le_total
  lt_iff_le_not_ge a b := by
    rw [UInt32.lt_iff_toNat_lt, UInt32.le_iff_toNat_le, UInt32.le_iff_toNat_le]
    omega
  toDecidableLE := inferInstance
  toDecidableLT := inferInstance
  toDecidableEq := inferInstance

namespace Dcs

/-- `FNVHash`. A `char` is signed, so a byte is extended with its sign before
it enters the hash. The closing test `hash < 0` never holds of an unsigned
number. -/
def fnvHash (key : Bytes) : UInt32 :=
  let hash : UInt32 := key.foldl
    (fun hash c => (hash ^^^ c.toInt8.toInt32.toUInt32) * 16777619) 2166136261
  let hash := hash + (hash <<< 13)
  let hash := hash ^^^ (hash >>> 7)
  let hash := hash + (hash <<< 3)
  let hash := hash ^^^ (hash >>> 17)
  hash + (hash <<< 5)

/-- **The consistent-hash ring.** -/
structure ConsistentHash where
  /-- The points of the virtual nodes, with their servers. -/
  virtualNodes : OrdMap UInt32 Bytes
  /-- The points of the servers themselves. -/
  serverNodes : OrdMap UInt32 Bytes
  /-- How many virtual nodes a server has. -/
  virtualNodeNum : ℕ

namespace ConsistentHash

/-- A new ring, without servers. -/
def new (num : ℕ) : ConsistentHash := ⟨OrdMap.empty, OrdMap.empty, num⟩

/-- The name of a virtual node: `nodeIp << "#" << i`. -/
def nodeKey (nodeIp : Bytes) (i : ℕ) : Bytes := nodeIp ++ str "#" ++ decimal i

/-- The point of a virtual node. -/
def nodePoint (nodeIp : Bytes) (i : ℕ) : UInt32 := fnvHash (nodeKey nodeIp i)

/-- `AddServer`. It returns `true` always. -/
def addServer (c : ConsistentHash) (nodeIp : Bytes) : ConsistentHash :=
  { c with
    virtualNodes := (List.range c.virtualNodeNum).foldl
      (fun m i => m.insert (nodePoint nodeIp i) nodeIp) c.virtualNodes
    serverNodes := c.serverNodes.insert (fnvHash nodeIp) nodeIp }

/-- `DeleteServer`. Points are erased by their hash, whoever owns them. -/
def deleteServer (c : ConsistentHash) (nodeIp : Bytes) : ConsistentHash :=
  { c with
    virtualNodes := (List.range c.virtualNodeNum).foldl
      (fun m j => m.erase (nodePoint nodeIp j)) c.virtualNodes
    serverNodes := c.serverNodes.erase (fnvHash nodeIp) }

/-- `RefreshIPList`: the virtual nodes are cleared, the servers of the list
added. `serverNodes` is not cleared. -/
def refreshIPList (c : ConsistentHash) (ipList : List Bytes) : ConsistentHash :=
  ipList.foldl addServer { c with virtualNodes := OrdMap.empty }

/-- `GetServerIndex`: where a key is stored. On an empty ring the code
dereferences `begin()` of an empty map, which is `none` here. -/
def getServerIndex (c : ConsistentHash) (key : Bytes) : Option Bytes :=
  match c.virtualNodes.lowerBound (fnvHash key) with
  | some it => some it.2
  | none => c.virtualNodes.entries.head?.map Prod.snd

/-- `GetBackUpServer`: where a key is backed up. -/
def getBackUpServer (c : ConsistentHash) (key : Bytes) : Option Bytes :=
  match c.serverNodes.upperBound (fnvHash key) with
  | some it => some it.2
  | none => c.serverNodes.entries.head?.map Prod.snd

/-- The points at or after the hash of a key. -/
def fromKey (key : Bytes) : UInt32 → Bool := fun p => fnvHash key ≤ p

/-- The points strictly after the hash of a key. -/
def pastKey (key : Bytes) : UInt32 → Bool := fun p => fnvHash key < p

theorem getServerIndex_eq (c : ConsistentHash) (key : Bytes) :
    c.getServerIndex key = (c.virtualNodes.firstFrom (fromKey key)).map Prod.snd := by
  unfold getServerIndex OrdMap.firstFrom OrdMap.lowerBound fromKey
  cases c.virtualNodes.entries.find? (fun e => fnvHash key ≤ e.1) <;> rfl

theorem getBackUpServer_eq (c : ConsistentHash) (key : Bytes) :
    c.getBackUpServer key = (c.serverNodes.firstFrom (pastKey key)).map Prod.snd := by
  unfold getBackUpServer OrdMap.firstFrom OrdMap.upperBound pastKey
  cases c.serverNodes.entries.find? (fun e => fnvHash key < e.1) <;> rfl

/-! ## What a refresh leaves

A refresh clears the virtual nodes and adds the servers of the list one after the
other; so afterwards the virtual nodes are those of the list, and which of two
servers has a point that both hash to is decided by their order in it.
`serverNodes` is added to only, and so it depends on everything that happened
before. -/

/-- The points of a server's virtual nodes. -/
def nodePoints (num : ℕ) (nodeIp : Bytes) : List UInt32 :=
  (List.range num).map (nodePoint nodeIp)

theorem mem_nodePoints {num : ℕ} {nodeIp : Bytes} {p : UInt32} :
    p ∈ nodePoints num nodeIp ↔ ∃ i < num, nodePoint nodeIp i = p := by
  unfold nodePoints
  rw [List.mem_map]
  exact exists_congr (fun i => and_congr_left' List.mem_range)

/-- **The ring of a list**: the virtual nodes of its servers, and no
others. -/
def ring (num : ℕ) (ipList : List Bytes) : OrdMap UInt32 Bytes :=
  OrdMap.empty.insertAll (OrdMap.ownerEntries (nodePoints num) ipList)

@[simp] theorem addServer_virtualNodeNum (c : ConsistentHash) (ip : Bytes) :
    (c.addServer ip).virtualNodeNum = c.virtualNodeNum := rfl

theorem addServer_virtualNodes (c : ConsistentHash) (ip : Bytes) :
    (c.addServer ip).virtualNodes
      = c.virtualNodes.insertAll
          ((nodePoints c.virtualNodeNum ip).map (fun p => (p, ip))) := by
  unfold addServer OrdMap.insertAll nodePoints
  rw [List.map_map, List.foldl_map]
  rfl

/-- Adding the servers of a list changes the virtual nodes by what the list
owns. -/
theorem foldl_addServer_virtualNodes (ipList : List Bytes) (c : ConsistentHash) :
    (ipList.foldl addServer c).virtualNodes
      = c.virtualNodes.insertAll
          (OrdMap.ownerEntries (nodePoints c.virtualNodeNum) ipList) := by
  induction ipList generalizing c with
  | nil => rfl
  | cons ip ipList ih =>
    rw [List.foldl_cons, ih, addServer_virtualNodes, addServer_virtualNodeNum,
      ← OrdMap.insertAll_append]
    rfl

theorem foldl_addServer_serverNodes (ipList : List Bytes) (c : ConsistentHash) :
    (ipList.foldl addServer c).serverNodes
      = c.serverNodes.insertAll
          (OrdMap.ownerEntries (fun ip => [fnvHash ip]) ipList) := by
  induction ipList generalizing c with
  | nil => rfl
  | cons ip ipList ih =>
    rw [List.foldl_cons, ih]
    rfl

/-- **After a refresh the virtual nodes depend on the list alone.** -/
theorem refreshIPList_virtualNodes (c : ConsistentHash) (ipList : List Bytes) :
    (c.refreshIPList ipList).virtualNodes = ring c.virtualNodeNum ipList :=
  foldl_addServer_virtualNodes ipList _

/-- **After a refresh `serverNodes` still holds every server it held.** -/
theorem refreshIPList_serverNodes (c : ConsistentHash) (ipList : List Bytes) :
    (c.refreshIPList ipList).serverNodes
      = c.serverNodes.insertAll
          (OrdMap.ownerEntries (fun ip => [fnvHash ip]) ipList) :=
  foldl_addServer_serverNodes ipList _

@[simp] theorem refreshIPList_virtualNodeNum (c : ConsistentHash)
    (ipList : List Bytes) :
    (c.refreshIPList ipList).virtualNodeNum = c.virtualNodeNum := by
  have h : ∀ c : ConsistentHash,
      (ipList.foldl addServer c).virtualNodeNum = c.virtualNodeNum := by
    induction ipList with
    | nil => exact fun _ => rfl
    | cons ip ipList ih => exact fun c => ih (c.addServer ip)
  exact h _

end ConsistentHash

end Dcs
