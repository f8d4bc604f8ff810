import LinuxStudy.BackUpServer
import LinuxStudy.Grouping
import LinuxStudy.LRUCache

/-!
# The cache server

A cache server keeps two caches – `LC`, the keys it stores, and `LC_BK`, the
backups it keeps for others – and its own copy of the ring. Three kinds of
message change it.

*From clients and other caches.* `kvrespond_handler` stores a key and sends
a backup to the server `GetBackUpServer` names, unless that is the server
itself; a backup message goes to `LC_BK` and no further. A migrated key
arrives as an ordinary `KEY_VALUE_RESPOND` and takes the path of a client's
write.

*From the master, a changed list.* The server rebuilds its ring, groups the
keys of `LC` by their owner on the *new* ring (`organize_data`), and for each
group but its own a thread sends the keys one by one (`sendout_data`).
Nothing is removed from `LC`.

*From the master, a lost cache.* `reflesh_handler` takes the keys of `LC_BK`
whose owner on the *old* ring has left, rebuilds the ring, puts into `LC`
those it now owns and sends the others, again without removing any.
-/

namespace Dcs

/-- A message between clients and caches. -/
inductive Info
  /-- `KEY_VALUE_REQUEST`: a client asks for a key. -/
  | keyValueRequest (key : Bytes)
  /-- `KEY_VALUE_RESPOND`: a key to store. -/
  | keyValueRespond (key value : Bytes)
  /-- `KEY_VALUE_RESPONDBK`: a key to keep as a backup. -/
  | keyValueRespondBk (key value : Bytes)
  /-- `REFLESH_MASTER`: the address of a new master. -/
  | refleshMaster (iplist : Bytes)
  deriving DecidableEq

/-- **A cache server.** -/
structure CacheServer where
  /-- Its own address. -/
  curenAddr : Bytes
  /-- The keys it stores. -/
  lc : LRUCache
  /-- The backups it keeps. -/
  lcBk : LRUCache
  /-- Its copy of the ring. -/
  keyAddr : ConsistentHash
  /-- The list the master sent last. -/
  ipportList : List Bytes
  /-- The master it reports to. -/
  masterAddr : Bytes

namespace CacheServer

/-- A server as `main` sets it up: empty caches, and itself alone on the
ring. -/
def new (addr : Bytes) (num : ℕ) (capacity : ℤ) : CacheServer where
  curenAddr := addr
  lc := LRUCache.new capacity
  lcBk := LRUCache.new capacity
  keyAddr := (ConsistentHash.new num).refreshIPList [addr]
  ipportList := []
  masterAddr := str "127.0.0.1:7000"

/-! ## Requests

A message to store a key is for the cache that handles it, whether it is the owner
or not; nothing asks for the ring there. The ring is asked for the place of the
backup only. A backup is stored and not passed on. -/

/-- `kvrequest_handler`: the value and the flag of the reply. -/
def kvrequestHandler (c : CacheServer) (key : Bytes) : CacheServer × Bytes × Bool :=
  let (lc, value) := c.lc.get key true
  ({ c with lc := lc }, value, value ≠ [])

/-- `kvrespond_handler`. A backup goes into `LC_BK` and no further. A key to
store goes into `LC`, and a backup of it to the server `GetBackUpServer`
names, unless that is the server itself. `serverNodes` has at least the
server itself, so there always is one. -/
def kvrespondHandler (c : CacheServer) (backup : Bool) (key value : Bytes) :
    CacheServer × List (Bytes × Info) :=
  if backup then ({ c with lcBk := c.lcBk.put key value }, [])
  else
    let c := { c with lc := c.lc.put key value }
    -- the walk starts at the key, not at the address of this server
    match c.keyAddr.getBackUpServer key with
    | none => (c, [])
    | some addr =>
      if addr ≠ [] ∧ addr ≠ c.curenAddr then
        (c, [(addr, Info.keyValueRespondBk key value)])
      else (c, [])

/-- `task_cfd` after the read: what a message does, and what is sent to other
caches on account of it. The reply to a request goes to the client. -/
def taskCfd (c : CacheServer) : Info → CacheServer × List (Bytes × Info)
  | .keyValueRequest key => ((c.kvrequestHandler key).1, [])
  | .keyValueRespond key value => c.kvrespondHandler false key value
  | .keyValueRespondBk key value => c.kvrespondHandler true key value
  | .refleshMaster iplist => ({ c with masterAddr := iplist }, [])

/-! ## A changed list

The ring is rebuilt before the keys are looked at, so the owner of a key is its
owner on the new ring. What the threads send is fixed then, key by key, but not
the values: a thread reads the value when it sends the key. -/

/-- `add_handler` and the constructor of `iplistchange_class`: the new list
is recorded and the ring rebuilt from it. -/
def iplistchange (c : CacheServer) (iplist : List Bytes) : CacheServer :=
  { c with
    ipportList := iplist
    keyAddr := c.keyAddr.refreshIPList iplist }

/-- `organize_data`: the keys of `LC` by their owner. It is undefined where
the ring is empty and `LC` is not. -/
def organizeData (c : CacheServer) : Option (Buckets Bytes Bytes) :=
  Buckets.group c.keyAddr.getServerIndex c.lc.cache.keys

/-- `doit_iplistchange` up to the threads that send. -/
def doitIplistchange (iplist : List Bytes) (c : CacheServer) :
    Option (CacheServer × Buckets Bytes Bytes) :=
  let c := c.iplistchange iplist
  c.organizeData.map (fun ipportAndKey => (c, ipportAndKey))

/-- What the threads have to send: every key of every bucket but the server's
own, with its destination. -/
def outgoing (c : CacheServer) (ipportAndKey : Buckets Bytes Bytes) :
    List (Bytes × Bytes) :=
  ipportAndKey.pairs.filter (fun e => e.1 ≠ c.curenAddr)

/-- One turn of the loop of `sendout_data`: the value is read when the key is
sent, and reading it does not count as a use. -/
def sendoutData (lc : LRUCache) (key : Bytes) : Info :=
  Info.keyValueRespond key (lc.get key false).2

/-! ## A lost cache -/

/-- The keys of `LC_BK` whose owner on the ring is not on the list. -/
def keySend (c : CacheServer) (iplist : List Bytes) : Option (List Bytes) :=
  c.lcBk.cache.keys.foldlM
    (fun send key =>
      (c.keyAddr.getServerIndex key).map
        (fun addr => if addr ∈ iplist then send else send ++ [key])) []

/-- `reflesh_handler` up to the threads that send: the orphaned backups by
their owner on the new ring, the server's own put into `LC` at once. The array
the threads are kept in comes with them. -/
def refleshHandler (iplist : List Bytes) (c : CacheServer) :
    Option (CacheServer × Buckets Bytes Bytes) := do
  -- the owners are still those of the ring before the change
  let keys ← c.keySend iplist
  let c := c.iplistchange iplist
  let sendoutBk ← Buckets.group c.keyAddr.getServerIndex keys
  let own := (sendoutBk.lookup c.curenAddr).getD []
  let lc := own.foldl (fun lc key => lc.put key (c.lcBk.get key false).2) c.lc
  some ({ c with lc := lc }, sendoutBk)

/-! ## What a message changes

These say what the runs of the cluster use: which of the two caches a message
changes, that no message changes the ring, and that what is sent on account of one
is a backup. -/

theorem kvrespondHandler_false (c : CacheServer) (key value : Bytes) :
    (c.kvrespondHandler false key value).1 = { c with lc := c.lc.put key value } := by
  unfold kvrespondHandler
  rw [if_neg Bool.false_ne_true]
  dsimp only
  split
  · rfl
  · split <;> rfl

/-- What storing a key sends is a backup of it. -/
theorem mem_kvrespondHandler_false {c : CacheServer} {key value : Bytes}
    {m : Bytes × Info} (h : m ∈ (c.kvrespondHandler false key value).2) :
    m.2 = Info.keyValueRespondBk key value := by
  unfold kvrespondHandler at h
  rw [if_neg Bool.false_ne_true] at h
  dsimp only at h
  split at h
  · exact absurd h List.not_mem_nil
  · split at h
    · rw [List.mem_singleton.mp h]
    · exact absurd h List.not_mem_nil

theorem mem_taskCfd {c : CacheServer} {info : Info} {m : Bytes × Info}
    (h : m ∈ (c.taskCfd info).2) :
    ∃ key value, info = Info.keyValueRespond key value
      ∧ m.2 = Info.keyValueRespondBk key value := by
  cases info with
  | keyValueRequest key => exact absurd h List.not_mem_nil
  | refleshMaster iplist => exact absurd h List.not_mem_nil
  | keyValueRespondBk key value => exact absurd h List.not_mem_nil
  | keyValueRespond key value => exact ⟨key, value, rfl, mem_kvrespondHandler_false h⟩

theorem taskCfd_keyAddr (c : CacheServer) (info : Info) :
    (c.taskCfd info).1.keyAddr = c.keyAddr := by
  cases info with
  | keyValueRequest key => rfl
  | refleshMaster iplist => rfl
  | keyValueRespondBk key value => rfl
  | keyValueRespond key value =>
    show (c.kvrespondHandler false key value).1.keyAddr = _
    rw [kvrespondHandler_false]

theorem getServerIndex_iplistchange (c : CacheServer) (iplist : List Bytes)
    (key : Bytes) :
    (c.iplistchange iplist).keyAddr.getServerIndex key
      = ((ConsistentHash.new c.keyAddr.virtualNodeNum).refreshIPList
          iplist).getServerIndex key := by
  show (c.keyAddr.refreshIPList iplist).getServerIndex key = _
  rw [ConsistentHash.getServerIndex_eq, ConsistentHash.getServerIndex_eq,
    ConsistentHash.refreshIPList_virtualNodes, ConsistentHash.refreshIPList_virtualNodes]
  rfl

end CacheServer

end Dcs
