import LinuxStudy.MiniConnection
import LinuxStudy.MiniRegistry
import LinuxStudy.NodeConHash
import LinuxStudy.TimerRoot

/-!
# The manager of the small master

`Manager` has the registry, the ring and, through its server, the connections
and the timers. A heartbeat registers a cache server, or puts off its timer;
a cache server that is lost or shut down is deleted; and both go on to notify
the cache servers: the ring is built anew, and the list of servers is sent to
every connection whose address is in the registry.

A heartbeat that registers a server sets its timer, for which the timers are
sifted up; what stands before them then is an argument of it (`TimerRoot`).

The methods lock `m_sourceMutex`, and call one another. `std::mutex` may not
be locked by the thread that holds it. How often it is held is part of the
state, and `recursive` says how a second lock by the same thread is read: as
a deadlock, which is what it is, or as never blocking its own holder, which
is how everything else about the manager is stated.

* `run_ok_iff`: which operation ends, from which state. A heartbeat of a cache
  server that is not registered never does: it holds the lock when it
  notifies.
* `notified_iff`: which connections are notified. The address of a connection
  is looked up by the text of its port as it stands in `sin_port`, that of a
  registration by the text of `ntohs` of it; so the connections notified are
  those whose *exchanged* port is registered.
-/

namespace MiniDcs

open Socket

/-! ## The state -/

/-- An entry of `users_`: the connection, and which object it is, counted
from the first. -/
structure User where
  conn : Connection
  serial : ℕ

/-- `connnectionSend` on the connection of an entry. -/
def User.connnectionSend (u : User) (msg : Bytes) : User :=
  { u with conn := u.conn.connnectionSend msg }

/-- `users_`. -/
abbrev Users := AList (fun _ : ℤ => User)

namespace Users

/-- `for(auto &c : users_)`, changing entries. -/
def map (f : User → User) (m : Users) : Users where
  entries := m.entries.map (Sigma.map id (fun _ => f))
  nodupKeys := m.nodupKeys.map₂ _ _

theorem lookup_map (f : User → User) (m : Users) (fd : ℤ) :
    AList.lookup fd (m.map f) = (m.lookup fd).map f :=
  List.dlookup_map₂ fd

end Users

/-- What a timer runs. -/
inductive Callback
  /-- `NetServer::closeConnection` on an object. -/
  | closeConnection (fd : ℤ) (serial : ℕ)
  /-- `Manager::someCacheServerLost`. -/
  | someCacheServerLost (addr : SockAddr)
  deriving DecidableEq

/-- **The state of the master**: of `Manager`, and of the `NetServer` it
has. -/
structure Server where
  users : Users
  timer : TimerManager Callback
  registry : Registry
  hash : NodeConHash
  /-- How often `m_sourceMutex` is held. -/
  held : ℕ
  /-- How many `Connection` objects there have been. -/
  serials : ℕ
  /-- Whether a `Connection` has been used after it was erased. -/
  usedErased : Bool

/-- Why an operation does not end. -/
inductive Failure
  /-- A mutex is locked by the thread that holds it. -/
  | deadlock
  /-- An assertion fails, or nothing can be read where the timers read. -/
  | assertion
  /-- A vector is read beyond its end. -/
  | outOfRange
  /-- An object is used that there is no more. -/
  | dangling
  deriving DecidableEq

/-! ## The texts that are sent -/

/-- `DISTRIBUTION_RESPONSE`. -/
def distributionResponse : ℕ := 1

/-- `ADD_CACHE_SERVER`. -/
def addCacheServer : ℕ := 0

/-- `SHUTDOWN_CACHE`. -/
def shutdownCache : ℕ := 1

/-- `REFLESH_IP`. -/
def refleshIp : ℕ := 2

/-- `j.dump()`, the keys in order. `MASTER` is `2`. -/
def dump (reqType : ℕ) (iplist : List Bytes) : Bytes :=
  str "\x7b\"data\":\x7b\"iplist\":["
    ++ List.intercalate (str ",") (iplist.map (fun s => str "\"" ++ s ++ str "\""))
    ++ str "]\x7d,\"machineType\":2,\"req_type\":" ++ decimal reqType ++ str "\x7d"

theorem dump_ne_nil (reqType : ℕ) (iplist : List Bytes) : dump reqType iplist ≠ [] := by
  have hopen : str "\x7b\"data\":\x7b\"iplist\":[" ≠ [] := by decide +kernel
  unfold dump
  simp [hopen]

namespace Server

/-! ## The operations

The functions of the manager lock a mutex and call each other. A mutex that is not
recursive is not to be locked again by the thread that holds it: what happens then
is undefined, and in practice the thread waits for ever. Whether it is recursive
is a parameter here. The source has `mutex`, which is not. -/

/-- `unique_lock<mutex> lock(m_sourceMutex)`. -/
def lock (recursive : Bool) (s : Server) : Except Failure Server :=
  if recursive = false ∧ s.held ≠ 0 then .error .deadlock
  else .ok { s with held := s.held + 1 }

/-- The end of the scope of a lock. -/
def unlock (s : Server) : Server := { s with held := s.held - 1 }

/-- `allIpPorts`. -/
def allIpPorts (s : Server) : Except Failure (List Bytes) :=
  match s.registry.iplist with
  | some iplist => .ok iplist
  | none => .error .outOfRange

/-- `findFdAcrAddr`. -/
def findFdAcrAddr (s : Server) (addr : SockAddr) : ℤ :=
  match s.users.entries.find? (fun c => c.2.conn.addr = addr) with
  | some c => c.2.conn.fd
  | none => -1

/-- `clientGetDistribution`. -/
def clientGetDistribution (addr : SockAddr) (s : Server) : Except Failure Server := do
  let allIpPorts ← s.allIpPorts
  let text := dump distributionResponse allIpPorts
  return { s with
    users := s.users.map (fun c => if c.conn.addr = addr then c.connnectionSend text else c) }

/-- Whether a connection is notified: the text of its address, with the port
as it stands, is in the map. -/
def IsNotified (r : Registry) (c : Connection) : Prop :=
  ipPort c.getIp c.getPort ∈ r.cacheServersMp

instance (r : Registry) (c : Connection) : Decidable (IsNotified r c) :=
  inferInstanceAs (Decidable (_ ∈ r.cacheServersMp))

/-- `notifyCacheServer`. -/
def notifyCacheServer (recursive : Bool) (type : ℕ) (s : Server) : Except Failure Server := do
  let s := { s with hash := s.hash.refreshIpList s.registry.ipPortLs }
  let allIpPorts ← s.allIpPorts
  let text := dump type allIpPorts
  let s ← s.lock recursive
  let users := s.users.map (fun c =>
    if IsNotified s.registry c.conn then c.connnectionSend text else c)
  return { s with users := users }.unlock

/-- `deleteOneMachine`. -/
def deleteOneMachine (recursive : Bool) (addr : SockAddr) (s : Server) :
    Except Failure Server := do
  let s ← s.lock recursive
  return { s with registry := s.registry.deleteOneMachine addr }.unlock

/-- `shutDownOneMachine`. -/
def shutDownOneMachine (recursive : Bool) (addr : SockAddr) (s : Server) :
    Except Failure Server := do
  let s ← s.deleteOneMachine recursive addr
  s.notifyCacheServer recursive shutdownCache

/-- `someCacheServerLost`. -/
def someCacheServerLost (recursive : Bool) (addr : SockAddr) (s : Server) :
    Except Failure Server := do
  let s ← s.deleteOneMachine recursive addr
  s.notifyCacheServer recursive refleshIp

/-- The timers after one of their operations. -/
def withTimer (s : Server) : Option (TimerManager Callback) → Except Failure Server
  | some timer => .ok { s with timer := timer }
  | none => .error .assertion

/-- `cacheServerKeepAlive`, at a time, with what stands before the timers. -/
def cacheServerKeepAlive (recursive : Bool) (outside : Option ℤ) (now : ℤ) (addr : SockAddr)
    (s : Server) : Except Failure Server := do
  let s ← s.lock recursive
  let fd := s.findFdAcrAddr addr
  if s.registry.Known addr then
    let s ← s.withTimer (s.timer.update now fd 2500)
    return s.unlock
  else
    let s := { s with registry := s.registry.register addr }
    let s ← s.withTimer
      (TimerManager.Unguarded.addTimer outside s.timer now fd 2500 (.someCacheServerLost addr))
    let s ← s.notifyCacheServer recursive addCacheServer
    return s.unlock

/-! ## What they do -/

variable {recursive : Bool} {s s' : Server}

/-- A lock is not blocked by the thread itself. -/
def Unblocked (recursive : Bool) (s : Server) : Prop := recursive = true ∨ s.held = 0

theorem Unblocked.lock_eq (h : s.Unblocked recursive) :
    s.lock recursive = .ok { s with held := s.held + 1 } := by
  unfold lock
  refine if_neg (fun hc => ?_)
  rcases h with rfl | hfree
  · exact absurd hc.1 (by simp)
  · exact hc.2 hfree

/-- What a notification makes of the state: the ring is that of the registry,
and the text is sent to the connections that are notified. -/
def notified (s : Server) (text : Bytes) : Server :=
  { s with
    hash := s.hash.refreshIpList s.registry.ipPortLs
    users := s.users.map (fun c =>
      if IsNotified s.registry c.conn then c.connnectionSend text else c) }

/-- **`notifyCacheServer`** ends where the vectors are read in range. -/
theorem Unblocked.notifyCacheServer_eq (h : s.Unblocked recursive) (type : ℕ) :
    s.notifyCacheServer recursive type
      = match s.registry.iplist with
        | some iplist => .ok (s.notified (dump type iplist))
        | none => .error .outOfRange := by
  have hlock : ({ s with hash := s.hash.refreshIpList s.registry.ipPortLs } : Server).lock recursive
      = .ok { s with hash := s.hash.refreshIpList s.registry.ipPortLs, held := s.held + 1 } :=
    Unblocked.lock_eq (s := { s with hash := s.hash.refreshIpList s.registry.ipPortLs }) h
  unfold notifyCacheServer allIpPorts
  dsimp only
  cases s.registry.iplist with
  | none => rfl
  | some iplist =>
    show Except.bind (Server.lock recursive _) _ = _
    rw [hlock]
    rfl

/-- A notification by the thread that holds the lock does not end. -/
theorem notifyCacheServer_ne_ok (hheld : s.held ≠ 0) (type : ℕ) (t : Server) :
    s.notifyCacheServer false type ≠ .ok t := by
  unfold notifyCacheServer allIpPorts
  dsimp only
  cases s.registry.iplist with
  | none => exact fun h => absurd h (by simp [bind, Except.bind])
  | some iplist =>
    have hlock : ({ s with hash := s.hash.refreshIpList s.registry.ipPortLs } : Server).lock false
        = .error .deadlock := if_pos ⟨rfl, hheld⟩
    show Except.bind (Server.lock false _) _ ≠ _
    rw [hlock]
    exact fun h => absurd h (by simp [Except.bind])

/-- **`deleteOneMachine`** ends always. -/
theorem Unblocked.deleteOneMachine_eq (h : s.Unblocked recursive) (addr : SockAddr) :
    s.deleteOneMachine recursive addr
      = .ok { s with registry := s.registry.deleteOneMachine addr } := by
  unfold deleteOneMachine
  rw [h.lock_eq]
  rfl

theorem Unblocked.delete_notify_eq (h : s.Unblocked recursive) (addr : SockAddr) (type : ℕ) :
    (s.deleteOneMachine recursive addr >>= notifyCacheServer recursive type)
      = match (s.registry.deleteOneMachine addr).iplist with
        | some iplist => .ok (notified
            { s with registry := s.registry.deleteOneMachine addr } (dump type iplist))
        | none => .error .outOfRange := by
  rw [h.deleteOneMachine_eq]
  exact Unblocked.notifyCacheServer_eq
    (s := { s with registry := s.registry.deleteOneMachine addr }) h type

/-- **A heartbeat of a cache server that is registered** puts off its
timer. -/
theorem Unblocked.cacheServerKeepAlive_known (h : s.Unblocked recursive) (outside : Option ℤ)
    (now : ℤ) {addr : SockAddr} (hknown : s.registry.Known addr) :
    s.cacheServerKeepAlive recursive outside now addr
      = s.withTimer (s.timer.update now (s.findFdAcrAddr addr) 2500) := by
  unfold cacheServerKeepAlive
  rw [h.lock_eq]
  show (if s.registry.Known addr then _ else _) = _
  rw [if_pos hknown]
  show Except.bind (withTimer _ (s.timer.update now (s.findFdAcrAddr addr) 2500)) _ = _
  cases s.timer.update now (s.findFdAcrAddr addr) 2500 <;> rfl

/-- **A heartbeat of a cache server that is not registered** adds it to the
registry, sets its timer and notifies, holding the lock. -/
theorem Unblocked.cacheServerKeepAlive_new (h : s.Unblocked recursive) (outside : Option ℤ)
    (now : ℤ) {addr : SockAddr} (hnew : ¬ s.registry.Known addr) :
    s.cacheServerKeepAlive recursive outside now addr
      = match TimerManager.Unguarded.addTimer outside s.timer now (s.findFdAcrAddr addr) 2500
          (.someCacheServerLost addr) with
        | none => .error .assertion
        | some timer =>
          (notifyCacheServer recursive addCacheServer
            { s with
              registry := s.registry.register addr, timer := timer, held := s.held + 1 }).map
            unlock := by
  unfold cacheServerKeepAlive
  rw [h.lock_eq]
  show (if s.registry.Known addr then _ else _) = _
  rw [if_neg hnew]
  show Except.bind (withTimer _
    (TimerManager.Unguarded.addTimer outside s.timer now (s.findFdAcrAddr addr) 2500 _)) _ = _
  cases TimerManager.Unguarded.addTimer outside s.timer now (s.findFdAcrAddr addr) 2500
    (.someCacheServerLost addr) <;> rfl

/-! ## Which operation ends

An operation of one thread begins with the lock free. `cacheServerKeepAlive` takes
it and, for a new server, calls `notifyCacheServer`, which takes it as well. So no
new server can be registered. What else there is that could keep an operation from
its end are reads of the vectors past their end, and an assertion of the timers;
both are conditions on the state before. -/

/-- An operation of the manager. -/
inductive Operation
  | cacheServerKeepAlive (outside : Option ℤ) (now : ℤ) (addr : SockAddr)
  | clientGetDistribution (addr : SockAddr)
  | shutDownOneMachine (addr : SockAddr)
  | someCacheServerLost (addr : SockAddr)
  | notifyCacheServer (type : ℕ)
  | deleteOneMachine (addr : SockAddr)

/-- Do an operation. -/
def Operation.run (recursive : Bool) : Operation → Server → Except Failure Server
  | .cacheServerKeepAlive outside now addr =>
    Server.cacheServerKeepAlive recursive outside now addr
  | .clientGetDistribution addr => Server.clientGetDistribution addr
  | .shutDownOneMachine addr => Server.shutDownOneMachine recursive addr
  | .someCacheServerLost addr => Server.someCacheServerLost recursive addr
  | .notifyCacheServer type => Server.notifyCacheServer recursive type
  | .deleteOneMachine addr => Server.deleteOneMachine recursive addr

/-- The loop that puts the list of servers together stays in range. -/
def InRange (ipPortLs ipLs : List Bytes) (portLs : List ℕ) : Prop :=
  ipPortLs.length ≤ ipLs.length ∧ ipPortLs.length ≤ portLs.length

instance (ipPortLs ipLs : List Bytes) (portLs : List ℕ) :
    Decidable (InRange ipPortLs ipLs portLs) :=
  inferInstanceAs (Decidable (_ ∧ _))

/-- The loop stays in range once an address has been searched for and
deleted: the text, the text of the port among the addresses, and the port. -/
def InRangeWithout (r : Registry) (addr : SockAddr) : Prop :=
  InRange (r.ipPortLs.erase (Registry.ipPortStr addr))
    (r.ipLs.erase (decimal (Registry.getIpAndPort addr).2))
    (r.portLs.erase (Registry.getIpAndPort addr).2)

/-- **What an operation needs to end.** A heartbeat needs its server to be
registered, and its timer to be there; what sends the list of servers needs
the vectors to be long enough, after the deletion if there is one. -/
def Unhindered (s : Server) : Operation → Prop
  | .cacheServerKeepAlive _ _ addr =>
    s.registry.Known addr ∧ s.timer.heap.size ≠ 0 ∧ s.findFdAcrAddr addr ∈ s.timer.ref
  | .clientGetDistribution _ => InRange s.registry.ipPortLs s.registry.ipLs s.registry.portLs
  | .shutDownOneMachine addr => InRangeWithout s.registry addr
  | .someCacheServerLost addr => InRangeWithout s.registry addr
  | .notifyCacheServer _ => InRange s.registry.ipPortLs s.registry.ipLs s.registry.portLs
  | .deleteOneMachine _ => True

theorem iplist_isSome_iff (r : Registry) :
    r.iplist.isSome ↔ InRange r.ipPortLs r.ipLs r.portLs := by
  unfold Registry.iplist InRange
  rw [Registry.texts_eq]
  split
  · next h => exact iff_of_true rfl h
  · next h => exact iff_of_false (by simp) h

/-- An operation ends with the lock free. -/
def Ends (op : Operation) (s : Server) : Prop := ∃ t, op.run false s = .ok t ∧ t.held = 0

/-- What sends the list of servers ends where the list is there. -/
theorem ends_of_list (op : Operation) {r : Registry} {f : List Bytes → Server}
    (hrun : op.run false s = match r.iplist with
      | some iplist => .ok (f iplist)
      | none => .error .outOfRange)
    (hheld : ∀ iplist, (f iplist).held = 0) :
    Ends op s ↔ InRange r.ipPortLs r.ipLs r.portLs := by
  unfold Ends
  rw [← iplist_isSome_iff, hrun]
  cases r.iplist with
  | none => exact iff_of_false (fun ⟨t, h, _⟩ => absurd h (by simp)) (by simp)
  | some iplist => exact iff_of_true ⟨_, rfl, hheld iplist⟩ rfl

/-- **A heartbeat of a cache server that is not registered does not end**: the
lock is held when it notifies. -/
theorem cacheServerKeepAlive_new_ne_ok (hfree : s.held = 0) (outside : Option ℤ) (now : ℤ)
    {addr : SockAddr} (hnew : ¬ s.registry.Known addr) (t : Server) :
    s.cacheServerKeepAlive false outside now addr ≠ .ok t := by
  intro h
  rw [Unblocked.cacheServerKeepAlive_new (Or.inr hfree) outside now hnew] at h
  split at h
  · exact absurd h (by simp)
  · next timer _ =>
    cases hnotify : notifyCacheServer false addCacheServer
        { s with registry := s.registry.register addr, timer := timer, held := s.held + 1 } with
    | error failure =>
      rw [hnotify] at h
      exact absurd h (by simp [Except.map])
    | ok u => exact notifyCacheServer_ne_ok (Nat.succ_ne_zero _) _ u hnotify

/-- **Which operation ends, from which state.** From a state with the lock
free an operation runs to its end, and leaves the lock free, exactly if
nothing hinders it; a heartbeat of a cache server that is not registered
never does. -/
theorem run_ok_iff {s : Server} (hfree : s.held = 0) (op : Operation) :
    (∃ t, op.run false s = .ok t ∧ t.held = 0) ↔ s.Unhindered op := by
  have hun : s.Unblocked false := Or.inr hfree
  cases op with
  | cacheServerKeepAlive outside now addr =>
    show (∃ t, s.cacheServerKeepAlive false outside now addr = .ok t ∧ t.held = 0) ↔ _ ∧ _
    by_cases hknown : s.registry.Known addr
    · rw [hun.cacheServerKeepAlive_known outside now hknown, and_iff_right hknown,
        ← TimerManager.update_isSome_iff]
      cases s.timer.update now (s.findFdAcrAddr addr) 2500 with
      | none => exact iff_of_false (fun ⟨t, h, _⟩ => absurd h (by simp [withTimer])) (by simp)
      | some timer => exact iff_of_true ⟨_, rfl, hfree⟩ rfl
    · refine iff_of_false ?_ (fun h => hknown h.1)
      rintro ⟨t, h, -⟩
      exact cacheServerKeepAlive_new_ne_ok hfree outside now hknown t h
  | clientGetDistribution addr =>
    refine ends_of_list (.clientGetDistribution addr) (f := fun iplist => { s with
      users := s.users.map (fun c => if c.conn.addr = addr then
        c.connnectionSend (dump distributionResponse iplist) else c) }) ?_ (fun _ => hfree)
    show s.clientGetDistribution addr = _
    unfold Server.clientGetDistribution allIpPorts
    cases s.registry.iplist <;> rfl
  | shutDownOneMachine addr =>
    exact ends_of_list (.shutDownOneMachine addr)
      (hun.delete_notify_eq addr shutdownCache) (fun _ => hfree)
  | someCacheServerLost addr =>
    exact ends_of_list (.someCacheServerLost addr)
      (hun.delete_notify_eq addr refleshIp) (fun _ => hfree)
  | notifyCacheServer type =>
    exact ends_of_list (.notifyCacheServer type)
      (hun.notifyCacheServer_eq type) (fun _ => hfree)
  | deleteOneMachine addr =>
    exact iff_of_true ⟨_, hun.deleteOneMachine_eq addr, hfree⟩ trivial

/-- The master when it starts. -/
def start : Server where
  users := ∅
  timer := .empty
  registry := Registry.empty
  hash := NodeConHash.new NodeConHash.masterCopys
  held := 0
  serials := 0
  usedErased := false

/-- A connection of the cache server `10.0.0.1:7001`. -/
def connA : Connection :=
  (Connection.new ⟨0, 0⟩ ⟨0, 0⟩ false).initConnection 5 Registry.serverA

/-- The master with that connection, and no cache server registered. -/
def oneConnection : Server := { start with users := AList.insert 5 ⟨connA, 0⟩ ∅, serials := 1 }

/-- The same master once two cache servers are registered, with the timer of the
one that is connected. -/
def twoRegistered : Server :=
  { oneConnection with
    timer := ⟨#[⟨5, 2500000000, .someCacheServerLost Registry.serverA⟩], AList.insert 5 0 ∅⟩
    registry := (Registry.empty.register Registry.serverA).register Registry.serverB }

/-- A heartbeat of one of two registered cache servers ends, and so does its
deletion. -/
theorem twoRegistered_ends :
    (∃ t, (Operation.cacheServerKeepAlive none 1000000000 Registry.serverA).run false twoRegistered
        = .ok t ∧ t.held = 0)
      ∧ ∃ t, (Operation.someCacheServerLost Registry.serverA).run false twoRegistered = .ok t
        ∧ t.held = 0 :=
  ⟨(run_ok_iff rfl (.cacheServerKeepAlive none 1000000000 Registry.serverA)).mpr
      ⟨by decide +kernel, by decide, by decide +kernel⟩,
    (run_ok_iff rfl (.someCacheServerLost Registry.serverA)).mpr
      ⟨by decide +kernel, by decide +kernel⟩⟩

/-- The failure of an operation, if it fails. -/
def failure? : Except Failure Server → Option Failure
  | .error failure => some failure
  | .ok _ => none

/-- **The first heartbeat of a cache server locks the mutex it holds.** -/
theorem first_heartbeat_deadlocks :
    oneConnection.held = 0
      ∧ failure? ((Operation.cacheServerKeepAlive (some 0) 0 Registry.serverA).run false
        oneConnection) = some .deadlock := by
  refine ⟨rfl, ?_⟩
  decide +kernel

/-! ## Which connections are notified

A connection is looked up by the text of its address, with the port as the number
that `accept` has left in it, whose bytes are in the order of the network. The
registry was made with the port of the same peer in the order of the host. The two
texts are equal exactly if the two bytes of the port are, or if by chance another
server is registered with the port whose bytes are the other way round. -/

/-- An address with the two bytes of its port exchanged. -/
def exchanged (addr : SockAddr) : SockAddr := { addr with sinPort := ntohs addr.sinPort }

/-- The registry of some heartbeats. -/
def registryOf (heartbeats : List SockAddr) : Registry :=
  heartbeats.foldl Registry.cacheServerKeepAlive Registry.empty

theorem ipPortStr_injective : Function.Injective Registry.ipPortStr := by
  intro a b h
  obtain ⟨hip, hport⟩ := ipPort_injective h
  have hport' : ntohs a.sinPort = ntohs b.sinPort := UInt16.toNat_inj.mp hport
  have hsame : a.sinPort = b.sinPort := by
    rw [← ntohs_ntohs a.sinPort, hport', ntohs_ntohs]
  cases a
  cases b
  congr

/-- **What heartbeats register**: the texts of their addresses. -/
theorem mem_registryOf_iff (heartbeats : List SockAddr) (k : Bytes) :
    k ∈ (registryOf heartbeats).cacheServersMp
      ↔ ∃ addr ∈ heartbeats, Registry.ipPortStr addr = k := by
  have hstep : ∀ (r : Registry) (addr : SockAddr),
      k ∈ (r.cacheServerKeepAlive addr).cacheServersMp
        ↔ k ∈ r.cacheServersMp ∨ Registry.ipPortStr addr = k := by
    intro r addr
    unfold Registry.cacheServerKeepAlive
    split
    · next hknown =>
      refine ⟨Or.inl, fun h => h.elim id (fun heq => ?_)⟩
      exact heq ▸ hknown
    · next hnew =>
      show k ∈ r.cacheServersMp.emplace _ 0 ↔ _
      unfold Marks.emplace
      rw [if_neg (show Registry.ipPortStr addr ∉ r.cacheServersMp from hnew),
        AList.mem_insert, or_comm, eq_comm]
  have hfold : ∀ r : Registry,
      k ∈ (heartbeats.foldl Registry.cacheServerKeepAlive r).cacheServersMp
        ↔ k ∈ r.cacheServersMp ∨ ∃ addr ∈ heartbeats, Registry.ipPortStr addr = k := by
    induction heartbeats with
    | nil => intro r; simp
    | cons addr rest ih =>
      intro r
      rw [List.foldl_cons, ih, hstep, or_assoc, List.exists_mem_cons_iff]
  refine (hfold Registry.empty).trans (or_iff_right ?_)
  exact AList.notMem_empty k

/-- **A connection is notified if its exchanged address is registered**: its
port is written as it stands. -/
theorem isNotified_registryOf_iff (heartbeats : List SockAddr) (c : Connection) :
    IsNotified (registryOf heartbeats) c ↔ exchanged c.addr ∈ heartbeats := by
  have htext : ipPort c.getIp c.getPort = Registry.ipPortStr (exchanged c.addr) := by
    show ipPort _ c.addr.sinPort.toNat = ipPort _ (ntohs (ntohs c.addr.sinPort)).toNat
    rw [ntohs_ntohs]
    rfl
  unfold IsNotified
  rw [mem_registryOf_iff, htext]
  constructor
  · rintro ⟨addr, hmem, heq⟩
    exact ipPortStr_injective heq ▸ hmem
  · intro hmem
    exact ⟨_, hmem, rfl⟩

/-- **Exactly the cache servers are notified**: the text is appended to what
is to be sent to the connections whose address is registered, and the buffers
of the others are as before. -/
def NotifiesExactly (s t : Server) (heartbeats : List SockAddr) (text : Bytes) : Prop :=
  ∀ fd c, s.users.lookup fd = some c → ∃ c', t.users.lookup fd = some c'
    ∧ (c.conn.addr ∈ heartbeats → c'.conn.unsent = c.conn.unsent ++ text)
    ∧ (c.conn.addr ∉ heartbeats → c'.conn.writeBuffer_ = c.conn.writeBuffer_
      ∧ c'.conn.readBuffer_ = c.conn.readBuffer_)

theorem consistent_registryOf (heartbeats : List SockAddr) :
    (registryOf heartbeats).Consistent := by
  have hfold : ∀ r : Registry, r.Consistent →
      (heartbeats.foldl Registry.cacheServerKeepAlive r).Consistent := by
    induction heartbeats with
    | nil => exact fun r hr => hr
    | cons addr rest ih => exact fun r hr => ih _ (hr.cacheServerKeepAlive addr)
  exact hfold _ Registry.consistent_empty

/-- One connection of a notification: it is served right exactly if it is
notified exactly if it is registered. -/
theorem notifies_one_iff (r : Registry) (c : User) {text : Bytes} (htext : text ≠ [])
    (registered : Prop) :
    (∃ c', some (if IsNotified r c.conn then c.connnectionSend text else c) = some c'
      ∧ (registered → c'.conn.unsent = c.conn.unsent ++ text)
      ∧ (¬ registered → c'.conn.writeBuffer_ = c.conn.writeBuffer_
        ∧ c'.conn.readBuffer_ = c.conn.readBuffer_))
      ↔ (registered ↔ IsNotified r c.conn) := by
  have hgrows : c.conn.unsent ≠ c.conn.unsent ++ text := by simpa using htext
  have hsend : (c.connnectionSend text).conn.unsent = c.conn.unsent ++ text :=
    Connection.unsent_connnectionSend c.conn text
  simp only [Option.some.injEq, exists_eq_left']
  by_cases hnotified : IsNotified r c.conn
  · rw [if_pos hnotified]
    refine ⟨fun h => iff_of_true (not_not.mp (fun hreg => ?_)) hnotified,
      fun h => ⟨fun _ => hsend, fun hreg => absurd (h.mpr hnotified) hreg⟩⟩
    refine hgrows ?_
    rw [← hsend]
    exact (congrArg Buffer.readable (h.2 hreg).1).symm
  · rw [if_neg hnotified]
    exact ⟨fun h => iff_of_false (fun hreg => hgrows (h.1 hreg)) hnotified,
      fun h => ⟨fun hreg => absurd (h.mp hreg) hnotified, fun _ => ⟨rfl, rfl⟩⟩⟩

/-- **When exactly the cache servers are notified**: if of every connection
the address is registered exactly if it is with the bytes of the port
exchanged. -/
theorem notified_iff {s : Server} (hfree : s.held = 0) {heartbeats : List SockAddr}
    (hreg : s.registry = registryOf heartbeats) (type : ℕ) :
    ∃ t text, s.notifyCacheServer false type = .ok t
      ∧ s.registry.iplist.map (dump type) = some text
      ∧ (NotifiesExactly s t heartbeats text
        ↔ ∀ fd c, s.users.lookup fd = some c →
          (c.conn.addr ∈ heartbeats ↔ exchanged c.conn.addr ∈ heartbeats)) := by
  have hlist : s.registry.iplist = some s.registry.ipPortLs :=
    (hreg ▸ consistent_registryOf heartbeats : s.registry.Consistent).iplist_eq
  refine ⟨s.notified (dump type s.registry.ipPortLs), dump type s.registry.ipPortLs, ?_, ?_, ?_⟩
  · rw [Unblocked.notifyCacheServer_eq (Or.inr hfree), hlist]
  · rw [hlist]
    rfl
  · refine forall₃_congr (fun fd c hc => ?_)
    have hlookup : (s.notified (dump type s.registry.ipPortLs)).users.lookup fd
        = some (if IsNotified s.registry c.conn then
            c.connnectionSend (dump type s.registry.ipPortLs) else c) := by
      refine (Users.lookup_map _ s.users fd).trans ?_
      rw [hc]
      rfl
    rw [hlookup, notifies_one_iff s.registry c (dump_ne_nil type _), hreg,
      isNotified_registryOf_iff]

/-- A cache server whose port `257` has two equal bytes. -/
def palindrome : SockAddr := ⟨⟨10, 0, 0, 3⟩, 257⟩

/-- The master with one connection, whose peer is registered. -/
def oneRegistered (peer : SockAddr) : Server :=
  { start with
    users := AList.insert 5
      ⟨(Connection.new ⟨0, 0⟩ ⟨0, 0⟩ false).initConnection 5 peer, 0⟩ (∅ : Users)
    registry := registryOf [peer]
    serials := 1 }

/-- The connection there is. -/
theorem lookup_oneRegistered {peer : SockAddr} {fd : ℤ} {c : User}
    (h : (oneRegistered peer).users.lookup fd = some c) : c.conn.addr = peer := by
  unfold oneRegistered at h
  dsimp only at h
  by_cases hfd : fd = 5
  · rw [hfd, AList.lookup_insert] at h
    obtain rfl := Option.some.inj h
    rfl
  · rw [AList.lookup_insert_ne hfd] at h
    exact absurd h (by simp)

/-- A cache server whose port has two equal bytes is notified. -/
theorem notified_palindrome :
    ∃ t text, (oneRegistered palindrome).notifyCacheServer false addCacheServer = .ok t
      ∧ NotifiesExactly (oneRegistered palindrome) t [palindrome] text := by
  obtain ⟨t, text, hrun, -, hiff⟩ := notified_iff (s := oneRegistered palindrome) rfl
    (show (oneRegistered palindrome).registry = registryOf [palindrome] from rfl) addCacheServer
  refine ⟨t, text, hrun, hiff.mpr (fun fd c hc => ?_)⟩
  rw [lookup_oneRegistered hc]
  decide +kernel

/-- **A registered cache server is not notified**: its port is `7001`, and
`22811` with its bytes exchanged. -/
theorem registered_not_notified :
    ∃ t, (oneRegistered Registry.serverA).notifyCacheServer false addCacheServer = .ok t
      ∧ ¬ NotifiesExactly (oneRegistered Registry.serverA) t [Registry.serverA]
        (dump addCacheServer [str "10.0.0.1:7001"]) := by
  have hlist : (oneRegistered Registry.serverA).registry.iplist
      = some [str "10.0.0.1:7001"] := by
    decide +kernel
  refine ⟨(oneRegistered Registry.serverA).notified
    (dump addCacheServer [str "10.0.0.1:7001"]), ?_, fun h => ?_⟩
  · rw [Unblocked.notifyCacheServer_eq (Or.inr rfl), hlist]
  · obtain ⟨c', hc', hsent, -⟩ := h 5 _ (AList.lookup_insert _)
    have hwas : AList.lookup 5 ((oneRegistered Registry.serverA).notified
        (dump addCacheServer [str "10.0.0.1:7001"])).users = some _ :=
      (Users.lookup_map _ _ 5).trans (congrArg _ (AList.lookup_insert _))
    rw [hwas] at hc'
    obtain rfl := Option.some.inj hc'
    dsimp only at hsent
    rw [if_neg (by decide +kernel)] at hsent
    refine dump_ne_nil addCacheServer [str "10.0.0.1:7001"] ?_
    simpa using hsent (by decide +kernel)

end Server

end MiniDcs
