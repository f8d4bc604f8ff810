import LinuxStudy.Bytes
import LinuxStudy.Marks
import LinuxStudy.Runs

/-!
# The master

The master keeps the list of caches. Everything it knows is in global
variables, and everything it does, it does while it handles a message: a
heartbeat of a cache, most of all. There is no thread of control that tells
the caches of a change; a change sets a flag, and each cache is told when its
next heartbeat comes in, as long as the flag is up.

Handling a heartbeat goes through six steps, which are the six definitions
below, in the order of the source:

* the address is cut into ip and port, and the heartbeats of the port are
  counted (`beat`);
* a cache that wants to be shut down, or is to be, is noted in `shutport` and
  `shutip` (`markShut`);
* a port that is not known is registered, unless it is taken for one that was
  just shut down (`register`);
* while a join is being announced, the sender is told the list if it was not
  told yet (`joinRound`);
* a sender that was noted is removed and told to shut down, or else a cache
  that has gone silent is removed (`remove`);
* while a removal is being announced, the sender is told (`refreshRound`).

The flags and counters keep the names of the source. The ports of `Portlist`
are numbers, those of the maps are texts.
-/

namespace Dcs

/-- The types of what the master sends. -/
inductive Command
  | distributionRespond
  | shutdownCache
  | addCache
  | refleshIp
  deriving DecidableEq

/-- What the master sends to the sender of a message. The type is missing
where `refreship` sets none. -/
structure Reply where
  type : Option Command
  iplist : List Bytes
  deriving DecidableEq

/-- What is sent to the master. -/
inductive MasterMessage
  /-- `HEART_BEAT`: the address of a cache, and whether it wants to stay. -/
  | heartBeat (iplist : Bytes) (state : Bool)
  /-- `SHUTDOWN_CACHE`: the caches a user wants shut down. -/
  | shutdownCache (iplist : List Bytes)
  /-- `DISTRIBUTION_REQUEST`: a client asks for the list. -/
  | distributionRequest
  /-- `SPARE_MASTER`: the heartbeat of another master. -/
  | spareMaster (ip : Bytes) (iplist : List Bytes)

/-- **The globals of the master.** -/
structure Master where
  /-- A join is being announced. -/
  flag1 : ℕ
  /-- A cache is to be shut down. -/
  flag2 : ℕ
  /-- A removal is being announced. -/
  flag3 : ℕ
  /-- A heartbeat of a cache that was shut down is no reconnection. -/
  flag4 : ℕ
  /-- Who wants a cache shut down: nobody, a user, or the cache. -/
  flag5 : ℕ
  /-- A cache has gone silent. -/
  flag6 : ℕ
  flag8 : ℕ
  /-- How many caches were told of a join. -/
  num1 : ℕ
  /-- How many caches were told of a removal. -/
  num2 : ℕ
  /-- How many caches were told to shut down. -/
  num3 : ℕ
  /-- How many caches a user wants shut down. -/
  num4 : ℕ
  num5 : ℕ
  num7 : ℕ
  ipList : List Bytes
  portList : List ℤ
  ipPortList : List Bytes
  shutIpNow : List Bytes
  shutPortNow : List Bytes
  shutIp : Bytes
  shutPort : Bytes
  psShutIp : Bytes
  psShutPort : Bytes
  heartIp : Bytes
  heartPort : Bytes
  /-- Which ports were told of a join. -/
  cacheMap : Marks Bytes
  /-- Which ports were told of a removal. -/
  cacheMapShut : Marks Bytes
  /-- The heartbeats of each port. -/
  cacheStateMap : Marks Bytes
  preCacheStateMap : Marks Bytes
  masterUpdateMap : Marks Bytes
  masterIp : Bytes
  masterPort : Bytes
  /-- The heartbeats of the other masters. -/
  masterStateMap : Marks Bytes

namespace Master

/-- The globals at the start. -/
def init : Master where
  flag1 := 0
  flag2 := 0
  flag3 := 0
  flag4 := 0
  flag5 := 0
  flag6 := 0
  flag8 := 0
  num1 := 0
  num2 := 0
  num3 := 0
  num4 := 0
  num5 := 0
  num7 := 0
  ipList := []
  portList := []
  ipPortList := []
  shutIpNow := []
  shutPortNow := []
  shutIp := []
  shutPort := []
  psShutIp := []
  psShutPort := []
  heartIp := []
  heartPort := []
  cacheMap := ∅
  cacheMapShut := ∅
  cacheStateMap := ∅
  preCacheStateMap := ∅
  masterUpdateMap := ∅
  masterIp := []
  masterPort := []
  masterStateMap := ∅

/-- An address cut at its last colon, into ip and port. -/
def cutAddress (addr : Bytes) : Bytes × Bytes := cutAtLast 58 addr

/-- `refreship`: the list, and what it is sent for. -/
def refreship (s : Master) : Reply where
  type :=
    if s.flag4 = 1 then some .refleshIp
    else if s.flag1 = 1 then some .addCache
    else if s.flag2 = 1 then some .shutdownCache
    else if s.flag3 = 1 then some .refleshIp
    else none
  iplist := s.ipPortList

/-! ## A heartbeat

`masterhandler` is one function of some two hundred lines. It is taken apart here
where the source begins a new matter: the sender is noted, registered, told of a
join, removed, told of a removal. Each part is a function from the globals to the
globals, with what is sent to the sender beside it, and the order is that of the
source. Addresses are kept as texts; the lists of ips and of ports are what the
source cuts off them. -/

/-- The address is cut, and a known port's heartbeat counted. -/
def beat (s : Master) (addr : Bytes) : Master :=
  { s with
    heartIp := (cutAddress addr).1
    heartPort := (cutAddress addr).2
    cacheStateMap := s.cacheStateMap.bump (cutAddress addr).2 }

/-- A user named caches: the port and the ip of the sender are noted if they
are among those named. -/
def noteNamed (s : Master) : Master :=
  { s with
    shutPort := if s.heartPort ∈ s.shutPortNow then s.heartPort else s.shutPort
    shutIp := if s.heartIp ∈ s.shutIpNow then s.heartIp else s.shutIp }

/-- A cache wants to be shut down: the sender is noted. -/
def noteSender (s : Master) : Master :=
  { s with shutPort := s.heartPort, shutIp := s.heartIp, flag2 := 1 }

/-- Who is noted, by `flag5`. -/
def noteShut (s : Master) : Master :=
  if s.flag5 = 1 then s.noteNamed else if s.flag5 = 2 then s.noteSender else s

/-- A cache to be shut down is noted. A sender that wants to be says so by
its state. -/
def markShut (s : Master) (state : Bool) : Master :=
  if state = false then { s with flag5 := 2 }.noteShut else s.noteShut

/-- Whether an unknown port is a new cache: for a while after a removal, one
that a user named is not. -/
def checkReconnect (s : Master) : Master :=
  -- `num7` is `0` until the first removal and `20` from then on
  if s.num5 < s.num7 then
    { s with
      flag4 := if s.heartPort ∈ s.shutPortNow then 1 else s.flag4
      num5 := s.num5 + 1 }
  else { s with flag4 := 0, num5 := 0 }

/-- A new cache goes on every list. -/
def addNew (s : Master) (addr : Bytes) : Master :=
  { s with
    ipList := s.ipList ++ [s.heartIp]
    portList := s.portList ++ [atoi s.heartPort]
    ipPortList := s.ipPortList ++ [addr]
    cacheMap := s.cacheMap.emplace s.heartPort 0
    cacheMapShut := s.cacheMapShut.emplace s.heartPort 0
    cacheStateMap := s.cacheStateMap.emplace s.heartPort 0
    masterUpdateMap := s.masterUpdateMap.emplace s.heartPort 0
    flag1 := 1 }

/-- An unknown port that is a new cache, or is not. -/
def switchFlag4 (s : Master) (addr : Bytes) : Master :=
  if s.flag4 = 0 then s.addNew addr else if s.flag4 = 1 then { s with flag4 := 0 } else s

/-- A port that is not known is registered. -/
def register (s : Master) (addr : Bytes) : Master :=
  if atoi s.heartPort ∈ s.portList then s else s.checkReconnect.switchFlag4 addr

/-- The caches a user named are forgotten when a join is announced. -/
def forgetNamed (s : Master) : Master := { s with shutPortNow := [], shutIpNow := [] }

/-- The sender is marked as told of a join. -/
def markJoin (s : Master) : Master :=
  { s with cacheMap := s.cacheMap.insert s.heartPort 1, num1 := s.num1 + 1 }

/-- The sender is told of a join if it was not told yet. -/
def tellJoin (s : Master) : Master × List Reply :=
  if s.cacheMap.lookup s.heartPort = some 0 then (s.markJoin, [s.markJoin.refreship])
  else (s, [])

/-- When all were told of a join, its announcement is over. -/
def endJoin (s : Master) : Master :=
  if s.num1 = s.cacheMap.size then
    { s with flag1 := 0, num1 := 0, cacheMap := s.cacheMap.clear }
  else s

/-- The announcement of a join. -/
def joinRound (s : Master) : Master × List Reply :=
  -- the caches a user named are forgotten even if they are still to be removed
  if s.flag1 = 1 then (s.forgetNamed.tellJoin.1.endJoin, s.forgetNamed.tellJoin.2)
  else (s, [])

/-- Whether the sender is removed. -/
def Removes (s : Master) : Prop := s.shutPort = s.heartPort ∧ s.flag2 = 1

instance (s : Master) : Decidable s.Removes := inferInstanceAs (Decidable (_ ∧ _))

/-- A cache taken off every list: `ip` and `port` for the lists, the texts
`addr` and `key` for the list of addresses and the maps. -/
def erase (s : Master) (ip port addr key : Bytes) : Master :=
  { s with
    ipList := s.ipList.erase ip
    portList := s.portList.erase (atoi port)
    ipPortList := s.ipPortList.erase addr
    cacheMap := s.cacheMap.erase key
    cacheMapShut := s.cacheMapShut.erase key
    cacheStateMap := s.cacheStateMap.erase key
    preCacheStateMap := s.preCacheStateMap.erase key
    masterUpdateMap := s.masterUpdateMap.erase s.heartPort }

/-- A removal of a sender is counted. -/
def countRemoval (s : Master) : Master :=
  { s with num3 := s.num3 + 1, flag8 := 1, num7 := 20, shutPort := [], shutIp := [] }

/-- When all that were to be shut down are, the removal is announced. -/
def endRemoval (s : Master) : Master :=
  -- `num4` counts the caches a user named, whoever was removed
  if (s.flag5 = 1 ∨ s.flag5 = 2) ∧ s.num3 = s.num4 ∧ s.flag8 = 1 then
    { s with num3 := 0, flag2 := 0, flag3 := 1, flag4 := 1, flag5 := 0, flag8 := 0 }
  else s

/-- The sender is taken off every list. -/
def eraseSender (s : Master) (addr : Bytes) : Master :=
  s.erase s.shutIp s.shutPort addr s.heartPort

/-- A cache that has gone silent is taken off every list, with the address
put together from `psshutip` and `psshutport`, and this is announced. -/
def eraseSilent (s : Master) : Master :=
  { s.erase s.psShutIp s.psShutPort (s.psShutIp ++ [58] ++ s.psShutPort) s.psShutPort with
    flag3 := 1
    flag4 := 1
    num7 := 20
    flag8 := 0 }

/-- The removal of the sender, who is told to shut down, or of a cache that
has gone silent. -/
def remove (s : Master) (addr : Bytes) : Master × List Reply :=
  if s.Removes then
    -- the reply is sent before the flags are put back
    ((s.eraseSender addr).countRemoval.endRemoval, [(s.eraseSender addr).refreship])
  else if s.flag6 = 1 then (s.eraseSilent, [])
  else (s, [])

/-- The sender is marked as told of a removal. -/
def markRefresh (s : Master) : Master :=
  { s with cacheMapShut := s.cacheMapShut.insert s.heartPort 1, num2 := s.num2 + 1 }

/-- The sender is told of a removal if it was not told yet. -/
def tellRefresh (s : Master) : Master × List Reply :=
  if s.cacheMapShut.lookup s.heartPort = some 0 then (s.markRefresh, [s.markRefresh.refreship])
  else (s, [])

/-- When all were told of a removal, its announcement is over. -/
def endRefresh (s : Master) : Master :=
  if s.num2 = s.cacheMapShut.size then
    { s with flag3 := 0, flag6 := 0, num2 := 0, cacheMapShut := s.cacheMapShut.clear }
  else s

/-- The announcement of a removal. -/
def refreshRound (s : Master) : Master × List Reply :=
  if s.flag3 = 1 ∧ s.flag8 = 0 then (s.tellRefresh.1.endRefresh, s.tellRefresh.2)
  else (s, [])

/-- **`masterhandler` on a heartbeat.** -/
def heartBeat (s : Master) (addr : Bytes) (state : Bool) : Master × List Reply :=
  let joined := (((s.beat addr).markShut state).register addr).joinRound
  let removed := joined.1.remove addr
  let refreshed := removed.1.refreshRound
  (refreshed.1, joined.2 ++ removed.2 ++ refreshed.2)

/-! ## The other messages -/

/-- `masterhandler` on a request to shut caches down. -/
def shutdownCache (s : Master) (iplist : List Bytes) : Master :=
  let s := { s with
    shutIpNow := s.shutIpNow ++ iplist.map (fun addr => (cutAddress addr).1)
    shutPortNow := s.shutPortNow ++ iplist.map (fun addr => (cutAddress addr).2) }
  { s with num4 := s.shutPortNow.length, flag2 := 1, flag5 := 1 }

/-- `masterhandler` on the heartbeat of another master. -/
def spareMaster (s : Master) (ip : Bytes) (iplist : List Bytes) : Master :=
  { s with
    ipPortList := if iplist.length > 0 then iplist else s.ipPortList
    masterIp := (cutAddress ip).1
    masterPort := (cutAddress ip).2
    masterStateMap := if (cutAddress ip).2 ∈ s.masterStateMap
      then s.masterStateMap.bump (cutAddress ip).2
      else s.masterStateMap.emplace (cutAddress ip).2 0 }

/-- **`masterhandler`**: what a message does, and what is sent to its
sender. -/
def masterhandler (s : Master) : MasterMessage → Master × List Reply
  | .heartBeat iplist state => s.heartBeat iplist state
  | .shutdownCache iplist => (s.shutdownCache iplist, [])
  | .distributionRequest => (s, [⟨some .distributionRespond, s.ipPortList⟩])
  | .spareMaster ip iplist => (s.spareMaster ip iplist, [])

/-- The port of an address. -/
def portOf (addr : Bytes) : Bytes := (cutAddress addr).2

/-! ## What each part can change

A part changes a few of the globals, and the rest is the same afterwards. These
say which, once for each part, so that what is true of the others need not be
followed through the parts again. -/

/-- What a cache is noted in, and nothing else. -/
theorem markShut_frame (s : Master) (state : Bool) :
    s.markShut state = { s with
      flag2 := (s.markShut state).flag2
      flag5 := (s.markShut state).flag5
      shutPort := (s.markShut state).shutPort
      shutIp := (s.markShut state).shutIp } := by
  unfold markShut noteShut
  split
  · rfl
  · split
    · rfl
    · split <;> rfl

theorem checkReconnect_frame (s : Master) :
    s.checkReconnect = { s with
      flag4 := s.checkReconnect.flag4
      num5 := s.checkReconnect.num5 } := by
  unfold checkReconnect
  split <;> rfl

/-- The announcement of a join changes its flag, its count and its marks, and
forgets who was named. -/
theorem joinRound_frame (s : Master) :
    s.joinRound.1 = { s with
      flag1 := s.joinRound.1.flag1
      num1 := s.joinRound.1.num1
      shutPortNow := s.joinRound.1.shutPortNow
      shutIpNow := s.joinRound.1.shutIpNow
      cacheMap := s.joinRound.1.cacheMap } := by
  unfold joinRound endJoin tellJoin
  split
  · split
    · split <;> rfl
    · split <;> rfl
  · rfl

/-- The announcement of a removal changes its flags, its count and its
marks. -/
theorem refreshRound_frame (s : Master) :
    s.refreshRound.1 = { s with
      flag3 := s.refreshRound.1.flag3
      flag6 := s.refreshRound.1.flag6
      num2 := s.refreshRound.1.num2
      cacheMapShut := s.refreshRound.1.cacheMapShut } := by
  unfold refreshRound endRefresh tellRefresh
  split
  · split
    · split <;> rfl
    · split <;> rfl
  · rfl

/-! ## What joining leaves alone -/

/-- **What has to do with removals is the same**, and the sender. -/
structure SameShut (s t : Master) : Prop where
  flag2 : t.flag2 = s.flag2
  flag3 : t.flag3 = s.flag3
  flag5 : t.flag5 = s.flag5
  flag6 : t.flag6 = s.flag6
  num3 : t.num3 = s.num3
  num4 : t.num4 = s.num4
  num7 : t.num7 = s.num7
  shutPort : t.shutPort = s.shutPort
  heartPort : t.heartPort = s.heartPort

variable {s t u : Master} {addr : Bytes}

@[refl]
theorem SameShut.refl (s : Master) : SameShut s s := ⟨rfl, rfl, rfl, rfl, rfl, rfl, rfl, rfl, rfl⟩

theorem SameShut.trans (h : SameShut s t) (h' : SameShut t u) : SameShut s u :=
  ⟨h'.flag2.trans h.flag2, h'.flag3.trans h.flag3, h'.flag5.trans h.flag5,
    h'.flag6.trans h.flag6, h'.num3.trans h.num3, h'.num4.trans h.num4,
    h'.num7.trans h.num7, h'.shutPort.trans h.shutPort, h'.heartPort.trans h.heartPort⟩

theorem sameShut_checkReconnect (s : Master) : SameShut s s.checkReconnect := by
  rw [checkReconnect_frame]
  exact ⟨rfl, rfl, rfl, rfl, rfl, rfl, rfl, rfl, rfl⟩

theorem sameShut_switchFlag4 (s : Master) (addr : Bytes) : SameShut s (s.switchFlag4 addr) := by
  unfold switchFlag4
  split
  · exact ⟨rfl, rfl, rfl, rfl, rfl, rfl, rfl, rfl, rfl⟩
  · split
    · exact ⟨rfl, rfl, rfl, rfl, rfl, rfl, rfl, rfl, rfl⟩
    · rfl

theorem sameShut_register (s : Master) (addr : Bytes) : SameShut s (s.register addr) := by
  unfold register
  split
  · rfl
  · exact (sameShut_checkReconnect s).trans (sameShut_switchFlag4 _ addr)

theorem sameShut_joinRound (s : Master) : SameShut s s.joinRound.1 := by
  rw [joinRound_frame]
  exact ⟨rfl, rfl, rfl, rfl, rfl, rfl, rfl, rfl, rfl⟩

end Master

end Dcs
