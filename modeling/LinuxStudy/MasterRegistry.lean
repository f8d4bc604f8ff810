import Mathlib.Data.Finset.Basic
import LinuxStudy.MasterReply
import LinuxStudy.SpareMaster

/-!
# The registry

What the master knows of a cache is spread over seven containers: the lists
of ips, of port numbers and of addresses, and four maps that have the port as
key. They are meant to be about the same caches at any time.

A registration puts the sender in all seven, and the two announcements leave
the names alone. A removal takes something out of each, but not all by the
same key. When the sender is removed, the ip is the one noted in `shutip`,
and the port and the address are the sender's. When a cache that has gone
silent is removed, ip and port are those in `psshutip` and `psshutport`, of
which the first is that of whoever spoke last; and one of the four maps,
`masterupdatemap`, loses the port of the sender. Nor does it stop there: the
removal is done again at every heartbeat until its announcement is over.

`registry_consistent_iff` says when the seven stay in step, in all states of
a run: exactly if every removal meets `Removable`, where either what is taken
out is one cache, which is the sender itself if a silent cache is meant, or
nothing is taken out at all.
-/

namespace Dcs

namespace Master

variable {s t : Master} {addr : Bytes} {state : Bool}

/-- The number of the port of an address. -/
def numberOf (addr : Bytes) : ℤ := atoi (portOf addr)

/-! ## The names of a map

The maps have the texts of the ports for names, and the list of ports has numbers.
`8000` and `08000` are two texts and one number. So that the sizes can be
compared, each name of a map is the port of exactly one address on the list. -/

/-- **The names of a map are the ports of some addresses.** -/
def PortsOf (m : Marks Bytes) (addrs : List Bytes) : Prop :=
  ∀ p, p ∈ m ↔ ∃ a ∈ addrs, portOf a = p

variable {m m' : Marks Bytes} {addrs : List Bytes}

theorem PortsOf.congr (h : PortsOf m addrs) (hm : ∀ p, p ∈ m' ↔ p ∈ m) : PortsOf m' addrs :=
  fun p => (hm p).trans (h p)

/-- A new address. -/
theorem PortsOf.emplace (h : PortsOf m addrs) (addr : Bytes) :
    PortsOf (m.emplace (portOf addr) 0) (addrs ++ [addr]) := by
  intro p
  rw [Marks.mem_emplace, h p]
  constructor
  · rintro (rfl | ⟨a, ha, rfl⟩)
    · exact ⟨addr, List.mem_append_right _ List.mem_cons_self, rfl⟩
    · exact ⟨a, List.mem_append_left _ ha, rfl⟩
  · rintro ⟨a, ha, rfl⟩
    rcases List.mem_append.mp ha with hold | hnew
    · exact Or.inr ⟨a, hold, rfl⟩
    · exact Or.inl (by rw [List.mem_singleton.mp hnew])

/-- An address is taken out, where no other has its port. -/
theorem PortsOf.erase (h : PortsOf m addrs) (hnodup : addrs.Nodup)
    (honly : ∀ a ∈ addrs, portOf a = portOf addr → a = addr) :
    PortsOf (m.erase (portOf addr)) (addrs.erase addr) := by
  intro p
  rw [AList.mem_erase, h p]
  constructor
  · rintro ⟨hne, a, ha, rfl⟩
    have hother : a ≠ addr := fun hc => hne (congrArg portOf hc)
    exact ⟨a, (List.mem_erase_of_ne hother).mpr ha, rfl⟩
  · rintro ⟨a, ha, rfl⟩
    obtain ⟨hother, hold⟩ := hnodup.mem_erase_iff.mp ha
    exact ⟨fun hc => hother (honly a hold hc), a, hold, rfl⟩

theorem PortsOf.erase_of_absent (h : PortsOf m addrs) {port : Bytes}
    (hport : ∀ a ∈ addrs, portOf a ≠ port) : PortsOf (m.erase port) addrs := by
  intro p
  rw [AList.mem_erase, h p]
  constructor
  · exact And.right
  · rintro ⟨a, ha, rfl⟩
    exact ⟨hport a ha, a, ha, rfl⟩

/-- **As numbers, the names are those of the addresses.** -/
theorem PortsOf.perm (h : PortsOf m addrs) (hnodup : (addrs.map numberOf).Nodup) :
    (m.keys.map atoi).Perm (addrs.map numberOf) := by
  have hports : (addrs.map numberOf) = (addrs.map portOf).map atoi := by
    rw [List.map_map]
    rfl
  have hkeys : m.keys.Perm (addrs.map portOf) := by
    refine (List.perm_ext_iff_of_nodup m.nodupKeys (List.Nodup.of_map atoi (hports ▸ hnodup))).mpr
      (fun p => ?_)
    rw [List.mem_map, ← h p]
    exact AList.mem_keys.symm
  rw [hports]
  exact hkeys.map atoi

/-! ## In step -/

/-- **The containers are in step**: there are as many ips as addresses, the
port numbers are those of the addresses and no two are the same, and each map
has the ports of the addresses as names. -/
structure InStep (s : Master) : Prop where
  ips : s.ipList.length = s.ipPortList.length
  ports : s.portList.Perm (s.ipPortList.map numberOf)
  nodup : s.portList.Nodup
  cacheMap : PortsOf s.cacheMap s.ipPortList
  cacheMapShut : PortsOf s.cacheMapShut s.ipPortList
  cacheStateMap : PortsOf s.cacheStateMap s.ipPortList
  masterUpdateMap : PortsOf s.masterUpdateMap s.ipPortList

/-- The seven containers. -/
def containers (s : Master) :
    List Bytes × List ℤ × List Bytes × Marks Bytes × Marks Bytes × Marks Bytes × Marks Bytes :=
  (s.ipList, s.portList, s.ipPortList, s.cacheMap, s.cacheMapShut, s.cacheStateMap,
    s.masterUpdateMap)

/-- Nothing else matters. -/
theorem InStep.congr (h : s.InStep) (heq : t.containers = s.containers) : t.InStep := by
  simp only [containers, Prod.mk.injEq] at heq
  obtain ⟨hips, hports, haddrs, hjoin, hshut, hstate, hupdate⟩ := heq
  refine ⟨?_, ?_, ?_, ?_, ?_, ?_, ?_⟩
  · rw [hips, haddrs]
    exact h.ips
  · rw [hports, haddrs]
    exact h.ports
  · rw [hports]
    exact h.nodup
  · rw [hjoin, haddrs]
    exact h.cacheMap
  · rw [hshut, haddrs]
    exact h.cacheMapShut
  · rw [hstate, haddrs]
    exact h.cacheStateMap
  · rw [hupdate, haddrs]
    exact h.masterUpdateMap

theorem InStep.nodup_numbers (h : s.InStep) : (s.ipPortList.map numberOf).Nodup :=
  h.ports.nodup_iff.mp h.nodup

theorem InStep.nodup_ipPortList (h : s.InStep) : s.ipPortList.Nodup :=
  h.nodup_numbers.of_map

theorem InStep.eq_of_numberOf_eq (h : s.InStep) {a b : Bytes} (ha : a ∈ s.ipPortList)
    (hb : b ∈ s.ipPortList) (heq : numberOf a = numberOf b) : a = b :=
  List.inj_on_of_nodup_map h.nodup_numbers ha hb heq

theorem InStep.numberOf_mem (h : s.InStep) {a : Bytes} (ha : a ∈ s.ipPortList) :
    numberOf a ∈ s.portList :=
  h.ports.mem_iff.mpr (List.mem_map_of_mem ha)

theorem inStep_init : init.InStep := by
  have hempty : PortsOf ∅ [] := by
    intro p
    exact iff_of_false (AList.notMem_empty p) (fun ⟨_, h, _⟩ => nomatch h)
  exact ⟨rfl, List.Perm.refl _, List.nodup_nil, hempty, hempty, hempty, hempty⟩

/-! ## A heartbeat up to the removal

A registration puts the sender into all seven. Nothing else before the removal
branch changes who is in them, and the marks and numbers in the maps do not matter
here. -/

/-- A list, with an entry for the sender if its heartbeat registers it. -/
def withSender {α : Type} (s : Master) (addr : Bytes) (l : List α) (x : α) : List α :=
  if s.Registers addr then l ++ [x] else l

/-- The ip that is noted for the sender, by the state before its heartbeat. -/
def notedIp (s : Master) (addr : Bytes) (state : Bool) : Bytes :=
  if state = false ∨ s.flag5 = 2 ∨ (s.flag5 = 1 ∧ ipOf addr ∈ s.shutIpNow) then ipOf addr
  else s.shutIp

/-- The ip that is noted. -/
theorem shutIp_markShut (s : Master) (addr : Bytes) (state : Bool) :
    ((s.beat addr).markShut state).shutIp = s.notedIp addr state := by
  unfold notedIp
  cases state with
  | false =>
    rw [if_pos (Or.inl rfl)]
    rfl
  | true =>
    rw [markShut_true]
    show (if s.flag5 = 1 then (s.beat addr).noteNamed else if s.flag5 = 2
      then (s.beat addr).noteSender else s.beat addr).shutIp = _
    by_cases hone : s.flag5 = 1
    · rw [if_pos hone]
      show (if ipOf addr ∈ s.shutIpNow then ipOf addr else s.shutIp) = _
      simp [hone]
    · by_cases htwo : s.flag5 = 2
      · rw [if_neg hone, if_pos htwo, if_pos (Or.inr (Or.inl htwo))]
        rfl
      · rw [if_neg hone, if_neg htwo, if_neg (by simp [hone, htwo])]
        rfl

/-- The announcement of a join keeps the names. -/
theorem mem_cacheMap_joinRound (s : Master) (p : Bytes) :
    p ∈ s.joinRound.1.cacheMap ↔ p ∈ s.cacheMap := by
  have hend : ∀ u : Master, p ∈ u.endJoin.cacheMap ↔ p ∈ u.cacheMap := by
    intro u
    unfold endJoin
    split
    · exact Marks.mem_clear
    · exact Iff.rfl
  unfold joinRound
  split
  · refine (hend _).trans ?_
    unfold tellJoin
    split
    next hmark => exact Marks.mem_insert_of_lookup hmark
    next => exact Iff.rfl
  · exact Iff.rfl

/-- So does the announcement of a removal. -/
theorem mem_cacheMapShut_refreshRound (s : Master) (p : Bytes) :
    p ∈ s.refreshRound.1.cacheMapShut ↔ p ∈ s.cacheMapShut := by
  have hend : ∀ u : Master, p ∈ u.endRefresh.cacheMapShut ↔ p ∈ u.cacheMapShut := by
    intro u
    unfold endRefresh
    split
    · exact Marks.mem_clear
    · exact Iff.rfl
  unfold refreshRound
  split
  · refine (hend _).trans ?_
    unfold tellRefresh
    split
    next hmark => exact Marks.mem_insert_of_lookup hmark
    next => exact Iff.rfl
  · exact Iff.rfl

/-- What is not changed before the removal branch. -/
theorem beforeRemoval_keeps (s : Master) (addr : Bytes) (state : Bool) :
    (s.beforeRemoval addr state).shutIp = s.notedIp addr state
      ∧ (s.beforeRemoval addr state).flag6 = s.flag6
      ∧ (s.beforeRemoval addr state).psShutIp = s.psShutIp
      ∧ (s.beforeRemoval addr state).psShutPort = s.psShutPort := by
  have hmark := markShut_frame (s.beat addr) state
  unfold beforeRemoval
  rw [joinRound_frame, ← shutIp_markShut]
  by_cases hnew : ((s.beat addr).markShut state).NewCache
  · rw [register_of_newCache hnew, checkReconnect_frame, hmark]
    exact ⟨rfl, rfl, rfl, rfl⟩
  · rw [register_frame_of_not_newCache hnew, hmark]
    exact ⟨rfl, rfl, rfl, rfl⟩

/-- **The lists before the removal branch.** -/
theorem beforeRemoval_withSender (s : Master) (addr : Bytes) (state : Bool) :
    (s.beforeRemoval addr state).ipList = s.withSender addr s.ipList (ipOf addr)
      ∧ (s.beforeRemoval addr state).portList = s.withSender addr s.portList (numberOf addr)
      ∧ (s.beforeRemoval addr state).ipPortList = s.withSender addr s.ipPortList addr := by
  unfold beforeRemoval withSender
  rw [joinRound_frame]
  by_cases hnew : s.Registers addr
  · rw [register_of_newCache (newCache_markShut_iff.mpr hnew), checkReconnect_frame,
      markShut_frame, if_pos hnew, if_pos hnew, if_pos hnew]
    exact ⟨rfl, rfl, rfl⟩
  · rw [register_frame_of_not_newCache (fun hc => hnew (newCache_markShut_iff.mp hc)),
      markShut_frame, if_neg hnew, if_neg hnew, if_neg hnew]
    exact ⟨rfl, rfl, rfl⟩

theorem InStep.beat (h : s.InStep) (addr : Bytes) : (s.beat addr).InStep :=
  ⟨h.ips, h.ports, h.nodup, h.cacheMap, h.cacheMapShut,
    h.cacheStateMap.congr (fun _ => Marks.mem_bump), h.masterUpdateMap⟩

/-- **A registration puts the sender in all seven.** -/
theorem InStep.addNew (h : s.InStep) (hheart : s.heartPort = portOf addr)
    (hnew : numberOf addr ∉ s.portList) : (s.addNew addr).InStep := by
  unfold Master.addNew
  rw [hheart]
  refine ⟨?_, ?_, ?_, h.cacheMap.emplace addr, h.cacheMapShut.emplace addr,
    h.cacheStateMap.emplace addr, h.masterUpdateMap.emplace addr⟩
  · show (s.ipList ++ [s.heartIp]).length = (s.ipPortList ++ [addr]).length
    rw [List.length_append, List.length_append, h.ips]
    rfl
  · show (s.portList ++ [numberOf addr]).Perm ((s.ipPortList ++ [addr]).map numberOf)
    rw [List.map_append]
    exact h.ports.append_right _
  · exact h.nodup.append (List.nodup_singleton _)
      (List.disjoint_singleton.mpr hnew)

/-- **Up to the removal branch a heartbeat keeps the containers in step.** -/
theorem InStep.beforeRemoval (h : s.InStep) (addr : Bytes) (state : Bool) :
    (s.beforeRemoval addr state).InStep := by
  have hjoin : ∀ u : Master, u.InStep → u.joinRound.1.InStep := by
    intro u hu
    have hnames := hu.cacheMap.congr (mem_cacheMap_joinRound u)
    rw [joinRound_frame]
    exact ⟨hu.ips, hu.ports, hu.nodup, hnames, hu.cacheMapShut, hu.cacheStateMap,
      hu.masterUpdateMap⟩
  have hmark : ((s.beat addr).markShut state).InStep := by
    refine (h.beat addr).congr ?_
    rw [markShut_frame]
    rfl
  have hheart : ((s.beat addr).markShut state).heartPort = portOf addr :=
    (markShut_keeps (s.beat addr) state).2.1
  refine hjoin _ ?_
  by_cases hnew : ((s.beat addr).markShut state).NewCache
  · have hunknown := hnew.1
    rw [hheart] at hunknown
    rw [register_of_newCache hnew]
    refine InStep.addNew (hmark.congr ?_) ?_ ?_
    all_goals rw [checkReconnect_frame]
    · rfl
    · exact hheart
    · exact hunknown
  · refine hmark.congr ?_
    rw [register_frame_of_not_newCache hnew]
    rfl

/-! ## What is taken out

The removal branch erases from each container by itself: an ip from the list of
ips, a number from the list of the ports, an address from the list of addresses
and a text from each map. In the one case these are cut from the sender's address
and what was noted of it. In the other they are `psshutip` and `psshutport`, but
the heartbeat counter of the sender is what is erased, and not that of the cache
which has gone silent. The containers are in step afterwards exactly if all of
these belong to one cache that is listed, or to none.

The converse is shown by counting. If something was taken out of one container and
not of another, their sizes are different from then on. -/

/-- **A removal leaves the containers in step**: what is taken out is one
cache, of which `addr` is the address, `ip` is on the list of ips, and the
sender has the port; or nothing is taken out of any of them. -/
def Removable (ips : List Bytes) (numbers : List ℤ) (addrs : List Bytes)
    (sender ip port addr : Bytes) : Prop :=
  (addr ∈ addrs ∧ ip ∈ ips ∧ portOf addr = port ∧ sender = port)
    ∨ (addr ∉ addrs ∧ ip ∉ ips ∧ atoi port ∉ numbers ∧ ∀ a ∈ addrs, portOf a ≠ sender)

instance (ips : List Bytes) (numbers : List ℤ) (addrs : List Bytes)
    (sender ip port addr : Bytes) : Decidable (Removable ips numbers addrs sender ip port addr) :=
  inferInstanceAs (Decidable (_ ∨ _))

/-- What may be taken out where a heartbeat reaches the removal branch, by the
state before it: the containers have the sender if it is registered. -/
def RemovableWith (s : Master) (sender ip port addr : Bytes) : Prop :=
  Removable (s.withSender sender s.ipList (ipOf sender))
    (s.withSender sender s.portList (numberOf sender))
    (s.withSender sender s.ipPortList sender) (portOf sender) ip port addr

instance (s : Master) (sender ip port addr : Bytes) :
    Decidable (s.RemovableWith sender ip port addr) :=
  inferInstanceAs (Decidable (Removable _ _ _ _ _ _ _))

variable {ip port : Bytes}

/-- One cache is taken out of everything. -/
theorem InStep.erase_of_listed (h : s.InStep) (haddr : addr ∈ s.ipPortList)
    (hip : ip ∈ s.ipList) (hheart : s.heartPort = portOf addr) :
    (s.erase ip (portOf addr) addr (portOf addr)).InStep := by
  have honly : ∀ a ∈ s.ipPortList, portOf a = portOf addr → a = addr :=
    fun a ha heq => h.eq_of_numberOf_eq ha haddr (congrArg atoi heq)
  have hnodup := h.nodup_ipPortList
  unfold Master.erase
  rw [hheart]
  refine ⟨?_, ?_, h.nodup.erase _, h.cacheMap.erase hnodup honly,
    h.cacheMapShut.erase hnodup honly, h.cacheStateMap.erase hnodup honly,
    h.masterUpdateMap.erase hnodup honly⟩
  · show (s.ipList.erase ip).length = (s.ipPortList.erase addr).length
    rw [List.length_erase_of_mem hip, List.length_erase_of_mem haddr, h.ips]
  · show (s.portList.erase (numberOf addr)).Perm ((s.ipPortList.erase addr).map numberOf)
    have hsplit := (List.perm_cons_erase haddr).map numberOf
    rw [List.map_cons] at hsplit
    have herase := (h.ports.trans hsplit).erase (numberOf addr)
    rwa [List.erase_cons_head] at herase

/-- Nothing is taken out of anything. -/
theorem InStep.erase_of_unlisted (h : s.InStep) (haddr : addr ∉ s.ipPortList)
    (hip : ip ∉ s.ipList) (hport : atoi port ∉ s.portList)
    (hheart : ∀ a ∈ s.ipPortList, portOf a ≠ s.heartPort) :
    (s.erase ip port addr port).InStep := by
  have habsent : ∀ a ∈ s.ipPortList, portOf a ≠ port :=
    fun a ha heq => hport (heq ▸ h.numberOf_mem ha)
  unfold Master.erase
  rw [List.erase_of_not_mem haddr, List.erase_of_not_mem hip, List.erase_of_not_mem hport]
  exact ⟨h.ips, h.ports, h.nodup, h.cacheMap.erase_of_absent habsent,
    h.cacheMapShut.erase_of_absent habsent, h.cacheStateMap.erase_of_absent habsent,
    h.masterUpdateMap.erase_of_absent hheart⟩

/-- **A removal that meets the condition** keeps the containers in step. -/
theorem InStep.erase (h : s.InStep)
    (hr : Removable s.ipList s.portList s.ipPortList s.heartPort ip port addr) :
    (s.erase ip port addr port).InStep := by
  rcases hr with ⟨haddr, hip, rfl, hheart⟩ | ⟨haddr, hip, hport, hheart⟩
  · exact h.erase_of_listed haddr hip hheart
  · exact h.erase_of_unlisted haddr hip hport hheart

/-- **The containers agree**, as far as one can see from their sizes and the
numbers of the ports. -/
structure Agree (s : Master) : Prop where
  ips : s.ipList.length = s.portList.length
  ports : s.portList.length = s.ipPortList.length
  nodup : s.ipPortList.Nodup
  cacheMap : (s.cacheMap.keys.map atoi).Perm s.portList
  cacheMapShut : (s.cacheMapShut.keys.map atoi).Perm s.portList
  cacheStateMap : (s.cacheStateMap.keys.map atoi).Perm s.portList
  masterUpdateMap : (s.masterUpdateMap.keys.map atoi).Perm s.portList

/-- Nothing but the containers matters here, either. -/
theorem Agree.congr (h : s.Agree) (heq : t.containers = s.containers) : t.Agree := by
  simp only [containers, Prod.mk.injEq] at heq
  obtain ⟨hips, hports, haddrs, hjoin, hshut, hstate, hupdate⟩ := heq
  refine ⟨?_, ?_, ?_, ?_, ?_, ?_, ?_⟩
  · rw [hips, hports]
    exact h.ips
  · rw [hports, haddrs]
    exact h.ports
  · rw [haddrs]
    exact h.nodup
  · rw [hjoin, hports]
    exact h.cacheMap
  · rw [hshut, hports]
    exact h.cacheMapShut
  · rw [hstate, hports]
    exact h.cacheStateMap
  · rw [hupdate, hports]
    exact h.masterUpdateMap

theorem InStep.agree (h : s.InStep) : s.Agree := by
  have hlength : s.portList.length = s.ipPortList.length :=
    h.ports.length_eq.trans (List.length_map _)
  have hkeys : ∀ {m : Marks Bytes}, PortsOf m s.ipPortList → (m.keys.map atoi).Perm s.portList :=
    fun hm => (hm.perm h.nodup_numbers).trans h.ports.symm
  exact ⟨h.ips.trans hlength.symm, hlength, h.nodup_ipPortList, hkeys h.cacheMap,
    hkeys h.cacheMapShut, hkeys h.cacheStateMap, hkeys h.masterUpdateMap⟩

/-- What is taken out of one list is taken out of another of the same
length. -/
theorem mem_iff_of_length_erase_eq {α β : Type} {_ : BEq α} {_ : BEq β} [LawfulBEq α]
    [LawfulBEq β] {l : List α} {l' : List β} {x : α} {y : β} (hlength : l.length = l'.length)
    (herase : (l.erase x).length = (l'.erase y).length) : x ∈ l ↔ y ∈ l' := by
  rw [List.length_erase, List.length_erase] at herase
  constructor
  · intro hx
    by_contra hy
    rw [if_pos hx, if_neg hy] at herase
    have hpos := List.length_pos_of_mem hx
    omega
  · intro hy
    by_contra hx
    rw [if_neg hx, if_pos hy] at herase
    have hpos := List.length_pos_of_mem hy
    omega

/-- **If the containers agree after a removal**, either a cache was taken out
of each, with the sender's port, or nothing was. -/
theorem InStep.erase_cases (h : s.InStep) (ha : (s.erase ip port addr port).Agree) :
    (addr ∈ s.ipPortList ∧ ip ∈ s.ipList ∧ s.heartPort = port
        ∧ ∃ a ∈ s.ipPortList, portOf a = port)
      ∨ (addr ∉ s.ipPortList ∧ ip ∉ s.ipList ∧ atoi port ∉ s.portList
        ∧ ∀ a ∈ s.ipPortList, portOf a ≠ s.heartPort) := by
  have hb := h.agree
  have hlength : ∀ {m : Marks Bytes} {p : Bytes}, (m.keys.map atoi).Perm s.portList →
      ((m.erase p).keys.map atoi).Perm (s.portList.erase (atoi port)) →
      (p ∈ m ↔ atoi port ∈ s.portList) := by
    intro m p hm herase
    have hl := hm.length_eq
    have he := herase.length_eq
    rw [List.length_map] at hl he
    rw [AList.keys_erase] at he
    exact AList.mem_keys.trans (mem_iff_of_length_erase_eq hl he)
  have hport : addr ∈ s.ipPortList ↔ atoi port ∈ s.portList :=
    mem_iff_of_length_erase_eq hb.ports.symm ha.ports.symm
  have hip : ip ∈ s.ipList ↔ atoi port ∈ s.portList :=
    mem_iff_of_length_erase_eq hb.ips ha.ips
  have hkey : port ∈ s.cacheMap ↔ atoi port ∈ s.portList := hlength hb.cacheMap ha.cacheMap
  have hheart : s.heartPort ∈ s.masterUpdateMap ↔ atoi port ∈ s.portList :=
    hlength hb.masterUpdateMap ha.masterUpdateMap
  by_cases hmem : atoi port ∈ s.portList
  · obtain ⟨a, haddrs, haport⟩ := (h.cacheMap port).mp (hkey.mpr hmem)
    refine Or.inl ⟨hport.mpr hmem, hip.mpr hmem, ?_, a, haddrs, haport⟩
    -- otherwise `masterupdatemap` still has the port, and `Portlist` has not
    by_contra hne
    have hleft : port ∈ s.masterUpdateMap.erase s.heartPort :=
      AList.mem_erase.mpr ⟨fun hc => hne hc.symm, (h.masterUpdateMap port).mpr ⟨a, haddrs, haport⟩⟩
    have hnumber := ha.masterUpdateMap.mem_iff.mp
      (List.mem_map_of_mem (f := atoi) (AList.mem_keys.mp hleft))
    exact h.nodup.not_mem_erase hnumber
  · refine Or.inr ⟨fun hc => hmem (hport.mp hc), fun hc => hmem (hip.mp hc), hmem, ?_⟩
    intro a haddrs heq
    exact hmem (hheart.mp ((h.masterUpdateMap _).mpr ⟨a, haddrs, heq⟩))

/-- The address put together for a cache that has gone silent. -/
def silentAddr (s : Master) : Bytes := s.psShutIp ++ [58] ++ s.psShutPort

theorem portOf_silentAddr (h : ∃ a, portOf a = s.psShutPort) :
    portOf s.silentAddr = s.psShutPort := by
  obtain ⟨a, ha⟩ := h
  have hcolon : 58 ∉ s.psShutPort := ha ▸ notMem_cutAtLast_snd 58 a
  unfold portOf cutAddress silentAddr
  rw [List.append_assoc, List.singleton_append, cutAtLast_append_cons hcolon]

/-- What the end of a removal changes. -/
theorem endRemoval_frame (s : Master) :
    s.endRemoval = { s with
      num3 := s.endRemoval.num3
      flag2 := s.endRemoval.flag2
      flag3 := s.endRemoval.flag3
      flag4 := s.endRemoval.flag4
      flag5 := s.endRemoval.flag5
      flag8 := s.endRemoval.flag8 } := by
  unfold endRemoval
  split <;> rfl

/-- **What the removal branch takes out of the containers**, if it is the
sender. -/
theorem containers_remove_of_removes (h : s.Removes) (addr : Bytes) :
    (s.remove addr).1.containers
      = (s.erase s.shutIp s.heartPort addr s.heartPort).containers := by
  unfold remove eraseSender
  rw [if_pos h, endRemoval_frame, h.1]
  rfl

/-- **And if it is a cache that has gone silent.** -/
theorem containers_remove_of_silent (h : ¬ s.Removes) (hsix : s.flag6 = 1) (addr : Bytes) :
    (s.remove addr).1.containers
      = (s.erase s.psShutIp s.psShutPort s.silentAddr s.psShutPort).containers := by
  unfold remove
  rw [if_neg h, if_pos hsix]
  rfl

theorem remove_of_neither (h : ¬ s.Removes) (hsix : s.flag6 ≠ 1) (addr : Bytes) :
    (s.remove addr).1 = s := by
  unfold remove
  rw [if_neg h, if_neg hsix]

/-- **Who is meant by the silent port is who is meant by the address**, if the
removal meets the condition. -/
theorem InStep.mem_remove_of_silent_iff (h : s.InStep) (hr : ¬ s.Removes) (hsix : s.flag6 = 1)
    (hsilent : Removable s.ipList s.portList s.ipPortList s.heartPort s.psShutIp s.psShutPort
      s.silentAddr) (a : Bytes) :
    a ∈ (s.remove addr).1.ipPortList ↔ portOf a ≠ s.psShutPort ∧ a ∈ s.ipPortList := by
  have haddrs : (s.remove addr).1.ipPortList = s.ipPortList.erase s.silentAddr :=
    congrArg (fun c => c.2.2.1) (containers_remove_of_silent hr hsix addr)
  rw [haddrs, h.nodup_ipPortList.mem_erase_iff]
  refine and_congr_left (fun ha => ?_)
  rcases hsilent with ⟨hlisted, -, hport, -⟩ | ⟨hunlisted, -, hunknown, -⟩
  · rw [← hport]
    exact not_congr ⟨congrArg portOf,
      fun heq => h.eq_of_numberOf_eq ha hlisted (congrArg atoi heq)⟩
  · exact iff_of_true (fun hc => hunlisted (hc ▸ ha)) (fun hc => hunknown (hc ▸ h.numberOf_mem ha))

theorem InStep.refreshRound (h : s.InStep) : s.refreshRound.1.InStep := by
  have hnames := h.cacheMapShut.congr (mem_cacheMapShut_refreshRound s)
  rw [refreshRound_frame]
  exact ⟨h.ips, h.ports, h.nodup, h.cacheMap, hnames, h.cacheStateMap, h.masterUpdateMap⟩

/-- If the containers agree after the announcement of a removal, they did
before. -/
theorem Agree.of_refreshRound (h : s.refreshRound.1.Agree) : s.Agree := by
  have hkeys : s.cacheMapShut.keys.Perm s.refreshRound.1.cacheMapShut.keys := by
    refine (List.perm_ext_iff_of_nodup s.cacheMapShut.nodupKeys
      s.refreshRound.1.cacheMapShut.nodupKeys).mpr (fun p => ?_)
    exact (mem_cacheMapShut_refreshRound s p).symm
  have hshut := (hkeys.map atoi).trans h.cacheMapShut
  rw [refreshRound_frame] at h hshut
  exact ⟨h.ips, h.ports, h.nodup, h.cacheMap, hshut, h.cacheStateMap, h.masterUpdateMap⟩

/-- **The removal branch finds what it may take out**: the cache it removes,
if it removes one, meets `Removable`. -/
def RemovesOrderly (s : Master) (addr : Bytes) : Prop :=
  if s.Removes then
    Removable s.ipList s.portList s.ipPortList s.heartPort s.shutIp s.heartPort addr
  else s.flag6 = 1 →
    Removable s.ipList s.portList s.ipPortList s.heartPort s.psShutIp s.psShutPort s.silentAddr

/-- **A removal that meets the condition** keeps the containers in step. -/
theorem InStep.remove (h : s.InStep) (ho : s.RemovesOrderly addr) :
    (s.remove addr).1.InStep := by
  unfold RemovesOrderly at ho
  by_cases hr : s.Removes
  · rw [if_pos hr] at ho
    exact (h.erase ho).congr (containers_remove_of_removes hr addr)
  · rw [if_neg hr] at ho
    by_cases hsix : s.flag6 = 1
    · exact (h.erase (ho hsix)).congr (containers_remove_of_silent hr hsix addr)
    · rw [remove_of_neither hr hsix]
      exact h

/-- **If the containers agree after a removal, it met the condition.** -/
theorem InStep.removesOrderly (h : s.InStep) (hheart : s.heartPort = portOf addr)
    (ha : (s.remove addr).1.Agree) : s.RemovesOrderly addr := by
  unfold RemovesOrderly
  by_cases hr : s.Removes
  · rw [if_pos hr]
    rcases h.erase_cases (ha.congr (containers_remove_of_removes hr addr).symm) with
      ⟨haddr, hip, -, -⟩ | hnone
    · exact Or.inl ⟨haddr, hip, hheart.symm, rfl⟩
    · exact Or.inr hnone
  · rw [if_neg hr]
    intro hsix
    rcases h.erase_cases (ha.congr (containers_remove_of_silent hr hsix addr).symm) with
      ⟨haddr, hip, hsender, a, -, hport⟩ | hnone
    · exact Or.inl ⟨haddr, hip, portOf_silentAddr ⟨a, hport⟩, hsender⟩
    · exact Or.inr hnone

end Master

/-! ## Runs -/

/-- **The master, and who is registered.** -/
structure Registry where
  master : Master
  /-- The addresses that were registered and not removed since. -/
  registered : Finset Bytes

namespace Registry

open Master

/-- What may happen. -/
inductive Event
  /-- `HEART_BEAT`. -/
  | heartBeat (addr : Bytes) (state : Bool)
  /-- `SHUTDOWN_CACHE`. -/
  | shutdownCache (iplist : List Bytes)
  /-- `heartstate` finds that a port does not answer. -/
  | heartstate (port : Bytes)

/-- The start. -/
def init : Registry := ⟨Master.init, ∅⟩

/-- Who is registered when the removal branch is reached. -/
def arrived (w : Registry) (addr : Bytes) (state : Bool) : Finset Bytes :=
  if ((w.master.beat addr).markShut state).NewCache then insert addr w.registered
  else w.registered

/-- Who is registered after a heartbeat: the sender is removed, or a cache
whose port was found not to answer. -/
def remaining (w : Registry) (addr : Bytes) (state : Bool) : Finset Bytes :=
  if (w.master.beforeRemoval addr state).Removes then (w.arrived addr state).erase addr
  else if (w.master.beforeRemoval addr state).flag6 = 1 then
    (w.arrived addr state).filter (fun a => portOf a ≠ w.master.psShutPort)
  else w.arrived addr state

/-- One event. -/
def step (w : Registry) : Event → Option Registry
  | .heartBeat addr state =>
    some ⟨(w.master.masterhandler (.heartBeat addr state)).1, w.remaining addr state⟩
  | .shutdownCache iplist =>
    some ⟨(w.master.masterhandler (.shutdownCache iplist)).1, w.registered⟩
  | .heartstate port =>
    some ⟨SpareMaster.noteSilent w.master w.master.heartIp port true, w.registered⟩

/-- **The registry is consistent**: the containers agree, and the addresses
are those that are registered. -/
structure Consistent (w : Registry) : Prop where
  agree : w.master.Agree
  registered : ∀ a, a ∈ w.master.ipPortList ↔ a ∈ w.registered

/-- **The condition on an event**: what a heartbeat takes out of the
containers may be taken out. It takes out the sender, with the ip noted for
it, if it is taken for a cache to be shut down, and otherwise the cache that
has gone silent, if there is one. -/
def Orderly (w : Registry) : Event → Prop
  | .heartBeat addr state =>
    if w.master.Taken addr state then
      w.master.RemovableWith addr (w.master.notedIp addr state) (portOf addr) addr
    else w.master.flag6 = 1 →
      w.master.RemovableWith addr w.master.psShutIp w.master.psShutPort w.master.silentAddr
  | _ => True

instance (w : Registry) (e : Event) : Decidable (w.Orderly e) :=
  match e with
  | .heartBeat addr state => inferInstanceAs (Decidable (if w.master.Taken addr state then
      w.master.RemovableWith addr (w.master.notedIp addr state) (portOf addr) addr
    else w.master.flag6 = 1 →
      w.master.RemovableWith addr w.master.psShutIp w.master.psShutPort w.master.silentAddr))
  | .shutdownCache _ => isTrue trivial
  | .heartstate _ => isTrue trivial

/-- **What holds after every event.** -/
structure Invariant (w : Registry) : Prop where
  unnoted : w.master.Unnoted
  inStep : w.master.InStep
  registered : ∀ a, a ∈ w.master.ipPortList ↔ a ∈ w.registered

variable {w v : Registry} {e : Event} {addr : Bytes} {state : Bool}

/-- The condition says of the state before a heartbeat what is needed where
the removal branch is reached. -/
theorem orderly_heartBeat_iff (h : w.master.Unnoted) :
    w.Orderly (.heartBeat addr state) ↔
      (w.master.beforeRemoval addr state).RemovesOrderly addr := by
  obtain ⟨hips, hports, haddrs⟩ := beforeRemoval_withSender w.master addr state
  obtain ⟨hip, hsix, hsilentIp, hsilentPort⟩ := beforeRemoval_keeps w.master addr state
  have hheart := heartPort_beforeRemoval w.master addr state
  unfold Orderly RemovesOrderly RemovableWith silentAddr
  rw [hips, hports, haddrs, hip, hsix, hsilentIp, hsilentPort, hheart,
    if_congr h.removes_iff rfl rfl]

/-- The addresses on the list when the removal branch is reached are those
that are registered then. -/
theorem Invariant.mem_beforeRemoval_iff (h : w.Invariant) (addr : Bytes) (state : Bool)
    (a : Bytes) :
    a ∈ (w.master.beforeRemoval addr state).ipPortList ↔ a ∈ w.arrived addr state := by
  rw [(beforeRemoval_withSender w.master addr state).2.2]
  unfold withSender arrived
  rw [if_congr newCache_markShut_iff rfl rfl]
  split
  · rw [List.mem_append, List.mem_singleton, Finset.mem_insert, h.registered a, or_comm]
  · exact h.registered a

/-- **After a removal that meets the condition**, the addresses on the list
are those that remain. -/
theorem Invariant.mem_remove_iff (h : w.Invariant)
    (ho : (w.master.beforeRemoval addr state).RemovesOrderly addr) (a : Bytes) :
    a ∈ ((w.master.beforeRemoval addr state).remove addr).1.ipPortList
      ↔ a ∈ w.remaining addr state := by
  have hin := h.inStep.beforeRemoval addr state
  have hmem := h.mem_beforeRemoval_iff addr state
  unfold RemovesOrderly at ho
  unfold remaining
  by_cases hr : (w.master.beforeRemoval addr state).Removes
  · rw [if_pos hr, (lists_remove hr addr).1, hin.nodup_ipPortList.mem_erase_iff, hmem,
      Finset.mem_erase]
  · rw [if_neg hr] at ho
    rw [if_neg hr]
    by_cases hsix : (w.master.beforeRemoval addr state).flag6 = 1
    · rw [if_pos hsix, hin.mem_remove_of_silent_iff hr hsix (ho hsix), Finset.mem_filter, hmem,
        (beforeRemoval_keeps w.master addr state).2.2.2, and_comm]
    · rw [if_neg hsix, remove_of_neither hr hsix, hmem]

/-- **A heartbeat that meets the condition** keeps the invariant. -/
theorem Invariant.heartBeat (h : w.Invariant) (ho : w.Orderly (.heartBeat addr state)) :
    Invariant ⟨(w.master.heartBeat addr state).1, w.remaining addr state⟩ := by
  have ho' := (orderly_heartBeat_iff h.unnoted).mp ho
  refine ⟨h.unnoted.heartBeat addr state, ?_, ?_⟩
  · rw [heartBeat_eq]
    exact ((h.inStep.beforeRemoval addr state).remove ho').refreshRound
  · intro a
    rw [heartBeat_eq, (refreshRound_keeps _).1.1]
    exact h.mem_remove_iff ho' a

/-- **A heartbeat after which the registry is consistent met the
condition.** -/
theorem Invariant.orderly (h : w.Invariant)
    (hc : Consistent ⟨(w.master.heartBeat addr state).1, w.remaining addr state⟩) :
    w.Orderly (.heartBeat addr state) := by
  have hagree : (w.master.heartBeat addr state).1.Agree := hc.agree
  rw [heartBeat_eq] at hagree
  exact (orderly_heartBeat_iff h.unnoted).mpr ((h.inStep.beforeRemoval addr state).removesOrderly
    (heartPort_beforeRemoval w.master addr state) hagree.of_refreshRound)

/-- **One event** that meets the condition keeps the invariant. -/
theorem Invariant.step (h : w.Invariant) (ho : w.Orderly e) (hstep : w.step e = some v) :
    v.Invariant := by
  cases e with
  | heartBeat addr state =>
    obtain rfl := Option.some.inj hstep
    exact h.heartBeat ho
  | shutdownCache iplist =>
    obtain rfl := Option.some.inj hstep
    exact ⟨⟨h.unnoted.shutPort, fun _ => rfl⟩, h.inStep.congr rfl, h.registered⟩
  | heartstate port =>
    obtain rfl := Option.some.inj hstep
    exact ⟨⟨h.unnoted.shutPort, h.unnoted.flag2⟩, h.inStep.congr rfl, h.registered⟩

theorem invariant_init : Registry.init.Invariant :=
  ⟨unnoted_init, inStep_init, fun a => iff_of_false List.not_mem_nil (Finset.notMem_empty a)⟩

end Registry

/-- **The registry is consistent** in all states of a run of heartbeats,
requests to shut caches down and caches found not to answer, exactly if every
heartbeat of the run meets the condition. -/
theorem registry_consistent_iff (es : List Registry.Event) :
    (∀ es', es' <+: es → ∀ w, Runs.exec Registry.step Registry.init es' = some w →
        w.Consistent)
      ↔ Runs.Guarded Registry.step Registry.Orderly Registry.init es := by
  refine (Runs.guarded_iff_forall_reached (I := Registry.Invariant) (Q := Registry.Consistent)
    ?_ Registry.Invariant.step ?_ Registry.invariant_init).symm
  · intro w h
    exact ⟨h.inStep.agree, h.registered⟩
  · intro w e h hc
    cases e with
    | heartBeat addr state => exact h.orderly (hc _ rfl)
    | shutdownCache iplist => trivial
    | heartstate port => trivial

/-- A run that meets the condition: two caches join, one is shut down on
request, and the other is found not to answer and then does. -/
example : Runs.Guarded Registry.step Registry.Orderly Registry.init
    [.heartBeat (str "127.0.0.1:8000") true, .heartBeat (str "127.0.0.1:8001") true,
      .heartBeat (str "127.0.0.1:8000") true, .shutdownCache [str "127.0.0.1:8000"],
      .heartBeat (str "127.0.0.1:8000") true, .heartBeat (str "127.0.0.1:8001") true,
      .heartstate (str "8001"), .heartBeat (str "127.0.0.1:8001") true] := by
  decide +kernel

/-- **A cache that answers loses its entry in place of the silent one.** Two
caches join and the first is found not to answer. The heartbeat of the second
takes the port of the first out of all containers but `masterupdatemap`,
which loses that of the second. -/
theorem silent_removal_inconsistent :
    ¬ ∀ es w, Runs.exec Registry.step Registry.init es = some w → w.Consistent := by
  intro h
  have hrun : (Runs.exec Registry.step Registry.init
        [.heartBeat (str "127.0.0.1:8000") true, .heartBeat (str "127.0.0.1:8001") true,
          .heartstate (str "8000"), .heartBeat (str "127.0.0.1:8001") true]).isSome
      ∧ ∀ w ∈ Runs.exec Registry.step Registry.init
        [.heartBeat (str "127.0.0.1:8000") true, .heartBeat (str "127.0.0.1:8001") true,
          .heartstate (str "8000"), .heartBeat (str "127.0.0.1:8001") true],
        ¬ (w.master.masterUpdateMap.keys.map atoi).Perm w.master.portList := by
    decide +kernel
  obtain ⟨w, hw⟩ := Option.isSome_iff_exists.mp hrun.1
  exact hrun.2 w hw (h _ w hw).agree.masterUpdateMap

end Dcs
