import LinuxStudy.Marks
import LinuxStudy.Runs
import LinuxStudy.SockAddr

/-!
# The registry of the small master

The master knows its cache servers four times over: by a vector of texts
`ip:port`, a vector of the addresses, a vector of the ports and a map whose
keys are the texts. A heartbeat from a server that is not in the map adds it
to all four. `deleteOneMachine` searches each of the four on its own, and the
vector of addresses for the *port*: no address is the text of a port, so
nothing is ever taken from it. The vector of ports loses the first entry with
the port, whether or not the server was there.

`Consistent` says that the four agree. `deleteOneMachine` keeps it exactly if
its port is not in the vector of ports – that is, if it deletes nothing – and
with it any sequence of heartbeats and deletions
(`consistent_iff_no_deletion`). The list of servers the master sends is put
together from the addresses and the ports; it is the registered servers where
the four agree, and not after one has been deleted
(`iplist_wrong_after_deletion`).
-/

namespace MiniDcs

open Socket

/-- **What `Manager` knows of the cache servers.** -/
structure Registry where
  ipPortLs : List Bytes
  ipLs : List Bytes
  portLs : List ℕ
  cacheServersMp : Marks Bytes

namespace Registry

/-- No server is registered. -/
def empty : Registry := ⟨[], [], [], ∅⟩

/-- `getIpAndPort`. -/
def getIpAndPort (addr : SockAddr) : Bytes × ℕ :=
  (inetNtoa addr.sinAddr, (ntohs addr.sinPort).toNat)

/-- `ipPortStr`: the text of an address. -/
def ipPortStr (addr : SockAddr) : Bytes :=
  ipPort (getIpAndPort addr).1 (getIpAndPort addr).2

/-- An address is known if its text is a key of the map. -/
def Known (r : Registry) (addr : SockAddr) : Prop := ipPortStr addr ∈ r.cacheServersMp

instance (r : Registry) (addr : SockAddr) : Decidable (r.Known addr) :=
  inferInstanceAs (Decidable (_ ∈ r.cacheServersMp))

/-- What `cacheServerKeepAlive` does to the registry for an address that is
not known. -/
def register (r : Registry) (addr : SockAddr) : Registry where
  ipPortLs := r.ipPortLs ++ [ipPortStr addr]
  ipLs := r.ipLs ++ [(getIpAndPort addr).1]
  portLs := r.portLs ++ [(getIpAndPort addr).2]
  cacheServersMp := r.cacheServersMp.emplace (ipPortStr addr) 0

/-- What `cacheServerKeepAlive` does to the registry. -/
def cacheServerKeepAlive (r : Registry) (addr : SockAddr) : Registry :=
  if r.Known addr then r else r.register addr

/-- `deleteOneMachine`: from each of the four the first entry found. The
addresses are searched for the text of the port. -/
def deleteOneMachine (r : Registry) (addr : SockAddr) : Registry where
  ipPortLs := r.ipPortLs.erase (ipPortStr addr)
  ipLs := r.ipLs.erase (decimal (getIpAndPort addr).2)
  portLs := r.portLs.erase (getIpAndPort addr).2
  cacheServersMp := r.cacheServersMp.erase (ipPortStr addr)

/-- The loop that puts `allIpPorts` together: so many texts, from the
addresses and the ports. It is undefined where a vector is read beyond its
end. -/
def texts : ℕ → List Bytes → List ℕ → Option (List Bytes)
  | 0, _, _ => some []
  | n + 1, ip :: ips, port :: ports => (texts n ips ports).map (ipPort ip port :: ·)
  | _ + 1, _, _ => none

/-- `allIpPorts`: the list of servers that is sent. -/
def iplist (r : Registry) : Option (List Bytes) := texts r.ipPortLs.length r.ipLs r.portLs

/-- **The four agree.** -/
structure Consistent (r : Registry) : Prop where
  length_ipLs : r.ipLs.length = r.ipPortLs.length
  length_portLs : r.portLs.length = r.ipPortLs.length
  /-- Entry by entry, the text is that of the address and the port. -/
  text : r.ipPortLs = List.zipWith ipPort r.ipLs r.portLs
  nodup : r.ipPortLs.Nodup
  keys : ∀ k, k ∈ r.ipPortLs ↔ k ∈ r.cacheServersMp

/-- What the addresses are: texts of addresses. -/
def Addresses (r : Registry) : Prop := ∀ ip ∈ r.ipLs, ∃ a, ip = inetNtoa a

/-! ## What the operations do

A heartbeat of an address that is not known puts an entry into each of the four. A
deletion looks for the first entry in each of them by itself, and in the vector of
the addresses it looks for the text of the port, which is never the text of an
address. So an address stays when its port, its text and its key go. -/

variable {r : Registry} {addr : SockAddr}

/-- **Nothing is taken from the addresses.** -/
theorem Addresses.deleteOneMachine_ipLs (h : r.Addresses) (addr : SockAddr) :
    (r.deleteOneMachine addr).ipLs = r.ipLs := by
  refine List.erase_of_not_mem (fun hmem => ?_)
  obtain ⟨a, ha⟩ := h _ hmem
  exact inetNtoa_ne_decimal a _ ha.symm

theorem Addresses.deleteOneMachine (h : r.Addresses) (addr : SockAddr) :
    (r.deleteOneMachine addr).Addresses := by
  unfold Addresses
  rw [h.deleteOneMachine_ipLs]
  exact h

theorem Addresses.cacheServerKeepAlive (h : r.Addresses) (addr : SockAddr) :
    (r.cacheServerKeepAlive addr).Addresses := by
  unfold Registry.cacheServerKeepAlive
  split
  · exact h
  · intro ip hip
    rcases List.mem_append.mp hip with hold | hnew
    · exact h ip hold
    · exact ⟨addr.sinAddr, List.mem_singleton.mp hnew⟩

/-- **A heartbeat keeps the four in agreement.** -/
theorem Consistent.cacheServerKeepAlive (h : r.Consistent) (addr : SockAddr) :
    (r.cacheServerKeepAlive addr).Consistent := by
  unfold Registry.cacheServerKeepAlive
  split
  · exact h
  · next hnew =>
    have hfresh : ipPortStr addr ∉ r.ipPortLs := fun hmem => hnew ((h.keys _).mp hmem)
    refine ⟨?_, ?_, ?_, ?_, fun k => ?_⟩
    · show (r.ipLs ++ [_]).length = (r.ipPortLs ++ [_]).length
      simp [h.length_ipLs]
    · show (r.portLs ++ [_]).length = (r.ipPortLs ++ [_]).length
      simp [h.length_portLs]
    · show r.ipPortLs ++ [_] = List.zipWith ipPort (r.ipLs ++ [_]) (r.portLs ++ [_])
      rw [List.zipWith_append (h.length_ipLs.trans h.length_portLs.symm), ← h.text]
      rfl
    · exact h.nodup.append (List.nodup_singleton _) (List.disjoint_singleton.mpr hfresh)
    · show k ∈ r.ipPortLs ++ [_] ↔ k ∈ r.cacheServersMp.emplace _ 0
      unfold Marks.emplace
      rw [if_neg (show ipPortStr addr ∉ r.cacheServersMp from hnew), AList.mem_insert,
        List.mem_append, List.mem_singleton, h.keys, or_comm]

theorem Consistent.port_mem (h : r.Consistent) (ha : r.Addresses)
    (hmem : ipPortStr addr ∈ r.ipPortLs) : (getIpAndPort addr).2 ∈ r.portLs := by
  rw [h.text, ← List.map_uncurry_zip_eq_zipWith] at hmem
  obtain ⟨⟨ip, port⟩, hzip, heq⟩ := List.mem_map.mp hmem
  obtain ⟨hip, hport⟩ := List.of_mem_zip hzip
  obtain ⟨a, rfl⟩ := ha ip hip
  obtain ⟨-, rfl⟩ := ipPort_injective (show ipPort (inetNtoa a) port = ipPortStr addr from heq)
  exact hport

/-- **Deleting an address whose port is not there changes nothing.** -/
theorem Consistent.deleteOneMachine_eq (h : r.Consistent) (ha : r.Addresses)
    (hport : (getIpAndPort addr).2 ∉ r.portLs) : r.deleteOneMachine addr = r := by
  have htext : ipPortStr addr ∉ r.ipPortLs := fun hmem => hport (h.port_mem ha hmem)
  have hkey : ipPortStr addr ∉ r.cacheServersMp := fun hmem => htext ((h.keys _).mpr hmem)
  have hmp : r.cacheServersMp.erase (ipPortStr addr) = r.cacheServersMp :=
    AList.ext (List.kerase_of_notMem_keys hkey)
  have hips := ha.deleteOneMachine_ipLs addr
  unfold Registry.deleteOneMachine at hips ⊢
  dsimp only at hips
  rw [List.erase_of_not_mem htext, List.erase_of_not_mem hport, hmp, hips]

/-- **A deletion keeps the four in agreement exactly if it deletes nothing**:
the port is not among the ports. -/
theorem Consistent.deleteOneMachine_iff (h : r.Consistent) (ha : r.Addresses)
    (addr : SockAddr) :
    (r.deleteOneMachine addr).Consistent ↔ (getIpAndPort addr).2 ∉ r.portLs := by
  constructor
  · intro hc hport
    -- the ports lose an entry, and the addresses do not
    have hlen := hc.length_ipLs.trans hc.length_portLs.symm
    rw [ha.deleteOneMachine_ipLs] at hlen
    change r.ipLs.length = (r.portLs.erase _).length at hlen
    have hpos := List.length_pos_of_mem hport
    rw [List.length_erase_of_mem hport, h.length_ipLs, ← h.length_portLs] at hlen
    omega
  · intro hport
    rw [h.deleteOneMachine_eq ha hport]
    exact h

/-! ## The list that is sent -/

/-- **The loop reads both vectors in range exactly if they are long enough**,
and then gives the texts entry by entry. -/
theorem texts_eq (n : ℕ) (ips : List Bytes) (ports : List ℕ) :
    texts n ips ports
      = if n ≤ ips.length ∧ n ≤ ports.length then some ((List.zipWith ipPort ips ports).take n)
        else none := by
  induction n generalizing ips ports with
  | zero => simp [texts]
  | succ n ih =>
    cases ips with
    | nil => simp [texts]
    | cons ip ips =>
      cases ports with
      | nil => simp [texts]
      | cons port ports =>
        rw [texts, ih]
        by_cases hlen : n ≤ ips.length ∧ n ≤ ports.length
        · rw [if_pos hlen, if_pos (by simpa using hlen)]
          rfl
        · rw [if_neg hlen, if_neg (by simpa using hlen)]
          rfl

/-- **Where the four agree the list that is sent is the registered
servers.** -/
theorem Consistent.iplist_eq (h : r.Consistent) : r.iplist = some r.ipPortLs := by
  unfold iplist
  rw [texts_eq, if_pos ⟨h.length_ipLs.ge, h.length_portLs.ge⟩, ← h.text, List.take_length]

/-! ## Sequences of calls

As long as nothing is deleted the four are in step, entry by entry. Once a
registered server is deleted the addresses are more than the ports, for good: no
later call takes anything from them. -/

/-- A call that changes the registry, with the address of the peer. -/
inductive Call
  | cacheServerKeepAlive (addr : SockAddr)
  | deleteOneMachine (addr : SockAddr)
  | someCacheServerLost (addr : SockAddr)
  | shutDownOneMachine (addr : SockAddr)

/-- What a call does to the registry. `someCacheServerLost` and
`shutDownOneMachine` go on to notify, which changes nothing here. -/
def step (r : Registry) : Call → Option Registry
  | .cacheServerKeepAlive addr => some (r.cacheServerKeepAlive addr)
  | .deleteOneMachine addr => some (r.deleteOneMachine addr)
  | .someCacheServerLost addr => some (r.deleteOneMachine addr)
  | .shutDownOneMachine addr => some (r.deleteOneMachine addr)

/-- The address a call deletes. -/
def Call.deletes : Call → Option SockAddr
  | .cacheServerKeepAlive _ => none
  | .deleteOneMachine addr => some addr
  | .someCacheServerLost addr => some addr
  | .shutDownOneMachine addr => some addr

/-- **The call deletes nothing**: if it is a deletion, no registered server
has its port. -/
def DeletesNothing (r : Registry) (call : Call) : Prop :=
  ∀ addr ∈ call.deletes, (getIpAndPort addr).2 ∉ r.portLs

instance (r : Registry) (call : Call) : Decidable (r.DeletesNothing call) := by
  unfold DeletesNothing
  infer_instance

/-- **A call keeps the four in agreement exactly if it deletes nothing.** -/
theorem step_iff {call : Call} (h : r.Consistent ∧ r.Addresses) :
    r.DeletesNothing call
      ↔ ∀ t, r.step call = some t → t.Consistent ∧ t.Addresses := by
  have hdelete : ∀ addr, (getIpAndPort addr).2 ∉ r.portLs
      ↔ (r.deleteOneMachine addr).Consistent ∧ (r.deleteOneMachine addr).Addresses :=
    fun addr => (h.1.deleteOneMachine_iff h.2 addr).symm.trans
      (and_iff_left (h.2.deleteOneMachine addr)).symm
  cases call with
  | cacheServerKeepAlive addr =>
    refine iff_of_true (by simp [DeletesNothing, Call.deletes]) (fun t ht => ?_)
    obtain rfl := Option.some.inj ht
    exact ⟨h.1.cacheServerKeepAlive addr, h.2.cacheServerKeepAlive addr⟩
  | deleteOneMachine addr => simpa [DeletesNothing, Call.deletes, step] using hdelete addr
  | someCacheServerLost addr => simpa [DeletesNothing, Call.deletes, step] using hdelete addr
  | shutDownOneMachine addr => simpa [DeletesNothing, Call.deletes, step] using hdelete addr

theorem exec_addresses {calls : List Call} {t : Registry} (h : r.Addresses)
    (ht : Runs.exec step r calls = some t) : t.Addresses := by
  refine Runs.exec_invariant' Addresses (fun {s t call} hs hstep => ?_) h ht
  cases call <;> obtain rfl := Option.some.inj hstep
  · exact hs.cacheServerKeepAlive _
  · exact hs.deleteOneMachine _
  · exact hs.deleteOneMachine _
  · exact hs.deleteOneMachine _

theorem consistent_empty : empty.Consistent :=
  ⟨rfl, rfl, rfl, List.nodup_nil, fun _ => by simp [empty]⟩

/-- **The four agree in every state of a sequence of calls exactly if no call
deletes anything.** Where they do, the list that is sent is the registered
servers. -/
theorem consistent_iff_no_deletion (calls : List Call) :
    (∀ calls', calls' <+: calls → ∀ r, Runs.exec step empty calls' = some r →
      r.Consistent ∧ r.iplist = some r.ipPortLs)
      ↔ Runs.Guarded step DeletesNothing empty calls := by
  have hempty : empty.Addresses := fun ip hip => absurd hip List.not_mem_nil
  rw [Runs.guarded_iff_forall_prefix step_iff ⟨consistent_empty, hempty⟩]
  constructor
  · intro h calls' hpre r hr
    exact ⟨(h calls' hpre r hr).1, exec_addresses hempty hr⟩
  · intro h calls' hpre r hr
    have hr' := (h calls' hpre r hr).1
    exact ⟨hr', hr'.iplist_eq⟩

/-- Two cache servers, `10.0.0.1:7001` and `10.0.0.2:7002`. -/
def serverA : SockAddr := ⟨⟨10, 0, 0, 1⟩, 22811⟩

@[inherit_doc serverA]
def serverB : SockAddr := ⟨⟨10, 0, 0, 2⟩, 23067⟩

/-- **After a deletion the list that is sent is wrong**: two servers register
and the first is deleted. What is sent is the address of the first with the
port of the second. -/
theorem iplist_wrong_after_deletion :
    ∃ r, Runs.exec step empty
        [.cacheServerKeepAlive serverA, .cacheServerKeepAlive serverB, .deleteOneMachine serverA]
        = some r
      ∧ r.ipPortLs = [str "10.0.0.2:7002"] ∧ r.iplist = some [str "10.0.0.1:7002"]
      ∧ ¬ r.Consistent := by
  refine ⟨_, rfl, by decide +kernel, by decide +kernel, fun h => ?_⟩
  exact absurd h.length_ipLs (by decide +kernel)

end Registry

end MiniDcs
