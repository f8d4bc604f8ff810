import Mathlib.Data.Finset.Max
import Mathlib.Data.Finset.Prod
import LinuxStudy.ConsistentHash

/-!
# The rings of the small cache system

`NodeConHash` keeps the machines and an ordered map from 32-bit hashes to
machines. Each machine has `virtualCopys` points, the hashes of its name
followed by `0`, `1`, …; a key is at the machine of the first point at or
after its hash, and past the last point at that of the smallest. A point is
assigned, so where two machines have it, the one added later has it.

The class is there three times, in the master, the cache server and the
client, and the header of the master differs: `virtualCopys` is `10` there
and `1048576` in the others. So the two rings are different, and which
machine a key is at depends on whose ring is asked
(`master_client_route_differently`). `getServerIndex_master_eq_client_iff`
says which keys they agree on: those for which no copy of another machine
that only the client has is met before every copy of the machine the master
finds first.
-/

namespace MiniDcs

open Dcs (fnvHash)

/-- **`NodeConHash`.** -/
structure NodeConHash where
  virtualCopys : ℕ
  allPhysicalMachine : List Bytes
  mp_itoIpPort : OrdMap UInt32 Bytes

namespace NodeConHash

/-- A new ring, without machines. -/
def new (virtualCopys : ℕ) : NodeConHash := ⟨virtualCopys, [], OrdMap.empty⟩

/-- The point of a copy of a machine: `conHash.hash(ip_port+to_string(i))`. -/
def copyPoint (ipPort : Bytes) (i : ℕ) : UInt32 := fnvHash (ipPort ++ decimal i)

/-- `addPhysicalMachine`. -/
def addPhysicalMachine (h : NodeConHash) (ipPort : Bytes) : NodeConHash :=
  { h with
    allPhysicalMachine := h.allPhysicalMachine ++ [ipPort]
    mp_itoIpPort := (List.range h.virtualCopys).foldl
      (fun mp i => mp.assign (copyPoint ipPort i) ipPort) h.mp_itoIpPort }

/-- `findPhysicalAccordKey`. On an empty ring the code dereferences
`begin()` of an empty map, which is `none` here. -/
def findPhysicalAccordKey (h : NodeConHash) (key : Bytes) : Option Bytes :=
  match h.mp_itoIpPort.lowerBound (fnvHash key) with
  | some it => some it.2
  | none => h.mp_itoIpPort.entries.head?.map Prod.snd

/-- `RefreshIpList`. -/
def refreshIpList (h : NodeConHash) (allipls : List Bytes) : NodeConHash :=
  allipls.foldl addPhysicalMachine
    { h with allPhysicalMachine := [], mp_itoIpPort := OrdMap.empty }

/-- `GetServerIndex`. -/
def getServerIndex (h : NodeConHash) (key : Bytes) : Option Bytes := h.findPhysicalAccordKey key

/-! ## What a refresh leaves -/

/-- The points of the copies of a machine. -/
def copyPoints (copies : ℕ) (ipPort : Bytes) : List UInt32 :=
  (List.range copies).map (copyPoint ipPort)

theorem mem_copyPoints {copies : ℕ} {ipPort : Bytes} {p : UInt32} :
    p ∈ copyPoints copies ipPort ↔ ∃ i < copies, copyPoint ipPort i = p := by
  unfold copyPoints
  rw [List.mem_map]
  exact exists_congr (fun i => and_congr_left' List.mem_range)

/-- **The ring of a list**: the copies of its machines, a later one over an
earlier one. -/
def ring (copies : ℕ) (L : List Bytes) : OrdMap UInt32 Bytes :=
  OrdMap.empty.assignAll (OrdMap.ownerEntries (copyPoints copies) L)

theorem addPhysicalMachine_mp (h : NodeConHash) (ipPort : Bytes) :
    (h.addPhysicalMachine ipPort).mp_itoIpPort
      = h.mp_itoIpPort.assignAll
          ((copyPoints h.virtualCopys ipPort).map (fun p => (p, ipPort))) := by
  unfold addPhysicalMachine OrdMap.assignAll copyPoints
  rw [List.map_map, List.foldl_map]
  rfl

/-- **Adding the machines of a list**: they are added to the machines, and
their points assigned. -/
theorem foldl_addPhysicalMachine (L : List Bytes) (h : NodeConHash) :
    L.foldl addPhysicalMachine h
      = { h with
          allPhysicalMachine := h.allPhysicalMachine ++ L
          mp_itoIpPort := h.mp_itoIpPort.assignAll
            (OrdMap.ownerEntries (copyPoints h.virtualCopys) L) } := by
  induction L generalizing h with
  | nil => rw [List.append_nil]; rfl
  | cons ip L ih =>
    have happend : ∀ pts qts : List (UInt32 × Bytes),
        (h.mp_itoIpPort.assignAll pts).assignAll qts = h.mp_itoIpPort.assignAll (pts ++ qts) :=
      fun pts qts => List.foldl_append.symm
    rw [List.foldl_cons, ih, addPhysicalMachine_mp]
    show NodeConHash.mk h.virtualCopys ((h.allPhysicalMachine ++ [ip]) ++ L) _ = _
    rw [List.append_assoc]
    show NodeConHash.mk _ _
      (OrdMap.assignAll _ (OrdMap.ownerEntries (copyPoints h.virtualCopys) L)) = _
    rw [happend]
    rfl

/-- **After a refresh the machines are the list and the ring is its ring.** -/
theorem refreshIpList_eq (h : NodeConHash) (L : List Bytes) :
    h.refreshIpList L = ⟨h.virtualCopys, L, ring h.virtualCopys L⟩ := by
  unfold refreshIpList
  rw [foldl_addPhysicalMachine]
  rfl

/-! ## Which machine a key is at

A point that two machines share is assigned, so the one that is later in the list
has it. This is the opposite of the other ring, where it is inserted and the
earlier one keeps it. A copy is met by its point and, where points are shared, by
the place of its machine from the end of the list. -/

/-- The points at or after the hash of a key. -/
def fromKey (key : Bytes) : UInt32 → Bool := fun p => fnvHash key ≤ p

theorem getServerIndex_eq (h : NodeConHash) (key : Bytes) :
    h.getServerIndex key = (h.mp_itoIpPort.firstFrom (fromKey key)).map Prod.snd := by
  unfold getServerIndex findPhysicalAccordKey OrdMap.firstFrom OrdMap.lowerBound fromKey
  cases h.mp_itoIpPort.entries.find? (fun e => fnvHash key ≤ e.1) <;> rfl

/-- When a copy `c.2` of a machine `c.1` is met on the walk from the hash of a
key: by its point, and where machines share a point by their place in the
list, the last first. -/
def met (L : List Bytes) (key : Bytes) (c : Bytes × ℕ) : (Bool ×ₗ UInt32) ×ₗ ℕ :=
  toLex (OrdMap.rank (fromKey key) (copyPoint c.1 c.2), L.reverse.idxOf c.1)

/-- **A machine with the first copy met**, of so many copies of each. -/
def HasFirst (copies : ℕ) (L : List Bytes) (key v : Bytes) : Prop :=
  ∃ i < copies, ∀ w ∈ L, ∀ j < copies, met L key (v, i) ≤ met L key (w, j)

/-- One copy is met before another, or with it. -/
theorem met_le_met_iff {L : List Bytes} {key : Bytes} {c d : Bytes × ℕ} :
    met L key c ≤ met L key d
      ↔ OrdMap.rank (fromKey key) (copyPoint c.1 c.2)
          ≤ OrdMap.rank (fromKey key) (copyPoint d.1 d.2)
        ∧ (copyPoint c.1 c.2 = copyPoint d.1 d.2 →
          L.reverse.idxOf c.1 ≤ L.reverse.idxOf d.1) := by
  unfold met
  rw [Prod.Lex.toLex_le_toLex, ← (OrdMap.rank_injective (fromKey key)).eq_iff]
  constructor
  · rintro (hlt | ⟨heq, hle⟩)
    · exact ⟨hlt.le, fun heq => absurd heq hlt.ne⟩
    · exact ⟨heq.le, fun _ => hle⟩
  · rintro ⟨hle, hidx⟩
    rcases hle.lt_or_eq with hlt | heq
    · exact Or.inl hlt
    · exact Or.inr ⟨heq, hidx heq⟩

/-- **A key is at the machine with the first copy met.** -/
theorem getServerIndex_refreshIpList_iff (h : NodeConHash) (L : List Bytes) (key v : Bytes) :
    (h.refreshIpList L).getServerIndex key = some v
      ↔ v ∈ L ∧ HasFirst h.virtualCopys L key v := by
  rw [getServerIndex_eq, refreshIpList_eq]
  show ((OrdMap.empty.assignAll _).firstFrom (fromKey key)).map Prod.snd = some v ↔ _
  rw [OrdMap.assignAll_empty, OrdMap.reverse_ownerEntries, Option.map_eq_some_iff]
  constructor
  · rintro ⟨⟨k, w⟩, hfirst, rfl⟩
    obtain ⟨hw, hk, hmin, hidx⟩ := (OrdMap.firstFrom_ownerEntries_iff _ _ _ k w).mp hfirst
    obtain ⟨i, hi, rfl⟩ := mem_copyPoints.mp (List.mem_reverse.mp hk)
    refine ⟨List.mem_reverse.mp hw, i, hi, fun u hu j hj => met_le_met_iff.mpr ⟨?_, fun heq => ?_⟩⟩
    · exact hmin u (List.mem_reverse.mpr hu) _
        (List.mem_reverse.mpr (mem_copyPoints.mpr ⟨j, hj, rfl⟩))
    · exact hidx u (List.mem_reverse.mpr hu)
        (List.mem_reverse.mpr (mem_copyPoints.mpr ⟨j, hj, heq.symm⟩))
  · rintro ⟨hv, i, hi, hfirst⟩
    refine ⟨(copyPoint v i, v), (OrdMap.firstFrom_ownerEntries_iff _ _ _ _ v).mpr
      ⟨List.mem_reverse.mpr hv, List.mem_reverse.mpr (mem_copyPoints.mpr ⟨i, hi, rfl⟩),
        fun u hu q hq => ?_, fun u hu hq => ?_⟩, rfl⟩
    · obtain ⟨j, hj, rfl⟩ := mem_copyPoints.mp (List.mem_reverse.mp hq)
      exact (met_le_met_iff.mp (hfirst u (List.mem_reverse.mp hu) j hj)).1
    · obtain ⟨j, hj, heq⟩ := mem_copyPoints.mp (List.mem_reverse.mp hq)
      exact (met_le_met_iff.mp (hfirst u (List.mem_reverse.mp hu) j hj)).2 heq.symm

theorem exists_first_copy {copies : ℕ} (hcopies : 0 < copies) (L : List Bytes) (key v : Bytes) :
    ∃ i < copies, ∀ j < copies, met L key (v, i) ≤ met L key (v, j) := by
  obtain ⟨i, hi, hmin⟩ := Finset.exists_min_image (Finset.range copies)
    (fun i => met L key (v, i)) ⟨0, Finset.mem_range.mpr hcopies⟩
  exact ⟨i, Finset.mem_range.mp hi, fun j hj => hmin j (Finset.mem_range.mpr hj)⟩

/-- **Of the machines of a list one has the first copy met.** -/
theorem exists_hasFirst {copies : ℕ} (hcopies : 0 < copies) {L : List Bytes} (hL : L ≠ [])
    (key : Bytes) : ∃ v ∈ L, HasFirst copies L key v := by
  have hnonempty : (L.toFinset ×ˢ Finset.range copies).Nonempty := by
    refine Finset.Nonempty.product ?_ ⟨0, Finset.mem_range.mpr hcopies⟩
    exact ⟨L.head hL, List.mem_toFinset.mpr (List.head_mem hL)⟩
  obtain ⟨⟨v, i⟩, hmem, hmin⟩ := Finset.exists_min_image _ (met L key) hnonempty
  obtain ⟨hv, hi⟩ := Finset.mem_product.mp hmem
  refine ⟨v, List.mem_toFinset.mp hv, i, Finset.mem_range.mp hi, fun w hw j hj => ?_⟩
  exact hmin (w, j)
    (Finset.mem_product.mpr ⟨List.mem_toFinset.mpr hw, Finset.mem_range.mpr hj⟩)

/-! ## The master and its clients

The master makes ten copies of each machine and the client `2 ^ 20`. The first ten
are the same, so the ring of the client is that of the master with more points. A
key goes elsewhere exactly if one of the additional points of another machine is
met before all of the machine that the master finds. -/

/-- `virtualCopys` in the header of the master. -/
def masterCopys : ℕ := 10

/-- `virtualCopys` in the header of the client. -/
def clientCopys : ℕ := 1048576

/-- **No copy that only the client has is in the way**: the copies of other
machines numbered from `masterCopys` on are met no earlier than some copy of
the machine that has the first of the master's copies. -/
def ExtraCopiesLate (L : List Bytes) (key : Bytes) : Prop :=
  ∀ v ∈ L, HasFirst masterCopys L key v →
    ∀ w ∈ L, ∀ j, masterCopys ≤ j → j < clientCopys →
      ∃ i < clientCopys, met L key (v, i) ≤ met L key (w, j)

/-- The machine with the first of the master's copies has the first of the
client's, if no extra copy is in the way. -/
theorem HasFirst.of_extra {L : List Bytes} {key v : Bytes} (hfirst : HasFirst masterCopys L key v)
    (hextra : ∀ w ∈ L, ∀ j, masterCopys ≤ j → j < clientCopys →
      ∃ i < clientCopys, met L key (v, i) ≤ met L key (w, j)) :
    HasFirst clientCopys L key v := by
  have hmore : masterCopys ≤ clientCopys := by decide
  obtain ⟨i₀, hi₀, hmin₀⟩ := hfirst
  obtain ⟨i, hi, hmin⟩ := exists_first_copy (show 0 < clientCopys by decide) L key v
  refine ⟨i, hi, fun w hw j hj => ?_⟩
  rcases Nat.lt_or_ge j masterCopys with hold | hnew
  · exact (hmin i₀ (Nat.lt_of_lt_of_le hi₀ hmore)).trans (hmin₀ w hw j hold)
  · obtain ⟨k, hk, hle⟩ := hextra w hw j hnew hj
    exact (hmin k hk).trans hle

/-- **The name of a copy of the last machine is at that machine**: nothing is
met before it, and the machine has the point if others do too. -/
theorem hasFirst_copy_name {copies i : ℕ} (hi : i < copies) (L : List Bytes) (v : Bytes) :
    HasFirst copies (L ++ [v]) (v ++ decimal i) v := by
  refine ⟨i, hi, fun w _ j _ => met_le_met_iff.mpr ⟨?_, fun _ => ?_⟩⟩
  · refine (OrdMap.rank_le_rank_iff _ _ _).mpr ?_
    have hself : fromKey (v ++ decimal i) (copyPoint v i) = true := decide_eq_true (le_refl _)
    cases hp : fromKey (v ++ decimal i) (copyPoint w j) with
    | false => exact Or.inl ⟨hself, rfl⟩
    | true => exact Or.inr ⟨hself, of_decide_eq_true hp⟩
  · rw [List.reverse_append]
    show List.idxOf v (v :: L.reverse) ≤ _
    rw [List.idxOf_cons_self]
    exact Nat.zero_le _

/-- **When the master and a client find a key at the same machine.** -/
theorem getServerIndex_master_eq_client_iff {m c : NodeConHash}
    (hm : m.virtualCopys = masterCopys) (hc : c.virtualCopys = clientCopys)
    {L : List Bytes} (hL : L ≠ []) (key : Bytes) :
    (m.refreshIpList L).getServerIndex key = (c.refreshIpList L).getServerIndex key
      ↔ ExtraCopiesLate L key := by
  constructor
  · intro heq v hv hfirst w hw j _ hj
    have hmaster : (m.refreshIpList L).getServerIndex key = some v :=
      (getServerIndex_refreshIpList_iff m L key v).mpr ⟨hv, hm.symm ▸ hfirst⟩
    rw [hmaster] at heq
    obtain ⟨-, i, hi, hmin⟩ := (getServerIndex_refreshIpList_iff c L key v).mp heq.symm
    rw [hc] at hi hmin
    exact ⟨i, hi, hmin w hw j hj⟩
  · intro hextra
    obtain ⟨v, hv, hfirst⟩ := exists_hasFirst (show 0 < masterCopys by decide) hL key
    have hmaster : (m.refreshIpList L).getServerIndex key = some v :=
      (getServerIndex_refreshIpList_iff m L key v).mpr ⟨hv, hm.symm ▸ hfirst⟩
    have hclient : (c.refreshIpList L).getServerIndex key = some v :=
      (getServerIndex_refreshIpList_iff c L key v).mpr
        ⟨hv, hc.symm ▸ hfirst.of_extra (hextra v hv hfirst)⟩
    rw [hmaster, hclient]

/-- The name of a copy that both have of the second of two machines. -/
theorem getServerIndex_master_eq_client_two :
    ((new masterCopys).refreshIpList
        [str "10.0.0.1:7001", str "10.0.0.2:7002"]).getServerIndex
          (str "10.0.0.2:7002" ++ decimal 3)
      = ((new clientCopys).refreshIpList
        [str "10.0.0.1:7001", str "10.0.0.2:7002"]).getServerIndex
          (str "10.0.0.2:7002" ++ decimal 3) := by
  refine (getServerIndex_master_eq_client_iff rfl rfl (by simp) _).mpr ?_
  intro v hv hfirst w hw j _ hj
  have hmaster : HasFirst masterCopys [str "10.0.0.1:7001", str "10.0.0.2:7002"]
      (str "10.0.0.2:7002" ++ decimal 3) (str "10.0.0.2:7002") :=
    hasFirst_copy_name (by decide) [str "10.0.0.1:7001"] _
  have hlast := (getServerIndex_refreshIpList_iff (new masterCopys) _ _ _).mpr ⟨by simp, hmaster⟩
  rw [(getServerIndex_refreshIpList_iff (new masterCopys) _ _ v).mpr ⟨hv, hfirst⟩] at hlast
  obtain rfl := Option.some.inj hlast
  obtain ⟨i, hi, hmin⟩ : HasFirst clientCopys [str "10.0.0.1:7001", str "10.0.0.2:7002"]
      (str "10.0.0.2:7002" ++ decimal 3) (str "10.0.0.2:7002") :=
    hasFirst_copy_name (by decide) [str "10.0.0.1:7001"] _
  exact ⟨i, hi, hmin w hw j hj⟩

/-- **The master and its clients do not route alike.** The text of the copy
`14` of the second of two machines is a key the client finds there, since it
has that copy; the master has not, and finds it at the first. -/
theorem master_client_route_differently :
    ((new masterCopys).refreshIpList
        [str "10.0.0.1:7001", str "10.0.0.2:7002"]).getServerIndex (str "10.0.0.2:700214")
      = some (str "10.0.0.1:7001")
    ∧ ((new clientCopys).refreshIpList
        [str "10.0.0.1:7001", str "10.0.0.2:7002"]).getServerIndex (str "10.0.0.2:700214")
      = some (str "10.0.0.2:7002") := by
  refine ⟨by decide +kernel, ?_⟩
  have hkey : str "10.0.0.2:700214" = str "10.0.0.2:7002" ++ decimal 14 := by decide +kernel
  rw [hkey]
  refine (getServerIndex_refreshIpList_iff _ _ _ _).mpr ⟨by simp, ?_⟩
  exact hasFirst_copy_name (by decide) [str "10.0.0.1:7001"] (str "10.0.0.2:7002")

end NodeConHash

end MiniDcs
