import LinuxStudy.NodeConHash

/-!
# Machines that leave the rings of the small cache system

`deletePhysicalMachine` is the counterpart of `addPhysicalMachine`: it takes a
machine from `allPhysicalMachine` and its copies from `mp_itoIpPort`. Neither
always comes out so.

The vector is gone through by an iterator that is advanced after an erasure as
after any other element. Where the element erased was followed by another, that
one has taken its place and is passed over; where it was the last, the iterator
is past `end()`, the test of the loop does not see that, and the next element is
read from beyond the vector. So the machine is removed exactly if each of its
occurrences is followed by another machine (`deletePhysicalMachine_machines_iff`).

The copies are erased by their points. A point that the machine shares with
another is not on the ring afterwards, whichever of the two had it, so the ring
is that of the machines left exactly if no point is shared
(`eraseCopys_eq_refreshIpList_iff`). The copies of a machine of a client are a
million, and two machines share points as a rule.
-/

namespace MiniDcs

open Dcs (fnvHash)

namespace NodeConHash

/-- The loop of `deletePhysicalMachine` over the machines from the iterator on;
those before it stay. An erasure moves the machine after it to the iterator,
and `it++` goes past that one. Erasing the last machine leaves the iterator at
`end()`, and `it++` leads past it: the read that comes next is `none` here. -/
def eraseLoop (ipPort : Bytes) : List Bytes → Option (List Bytes)
  | [] => some []
  | it :: rest =>
    if it = ipPort then
      match rest with
      | [] => none
      | next :: rest => (eraseLoop ipPort rest).map (fun machines => next :: machines)
    else (eraseLoop ipPort rest).map (fun machines => it :: machines)

/-- The loop of `deletePhysicalMachine` over the copies of the machine. -/
def eraseCopys (h : NodeConHash) (ipPort : Bytes) : OrdMap UInt32 Bytes :=
  (List.range h.virtualCopys).foldl (fun mp i => mp.erase (copyPoint ipPort i)) h.mp_itoIpPort

/-- `deletePhysicalMachine`, undefined where it reads beyond the vector. -/
def deletePhysicalMachine (h : NodeConHash) (ipPort : Bytes) : Option NodeConHash :=
  (eraseLoop ipPort h.allPhysicalMachine).map (fun machines =>
    { h with allPhysicalMachine := machines, mp_itoIpPort := h.eraseCopys ipPort })

/-! ## The machines

The loop goes over a vector from which it erases. An erasure moves the next
machine to the place of the iterator, and the iterator goes on all the same, so
the machine behind an erased one is passed over. That does no harm unless it is
the same machine again, or unless there is none behind, where the iterator goes
past the end. So every occurrence has to be followed by another machine, and this
is also enough. -/

/-- **Every occurrence is followed by another machine.** -/
def Followed (ipPort : Bytes) (machines : List Bytes) : Prop :=
  ∀ i, machines[i]? = some ipPort → ∃ m, machines[i + 1]? = some m ∧ m ≠ ipPort

/-- The first machine is followed by the next, and the others are followed. -/
theorem followed_cons_iff {ipPort it : Bytes} {rest : List Bytes} :
    Followed ipPort (it :: rest)
      ↔ (it = ipPort → ∃ m, rest.head? = some m ∧ m ≠ ipPort) ∧ Followed ipPort rest := by
  rw [List.head?_eq_getElem?]
  constructor
  · intro h
    refine ⟨fun heq => h 0 ?_, fun i hi => h (i + 1) hi⟩
    rw [List.getElem?_cons_zero, heq]
  · rintro ⟨hhead, hrest⟩ i hi
    cases i with
    | zero => exact hhead (Option.some.inj hi)
    | succ i => exact hrest i hi

/-- A machine passed over stays in front of what the rest of the loop leaves. -/
theorem map_cons_eq_filter_iff {ipPort next : Bytes} (hne : next ≠ ipPort) (rest : List Bytes)
    (left : Option (List Bytes)) :
    left.map (fun machines => next :: machines)
        = some ((next :: rest).filter (fun m => m ≠ ipPort))
      ↔ left = some (rest.filter (fun m => m ≠ ipPort)) := by
  rw [List.filter_cons_of_pos (by simpa using hne), Option.map_eq_some_iff]
  constructor
  · rintro ⟨machines, hleft, heq⟩
    rw [hleft, (List.cons.inj heq).2]
  · exact fun hleft => ⟨_, hleft, rfl⟩

/-- **The loop removes a machine exactly where its occurrences are followed by
another.** -/
theorem eraseLoop_eq_filter_iff (ipPort : Bytes) (machines : List Bytes) :
    eraseLoop ipPort machines = some (machines.filter (fun m => m ≠ ipPort))
      ↔ Followed ipPort machines := by
  fun_induction eraseLoop ipPort machines with
  | case1 => exact iff_of_true rfl (fun i hi => absurd hi (by simp))
  | case2 =>
    refine iff_of_false (Option.some_ne_none _).symm (fun h => ?_)
    obtain ⟨m, hm, -⟩ := (followed_cons_iff.mp h).1 rfl
    exact absurd hm (by simp)
  | case3 next rest ih =>
    rw [List.filter_cons_of_neg (by simp)]
    by_cases hne : next = ipPort
    · -- the second of two in a row takes the place of the first, and stays
      rw [hne, List.filter_cons_of_neg (by simp)]
      refine iff_of_false (fun h => ?_) (fun h => ?_)
      · obtain ⟨machines, -, heq⟩ := Option.map_eq_some_iff.mp h
        have hmem : ipPort ∈ rest.filter (fun m => m ≠ ipPort) := heq ▸ List.mem_cons_self
        exact absurd rfl (of_decide_eq_true (List.mem_filter.mp hmem).2)
      · obtain ⟨m, hm, hother⟩ := (followed_cons_iff.mp h).1 rfl
        exact hother (Option.some.inj hm).symm
    · rw [map_cons_eq_filter_iff hne, ih, followed_cons_iff, followed_cons_iff]
      constructor
      · exact fun h => ⟨fun _ => ⟨next, rfl, hne⟩, fun heq => absurd heq hne, h⟩
      · exact fun h => h.2.2
  | case4 next rest hne ih =>
    rw [map_cons_eq_filter_iff hne, ih, followed_cons_iff]
    exact ⟨fun h => ⟨fun heq => absurd heq hne, h⟩, fun h => h.2⟩

/-- **When a machine is removed from the machines.** `deletePhysicalMachine`
reads no machine beyond the vector and leaves the other machines in their
order, exactly if every occurrence of the machine is followed by another
machine. -/
theorem deletePhysicalMachine_machines_iff (h : NodeConHash) (ipPort : Bytes) :
    (∃ h', h.deletePhysicalMachine ipPort = some h'
        ∧ h'.allPhysicalMachine = h.allPhysicalMachine.filter (fun m => m ≠ ipPort))
      ↔ Followed ipPort h.allPhysicalMachine := by
  rw [← eraseLoop_eq_filter_iff]
  unfold deletePhysicalMachine
  constructor
  · rintro ⟨h', hdelete, hmachines⟩
    obtain ⟨machines, hloop, rfl⟩ := Option.map_eq_some_iff.mp hdelete
    rw [hloop]
    exact congrArg some hmachines
  · intro hloop
    rw [hloop]
    exact ⟨_, rfl, rfl⟩

/-- **The only machine cannot be deleted**: once it is erased, the machine after
it is read. -/
theorem deletePhysicalMachine_only_machine :
    ¬ ∀ (h : NodeConHash) (ipPort : Bytes),
      ∃ h', h.deletePhysicalMachine ipPort = some h'
        ∧ h'.allPhysicalMachine = h.allPhysicalMachine.filter (fun m => m ≠ ipPort) := by
  intro hall
  obtain ⟨h', hdelete, -⟩ := hall
    ((new masterCopys).addPhysicalMachine (str "10.0.0.1:7001")) (str "10.0.0.1:7001")
  have hloop : eraseLoop (str "10.0.0.1:7001") [str "10.0.0.1:7001"] = none := by decide +kernel
  unfold deletePhysicalMachine at hdelete
  rw [show (addPhysicalMachine (new masterCopys) (str "10.0.0.1:7001")).allPhysicalMachine
    = [str "10.0.0.1:7001"] from rfl, hloop] at hdelete
  exact absurd hdelete (Option.some_ne_none h').symm

example : eraseLoop (str "b") [str "a", str "b", str "b", str "c"]
    = some [str "a", str "b", str "c"] := by
  decide +kernel

/-! ## Their copies

Points are erased by their hash, and nothing asks whose they are. A point that the
deleted machine shares with another one is assigned to one of them, the one that
was added last, and it is erased in any case. Building the ring of the others
would leave it to the other one. So the two agree exactly if no point is shared. -/

theorem eraseCopys_eq (h : NodeConHash) (ipPort : Bytes) :
    h.eraseCopys ipPort = h.mp_itoIpPort.eraseAll (copyPoints h.virtualCopys ipPort) := by
  unfold eraseCopys OrdMap.eraseAll copyPoints
  rw [List.foldl_map]

/-- **No point is shared** by a machine with another machine of a list. -/
def Unshared (copies : ℕ) (L : List Bytes) (x : Bytes) : Prop :=
  ∀ y ∈ L, y ≠ x → ∀ i < copies, ∀ j < copies, copyPoint x i ≠ copyPoint y j

theorem unshared_iff {copies : ℕ} {L : List Bytes} {x : Bytes} :
    Unshared copies L x
      ↔ ∀ y ∈ L, y ≠ x → ∀ p ∈ copyPoints copies x, p ∉ copyPoints copies y := by
  refine forall_congr' (fun y => forall_congr' (fun _ => forall_congr' (fun _ => ?_)))
  constructor
  · intro h p hx hy
    obtain ⟨i, hi, rfl⟩ := mem_copyPoints.mp hx
    obtain ⟨j, hj, heq⟩ := mem_copyPoints.mp hy
    exact h i hi j hj heq.symm
  · intro h i hi j hj heq
    exact h _ (mem_copyPoints.mpr ⟨i, hi, rfl⟩) (mem_copyPoints.mpr ⟨j, hj, heq.symm⟩)

/-- **When deleting a machine is rebuilding without it.** After a refresh, the
ring from which the copies of a machine are erased is the ring of the other
machines, with every copy of theirs on it, exactly if no point of the machine
is a point of another one. -/
theorem eraseCopys_eq_refreshIpList_iff (h : NodeConHash) (L : List Bytes) (x : Bytes) :
    ((h.refreshIpList L).eraseCopys x
          = (h.refreshIpList (L.filter (fun y => y ≠ x))).mp_itoIpPort
        ∧ ∀ y ∈ L, y ≠ x → ∀ i < h.virtualCopys,
          ((h.refreshIpList L).eraseCopys x).get? (copyPoint y i) ≠ none)
      ↔ Unshared h.virtualCopys L x := by
  have hiff := OrdMap.eraseAll_assignAll_ownerEntries_iff (copyPoints h.virtualCopys) L x
  rw [eraseCopys_eq, refreshIpList_eq, refreshIpList_eq, unshared_iff]
  refine Iff.trans (and_iff_left_of_imp (fun hrebuilt => ?_)) hiff
  intro y hy hne i hi
  rw [hrebuilt]
  exact OrdMap.get?_assignAll_ownerEntries_ne_none OrdMap.empty
    (List.mem_filter.mpr ⟨hy, decide_eq_true hne⟩) (mem_copyPoints.mpr ⟨i, hi, rfl⟩)

/-- **Two machines of a client share a point**: the copies `74745` of the one
and `219614` of the other. So deleting the one takes a copy of the other from
the ring. -/
theorem eraseCopys_takes_shared_copy :
    ¬ ∀ (L : List Bytes) (x : Bytes), L.Nodup → x ∈ L →
      ((new clientCopys).refreshIpList L).eraseCopys x
          = ((new clientCopys).refreshIpList (L.filter (fun y => y ≠ x))).mp_itoIpPort
        ∧ ∀ y ∈ L, y ≠ x → ∀ i < clientCopys,
          (((new clientCopys).refreshIpList L).eraseCopys x).get? (copyPoint y i) ≠ none := by
  intro hall
  have hpoint : copyPoint (str "10.0.0.1:7001") 74745 = copyPoint (str "10.0.0.2:7002") 219614 := by
    decide +kernel
  have hbad := hall [str "10.0.0.1:7001", str "10.0.0.2:7002"] (str "10.0.0.1:7001")
    (by decide +kernel) List.mem_cons_self
  have hkept := hbad.2 (str "10.0.0.2:7002") (by simp) (by decide +kernel) 219614 (by decide)
  refine hkept ?_
  rw [eraseCopys_eq, OrdMap.get?_eraseAll, if_pos]
  refine mem_copyPoints.mpr ⟨74745, ?_, hpoint⟩
  rw [refreshIpList_eq]
  decide

end NodeConHash

end MiniDcs
