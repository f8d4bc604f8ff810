import LinuxStudy.MasterHandler

/-!
# Removing caches

A cache is removed when its heartbeat comes in while the master takes it for
one to be shut down: because it says so itself, or because a user named it.
The master keeps this in `flag5`, `flag2` and `shutport`, and puts them back
when the number of removals, `num3`, is the number of caches the user named,
`num4`.

A cache that wants to be shut down is not counted in `num4`. So after its
removal `num3` is usually not `num4`, `flag5` stays `2`, and the next
heartbeat of any cache is taken for one of a cache that wants to be shut down
(`innocent_cache_removed`). Two more slips have the same effect: a cache is
found among those named by its port alone, and an empty port is equal to the
empty `shutport`.

When exactly a heartbeat is taken for one of a cache to be shut down can be
read off the state before it (`removes_iff`). In every run in which this
happens to no innocent cache, nor to a cache whose port number an innocent
one has, no innocent cache is removed (`innocent_not_removed`).
-/

namespace Dcs

namespace Master

variable {s : Master} {addr : Bytes} {state : Bool}

/-- The state in which the removal branch is tested. -/
def beforeRemoval (s : Master) (addr : Bytes) (state : Bool) : Master :=
  (((s.beat addr).markShut state).register addr).joinRound.1

/-- **The heartbeat is taken for one of a cache to be shut down**, by the
state before it. -/
def Taken (s : Master) (addr : Bytes) (state : Bool) : Prop :=
  state = false ∨ s.flag5 = 2 ∨ (s.flag5 = 1 ∧ portOf addr ∈ s.shutPortNow)
    ∨ (s.flag2 = 1 ∧ portOf addr = [])

instance (s : Master) (addr : Bytes) (state : Bool) : Decidable (s.Taken addr state) :=
  inferInstanceAs (Decidable (_ ∨ _))

/-- **Nobody is noted**, between two messages. -/
structure Unnoted (s : Master) : Prop where
  shutPort : s.shutPort = []
  flag2 : s.flag5 = 1 → s.flag2 = 1

/-- Nobody is noted, and nobody has gone silent. -/
structure Settled (s : Master) : Prop where
  shutPort : s.shutPort = []
  flag2 : s.flag5 = 1 → s.flag2 = 1
  flag6 : s.flag6 = 0

theorem Settled.unnoted (h : s.Settled) : s.Unnoted := ⟨h.shutPort, h.flag2⟩

/-! ## The lists -/

/-- The lists of addresses and of ports are the same. -/
def SameLists (s t : Master) : Prop :=
  t.ipPortList = s.ipPortList ∧ t.portList = s.portList

@[refl]
theorem SameLists.refl (s : Master) : SameLists s s := ⟨rfl, rfl⟩

theorem SameLists.trans {t u : Master} (h : SameLists s t) (h' : SameLists t u) :
    SameLists s u :=
  ⟨h'.1.trans h.1, h'.2.trans h.2⟩

theorem markShut_keeps (s : Master) (state : Bool) :
    SameLists s (s.markShut state) ∧ (s.markShut state).heartPort = s.heartPort
      ∧ (s.markShut state).flag6 = s.flag6 ∧ (s.markShut state).num3 = s.num3
      ∧ (s.markShut state).num4 = s.num4 := by
  rw [markShut_frame]
  exact ⟨⟨rfl, rfl⟩, rfl, rfl, rfl, rfl⟩

/-- A registration puts the sender on the lists, or leaves them. -/
theorem register_lists (s : Master) (addr : Bytes) :
    SameLists s (s.register addr)
      ∨ (s.register addr).ipPortList = s.ipPortList ++ [addr]
        ∧ (s.register addr).portList = s.portList ++ [atoi s.heartPort] := by
  have hcheck : SameLists s s.checkReconnect := by
    rw [checkReconnect_frame]
    exact ⟨rfl, rfl⟩
  unfold register
  split
  · exact Or.inl (SameLists.refl s)
  · unfold switchFlag4
    split
    · right
      rw [← hcheck.1, ← hcheck.2, ← (sameShut_checkReconnect s).heartPort]
      exact ⟨rfl, rfl⟩
    · left
      split
      · exact hcheck.trans ⟨rfl, rfl⟩
      · exact hcheck

theorem sameLists_joinRound (s : Master) : SameLists s s.joinRound.1 := by
  rw [joinRound_frame]
  exact ⟨rfl, rfl⟩

/-- **The lists before the removal branch**: as they were, or with the
sender. -/
theorem beforeRemoval_lists (s : Master) (addr : Bytes) (state : Bool) :
    SameLists s (s.beforeRemoval addr state)
      ∨ (s.beforeRemoval addr state).ipPortList = s.ipPortList ++ [addr]
        ∧ (s.beforeRemoval addr state).portList = s.portList ++ [atoi (portOf addr)] := by
  obtain ⟨hmark, hheart, -⟩ := markShut_keeps (s.beat addr) state
  have hjoin := sameLists_joinRound (((s.beat addr).markShut state).register addr)
  rcases register_lists ((s.beat addr).markShut state) addr with hreg | hreg
  · have hbeat : SameLists s (s.beat addr) := ⟨rfl, rfl⟩
    exact Or.inl (((hbeat.trans hmark).trans hreg).trans hjoin)
  · right
    rw [hheart, hmark.1, hmark.2] at hreg
    exact ⟨hjoin.1.trans hreg.1, hjoin.2.trans hreg.2⟩

/-! ## When the sender is removed

The removal branch tests globals that were set before it in the same heartbeat.
Between two messages nobody is noted, so what is tested is what this heartbeat has
noted, or else what `flag5` says. `flag5` is `1` while a user's request is under
way and `2` from a heartbeat with `state` false on. It goes back to `0` when as
many were removed as are to be. -/

theorem markShut_false (s : Master) :
    (s.markShut false).shutPort = s.heartPort ∧ (s.markShut false).flag2 = 1 := ⟨rfl, rfl⟩

theorem markShut_true (s : Master) :
    s.markShut true
      = if s.flag5 = 1 then s.noteNamed else if s.flag5 = 2 then s.noteSender else s := rfl

/-- **A sender taken for one to be shut down is noted**, as one that is. -/
theorem Unnoted.markShut_of_taken (h : s.Unnoted) (ht : s.Taken addr state) :
    ((s.beat addr).markShut state).shutPort = portOf addr
      ∧ ((s.beat addr).markShut state).flag2 = 1 := by
  cases state with
  | false => exact markShut_false (s.beat addr)
  | true =>
    rw [markShut_true]
    by_cases hone : (s.beat addr).flag5 = 1
    · rw [if_pos hone]
      refine ⟨?_, h.flag2 hone⟩
      show (if portOf addr ∈ s.shutPortNow then portOf addr else s.shutPort) = portOf addr
      rcases ht with hfalse | htwo | hnamed | hempty
      · exact absurd hfalse (by simp)
      · exact absurd (htwo.symm.trans hone) (by simp)
      · rw [if_pos hnamed.2]
      · rw [h.shutPort, hempty.2, ite_self]
    · rw [if_neg hone]
      by_cases htwo : (s.beat addr).flag5 = 2
      · rw [if_pos htwo]
        exact ⟨rfl, rfl⟩
      · -- nobody is noted, and the empty `shutport` is what is compared
        rw [if_neg htwo]
        rcases ht with hfalse | htwo' | hnamed | hempty
        · exact absurd hfalse (by simp)
        · exact absurd htwo' htwo
        · exact absurd hnamed.1 hone
        · exact ⟨h.shutPort.trans hempty.2.symm, hempty.1⟩

/-- **Of any other sender nothing is noted.** -/
theorem Unnoted.markShut_of_not_taken (h : s.Unnoted) (ht : ¬ s.Taken addr state) :
    ((s.beat addr).markShut state).shutPort = []
      ∧ ((s.beat addr).markShut state).flag2 = s.flag2
      ∧ ((s.beat addr).markShut state).flag5 = s.flag5 := by
  cases state with
  | false => exact absurd (Or.inl rfl) ht
  | true =>
    rw [markShut_true]
    by_cases hone : (s.beat addr).flag5 = 1
    · rw [if_pos hone]
      refine ⟨?_, rfl, rfl⟩
      have hnamed : portOf addr ∉ s.shutPortNow := fun hc =>
        ht (Or.inr (Or.inr (Or.inl ⟨hone, hc⟩)))
      show (if portOf addr ∈ s.shutPortNow then portOf addr else s.shutPort) = []
      rw [if_neg hnamed, h.shutPort]
    · have htwo : (s.beat addr).flag5 ≠ 2 := fun hc => ht (Or.inr (Or.inl hc))
      rw [if_neg hone, if_neg htwo]
      exact ⟨h.shutPort, rfl, rfl⟩

theorem sameShut_beforeRemoval (s : Master) (addr : Bytes) (state : Bool) :
    SameShut ((s.beat addr).markShut state) (s.beforeRemoval addr state) :=
  (sameShut_register _ addr).trans (sameShut_joinRound _)

theorem heartPort_beforeRemoval (s : Master) (addr : Bytes) (state : Bool) :
    (s.beforeRemoval addr state).heartPort = portOf addr :=
  (sameShut_beforeRemoval s addr state).heartPort.trans
    (markShut_keeps (s.beat addr) state).2.1

theorem Settled.flag6_beforeRemoval (h : s.Settled) (addr : Bytes) (state : Bool) :
    (s.beforeRemoval addr state).flag6 = 0 :=
  ((sameShut_beforeRemoval s addr state).flag6.trans
    (markShut_keeps (s.beat addr) state).2.2.1).trans h.flag6

/-- **When the sender is removed**, in terms of the state before its
heartbeat. -/
theorem Unnoted.removes_iff (h : s.Unnoted) :
    (s.beforeRemoval addr state).Removes ↔ s.Taken addr state := by
  have hsame := sameShut_beforeRemoval s addr state
  unfold Removes
  rw [hsame.shutPort, hsame.flag2, heartPort_beforeRemoval]
  constructor
  · intro hr
    by_contra hnot
    -- what is left is the empty port, which counts as taken
    obtain ⟨hport, hflag, -⟩ := h.markShut_of_not_taken hnot
    rw [hport, hflag] at hr
    exact hnot (Or.inr (Or.inr (Or.inr ⟨hr.2, hr.1.symm⟩)))
  · exact h.markShut_of_taken

theorem heartBeat_eq (s : Master) (addr : Bytes) (state : Bool) :
    (s.heartBeat addr state).1
      = ((s.beforeRemoval addr state).remove addr).1.refreshRound.1 := rfl

theorem Unnoted.heartBeat_eq_of_taken (h : s.Unnoted) (ht : s.Taken addr state) :
    (s.heartBeat addr state).1
      = ((s.beforeRemoval addr state).eraseSender addr).countRemoval.endRemoval.refreshRound.1 := by
  rw [heartBeat_eq]
  unfold remove
  rw [if_pos (h.removes_iff.mpr ht)]

theorem Settled.heartBeat_eq_of_not_taken (h : s.Settled) (ht : ¬ s.Taken addr state) :
    (s.heartBeat addr state).1 = (s.beforeRemoval addr state).refreshRound.1 := by
  have hr : ¬ (s.beforeRemoval addr state).Removes := fun hc => ht (h.unnoted.removes_iff.mp hc)
  have hsix := h.flag6_beforeRemoval addr state
  rw [heartBeat_eq]
  unfold remove
  rw [if_neg hr, if_neg (by rw [hsix]; simp)]

/-! ## What a heartbeat leaves

After a removal that is not the last of its round `flag5` is still `2`, and the
next heartbeat is taken for one of a cache that asks to be shut down, whoever it
comes from. This is where an innocent cache may be removed. -/

theorem refreshRound_keeps (s : Master) :
    SameLists s s.refreshRound.1 ∧ s.refreshRound.1.flag5 = s.flag5
      ∧ (s.Unnoted → s.refreshRound.1.Unnoted) := by
  rw [refreshRound_frame]
  exact ⟨⟨rfl, rfl⟩, rfl, fun h => ⟨h.shutPort, h.flag2⟩⟩

theorem flag6_refreshRound (h : s.flag6 = 0) : s.refreshRound.1.flag6 = 0 := by
  have htell : s.tellRefresh.1.flag6 = 0 := by
    unfold tellRefresh
    split
    · exact h
    · exact h
  unfold refreshRound
  split
  · show s.tellRefresh.1.endRefresh.flag6 = 0
    unfold endRefresh
    split
    · rfl
    · exact htell
  · exact h

theorem endRemoval_keeps (s : Master) :
    SameLists s s.endRemoval ∧ s.endRemoval.flag6 = s.flag6
      ∧ (s.Unnoted → s.endRemoval.Unnoted) := by
  unfold endRemoval
  split
  · exact ⟨⟨rfl, rfl⟩, rfl, fun h => ⟨h.shutPort, fun hc => absurd hc (by simp)⟩⟩
  · exact ⟨SameLists.refl s, rfl, id⟩

theorem Removes.unnoted_countRemoval (h : s.Removes) (addr : Bytes) :
    (s.eraseSender addr).countRemoval.Unnoted :=
  ⟨rfl, fun _ => h.2⟩

/-- The removal branch notes nobody. -/
theorem unnoted_remove (h : ¬ s.Removes → s.Unnoted) (addr : Bytes) :
    (s.remove addr).1.Unnoted := by
  unfold remove
  by_cases hr : s.Removes
  · rw [if_pos hr]
    exact (endRemoval_keeps _).2.2 (hr.unnoted_countRemoval addr)
  · rw [if_neg hr]
    split
    · exact ⟨(h hr).shutPort, (h hr).flag2⟩
    · exact h hr

/-- **After a heartbeat nobody is noted.** -/
theorem Unnoted.heartBeat (h : s.Unnoted) (addr : Bytes) (state : Bool) :
    (s.heartBeat addr state).1.Unnoted := by
  rw [heartBeat_eq]
  refine (refreshRound_keeps _).2.2 (unnoted_remove (fun hr => ?_) addr)
  have ht : ¬ s.Taken addr state := fun hc => hr (h.removes_iff.mpr hc)
  have hsame := sameShut_beforeRemoval s addr state
  obtain ⟨hport, htwo, hfive⟩ := h.markShut_of_not_taken ht
  refine ⟨hsame.shutPort.trans hport, ?_⟩
  rw [hsame.flag5, hsame.flag2, htwo, hfive]
  exact h.flag2

theorem lists_remove (h : s.Removes) (addr : Bytes) :
    (s.remove addr).1.ipPortList = s.ipPortList.erase addr
      ∧ (s.remove addr).1.portList = s.portList.erase (atoi s.heartPort)
      ∧ (s.remove addr).1.flag6 = s.flag6 := by
  have hend := endRemoval_keeps (s.eraseSender addr).countRemoval
  unfold remove
  rw [if_pos h, ← h.1]
  exact ⟨hend.1.1, hend.1.2, hend.2.1⟩

/-- **A heartbeat that is taken** for one of a cache to be shut down removes
the sender's address, and the number of its port. -/
theorem Settled.heartBeat_of_taken (h : s.Settled) (ht : s.Taken addr state) :
    (s.heartBeat addr state).1.Settled
      ∧ (s.heartBeat addr state).1.ipPortList
        = (s.beforeRemoval addr state).ipPortList.erase addr
      ∧ (s.heartBeat addr state).1.portList
        = (s.beforeRemoval addr state).portList.erase (atoi (portOf addr)) := by
  obtain ⟨haddrs, hports, hsix⟩ := lists_remove (h.unnoted.removes_iff.mpr ht) addr
  obtain ⟨hport, htwo⟩ := h.unnoted.heartBeat addr state
  have hlists := (refreshRound_keeps ((s.beforeRemoval addr state).remove addr).1).1
  rw [heartPort_beforeRemoval] at hports
  refine ⟨⟨hport, htwo, ?_⟩, hlists.1.trans haddrs, hlists.2.trans hports⟩
  rw [heartBeat_eq]
  exact flag6_refreshRound (hsix.trans (h.flag6_beforeRemoval addr state))

/-- **Any other heartbeat** removes nothing. -/
theorem Settled.heartBeat_of_not_taken (h : s.Settled) (ht : ¬ s.Taken addr state) :
    (s.heartBeat addr state).1.Settled
      ∧ SameLists (s.beforeRemoval addr state) (s.heartBeat addr state).1 := by
  obtain ⟨hport, htwo⟩ := h.unnoted.heartBeat addr state
  refine ⟨⟨hport, htwo, ?_⟩, ?_⟩
  all_goals rw [h.heartBeat_eq_of_not_taken ht]
  · exact flag6_refreshRound (h.flag6_beforeRemoval addr state)
  · exact (refreshRound_keeps _).1

/-- Only a cache that asks to be shut down makes `flag5` `2`. -/
theorem flag5_markShut (s : Master) (state : Bool) :
    (s.markShut state).flag5 = if state = false then 2 else s.flag5 := by
  have hnote : ∀ t : Master, t.noteShut.flag5 = t.flag5 := by
    intro t
    unfold noteShut
    split
    · rfl
    · split
      · rfl
      · rfl
  unfold markShut
  split
  · exact hnote { s with flag5 := 2 }
  · exact hnote s

/-- A removal leaves `flag5` at `2` when it is not the last. -/
theorem flag5_endRemoval_eq_two_iff (s : Master) :
    s.countRemoval.endRemoval.flag5 = 2 ↔ s.flag5 = 2 ∧ s.num3 + 1 ≠ s.num4 := by
  unfold endRemoval
  split
  next hend =>
    have hlast : s.num3 + 1 = s.num4 := hend.2.1
    exact ⟨fun h => absurd h (by simp), fun h => absurd hlast h.2⟩
  next hend =>
    show s.flag5 = 2 ↔ _
    constructor
    · intro htwo
      exact ⟨htwo, fun hlast => hend ⟨Or.inr htwo, hlast, rfl⟩⟩
    · exact And.left

/-- **When `flag5` stays `2`**: when a cache asks to be shut down, or `flag5`
was `2` before, and the removals are not as many as the caches a user
named. -/
theorem Settled.flag5_heartBeat_eq_two_iff (h : s.Settled) :
    (s.heartBeat addr state).1.flag5 = 2
      ↔ (state = false ∨ s.flag5 = 2) ∧ s.num3 + 1 ≠ s.num4 := by
  have hsame := sameShut_beforeRemoval s addr state
  obtain ⟨-, -, -, hthree, hfour⟩ := markShut_keeps (s.beat addr) state
  have hfive : (s.beforeRemoval addr state).flag5 = if state = false then 2 else s.flag5 :=
    hsame.flag5.trans (flag5_markShut (s.beat addr) state)
  by_cases ht : s.Taken addr state
  · rw [h.unnoted.heartBeat_eq_of_taken ht, (refreshRound_keeps _).2.1, flag5_endRemoval_eq_two_iff]
    show (s.beforeRemoval addr state).flag5 = 2
      ∧ (s.beforeRemoval addr state).num3 + 1 ≠ (s.beforeRemoval addr state).num4 ↔ _
    rw [hsame.num3, hsame.num4, hthree, hfour, hfive]
    show _ ∧ s.num3 + 1 ≠ s.num4 ↔ _
    cases state <;> simp
  · have htrue : state ≠ false := fun hc => ht (Or.inl hc)
    have htwo : s.flag5 ≠ 2 := fun hc => ht (Or.inr (Or.inl hc))
    rw [h.heartBeat_eq_of_not_taken ht, (refreshRound_keeps _).2.1, hfive, if_neg htrue]
    exact ⟨fun hc => absurd hc htwo, fun hc => absurd hc.1 (not_or.mpr ⟨htrue, htwo⟩)⟩

end Master

/-! ## Runs

A suspect is a cache that asked to be shut down or that a user named. The
invariant is that only suspects were removed, and that the ports that are known
are those of the addresses on the list; the latter is needed since a port decides
who is noted. -/

/-- **The master, who may be removed, and who was.** -/
structure Watched where
  master : Master
  /-- The addresses a user named, and those of caches that asked to be shut
  down. -/
  suspects : List Bytes
  /-- The senders for which the removal branch was taken. -/
  removed : List Bytes

namespace Watched

open Master

/-- The start. -/
def init : Watched := ⟨Master.init, [], []⟩

/-- Who is a suspect once a heartbeat came. -/
def suspectsAfter (w : Watched) (addr : Bytes) (state : Bool) : List Bytes :=
  if state = false then addr :: w.suspects else w.suspects

/-- A heartbeat. -/
def heartBeat (w : Watched) (addr : Bytes) (state : Bool) : Watched where
  master := (w.master.masterhandler (.heartBeat addr state)).1
  suspects := w.suspectsAfter addr state
  removed :=
    if (w.master.beforeRemoval addr state).Removes then addr :: w.removed else w.removed

/-- A request to shut caches down. -/
def shutdownCache (w : Watched) (iplist : List Bytes) : Watched where
  master := (w.master.masterhandler (.shutdownCache iplist)).1
  suspects := iplist ++ w.suspects
  removed := w.removed

/-- One step: a heartbeat or a request to shut caches down. -/
def step (w : Watched) : MasterMessage → Option Watched
  | .heartBeat addr state => some (w.heartBeat addr state)
  | .shutdownCache iplist => some (w.shutdownCache iplist)
  | .distributionRequest => none
  | .spareMaster _ _ => none

/-- **The condition on a message**: a sender whose heartbeat is taken for one
of a cache to be shut down is a suspect, and no registered cache that is not
one has the number of its port. -/
def Justified (w : Watched) : MasterMessage → Prop
  | .heartBeat addr state => w.master.Taken addr state →
      addr ∈ w.suspectsAfter addr state
        ∧ ∀ b ∈ w.master.ipPortList, b ∉ w.suspectsAfter addr state →
          atoi (portOf b) ≠ atoi (portOf addr)
  | _ => True

instance (w : Watched) (m : MasterMessage) : Decidable (w.Justified m) :=
  match m with
  | .heartBeat _ _ => inferInstanceAs (Decidable (_ → _))
  | .shutdownCache _ => isTrue trivial
  | .distributionRequest => isTrue trivial
  | .spareMaster _ _ => isTrue trivial

/-- **What holds after every message**: only suspects were removed, and the
port of every other address on the list is known. -/
structure Invariant (w : Watched) : Prop where
  settled : w.master.Settled
  removed : ∀ a ∈ w.removed, a ∈ w.suspects
  ports : ∀ a ∈ w.master.ipPortList, a ∉ w.suspects → atoi (portOf a) ∈ w.master.portList

variable {w v : Watched} {addr : Bytes} {state : Bool} {m : MasterMessage}

theorem suspects_subset_suspectsAfter (w : Watched) (addr : Bytes) (state : Bool) :
    w.suspects ⊆ w.suspectsAfter addr state := by
  unfold suspectsAfter
  split
  · exact List.subset_cons_self addr w.suspects
  · exact List.Subset.refl w.suspects

theorem removed_heartBeat (h : w.master.Settled) :
    (w.heartBeat addr state).removed
      = if w.master.Taken addr state then addr :: w.removed else w.removed := by
  show (if (w.master.beforeRemoval addr state).Removes then _ else _) = _
  rw [if_congr h.unnoted.removes_iff rfl rfl]

/-- Before the removal branch, the invariant holds of the lists. -/
theorem Invariant.ports_beforeRemoval (h : w.Invariant) {a : Bytes}
    (ha : a ∈ (w.master.beforeRemoval addr state).ipPortList)
    (hs : a ∉ w.suspectsAfter addr state) :
    atoi (portOf a) ∈ (w.master.beforeRemoval addr state).portList := by
  have hs' : a ∉ w.suspects := fun hc => hs (w.suspects_subset_suspectsAfter addr state hc)
  rcases w.master.beforeRemoval_lists addr state with hsame | hnew
  · rw [hsame.1] at ha
    rw [hsame.2]
    exact h.ports a ha hs'
  · rw [hnew.1] at ha
    rw [hnew.2]
    rcases List.mem_append.mp ha with hold | hadded
    · exact List.mem_append_left _ (h.ports a hold hs')
    · rw [List.mem_singleton.mp hadded]
      exact List.mem_append_right _ List.mem_cons_self

/-- **One heartbeat** keeps the invariant. -/
theorem Invariant.heartBeat (h : w.Invariant) (hg : w.Justified (.heartBeat addr state)) :
    (w.heartBeat addr state).Invariant := by
  by_cases ht : w.master.Taken addr state
  · obtain ⟨hsettled, haddrs, hports⟩ := h.settled.heartBeat_of_taken ht
    obtain ⟨hsuspect, hother⟩ := hg ht
    refine ⟨hsettled, ?_, ?_⟩
    · rw [removed_heartBeat h.settled, if_pos ht]
      intro a ha
      rcases List.mem_cons.mp ha with rfl | hold
      · exact hsuspect
      · exact w.suspects_subset_suspectsAfter addr state (h.removed a hold)
    · intro a ha hs
      have ha' : a ∈ (w.master.beforeRemoval addr state).ipPortList :=
        List.mem_of_mem_erase (haddrs ▸ ha)
      have hne : a ≠ addr := fun hc => hs (hc ▸ hsuspect)
      -- only the sender itself can have been put on the list since
      have hb : a ∈ w.master.ipPortList := by
        rcases w.master.beforeRemoval_lists addr state with hsame | hnew
        · exact hsame.1 ▸ ha'
        · rw [hnew.1] at ha'
          exact (List.mem_append.mp ha').resolve_right (fun hc => hne (List.mem_singleton.mp hc))
      show atoi (portOf a) ∈ (w.master.heartBeat addr state).1.portList
      rw [hports]
      exact (List.mem_erase_of_ne (hother a hb hs)).mpr (h.ports_beforeRemoval ha' hs)
  · obtain ⟨hsettled, hsame⟩ := h.settled.heartBeat_of_not_taken ht
    refine ⟨hsettled, ?_, ?_⟩
    · rw [removed_heartBeat h.settled, if_neg ht]
      exact fun a ha => w.suspects_subset_suspectsAfter addr state (h.removed a ha)
    · intro a ha hs
      show atoi (portOf a) ∈ (w.master.heartBeat addr state).1.portList
      rw [hsame.2]
      exact h.ports_beforeRemoval (hsame.1 ▸ ha) hs

/-- **One message** keeps the invariant. -/
theorem Invariant.step (h : w.Invariant) (hg : w.Justified m) (hstep : w.step m = some v) :
    v.Invariant := by
  cases m with
  | heartBeat addr state =>
    obtain rfl : w.heartBeat addr state = v := Option.some.inj hstep
    exact h.heartBeat hg
  | shutdownCache iplist =>
    obtain rfl : w.shutdownCache iplist = v := Option.some.inj hstep
    exact ⟨⟨h.settled.shutPort, fun _ => rfl, h.settled.flag6⟩,
      fun a ha => List.mem_append_right _ (h.removed a ha),
      fun a ha hs => h.ports a ha (fun hc => hs (List.mem_append_right _ hc))⟩
  | distributionRequest => exact absurd hstep (by simp [Watched.step])
  | spareMaster ip iplist => exact absurd hstep (by simp [Watched.step])

/-- **An address leaves the list only by the removal branch.** -/
theorem listed_or_removed_step (h : w.master.Settled) (hstep : w.step m = some v)
    {a : Bytes} (ha : a ∈ w.master.ipPortList ∨ a ∈ w.removed) :
    a ∈ v.master.ipPortList ∨ a ∈ v.removed := by
  cases m with
  | heartBeat addr state =>
    obtain rfl : w.heartBeat addr state = v := Option.some.inj hstep
    have hbefore : a ∈ w.master.ipPortList →
        a ∈ (w.master.beforeRemoval addr state).ipPortList := by
      intro hl
      rcases w.master.beforeRemoval_lists addr state with hsame | hnew
      · exact hsame.1 ▸ hl
      · exact hnew.1 ▸ List.mem_append_left _ hl
    rw [removed_heartBeat h]
    show a ∈ (w.master.heartBeat addr state).1.ipPortList ∨ _
    by_cases ht : w.master.Taken addr state
    · rw [(h.heartBeat_of_taken ht).2.1, if_pos ht]
      by_cases haddr : a = addr
      · exact Or.inr (haddr ▸ List.mem_cons_self)
      · exact ha.imp (fun hl => (List.mem_erase_of_ne haddr).mpr (hbefore hl))
          (List.mem_cons_of_mem addr)
    · rw [(h.heartBeat_of_not_taken ht).2.1, if_neg ht]
      exact ha.imp_left hbefore
  | shutdownCache iplist =>
    obtain rfl : w.shutdownCache iplist = v := Option.some.inj hstep
    exact ha
  | distributionRequest => exact absurd hstep (by simp [Watched.step])
  | spareMaster ip iplist => exact absurd hstep (by simp [Watched.step])

theorem invariant_init : Watched.init.Invariant where
  settled := ⟨rfl, fun h => absurd h (by decide), rfl⟩
  removed := fun _ h => nomatch h
  ports := fun _ h => nomatch h

end Watched

open Master in
/-- **No innocent cache is removed.** In a run of heartbeats and requests to
shut caches down of which each meets the condition: a cache that was
registered at some point, `es₁`, and is no suspect later, is still on both
lists, and the removal branch was never taken for it. -/
theorem innocent_not_removed {es₁ es₂ : List MasterMessage} {w₁ w₂ : Watched} {a : Bytes}
    (hg₁ : Runs.Guarded Watched.step Watched.Justified Watched.init es₁)
    (hrun₁ : Runs.exec Watched.step Watched.init es₁ = some w₁)
    (hg₂ : Runs.Guarded Watched.step Watched.Justified w₁ es₂)
    (hrun₂ : Runs.exec Watched.step w₁ es₂ = some w₂)
    (ha : a ∈ w₁.master.ipPortList) (hs : a ∉ w₂.suspects) :
    a ∈ w₂.master.ipPortList ∧ atoi (portOf a) ∈ w₂.master.portList ∧ a ∉ w₂.removed := by
  have hinv₁ : w₁.Invariant :=
    Runs.exec_invariant Watched.Invariant Watched.Invariant.step Watched.invariant_init
      hg₁ hrun₁
  have hinv₂ : w₂.Invariant ∧ (a ∈ w₂.master.ipPortList ∨ a ∈ w₂.removed) := by
    refine Runs.exec_invariant
      (fun w => w.Invariant ∧ (a ∈ w.master.ipPortList ∨ a ∈ w.removed)) ?_
      ⟨hinv₁, Or.inl ha⟩ hg₂ hrun₂
    intro w v m hw hm hstep
    exact ⟨hw.1.step hm hstep, Watched.listed_or_removed_step hw.1.settled hstep hw.2⟩
  have hnot : a ∉ w₂.removed := fun hc => hs (hinv₂.1.removed a hc)
  have hlisted := hinv₂.2.resolve_right hnot
  exact ⟨hlisted, hinv₂.1.ports a hlisted hs, hnot⟩

namespace Watched

/-- Three caches join, one after the other, and each join is announced to
all. -/
def threeJoins : List MasterMessage :=
  [str "127.0.0.1:8000", str "127.0.0.1:8001", str "127.0.0.1:8000",
    str "127.0.0.1:8002", str "127.0.0.1:8000", str "127.0.0.1:8001"].map
      (fun addr => .heartBeat addr true)

/-- A user has the first shut down, the second asks to be, and the third goes
on. -/
def twoRemovals : List MasterMessage :=
  [.shutdownCache [str "127.0.0.1:8000"], .heartBeat (str "127.0.0.1:8000") true,
    .heartBeat (str "127.0.0.1:8001") false, .heartBeat (str "127.0.0.1:8002") true]

end Watched

/-- The third cache remains. -/
theorem innocent_not_removed_twoRemovals :
    ∃ w₁ w₂, Runs.exec Watched.step Watched.init Watched.threeJoins = some w₁
      ∧ Runs.exec Watched.step w₁ Watched.twoRemovals = some w₂
      ∧ Runs.Guarded Watched.step Watched.Justified Watched.init Watched.threeJoins
      ∧ Runs.Guarded Watched.step Watched.Justified w₁ Watched.twoRemovals
      ∧ w₂.removed = [str "127.0.0.1:8001", str "127.0.0.1:8000"]
      ∧ str "127.0.0.1:8002" ∈ w₁.master.ipPortList ∧ str "127.0.0.1:8002" ∉ w₂.suspects
      ∧ str "127.0.0.1:8002" ∈ w₂.master.ipPortList := by
  obtain ⟨w₁, w₂, hrun₁, hrun₂, hg₁, hg₂, hremoved, ha, hs⟩ :
      ∃ w₁ w₂, Runs.exec Watched.step Watched.init Watched.threeJoins = some w₁
        ∧ Runs.exec Watched.step w₁ Watched.twoRemovals = some w₂
        ∧ Runs.Guarded Watched.step Watched.Justified Watched.init Watched.threeJoins
        ∧ Runs.Guarded Watched.step Watched.Justified w₁ Watched.twoRemovals
        ∧ w₂.removed = [str "127.0.0.1:8001", str "127.0.0.1:8000"]
        ∧ str "127.0.0.1:8002" ∈ w₁.master.ipPortList ∧ str "127.0.0.1:8002" ∉ w₂.suspects :=
    ⟨_, _, rfl, rfl, by decide +kernel, by decide +kernel, by decide +kernel,
      by decide +kernel, by decide +kernel⟩
  exact ⟨w₁, w₂, hrun₁, hrun₂, hg₁, hg₂, hremoved, ha, hs,
    (innocent_not_removed hg₁ hrun₁ hg₂ hrun₂ ha hs).1⟩

/-- **An innocent cache is removed.** Two caches join, the first asks to be
shut down, and the next heartbeat of the second removes the second: `flag5` is
`2` still, as one removal is not the number of caches a user named, none. -/
theorem innocent_cache_removed :
    ∃ w₁ w₂, Runs.exec Watched.step Watched.init
        [.heartBeat (str "127.0.0.1:8000") true, .heartBeat (str "127.0.0.1:8001") true]
          = some w₁
      ∧ Runs.exec Watched.step w₁
        [.heartBeat (str "127.0.0.1:8000") false, .heartBeat (str "127.0.0.1:8001") true]
          = some w₂
      ∧ str "127.0.0.1:8001" ∈ w₁.master.ipPortList
      ∧ w₂.suspects = [str "127.0.0.1:8000"]
      ∧ str "127.0.0.1:8001" ∈ w₂.removed
      ∧ w₂.master.ipPortList = [] ∧ w₂.master.portList = [] :=
  ⟨_, _, rfl, rfl, by decide +kernel, by decide +kernel, by decide +kernel,
    by decide +kernel, by decide +kernel⟩

end Dcs
