import LinuxStudy.MasterRegistry

/-!
# Rounds of removals

A request to shut caches down starts a round: `flag2` and `flag5` go up, and
each of the caches named is removed when its heartbeat comes in. The round
ends when the number of removals, `num3`, is `num4`, the number of caches
named; then the flags go down and the removal is announced to those that are
left.

But `num4` is the length of `shutportnow`, which every request adds to, and
which is emptied by the announcement of a join and by nothing else. After a
round the caches that were removed are still named. The next request counts
them in, the removals never get that many, and the round does not end
(`second_round_unfinished`). And an announcement of a join that is under way
when the request comes empties the list under its hands.

`shutdown_round_finishes` says that a round finishes otherwise: where no name
is left over from an earlier request, no join is being announced, and the
ports of the registered caches tell them apart. Along the way, `OnRound` says
what holds while a round is on, and who is left to be removed.
-/

namespace Dcs

namespace Master

variable {s t : Master} {addr : Bytes} {state : Bool} {request listed left : List Bytes}

/-! ## The count between rounds -/

/-- **While no round is on, no removal is counted.** -/
structure Counted (s : Master) : Prop where
  unnoted : s.Unnoted
  num3 : s.flag2 = 0 → s.num3 = 0

/-- A removal is counted in a round, and the end of the round clears the
count. -/
theorem num3_endRemoval (h : s.flag2 = 1) :
    s.endRemoval.flag2 = 0 → s.endRemoval.num3 = 0 := by
  unfold endRemoval
  split
  · exact fun _ => rfl
  · intro hzero
    exact absurd (h.symm.trans hzero) one_ne_zero

/-- The removal branch counts in a round only. -/
theorem num3_remove (h : ¬ s.Removes → s.flag2 = 0 → s.num3 = 0) (addr : Bytes) :
    (s.remove addr).1.flag2 = 0 → (s.remove addr).1.num3 = 0 := by
  unfold remove
  by_cases hr : s.Removes
  · rw [if_pos hr]
    exact num3_endRemoval (s := (s.eraseSender addr).countRemoval) hr.2
  · rw [if_neg hr]
    split
    · exact h hr
    · exact h hr

/-- **A heartbeat** counts in a round only. -/
theorem Counted.heartBeat (h : s.Counted) (addr : Bytes) (state : Bool) :
    (s.heartBeat addr state).1.Counted := by
  refine ⟨h.unnoted.heartBeat addr state, ?_⟩
  rw [heartBeat_eq, refreshRound_frame]
  refine num3_remove (fun hr => ?_) addr
  have ht : ¬ s.Taken addr state := fun hc => hr (h.unnoted.removes_iff.mpr hc)
  have hsame := sameShut_beforeRemoval s addr state
  obtain ⟨-, htwo, -⟩ := h.unnoted.markShut_of_not_taken ht
  rw [hsame.flag2, hsame.num3, htwo, (markShut_keeps (s.beat addr) state).2.2.2.1]
  exact h.num3

/-- **After every message** no removal is counted unless a round is on. -/
theorem Counted.step {m : MasterMessage} (h : s.Counted) (hstep : s.step m = some t) :
    t.Counted := by
  cases m with
  | heartBeat addr state =>
    obtain rfl : (s.heartBeat addr state).1 = t := Option.some.inj hstep
    exact h.heartBeat addr state
  | shutdownCache iplist =>
    obtain rfl : s.shutdownCache iplist = t := Option.some.inj hstep
    exact ⟨h.unnoted.step (m := .shutdownCache iplist) rfl, fun hc => absurd hc one_ne_zero⟩
  | distributionRequest => exact absurd hstep (by simp [Master.step])
  | spareMaster ip iplist => exact absurd hstep (by simp [Master.step])

theorem counted_init : init.Counted := ⟨unnoted_init, fun _ => rfl⟩

/-! ## While a round is on

A round is over when as many have been removed as were named. So the removals that
are counted must be those of the round, and every cache that was named must be
removed exactly once. The invariant has the caches that are left, and the number
of those that were named is the count and the number of those left.

Who is taken for a cache to be shut down is found by its port, and so the ports of
the registered caches must be different as numbers. -/

/-- **The registered caches can be told apart**, and those requested are among
them: no two have the same port number, and none that is not requested has an
empty port. -/
structure Distinct (request listed : List Bytes) : Prop where
  nodup : request.Nodup
  subset : request ⊆ listed
  numbers : (listed.map numberOf).Nodup
  empty : ∀ a ∈ listed, portOf a = [] → a ∈ request

/-- **A round is on**, for the caches of a request: those of them that are
still on the list are left to be removed, and the others have been
counted. -/
structure OnRound (request listed left : List Bytes) (s : Master) : Prop where
  distinct : Distinct request listed
  settled : s.Settled
  flag2 : s.flag2 = 1
  flag3 : s.flag3 = 0
  flag5 : s.flag5 = 1
  named : s.shutPortNow = request.map portOf
  num4 : s.num4 = request.length
  num3 : s.num3 + left.length = request.length
  nodup : left.Nodup
  left : ∀ a, a ∈ left ↔ a ∈ request ∧ a ∈ s.ipPortList
  sublist : s.ipPortList.Sublist listed
  known : ∀ a ∈ s.ipPortList, numberOf a ∈ s.portList

theorem Distinct.eq_of_portOf_eq (h : Distinct request listed) {a b : Bytes} (ha : a ∈ listed)
    (hb : b ∈ listed) (heq : portOf a = portOf b) : a = b :=
  List.inj_on_of_nodup_map h.numbers ha hb (congrArg atoi heq)

/-- **Who is taken for a cache to be shut down** is who was requested. -/
theorem OnRound.taken_iff (h : OnRound request listed left s) (ha : addr ∈ s.ipPortList) :
    s.Taken addr true ↔ addr ∈ request := by
  have hlisted : addr ∈ listed := h.sublist.subset ha
  constructor
  · rintro (hfalse | htwo | ⟨-, hnamed⟩ | ⟨-, hempty⟩)
    · exact absurd hfalse (by simp)
    · exact absurd (h.flag5.symm.trans htwo) (by simp)
    · rw [h.named] at hnamed
      obtain ⟨b, hb, heq⟩ := List.mem_map.mp hnamed
      rw [← h.distinct.eq_of_portOf_eq (h.distinct.subset hb) hlisted heq]
      exact hb
    · exact h.distinct.empty addr hlisted hempty
  · intro hrequest
    refine Or.inr (Or.inr (Or.inl ⟨h.flag5, ?_⟩))
    rw [h.named]
    exact List.mem_map_of_mem hrequest

theorem OnRound.not_registers (h : OnRound request listed left s) (ha : addr ∈ s.ipPortList) :
    ¬ s.Registers addr :=
  fun hc => hc.1 (h.known addr ha)

theorem OnRound.lists_beforeRemoval (h : OnRound request listed left s)
    (ha : addr ∈ s.ipPortList) :
    (s.beforeRemoval addr true).ipPortList = s.ipPortList
      ∧ (s.beforeRemoval addr true).portList = s.portList := by
  obtain ⟨-, hports, haddrs⟩ := beforeRemoval_withSender s addr true
  unfold withSender at hports haddrs
  rw [if_neg (h.not_registers ha)] at hports haddrs
  exact ⟨haddrs, hports⟩

/-- The flags and counters of the round are as they were, too. -/
theorem OnRound.flags_beforeRemoval (h : OnRound request listed left s) (addr : Bytes) :
    (s.beforeRemoval addr true).flag5 = 1 ∧ (s.beforeRemoval addr true).num3 = s.num3
      ∧ (s.beforeRemoval addr true).num4 = s.num4
      ∧ (s.beforeRemoval addr true).flag3 = 0 := by
  have hsame := sameShut_beforeRemoval s addr true
  obtain ⟨-, -, -, hthree, hfour⟩ := markShut_keeps (s.beat addr) true
  refine ⟨?_, hsame.num3.trans hthree, hsame.num4.trans hfour, ?_⟩
  · rw [hsame.flag5, flag5_markShut]
    exact h.flag5
  · rw [hsame.flag3, markShut_frame]
    exact h.flag3

/-- **A round is ended** by a heartbeat: of the caches requested its sender is
the only one left, it is removed, the flags of the round go down, and the
announcement to the others is started. -/
structure EndsRound (request : List Bytes) (s : Master) (addr : Bytes) : Prop where
  last : ∀ a, a ∈ request ∧ a ∈ s.ipPortList ↔ a = addr
  removed : addr ∉ (s.heartBeat addr true).1.ipPortList
  flag2 : (s.heartBeat addr true).1.flag2 = 0
  flag5 : (s.heartBeat addr true).1.flag5 = 0
  flag8 : (s.heartBeat addr true).1.flag8 = 0
  /-- `flag3` is set, before the announcement has its first turn. -/
  flag3 : s.flag3 = 0 ∧ ((s.beforeRemoval addr true).remove addr).1.flag3 = 1

theorem flags_remove_of_last (hr : s.Removes) (hfive : s.flag5 = 1) (hlast : s.num3 + 1 = s.num4)
    (addr : Bytes) :
    (s.remove addr).1.flag2 = 0 ∧ (s.remove addr).1.flag5 = 0 ∧ (s.remove addr).1.flag8 = 0
      ∧ (s.remove addr).1.flag3 = 1 := by
  unfold remove endRemoval
  rw [if_pos hr, if_pos ⟨Or.inl hfive, hlast, rfl⟩]
  exact ⟨rfl, rfl, rfl, rfl⟩

/-- **The last heartbeat that is waited for ends the round**, even if a join is
being announced. -/
theorem OnRound.endsRound (h : OnRound request listed [addr] s) : EndsRound request s addr := by
  obtain ⟨hrequest, ha⟩ := (h.left addr).mp List.mem_cons_self
  have ht := (h.taken_iff ha).mpr hrequest
  obtain ⟨haddrs, -⟩ := h.lists_beforeRemoval ha
  obtain ⟨hfive, hthree, hfour, -⟩ := h.flags_beforeRemoval addr
  have hlast : (s.beforeRemoval addr true).num3 + 1 = (s.beforeRemoval addr true).num4 := by
    rw [hthree, hfour, h.num4, ← h.num3]
    rfl
  obtain ⟨hend2, hend5, hend8, hend3⟩ :=
    flags_remove_of_last (h.settled.unnoted.removes_iff.mpr ht) hfive hlast addr
  have hstep := heartBeat_eq s addr true
  rw [refreshRound_frame] at hstep
  refine ⟨fun a => ?_, ?_, ?_, ?_, ?_, h.flag3, hend3⟩
  · rw [← h.left a, List.mem_singleton]
  · rw [(h.settled.heartBeat_of_taken ht).2.1, haddrs]
    exact (h.sublist.nodup h.distinct.numbers.of_map).not_mem_erase
  · rw [hstep]
    exact hend2
  · rw [hstep]
    exact hend5
  · rw [hstep]
    exact hend8

/-! ## A heartbeat that does not end the round -/

/-- While no join is being announced, a known sender is noted, and nothing
else is done before the removal branch. -/
theorem beforeRemoval_eq_of_known (hknown : numberOf addr ∈ s.portList) (hflag : s.flag1 ≠ 1)
    (state : Bool) :
    s.beforeRemoval addr state = (s.beat addr).markShut state := by
  have hmark := markShut_frame (s.beat addr) state
  have hregister : ((s.beat addr).markShut state).register addr
      = (s.beat addr).markShut state := by
    unfold register
    refine if_pos ?_
    rw [hmark]
    exact hknown
  unfold beforeRemoval
  rw [hregister]
  unfold joinRound
  rw [if_neg]
  rw [hmark]
  exact hflag

theorem refreshRound_of_flag3 (h : s.flag3 = 0) : s.refreshRound.1 = s := by
  unfold refreshRound
  rw [if_neg (fun hc => absurd (h.symm.trans hc.1) zero_ne_one)]

/-- **A heartbeat of a cache that was not requested** changes nothing of the
round. -/
theorem OnRound.heartBeat_of_other (h : OnRound request listed left s) (hflag : s.flag1 ≠ 1)
    (ha : addr ∈ s.ipPortList) (hother : addr ∉ request) :
    OnRound request listed left (s.heartBeat addr true).1
      ∧ (s.heartBeat addr true).1.flag1 ≠ 1 := by
  have ht : ¬ s.Taken addr true := fun hc => hother ((h.taken_iff ha).mp hc)
  have hsettled := (h.settled.heartBeat_of_not_taken ht).1
  obtain ⟨-, htwo, hfive⟩ := h.settled.unnoted.markShut_of_not_taken ht
  have hstep : (s.heartBeat addr true).1 = (s.beat addr).markShut true := by
    rw [h.settled.heartBeat_eq_of_not_taken ht,
      refreshRound_of_flag3 (h.flags_beforeRemoval addr).2.2.2,
      beforeRemoval_eq_of_known (h.known addr ha) hflag true]
  rw [hstep, markShut_frame] at hsettled ⊢
  exact ⟨⟨h.distinct, hsettled, htwo.trans h.flag2, h.flag3, hfive.trans h.flag5, h.named, h.num4,
    h.num3, h.nodup, h.left, h.sublist, h.known⟩, hflag⟩

theorem remove_of_not_last (hr : s.Removes) (hlast : s.num3 + 1 ≠ s.num4) (addr : Bytes) :
    (s.remove addr).1 = (s.eraseSender addr).countRemoval := by
  unfold remove endRemoval
  rw [if_pos hr, if_neg (fun hc => hlast hc.2.1)]

/-- Where the sender is not the last, the count does not end the round. -/
theorem OnRound.num3_ne (h : OnRound request listed left s) (ha : addr ∈ left)
    (hlast : left ≠ [addr]) : s.num3 + 1 ≠ s.num4 := by
  intro hc
  have hone : left.length = 1 := by
    have hcount := h.num3
    rw [← h.num4] at hcount
    omega
  obtain ⟨a, rfl⟩ := List.length_eq_one_iff.mp hone
  rw [List.mem_singleton.mp ha] at hlast
  exact hlast rfl

/-- What the heartbeat of such a sender does. -/
theorem OnRound.heartBeat_eq_of_requested (h : OnRound request listed left s)
    (hflag : s.flag1 ≠ 1) (ha : addr ∈ left) (hlast : left ≠ [addr]) :
    (s.heartBeat addr true).1
      = (((s.beat addr).markShut true).eraseSender addr).countRemoval := by
  obtain ⟨hrequest, haddr⟩ := (h.left addr).mp ha
  have hbefore := beforeRemoval_eq_of_known (h.known addr haddr) hflag true
  obtain ⟨-, hnum3, hnum4, hthree⟩ := h.flags_beforeRemoval addr
  have hmore := h.num3_ne ha hlast
  rw [← hnum3, ← hnum4] at hmore
  have hr := h.settled.unnoted.removes_iff.mpr ((h.taken_iff haddr).mpr hrequest)
  rw [hbefore] at hmore hr hthree
  rw [heartBeat_eq, hbefore, remove_of_not_last hr hmore]
  exact refreshRound_of_flag3 hthree

/-- **A heartbeat of a cache that was requested**, and is not the last, counts
one removal. -/
theorem OnRound.heartBeat_of_requested (h : OnRound request listed left s) (hflag : s.flag1 ≠ 1)
    (ha : addr ∈ left) (hlast : left ≠ [addr]) :
    OnRound request listed (left.erase addr) (s.heartBeat addr true).1
      ∧ (s.heartBeat addr true).1.flag1 ≠ 1 := by
  obtain ⟨hrequest, haddr⟩ := (h.left addr).mp ha
  have ht := (h.taken_iff haddr).mpr hrequest
  have hnodup := h.sublist.nodup h.distinct.numbers.of_map
  have hsettled := (h.settled.heartBeat_of_taken ht).1
  obtain ⟨hshut, htwo⟩ := h.settled.unnoted.markShut_of_taken ht
  have hfive : ((s.beat addr).markShut true).flag5 = 1 :=
    (flag5_markShut (s.beat addr) true).trans h.flag5
  rw [h.heartBeat_eq_of_requested hflag ha hlast] at hsettled ⊢
  unfold eraseSender Master.erase countRemoval at hsettled ⊢
  rw [hshut] at hsettled ⊢
  rw [markShut_frame] at hsettled htwo hfive ⊢
  refine ⟨⟨h.distinct, hsettled, htwo, h.flag3, hfive, h.named, h.num4, ?_, h.nodup.erase addr, ?_,
    (List.erase_sublist).trans h.sublist, ?_⟩, hflag⟩
  · show s.num3 + 1 + (left.erase addr).length = request.length
    rw [List.length_erase_of_mem ha, ← h.num3]
    have hpos := List.length_pos_of_mem ha
    omega
  · intro a
    show a ∈ left.erase addr ↔ a ∈ request ∧ a ∈ s.ipPortList.erase addr
    rw [h.nodup.mem_erase_iff, hnodup.mem_erase_iff, h.left a]
    exact and_left_comm
  · intro a hmem
    obtain ⟨hne, hlisted⟩ := hnodup.mem_erase_iff.mp hmem
    show numberOf a ∈ s.portList.erase (numberOf addr)
    -- no other cache has the number that is taken off
    have hnumber : numberOf a ≠ numberOf addr := fun hc => hne
      (List.inj_on_of_nodup_map h.distinct.numbers (h.sublist.subset hlisted)
        (h.sublist.subset haddr) hc)
    exact (List.mem_erase_of_ne hnumber).mpr (h.known a hlisted)

/-! ## The whole round

The heartbeats may come in any order, and a cache that was not named may send as
many as it likes before. The last of those that were named ends the round, and
this is the step of the induction: a heartbeat of another one leaves the round on
with the same caches left, and one of a cache that was named leaves it on with one
less. -/

/-- The heartbeats of caches that want to stay, one after the other. -/
def beats (hs : List Bytes) : List MasterMessage := hs.map (fun addr => .heartBeat addr true)

/-- While a round is on, the sender of a heartbeat is registered. -/
def Present (s : Master) : MasterMessage → Prop
  | .heartBeat addr _ => s.flag2 = 1 → addr ∈ s.ipPortList
  | _ => True

instance (s : Master) (m : MasterMessage) : Decidable (s.Present m) :=
  match m with
  | .heartBeat _ _ => inferInstanceAs (Decidable (_ → _))
  | .shutdownCache _ => isTrue trivial
  | .distributionRequest => isTrue trivial
  | .spareMaster _ _ => isTrue trivial

/-- **One of the heartbeats ends the round.** -/
def Finishes (request : List Bytes) (s : Master) (hs : List Bytes) : Prop :=
  ∃ hs₁ addr hs₂ v, hs = hs₁ ++ addr :: hs₂
    ∧ Runs.exec Master.step s (beats hs₁) = some v ∧ EndsRound request v addr

theorem EndsRound.finishes (h : EndsRound request s addr) (hs : List Bytes) :
    Finishes request s (addr :: hs) :=
  ⟨[], addr, hs, s, rfl, rfl, h⟩

theorem Finishes.cons {hs : List Bytes} (h : Finishes request (s.heartBeat addr true).1 hs) :
    Finishes request s (addr :: hs) := by
  obtain ⟨hs₁, a, hs₂, v, rfl, hrun, hend⟩ := h
  exact ⟨addr :: hs₁, a, hs₂, v, rfl, Runs.exec_cons_eq_some.mpr ⟨_, rfl, hrun⟩, hend⟩

/-- **A round finishes** when all that are left to be removed have sent a
heartbeat, while no join is being announced. -/
theorem OnRound.finishes {hs : List Bytes} (h : OnRound request listed left s)
    (hflag : s.flag1 ≠ 1) (hleft : left ≠ []) (hall : left ⊆ hs)
    (hpresent : Runs.Guarded Master.step Present s (beats hs)) :
    Finishes request s hs := by
  -- who is left shrinks with each removal, and the last one removed ends the round
  induction hs generalizing s left with
  | nil => exact absurd (List.subset_nil.mp hall) hleft
  | cons addr hs ih =>
    have haddr : addr ∈ s.ipPortList := hpresent.1 h.flag2
    have hnext := hpresent.2 _ rfl
    by_cases hrequest : addr ∈ request
    · have ha : addr ∈ left := (h.left addr).mpr ⟨hrequest, haddr⟩
      by_cases hlast : left = [addr]
      · subst hlast
        exact h.endsRound.finishes hs
      · obtain ⟨hround, hflag'⟩ := h.heartBeat_of_requested hflag ha hlast
        have hmore : left.erase addr ≠ [] := by
          intro hc
          rcases List.erase_eq_nil_iff.mp hc with hnil | hone
          · exact hleft hnil
          · exact hlast hone
        have hrest : left.erase addr ⊆ hs := by
          intro a hmem
          obtain ⟨hne, hold⟩ := h.nodup.mem_erase_iff.mp hmem
          exact (List.mem_cons.mp (hall hold)).resolve_left hne
        exact (ih hround hflag' hmore hrest hnext).cons
    · obtain ⟨hround, hflag'⟩ := h.heartBeat_of_other hflag haddr hrequest
      have hrest : left ⊆ hs := by
        intro a hmem
        have hne : a ≠ addr := fun hc => hrequest (hc ▸ ((h.left a).mp hmem).1)
        exact (List.mem_cons.mp (hall hmem)).resolve_left hne
      exact (ih hround hflag' hleft hrest hnext).cons

/-- **The condition on a request**, and the state it comes in: somebody is
named, no name is left over from an earlier request, no join is being
announced, or else the one cache that is named sends the first heartbeat; and
the registered caches are told apart by their ports, which are known, where
only one that is named may have an empty one. -/
structure Clean (s : Master) (request hs : List Bytes) : Prop where
  named : request ≠ []
  forgotten : s.shutPortNow = []
  joined : s.flag1 ≠ 1 ∨ ∃ addr, request = [addr] ∧ hs.head? = some addr
  numbers : (s.ipPortList.map numberOf).Nodup
  known : ∀ a ∈ s.ipPortList, numberOf a ∈ s.portList
  empty : ∀ a ∈ s.ipPortList, portOf a = [] → a ∈ request

/-- **A request starts a round.** -/
theorem Clean.onRound {hs : List Bytes} (h : s.Clean request hs) (hcounted : s.Counted)
    (htwo : s.flag2 = 0) (hthree : s.flag3 = 0) (hsix : s.flag6 = 0) (hnodup : request.Nodup)
    (hsubset : request ⊆ s.ipPortList) :
    OnRound request s.ipPortList request (s.shutdownCache request) where
  distinct := ⟨hnodup, hsubset, h.numbers, h.empty⟩
  settled := ⟨hcounted.unnoted.shutPort, fun _ => rfl, hsix⟩
  flag2 := rfl
  flag3 := hthree
  flag5 := rfl
  named := by
    show s.shutPortNow ++ request.map portOf = request.map portOf
    rw [h.forgotten, List.nil_append]
  num4 := by
    show (s.shutPortNow ++ request.map portOf).length = request.length
    rw [h.forgotten, List.nil_append, List.length_map]
  num3 := by
    show s.num3 + request.length = request.length
    rw [hcounted.num3 htwo, Nat.zero_add]
  nodup := hnodup
  left := fun _ => ⟨fun ha => ⟨ha, hsubset ha⟩, And.left⟩
  sublist := List.Sublist.refl _
  known := h.known

end Master

open Master in
/-- **A shutdown round finishes.** In a state that heartbeats and requests lead
to from the start, in which no round is on and no removal is being announced,
registered caches are requested to be shut down, under the condition. Then, of
heartbeats in which each of them occurs and which come from registered caches
as long as the round is on, the one that removes the last of them puts
`flag2`, `flag5` and `flag8` down and sets `flag3`. -/
theorem shutdown_round_finishes {es : List MasterMessage} {s : Master} {request hs : List Bytes}
    (hrun : Runs.exec Master.step Master.init es = some s)
    (htwo : s.flag2 = 0) (hthree : s.flag3 = 0) (hsix : s.flag6 = 0)
    (hnodup : request.Nodup) (hsubset : request ⊆ s.ipPortList) (hall : request ⊆ hs)
    (hpresent : Runs.Guarded Master.step Present (s.shutdownCache request) (beats hs))
    (hclean : s.Clean request hs) :
    Finishes request (s.shutdownCache request) hs := by
  have hcounted : s.Counted := Runs.exec_invariant' Counted Counted.step counted_init hrun
  have hround := hclean.onRound hcounted htwo hthree hsix hnodup hsubset
  rcases hclean.joined with hflag | ⟨addr, rfl, hfirst⟩
  · exact hround.finishes hflag hclean.named hall hpresent
  · -- the join that is being announced forgets who was named, but only after the first
    -- heartbeat was noted
    obtain ⟨hs', rfl⟩ := List.head?_eq_some_iff.mp hfirst
    exact hround.endsRound.finishes hs'

/-- Of three caches two are shut down, after the third has sent a
heartbeat. -/
theorem shutdown_round_finishes_two :
    ∃ s, Runs.exec Master.step Master.init Watched.threeJoins = some s
      ∧ Master.Finishes [str "127.0.0.1:8000", str "127.0.0.1:8001"]
        (s.shutdownCache [str "127.0.0.1:8000", str "127.0.0.1:8001"])
        [str "127.0.0.1:8002", str "127.0.0.1:8001", str "127.0.0.1:8000"] := by
  obtain ⟨s, hrun, hflags, hsubset, hpresent, hnames, hnumbers, hknown, hempty⟩ :
      ∃ s, Runs.exec Master.step Master.init Watched.threeJoins = some s
        ∧ (s.flag1 ≠ 1 ∧ s.flag2 = 0 ∧ s.flag3 = 0 ∧ s.flag6 = 0)
        ∧ [str "127.0.0.1:8000", str "127.0.0.1:8001"] ⊆ s.ipPortList
        ∧ Runs.Guarded Master.step Master.Present
          (s.shutdownCache [str "127.0.0.1:8000", str "127.0.0.1:8001"])
          (Master.beats [str "127.0.0.1:8002", str "127.0.0.1:8001", str "127.0.0.1:8000"])
        ∧ s.shutPortNow = [] ∧ (s.ipPortList.map Master.numberOf).Nodup
        ∧ (∀ a ∈ s.ipPortList, Master.numberOf a ∈ s.portList)
        ∧ ∀ a ∈ s.ipPortList, Master.portOf a ≠ [] :=
    ⟨_, rfl, by decide +kernel, by decide +kernel, by decide +kernel, by decide +kernel,
      by decide +kernel, by decide +kernel, by decide +kernel⟩
  refine ⟨s, hrun, shutdown_round_finishes hrun hflags.2.1 hflags.2.2.1 hflags.2.2.2
    (by decide +kernel) hsubset (by decide +kernel) hpresent ?_⟩
  exact ⟨List.cons_ne_nil _ _, hnames, Or.inl hflags.1, hnumbers, hknown,
    fun a ha hc => absurd hc (hempty a ha)⟩

namespace Master

/-- Two caches join, a user has one of them shut down, and the other is told. -/
def oneRound : List MasterMessage :=
  [.heartBeat (str "127.0.0.1:8000") true, .heartBeat (str "127.0.0.1:8001") true,
    .heartBeat (str "127.0.0.1:8000") true, .shutdownCache [str "127.0.0.1:8000"],
    .heartBeat (str "127.0.0.1:8000") true, .heartBeat (str "127.0.0.1:8001") true]

end Master

open Master in
/-- **A second round does not finish.** After `oneRound` a user has the other
cache shut down as well. It is removed, but two names are counted, of which
one is left over from the first request: one removal is not enough. -/
theorem second_round_unfinished :
    ¬ ∀ (es : List MasterMessage) (s : Master) (request hs : List Bytes),
      (∀ addr, .heartBeat addr false ∉ es) →
      Runs.exec Master.step Master.init es = some s →
      s.flag2 = 0 → s.flag3 = 0 → s.flag6 = 0 →
      request.Nodup → request ⊆ s.ipPortList → request ⊆ hs →
      Runs.Guarded Master.step Present (s.shutdownCache request) (beats hs) →
      Finishes request (s.shutdownCache request) hs := by
  intro h
  obtain ⟨s, hrun, htwo, hthree, hsix, hsubset, hpresent, hstuck⟩ :
      ∃ s, Runs.exec Master.step Master.init oneRound = some s ∧ s.flag2 = 0 ∧ s.flag3 = 0
        ∧ s.flag6 = 0 ∧ [str "127.0.0.1:8001"] ⊆ s.ipPortList
        ∧ Runs.Guarded Master.step Present (s.shutdownCache [str "127.0.0.1:8001"])
          (beats [str "127.0.0.1:8001"])
        ∧ ((s.shutdownCache [str "127.0.0.1:8001"]).heartBeat (str "127.0.0.1:8001") true).1.flag2
          = 1 :=
    ⟨_, rfl, by decide +kernel, by decide +kernel, by decide +kernel, by decide +kernel,
      by decide +kernel, by decide +kernel⟩
  have hstay : ∀ addr, MasterMessage.heartBeat addr false ∉ oneRound := by
    intro addr
    simp [oneRound]
  obtain ⟨hs₁, addr, hs₂, v, hsplit, hreach, hend⟩ := h oneRound s [str "127.0.0.1:8001"]
    [str "127.0.0.1:8001"] hstay hrun htwo hthree hsix (by decide) hsubset
    (List.Subset.refl _) hpresent
  cases hs₁ with
  | nil =>
    obtain ⟨rfl, -⟩ := List.cons.inj hsplit
    obtain rfl := Option.some.inj hreach
    exact absurd (hstuck.symm.trans hend.flag2) one_ne_zero
  | cons b hs₁ =>
    obtain ⟨-, hnil⟩ := List.cons.inj hsplit
    exact absurd hnil.symm (by simp)

end Dcs
