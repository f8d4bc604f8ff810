import LinuxStudy.MasterRegistry

/-!
# The counters of the rounds

The announcement of a join is a round over the marks of `cachemap`, with `num1`
for the count, and that of a removal a round over those of `cachemapshut`, with
`num2`. A round ends when the count is the size of the map. It ends when it
should if the count is right, that is, if it is the number of marks that are
set.

What sets a mark counts it, and what clears the marks clears the count. But what
takes a cache off takes its entries out of both maps and does not look at the
marks. If one was set, the count is one too great from then on: the round ends
while one of the caches that are left is still to be told, or goes past the end
and stays open.

The announcement of a join is done before the removal branch, and tells the
sender. A sender that is removed while the announcement goes on has been told
just then, so that every such removal takes a mark along. Otherwise it depends on
who was told before.

`counts_right_iff` says that this is all that can go wrong: the counters are
right after every message of a run, and the rounds end when all that are left
were told and not before, exactly if no heartbeat takes a mark along.
-/

namespace Dcs

namespace Master

variable {s t : Master} {addr key : Bytes} {state : Bool}

/-- **The counters count the marks.** -/
structure Counts (s : Master) : Prop where
  num1 : s.num1 = s.cacheMap.ones
  num2 : s.num2 = s.cacheMapShut.ones

/-- What a heartbeat has done when the announcement of a join comes to it. -/
def afterRegister (s : Master) (addr : Bytes) (state : Bool) : Master :=
  ((s.beat addr).markShut state).register addr

/-- What a heartbeat has done when the announcement of a removal comes to it. -/
def afterRemoval (s : Master) (addr : Bytes) (state : Bool) : Master :=
  ((s.beforeRemoval addr state).remove addr).1

/-- **The rounds end when they should**: a round that a heartbeat finds under
way is over after its turn exactly if all that are left were told. -/
structure EndsRounds (s : Master) (addr : Bytes) (state : Bool) : Prop where
  join : (s.afterRegister addr state).flag1 = 1 →
    ((s.beforeRemoval addr state).flag1 = 0
      ↔ (s.afterRegister addr state).forgetNamed.tellJoin.1.cacheMap.Complete)
  refresh : (s.afterRemoval addr state).flag3 = 1 ∧ (s.afterRemoval addr state).flag8 = 0 →
    ((s.heartBeat addr state).1.flag3 = 0
      ↔ (s.afterRemoval addr state).tellRefresh.1.cacheMapShut.Complete)

/-- **An entry that is taken out has no mark**, by the state before the
heartbeat: that of `cachemapshut` is not set, and while a join is still to be
announced that of `cachemap` is not set and is not one that the sender gets from
being told. -/
def Unmarked (s : Master) (addr key : Bytes) : Prop :=
  s.cacheMapShut.lookup key ≠ some 1
    ∧ (s.JoinPending addr → s.cacheMap.lookup key ≠ some 1
      ∧ ¬ (key = portOf addr ∧ (s.joinMarks addr).lookup key = some 0))

instance (s : Master) (addr key : Bytes) : Decidable (s.Unmarked addr key) :=
  inferInstanceAs (Decidable (_ ∧ _))

/-- **What holds between two messages**: the counters are right, and no mark is
left over from the announcement of a join that is over. -/
structure Tallied (s : Master) : Prop where
  unnoted : s.Unnoted
  counts : s.Counts
  closed : s.flag1 ≠ 1 → s.cacheMap.ones = 0

/-- **The condition on a heartbeat**: what it takes off has no mark. It takes
off the sender, if it is taken for a cache to be shut down, and otherwise the
cache that has gone silent, if there is one. -/
def TakesNoMark (s : Master) (addr : Bytes) (state : Bool) : Prop :=
  if s.Taken addr state then s.Unmarked addr (portOf addr)
  else s.flag6 = 1 → s.Unmarked addr s.psShutPort

instance (s : Master) (addr : Bytes) (state : Bool) : Decidable (s.TakesNoMark addr state) :=
  inferInstanceAs (Decidable (if s.Taken addr state then s.Unmarked addr (portOf addr)
    else s.flag6 = 1 → s.Unmarked addr s.psShutPort))

/-! ## The announcement of a join

The turn of a heartbeat in this announcement is to mark the sender, if it has not
been told yet, to count it and to compare the count with the number of names. When
they are equal all marks are cleared and so is the count. If the count was right
before, it is right afterwards, and the round is over exactly if everybody was
told. -/

/-- **The announcement of a join has had its turn**, with these marks when the
count was looked at. -/
structure JoinTurn (told : Marks Bytes) (t : Master) : Prop where
  count : t.num1 = t.cacheMap.ones
  ends : t.flag1 = 0 ↔ told.Complete
  closed : t.flag1 ≠ 1 → t.cacheMap.ones = 0
  marks : ∀ key, t.cacheMap.lookup key = some 1 ↔ t.flag1 = 1 ∧ told.lookup key = some 1

/-- What is told is marked and counted. -/
theorem tellJoin_counts (h : s.num1 = s.cacheMap.ones) :
    s.tellJoin.1.cacheMap = s.cacheMap.tell s.heartPort
      ∧ s.tellJoin.1.num1 = s.tellJoin.1.cacheMap.ones := by
  have hmap : s.tellJoin.1.cacheMap = s.cacheMap.tell s.heartPort := by
    unfold tellJoin Marks.tell
    split <;> rfl
  have hnum : s.tellJoin.1.num1
      = s.num1 + if s.cacheMap.lookup s.heartPort = some 0 then 1 else 0 := by
    unfold tellJoin
    split <;> rfl
  refine ⟨hmap, ?_⟩
  rw [hmap, hnum, Marks.ones_tell, h]

/-- The look at the count. -/
theorem endJoin_joinTurn (h : s.num1 = s.cacheMap.ones) (hflag : s.flag1 = 1) :
    JoinTurn s.cacheMap s.endJoin := by
  by_cases hall : s.num1 = s.cacheMap.size
  · have hend : s.endJoin = { s with flag1 := 0, num1 := 0, cacheMap := s.cacheMap.clear } :=
      if_pos hall
    have hcomplete := (Marks.ones_eq_size_iff s.cacheMap).mp (h.symm.trans hall)
    have hnone := Marks.ones_clear s.cacheMap
    rw [hend]
    exact ⟨hnone.symm, iff_of_true rfl hcomplete, fun _ => hnone, fun key =>
      iff_of_false (Marks.lookup_ne_one hnone key) (fun hc => zero_ne_one hc.1)⟩
  · have hend : s.endJoin = s := if_neg hall
    have hsome : ¬ s.cacheMap.Complete := fun hc =>
      hall (h.trans ((Marks.ones_eq_size_iff s.cacheMap).mpr hc))
    rw [hend]
    exact ⟨h, iff_of_false (fun hc => one_ne_zero (hflag.symm.trans hc)) hsome,
      fun hc => absurd hflag hc, fun key => (and_iff_right hflag).symm⟩

/-- **A turn of the announcement of a join.** -/
theorem joinRound_joinTurn (h : s.num1 = s.cacheMap.ones) (hflag : s.flag1 = 1) :
    JoinTurn s.forgetNamed.tellJoin.1.cacheMap s.joinRound.1 := by
  have hround : s.joinRound.1 = s.forgetNamed.tellJoin.1.endJoin := by
    unfold joinRound
    rw [if_pos hflag]
  have hflag' : s.forgetNamed.tellJoin.1.flag1 = 1 := by
    unfold tellJoin
    split
    · exact hflag
    · exact hflag
  have hcount := (tellJoin_counts (s := s.forgetNamed) h).2
  rw [hround]
  exact endJoin_joinTurn hcount hflag'

/-- What a registration does to the marks of a removal. -/
theorem afterRegister_shut (s : Master) (addr : Bytes) (state : Bool) :
    (s.afterRegister addr state).num2 = s.num2
      ∧ (s.afterRegister addr state).cacheMapShut.ones = s.cacheMapShut.ones
      ∧ ∀ key, (s.afterRegister addr state).cacheMapShut.lookup key = some 1
        ↔ s.cacheMapShut.lookup key = some 1 := by
  unfold afterRegister
  by_cases hnew : s.Registers addr
  · rw [register_of_newCache (newCache_markShut_iff.mpr hnew), checkReconnect_frame, markShut_frame]
    exact ⟨rfl, Marks.ones_emplace _ _, fun key => Marks.lookup_emplace_eq_one_iff⟩
  · rw [register_frame_of_not_newCache (fun hc => hnew (newCache_markShut_iff.mp hc)),
      markShut_frame]
    exact ⟨rfl, rfl, fun key => Iff.rfl⟩

theorem joinMarks_marks (s : Master) (addr : Bytes) :
    (s.joinMarks addr).ones = s.cacheMap.ones
      ∧ ∀ key, (s.joinMarks addr).lookup key = some 1 ↔ s.cacheMap.lookup key = some 1 := by
  unfold joinMarks
  split
  · exact ⟨Marks.ones_emplace _ _, fun key => Marks.lookup_emplace_eq_one_iff⟩
  · exact ⟨rfl, fun key => Iff.rfl⟩

theorem beforeRemoval_shut (s : Master) (addr : Bytes) (state : Bool) :
    (s.beforeRemoval addr state).num2 = (s.afterRegister addr state).num2
      ∧ (s.beforeRemoval addr state).cacheMapShut = (s.afterRegister addr state).cacheMapShut := by
  unfold beforeRemoval afterRegister
  rw [joinRound_frame]
  exact ⟨rfl, rfl⟩

namespace Tallied

theorem num1_afterRegister (h : s.Tallied) (addr : Bytes) (state : Bool) :
    (s.afterRegister addr state).num1 = (s.afterRegister addr state).cacheMap.ones := by
  obtain ⟨-, hnum, -, hmarks⟩ := register_joins s addr state
  unfold afterRegister
  rw [hnum, hmarks, (joinMarks_marks s addr).1]
  exact h.counts.num1

theorem joinTurn (h : s.Tallied) (hflag : (s.afterRegister addr state).flag1 = 1) :
    JoinTurn (s.afterRegister addr state).forgetNamed.tellJoin.1.cacheMap
      (s.beforeRemoval addr state) :=
  joinRound_joinTurn (h.num1_afterRegister addr state) hflag

theorem beforeRemoval_of_not_announced (h : s.Tallied)
    (hflag : (s.afterRegister addr state).flag1 ≠ 1) :
    s.beforeRemoval addr state = s.afterRegister addr state
      ∧ (s.afterRegister addr state).cacheMap.ones = 0 := by
  obtain ⟨hiff, -, -, hmarks⟩ := register_joins s addr state
  have hround : s.beforeRemoval addr state = s.afterRegister addr state := by
    unfold beforeRemoval joinRound
    rw [if_neg (by exact hflag)]
    rfl
  have hclosed : s.flag1 ≠ 1 := fun hc => hflag (hiff.mpr (Or.inl hc))
  refine ⟨hround, ?_⟩
  unfold afterRegister
  rw [hmarks, (joinMarks_marks s addr).1]
  exact h.closed hclosed

/-- **Up to the removal branch the counters are right.** -/
theorem counts_beforeRemoval (h : s.Tallied) (addr : Bytes) (state : Bool) :
    (s.beforeRemoval addr state).Counts
      ∧ ((s.beforeRemoval addr state).flag1 ≠ 1
        → (s.beforeRemoval addr state).cacheMap.ones = 0) := by
  obtain ⟨hnum, hmap⟩ := beforeRemoval_shut s addr state
  obtain ⟨hnum', hones, -⟩ := afterRegister_shut s addr state
  have hshut : (s.beforeRemoval addr state).num2
      = (s.beforeRemoval addr state).cacheMapShut.ones := by
    rw [hnum, hmap, hnum', hones]
    exact h.counts.num2
  by_cases hflag : (s.afterRegister addr state).flag1 = 1
  · have hturn := h.joinTurn hflag
    exact ⟨⟨hturn.count, hshut⟩, hturn.closed⟩
  · obtain ⟨hround, hnone⟩ := h.beforeRemoval_of_not_announced hflag
    rw [hround] at hshut ⊢
    exact ⟨⟨h.num1_afterRegister addr state, hshut⟩, fun _ => hnone⟩

/-- **Which marks of a join are set when the removal branch is reached.** -/
theorem lookup_cacheMap_iff (h : s.Tallied) (addr : Bytes) (state : Bool) (key : Bytes) :
    (s.beforeRemoval addr state).cacheMap.lookup key = some 1
      ↔ s.JoinPending addr ∧ (s.cacheMap.lookup key = some 1
        ∨ (key = portOf addr ∧ (s.joinMarks addr).lookup key = some 0)) := by
  obtain ⟨-, -, hheart, hmarks⟩ := register_joins s addr state
  have hpending : (s.beforeRemoval addr state).flag1 = 1 ↔ s.JoinPending addr :=
    flag1_beforeRemoval_eq_one_iff
  rw [← hpending]
  by_cases hflag : (s.afterRegister addr state).flag1 = 1
  · have htold : (s.afterRegister addr state).forgetNamed.tellJoin.1.cacheMap
        = (s.joinMarks addr).tell (portOf addr) := by
      rw [← hmarks, ← hheart]
      exact (tellJoin_counts (s := (s.afterRegister addr state).forgetNamed)
        (h.num1_afterRegister addr state)).1
    rw [(h.joinTurn hflag).marks key, htold, Marks.lookup_tell_eq_one_iff,
      (joinMarks_marks s addr).2 key]
  · obtain ⟨hround, hnone⟩ := h.beforeRemoval_of_not_announced hflag
    rw [hround]
    exact iff_of_false (Marks.lookup_ne_one hnone key) (fun hc => hflag hc.1)

/-- **What is taken out has no mark there** exactly if it looked so before. -/
theorem unmarked_iff (h : s.Tallied) (addr : Bytes) (state : Bool) (key : Bytes) :
    s.Unmarked addr key ↔ (s.beforeRemoval addr state).cacheMap.lookup key ≠ some 1
      ∧ (s.beforeRemoval addr state).cacheMapShut.lookup key ≠ some 1 := by
  have hjoin := not_congr (h.lookup_cacheMap_iff addr state key)
  have hshut := not_congr ((afterRegister_shut s addr state).2.2 key)
  rw [not_and, not_or] at hjoin
  rw [← (beforeRemoval_shut s addr state).2] at hshut
  exact ⟨fun hu => ⟨hjoin.mpr hu.2, hshut.mpr hu.1⟩, fun hu => ⟨hshut.mp hu.2, hjoin.mp hu.1⟩⟩

end Tallied

/-! ## The removal branch

This branch takes the sender out of both maps, or a cache that has gone silent,
and leaves both counters as they are. They are right afterwards exactly if there
was no mark on what was taken out. For the marks of a join the question is asked
after the heartbeat has had its turn in the announcement, so the sender may just
have been marked; it is answered in terms of the state before. -/

/-- **An entry is taken out** of both maps, and the counters are left alone. -/
structure TakesOut (s : Master) (key : Bytes) (t : Master) : Prop where
  num1 : t.num1 = s.num1
  num2 : t.num2 = s.num2
  flag1 : t.flag1 = s.flag1
  cacheMap : t.cacheMap = s.cacheMap.erase key
  cacheMapShut : t.cacheMapShut = s.cacheMapShut.erase key

/-- **The counters are right afterwards** exactly if the entry had no mark. -/
theorem TakesOut.counts_iff (h : TakesOut s key t) (hs : s.Counts) :
    t.Counts ↔ s.cacheMap.lookup key ≠ some 1 ∧ s.cacheMapShut.lookup key ≠ some 1 := by
  have hjoin := Marks.eq_ones_erase_iff (h.num1.trans hs.num1) key
  have hshut := Marks.eq_ones_erase_iff (h.num2.trans hs.num2) key
  rw [← h.cacheMap] at hjoin
  rw [← h.cacheMapShut] at hshut
  exact ⟨fun ht => ⟨hjoin.mp ht.num1, hshut.mp ht.num2⟩,
    fun hu => ⟨hjoin.mpr hu.1, hshut.mpr hu.2⟩⟩

theorem TakesOut.closed (h : TakesOut s key t) (hs : s.flag1 ≠ 1 → s.cacheMap.ones = 0) :
    t.flag1 ≠ 1 → t.cacheMap.ones = 0 := by
  intro hflag
  have hjoin := Marks.ones_erase s.cacheMap key
  rw [← h.cacheMap, hs (h.flag1 ▸ hflag)] at hjoin
  omega

/-- **What the removal branch does**: the sender is taken off, or the silent
cache, or nobody. -/
theorem remove_cases (s : Master) (addr : Bytes) :
    (s.Removes ∧ TakesOut s s.heartPort (s.remove addr).1)
      ∨ (¬ s.Removes ∧ s.flag6 = 1 ∧ TakesOut s s.psShutPort (s.remove addr).1)
      ∨ (¬ s.Removes ∧ s.flag6 ≠ 1 ∧ (s.remove addr).1 = s) := by
  by_cases hr : s.Removes
  · left
    refine ⟨hr, ?_⟩
    unfold remove endRemoval
    rw [if_pos hr]
    dsimp only
    split
    · exact ⟨rfl, rfl, rfl, rfl, rfl⟩
    · exact ⟨rfl, rfl, rfl, rfl, rfl⟩
  · right
    by_cases hsix : s.flag6 = 1
    · left
      refine ⟨hr, hsix, ?_⟩
      unfold remove
      rw [if_neg hr, if_pos hsix]
      exact ⟨rfl, rfl, rfl, rfl, rfl⟩
    · right
      exact ⟨hr, hsix, remove_of_neither hr hsix addr⟩

/-- **The counters are right after the removal branch** exactly if what was
taken off had no mark. -/
theorem Tallied.counts_afterRemoval_iff (h : s.Tallied) (addr : Bytes) (state : Bool) :
    (s.afterRemoval addr state).Counts ↔ s.TakesNoMark addr state := by
  obtain ⟨hcounts, -⟩ := h.counts_beforeRemoval addr state
  obtain ⟨-, hsix, -, hport⟩ := beforeRemoval_keeps s addr state
  unfold afterRemoval TakesNoMark
  rw [← if_congr h.unnoted.removes_iff rfl rfl, ← hsix, ← hport]
  rcases remove_cases (s.beforeRemoval addr state) addr with
    ⟨hr, hout⟩ | ⟨hr, hsilent, hout⟩ | ⟨hr, hnone, hsame⟩
  · rw [heartPort_beforeRemoval] at hout
    rw [if_pos hr, hout.counts_iff hcounts, h.unmarked_iff addr state]
  · rw [if_neg hr, hout.counts_iff hcounts, h.unmarked_iff addr state]
    exact ⟨fun hu _ => hu, fun hu => hu hsilent⟩
  · rw [if_neg hr, hsame]
    exact iff_of_true hcounts (fun hc => absurd hc hnone)

/-- After the announcement of a join that is over no mark is left. -/
theorem Tallied.closed_afterRemoval (h : s.Tallied) (addr : Bytes) (state : Bool) :
    (s.afterRemoval addr state).flag1 ≠ 1 → (s.afterRemoval addr state).cacheMap.ones = 0 := by
  obtain ⟨-, hclosed⟩ := h.counts_beforeRemoval addr state
  unfold afterRemoval
  rcases remove_cases (s.beforeRemoval addr state) addr with
    ⟨-, hout⟩ | ⟨-, -, hout⟩ | ⟨-, -, hsame⟩
  · exact hout.closed hclosed
  · exact hout.closed hclosed
  · rw [hsame]
    exact hclosed

/-! ## The announcement of a removal -/

/-- What is told is marked, and the count is as far off as it was. -/
theorem tellRefresh_counts (s : Master) :
    s.tellRefresh.1.num2 = s.tellRefresh.1.cacheMapShut.ones ↔ s.num2 = s.cacheMapShut.ones := by
  have hmap : s.tellRefresh.1.cacheMapShut = s.cacheMapShut.tell s.heartPort := by
    unfold tellRefresh Marks.tell
    split <;> rfl
  have hnum : s.tellRefresh.1.num2
      = s.num2 + if s.cacheMapShut.lookup s.heartPort = some 0 then 1 else 0 := by
    unfold tellRefresh
    split <;> rfl
  rw [hmap, hnum, Marks.ones_tell, Nat.add_right_cancel_iff]

/-- **The look at the count**: if the round ends when it should, and the count is
right afterwards, the count was right. Clearing a count that was not would be
to end too soon. -/
theorem endRefresh_counts_iff (h : s.flag3 = 1) :
    (s.endRefresh.num2 = s.endRefresh.cacheMapShut.ones
        ∧ (s.endRefresh.flag3 = 0 ↔ s.cacheMapShut.Complete))
      ↔ s.num2 = s.cacheMapShut.ones := by
  rw [← Marks.ones_eq_size_iff]
  by_cases hall : s.num2 = s.cacheMapShut.size
  · have hend : s.endRefresh
        = { s with flag3 := 0, flag6 := 0, num2 := 0, cacheMapShut := s.cacheMapShut.clear } :=
      if_pos hall
    rw [hend]
    constructor
    · exact fun hr => hall.trans (hr.2.mp rfl).symm
    · exact fun hs => ⟨(Marks.ones_clear s.cacheMapShut).symm, iff_of_true rfl (hs.symm.trans hall)⟩
  · have hend : s.endRefresh = s := if_neg hall
    rw [hend]
    refine ⟨And.left, fun hs => ⟨hs, iff_of_false ?_ (fun hc => hall (hs.trans hc))⟩⟩
    exact fun hc => one_ne_zero (h.symm.trans hc)

/-- **A turn of the announcement of a removal.** -/
theorem refreshRound_counts_iff (s : Master) :
    (s.refreshRound.1.num2 = s.refreshRound.1.cacheMapShut.ones
        ∧ (s.flag3 = 1 ∧ s.flag8 = 0 →
          (s.refreshRound.1.flag3 = 0 ↔ s.tellRefresh.1.cacheMapShut.Complete)))
      ↔ s.num2 = s.cacheMapShut.ones := by
  by_cases hflags : s.flag3 = 1 ∧ s.flag8 = 0
  · have hround : s.refreshRound.1 = s.tellRefresh.1.endRefresh := by
      unfold refreshRound
      rw [if_pos hflags]
    have hflag : s.tellRefresh.1.flag3 = 1 := by
      unfold tellRefresh
      split
      · exact hflags.1
      · exact hflags.1
    rw [hround, forall_prop_of_true hflags, endRefresh_counts_iff hflag, tellRefresh_counts]
  · have hround : s.refreshRound.1 = s := by
      unfold refreshRound
      rw [if_neg hflags]
    rw [hround]
    exact and_iff_left (fun hc => absurd hc hflags)

/-! ## A heartbeat

The three parts come one after the other, and each leaves the counts as far from
the marks as it found them, but for what was taken out. So a heartbeat leaves the
counters right exactly if it takes no mark along. That a wrong count is not put
right by chance is due to the look at the count: it clears the count only when it
has reached the number of the names, and the round then ends when it should not. -/

/-- **A heartbeat leaves the counters right, and ends the rounds when it should**,
exactly if what it takes off has no mark. -/
theorem Tallied.heartBeat_right_iff (h : s.Tallied) (addr : Bytes) (state : Bool) :
    (s.heartBeat addr state).1.Counts ∧ s.EndsRounds addr state
      ↔ s.TakesNoMark addr state := by
  have hround := refreshRound_counts_iff (s.afterRemoval addr state)
  have hframe := refreshRound_frame (s.afterRemoval addr state)
  have hstep : (s.heartBeat addr state).1 = (s.afterRemoval addr state).refreshRound.1 := rfl
  rw [← h.counts_afterRemoval_iff]
  constructor
  · rintro ⟨hcounts, hends⟩
    refine ⟨?_, hround.mp ⟨hstep ▸ hcounts.num2, hends.refresh⟩⟩
    have hnum := hcounts.num1
    rw [hstep, hframe] at hnum
    exact hnum
  · intro hcounts
    obtain ⟨hnum, hrefresh⟩ := hround.mpr hcounts.num2
    refine ⟨⟨?_, hnum⟩, fun hflag => (h.joinTurn hflag).ends, hrefresh⟩
    rw [hstep, hframe]
    exact hcounts.num1

theorem Tallied.heartBeat (h : s.Tallied) (hg : s.TakesNoMark addr state) :
    (s.heartBeat addr state).1.Tallied := by
  refine ⟨h.unnoted.heartBeat addr state, ((h.heartBeat_right_iff addr state).mpr hg).1, ?_⟩
  have hclosed := h.closed_afterRemoval addr state
  have hstep : (s.heartBeat addr state).1 = (s.afterRemoval addr state).refreshRound.1 := rfl
  rw [hstep, refreshRound_frame]
  exact hclosed

theorem tallied_init : init.Tallied := ⟨unnoted_init, ⟨rfl, rfl⟩, fun _ => rfl⟩

end Master

/-! ## Runs -/

namespace Registry

variable {w v : Registry} {e : Event}

/-- **An event does right by the counters**: they are right after it, and the
rounds end when they should. -/
def CountsRight (w : Registry) (e : Event) : Prop :=
  (∀ v, w.step e = some v → v.master.Counts)
    ∧ match e with
      | .heartBeat addr state => w.master.EndsRounds addr state
      | _ => True

/-- **The condition on an event**: what a heartbeat takes off has no mark. -/
def TakesNoMark (w : Registry) : Event → Prop
  | .heartBeat addr state => w.master.TakesNoMark addr state
  | _ => True

instance (w : Registry) (e : Event) : Decidable (w.TakesNoMark e) :=
  match e with
  | .heartBeat addr state => inferInstanceAs (Decidable (w.master.TakesNoMark addr state))
  | .shutdownCache _ => isTrue trivial
  | .heartstate _ => isTrue trivial

/-- **One event** that meets the condition keeps the counters right. -/
theorem tallied_step (h : w.master.Tallied) (hg : w.TakesNoMark e) (hstep : w.step e = some v) :
    v.master.Tallied := by
  cases e with
  | heartBeat addr state =>
    obtain rfl := Option.some.inj hstep
    exact h.heartBeat hg
  | shutdownCache iplist =>
    obtain rfl := Option.some.inj hstep
    exact ⟨⟨h.unnoted.shutPort, fun _ => rfl⟩, ⟨h.counts.num1, h.counts.num2⟩, h.closed⟩
  | heartstate port =>
    obtain rfl := Option.some.inj hstep
    exact ⟨⟨h.unnoted.shutPort, h.unnoted.flag2⟩, ⟨h.counts.num1, h.counts.num2⟩, h.closed⟩

/-- **An event does right by the counters** exactly if it meets the
condition. -/
theorem countsRight_iff (h : w.master.Tallied) : w.TakesNoMark e ↔ w.CountsRight e := by
  cases e with
  | heartBeat addr state =>
    refine (h.heartBeat_right_iff addr state).symm.trans (and_congr_left' ?_)
    exact ⟨fun hc v hstep => Option.some.inj hstep ▸ hc, fun hc => hc _ rfl⟩
  | shutdownCache iplist =>
    refine iff_of_true trivial ⟨fun v hstep => ?_, trivial⟩
    exact (tallied_step (e := .shutdownCache iplist) h trivial hstep).counts
  | heartstate port =>
    refine iff_of_true trivial ⟨fun v hstep => ?_, trivial⟩
    exact (tallied_step (e := .heartstate port) h trivial hstep).counts

end Registry

/-- **The counters count the marks** after every event of a run of heartbeats,
requests to shut caches down and caches found not to answer, and the rounds end
when all that are left were told and not before, exactly if no heartbeat of the
run takes a mark along. -/
theorem counts_right_iff (es : List Registry.Event) :
    Runs.Guarded Registry.step Registry.CountsRight Registry.init es
      ↔ Runs.Guarded Registry.step Registry.TakesNoMark Registry.init es :=
  (Runs.guarded_iff_guarded (fun w => w.master.Tallied) Registry.tallied_step
    Registry.countsRight_iff Master.tallied_init).symm

/-- A run that meets the condition: two caches join, and when both were told one
is shut down on request. -/
example : Runs.Guarded Registry.step Registry.TakesNoMark Registry.init
    [.heartBeat (str "127.0.0.1:8000") true, .heartBeat (str "127.0.0.1:8001") true,
      .heartBeat (str "127.0.0.1:8000") true, .shutdownCache [str "127.0.0.1:8000"],
      .heartBeat (str "127.0.0.1:8000") true, .heartBeat (str "127.0.0.1:8001") true] := by
  decide +kernel

/-- **A cache that was told leaves its mark in the count.** The second of two
caches joins, is told, and wants to be shut down before the first was told. Its
entry is taken out, and `num1` is still one. -/
theorem removed_mark_counted :
    ¬ ∀ es, Runs.Guarded Registry.step Registry.CountsRight Registry.init es := by
  intro h
  obtain ⟨-, hfirst⟩ := h [.heartBeat (str "127.0.0.1:8000") true,
    .heartBeat (str "127.0.0.1:8001") true, .heartBeat (str "127.0.0.1:8001") false]
  obtain ⟨-, hsecond⟩ := hfirst _ rfl
  have hthird := (hsecond _ rfl).1.1 _ rfl
  exact absurd hthird.num1 (by decide +kernel)

end Dcs
