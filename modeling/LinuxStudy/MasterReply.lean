import LinuxStudy.MasterRemoval

/-!
# What a removed cache is told

A cache that is removed on request is told so at once: `refreship` is called
in the removal branch, after a comment that says a command to shut down is
sent. But `refreship` works out the command from the flags, and looks at two
of them before it looks at the one that says that a cache is to be shut down:
`flag4`, which every removal raises and only an unknown port lowers, and
`flag1`, which is up while a join is announced. So the second cache a user
has shut down is told to refresh its list (`second_removed_told_refresh`).

Both flags can be read off the state before the heartbeat, by what the
heartbeat does before the removal branch: whether it registers its sender
(`Registers`), and whether a join is then still to be announced
(`JoinPending`). `told_to_shut_iff` says that along a run every removed cache
is told to shut down exactly if, whenever a heartbeat is taken for one of a
cache to be shut down, neither flag is up.
-/

namespace Dcs

namespace Master

variable {s t : Master} {addr : Bytes} {state : Bool}

/-- The ip of an address. -/
def ipOf (addr : Bytes) : Bytes := (cutAddress addr).1

/-! ## Whether the sender is registered -/

/-- An unknown port that is a new cache: the branch of the source that
registers it is taken. -/
def NewCache (s : Master) : Prop :=
  atoi s.heartPort ∉ s.portList ∧ s.checkReconnect.flag4 = 0

instance (s : Master) : Decidable s.NewCache := inferInstanceAs (Decidable (_ ∧ _))

/-- **The heartbeat registers its sender**, by the state before it: the port
is unknown, and the test for a reconnection does not hold it back. -/
def Registers (s : Master) (addr : Bytes) : Prop :=
  atoi (portOf addr) ∉ s.portList
    ∧ (s.num5 < s.num7 → portOf addr ∉ s.shutPortNow ∧ s.flag4 = 0)

instance (s : Master) (addr : Bytes) : Decidable (s.Registers addr) :=
  inferInstanceAs (Decidable (_ ∧ _))

/-- When the test for a reconnection lets a port pass. -/
theorem flag4_checkReconnect_eq_zero_iff (s : Master) :
    s.checkReconnect.flag4 = 0
      ↔ (s.num5 < s.num7 → s.heartPort ∉ s.shutPortNow ∧ s.flag4 = 0) := by
  unfold checkReconnect
  by_cases hcount : s.num5 < s.num7
  · rw [if_pos hcount]
    show (if s.heartPort ∈ s.shutPortNow then 1 else s.flag4) = 0 ↔ _
    by_cases hnamed : s.heartPort ∈ s.shutPortNow
    · simp [hcount, hnamed]
    · simp [hcount, hnamed]
  · rw [if_neg hcount]
    exact iff_of_true rfl (fun hc => absurd hc hcount)

/-- **The sender is registered exactly if it looked so before.** -/
theorem newCache_markShut_iff :
    ((s.beat addr).markShut state).NewCache ↔ s.Registers addr := by
  unfold NewCache
  rw [flag4_checkReconnect_eq_zero_iff, markShut_frame]
  exact Iff.rfl

theorem register_of_newCache (h : s.NewCache) (addr : Bytes) :
    s.register addr = s.checkReconnect.addNew addr := by
  unfold register switchFlag4
  rw [if_neg h.1, if_pos h.2]

theorem register_frame_of_not_newCache (h : ¬ s.NewCache) (addr : Bytes) :
    s.register addr = { s with
      flag4 := (s.register addr).flag4
      num5 := (s.register addr).num5 } := by
  unfold register
  split
  · rfl
  · next hunknown =>
    have hheld : s.checkReconnect.flag4 ≠ 0 := fun hc => h ⟨hunknown, hc⟩
    unfold switchFlag4
    rw [if_neg hheld, checkReconnect_frame]
    split <;> rfl

/-! ## The flags before the removal branch

`refreship` sends the list and a type, and the type depends on three flags in the
order in which it looks at them. When it is called in the removal branch it should
say that the cache is to shut down. Whether it does depends on `flag4` and `flag1`
at that moment, both of which may have been changed by the same heartbeat. Here
they are traced back to the state before it: `flag4` is up if it was, and if the
heartbeat has not set it back; `flag1` is up if a join was being announced, or was
started by this heartbeat, and its announcement is not over with it. -/

/-- After a registration `flag4` is up only if it was, and the port known. -/
theorem flag4_register_eq_one_iff (s : Master) (addr : Bytes) :
    (s.register addr).flag4 = 1 ↔ atoi s.heartPort ∈ s.portList ∧ s.flag4 = 1 := by
  unfold register
  by_cases hknown : atoi s.heartPort ∈ s.portList
  · rw [if_pos hknown]
    exact (and_iff_right hknown).symm
  · rw [if_neg hknown]
    refine iff_of_false ?_ (fun hc => hknown hc.1)
    unfold switchFlag4
    by_cases hzero : s.checkReconnect.flag4 = 0
    · rw [if_pos hzero]
      show s.checkReconnect.flag4 ≠ 1
      rw [hzero]
      exact zero_ne_one
    · rw [if_neg hzero]
      by_cases hone : s.checkReconnect.flag4 = 1
      · rw [if_pos hone]
        exact zero_ne_one
      · rw [if_neg hone]
        exact hone

/-- **`flag4` before the removal branch.** -/
theorem flag4_beforeRemoval_eq_one_iff :
    (s.beforeRemoval addr state).flag4 = 1
      ↔ atoi (portOf addr) ∈ s.portList ∧ s.flag4 = 1 := by
  unfold beforeRemoval
  rw [joinRound_frame]
  show (((s.beat addr).markShut state).register addr).flag4 = 1 ↔ _
  rw [flag4_register_eq_one_iff, markShut_frame]
  exact Iff.rfl

/-- The marks of `cachemap` once the sender is registered, if it is. -/
def joinMarks (s : Master) (addr : Bytes) : Marks Bytes :=
  if s.Registers addr then s.cacheMap.emplace (portOf addr) 0 else s.cacheMap

/-- **A join is still to be announced when the sender was told**, by the state
before its heartbeat: a join was being announced or the sender is one, and
with the sender, if it was not told yet, not as many were told as there are
marks. -/
def JoinPending (s : Master) (addr : Bytes) : Prop :=
  (s.flag1 = 1 ∨ s.Registers addr)
    ∧ s.num1 + (if (s.joinMarks addr).lookup (portOf addr) = some 0 then 1 else 0)
      ≠ (s.joinMarks addr).size

instance (s : Master) (addr : Bytes) : Decidable (s.JoinPending addr) :=
  inferInstanceAs (Decidable (_ ∧ _))

/-- After a round of the announcement of a join, whether it goes on. -/
theorem flag1_joinRound_eq_one_iff (s : Master) :
    s.joinRound.1.flag1 = 1 ↔ s.flag1 = 1
      ∧ s.num1 + (if s.cacheMap.lookup s.heartPort = some 0 then 1 else 0)
        ≠ s.cacheMap.size := by
  have hend : ∀ t : Master, t.flag1 = 1 → (t.endJoin.flag1 = 1 ↔ t.num1 ≠ t.cacheMap.size) := by
    intro t ht
    unfold endJoin
    split
    next hall => exact iff_of_false zero_ne_one (fun hc => hc hall)
    next hall => exact iff_of_true ht hall
  unfold joinRound
  by_cases hflag : s.flag1 = 1
  · rw [if_pos hflag, and_iff_right hflag]
    by_cases hmark : s.cacheMap.lookup s.heartPort = some 0
    · have htell : s.forgetNamed.tellJoin
          = (s.forgetNamed.markJoin, [s.forgetNamed.markJoin.refreship]) := if_pos hmark
      rw [htell, if_pos hmark]
      show s.forgetNamed.markJoin.endJoin.flag1 = 1 ↔ _
      rw [hend s.forgetNamed.markJoin hflag]
      show s.num1 + 1 ≠ Marks.size (s.cacheMap.insert s.heartPort 1) ↔ _
      rw [(Marks.ones_insert_one hmark).2]
    · have htell : s.forgetNamed.tellJoin = (s.forgetNamed, []) := if_neg hmark
      rw [htell, if_neg hmark]
      exact hend s.forgetNamed hflag
  · rw [if_neg hflag]
    exact iff_of_false hflag (fun hc => hflag hc.1)

/-- What the announcement of a join finds when the sender is registered, if it
is. -/
theorem register_joins (s : Master) (addr : Bytes) (state : Bool) :
    ((((s.beat addr).markShut state).register addr).flag1 = 1
        ↔ s.flag1 = 1 ∨ s.Registers addr)
      ∧ (((s.beat addr).markShut state).register addr).num1 = s.num1
      ∧ (((s.beat addr).markShut state).register addr).heartPort = portOf addr
      ∧ (((s.beat addr).markShut state).register addr).cacheMap = s.joinMarks addr := by
  unfold joinMarks
  by_cases hnew : s.Registers addr
  · rw [register_of_newCache (newCache_markShut_iff.mpr hnew), if_pos hnew,
      checkReconnect_frame, markShut_frame]
    exact ⟨iff_of_true rfl (Or.inr hnew), rfl, rfl, rfl⟩
  · rw [register_frame_of_not_newCache (fun hc => hnew (newCache_markShut_iff.mp hc)),
      if_neg hnew, markShut_frame]
    exact ⟨(or_iff_left hnew).symm, rfl, rfl, rfl⟩

/-- **`flag1` before the removal branch.** -/
theorem flag1_beforeRemoval_eq_one_iff :
    (s.beforeRemoval addr state).flag1 = 1 ↔ s.JoinPending addr := by
  obtain ⟨hflag, hnum, hheart, hmarks⟩ := register_joins s addr state
  unfold beforeRemoval JoinPending
  rw [flag1_joinRound_eq_one_iff, hflag, hnum, hheart, hmarks]

/-! ## What the removed sender is told -/

theorem type_refreship_eq_iff (h : s.flag2 = 1) :
    s.refreship.type = some .shutdownCache ↔ s.flag4 ≠ 1 ∧ s.flag1 ≠ 1 := by
  unfold refreship
  dsimp only
  by_cases hfour : s.flag4 = 1
  · simp [hfour]
  · by_cases hone : s.flag1 = 1
    · simp [hfour, hone]
    · simp [hfour, hone, h]

/-- **A sender that is removed is told to shut down.** -/
def ToldToShut (s : Master) : MasterMessage → Prop
  | .heartBeat addr state => (s.beforeRemoval addr state).Removes →
      ((s.beforeRemoval addr state).remove addr).2.map Reply.type = [some .shutdownCache]
  | _ => True

instance (s : Master) (m : MasterMessage) : Decidable (s.ToldToShut m) :=
  match m with
  | .heartBeat _ _ => inferInstanceAs (Decidable (_ → _))
  | .shutdownCache _ => isTrue trivial
  | .distributionRequest => isTrue trivial
  | .spareMaster _ _ => isTrue trivial

/-- **The condition on a message**: where a heartbeat is taken for one of a
cache to be shut down, `flag4` is not up while its port is known, and no join
is still to be announced. -/
def Unhindered (s : Master) : MasterMessage → Prop
  | .heartBeat addr state => s.Taken addr state →
      ¬ (atoi (portOf addr) ∈ s.portList ∧ s.flag4 = 1) ∧ ¬ s.JoinPending addr
  | _ => True

instance (s : Master) (m : MasterMessage) : Decidable (s.Unhindered m) :=
  match m with
  | .heartBeat _ _ => inferInstanceAs (Decidable (_ → _))
  | .shutdownCache _ => isTrue trivial
  | .distributionRequest => isTrue trivial
  | .spareMaster _ _ => isTrue trivial

/-- One message: a heartbeat or a request to shut caches down. -/
def step (s : Master) : MasterMessage → Option Master
  | .heartBeat addr state => some (s.masterhandler (.heartBeat addr state)).1
  | .shutdownCache iplist => some (s.masterhandler (.shutdownCache iplist)).1
  | .distributionRequest => none
  | .spareMaster _ _ => none

theorem unnoted_init : init.Unnoted := ⟨rfl, fun h => absurd h (by decide)⟩

/-- After every message nobody is noted. -/
theorem Unnoted.step {m : MasterMessage} (h : s.Unnoted) (hstep : s.step m = some t) :
    t.Unnoted := by
  cases m with
  | heartBeat addr state =>
    obtain rfl : (s.heartBeat addr state).1 = t := Option.some.inj hstep
    exact h.heartBeat addr state
  | shutdownCache iplist =>
    obtain rfl : s.shutdownCache iplist = t := Option.some.inj hstep
    exact ⟨h.shutPort, fun _ => rfl⟩
  | distributionRequest => exact absurd hstep (by simp [Master.step])
  | spareMaster ip iplist => exact absurd hstep (by simp [Master.step])

/-- **One message.** -/
theorem Unnoted.toldToShut_iff {m : MasterMessage} (h : s.Unnoted) :
    s.ToldToShut m ↔ s.Unhindered m := by
  cases m with
  | heartBeat addr state =>
    refine imp_congr_ctx h.removes_iff (fun ht => ?_)
    have hr := h.removes_iff.mpr ht
    unfold remove
    rw [if_pos hr, List.map_cons, List.map_nil, List.cons.injEq, and_iff_left rfl,
      type_refreship_eq_iff (s := (s.beforeRemoval addr state).eraseSender addr) hr.2]
    -- the flags are those before the sender was taken off the lists
    show (s.beforeRemoval addr state).flag4 ≠ 1 ∧ (s.beforeRemoval addr state).flag1 ≠ 1 ↔ _
    rw [Ne, Ne, flag4_beforeRemoval_eq_one_iff, flag1_beforeRemoval_eq_one_iff]
  | shutdownCache iplist => exact Iff.rfl
  | distributionRequest => exact Iff.rfl
  | spareMaster ip iplist => exact Iff.rfl

end Master

open Master in
/-- **A cache removed on request is told to shut down**, every time in a run
of heartbeats and requests from the start, exactly if every heartbeat of the
run meets the condition. -/
theorem told_to_shut_iff (es : List MasterMessage) :
    Runs.Guarded Master.step ToldToShut Master.init es
      ↔ Runs.Guarded Master.step Unhindered Master.init es :=
  Runs.guarded_congr Unnoted Unnoted.step Unnoted.toldToShut_iff unnoted_init

/-- A run with a removal that meets the condition. -/
example : Runs.Guarded Master.step Master.Unhindered Master.init
    [.heartBeat (str "127.0.0.1:8000") true, .heartBeat (str "127.0.0.1:8001") true,
      .heartBeat (str "127.0.0.1:8000") true, .shutdownCache [str "127.0.0.1:8000"],
      .heartBeat (str "127.0.0.1:8000") true] := by
  decide +kernel

/-- **The second cache removed is told to refresh its list.** Two caches join,
a user has one of them shut down and then the other: at the second removal
`flag4` is still up from the first. -/
theorem second_removed_told_refresh :
    ¬ ∀ es, Runs.Guarded Master.step Master.ToldToShut Master.init es := by
  intro h
  have hrun := h [.heartBeat (str "127.0.0.1:8000") true,
    .heartBeat (str "127.0.0.1:8001") true, .heartBeat (str "127.0.0.1:8000") true,
    .shutdownCache [str "127.0.0.1:8000"], .heartBeat (str "127.0.0.1:8000") true,
    .shutdownCache [str "127.0.0.1:8001"], .heartBeat (str "127.0.0.1:8001") true]
  exact absurd hrun (by decide +kernel)

end Dcs
