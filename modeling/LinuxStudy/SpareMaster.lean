import LinuxStudy.MasterReply

/-!
# The spare master

The spare master is a program of its own. As long as the first master lives
it only takes down the list the first one sends it; once `flag7` is up it
handles the messages of the caches itself, with a copy of the handler of the
first. The copy differs in two places:

* `refreship` looks at `flag1` before `flag4`, where the first master looks at
  `flag4` first. While a join and a removal are both being announced, the one
  tells a cache of the join and the other of the removal.
* The heartbeat of an unknown port is taken for a reconnection while `num5`
  is below `num4`, the number of caches a user named, where the first master
  compares with `num7`, which is `20` after a removal.

The definitions below have the names of `Master` and stand for the functions
of the copy; what is the same text is the definition of `Master`.

`heartBeat_eq_iff` says that a heartbeat does the same in both, exactly when
neither place shows; and `spare_eq_primary` that the two send the same
commands and keep the same lists along every run in which none of its
heartbeats reaches one of the two. In between, `lockstep_iff` says that no
other run keeps all globals and commands the same.
-/

namespace Dcs

open Master

/-- The globals of the spare master. -/
structure SpareMaster where
  globals : Master
  /-- The first master is gone. -/
  flag7 : ℕ

namespace SpareMaster

/-! ## The copy

The copy differs in two places. `refreship` looks at `flag1` and `flag4` in the
other order, and the test for a reconnection has another bound. Everything else is
shared with the first master here, the parts of a heartbeat that use neither as
they are, and the others with the functions of the copy in their place. -/

/-- `refreship`. -/
def refreship (s : Master) : Reply where
  type :=
    if s.flag1 = 1 then some .addCache
    else if s.flag4 = 1 then some .refleshIp
    else if s.flag2 = 1 then some .shutdownCache
    else if s.flag3 = 1 then some .refleshIp
    else none
  iplist := s.ipPortList

/-- Whether an unknown port is a new cache. -/
def checkReconnect (s : Master) : Master :=
  if s.num5 < s.num4 then
    { s with
      flag4 := if s.heartPort ∈ s.shutPortNow then 1 else s.flag4
      num5 := s.num5 + 1 }
  else { s with flag4 := 0, num5 := 0 }

/-- A port that is not known is registered. -/
def register (s : Master) (addr : Bytes) : Master :=
  if atoi s.heartPort ∈ s.portList then s else (checkReconnect s).switchFlag4 addr

/-- The sender is told of a join if it was not told yet. -/
def tellJoin (s : Master) : Master × List Reply :=
  if s.cacheMap.lookup s.heartPort = some 0 then (s.markJoin, [refreship s.markJoin])
  else (s, [])

/-- The announcement of a join. -/
def joinRound (s : Master) : Master × List Reply :=
  if s.flag1 = 1 then ((tellJoin s.forgetNamed).1.endJoin, (tellJoin s.forgetNamed).2)
  else (s, [])

/-- The removal of the sender, or of a cache that has gone silent. -/
def remove (s : Master) (addr : Bytes) : Master × List Reply :=
  if s.Removes then
    ((s.eraseSender addr).countRemoval.endRemoval, [refreship (s.eraseSender addr)])
  else if s.flag6 = 1 then (s.eraseSilent, [])
  else (s, [])

/-- The sender is told of a removal if it was not told yet. -/
def tellRefresh (s : Master) : Master × List Reply :=
  if s.cacheMapShut.lookup s.heartPort = some 0 then (s.markRefresh, [refreship s.markRefresh])
  else (s, [])

/-- The announcement of a removal. -/
def refreshRound (s : Master) : Master × List Reply :=
  if s.flag3 = 1 ∧ s.flag8 = 0 then ((tellRefresh s).1.endRefresh, (tellRefresh s).2)
  else (s, [])

/-- `masterhandler` on a heartbeat. -/
def heartBeat (s : Master) (addr : Bytes) (state : Bool) : Master × List Reply :=
  let joined := joinRound (register ((s.beat addr).markShut state) addr)
  let removed := remove joined.1 addr
  let refreshed := refreshRound removed.1
  (refreshed.1, joined.2 ++ removed.2 ++ refreshed.2)

/-- **`masterhandler` of the spare master.** Before `flag7` is up only the
first master is heard, and from then on it is not. -/
def masterhandler (s : SpareMaster) : MasterMessage → SpareMaster × List Reply
  | .spareMaster ip iplist =>
    if s.flag7 = 0 then ({ s with globals := s.globals.spareMaster ip iplist }, []) else (s, [])
  | .distributionRequest =>
    if s.flag7 = 1 then (s, [⟨some .distributionRespond, s.globals.ipPortList⟩]) else (s, [])
  | .shutdownCache iplist =>
    if s.flag7 = 1 then ({ s with globals := s.globals.shutdownCache iplist }, []) else (s, [])
  | .heartBeat iplist state =>
    if s.flag7 = 1 then
      let r := heartBeat s.globals iplist state
      ({ s with globals := r.1 }, r.2)
    else (s, [])

/-! ## Where the copy differs

What is sent to a sender is different exactly if both flags are up when something
is sent. For a sender that is not known the test for a reconnection has two
outcomes exactly if `num5` is between the two bounds. -/

variable {s t : Master} {addr : Bytes} {state : Bool}

/-- A join and a removal are both being announced, as far as `refreship`
looks. -/
def BothUp (s : Master) : Prop := s.flag1 = 1 ∧ s.flag4 = 1

instance (s : Master) : Decidable (BothUp s) := inferInstanceAs (Decidable (_ ∧ _))

/-- **The order in `refreship` shows** exactly when both flags are up. -/
theorem refreship_eq_iff : refreship s = s.refreship ↔ ¬ BothUp s := by
  unfold refreship Master.refreship BothUp
  rw [Reply.mk.injEq, and_iff_left rfl]
  by_cases h₁ : s.flag1 = 1
  · by_cases h₄ : s.flag4 = 1
    · simp [h₁, h₄]
    · simp [h₁, h₄]
  · simp [h₁]

theorem bothUp_markJoin (s : Master) : BothUp s.forgetNamed.markJoin ↔ BothUp s := Iff.rfl

theorem bothUp_eraseSender (s : Master) (addr : Bytes) :
    BothUp (s.eraseSender addr) ↔ BothUp s := Iff.rfl

theorem bothUp_markRefresh (s : Master) : BothUp s.markRefresh ↔ BothUp s := Iff.rfl

/-- The two bounds of `num5` say the same of an unknown port. -/
def SameBound (s : Master) (port : Bytes) : Prop :=
  atoi port ∉ s.portList → (s.num5 < s.num7 ↔ s.num5 < s.num4)

instance (s : Master) (port : Bytes) : Decidable (SameBound s port) :=
  inferInstanceAs (Decidable (_ → _))

theorem num5_switchFlag4 (s : Master) (addr : Bytes) : (s.switchFlag4 addr).num5 = s.num5 := by
  unfold switchFlag4
  split
  · rfl
  · split <;> rfl

/-- What a registration does to `num5`. -/
theorem num5_register (s : Master) (addr : Bytes) :
    (s.register addr).num5
      = if atoi s.heartPort ∈ s.portList then s.num5
        else if s.num5 < s.num7 then s.num5 + 1 else 0 := by
  unfold Master.register
  split
  · rfl
  · rw [num5_switchFlag4]
    unfold Master.checkReconnect
    split <;> rfl

/-- The same of the copy. -/
theorem num5_register_spare (s : Master) (addr : Bytes) :
    (register s addr).num5
      = if atoi s.heartPort ∈ s.portList then s.num5
        else if s.num5 < s.num4 then s.num5 + 1 else 0 := by
  unfold register
  split
  · rfl
  · rw [num5_switchFlag4]
    unfold checkReconnect
    split <;> rfl

/-- Where the bounds say the same, a registration does the same. -/
theorem register_eq (h : SameBound s s.heartPort) (addr : Bytes) :
    register s addr = s.register addr := by
  unfold register Master.register
  split
  · rfl
  · next hnew =>
    have hcheck : checkReconnect s = s.checkReconnect := by
      unfold checkReconnect Master.checkReconnect
      simp only [h hnew]
    rw [hcheck]

/-- **The bound shows in `num5`**, and only if the bounds do not say the
same. -/
theorem num5_register_eq_iff :
    (register s addr).num5 = (s.register addr).num5 ↔ SameBound s s.heartPort := by
  rw [num5_register, num5_register_spare]
  unfold SameBound
  by_cases hknown : atoi s.heartPort ∈ s.portList
  · simp [hknown]
  · rw [if_neg hknown, if_neg hknown]
    by_cases h₇ : s.num5 < s.num7
    · by_cases h₄ : s.num5 < s.num4
      · simp [h₇, h₄]
      · simp [h₇, h₄, hknown]
    · by_cases h₄ : s.num5 < s.num4
      · simp [h₇, h₄, hknown]
      · simp [h₇, h₄]

/-! ## The rounds of a heartbeat -/

/-- The sender is told of a join in this heartbeat. -/
def TellsJoin (s : Master) : Prop :=
  s.flag1 = 1 ∧ s.cacheMap.lookup s.heartPort = some 0

instance (s : Master) : Decidable (TellsJoin s) := inferInstanceAs (Decidable (_ ∧ _))

/-- The sender is told of a removal in this heartbeat. -/
def TellsRefresh (s : Master) : Prop :=
  (s.flag3 = 1 ∧ s.flag8 = 0) ∧ s.cacheMapShut.lookup s.heartPort = some 0

instance (s : Master) : Decidable (TellsRefresh s) := inferInstanceAs (Decidable (_ ∧ _))

/-- **The announcement of a join** leaves `num5` as it is, the copy does the
same to the globals, and what is sent is told by `refreship`. -/
theorem joinRound_spec (s : Master) :
    (joinRound s).1 = s.joinRound.1 ∧ s.joinRound.1.num5 = s.num5
      ∧ s.joinRound.2 = (if TellsJoin s then [s.forgetNamed.markJoin.refreship] else [])
      ∧ (joinRound s).2 = (if TellsJoin s then [refreship s.forgetNamed.markJoin] else []) := by
  have hend : ∀ u : Master, u.endJoin.num5 = u.num5 := by
    intro u
    unfold endJoin
    split <;> rfl
  unfold joinRound Master.joinRound
  by_cases h₁ : s.flag1 = 1
  · rw [if_pos h₁, if_pos h₁]
    by_cases hmark : s.cacheMap.lookup s.heartPort = some 0
    · have htell : s.forgetNamed.tellJoin
          = (s.forgetNamed.markJoin, [s.forgetNamed.markJoin.refreship]) := if_pos hmark
      have hspare : tellJoin s.forgetNamed
          = (s.forgetNamed.markJoin, [refreship s.forgetNamed.markJoin]) := if_pos hmark
      rw [htell, hspare, if_pos ⟨h₁, hmark⟩, if_pos ⟨h₁, hmark⟩]
      exact ⟨rfl, hend _, rfl, rfl⟩
    · have htell : s.forgetNamed.tellJoin = (s.forgetNamed, []) := if_neg hmark
      have hspare : tellJoin s.forgetNamed = (s.forgetNamed, []) := if_neg hmark
      have hno : ¬ TellsJoin s := fun hc => hmark hc.2
      rw [htell, hspare, if_neg hno, if_neg hno]
      exact ⟨rfl, hend _, rfl, rfl⟩
  · have hno : ¬ TellsJoin s := fun hc => h₁ hc.1
    rw [if_neg h₁, if_neg h₁, if_neg hno, if_neg hno]
    exact ⟨rfl, rfl, rfl, rfl⟩

/-- **The removal** leaves `num5` as it is, the copy does the same to the
globals, and what is sent is told by `refreship`. -/
theorem remove_spec (s : Master) (addr : Bytes) :
    (remove s addr).1 = (s.remove addr).1 ∧ (s.remove addr).1.num5 = s.num5
      ∧ (s.remove addr).2 = (if s.Removes then [(s.eraseSender addr).refreship] else [])
      ∧ (remove s addr).2 = (if s.Removes then [refreship (s.eraseSender addr)] else []) := by
  have hend : ∀ u : Master, u.endRemoval.num5 = u.num5 := by
    intro u
    unfold endRemoval
    split <;> rfl
  unfold remove Master.remove
  by_cases hr : s.Removes
  · rw [if_pos hr, if_pos hr, if_pos hr, if_pos hr]
    exact ⟨rfl, hend _, rfl, rfl⟩
  · rw [if_neg hr, if_neg hr, if_neg hr, if_neg hr]
    split
    · exact ⟨rfl, rfl, rfl, rfl⟩
    · exact ⟨rfl, rfl, rfl, rfl⟩

/-- **The announcement of a removal** leaves `num5` as it is, the copy does
the same to the globals, and what is sent is told by `refreship`. -/
theorem refreshRound_spec (s : Master) :
    (refreshRound s).1 = s.refreshRound.1 ∧ s.refreshRound.1.num5 = s.num5
      ∧ s.refreshRound.2 = (if TellsRefresh s then [s.markRefresh.refreship] else [])
      ∧ (refreshRound s).2 = (if TellsRefresh s then [refreship s.markRefresh] else []) := by
  have hend : ∀ u : Master, u.endRefresh.num5 = u.num5 := by
    intro u
    unfold endRefresh
    split <;> rfl
  unfold refreshRound Master.refreshRound
  by_cases h₃ : s.flag3 = 1 ∧ s.flag8 = 0
  · rw [if_pos h₃, if_pos h₃]
    by_cases hmark : s.cacheMapShut.lookup s.heartPort = some 0
    · have htell : s.tellRefresh = (s.markRefresh, [s.markRefresh.refreship]) := if_pos hmark
      have hspare : tellRefresh s = (s.markRefresh, [refreship s.markRefresh]) := if_pos hmark
      rw [htell, hspare, if_pos ⟨h₃, hmark⟩, if_pos ⟨h₃, hmark⟩]
      exact ⟨rfl, hend _, rfl, rfl⟩
    · have htell : s.tellRefresh = (s, []) := if_neg hmark
      have hspare : tellRefresh s = (s, []) := if_neg hmark
      have hno : ¬ TellsRefresh s := fun hc => hmark hc.2
      rw [htell, hspare, if_neg hno, if_neg hno]
      exact ⟨rfl, hend _, rfl, rfl⟩
  · have hno : ¬ TellsRefresh s := fun hc => h₃ hc.1
    rw [if_neg h₃, if_neg h₃, if_neg hno, if_neg hno]
    exact ⟨rfl, rfl, rfl, rfl⟩

/-! ## A heartbeat in both -/

/-- The globals when the sender has been registered. -/
def registered (s : Master) (addr : Bytes) (state : Bool) : Master :=
  ((s.beat addr).markShut state).register addr

/-- The globals when the sender has been removed, if it is. -/
def removed (s : Master) (addr : Bytes) (state : Bool) : Master :=
  ((s.beforeRemoval addr state).remove addr).1

theorem sameBound_markShut (s : Master) (addr : Bytes) (state : Bool) :
    SameBound ((s.beat addr).markShut state) ((s.beat addr).markShut state).heartPort
      ↔ SameBound s (portOf addr) := by
  rw [markShut_frame]
  rfl

theorem append_replies_eq_iff {p q r : Prop} [Decidable p] [Decidable q] [Decidable r]
    {a a' b b' c c' : Reply} :
    (if p then [a] else []) ++ (if q then [b] else []) ++ (if r then [c] else [])
        = (if p then [a'] else []) ++ (if q then [b'] else []) ++ (if r then [c'] else [])
      ↔ (p → a = a') ∧ (q → b = b') ∧ (r → c = c') := by
  by_cases hp : p <;> by_cases hq : q <;> by_cases hr : r <;> simp [hp, hq, hr]

theorem num5_heartBeat (s : Master) (addr : Bytes) (state : Bool) :
    (s.heartBeat addr state).1.num5 = (registered s addr state).num5 := by
  show (removed s addr state).refreshRound.1.num5 = _
  rw [(refreshRound_spec _).2.1]
  show ((s.beforeRemoval addr state).remove addr).1.num5 = _
  rw [(remove_spec _ addr).2.1]
  exact (joinRound_spec _).2.1

theorem num5_heartBeat_spare (s : Master) (addr : Bytes) (state : Bool) :
    (heartBeat s addr state).1.num5
      = (register ((s.beat addr).markShut state) addr).num5 := by
  unfold heartBeat
  dsimp only
  rw [(refreshRound_spec _).1, (refreshRound_spec _).2.1, (remove_spec _ addr).1,
    (remove_spec _ addr).2.1, (joinRound_spec _).1, (joinRound_spec _).2.1]

/-- What a heartbeat does in the first master, round by round. -/
theorem heartBeat_primary (s : Master) (addr : Bytes) (state : Bool) :
    s.heartBeat addr state = ((removed s addr state).refreshRound.1,
      (if TellsJoin (registered s addr state)
        then [(registered s addr state).forgetNamed.markJoin.refreship] else [])
      ++ (if (s.beforeRemoval addr state).Removes
        then [((s.beforeRemoval addr state).eraseSender addr).refreship] else [])
      ++ (if TellsRefresh (removed s addr state)
        then [(removed s addr state).markRefresh.refreship] else [])) := by
  rw [← (joinRound_spec (registered s addr state)).2.2.1,
    ← (remove_spec (s.beforeRemoval addr state) addr).2.2.1,
    ← (refreshRound_spec (removed s addr state)).2.2.1]
  rfl

/-- What a heartbeat does in the copy, where the bounds say the same. -/
theorem heartBeat_spare (h : SameBound s (portOf addr)) (state : Bool) :
    heartBeat s addr state = ((removed s addr state).refreshRound.1,
      (if TellsJoin (registered s addr state)
        then [refreship (registered s addr state).forgetNamed.markJoin] else [])
      ++ (if (s.beforeRemoval addr state).Removes
        then [refreship ((s.beforeRemoval addr state).eraseSender addr)] else [])
      ++ (if TellsRefresh (removed s addr state)
        then [refreship (removed s addr state).markRefresh] else [])) := by
  have hregister : register ((s.beat addr).markShut state) addr = registered s addr state :=
    register_eq ((sameBound_markShut s addr state).mpr h) addr
  have hjoined : (joinRound (registered s addr state)).1 = s.beforeRemoval addr state :=
    (joinRound_spec _).1
  have hremoved : (remove (s.beforeRemoval addr state) addr).1 = removed s addr state :=
    (remove_spec _ addr).1
  rw [← (joinRound_spec (registered s addr state)).2.2.2,
    ← (remove_spec (s.beforeRemoval addr state) addr).2.2.2,
    ← (refreshRound_spec (removed s addr state)).2.2.2, ← (refreshRound_spec _).1]
  unfold heartBeat
  dsimp only
  rw [hregister, hjoined, hremoved]

/-- A heartbeat does the same in both masters exactly when neither place shows in
one of its rounds. -/
theorem heartBeat_eq_iff_rounds :
    heartBeat s addr state = s.heartBeat addr state
      ↔ SameBound s (portOf addr)
        ∧ (TellsJoin (registered s addr state) → ¬ BothUp (registered s addr state))
        ∧ ((s.beforeRemoval addr state).Removes → ¬ BothUp (s.beforeRemoval addr state))
        ∧ (TellsRefresh (removed s addr state) → ¬ BothUp (removed s addr state)) := by
  have hreplies (hbound : SameBound s (portOf addr)) :
      heartBeat s addr state = s.heartBeat addr state
        ↔ (TellsJoin (registered s addr state) → ¬ BothUp (registered s addr state))
          ∧ ((s.beforeRemoval addr state).Removes → ¬ BothUp (s.beforeRemoval addr state))
          ∧ (TellsRefresh (removed s addr state) → ¬ BothUp (removed s addr state)) := by
    rw [heartBeat_spare hbound state, heartBeat_primary s addr state, Prod.mk.injEq,
      and_iff_right rfl, append_replies_eq_iff, refreship_eq_iff, refreship_eq_iff,
      refreship_eq_iff, bothUp_markJoin, bothUp_eraseSender, bothUp_markRefresh]
  refine ⟨fun h => ?_, fun h => (hreplies h.1).mpr h.2⟩
  -- the bound is read off `num5`, which no later round touches
  have hbound : SameBound s (portOf addr) := by
    have hnum5 : (heartBeat s addr state).1.num5 = (s.heartBeat addr state).1.num5 := by
      rw [h]
    rw [num5_heartBeat_spare, num5_heartBeat] at hnum5
    exact (sameBound_markShut s addr state).mp (num5_register_eq_iff.mp hnum5)
  exact ⟨hbound, (hreplies hbound).mp h⟩

/-! ## What shows, by the state before a heartbeat

A heartbeat may send its sender three messages, and before each of them something
may have been done to the flags. So whether both are up is asked at three moments
within `masterhandler`, and here each of them is answered from the state in which
the heartbeat came in: from the flags and marks there, whether the port is known,
and whether the sender is one that will be removed. -/

/-- The port of the sender is on the list. -/
def Known (s : Master) (addr : Bytes) : Prop := atoi (portOf addr) ∈ s.portList

instance (s : Master) (addr : Bytes) : Decidable (Known s addr) :=
  inferInstanceAs (Decidable (_ ∈ _))

/-- **The heartbeat removes its sender**: the sender wants to be shut down, or is
the one that is noted, or one that a user named. -/
def RemovesSender (s : Master) (addr : Bytes) (state : Bool) : Prop :=
  state = false ∨ s.flag5 = 2
    ∨ s.flag2 = 1 ∧ (s.shutPort = portOf addr ∨ s.flag5 = 1 ∧ portOf addr ∈ s.shutPortNow)

instance (s : Master) (addr : Bytes) (state : Bool) : Decidable (RemovesSender s addr state) :=
  inferInstanceAs (Decidable (_ ∨ _))

/-- The marks of `cachemapshut` once the sender is registered, if it is. -/
def shutMarks (s : Master) (addr : Bytes) : Marks Bytes :=
  if s.Registers addr then s.cacheMapShut.emplace (portOf addr) 0 else s.cacheMapShut

/-- **The heartbeat tells its sender of a removal while `flag4` is up**, if it does
not remove the sender. The removal of a cache that has gone silent raises `flag3`
and `flag4`. -/
def RefreshShows (s : Master) (addr : Bytes) : Prop :=
  if s.flag6 = 1 then
    portOf addr ≠ s.psShutPort ∧ (shutMarks s addr).lookup (portOf addr) = some 0
  else Known s addr ∧ s.flag4 = 1 ∧ s.flag3 = 1 ∧ s.flag8 = 0
    ∧ s.cacheMapShut.lookup (portOf addr) = some 0

instance (s : Master) (addr : Bytes) : Decidable (RefreshShows s addr) :=
  inferInstanceAs (Decidable (ite _ _ _))

/-- **Neither place shows in a heartbeat**, by the state before it: the two
bounds say the same if the port is unknown, and at each place where a command is
sent, `flag1` and `flag4` are not both up. -/
structure Agrees (s : Master) (addr : Bytes) (state : Bool) : Prop where
  bound : SameBound s (portOf addr)
  join : Known s addr → s.flag4 = 1 → s.flag1 = 1 →
    s.cacheMap.lookup (portOf addr) ≠ some 0
  removal : RemovesSender s addr state → Known s addr → s.flag4 = 1 → ¬ s.JoinPending addr
  refresh : ¬ RemovesSender s addr state → RefreshShows s addr → ¬ s.JoinPending addr

instance (s : Master) (addr : Bytes) (state : Bool) : Decidable (Agrees s addr state) :=
  decidable_of_iff (SameBound s (portOf addr)
      ∧ (Known s addr → s.flag4 = 1 → s.flag1 = 1 → s.cacheMap.lookup (portOf addr) ≠ some 0)
      ∧ (RemovesSender s addr state → Known s addr → s.flag4 = 1 → ¬ s.JoinPending addr)
      ∧ (¬ RemovesSender s addr state → RefreshShows s addr → ¬ s.JoinPending addr))
    ⟨fun h => ⟨h.1, h.2.1, h.2.2.1, h.2.2.2⟩, fun h => ⟨h.bound, h.join, h.removal, h.refresh⟩⟩

/-- Whether the sender is removed is settled when a heartbeat comes in. -/
theorem removes_beforeRemoval_iff :
    (s.beforeRemoval addr state).Removes ↔ RemovesSender s addr state := by
  have hsame := sameShut_beforeRemoval s addr state
  unfold Removes
  rw [hsame.shutPort, hsame.flag2, heartPort_beforeRemoval]
  unfold RemovesSender
  cases state with
  | false => exact iff_of_true (markShut_false (s.beat addr)) (Or.inl rfl)
  | true =>
    rw [markShut_true]
    by_cases hone : s.flag5 = 1
    · rw [if_pos (show (s.beat addr).flag5 = 1 from hone)]
      show (if portOf addr ∈ s.shutPortNow then portOf addr else s.shutPort) = portOf addr
        ∧ s.flag2 = 1 ↔ _
      by_cases hnamed : portOf addr ∈ s.shutPortNow
      · simp [hone, hnamed]
      · simp [hone, hnamed, and_comm]
    · rw [if_neg (show (s.beat addr).flag5 ≠ 1 from hone)]
      by_cases htwo : s.flag5 = 2
      · rw [if_pos (show (s.beat addr).flag5 = 2 from htwo)]
        exact iff_of_true ⟨rfl, rfl⟩ (Or.inr (Or.inl htwo))
      · rw [if_neg (show (s.beat addr).flag5 ≠ 2 from htwo)]
        show s.shutPort = portOf addr ∧ s.flag2 = 1 ↔ _
        simp [hone, htwo, and_comm]

/-- **The flags when the sender is told of a join.** -/
theorem bothUp_registered_iff :
    TellsJoin (registered s addr state) ∧ BothUp (registered s addr state)
      ↔ Known s addr ∧ s.flag4 = 1 ∧ s.flag1 = 1
        ∧ s.cacheMap.lookup (portOf addr) = some 0 := by
  obtain ⟨hflag, -, hheart, hmarks⟩ := register_joins s addr state
  have hfour : (registered s addr state).flag4 = 1 ↔ Known s addr ∧ s.flag4 = 1 := by
    unfold registered
    rw [flag4_register_eq_one_iff, markShut_frame]
    exact Iff.rfl
  unfold TellsJoin BothUp
  rw [hfour, show (registered s addr state).flag1 = 1 ↔ _ from hflag,
    show (registered s addr state).heartPort = _ from hheart,
    show (registered s addr state).cacheMap = _ from hmarks]
  by_cases hknown : Known s addr
  · have hold : ¬ s.Registers addr := fun h => h.1 hknown
    unfold joinMarks
    rw [if_neg hold]
    simp only [hknown, hold]
    tauto
  · simp [hknown]

theorem bothUp_beforeRemoval_iff :
    BothUp (s.beforeRemoval addr state) ↔ Known s addr ∧ s.flag4 = 1 ∧ s.JoinPending addr := by
  unfold BothUp
  rw [flag1_beforeRemoval_eq_one_iff, flag4_beforeRemoval_eq_one_iff, and_comm, and_assoc]
  exact Iff.rfl

/-- What the announcement of a removal finds before the removal branch. -/
theorem beforeRemoval_refreshes (s : Master) (addr : Bytes) (state : Bool) :
    (s.beforeRemoval addr state).flag3 = s.flag3 ∧ (s.beforeRemoval addr state).flag6 = s.flag6
      ∧ (s.beforeRemoval addr state).flag8 = s.flag8
      ∧ (s.beforeRemoval addr state).psShutPort = s.psShutPort
      ∧ (s.beforeRemoval addr state).cacheMapShut = shutMarks s addr := by
  unfold beforeRemoval shutMarks
  rw [joinRound_frame]
  by_cases hnew : s.Registers addr
  · rw [register_of_newCache (newCache_markShut_iff.mpr hnew), if_pos hnew,
      checkReconnect_frame, markShut_frame]
    exact ⟨rfl, rfl, rfl, rfl, rfl⟩
  · rw [register_frame_of_not_newCache (fun hc => hnew (newCache_markShut_iff.mp hc)),
      if_neg hnew, markShut_frame]
    exact ⟨rfl, rfl, rfl, rfl, rfl⟩

/-- A sender that has been removed has no mark, and is told nothing more. -/
theorem not_tellsRefresh_of_removes (h : s.Removes) : ¬ TellsRefresh (s.remove addr).1 := by
  have hend : ∀ u : Master,
      u.endRemoval.cacheMapShut = u.cacheMapShut ∧ u.endRemoval.heartPort = u.heartPort := by
    intro u
    unfold endRemoval
    split <;> exact ⟨rfl, rfl⟩
  unfold Master.remove
  rw [if_pos h]
  rintro ⟨-, hmark⟩
  rw [(hend _).1, (hend _).2] at hmark
  exact absurd (hmark.symm.trans (AList.lookup_erase s.heartPort s.cacheMapShut)) (by simp)

/-- **The flags when the sender is told of a removal.** -/
theorem bothUp_removed_iff :
    TellsRefresh (removed s addr state) ∧ BothUp (removed s addr state)
      ↔ ¬ RemovesSender s addr state ∧ RefreshShows s addr ∧ s.JoinPending addr := by
  obtain ⟨hthree, hsix, height, hsilent, hmarks⟩ := beforeRemoval_refreshes s addr state
  have hheart := heartPort_beforeRemoval s addr state
  by_cases hr : RemovesSender s addr state
  · exact iff_of_false (fun h => not_tellsRefresh_of_removes (removes_beforeRemoval_iff.mpr hr) h.1)
      (fun h => h.1 hr)
  · have hkeeps : ¬ (s.beforeRemoval addr state).Removes :=
      fun h => hr (removes_beforeRemoval_iff.mp h)
    unfold removed Master.remove RefreshShows
    rw [if_neg hkeeps, hsix, and_iff_right hr]
    by_cases hflag : s.flag6 = 1
    · rw [if_pos hflag, if_pos hflag]
      -- the mark of the cache that has gone silent is taken out
      show ((1 = 1 ∧ 0 = 0) ∧ AList.lookup (s.beforeRemoval addr state).heartPort
          (AList.erase (s.beforeRemoval addr state).psShutPort
            (s.beforeRemoval addr state).cacheMapShut) = some 0)
        ∧ (s.beforeRemoval addr state).flag1 = 1 ∧ 1 = 1 ↔ _
      rw [hheart, hsilent, hmarks, flag1_beforeRemoval_eq_one_iff]
      by_cases hport : portOf addr = s.psShutPort
      · rw [hport, AList.lookup_erase]
        simp
      · rw [AList.lookup_erase_ne hport]
        simp [hport]
    · rw [if_neg hflag, if_neg hflag, bothUp_beforeRemoval_iff]
      unfold TellsRefresh
      rw [hthree, height, hheart, hmarks]
      by_cases hknown : Known s addr
      · have hold : ¬ s.Registers addr := fun h => h.1 hknown
        unfold shutMarks
        rw [if_neg hold]
        tauto
      · simp [hknown]

/-- **A heartbeat does the same in both masters exactly when neither place
shows.** -/
theorem heartBeat_eq_iff :
    heartBeat s addr state = s.heartBeat addr state ↔ Agrees s addr state := by
  rw [heartBeat_eq_iff_rounds, ← not_and (b := BothUp (registered s addr state)),
    bothUp_registered_iff, removes_beforeRemoval_iff, bothUp_beforeRemoval_iff,
    ← not_and (b := BothUp (removed s addr state)), bothUp_removed_iff]
  constructor
  · rintro ⟨hbound, hjoin, hremoval, hrefresh⟩
    exact ⟨hbound, fun hk h4 h1 hmark => hjoin ⟨hk, h4, h1, hmark⟩,
      fun hr hk h4 hp => hremoval hr ⟨hk, h4, hp⟩,
      fun hr hshows hp => hrefresh ⟨hr, hshows, hp⟩⟩
  · intro h
    exact ⟨h.bound, fun ⟨hk, h4, h1, hmark⟩ => h.join hk h4 h1 hmark,
      fun hr ⟨hk, h4, hp⟩ => h.removal hr hk h4 hp,
      fun ⟨hr, hshows, hp⟩ => h.refresh hr hshows hp⟩

/-! ## Runs of both

The first master tells the spare one what it knows, until it is gone. From then on
the spare master hears the caches. The two are compared from equal globals on,
both hearing the same. -/

/-- What may happen. -/
inductive Event
  /-- `HEART_BEAT`. -/
  | heartBeat (iplist : Bytes) (state : Bool)
  /-- `SHUTDOWN_CACHE`. -/
  | shutdownCache (iplist : List Bytes)
  /-- The thread that watches the heartbeats names a cache, and raises `flag6`
  or does not. -/
  | heartstate (psShutIp psShutPort : Bytes) (raise : Bool)

/-- What the watching thread writes. -/
def noteSilent (s : Master) (psShutIp psShutPort : Bytes) (raise : Bool) : Master :=
  { s with
    psShutIp := psShutIp
    psShutPort := psShutPort
    flag6 := if raise then 1 else s.flag6 }

/-- An event at the first master, and what is sent to the sender. -/
def primary (s : Master) : Event → Master × List Reply
  | .heartBeat iplist state => s.masterhandler (.heartBeat iplist state)
  | .shutdownCache iplist => s.masterhandler (.shutdownCache iplist)
  | .heartstate ip port raise => (noteSilent s ip port raise, [])

/-- An event at the spare master, and what is sent to the sender. -/
def spare (s : SpareMaster) : Event → SpareMaster × List Reply
  | .heartBeat iplist state => s.masterhandler (.heartBeat iplist state)
  | .shutdownCache iplist => s.masterhandler (.shutdownCache iplist)
  | .heartstate ip port raise => ({ s with globals := noteSilent s.globals ip port raise }, [])

/-- **The condition on an event.** -/
def Meets (s : Master) : Event → Prop
  | .heartBeat iplist state => Agrees s iplist state
  | _ => True

instance (s : Master) (e : Event) : Decidable (Meets s e) :=
  match e with
  | .heartBeat iplist state => inferInstanceAs (Decidable (Agrees s iplist state))
  | .shutdownCache _ => inferInstanceAs (Decidable True)
  | .heartstate _ _ _ => inferInstanceAs (Decidable True)

/-- One event, from equal globals. -/
theorem meets_iff {e : Event} :
    Meets s e ↔ (⟨(primary s e).1, 1⟩ : SpareMaster) = (spare ⟨s, 1⟩ e).1
      ∧ (primary s e).2 = (spare ⟨s, 1⟩ e).2 := by
  cases e with
  | heartBeat iplist state =>
    show Agrees s iplist state ↔ (⟨(s.heartBeat iplist state).1, 1⟩ : SpareMaster)
        = ⟨(heartBeat s iplist state).1, 1⟩ ∧ (s.heartBeat iplist state).2
        = (heartBeat s iplist state).2
    rw [← heartBeat_eq_iff, Prod.ext_iff, SpareMaster.mk.injEq, and_iff_left rfl]
    exact and_congr eq_comm eq_comm
  | shutdownCache iplist => exact iff_of_true trivial ⟨rfl, rfl⟩
  | heartstate ip port raise => exact iff_of_true trivial ⟨rfl, rfl⟩

/-- **The two masters go in lock-step**, with the same globals and the same
commands after every part of a run, exactly when none of its heartbeats
reaches one of the two places. -/
theorem lockstep_iff (s : Master) (events : List Event) :
    Runs.Guarded (fun s e => some (primary s e).1) Meets s events
      ↔ ∀ es, es <+: events →
        (⟨(Runs.answers primary s es).1, 1⟩ : SpareMaster) = (Runs.answers spare ⟨s, 1⟩ es).1
        ∧ (Runs.answers primary s es).2 = (Runs.answers spare ⟨s, 1⟩ es).2 := by
  refine Runs.guarded_iff_lockstep (R := fun s t => (⟨s, 1⟩ : SpareMaster) = t) ?_ rfl
  rintro s t e rfl
  exact meets_iff

/-- **The spare master does as the first**: from equal globals, along a run
none of whose heartbeats reaches one of the two places, it sends the same
commands to the same senders, and has the same lists and marks. -/
theorem spare_eq_primary (s : Master) {events : List Event}
    (hmeets : Runs.Guarded (fun s e => some (primary s e).1) Meets s events) :
    (Runs.answers spare ⟨s, 1⟩ events).2 = (Runs.answers primary s events).2
      ∧ (Runs.answers spare ⟨s, 1⟩ events).1.globals.ipList
        = (Runs.answers primary s events).1.ipList
      ∧ (Runs.answers spare ⟨s, 1⟩ events).1.globals.portList
        = (Runs.answers primary s events).1.portList
      ∧ (Runs.answers spare ⟨s, 1⟩ events).1.globals.ipPortList
        = (Runs.answers primary s events).1.ipPortList
      ∧ (Runs.answers spare ⟨s, 1⟩ events).1.globals.cacheMap
        = (Runs.answers primary s events).1.cacheMap
      ∧ (Runs.answers spare ⟨s, 1⟩ events).1.globals.cacheMapShut
        = (Runs.answers primary s events).1.cacheMapShut := by
  obtain ⟨hstate, hsent⟩ := (lockstep_iff s events).mp hmeets events (List.prefix_refl events)
  rw [← hstate]
  exact ⟨hsent.symm, rfl, rfl, rfl, rfl, rfl⟩

/-- Two caches join, one after the other, and both are told. -/
def twoJoins : List Event :=
  [.heartBeat (str "127.0.0.1:8000") true, .heartBeat (str "127.0.0.1:8001") true,
    .heartBeat (str "127.0.0.1:8000") true]

/-- The statement on a run in which two caches join, and one of them is shut
down on request. -/
theorem spare_eq_primary_shutdown :
    (Runs.answers spare ⟨Master.init, 1⟩ (twoJoins
        ++ [.shutdownCache [str "127.0.0.1:8001"], .heartBeat (str "127.0.0.1:8001") true,
          .heartBeat (str "127.0.0.1:8000") true])).2
      = (Runs.answers primary Master.init (twoJoins
        ++ [.shutdownCache [str "127.0.0.1:8001"], .heartBeat (str "127.0.0.1:8001") true,
          .heartBeat (str "127.0.0.1:8000") true])).2 :=
  (spare_eq_primary Master.init (by decide +kernel)).1

/-- **The spare master registers a cache that the first does not**: after a
cache has gone silent and was removed, the first heartbeat of a new one is
taken for a reconnection by the first master only. -/
theorem spare_registers_at_once :
    ¬ ∀ (s : Master) (events : List Event),
      (Runs.answers spare ⟨s, 1⟩ events).2 = (Runs.answers primary s events).2
        ∧ (Runs.answers spare ⟨s, 1⟩ events).1.globals.ipList
          = (Runs.answers primary s events).1.ipList
        ∧ (Runs.answers spare ⟨s, 1⟩ events).1.globals.portList
          = (Runs.answers primary s events).1.portList
        ∧ (Runs.answers spare ⟨s, 1⟩ events).1.globals.ipPortList
          = (Runs.answers primary s events).1.ipPortList
        ∧ (Runs.answers spare ⟨s, 1⟩ events).1.globals.cacheMap
          = (Runs.answers primary s events).1.cacheMap
        ∧ (Runs.answers spare ⟨s, 1⟩ events).1.globals.cacheMapShut
          = (Runs.answers primary s events).1.cacheMapShut := by
  intro h
  have hports := (h Master.init (twoJoins
    ++ [.heartstate (str "127.0.0.1") (str "8001") true, .heartBeat (str "127.0.0.1:8000") true,
      .heartBeat (str "127.0.0.1:8002") true])).2.2.1
  exact absurd hports (by decide +kernel)

end SpareMaster

end Dcs
