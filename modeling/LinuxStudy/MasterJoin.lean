import LinuxStudy.MasterHandler

/-!
# Announcing joins

A heartbeat from an unknown port registers a cache and starts an
announcement: `flag1` goes up, and from then on each cache is told the list
when its heartbeat comes in, once, until all were told. The marks of
`cachemap` say who was told, and the count of them when to stop.

When a second cache joins while the first is still being announced, the list
grows but the marks stay. A cache that was told the shorter list counts as
told, and the announcement ends without telling it the longer one
(`joined_during_announcement`). A port is also told in the wrong place when
its mark is spent on a heartbeat from another address with the same port.

`lastTold_eq_ipPortList` says that these two are all that can go wrong. In a
run of heartbeats in which, while an announcement is under way, every
heartbeat is of a known port, and of the registered address of it if it is
to be told: whenever no announcement is under way, every registered cache was
last told the list as it is.
-/

namespace Dcs

/-- **The master, and what it told.** -/
structure Told where
  master : Master
  /-- The lists sent by `refreship`, with the caches they were sent to, latest
  first. -/
  told : List (Bytes × List Bytes)

namespace Told

/-- The start. -/
def init : Told := ⟨Master.init, []⟩

/-- The master has handled something of `addr`, and sent it the replies. -/
def tell (w : Told) (addr : Bytes) (r : Master × List Reply) : Told :=
  ⟨r.1, (r.2.map (fun reply => (addr, reply.iplist))).reverse ++ w.told⟩

/-- A heartbeat of a cache that wants to stay. -/
def beat (w : Told) (addr : Bytes) : Told :=
  w.tell addr (w.master.masterhandler (.heartBeat addr true))

/-- One step: a heartbeat can always come. -/
def step (w : Told) (addr : Bytes) : Option Told := some (w.beat addr)

/-- The list a cache was last told. -/
def lastTold (w : Told) (addr : Bytes) : Option (List Bytes) :=
  (w.told.find? (fun e => e.1 = addr)).map Prod.snd

end Told

namespace Master

/-! ## While nothing is shut down

As long as no cache asks to be shut down, no user names one and none goes silent,
half of `masterhandler` does nothing: nobody is noted, nobody removed, and no
removal announced. What is left is the registration of the sender and the
announcement of a join (`Quiet.heartBeat_eq`). -/

/-- **Nothing is shut down**: what only a request to shut down, or a cache
that went silent, changes. -/
structure Quiet (s : Master) : Prop where
  flag2 : s.flag2 = 0
  flag3 : s.flag3 = 0
  flag5 : s.flag5 = 0
  flag6 : s.flag6 = 0
  num7 : s.num7 = 0

variable {s t : Master} {addr : Bytes}

theorem Quiet.of_sameShut (h : s.Quiet) (hst : SameShut s t) : t.Quiet :=
  ⟨hst.flag2.trans h.flag2, hst.flag3.trans h.flag3, hst.flag5.trans h.flag5,
    hst.flag6.trans h.flag6, hst.num7.trans h.num7⟩

theorem sameShut_tellJoin (s : Master) : SameShut s s.tellJoin.1 := by
  unfold tellJoin
  split
  · exact ⟨rfl, rfl, rfl, rfl, rfl, rfl, rfl, rfl, rfl⟩
  · rfl

theorem sameShut_endJoin (s : Master) : SameShut s s.endJoin := by
  unfold endJoin
  split
  · exact ⟨rfl, rfl, rfl, rfl, rfl, rfl, rfl, rfl, rfl⟩
  · rfl

theorem Quiet.markShut_eq (h : s.Quiet) : s.markShut true = s := by
  have hnote : s.noteShut = s := by
    unfold noteShut
    rw [if_neg (by rw [h.flag5]; simp), if_neg (by rw [h.flag5]; simp)]
  unfold markShut
  rw [if_neg (by simp), hnote]

theorem Quiet.remove_eq (h : s.Quiet) (addr : Bytes) : s.remove addr = (s, []) := by
  unfold remove
  rw [if_neg (fun hc => absurd (hc.2.symm.trans h.flag2) (by simp)),
    if_neg (by rw [h.flag6]; simp)]

theorem Quiet.refreshRound_eq (h : s.Quiet) : s.refreshRound = (s, []) := by
  unfold refreshRound
  rw [if_neg (fun hc => absurd (hc.1.symm.trans h.flag3) (by simp))]

/-- An unknown port is a new cache: there is no removal it could be left over
from. -/
theorem Quiet.register_eq (h : s.Quiet) (addr : Bytes) (hport : atoi s.heartPort ∉ s.portList) :
    s.register addr = { s with flag4 := 0, num5 := 0 }.addNew addr := by
  have hcheck : s.checkReconnect = { s with flag4 := 0, num5 := 0 } := by
    unfold checkReconnect
    rw [if_neg (by rw [h.num7]; exact Nat.not_lt_zero s.num5)]
  unfold Master.register
  rw [if_neg hport, hcheck]
  rfl

/-- **While nothing is shut down, a heartbeat is a registration and an
announcement.** -/
theorem Quiet.heartBeat_eq (h : s.Quiet) (addr : Bytes) :
    s.heartBeat addr true = ((s.beat addr).register addr).joinRound := by
  have hbeat : (s.beat addr).Quiet := ⟨h.flag2, h.flag3, h.flag5, h.flag6, h.num7⟩
  have hround := (hbeat.of_sameShut (sameShut_register _ addr)).of_sameShut
    (sameShut_joinRound _)
  unfold heartBeat
  rw [hbeat.markShut_eq]
  dsimp only
  rw [hround.remove_eq addr, hround.refreshRound_eq, List.append_nil, List.append_nil]

end Master

/-! ## Who was told

An announcement goes through the caches in the order of their heartbeats, with a
mark for each that was told. It is over when the marks are as many as the caches.
If the list grows meanwhile, those with a mark were told the shorter list, and the
marks do not say so. The condition is therefore that whoever comes during an
announcement is known, and whoever is still to be told is on the list by the
address it comes from. -/

/-- **The announcement is in order**: the ports are those of the addresses and
no two are the same number, `cachemap` has a mark for each and `num1` counts
them, and a cache whose mark is set was last told the list as it is. -/
structure Told.InOrder (w : Told) : Prop where
  quiet : w.master.Quiet
  ports : w.master.portList = w.master.ipPortList.map (fun a => atoi (Master.portOf a))
  nodup : w.master.portList.Nodup
  keys : ∀ p, p ∈ w.master.cacheMap ↔ ∃ a ∈ w.master.ipPortList, Master.portOf a = p
  count : w.master.num1 = w.master.cacheMap.ones
  told : ∀ a ∈ w.master.ipPortList, w.master.cacheMap.lookup (Master.portOf a) = some 1 →
    w.lastTold a = some w.master.ipPortList

/-- **The announcement is over**: no mark is set, and everybody was told. -/
structure Told.Over (w : Told) : Prop where
  unmarked : ∀ p, w.master.cacheMap.lookup p ≠ some 1
  told : ∀ a ∈ w.master.ipPortList, w.lastTold a = some w.master.ipPortList

/-- **What holds after every heartbeat.** -/
structure Told.Invariant (w : Told) : Prop where
  inOrder : w.InOrder
  ended : w.master.flag1 ≠ 1 → w.Over

/-- **The condition on a heartbeat**: while an announcement is under way, its port
is known, and if the port is still to be told its address is registered. -/
def Told.Undisturbed (w : Told) (addr : Bytes) : Prop :=
  w.master.flag1 = 1 → atoi (Master.portOf addr) ∈ w.master.portList
    ∧ (w.master.cacheMap.lookup (Master.portOf addr) = some 0 → addr ∈ w.master.ipPortList)

instance (w : Told) (addr : Bytes) : Decidable (w.Undisturbed addr) :=
  inferInstanceAs (Decidable (_ → _))

namespace Told

variable {w : Told} {addr : Bytes}

theorem InOrder.eq_of_portOf_eq (h : w.InOrder) {a b : Bytes}
    (ha : a ∈ w.master.ipPortList) (hb : b ∈ w.master.ipPortList)
    (hab : Master.portOf a = Master.portOf b) : a = b := by
  have hnodup := h.nodup
  rw [h.ports] at hnodup
  exact List.inj_on_of_nodup_map hnodup ha hb (congrArg atoi hab)

/-- What was told last, after one more telling. -/
theorem lastTold_cons (m : Master) (a b : Bytes) (list : List Bytes)
    (told : List (Bytes × List Bytes)) :
    (Told.mk m ((b, list) :: told)).lastTold a
      = if b = a then some list else (Told.mk m told).lastTold a := by
  unfold lastTold
  rw [List.find?_cons]
  by_cases hab : b = a
  · rw [if_pos hab, decide_eq_true hab]
    rfl
  · rw [if_neg hab, decide_eq_false hab]

/-! ## One heartbeat

The invariant says whom the marks stand for: a cache with a mark was told the list
as it is. When an announcement begins no mark is set, and when it is over
everybody was told and the marks are cleared. -/

/-- Whether the announcement is in order is a matter of the lists, the marks
and the count alone. -/
theorem InOrder.of_master {m : Master} (h : w.InOrder) (hquiet : m.Quiet)
    (hports : m.portList = w.master.portList) (haddrs : m.ipPortList = w.master.ipPortList)
    (hmap : m.cacheMap = w.master.cacheMap) (hnum : m.num1 = w.master.num1) :
    (Told.mk m w.told).InOrder where
  quiet := hquiet
  ports := by rw [hports, haddrs, h.ports]
  nodup := by rw [hports]; exact h.nodup
  keys := by rw [hmap, haddrs]; exact h.keys
  count := by rw [hnum, hmap, h.count]
  told := by rw [hmap, haddrs]; exact h.told

/-- **A new cache** is in order where no mark is set. -/
theorem InOrder.addNew (h : w.InOrder) (addr : Bytes)
    (hmarks : ∀ p, w.master.cacheMap.lookup p ≠ some 1)
    (hheart : w.master.heartPort = Master.portOf addr)
    (hport : atoi w.master.heartPort ∉ w.master.portList) :
    (Told.mk (w.master.addNew addr) w.told).InOrder := by
  have hfresh : Master.portOf addr ∉ w.master.cacheMap := by
    intro hmem
    obtain ⟨a, ha, hap⟩ := (h.keys _).mp hmem
    apply hport
    rw [hheart, h.ports, ← hap]
    exact List.mem_map.mpr ⟨a, ha, rfl⟩
  have hmap : (w.master.addNew addr).cacheMap
      = w.master.cacheMap.insert (Master.portOf addr) 0 := by
    show Marks.emplace w.master.cacheMap w.master.heartPort 0 = _
    rw [hheart]
    exact if_neg hfresh
  refine ⟨⟨h.quiet.flag2, h.quiet.flag3, h.quiet.flag5, h.quiet.flag6, h.quiet.num7⟩,
    ?_, ?_, ?_, ?_, ?_⟩
  · show w.master.portList ++ [atoi w.master.heartPort] = (w.master.ipPortList ++ [addr]).map _
    rw [List.map_append, ← h.ports, hheart]
    rfl
  · exact List.nodup_append'.mpr ⟨h.nodup, List.nodup_singleton _,
      List.disjoint_singleton.mpr hport⟩
  · intro p
    show p ∈ (w.master.addNew addr).cacheMap
      ↔ ∃ a ∈ w.master.ipPortList ++ [addr], Master.portOf a = p
    rw [hmap, AList.mem_insert, h.keys p]
    simp only [List.mem_append, List.mem_singleton, or_and_right, exists_or, exists_eq_left]
    rw [or_comm, eq_comm]
  · show w.master.num1 = (w.master.addNew addr).cacheMap.ones
    rw [hmap, Marks.ones_insert_zero hfresh, h.count]
  · intro a ha hone
    have hone' :
        (w.master.cacheMap.insert (Master.portOf addr) 0).lookup (Master.portOf a) = some 1 :=
      hmap ▸ hone
    -- the new mark is not set, and no other was
    by_cases hap : Master.portOf a = Master.portOf addr
    · rw [hap, AList.lookup_insert] at hone'
      exact absurd (Option.some.inj hone') (by simp)
    · rw [AList.lookup_insert_ne hap] at hone'
      exact absurd hone' (hmarks _)

/-- **The sender is told**, and its mark is set. -/
theorem InOrder.tellJoin (h : w.InOrder) (hheart : w.master.heartPort = Master.portOf addr)
    (haddr : w.master.cacheMap.lookup (Master.portOf addr) = some 0 → addr ∈ w.master.ipPortList) :
    (w.tell addr w.master.tellJoin).InOrder := by
  by_cases hzero : w.master.cacheMap.lookup w.master.heartPort = some 0
  · have htell : w.master.tellJoin = (w.master.markJoin, [w.master.markJoin.refreship]) :=
      if_pos hzero
    have hquiet := h.quiet.of_sameShut (Master.sameShut_tellJoin w.master)
    rw [htell] at hquiet ⊢
    have hmem := haddr (hheart ▸ hzero)
    refine ⟨hquiet, h.ports, h.nodup, ?_, ?_, ?_⟩
    · intro p
      show p ∈ w.master.cacheMap.insert w.master.heartPort 1
        ↔ ∃ a ∈ w.master.ipPortList, Master.portOf a = p
      rw [Marks.mem_insert_of_lookup hzero]
      exact h.keys p
    · show w.master.num1 + 1 = Marks.ones (w.master.cacheMap.insert w.master.heartPort 1)
      rw [(Marks.ones_insert_one hzero).1, h.count]
    · intro a ha hone
      show (Told.mk _ ((addr, w.master.ipPortList) :: w.told)).lastTold a = _
      rw [lastTold_cons]
      by_cases haa : addr = a
      · rw [if_pos haa]
        rfl
      · -- another registered address has another port
        have hne : Master.portOf a ≠ w.master.heartPort := fun hp =>
          haa (h.eq_of_portOf_eq hmem ha (hheart ▸ hp.symm))
        have hone' : (w.master.cacheMap.insert w.master.heartPort 1).lookup (Master.portOf a)
            = some 1 := hone
        rw [AList.lookup_insert_ne hne] at hone'
        rw [if_neg haa]
        exact h.told a ha hone'
  · have htell : w.master.tellJoin = (w.master, []) := if_neg hzero
    rw [htell]
    exact h

/-- **The end of an announcement**: everybody's mark is set, so everybody was
told. -/
theorem InOrder.endJoin (h : w.InOrder) (hflag : w.master.flag1 = 1) :
    (Told.mk w.master.endJoin w.told).Invariant := by
  by_cases hall : w.master.num1 = w.master.cacheMap.size
  · have hend : w.master.endJoin
        = { w.master with flag1 := 0, num1 := 0, cacheMap := w.master.cacheMap.clear } :=
      if_pos hall
    have hnone : ∀ p, w.master.cacheMap.clear.lookup p ≠ some 1 := by
      intro p
      rw [Marks.lookup_clear]
      cases w.master.cacheMap.lookup p <;> simp
    have htold : ∀ a ∈ w.master.ipPortList, w.lastTold a = some w.master.ipPortList := by
      intro a ha
      apply h.told a ha
      exact Marks.lookup_eq_one (h.count ▸ hall) ((h.keys _).mpr ⟨a, ha, rfl⟩)
    have hquiet := h.quiet.of_sameShut (Master.sameShut_endJoin w.master)
    rw [hend] at hquiet ⊢
    refine ⟨⟨hquiet, h.ports, h.nodup, ?_, ?_, fun a ha _ => htold a ha⟩,
      fun _ => ⟨hnone, htold⟩⟩
    · intro p
      exact Marks.mem_clear.trans (h.keys p)
    · exact (Marks.ones_clear w.master.cacheMap).symm
  · have hend : w.master.endJoin = w.master := if_neg hall
    rw [hend]
    exact ⟨h, fun hc => absurd hflag hc⟩

/-- The announcement, when one is under way. -/
theorem InOrder.joinRound (h : w.InOrder) (hheart : w.master.heartPort = Master.portOf addr)
    (haddr : w.master.cacheMap.lookup (Master.portOf addr) = some 0 → addr ∈ w.master.ipPortList)
    (hflag : w.master.flag1 = 1) : (w.tell addr w.master.joinRound).Invariant := by
  have hround : w.master.joinRound
      = (w.master.forgetNamed.tellJoin.1.endJoin, w.master.forgetNamed.tellJoin.2) :=
    if_pos hflag
  have hforget : (Told.mk w.master.forgetNamed w.told).InOrder :=
    h.of_master ⟨h.quiet.flag2, h.quiet.flag3, h.quiet.flag5, h.quiet.flag6, h.quiet.num7⟩
      rfl rfl rfl rfl
  have hflag' : w.master.forgetNamed.tellJoin.1.flag1 = 1 := by
    unfold Master.tellJoin
    split
    · exact hflag
    · exact hflag
  rw [hround]
  exact (hforget.tellJoin hheart haddr).endJoin hflag'

/-- **One heartbeat** keeps the invariant. -/
theorem Invariant.beat (h : w.Invariant) (hg : w.Undisturbed addr) : (w.beat addr).Invariant := by
  have hquiet := h.inOrder.quiet
  have hbeat : (Told.mk (w.master.beat addr) w.told).InOrder :=
    h.inOrder.of_master ⟨hquiet.flag2, hquiet.flag3, hquiet.flag5, hquiet.flag6, hquiet.num7⟩
      rfl rfl rfl rfl
  have hstep : w.beat addr
      = (Told.mk ((w.master.beat addr).register addr) w.told).tell addr
        ((w.master.beat addr).register addr).joinRound := by
    show w.tell addr (w.master.heartBeat addr true) = _
    rw [hquiet.heartBeat_eq addr]
    rfl
  rw [hstep]
  by_cases hport : atoi (Master.portOf addr) ∈ w.master.portList
  · have hreg : (w.master.beat addr).register addr = w.master.beat addr := if_pos hport
    rw [hreg]
    by_cases hflag : w.master.flag1 = 1
    · exact hbeat.joinRound rfl (hg hflag).2 hflag
    · have hround : (w.master.beat addr).joinRound = (w.master.beat addr, []) := if_neg hflag
      rw [hround]
      exact ⟨hbeat, fun _ => ⟨(h.ended hflag).unmarked, (h.ended hflag).told⟩⟩
  · -- an unknown port: no announcement is under way, and one begins
    have hflag : w.master.flag1 ≠ 1 := fun hc => hport (hg hc).1
    have hreset : (Told.mk { w.master.beat addr with flag4 := 0, num5 := 0 } w.told).InOrder :=
      hbeat.of_master
        ⟨hquiet.flag2, hquiet.flag3, hquiet.flag5, hquiet.flag6, hquiet.num7⟩ rfl rfl rfl rfl
    rw [hbeat.quiet.register_eq addr hport]
    have hnew := hreset.addNew addr (h.ended hflag).unmarked rfl hport
    exact hnew.joinRound rfl (fun _ => List.mem_append_right _ List.mem_cons_self) rfl

theorem invariant_init : Told.init.Invariant where
  inOrder :=
    { quiet := ⟨rfl, rfl, rfl, rfl, rfl⟩
      ports := rfl
      nodup := List.nodup_nil
      keys := fun p => ⟨fun h => absurd h (AList.notMem_empty p), fun ⟨_, h, _⟩ => nomatch h⟩
      count := rfl
      told := fun _ h => nomatch h }
  ended := fun _ => ⟨fun _ h => (nomatch h), fun _ h => (nomatch h)⟩

end Told

/-- **Every cache was last told the list as it is.** In a run of heartbeats
from the start of which each meets the condition: whenever no announcement is
under way, the ports are those of the addresses, and what the master last sent
to each of them is the current list. -/
theorem lastTold_eq_ipPortList {es : List Bytes} {w : Told}
    (hg : Runs.Guarded Told.step Told.Undisturbed Told.init es)
    (hrun : Runs.exec Told.step Told.init es = some w) (hflag : w.master.flag1 = 0) :
    w.master.portList = w.master.ipPortList.map (fun a => atoi (Master.portOf a))
      ∧ ∀ a ∈ w.master.ipPortList, w.lastTold a = some w.master.ipPortList := by
  have hinv : w.Invariant := by
    refine Runs.exec_invariant Told.Invariant ?_ Told.invariant_init hg hrun
    intro s t addr hs hc ht
    obtain rfl : s.beat addr = t := Option.some.inj ht
    exact hs.beat hc
  refine ⟨hinv.inOrder.ports, (hinv.ended ?_).told⟩
  rw [hflag]
  exact Nat.zero_ne_one

namespace Told

/-- Three caches. -/
def cacheA : Bytes := str "127.0.0.1:8000"

@[inherit_doc cacheA]
def cacheB : Bytes := str "127.0.0.1:8001"

@[inherit_doc cacheA]
def cacheC : Bytes := str "127.0.0.1:8002"

/-- Two caches join, one after the other is announced. -/
def twoJoins : List Bytes := [cacheA, cacheB, cacheA]

end Told

/-- Both caches were last told of both. -/
theorem lastTold_eq_ipPortList_twoJoins :
    Runs.Guarded Told.step Told.Undisturbed Told.init Told.twoJoins
      ∧ ∃ w, Runs.exec Told.step Told.init Told.twoJoins = some w ∧ w.master.flag1 = 0
        ∧ w.master.ipPortList = [Told.cacheA, Told.cacheB]
        ∧ w.lastTold Told.cacheA = some w.master.ipPortList
        ∧ w.lastTold Told.cacheB = some w.master.ipPortList := by
  have hg : Runs.Guarded Told.step Told.Undisturbed Told.init Told.twoJoins := by
    decide +kernel
  obtain ⟨w, hw, hflag, hlist⟩ : ∃ w, Runs.exec Told.step Told.init Told.twoJoins = some w
      ∧ w.master.flag1 = 0 ∧ w.master.ipPortList = [Told.cacheA, Told.cacheB] :=
    ⟨_, rfl, by decide +kernel, by decide +kernel⟩
  have htold := (lastTold_eq_ipPortList hg hw hflag).2
  exact ⟨hg, w, hw, hflag, hlist, htold _ (by rw [hlist]; simp), htold _ (by rw [hlist]; simp)⟩

/-- **A cache that joins during an announcement is not announced to all.** The
second cache is told of two caches, the third joins, and the first is told of
three. That ends the announcement, and the second was told of two. -/
theorem joined_during_announcement :
    ∃ w, Runs.exec Told.step Told.init
        [Told.cacheA, Told.cacheB, Told.cacheC, Told.cacheA] = some w
      ∧ w.master.flag1 = 0
      ∧ Told.cacheB ∈ w.master.ipPortList
      ∧ w.master.ipPortList = [Told.cacheA, Told.cacheB, Told.cacheC]
      ∧ w.lastTold Told.cacheB = some [Told.cacheA, Told.cacheB]
      ∧ w.lastTold Told.cacheB ≠ some w.master.ipPortList :=
  ⟨_, rfl, by decide +kernel, by decide +kernel, by decide +kernel, by decide +kernel,
    by decide +kernel⟩

end Dcs
