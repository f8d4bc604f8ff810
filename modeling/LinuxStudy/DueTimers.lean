import LinuxStudy.TimerList

/-!
# The timers that are called back

What `sort_timer_lst` is for can be said without a list: for every timer that is
pending there is a time (`Pending`), `tick` calls back those whose time has come,
and the others stay. The list keeps to it in every run in which a timer is only
adjusted or deleted while it is pending, and adjusted to a time that is not
earlier: no pointer is followed that leads nowhere, and `tick` calls back all the
timers that are due and no other, in the order of their times
(**`tick_fires_due`**).
-/

namespace TinyWeb

namespace TimerLst

/-- A call of `main` on the list, with the time it sets. -/
inductive Op
  | add (t : ℕ) (time : ℤ)
  | adjust (t : ℕ) (time : ℤ)
  | del (t : ℕ)
  | tick (cur : ℤ)

/-- One call. A timer is made before it is added, and its time is set before it is
added or adjusted. -/
def perform (rounds : ℕ) (s : TimerLst) : Op → Option TimerLst
  | .add t time => do
    let s ← s.newTimer t
    let s ← s.setExpire t time
    s.addTimer rounds t
  | .adjust t time => do
    let s ← s.setExpire t time
    s.adjustTimer rounds t
  | .del t => s.delTimer t
  | .tick cur => (s.tick rounds cur).map Prod.snd

/-- The times of the timers that are pending. -/
abbrev Pending := ℕ → Option ℤ

/-- What a call is for. Undefined for a timer that is added twice, for one that is
not pending, and for a time before the one it has. -/
def Pending.step (P : Pending) : Op → Option Pending
  | .add t time =>
    if t = null ∨ (P t).isSome then none else some (Function.update P t (some time))
  | .adjust t time =>
    match P t with
    | some time' => if time' ≤ time then some (Function.update P t (some time)) else none
    | none => none
  | .del t => if (P t).isSome then some (Function.update P t none) else none
  | .tick cur => some (fun t => (P t).filter (fun time => cur < time))

/-! ## The list is in order

`add_timer` walks from the head to the first timer with a later time, and
`adjust_timer` from where the timer was, since a time is only ever moved behind.
`tick` goes from the head and stops at the first timer that is not due. All three
rely on the order of the list, and keep it. -/

variable {s s' : TimerLst} {l l₁ l₂ : List ℕ} {t : ℕ} {expire expire' : ℕ → ℤ} {cur : ℤ}
  {P P' : Pending} {rounds : ℕ}

/-- The timers are in the order of their times. -/
def InTime (expire : ℕ → ℤ) (l : List ℕ) : Prop := l.Pairwise (fun a b => expire a ≤ expire b)

theorem insertTimer_perm (expire : ℕ → ℤ) (t : ℕ) (l : List ℕ) :
    (insertTimer expire t l).Perm (t :: l) := by
  induction l with
  | nil => exact List.Perm.refl _
  | cons u l ih =>
    unfold insertTimer
    split
    · exact List.Perm.refl _
    · exact (ih.cons u).trans (List.Perm.swap t u l)

theorem InTime.insertTimer (h : InTime expire l) (t : ℕ) :
    InTime expire (insertTimer expire t l) := by
  induction l with
  | nil => exact List.pairwise_singleton _ _
  | cons u l ih =>
    obtain ⟨hu, hl⟩ := List.pairwise_cons.mp h
    unfold TimerLst.insertTimer
    split
    · next hlt =>
      refine List.pairwise_cons.mpr ⟨fun z hz => ?_, h⟩
      rcases List.mem_cons.mp hz with rfl | hz
      · exact Int.le_of_lt hlt
      · exact Int.le_trans (Int.le_of_lt hlt) (hu z hz)
    · next hge =>
      refine List.pairwise_cons.mpr ⟨fun z hz => ?_, ih hl⟩
      rcases List.mem_cons.mp ((insertTimer_perm expire t l).subset hz) with rfl | hz
      · exact Int.not_lt.mp hge
      · exact hu z hz

theorem InTime.congr (h : InTime expire l) (heq : ∀ z ∈ l, expire' z = expire z) :
    InTime expire' l := by
  refine List.Pairwise.imp_of_mem (fun {a b} ha hb hab => ?_) h
  rwa [heq a ha, heq b hb]

/-- **A timer that is moved behind** is moved to where it belongs. -/
theorem InTime.adjust (h : InTime expire (l₁ ++ t :: l₂)) (ht : t ∉ l₁ ++ l₂)
    (heq : ∀ z ∈ l₁ ++ l₂, expire' z = expire z) (hlater : expire t ≤ expire' t) :
    InTime expire' (l₁ ++ TimerLst.insertTimer expire' t l₂) := by
  obtain ⟨hl₁, hl₂, hcross⟩ := List.pairwise_append.mp h
  obtain ⟨htl₂, hl₂⟩ := List.pairwise_cons.mp hl₂
  have h₁ : ∀ z ∈ l₁, expire' z = expire z := fun z hz => heq z (List.mem_append_left _ hz)
  have h₂ : ∀ z ∈ l₂, expire' z = expire z := fun z hz => heq z (List.mem_append_right _ hz)
  refine List.pairwise_append.mpr ⟨InTime.congr hl₁ h₁, (InTime.congr hl₂ h₂).insertTimer t,
    fun a ha b hb => ?_⟩
  rw [h₁ a ha]
  rcases List.mem_cons.mp ((insertTimer_perm expire' t l₂).subset hb) with rfl | hb
  · exact Int.le_trans (hcross a ha b List.mem_cons_self) hlater
  · rw [h₂ b hb]
    exact hcross a ha b (List.mem_cons_of_mem _ hb)

/-- **The first timers are the ones that are due.** -/
theorem InTime.due_eq (h : InTime expire l) :
    l.takeWhile (due expire cur) = l.filter (due expire cur) ∧
      l.dropWhile (due expire cur) = l.filter (fun t => !due expire cur t) := by
  induction l with
  | nil => exact ⟨rfl, rfl⟩
  | cons u l ih =>
    obtain ⟨hu, hl⟩ := List.pairwise_cons.mp h
    by_cases hdue : due expire cur u = true
    · rw [List.takeWhile_cons_of_pos hdue, List.dropWhile_cons_of_pos hdue,
        List.filter_cons_of_pos hdue, List.filter_cons_of_neg (by simp [hdue])]
      exact ⟨congrArg _ (ih hl).1, (ih hl).2⟩
    · have hnone : ∀ z ∈ l, due expire cur z = false := by
        intro z hz
        have hlater := hu z hz
        unfold due at hdue ⊢
        simp only [decide_eq_true_eq, decide_eq_false_iff_not] at hdue ⊢
        omega
      rw [List.takeWhile_cons_of_neg hdue, List.dropWhile_cons_of_neg hdue,
        List.filter_cons_of_neg hdue, List.filter_cons_of_pos (by simpa using hdue)]
      refine ⟨(List.filter_eq_nil_iff.mpr fun z hz => by simp [hnone z hz]).symm, ?_⟩
      rw [List.filter_eq_self.mpr fun z hz => by simp [hnone z hz]]

/-! ## The list keeps to what it is for

The timers of the list are those that are pending, each once, in the order of
their times, and what is allocated is in the list. Then the timers that `tick`
comes to before it stops are exactly those that are due.

Two things would break this, and are not done in a run: a timer that is added
twice, and a time that is moved to before what it was, which `adjust_timer` does
not look for. -/

/-- **The list has the timers that are pending**, in the order of their times, and
no others are allocated. -/
structure Holds (s : TimerLst) (P : Pending) (l : List ℕ) : Prop where
  reads : s.Reads l
  inTime : InTime s.expire l
  pending : ∀ t, P t = if t ∈ l then some (s.expire t) else none
  live : ∀ t, s.live t = decide (t ∈ l)

theorem holds_new : new.Holds (fun _ => none) [] where
  reads := reads_new
  inTime := List.Pairwise.nil
  pending t := (if_neg List.not_mem_nil).symm
  live t := by simp [new]

theorem Holds.mem_iff (h : s.Holds P l) : (P t).isSome ↔ t ∈ l := by
  rw [h.pending t]
  split
  · next hmem => exact iff_of_true rfl hmem
  · next hmem => exact iff_of_false (fun hnone => Bool.noConfusion hnone) hmem

theorem Holds.add (h : s.Holds P l) {time : ℤ} (hstep : P.step (.add t time) = some P')
    (hrounds : l.length < rounds) :
    ∃ s' l', s.perform rounds (.add t time) = some s' ∧ s'.Holds P' l' ∧
      l'.length = l.length + 1 := by
  unfold Pending.step at hstep
  simp only at hstep
  split at hstep
  · cases hstep
  next hcond =>
  cases hstep
  obtain ⟨ht, hnone⟩ := not_or.mp hcond
  have hmem : t ∉ l := fun hmem => hnone (h.mem_iff.mpr hmem)
  have hlive : s.live t = false := by rw [h.live t]; exact decide_eq_false hmem
  let s₁ : TimerLst := { s with
    next := Function.update s.next t null
    prev := Function.update s.prev t null
    live := Function.update s.live t true
    expire := Function.update s.expire t time }
  have hne : ∀ z ∈ l, z ≠ t := fun z hz heq => hmem (heq ▸ hz)
  have hreads : s₁.Reads l := by
    refine Reads.of_ring h.reads.linked h.reads.nodup (fun z hz => ?_) h.reads.notNull
      (fun z hz => ?_) (fun z hz => ?_)
    · exact (Function.update_of_ne (hne z hz) _ _).trans (h.reads.live z hz)
    · show (if z = null then s.head else Function.update s.next t null z)
        = if z = null then s.head else s.next z
      refine if_ctx_congr Iff.rfl (fun _ => rfl) (fun hz0 => ?_)
      exact Function.update_of_ne (hne z ((List.mem_cons.mp hz).resolve_left hz0)) _ _
    · show (if z = null then _ else Function.update s.prev t null z)
        = if z = null then _ else s.prev z
      refine if_ctx_congr Iff.rfl (fun _ => rfl) (fun hz0 => ?_)
      exact Function.update_of_ne (hne z ((List.mem_cons.mp hz).resolve_left hz0)) _ _
  obtain ⟨s', hadd, hreads', hexpire, hlives⟩ := addTimer_spec hreads ht hmem
    (Function.update_self _ _ _) (Function.update_self _ _ _) (Function.update_self _ _ _) hrounds
  have hperm := insertTimer_perm s₁.expire t l
  have hkeep : ∀ z ∈ l, s₁.expire z = s.expire z :=
    fun z hz => Function.update_of_ne (hne z hz) _ _
  have hself : s₁.expire t = time := Function.update_self _ _ _
  have hmem' : ∀ z, z ∈ insertTimer s₁.expire t l ↔ z = t ∨ z ∈ l :=
    fun z => hperm.mem_iff.trans List.mem_cons
  refine ⟨s', insertTimer s₁.expire t l, ?_, ⟨hreads', ?_, fun z => ?_, fun z => ?_⟩,
    hperm.length_eq⟩
  · rw [← hadd]
    simp [perform, newTimer, setExpire, ht, hlive, s₁]
  · rw [hexpire]
    exact (h.inTime.congr hkeep).insertTimer t
  · rw [hexpire, Function.update_apply, h.pending z]
    by_cases hz : z = t
    · rw [if_pos hz, if_pos ((hmem' z).mpr (Or.inl hz)), hz, hself]
    · rw [if_neg hz]
      by_cases hzl : z ∈ l
      · rw [if_pos hzl, if_pos ((hmem' z).mpr (Or.inr hzl)), hkeep z hzl]
      · rw [if_neg hzl, if_neg fun hz' => ((hmem' z).mp hz').elim hz hzl]
  · rw [hlives]
    show Function.update s.live t true z = _
    rw [Function.update_apply, h.live z]
    by_cases hz : z = t
    · rw [if_pos hz]
      exact (decide_eq_true ((hmem' z).mpr (Or.inl hz))).symm
    · rw [if_neg hz]
      exact decide_eq_decide.mpr ((hmem' z).trans (or_iff_right hz)).symm

theorem Holds.adjust (h : s.Holds P l) {time : ℤ} (hstep : P.step (.adjust t time) = some P')
    (hrounds : l.length < rounds) :
    ∃ s' l', s.perform rounds (.adjust t time) = some s' ∧ s'.Holds P' l' ∧
      l'.length = l.length := by
  unfold Pending.step at hstep
  simp only at hstep
  cases hP : P t with
  | none => rw [hP] at hstep; cases hstep
  | some time' =>
    rw [hP] at hstep
    simp only at hstep
    split at hstep
    · next hlater =>
      cases hstep
      have hmem : t ∈ l := h.mem_iff.mp (by rw [hP]; rfl)
      have htime : time' = s.expire t := by
        rw [h.pending t, if_pos hmem] at hP
        exact (Option.some.inj hP).symm
      obtain ⟨l₁, l₂, rfl⟩ := List.append_of_mem hmem
      let s₁ : TimerLst := { s with expire := Function.update s.expire t time }
      have hreads : s₁.Reads (l₁ ++ t :: l₂) :=
        ⟨h.reads.linked, h.reads.nodup, h.reads.live, h.reads.notNull⟩
      have hkeep : ∀ z, z ≠ t → s₁.expire z = s.expire z :=
        fun z hz => Function.update_of_ne hz _ _
      have hself : s₁.expire t = time := Function.update_self _ _ _
      obtain ⟨s', hadjust, hreads', hexpire, hlives⟩ := adjustTimer_spec hreads
        (show l₂.length < rounds by
          rw [List.length_append, List.length_cons] at hrounds
          omega)
      have hperm : (l₁ ++ insertTimer s₁.expire t l₂).Perm (l₁ ++ t :: l₂) :=
        (insertTimer_perm s₁.expire t l₂).append_left l₁
      refine ⟨s', l₁ ++ insertTimer s₁.expire t l₂, ?_, ⟨hreads', ?_, fun z => ?_, fun z => ?_⟩,
        hperm.length_eq⟩
      · rw [← hadjust]
        simp [perform, setExpire, h.reads.live t hmem, s₁]
      · rw [hexpire]
        refine h.inTime.adjust (fun ht => (h.reads.ne_of_mem ht).1 rfl)
          (fun z hz => hkeep z (h.reads.ne_of_mem hz).1) ?_
        rw [hself, ← htime]
        exact hlater
      · rw [hexpire, Function.update_apply, h.pending z]
        by_cases hz : z = t
        · rw [if_pos hz, if_pos (hperm.mem_iff.mpr (hz ▸ hmem)), hz, hself]
        · rw [if_neg hz, hkeep z hz]
          exact if_congr hperm.mem_iff.symm rfl rfl
      · rw [hlives, show s₁.live z = s.live z from rfl, h.live z]
        exact decide_eq_decide.mpr hperm.mem_iff.symm
    · cases hstep

theorem Holds.del (h : s.Holds P l) (rounds : ℕ) (hstep : P.step (.del t) = some P') :
    ∃ s' l', s.perform rounds (.del t) = some s' ∧ s'.Holds P' l' ∧
      l'.length + 1 = l.length := by
  unfold Pending.step at hstep
  simp only at hstep
  split at hstep
  · next hsome =>
    cases hstep
    obtain ⟨l₁, l₂, rfl⟩ := List.append_of_mem (h.mem_iff.mp hsome)
    obtain ⟨s', hdel, hreads, hexpire, hlives⟩ := delTimer_spec h.reads
    have hsub : (l₁ ++ l₂).Sublist (l₁ ++ t :: l₂) :=
      (List.Sublist.refl l₁).append (List.sublist_cons_self t l₂)
    have ht : t ∉ l₁ ++ l₂ := fun ht => (h.reads.ne_of_mem ht).1 rfl
    have hmem : ∀ z, z ≠ t → (z ∈ l₁ ++ t :: l₂ ↔ z ∈ l₁ ++ l₂) := by
      intro z hz
      simp [hz]
    refine ⟨s', l₁ ++ l₂, hdel, ⟨hreads, ?_, fun z => ?_, fun z => ?_⟩,
      by rw [List.length_append, List.length_append, List.length_cons, Nat.add_assoc]⟩
    · rw [hexpire]
      exact h.inTime.sublist hsub
    · rw [hexpire, Function.update_apply, h.pending z]
      by_cases hz : z = t
      · rw [if_pos hz, if_neg (hz ▸ ht)]
      · rw [if_neg hz]
        exact if_congr (hmem z hz) rfl rfl
    · rw [hlives, Function.update_apply, h.live z]
      by_cases hz : z = t
      · rw [if_pos hz]
        exact (decide_eq_false (hz ▸ ht)).symm
      · rw [if_neg hz]
        exact decide_eq_decide.mpr (hmem z hz)
  · cases hstep

/-- **What `tick` calls back**, and what it leaves. -/
theorem Holds.tick (h : s.Holds P l) (hrounds : l.length < rounds) (cur : ℤ) :
    ∃ s', s.tick rounds cur = some (l.filter (due s.expire cur), s') ∧
      s'.Holds (fun t => (P t).filter (fun time => cur < time))
        (l.filter (fun t => !due s.expire cur t)) := by
  obtain ⟨s', htick, hreads, hexpire, hlives⟩ := tickLoop_spec cur h.reads hrounds
  rw [h.inTime.due_eq.1] at htick hlives
  rw [h.inTime.due_eq.2] at hreads
  have hmem : ∀ z, z ∈ l.filter (fun t => !due s.expire cur t) ↔ z ∈ l ∧ cur < s.expire z := by
    intro z
    rw [List.mem_filter]
    unfold due
    simp
  refine ⟨s', ?_, hreads, ?_, fun z => ?_, fun z => ?_⟩
  · unfold TimerLst.tick
    rw [h.reads.head_eq, htick]
    split
    · next hnull =>
      obtain rfl : l = [] := by
        cases l with
        | nil => rfl
        | cons t l => exact absurd (hnull ▸ List.mem_cons_self) h.reads.notNull
      obtain ⟨rounds, rfl⟩ : ∃ r, rounds = r + 1 := ⟨rounds - 1, by omega⟩
      simpa [tickLoop] using htick
    · rfl
  · rw [hexpire]
    exact h.inTime.sublist List.filter_sublist
  · rw [hexpire, h.pending z]
    by_cases hz : z ∈ l
    · rw [if_pos hz]
      by_cases hlt : cur < s.expire z
      · rw [if_pos ((hmem z).mpr ⟨hz, hlt⟩)]
        simp [hlt]
      · rw [if_neg fun hz' => hlt ((hmem z).mp hz').2]
        simp [Int.not_lt.mp hlt]
    · rw [if_neg hz, if_neg fun hz' => hz ((hmem z).mp hz').1]
      rfl
  · rw [hlives z, h.live z]
    by_cases hz : z ∈ l
    · by_cases hlt : cur < s.expire z
      · simp [due, hz, Int.not_le.mpr hlt]
      · simp [due, hz, Int.not_lt.mp hlt]
    · simp [hz]

/-- **One call.** -/
theorem Holds.perform (h : s.Holds P l) {op : Op} (hstep : P.step op = some P')
    (hrounds : l.length < rounds) :
    ∃ s' l', s.perform rounds op = some s' ∧ s'.Holds P' l' ∧ l'.length ≤ l.length + 1 := by
  cases op with
  | add t time =>
    obtain ⟨s', l', hs', hholds, hlength⟩ := h.add hstep hrounds
    exact ⟨s', l', hs', hholds, Nat.le_of_eq hlength⟩
  | adjust t time =>
    obtain ⟨s', l', hs', hholds, hlength⟩ := h.adjust hstep hrounds
    exact ⟨s', l', hs', hholds, hlength ▸ Nat.le_succ _⟩
  | del t =>
    obtain ⟨s', l', hs', hholds, hlength⟩ := h.del rounds hstep
    exact ⟨s', l', hs', hholds, by omega⟩
  | tick cur =>
    obtain ⟨s', htick, hholds⟩ := h.tick hrounds cur
    cases hstep
    refine ⟨s', _, ?_, hholds, Nat.le_succ_of_le (List.length_filter_le _ _)⟩
    show (s.tick rounds cur).map Prod.snd = _
    rw [htick]
    rfl

/-- **Every run.** -/
theorem Holds.exec (h : s.Holds P l) {ops : List Op}
    (hrun : Runs.exec Pending.step P ops = some P') (hrounds : l.length + ops.length < rounds) :
    ∃ s' l', Runs.exec (TimerLst.perform rounds) s ops = some s' ∧ s'.Holds P' l' ∧
      l'.length < rounds := by
  induction ops generalizing s P l with
  | nil =>
    obtain rfl : P = P' := Option.some.inj hrun
    exact ⟨s, l, rfl, h, hrounds⟩
  | cons op ops ih =>
    obtain ⟨Q, hstep, hrest⟩ := Runs.exec_cons_eq_some.mp hrun
    rw [List.length_cons] at hrounds
    obtain ⟨u, m, hu, hholds, hlength⟩ := h.perform hstep (show l.length < rounds by omega)
    obtain ⟨s', l', hs', hholds', hlength'⟩ := ih hholds hrest (by omega)
    exact ⟨s', l', Runs.exec_cons_eq_some.mpr ⟨u, hu, hs'⟩, hholds', hlength'⟩

/-- **`tick` calls back the timers that are due**, each once and in the order of
their times, after every run of calls in which a timer is added once, adjusted to
times that are not earlier, and not used after it was deleted or called back. No
such run follows a pointer that leads nowhere. -/
theorem tick_fires_due {ops : List Op} {P : Pending}
    (hrun : Runs.exec Pending.step (fun _ => none) ops = some P) {rounds : ℕ}
    (hrounds : ops.length < rounds) :
    ∃ s, Runs.exec (TimerLst.perform rounds) new ops = some s ∧
      ∀ cur, ∃ fired s', s.tick rounds cur = some (fired, s') ∧ fired.Nodup ∧
        (∀ t, t ∈ fired ↔ ∃ time, P t = some time ∧ time ≤ cur) ∧
        fired.Pairwise (fun t u => ∀ time time', P t = some time → P u = some time' →
          time ≤ time') := by
  obtain ⟨s, l, hs, hholds, hlength⟩ := holds_new.exec hrun
    (show ([] : List ℕ).length + ops.length < rounds by simpa using hrounds)
  refine ⟨s, hs, fun cur => ?_⟩
  obtain ⟨s', htick, -⟩ := hholds.tick hlength cur
  have htime : ∀ {t : ℕ} {time : ℤ}, P t = some time → t ∈ l ∧ time = s.expire t := by
    intro t time hP
    rw [hholds.pending t] at hP
    split at hP
    · next hmem => exact ⟨hmem, (Option.some.inj hP).symm⟩
    · cases hP
  refine ⟨_, s', htick, hholds.reads.nodup.sublist List.filter_sublist, fun t => ?_, ?_⟩
  · rw [List.mem_filter]
    unfold due
    constructor
    · rintro ⟨hmem, hdue⟩
      exact ⟨s.expire t, by rw [hholds.pending t, if_pos hmem], of_decide_eq_true hdue⟩
    · rintro ⟨time, hP, hle⟩
      obtain ⟨hmem, rfl⟩ := htime hP
      exact ⟨hmem, decide_eq_true hle⟩
  · refine (hholds.inTime.sublist List.filter_sublist).imp (fun {t u} htu time time' ht hu => ?_)
    rw [(htime ht).2, (htime hu).2]
    exact htu

/-- Three timers, of which one is moved behind and one deleted. -/
theorem tick_fires_due_three :
    ∃ P s, Runs.exec Pending.step (fun _ => none)
        [.add 7 15, .add 9 15, .add 8 12, .adjust 7 20, .del 8] = some P ∧
      Runs.exec (TimerLst.perform 6) new
        [.add 7 15, .add 9 15, .add 8 12, .adjust 7 20, .del 8] = some s ∧
      ∀ cur, ∃ fired s', s.tick 6 cur = some (fired, s') ∧ fired.Nodup ∧
        ∀ t, t ∈ fired ↔ ∃ time, P t = some time ∧ time ≤ cur := by
  have hrun : ∃ P, Runs.exec Pending.step (fun _ => none)
      [.add 7 15, .add 9 15, .add 8 12, .adjust 7 20, .del 8] = some P := by
    exact Option.isSome_iff_exists.mp (by decide)
  obtain ⟨P, hP⟩ := hrun
  obtain ⟨s, hs, hfires⟩ := tick_fires_due hP (show _ < 6 by decide)
  refine ⟨P, s, hP, hs, fun cur => ?_⟩
  obtain ⟨fired, s', htick, hnodup, hdue, -⟩ := hfires cur
  exact ⟨fired, s', htick, hnodup, hdue⟩

end TimerLst

end TinyWeb
