import LinuxStudy.DueTimers
import Mathlib.Data.List.Perm.Subperm

/-!
# The connections and their timers

`main` accepts connections, reads and writes where the kernel says it can, and
closes a connection by the timer it has been given: when the client hangs up, when
a read or a write fails, and when `tick` finds that nothing was read or written
for three time slots. All of this is one thread. A worker may close a connection
too: `process` does so where there is no answer to be written (for a file that is
not there, for example), by `close_conn`, which knows nothing of the timer.

As long as no worker does, the server keeps to `Sessions`: a connection is open
from its acceptance to the first of these events, and `m_user_count` is how many
are open (**`serves_sessions`**). Every connection that a worker closes leaves its
timer behind, and a timer that is left behind takes one off `m_user_count` a second
time, for good (**`userCount_of_all_idle`**).

The kernel gives the numbers of new connections, the addresses of new timers, and
the time; a number is below `MAX_FD`, since `users` has no more elements. What a
worker does to `m_user_count` is done at once here. `m_user_count` is an integer
without bounds.
-/

namespace TinyWeb

/-- **What `main` and the workers share**, and the kernel's part of it. -/
structure Server where
  timerLst : TimerLst
  /-- `users_timer[fd].timer`. -/
  usersTimer : ℕ → ℕ
  /-- `timer->user_data`, as the descriptor it has the data of. -/
  userData : ℕ → ℕ
  /-- Whether `users[fd].m_sockfd` is `fd`, and not `-1`. -/
  sockfd : ℕ → Bool
  userCount : ℤ
  /-- The descriptors that are connections. -/
  opened : ℕ → Bool
  /-- The last time the kernel gave. -/
  clock : ℤ

namespace Server

/-- `MAX_FD`. -/
def maxFd : ℕ := 65536

/-- `TIMESLOT`, in seconds. -/
def timeslot : ℤ := 5

/-- Before the loop of `main`. -/
def start (clock : ℤ) : Server where
  timerLst := TimerLst.new
  usersTimer _ := TimerLst.null
  userData _ := 0
  sockfd _ := false
  userCount := 0
  opened _ := false
  clock := clock

/-- What the server does next, with what the kernel answers. -/
inductive Event
  /-- `accept` returns `connfd`, and `new` returns `timer`. -/
  | accept (connfd timer : ℕ) (cur : ℤ)
  /-- `EPOLLRDHUP`, `EPOLLHUP` or `EPOLLERR`. -/
  | hangUp (sockfd : ℕ)
  /-- `EPOLLIN`, with what `read_once` returns. -/
  | readable (sockfd : ℕ) (done : Bool) (cur : ℤ)
  /-- `EPOLLOUT`, with what `write` returns. -/
  | writable (sockfd : ℕ) (done : Bool) (cur : ℤ)
  /-- `SIGALRM`. -/
  | alarm (cur : ℤ)
  /-- A worker's `process` has no answer. -/
  | closeConn (sockfd : ℕ)

/-- `cb_func`. -/
def cbFunc (s : Server) (sockfd : ℕ) : Server :=
  { s with opened := Function.update s.opened sockfd false, userCount := s.userCount - 1 }

/-- A connection is accepted: `init`, and a timer for it. With too many of them
it is closed at once. -/
def accept (rounds : ℕ) (s : Server) (connfd timer : ℕ) (cur : ℤ) : Option Server :=
  if maxFd ≤ s.userCount then some { s with clock := cur }
  else if maxFd ≤ connfd then none
  else do
    let lst ← s.timerLst.newTimer timer
    let lst ← lst.setExpire timer (cur + 3 * timeslot)
    let lst ← lst.addTimer rounds timer
    return { s with
      timerLst := lst
      usersTimer := Function.update s.usersTimer connfd timer
      userData := Function.update s.userData timer connfd
      sockfd := Function.update s.sockfd connfd true
      userCount := s.userCount + 1
      opened := Function.update s.opened connfd true
      clock := cur }

/-- A connection is closed by its timer: `cb_func` and `del_timer`. -/
def shut (s : Server) (sockfd : ℕ) : Option Server := do
  let timer := s.usersTimer sockfd
  if s.timerLst.live timer = false then none
  let s := s.cbFunc sockfd
  if timer = TimerLst.null then return s
  return { s with timerLst := ← s.timerLst.delTimer timer }

/-- The timer of a connection is put off. -/
def putOff (rounds : ℕ) (s : Server) (sockfd : ℕ) (cur : ℤ) : Option Server := do
  let timer := s.usersTimer sockfd
  if timer = TimerLst.null then return { s with clock := cur }
  let lst ← s.timerLst.setExpire timer (cur + 3 * timeslot)
  return { s with timerLst := ← lst.adjustTimer rounds timer, clock := cur }

/-- `timer_handler`. The callbacks leave the list alone. -/
def timerHandler (rounds : ℕ) (s : Server) (cur : ℤ) : Option Server := do
  let (fired, lst) ← s.timerLst.tick rounds cur
  return (fired.map s.userData).foldl cbFunc { s with timerLst := lst, clock := cur }

/-- `close_conn`. -/
def closeConn (s : Server) (sockfd : ℕ) : Server :=
  if s.sockfd sockfd then
    { s with
      opened := Function.update s.opened sockfd false
      sockfd := Function.update s.sockfd sockfd false
      userCount := s.userCount - 1 }
  else s

/-- **One event.** -/
def handle (rounds : ℕ) (s : Server) : Event → Option Server
  | .accept connfd timer cur => s.accept rounds connfd timer cur
  | .hangUp sockfd => s.shut sockfd
  | .readable sockfd done cur =>
    if done then s.putOff rounds sockfd cur else { s with clock := cur }.shut sockfd
  | .writable sockfd done cur =>
    if done then s.putOff rounds sockfd cur else { s with clock := cur }.shut sockfd
  | .alarm cur => s.timerHandler rounds cur
  | .closeConn sockfd => some (s.closeConn sockfd)

/-- **What the kernel promises.** A new descriptor is none that is open, a new
timer is where there is none, an event comes for a connection that is open, and
time does not go back. -/
def Possible (s : Server) : Event → Prop
  | .accept connfd timer cur =>
    s.opened connfd = false ∧ connfd < maxFd ∧ timer ≠ TimerLst.null ∧
      s.timerLst.live timer = false ∧ s.clock ≤ cur
  | .hangUp sockfd => s.opened sockfd = true
  | .readable sockfd _ cur => s.opened sockfd = true ∧ s.clock ≤ cur
  | .writable sockfd _ cur => s.opened sockfd = true ∧ s.clock ≤ cur
  | .alarm cur => s.clock ≤ cur
  | .closeConn _ => True

instance (s : Server) : (e : Event) → Decidable (s.Possible e)
  | .accept _ _ _ => inferInstanceAs (Decidable (_ ∧ _))
  | .hangUp _ => inferInstanceAs (Decidable (_ = _))
  | .readable _ _ _ => inferInstanceAs (Decidable (_ ∧ _))
  | .writable _ _ _ => inferInstanceAs (Decidable (_ ∧ _))
  | .alarm _ => inferInstanceAs (Decidable (_ ≤ _))
  | .closeConn _ => inferInstanceAs (Decidable True)

/-! ## Every open connection has its timer

A worker that closes a connection takes one off the count and leaves the timer
where it is. When the number is used again, a new timer is made and the old one
stays in the list, with a pointer to the data of the same number; when it is due
it closes what is there. Each timer that is called back takes one off the count.
So the count is the number of the timers, less one for every connection that a
worker has closed, and this is what is kept in every run. -/

open TimerLst (Pending)

variable {s s' : Server} {P P' : Pending} {l l' : List ℕ} {rounds connfd sockfd timer : ℕ} {cur : ℤ}

/-- **Every open connection has its timer**, which is due three time slots after
the last time at most. -/
structure Keeps (s : Server) (P : Pending) (l : List ℕ) : Prop where
  holds : s.timerLst.Holds P l
  timed : ∀ fd, s.opened fd = true → (P (s.usersTimer fd)).isSome ∧
    s.userData (s.usersTimer fd) = fd
  soon : ∀ t time, P t = some time → time ≤ s.clock + 3 * timeslot
  below : ∀ fd, s.opened fd = true → fd < maxFd

theorem keeps_start (clock : ℤ) : (start clock).Keeps (fun _ => none) [] where
  holds := TimerLst.holds_new
  timed _ h := Bool.noConfusion h
  soon _ _ h := Option.noConfusion rfl (heq_of_eq h)
  below _ h := Bool.noConfusion h

/-- What the callbacks do. -/
theorem foldl_cbFunc (s : Server) (fds : List ℕ) :
    fds.foldl cbFunc s = { s with
      opened := fun fd => s.opened fd && !decide (fd ∈ fds)
      userCount := s.userCount - fds.length } := by
  induction fds generalizing s with
  | nil => simp
  | cons fd fds ih =>
    rw [List.foldl_cons, ih]
    unfold cbFunc
    congr 1
    · show s.userCount - 1 - _ = _
      rw [List.length_cons]
      omega
    · funext z
      by_cases hz : z = fd <;> simp [hz]

/-- A connection with its timer, once there is room. -/
theorem Keeps.accept (h : s.Keeps P l) (hp : s.Possible (.accept connfd timer cur))
    (hroom : s.userCount < maxFd) (hrounds : l.length < rounds) :
    ∃ lst l', s.accept rounds connfd timer cur = some { s with
        timerLst := lst
        usersTimer := Function.update s.usersTimer connfd timer
        userData := Function.update s.userData timer connfd
        sockfd := Function.update s.sockfd connfd true
        userCount := s.userCount + 1
        opened := Function.update s.opened connfd true
        clock := cur } ∧
      P timer = none ∧
      lst.Holds (Function.update P timer (some (cur + 3 * timeslot))) l' ∧
      l'.length = l.length + 1 := by
  obtain ⟨-, hfd, hnull, hlive, -⟩ := hp
  have hnone : P timer = none := by
    rw [h.holds.live timer] at hlive
    rw [h.holds.pending timer]
    exact if_neg (of_decide_eq_false hlive)
  have hstep : P.step (.add timer (cur + 3 * timeslot))
      = some (Function.update P timer (some (cur + 3 * timeslot))) := by
    unfold TimerLst.Pending.step
    exact if_neg (by simp [hnull, hnone])
  obtain ⟨lst, l', hadd, hholds, hlength⟩ := h.holds.add hstep hrounds
  refine ⟨lst, l', ?_, hnone, hholds, hlength⟩
  unfold Server.accept
  rw [if_neg (Int.not_le.mpr hroom), if_neg (Nat.not_le.mpr hfd)]
  unfold TimerLst.perform at hadd
  simp only [Option.bind_eq_bind, Option.bind_eq_some_iff] at hadd
  obtain ⟨u, hu, v, hv, hlst⟩ := hadd
  simp [hu, hv, hlst]

theorem Keeps.pending (h : s.Keeps P l) (ho : s.opened sockfd = true) :
    s.usersTimer sockfd ∈ l ∧ s.timerLst.live (s.usersTimer sockfd) = true ∧
      s.usersTimer sockfd ≠ TimerLst.null := by
  have hmem := h.holds.mem_iff.mp (h.timed sockfd ho).1
  refine ⟨hmem, h.holds.reads.live _ hmem, fun hnull => ?_⟩
  exact h.holds.reads.notNull (hnull ▸ hmem)

/-- An open connection is closed by its timer. -/
theorem Keeps.shut (h : s.Keeps P l) (ho : s.opened sockfd = true) :
    ∃ lst l', s.shut sockfd = some { s with
        timerLst := lst
        opened := Function.update s.opened sockfd false
        userCount := s.userCount - 1 } ∧
      lst.Holds (Function.update P (s.usersTimer sockfd) none) l' ∧ l'.length + 1 = l.length := by
  obtain ⟨-, hlive, hnull⟩ := h.pending ho
  have hstep : P.step (.del (s.usersTimer sockfd))
      = some (Function.update P (s.usersTimer sockfd) none) := by
    unfold TimerLst.Pending.step
    exact if_pos (h.timed sockfd ho).1
  obtain ⟨lst, l', hdel, hholds, hlength⟩ := h.holds.del 0 hstep
  refine ⟨lst, l', ?_, hholds, hlength⟩
  unfold TimerLst.perform at hdel
  simp only at hdel
  simp [Server.shut, cbFunc, hlive, hnull, hdel]

/-- The timer of an open connection is put off. -/
theorem Keeps.putOff (h : s.Keeps P l) (ho : s.opened sockfd = true) (hclock : s.clock ≤ cur)
    (hrounds : l.length < rounds) :
    ∃ lst l', s.putOff rounds sockfd cur = some { s with timerLst := lst, clock := cur } ∧
      lst.Holds (Function.update P (s.usersTimer sockfd) (some (cur + 3 * timeslot))) l' ∧
      l'.length = l.length := by
  obtain ⟨-, hlive, hnull⟩ := h.pending ho
  obtain ⟨time, htime⟩ := Option.isSome_iff_exists.mp (h.timed sockfd ho).1
  have hle : time ≤ cur + 3 * timeslot :=
    Int.le_trans (h.soon _ _ htime) (Int.add_le_add_right hclock _)
  have hstep : P.step (.adjust (s.usersTimer sockfd) (cur + 3 * timeslot))
      = some (Function.update P (s.usersTimer sockfd) (some (cur + 3 * timeslot))) := by
    unfold TimerLst.Pending.step
    simp [htime, hle]
  obtain ⟨lst, l', hadjust, hholds, hlength⟩ := h.holds.adjust hstep hrounds
  refine ⟨lst, l', ?_, hholds, hlength⟩
  unfold TimerLst.perform at hadjust
  simp only [Option.bind_eq_bind, Option.bind_eq_some_iff] at hadjust
  obtain ⟨u, hu, hlst⟩ := hadjust
  simp [Server.putOff, hnull, hu, hlst]

/-- The timers that are due are called back. -/
theorem Keeps.timerHandler (h : s.Keeps P l) (hrounds : l.length < rounds) (cur : ℤ) :
    ∃ (lst : TimerLst) (fired l' : List ℕ), s.timerHandler rounds cur = some { s with
        timerLst := lst
        opened := fun fd => s.opened fd && !decide (fd ∈ fired.map s.userData)
        userCount := s.userCount - fired.length
        clock := cur } ∧
      lst.Holds (fun t => (P t).filter (fun time => cur < time)) l' ∧
      (∀ t, t ∈ fired ↔ ∃ time, P t = some time ∧ time ≤ cur) ∧
      fired.length + l'.length = l.length := by
  obtain ⟨lst, htick, hholds⟩ := h.holds.tick hrounds cur
  refine ⟨lst, l.filter (TimerLst.due s.timerLst.expire cur), _, ?_, hholds, fun t => ?_, ?_⟩
  · unfold Server.timerHandler
    rw [htick]
    show some _ = _
    rw [foldl_cbFunc, List.length_map]
  · rw [List.mem_filter, h.holds.pending t]
    unfold TimerLst.due
    by_cases ht : t ∈ l <;> simp [ht]
  · exact (List.length_eq_length_filter_add _).symm

/-- The worker's part of `close_conn`, where it does anything. -/
def closing (s : Server) : Event → List ℕ
  | .closeConn sockfd => if s.sockfd sockfd then [sockfd] else []
  | _ => []

theorem Keeps.of_accept (h : s.Keeps P l) (hp : s.Possible (.accept connfd timer cur))
    (hnone : P timer = none) {lst : TimerLst}
    (hlst : lst.Holds (Function.update P timer (some (cur + 3 * timeslot))) l') {n : ℤ} :
    ({ s with
      timerLst := lst
      usersTimer := Function.update s.usersTimer connfd timer
      userData := Function.update s.userData timer connfd
      sockfd := Function.update s.sockfd connfd true
      userCount := n
      opened := Function.update s.opened connfd true
      clock := cur } : Server).Keeps (Function.update P timer (some (cur + 3 * timeslot))) l' where
  holds := hlst
  timed fd ho := by
    by_cases hfd : fd = connfd
    · subst hfd
      simp
    · have ho' : s.opened fd = true := by simpa [hfd] using ho
      obtain ⟨hsome, hdata⟩ := h.timed fd ho'
      have hne : s.usersTimer fd ≠ timer := by
        intro heq
        rw [heq, hnone] at hsome
        cases hsome
      simp [hfd, hne, hsome, hdata]
  soon t time ht := by
    show time ≤ cur + 3 * timeslot
    rw [Function.update_apply] at ht
    split at ht
    · exact Int.le_of_eq (Option.some.inj ht).symm
    · exact Int.le_trans (h.soon t time ht) (Int.add_le_add_right hp.2.2.2.2 _)
  below fd ho := by
    by_cases hfd : fd = connfd
    · exact hfd ▸ hp.2.1
    · exact h.below fd (by simpa [hfd] using ho)

theorem Keeps.later (h : s.Keeps P l) (hclock : s.clock ≤ cur) :
    ({ s with clock := cur } : Server).Keeps P l where
  holds := h.holds
  timed := h.timed
  soon t time ht := Int.le_trans (h.soon t time ht) (Int.add_le_add_right hclock _)
  below := h.below

theorem Keeps.of_shut (h : s.Keeps P l) (ho : s.opened sockfd = true) {lst : TimerLst}
    (hlst : lst.Holds (Function.update P (s.usersTimer sockfd) none) l') {n : ℤ} :
    ({ s with
      timerLst := lst
      opened := Function.update s.opened sockfd false
      userCount := n } : Server).Keeps (Function.update P (s.usersTimer sockfd) none) l' where
  holds := hlst
  timed fd hfd := by
    have hne : fd ≠ sockfd := by
      rintro rfl
      simp at hfd
    have hfd' : s.opened fd = true := by simpa [hne] using hfd
    obtain ⟨hsome, hdata⟩ := h.timed fd hfd'
    have htimer : s.usersTimer fd ≠ s.usersTimer sockfd := by
      intro heq
      exact hne (by rw [← hdata, heq, (h.timed sockfd ho).2])
    simp [htimer, hsome, hdata]
  soon t time ht := by
    rw [Function.update_apply] at ht
    split at ht
    · cases ht
    · exact h.soon t time ht
  below fd hfd := by
    refine h.below fd ?_
    by_cases hne : fd = sockfd
    · exact hne ▸ ho
    · simpa [hne] using hfd

theorem Keeps.of_putOff (h : s.Keeps P l) (hclock : s.clock ≤ cur)
    {lst : TimerLst}
    (hlst : lst.Holds (Function.update P (s.usersTimer sockfd) (some (cur + 3 * timeslot))) l') :
    ({ s with timerLst := lst, clock := cur } : Server).Keeps
      (Function.update P (s.usersTimer sockfd) (some (cur + 3 * timeslot))) l' where
  holds := hlst
  timed fd hfd := by
    obtain ⟨hsome, hdata⟩ := h.timed fd hfd
    refine ⟨?_, hdata⟩
    show (Function.update P (s.usersTimer sockfd) _ (s.usersTimer fd)).isSome
    rw [Function.update_apply]
    split
    · rfl
    · exact hsome
  soon t time ht := by
    show time ≤ cur + 3 * timeslot
    rw [Function.update_apply] at ht
    split at ht
    · exact Int.le_of_eq (Option.some.inj ht).symm
    · exact Int.le_trans (h.soon t time ht) (Int.add_le_add_right hclock _)
  below := h.below

theorem Keeps.of_tick (h : s.Keeps P l) (hclock : s.clock ≤ cur) {lst : TimerLst} {fired : List ℕ}
    (hlst : lst.Holds (fun t => (P t).filter (fun time => cur < time)) l')
    (hfired : ∀ t, t ∈ fired ↔ ∃ time, P t = some time ∧ time ≤ cur) {n : ℤ} :
    ({ s with
      timerLst := lst
      opened := fun fd => s.opened fd && !decide (fd ∈ fired.map s.userData)
      userCount := n
      clock := cur } : Server).Keeps (fun t => (P t).filter (fun time => cur < time)) l' where
  holds := hlst
  timed fd hfd := by
    obtain ⟨ho, hnot⟩ := (Bool.and_eq_true _ _).mp hfd
    obtain ⟨hsome, hdata⟩ := h.timed fd ho
    obtain ⟨time, htime⟩ := Option.isSome_iff_exists.mp hsome
    refine ⟨?_, hdata⟩
    have hlt : cur < time := by
      refine Int.not_le.mp fun hle => ?_
      have hmem := List.mem_map_of_mem (f := s.userData) ((hfired _).mpr ⟨time, htime, hle⟩)
      rw [hdata] at hmem
      simp [hmem] at hnot
    show ((P (s.usersTimer fd)).filter _).isSome
    rw [htime]
    simp [hlt]
  soon t time ht :=
    Int.le_trans (h.soon t time (Option.mem_filter_iff.mp ht).1) (Int.add_le_add_right hclock _)
  below fd hfd := h.below fd ((Bool.and_eq_true _ _).mp hfd).1

/-- **One event.** No pointer is followed that leads nowhere, and every callback
takes one off `m_user_count`, as does every connection that a worker closes. -/
theorem Keeps.handle (h : s.Keeps P l) {e : Event} (hp : s.Possible e)
    (hrounds : l.length < rounds) :
    ∃ s' P' l', s.handle rounds e = some s' ∧ s'.Keeps P' l' ∧ l'.length ≤ l.length + 1 ∧
      s'.userCount - l'.length + (s.closing e).length = s.userCount - l.length := by
  have hshut : ∀ {s : Server} {sockfd : ℕ}, s.Keeps P l → s.opened sockfd = true →
      ∃ s' P' l', s.shut sockfd = some s' ∧ s'.Keeps P' l' ∧ l'.length ≤ l.length + 1 ∧
        s'.userCount - l'.length + ([] : List ℕ).length = s.userCount - l.length := by
    intro s sockfd h ho
    obtain ⟨lst, l', hshut, hlst, hlength⟩ := h.shut ho
    refine ⟨_, _, l', hshut, h.of_shut ho hlst, by omega, ?_⟩
    show s.userCount - 1 - _ + ((0 : ℕ) : ℤ) = _
    omega
  have hputOff : ∀ {sockfd : ℕ} {cur : ℤ}, s.opened sockfd = true → s.clock ≤ cur →
      ∃ s' P' l', s.putOff rounds sockfd cur = some s' ∧ s'.Keeps P' l' ∧
        l'.length ≤ l.length + 1 ∧
        s'.userCount - l'.length + ([] : List ℕ).length = s.userCount - l.length := by
    intro sockfd cur ho hclock
    obtain ⟨lst, l', hputOff, hlst, hlength⟩ := h.putOff ho hclock hrounds
    refine ⟨_, _, l', hputOff, h.of_putOff hclock hlst, by omega, ?_⟩
    show s.userCount - _ + ((0 : ℕ) : ℤ) = _
    omega
  cases e with
  | accept connfd timer cur =>
    by_cases hroom : s.userCount < maxFd
    · obtain ⟨lst, l', haccept, hnone, hlst, hlength⟩ := h.accept hp hroom hrounds
      refine ⟨_, _, l', haccept, h.of_accept hp hnone hlst, Nat.le_of_eq hlength, ?_⟩
      show s.userCount + 1 - _ + ((0 : ℕ) : ℤ) = _
      omega
    · refine ⟨{ s with clock := cur }, P, l, if_pos (Int.not_lt.mp hroom), h.later hp.2.2.2.2,
        Nat.le_succ _, ?_⟩
      show s.userCount - _ + ((0 : ℕ) : ℤ) = _
      omega
  | hangUp sockfd => exact hshut h hp
  | readable sockfd done cur =>
    cases done with
    | true => exact hputOff hp.1 hp.2
    | false => exact hshut (h.later hp.2) hp.1
  | writable sockfd done cur =>
    cases done with
    | true => exact hputOff hp.1 hp.2
    | false => exact hshut (h.later hp.2) hp.1
  | alarm cur =>
    obtain ⟨lst, fired, l', hhandler, hlst, hfired, hlength⟩ := h.timerHandler hrounds cur
    refine ⟨_, _, l', hhandler, h.of_tick hp hlst hfired, by omega, ?_⟩
    show s.userCount - _ - _ + ((0 : ℕ) : ℤ) = _
    omega
  | closeConn sockfd =>
    refine ⟨s.closeConn sockfd, P, l, rfl, ?_, Nat.le_succ _, ?_⟩
    · unfold Server.closeConn
      split
      · refine ⟨h.holds, fun fd ho => ?_, h.soon, fun fd ho => ?_⟩
        · refine h.timed fd ?_
          by_cases hfd : fd = sockfd <;> simp_all
        · refine h.below fd ?_
          by_cases hfd : fd = sockfd <;> simp_all
      · exact h
    · unfold Server.closeConn closing
      simp only
      split
      · rw [List.length_singleton]
        show s.userCount - 1 - _ + ((1 : ℕ) : ℤ) = _
        omega
      · rw [List.length_nil]
        omega

/-- **Every run.** -/
theorem Keeps.exec (h : s.Keeps P l) {events : List Event}
    (hp : Runs.Guarded (Server.handle rounds) Possible s events)
    (hrounds : l.length + events.length < rounds) :
    ∃ s' P' l', Runs.exec (Server.handle rounds) s events = some s' ∧ s'.Keeps P' l' ∧
      l'.length < rounds ∧
      s'.userCount - l'.length + (Runs.trace (Server.handle rounds) closing s events).length
        = s.userCount - l.length := by
  induction events generalizing s P l with
  | nil =>
    refine ⟨s, P, l, rfl, h, hrounds, ?_⟩
    show s.userCount - _ + ((0 : ℕ) : ℤ) = _
    omega
  | cons e events ih =>
    rw [List.length_cons] at hrounds
    obtain ⟨u, Q, m, hu, hkeeps, hlength, hcount⟩ := h.handle hp.1 (show l.length < rounds by omega)
    obtain ⟨s', P', l', hs', hkeeps', hlength', hcount'⟩ := ih hkeeps (hp.2 u hu) (by omega)
    refine ⟨s', P', l', Runs.exec_cons_eq_some.mpr ⟨u, hu, hs'⟩, hkeeps', hlength', ?_⟩
    rw [Runs.trace, hu, Option.map_some, Option.getD_some, List.length_append]
    omega

/-- **Alarms and nothing else.** The timers that are due are called back, so none is
left once an alarm comes after the last of their times. -/
theorem Keeps.alarms (h : s.Keeps P l) {last : ℤ} (hlast : ∀ t time, P t = some time → time ≤ last)
    (hrounds : l.length < rounds) {alarms : List ℤ} (htime : (s.clock :: alarms).IsChain (· ≤ ·)) :
    ∃ s' P' l', Runs.exec (Server.handle rounds) s (alarms.map .alarm) = some s' ∧ s'.Keeps P' l' ∧
      s'.userCount - l'.length = s.userCount - l.length ∧
      (l = [] ∨ (∃ cur ∈ alarms, last ≤ cur) → l' = []) := by
  induction alarms generalizing s P l with
  | nil =>
    refine ⟨s, P, l, rfl, h, rfl, ?_⟩
    rintro (hnil | ⟨cur, hcur, -⟩)
    · exact hnil
    · exact absurd hcur List.not_mem_nil
  | cons cur alarms ih =>
    obtain ⟨hclock, hchain⟩ := List.isChain_cons_cons.mp htime
    obtain ⟨lst, fired, m, hhandler, hlst, hfired, hlength⟩ := h.timerHandler hrounds cur
    have hkeeps := h.of_tick hclock hlst hfired (n := s.userCount - fired.length)
    obtain ⟨s', P', l', hs', hkeeps', hcount', hnone'⟩ := ih hkeeps
      (fun t time ht => hlast t time (Option.mem_filter_iff.mp ht).1) (by omega) hchain
    refine ⟨s', P', l', Runs.exec_cons_eq_some.mpr ⟨_, hhandler, hs'⟩, hkeeps', ?_, fun hend => ?_⟩
    · have hcount : s'.userCount - l'.length = s.userCount - fired.length - m.length := hcount'
      omega
    · refine hnone' ?_
      by_cases hlater : ∃ cur' ∈ alarms, last ≤ cur'
      · exact Or.inr hlater
      · -- this alarm is after all of the times
        refine Or.inl (List.eq_nil_iff_forall_not_mem.mpr fun t ht => ?_)
        obtain ⟨time, htime⟩ := Option.isSome_iff_exists.mp (hlst.mem_iff.mpr ht)
        obtain ⟨hP, hlt⟩ := Option.mem_filter_iff.mp htime
        rcases hend with rfl | ⟨cur', hcur', hle⟩
        · exact absurd (h.holds.mem_iff.mp (by rw [hP]; rfl)) List.not_mem_nil
        · rcases List.mem_cons.mp hcur' with rfl | hin
          · exact Int.not_lt.mpr (Int.le_trans (hlast t time hP) hle) (of_decide_eq_true hlt)
          · exact hlater ⟨cur', hin, hle⟩

/-- **A connection that a worker closes is counted twice.** After any events,
once only alarms have come, the last of them three time slots later or more, every
connection is closed, and `m_user_count` is not `0` but less by the number of
connections that were closed by a worker. No run follows a pointer that leads
nowhere. -/
theorem userCount_of_all_idle {clock : ℤ} {events : List Event}
    (hp : Runs.Guarded (handle rounds) Possible (start clock) events)
    (hrounds : events.length < rounds) :
    ∃ s, Runs.exec (handle rounds) (start clock) events = some s ∧
      ∀ alarms : List ℤ, (s.clock :: alarms).IsChain (· ≤ ·) →
        (∃ cur ∈ alarms, s.clock + 3 * timeslot ≤ cur) →
        ∃ s', Runs.exec (handle rounds) s (alarms.map .alarm) = some s' ∧
          (∀ fd, s'.opened fd = false) ∧
          s'.userCount
            = -((Runs.trace (handle rounds) closing (start clock) events).length : ℤ) := by
  obtain ⟨s, P, l, hs, hkeeps, hlength, hcount⟩ :=
    (keeps_start clock).exec hp (by simpa using hrounds)
  refine ⟨s, hs, fun alarms htime hidle => ?_⟩
  obtain ⟨s', P', l', hs', hkeeps', hcount', hnone⟩ := hkeeps.alarms hkeeps.soon hlength htime
  obtain rfl := hnone (Or.inr hidle)
  refine ⟨s', hs', fun fd => ?_, ?_⟩
  · cases ho : s'.opened fd with
    | false => rfl
    | true => exact absurd (hkeeps'.pending ho).1 List.not_mem_nil
  · have hzero : (start clock).userCount = 0 := rfl
    rw [hzero, List.length_nil] at hcount
    rw [List.length_nil] at hcount'
    omega

/-- One of two connections is closed by a worker, and its number is used again. The
alarms come every five seconds. -/
theorem userCount_of_all_idle_reused :
    ∃ s s', Runs.exec (handle 6) (start 0)
        [.accept 8 40 0, .accept 9 41 2, .closeConn 8, .accept 8 42 4] = some s ∧
      Runs.exec (handle 6) s ([9, 14, 19].map .alarm) = some s' ∧
      (∀ fd, s'.opened fd = false) ∧ s'.userCount = -1 := by
  have hclock : ∀ s ∈ Runs.exec (handle 6) (start 0)
      [.accept 8 40 0, .accept 9 41 2, .closeConn 8, .accept 8 42 4], s.clock = 4 := by
    decide
  have hclosed : (Runs.trace (handle 6) closing (start 0)
      [.accept 8 40 0, .accept 9 41 2, .closeConn 8, .accept 8 42 4]).length = 1 := by
    decide
  have hpossible : Runs.Guarded (handle 6) Possible (start 0)
      [.accept 8 40 0, .accept 9 41 2, .closeConn 8, .accept 8 42 4] := by
    decide
  obtain ⟨s, hs, hidle⟩ := userCount_of_all_idle hpossible (by decide)
  rw [hclock s hs, hclosed] at hidle
  obtain ⟨s', hs', hopened, hcount⟩ := hidle [9, 14, 19] (by decide) ⟨19, by decide, by decide⟩
  exact ⟨s, s', hs, hs', hopened, hcount⟩

/-! ## As long as no worker closes a connection

Here each timer is that of an open connection, and each open connection has one.
The times of the timers are three time slots after the last activity, so what an
alarm closes are the connections that were idle for so long. The count is the
number of the open connections. -/

/-- **When the connections that are open were last active.** -/
abbrev Sessions := ℕ → Option ℤ

/-- **What the server is for.** A connection is open from its acceptance until the
client hangs up, a read or a write fails, or it was not active for three time
slots when `SIGALRM` comes. -/
def Sessions.next (S : Sessions) : Event → Sessions
  | .accept connfd _ cur => Function.update S connfd (some cur)
  | .hangUp sockfd => Function.update S sockfd none
  | .readable sockfd done cur => Function.update S sockfd (if done then some cur else none)
  | .writable sockfd done cur => Function.update S sockfd (if done then some cur else none)
  | .alarm cur => fun fd => (S fd).filter (fun last => cur < last + 3 * timeslot)
  | .closeConn sockfd => Function.update S sockfd none

variable {S : Sessions}

/-- **The server keeps to the sessions.** Every timer is the one of an open
connection. -/
structure Serves (s : Server) (P : Pending) (l : List ℕ) (S : Sessions) : Prop where
  keeps : s.Keeps P l
  alone : ∀ t, (P t).isSome → s.opened (s.userData t) = true ∧ s.usersTimer (s.userData t) = t
  last : ∀ fd, S fd = if s.opened fd then (P (s.usersTimer fd)).map (· - 3 * timeslot) else none
  counted : s.userCount = l.length

theorem serves_start (clock : ℤ) : (start clock).Serves (fun _ => none) [] (fun _ => none) where
  keeps := keeps_start clock
  alone _ h := Bool.noConfusion h
  last _ := rfl
  counted := rfl

/-- The open connections, in the order of their timers. -/
theorem Serves.fds (h : s.Serves P l S) :
    (l.map s.userData).Nodup ∧ ∀ fd, fd ∈ l.map s.userData ↔ s.opened fd = true := by
  have halone : ∀ t ∈ l, s.opened (s.userData t) = true ∧ s.usersTimer (s.userData t) = t :=
    fun t ht => h.alone t (h.keeps.holds.mem_iff.mpr ht)
  refine ⟨h.keeps.holds.reads.nodup.map_on fun t ht u hu heq => ?_, fun fd => ⟨fun hfd => ?_, ?_⟩⟩
  · rw [← (halone t ht).2, heq, (halone u hu).2]
  · obtain ⟨t, ht, rfl⟩ := List.mem_map.mp hfd
    exact (halone t ht).1
  · intro ho
    obtain ⟨hsome, hdata⟩ := h.keeps.timed fd ho
    exact List.mem_map.mpr ⟨_, h.keeps.holds.mem_iff.mp hsome, hdata⟩

/-- **There is room for every connection**, since the kernel's numbers come to an
end before. -/
theorem Serves.room (h : s.Serves P l S) (hnew : s.opened connfd = false) (hfd : connfd < maxFd) :
    s.userCount < maxFd := by
  obtain ⟨hnodup, hmem⟩ := h.fds
  have hcons : (connfd :: l.map s.userData).Nodup := by
    refine List.nodup_cons.mpr ⟨fun hin => ?_, hnodup⟩
    rw [(hmem connfd).mp hin] at hnew
    cases hnew
  have hsub : connfd :: l.map s.userData ⊆ List.range maxFd := by
    intro fd hin
    rcases List.mem_cons.mp hin with rfl | hin
    · exact List.mem_range.mpr hfd
    · exact List.mem_range.mpr (h.keeps.below fd ((hmem fd).mp hin))
  have hlength := (List.subperm_of_subset hcons hsub).length_le
  rw [List.length_cons, List.length_map, List.length_range] at hlength
  rw [h.counted]
  omega

theorem Serves.accept (h : s.Serves P l S) (hp : s.Possible (.accept connfd timer cur))
    (hrounds : l.length < rounds) :
    ∃ s' P' l', s.accept rounds connfd timer cur = some s' ∧
      s'.Serves P' l' (Function.update S connfd (some cur)) := by
  obtain ⟨lst, l', haccept, hnone, hlst, hlength⟩ :=
    h.keeps.accept hp (h.room hp.1 hp.2.1) hrounds
  refine ⟨_, _, l', haccept, h.keeps.of_accept hp hnone hlst, fun t ht => ?_, fun fd => ?_, ?_⟩
  · by_cases htimer : t = timer
    · simp [htimer]
    · have ht' : (P t).isSome := by simpa [htimer] using ht
      obtain ⟨ho, halone⟩ := h.alone t ht'
      have hne : s.userData t ≠ connfd := by
        intro heq
        rw [heq, hp.1] at ho
        cases ho
      simp [htimer, hne, ho, halone]
  · by_cases hfd : fd = connfd
    · simp [hfd]
    · have hne : s.opened fd = true → s.usersTimer fd ≠ timer := by
        intro ho heq
        have hsome := (h.keeps.timed fd ho).1
        rw [heq, hnone] at hsome
        cases hsome
      rw [Function.update_of_ne hfd, h.last fd]
      simp only [Function.update_of_ne hfd]
      split
      · next ho => rw [Function.update_of_ne (hne ho)]
      · rfl
  · show s.userCount + 1 = _
    rw [h.counted, hlength]
    rfl

theorem Serves.later (h : s.Serves P l S) (hclock : s.clock ≤ cur) :
    ({ s with clock := cur } : Server).Serves P l S :=
  ⟨h.keeps.later hclock, h.alone, h.last, h.counted⟩

theorem Serves.timer_ne (h : s.Serves P l S) {fd : ℕ} (ho : s.opened fd = true)
    (ho' : s.opened sockfd = true) (hne : fd ≠ sockfd) : s.usersTimer fd ≠ s.usersTimer sockfd := by
  intro heq
  exact hne (by rw [← (h.keeps.timed fd ho).2, heq, (h.keeps.timed sockfd ho').2])

theorem Serves.shut (h : s.Serves P l S) (ho : s.opened sockfd = true) :
    ∃ s' P' l', s.shut sockfd = some s' ∧ s'.Serves P' l' (Function.update S sockfd none) := by
  obtain ⟨lst, l', hshut, hlst, hlength⟩ := h.keeps.shut ho
  refine ⟨_, _, l', hshut, h.keeps.of_shut ho hlst, fun t ht => ?_, fun fd => ?_, ?_⟩
  · have hne : t ≠ s.usersTimer sockfd := by
      rintro rfl
      simp at ht
    obtain ⟨ho', halone⟩ := h.alone t (by simpa [hne] using ht)
    have hfd : s.userData t ≠ sockfd := fun heq => hne (by rw [← halone, heq])
    exact ⟨(Function.update_of_ne hfd _ _).trans ho', halone⟩
  · by_cases hfd : fd = sockfd
    · simp [hfd]
    · rw [Function.update_of_ne hfd, h.last fd]
      simp only [Function.update_of_ne hfd]
      split
      · next ho' => rw [Function.update_of_ne (h.timer_ne ho' ho hfd)]
      · rfl
  · show s.userCount - 1 = _
    rw [h.counted]
    omega

theorem Serves.putOff (h : s.Serves P l S) (ho : s.opened sockfd = true) (hclock : s.clock ≤ cur)
    (hrounds : l.length < rounds) :
    ∃ s' P' l', s.putOff rounds sockfd cur = some s' ∧
      s'.Serves P' l' (Function.update S sockfd (some cur)) := by
  obtain ⟨lst, l', hputOff, hlst, hlength⟩ := h.keeps.putOff ho hclock hrounds
  refine ⟨_, _, l', hputOff, h.keeps.of_putOff hclock hlst, fun t ht => ?_, fun fd => ?_, ?_⟩
  · refine h.alone t ?_
    by_cases htimer : t = s.usersTimer sockfd
    · exact htimer ▸ (h.keeps.timed sockfd ho).1
    · simpa [htimer] using ht
  · by_cases hfd : fd = sockfd
    · simp [hfd, ho]
    · rw [Function.update_of_ne hfd, h.last fd]
      show _ = if s.opened fd = true then _ else none
      split
      · next ho' => rw [Function.update_of_ne (h.timer_ne ho' ho hfd)]
      · rfl
  · show s.userCount = _
    rw [h.counted, hlength]

theorem Serves.timerHandler (h : s.Serves P l S) (hclock : s.clock ≤ cur)
    (hrounds : l.length < rounds) :
    ∃ s' P' l', s.timerHandler rounds cur = some s' ∧
      s'.Serves P' l' (fun fd => (S fd).filter (fun last => cur < last + 3 * timeslot)) := by
  obtain ⟨lst, fired, l', hhandler, hlst, hfired, hlength⟩ := h.keeps.timerHandler hrounds cur
  -- a connection is closed with its own timer
  have hclosed : ∀ t, (P t).isSome → (s.userData t ∈ fired.map s.userData ↔ t ∈ fired) := by
    intro t ht
    refine ⟨fun hmem => ?_, fun hmem => List.mem_map_of_mem hmem⟩
    obtain ⟨u, hu, heq⟩ := List.mem_map.mp hmem
    obtain ⟨time, htime, -⟩ := (hfired u).mp hu
    rw [← (h.alone t ht).2, ← heq, (h.alone u (by rw [htime]; rfl)).2]
    exact hu
  refine ⟨_, _, l', hhandler, h.keeps.of_tick hclock hlst hfired, fun t ht => ?_, fun fd => ?_, ?_⟩
  · obtain ⟨time, htime⟩ := Option.isSome_iff_exists.mp ht
    obtain ⟨hP, hlt⟩ := Option.mem_filter_iff.mp htime
    have hsome : (P t).isSome := by rw [hP]; rfl
    obtain ⟨ho, halone⟩ := h.alone t hsome
    have hnot : t ∉ fired := by
      intro hmem
      obtain ⟨time', htime', hle⟩ := (hfired t).mp hmem
      rw [hP] at htime'
      cases htime'
      exact Int.not_le.mpr (of_decide_eq_true hlt) hle
    refine ⟨?_, halone⟩
    show (s.opened (s.userData t) && _) = true
    rw [ho, decide_eq_false (mt (hclosed t hsome).mp hnot)]
    rfl
  · rw [h.last fd]
    show _ = if (s.opened fd && _) = true then _ else none
    cases ho : s.opened fd with
    | false => rfl
    | true =>
      obtain ⟨hsome, hdata⟩ := h.keeps.timed fd ho
      obtain ⟨time, htime⟩ := Option.isSome_iff_exists.mp hsome
      have hiff : fd ∈ fired.map s.userData ↔ time ≤ cur := by
        have hcl := hclosed _ hsome
        rw [hdata] at hcl
        rw [hcl, hfired, htime]
        simp
      by_cases hle : time ≤ cur
      · rw [decide_eq_true (hiff.mpr hle)]
        simp [htime, hle]
      · have hlt := Int.not_le.mp hle
        rw [decide_eq_false (mt hiff.mp hle), htime]
        simp [Option.filter_some, hlt]
  · show s.userCount - _ = _
    rw [h.counted]
    omega

/-- **One event**, if a worker does not close a connection. -/
theorem Serves.handle (h : s.Serves P l S) {e : Event} (hp : s.Possible e)
    (hworker : ∀ fd, e ≠ .closeConn fd) (hrounds : l.length < rounds) :
    ∃ s' P' l', s.handle rounds e = some s' ∧ s'.Serves P' l' (S.next e) := by
  cases e with
  | accept connfd timer cur => exact h.accept hp hrounds
  | hangUp sockfd => exact h.shut hp
  | readable sockfd done cur =>
    cases done with
    | true => exact h.putOff hp.1 hp.2 hrounds
    | false => exact (h.later hp.2).shut hp.1
  | writable sockfd done cur =>
    cases done with
    | true => exact h.putOff hp.1 hp.2 hrounds
    | false => exact (h.later hp.2).shut hp.1
  | alarm cur => exact h.timerHandler hp hrounds
  | closeConn sockfd => exact absurd rfl (hworker sockfd)

/-- **Every run** in which no worker closes a connection. -/
theorem Serves.exec (h : s.Serves P l S) {events : List Event}
    (hp : Runs.Guarded (Server.handle rounds) Possible s events)
    (hworker : ∀ e ∈ events, ∀ fd, e ≠ .closeConn fd)
    (hrounds : l.length + events.length < rounds) :
    ∃ s' P' l', Runs.exec (Server.handle rounds) s events = some s' ∧
      s'.Serves P' l' (events.foldl Sessions.next S) := by
  induction events generalizing s P l S with
  | nil => exact ⟨s, P, l, rfl, h⟩
  | cons e events ih =>
    rw [List.length_cons] at hrounds
    have hl : l.length < rounds := by omega
    obtain ⟨u, Q, m, hu, hserves⟩ := h.handle hp.1 (hworker e List.mem_cons_self) hl
    have hm : m.length ≤ l.length + 1 := by
      obtain ⟨u', Q', m', hu', -, hlength, hcount⟩ := h.keeps.handle hp.1 hl
      obtain rfl := Option.some.inj (hu.symm.trans hu')
      have hbefore := h.counted
      have hafter := hserves.counted
      omega
    obtain ⟨s', P', l', hs', hserves'⟩ := ih hserves (hp.2 u hu)
      (fun e he => hworker e (List.mem_cons_of_mem _ he)) (by omega)
    exact ⟨s', P', l', Runs.exec_cons_eq_some.mpr ⟨u, hu, hs'⟩, hserves'⟩

/-- **The server keeps to the sessions**, in every run in which no worker closes a
connection: the connections that are open are those that are in use, and
`m_user_count` is how many they are. No run follows a pointer that leads nowhere,
and no connection is turned away. -/
theorem serves_sessions {clock : ℤ} {events : List Event}
    (hp : Runs.Guarded (handle rounds) Possible (start clock) events)
    (hworker : ∀ e ∈ events, ∀ fd, e ≠ .closeConn fd) (hrounds : events.length < rounds) :
    ∃ s, Runs.exec (handle rounds) (start clock) events = some s ∧
      (∀ fd, s.opened fd = (events.foldl Sessions.next (fun _ => none) fd).isSome) ∧
      ∃ fds : List ℕ, fds.Nodup ∧ (∀ fd, fd ∈ fds ↔ s.opened fd = true) ∧
        s.userCount = fds.length := by
  obtain ⟨s, P, l, hs, hserves⟩ :=
    (serves_start clock).exec hp hworker (by simpa using hrounds)
  obtain ⟨hnodup, hmem⟩ := hserves.fds
  refine ⟨s, hs, fun fd => ?_, l.map s.userData, hnodup, hmem, ?_⟩
  · rw [hserves.last fd]
    cases ho : s.opened fd with
    | false => rfl
    | true => simpa using (hserves.keeps.timed fd ho).1.symm
  · rw [List.length_map, hserves.counted]

/-- Two connections, of which one is used again and one is not. -/
theorem serves_sessions_two :
    ∃ s, Runs.exec (handle 6) (start 0)
        [.accept 8 40 0, .accept 9 41 2, .readable 8 true 10, .alarm 17] = some s ∧
      (∀ fd, s.opened fd = ([Event.accept 8 40 0, .accept 9 41 2, .readable 8 true 10,
        .alarm 17].foldl Sessions.next (fun _ => none) fd).isSome) ∧
      ∃ fds : List ℕ, fds.Nodup ∧ (∀ fd, fd ∈ fds ↔ s.opened fd = true) ∧
        s.userCount = fds.length :=
  serves_sessions (by decide) (by simp) (by decide)

end Server

end TinyWeb
