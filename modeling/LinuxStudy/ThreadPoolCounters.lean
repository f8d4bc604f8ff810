import LinuxStudy.ThreadPool
import Mathlib.Data.List.Perm.Basic

/-!
# The counters of the thread pool

`m_aliveNum` and `m_busyNum` are changed by the workers and the manager, and
only ever under `m_lock`. So whatever the order of their steps, and whatever
`m_exitNum` held at the start, the first is the number of workers that have
not taken the exit path, and the second the number of those between taking a
task and counting themselves idle again. A worker exits only while there are
more than the least number, and the manager starts one only while there are
fewer than the most, both with the number read under the same lock; that the
manager decides on older numbers does no harm.

A task is taken under the lock by the worker that found the queue not empty
under the same hold of it. Nobody can have emptied the queue in between, so
the worker has a task to call. And what is in the queue, what the workers have
in hand and what was called is together what was submitted, no task more and
none less.

`pthread_cond_wait` may return without a signal, and here it may: the workers
that are parked can be woken at any time.
-/

namespace Dcs

namespace ThreadPool

variable {τ : Type}

/-- A step, or a worker that is woken without a signal. -/
inductive Occurrence (τ : Type)
  | event (e : Event τ)
  | spurious (tid : ℕ)

/-- What happens. -/
def occur (s : ThreadPool τ) : Occurrence τ → Option (ThreadPool τ)
  | .event e => s.step e
  | .spurious tid => s.signal (some tid)

/-- The worker counts as busy. -/
def Phase.busy : Phase τ → Bool
  | .running _ | .finishing => true
  | _ => false

/-- The task the worker is to call. -/
def Phase.hand : Phase τ → List τ
  | .running (some task) => [task]
  | _ => []

/-- The task that is called. -/
def called (s : ThreadPool τ) : Occurrence τ → List τ
  | .event (.worker tid) => (s.workers[tid]?.map Phase.hand).getD []
  | _ => []

/-- The task that is submitted. -/
def submitted : Occurrence τ → List τ
  | .event (.push task) => [task]
  | _ => []

/-- The worker is in `threadExit`. -/
def Phase.isExiting : Phase τ → Bool
  | .exiting => true
  | _ => false

/-! ## What can change

A step of the pool is reduced to what it does to one worker, to the queue and to
the numbers. There are a few kinds of such changes, and what has to be counted is
looked at once for each kind, whatever step it comes from. -/

/-- **What a worker can do**: the phase it is in, the phase it goes to, and the
queue, `m_busyNum` and `m_aliveNum` then. -/
inductive Goes (s : ThreadPool τ) : Phase τ → Phase τ → List τ → ℤ → ℤ → Prop
  | start : s.locked = false → Goes s .starting .testing s.queue s.busyNum s.aliveNum
  | idle : s.queue = [] → Goes s .testing .waiting s.queue s.busyNum s.aliveNum
  | found : s.queue ≠ [] → Goes s .testing .taking s.queue s.busyNum s.aliveNum
  | park : Goes s .waiting .parked s.queue s.busyNum s.aliveNum
  | wake : Goes s .parked .woken s.queue s.busyNum s.aliveNum
  | again : s.locked = false → Goes s .woken .testing s.queue s.busyNum s.aliveNum
  | exit : s.locked = false → s.minNum < s.aliveNum →
    Goes s .woken .exiting s.queue s.busyNum (s.aliveNum - 1)
  | take : Goes s .taking (.running s.queue.head?) s.queue.tail (s.busyNum + 1) s.aliveNum
  | call (task : τ) : Goes s (.running (some task)) .finishing s.queue s.busyNum s.aliveNum
  | finish : s.locked = false → Goes s .finishing .starting s.queue (s.busyNum - 1) s.aliveNum
  | leave : Goes s .exiting .exited s.queue s.busyNum s.aliveNum

/-- **What can change**: a task is submitted, a worker does something, or the
manager starts workers, if any. -/
inductive Changes (s : ThreadPool τ) (o : Occurrence τ) (t : ThreadPool τ) : Prop
  | submit (task : τ) (ho : called s o = [] ∧ submitted o = [task])
      (hworkers : t.workers = s.workers) (hqueue : t.queue = s.queue ++ [task])
      (hnums : t.busyNum = s.busyNum ∧ t.aliveNum = s.aliveNum)
  | worker (tid : ℕ) (p q : Phase τ) (ho : called s o = p.hand ∧ submitted o = [])
      (hp : s.workers[tid]? = some p) (hworkers : t.workers = s.workers.set tid q)
      (hgoes : Goes s p q t.queue t.busyNum t.aliveNum)
  | manager (num : ℕ) (ho : called s o = [] ∧ submitted o = [])
      (hworkers : t.workers = s.workers ++ List.replicate num .starting)
      (hqueue : t.queue = s.queue)
      (hnums : t.busyNum = s.busyNum ∧ t.aliveNum = s.aliveNum + num)
      (hmost : s.aliveNum ≤ s.maxNum → s.aliveNum + num ≤ s.maxNum)

variable {s t : ThreadPool τ} {tid : ℕ}

/-- `worker` does one of the things a worker can do. It leaves the bounds and
the manager alone, and the slots except in `threadExit`. -/
theorem worker_goes {p : Phase τ} (h : s.worker tid p = some t) :
    ∃ q, t.workers = s.workers.set tid q ∧ (t.minNum = s.minNum ∧ t.maxNum = s.maxNum)
      ∧ (t.threadIDs = (if p.isExiting then s.threadIDs.replace (some tid) none else s.threadIDs)
        ∧ t.manager = s.manager)
      ∧ Goes s p q t.queue t.busyNum t.aliveNum := by
  cases p with
  | starting =>
    unfold worker at h
    dsimp only at h
    split at h
    · exact absurd h (by simp)
    · next hfree =>
      obtain rfl := Option.some.inj h
      exact ⟨.testing, rfl, ⟨rfl, rfl⟩, ⟨rfl, rfl⟩, .start (Bool.eq_false_iff.mpr hfree)⟩
  | testing =>
    obtain rfl := Option.some.inj h
    by_cases hempty : s.queue.length = 0
    · rw [if_pos hempty]
      exact ⟨.waiting, rfl, ⟨rfl, rfl⟩, ⟨rfl, rfl⟩, .idle (List.length_eq_zero_iff.mp hempty)⟩
    · rw [if_neg hempty]
      exact ⟨.taking, rfl, ⟨rfl, rfl⟩, ⟨rfl, rfl⟩, .found (fun hnil => hempty (by rw [hnil]; rfl))⟩
  | waiting =>
    obtain rfl := Option.some.inj h
    exact ⟨.parked, rfl, ⟨rfl, rfl⟩, ⟨rfl, rfl⟩, .park⟩
  | parked => exact absurd h (by simp [worker])
  | woken =>
    unfold worker at h
    dsimp only at h
    split at h
    · exact absurd h (by simp)
    · next hfree =>
      obtain rfl := Option.some.inj h
      have hlock : s.locked = false := Bool.eq_false_iff.mpr hfree
      unfold checkExit
      split
      · split
        · next hmore => exact ⟨.exiting, rfl, ⟨rfl, rfl⟩, ⟨rfl, rfl⟩, .exit hlock hmore⟩
        · exact ⟨.testing, rfl, ⟨rfl, rfl⟩, ⟨rfl, rfl⟩, .again hlock⟩
      · exact ⟨.testing, rfl, ⟨rfl, rfl⟩, ⟨rfl, rfl⟩, .again hlock⟩
  | taking =>
    obtain rfl := Option.some.inj h
    exact ⟨.running s.queue.head?, rfl, ⟨rfl, rfl⟩, ⟨rfl, rfl⟩, .take⟩
  | running task =>
    cases task with
    | none => exact absurd h (by simp [worker])
    | some task =>
      obtain rfl := Option.some.inj h
      exact ⟨.finishing, rfl, ⟨rfl, rfl⟩, ⟨rfl, rfl⟩, .call task⟩
  | finishing =>
    unfold worker at h
    dsimp only at h
    split at h
    · exact absurd h (by simp)
    · next hfree =>
      obtain rfl := Option.some.inj h
      exact ⟨.starting, rfl, ⟨rfl, rfl⟩, ⟨rfl, rfl⟩, .finish (Bool.eq_false_iff.mpr hfree)⟩
  | exiting =>
    obtain rfl := Option.some.inj h
    exact ⟨.exited, rfl, ⟨rfl, rfl⟩, ⟨rfl, rfl⟩, .leave⟩
  | exited => exact absurd h (by simp [worker])

/-- The loop of the manager starts no worker beyond the most. -/
theorem growLoop_le {maxNum : ℕ} {aliveNum : ℤ} (next : ℕ) (slots : List (Option ℕ)) {num : ℕ}
    (h : aliveNum + num ≤ maxNum) :
    aliveNum + (growLoop maxNum aliveNum next num slots).2 ≤ maxNum := by
  induction slots generalizing num with
  | nil => exact h
  | cons slot slots ih =>
    unfold growLoop
    split
    · next hroom =>
      cases slot with
      | none =>
        have hnext : aliveNum + ((num + 1 : ℕ) : ℤ) ≤ maxNum := by
          push_cast
          omega
        exact ih hnext
      | some tid => exact ih h
    · exact h

theorem signal_bounds {who : Option ℕ} (h : s.signal who = some t) :
    t.minNum = s.minNum ∧ t.maxNum = s.maxNum := by
  rcases signal_eq_some h with ⟨tid, -, -, rfl⟩ | ⟨-, -, rfl⟩
  · exact ⟨rfl, rfl⟩
  · exact ⟨rfl, rfl⟩

theorem Changes.of_same {o : Occurrence τ} (ho : called s o = [] ∧ submitted o = [])
    (hworkers : t.workers = s.workers) (hqueue : t.queue = s.queue)
    (hbusy : t.busyNum = s.busyNum) (halive : t.aliveNum = s.aliveNum) : Changes s o t := by
  refine .manager 0 ho ?_ hqueue ⟨hbusy, ?_⟩ (fun hmost => ?_)
  · rw [hworkers, List.replicate_zero, List.append_nil]
  · omega
  · omega

theorem Changes.of_signal {o : Occurrence τ} (ho : called s o = [] ∧ submitted o = [])
    {who : Option ℕ} {u : ThreadPool τ} (h : s.signal who = some u)
    (hworkers : t.workers = u.workers) (hqueue : t.queue = u.queue)
    (hbusy : t.busyNum = u.busyNum) (halive : t.aliveNum = u.aliveNum) : Changes s o t := by
  rcases signal_eq_some h with ⟨tid, -, hparked, rfl⟩ | ⟨-, -, rfl⟩
  · refine .worker tid .parked .woken ho hparked hworkers ?_
    rw [hqueue, hbusy, halive]
    exact .wake
  · exact .of_same ho hworkers hqueue hbusy halive

/-- The manager adds workers, or wakes one, or does neither. -/
theorem managerStep_changes {who : Option ℕ} {m : ManagerPhase}
    (hstep : s.managerStep who m = some t) :
    (t.minNum = s.minNum ∧ t.maxNum = s.maxNum) ∧ Changes s (.event (.manager who)) t := by
  rcases managerStep_cases hstep with ⟨liveNum, busyNum, -, -, rfl⟩ | ⟨exitNum, phase, rfl, -⟩
    | ⟨u, left, hu, rfl⟩
  · refine ⟨⟨rfl, rfl⟩, .manager
      (growLoop s.maxNum s.aliveNum s.workers.length 0 s.threadIDs).2 ⟨rfl, rfl⟩ rfl rfl
      ⟨rfl, rfl⟩ (fun hmost => growLoop_le _ _ ?_)⟩
    omega
  · exact ⟨⟨rfl, rfl⟩, .of_same ⟨rfl, rfl⟩ rfl rfl rfl rfl⟩
  · have hbounds := signal_bounds hu
    exact ⟨hbounds, .of_signal ⟨rfl, rfl⟩ hu rfl rfl rfl rfl⟩

/-- **Whatever happens is a change of one of the three kinds**, and the bounds
stay. -/
theorem occur_changes {o : Occurrence τ} (h : s.occur o = some t) :
    (t.minNum = s.minNum ∧ t.maxNum = s.maxNum) ∧ Changes s o t := by
  cases o with
  | spurious tid =>
    have hsignal : s.signal (some tid) = some t := h
    exact ⟨signal_bounds hsignal, .of_signal ⟨rfl, rfl⟩ hsignal rfl rfl rfl rfl⟩
  | event e =>
    cases e with
    | push task =>
      obtain rfl := Option.some.inj h
      exact ⟨⟨rfl, rfl⟩, .submit task ⟨rfl, rfl⟩ rfl rfl ⟨rfl, rfl⟩⟩
    | signal who =>
      have hstep : (if s.calls = 0 then none
          else (s.signal who).map (fun s => { s with calls := s.calls - 1 })) = some t := h
      split at hstep
      · exact absurd hstep (by simp)
      · obtain ⟨u, hu, rfl⟩ := Option.map_eq_some_iff.mp hstep
        have hbounds := signal_bounds hu
        exact ⟨hbounds, .of_signal ⟨rfl, rfl⟩ hu rfl rfl rfl rfl⟩
    | worker tid =>
      obtain ⟨p, hp, hworker⟩ := Option.bind_eq_some_iff.mp h
      obtain ⟨q, hworkers, hbounds, -, hgoes⟩ := worker_goes hworker
      refine ⟨hbounds, .worker tid p q ⟨?_, rfl⟩ hp hworkers hgoes⟩
      show (s.workers[tid]?.map Phase.hand).getD [] = _
      rw [hp]
      rfl
    | manager who =>
      have hstep : s.managerStep who s.manager = some t := h
      exact managerStep_changes hstep

/-! ## The numbers

`m_aliveNum` counts the workers that have not left, and `m_busyNum` those between
taking a task and being done with it. Both are changed under the lock, in the
phase that changes what the worker counts for. A worker that exits takes itself
off in `threadExit`, and how many are to exit does not matter to the numbers, so
`m_exitNum` may be anything. -/

/-- **What the counters count**: the bounds are those of the constructor,
`m_aliveNum` counts the live workers and is within the bounds, and `m_busyNum`
counts the busy ones. One worker at most holds the lock, the one that is about
to take a task finds one, and no worker has a null pointer to call. -/
structure Counters (minNum maxNum : ℕ) (s : ThreadPool τ) : Prop where
  minNum_eq : s.minNum = minNum
  maxNum_eq : s.maxNum = maxNum
  least : (minNum : ℤ) ≤ s.aliveNum
  most : s.aliveNum ≤ maxNum
  alive : s.aliveNum = s.workers.countP Phase.live
  busy : s.busyNum = s.workers.countP Phase.busy
  lock : s.workers.countP Phase.holdsLock ≤ 1
  taking : .taking ∈ s.workers → s.queue ≠ []
  calls : .running none ∉ s.workers

theorem counters_new {minNum maxNum : ℕ} (h : minNum ≤ maxNum) (exitNum : ℤ) :
    Counters minNum maxNum (new τ minNum maxNum exitNum) := by
  have hmem : ∀ p ∈ List.replicate minNum (Phase.starting : Phase τ), p = .starting :=
    fun p hp => (List.mem_replicate.mp hp).2
  refine ⟨rfl, rfl, le_rfl, Int.ofNat_le.mpr h, ?_, ?_, ?_, fun ht => ?_, fun hr => ?_⟩
  · show (minNum : ℤ) = _
    simp [new, List.countP_replicate, Phase.live]
  · simp [new, List.countP_replicate, Phase.busy]
  · simp [new, List.countP_replicate, Phase.holdsLock]
  · exact absurd (hmem _ ht) (by simp)
  · exact absurd (hmem _ hr) (by simp)

theorem countP_holdsLock_eq_zero (h : s.locked = false) :
    s.workers.countP Phase.holdsLock = 0 :=
  List.countP_eq_zero.mpr (fun p hp => by simpa using List.any_eq_false.mp h p hp)

/-- How many a worker counts for. -/
def tally (f : Phase τ → Bool) (p : Phase τ) : ℤ := if f p then 1 else 0

/-- **What a worker can do keeps the books**: the numbers change by what the
worker counts for, a phase that holds the lock is entered from one that does or
while it is free, and a task is taken from a queue that has one. -/
theorem Goes.spec {p q : Phase τ} {queue : List τ} {busyNum aliveNum : ℤ}
    (h : Goes s p q queue busyNum aliveNum) :
    aliveNum + tally Phase.live p = s.aliveNum + tally Phase.live q
      ∧ busyNum + tally Phase.busy p = s.busyNum + tally Phase.busy q
      ∧ aliveNum ≤ s.aliveNum
      ∧ (s.minNum ≤ s.aliveNum → s.minNum ≤ aliveNum)
      ∧ (q.holdsLock → s.locked = false ∨ p.holdsLock)
      ∧ (q = .taking → queue ≠ [])
      ∧ (queue = s.queue ∨ p = .taking)
      ∧ (q = .running none → p = .taking ∧ s.queue = []) := by
  cases h with
  | exit hfree hmore =>
    refine ⟨?_, rfl, ?_, fun _ => ?_, ?_, ?_, Or.inl rfl, ?_⟩
    · simp [tally, Phase.live]
    · omega
    · omega
    · exact fun hlock => absurd hlock (by simp [Phase.holdsLock])
    · exact fun hq => absurd hq (by simp)
    · exact fun hq => absurd hq (by simp)
  | take =>
    refine ⟨rfl, ?_, le_rfl, id, ?_, ?_, Or.inr rfl, fun hq => ⟨rfl, ?_⟩⟩
    · simp [tally, Phase.busy]
    · exact fun hlock => absurd hlock (by simp [Phase.holdsLock])
    · exact fun hq => absurd hq (by simp)
    · exact List.head?_eq_none_iff.mp (Phase.running.inj hq)
  | finish hfree =>
    refine ⟨rfl, ?_, le_rfl, id, ?_, ?_, Or.inl rfl, ?_⟩
    · simp [tally, Phase.busy]
    · exact fun hlock => absurd hlock (by simp [Phase.holdsLock])
    · exact fun hq => absurd hq (by simp)
    · exact fun hq => absurd hq (by simp)
  | start hfree =>
    exact ⟨rfl, rfl, le_rfl, id, fun _ => Or.inl hfree, by simp, Or.inl rfl, by simp⟩
  | again hfree =>
    exact ⟨rfl, rfl, le_rfl, id, fun _ => Or.inl hfree, by simp, Or.inl rfl, by simp⟩
  | idle _ => exact ⟨rfl, rfl, le_rfl, id, fun _ => Or.inr rfl, by simp, Or.inl rfl, by simp⟩
  | found hqueue =>
    exact ⟨rfl, rfl, le_rfl, id, fun _ => Or.inr rfl, fun _ => hqueue, Or.inl rfl, by simp⟩
  | park => exact ⟨rfl, rfl, le_rfl, id, by simp [Phase.holdsLock], by simp, Or.inl rfl, by simp⟩
  | wake => exact ⟨rfl, rfl, le_rfl, id, by simp [Phase.holdsLock], by simp, Or.inl rfl, by simp⟩
  | call _ =>
    exact ⟨rfl, rfl, le_rfl, id, by simp [Phase.holdsLock], by simp, Or.inl rfl, by simp⟩
  | leave =>
    exact ⟨rfl, rfl, le_rfl, id, by simp [Phase.holdsLock], by simp, Or.inl rfl, by simp⟩

theorem countP_of_perm {l rest : List (Phase τ)} {p : Phase τ} (h : l.Perm (p :: rest))
    (f : Phase τ → Bool) : (l.countP f : ℤ) = rest.countP f + tally f p := by
  rw [h.countP_eq, List.countP_cons]
  unfold tally
  split
  · push_cast
    rfl
  · push_cast
    rfl

/-- **A worker keeps the counters.** -/
theorem Counters.goes {minNum maxNum : ℕ} (h : Counters minNum maxNum s) {p q : Phase τ}
    {rest : List (Phase τ)} (hs : s.workers.Perm (p :: rest)) (ht : t.workers.Perm (q :: rest))
    (hbounds : t.minNum = s.minNum ∧ t.maxNum = s.maxNum)
    (hgoes : Goes s p q t.queue t.busyNum t.aliveNum) : Counters minNum maxNum t := by
  obtain ⟨halive, hbusy, hmost, hleast, hlock, htaking, hqueue, hnull⟩ := hgoes.spec
  have hmin := h.minNum_eq
  have hleast' := h.least
  have hlocks := countP_of_perm hs Phase.holdsLock
  have hone := h.lock
  refine ⟨hbounds.1.trans hmin, hbounds.2.trans h.maxNum_eq, ?_, le_trans hmost h.most, ?_, ?_, ?_,
    fun hmem => ?_, fun hmem => ?_⟩
  · rw [← hmin] at hleast' ⊢
    exact hleast hleast'
  · have hcount := countP_of_perm hs Phase.live
    have hcount' := countP_of_perm ht Phase.live
    have hold := h.alive
    omega
  · have hcount := countP_of_perm hs Phase.busy
    have hcount' := countP_of_perm ht Phase.busy
    have hold := h.busy
    omega
  · have hlocks' := countP_of_perm ht Phase.holdsLock
    unfold tally at hlocks hlocks'
    by_cases hq : q.holdsLock
    · rw [if_pos hq] at hlocks'
      rcases hlock hq with hfree | hp
      · have hzero := countP_holdsLock_eq_zero hfree
        split at hlocks <;> omega
      · rw [if_pos hp] at hlocks
        omega
    · rw [if_neg hq] at hlocks'
      split at hlocks <;> omega
  · rcases List.mem_cons.mp (ht.mem_iff.mp hmem) with hq | hrest
    · exact htaking hq.symm
    · rcases hqueue with hsame | hp
      · rw [hsame]
        exact h.taking (hs.mem_iff.mpr (List.mem_cons_of_mem _ hrest))
      · -- two workers that take a task would both hold the lock
        have hpos : 0 < rest.countP Phase.holdsLock :=
          List.countP_pos_iff.mpr ⟨.taking, hrest, rfl⟩
        simp only [hp, tally, Phase.holdsLock, if_true] at hlocks
        omega
  · rcases List.mem_cons.mp (ht.mem_iff.mp hmem) with hq | hrest
    · obtain ⟨rfl, hempty⟩ := hnull hq.symm
      exact h.taking (hs.mem_iff.mpr List.mem_cons_self) hempty
    · exact h.calls (hs.mem_iff.mpr (List.mem_cons_of_mem _ hrest))

theorem workers_perm {p : Phase τ} (hp : s.workers[tid]? = some p) (q : Phase τ) :
    s.workers.Perm (p :: s.workers.eraseIdx tid)
      ∧ (s.workers.set tid q).Perm (q :: s.workers.eraseIdx tid) := by
  obtain ⟨hlt, rfl⟩ := List.getElem?_eq_some_iff.mp hp
  exact ⟨(List.getElem_cons_eraseIdx_perm hlt).symm, List.set_perm_cons_eraseIdx hlt q⟩

/-- **Whatever happens keeps the counters.** -/
theorem Counters.occur {minNum maxNum : ℕ} (h : Counters minNum maxNum s) {o : Occurrence τ}
    (ho : s.occur o = some t) : Counters minNum maxNum t := by
  obtain ⟨hbounds, hchanges⟩ := occur_changes ho
  cases hchanges with
  | submit task _ hworkers hqueue hnums =>
    refine ⟨hbounds.1.trans h.minNum_eq, hbounds.2.trans h.maxNum_eq, ?_, ?_, ?_, ?_, ?_,
      fun hmem => ?_, ?_⟩
    · exact hnums.2 ▸ h.least
    · exact hnums.2 ▸ h.most
    · rw [hnums.2, hworkers]
      exact h.alive
    · rw [hnums.1, hworkers]
      exact h.busy
    · rw [hworkers]
      exact h.lock
    · rw [hqueue]
      exact List.append_ne_nil_of_right_ne_nil _ (List.cons_ne_nil _ _)
    · rw [hworkers]
      exact h.calls
  | worker tid p q _ hp hworkers hgoes =>
    obtain ⟨hs, ht⟩ := workers_perm hp q
    exact h.goes hs (hworkers ▸ ht) hbounds hgoes
  | manager num _ hworkers hqueue hnums hmost =>
    have hmax := h.maxNum_eq
    have hmost' := h.most
    have hstart : ∀ p ∈ List.replicate num (Phase.starting : Phase τ), p = .starting :=
      fun p hp => (List.mem_replicate.mp hp).2
    refine ⟨hbounds.1.trans h.minNum_eq, hbounds.2.trans hmax, ?_, ?_, ?_, ?_, ?_,
      fun hmem => ?_, fun hmem => ?_⟩
    · have hleast := h.least
      omega
    · rw [← hmax] at hmost' ⊢
      rw [hnums.2]
      exact hmost hmost'
    · rw [hnums.2, hworkers, List.countP_append, List.countP_replicate, h.alive]
      simp [Phase.live]
    · rw [hnums.1, hworkers, List.countP_append, List.countP_replicate, h.busy]
      simp [Phase.busy]
    · rw [hworkers, List.countP_append, List.countP_replicate]
      simpa [Phase.holdsLock] using h.lock
    · rw [hqueue]
      rw [hworkers] at hmem
      rcases List.mem_append.mp hmem with hold | hnew
      · exact h.taking hold
      · exact absurd (hstart _ hnew) (by simp)
    · rw [hworkers] at hmem
      rcases List.mem_append.mp hmem with hold | hnew
      · exact h.calls hold
      · exact absurd (hstart _ hnew) (by simp)

/-! ## The tasks -/

/-- The tasks that are not called yet: those the workers have in hand, and the
queue. -/
def pending (s : ThreadPool τ) : List τ := s.workers.flatMap Phase.hand ++ s.queue

theorem Goes.hand_append {p q : Phase τ} {queue : List τ} {busyNum aliveNum : ℤ}
    (h : Goes s p q queue busyNum aliveNum) : q.hand ++ queue = s.queue := by
  cases h with
  | take =>
    cases s.queue with
    | nil => rfl
    | cons task queue => rfl
  | _ => rfl

/-- **No task is lost or doubled**: what was pending and what is submitted is
called or is pending. -/
theorem called_perm {o : Occurrence τ} (ho : s.occur o = some t) :
    (called s o ++ t.pending).Perm (s.pending ++ submitted o) := by
  obtain ⟨-, hchanges⟩ := occur_changes ho
  unfold pending
  cases hchanges with
  | submit task ho hworkers hqueue _ =>
    rw [ho.1, ho.2, hworkers, hqueue, List.nil_append, List.append_assoc]
  | manager num ho hworkers hqueue _ _ =>
    have hnone : (List.replicate num (Phase.starting : Phase τ)).flatMap Phase.hand = [] :=
      List.flatMap_eq_nil_iff.mpr (fun p hp => by rw [(List.mem_replicate.mp hp).2]; rfl)
    rw [ho.1, ho.2, hworkers, hqueue, List.flatMap_append, hnone, List.nil_append,
      List.append_nil, List.append_nil]
  | worker tid p q ho hp hworkers hgoes =>
    obtain ⟨hs, ht⟩ := workers_perm hp q
    have hs' := (hs.flatMap_right Phase.hand).append_right s.queue
    have ht' := ((ht.flatMap_right Phase.hand).append_right t.queue).append_left p.hand
    rw [ho.1, ho.2, hworkers, List.append_nil]
    refine ht'.trans (List.Perm.trans ?_ hs'.symm)
    rw [List.flatMap_cons, List.flatMap_cons, List.append_assoc p.hand, ← hgoes.hand_append,
      ← List.append_assoc _ q.hand]
    exact (List.perm_append_comm.append_right t.queue).append_left p.hand

/-! ## Runs -/

/-- **The counters of the thread pool.** With the least number of workers no
greater than the most, and `m_exitNum` anything, in every state that is
reached: the number of live workers is within the bounds and is `m_aliveNum`,
`m_busyNum` is between `0` and it, the tasks that were called are some of those
submitted, the others being pending, and no worker calls a null pointer. -/
theorem counters_bounded {minNum maxNum : ℕ} (hmin : minNum ≤ maxNum) (exitNum : ℤ)
    (occurrences : List (Occurrence τ))
    (h : Runs.exec occur (new τ minNum maxNum exitNum) occurrences = some s) :
    ((minNum : ℤ) ≤ s.aliveNum ∧ s.aliveNum ≤ maxNum)
      ∧ (0 ≤ s.busyNum ∧ s.busyNum ≤ s.aliveNum)
      ∧ s.aliveNum = s.workers.countP Phase.live
      ∧ (Runs.trace occur called (new τ minNum maxNum exitNum) occurrences ++ s.pending).Perm
        (occurrences.flatMap submitted)
      ∧ .running none ∉ s.workers := by
  have hc : Counters minNum maxNum s := Runs.exec_invariant' (Counters minNum maxNum)
    (fun hi ho => hi.occur ho) (counters_new hmin exitNum) h
  have hbusy : s.workers.countP Phase.busy ≤ s.workers.countP Phase.live := by
    refine List.countP_mono_left (fun p _ hp => ?_)
    cases p <;> simp_all [Phase.busy, Phase.live]
  have htasks := Runs.trace_perm called pending submitted (fun ho => called_perm ho) h
  have hnone : (new τ minNum maxNum exitNum).pending = [] := by
    unfold pending new
    rw [List.append_nil]
    exact List.flatMap_eq_nil_iff.mpr (fun p hp => by rw [(List.mem_replicate.mp hp).2]; rfl)
  rw [hnone, List.nil_append] at htasks
  have halive := hc.alive
  have hcount := hc.busy
  exact ⟨⟨hc.least, hc.most⟩, ⟨by omega, by omega⟩, halive, htasks, hc.calls⟩

/-- One of two workers waits, and the other takes the task that is
submitted. -/
def oneTask : List (Occurrence ℕ) :=
  [.event (.worker 0), .event (.worker 0), .event (.worker 0), .event (.push 5),
    .event (.signal (some 0)), .event (.worker 1), .event (.worker 1), .event (.worker 1),
    .event (.worker 1)]

/-- The statement on this run: the task has been called, and one worker is
busy. -/
theorem counters_bounded_oneTask :
    ∃ s, Runs.exec occur (new ℕ 2 4 7) oneTask = some s ∧ s.aliveNum = 2 ∧ s.busyNum = 1
      ∧ s.pending = [] ∧ s.busyNum ≤ s.aliveNum := by
  have hrun : (Runs.exec occur (new ℕ 2 4 7) oneTask).isSome
      ∧ ∀ s ∈ Runs.exec occur (new ℕ 2 4 7) oneTask,
        s.aliveNum = 2 ∧ s.busyNum = 1 ∧ s.pending = [] := by
    decide +kernel
  obtain ⟨s, hs⟩ := Option.isSome_iff_exists.mp hrun.1
  obtain ⟨halive, hbusy, hpending⟩ := hrun.2 s hs
  obtain ⟨-, ⟨-, hle⟩, -⟩ := counters_bounded (by decide) 7 oneTask hs
  exact ⟨s, hs, halive, hbusy, hpending, hle⟩

end ThreadPool

end Dcs
