import Mathlib.Data.Int.Order.Basic
import LinuxStudy.Runs

/-!
# The thread pool of a cache server

`addTask` puts a task into the queue and signals `m_notEmpty`; it holds the
lock of the queue for the one and no lock for the other. A worker holds
`m_lock` while it looks whether the queue is empty, and waits on `m_notEmpty`
if it is. A manager watches the numbers: it starts up to two more workers
while there are more tasks than workers, and while fewer than half of the
workers are busy it sets `m_exitNum` and signals `m_notEmpty` as well. A
worker that is woken while `m_exitNum` is positive exits, if there are more
workers than the least number, without looking at the queue.

Where a worker is in its code is its `Phase`, and a step of a worker or of the
manager is what it does next. `m_lock` is held by the worker in a phase that
holds it; what is done under the lock without giving it away in between, by
the manager and at the end of a task, is one step. A signal wakes one of the
workers that are parked, and none if none is. There is no shutdown.

A task is left behind if all workers wait and nobody will wake one. That
happens in two ways. A signal is lost if the only worker has found the queue
empty and does not wait yet; and a signal is used up by a worker that exits.
`no_lost_wakeup` says that there is no third way, and `guarded_iff_covered`
that a run in which neither happens is one in which every task in the queue
has somebody who comes for it.
-/

namespace Dcs

namespace ThreadPool

variable {τ : Type}

/-! ## The state -/

/-- Where a worker is. -/
inductive Phase (τ : Type)
  /-- At the top of its loop. -/
  | starting
  /-- Holds the lock, and is about to look at the queue. -/
  | testing
  /-- Holds the lock, has found the queue empty, and is about to wait. -/
  | waiting
  /-- In `pthread_cond_wait`. -/
  | parked
  /-- Woken by a signal, and about to take the lock again. -/
  | woken
  /-- Holds the lock, and has found the queue not empty. -/
  | taking
  /-- Runs a task; without one, calls the null pointer. -/
  | running (task : Option τ)
  /-- Its task has returned. -/
  | finishing
  /-- In `threadExit`. -/
  | exiting
  | exited
  deriving DecidableEq

/-- Where the manager is. -/
inductive ManagerPhase
  /-- At the top of its loop. -/
  | sampling
  /-- About to start workers, with the numbers it has read. -/
  | growing (liveNum busyNum : ℤ)
  /-- About to set `m_exitNum`. -/
  | shrinking
  /-- About to signal so many times. -/
  | signalling (left : ℕ)
  deriving DecidableEq

end ThreadPool

open ThreadPool

/-- **`ThreadPool`**, with its threads. A worker's id is its place in
`workers`. -/
structure ThreadPool (τ : Type) where
  minNum : ℕ
  maxNum : ℕ
  busyNum : ℤ
  aliveNum : ℤ
  exitNum : ℤ
  queue : List τ
  /-- `m_threadIDs`, with `none` for `0`. -/
  threadIDs : List (Option ℕ)
  workers : List (Phase τ)
  manager : ManagerPhase
  /-- How many calls of `addTask` have still to signal. -/
  calls : ℕ

namespace ThreadPool

variable {τ : Type}

/-- The constructor. `m_exitNum` is not set; it is what the memory held. -/
def new (τ : Type) (minNum maxNum : ℕ) (exitNum : ℤ) : ThreadPool τ where
  minNum := minNum
  maxNum := maxNum
  busyNum := 0
  aliveNum := minNum
  exitNum := exitNum
  queue := []
  threadIDs := (List.range minNum).map some ++ List.replicate (maxNum - minNum) none
  workers := List.replicate minNum .starting
  manager := .sampling
  calls := 0

/-! ## What a thread does next

Each thread is taken from one access of what is shared to the next. A worker goes
round its loop in phases: it has the lock, it looks at the queue, it waits, it was
woken and has not got the lock back, it has taken a task. Only one thread has the
lock of the pool, so a phase that needs it is entered only when no other is in
one. `addTask` is two events, since it gives its lock back before it signals. -/

/-- The phase holds `m_lock`. -/
def Phase.holdsLock : Phase τ → Bool
  | .testing | .waiting | .taking => true
  | _ => false

/-- The worker is parked. -/
def Phase.isParked : Phase τ → Bool
  | .parked => true
  | _ => false

/-- The manager is about to start workers. -/
def ManagerPhase.isGrowing : ManagerPhase → Bool
  | .growing _ _ => true
  | _ => false

/-- `m_lock` is held. -/
def locked (s : ThreadPool τ) : Bool := s.workers.any Phase.holdsLock

/-- A worker goes on to a phase. -/
def goto (s : ThreadPool τ) (tid : ℕ) (phase : Phase τ) : ThreadPool τ :=
  { s with workers := s.workers.set tid phase }

/-- `pthread_cond_signal`: one of the workers that are parked is woken, or
none if none is. -/
def signal (s : ThreadPool τ) : Option ℕ → Option (ThreadPool τ)
  | some tid =>
    match s.workers[tid]? with
    | some .parked => some (s.goto tid .woken)
    | _ => none
  | none => if s.workers.any Phase.isParked then none else some s

/-- What a worker does with the lock when it has been woken. -/
def checkExit (s : ThreadPool τ) (tid : ℕ) : ThreadPool τ :=
  if 0 < s.exitNum then
    if s.minNum < s.aliveNum then
      { s with exitNum := s.exitNum - 1, aliveNum := s.aliveNum - 1 }.goto tid .exiting
    else { s with exitNum := s.exitNum - 1 }.goto tid .testing
  else s.goto tid .testing

/-- `worker`: what it does next. A task that is missing is a call of the null
pointer, which ends the program. -/
def worker (s : ThreadPool τ) (tid : ℕ) : Phase τ → Option (ThreadPool τ)
  | .starting => if s.locked then none else some (s.goto tid .testing)
  | .testing => some (s.goto tid (if s.queue.length = 0 then .waiting else .taking))
  | .waiting => some (s.goto tid .parked)
  | .parked => none
  | .woken => if s.locked then none else some (s.checkExit tid)
  | .taking =>
    some ({ s with queue := s.queue.tail, busyNum := s.busyNum + 1 }.goto tid
      (.running s.queue.head?))
  | .running none => none
  | .running (some _) => some (s.goto tid .finishing)
  | .finishing =>
    if s.locked then none else some ({ s with busyNum := s.busyNum - 1 }.goto tid .starting)
  -- `threadExit`, which takes no lock
  | .exiting => some ({ s with threadIDs := s.threadIDs.replace (some tid) none }.goto tid .exited)
  | .exited => none

/-- The loop of `manager` over `m_threadIDs`: the ids, and how many workers
were started. -/
def growLoop (maxNum : ℕ) (aliveNum : ℤ) (next : ℕ) :
    ℕ → List (Option ℕ) → List (Option ℕ) × ℕ
  | num, [] => ([], num)
  | num, slot :: rest =>
    if num < 2 ∧ aliveNum + num < maxNum then
      match slot with
      | none =>
        let r := growLoop maxNum aliveNum next (num + 1) rest
        (some (next + num) :: r.1, r.2)
      | some tid =>
        let r := growLoop maxNum aliveNum next num rest
        (some tid :: r.1, r.2)
    else (slot :: rest, num)

/-- The workers the manager starts. -/
def grow (s : ThreadPool τ) : ThreadPool τ :=
  let r := growLoop s.maxNum s.aliveNum s.workers.length 0 s.threadIDs
  { s with
    threadIDs := r.1
    aliveNum := s.aliveNum + r.2
    workers := s.workers ++ List.replicate r.2 .starting }

/-- Where the manager goes when it has started workers, or need not. -/
def afterGrow (s : ThreadPool τ) (liveNum busyNum : ℤ) : ManagerPhase :=
  if busyNum * 2 < liveNum ∧ s.minNum < liveNum then .shrinking else .sampling

/-- `manager`: what it does next. A signal goes to the worker that is
given. -/
def managerStep (s : ThreadPool τ) (who : Option ℕ) : ManagerPhase → Option (ThreadPool τ)
  | .sampling =>
    if s.locked then none
    else if s.aliveNum < s.queue.length ∧ s.aliveNum < s.maxNum then
      some { s with manager := .growing s.aliveNum s.busyNum }
    else some { s with manager := s.afterGrow s.aliveNum s.busyNum }
  | .growing liveNum busyNum =>
    if s.locked then none else some { s.grow with manager := s.afterGrow liveNum busyNum }
  | .shrinking =>
    if s.locked then none else some { s with exitNum := 2, manager := .signalling 2 }
  | .signalling 0 => some { s with manager := .sampling }
  | .signalling (left + 1) =>
    (s.signal who).map (fun s => { s with manager := .signalling left })

/-- What may happen. -/
inductive Event (τ : Type)
  /-- `addTask` puts a task into the queue. -/
  | push (task : τ)
  /-- `addTask` signals, and this worker is woken. -/
  | signal (who : Option ℕ)
  /-- A worker's next step. -/
  | worker (tid : ℕ)
  /-- The manager's next step; if it signals, this worker is woken. -/
  | manager (who : Option ℕ)

/-- **One step**, undefined where it cannot happen. -/
def step (s : ThreadPool τ) : Event τ → Option (ThreadPool τ)
  | .push task => some { s with queue := s.queue ++ [task], calls := s.calls + 1 }
  | .signal who =>
    if s.calls = 0 then none
    else (s.signal who).map (fun s => { s with calls := s.calls - 1 })
  | .worker tid => s.workers[tid]?.bind (s.worker tid)
  | .manager who => s.managerStep who s.manager

/-! ## Tasks that are left behind

A worker that looks at the queue with the lock of the pool and finds it empty goes
on to wait, and a task can be put into the queue in between, as that is under
another lock. The signal then comes to nobody. What keeps a task from being left
behind is somebody who will still come: a signal that is due, or a worker that
will look at the queue without being woken. -/

/-- The worker has not taken the exit path. -/
def Phase.live : Phase τ → Bool
  | .exiting | .exited => false
  | _ => true

/-- The worker will look at the queue without being woken. -/
def Phase.active : Phase τ → Bool
  | .waiting | .parked | .exiting | .exited => false
  | _ => true

/-- **A task is left behind**: the queue is not empty, every call of `addTask`
has been completed, and every live worker is parked. -/
def Stuck (s : ThreadPool τ) : Prop :=
  s.queue ≠ [] ∧ s.calls = 0 ∧ ∀ p ∈ s.workers, p.live → p = .parked

/-- **Somebody comes for the tasks in the queue**: a call of `addTask` that
has still to signal, or a worker that will look without being woken. -/
def Covered (s : ThreadPool τ) : Prop :=
  s.queue = [] ∨ 0 < s.calls ∨ ∃ p ∈ s.workers, p.active

/-- The worker has been woken, has the lock, and takes the exit path. -/
def TakesExit (s : ThreadPool τ) (tid : ℕ) : Prop :=
  s.workers[tid]? = some .woken ∧ s.locked = false ∧ 0 < s.exitNum ∧ s.minNum < s.aliveNum

/-- **The condition on a step.** When the last call of `addTask` signals for a
queue that is not empty, some live worker is not between its look at the queue
and its wait. When a worker takes the exit path, and no call of `addTask` has
still to signal for a queue that is not empty, another worker will look at
the queue. -/
def Meets (s : ThreadPool τ) : Event τ → Prop
  | .signal none => s.calls = 1 → s.queue ≠ [] → ∃ p ∈ s.workers, p.live ∧ p ≠ .waiting
  | .worker tid => s.TakesExit tid → s.calls = 0 → s.queue ≠ [] →
    ∃ p ∈ s.workers.eraseIdx tid, p.active
  | _ => True

section Decidable

variable [DecidableEq τ]

instance (s : ThreadPool τ) : Decidable s.Stuck := inferInstanceAs (Decidable (_ ∧ _ ∧ _))

instance (s : ThreadPool τ) (tid : ℕ) : Decidable (s.TakesExit tid) :=
  inferInstanceAs (Decidable (_ ∧ _ ∧ _ ∧ _))

instance (s : ThreadPool τ) (e : Event τ) : Decidable (s.Meets e) :=
  match e with
  | .push _ => inferInstanceAs (Decidable True)
  | .signal none => inferInstanceAs (Decidable (_ → _ → ∃ p ∈ s.workers, _))
  | .signal (some _) => inferInstanceAs (Decidable True)
  | .worker tid => inferInstanceAs (Decidable (_ → _ → _ → ∃ p ∈ s.workers.eraseIdx tid, _))
  | .manager _ => inferInstanceAs (Decidable True)

end Decidable

/-! ## What a step does to those who come -/

variable {s t : ThreadPool τ} {tid : ℕ}

/-- One of the others is still there when an element is replaced. -/
theorem exists_mem_set_iff {α : Type} {l : List α} {i : ℕ} (hi : i < l.length) (a : α)
    (A : α → Prop) :
    (∃ p ∈ l.set i a, A p) ↔ A a ∨ ∃ p ∈ l.eraseIdx i, A p := by
  constructor
  · rintro ⟨p, hp, hA⟩
    obtain ⟨j, hj⟩ := List.mem_iff_getElem?.mp hp
    by_cases hij : i = j
    · subst hij
      rw [List.getElem?_set_self hi] at hj
      exact Or.inl (Option.some.inj hj ▸ hA)
    · rw [List.getElem?_set_ne hij] at hj
      exact Or.inr ⟨p, List.mem_eraseIdx_iff_getElem?.mpr ⟨j, fun h => hij h.symm, hj⟩, hA⟩
  · rintro (hA | ⟨p, hp, hA⟩)
    · exact ⟨a, List.mem_set hi a, hA⟩
    · obtain ⟨j, hj, hget⟩ := List.mem_eraseIdx_iff_getElem?.mp hp
      refine ⟨p, List.mem_iff_getElem?.mpr ⟨j, ?_⟩, hA⟩
      rw [List.getElem?_set_ne (fun h => hj h.symm)]
      exact hget

theorem covered_of_active {p : Phase τ} (hp : p ∈ s.workers) (ha : p.active) : s.Covered :=
  Or.inr (Or.inr ⟨p, hp, ha⟩)

theorem mem_goto {p : Phase τ} (h : s.workers[tid]? = some p) (q : Phase τ) :
    q ∈ (s.goto tid q).workers :=
  List.mem_set (List.getElem?_eq_some_iff.mp h).1 q

/-- **A worker that does not come for the tasks** takes none away who does. -/
theorem Covered.goto_of_inactive (hs : s.Covered) {p : Phase τ} (h : s.workers[tid]? = some p)
    (hp : p.active = false) (q : Phase τ) : (s.goto tid q).Covered := by
  refine Or.imp_right (Or.imp_right ?_) hs
  rintro ⟨r, hr, ha⟩
  have hi := (List.getElem?_eq_some_iff.mp h).1
  refine (exists_mem_set_iff hi q (fun r => r.active = true)).mpr (Or.inr ⟨r, ?_, ha⟩)
  obtain ⟨j, hj⟩ := List.mem_iff_getElem?.mp hr
  refine List.mem_eraseIdx_iff_getElem?.mpr ⟨j, ?_, hj⟩
  rintro rfl
  obtain rfl := Option.some.inj (h.symm.trans hj)
  exact absurd (hp.symm.trans ha) (by simp)

/-- **A signal** wakes a worker, or changes nothing where none is parked. -/
theorem signal_eq_some {who : Option ℕ} (h : s.signal who = some t) :
    (∃ tid, who = some tid ∧ s.workers[tid]? = some .parked ∧ t = s.goto tid .woken)
      ∨ who = none ∧ s.workers.any Phase.isParked = false ∧ t = s := by
  cases who with
  | some tid =>
    unfold signal at h
    dsimp only at h
    split at h
    · next hparked => exact Or.inl ⟨tid, rfl, hparked, (Option.some.inj h).symm⟩
    · exact absurd h (by simp)
  | none =>
    unfold signal at h
    dsimp only at h
    split at h
    · exact absurd h (by simp)
    · next hnone =>
      exact Or.inr ⟨rfl, Bool.eq_false_iff.mpr hnone, (Option.some.inj h).symm⟩

theorem Covered.signal (hs : s.Covered) {who : Option ℕ} (h : s.signal who = some t) :
    t.Covered := by
  rcases signal_eq_some h with ⟨tid, -, hparked, rfl⟩ | ⟨-, -, rfl⟩
  · exact covered_of_active (mem_goto hparked .woken) rfl
  · exact hs

theorem isGrowing_afterGrow (s : ThreadPool τ) (liveNum busyNum : ℤ) :
    (s.afterGrow liveNum busyNum).isGrowing = false := by
  unfold afterGrow
  split
  · rfl
  · rfl

/-- **What the manager can do**: start workers, or change only `m_exitNum` and
its phase, or signal. It is about to start workers only if there are fewer than
the most. -/
theorem managerStep_cases {who : Option ℕ} {m : ManagerPhase}
    (h : s.managerStep who m = some t) :
    (∃ liveNum busyNum, m = .growing liveNum busyNum ∧ s.locked = false
        ∧ t = { s.grow with manager := s.afterGrow liveNum busyNum })
      ∨ (∃ exitNum phase, t = { s with exitNum := exitNum, manager := phase }
        ∧ (phase.isGrowing → s.aliveNum < s.maxNum))
      ∨ ∃ u left, s.signal who = some u ∧ t = { u with manager := .signalling left } := by
  cases m with
  | sampling =>
    unfold managerStep at h
    dsimp only at h
    split at h
    · exact absurd h (by simp)
    · split at h
      · next hmore =>
        exact Or.inr (Or.inl ⟨s.exitNum, _, (Option.some.inj h).symm, fun _ => hmore.2⟩)
      · refine Or.inr (Or.inl ⟨s.exitNum, _, (Option.some.inj h).symm, fun hgrowing => ?_⟩)
        exact absurd ((isGrowing_afterGrow _ _ _).symm.trans hgrowing) (by simp)
  | growing liveNum busyNum =>
    unfold managerStep at h
    dsimp only at h
    split at h
    · exact absurd h (by simp)
    · next hfree =>
      exact Or.inl ⟨liveNum, busyNum, rfl, Bool.eq_false_iff.mpr hfree, (Option.some.inj h).symm⟩
  | shrinking =>
    unfold managerStep at h
    dsimp only at h
    split at h
    · exact absurd h (by simp)
    · exact Or.inr (Or.inl ⟨2, .signalling 2, (Option.some.inj h).symm, nofun⟩)
  | signalling left =>
    cases left with
    | zero => exact Or.inr (Or.inl ⟨s.exitNum, .sampling, (Option.some.inj h).symm, nofun⟩)
    | succ left =>
      obtain ⟨u, hu, ht⟩ := Option.map_eq_some_iff.mp h
      exact Or.inr (Or.inr ⟨u, left, hu, ht.symm⟩)

/-- **The manager** takes nobody away. -/
theorem Covered.managerStep (hs : s.Covered) {who : Option ℕ} {m : ManagerPhase}
    (h : s.managerStep who m = some t) : t.Covered := by
  rcases managerStep_cases h with ⟨liveNum, busyNum, -, -, rfl⟩ | ⟨exitNum, phase, rfl, -⟩
    | ⟨u, left, hu, rfl⟩
  · refine Or.imp_right (Or.imp_right ?_) hs
    rintro ⟨p, hp, ha⟩
    exact ⟨p, List.mem_append_left _ hp, ha⟩
  · exact hs
  · have hcovered := hs.signal hu
    exact hcovered

/-- **A worker that does not take the exit path** takes nobody away: where it
stops looking, the queue is empty. -/
theorem Covered.worker (hs : s.Covered) {p : Phase τ} (hp : s.workers[tid]? = some p)
    (hexit : ¬ s.TakesExit tid) (h : s.worker tid p = some t) : t.Covered := by
  cases p with
  | starting =>
    unfold ThreadPool.worker at h
    dsimp only at h
    split at h
    · exact absurd h (by simp)
    · obtain rfl := Option.some.inj h
      exact covered_of_active (mem_goto hp .testing) rfl
  | testing =>
    obtain rfl := Option.some.inj h
    split
    · next hempty => exact Or.inl (List.length_eq_zero_iff.mp hempty)
    · exact covered_of_active (mem_goto hp .taking) rfl
  | waiting =>
    obtain rfl := Option.some.inj h
    exact hs.goto_of_inactive hp rfl _
  | parked => exact absurd h (by simp [ThreadPool.worker])
  | woken =>
    unfold ThreadPool.worker at h
    dsimp only at h
    split at h
    · exact absurd h (by simp)
    · next hfree =>
      obtain rfl := Option.some.inj h
      unfold checkExit
      split
      · next hpos =>
        split
        · next hmore => exact absurd ⟨hp, Bool.eq_false_iff.mpr hfree, hpos, hmore⟩ hexit
        · exact covered_of_active (mem_goto (s := { s with exitNum := s.exitNum - 1 }) hp .testing)
            rfl
      · exact covered_of_active (mem_goto hp .testing) rfl
  | taking =>
    obtain rfl := Option.some.inj h
    exact covered_of_active (mem_goto (s := { s with
      queue := s.queue.tail, busyNum := s.busyNum + 1 }) hp _) rfl
  | running task =>
    cases task with
    | none => exact absurd h (by simp [ThreadPool.worker])
    | some task =>
      obtain rfl := Option.some.inj h
      exact covered_of_active (mem_goto hp .finishing) rfl
  | finishing =>
    unfold ThreadPool.worker at h
    dsimp only at h
    split at h
    · exact absurd h (by simp)
    · obtain rfl := Option.some.inj h
      exact covered_of_active (mem_goto (s := { s with busyNum := s.busyNum - 1 }) hp .starting) rfl
  | exiting =>
    obtain rfl := Option.some.inj h
    have hcovered := hs.goto_of_inactive hp rfl (.exited : Phase τ)
    exact hcovered
  | exited => exact absurd h (by simp [ThreadPool.worker])

/-- **A worker that takes the exit path** leaves the tasks to the others. -/
theorem TakesExit.step_covered_iff (h : s.TakesExit tid) :
    (∀ t, s.step (.worker tid) = some t → t.Covered)
      ↔ (s.calls = 0 → s.queue ≠ [] → ∃ p ∈ s.workers.eraseIdx tid, p.active) := by
  obtain ⟨hwoken, hfree, hpos, hmore⟩ := h
  have hstep : s.step (.worker tid)
      = some ({ s with exitNum := s.exitNum - 1, aliveNum := s.aliveNum - 1 }.goto tid
        .exiting) := by
    show s.workers[tid]?.bind (s.worker tid) = _
    rw [hwoken, Option.bind_some, ThreadPool.worker, hfree]
    show some (s.checkExit tid) = _
    unfold checkExit
    rw [if_pos hpos, if_pos hmore]
  have hothers : (∃ p ∈ s.workers.set tid .exiting, p.active)
      ↔ ∃ p ∈ s.workers.eraseIdx tid, p.active := by
    rw [exists_mem_set_iff (List.getElem?_eq_some_iff.mp hwoken).1 .exiting
      (fun p : Phase τ => p.active = true)]
    exact or_iff_right (by simp [Phase.active])
  rw [hstep]
  constructor
  · intro hcovered hcalls hqueue
    rcases hcovered _ rfl with hempty | hcall | hactive
    · exact absurd hempty hqueue
    · exact absurd hcalls (Nat.ne_of_gt hcall)
    · exact hothers.mp hactive
  · rintro hothers' t ht
    obtain rfl := Option.some.inj ht
    by_cases hqueue : s.queue = []
    · exact Or.inl hqueue
    · rcases Nat.eq_zero_or_pos s.calls with hcalls | hcalls
      · exact Or.inr (Or.inr (hothers.mpr (hothers' hcalls hqueue)))
      · exact Or.inr (Or.inl hcalls)

/-- **A signal that wakes nobody**: the tasks are left to the workers that
will look at the queue. -/
theorem step_signal_covered_iff :
    (∀ t, s.step (.signal none) = some t → t.Covered)
      ↔ (s.calls = 1 → s.queue ≠ [] → ∃ p ∈ s.workers, p.live ∧ p ≠ .waiting) := by
  constructor
  · intro hcovered hcalls hqueue
    by_cases hparked : s.workers.any Phase.isParked = true
    · obtain ⟨p, hp, hpark⟩ := List.any_eq_true.mp hparked
      refine ⟨p, hp, ?_⟩
      cases p <;> simp_all [Phase.isParked, Phase.live]
    · have hstep : s.step (.signal none) = some { s with calls := s.calls - 1 } := by
        simp [step, signal, hcalls, hparked]
      rcases hcovered _ hstep with hempty | hcall | ⟨p, hp, ha⟩
      · exact absurd hempty hqueue
      · have hzero : 0 < s.calls - 1 := hcall
        omega
      · refine ⟨p, hp, ?_⟩
        cases p <;> simp_all [Phase.active, Phase.live]
  · intro hlive t ht
    unfold step at ht
    dsimp only at ht
    split at ht
    · exact absurd ht (by simp)
    · next hcalls =>
      obtain ⟨u, hu, rfl⟩ := Option.map_eq_some_iff.mp ht
      rcases signal_eq_some hu with ⟨tid, hwho, -, -⟩ | ⟨-, hparked, rfl⟩
      · exact absurd hwho (by simp)
      · by_cases hqueue : u.queue = []
        · exact Or.inl hqueue
        · by_cases hone : u.calls = 1
          · obtain ⟨p, hp, hplive, hwait⟩ := hlive hone hqueue
            refine covered_of_active hp ?_
            have hpark := List.any_eq_false.mp hparked p hp
            cases p <;> simp_all [Phase.isParked, Phase.live, Phase.active]
          · exact Or.inr (Or.inl (by show 0 < u.calls - 1; omega))

/-- **A step keeps somebody who comes for the tasks exactly when it meets the
condition.** -/
theorem meets_iff {e : Event τ} (hs : s.Covered) :
    s.Meets e ↔ ∀ t, s.step e = some t → t.Covered := by
  cases e with
  | push task =>
    refine iff_of_true trivial (fun t ht => ?_)
    obtain rfl := Option.some.inj ht
    exact Or.inr (Or.inl (Nat.succ_pos _))
  | signal who =>
    cases who with
    | none => exact step_signal_covered_iff.symm
    | some tid =>
      refine iff_of_true trivial (fun t ht => ?_)
      unfold step at ht
      dsimp only at ht
      split at ht
      · exact absurd ht (by simp)
      · obtain ⟨u, hu, rfl⟩ := Option.map_eq_some_iff.mp ht
        rcases signal_eq_some hu with ⟨tid', -, hparked, rfl⟩ | ⟨hwho, -, -⟩
        · exact covered_of_active (mem_goto hparked .woken) rfl
        · exact absurd hwho (by simp)
  | worker tid =>
    by_cases hexit : s.TakesExit tid
    · rw [hexit.step_covered_iff]
      exact forall_prop_of_true hexit
    · refine iff_of_true (fun h => absurd h hexit) (fun t ht => ?_)
      obtain ⟨p, hp, hworker⟩ := Option.bind_eq_some_iff.mp ht
      exact hs.worker hp hexit hworker
  | manager who => exact iff_of_true trivial (fun t ht => hs.managerStep ht)

/-! ## Runs -/

theorem Covered.not_stuck (hs : s.Covered) : ¬ s.Stuck := by
  rintro ⟨hqueue, hcalls, hparked⟩
  rcases hs with hempty | hcall | ⟨p, hp, ha⟩
  · exact hqueue hempty
  · exact absurd hcalls (Nat.ne_of_gt hcall)
  · have hlive : p.live := by cases p <;> simp_all [Phase.active, Phase.live]
    rw [hparked p hp hlive] at ha
    exact absurd ha (by simp [Phase.active])

/-- **Somebody comes for the tasks all along a run exactly if every step meets
the condition.** -/
theorem guarded_iff_covered (minNum maxNum : ℕ) (exitNum : ℤ) (events : List (Event τ)) :
    Runs.Guarded step Meets (new τ minNum maxNum exitNum) events
      ↔ ∀ es, es <+: events → ∀ t, Runs.exec step (new τ minNum maxNum exitNum) es = some t →
        t.Covered :=
  Runs.guarded_iff_forall_prefix (fun hs => meets_iff hs) (Or.inl rfl)

/-- **No wake-up is lost** in a run all of whose steps meet the condition: no
task is left behind. -/
theorem no_lost_wakeup (minNum maxNum : ℕ) (exitNum : ℤ) {events : List (Event τ)}
    (hmeets : Runs.Guarded step Meets (new τ minNum maxNum exitNum) events)
    (h : Runs.exec step (new τ minNum maxNum exitNum) events = some s) : ¬ s.Stuck :=
  ((guarded_iff_covered minNum maxNum exitNum events).mp hmeets events
    (List.prefix_refl events) s h).not_stuck

/-- Two workers look at the queue, and one of them waits; a task is put into
the queue while the other has looked and does not wait yet. -/
def signalInGap : List (Event ℕ) :=
  [.worker 0, .worker 0, .worker 0, .worker 1, .worker 1, .push 7, .signal (some 0), .worker 1]

/-- The statement on this run: the other worker was woken. -/
theorem no_lost_wakeup_signalInGap :
    ∃ s, Runs.exec step (new ℕ 2 4 1) signalInGap = some s ∧ s.queue = [7] ∧ s.calls = 0
      ∧ ¬ s.Stuck := by
  have hrun : (Runs.exec step (new ℕ 2 4 1) signalInGap).isSome
      ∧ ∀ s ∈ Runs.exec step (new ℕ 2 4 1) signalInGap, s.queue = [7] ∧ s.calls = 0 := by
    decide +kernel
  obtain ⟨s, hs⟩ := Option.isSome_iff_exists.mp hrun.1
  obtain ⟨hqueue, hcalls⟩ := hrun.2 s hs
  exact ⟨s, hs, hqueue, hcalls, no_lost_wakeup 2 4 1 (by decide +kernel) hs⟩

/-- **A wake-up is lost**: the only worker finds the queue empty, a task is
put into the queue and signalled, and then the worker waits. -/
theorem lost_wakeup_single_worker :
    ¬ ∀ (minNum maxNum : ℕ) (exitNum : ℤ) (events : List (Event ℕ)) (s : ThreadPool ℕ),
      Runs.exec step (new ℕ minNum maxNum exitNum) events = some s → ¬ s.Stuck := by
  intro h
  have hrun : (Runs.exec step (new ℕ 1 1 0)
        [.worker 0, .worker 0, .push 7, .signal none, .worker 0]).isSome
      ∧ ∀ s ∈ Runs.exec step (new ℕ 1 1 0)
        [.worker 0, .worker 0, .push 7, .signal none, .worker 0], s.Stuck := by
    decide +kernel
  obtain ⟨s, hs⟩ := Option.isSome_iff_exists.mp hrun.1
  exact h 1 1 0 _ s hs (hrun.2 s hs)

end ThreadPool

end Dcs
