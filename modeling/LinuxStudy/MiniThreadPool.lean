import LinuxStudy.ThreadPoolCounters

/-!
# The slots of the other thread pool

The thread pool of the small system is the pool of a cache server with two
things changed: its queue holds a hundred tasks at most, and `m_threadIDs` is
allocated with `m_minNum` slots where the other has `m_maxNum`. The loops over
it are the same. The constructor goes up to `m_minNum`, and the manager, when
it starts workers, and `threadExit` go up to `m_maxNum`, each until it has
found what it looks for.

`threadExit` always finds it. A worker has a slot from the time it is started,
and nobody else writes to that slot. The manager looks for slots that are
free, up to two and no more than there are workers missing, and it runs past
the end exactly when there are not so many (`growIndices_lt_iff`). Without a
shutdown there is none at all, since the pool starts with as many workers as
it has slots and a worker exits only if there are more.

A pool that is shut down has `m_shutDown` set. The workers exit as soon as
they test it, `addTask` does nothing, and the manager, which tests it before
it sleeps, may go through its loop once more. The end of the destructor, which
gives the slots back, is not a step.
-/

namespace MiniDcs

open Dcs.ThreadPool (Phase ManagerPhase Occurrence growLoop)

/-- **`ThreadPool`**, with its threads. -/
structure ThreadPool (τ : Type) extends Dcs.ThreadPool τ where
  shutDown : Bool
  /-- The manager has tested `m_shutDown`, and sleeps. -/
  asleep : Bool

namespace ThreadPool

variable {τ : Type}

/-- The constructor: `m_threadIDs` has `m_minNum` slots. -/
def new (τ : Type) (minNum maxNum : ℕ) (exitNum : ℤ) : ThreadPool τ where
  toThreadPool :=
    { Dcs.ThreadPool.new τ minNum maxNum exitNum with threadIDs := (List.range minNum).map some }
  shutDown := false
  asleep := false

/-- The indices into `m_threadIDs` the constructor uses. -/
def constructorIndices (minNum : ℕ) : List ℕ := List.range minNum

/-! ## What a thread does next -/

/-- The same pool, with the rest of the state replaced. -/
def put (s : ThreadPool τ) (p : Dcs.ThreadPool τ) : ThreadPool τ := { s with toThreadPool := p }

/-- What the worker does next begins with a test of `m_shutDown`. -/
def testsShutDown : Phase τ → Bool
  | .testing | .taking => true
  | _ => false

/-- `worker`: what it does next. -/
def worker (s : ThreadPool τ) (tid : ℕ) (p : Phase τ) : Option (ThreadPool τ) :=
  if s.shutDown ∧ testsShutDown p then some (s.put (s.toThreadPool.goto tid .exiting))
  else (s.toThreadPool.worker tid p).map s.put

/-- `manager`: what it does next. At the top of its loop it tests `m_shutDown`
and sleeps, before it reads the numbers. -/
def managerStep (s : ThreadPool τ) (who : Option ℕ) : Option (ThreadPool τ) :=
  if s.manager = .sampling ∧ s.asleep = false then
    if s.shutDown then none else some { s with asleep := true }
  else
    (s.toThreadPool.managerStep who s.manager).map
      (fun p => { s with toThreadPool := p, asleep := false })

/-- `addTask`, up to the signal. While the queue is full it waits. -/
def push (s : ThreadPool τ) (task : τ) : Option (ThreadPool τ) :=
  if s.shutDown then some s
  else if s.queue.length < 100 then (s.toThreadPool.step (.push task)).map s.put
  else none

/-- What may happen: a step of a thread, a worker woken without a signal, or
the destructor sets `m_shutDown`. -/
inductive Happening (τ : Type)
  | pool (o : Occurrence τ)
  | shutDown

/-- What happens, as long as the slots that are used are there. -/
def act (s : ThreadPool τ) : Happening τ → Option (ThreadPool τ)
  | .pool (.event (.push task)) => s.push task
  | .pool (.event (.worker tid)) => s.workers[tid]?.bind (s.worker tid)
  | .pool (.event (.manager who)) => s.managerStep who
  | .pool o => (s.toThreadPool.occur o).map s.put
  | .shutDown => some { s with shutDown := true }

/-! ## The slots that are used

The constructor makes a vector with as many slots as the least number of workers,
and starts a worker in each. The manager may start more, up to the greatest
number, and looks for free slots with an index that runs up to this number. A slot
is free when its worker has left through `threadExit`. -/

/-- The indices the loop of `manager` uses, from an index on and with so many
workers started: the one past the slots that are left as well, if the loop
gets there. -/
def growIndices (maxNum : ℕ) (aliveNum : ℤ) : ℕ → ℕ → List (Option ℕ) → List ℕ
  | i, num, [] => if i < maxNum ∧ num < 2 ∧ aliveNum + num < maxNum then [i] else []
  | i, num, slot :: rest =>
    if i < maxNum ∧ num < 2 ∧ aliveNum + num < maxNum then
      i :: growIndices maxNum aliveNum (i + 1) (if slot = none then num + 1 else num) rest
    else []

/-- The indices `threadExit` uses, from an index on. -/
def threadExitIndices (maxNum tid : ℕ) : ℕ → List (Option ℕ) → List ℕ
  | i, [] => if i < maxNum then [i] else []
  | i, slot :: rest =>
    if i < maxNum then
      i :: (if slot = some tid then [] else threadExitIndices maxNum tid (i + 1) rest)
    else []

/-- The manager runs its loop over the slots now. -/
def Grows (s : ThreadPool τ) : Prop := s.manager.isGrowing ∧ s.locked = false

instance (s : ThreadPool τ) : Decidable s.Grows := inferInstanceAs (Decidable (_ ∧ _))

/-- The indices into `m_threadIDs` that are used. -/
def indices (s : ThreadPool τ) : Happening τ → List ℕ
  | .pool (.event (.worker tid)) =>
    if s.workers[tid]?.any Phase.isExiting then threadExitIndices s.maxNum tid 0 s.threadIDs else []
  | .pool (.event (.manager _)) =>
    if s.Grows then growIndices s.maxNum s.aliveNum 0 0 s.threadIDs else []
  | _ => []

/-- **Every index is below the number of slots.** -/
def InRange (s : ThreadPool τ) (o : Happening τ) : Prop :=
  ∀ i ∈ s.indices o, i < s.threadIDs.length

instance (s : ThreadPool τ) (o : Happening τ) : Decidable (s.InRange o) :=
  inferInstanceAs (Decidable (∀ i ∈ s.indices o, _))

/-- **One step**, undefined where it cannot happen and where a slot is used
that is not there. -/
def occur (s : ThreadPool τ) (o : Happening τ) : Option (ThreadPool τ) :=
  if s.InRange o then s.act o else none

/-- The indices the constructor uses, and those used along a run, are below
the number of slots. -/
def SlotsInRange (minNum maxNum : ℕ) (exitNum : ℤ) (os : List (Happening τ)) : Prop :=
  (∀ i ∈ constructorIndices minNum, i < (new τ minNum maxNum exitNum).threadIDs.length)
    ∧ Runs.Guarded occur InRange (new τ minNum maxNum exitNum) os

/-- **The condition on a step.** Where the manager runs its loop, there are as
many free slots as it looks for. -/
def Meets (s : ThreadPool τ) : Happening τ → Prop
  | .pool (.event (.manager _)) =>
    s.Grows → min 2 (s.maxNum - s.aliveNum) ≤ s.threadIDs.count none
  | _ => True

instance (s : ThreadPool τ) (o : Happening τ) : Decidable (s.Meets o) :=
  match o with
  | .pool (.event (.push _)) => inferInstanceAs (Decidable True)
  | .pool (.event (.signal _)) => inferInstanceAs (Decidable True)
  | .pool (.event (.worker _)) => inferInstanceAs (Decidable True)
  | .pool (.event (.manager _)) => inferInstanceAs (Decidable (_ → _ ≤ _))
  | .pool (.spurious _) => inferInstanceAs (Decidable True)
  | .shutDown => inferInstanceAs (Decidable True)

/-! ## The two loops -/

/-- **The loop of the manager** stays within the slots exactly if enough of
them are free, or the last slot is the last place the loop would go to. -/
theorem growIndices_lt_iff {maxNum : ℕ} {aliveNum : ℤ} {i num : ℕ} {slots : List (Option ℕ)}
    (h : i + slots.length ≤ maxNum) :
    (∀ j ∈ growIndices maxNum aliveNum i num slots, j < i + slots.length)
      ↔ maxNum = i + slots.length ∨ min 2 (maxNum - aliveNum) ≤ num + slots.count none := by
  induction slots generalizing i num with
  | nil =>
    unfold growIndices
    rw [List.length_nil] at h ⊢
    rw [List.count_nil]
    split
    · next hgoes =>
      rw [List.forall_mem_singleton]
      omega
    · next hstops =>
      refine iff_of_true (fun j hj => absurd hj List.not_mem_nil) ?_
      omega
  | cons slot slots ih =>
    rw [List.length_cons] at h ⊢
    have hsucc : i + (slots.length + 1) = i + 1 + slots.length := by omega
    unfold growIndices
    split
    · rw [List.forall_mem_cons, hsucc, ih (by omega)]
      have hfree : (if slot = none then num + 1 else num) + slots.count none
          = num + (slot :: slots).count none := by
        cases slot with
        | none =>
          rw [if_pos rfl, List.count_cons_self]
          omega
        | some tid =>
          rw [if_neg (Option.some_ne_none tid), List.count_cons_of_ne (Option.some_ne_none tid)]
      refine (and_iff_right (by omega)).trans (or_congr_right ?_)
      omega
    · next hstops =>
      refine iff_of_true (fun j hj => absurd hj List.not_mem_nil) (Or.inr ?_)
      omega

/-- **`threadExit`** stays within the slots if the worker has one. -/
theorem threadExitIndices_lt {maxNum tid i : ℕ} {slots : List (Option ℕ)}
    (h : some tid ∈ slots) : ∀ j ∈ threadExitIndices maxNum tid i slots, j < i + slots.length := by
  induction slots generalizing i with
  | nil => exact absurd h List.not_mem_nil
  | cons slot slots ih =>
    rw [List.length_cons]
    unfold threadExitIndices
    split
    · refine List.forall_mem_cons.mpr ⟨by omega, ?_⟩
      split
      · exact fun j hj => absurd hj List.not_mem_nil
      · next hother =>
        intro j hj
        have hrest := ih (List.mem_of_ne_of_mem (fun heq => hother heq.symm) h) j hj
        omega
    · exact fun j hj => absurd hj List.not_mem_nil

/-- **The slots when the manager has started workers**: there are as many as
before, who had a slot has it still, and every worker that was started has
one. -/
theorem growLoop_slots (maxNum : ℕ) (aliveNum : ℤ) (next : ℕ) (num : ℕ)
    (slots : List (Option ℕ)) :
    (growLoop maxNum aliveNum next num slots).1.length = slots.length
      ∧ (∀ tid, some tid ∈ slots → some tid ∈ (growLoop maxNum aliveNum next num slots).1)
      ∧ ∀ k, num ≤ k → k < (growLoop maxNum aliveNum next num slots).2 →
        some (next + k) ∈ (growLoop maxNum aliveNum next num slots).1 := by
  induction slots generalizing num with
  | nil => exact ⟨rfl, fun tid h => h, fun k hle hlt => absurd hlt (Nat.not_lt.mpr hle)⟩
  | cons slot slots ih =>
    unfold growLoop
    split
    · cases slot with
      | none =>
        obtain ⟨hlength, hkept, hnew⟩ := ih (num + 1)
        refine ⟨congrArg Nat.succ hlength, fun tid h => ?_, fun k hle hlt => ?_⟩
        · exact List.mem_cons_of_mem _
            (hkept tid (List.mem_of_ne_of_mem (Option.some_ne_none tid) h))
        · rcases Nat.eq_or_lt_of_le hle with rfl | hlater
          · exact List.mem_cons_self
          · exact List.mem_cons_of_mem _ (hnew k hlater hlt)
      | some other =>
        obtain ⟨hlength, hkept, hnew⟩ := ih num
        refine ⟨congrArg Nat.succ hlength, fun tid h => ?_, fun k hle hlt => ?_⟩
        · rcases List.mem_cons.mp h with heq | hrest
          · exact heq ▸ List.mem_cons_self
          · exact List.mem_cons_of_mem _ (hkept tid hrest)
        · exact List.mem_cons_of_mem _ (hnew k hle hlt)
    · exact ⟨rfl, fun tid h => h, fun k hle hlt => absurd hlt (Nat.not_lt.mpr hle)⟩

/-! ## What can change

Most steps of the pool have nothing to do with the slots. So a step is reduced to
one of three moves before anything is said of them: nothing happens to the slots,
a worker leaves its slot, or the manager starts workers in its loop. -/

section Pool

open Dcs.ThreadPool (Goes worker_goes signal_eq_some managerStep_cases isGrowing_afterGrow
  occur_changes)

variable {s t : Dcs.ThreadPool τ} {tid : ℕ}

/-- **What can change**, with the slots: nothing, or a worker does something,
or the manager starts workers. -/
inductive Moves (s : Dcs.ThreadPool τ) (o : Occurrence τ) (t : Dcs.ThreadPool τ) : Prop
  | stays (hworkers : t.workers = s.workers) (hids : t.threadIDs = s.threadIDs)
      (halive : t.aliveNum = s.aliveNum)
  | goes (tid : ℕ) (p q : Phase τ) (hp : s.workers[tid]? = some p)
      (hworkers : t.workers = s.workers.set tid q)
      (hids : t.threadIDs
        = if p.isExiting then s.threadIDs.replace (some tid) none else s.threadIDs)
      (hgoes : Goes s p q t.queue t.busyNum t.aliveNum)
  | grows (who : Option ℕ) (ho : o = .event (.manager who))
      (hgrows : s.manager.isGrowing ∧ s.locked = false)
      (hworkers : t.workers = s.grow.workers) (hids : t.threadIDs = s.grow.threadIDs)
      (halive : t.aliveNum = s.grow.aliveNum)

/-- A signal wakes a worker or changes nothing, and leaves the manager
alone. -/
theorem signal_moves {o : Occurrence τ} {who : Option ℕ} {u : Dcs.ThreadPool τ}
    (h : s.signal who = some u) (hworkers : t.workers = u.workers)
    (hids : t.threadIDs = u.threadIDs) (hqueue : t.queue = u.queue)
    (hbusy : t.busyNum = u.busyNum) (halive : t.aliveNum = u.aliveNum) :
    Moves s o t ∧ u.manager = s.manager := by
  rcases signal_eq_some h with ⟨tid, -, hparked, rfl⟩ | ⟨-, -, rfl⟩
  · refine ⟨.goes tid .parked .woken hparked hworkers hids ?_, rfl⟩
    rw [hqueue, hbusy, halive]
    exact .wake
  · exact ⟨.stays hworkers hids halive, rfl⟩

/-- The manager starts workers only in its loop, and it goes there only while
there are fewer than the most. -/
theorem managerStep_moves {who : Option ℕ} (h : s.managerStep who s.manager = some t) :
    Moves s (.event (.manager who)) t ∧ (t.manager.isGrowing → s.aliveNum < s.maxNum) := by
  rcases managerStep_cases h with ⟨liveNum, busyNum, hmanager, hfree, rfl⟩
    | ⟨exitNum, phase, rfl, hmost⟩ | ⟨u, left, hu, rfl⟩
  · refine ⟨.grows who rfl ⟨by rw [hmanager]; rfl, hfree⟩ rfl rfl rfl, fun hgrowing => ?_⟩
    exact absurd ((isGrowing_afterGrow _ _ _).symm.trans hgrowing) (by simp)
  · exact ⟨.stays rfl rfl rfl, hmost⟩
  · have hmoves := signal_moves (t := { u with manager := .signalling left })
      (o := .event (.manager who)) hu rfl rfl rfl rfl rfl
    exact ⟨hmoves.1, nofun⟩

/-- **Whatever happens is a move**, and the manager goes to its loop only
while there are fewer workers than the most. -/
theorem occur_moves {o : Occurrence τ} (h : s.occur o = some t) :
    Moves s o t ∧ (t.manager.isGrowing → s.manager.isGrowing ∨ s.aliveNum < s.maxNum) := by
  cases o with
  | spurious tid =>
    have hsignal : s.signal (some tid) = some t := h
    obtain ⟨hmoves, hmanager⟩ := signal_moves hsignal rfl rfl rfl rfl rfl
    exact ⟨hmoves, fun hgrowing => Or.inl (hmanager ▸ hgrowing)⟩
  | event e =>
    cases e with
    | push task =>
      obtain rfl := Option.some.inj h
      exact ⟨.stays rfl rfl rfl, Or.inl⟩
    | signal who =>
      have hstep : (if s.calls = 0 then none
          else (s.signal who).map (fun s => { s with calls := s.calls - 1 })) = some t := h
      split at hstep
      · exact absurd hstep (by simp)
      · obtain ⟨u, hu, rfl⟩ := Option.map_eq_some_iff.mp hstep
        obtain ⟨hmoves, hmanager⟩ :=
          signal_moves (t := { u with calls := u.calls - 1 }) hu rfl rfl rfl rfl rfl
        refine ⟨hmoves, fun hgrowing => Or.inl ?_⟩
        have hu' : u.manager.isGrowing := hgrowing
        exact hmanager ▸ hu'
    | worker tid =>
      obtain ⟨p, hp, hworker⟩ := Option.bind_eq_some_iff.mp h
      obtain ⟨q, hworkers, -, ⟨hids, hmanager⟩, hgoes⟩ := worker_goes hworker
      exact ⟨.goes tid p q hp hworkers hids hgoes, fun hgrowing => Or.inl (hmanager ▸ hgrowing)⟩
    | manager who =>
      have hstep : s.managerStep who s.manager = some t := h
      obtain ⟨hmoves, hmost⟩ := managerStep_moves hstep
      exact ⟨hmoves, fun hgrowing => Or.inr (hmost hgrowing)⟩

/-! ## Who has a slot

Every worker that has not left has a slot, and there are as many slots as at
first. So a slot is free only for a worker that has left. While the pool is not
shut down a worker leaves only if there are more than the least number, and then
there would have to be more than there are slots. -/

/-- **The slots of a pool**: there are as many as the least number of workers,
and every worker that has not left has one. There are never fewer workers than
the least number, and the manager is in its loop only if the most are more. -/
structure Slots (minNum maxNum : ℕ) (s : Dcs.ThreadPool τ) : Prop where
  minNum_eq : s.minNum = minNum
  maxNum_eq : s.maxNum = maxNum
  length_eq : s.threadIDs.length = minNum
  least : (minNum : ℤ) ≤ s.aliveNum
  seated : ∀ tid p, s.workers[tid]? = some p → p ≠ .exited → some tid ∈ s.threadIDs
  growing : s.manager.isGrowing → minNum < maxNum

variable {minNum maxNum : ℕ}

theorem slots_new (minNum maxNum : ℕ) (exitNum : ℤ) :
    Slots minNum maxNum (new τ minNum maxNum exitNum).toThreadPool := by
  refine ⟨rfl, rfl, ?_, le_rfl, fun tid p hp _ => ?_, fun hgrowing => ?_⟩
  · show ((List.range minNum).map some).length = minNum
    rw [List.length_map, List.length_range]
  · have hlt : tid < minNum := by
      have hlt := (List.getElem?_eq_some_iff.mp hp).1
      rwa [show (new τ minNum maxNum exitNum).workers = List.replicate minNum .starting from rfl,
        List.length_replicate] at hlt
    exact List.mem_map.mpr ⟨tid, List.mem_range.mpr hlt, rfl⟩
  · exact absurd hgrowing (by simp [new, Dcs.ThreadPool.new, ManagerPhase.isGrowing])

/-- A worker that goes on keeps its slot, and so do the others. -/
theorem seated_set {p : Phase τ}
    (h : ∀ tid p, s.workers[tid]? = some p → p ≠ .exited → some tid ∈ s.threadIDs)
    (hp : s.workers[tid]? = some p) (hin : p ≠ .exited) (q : Phase τ) :
    ∀ other p, (s.workers.set tid q)[other]? = some p → some other ∈ s.threadIDs ∨ p = .exited := by
  intro other r hr
  by_cases hother : tid = other
  · subst hother
    exact Or.inl (h tid p hp hin)
  · rw [List.getElem?_set_ne hother] at hr
    by_cases hexited : r = .exited
    · exact Or.inr hexited
    · exact Or.inl (h other r hr hexited)

theorem ne_exited_of_goes {p q : Phase τ} {queue : List τ} {busyNum aliveNum : ℤ}
    (h : Goes s p q queue busyNum aliveNum) : p ≠ .exited := by
  rintro rfl
  cases h

theorem eq_exited_of_goes {p q : Phase τ} {queue : List τ} {busyNum aliveNum : ℤ}
    (h : Goes s p q queue busyNum aliveNum) (hexiting : p.isExiting) : q = .exited := by
  cases h with
  | leave => rfl
  | _ => exact absurd hexiting (by simp [Phase.isExiting])

/-- What is not replaced is still there. -/
theorem mem_replace_of_ne {ids : List (Option ℕ)} {a b : Option ℕ} (h : a ∈ ids) (hne : a ≠ b) :
    a ∈ ids.replace b none := by
  induction ids with
  | nil => exact absurd h List.not_mem_nil
  | cons id ids ih =>
    rw [List.replace_cons]
    split
    · next heq =>
      obtain rfl : id = b := (beq_iff_eq.mp heq).symm
      exact List.mem_cons_of_mem _ (List.mem_of_ne_of_mem hne h)
    · rcases List.mem_cons.mp h with rfl | hrest
      · exact List.mem_cons_self
      · exact List.mem_cons_of_mem _ (ih hrest)

/-- **Who has a slot keeps it** until it leaves, and who is started gets
one. -/
theorem Moves.seated {o : Occurrence τ} (h : Moves s o t)
    (hs : ∀ tid p, s.workers[tid]? = some p → p ≠ .exited → some tid ∈ s.threadIDs) :
    ∀ tid p, t.workers[tid]? = some p → p ≠ .exited → some tid ∈ t.threadIDs := by
  cases h with
  | stays hworkers hids _ =>
    rw [hworkers, hids]
    exact hs
  | goes tid p q hp hworkers hids hgoes =>
    intro other r hr hin
    rw [hworkers] at hr
    have hseat := (seated_set hs hp (ne_exited_of_goes hgoes) q other r hr).resolve_right hin
    rw [hids]
    split
    · next hexiting =>
      -- the slot that is set free belongs to the worker that leaves
      have hother : other ≠ tid := by
        rintro rfl
        rw [List.getElem?_set_self (List.getElem?_eq_some_iff.mp hp).1] at hr
        exact hin ((Option.some.inj hr).symm.trans (eq_exited_of_goes hgoes hexiting))
      exact mem_replace_of_ne hseat (fun heq => hother (Option.some.inj heq))
    · exact hseat
  | grows _ _ _ hworkers hids _ =>
    obtain ⟨-, hkept, hnew⟩ :=
      growLoop_slots s.maxNum s.aliveNum s.workers.length 0 s.threadIDs
    intro other r hr hin
    rw [hworkers] at hr
    rw [hids]
    rcases Nat.lt_or_ge other s.workers.length with hold | hstarted
    · refine hkept other (hs other r ?_ hin)
      rwa [← List.getElem?_append_left hold]
    · have hlt := (List.getElem?_eq_some_iff.mp hr).1
      rw [show s.grow.workers = s.workers ++ List.replicate
          (growLoop s.maxNum s.aliveNum s.workers.length 0 s.threadIDs).2 .starting from rfl,
        List.length_append, List.length_replicate] at hlt
      have hseat := hnew (other - s.workers.length) (Nat.zero_le _) (by omega)
      rwa [Nat.add_sub_cancel' hstarted] at hseat

/-- The number of slots stays. -/
theorem Moves.length_threadIDs {o : Occurrence τ} (h : Moves s o t) :
    t.threadIDs.length = s.threadIDs.length := by
  cases h with
  | stays _ hids _ => rw [hids]
  | goes _ _ _ _ _ hids _ =>
    rw [hids]
    split
    · exact List.length_replace
    · rfl
  | grows _ _ _ _ hids _ =>
    rw [hids]
    exact (growLoop_slots _ _ _ _ _).1

/-- The number of workers does not go below the least. -/
theorem Moves.least {o : Occurrence τ} (h : Moves s o t) (hs : s.minNum ≤ s.aliveNum) :
    s.minNum ≤ t.aliveNum := by
  cases h with
  | stays _ _ halive => rwa [halive]
  | goes _ _ _ _ _ _ hgoes => exact hgoes.spec.2.2.2.1 hs
  | grows _ _ _ _ _ halive =>
    rw [halive]
    have hmore : s.grow.aliveNum = s.aliveNum
        + (growLoop s.maxNum s.aliveNum s.workers.length 0 s.threadIDs).2 := rfl
    omega

/-- **Whatever happens keeps the slots.** -/
theorem Slots.occur (h : Slots minNum maxNum s) {o : Occurrence τ} (ho : s.occur o = some t) :
    Slots minNum maxNum t := by
  obtain ⟨hbounds, -⟩ := occur_changes ho
  obtain ⟨hmoves, hgrowing⟩ := occur_moves ho
  have hmin := h.minNum_eq
  have hmax := h.maxNum_eq
  have hleast := h.least
  refine ⟨hbounds.1.trans hmin, hbounds.2.trans hmax, hmoves.length_threadIDs.trans h.length_eq,
    ?_, hmoves.seated h.seated, fun hg => ?_⟩
  · rw [← hmin] at hleast ⊢
    exact hmoves.least hleast
  · rcases hgrowing hg with hold | hmost
    · exact h.growing hold
    · omega

theorem Slots.exiting (h : Slots minNum maxNum s) {p : Phase τ} (hp : s.workers[tid]? = some p)
    (hin : p ≠ .exited) : Slots minNum maxNum (s.goto tid .exiting) :=
  ⟨h.minNum_eq, h.maxNum_eq, h.length_eq, h.least,
    fun other r hr hne => (seated_set h.seated hp hin .exiting other r hr).resolve_right hne,
    h.growing⟩

end Pool

variable {s t : ThreadPool τ} {minNum maxNum : ℕ}

/-- **What may happen**, in terms of the other pool: nothing or one of its
steps, or a worker exits because of the shutdown. -/
theorem act_cases {o : Happening τ} (h : s.act o = some t) :
    (t.shutDown = s.shutDown ∨ o = .shutDown)
      ∧ (t.toThreadPool = s.toThreadPool
        ∨ (∃ tid p, s.shutDown ∧ s.workers[tid]? = some p ∧ p ≠ .exited
          ∧ t.toThreadPool = s.toThreadPool.goto tid .exiting)
        ∨ ∃ o', o = .pool o' ∧ s.toThreadPool.occur o' = some t.toThreadPool) := by
  cases o with
  | shutDown =>
    obtain rfl := Option.some.inj h
    exact ⟨Or.inr rfl, Or.inl rfl⟩
  | pool o =>
    cases o with
    | spurious tid =>
      obtain ⟨p, hp, rfl⟩ := Option.map_eq_some_iff.mp h
      exact ⟨Or.inl rfl, Or.inr (Or.inr ⟨_, rfl, hp⟩)⟩
    | event e =>
      cases e with
      | push task =>
        have hpush : s.push task = some t := h
        unfold push at hpush
        split at hpush
        · obtain rfl := Option.some.inj hpush
          exact ⟨Or.inl rfl, Or.inl rfl⟩
        · split at hpush
          · obtain ⟨p, hp, rfl⟩ := Option.map_eq_some_iff.mp hpush
            exact ⟨Or.inl rfl, Or.inr (Or.inr ⟨.event (.push task), rfl, hp⟩)⟩
          · exact absurd hpush (by simp)
      | signal who =>
        obtain ⟨p, hp, rfl⟩ := Option.map_eq_some_iff.mp h
        exact ⟨Or.inl rfl, Or.inr (Or.inr ⟨_, rfl, hp⟩)⟩
      | worker tid =>
        obtain ⟨p, hp, hworker⟩ := Option.bind_eq_some_iff.mp h
        unfold worker at hworker
        split at hworker
        · next htests =>
          obtain rfl := Option.some.inj hworker
          refine ⟨Or.inl rfl, Or.inr (Or.inl ⟨tid, p, htests.1, hp, ?_, rfl⟩)⟩
          rintro rfl
          exact absurd htests.2 (by simp [testsShutDown])
        · obtain ⟨u, hu, rfl⟩ := Option.map_eq_some_iff.mp hworker
          refine ⟨Or.inl rfl, Or.inr (Or.inr ⟨.event (.worker tid), rfl, ?_⟩)⟩
          exact Option.bind_eq_some_iff.mpr ⟨p, hp, hu⟩
      | manager who =>
        have hmanager : s.managerStep who = some t := h
        unfold managerStep at hmanager
        split at hmanager
        · split at hmanager
          · exact absurd hmanager (by simp)
          · obtain rfl := Option.some.inj hmanager
            exact ⟨Or.inl rfl, Or.inl rfl⟩
        · obtain ⟨u, hu, rfl⟩ := Option.map_eq_some_iff.mp hmanager
          exact ⟨Or.inl rfl, Or.inr (Or.inr ⟨.event (.manager who), rfl, hu⟩)⟩

theorem occur_eq_some {o : Happening τ} (h : s.occur o = some t) :
    s.InRange o ∧ s.act o = some t := by
  unfold occur at h
  split at h
  · next hin => exact ⟨hin, h⟩
  · exact absurd h (by simp)

/-- **A step keeps the slots.** -/
theorem slots_occur (hs : Slots minNum maxNum s.toThreadPool) {o : Happening τ}
    (h : s.occur o = some t) : Slots minNum maxNum t.toThreadPool := by
  rcases (act_cases (occur_eq_some h).2).2 with hsame | ⟨tid, p, -, hp, hin, hexit⟩ | ⟨o, -, ho⟩
  · exact hsame ▸ hs
  · exact hexit ▸ hs.exiting hp hin
  · exact hs.occur ho

/-- **A step uses slots that are there exactly if it meets the condition.** -/
theorem inRange_iff_meets (hs : Slots minNum maxNum s.toThreadPool) {o : Happening τ} :
    s.InRange o ↔ s.Meets o := by
  have hnone : ∀ i ∈ ([] : List ℕ), i < s.threadIDs.length := fun i hi =>
    absurd hi List.not_mem_nil
  cases o with
  | shutDown => exact iff_of_true hnone trivial
  | pool o =>
    cases o with
    | spurious tid => exact iff_of_true hnone trivial
    | event e =>
      cases e with
      | push task => exact iff_of_true hnone trivial
      | signal who => exact iff_of_true hnone trivial
      | worker tid =>
        refine iff_of_true ?_ trivial
        unfold InRange indices
        dsimp only
        split
        · next hexiting =>
          obtain ⟨p, hp, hp'⟩ := (Option.any_eq_true _ _).mp hexiting
          have hseat : some tid ∈ s.threadIDs := by
            refine hs.seated tid p hp ?_
            rintro rfl
            exact absurd hp' (by simp [Phase.isExiting])
          have hlt : ∀ j ∈ threadExitIndices s.maxNum tid 0 s.threadIDs,
              j < 0 + s.threadIDs.length := threadExitIndices_lt hseat
          rwa [Nat.zero_add] at hlt
        · exact hnone
      | manager who =>
        unfold InRange indices Meets
        dsimp only
        by_cases hgrows : s.Grows
        · have hless := hs.growing hgrows.1
          have hlength := hs.length_eq
          have hmax := hs.maxNum_eq
          have hloop : (∀ j ∈ growIndices s.maxNum s.aliveNum 0 0 s.threadIDs,
              j < 0 + s.threadIDs.length) ↔ _ := growIndices_lt_iff (by omega)
          rw [Nat.zero_add] at hloop
          rw [if_pos hgrows, hloop, or_iff_right (by omega), imp_iff_right hgrows]
          omega
        · rw [if_neg hgrows]
          exact iff_of_true hnone (fun h => absurd h hgrows)

/-! ## Before the shutdown

As long as the manager has not run its loop, no slot is free before the shutdown,
by the above. So when it comes to the loop for the first time, it finds none and
goes past the last slot. -/

/-- **A pool that is not shut down and has started no worker since the
constructor**: no slot is free, and no worker exits. -/
structure Fresh (s : ThreadPool τ) : Prop where
  shutDown_eq : s.shutDown = false
  full : s.threadIDs.count none = 0
  alive : s.aliveNum = s.minNum
  stay : ∀ p ∈ s.workers, p.isExiting = false

theorem fresh_new (minNum maxNum : ℕ) (exitNum : ℤ) : Fresh (new τ minNum maxNum exitNum) := by
  refine ⟨rfl, ?_, rfl, fun p hp => ?_⟩
  · refine List.count_eq_zero.mpr (fun hmem => ?_)
    obtain ⟨tid, -, htid⟩ := List.mem_map.mp hmem
    exact absurd htid (Option.some_ne_none tid)
  · rw [(List.mem_replicate.mp hp).2]
    rfl

theorem goes_of_least {p q : Phase τ} {u : Dcs.ThreadPool τ} {queue : List τ}
    {busyNum aliveNum : ℤ} (h : Dcs.ThreadPool.Goes u p q queue busyNum aliveNum)
    (hleast : u.aliveNum = u.minNum) : aliveNum = u.aliveNum ∧ q.isExiting = false := by
  cases h with
  | exit _ hmore => omega
  | _ => exact ⟨rfl, rfl⟩

/-- **No slot is free for the manager**: where it runs its loop, it does not
meet the condition. -/
theorem Fresh.meets_iff (h : Fresh s) (hs : Slots minNum maxNum s.toThreadPool)
    {who : Option ℕ} : s.Meets (.pool (.event (.manager who))) ↔ ¬ s.Grows := by
  refine imp_congr_right (fun hgrows => ?_)
  have hless := hs.growing hgrows.1
  have hmin := hs.minNum_eq
  have hmax := hs.maxNum_eq
  have halive := h.alive
  refine iff_of_false (fun hfree => ?_) id
  rw [h.full] at hfree
  omega

/-- **A step other than the shutdown** frees no slot. -/
theorem Fresh.occur (h : Fresh s) (hs : Slots minNum maxNum s.toThreadPool) {o : Occurrence τ}
    (ho : s.occur (.pool o) = some t) : Fresh t := by
  obtain ⟨hin, hact⟩ := occur_eq_some ho
  obtain ⟨hshut, hcases⟩ := act_cases hact
  have hshut' : t.shutDown = false := (hshut.resolve_right (by simp)).trans h.shutDown_eq
  rcases hcases with hsame | ⟨tid, p, hdown, -⟩ | ⟨o', heq, ho'⟩
  · exact ⟨hshut', hsame ▸ h.full, hsame ▸ h.alive, hsame ▸ h.stay⟩
  · exact absurd (h.shutDown_eq.symm.trans hdown) (by simp)
  · obtain rfl := Happening.pool.inj heq
    obtain ⟨⟨hmin', -⟩, -⟩ := Dcs.ThreadPool.occur_changes ho'
    cases (occur_moves ho').1 with
    | stays hworkers hids halive =>
      exact ⟨hshut', hids ▸ h.full, by rw [halive, hmin', h.alive], hworkers ▸ h.stay⟩
    | goes tid p q hp hworkers hids hgoes =>
      obtain ⟨halive, hq⟩ := goes_of_least hgoes h.alive
      rw [h.stay p (List.mem_of_getElem? hp)] at hids
      refine ⟨hshut', ?_, by rw [halive, hmin', h.alive], fun r hr => ?_⟩
      · rw [hids]
        exact h.full
      · rw [hworkers] at hr
        rcases List.mem_or_eq_of_mem_set hr with hold | rfl
        · exact h.stay r hold
        · exact hq
    | grows who hwho hgrows _ _ _ =>
      -- the loop would run past the slots, and then there is no step
      subst hwho
      exact absurd hgrows ((h.meets_iff hs).mp ((inRange_iff_meets hs).mp hin))

/-! ## Runs -/

/-- The step is not the manager running its loop over the slots. -/
def KeepsSize (s : ThreadPool τ) : Happening τ → Prop
  | .pool (.event (.manager _)) => ¬ s.Grows
  | _ => True

/-- **Without a shutdown** the manager may not run its loop at all. -/
theorem guarded_meets_iff_keepsSize (minNum maxNum : ℕ) (exitNum : ℤ)
    (os : List (Occurrence τ)) :
    Runs.Guarded occur Meets (new τ minNum maxNum exitNum) (os.map .pool)
      ↔ Runs.Guarded occur KeepsSize (new τ minNum maxNum exitNum) (os.map .pool) := by
  rw [Runs.guarded_map, Runs.guarded_map]
  refine Runs.guarded_congr (fun s => Slots minNum maxNum s.toThreadPool ∧ Fresh s)
    (fun hs ho => ⟨slots_occur hs.1 ho, hs.2.occur hs.1 ho⟩) ?_
    ⟨slots_new minNum maxNum exitNum, fresh_new minNum maxNum exitNum⟩
  intro s o hs
  cases o with
  | spurious tid => exact Iff.rfl
  | event e =>
    cases e with
    | push task => exact Iff.rfl
    | signal who => exact Iff.rfl
    | worker tid => exact Iff.rfl
    | manager who => exact hs.2.meets_iff hs.1

/-- A pool that may not grow meets the condition: the manager never runs its
loop. -/
theorem meets_of_le (h : maxNum ≤ minNum) (hs : Slots minNum maxNum s.toThreadPool)
    (o : Happening τ) : s.Meets o := by
  cases o with
  | shutDown => trivial
  | pool o =>
    cases o with
    | spurious tid => trivial
    | event e =>
      cases e with
      | push task => trivial
      | signal who => trivial
      | worker tid => trivial
      | manager who => exact fun hgrows => absurd (hs.growing hgrows.1) (Nat.not_lt.mpr h)

/-- **The slots of the thread pool.** The indices the constructor, the manager
and `threadExit` use are below the number of slots all along a run exactly if,
whenever the manager runs its loop, there are as many free slots as it looks
for. Without a shutdown that means that it never runs the loop. With the least
number of workers equal to the most it never does. -/
theorem slotsInRange_iff (minNum maxNum : ℕ) (exitNum : ℤ) :
    (∀ os : List (Happening τ), SlotsInRange minNum maxNum exitNum os
        ↔ Runs.Guarded occur Meets (new τ minNum maxNum exitNum) os)
      ∧ (∀ os : List (Occurrence τ), SlotsInRange minNum maxNum exitNum (os.map .pool)
        ↔ Runs.Guarded occur KeepsSize (new τ minNum maxNum exitNum) (os.map .pool))
      ∧ (minNum = maxNum → ∀ os : List (Happening τ), SlotsInRange minNum maxNum exitNum os) := by
  have hnew : Slots minNum maxNum (new τ minNum maxNum exitNum).toThreadPool :=
    slots_new minNum maxNum exitNum
  have hconstructor : ∀ i ∈ constructorIndices minNum,
      i < (new τ minNum maxNum exitNum).threadIDs.length := by
    intro i hi
    rw [hnew.length_eq]
    exact List.mem_range.mp hi
  have hiff : ∀ os : List (Happening τ), SlotsInRange minNum maxNum exitNum os
      ↔ Runs.Guarded occur Meets (new τ minNum maxNum exitNum) os := by
    intro os
    refine (and_iff_right hconstructor).trans ?_
    exact Runs.guarded_congr (fun s => Slots minNum maxNum s.toThreadPool)
      (fun hs ho => slots_occur hs ho) (fun hs => inRange_iff_meets hs) hnew
  refine ⟨hiff, fun os => (hiff _).trans (guarded_meets_iff_keepsSize minNum maxNum exitNum os),
    fun heq os => (hiff os).mpr ?_⟩
  refine (Runs.guarded_congr (fun s => Slots minNum maxNum s.toThreadPool)
    (fun hs ho => slots_occur hs ho) ?_ hnew).mp (Runs.guarded_true _ os)
  exact fun hs => iff_of_true trivial (meets_of_le (Nat.le_of_eq heq.symm) hs _)

/-- Four tasks are put into the queue of a pool of three workers before one of
these looks, and the manager comes. -/
def fourTasks : List (Occurrence ℕ) :=
  [.event (.push 0), .event (.push 1), .event (.push 2), .event (.push 3),
    .event (.manager none), .event (.manager none), .event (.manager none)]

/-- **A slot is used that is not there**: of a pool of three workers that may
become six, the manager looks at the fourth slot. -/
theorem not_slotsInRange_three_six :
    ¬ ∀ (minNum maxNum : ℕ) (exitNum : ℤ) (os : List (Occurrence ℕ)), 1 ≤ minNum →
      minNum ≤ maxNum → SlotsInRange minNum maxNum exitNum (os.map .pool) := by
  intro h
  have hrange := h 3 6 0 fourTasks (by decide) (by decide)
  exact absurd hrange.2 (by decide +kernel)

end ThreadPool

end MiniDcs
