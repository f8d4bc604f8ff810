import LinuxStudy.Runs
import LinuxStudy.SharedSlot

/-!
# From the event loop to the workers

The event loop of the cache server serves a ready socket by a task of the
thread pool. It has one argument struct for all tasks: `WR_cfdHandler` stores
the descriptor in it and adds a task that points to it, and `task_cfd`, when
a worker gets to it, copies the struct into the `Task_putget` it works on.
Both do so under `task_lock`, so each is one step; but nothing keeps the loop
from storing the next descriptor before the worker has copied the last one.

The struct is a `SharedSlot`. As long as the loop stores a descriptor only
when no task is still to copy one, or when it is the one already there, the
workers copy the descriptors the loop was given, each as often as it was
given (`served_eq_ready`). Two sockets ready in one `epoll_wait` are enough
to break it: the loop handles both before a worker runs, and one socket is
served twice, the other not at all (`second_socket_served_twice`).
-/

namespace Dcs

/-- `pack_taskconnect`: the argument of the tasks. `σ` is what all tasks
share, the two caches and the ring. -/
structure PackTaskconnect (σ : Type) where
  /-- `LC`, `LC_BK` and `key_addr`, set once. -/
  shared : σ
  /-- The socket to serve. -/
  sockfd : ℤ
  /-- The descriptor of the epoll instance, set once. -/
  efd : ℤ

/-- `Task_putget`: what a worker works on. -/
structure TaskPutget (σ : Type) where
  shared : σ
  sockfd : ℤ
  efd : ℤ

/-- The constructor: a copy of the struct. -/
def TaskPutget.new {σ : Type} (taskArg : PackTaskconnect σ) : TaskPutget σ :=
  ⟨taskArg.shared, taskArg.sockfd, taskArg.efd⟩

/-- **The event loop and its workers**, as far as the struct is concerned. -/
structure WriteRead (σ : Type) where
  /-- The struct. -/
  taskArg : PackTaskconnect σ
  /-- The tasks added whose prologue has not run. -/
  tasks : ℕ
  /-- What the workers copied, latest first. -/
  served : List (TaskPutget σ)

namespace WriteRead

variable {σ : Type}

/-- The steps, each under `task_lock`. -/
inductive Step
  /-- `WR_cfdHandler`, for the ready socket `ep[i].data.fd`. -/
  | wrCfdHandler (fd : ℤ)
  /-- The prologue of `task_cfd`. -/
  | taskCfd

/-- `WR_cfdHandler`: the descriptor is stored and a task is added. -/
def wrCfdHandler (s : WriteRead σ) (fd : ℤ) : WriteRead σ :=
  { s with
    taskArg := { s.taskArg with sockfd := fd }
    tasks := s.tasks + 1 }

/-- The prologue of `task_cfd`, which needs a task. -/
def taskCfd (s : WriteRead σ) : Option (WriteRead σ) :=
  match s.tasks with
  | 0 => none
  | tasks + 1 =>
    some { s with tasks := tasks, served := TaskPutget.new s.taskArg :: s.served }

/-- One step. -/
def step (s : WriteRead σ) : Step → Option (WriteRead σ)
  | .wrCfdHandler fd => some (s.wrCfdHandler fd)
  | .taskCfd => s.taskCfd

/-- The event loop before its first socket. -/
def init (taskArg : PackTaskconnect σ) : WriteRead σ := ⟨taskArg, 0, []⟩

/-- The sockets passed to `WR_cfdHandler` in a run. -/
def ready (es : List Step) : List ℤ :=
  es.filterMap (fun e => match e with
    | .wrCfdHandler fd => some fd
    | .taskCfd => none)

/-- The sockets the workers copied. -/
def sockets (s : WriteRead σ) : Multiset ℤ := (s.served.map TaskPutget.sockfd : List ℤ)

/-- The condition on a step: a descriptor is stored when no task is still to
copy one, or it is the one already there. -/
def Undisturbed (s : WriteRead σ) : Step → Prop
  | .wrCfdHandler fd => s.tasks = 0 ∨ fd = s.taskArg.sockfd
  | .taskCfd => True

instance (s : WriteRead σ) (e : Step) : Decidable (s.Undisturbed e) :=
  match e with
  | .wrCfdHandler fd => inferInstanceAs (Decidable (s.tasks = 0 ∨ fd = s.taskArg.sockfd))
  | .taskCfd => isTrue trivial

/-! ## The struct in balance

There is one struct for all tasks, and two things happen to it: the loop stores a
descriptor, and a worker copies what is there. What was stored and is still to be
copied is at most one value as long as the loop stores only when no task is
waiting, or stores what is there already. Then what the workers have copied, and
what is still to be copied, is what was stored. -/

/-- The struct is in balance with a multiset of sockets handed over. -/
def InBalance (s : WriteRead σ) (given : Multiset ℤ) : Prop :=
  SharedSlot.Balanced s.taskArg.sockfd s.tasks given s.sockets

/-- **One step keeps the balance.** -/
theorem InBalance.step {s t : WriteRead σ} {given : Multiset ℤ} (h : s.InBalance given)
    {e : Step} (he : s.Undisturbed e) (hstep : s.step e = some t) :
    t.InBalance (given + (ready [e] : List ℤ)) := by
  cases e with
  | wrCfdHandler fd =>
    obtain rfl : s.wrCfdHandler fd = t := Option.some.inj hstep
    have hput := SharedSlot.Balanced.put h he
    show SharedSlot.Balanced fd (s.tasks + 1) (given + {fd}) s.sockets
    rwa [Multiset.add_comm, Multiset.singleton_add]
  | taskCfd =>
    unfold WriteRead.step taskCfd at hstep
    show SharedSlot.Balanced _ _ (given + 0) _
    rw [Multiset.add_zero]
    cases htasks : s.tasks with
    | zero =>
      rw [htasks] at hstep
      exact absurd hstep (by simp)
    | succ tasks =>
      rw [htasks] at hstep
      obtain rfl := Option.some.inj hstep
      have htake : SharedSlot.Balanced s.taskArg.sockfd (tasks + 1) given s.sockets := by
        rw [← htasks]
        exact h
      exact htake.take

/-- A run keeps the balance. -/
theorem InBalance.run {s t : WriteRead σ} {given : Multiset ℤ} (h : s.InBalance given)
    {es : List Step} (hguard : Runs.Guarded WriteRead.step Undisturbed s es)
    (hrun : Runs.exec WriteRead.step s es = some t) :
    t.InBalance (given + (ready es : List ℤ)) := by
  induction es generalizing s given with
  | nil =>
    obtain rfl : s = t := Option.some.inj hrun
    show s.InBalance (given + 0)
    rwa [Multiset.add_zero]
  | cons e es ih =>
    obtain ⟨u, hu, hrest⟩ := Runs.exec_cons_eq_some.mp hrun
    have hnext := ih (h.step hguard.1 hu) (hguard.2 u hu) hrest
    have happ : ready (e :: es) = ready [e] ++ ready es := by
      show ([e] ++ es).filterMap _ = [e].filterMap _ ++ es.filterMap _
      exact List.filterMap_append
    rw [happ, ← Multiset.coe_add, ← Multiset.add_assoc]
    exact hnext

/-- **Each ready socket is served once**, as long as the struct is left
undisturbed. In every run in which a descriptor is stored only when no task
is still to copy one, or it is the one already there: when every task added
has run its prologue, the sockets copied are the sockets that were ready,
each as often. -/
theorem served_eq_ready (taskArg : PackTaskconnect σ) (es : List Step) (t : WriteRead σ)
    (hrun : Runs.exec WriteRead.step (init taskArg) es = some t) (hdone : t.tasks = 0)
    (hguard : Runs.Guarded WriteRead.step Undisturbed (init taskArg) es) :
    t.sockets = (ready es : Multiset ℤ) := by
  have hstart : (init taskArg).InBalance 0 := SharedSlot.balanced_zero _
  have hend := hstart.run hguard hrun
  unfold InBalance at hend
  rw [hdone, Multiset.zero_add] at hend
  exact hend.eq_of_done

/-- Two sockets, each copied before the next is stored. -/
theorem served_eq_ready_two_sockets :
    ∃ t : WriteRead Unit,
      Runs.exec WriteRead.step (init ⟨(), 0, 3⟩)
        [.wrCfdHandler 5, .taskCfd, .wrCfdHandler 6, .taskCfd] = some t
      ∧ t.sockets = ({5, 6} : Multiset ℤ) := by
  refine ⟨⟨⟨(), 6, 3⟩, 0, [⟨(), 6, 3⟩, ⟨(), 5, 3⟩]⟩, rfl, ?_⟩
  exact served_eq_ready ⟨(), 0, 3⟩
    [.wrCfdHandler 5, .taskCfd, .wrCfdHandler 6, .taskCfd] _ rfl rfl (by decide)

/-- **A socket is served twice and another not at all**: two sockets are ready
at once, and the loop handles both before a worker runs. -/
theorem second_socket_served_twice :
    ¬ ∀ (taskArg : PackTaskconnect Unit) (es : List Step) (t : WriteRead Unit),
      Runs.exec WriteRead.step (init taskArg) es = some t → t.tasks = 0 →
        t.sockets = (ready es : Multiset ℤ) := by
  intro h
  have hbad := h ⟨(), 0, 3⟩ [.wrCfdHandler 5, .wrCfdHandler 6, .taskCfd, .taskCfd]
    ⟨⟨(), 6, 3⟩, 0, [⟨(), 6, 3⟩, ⟨(), 6, 3⟩]⟩ rfl rfl
  exact absurd hbad (by decide)

end WriteRead

end Dcs
