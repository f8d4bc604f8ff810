import LinuxStudy.RingArray
import LinuxStudy.Runs

/-!
# The queue between threads

A `SafeQueue` is a ring of one cell more than its capacity, with the index of
the first element and of the first free cell. Nothing is stored of how many
elements there are: the queue is empty if the two indices are equal and full
if the cell before the first element is the first free one, so a cell is
always left free.

`push` and `pop` do all they do with the lock; while they cannot go on they
wait on a condition variable, which gives the lock away, and look again. What
any number of threads do is therefore one list of critical sections, each of
which happens only in a state in which it is not blocked: `step` is undefined
where it is. What the queue is *for* is a list with a bound on its length
(`Fifo`), and `exec_eq_fifo` says that every run is a run of that list, with
the same values popped.

The indices are of type `unsigned long`, and the capacity is an
`unsigned int`, to which `1` is added.
-/

namespace MiniDcs

open RingArray

/-- **`SafeQueue`**, without its lock and its conditions. -/
structure SafeQueue (T : Type) where
  head : ℕ
  tail : ℕ
  capacity : ℕ
  queue : Array T

namespace SafeQueue

variable {T : Type}

/-- The constructor. -/
def new [Inhabited T] (capacity : ℕ) : SafeQueue T where
  head := 0
  tail := 0
  capacity := (capacity + 1) % 2 ^ 32
  queue := Array.replicate ((capacity + 1) % 2 ^ 32) default

/-- `size`. -/
def size (q : SafeQueue T) : ℕ :=
  (q.tail + q.capacity + 2 ^ 64 - q.head) % 2 ^ 64 % q.capacity

/-- `isEmpty`. -/
def isEmpty (q : SafeQueue T) : Bool := q.tail = q.head

/-- `isFull`. -/
def isFull (q : SafeQueue T) : Bool := (q.tail + 1) % 2 ^ 64 % q.capacity = q.head

/-- The critical section of `push`, undefined while it has to wait. -/
def push (q : SafeQueue T) (e : T) : Option (SafeQueue T) :=
  if q.isFull then none
  else
    some { q with
      queue := q.queue.setIfInBounds q.tail e
      tail := (q.tail + 1) % 2 ^ 64 % q.capacity }

/-- The critical section of `pop`, undefined while it has to wait: the queue,
and the value. -/
def pop (q : SafeQueue T) : Option (SafeQueue T × T) :=
  if q.isEmpty then none
  else
    q.queue[q.head]?.map (fun res => ({ q with head := (q.head + 1) % 2 ^ 64 % q.capacity }, res))

/-- The critical sections, by the thread that is in them. -/
inductive Event (T : Type)
  | push (thread : ℕ) (e : T)
  | pop (thread : ℕ)

/-- **One critical section.** -/
def step (q : SafeQueue T) : Event T → Option (SafeQueue T)
  | .push _ e => q.push e
  | .pop _ => q.pop.map Prod.fst

/-- The value a critical section gives its thread. -/
def popped (q : SafeQueue T) : Event T → List T
  | .push _ _ => []
  | .pop _ => q.pop.toList.map Prod.snd

/-- The value a critical section puts into the queue. -/
def Event.pushed : Event T → List T
  | .push _ e => [e]
  | .pop _ => []

/-! ## The list the queue is for

The ring has one cell more than the queue may hold, so that a full queue and an
empty one can be told apart by the two indices. The length is computed from the
two indices, modulo the number of cells, in unsigned arithmetic. No sum is too
great for its type as long as the capacity is below `2 ^ 32 - 1`. -/

namespace Fifo

/-- A queue of at most so many elements. -/
def step (capacity : ℕ) (l : List T) : Event T → Option (List T)
  | .push _ e => if l.length < capacity then some (l ++ [e]) else none
  | .pop _ => if l = [] then none else some l.tail

/-- The first element is popped. -/
def popped (l : List T) : Event T → List T
  | .push _ _ => []
  | .pop _ => l.head?.toList

end Fifo

/-- **The queue holds the list.** -/
structure Holds (capacity : ℕ) (q : SafeQueue T) (l : List T) : Prop where
  capacity_eq : q.capacity = capacity + 1
  size_queue : q.queue.size = capacity + 1
  capacity_lt : capacity < 2 ^ 32 - 1
  head_lt : q.head < capacity + 1
  length_le : l.length ≤ capacity
  tail_eq : q.tail = slot (capacity + 1) q.head l.length
  stores : Stores q.queue q.head l

/-- A new queue holds nothing. -/
theorem holds_new [Inhabited T] {capacity : ℕ} (h : capacity < 2 ^ 32 - 1) :
    Holds capacity (new capacity : SafeQueue T) [] where
  capacity_eq := Nat.mod_eq_of_lt (by omega)
  size_queue := by
    show (Array.replicate ((capacity + 1) % 2 ^ 32) _).size = _
    rw [Array.size_replicate, Nat.mod_eq_of_lt (by omega)]
  capacity_lt := h
  head_lt := Nat.zero_lt_succ _
  length_le := Nat.zero_le _
  tail_eq := (slot_zero (Nat.zero_lt_succ _)).symm
  stores := stores_nil _ _

namespace Holds

variable {capacity : ℕ} {q : SafeQueue T} {l : List T}

theorem length_lt (h : Holds capacity q l) : l.length < capacity + 1 :=
  Nat.lt_succ_of_le h.length_le

theorem tail_lt (h : Holds capacity q l) : q.tail < capacity + 1 := by
  rw [h.tail_eq]
  exact slot_lt (Nat.zero_lt_succ _) _ _

theorem next_eq (h : Holds capacity q l) {i : ℕ} (hi : i < capacity + 1) :
    (i + 1) % 2 ^ 64 % q.capacity = slot (capacity + 1) i 1 := by
  have hbound := h.capacity_lt
  rw [Nat.mod_eq_of_lt (show i + 1 < 2 ^ 64 by omega), h.capacity_eq]
  rfl

/-- **`size` is the length of the list.** -/
theorem size_eq (h : Holds capacity q l) : q.size = l.length := by
  have hbound := h.capacity_lt
  have hhead := h.head_lt
  have htail := h.tail_lt
  have hwrap : (q.tail + q.capacity + 2 ^ 64 - q.head) % 2 ^ 64 = q.tail + q.capacity - q.head := by
    rw [h.capacity_eq]
    omega
  unfold size
  rw [hwrap, h.capacity_eq, h.tail_eq]
  exact slot_sub_mod hhead h.length_lt

/-- **`isEmpty`**: the list is. -/
theorem isEmpty_iff (h : Holds capacity q l) : q.isEmpty ↔ l = [] := by
  unfold isEmpty
  rw [decide_eq_true_iff, h.tail_eq, slot_eq_head_iff h.head_lt h.length_lt,
    List.length_eq_zero_iff]

/-- **`isFull`**: the list is as long as it may be. -/
theorem isFull_iff (h : Holds capacity q l) : q.isFull ↔ l.length = capacity := by
  unfold isFull
  rw [decide_eq_true_iff, h.next_eq h.tail_lt, h.tail_eq, slot_slot,
    slot_succ_eq_head_iff h.head_lt h.length_lt, Nat.succ_inj]

/-- **`push`** of a queue that is not full. -/
theorem push_spec (h : Holds capacity q l) (hroom : l.length < capacity) (e : T) :
    ∃ q', q.push e = some q' ∧ Holds capacity q' (l ++ [e]) := by
  have hnotFull : ¬ q.isFull := by
    rw [h.isFull_iff]
    exact Nat.ne_of_lt hroom
  unfold push
  rw [if_neg hnotFull]
  refine ⟨_, rfl, h.capacity_eq, ?_, h.capacity_lt, h.head_lt, ?_, ?_, ?_⟩
  · exact (Array.size_setIfInBounds ..).trans h.size_queue
  · rw [List.length_append]
    exact hroom
  · show (q.tail + 1) % 2 ^ 64 % q.capacity = slot (capacity + 1) q.head (l ++ [e]).length
    rw [h.next_eq h.tail_lt, h.tail_eq, slot_slot, List.length_append, List.length_singleton]
  · show Stores (q.queue.setIfInBounds q.tail e) q.head (l ++ [e])
    rw [h.tail_eq, ← h.size_queue]
    exact h.stores.concat (by rw [h.size_queue]; exact h.length_lt) e

/-- **`pop`** of a queue that is not empty. -/
theorem pop_spec {a : T} (h : Holds capacity q (a :: l)) :
    ∃ q', q.pop = some (q', a) ∧ Holds capacity q' l := by
  have hnotEmpty : ¬ q.isEmpty := by
    rw [h.isEmpty_iff]
    exact List.cons_ne_nil a l
  have hfirst : q.queue[q.head]? = some a := h.stores.first (by rw [h.size_queue]; exact h.head_lt)
  unfold pop
  rw [if_neg hnotEmpty, hfirst]
  refine ⟨_, rfl, h.capacity_eq, h.size_queue, h.capacity_lt, ?_, ?_, ?_, ?_⟩
  · show (q.head + 1) % 2 ^ 64 % q.capacity < capacity + 1
    rw [h.next_eq h.head_lt]
    exact slot_lt (Nat.zero_lt_succ _) _ _
  · exact Nat.le_of_succ_le h.length_le
  · show q.tail = slot (capacity + 1) ((q.head + 1) % 2 ^ 64 % q.capacity) l.length
    rw [h.next_eq h.head_lt, slot_slot, h.tail_eq, List.length_cons, Nat.add_comm 1]
  · show Stores q.queue ((q.head + 1) % 2 ^ 64 % q.capacity) l
    rw [h.next_eq h.head_lt, ← h.size_queue]
    exact h.stores.rest

/-- **One critical section is one step of the list**, with the same value
popped, and it is blocked exactly where the list is. -/
theorem step_spec (h : Holds capacity q l) (ev : Event T) :
    Option.Rel (Holds capacity) (q.step ev) (Fifo.step capacity l ev)
      ∧ q.popped ev = Fifo.popped l ev := by
  cases ev with
  | push thread e =>
    refine ⟨?_, rfl⟩
    unfold step Fifo.step
    dsimp only
    split
    · next hroom =>
      obtain ⟨q', hpush, hholds⟩ := h.push_spec hroom e
      rw [hpush]
      exact Option.Rel.some hholds
    · next hroom =>
      have hlength : l.length = capacity :=
        Nat.le_antisymm h.length_le (Nat.le_of_not_lt hroom)
      have hfull : q.isFull := h.isFull_iff.mpr hlength
      unfold push
      rw [if_pos hfull]
      exact Option.Rel.none
  | pop thread =>
    unfold step Fifo.step popped Fifo.popped
    cases l with
    | nil =>
      have hempty : q.isEmpty := h.isEmpty_iff.mpr rfl
      unfold pop
      rw [if_pos hempty]
      exact ⟨Option.Rel.none, rfl⟩
    | cons a l =>
      obtain ⟨q', hpop, hholds⟩ := h.pop_spec
      rw [hpop]
      exact ⟨Option.Rel.some hholds, rfl⟩

end Holds

/-! ## Runs

What a thread does under the lock is one event, and the threads may come to it in
any order. A thread that has to wait does nothing: the critical section is not
entered. So every interleaving is a list of events that can happen one after the
other, and the rule for two machines in step takes it to the queue as a list. -/

/-- **Every run is a run of the list**: it can happen exactly if the list can do
it, ends in a queue that holds the list, and the same values are popped. -/
theorem exec_eq_fifo [Inhabited T] {capacity : ℕ} (h : capacity < 2 ^ 32 - 1)
    (es : List (Event T)) :
    Option.Rel (Holds capacity) (Runs.exec step (new capacity) es)
        (Runs.exec (Fifo.step capacity) [] es)
      ∧ Runs.trace step popped (new capacity) es
        = Runs.trace (Fifo.step capacity) Fifo.popped [] es :=
  Runs.exec_rel (fun ev hq => hq.step_spec ev) (holds_new h) es

/-- What the list pops, it takes from its front, and what is pushed goes to its
end. -/
theorem Fifo.popped_append {capacity : ℕ} {l l' : List T} {ev : Event T}
    (h : Fifo.step capacity l ev = some l') : Fifo.popped l ev ++ l' = l ++ ev.pushed := by
  cases ev with
  | push thread e =>
    unfold Fifo.step at h
    dsimp only at h
    split at h
    · exact (Option.some.inj h).symm
    · exact absurd h (by simp)
  | pop thread =>
    cases l with
    | nil => exact absurd h (by simp [Fifo.step])
    | cons a l =>
      obtain rfl : l = l' := by simpa [Fifo.step] using h
      exact (List.append_nil _).symm

/-- **What is in a queue comes out of it**, in order, to whichever thread pops
it. -/
theorem Holds.drain {capacity : ℕ} {q : SafeQueue T} {l : List T} (h : Holds capacity q l)
    (threads : List ℕ) (hlen : threads.length = l.length) :
    (Runs.exec step q (threads.map Event.pop)).isSome
      ∧ Runs.trace step popped q (threads.map Event.pop) = l := by
  induction l generalizing q threads with
  | nil =>
    obtain rfl := List.length_eq_zero_iff.mp hlen
    exact ⟨rfl, rfl⟩
  | cons a l ih =>
    cases threads with
    | nil => exact absurd hlen (by simp)
    | cons thread threads =>
      obtain ⟨q', hpop, hholds⟩ := h.pop_spec
      have hstep : q.step (.pop thread) = some q' := by
        unfold step
        rw [hpop]
        rfl
      obtain ⟨hrun, htrace⟩ := ih hholds threads (Nat.succ.inj hlen)
      constructor
      · obtain ⟨q'', hq''⟩ := Option.isSome_iff_exists.mp hrun
        exact Option.isSome_iff_exists.mpr ⟨q'', Runs.exec_cons_eq_some.mpr ⟨q', hstep, hq''⟩⟩
      · show Runs.trace step popped q (.pop thread :: threads.map Event.pop) = a :: l
        rw [Runs.trace, hstep, Option.map_some, Option.getD_some, htrace]
        unfold popped
        rw [hpop]
        rfl

/-- **A bounded queue, first in first out.** After any critical sections of any
threads the indices are within the ring; what was pushed is what was popped,
in that order, and after it what is still there, which is what the next pops
give; `size` is how much is still there, at most the capacity, and the queue is
full exactly if it is the capacity. -/
theorem fifo_of_run [Inhabited T] {capacity : ℕ} (hcapacity : capacity < 2 ^ 32 - 1)
    {es : List (Event T)} {q : SafeQueue T} (h : Runs.exec step (new capacity) es = some q) :
    q.head < q.capacity ∧ q.tail < q.capacity
      ∧ (∃ rest, es.flatMap Event.pushed = Runs.trace step popped (new capacity) es ++ rest
        ∧ q.size = rest.length
        ∧ ∀ threads : List ℕ, threads.length = rest.length →
          (Runs.exec step q (threads.map Event.pop)).isSome
            ∧ Runs.trace step popped q (threads.map Event.pop) = rest)
      ∧ q.size ≤ capacity ∧ (q.isFull ↔ q.size = capacity) := by
  obtain ⟨hrel, htrace⟩ := exec_eq_fifo hcapacity es
  rw [h] at hrel
  cases hlist : Runs.exec (Fifo.step capacity) [] es with
  | none => rw [hlist] at hrel; nomatch hrel
  | some l =>
    rw [hlist] at hrel
    cases hrel with
    | some hholds =>
      have hbalance := Runs.trace_append_eq Fifo.popped id Event.pushed Fifo.popped_append hlist
      rw [hholds.size_eq, hholds.capacity_eq, htrace]
      refine ⟨hholds.head_lt, hholds.tail_lt, ⟨l, hbalance.symm, rfl, hholds.drain⟩,
        hholds.length_le, hholds.isFull_iff⟩

/-- Two threads push three values through a queue of two, which wraps round. -/
theorem fifo_of_run_wraps :
    Runs.exec step (new 2)
        [.push 0 5, .push 1 6, .pop 1, .push 0 7] = some (⟨1, 0, 3, #[5, 6, 7]⟩ : SafeQueue ℕ)
      ∧ SafeQueue.isFull (⟨1, 0, 3, #[5, 6, 7]⟩ : SafeQueue ℕ) := by
  have hrun : Runs.exec step (new 2)
      [.push 0 5, .push 1 6, .pop 1, .push 0 7] = some (⟨1, 0, 3, #[5, 6, 7]⟩ : SafeQueue ℕ) := rfl
  have hfifo := fifo_of_run (by decide) hrun
  exact ⟨hrun, hfifo.2.2.2.2.mpr (by decide)⟩

end SafeQueue

end MiniDcs
