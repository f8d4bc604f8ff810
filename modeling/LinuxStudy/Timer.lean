import Mathlib.Data.List.AList

/-!
# The timers of the small master

`TimerManager` keeps its timers in a binary heap by the time they expire, and
beside it a map from the id of a timer to its index in the heap. The heap is
moved about by `swapNode`, which sets the two indices; so whatever is sifted
where, the map stays the index of the heap (`Indexed`), and the timers stay
the same timers. That is all that is used of the sifting here: each operation
is described by the timers there are after it, as pairs of an id and a
callback (`addTimer_spec`, `update_spec`, `pop_spec`).

The loop of `shiftup` does not stop at the root: from index `0` it goes on to
the index `(0-1)/2` of `size_t` arithmetic, reads before the vector, and is
left if what it finds there is less. Here it stops at the root. That is what it
does where it is left, and `Unguarded` has the operations with what is found
before the vector.

A time is a number of nanoseconds, as `Clock` counts, and a timeout a number
of milliseconds. A callback is a value; running it is left to whoever has the
timers. Where a loop reads the clock in each round, the readings are a
function from the number of the reading.
-/

namespace MiniDcs

/-- `TimeNode`. -/
structure TimeNode (C : Type) where
  id : ℤ
  expire : ℤ
  cb : C

/-- The test of `handle_expired_event`: the time left is not above `0`, in
whole milliseconds. -/
def TimeNode.Expired {C : Type} (node : TimeNode C) (now : ℤ) : Prop :=
  ¬ 0 < (node.expire - now).tdiv 1000000

instance {C : Type} (node : TimeNode C) (now : ℤ) : Decidable (node.Expired now) :=
  inferInstanceAs (Decidable (¬ _))

/-- **`TimerManager`.** -/
structure TimerManager (C : Type) where
  heap : Array (TimeNode C)
  ref : AList (fun _ : ℤ => ℕ)

namespace TimerManager

variable {C : Type}

/-- No timers. -/
def empty : TimerManager C := ⟨#[], ∅⟩

/-- `MS`, in nanoseconds. -/
def ms (timeout : ℤ) : ℤ := timeout * 1000000

/-- `heap_[i] < heap_[j]`. -/
def less (t : TimerManager C) (i j : ℕ) : Bool :=
  match t.heap[i]?, t.heap[j]? with
  | some a, some b => a.expire < b.expire
  | _, _ => false

/-- `swapNode`. -/
def swapNode (t : TimerManager C) (i j : ℕ) : TimerManager C :=
  if h : i < t.heap.size ∧ j < t.heap.size then
    { heap := t.heap.swap i j h.1 h.2
      ref := (t.ref.insert t.heap[j].id i).insert t.heap[i].id j }
  else t

/-- The loop of `shiftup`, in at most so many rounds. -/
def shiftupLoop : ℕ → TimerManager C → ℕ → TimerManager C
  | 0, t, _ => t
  | rounds + 1, t, i =>
    if i = 0 then t
    else
      let j := (i - 1) / 2
      if t.less j i then t else shiftupLoop rounds (t.swapNode i j) j

/-- `shiftup`. The index gets less in each round. -/
def shiftup (t : TimerManager C) (i : ℕ) : TimerManager C := shiftupLoop i t i

/-- The child that expires first, of the children from `j` on below `n`. -/
def child (t : TimerManager C) (n j : ℕ) : ℕ :=
  if j + 1 < n ∧ t.less (j + 1) j then j + 1 else j

/-- The loop of `shiftdown`, in at most so many rounds: the timers, and the
index reached. -/
def shiftdownLoop (n : ℕ) : ℕ → TimerManager C → ℕ → TimerManager C × ℕ
  | 0, t, i => (t, i)
  | rounds + 1, t, i =>
    let j := i * 2 + 1
    if j < n then
      let j := t.child n j
      if t.less i j then (t, i) else shiftdownLoop n rounds (t.swapNode i j) j
    else (t, i)

/-- `shiftdown`, and whether anything was moved. The index gets greater in
each round. -/
def shiftdown (t : TimerManager C) (index n : ℕ) : TimerManager C × Bool :=
  let r := shiftdownLoop n n t index
  (r.1, index < r.2)

/-- `if(!shiftdown(i, n)) shiftup(i)`. -/
def shift (t : TimerManager C) (i n : ℕ) : TimerManager C :=
  let r := t.shiftdown i n
  if r.2 then r.1 else r.1.shiftup i

/-- A node changed where it stands. -/
def modify (t : TimerManager C) (i : ℕ) (f : TimeNode C → TimeNode C) : TimerManager C :=
  { t with heap := t.heap.modify i f }

/-- `addTimer`, undefined where its assertion fails. -/
def addTimer (t : TimerManager C) (now id timeout : ℤ) (cb : C) : Option (TimerManager C) :=
  if id < 0 then none
  else
    match t.ref.lookup id with
    | none =>
      let i := t.heap.size
      some (shiftup ⟨t.heap.push ⟨id, now + ms timeout, cb⟩, t.ref.insert id i⟩ i)
    | some i =>
      let t := t.modify i (fun node => { node with expire := now + ms timeout, cb := cb })
      some (t.shift i t.heap.size)

/-- `update`, undefined where its assertion fails. -/
def update (t : TimerManager C) (now id timeout : ℤ) : Option (TimerManager C) :=
  if t.heap.size = 0 then none
  else
    match t.ref.lookup id with
    | none => none
    | some i =>
      let t := t.modify i (fun node => { node with expire := now + ms timeout })
      some (t.shiftdown i t.heap.size).1

/-- `del_`. -/
def del (t : TimerManager C) (index : ℕ) : TimerManager C :=
  let n := t.heap.size - 1
  let t := if index < n then (t.swapNode index n).shift index n else t
  match t.heap[n]? with
  | none => t
  | some back => ⟨t.heap.pop, t.ref.erase back.id⟩

/-- `pop`. -/
def pop (t : TimerManager C) : TimerManager C := t.del 0

/-- `work`: the timers left, and the node whose callback is run. -/
def work (t : TimerManager C) (id : ℤ) : TimerManager C × Option (TimeNode C) :=
  if t.heap.size = 0 then (t, none)
  else
    match t.ref.lookup id with
    | none => (t, none)
    | some i => (t.del i, t.heap[i]?)

/-- `clear`. -/
def clear (_ : TimerManager C) : TimerManager C := empty

/-- The loop of `handle_expired_event`, by the times it reads from the clock, in
at most so many rounds: the timers left, and how often the clock was read. A
callback does not touch the timers. -/
def expireLoop (clock : ℕ → ℤ) : ℕ → ℕ → TimerManager C → TimerManager C × ℕ
  | 0, k, t => (t, k)
  | rounds + 1, k, t =>
    match t.heap[0]? with
    | none => (t, k)
    | some node =>
      if node.Expired (clock k) then expireLoop clock rounds (k + 1) t.pop else (t, k + 1)

/-- `handle_expired_event`. A round takes a timer. -/
def handleExpiredEvent (t : TimerManager C) (clock : ℕ → ℤ) : TimerManager C × ℕ :=
  expireLoop clock t.heap.size 0 t

/-- The nodes the loop of `handle_expired_event` takes from the timers, by the
times it reads from the clock, in at most so many rounds. -/
def firedLoop (clock : ℕ → ℤ) : ℕ → ℕ → TimerManager C → List (TimeNode C)
  | 0, _, _ => []
  | rounds + 1, k, t =>
    match t.heap[0]? with
    | none => []
    | some node =>
      if node.Expired (clock k) then node :: firedLoop clock rounds (k + 1) t.pop else []

/-- The nodes that expire, in the order in which their callbacks are run. -/
def fired (t : TimerManager C) (clock : ℕ → ℤ) : List (TimeNode C) :=
  firedLoop clock t.heap.size 0 t

/-- What `getNextHandle` returns of the timers left, at its own reading of the
clock. `res` is a `size_t`, so the test `res < 0` never holds, and an `int` is
returned. -/
def nextTimeout (t : TimerManager C) (now : ℤ) : ℤ :=
  let res : BitVec 64 :=
    match t.heap[0]? with
    | none => -1
    | some front =>
      let res := BitVec.ofInt 64 ((front.expire - now).tdiv 1000000)
      if res < 0 then 0 else res
  (res.setWidth 32).toInt

/-! ## What sifting leaves

`swapNode` moves two nodes and sets the two entries of the map, and the loops of
`shiftup` and `shiftdown` change the heap in no other way. So whatever they
compare, the nodes are the same nodes and the map is the index of the heap if it
was before. Nothing is said about the order here. -/

theorem lookup_insert_eq {ref : AList (fun _ : ℤ => ℕ)} {id id' : ℤ} {i : ℕ} :
    (ref.insert id i).lookup id' = if id' = id then some i else ref.lookup id' := by
  split
  · next h => rw [h, AList.lookup_insert]
  · next h => rw [AList.lookup_insert_ne h]

/-- **The map is the index of the heap.** -/
def Indexed (t : TimerManager C) : Prop :=
  ∀ id i, t.ref.lookup id = some i ↔ ∃ node, t.heap[i]? = some node ∧ node.id = id

/-- The timers there are: their ids and callbacks. -/
def timers (t : TimerManager C) : List (ℤ × C) := t.heap.toList.map (fun node => (node.id, node.cb))

/-- **Moved about below an index**: the nodes are the same nodes, those from
the index on stand where they stood, and the map is the index of the heap if
it was. -/
structure Rearranged (n : ℕ) (t t' : TimerManager C) : Prop where
  perm : t'.heap.toList.Perm t.heap.toList
  above : ∀ k, n ≤ k → t'.heap[k]? = t.heap[k]?
  indexed : t.Indexed → t'.Indexed

namespace Rearranged

variable {n : ℕ} {t u v : TimerManager C}

theorem refl (n : ℕ) (t : TimerManager C) : Rearranged n t t :=
  ⟨List.Perm.refl _, fun _ _ => rfl, id⟩

theorem trans (h : Rearranged n t u) (h' : Rearranged n u v) : Rearranged n t v :=
  ⟨h'.perm.trans h.perm, fun k hk => (h'.above k hk).trans (h.above k hk),
    fun ht => h'.indexed (h.indexed ht)⟩

end Rearranged

theorem Indexed.index_eq {t : TimerManager C} (h : t.Indexed) {i j : ℕ} {a b : TimeNode C}
    (ha : t.heap[i]? = some a) (hb : t.heap[j]? = some b) (hid : a.id = b.id) : i = j := by
  have hi := (h a.id i).mpr ⟨a, ha, rfl⟩
  rw [(h a.id j).mpr ⟨b, hb, hid.symm⟩] at hi
  exact (Option.some.inj hi).symm

/-- **`swapNode` moves two nodes and their indices.** -/
theorem rearranged_swapNode {n : ℕ} (t : TimerManager C) {i j : ℕ} (hi : i < n) (hj : j < n) :
    Rearranged n t (t.swapNode i j) := by
  unfold swapNode
  split
  · next hbounds =>
    obtain ⟨hi', hj'⟩ := hbounds
    refine ⟨?_, fun k hk => ?_, fun ht id k => ?_⟩
    · exact Array.perm_iff_toList_perm.mp (Array.swap_perm hi' hj')
    · show (t.heap.swap i j hi' hj')[k]? = _
      rw [Array.getElem?_swap]
      simp [show j ≠ k by omega, show i ≠ k by omega]
    · -- the index asked for is one of the two, or another, which no node of the two is at
      have hindex : ∀ {m node}, t.heap[m]? = some node → node.id = id →
          t.ref.lookup id = some m := fun hm hid => (ht id _).mpr ⟨_, hm, hid⟩
      have ha : t.heap[i]? = some t.heap[i] := Array.getElem?_eq_getElem hi'
      have hb : t.heap[j]? = some t.heap[j] := Array.getElem?_eq_getElem hj'
      have hab : t.heap[i].id = t.heap[j].id → i = j := fun h => ht.index_eq ha hb h
      show AList.lookup id (AList.insert _ j (AList.insert _ i t.ref)) = some k
        ↔ ∃ node, (t.heap.swap i j hi' hj')[k]? = some node ∧ node.id = id
      rw [lookup_insert_eq, lookup_insert_eq, Array.getElem?_swap]
      have hk := ht id k
      grind
  · exact Rearranged.refl n t

/-- Sifting up moves nodes about up to where it starts. -/
theorem rearranged_shiftupLoop {n : ℕ} (rounds : ℕ) (t : TimerManager C) {i : ℕ} (hi : i < n) :
    Rearranged n t (shiftupLoop rounds t i) := by
  induction rounds generalizing t i with
  | zero => exact Rearranged.refl n t
  | succ rounds ih =>
    unfold shiftupLoop
    dsimp only
    split
    · exact Rearranged.refl n t
    · split
      · exact Rearranged.refl n t
      · have hj : (i - 1) / 2 < n := by omega
        exact (rearranged_swapNode t hi hj).trans (ih _ hj)

/-- Sifting down moves nodes about below its bound. -/
theorem rearranged_shiftdownLoop {n : ℕ} (rounds : ℕ) (t : TimerManager C) {i : ℕ} (hi : i < n) :
    Rearranged n t (shiftdownLoop n rounds t i).1 := by
  induction rounds generalizing t i with
  | zero => exact Rearranged.refl n t
  | succ rounds ih =>
    unfold shiftdownLoop
    dsimp only
    split
    · next hchild =>
      have hj : t.child n (i * 2 + 1) < n := by
        unfold child
        split
        · next h => exact h.1
        · exact hchild
      split
      · exact Rearranged.refl n t
      · exact (rearranged_swapNode t hi hj).trans (ih _ hj)
    · exact Rearranged.refl n t

@[inherit_doc rearranged_shiftdownLoop]
theorem rearranged_shiftdown {n : ℕ} (t : TimerManager C) {i : ℕ} (hi : i < n) :
    Rearranged n t (t.shiftdown i n).1 :=
  rearranged_shiftdownLoop n t hi

/-- **Sifting moves nodes about** and nothing else. -/
theorem rearranged_shift {n : ℕ} (t : TimerManager C) {i : ℕ} (hi : i < n) :
    Rearranged n t (t.shift i n) := by
  have hdown := rearranged_shiftdown t hi
  unfold shift
  dsimp only
  split
  · exact hdown
  · exact hdown.trans (rearranged_shiftupLoop i _ hi)

/-! ## What the operations do to the timers

`del_` moves a node to the end by a swap, sifts what came in its place and takes
the last node. While it sifts, the last node is not to be moved, so the sifting is
bounded by an index (`Rearranged`). -/

variable {t t' : TimerManager C} {id : ℤ}

theorem Rearranged.mem_timers_iff {n : ℕ} (h : Rearranged n t t') (x : ℤ × C) :
    x ∈ t'.timers ↔ x ∈ t.timers :=
  (h.perm.map _).mem_iff

/-- A timer is a node at some index. -/
theorem mem_timers_iff {x : ℤ × C} :
    x ∈ t.timers
      ↔ ∃ (i : ℕ) (node : TimeNode C), t.heap[i]? = some node ∧ (node.id, node.cb) = x := by
  unfold timers
  rw [List.mem_map]
  constructor
  · rintro ⟨node, hmem, rfl⟩
    obtain ⟨i, hi⟩ := List.mem_iff_getElem?.mp hmem
    exact ⟨i, node, by rw [← Array.getElem?_toList]; exact hi, rfl⟩
  · rintro ⟨i, node, hi, rfl⟩
    rw [← Array.getElem?_toList] at hi
    exact ⟨node, List.mem_iff_getElem?.mpr ⟨i, hi⟩, rfl⟩

namespace Indexed

/-- **The ids of the map are the ids of the timers.** -/
theorem mem_ref_iff (h : t.Indexed) : id ∈ t.ref ↔ ∃ cb, (id, cb) ∈ t.timers := by
  rw [← AList.lookup_isSome, Option.isSome_iff_exists]
  constructor
  · rintro ⟨i, hi⟩
    obtain ⟨node, hnode, rfl⟩ := (h id i).mp hi
    exact ⟨node.cb, mem_timers_iff.mpr ⟨i, node, hnode, rfl⟩⟩
  · rintro ⟨cb, hcb⟩
    obtain ⟨i, node, hnode, heq⟩ := mem_timers_iff.mp hcb
    exact ⟨i, (h id i).mpr ⟨node, hnode, congrArg Prod.fst heq⟩⟩

theorem timers_unique (h : t.Indexed) {a b : C} (ha : (id, a) ∈ t.timers)
    (hb : (id, b) ∈ t.timers) : a = b := by
  obtain ⟨i, x, hx, hxa⟩ := mem_timers_iff.mp ha
  obtain ⟨j, y, hy, hyb⟩ := mem_timers_iff.mp hb
  obtain ⟨hxid, rfl⟩ := Prod.mk.inj hxa
  obtain ⟨hyid, rfl⟩ := Prod.mk.inj hyb
  obtain rfl := h.index_eq hx hy (hxid.trans hyid.symm)
  rw [hx] at hy
  rw [Option.some.inj hy]

end Indexed

theorem Indexed.ne_of_lookup_none (h : t.Indexed) (href : t.ref.lookup id = none)
    {x : ℤ × C} (hx : x ∈ t.timers) : x.1 ≠ id := by
  rintro rfl
  have hmem := h.mem_ref_iff.mpr ⟨x.2, hx⟩
  rw [← AList.lookup_isSome, href] at hmem
  exact absurd hmem (by simp)

/-- **A node added at the end**, with its index. -/
theorem Indexed.push (h : t.Indexed) (node : TimeNode C)
    (href : t.ref.lookup node.id = none) :
    Indexed ⟨t.heap.push node, t.ref.insert node.id t.heap.size⟩ := by
  intro id i
  have hold := h id i
  have hself := h node.id i
  rw [lookup_insert_eq, Array.getElem?_push]
  grind

/-- **A node changed where it stands**, its id kept. -/
theorem Indexed.modify (h : t.Indexed) (i : ℕ) {f : TimeNode C → TimeNode C}
    (hf : ∀ node, (f node).id = node.id) : (t.modify i f).Indexed := by
  intro id k
  show t.ref.lookup id = some k ↔ ∃ node, (t.heap.modify i f)[k]? = some node ∧ node.id = id
  rw [h id k, Array.getElem?_modify]
  split
  · constructor
    · rintro ⟨node, hnode, rfl⟩
      exact ⟨f node, by rw [hnode]; rfl, hf node⟩
    · rintro ⟨node, hnode, rfl⟩
      obtain ⟨node', hnode', rfl⟩ := Option.map_eq_some_iff.mp hnode
      exact ⟨node', hnode', (hf node').symm⟩
  · rfl

/-- Sifting from where a node was changed. -/
theorem rearranged_modify (t : TimerManager C) {i : ℕ} (hi : i < t.heap.size)
    (f : TimeNode C → TimeNode C) :
    Rearranged (t.modify i f).heap.size (t.modify i f)
        ((t.modify i f).shift i (t.modify i f).heap.size)
      ∧ Rearranged (t.modify i f).heap.size (t.modify i f)
        ((t.modify i f).shiftdown i (t.modify i f).heap.size).1 := by
  have hi' : i < (t.modify i f).heap.size := by
    unfold modify
    rw [Array.size_modify]
    exact hi
  exact ⟨rearranged_shift _ hi', rearranged_shiftdown _ hi'⟩

/-- A node changed where it stands is another timer of its id. -/
theorem Indexed.mem_timers_modify (h : t.Indexed) {i : ℕ} {node : TimeNode C}
    (hnode : t.heap[i]? = some node) {f : TimeNode C → TimeNode C}
    (hf : ∀ node, (f node).id = node.id) (x : ℤ × C) :
    x ∈ (t.modify i f).timers
      ↔ x = (node.id, (f node).cb) ∨ (x ∈ t.timers ∧ x.1 ≠ node.id) := by
  have hget : ∀ k : ℕ, (t.modify i f).heap[k]? = if i = k then t.heap[k]?.map f else t.heap[k]? :=
    fun k => Array.getElem?_modify
  rw [mem_timers_iff, mem_timers_iff]
  constructor
  · rintro ⟨k, a, ha, rfl⟩
    rw [hget] at ha
    split at ha
    · next hk =>
      obtain rfl := hk
      rw [hnode] at ha
      obtain rfl := Option.some.inj ha
      exact Or.inl (by rw [hf])
    · next hk =>
      exact Or.inr ⟨⟨k, a, ha, rfl⟩, fun heq => hk (h.index_eq hnode ha heq.symm)⟩
  · rintro (rfl | ⟨⟨k, a, ha, rfl⟩, hne⟩)
    · refine ⟨i, f node, ?_, by rw [hf]⟩
      rw [hget, if_pos rfl, hnode]
      rfl
    · refine ⟨k, a, ?_, rfl⟩
      rw [hget, if_neg (fun hk => hne ?_)]
      · exact ha
      · rw [← hk, hnode] at ha
        rw [Option.some.inj ha]

/-- **`addTimer`** of an id that may be had: its timer is the new one, and the
others are as before. -/
theorem Indexed.addTimer_spec (h : t.Indexed) (now timeout : ℤ) (cb : C) (hid : 0 ≤ id) :
    ∃ t', t.addTimer now id timeout cb = some t' ∧ t'.Indexed
      ∧ ∀ x, x ∈ t'.timers ↔ x = (id, cb) ∨ (x ∈ t.timers ∧ x.1 ≠ id) := by
  unfold addTimer
  rw [if_neg (show ¬ id < 0 by omega)]
  cases href : t.ref.lookup id with
  | none =>
    have hsift := rearranged_shiftupLoop t.heap.size
      (⟨t.heap.push ⟨id, now + ms timeout, cb⟩, t.ref.insert id t.heap.size⟩ : TimerManager C)
      (Nat.lt_succ_self t.heap.size)
    refine ⟨_, rfl, hsift.indexed (h.push ⟨id, _, cb⟩ href),
      fun x => (hsift.mem_timers_iff x).trans ?_⟩
    unfold timers
    rw [Array.toList_push, List.map_append, List.mem_append, List.map_singleton,
      List.mem_singleton, or_comm]
    refine or_congr_right ⟨fun hx => ⟨hx, h.ne_of_lookup_none href hx⟩, And.left⟩
  | some i =>
    obtain ⟨node, hnode, rfl⟩ := (h id i).mp href
    have hi := (Array.getElem?_eq_some_iff.mp hnode).1
    have hsift := (t.rearranged_modify hi
      (fun node => { node with expire := now + ms timeout, cb := cb })).1
    refine ⟨_, rfl, hsift.indexed (h.modify i (fun _ => rfl)),
      fun x => (hsift.mem_timers_iff x).trans ?_⟩
    exact h.mem_timers_modify hnode (by intro _; rfl) x

/-- **`update`** of an id that has a timer: the assertion holds, and the timers
are the same. -/
theorem Indexed.update_spec (h : t.Indexed) (now timeout : ℤ) (hid : id ∈ t.ref) :
    ∃ t', t.update now id timeout = some t' ∧ t'.Indexed
      ∧ ∀ x, x ∈ t'.timers ↔ x ∈ t.timers := by
  obtain ⟨i, href⟩ := Option.isSome_iff_exists.mp (AList.lookup_isSome.mpr hid)
  obtain ⟨node, hnode, hid'⟩ := (h id i).mp href
  have hi := (Array.getElem?_eq_some_iff.mp hnode).1
  have hsift := (t.rearranged_modify hi
    (fun node => { node with expire := now + ms timeout })).2
  unfold update
  rw [if_neg (Nat.ne_of_gt (Nat.zero_lt_of_lt hi)), href]
  refine ⟨_, rfl, hsift.indexed (h.modify i (fun _ => rfl)),
    fun x => (hsift.mem_timers_iff x).trans ?_⟩
  refine (h.mem_timers_modify hnode (by intro _; rfl) x).trans ⟨?_, fun hx => ?_⟩
  · rintro (rfl | ⟨hx, -⟩)
    · exact mem_timers_iff.mpr ⟨i, node, hnode, rfl⟩
    · exact hx
  · by_cases hxid : x.1 = node.id
    · refine Or.inl (Prod.ext hxid ?_)
      have hself : (node.id, node.cb) ∈ t.timers := mem_timers_iff.mpr ⟨i, node, hnode, rfl⟩
      exact h.timers_unique (show (node.id, x.2) ∈ t.timers from hxid ▸ hx) hself
    · exact Or.inr ⟨hx, hxid⟩

theorem update_isSome_iff (t : TimerManager C) (now id timeout : ℤ) :
    (t.update now id timeout).isSome ↔ t.heap.size ≠ 0 ∧ id ∈ t.ref := by
  unfold update
  rw [← AList.lookup_isSome]
  split
  · next h => simp [h]
  · next h => cases t.ref.lookup id <;> simp [h]

/-- **The last node taken**, with its id. -/
theorem Indexed.popBack (h : t.Indexed) {back : TimeNode C}
    (hback : t.heap[t.heap.size - 1]? = some back) :
    Indexed ⟨t.heap.pop, t.ref.erase back.id⟩
      ∧ ∀ x, x ∈ timers ⟨t.heap.pop, t.ref.erase back.id⟩ ↔ x ∈ t.timers ∧ x.1 ≠ back.id := by
  -- a node with another id is at another index, so it stays
  have hstays : ∀ {k : ℕ} {node : TimeNode C}, t.heap[k]? = some node →
      (t.heap.pop[k]? = some node ↔ node.id ≠ back.id) := by
    intro k node hnode
    have hk := (Array.getElem?_eq_some_iff.mp hnode).1
    rw [Array.getElem?_pop]
    by_cases hlast : k = t.heap.size - 1
    · rw [hlast, hback] at hnode
      obtain rfl := Option.some.inj hnode
      simp [hlast]
    · have hne : node.id ≠ back.id := fun heq => hlast (h.index_eq hnode hback heq)
      simp [show k < t.heap.size - 1 by omega, hnode, hne]
  have hwas : ∀ {k : ℕ} {node : TimeNode C},
      t.heap.pop[k]? = some node → t.heap[k]? = some node := by
    intro k node hnode
    rw [Array.getElem?_pop] at hnode
    split at hnode
    · exact hnode
    · exact absurd hnode (by simp)
  constructor
  · intro id k
    show AList.lookup id (AList.erase back.id t.ref) = some k ↔ _
    by_cases hid : id = back.id
    · rw [hid, AList.lookup_erase]
      refine iff_of_false (by simp) ?_
      rintro ⟨node, hnode, heq⟩
      exact (hstays (hwas hnode)).mp hnode heq
    · rw [AList.lookup_erase_ne hid, h id k]
      constructor
      · rintro ⟨node, hnode, rfl⟩
        exact ⟨node, (hstays hnode).mpr hid, rfl⟩
      · rintro ⟨node, hnode, rfl⟩
        exact ⟨node, hwas hnode, rfl⟩
  · intro x
    rw [mem_timers_iff, mem_timers_iff]
    constructor
    · rintro ⟨k, node, hnode, rfl⟩
      exact ⟨⟨k, node, hwas hnode, rfl⟩, (hstays (hwas hnode)).mp hnode⟩
    · rintro ⟨⟨k, node, hnode, rfl⟩, hne⟩
      exact ⟨k, node, (hstays hnode).mpr hne, rfl⟩

/-- What `del_` makes of the heap before it takes the last node: the node is
there. -/
theorem exists_last_of_del {index : ℕ} {node : TimeNode C}
    (hnode : t.heap[index]? = some node) :
    ∃ u, t.del index = ⟨u.heap.pop, u.ref.erase node.id⟩ ∧ Rearranged t.heap.size t u
      ∧ u.heap[u.heap.size - 1]? = some node := by
  have hindex := (Array.getElem?_eq_some_iff.mp hnode).1
  rcases Nat.lt_or_ge index (t.heap.size - 1) with hmany | hone
  · have hlast : t.heap.size - 1 < t.heap.size := by omega
    have hswap := rearranged_swapNode t hindex hlast
    have hshift := rearranged_shift (t.swapNode index (t.heap.size - 1)) hmany
    have hsize : (((t.swapNode index (t.heap.size - 1)).shift index (t.heap.size - 1)).heap).size
        = t.heap.size := by
      have hlen := (hshift.perm.trans hswap.perm).length_eq
      simpa using hlen
    have hback : ((t.swapNode index (t.heap.size - 1)).shift index
        (t.heap.size - 1)).heap[t.heap.size - 1]? = some node := by
      rw [hshift.above _ (Nat.le_refl _)]
      unfold swapNode
      rw [dif_pos ⟨hindex, hlast⟩]
      show (t.heap.swap index (t.heap.size - 1) hindex hlast)[t.heap.size - 1]? = some node
      rw [Array.getElem?_swap, if_pos rfl, ← Array.getElem?_eq_getElem hindex, hnode]
    refine ⟨(t.swapNode index (t.heap.size - 1)).shift index (t.heap.size - 1), ?_, ?_, ?_⟩
    · unfold del
      simp only [if_pos hmany, hback]
    · exact hswap.trans ⟨hshift.perm, fun k hk => hshift.above k (by omega), hshift.indexed⟩
    · rw [hsize]
      exact hback
  · have hlast : t.heap.size - 1 = index := by omega
    refine ⟨t, ?_, Rearranged.refl _ t, hlast ▸ hnode⟩
    unfold del
    simp [hlast, hnode]

/-- **`del_`** takes a node, and leaves the other timers. -/
theorem Indexed.del_spec (h : t.Indexed) {index : ℕ} {node : TimeNode C}
    (hnode : t.heap[index]? = some node) :
    (t.del index).Indexed ∧ (t.del index).heap.size + 1 = t.heap.size
      ∧ ∀ x, x ∈ (t.del index).timers ↔ x ∈ t.timers ∧ x.1 ≠ node.id := by
  have hindex := (Array.getElem?_eq_some_iff.mp hnode).1
  obtain ⟨u, hdel, hsift, hback⟩ := exists_last_of_del hnode
  obtain ⟨hindexed, htimers⟩ := (hsift.indexed h).popBack hback
  have hsize : u.heap.size = t.heap.size := by simpa using hsift.perm.length_eq
  rw [hdel]
  refine ⟨hindexed, ?_, fun x => (htimers x).trans ?_⟩
  · show u.heap.pop.size + 1 = _
    rw [Array.size_pop, hsize]
    omega
  · rw [hsift.mem_timers_iff]

/-- **`pop`** takes the front, and leaves the other timers. -/
theorem Indexed.pop_spec (h : t.Indexed) {front : TimeNode C} (hfront : t.heap[0]? = some front) :
    t.pop.Indexed ∧ t.pop.heap.size + 1 = t.heap.size
      ∧ ∀ x, x ∈ t.pop.timers ↔ x ∈ t.timers ∧ x.1 ≠ front.id :=
  h.del_spec hfront

end TimerManager

end MiniDcs
