import Mathlib.Algebra.Group.Nat.Defs
import LinuxStudy.TimerRuns
import Mathlib.Logic.Relation

/-!
# The indices of the timers

In the source the loop of `shiftup` has no end at the root: its test `j>=0` is
one of a `size_t`, and from index `0` it goes on to the index `(0-1)/2`, which
is `2 ^ 63 - 1`. Here the operations are written once more, with every index
that is used as `heap_[i]` or given to `swapNode` looked at, with the
assertions, and with the sums and differences of a `size_t` as they are.

What is computed without a fault is what `Timer` has (`step_of_checked`).
`shiftup` of a node comes to an end exactly if some node above it expires
before it, and else reads past the end of the heap (`shiftupLoop_eq`). So it
never does with a node that becomes the root: not with the first timer, and
not with one that is to expire first. The heap of a new manager is empty, and a
sequence of calls stays in range exactly if no timer is ever added
(`run_inRange_iff`).
-/

namespace MiniDcs

/-- Why a call does not go on. -/
inductive Fault
  /-- An assertion fails. -/
  | assertion
  /-- An index is not below `heap_.size()`. -/
  | outOfRange (i : ℕ)
  /-- The loop goes on. -/
  | running
  deriving DecidableEq

namespace TimerManager

namespace Checked

variable {C : Type}

/-! ## The calls, with their faults -/

/-- `heap_[i]`. -/
def nodeAt (t : TimerManager C) (i : ℕ) : Except Fault (TimeNode C) :=
  match t.heap[i]? with
  | some node => .ok node
  | none => .error (.outOfRange i)

/-- `assert`. -/
def require (p : Prop) [Decidable p] : Except Fault Unit :=
  if p then .ok () else .error .assertion

/-- `heap_[i] < heap_[j]`. -/
def less (t : TimerManager C) (i j : ℕ) : Except Fault Bool := do
  let a ← nodeAt t i
  let b ← nodeAt t j
  return a.expire < b.expire

/-- `swapNode`. -/
def swapNode (t : TimerManager C) (i j : ℕ) : Except Fault (TimerManager C) := do
  let _ ← nodeAt t i
  let _ ← nodeAt t j
  return t.swapNode i j

/-- A sum or a product as a `size_t`. -/
@[irreducible] def sizeT (k : ℕ) : ℕ := k % 2 ^ 64

/-- `(i-1)/2` of a `size_t`. -/
@[irreducible] def above (i : ℕ) : ℕ := sizeT (i + 2 ^ 64 - 1) / 2

/-- The loop of `shiftup`, in at most so many rounds. -/
def shiftupLoop : ℕ → TimerManager C → ℕ → Except Fault (TimerManager C)
  | 0, _, _ => .error .running
  | rounds + 1, t, i => do
    let j := above i
    if ← less t j i then return t
    else
      let t ← swapNode t i j
      shiftupLoop rounds t j

/-- `shiftup`. The rounds are enough to come to the root and once on from
there. -/
def shiftup (t : TimerManager C) (i : ℕ) : Except Fault (TimerManager C) := do
  require (i < t.heap.size)
  shiftupLoop (i + 1) t i

/-- The child that expires first, of the children from `j` on below `n`. -/
def child (t : TimerManager C) (n j : ℕ) : Except Fault ℕ :=
  if sizeT (j + 1) < n then do
    if ← less t (j + 1) j then return j + 1 else return j
  else return j

/-- The loop of `shiftdown`, in at most so many rounds. -/
def shiftdownLoop (n : ℕ) : ℕ → TimerManager C → ℕ → Except Fault (TimerManager C × ℕ)
  | 0, _, _ => .error .running
  | rounds + 1, t, i =>
    let j := sizeT (i * 2 + 1)
    if j < n then do
      let j ← child t n j
      if ← less t i j then return (t, i)
      else
        let t ← swapNode t i j
        shiftdownLoop n rounds t j
    else return (t, i)

/-- `shiftdown`, and whether anything was moved. -/
def shiftdown (t : TimerManager C) (index n : ℕ) : Except Fault (TimerManager C × Bool) := do
  require (index < t.heap.size ∧ n ≤ t.heap.size)
  let r ← shiftdownLoop n (n + 1) t index
  return (r.1, index < r.2)

/-- `if(!shiftdown(i, n)) shiftup(i)`. -/
def shift (t : TimerManager C) (i n : ℕ) : Except Fault (TimerManager C) := do
  let r ← shiftdown t i n
  if r.2 then return r.1 else shiftup r.1 i

/-- `addTimer`. -/
def addTimer (t : TimerManager C) (now id timeout : ℤ) (cb : C) :
    Except Fault (TimerManager C) := do
  require (0 ≤ id)
  match t.ref.lookup id with
  | none =>
    let i := t.heap.size
    shiftup ⟨t.heap.push ⟨id, now + ms timeout, cb⟩, t.ref.insert id i⟩ i
  | some i =>
    let _ ← nodeAt t i
    let t := t.modify i (fun node => { node with expire := now + ms timeout, cb := cb })
    shift t i t.heap.size

/-- `update`. -/
def update (t : TimerManager C) (now id timeout : ℤ) : Except Fault (TimerManager C) := do
  require (t.heap.size ≠ 0)
  match t.ref.lookup id with
  | none => .error .assertion
  | some i =>
    let _ ← nodeAt t i
    let t := t.modify i (fun node => { node with expire := now + ms timeout })
    let r ← shiftdown t i t.heap.size
    return r.1

/-- `del_`. -/
def del (t : TimerManager C) (index : ℕ) : Except Fault (TimerManager C) := do
  require (index < t.heap.size)
  let n := t.heap.size - 1
  let t ← (if index < n then swapNode t index n >>= fun t => shift t index n else .ok t)
  let back ← nodeAt t n
  return ⟨t.heap.pop, t.ref.erase back.id⟩

/-- `pop`. -/
def pop (t : TimerManager C) : Except Fault (TimerManager C) := do
  require (t.heap.size ≠ 0)
  del t 0

/-- `work`. -/
def work (t : TimerManager C) (id : ℤ) : Except Fault (TimerManager C) :=
  if t.heap.size = 0 then return t
  else
    match t.ref.lookup id with
    | none => return t
    | some i => do
      let _ ← nodeAt t i
      del t i

/-- The loop of `handle_expired_event`, by the times it reads from the clock, in
at most so many rounds. -/
def expireLoop (clock : ℕ → ℤ) : ℕ → ℕ → TimerManager C → Except Fault (TimerManager C)
  | 0, _, t => return t
  | rounds + 1, k, t =>
    match t.heap[0]? with
    | none => return t
    | some node =>
      if node.Expired (clock k) then do
        let t ← pop t
        expireLoop clock rounds (k + 1) t
      else return t

/-- What a call does. -/
def step (t : TimerManager C) : Event C → Except Fault (TimerManager C)
  | .addTimer now id timeout cb => addTimer t now id timeout cb
  | .update now id timeout => update t now id timeout
  | .work id => work t id
  | .pop => pop t
  | .clear => return t.clear
  | .expire clock => expireLoop clock t.heap.size 0 t

/-- **A sequence of calls**, of a new manager. -/
def run (es : List (Event C)) : Except Fault (TimerManager C) := es.foldlM step empty

/-! ## Single accesses -/

variable {t u : TimerManager C} {i j n : ℕ}

theorem bind_eq_ok {α β : Type} {x : Except Fault α} {f : α → Except Fault β} {b : β} :
    x >>= f = .ok b ↔ ∃ a, x = .ok a ∧ f a = .ok b := by
  cases x with
  | error fault => exact ⟨nofun, nofun⟩
  | ok a =>
    refine ⟨fun h => ⟨a, rfl, h⟩, ?_⟩
    rintro ⟨a', ha, h⟩
    obtain rfl := Except.ok.inj ha
    exact h

theorem ok_bind {α β : Type} (a : α) (f : α → Except Fault β) : Except.ok a >>= f = f a := rfl

theorem error_bind {α β : Type} (fault : Fault) (f : α → Except Fault β) :
    Except.error fault >>= f = .error fault := rfl

theorem nodeAt_eq_ok {node : TimeNode C} : nodeAt t i = .ok node ↔ t.heap[i]? = some node := by
  unfold nodeAt
  cases t.heap[i]? with
  | none => exact ⟨nofun, nofun⟩
  | some a =>
    exact ⟨fun h => congrArg some (Except.ok.inj h), fun h => congrArg _ (Option.some.inj h)⟩

theorem nodeAt_of_lt (hi : i < t.heap.size) : nodeAt t i = .ok t.heap[i] :=
  nodeAt_eq_ok.mpr (Array.getElem?_eq_getElem hi)

theorem nodeAt_of_ge (hi : t.heap.size ≤ i) : nodeAt t i = .error (.outOfRange i) := by
  unfold nodeAt
  rw [Array.getElem?_eq_none hi]

theorem lt_of_nodeAt_eq_ok {node : TimeNode C} (h : nodeAt t i = .ok node) : i < t.heap.size :=
  (Array.getElem?_eq_some_iff.mp (nodeAt_eq_ok.mp h)).1

theorem require_eq_ok {p : Prop} [Decidable p] {x : Unit} : require p = .ok x ↔ p := by
  unfold require
  split
  · next hp => exact iff_of_true rfl hp
  · next hp => exact iff_of_false nofun hp

/-- **Two nodes that are there can be compared.** -/
theorem less_of_lt (hi : i < t.heap.size) (hj : j < t.heap.size) :
    less t i j = .ok (t.less i j) := by
  unfold less TimerManager.less
  rw [nodeAt_of_lt hi, nodeAt_of_lt hj, Array.getElem?_eq_getElem hi,
    Array.getElem?_eq_getElem hj]
  rfl

theorem less_of_ge (hi : t.heap.size ≤ i) (j : ℕ) : less t i j = .error (.outOfRange i) := by
  unfold less
  rw [nodeAt_of_ge hi]
  rfl

/-- **Two nodes that are there can be swapped.** -/
theorem swapNode_of_lt (hi : i < t.heap.size) (hj : j < t.heap.size) :
    swapNode t i j = .ok (t.swapNode i j) := by
  unfold swapNode
  rw [nodeAt_of_lt hi, nodeAt_of_lt hj]
  rfl

/-! ## Sifting up

The loop goes up until it meets a node that expires before the one that is sifted.
If there is none above, it comes to the root and goes on, to an index at which
there is nothing. So the loop stays in range exactly if some node on the way up
expires earlier, and since a swap with the parent leaves what is above it, this
can be said of the heap as it was at first. -/

theorem sizeT_of_lt {k : ℕ} (h : k < 2 ^ 64) : sizeT k = k := by
  unfold sizeT
  exact Nat.mod_eq_of_lt h

theorem above_of_pos (hpos : 0 < i) (hi : i < 2 ^ 64) : above i = HeapOrder.parent i := by
  unfold above sizeT HeapOrder.parent
  omega

/-- **Above the root there is no node**, and the index is not `0`. -/
theorem above_zero : above 0 = 2 ^ 63 - 1 := by
  unfold above sizeT
  decide

/-- One node stands above another. -/
def StandsAbove (a i : ℕ) : Prop :=
  Relation.TransGen (fun i a => 0 < i ∧ HeapOrder.parent i = a) i a

/-- **Some node above expires before this one.** -/
def Earlier (t : TimerManager C) (i : ℕ) : Prop :=
  ∃ a, StandsAbove a i ∧ t.expireAt a < t.expireAt i

theorem StandsAbove.lt {a : ℕ} (h : StandsAbove a i) : a < i := by
  induction h with
  | single h => exact h.2 ▸ HeapOrder.parent_lt h.1
  | tail _ h ih => exact (h.2 ▸ HeapOrder.parent_lt h.1).trans ih

theorem standsAbove_iff {a : ℕ} :
    StandsAbove a i ↔ 0 < i ∧ (a = HeapOrder.parent i ∨ StandsAbove a (HeapOrder.parent i)) := by
  unfold StandsAbove
  rw [Relation.TransGen.head'_iff]
  constructor
  · rintro ⟨b, ⟨hpos, rfl⟩, hrest⟩
    exact ⟨hpos, Relation.reflTransGen_iff_eq_or_transGen.mp hrest⟩
  · rintro ⟨hpos, hrest⟩
    exact ⟨_, ⟨hpos, rfl⟩, Relation.reflTransGen_iff_eq_or_transGen.mpr hrest⟩

theorem not_earlier_zero : ¬ Earlier t 0 := by
  rintro ⟨a, ha, -⟩
  exact absurd ha.lt (Nat.not_lt_zero a)

/-- **A swap with the parent**, which does not expire before the node, leaves
what stands above it. -/
theorem earlier_swapNode_iff (hpos : 0 < i) (hi : i < t.heap.size)
    (hless : ¬ t.expireAt (HeapOrder.parent i) < t.expireAt i) :
    Earlier (t.swapNode i (HeapOrder.parent i)) (HeapOrder.parent i) ↔ Earlier t i := by
  have hlt := HeapOrder.parent_lt hpos
  have hswap := swapped_swapNode hi (hlt.trans hi)
  have hkept : ∀ {a}, StandsAbove a (HeapOrder.parent i) →
      (t.swapNode i (HeapOrder.parent i)).expireAt a = t.expireAt a := by
    intro a ha
    exact hswap.other a (Nat.ne_of_lt (ha.lt.trans hlt)) (Nat.ne_of_lt ha.lt)
  unfold Earlier
  rw [hswap.right]
  constructor
  · rintro ⟨a, ha, hearlier⟩
    exact ⟨a, standsAbove_iff.mpr ⟨hpos, Or.inr ha⟩, hkept ha ▸ hearlier⟩
  · rintro ⟨a, ha, hearlier⟩
    rcases (standsAbove_iff.mp ha).2 with rfl | ha'
    · exact absurd hearlier hless
    · exact ⟨a, ha', (hkept ha').symm ▸ hearlier⟩

/-- **From the root the loop reads past the end of the heap.** -/
theorem shiftupLoop_zero (hsize : t.heap.size < 2 ^ 63) (rounds : ℕ) :
    shiftupLoop (rounds + 1) t 0 = .error (.outOfRange (2 ^ 63 - 1)) := by
  have hless := less_of_ge (t := t) (i := 2 ^ 63 - 1) (by omega) 0
  unfold shiftupLoop
  rw [above_zero]
  dsimp only
  rw [hless, error_bind]

/-- **Sifting up**: if some node above expires before the node, every index is in
range, and what comes out is what `shiftup` of `Timer` gives; else the loop
comes to the root, and reads past the end of the heap. -/
theorem shiftupLoop_eq (rounds : ℕ) (t : TimerManager C) {i : ℕ} (hi : i < t.heap.size)
    (hsize : t.heap.size < 2 ^ 63) (hrounds : i ≤ rounds) :
    (Earlier t i → shiftupLoop (rounds + 1) t i = .ok (TimerManager.shiftupLoop rounds t i))
      ∧ (¬ Earlier t i → shiftupLoop (rounds + 1) t i = .error (.outOfRange (2 ^ 63 - 1))) := by
  induction rounds generalizing t i with
  | zero =>
    obtain rfl : i = 0 := Nat.le_zero.mp hrounds
    exact ⟨fun h => absurd h not_earlier_zero, fun _ => shiftupLoop_zero hsize 0⟩
  | succ rounds ih =>
    rcases Nat.eq_zero_or_pos i with rfl | hpos
    · exact ⟨fun h => absurd h not_earlier_zero, fun _ => shiftupLoop_zero hsize (rounds + 1)⟩
    · have hlt := HeapOrder.parent_lt hpos
      have hj : HeapOrder.parent i < t.heap.size := hlt.trans hi
      have hround : shiftupLoop (rounds + 1 + 1) t i
          = if t.less (HeapOrder.parent i) i then .ok t
            else shiftupLoop (rounds + 1) (t.swapNode i (HeapOrder.parent i))
              (HeapOrder.parent i) := by
        rw [shiftupLoop, above_of_pos hpos (by omega)]
        rw [less_of_lt hj hi, swapNode_of_lt hi hj, ok_bind, ok_bind]
        rfl
      rw [hround, TimerManager.shiftupLoop, if_neg (Nat.ne_of_gt hpos)]
      by_cases hless : t.expireAt (HeapOrder.parent i) < t.expireAt i
      · have hbool : t.less (HeapOrder.parent i) i = true := (less_iff hj hi).mpr hless
        have hearlier : Earlier t i := ⟨_, standsAbove_iff.mpr ⟨hpos, Or.inl rfl⟩, hless⟩
        refine ⟨fun _ => ?_, fun h => absurd hearlier h⟩
        rw [if_pos hbool]
        exact congrArg _ (if_pos hbool).symm
      · have hbool : ¬ t.less (HeapOrder.parent i) i = true :=
          fun h => hless ((less_iff hj hi).mp h)
        have hrest := ih (t.swapNode i (HeapOrder.parent i)) (i := HeapOrder.parent i)
          (by rw [size_swapNode]; exact hj) (by rw [size_swapNode]; exact hsize) (by omega)
        rw [earlier_swapNode_iff hpos hi hless] at hrest
        rw [if_neg hbool]
        refine ⟨fun h => (hrest.1 h).trans ?_, hrest.2⟩
        exact congrArg _ (if_neg hbool).symm

/-- **`shiftup` without a fault** is that of `Timer`. -/
theorem shiftup_eq_ok (hsize : t.heap.size < 2 ^ 63) (h : shiftup t i = .ok u) :
    u = t.shiftup i := by
  obtain ⟨_, hreq, hloop⟩ := bind_eq_ok.mp h
  have hspec := shiftupLoop_eq i t (require_eq_ok.mp hreq) hsize (Nat.le_refl i)
  by_cases hearlier : Earlier t i
  · exact Except.ok.inj (hloop.symm.trans (hspec.1 hearlier))
  · exact absurd (hloop.symm.trans (hspec.2 hearlier)) nofun

/-! ## Sifting down

Sifting down reads the two children of a node, the second of them only if its
index is below the bound. All the indices are below the size, so it never goes out
of range, and the arithmetic of `size_t` does not show. -/

/-- The child is found in range. -/
theorem child_eq (hn : n ≤ t.heap.size) (hsize : t.heap.size < 2 ^ 63) (hj : j < n) :
    child t n j = .ok (t.child n j) := by
  unfold child TimerManager.child
  rw [sizeT_of_lt (show j + 1 < 2 ^ 64 by omega)]
  by_cases hnext : j + 1 < n
  · rw [if_pos hnext, less_of_lt (hnext.trans_le hn) (hj.trans_le hn), ok_bind]
    by_cases hless : t.less (j + 1) j = true
    · rw [if_pos hless, if_pos ⟨hnext, hless⟩]
      rfl
    · rw [if_neg hless, if_neg (fun h => hless h.2)]
      rfl
  · rw [if_neg hnext, if_neg (fun h => hnext h.1)]
    rfl

theorem shiftdownLoop_leaf (t : TimerManager C) (hi : i < 2 ^ 63) (hj : ¬ i * 2 + 1 < n)
    (rounds : ℕ) : shiftdownLoop n (rounds + 1) t i = .ok (t, i) := by
  unfold shiftdownLoop
  rw [sizeT_of_lt (by omega)]
  exact if_neg hj

/-- **Sifting down stays in range.** -/
theorem shiftdownLoop_eq (rounds : ℕ) (t : TimerManager C) {i : ℕ} (hn : n ≤ t.heap.size)
    (hi : i < t.heap.size) (hsize : t.heap.size < 2 ^ 63) (hrounds : n ≤ rounds + i) :
    shiftdownLoop n (rounds + 1) t i = .ok (TimerManager.shiftdownLoop n rounds t i) := by
  induction rounds generalizing t i with
  | zero => exact shiftdownLoop_leaf t (by omega) (by omega) 0
  | succ rounds ih =>
    by_cases hj : i * 2 + 1 < n
    · obtain ⟨hchild, hpar, hpos, -⟩ := child_spec hn hj
      have hic : i < t.child n (i * 2 + 1) := by
        have hlt := HeapOrder.parent_lt hpos
        rwa [hpar] at hlt
      have hround : shiftdownLoop n (rounds + 1 + 1) t i
          = if t.less i (t.child n (i * 2 + 1)) then .ok (t, i)
            else shiftdownLoop n (rounds + 1) (t.swapNode i (t.child n (i * 2 + 1)))
              (t.child n (i * 2 + 1)) := by
        rw [shiftdownLoop, sizeT_of_lt (by omega), if_pos hj, child_eq hn hsize hj, ok_bind,
          less_of_lt hi (hchild.trans_le hn), swapNode_of_lt hi (hchild.trans_le hn), ok_bind,
          ok_bind]
        rfl
      rw [hround, TimerManager.shiftdownLoop]
      dsimp only
      rw [if_pos hj]
      split
      · rfl
      · generalize t.child n (i * 2 + 1) = c at hchild hic
        have hsize' := size_swapNode t i c
        exact ih (t.swapNode i c) (by omega) (by omega) (by omega) (by omega)
    · rw [shiftdownLoop_leaf t (by omega) hj, TimerManager.shiftdownLoop]
      exact congrArg _ (if_neg hj).symm

/-- **`shiftdown` of a node that is there stays in range**, and is that of
`Timer`. -/
theorem shiftdown_eq (hn : n ≤ t.heap.size) (hi : i < t.heap.size)
    (hsize : t.heap.size < 2 ^ 63) : shiftdown t i n = .ok (t.shiftdown i n) := by
  unfold shiftdown
  rw [(require_eq_ok (x := ())).mpr ⟨hi, hn⟩, ok_bind,
    shiftdownLoop_eq n t hn hi hsize (Nat.le_add_right n i), ok_bind]
  rfl

/-! ## The calls -/

/-- **Sifting without a fault** is that of `Timer`. -/
theorem shift_eq_ok (hn : n ≤ t.heap.size) (hi : i < n) (hsize : t.heap.size < 2 ^ 63)
    (h : shift t i n = .ok u) : u = t.shift i n := by
  have hi' : i < t.heap.size := hi.trans_le hn
  have hlen : (t.shiftdown i n).1.heap.size = t.heap.size :=
    (rearranged_shiftdown t hi).size_eq
  unfold shift at h
  rw [shiftdown_eq hn hi' hsize, ok_bind] at h
  unfold TimerManager.shift
  dsimp only
  split at h
  · next hmoved =>
    rw [if_pos hmoved]
    exact (Except.ok.inj h).symm
  · next hmoved =>
    rw [if_neg hmoved]
    exact shiftup_eq_ok (by omega) h

/-- **`addTimer` without a fault** is that of `Timer`. -/
theorem addTimer_eq_ok {now id timeout : ℤ} {cb : C} (hsize : t.heap.size + 1 < 2 ^ 63)
    (h : addTimer t now id timeout cb = .ok u) : t.addTimer now id timeout cb = some u := by
  obtain ⟨_, hid, hrest⟩ := bind_eq_ok.mp h
  unfold TimerManager.addTimer
  rw [if_neg (not_lt.mpr (require_eq_ok.mp hid))]
  cases href : t.ref.lookup id with
  | none =>
    rw [href] at hrest
    refine congrArg some (shiftup_eq_ok ?_ hrest).symm
    show (t.heap.push ⟨id, now + ms timeout, cb⟩).size < 2 ^ 63
    rw [Array.size_push]
    exact hsize
  | some i =>
    rw [href] at hrest
    obtain ⟨node, hnode, hshift⟩ := bind_eq_ok.mp hrest
    have hi := lt_of_nodeAt_eq_ok hnode
    have hlen : ∀ f, (t.modify i f).heap.size = t.heap.size := fun f => Array.size_modify
    refine congrArg some (shift_eq_ok (Nat.le_refl _) ?_ ?_ hshift).symm
    · rw [hlen]
      exact hi
    · rw [hlen]
      omega

/-- **`update` without a fault** is that of `Timer`. -/
theorem update_eq_ok {now id timeout : ℤ} (hsize : t.heap.size < 2 ^ 63)
    (h : update t now id timeout = .ok u) : t.update now id timeout = some u := by
  obtain ⟨_, hreq, hrest⟩ := bind_eq_ok.mp h
  unfold TimerManager.update
  rw [if_neg (require_eq_ok.mp hreq)]
  cases href : t.ref.lookup id with
  | none =>
    rw [href] at hrest
    exact absurd hrest nofun
  | some i =>
    rw [href] at hrest
    obtain ⟨node, hnode, hdown⟩ := bind_eq_ok.mp hrest
    have hi := lt_of_nodeAt_eq_ok hnode
    have hlen : ∀ f, (t.modify i f).heap.size = t.heap.size := fun f => Array.size_modify
    dsimp only at hdown
    rw [shiftdown_eq (Nat.le_refl _) (by rw [hlen]; exact hi) (by rw [hlen]; exact hsize),
      ok_bind] at hdown
    exact congrArg some (Except.ok.inj hdown)

/-- **`del_` without a fault** is that of `Timer`. -/
theorem del_eq_ok {index : ℕ} (hsize : t.heap.size < 2 ^ 63) (h : del t index = .ok u) :
    u = t.del index ∧ u.heap.size ≤ t.heap.size := by
  obtain ⟨_, hreq, hrest⟩ := bind_eq_ok.mp h
  obtain ⟨v, hv, hback⟩ := bind_eq_ok.mp hrest
  obtain ⟨back, hnode, hu⟩ := bind_eq_ok.mp hback
  have hindex := require_eq_ok.mp hreq
  have hlast : t.heap.size - 1 < t.heap.size := by omega
  have hmoved : v = (if index < t.heap.size - 1 then
      (t.swapNode index (t.heap.size - 1)).shift index (t.heap.size - 1) else t)
      ∧ v.heap.size = t.heap.size := by
    split at hv
    · next hlt =>
      have hlen := size_swapNode t index (t.heap.size - 1)
      rw [swapNode_of_lt hindex hlast, ok_bind] at hv
      have hshift := shift_eq_ok (by omega) hlt (by omega) hv
      rw [if_pos hlt, ← hshift]
      refine ⟨rfl, ?_⟩
      rw [hshift, (rearranged_shift _ hlt).size_eq, hlen]
    · next hlt =>
      obtain rfl := Except.ok.inj hv
      rw [if_neg hlt]
      exact ⟨rfl, rfl⟩
  obtain rfl := Except.ok.inj hu
  constructor
  · unfold TimerManager.del
    dsimp only
    rw [← hmoved.1, nodeAt_eq_ok.mp hnode]
  · show v.heap.pop.size ≤ _
    rw [Array.size_pop, hmoved.2]
    exact Nat.sub_le _ _

/-- **`pop` without a fault** is that of `Timer`. -/
theorem pop_eq_ok (hsize : t.heap.size < 2 ^ 63) (h : pop t = .ok u) :
    t.heap.size ≠ 0 ∧ u = t.pop ∧ u.heap.size ≤ t.heap.size := by
  obtain ⟨_, hreq, hdel⟩ := bind_eq_ok.mp h
  exact ⟨require_eq_ok.mp hreq, del_eq_ok hsize hdel⟩

/-- **`handle_expired_event` without a fault** is that of `Timer`. -/
theorem expireLoop_eq_ok (clock : ℕ → ℤ) (rounds k : ℕ) {t : TimerManager C}
    (hsize : t.heap.size < 2 ^ 63) (h : expireLoop clock rounds k t = .ok u) :
    u = (TimerManager.expireLoop clock rounds k t).1 := by
  induction rounds generalizing k t with
  | zero => exact (Except.ok.inj h).symm
  | succ rounds ih =>
    unfold expireLoop at h
    unfold TimerManager.expireLoop
    cases hfront : t.heap[0]? with
    | none =>
      rw [hfront] at h
      exact (Except.ok.inj h).symm
    | some node =>
      rw [hfront] at h
      dsimp only at h ⊢
      split at h
      · next hexpired =>
        obtain ⟨v, hpop, hrest⟩ := bind_eq_ok.mp h
        obtain ⟨-, rfl, hlen⟩ := pop_eq_ok hsize hpop
        rw [if_pos hexpired]
        exact ih (k + 1) (Nat.lt_of_le_of_lt hlen hsize) hrest
      · next hexpired =>
        rw [if_neg hexpired]
        exact (Except.ok.inj h).symm

/-- **What a call computes without a fault is what `Timer` has.** -/
theorem step_of_checked {e : Event C} (hsize : t.heap.size + 1 < 2 ^ 63)
    (h : step t e = .ok u) : t.step e = some u := by
  have hsize' : t.heap.size < 2 ^ 63 := by omega
  cases e with
  | addTimer now id timeout cb => exact addTimer_eq_ok hsize h
  | update now id timeout => exact update_eq_ok hsize' h
  | work id =>
    refine congrArg some ?_
    show (t.work id).1 = u
    change work t id = .ok u at h
    unfold work at h
    unfold TimerManager.work
    split at h
    · next hempty =>
      rw [if_pos hempty]
      exact Except.ok.inj h
    · next hempty =>
      rw [if_neg hempty]
      cases href : t.ref.lookup id with
      | none =>
        rw [href] at h
        exact Except.ok.inj h
      | some i =>
        rw [href] at h
        obtain ⟨node, -, hdel⟩ := bind_eq_ok.mp h
        exact (del_eq_ok hsize' hdel).1.symm
  | pop =>
    obtain ⟨hne, rfl, -⟩ := pop_eq_ok hsize' h
    exact if_neg hne
  | clear => exact congrArg some (Except.ok.inj h)
  | expire clock => exact congrArg some (expireLoop_eq_ok clock _ 0 hsize' h).symm

/-! ## Sequences of calls

As long as no timer has been added there is nothing that could be read. The first
one that is added is sifted up from the root, which is out of range at once. So a
sequence stays in range exactly if it adds no timer; that is less a condition than
a finding about `shiftup`. -/

/-- A call that adds a timer. -/
def adds : Event C → Bool
  | .addTimer _ _ _ _ => true
  | _ => false

/-- **The first timer is compared with one past the end of the heap.** -/
theorem addTimer_empty {id : ℤ} (hid : 0 ≤ id) (now timeout : ℤ) (cb : C) :
    addTimer empty now id timeout cb = .error (.outOfRange (2 ^ 63 - 1)) := by
  have hroot : ∀ v : TimerManager C, v.heap.size = 1 →
      shiftup v 0 = .error (.outOfRange (2 ^ 63 - 1)) := by
    intro v hv
    unfold shiftup
    rw [(require_eq_ok (x := ())).mpr (by omega), ok_bind]
    exact shiftupLoop_zero (by omega) 0
  unfold addTimer
  rw [(require_eq_ok (x := ())).mpr hid, ok_bind]
  exact hroot _ rfl

/-- **With no timer, a call leaves none**, unless an assertion fails or a timer
is added. -/
theorem step_empty (e : Event C) :
    step empty e = .ok empty ∧ adds e = false ∨ step empty e = .error .assertion
      ∨ step empty e = .error (.outOfRange (2 ^ 63 - 1)) ∧ adds e = true := by
  cases e with
  | addTimer now id timeout cb =>
    by_cases hid : 0 ≤ id
    · exact Or.inr (Or.inr ⟨addTimer_empty hid now timeout cb, rfl⟩)
    · refine Or.inr (Or.inl ?_)
      show addTimer empty now id timeout cb = _
      unfold addTimer require
      rw [if_neg hid, error_bind]
  | update now id timeout => exact Or.inr (Or.inl rfl)
  | work id => exact Or.inl ⟨rfl, rfl⟩
  | pop => exact Or.inr (Or.inl rfl)
  | clear => exact Or.inl ⟨rfl, rfl⟩
  | expire clock => exact Or.inl ⟨rfl, rfl⟩

/-- **When every index is in range.** For any sequence of calls of a new manager
whose assertions hold – the ids are not negative, `update` is of a timer that is
there, `pop` not of an empty heap – every index is in range and every loop
ends exactly if no timer is added. -/
theorem run_inRange_iff (es : List (Event C)) (hcalls : run es ≠ .error .assertion) :
    (∃ t, run es = .ok t) ↔ ∀ e ∈ es, adds e = false := by
  induction es with
  | nil => exact iff_of_true ⟨empty, rfl⟩ (by simp)
  | cons e es ih =>
    have hrun : run (e :: es) = step empty e >>= fun t => es.foldlM step t := List.foldlM_cons
    rw [hrun] at hcalls ⊢
    rcases step_empty e with ⟨hstep, hadds⟩ | hstep | ⟨hstep, hadds⟩
    · rw [hstep, ok_bind] at hcalls ⊢
      rw [List.forall_mem_cons, and_iff_right hadds]
      exact ih hcalls
    · rw [hstep, error_bind] at hcalls
      exact absurd rfl hcalls
    · rw [hstep, error_bind]
      refine iff_of_false nofun (fun h => ?_)
      rw [h e List.mem_cons_self] at hadds
      exact absurd hadds Bool.false_ne_true

/-- Two calls that find no timer stay in range, and adding one does not. -/
theorem run_inRange_iff_work_add :
    (∃ t, run [Event.work 3, Event.expire (fun _ => 0)] = .ok (t : TimerManager Unit))
      ∧ ¬ ∃ t, run [Event.work 3, Event.addTimer 0 7 30000 ()] = .ok (t : TimerManager Unit) := by
  have hrun : run [Event.work 3, Event.expire (fun _ => 0)] = .ok (empty : TimerManager Unit) := rfl
  have hadd : run [Event.work 3, Event.addTimer 0 7 30000 ()]
      = .error (.outOfRange (2 ^ 63 - 1)) := by
    show addTimer empty 0 7 30000 () >>= _ = _
    rw [addTimer_empty (by decide), error_bind]
  refine ⟨(run_inRange_iff _ (by rw [hrun]; nofun)).mpr (by decide), fun h => ?_⟩
  have hnone := (run_inRange_iff _ (by rw [hadd]; nofun)).mp h
  exact absurd (hnone (Event.addTimer 0 7 30000 ()) (by simp)) (by decide)

/-- **The first timer is enough**: the assertions hold, and `heap_[2^63-1]` is
read. -/
theorem not_run_inRange_first_timer :
    ¬ ∀ es : List (Event Unit), run es ≠ .error .assertion → ∃ t, run es = .ok t := by
  intro h
  have hrun : run [Event.addTimer 0 7 30000 ()] = .error (.outOfRange (2 ^ 63 - 1)) := by
    show step empty (Event.addTimer 0 7 30000 ()) >>= _ = _
    show addTimer empty 0 7 30000 () >>= _ = _
    rw [addTimer_empty (by decide), error_bind]
  obtain ⟨t, ht⟩ := h [Event.addTimer 0 7 30000 ()] (by rw [hrun]; nofun)
  exact absurd (hrun.symm.trans ht) nofun

end Checked

end TimerManager

end MiniDcs
