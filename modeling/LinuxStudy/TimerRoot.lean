import LinuxStudy.TimerRuns

/-!
# The loop of `shiftup` at the root

`shiftup` compares a node with its parent and goes up. The test of its loop is
`j>=0`, and `j` is a `size_t`: at the root it goes on to `(0-1)/2`, which is
`2 ^ 63 - 1`, and `heap_[j]` is then the node before the first, where the
vector has none. If what is found there expires before the root, the loop is
left and all is as if it had stopped. If it does not, `swapNode` is called and
its assertion fails, and if there is no memory to read the program ends at
once. Nothing in the program decides which it is.

So the operations that sift up are written here with what is found before the
vector as an argument, an `outside` that is `none` where nothing can be read,
and else a time. They have a value where the program goes on, and it is the
one that `Timer` has (`addTimer_eq_some`, `pop_eq_some`). A timer that is added
is compared with what is outside if it comes to the root, so the first timer
always is. `pop` sifts up from the root if it could not sift down. With the heap
in order that is so with two timers, and with three of which the third expires
before the second, and never else (`pop_isSome_iff`).
-/

namespace MiniDcs

namespace TimerManager

namespace Unguarded

variable {C : Type}

/-- What stands before the vector can be read, and is less than a time. -/
def Below (outside : Option ℤ) (expire : ℤ) : Prop :=
  match outside with
  | none => False
  | some before => before < expire

instance (outside : Option ℤ) (expire : ℤ) : Decidable (Below outside expire) :=
  match outside with
  | none => inferInstanceAs (Decidable False)
  | some before => inferInstanceAs (Decidable (before < expire))

/-- The loop of `shiftup`, in at most so many rounds before the one at the
root. -/
def shiftupLoop (outside : Option ℤ) : ℕ → TimerManager C → ℕ → Option (TimerManager C)
  | 0, t, _ => if Below outside (t.expireAt 0) then some t else none
  | rounds + 1, t, i =>
    if i = 0 then
      -- `heap_[j] < heap_[i]` at the index `j` past the root, or an assertion of `swapNode`
      if Below outside (t.expireAt 0) then some t else none
    else
      let j := (i - 1) / 2
      if t.less j i then some t else shiftupLoop outside rounds (t.swapNode i j) j

/-- `shiftup`. -/
def shiftup (outside : Option ℤ) (t : TimerManager C) (i : ℕ) : Option (TimerManager C) :=
  shiftupLoop outside i t i

/-- `if(!shiftdown(i, n)) shiftup(i)`. -/
def shift (outside : Option ℤ) (t : TimerManager C) (i n : ℕ) : Option (TimerManager C) :=
  let r := t.shiftdown i n
  if r.2 then some r.1 else shiftup outside r.1 i

/-- `addTimer`. -/
def addTimer (outside : Option ℤ) (t : TimerManager C) (now id timeout : ℤ) (cb : C) :
    Option (TimerManager C) :=
  if id < 0 then none
  else
    match t.ref.lookup id with
    | none =>
      let i := t.heap.size
      shiftup outside ⟨t.heap.push ⟨id, now + ms timeout, cb⟩, t.ref.insert id i⟩ i
    | some i =>
      let t := t.modify i (fun node => { node with expire := now + ms timeout, cb := cb })
      shift outside t i t.heap.size

/-- `del_`. -/
def del (outside : Option ℤ) (t : TimerManager C) (index : ℕ) : Option (TimerManager C) :=
  if index < t.heap.size then
    let n := t.heap.size - 1
    let sifted := if index < n then shift outside (t.swapNode index n) index n else some t
    sifted.bind fun t => t.heap[n]?.map fun back => ⟨t.heap.pop, t.ref.erase back.id⟩
  else none

/-- `pop`. -/
def pop (outside : Option ℤ) (t : TimerManager C) : Option (TimerManager C) := del outside t 0

/-- The loop of `handle_expired_event`, by the times it reads from the clock and
what stands before the vector in each round, in at most so many rounds: the
timers left, and how often the clock was read. -/
def expireLoop (outside : ℕ → Option ℤ) (clock : ℕ → ℤ) :
    ℕ → ℕ → TimerManager C → Option (TimerManager C × ℕ)
  | 0, k, t => some (t, k)
  | rounds + 1, k, t =>
    match t.heap[0]? with
    | none => some (t, k)
    | some node =>
      if node.Expired (clock k) then
        (pop (outside k) t).bind (expireLoop outside clock rounds (k + 1))
      else some (t, k + 1)

/-- `handle_expired_event`. -/
def handleExpiredEvent (outside : ℕ → Option ℤ) (clock : ℕ → ℤ) (t : TimerManager C) :
    Option (TimerManager C × ℕ) :=
  expireLoop outside clock t.heap.size 0 t

/-- `getNextHandle`: the timers left, and the timeout. -/
def getNextHandle (outside : ℕ → Option ℤ) (clock : ℕ → ℤ) (t : TimerManager C) :
    Option (TimerManager C × ℤ) :=
  (handleExpiredEvent outside clock t).map fun r => (r.1, r.1.nextTimeout (clock r.2))

/-! ## Where they end

Everything here goes on or does not. Where it goes on, the comparison at the root
has been answered by the time that was found there, and the loop is left as it is
where there is no parent to be looked at. So the operations of `Timer` tell what
comes out, and all that is said of their counterparts here is whether they have a
result. -/

variable {outside : Option ℤ} {t u : TimerManager C} {n : ℕ}

/-- What is left of the loop is what there is when it stops at the root. -/
theorem shiftupLoop_eq_some {rounds i : ℕ} (h : shiftupLoop outside rounds t i = some u) :
    u = TimerManager.shiftupLoop rounds t i := by
  have hroot : ∀ {t : TimerManager C},
      (if Below outside (t.expireAt 0) then some t else none) = some u → u = t := by
    intro t h
    split at h
    · exact (Option.some.inj h).symm
    · exact absurd h (by simp)
  induction rounds generalizing t i with
  | zero => exact hroot h
  | succ rounds ih =>
    unfold shiftupLoop at h
    unfold TimerManager.shiftupLoop
    dsimp only at h ⊢
    split at h
    · next hi =>
      rw [if_pos hi]
      exact hroot h
    · next hi =>
      rw [if_neg hi]
      split at h
      · next hless =>
        rw [if_pos hless]
        exact (Option.some.inj h).symm
      · next hless =>
        rw [if_neg hless]
        exact ih h

@[inherit_doc shiftupLoop_eq_some]
theorem shift_eq_some {i : ℕ} (h : shift outside t i n = some u) : u = t.shift i n := by
  unfold shift at h
  unfold TimerManager.shift
  dsimp only at h ⊢
  split at h
  · next hmoved =>
    rw [if_pos hmoved]
    exact (Option.some.inj h).symm
  · next hmoved =>
    rw [if_neg hmoved]
    exact shiftupLoop_eq_some h

/-- **`addTimer`** does, where it goes on, what it does stopping at the root. -/
theorem addTimer_eq_some {now id timeout : ℤ} {cb : C}
    (h : addTimer outside t now id timeout cb = some u) :
    t.addTimer now id timeout cb = some u := by
  unfold addTimer at h
  unfold TimerManager.addTimer
  split at h
  · exact absurd h (by simp)
  · next hid =>
    rw [if_neg hid]
    cases href : t.ref.lookup id with
    | none =>
      rw [href] at h
      exact congrArg some (shiftupLoop_eq_some h).symm
    | some i =>
      rw [href] at h
      exact congrArg some (shift_eq_some h).symm

/-- **`pop`** does, where it goes on, what it does stopping at the root. -/
theorem pop_eq_some (h : pop outside t = some u) : t.heap.size ≠ 0 ∧ u = t.pop := by
  unfold pop del at h
  dsimp only at h
  split at h
  · next hsize =>
    refine ⟨Nat.ne_of_gt hsize, ?_⟩
    obtain ⟨v, hv, hback⟩ := Option.bind_eq_some_iff.mp h
    obtain ⟨back, hget, rfl⟩ := Option.map_eq_some_iff.mp hback
    have hsifted : v = if 0 < t.heap.size - 1 then
        (t.swapNode 0 (t.heap.size - 1)).shift 0 (t.heap.size - 1) else t := by
      split at hv
      · next hmany =>
        rw [if_pos hmany]
        exact shift_eq_some hv
      · next hone =>
        rw [if_neg hone]
        exact (Option.some.inj hv).symm
    unfold TimerManager.pop TimerManager.del
    dsimp only
    rw [← hsifted, hget]
  · exact absurd h (by simp)

/-- What comes after a `pop` is done with what it leaves stopping at the root. -/
theorem isSome_pop_bind {β : Type} (f : TimerManager C → Option β) :
    ((pop outside t).bind f).isSome ↔ (pop outside t).isSome ∧ (f t.pop).isSome := by
  cases hu : pop outside t with
  | none => exact iff_of_false (by simp) (by simp)
  | some u =>
    obtain ⟨-, rfl⟩ := pop_eq_some hu
    exact (and_iff_right rfl).symm

/-- The loop of `handle_expired_event` does, where it goes on, what it does
stopping at the root. -/
theorem expireLoop_eq_some {outside : ℕ → Option ℤ} {clock : ℕ → ℤ} {rounds k : ℕ}
    {r : TimerManager C × ℕ} (h : expireLoop outside clock rounds k t = some r) :
    r = TimerManager.expireLoop clock rounds k t := by
  induction rounds generalizing k t with
  | zero => exact (Option.some.inj h).symm
  | succ rounds ih =>
    unfold expireLoop at h
    unfold TimerManager.expireLoop
    cases hfront : t.heap[0]? with
    | none =>
      simp only [hfront] at h ⊢
      exact (Option.some.inj h).symm
    | some node =>
      simp only [hfront] at h ⊢
      split at h
      · next hexpired =>
        obtain ⟨u, hu, hrest⟩ := Option.bind_eq_some_iff.mp h
        obtain ⟨-, rfl⟩ := pop_eq_some hu
        rw [if_pos hexpired]
        exact ih hrest
      · next hexpired =>
        rw [if_neg hexpired]
        exact (Option.some.inj h).symm

/-! ## Whether `pop` goes on

`pop` of a heap in order puts its last node in front. With four timers or more
that node was below a child of the root and is not less than it, so it is moved
down. With three it is compared with the second alone, and with two there is
nothing below it. -/

/-- Sifting from the root goes on if something is moved down, or if what stands
before the vector is less. -/
theorem shift_root_isSome_iff :
    (shift outside t 0 n).isSome
      ↔ (t.shiftdown 0 n).2 = true ∨ Below outside ((t.shiftdown 0 n).1.expireAt 0) := by
  unfold shift
  dsimp only
  split
  · next hmoved => exact iff_of_true rfl (Or.inl hmoved)
  · next hmoved =>
    rw [or_iff_right hmoved]
    unfold shiftup shiftupLoop
    split
    · next hbelow => exact iff_of_true rfl hbelow
    · next hbelow => exact iff_of_false (by simp) hbelow

/-- **Sifting down from the root** moves nothing if there is no child or none
that is not greater, and then leaves all as it is. -/
theorem shiftdown_root (hn : n ≤ t.heap.size) :
    (t.shiftdown 0 n).2 = true ∧ 1 < n ∧ ¬ t.less 0 (t.child n 1)
      ∨ t.shiftdown 0 n = (t, false) ∧ ¬ (1 < n ∧ ¬ t.less 0 (t.child n 1)) := by
  unfold shiftdown
  dsimp only
  cases n with
  | zero => exact Or.inr ⟨rfl, fun h => absurd h.1 (Nat.not_lt_zero 1)⟩
  | succ m =>
    unfold shiftdownLoop
    dsimp only
    rw [Nat.zero_mul, Nat.zero_add]
    split
    · next hchild =>
      obtain ⟨hlt, -, hpos, -⟩ := child_spec (i := 0) hn hchild
      split
      · next hless =>
        exact Or.inr ⟨by simp, fun h => h.2 hless⟩
      · next hless =>
        refine Or.inl ⟨?_, hchild, hless⟩
        have hsize : m + 1 ≤ (t.swapNode 0 (t.child (m + 1) 1)).heap.size := by
          rw [size_swapNode]
          exact hn
        have hpos' : 0 < t.child (m + 1) 1 := hpos
        rcases shiftdownLoop_index m (t.swapNode 0 (t.child (m + 1) 1)) (t.child (m + 1) 1) hsize
          with hstay | hdown
        · rw [hstay]
          exact decide_eq_true hpos'
        · exact decide_eq_true (hpos'.trans hdown)
    · next hchild => exact Or.inr ⟨by simp, fun h => hchild h.1⟩

/-- The root is less than its least child if it is less than both. -/
theorem less_child_iff (hn : n ≤ t.heap.size) (hchild : 1 < n) :
    t.less 0 (t.child n 1) = true
      ↔ t.expireAt 0 < t.expireAt 1 ∧ (2 < n → t.expireAt 0 < t.expireAt 2) := by
  obtain ⟨hlt, hpar, hpos, hleast⟩ := child_spec (i := 0) hn hchild
  rw [Nat.zero_mul, Nat.zero_add] at hlt hpar hpos hleast
  rw [less_iff (by omega) (hlt.trans_le hn)]
  constructor
  · intro h
    exact ⟨h.trans_le (hleast 1 Nat.one_pos hchild rfl),
      fun h2 => h.trans_le (hleast 2 Nat.two_pos h2 rfl)⟩
  · rintro ⟨h1, h2⟩
    rcases (HeapOrder.parent_eq_iff hpos).mp hpar with hc | hc
    · rw [hc]
      exact h1
    · rw [hc] at hlt ⊢
      exact h2 hlt

/-- The node that is taken stays behind what is sifted, so `pop` goes on if the
sifting does. -/
theorem pop_isSome_iff_shift (hn : t.heap.size = n + 1) :
    (pop outside t).isSome ↔ n = 0 ∨ (shift outside (t.swapNode 0 n) 0 n).isSome := by
  have hpos : 0 < t.heap.size := by omega
  unfold pop del
  dsimp only
  rw [if_pos hpos, hn, Nat.add_sub_cancel]
  rcases Nat.eq_zero_or_pos n with rfl | hmany
  · rw [if_neg (Nat.lt_irrefl 0), Option.bind_some, Array.getElem?_eq_getElem hpos]
    exact iff_of_true rfl (Or.inl rfl)
  · rw [if_pos hmany, or_iff_right (Nat.ne_of_gt hmany)]
    cases hshift : shift outside (t.swapNode 0 n) 0 n with
    | none => exact Iff.rfl
    | some v =>
      have hv : v.heap.size = n + 1 := by
        rw [shift_eq_some hshift, (rearranged_shift _ hmany).size_eq, size_swapNode, hn]
      rw [Option.bind_some, Array.getElem?_eq_getElem (by omega)]
      exact iff_of_true rfl rfl

/-- Whether the last node stays in front, once it is put there. -/
theorem less_child_swapNode_iff (hn : t.heap.size = n + 1) (hchild : 1 < n) :
    (t.swapNode 0 n).less 0 ((t.swapNode 0 n).child n 1) = true
      ↔ t.expireAt n < t.expireAt 1 ∧ (2 < n → t.expireAt n < t.expireAt 2) := by
  have hswap := swapped_swapNode (t := t) (i := 0) (j := n) (by omega) (by omega)
  have hother : ∀ k, 0 < k → k < n → (t.swapNode 0 n).expireAt k = t.expireAt k :=
    fun k hk hkn => hswap.other k (Nat.ne_of_gt hk) (Nat.ne_of_lt hkn)
  have hleft : (t.swapNode 0 n).expireAt 0 = t.expireAt n := hswap.left
  have hsize := size_swapNode t 0 n
  rw [less_child_iff (by omega) hchild, hleft, hother 1 Nat.one_pos hchild]
  exact and_congr_right (fun _ => forall_congr' (fun h2 => by rw [hother 2 Nat.two_pos h2]))

/-- **When `pop` goes on.** In a heap in order the node put in front is moved
down, but for two timers, and three of which the third expires before the
second: there it stays, and is compared with what stands before the vector. -/
theorem pop_isSome_iff (h : t.Ordered) (hsize : t.heap.size ≠ 0) :
    (pop outside t).isSome
      ↔ (t.heap.size = 2 → Below outside (t.expireAt 1))
        ∧ (t.heap.size = 3 → t.expireAt 2 < t.expireAt 1 → Below outside (t.expireAt 2)) := by
  obtain ⟨n, hn⟩ : ∃ n, t.heap.size = n + 1 := ⟨t.heap.size - 1, by omega⟩
  rw [pop_isSome_iff_shift hn, hn]
  rcases Nat.eq_zero_or_pos n with rfl | hmany
  · exact iff_of_true (Or.inl rfl) ⟨fun h => absurd h (by decide), fun h => absurd h (by decide)⟩
  · have hlast : n < t.heap.size := by omega
    have hswapped := size_swapNode t 0 n
    have hleft : (t.swapNode 0 n).expireAt 0 = t.expireAt n :=
      (swapped_swapNode (hmany.trans hlast) hlast).left
    -- the last node is below one of the two nodes below the root
    have hbelow : 2 < n → ¬ (t.expireAt n < t.expireAt 1 ∧ t.expireAt n < t.expireAt 2) := by
      rintro - ⟨h1, h2⟩
      rcases (ordered_iff.mp h).child_le hmany hlast with hle | hle
      · exact absurd h1 (not_lt.mpr hle)
      · exact absurd h2 (not_lt.mpr hle)
    rw [or_iff_right (Nat.ne_of_gt hmany), shift_root_isSome_iff]
    rcases shiftdown_root (t := t.swapNode 0 n) (n := n) (by omega) with
      ⟨hmoved, hchild, hgreater⟩ | ⟨hstay, hnone⟩
    · rw [less_child_swapNode_iff hn hchild] at hgreater
      refine iff_of_true (Or.inl hmoved) ⟨fun h2 => by omega, fun h3 hlt => ?_⟩
      obtain rfl : n = 2 := by omega
      exact absurd ⟨hlt, fun h => absurd h (Nat.lt_irrefl 2)⟩ hgreater
    · rw [hstay, hleft, or_iff_right (by simp)]
      rcases Nat.lt_or_ge 1 n with hchild | hone
      · have hlt := (less_child_swapNode_iff hn hchild).mp
          (not_not.mp (fun h => hnone ⟨hchild, h⟩))
        obtain rfl : n = 2 := by
          by_contra hne
          exact hbelow (by omega) ⟨hlt.1, hlt.2 (by omega)⟩
        exact ⟨fun h => ⟨fun h2 => absurd h2 (by decide), fun _ _ => h⟩, fun h => h.2 rfl hlt.1⟩
      · obtain rfl : n = 1 := by omega
        exact ⟨fun h => ⟨fun _ => h, fun h3 => absurd h3 (by decide)⟩, fun h => h.1 rfl⟩

end Unguarded

end TimerManager

end MiniDcs
