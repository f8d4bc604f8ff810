import Mathlib.Data.List.Sort
import LinuxStudy.TimerRoot

/-!
# Timers that expire

`handle_expired_event` looks at the front of the heap only, and takes it as long
as it is due. With the heap in order that is enough
(`handleExpiredEvent_spec`): by a clock that stands still, the timers that are
due are taken, each once and the earliest first, and no others.

`getNextHandle` asks for the time left until the next timer, to wait so long for
events. It reads the clock once more for that, after the loop has found that the
front is not due, and by then it may be. The guard `res < 0` is there for this,
but `res` is unsigned: what is returned is the count of milliseconds modulo
`2^32`, read as an `int`. One millisecond late is `-1`
(`getNextHandle_waits_forever`), for which `epoll_wait` blocks without a timeout
while a timer is pending.

Before that it has to come so far. Taking the last timer but one, the loop sifts
up from the root, and so it may when the timer before that is taken; what the
timer put in front is then compared with stands before the vector (`TimerRoot`).
In the order in which the timers expire it is the next timer that is compared,
so both can be said of the times of the timers, the readings of the clock and
what stands before the vector: `getNextHandle_iff` says when all goes well.
Whether the timer before the last but one is compared at all hangs on which of
the last two the sifts before have left in front (`ThirdFirst`).
-/

namespace MiniDcs

namespace TimerManager

variable {C : Type} {t : TimerManager C}

/-- **A timer is due below a millisecond**, as the time left is cut to whole
milliseconds. -/
theorem expired_iff {node : TimeNode C} {now : ℤ} :
    node.Expired now ↔ node.expire - now < 1000000 := by
  unfold TimeNode.Expired
  rcases Int.le_total 0 (node.expire - now) with hle | hle
  · rw [Int.tdiv_eq_ediv_of_nonneg hle]
    omega
  · have hneg : (node.expire - now).tdiv 1000000 ≤ (0 : ℤ).tdiv 1000000 :=
      Int.tdiv_le_tdiv (by decide) hle
    rw [Int.zero_tdiv] at hneg
    omega

/-! ## Rounds of the loop -/

/-- `pop` takes the front and leaves the other nodes. -/
theorem perm_cons_pop {front : TimeNode C} (hfront : t.heap[0]? = some front) :
    t.heap.toList.Perm (front :: t.pop.heap.toList) := by
  obtain ⟨u, hdel, hsift, hback⟩ := exists_last_of_del hfront
  have hlast : u.heap.toList = u.heap.pop.toList ++ [front] := by
    rw [Array.toList_pop]
    refine (List.dropLast_append_getLast? front ?_).symm
    rw [Option.mem_def, List.getLast?_eq_getElem?, Array.getElem?_toList]
    exact hback
  have hheap : t.pop.heap = u.heap.pop := congrArg TimerManager.heap hdel
  rw [hheap]
  refine hsift.perm.symm.trans ?_
  rw [hlast]
  exact List.perm_append_singleton front _

theorem size_pop_add_one {front : TimeNode C} (hfront : t.heap[0]? = some front) :
    t.pop.heap.size + 1 = t.heap.size := by
  have hlen := (perm_cons_pop hfront).length_eq
  simpa using hlen.symm

/-- **What is taken and what is left** are the timers there were. -/
theorem perm_firedLoop_append (clock : ℕ → ℤ) (rounds k : ℕ) (t : TimerManager C) :
    t.heap.toList.Perm
      (firedLoop clock rounds k t ++ (expireLoop clock rounds k t).1.heap.toList) := by
  induction rounds generalizing k t with
  | zero => exact List.Perm.refl _
  | succ rounds ih =>
    unfold firedLoop expireLoop
    cases hfront : t.heap[0]? with
    | none => exact List.Perm.refl _
    | some front =>
      dsimp only
      split
      · exact (perm_cons_pop hfront).trans ((ih (k + 1) t.pop).cons front)
      · exact List.Perm.refl _

theorem toList_eq_nil (h : t.heap.size ≤ 0) : t.heap.toList = [] := by
  rw [Array.toList_eq_nil_iff]
  exact Array.size_eq_zero_iff.mp (Nat.le_zero.mp h)

theorem expireLoop_of_empty (clock : ℕ → ℤ) (rounds k : ℕ) (hempty : t.heap.size = 0) :
    expireLoop clock rounds k t = (t, k) := by
  cases rounds with
  | zero => rfl
  | succ rounds =>
    unfold expireLoop
    rw [Array.getElem?_eq_none (Nat.le_of_eq hempty)]

/-- **As many rounds as timers are enough.** -/
theorem expireLoop_of_le (clock : ℕ → ℤ) {rounds rounds' : ℕ} (k : ℕ)
    (hrounds : t.heap.size ≤ rounds) (hrounds' : t.heap.size ≤ rounds') :
    expireLoop clock rounds k t = expireLoop clock rounds' k t := by
  induction rounds generalizing rounds' k t with
  | zero =>
    have hempty := Nat.le_zero.mp hrounds
    rw [expireLoop_of_empty _ _ _ hempty, expireLoop_of_empty _ _ _ hempty]
  | succ rounds ih =>
    cases rounds' with
    | zero =>
      have hempty := Nat.le_zero.mp hrounds'
      rw [expireLoop_of_empty _ _ _ hempty, expireLoop_of_empty _ _ _ hempty]
    | succ rounds' =>
      unfold expireLoop
      cases hfront : t.heap[0]? with
      | none => rfl
      | some front =>
        have hsize := size_pop_add_one hfront
        dsimp only
        split
        · exact ih (k + 1) (by omega) (by omega)
        · rfl

/-! ## By a clock that stands still -/

/-- **What is taken is due and what is left is not**, and the earliest is taken
first. -/
theorem Ordered.expireLoop_due (now : ℤ) (rounds k : ℕ) (h : t.Ordered)
    (hrounds : t.heap.size ≤ rounds) :
    (∀ node ∈ firedLoop (fun _ => now) rounds k t, node.expire - now < 1000000)
      ∧ (∀ node ∈ (expireLoop (fun _ => now) rounds k t).1.heap.toList,
        ¬ node.expire - now < 1000000)
      ∧ (firedLoop (fun _ => now) rounds k t).Pairwise (fun a b => a.expire ≤ b.expire) := by
  induction rounds generalizing k t with
  | zero =>
    refine ⟨fun _ hnode => absurd hnode List.not_mem_nil, fun node hnode => ?_, List.Pairwise.nil⟩
    rw [show (expireLoop (fun _ => now) 0 k t).1 = t from rfl, toList_eq_nil hrounds] at hnode
    exact absurd hnode List.not_mem_nil
  | succ rounds ih =>
    unfold firedLoop expireLoop
    cases hfront : t.heap[0]? with
    | none =>
      refine ⟨fun _ hnode => absurd hnode List.not_mem_nil, fun node hnode => ?_, List.Pairwise.nil⟩
      rw [toList_eq_nil (Array.getElem?_eq_none_iff.mp hfront)] at hnode
      exact absurd hnode List.not_mem_nil
    | some front =>
      dsimp only
      split
      · next hexpired =>
        have hsize := size_pop_add_one hfront
        obtain ⟨hdue, hleft, hsorted⟩ := ih (k + 1) (h.pop hfront) (by omega)
        refine ⟨fun node hnode => ?_, hleft, List.pairwise_cons.mpr ⟨fun node hnode => ?_, hsorted⟩⟩
        · rcases List.mem_cons.mp hnode with rfl | hnode'
          · exact expired_iff.mp hexpired
          · exact hdue node hnode'
        · -- what is taken later was there, and the front expires first
          have hpop := (perm_firedLoop_append (fun _ => now) rounds (k + 1) t.pop).mem_iff.mpr
            (List.mem_append_left _ hnode)
          exact h.front_le hfront
            ((perm_cons_pop hfront).mem_iff.mpr (List.mem_cons_of_mem _ hpop))
      · next hexpired =>
        refine ⟨fun _ hnode => absurd hnode List.not_mem_nil, fun node hnode => ?_,
          List.Pairwise.nil⟩
        have hle := h.front_le hfront hnode
        rw [expired_iff] at hexpired
        omega

/-- A list in two parts, of which the one has a property and the other has not,
is parted by the property. -/
theorem perm_filter_of_perm_append {α : Type} {p : α → Prop} [DecidablePred p]
    {l l₁ l₂ : List α} (h : l.Perm (l₁ ++ l₂)) (h₁ : ∀ a ∈ l₁, p a) (h₂ : ∀ a ∈ l₂, ¬ p a) :
    l₁.Perm (l.filter (fun a => p a)) ∧ l₂.Perm (l.filter (fun a => ¬ p a)) := by
  constructor
  · refine ((h.filter _).trans ?_).symm
    rw [List.filter_append, List.filter_eq_self.mpr (fun a ha => decide_eq_true (h₁ a ha)),
      List.filter_eq_nil_iff.mpr (fun a ha hp => h₂ a ha (of_decide_eq_true hp)),
      List.append_nil]
  · refine ((h.filter _).trans ?_).symm
    rw [List.filter_append, List.filter_eq_self.mpr (fun a ha => decide_eq_true (h₂ a ha)),
      List.filter_eq_nil_iff.mpr (fun a ha hp => absurd (h₁ a ha) (of_decide_eq_true hp)),
      List.nil_append]

/-- **Expiry fires exactly the timers that are due.** With the heap in order and
an exact index, by a clock that stands still: the loop ends within as many
rounds as there are timers; it runs the callbacks of the nodes with less than a
millisecond left, each once, the earliest first; and it leaves the other nodes,
in order and with an exact index. -/
theorem handleExpiredEvent_spec (hord : t.Ordered) (hexact : t.Exact) (now : ℤ) :
    (∀ rounds, t.heap.size ≤ rounds →
        expireLoop (fun _ => now) rounds 0 t = t.handleExpiredEvent (fun _ => now))
      ∧ (t.fired (fun _ => now)).Perm
        (t.heap.toList.filter (fun node => node.expire - now < 1000000))
      ∧ (t.fired (fun _ => now)).Pairwise (fun a b => a.expire ≤ b.expire)
      ∧ (t.handleExpiredEvent (fun _ => now)).1.heap.toList.Perm
        (t.heap.toList.filter (fun node => ¬ node.expire - now < 1000000))
      ∧ (t.handleExpiredEvent (fun _ => now)).1.Ordered
      ∧ (t.handleExpiredEvent (fun _ => now)).1.Exact := by
  obtain ⟨hdue, hleft, hsorted⟩ := hord.expireLoop_due now t.heap.size 0 le_rfl
  obtain ⟨hfired, hothers⟩ := perm_filter_of_perm_append
    (perm_firedLoop_append (fun _ => now) t.heap.size 0 t) hdue hleft
  refine ⟨fun rounds hrounds => expireLoop_of_le _ 0 hrounds le_rfl, hfired, hsorted, hothers,
    ?_, ?_⟩
  · exact hord.step hexact.indexed (e := .expire (fun _ => now)) trivial rfl
  · exact (hexact.indexed.step_spec (e := .expire (fun _ => now)) rfl).1.exact

/-- Three timers, two of them due. -/
theorem handleExpiredEvent_spec_two_due :
    ∃ t : TimerManager Unit, Runs.exec step empty
        [.addTimer 0 1 10 (), .addTimer 0 2 0 (), .addTimer 0 3 5 ()] = some t
      ∧ (t.fired (fun _ => ms 5)).Perm
        (t.heap.toList.filter (fun node => node.expire - ms 5 < 1000000)) := by
  have hrun : (Runs.exec step (empty : TimerManager Unit)
      [.addTimer 0 1 10 (), .addTimer 0 2 0 (), .addTimer 0 3 5 ()]).isSome := by
    decide +kernel
  obtain ⟨t, ht⟩ := Option.isSome_iff_exists.mp hrun
  have hfits : Runs.Guarded step Fits (empty : TimerManager Unit)
      [.addTimer 0 1 10 (), .addTimer 0 2 0 (), .addTimer 0 3 5 ()] := by
    decide +kernel
  obtain ⟨hindexed, hord⟩ := indexed_ordered_of_exec hfits ht
  exact ⟨t, ht, (handleExpiredEvent_spec hord hindexed.exact (ms 5)).2.1⟩

/-! ## How long to wait

The clock is read once for each timer that is looked at, and once more for the
timeout. Between the last two readings time may pass. A timer that was not due at
the first of them may be overdue at the second, and the milliseconds that are left
are negative then. They are kept in a `size_t`, where nothing is less than zero,
and are returned as an `int`; the result is negative, and `epoll_wait` takes it
for no timeout at all. -/

/-- The times at which the timers expire, in order. -/
def expiries (t : TimerManager C) : List ℤ :=
  (t.heap.toList.map TimeNode.expire).insertionSort (· ≤ ·)

/-- **In order, the front is the first to expire**, and then come the others. -/
theorem Ordered.expiries_eq (h : t.Ordered) {front : TimeNode C}
    (hfront : t.heap[0]? = some front) : t.expiries = front.expire :: t.pop.expiries := by
  have hperm := perm_cons_pop hfront
  have hfirst : ∀ e ∈ t.pop.heap.toList.map TimeNode.expire, front.expire ≤ e := by
    intro e he
    obtain ⟨node, hnode, rfl⟩ := List.mem_map.mp he
    exact h.front_le hfront (hperm.mem_iff.mpr (List.mem_cons_of_mem _ hnode))
  unfold expiries
  rw [← List.insertionSort_cons_of_forall_rel _ hfirst]
  refine List.Perm.eq_of_pairwise' (List.pairwise_insertionSort _ _)
    (List.pairwise_insertionSort _ _) ?_
  refine (List.perm_insertionSort _ _).trans (List.Perm.trans ?_ (List.perm_insertionSort _ _).symm)
  exact hperm.map TimeNode.expire

/-- **The timer the loop stops at**, from a reading of the clock on: the timers
before it, in the order in which they expire, are due each at its own reading,
and it is not. -/
def StopsAt (t : TimerManager C) (clock : ℕ → ℤ) (k m : ℕ) (e : ℤ) : Prop :=
  t.expiries[m]? = some e ∧ 0 < (e - clock (k + m)).tdiv 1000000
    ∧ ∀ j < m, ∀ e', t.expiries[j]? = some e' → ¬ 0 < (e' - clock (k + j)).tdiv 1000000

theorem StopsAt.unique {clock : ℕ → ℤ} {k m m' : ℕ} {e e' : ℤ} (h : t.StopsAt clock k m e)
    (h' : t.StopsAt clock k m' e') : m = m' ∧ e = e' := by
  obtain ⟨hget, hleft, hbefore⟩ := h
  obtain ⟨hget', hleft', hbefore'⟩ := h'
  rcases Nat.lt_trichotomy m m' with hlt | rfl | hlt
  · exact absurd hleft (hbefore' m hlt e hget)
  · exact ⟨rfl, Option.some.inj (hget.symm.trans hget')⟩
  · exact absurd hleft' (hbefore m' hlt e' hget')

theorem Ordered.stopsAt_iff (h : t.Ordered) {front : TimeNode C}
    (hfront : t.heap[0]? = some front) {clock : ℕ → ℤ} {k m : ℕ} {e : ℤ} :
    t.StopsAt clock k m e
      ↔ (m = 0 ∧ e = front.expire ∧ ¬ front.Expired (clock k))
        ∨ ∃ l, m = l + 1 ∧ front.Expired (clock k) ∧ t.pop.StopsAt clock (k + 1) l e := by
  have hshift : ∀ l, k + (l + 1) = k + 1 + l := fun l => by omega
  unfold StopsAt TimeNode.Expired
  rw [h.expiries_eq hfront]
  cases m with
  | zero =>
    rw [List.getElem?_cons_zero, Option.some.injEq, Nat.add_zero]
    constructor
    · rintro ⟨rfl, hleft, -⟩
      exact Or.inl ⟨rfl, rfl, not_not.mpr hleft⟩
    · rintro (⟨-, rfl, hleft⟩ | ⟨l, hl, -⟩)
      · exact ⟨rfl, not_not.mp hleft, fun j hj => absurd hj (Nat.not_lt_zero j)⟩
      · exact absurd hl (Nat.succ_ne_zero l).symm
  | succ m =>
    rw [List.getElem?_cons_succ, hshift]
    constructor
    · rintro ⟨hget, hleft, hbefore⟩
      refine Or.inr ⟨m, rfl, hbefore 0 (Nat.succ_pos m) _ rfl, hget, hleft, fun j hj e' he' => ?_⟩
      rw [← hshift]
      exact hbefore (j + 1) (Nat.succ_lt_succ hj) e' he'
    · rintro (⟨hm, -⟩ | ⟨l, hl, hdue, hget, hleft, hbefore⟩)
      · exact absurd hm (Nat.succ_ne_zero m)
      · obtain rfl := Nat.succ.inj hl
        refine ⟨hget, hleft, fun j hj e' he' => ?_⟩
        cases j with
        | zero => exact Option.some.inj he' ▸ hdue
        | succ j =>
          rw [hshift]
          exact hbefore j (Nat.lt_of_succ_lt_succ hj) e' he'

/-- **What the loop leaves**: no timer where it does not stop, and else the timer
it stops at in front, with the clock read once for it and for each before
it. -/
theorem Ordered.expireLoop_front (clock : ℕ → ℤ) (rounds k : ℕ) (h : t.Ordered)
    (hrounds : t.heap.size ≤ rounds) :
    ((expireLoop clock rounds k t).1.heap[0]? = none ∧ ∀ m e, ¬ t.StopsAt clock k m e)
      ∨ ∃ m front, (expireLoop clock rounds k t).1.heap[0]? = some front
        ∧ t.StopsAt clock k m front.expire ∧ (expireLoop clock rounds k t).2 = k + m + 1 := by
  have hnone : ∀ {t : TimerManager C}, t.heap[0]? = none → ∀ k m e, ¬ t.StopsAt clock k m e := by
    rintro t hempty k m e ⟨hget, -⟩
    unfold expiries at hget
    rw [toList_eq_nil (Array.getElem?_eq_none_iff.mp hempty)] at hget
    exact absurd hget (by simp)
  induction rounds generalizing k t with
  | zero =>
    have hempty := Array.getElem?_eq_none hrounds
    exact Or.inl ⟨hempty, hnone hempty k⟩
  | succ rounds ih =>
    unfold expireLoop
    cases hfront : t.heap[0]? with
    | none => exact Or.inl ⟨hfront, hnone hfront k⟩
    | some front =>
      have hsize := size_pop_add_one hfront
      dsimp only
      split
      · next hexpired =>
        rcases ih (k + 1) (h.pop hfront) (by omega) with
          ⟨hempty, hnever⟩ | ⟨m, last, hlast, hstop, hread⟩
        · refine Or.inl ⟨hempty, fun m e hstop => ?_⟩
          rcases (h.stopsAt_iff hfront).mp hstop with ⟨-, -, hleft⟩ | ⟨l, -, -, hstop'⟩
          · exact hleft hexpired
          · exact hnever l e hstop'
        · refine Or.inr ⟨m + 1, last, hlast,
            (h.stopsAt_iff hfront).mpr (Or.inr ⟨m, rfl, hexpired, hstop⟩), ?_⟩
          rw [hread]
          omega
      · next hexpired =>
        exact Or.inr ⟨0, front, hfront,
          (h.stopsAt_iff hfront).mpr (Or.inl ⟨rfl, rfl, hexpired⟩), rfl⟩

/-- **The timeout is not negative**: at the reading after the one at which the
loop stops, the milliseconds left modulo `2^32` are below `2^31`. -/
def TimeoutFits (t : TimerManager C) (clock : ℕ → ℤ) : Prop :=
  ∀ m e, t.StopsAt clock 0 m e →
    (e - clock (m + 1)).tdiv 1000000 % 4294967296 < 2147483648

theorem toInt_setWidth_ofInt (c : ℤ) :
    ((BitVec.ofInt 64 c).setWidth 32).toInt
      = if c % 4294967296 < 2147483648 then c % 4294967296 else c % 4294967296 - 4294967296 := by
  have hnat : (((BitVec.ofInt 64 c).setWidth 32).toNat : ℤ) = c % 4294967296 := by
    rw [BitVec.toNat_setWidth, BitVec.toNat_ofInt]
    omega
  rw [BitVec.toInt_eq_toNat_cond, hnat]
  split <;> split <;> omega

/-- **What is returned of the timers the loop leaves**: `-1` without a timer, and
else the milliseconds left for the timer it stops at, as an `int`. -/
theorem Ordered.nextTimeout_cases (h : t.Ordered) (clock : ℕ → ℤ) :
    ((t.handleExpiredEvent clock).1.heap.size = 0
        ∧ (t.handleExpiredEvent clock).1.nextTimeout (clock (t.handleExpiredEvent clock).2) = -1
        ∧ ∀ m e, ¬ t.StopsAt clock 0 m e)
      ∨ ∃ m e, t.StopsAt clock 0 m e ∧ (t.handleExpiredEvent clock).1.heap.size ≠ 0
        ∧ (t.handleExpiredEvent clock).1.nextTimeout (clock (t.handleExpiredEvent clock).2)
          = ((BitVec.ofInt 64 ((e - clock (m + 1)).tdiv 1000000)).setWidth 32).toInt := by
  unfold handleExpiredEvent nextTimeout
  rcases h.expireLoop_front clock t.heap.size 0 le_rfl with
    ⟨hempty, hnever⟩ | ⟨m, front, hfront, hstop, hread⟩
  · refine Or.inl ⟨Nat.le_zero.mp (Array.getElem?_eq_none_iff.mp hempty), ?_, hnever⟩
    rw [hempty]
    show (BitVec.setWidth 32 (-1 : BitVec 64)).toInt = -1
    decide
  · refine Or.inr ⟨m, front.expire, hstop,
      Nat.ne_of_gt (Array.getElem?_eq_some_iff.mp hfront).1, ?_⟩
    rw [hfront, hread, Nat.zero_add]
    -- no unsigned number is below zero
    exact congrArg (fun res => (BitVec.setWidth 32 res).toInt) (if_neg BitVec.not_lt_zero)

/-- **The timeout waits for the next timer**: it is `-1` exactly without a timer
left, and not negative with one. -/
def WaitsForNext (t : TimerManager C) (res : ℤ) : Prop :=
  (res = -1 ↔ t.heap.size = 0) ∧ (t.heap.size ≠ 0 → 0 ≤ res)

instance (t : TimerManager C) (res : ℤ) : Decidable (t.WaitsForNext res) :=
  inferInstanceAs (Decidable (_ ∧ _))

/-- With the heap in order it does exactly if the milliseconds left at the last
reading of the clock are not negative as an `int`. -/
theorem Ordered.waitsForNext_iff (h : t.Ordered) (clock : ℕ → ℤ) :
    (t.handleExpiredEvent clock).1.WaitsForNext
        ((t.handleExpiredEvent clock).1.nextTimeout (clock (t.handleExpiredEvent clock).2))
      ↔ t.TimeoutFits clock := by
  rcases h.nextTimeout_cases clock with ⟨hsize, hres, hnever⟩ | ⟨m, e, hstop, hsize, hres⟩
  · refine iff_of_true ⟨iff_of_true hres hsize, fun hne => absurd hsize hne⟩ ?_
    exact fun m e hstop => absurd hstop (hnever m e)
  · rw [hres, toInt_setWidth_ofInt]
    constructor
    · rintro ⟨-, hnonneg⟩ m' e' hstop'
      obtain ⟨rfl, rfl⟩ := hstop.unique hstop'
      have hle := hnonneg hsize
      split at hle
      · next hfits => exact hfits
      · omega
    · intro hfits
      rw [if_pos (hfits m e hstop)]
      refine ⟨iff_of_false (fun hneg => ?_) hsize, fun _ => ?_⟩ <;> omega

/-! ## What is read before the heap

`pop` puts the last node in front and sifts it down, and if it is not moved,
`shiftup` is called at the root. With four timers or more the last node comes from
below a child of the root and is not less than it, so it is moved. Of two timers
one is left, which has no child, and of three the third may be the next. So what
stands before the vector matters only where the loop takes one of the last three. -/

open Unguarded (Below)

/-- **What stands before the vector is less than the next timer** when, with so
many timers left, the first of them is taken: if the timers up to it, in the
order in which they expire, are due each at its own reading of the clock. -/
def ClearAt (left : ℕ) (t : TimerManager C) (outside : ℕ → Option ℤ) (clock : ℕ → ℤ)
    (k : ℕ) : Prop :=
  ∀ m e, m + left = t.heap.size → t.expiries[m + 1]? = some e →
    (∀ j ≤ m, ∀ e', t.expiries[j]? = some e' → ¬ 0 < (e' - clock (k + j)).tdiv 1000000) →
    Below (outside (k + m)) e

theorem clearAt_of_lt {left : ℕ} (hlt : t.heap.size < left) (outside : ℕ → Option ℤ)
    (clock : ℕ → ℤ) (k : ℕ) : t.ClearAt left outside clock k :=
  fun _ _ hm => by omega

theorem Ordered.clearAt_of_not_expired (h : t.Ordered) {front : TimeNode C}
    (hfront : t.heap[0]? = some front) {clock : ℕ → ℤ} {k : ℕ}
    (hleft : ¬ front.Expired (clock k)) (left : ℕ) (outside : ℕ → Option ℤ) :
    t.ClearAt left outside clock k := by
  intro m e _ _ hdue
  refine absurd (hdue 0 (Nat.zero_le m) front.expire ?_) hleft
  rw [h.expiries_eq hfront]
  rfl

/-- If it is due, it is the one, or one of those after it is. -/
theorem Ordered.clearAt_iff (h : t.Ordered) {front : TimeNode C}
    (hfront : t.heap[0]? = some front) {clock : ℕ → ℤ} {k : ℕ} (hdue : front.Expired (clock k))
    {left : ℕ} {outside : ℕ → Option ℤ} :
    t.ClearAt left outside clock k
      ↔ (t.heap.size = left → ∀ e, t.expiries[1]? = some e → Below (outside k) e)
        ∧ t.pop.ClearAt left outside clock (k + 1) := by
  have hsize := size_pop_add_one hfront
  have hshift : ∀ l, k + (l + 1) = k + 1 + l := fun l => by omega
  have hexp := h.expiries_eq hfront
  unfold ClearAt
  constructor
  · intro hclear
    refine ⟨fun hleft e he => hclear 0 e (by omega) he (fun j hj e' he' => ?_),
      fun m e hm he hbefore => ?_⟩
    · obtain rfl := Nat.le_zero.mp hj
      rw [hexp] at he'
      exact Option.some.inj he' ▸ hdue
    · rw [← hshift]
      refine hclear (m + 1) e (by omega) (by rw [hexp]; exact he) (fun j hj e' he' => ?_)
      rw [hexp] at he'
      cases j with
      | zero => exact Option.some.inj he' ▸ hdue
      | succ j =>
        rw [hshift]
        exact hbefore j (Nat.le_of_succ_le_succ hj) e' he'
  · rintro ⟨hnow, hlater⟩ m e hm he hbefore
    cases m with
    | zero => exact hnow (by omega) e he
    | succ m =>
      rw [hshift]
      refine hlater m e (by omega) (by rw [hexp] at he; exact he) (fun j hj e' he' => ?_)
      rw [← hshift]
      exact hbefore (j + 1) (Nat.succ_le_succ hj) e' (by rw [hexp]; exact he')

/-- **The third stands first**: once all but three timers are popped, the third
of them expires before the second. With three timers there are, that is
`heap_[2] < heap_[1]`. -/
def ThirdFirst (t : TimerManager C) : Prop :=
  (pop^[t.heap.size - 3] t).expireAt 2 < (pop^[t.heap.size - 3] t).expireAt 1

theorem thirdFirst_pop_iff {front : TimeNode C} (hfront : t.heap[0]? = some front)
    (hmany : 3 < t.heap.size) : t.pop.ThirdFirst ↔ t.ThirdFirst := by
  have hsize := size_pop_add_one hfront
  have hrounds : t.heap.size - 3 = (t.pop.heap.size - 3) + 1 := by omega
  unfold ThirdFirst
  rw [hrounds, Function.iterate_succ_apply]

theorem Ordered.expiries_two (h : t.Ordered) (hsize : t.heap.size = 2) :
    t.expiries[1]? = some (t.expireAt 1) := by
  obtain ⟨⟨l⟩, ref⟩ := t
  obtain ⟨a, b, rfl⟩ := List.length_eq_two.mp hsize
  have hab : a.expire ≤ b.expire := h 1 le_rfl a b rfl rfl
  simp [expiries, expireAt, List.insertionSort, hab]

/-- Of three timers in order, the third is the next if it expires before the
second. -/
theorem Ordered.expiries_three (h : t.Ordered) (hsize : t.heap.size = 3)
    (hlt : t.expireAt 2 < t.expireAt 1) : t.expiries[1]? = some (t.expireAt 2) := by
  obtain ⟨⟨l⟩, ref⟩ := t
  obtain ⟨a, b, c, rfl⟩ := List.length_eq_three.mp hsize
  have hac : a.expire ≤ c.expire := h 2 (by decide) a c rfl rfl
  have hcb : c.expire < b.expire := hlt
  simp [expiries, expireAt, List.insertionSort, hac, not_le.mpr hcb]

theorem thirdFirst_iff (h3 : t.heap.size = 3) : t.ThirdFirst ↔ t.expireAt 2 < t.expireAt 1 := by
  unfold ThirdFirst
  rw [h3]
  exact Iff.rfl

/-- **When `pop` goes on**, by the next timer. -/
theorem Ordered.pop_isSome_iff_next (h : t.Ordered) (outside : Option ℤ)
    (hsize : t.heap.size ≠ 0) :
    (Unguarded.pop outside t).isSome
      ↔ (t.heap.size = 2 → ∀ e, t.expiries[1]? = some e → Below outside e)
        ∧ (t.heap.size = 3 → t.expireAt 2 < t.expireAt 1 →
          ∀ e, t.expiries[1]? = some e → Below outside e) := by
  have hnext : ∀ {x : ℤ}, t.expiries[1]? = some x →
      (Below outside x ↔ ∀ e, t.expiries[1]? = some e → Below outside e) := by
    intro x hx
    rw [hx]
    exact ⟨fun hbelow e he => Option.some.inj he ▸ hbelow, fun hall => hall x rfl⟩
  rw [Unguarded.pop_isSome_iff h hsize]
  refine and_congr ?_ ?_
  · exact forall_congr' (fun h2 => hnext (h.expiries_two h2))
  · exact forall_congr' (fun h3 => forall_congr' (fun hlt => hnext (h.expiries_three h3 hlt)))

/-- **When the loop goes on to its end**: what stands before the vector is less
than the last timer when the last but one is taken, and less than that one when
the one before it is, should the third stand first. -/
theorem Ordered.expireLoop_isSome_iff (outside : ℕ → Option ℤ) (clock : ℕ → ℤ) (rounds k : ℕ)
    (h : t.Ordered) (hrounds : t.heap.size ≤ rounds) :
    (Unguarded.expireLoop outside clock rounds k t).isSome
      ↔ t.ClearAt 2 outside clock k ∧ (t.ThirdFirst → t.ClearAt 3 outside clock k) := by
  induction rounds generalizing k t with
  | zero =>
    exact iff_of_true rfl ⟨clearAt_of_lt (by omega) _ _ _, fun _ => clearAt_of_lt (by omega) _ _ _⟩
  | succ rounds ih =>
    unfold Unguarded.expireLoop
    cases hfront : t.heap[0]? with
    | none =>
      have hsize := Array.getElem?_eq_none_iff.mp hfront
      exact iff_of_true rfl
        ⟨clearAt_of_lt (by omega) _ _ _, fun _ => clearAt_of_lt (by omega) _ _ _⟩
    | some front =>
      dsimp only
      split
      · next hdue =>
        have hsize := size_pop_add_one hfront
        have hpop := h.pop_isSome_iff_next (outside k) (by omega)
        have hrest := ih (k + 1) (h.pop hfront) (by omega)
        rw [Unguarded.isSome_pop_bind, hpop, hrest, h.clearAt_iff hfront hdue,
          h.clearAt_iff hfront hdue]
        constructor
        · rintro ⟨⟨htwo, hthree⟩, hlast, hlater⟩
          refine ⟨⟨htwo, hlast⟩, fun hthird =>
            ⟨fun h3 => hthree h3 ((thirdFirst_iff h3).mp hthird), ?_⟩⟩
          rcases Nat.lt_or_ge 3 t.heap.size with hmany | hfew
          · exact hlater ((thirdFirst_pop_iff hfront hmany).mpr hthird)
          · exact clearAt_of_lt (by omega) _ _ _
        · rintro ⟨⟨htwo, hlast⟩, hlater⟩
          refine ⟨⟨htwo, fun h3 hlt => (hlater ((thirdFirst_iff h3).mpr hlt)).1 h3⟩, hlast,
            fun hthird => ?_⟩
          rcases Nat.lt_or_ge 3 t.heap.size with hmany | hfew
          · exact (hlater ((thirdFirst_pop_iff hfront hmany).mp hthird)).2
          · exact clearAt_of_lt (by omega) _ _ _
      · next hleft =>
        exact iff_of_true rfl ⟨h.clearAt_of_not_expired hfront hleft 2 outside,
          fun _ => h.clearAt_of_not_expired hfront hleft 3 outside⟩

/-- Timers that expire after 0, 1, 10 and 20 ms. -/
def fourTimers : TimerManager Unit :=
  ⟨#[⟨1, 0, ()⟩, ⟨2, ms 1, ()⟩, ⟨3, ms 10, ()⟩, ⟨4, ms 20, ()⟩],
    ((((∅ : AList (fun _ : ℤ => ℕ)).insert 1 0).insert 2 1).insert 3 2).insert 4 3⟩

/-- A timer that expires in 10 ms. -/
def oneTimer : TimerManager Unit := ⟨#[⟨1, ms 10, ()⟩], (∅ : AList (fun _ : ℤ => ℕ)).insert 1 0⟩

/-- **The last but one of the timers is compared with what is no timer**: where
nothing can be read before the vector, taking it does not end. -/
theorem getNextHandle_two_timers {t : TimerManager C} (h : t.Ordered) (hsize : t.heap.size = 2)
    {front : TimeNode C} (hfront : t.heap[0]? = some front) {clock : ℕ → ℤ}
    (hdue : front.Expired (clock 0)) : Unguarded.getNextHandle (fun _ => none) clock t = none := by
  have hnot : ¬ t.ClearAt 2 (fun _ => none) clock 0 := by
    intro hclear
    exact ((h.clearAt_iff hfront hdue).mp hclear).1 hsize _ (h.expiries_two hsize)
  have hloop := (h.expireLoop_isSome_iff (fun _ => none) clock t.heap.size 0 le_rfl).not.mpr
    (fun hclear => hnot hclear.1)
  unfold Unguarded.getNextHandle Unguarded.handleExpiredEvent
  rw [Option.not_isSome_iff_eq_none.mp hloop]
  rfl

end TimerManager

end MiniDcs
