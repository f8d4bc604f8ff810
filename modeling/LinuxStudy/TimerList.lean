import LinuxStudy.Links
import LinuxStudy.Runs
import Mathlib.Data.Int.Notation

/-!
# The list of timers

`sort_timer_lst` keeps the timers of the connections in a doubly linked list in
the order they expire, with a null pointer at either end and pointers to the first
and the last. A timer is put in where it belongs, moved further behind when its
connection was active, and taken out with its connection; `tick` goes from the
front and calls back the timers that are due.

Pointers are numbers, and `0` is the null pointer. An access through a pointer to
no timer, be it null or deleted, is not defined; the loops are given a number of
rounds.
-/

namespace TinyWeb

/-- **`sort_timer_lst`**, and the timers in the memory. -/
structure TimerLst where
  head : ℕ
  tail : ℕ
  next : ℕ → ℕ
  prev : ℕ → ℕ
  expire : ℕ → ℤ
  /-- The timers that are allocated. -/
  live : ℕ → Bool

namespace TimerLst

/-- The null pointer. -/
abbrev null : ℕ := 0

/-- The constructor. -/
def new : TimerLst := ⟨null, null, fun _ => null, fun _ => null, fun _ => 0, fun _ => false⟩

/-- `p->next`. -/
def getNext (s : TimerLst) (p : ℕ) : Option ℕ := if s.live p then some (s.next p) else none

/-- `p->prev`. -/
def getPrev (s : TimerLst) (p : ℕ) : Option ℕ := if s.live p then some (s.prev p) else none

/-- `p->expire`. -/
def getExpire (s : TimerLst) (p : ℕ) : Option ℤ := if s.live p then some (s.expire p) else none

/-- `p->next = q`. -/
def setNext (s : TimerLst) (p q : ℕ) : Option TimerLst :=
  if s.live p then some { s with next := Function.update s.next p q } else none

/-- `p->prev = q`. -/
def setPrev (s : TimerLst) (p q : ℕ) : Option TimerLst :=
  if s.live p then some { s with prev := Function.update s.prev p q } else none

/-- `p->expire = t`. -/
def setExpire (s : TimerLst) (p : ℕ) (t : ℤ) : Option TimerLst :=
  if s.live p then some { s with expire := Function.update s.expire p t } else none

/-- `new util_timer`, at an address where there is none. -/
def newTimer (s : TimerLst) (p : ℕ) : Option TimerLst :=
  if p = null ∨ s.live p then none
  else some { s with
    next := Function.update s.next p null
    prev := Function.update s.prev p null
    live := Function.update s.live p true }

/-- `delete p`. -/
def delete (s : TimerLst) (p : ℕ) : Option TimerLst :=
  if s.live p then some { s with live := Function.update s.live p false } else none

/-- The loop of the second `add_timer`, and what follows it. -/
def addTimerLoop (timer : ℕ) : ℕ → TimerLst → ℕ → ℕ → Option TimerLst
  | 0, _, _, _ => none
  | rounds + 1, s, prev, tmp =>
    if tmp = null then do
      let s ← s.setNext prev timer
      let s ← s.setPrev timer prev
      let s ← s.setNext timer null
      return { s with tail := timer }
    else do
      if (← s.getExpire timer) < (← s.getExpire tmp) then
        let s ← s.setNext prev timer
        let s ← s.setNext timer tmp
        let s ← s.setPrev tmp timer
        s.setPrev timer prev
      else addTimerLoop timer rounds s tmp (← s.getNext tmp)

/-- The second **`add_timer`**. -/
def addTimerBehind (rounds : ℕ) (s : TimerLst) (timer lstHead : ℕ) : Option TimerLst := do
  addTimerLoop timer rounds s lstHead (← s.getNext lstHead)

/-- **`add_timer`.** -/
def addTimer (rounds : ℕ) (s : TimerLst) (timer : ℕ) : Option TimerLst :=
  if timer = null then some s
  else if s.head = null then some { s with head := timer, tail := timer }
  else do
    if (← s.getExpire timer) < (← s.getExpire s.head) then
      let s ← s.setNext timer s.head
      let s ← s.setPrev s.head timer
      return { s with head := timer }
    else s.addTimerBehind rounds timer s.head

/-- **`adjust_timer`.** -/
def adjustTimer (rounds : ℕ) (s : TimerLst) (timer : ℕ) : Option TimerLst := do
  if timer = null then return s
  let tmp ← s.getNext timer
  if tmp = null then return s
  if (← s.getExpire timer) < (← s.getExpire tmp) then return s
  if timer = s.head then
    let s := { s with head := ← s.getNext s.head }
    let s ← s.setPrev s.head null
    let s ← s.setNext timer null
    s.addTimerBehind rounds timer s.head
  else
    let s ← s.setNext (← s.getPrev timer) (← s.getNext timer)
    let s ← s.setPrev (← s.getNext timer) (← s.getPrev timer)
    s.addTimerBehind rounds timer (← s.getNext timer)

/-- **`del_timer`.** -/
def delTimer (s : TimerLst) (timer : ℕ) : Option TimerLst := do
  if timer = null then return s
  if timer = s.head ∧ timer = s.tail then
    let s ← s.delete timer
    return { s with head := null, tail := null }
  else if timer = s.head then
    let s := { s with head := ← s.getNext s.head }
    let s ← s.setPrev s.head null
    s.delete timer
  else if timer = s.tail then
    let s := { s with tail := ← s.getPrev s.tail }
    let s ← s.setNext s.tail null
    s.delete timer
  else
    let s ← s.setNext (← s.getPrev timer) (← s.getNext timer)
    let s ← s.setPrev (← s.getNext timer) (← s.getPrev timer)
    s.delete timer

/-- The loop of `tick`, with the timers that are called back. The pointer to the
last timer is left as it is. -/
def tickLoop (cur : ℤ) : ℕ → TimerLst → ℕ → Option (List ℕ × TimerLst)
  | 0, _, _ => none
  | rounds + 1, s, tmp =>
    if tmp = null then some ([], s)
    else do
      if cur < (← s.getExpire tmp) then return ([], s)
      let s := { s with head := ← s.getNext tmp }
      let s ← if s.head = null then some s else s.setPrev s.head null
      let s ← s.delete tmp
      let (fired, s) ← tickLoop cur rounds s s.head
      return (tmp :: fired, s)

/-- **`tick`.** -/
def tick (rounds : ℕ) (s : TimerLst) (cur : ℤ) : Option (List ℕ × TimerLst) :=
  if s.head = null then some ([], s) else tickLoop cur rounds s s.head

/-! ## The list that is read

Null stands before the first timer and behind the last, so the list is a ring
through it, whose links are `head` and `tail`. `tick` deletes timers from the
front and sets `head`; when it deletes the last one, `tail` is left pointing to
it. Nothing looks at `tail` then before a new timer sets it, so it is no part of
what is read of an empty list. -/

variable {s s' : TimerLst} {l l₁ l₂ : List ℕ} {t p cur : ℕ} {rounds : ℕ}

/-- The links, through the null pointer. Without a first timer the pointer to the
last one is not looked at. -/
def ring (s : TimerLst) : Links ℕ where
  next z := if z = null then s.head else s.next z
  prev z := if z = null then if s.head = null then null else s.tail else s.prev z

/-- **The timers of the list**, in the order of the links. -/
structure Reads (s : TimerLst) (l : List ℕ) : Prop where
  linked : s.ring.Linked null l null
  nodup : l.Nodup
  live : ∀ t ∈ l, s.live t = true
  notNull : null ∉ l

/-- Where a timer belongs: behind those that do not expire later. -/
def insertTimer (expire : ℕ → ℤ) (t : ℕ) : List ℕ → List ℕ
  | [] => [t]
  | u :: l => if expire t < expire u then t :: u :: l else u :: insertTimer expire t l

theorem reads_new : new.Reads [] where
  linked := ⟨rfl, rfl⟩
  nodup := List.nodup_nil
  live _ ht := absurd ht List.not_mem_nil
  notNull := List.not_mem_nil

namespace Reads

theorem head_eq (h : s.Reads l) : s.head = l.headD null := by
  cases l with
  | nil => exact h.linked.1
  | cons t l => exact h.linked.1.1

/-- The timer behind a timer. -/
theorem next_eq (h : s.Reads (l₁ ++ t :: l₂)) : s.next t = l₂.headD null := by
  have hne : t ≠ null := by
    rintro rfl
    exact h.notNull (List.mem_append_right _ List.mem_cons_self)
  have hback := (Links.linked_append.mp h.linked).2
  have hring : s.ring.next t = s.next t := if_neg hne
  rw [← hring]
  cases l₂ with
  | nil => exact hback.1
  | cons u l₂ => exact hback.1.1

/-- The timer before a timer. -/
theorem prev_eq (h : s.Reads (l₁ ++ t :: l₂)) : s.prev t = l₁.getLastD null := by
  have hne : t ≠ null := by
    rintro rfl
    exact h.notNull (List.mem_append_right _ List.mem_cons_self)
  have hfront := (Links.linked_append.mp h.linked).1
  have hring : s.ring.prev t = s.prev t := if_neg hne
  rw [← hring]
  rcases List.eq_nil_or_concat' l₁ with rfl | ⟨l₁, u, rfl⟩
  · exact hfront.2
  · rw [hfront.prev_end, List.getLastD_concat]

theorem tail_eq (h : s.Reads (l ++ [t])) : s.tail = t := by
  have hprev := h.linked.prev_end
  have hhead : s.head ≠ null := by
    rw [h.head_eq]
    intro hnull
    cases l with
    | nil => exact h.notNull (hnull ▸ List.mem_cons_self)
    | cons u l => exact h.notNull (hnull ▸ List.mem_cons_self)
  rw [← hprev]
  unfold ring
  simp only [if_true, if_neg hhead]

theorem of_ring {L : Links ℕ} (hlinked : L.Linked null l null) (hnodup : l.Nodup)
    (hlive : ∀ t ∈ l, s.live t = true) (hnull : null ∉ l)
    (hnext : ∀ z ∈ null :: l, s.ring.next z = L.next z)
    (hprev : ∀ z ∈ null :: l, s.ring.prev z = L.prev z) : s.Reads l :=
  ⟨hlinked.congr hnext hprev, hnodup, hlive, hnull⟩

end Reads

/-! ## A timer is put in -/

/-- **A timer put behind another.** -/
theorem Reads.behind (h : s.Reads (l₁ ++ p :: l₂)) (ht : t ≠ null) (hmem : t ∉ l₁ ++ p :: l₂)
    (hlive : s.live t = true) (hnext : s'.next = Function.update (Function.update s.next p t) t
      (l₂.headD null)) (hprev : ∀ z ∈ l₁ ++ p :: t :: l₂, s'.prev z =
        if z = t then p else if z = l₂.headD null then t else s.prev z)
    (hhead : s'.head = s.head) (htail : s'.tail = if l₂ = [] then t else s.tail)
    (hlives : s'.live = s.live) : s'.Reads (l₁ ++ p :: t :: l₂) := by
  have hperm : (l₁ ++ p :: t :: l₂).Perm (t :: (l₁ ++ p :: l₂)) := by
    rw [show l₁ ++ p :: t :: l₂ = (l₁ ++ [p]) ++ t :: l₂ by simp,
      show l₁ ++ p :: l₂ = (l₁ ++ [p]) ++ l₂ by simp]
    exact List.perm_middle
  have hp : p ≠ null := by
    rintro rfl
    exact h.notNull (List.mem_append_right _ List.mem_cons_self)
  have htp : t ≠ p := by
    rintro rfl
    exact hmem (List.mem_append_right _ List.mem_cons_self)
  have htn : t ≠ l₂.headD null := by
    cases l₂ with
    | nil => exact ht
    | cons u l₂ =>
      rintro rfl
      exact hmem (by simp)
  have hhead' : s.head ≠ null := by
    rw [h.head_eq]
    intro hnull
    cases l₁ with
    | nil => exact hp hnull
    | cons u l₁ => exact h.notNull (hnull ▸ List.mem_cons_self)
  have hnextp : s.ring.next p = l₂.headD null := (if_neg hp).trans h.next_eq
  refine Reads.of_ring (h.linked.linkAfter_mid (x := t) h.notNull h.notNull h.nodup ht ht hmem)
    ((hperm.nodup_iff).mpr (List.nodup_cons.mpr ⟨hmem, h.nodup⟩)) (fun z hz => ?_) (fun hz => ?_)
    (fun z hz => ?_) (fun z hz => ?_)
  · rw [hlives]
    rcases List.mem_cons.mp (hperm.subset hz) with rfl | hz
    · exact hlive
    · exact h.live z hz
  · rcases List.mem_cons.mp (hperm.subset hz) with heq | hz
    · exact ht heq.symm
    · exact h.notNull hz
  · show _ = Function.update (Function.update s.ring.next t (s.ring.next p)) p t z
    rw [hnextp]
    by_cases hz0 : z = null
    · rw [hz0, Function.update_of_ne hp.symm, Function.update_of_ne ht.symm]
      exact hhead
    have hz' : s'.ring.next z = s'.next z := if_neg hz0
    rw [hz', hnext]
    by_cases hzp : z = p
    · rw [hzp, Function.update_self, Function.update_of_ne htp.symm, Function.update_self]
    rw [Function.update_of_ne hzp]
    by_cases hzt : z = t
    · rw [hzt, Function.update_self, Function.update_self]
    · rw [Function.update_of_ne hzt, Function.update_of_ne hzp, Function.update_of_ne hzt]
      exact (if_neg hz0).symm
  · show _ = Function.update (Function.update s.ring.prev t p) (s.ring.next p) t z
    rw [hnextp]
    by_cases hz0 : z = null
    · have hlast : s'.ring.prev null = s'.tail := by
        unfold ring
        simp only [if_true]
        exact if_neg (hhead ▸ hhead')
      have hring : s.ring.prev null = s.tail := by
        unfold ring
        simp only [if_true]
        exact if_neg hhead'
      rw [hz0, hlast, htail]
      cases l₂ with
      | nil => rw [if_pos rfl, List.headD_nil, Function.update_self]
      | cons u l₂ =>
        have hu : null ≠ u := fun hu => h.notNull (hu ▸ by simp)
        rw [if_neg (List.cons_ne_nil u l₂), List.headD_cons, Function.update_of_ne hu,
          Function.update_of_ne ht.symm, hring]
    rw [show s'.ring.prev z = s'.prev z from if_neg hz0,
      hprev z ((List.mem_cons.mp hz).resolve_left hz0)]
    by_cases hzt : z = t
    · rw [if_pos hzt, hzt, Function.update_of_ne htn, Function.update_self]
    rw [if_neg hzt]
    by_cases hzn : z = l₂.headD null
    · rw [if_pos hzn, hzn, Function.update_self]
    · rw [if_neg hzn, Function.update_of_ne hzn, Function.update_of_ne hzt]
      exact (if_neg hz0).symm

/-- The loop of `add_timer` puts the timer where it belongs, among those that come
behind. -/
theorem addTimerLoop_spec (h : s.Reads (l₁ ++ p :: l₂)) (ht : t ≠ null)
    (hmem : t ∉ l₁ ++ p :: l₂) (hlive : s.live t = true) (hrounds : l₂.length < rounds) :
    ∃ s', addTimerLoop t rounds s p (l₂.headD null) = some s' ∧
      s'.Reads (l₁ ++ p :: insertTimer s.expire t l₂) ∧ s'.expire = s.expire ∧
      s'.live = s.live := by
  induction l₂ generalizing l₁ p rounds with
  | nil =>
    obtain ⟨rounds, rfl⟩ : ∃ r, rounds = r + 1 := ⟨rounds - 1, by omega⟩
    have hp : s.live p = true := h.live p (by simp)
    refine ⟨{ s with
        next := Function.update (Function.update s.next p t) t null
        prev := Function.update s.prev t p
        tail := t }, ?_, ?_, rfl, rfl⟩
    · simp [addTimerLoop, setNext, setPrev, hp, hlive]
    · refine h.behind ht hmem hlive rfl (fun z hz => ?_) rfl (if_pos rfl).symm rfl
      have hz0 : z ≠ null := by
        rintro rfl
        rcases List.mem_append.mp hz with hz | hz
        · exact h.notNull (List.mem_append_left _ hz)
        · simp only [List.mem_cons, List.not_mem_nil, or_false] at hz
          rcases hz with hz | hz
          · exact h.notNull (by simp [hz])
          · exact ht hz.symm
      show Function.update s.prev t p z = _
      rw [Function.update_apply, List.headD_nil, if_neg hz0]
  | cons u l₂ ih =>
    obtain ⟨rounds, rfl⟩ : ∃ r, rounds = r + 1 := ⟨rounds - 1, by omega⟩
    have hp : s.live p = true := h.live p (by simp)
    have hu : s.live u = true := h.live u (by simp)
    have hu0 : u ≠ null := fun hu => h.notNull (hu ▸ by simp)
    unfold insertTimer
    by_cases hlt : s.expire t < s.expire u
    · rw [if_pos hlt]
      refine ⟨{ s with
          next := Function.update (Function.update s.next p t) t u
          prev := Function.update (Function.update s.prev u t) t p }, ?_, ?_, rfl, rfl⟩
      · simp [addTimerLoop, setNext, setPrev, getExpire, hp, hu, hlive, hlt, hu0]
      · refine h.behind ht hmem hlive rfl (fun z _ => ?_) rfl (if_neg (List.cons_ne_nil u l₂)).symm
          rfl
        show Function.update (Function.update s.prev u t) t p z = _
        rw [Function.update_apply, Function.update_apply, List.headD_cons]
    · rw [if_neg hlt]
      have hsplit : l₁ ++ p :: u :: l₂ = (l₁ ++ [p]) ++ u :: l₂ := by simp
      have hnext : s.next u = l₂.headD null := by
        rw [hsplit] at h
        exact h.next_eq
      rw [hsplit] at h hmem
      obtain ⟨s', hloop, hreads, hexpire, hlives⟩ :=
        ih h hmem (Nat.lt_of_succ_lt_succ hrounds)
      refine ⟨s', ?_, ?_, hexpire, hlives⟩
      · rw [← hloop]
        conv_lhs => unfold addTimerLoop
        simp [getExpire, getNext, hu, hlive, hlt, hu0, hnext]
      · rw [show l₁ ++ p :: u :: insertTimer s.expire t l₂
          = (l₁ ++ [p]) ++ u :: insertTimer s.expire t l₂ by simp]
        exact hreads

/-- **`add_timer` puts the timer where it belongs.** -/
theorem addTimer_spec (h : s.Reads l) (ht : t ≠ null) (hmem : t ∉ l) (hlive : s.live t = true)
    (hnext : s.next t = null) (hprev : s.prev t = null) (hrounds : l.length < rounds) :
    ∃ s', s.addTimer rounds t = some s' ∧ s'.Reads (insertTimer s.expire t l) ∧
      s'.expire = s.expire ∧ s'.live = s.live := by
  have hhead := h.head_eq
  cases l with
  | nil =>
    refine ⟨{ s with head := t, tail := t }, ?_, ⟨⟨⟨rfl, ?_⟩, ?_, ?_⟩, ?_, ?_, ?_⟩, rfl, rfl⟩
    · unfold addTimer
      exact (if_neg ht).trans (if_pos hhead)
    · exact (if_neg ht).trans hprev
    · exact (if_neg ht).trans hnext
    · unfold ring
      simp only [if_true]
      exact if_neg ht
    · exact List.nodup_singleton t
    · exact fun z hz => List.mem_singleton.mp hz ▸ hlive
    · exact fun hz => ht (List.mem_singleton.mp hz).symm
  | cons u l =>
    have hu : s.live u = true := h.live u (by simp)
    have hu0 : u ≠ null := fun hu => h.notNull (hu ▸ by simp)
    rw [List.headD_cons] at hhead
    unfold insertTimer
    by_cases hlt : s.expire t < s.expire u
    · rw [if_pos hlt]
      have htu : t ≠ u := fun htu => hmem (htu ▸ List.mem_cons_self)
      have hfirst : s.ring.next null = u := hhead
      have hlinked := h.linked.linkAfter h.notNull h.notNull h.nodup ht ht hmem
      refine ⟨{ s with
          next := Function.update s.next t u
          prev := Function.update s.prev u t
          head := t }, ?_, Reads.of_ring hlinked (List.nodup_cons.mpr ⟨hmem, h.nodup⟩)
          (fun z hz => ?_) (fun hz => ?_) (fun z _ => ?_) (fun z _ => ?_), rfl, rfl⟩
      · simp [addTimer, setNext, setPrev, getExpire, ht, hhead, hu, hu0, hlive, hlt]
      · rcases List.mem_cons.mp hz with rfl | hz
        · exact hlive
        · exact h.live z hz
      · rcases List.mem_cons.mp hz with heq | hz
        · exact ht heq.symm
        · exact h.notNull hz
      · show _ = Function.update (Function.update s.ring.next t (s.ring.next null)) null t z
        rw [hfirst]
        by_cases hz0 : z = null
        · rw [hz0, Function.update_self]
          rfl
        rw [Function.update_of_ne hz0]
        refine (if_neg hz0).trans ?_
        show Function.update s.next t u z = _
        rw [Function.update_apply, Function.update_apply]
        exact if_congr Iff.rfl rfl (if_neg hz0).symm
      · show _ = Function.update (Function.update s.ring.prev t null) (s.ring.next null) t z
        rw [hfirst]
        by_cases hz0 : z = null
        · rw [hz0, Function.update_of_ne hu0.symm, Function.update_of_ne ht.symm]
          unfold ring
          simp only [if_true]
          rw [if_neg ht, if_neg (hhead ▸ hu0)]
        refine (if_neg hz0).trans ?_
        show Function.update s.prev u t z = _
        rw [Function.update_apply, Function.update_apply, Function.update_apply]
        refine if_congr Iff.rfl rfl ?_
        split
        · next hzt => rw [hzt, hprev]
        · exact (if_neg hz0).symm
    · rw [if_neg hlt]
      obtain ⟨s', hloop, hreads, hexpire, hlives⟩ :=
        addTimerLoop_spec (show s.Reads ([] ++ u :: l) from h) ht hmem hlive
          (show l.length < rounds from Nat.lt_of_succ_lt hrounds)
      refine ⟨s', ?_, hreads, hexpire, hlives⟩
      have hnextu : s.next u = l.headD null := (show s.Reads ([] ++ u :: l) from h).next_eq
      simp [-List.headD_eq_head?_getD, addTimer, addTimerBehind, getExpire, getNext, ht, hhead,
        hu, hu0, hlive, hlt, hnextu, hloop]

/-! ## A timer is taken out -/

/-- **A timer taken out.** -/
theorem Reads.without (h : s.Reads (l₁ ++ t :: l₂))
    (hnext : ∀ z ∈ l₁ ++ l₂, s'.next z = if z = l₁.getLastD null then l₂.headD null else s.next z)
    (hprev : ∀ z ∈ l₁ ++ l₂, s'.prev z = if z = l₂.headD null then l₁.getLastD null else s.prev z)
    (hhead : s'.head = if l₁ = [] then l₂.headD null else s.head)
    (htail : l₁ ++ l₂ ≠ [] → s'.tail = if l₂ = [] then l₁.getLastD null else s.tail)
    (hlives : ∀ z ∈ l₁ ++ l₂, s'.live z = s.live z) : s'.Reads (l₁ ++ l₂) := by
  have hsub : (l₁ ++ l₂).Sublist (l₁ ++ t :: l₂) :=
    (List.Sublist.refl l₁).append (List.sublist_cons_self t l₂)
  have ht : t ≠ null := by
    rintro rfl
    exact h.notNull (by simp)
  have hringnext : s.ring.next t = l₂.headD null := (if_neg ht).trans h.next_eq
  have hringprev : s.ring.prev t = l₁.getLastD null := (if_neg ht).trans h.prev_eq
  have hhead' : s.head ≠ null := by
    rw [h.head_eq]
    cases l₁ with
    | nil => exact ht
    | cons u l₁ => exact fun hu => h.notNull (hu ▸ List.mem_cons_self)
  have hfirst : l₂.headD null = null ↔ l₂ = [] := by
    cases l₂ with
    | nil => simp
    | cons u l₂ => exact iff_of_false (fun hu => h.notNull (hu ▸ by simp)) (List.cons_ne_nil _ _)
  have hlast : l₁.getLastD null = null ↔ l₁ = [] := by
    rcases List.eq_nil_or_concat' l₁ with rfl | ⟨l₁, u, rfl⟩
    · simp
    · rw [List.getLastD_concat]
      exact iff_of_false (fun hu => h.notNull (hu ▸ by simp)) (by simp)
  refine Reads.of_ring (h.linked.unlink h.notNull h.notNull h.nodup) (h.nodup.sublist hsub)
    (fun z hz => (hlives z hz).trans (h.live z (hsub.subset hz)))
    (fun hz => h.notNull (hsub.subset hz)) (fun z hz => ?_) (fun z hz => ?_)
  · show _ = Function.update s.ring.next (s.ring.prev t) (s.ring.next t) z
    rw [hringnext, hringprev, Function.update_apply]
    by_cases hz0 : z = null
    · rw [hz0]
      show s'.head = if null = l₁.getLastD null then l₂.headD null else s.head
      rw [hhead]
      exact if_congr (hlast.symm.trans eq_comm) rfl rfl
    · refine (if_neg hz0).trans ((hnext z ((List.mem_cons.mp hz).resolve_left hz0)).trans ?_)
      exact if_congr Iff.rfl rfl (if_neg hz0).symm
  · show _ = Function.update s.ring.prev (s.ring.next t) (s.ring.prev t) z
    rw [hringnext, hringprev, Function.update_apply]
    by_cases hz0 : z = null
    · rw [hz0]
      show (if s'.head = null then null else s'.tail)
        = if null = l₂.headD null then l₁.getLastD null
          else if s.head = null then null else s.tail
      rw [if_neg hhead']
      by_cases hnil : l₁ ++ l₂ = []
      · obtain ⟨rfl, rfl⟩ := List.append_eq_nil_iff.mp hnil
        rw [hhead, if_pos rfl]
        exact (if_pos rfl).trans (if_pos rfl).symm
      · have hne : s'.head ≠ null := by
          rw [hhead]
          split
          · next hl₁ =>
            subst hl₁
            exact fun hnull => hnil (hfirst.mp hnull)
          · exact hhead'
        rw [if_neg hne, htail hnil]
        exact if_congr (hfirst.symm.trans eq_comm) rfl rfl
    · refine (if_neg hz0).trans ((hprev z ((List.mem_cons.mp hz).resolve_left hz0)).trans ?_)
      exact if_congr Iff.rfl rfl (if_neg hz0).symm

theorem Reads.ne_of_mem (h : s.Reads (l₁ ++ t :: l₂)) {z : ℕ} (hz : z ∈ l₁ ++ l₂) :
    z ≠ t ∧ z ≠ null := by
  have hnodup := List.nodup_middle.mp h.nodup
  refine ⟨fun heq => (List.nodup_cons.mp hnodup).1 (heq ▸ hz), fun heq => h.notNull ?_⟩
  rcases List.mem_append.mp hz with hz | hz
  · exact List.mem_append_left _ (heq ▸ hz)
  · exact List.mem_append_right _ (List.mem_cons_of_mem _ (heq ▸ hz))

/-- **`del_timer` takes the timer out**, and deletes it. -/
theorem delTimer_spec (h : s.Reads (l₁ ++ t :: l₂)) :
    ∃ s', s.delTimer t = some s' ∧ s'.Reads (l₁ ++ l₂) ∧ s'.expire = s.expire ∧
      s'.live = Function.update s.live t false := by
  have hlive : s.live t = true := h.live t (by simp)
  have ht : t ≠ null := by
    rintro rfl
    exact h.notNull (by simp)
  have hnext := h.next_eq
  have hprev := h.prev_eq
  have hhead := h.head_eq
  have hlives : ∀ z ∈ l₁ ++ l₂, Function.update s.live t false z = s.live z :=
    fun z hz => Function.update_of_ne (h.ne_of_mem hz).1 _ _
  rcases List.eq_nil_or_concat' l₁ with rfl | ⟨l₁, p, rfl⟩
  · rw [List.nil_append, List.headD_cons] at hhead
    cases l₂ with
    | nil =>
      have htail : s.tail = t := h.tail_eq (l := [])
      refine ⟨{ s with live := Function.update s.live t false, head := null, tail := null }, ?_,
        h.without (fun z hz => ?_) (fun z hz => ?_) rfl (fun hne => absurd rfl hne) hlives, rfl,
        rfl⟩
      · simp [delTimer, delete, ht, hhead, htail, hlive]
      · exact absurd hz List.not_mem_nil
      · exact absurd hz List.not_mem_nil
    | cons n l₂ =>
      have htail : t ≠ s.tail := by
        obtain ⟨m, u, hmu⟩ : ∃ m u, n :: l₂ = m ++ [u] :=
          (List.eq_nil_or_concat' (n :: l₂)).resolve_left (List.cons_ne_nil _ _)
        rw [hmu] at h
        rw [Reads.tail_eq (l := t :: m) (by simpa using h)]
        exact ((show s.Reads ([] ++ t :: (m ++ [u])) from h).ne_of_mem (by simp)).1.symm
      have hn : s.live n = true := h.live n (by simp)
      have hnt : n ≠ t := (h.ne_of_mem (by simp)).1
      rw [List.headD_cons] at hnext
      refine ⟨{ s with
          live := Function.update s.live t false
          head := n
          prev := Function.update s.prev n null }, ?_,
        h.without (fun z hz => ?_) (fun z _ => ?_) rfl (fun _ => rfl) hlives, rfl, rfl⟩
      · simp [delTimer, delete, ht, getNext, setPrev, hhead, htail, hlive, hn, hnext]
      · rw [List.getLastD_nil, if_neg (h.ne_of_mem hz).2]
      · exact Function.update_apply _ _ _ _
  · have hheadt : t ≠ s.head := by
      rw [hhead]
      cases l₁ with
      | nil => exact (h.ne_of_mem (by simp)).1.symm
      | cons u l₁ => exact (h.ne_of_mem (z := u) (by simp)).1.symm
    have hp : s.live p = true := h.live p (by simp)
    have hpt : p ≠ t := (h.ne_of_mem (by simp)).1
    have hnil : l₁ ++ [p] ≠ [] := by simp
    rw [List.getLastD_concat] at hprev
    cases l₂ with
    | nil =>
      have htail : s.tail = t := h.tail_eq
      refine ⟨{ s with
          live := Function.update s.live t false
          tail := p
          next := Function.update s.next p null }, ?_,
        h.without (fun z _ => ?_) (fun z hz => ?_) (if_neg hnil).symm (fun _ => ?_) hlives, rfl,
        rfl⟩
      · have hheadt' : s.tail ≠ s.head := htail ▸ hheadt
        simp [delTimer, delete, ht, getPrev, setNext, hheadt, htail, hlive, hp, hprev]
      · rw [List.getLastD_concat]
        exact Function.update_apply _ _ _ _
      · rw [List.headD_nil, if_neg (h.ne_of_mem hz).2]
      · rw [if_pos rfl, List.getLastD_concat]
    | cons n l₂ =>
      have htail : t ≠ s.tail := by
        obtain ⟨m, u, hmu⟩ : ∃ m u, n :: l₂ = m ++ [u] :=
          (List.eq_nil_or_concat' (n :: l₂)).resolve_left (List.cons_ne_nil _ _)
        rw [hmu] at h
        rw [Reads.tail_eq (l := l₁ ++ [p] ++ t :: m) (by simpa using h)]
        exact (h.ne_of_mem (z := u) (by simp)).1.symm
      have hn : s.live n = true := h.live n (by simp)
      have hnt : n ≠ t := (h.ne_of_mem (by simp)).1
      rw [List.headD_cons] at hnext
      refine ⟨{ s with
          live := Function.update s.live t false
          next := Function.update s.next p n
          prev := Function.update s.prev n p }, ?_,
        h.without (fun z _ => ?_) (fun z _ => ?_) (if_neg hnil).symm
          (fun _ => (if_neg (List.cons_ne_nil n l₂)).symm) hlives, rfl, rfl⟩
      · simp [delTimer, delete, ht, getNext, getPrev, setNext, setPrev, hheadt, htail, hlive, hp,
          hn, hnext, hprev, Function.update_of_ne hpt.symm]
      · rw [List.getLastD_concat]
        exact Function.update_apply _ _ _ _
      · rw [List.getLastD_concat]
        exact Function.update_apply _ _ _ _

/-! ## A timer is moved, and timers are called back

`adjust_timer` leaves a timer where it is if the one behind it is later. Otherwise
it takes it out and puts it in again behind where it was, which is right only for
a time that was moved behind. -/

/-- **`adjust_timer` moves the timer** behind those that do not expire later. -/
theorem adjustTimer_spec (h : s.Reads (l₁ ++ t :: l₂)) (hrounds : l₂.length < rounds) :
    ∃ s', s.adjustTimer rounds t = some s' ∧ s'.Reads (l₁ ++ insertTimer s.expire t l₂) ∧
      s'.expire = s.expire ∧ s'.live = s.live := by
  have hlive : s.live t = true := h.live t (by simp)
  have ht : t ≠ null := by
    rintro rfl
    exact h.notNull (by simp)
  have hnext := h.next_eq
  have hprev := h.prev_eq
  have hhead := h.head_eq
  cases l₂ with
  | nil => exact ⟨s, by simp [adjustTimer, getNext, hlive, hnext], h, rfl, rfl⟩
  | cons u l₂ =>
    have hu : s.live u = true := h.live u (by simp)
    obtain ⟨hut, hu0⟩ := h.ne_of_mem (z := u) (by simp)
    rw [List.headD_cons] at hnext
    unfold insertTimer
    by_cases hlt : s.expire t < s.expire u
    · rw [if_pos hlt]
      exact ⟨s, by simp [adjustTimer, getNext, getExpire, hlive, hu, hnext, hlt], h, rfl, rfl⟩
    rw [if_neg hlt]
    have hmem : t ∉ l₁ ++ u :: l₂ := fun hmem => (h.ne_of_mem hmem).1 rfl
    have hnextu : s.next u = l₂.headD null := by
      have hsplit : l₁ ++ t :: u :: l₂ = (l₁ ++ [t]) ++ u :: l₂ := by simp
      rw [hsplit] at h
      exact h.next_eq
    have hrounds' : l₂.length < rounds := Nat.lt_of_succ_lt hrounds
    rcases List.eq_nil_or_concat' l₁ with rfl | ⟨l₁, p, rfl⟩
    · rw [List.nil_append, List.headD_cons] at hhead
      have hreads : ({ s with
          head := u
          prev := Function.update s.prev u null
          next := Function.update s.next t null } : TimerLst).Reads (u :: l₂) := by
        refine Reads.without (show s.Reads ([] ++ t :: u :: l₂) from h) (fun z hz => ?_)
          (fun z _ => Function.update_apply _ _ _ _) rfl (fun _ => rfl) (fun _ _ => rfl)
        obtain ⟨hzt, hz0⟩ := h.ne_of_mem hz
        exact (Function.update_of_ne hzt _ _).trans (if_neg hz0).symm
      obtain ⟨s', hloop, hreads', hexpire, hlives⟩ :=
        addTimerLoop_spec (show Reads _ ([] ++ u :: l₂) from hreads) ht hmem hlive hrounds'
      refine ⟨s', ?_, hreads', hexpire, hlives⟩
      rw [← hloop]
      simp [-List.headD_eq_head?_getD, adjustTimer, addTimerBehind, getNext, getExpire, setNext,
        setPrev, ht, hlive, hu, hnext, hlt, hhead, hnextu, hu0, Function.update_of_ne hut]
    · have hheadt : t ≠ s.head := by
        rw [hhead]
        cases l₁ with
        | nil => exact (h.ne_of_mem (by simp)).1.symm
        | cons v l₁ => exact (h.ne_of_mem (z := v) (by simp)).1.symm
      have hp : s.live p = true := h.live p (by simp)
      have hpt : p ≠ t := (h.ne_of_mem (by simp)).1
      have hpu : p ≠ u := by
        have hnodup := h.nodup
        rw [List.append_assoc] at hnodup
        exact (List.nodup_append.mp hnodup).2.1 |> fun hn =>
          fun heq => (List.nodup_cons.mp hn).1 (by simp [heq])
      rw [List.getLastD_concat] at hprev
      have hreads : ({ s with
          next := Function.update s.next p u
          prev := Function.update s.prev u p } : TimerLst).Reads (l₁ ++ [p] ++ u :: l₂) := by
        refine h.without (fun z _ => ?_) (fun z _ => ?_)
          (if_neg (by simp)).symm (fun _ => (if_neg (List.cons_ne_nil u l₂)).symm) (fun _ _ => rfl)
        · rw [List.getLastD_concat]
          exact Function.update_apply _ _ _ _
        · rw [List.getLastD_concat]
          exact Function.update_apply _ _ _ _
      obtain ⟨s', hloop, hreads', hexpire, hlives⟩ :=
        addTimerLoop_spec hreads ht hmem hlive hrounds'
      refine ⟨s', ?_, hreads', hexpire, hlives⟩
      rw [← hloop]
      simp [-List.headD_eq_head?_getD, adjustTimer, addTimerBehind, getNext, getPrev, getExpire,
        setNext, setPrev, ht, hlive, hu, hp, hnext, hprev, hlt, hheadt, hnextu, hu0,
        Function.update_of_ne hpt.symm, Function.update_of_ne hpu.symm]

/-- A timer that is due. -/
def due (expire : ℕ → ℤ) (cur : ℤ) (t : ℕ) : Bool := expire t ≤ cur

/-- **`tick` calls back the first timers**, up to one that is not due, and deletes
them. -/
theorem tickLoop_spec (cur : ℤ) (h : s.Reads l) (hrounds : l.length < rounds) :
    ∃ s', tickLoop cur rounds s (l.headD null) = some (l.takeWhile (due s.expire cur), s') ∧
      s'.Reads (l.dropWhile (due s.expire cur)) ∧ s'.expire = s.expire ∧
      ∀ z, s'.live z = (s.live z && !decide (z ∈ l.takeWhile (due s.expire cur))) := by
  induction l generalizing s rounds with
  | nil =>
    obtain ⟨rounds, rfl⟩ : ∃ r, rounds = r + 1 := ⟨rounds - 1, by omega⟩
    exact ⟨s, by simp [tickLoop], h, rfl, fun z => by simp⟩
  | cons t l ih =>
    obtain ⟨rounds, rfl⟩ : ∃ r, rounds = r + 1 := ⟨rounds - 1, by omega⟩
    have hlive : s.live t = true := h.live t (by simp)
    have ht : t ≠ null := fun heq => h.notNull (by simp [heq])
    have hfirst : s.Reads ([] ++ t :: l) := h
    have hnext : s.next t = l.headD null := hfirst.next_eq
    by_cases hdue : s.expire t ≤ cur
    · have hdue' : due s.expire cur t = true := decide_eq_true hdue
      rw [List.takeWhile_cons_of_pos hdue', List.dropWhile_cons_of_pos hdue', List.headD_cons]
      have hlt : ¬cur < s.expire t := Int.not_lt.mpr hdue
      have hlives : ∀ z ∈ [] ++ l, Function.update s.live t false z = s.live z :=
        fun z hz => Function.update_of_ne (hfirst.ne_of_mem hz).1 _ _
      have hne : ∀ z ∈ l, z ≠ null := fun z hz => (hfirst.ne_of_mem hz).2
      have hreads : ({ s with
          head := l.headD null
          prev := if l = [] then s.prev else Function.update s.prev (l.headD null) null
          live := Function.update s.live t false } : TimerLst).Reads l := by
        refine hfirst.without (fun z hz => ?_) (fun z hz => ?_) rfl (fun hl => ?_) hlives
        · exact (if_neg (hne z hz)).symm
        · cases l with
          | nil => exact absurd hz List.not_mem_nil
          | cons u l => exact Function.update_apply _ _ _ _
        · exact (if_neg hl).symm
      obtain ⟨s', hloop, hreads', hexpire, hlives'⟩ :=
        ih hreads (Nat.lt_of_succ_lt_succ hrounds)
      refine ⟨s', ?_, hreads', hexpire, fun z => ?_⟩
      · cases l with
        | nil =>
          simp only [List.headD_nil, if_true] at hloop
          simp [tickLoop, getExpire, getNext, delete, hlive, ht, hlt, hnext, hloop]
        | cons u l =>
          have hu : s.live u = true := h.live u (by simp)
          have hu0 : u ≠ null := hne u List.mem_cons_self
          rw [List.headD_cons, if_neg (List.cons_ne_nil u l)] at hloop
          simp [tickLoop, getExpire, getNext, setPrev, delete, hlive, ht, hlt, hnext, hu, hu0,
            hloop]
      · rw [hlives' z]
        show (Function.update s.live t false z && _) = _
        rw [Function.update_apply]
        by_cases hzt : z = t <;> simp [hzt]
    · have hdue' : ¬due s.expire cur t = true := fun hd => hdue (of_decide_eq_true hd)
      rw [List.takeWhile_cons_of_neg hdue', List.dropWhile_cons_of_neg hdue', List.headD_cons]
      refine ⟨s, ?_, h, rfl, fun z => by simp⟩
      simp [tickLoop, getExpire, hlive, ht, Int.not_le.mp hdue]

end TimerLst

end TinyWeb
