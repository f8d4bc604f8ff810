import LinuxStudy.Runs
import LinuxStudy.TimerHeap

/-!
# Runs of the timers

What a `TimerManager` is after any calls in any order, from the time it is
made. Its map is the exact index of its heap, whatever is done
(`exact_of_exec`): the map has an entry for every node and for nothing else,
which is the index of the node. Its heap is in order as long as no `update`
makes a node expire before its parent, and no longer (`ordered_runs_iff`).

The two are not alike because `swapNode` sets the indices of whatever it moves,
while to move enough is left to whoever sifts. A shorter timeout for a timer
that is there is all it takes (`update_breaks_order`), and `addTimer` of the
same id with the same timeout would have kept the order.
-/

namespace MiniDcs

namespace TimerManager

variable {C : Type} {t u : TimerManager C}

/-- A call. The callbacks do not touch the timers. -/
inductive Event (C : Type)
  | addTimer (now id timeout : ℤ) (cb : C)
  | update (now id timeout : ℤ)
  | work (id : ℤ)
  | pop
  | clear
  | expire (clock : ℕ → ℤ)

/-- What a call does, undefined where its assertion fails. -/
def step (t : TimerManager C) : Event C → Option (TimerManager C)
  | .addTimer now id timeout cb => t.addTimer now id timeout cb
  | .update now id timeout => t.update now id timeout
  | .work id => some (t.work id).1
  | .pop => if t.heap.size = 0 then none else some t.pop
  | .clear => some t.clear
  | .expire clock => some (t.handleExpiredEvent clock).1

/-! ## One call -/

/-- What `work` does: a timer that is there is deleted. -/
theorem work_cases (hindexed : t.Indexed) (id : ℤ) :
    (t.ref.lookup id = none ∧ (t.work id).1 = t)
      ∨ ∃ i node, t.ref.lookup id = some i ∧ t.heap[i]? = some node ∧ node.id = id
        ∧ (t.work id).1 = t.del i := by
  unfold work
  cases href : t.ref.lookup id with
  | none =>
    refine Or.inl ⟨rfl, ?_⟩
    split <;> rfl
  | some i =>
    obtain ⟨node, hnode, hid⟩ := (hindexed id i).mp href
    have hi := (Array.getElem?_eq_some_iff.mp hnode).1
    refine Or.inr ⟨i, node, rfl, hnode, hid, ?_⟩
    rw [if_neg (Nat.ne_of_gt (Nat.zero_lt_of_lt hi))]

theorem step_pop_eq_some (h : t.step .pop = some u) :
    ∃ front, t.heap[0]? = some front ∧ u = t.pop := by
  simp only [step] at h
  split at h
  · exact absurd h (by simp)
  · next hsize =>
    exact ⟨_, Array.getElem?_eq_getElem (Nat.pos_of_ne_zero hsize), (Option.some.inj h).symm⟩

/-- **What every `pop` keeps, `handle_expired_event` keeps.** -/
theorem handleExpiredEvent_invariant {I : TimerManager C → Prop}
    (hpop : ∀ {t front}, I t → t.heap[0]? = some front → I t.pop) (clock : ℕ → ℤ) (h : I t) :
    I (t.handleExpiredEvent clock).1 := by
  have hloop : ∀ (rounds k : ℕ) (t : TimerManager C), I t → I (expireLoop clock rounds k t).1 := by
    intro rounds
    induction rounds with
    | zero => exact fun _ _ h => h
    | succ rounds ih =>
      intro k t h
      unfold expireLoop
      split
      · exact h
      · next node hfront =>
        split
        · exact ih (k + 1) t.pop (hpop h hfront)
        · exact h
  exact hloop _ _ t h

theorem indexed_empty : (empty : TimerManager C).Indexed := by
  intro id i
  exact ⟨fun h => absurd h (by simp [empty]), fun ⟨_, h, _⟩ => absurd h (by simp [empty])⟩

theorem ordered_empty : (empty : TimerManager C).Ordered :=
  fun _ _ _ _ _ hb => absurd hb (by simp [empty])

/-! ## The index

An id is added by `addTimer` and goes with the node that has it, and every other
call leaves the ids or takes some. So the ids after any calls are those that were
added and not taken, and the map has each of them with its index. Since there are
as many entries as nodes, this is exact. -/

/-- The ids of the timers. -/
def ids (t : TimerManager C) : List ℤ := t.heap.toList.map TimeNode.id

theorem mem_ids_iff_timers {id : ℤ} : id ∈ t.ids ↔ ∃ cb, (id, cb) ∈ t.timers := by
  unfold ids timers
  simp only [List.mem_map, Prod.mk.injEq]
  constructor
  · rintro ⟨node, hmem, rfl⟩
    exact ⟨node.cb, node, hmem, rfl, rfl⟩
  · rintro ⟨cb, node, hmem, hid, -⟩
    exact ⟨node, hmem, hid⟩

theorem mem_ids_iff {id : ℤ} :
    id ∈ t.ids ↔ ∃ (i : ℕ) (node : TimeNode C), t.heap[i]? = some node ∧ node.id = id := by
  rw [mem_ids_iff_timers]
  simp only [mem_timers_iff, Prod.mk.injEq]
  constructor
  · rintro ⟨cb, i, node, hnode, hid, -⟩
    exact ⟨i, node, hnode, hid⟩
  · rintro ⟨i, node, hnode, hid⟩
    exact ⟨node.cb, i, node, hnode, hid, rfl⟩

/-- **What a call does to the ids**: it adds one, or takes one, or several in
`clear` and `handle_expired_event`. -/
def IdsAfter (t u : TimerManager C) : Event C → Prop
  | .addTimer _ id _ _ => ∀ x, x ∈ u.ids ↔ x = id ∨ x ∈ t.ids
  | .update _ _ _ => ∀ x, x ∈ u.ids ↔ x ∈ t.ids
  | .work id => ∀ x, x ∈ u.ids ↔ x ∈ t.ids ∧ x ≠ id
  | .pop => ∃ front, t.heap[0]? = some front ∧ ∀ x, x ∈ u.ids ↔ x ∈ t.ids ∧ x ≠ front.id
  | .clear => u.ids = []
  | .expire _ => ∀ x ∈ u.ids, x ∈ t.ids

theorem mem_ids_of_timers_ne {id : ℤ}
    (h : ∀ x, x ∈ u.timers ↔ x ∈ t.timers ∧ x.1 ≠ id) (x : ℤ) :
    x ∈ u.ids ↔ x ∈ t.ids ∧ x ≠ id := by
  rw [mem_ids_iff_timers, mem_ids_iff_timers]
  simp only [h, exists_and_right]

/-- **What a call keeps and what it changes**: the map stays the index of the
heap, and the ids change by what the call is about. -/
theorem Indexed.step_spec (h : t.Indexed) {e : Event C} (he : t.step e = some u) :
    u.Indexed ∧ IdsAfter t u e := by
  cases e with
  | addTimer now id timeout cb =>
    obtain ⟨t', hadd, hindexed, htimers⟩ := h.addTimer_spec now timeout cb (addTimer_cases he).1
    obtain rfl : t' = u := Option.some.inj (hadd.symm.trans he)
    refine ⟨hindexed, fun x => ?_⟩
    rw [mem_ids_iff_timers, mem_ids_iff_timers]
    simp only [htimers, Prod.mk.injEq]
    constructor
    · rintro ⟨cb', ⟨rfl, -⟩ | ⟨hmem, -⟩⟩
      · exact Or.inl rfl
      · exact Or.inr ⟨cb', hmem⟩
    · rintro (rfl | ⟨cb', hmem⟩)
      · exact ⟨cb, Or.inl ⟨rfl, rfl⟩⟩
      · by_cases hid : x = id
        · exact ⟨cb, Or.inl ⟨hid, rfl⟩⟩
        · exact ⟨cb', Or.inr ⟨hmem, hid⟩⟩
  | update now id timeout =>
    obtain ⟨i, href, -⟩ := update_cases he
    have hid : id ∈ t.ref := AList.lookup_isSome.mp (by rw [href]; rfl)
    obtain ⟨t', hupdate, hindexed, htimers⟩ := h.update_spec now timeout hid
    obtain rfl : t' = u := Option.some.inj (hupdate.symm.trans he)
    refine ⟨hindexed, fun x => ?_⟩
    rw [mem_ids_iff_timers, mem_ids_iff_timers]
    exact exists_congr (fun cb => htimers (x, cb))
  | work id =>
    obtain rfl := Option.some.inj he
    rcases work_cases h id with ⟨href, hwork⟩ | ⟨i, node, -, hnode, rfl, hwork⟩
    · -- the id has no timer, so there is none to lose
      rw [hwork]
      refine ⟨h, fun x => (and_iff_left_of_imp (fun hx => ?_)).symm⟩
      obtain ⟨cb, hcb⟩ := mem_ids_iff_timers.mp hx
      exact h.ne_of_lookup_none href hcb
    · obtain ⟨hindexed, -, htimers⟩ := h.del_spec hnode
      rw [hwork]
      exact ⟨hindexed, mem_ids_of_timers_ne htimers⟩
  | pop =>
    obtain ⟨front, hfront, rfl⟩ := step_pop_eq_some he
    obtain ⟨hindexed, -, htimers⟩ := h.pop_spec hfront
    exact ⟨hindexed, front, hfront, mem_ids_of_timers_ne htimers⟩
  | clear => exact Option.some.inj he ▸ ⟨indexed_empty, rfl⟩
  | expire clock =>
    obtain rfl := Option.some.inj he
    refine handleExpiredEvent_invariant (I := fun u => u.Indexed ∧ ∀ x ∈ u.ids, x ∈ t.ids)
      (fun {u front} hu hfront => ?_) clock ⟨h, fun _ hx => hx⟩
    obtain ⟨hindexed, -, htimers⟩ := hu.1.pop_spec hfront
    exact ⟨hindexed, fun x hx => hu.2 x ((mem_ids_of_timers_ne htimers x).mp hx).1⟩

/-- **The map is the exact index of the heap**: it has as many entries as the
heap, the ids in the heap are distinct, and the map has the index of each
node. -/
structure Exact (t : TimerManager C) : Prop where
  size : t.ref.entries.length = t.heap.size
  nodup : t.ids.Nodup
  index : ∀ i node, t.heap[i]? = some node → t.ref.lookup node.id = some i

theorem Indexed.mem_keys_iff (h : t.Indexed) {id : ℤ} : id ∈ t.ref.keys ↔ id ∈ t.ids := by
  rw [← AList.mem_keys, h.mem_ref_iff, mem_ids_iff_timers]

/-- **An index is exact**, as two nodes have two ids. -/
theorem Indexed.exact (h : t.Indexed) : t.Exact := by
  have hnodup : t.ids.Nodup := by
    refine List.nodup_iff_getElem?_ne_getElem?.mpr (fun i j hij hj heq => ?_)
    unfold ids at hj heq
    rw [List.length_map, Array.length_toList] at hj
    rw [List.getElem?_map, List.getElem?_map, Array.getElem?_toList, Array.getElem?_toList,
      Array.getElem?_eq_getElem (hij.trans hj), Array.getElem?_eq_getElem hj] at heq
    exact Nat.ne_of_lt hij (h.index_eq (Array.getElem?_eq_getElem (hij.trans hj))
      (Array.getElem?_eq_getElem hj) (Option.some.inj heq))
  refine ⟨?_, hnodup, fun i node hnode => (h node.id i).mpr ⟨node, hnode, rfl⟩⟩
  have hperm : t.ref.keys.Perm t.ids :=
    (List.perm_ext_iff_of_nodup t.ref.keys_nodup hnodup).mpr (fun id => h.mem_keys_iff)
  have hlen := hperm.length_eq
  unfold AList.keys List.keys ids at hlen
  rw [List.length_map, List.length_map, Array.length_toList] at hlen
  exact hlen

/-- **An exact map is an index**: there is no room in it for anything else. -/
theorem Exact.indexed (h : t.Exact) : t.Indexed := by
  intro id i
  refine ⟨fun href => ?_, fun ⟨node, hnode, hid⟩ => hid ▸ h.index i node hnode⟩
  have hsub : t.ids ⊆ t.ref.keys := by
    intro id hid
    obtain ⟨k, node, hnode, rfl⟩ := mem_ids_iff.mp hid
    exact AList.mem_keys.mp (AList.lookup_isSome.mp (by rw [h.index k node hnode]; rfl))
  have hlen : t.ref.keys.length ≤ t.ids.length := by
    unfold AList.keys List.keys ids
    rw [List.length_map, List.length_map, Array.length_toList, h.size]
  have hperm := (List.subperm_of_subset h.nodup hsub).perm_of_length_le hlen
  have hkey : id ∈ t.ref.keys := AList.mem_keys.mp (AList.lookup_isSome.mp (by rw [href]; rfl))
  obtain ⟨k, node, hnode, rfl⟩ := mem_ids_iff.mp (hperm.mem_iff.mpr hkey)
  obtain rfl : k = i := Option.some.inj ((h.index k node hnode).symm.trans href)
  exact ⟨node, hnode, rfl⟩

/-- **The index is exact after any calls**, and a call adds or takes the id it
is about. -/
theorem exact_of_exec {es : List (Event C)} (h : Runs.exec step empty es = some t) :
    t.Exact ∧ ∀ e u, t.step e = some u → IdsAfter t u e := by
  have hindexed : t.Indexed :=
    Runs.exec_invariant' Indexed (fun hi he => (hi.step_spec he).1) indexed_empty h
  exact ⟨hindexed.exact, fun e u he => (hindexed.step_spec he).2⟩

/-- Two timers are added, one is added again with a shorter timeout, and one is
taken. -/
theorem exact_of_exec_readded :
    ∃ t : TimerManager Unit, Runs.exec step empty
        [.addTimer 0 1 2500 (), .addTimer 0 2 2500 (), .addTimer 0 1 2000 (), .work 2] = some t
      ∧ t.Exact ∧ ∀ e u, t.step e = some u → IdsAfter t u e := by
  have hrun : (Runs.exec step (empty : TimerManager Unit)
      [.addTimer 0 1 2500 (), .addTimer 0 2 2500 (), .addTimer 0 1 2000 (), .work 2]).isSome := by
    decide +kernel
  obtain ⟨t, ht⟩ := Option.isSome_iff_exists.mp hrun
  exact ⟨t, ht, exact_of_exec ht⟩

/-! ## The order

Every call but `update` keeps the order of the heap, whatever its arguments are.
`update` keeps it exactly if the new time is not before that of the parent, and
nothing is said of a heap that has been left out of order. -/

/-- **No `update` makes a node expire before its parent.** -/
def Fits (t : TimerManager C) : Event C → Prop
  | .update now id timeout => t.FitsParent id (now + ms timeout)
  | _ => True

instance (t : TimerManager C) (e : Event C) : Decidable (t.Fits e) :=
  match e with
  | .update now id timeout => inferInstanceAs (Decidable (t.FitsParent id (now + ms timeout)))
  | .addTimer .. | .work _ | .pop | .clear | .expire _ => inferInstanceAs (Decidable True)

/-- **Every call keeps the order, if it is no `update` that breaks it.** -/
theorem Ordered.step (h : t.Ordered) (hindexed : t.Indexed) {e : Event C} (hfits : t.Fits e)
    (he : t.step e = some u) : u.Ordered := by
  cases e with
  | addTimer now id timeout cb => exact h.addTimer hindexed he
  | update now id timeout => exact (ordered_update_iff h hindexed he).mpr hfits
  | work id =>
    obtain rfl := Option.some.inj he
    rcases work_cases hindexed id with ⟨-, hwork⟩ | ⟨i, node, -, hnode, -, hwork⟩
    · rw [hwork]
      exact h
    · rw [hwork]
      exact h.del (Array.getElem?_eq_some_iff.mp hnode).1
  | pop =>
    obtain ⟨front, hfront, rfl⟩ := step_pop_eq_some he
    exact h.pop hfront
  | clear => exact Option.some.inj he ▸ ordered_empty
  | expire clock =>
    obtain rfl := Option.some.inj he
    exact handleExpiredEvent_invariant (fun h hfront => h.pop hfront) clock h

/-- A call after which the order holds is no `update` that breaks it. -/
theorem Ordered.fits (h : t.Ordered) (hindexed : t.Indexed) {e : Event C}
    (hstep : ∀ u, t.step e = some u → u.Ordered) : t.Fits e := by
  cases e with
  | update now id timeout =>
    intro i href
    obtain ⟨t', hupdate, -⟩ := hindexed.update_spec now timeout
      (AList.lookup_isSome.mp (by rw [Option.mem_def.mp href]; rfl))
    exact (ordered_update_iff h hindexed hupdate).mp (hstep t' hupdate) i href
  | addTimer now id timeout cb => trivial
  | work id => trivial
  | pop => trivial
  | clear => trivial
  | expire clock => trivial

/-- The timers of a run without an `update` that breaks the order are indexed
and in order. -/
theorem indexed_ordered_of_exec {es : List (Event C)} (hfits : Runs.Guarded step Fits empty es)
    (h : Runs.exec step empty es = some t) : t.Indexed ∧ t.Ordered :=
  Runs.exec_invariant (fun t => t.Indexed ∧ t.Ordered)
    (fun hi hfit he => ⟨(hi.1.step_spec he).1, hi.2.step hi.1 hfit he⟩)
    ⟨indexed_empty, ordered_empty⟩ hfits h

/-- **When the timers stay in order.** In a run of any calls, the heap is in
min-heap order after every call, with a timer that expires first at its front,
exactly if no `update` of the run makes a node expire before the node that is
its parent at the time. -/
theorem ordered_runs_iff (es : List (Event C)) :
    Runs.Guarded step Fits (empty : TimerManager C) es
      ↔ ∀ es', es' <+: es → ∀ t, Runs.exec step (empty : TimerManager C) es' = some t →
        t.Ordered ∧ ∀ front, t.heap[0]? = some front →
          ∀ node ∈ t.heap.toList, front.expire ≤ node.expire := by
  refine Runs.guarded_iff_forall_reached (I := fun t => t.Indexed ∧ t.Ordered) ?_ ?_ ?_
    ⟨indexed_empty, ordered_empty⟩
  · rintro t ⟨-, h⟩
    exact ⟨h, fun _ hfront _ hnode => h.front_le hfront hnode⟩
  · rintro t u e ⟨hindexed, h⟩ hfits he
    exact ⟨(hindexed.step_spec he).1, h.step hindexed hfits he⟩
  · rintro t e ⟨hindexed, h⟩ hstep
    exact h.fits hindexed (fun u hu => (hstep u hu).1)

/-- A time that a call reads from the clock. -/
def Event.Reads : Event C → ℤ → Prop
  | .addTimer now _ _ _, time => time = now
  | .update now _ _, time => time = now
  | .expire clock, time => ∃ k, time = clock k
  | _, _ => False

/-- **The clock does not go back** in a run. -/
def ClockForward (es : List (Event C)) : Prop :=
  es.Pairwise (fun e e' => ∀ a b, e.Reads a → e'.Reads b → a ≤ b)
    ∧ ∀ clock, Event.expire clock ∈ es → ∀ k, clock k ≤ clock (k + 1)

/-- **A shorter timeout breaks the order.** Two timers of 2500 ms are added, of
which the second goes to the front, and the first is updated to 2000 ms at
once: it expires first, and stands below the other. -/
theorem update_breaks_order :
    ¬ ∀ (es : List (Event Unit)) (t : TimerManager Unit), ClockForward es →
      Runs.exec step empty es = some t → t.Ordered := by
  intro h
  have hrun : (Runs.exec step (empty : TimerManager Unit)
      [.addTimer 0 1 2500 (), .addTimer 0 2 2500 (), .update 0 1 2000]).map
        (fun t => (t.heap.size, t.expireAt 0, t.expireAt 1))
      = some (2, ms 2500, ms 2000) := by
    decide +kernel
  obtain ⟨t, hexec, htimes⟩ := Option.map_eq_some_iff.mp hrun
  simp only [Prod.mk.injEq] at htimes
  obtain ⟨hsize, hfirst, hsecond⟩ := htimes
  have hord := h _ t ⟨by simp [Event.Reads], by simp⟩ hexec
  have hle := ordered_iff.mp hord 1 Nat.one_pos (by omega)
  rw [hsecond] at hle
  exact absurd (hfirst.symm.trans_le hle) (by decide)

end TimerManager

end MiniDcs
