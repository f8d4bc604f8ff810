import Mathlib.Data.List.Basic
import Mathlib.Data.Option.Basic

/-!
# Runs

A system is given by what one event does: `step s e`, undefined where the
event cannot happen in `s`. A run is a list of events, done one after the
other. Every order of events that can happen is a list, so a statement about
every list of events is a statement about every interleaving.

A run may be asked to meet a condition at each of its steps, on the state the
step starts from and the event (`Guarded`). What one step preserves under the
condition, the run preserves (`exec_invariant`). Two systems that answer
events are compared event by event (`guarded_iff_lockstep`).
-/

namespace Runs

variable {σ ε : Type} {step : σ → ε → Option σ} {s t : σ}

/-- Do the events of a list, one after the other. -/
def exec (step : σ → ε → Option σ) (s : σ) (es : List ε) : Option σ :=
  es.foldlM step s

theorem exec_cons_eq_some {e : ε} {es : List ε} :
    exec step s (e :: es) = some t
      ↔ ∃ u, step s e = some u ∧ exec step u es = some t := by
  unfold exec
  rw [List.foldlM_cons]
  exact Option.bind_eq_some_iff

/-- **A condition at every step** of a run. -/
def Guarded (step : σ → ε → Option σ) (P : σ → ε → Prop) : σ → List ε → Prop
  | _, [] => True
  | s, e :: es => P s e ∧ ∀ u, step s e = some u → Guarded step P u es

/-- A condition that can be tested at a step can be tested along a run. -/
instance decidableGuarded {P : σ → ε → Prop} [∀ s e, Decidable (P s e)] :
    (s : σ) → (es : List ε) → Decidable (Guarded step P s es)
  | _, [] => isTrue trivial
  | s, e :: es =>
    match hs : step s e with
    | none => decidable_of_iff (P s e)
        ⟨fun h => ⟨h, fun u hu => absurd (hs.symm.trans hu) (Option.some_ne_none u).symm⟩,
          fun h => h.1⟩
    | some u =>
      have : Decidable (Guarded step P u es) := decidableGuarded u es
      decidable_of_iff (P s e ∧ Guarded step P u es)
        ⟨fun h => ⟨h.1, fun _ hv => Option.some.inj (hs.symm.trans hv) ▸ h.2⟩,
          fun h => ⟨h.1, h.2 u hs⟩⟩

theorem guarded_true (s : σ) (es : List ε) : Guarded step (fun _ _ => True) s es := by
  induction es generalizing s with
  | nil => trivial
  | cons e es ih => exact ⟨trivial, fun u _ => ih u⟩

theorem Guarded.of_append {P : σ → ε → Prop} {es es' : List ε}
    (h : Guarded step P s (es ++ es')) : Guarded step P s es := by
  induction es generalizing s with
  | nil => trivial
  | cons e es ih => exact ⟨h.1, fun u hu => ih (h.2 u hu)⟩

/-! ## Invariants of runs

An invariant is kept by every step, perhaps under a condition on the event and the
state before it. From this it holds in the state at the end of a run, and in all
the states on the way. Where the condition is also needed, that is where a step
under which the property holds must have met it, the equivalence for a step gives
one for runs (`guarded_iff_forall_reached`, `guarded_iff_forall_prefix`). -/

/-- **What every step preserves, every run preserves.** -/
theorem exec_invariant {P : σ → ε → Prop} (I : σ → Prop)
    (hstep : ∀ {s t e}, I s → P s e → step s e = some t → I t)
    {es : List ε} (hs : I s) (hg : Guarded step P s es)
    (h : exec step s es = some t) : I t := by
  induction es generalizing s with
  | nil =>
    obtain rfl : s = t := Option.some.inj h
    exact hs
  | cons e es ih =>
    obtain ⟨u, hu, hrest⟩ := exec_cons_eq_some.mp h
    exact ih (hstep hs hg.1 hu) (hg.2 u hu) hrest

theorem exec_invariant' (I : σ → Prop)
    (hstep : ∀ {s t e}, I s → step s e = some t → I t)
    {es : List ε} (hs : I s) (h : exec step s es = some t) : I t :=
  exec_invariant I (fun hi _ he => hstep hi he) hs (guarded_true s es) h

theorem guarded_map {δ : Type} {P : σ → ε → Prop} (g : δ → ε) {ds : List δ} :
    Guarded step P s (ds.map g)
      ↔ Guarded (fun s d => step s (g d)) (fun s d => P s (g d)) s ds := by
  induction ds generalizing s with
  | nil => exact Iff.rfl
  | cons d ds ih => exact and_congr_right (fun _ => forall₂_congr (fun u _ => ih))

/-- **Two conditions that say the same wherever an invariant holds**, which one of
them keeps, say the same along a run. -/
theorem guarded_iff_guarded {P Q : σ → ε → Prop} (I : σ → Prop)
    (hkeep : ∀ {s t e}, I s → P s e → step s e = some t → I t)
    (hiff : ∀ {s e}, I s → (P s e ↔ Q s e)) {es : List ε} (hs : I s) :
    Guarded step P s es ↔ Guarded step Q s es := by
  induction es generalizing s with
  | nil => exact Iff.rfl
  | cons e es ih =>
    constructor
    · rintro ⟨hp, hrest⟩
      exact ⟨(hiff hs).mp hp, fun u hu => (ih (hkeep hs hp hu)).mp (hrest u hu)⟩
    · rintro ⟨hq, hrest⟩
      have hp := (hiff hs).mpr hq
      exact ⟨hp, fun u hu => (ih (hkeep hs hp hu)).mpr (hrest u hu)⟩

theorem guarded_congr {P Q : σ → ε → Prop} (I : σ → Prop)
    (hstep : ∀ {s t e}, I s → step s e = some t → I t)
    (hiff : ∀ {s e}, I s → (P s e ↔ Q s e)) {es : List ε} (hs : I s) :
    Guarded step P s es ↔ Guarded step Q s es :=
  guarded_iff_guarded I (fun hi _ he => hstep hi he) hiff hs

/-- **A property of all states of a run, by a condition on its steps.** The
condition keeps an invariant from which the property follows; and where the
invariant holds, a step after which the property holds meets the
condition. -/
theorem guarded_iff_forall_reached {P : σ → ε → Prop} {I Q : σ → Prop}
    (hgood : ∀ {s}, I s → Q s)
    (hkeep : ∀ {s t e}, I s → P s e → step s e = some t → I t)
    (hmeets : ∀ {s e}, I s → (∀ t, step s e = some t → Q t) → P s e)
    {es : List ε} (hs : I s) :
    Guarded step P s es ↔ ∀ es', es' <+: es → ∀ t, exec step s es' = some t → Q t := by
  constructor
  · intro hg es' hpre t ht
    obtain ⟨rest, rfl⟩ := hpre
    exact hgood (exec_invariant I hkeep hs hg.of_append ht)
  · intro h
    induction es generalizing s with
    | nil => trivial
    | cons e es ih =>
      have hone : ∀ u, step s e = some u → Q u := by
        intro u hu
        refine h [e] ⟨es, rfl⟩ u ?_
        exact exec_cons_eq_some.mpr ⟨u, hu, rfl⟩
      have hp := hmeets hs hone
      refine ⟨hp, fun u hu => ih (hkeep hs hp hu) (fun es' hpre t ht => ?_)⟩
      refine h (e :: es') (List.cons_prefix_cons.mpr ⟨rfl, hpre⟩) t ?_
      exact exec_cons_eq_some.mpr ⟨u, hu, ht⟩

/-- **Where a step keeps the invariant exactly under a condition, a run keeps
it in all its states exactly if every step meets the condition.** -/
theorem guarded_iff_forall_prefix {P : σ → ε → Prop} {I : σ → Prop}
    (hstep : ∀ {s e}, I s → (P s e ↔ ∀ t, step s e = some t → I t))
    {es : List ε} (hs : I s) :
    Guarded step P s es ↔ ∀ es', es' <+: es → ∀ t, exec step s es' = some t → I t :=
  guarded_iff_forall_reached id (fun hi hp he => (hstep hi).mp hp _ he)
    (fun hi h => (hstep hi).mpr h) hs

/-! ## What a run puts out

An event may put something out and bring something in, and what is in stock then
is a list. Whether order counts is what the two rules differ in. -/

section Trace

variable {ω : Type}

/-- What the events of a run put out, one after the other. -/
def trace (step : σ → ε → Option σ) (out : σ → ε → List ω) : σ → List ε → List ω
  | _, [] => []
  | s, e :: es => out s e ++ ((step s e).map (fun u => trace step out u es)).getD []

/-- **Balance.** Where every event puts out what it takes from the stock, up
to what it brings in, a run puts out what was brought in, up to the stock at
either end. -/
theorem trace_perm (out : σ → ε → List ω) (stock : σ → List ω) (brought : ε → List ω)
    (hstep : ∀ {s t e}, step s e = some t →
      (out s e ++ stock t).Perm (stock s ++ brought e))
    {es : List ε} (h : exec step s es = some t) :
    (trace step out s es ++ stock t).Perm (stock s ++ es.flatMap brought) := by
  induction es generalizing s with
  | nil =>
    obtain rfl : s = t := Option.some.inj h
    rw [List.flatMap_nil, List.append_nil]
    exact List.Perm.refl _
  | cons e es ih =>
    obtain ⟨u, hu, hrest⟩ := exec_cons_eq_some.mp h
    rw [trace, hu, Option.map_some, Option.getD_some, List.flatMap_cons, List.append_assoc]
    have htail := (ih hrest).append_left (out s e)
    have hhead := (hstep hu).append_right (es.flatMap brought)
    rw [List.append_assoc, List.append_assoc] at hhead
    exact htail.trans hhead

/-- **First in, first out.** Where every event puts out what it takes from the
front of the stock, and brings in at its end, a run puts out what was brought
in, in that order, up to the stock at either end. -/
theorem trace_append_eq (out : σ → ε → List ω) (stock : σ → List ω) (brought : ε → List ω)
    (hstep : ∀ {s t e}, step s e = some t → out s e ++ stock t = stock s ++ brought e)
    {es : List ε} (h : exec step s es = some t) :
    trace step out s es ++ stock t = stock s ++ es.flatMap brought := by
  induction es generalizing s with
  | nil =>
    obtain rfl : s = t := Option.some.inj h
    exact (List.append_nil _).symm
  | cons e es ih =>
    obtain ⟨u, hu, hrest⟩ := exec_cons_eq_some.mp h
    rw [trace, hu, Option.map_some, Option.getD_some, List.flatMap_cons, List.append_assoc,
      ih hrest, ← List.append_assoc, hstep hu, List.append_assoc]

/-- **Simulation.** Where one event is possible in both of two related states or
in neither, keeps the states related and puts out the same, so does a
run. -/
theorem exec_rel {τ : Type} {step' : τ → ε → Option τ} {out : σ → ε → List ω}
    {out' : τ → ε → List ω} {R : σ → τ → Prop}
    (hstep : ∀ {s t} e, R s t → Option.Rel R (step s e) (step' t e) ∧ out s e = out' t e)
    {s : σ} {t : τ} (hst : R s t) (es : List ε) :
    Option.Rel R (exec step s es) (exec step' t es)
      ∧ trace step out s es = trace step' out' t es := by
  induction es generalizing s t with
  | nil => exact ⟨Option.Rel.some hst, rfl⟩
  | cons e es ih =>
    obtain ⟨hrel, hout⟩ := hstep e hst
    unfold exec trace
    rw [List.foldlM_cons, List.foldlM_cons, hout]
    cases hs : step s e with
    | none =>
      rw [hs] at hrel
      cases ht : step' t e with
      | none => exact ⟨Option.Rel.none, rfl⟩
      | some v => rw [ht] at hrel; nomatch hrel
    | some u =>
      rw [hs] at hrel
      cases ht : step' t e with
      | none => rw [ht] at hrel; nomatch hrel
      | some v =>
        rw [ht] at hrel
        cases hrel with
        | some huv =>
          obtain ⟨hrun, htrace⟩ := ih huv
          exact ⟨hrun, congrArg _ htrace⟩

end Trace

/-! ## Runs that answer -/

variable {τ ω : Type}

/-- The state and the answers after a list of events, where every event has
an answer. -/
def answers (f : σ → ε → σ × ω) : σ → List ε → σ × List ω
  | s, [] => (s, [])
  | s, e :: es => ((answers f (f s e).1 es).1, (f s e).2 :: (answers f (f s e).1 es).2)

theorem answers_map {δ : Type} (f : σ → ε → σ × ω) (g : δ → ε) (s : σ) (ds : List δ) :
    answers f s (ds.map g) = answers (fun s d => f s (g d)) s ds := by
  induction ds generalizing s with
  | nil => rfl
  | cons d ds ih =>
    rw [List.map_cons, answers, answers, ih]

/-- **Lock-step.** Where one event keeps two systems related, with the same
answer, exactly under a condition, a run keeps them related with the same
answers, all along, exactly if every event meets the condition. -/
theorem guarded_iff_lockstep {f : σ → ε → σ × ω} {g : τ → ε → τ × ω} {P : σ → ε → Prop}
    {R : σ → τ → Prop}
    (hstep : ∀ {s t e}, R s t → (P s e ↔ R (f s e).1 (g t e).1 ∧ (f s e).2 = (g t e).2))
    {s : σ} {t : τ} {es : List ε} (hst : R s t) :
    Guarded (fun s e => some (f s e).1) P s es
      ↔ ∀ es', es' <+: es → R (answers f s es').1 (answers g t es').1
        ∧ (answers f s es').2 = (answers g t es').2 := by
  induction es generalizing s t with
  | nil =>
    refine ⟨fun _ es' hpre => ?_, fun _ => trivial⟩
    rw [List.prefix_nil.mp hpre]
    exact ⟨hst, rfl⟩
  | cons e es ih =>
    constructor
    · rintro ⟨hp, hrest⟩ es' hpre
      obtain ⟨hstate, hanswer⟩ := (hstep hst).mp hp
      cases es' with
      | nil => exact ⟨hst, rfl⟩
      | cons e' es' =>
        obtain ⟨rfl, htail⟩ := List.cons_prefix_cons.mp hpre
        obtain ⟨hrun, hanswers⟩ := (ih hstate).mp (hrest _ rfl) es' htail
        refine ⟨hrun, ?_⟩
        show (f s e').2 :: _ = (g t e').2 :: _
        rw [hanswer, hanswers]
    · intro h
      have hone := h [e] (List.cons_prefix_cons.mpr ⟨rfl, List.nil_prefix⟩)
      have hstate : R (f s e).1 (g t e).1 := hone.1
      have hanswer : (f s e).2 = (g t e).2 := (List.cons.inj hone.2).1
      refine ⟨(hstep hst).mpr ⟨hstate, hanswer⟩, fun u hu => ?_⟩
      obtain rfl := Option.some.inj hu
      refine (ih hstate).mpr (fun es' hpre => ?_)
      obtain ⟨hrun, hanswers⟩ := h (e :: es') (List.cons_prefix_cons.mpr ⟨rfl, hpre⟩)
      exact ⟨hrun, (List.cons.inj hanswers).2⟩

end Runs
