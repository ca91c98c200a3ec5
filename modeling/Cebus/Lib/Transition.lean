import Mathlib.Data.List.Induction

/-!
# Runs of a transition system

A deterministic transition system is a partial step function on states and
events; the choice between interleavings lies in the list of events.

* `run_induction`: what a step preserves holds in the last state of a run.
* `Meets.invariant`: the same for the runs whose steps all meet a condition.
* `Guarded.reaches`: runs that are guarded by a condition get to their end.
* `always_iff_meets`: the condition is exact when every step against it leaves
  the property.
* `exists_run_of_measure`: a state that is reached by steps that bring it nearer.
-/

namespace Transition

variable {σ ε : Type*} {step : σ → ε → Option σ} {s t : σ} {e : ε} {es : List ε}

/-- The state after the events `es`, if each of them is enabled when it comes. -/
def run (step : σ → ε → Option σ) (s : σ) (es : List ε) : Option σ := es.foldlM step s

@[simp] theorem run_nil : run step s [] = some s := rfl

@[simp] theorem run_cons : run step s (e :: es) = (step s e).bind (run step · es) := rfl

theorem run_append {es' : List ε} :
    run step s (es ++ es') = (run step s es).bind (run step · es') :=
  List.foldlM_append

theorem run_concat : run step s (es ++ [e]) = (run step s es).bind (step · e) := by
  rw [run_append]
  refine congrArg _ (funext fun t => ?_)
  rw [run_cons]
  cases step t e <;> rfl

/-- `P` holds in every state that the run passes through. -/
def Always (step : σ → ε → Option σ) (P : σ → Prop) (s : σ) (es : List ε) : Prop :=
  ∀ es' t, es' <+: es → run step s es' = some t → P t

/-- Every step of the run meets the condition `C` on the state before it. -/
def Meets (step : σ → ε → Option σ) (C : σ → ε → Prop) (s : σ) (es : List ε) : Prop :=
  ∀ es' e t u, es' ++ [e] <+: es → run step s es' = some t → step t e = some u → C t e

theorem always_nil {P : σ → Prop} : Always step P s [] ↔ P s := by
  constructor
  · exact fun h => h [] s List.prefix_rfl rfl
  · rintro h es' t hpre ht
    rw [List.prefix_nil.mp hpre, run_nil, Option.some_inj] at ht
    exact ht ▸ h

theorem always_concat {P : σ → Prop} :
    Always step P s (es ++ [e]) ↔
      Always step P s es ∧ ∀ t, run step s (es ++ [e]) = some t → P t := by
  constructor
  · exact fun h => ⟨fun es' t hpre => h es' t (hpre.trans (List.prefix_append _ _)),
      fun t => h _ t List.prefix_rfl⟩
  · rintro ⟨h, hlast⟩ es' t hpre ht
    obtain rfl | hpre := List.prefix_concat_iff.mp hpre
    · exact hlast t ht
    · exact h es' t hpre ht

theorem meets_nil {C : σ → ε → Prop} : Meets step C s [] := by
  intro es' e t u hpre
  simp at hpre

theorem meets_concat {C : σ → ε → Prop} :
    Meets step C s (es ++ [e]) ↔
      Meets step C s es ∧ ∀ t u, run step s es = some t → step t e = some u → C t e := by
  constructor
  · exact fun h => ⟨fun es' e' t u hpre => h es' e' t u (hpre.trans (List.prefix_append _ _)),
      fun t u => h es e t u List.prefix_rfl⟩
  · rintro ⟨h, hlast⟩ es' e' t u hpre ht hu
    obtain heq | hpre := List.prefix_concat_iff.mp hpre
    · obtain ⟨rfl, heq'⟩ := List.append_inj' heq rfl
      obtain rfl := List.singleton_inj.mp heq'
      exact hlast t u ht hu
    · exact h es' e' t u hpre ht hu

/-- **The invariant rule for the runs whose steps all meet a condition.** -/
theorem Meets.invariant {C : σ → ε → Prop} {I : σ → Prop} (h : Meets step C s es) (h0 : I s)
    (hstep : ∀ t e u, I t → C t e → step t e = some u → I u) (ht : run step s es = some t) :
    I t := by
  induction es using List.reverseRecOn generalizing t with
  | nil =>
    rw [run_nil, Option.some_inj] at ht
    exact ht ▸ h0
  | append_singleton es e ih =>
    obtain ⟨hes, hlast⟩ := meets_concat.mp h
    rw [run_concat, Option.bind_eq_some_iff] at ht
    obtain ⟨r, hr, hrt⟩ := ht
    exact hstep r e t (ih hes hr) (hlast r t hr hrt) hrt

/-- **The invariant rule**: what holds at first and is kept by every step. -/
theorem run_induction {I : σ → Prop} (h0 : I s) (hstep : ∀ t e u, I t → step t e = some u → I u)
    (ht : run step s es = some t) : I t :=
  Meets.invariant (C := fun _ _ => True) (fun _ _ _ _ _ _ _ => trivial) h0
    (fun t e u hI _ => hstep t e u hI) ht

/-- The invariant rule, for an invariant of the events and the state. -/
theorem run_events_induction {I : List ε → σ → Prop} (h0 : I [] s)
    (hstep : ∀ es t e u, I es t → step t e = some u → I (es ++ [e]) u)
    (ht : run step s es = some t) : I es t := by
  induction es using List.reverseRecOn generalizing t with
  | nil =>
    rw [run_nil, Option.some_inj] at ht
    exact ht ▸ h0
  | append_singleton es e ih =>
    rw [run_concat, Option.bind_eq_some_iff] at ht
    obtain ⟨r, hr, hrt⟩ := ht
    exact hstep es r e t (ih hr) hrt

/-- **A condition that is exact.** If the steps that meet `C` keep an invariant
    that gives `P`, and each step that does not leaves `P`, then `P` holds all
    along a run exactly when all its steps meet `C`. -/
theorem always_iff_meets {C : σ → ε → Prop} {I P : σ → Prop} (h0 : I s) (hP : ∀ t, I t → P t)
    (hstep : ∀ t e u, I t → C t e → step t e = some u → I u)
    (hleave : ∀ t e u, I t → step t e = some u → P u → C t e) :
    Always step P s es ↔ Meets step C s es := by
  induction es using List.reverseRecOn with
  | nil => exact ⟨fun _ => meets_nil, fun _ => always_nil.mpr (hP s h0)⟩
  | append_singleton es e ih =>
    rw [always_concat, meets_concat, ih]
    refine and_congr_right fun hes => ⟨fun h t u ht hu => ?_, fun h u hu => ?_⟩
    · refine hleave t e u (hes.invariant h0 hstep ht) hu (h u ?_)
      rw [run_concat, ht, Option.bind_some, hu]
    · rw [run_concat, Option.bind_eq_some_iff] at hu
      obtain ⟨t, ht, hu⟩ := hu
      exact hP u (hstep t e u (hes.invariant h0 hstep ht) (h t u ht hu) hu)

/-- **The progress rule**: if outside of `Q` some step makes a measure smaller, a
    run leads to `Q`. -/
theorem exists_run_of_measure {Q : σ → Prop} (m : σ → ℕ)
    (h : ∀ s, ¬ Q s → ∃ e t, step s e = some t ∧ m t < m s) (s : σ) :
    ∃ es t, run step s es = some t ∧ Q t := by
  induction hn : m s using Nat.strongRecOn generalizing s with
  | _ n ih =>
    by_cases hQ : Q s
    · exact ⟨[], s, rfl, hQ⟩
    · obtain ⟨e, t, hst, hlt⟩ := h s hQ
      obtain ⟨es, u, hu, hQu⟩ := ih (m t) (hn ▸ hlt) t rfl
      exact ⟨e :: es, u, by rw [run_cons, hst, Option.bind_some, hu], hQu⟩

/-! ## Guarded runs -/

/-- Every event comes in a state in which it meets the condition `C`, also if it is
    not enabled there. -/
def Guarded (step : σ → ε → Option σ) (C : σ → ε → Prop) (s : σ) (es : List ε) : Prop :=
  ∀ es' e t, es' ++ [e] <+: es → run step s es' = some t → C t e

theorem guarded_nil {C : σ → ε → Prop} : Guarded step C s [] := by
  intro es' e t hpre
  simp at hpre

theorem guarded_cons {C : σ → ε → Prop} : Guarded step C s (e :: es) ↔
    C s e ∧ ∀ t, step s e = some t → Guarded step C t es := by
  constructor
  · intro h
    refine ⟨h [] e s (by simp) rfl, fun t ht es' e' u hpre hu => ?_⟩
    refine h (e :: es') e' u (by simpa using hpre) ?_
    rw [run_cons, ht, Option.bind_some, hu]
  · rintro ⟨hC, h⟩ es' e' u hpre hu
    rcases es' with _ | ⟨d, es'⟩
    · obtain ⟨rfl, -⟩ := List.cons_prefix_cons.mp hpre
      rw [run_nil, Option.some_inj] at hu
      rwa [← hu]
    · rw [List.cons_append, List.cons_prefix_cons] at hpre
      obtain ⟨rfl, hpre⟩ := hpre
      rw [run_cons, Option.bind_eq_some_iff] at hu
      obtain ⟨t, ht, hu⟩ := hu
      exact h t ht es' e' u hpre hu

/-- Whether a run is guarded. -/
def decGuarded {C : σ → ε → Prop} [∀ s e, Decidable (C s e)] :
    ∀ (es : List ε) (s : σ), Decidable (Guarded step C s es)
  | [], _ => .isTrue guarded_nil
  | e :: es, s =>
    have : Decidable (∀ t, step s e = some t → Guarded step C t es) :=
      match h : step s e with
      | none => .isTrue fun t ht => by cases ht
      | some t => @decidable_of_iff _ (Guarded step C t es)
        ⟨fun hg u hu => by obtain rfl := Option.some.inj hu; exact hg, fun hg => hg t rfl⟩
        (decGuarded es t)
    decidable_of_iff _ guarded_cons.symm

instance {C : σ → ε → Prop} [∀ s e, Decidable (C s e)] {es : List ε} :
    Decidable (Guarded step C s es) := decGuarded es s

/-- The events before one that are enabled up to it. -/
theorem run_initial {es' : List ε} {u : σ} (hpre : es' <+: es) (h : run step s es = some u) :
    ∃ t, run step s es' = some t := by
  obtain ⟨rest, rfl⟩ := hpre
  rw [run_append, Option.bind_eq_some_iff] at h
  obtain ⟨t, ht, -⟩ := h
  exact ⟨t, ht⟩

/-- **The invariant rule for guarded runs.** If the condition and an invariant of the
    events and the state enable an event and keep the invariant, the run goes on to
    its end. -/
theorem Guarded.reaches {C : σ → ε → Prop} {I : List ε → σ → Prop} (h : Guarded step C s es)
    (h0 : I [] s)
    (hstep : ∀ es' e t, es' ++ [e] <+: es → I es' t → C t e →
      ∃ u, step t e = some u ∧ I (es' ++ [e]) u) :
    ∃ t, run step s es = some t ∧ I es t := by
  induction es using List.reverseRecOn with
  | nil => exact ⟨s, rfl, h0⟩
  | append_singleton es e ih =>
    obtain ⟨t, ht, hI⟩ := ih
      (fun es' e' u hpre => h es' e' u (hpre.trans (List.prefix_append _ _)))
      fun es' e' u hpre => hstep es' e' u (hpre.trans (List.prefix_append _ _))
    obtain ⟨u, hu, hI'⟩ := hstep es e t List.prefix_rfl hI (h es e t List.prefix_rfl ht)
    refine ⟨u, ?_, hI'⟩
    rw [run_concat, ht, Option.bind_some, hu]

end Transition
