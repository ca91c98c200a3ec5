import Mathlib.Data.List.Basic
import Mathlib.Data.Nat.Notation

/-!
# Events that change one component

The state is a row of components, and each event changes at most one of them. What becomes
of a component depends on its own events only.

* `foldlM_eq_some_iff`: a run, component by component.
* `foldlM_congr`: the order of events of different components does not matter.
-/

namespace Components

variable {ε σ : Type} (key : ε → Option ℕ) (change : ℕ → σ → ε → Option σ)

/-- An event that is for no component changes nothing. -/
def step (st : List σ) (e : ε) : Option (List σ) :=
  match key e with
  | none => some st
  | some i => (st[i]?.bind fun s => change i s e).map (st.set i ·)

/-- The events of a component. -/
def events (i : ℕ) (es : List ε) : List ε := es.filter fun e => key e = some i

variable {key change} {st st' : List σ} {e : ε} {es : List ε} {i j : ℕ} {s s' : σ}

theorem events_cons_of_eq (h : key e = some i) :
    events key i (e :: es) = e :: events key i es :=
  List.filter_cons_of_pos (decide_eq_true h)

theorem events_cons_of_ne (h : key e ≠ some i) : events key i (e :: es) = events key i es :=
  List.filter_cons_of_neg (by rwa [decide_eq_true_eq])

theorem events_append (es es' : List ε) :
    events key i (es ++ es') = events key i es ++ events key i es' := List.filter_append _ _

theorem step_of_key (hkey : key e = some i) (hs : st[i]? = some s) :
    step key change st e = (change i s e).map (st.set i ·) := by
  rw [step, hkey]
  simp only [hs, Option.bind_some]

/-- The runs of the components. -/
structure Runs (key : ε → Option ℕ) (change : ℕ → σ → ε → Option σ) (es : List ε)
    (st st' : List σ) : Prop where
  length_eq : st'.length = st.length
  bound : ∀ e ∈ es, ∀ i, key e = some i → i < st.length
  run : ∀ i s, st[i]? = some s → (events key i es).foldlM (change i) s = st'[i]?

theorem runs_nil : Runs key change [] st st' ↔ st = st' := by
  constructor
  · intro h
    apply List.ext_getElem?
    intro i
    cases hs : st[i]? with
    | none =>
      rw [List.getElem?_eq_none_iff, ← h.length_eq] at hs
      exact (List.getElem?_eq_none_iff.mpr hs).symm
    | some s => exact h.run i s hs
  · rintro rfl
    exact ⟨rfl, fun e he => absurd he List.not_mem_nil, fun i s hs => hs.symm⟩

theorem runs_cons_none (hkey : key e = none) :
    Runs key change (e :: es) st st' ↔ Runs key change es st st' := by
  have hne (i : ℕ) : key e ≠ some i := by rw [hkey]; exact fun h => nomatch h
  constructor
  · intro h
    refine ⟨h.length_eq, fun e' he => h.bound e' (List.mem_cons_of_mem e he), fun i s hs => ?_⟩
    rw [← h.run i s hs, events_cons_of_ne (hne i)]
  · intro h
    refine ⟨h.length_eq, fun e' he i hi => ?_, fun i s hs => ?_⟩
    · obtain rfl | he := List.mem_cons.mp he
      · exact absurd hi (hne i)
      · exact h.bound e' he i hi
    · rw [events_cons_of_ne (hne i), h.run i s hs]

theorem runs_cons_some (hkey : key e = some i) (hs : st[i]? = some s) :
    Runs key change (e :: es) st st' ↔
      ∃ s', change i s e = some s' ∧ Runs key change es (st.set i s') st' := by
  obtain ⟨hi, -⟩ := List.getElem?_eq_some_iff.mp hs
  constructor
  · intro h
    have hrun := h.run i s hs
    rw [events_cons_of_eq hkey, List.foldlM_cons,
      List.getElem?_eq_getElem (by rw [h.length_eq]; exact hi)] at hrun
    obtain ⟨s', hchange, hrest⟩ := Option.bind_eq_some_iff.mp hrun
    refine ⟨s', hchange, ?_, fun e' he j hj => ?_, fun j t ht => ?_⟩
    · rw [h.length_eq, List.length_set]
    · rw [List.length_set]
      exact h.bound e' (List.mem_cons_of_mem e he) j hj
    · by_cases hij : i = j
      · subst hij
        rw [List.getElem?_set_self hi] at ht
        obtain rfl := Option.some.inj ht
        rw [hrest, List.getElem?_eq_getElem]
      · rw [List.getElem?_set_ne hij] at ht
        rw [← h.run j t ht, events_cons_of_ne (by rw [hkey]; simpa using hij)]
  · rintro ⟨s', hchange, h⟩
    refine ⟨?_, fun e' he j hj => ?_, fun j t ht => ?_⟩
    · rw [h.length_eq, List.length_set]
    · obtain rfl | he := List.mem_cons.mp he
      · obtain rfl := Option.some.inj (hkey.symm.trans hj)
        exact hi
      · have hbound := h.bound e' he j hj
        rwa [List.length_set] at hbound
    · by_cases hij : i = j
      · subst hij
        obtain rfl := Option.some.inj (hs.symm.trans ht)
        rw [events_cons_of_eq hkey, List.foldlM_cons, hchange]
        exact h.run i s' (List.getElem?_set_self hi)
      · rw [events_cons_of_ne (by rw [hkey]; simpa using hij)]
        exact h.run j t (by rw [List.getElem?_set_ne hij]; exact ht)

/-- **A run changes each component as its own events do.** -/
theorem foldlM_eq_some_iff :
    es.foldlM (step key change) st = some st' ↔ Runs key change es st st' := by
  induction es generalizing st with
  | nil => rw [runs_nil]; exact Option.some_inj
  | cons e es ih =>
    rw [List.foldlM_cons]
    cases hkey : key e with
    | none =>
      rw [runs_cons_none hkey, ← ih, step, hkey]
      rfl
    | some i =>
      cases hs : st[i]? with
      | none =>
        rw [step, hkey]
        simp only [hs]
        refine iff_of_false (fun h => nomatch h) fun h => ?_
        have hbound := h.bound e List.mem_cons_self i hkey
        rw [List.getElem?_eq_none_iff] at hs
        omega
      | some s =>
        rw [runs_cons_some hkey hs, step_of_key hkey hs]
        cases hchange : change i s e with
        | none => exact iff_of_false (fun h => nomatch h) fun ⟨_, h, _⟩ => nomatch h
        | some s' =>
          refine ih.trans ⟨fun h => ⟨s', rfl, h⟩, ?_⟩
          rintro ⟨t, ht, h⟩
          obtain rfl := Option.some.inj ht
          exact h

variable {es' : List ε}

theorem Runs.congr (h : ∀ i, events key i es = events key i es')
    (hruns : Runs key change es st st') : Runs key change es' st st' := by
  refine ⟨hruns.length_eq, fun e he i hi => ?_, fun i s hs => ?_⟩
  · have hin : e ∈ events key i es' := List.mem_filter.mpr ⟨he, decide_eq_true hi⟩
    rw [← h i] at hin
    exact hruns.bound e (List.mem_of_mem_filter hin) i hi
  · rw [← h i]
    exact hruns.run i s hs

/-- **Runs in which each component has the same events** end in the same state. -/
theorem foldlM_congr (h : ∀ i, events key i es = events key i es') :
    es.foldlM (step key change) st = es'.foldlM (step key change) st := by
  apply Option.ext
  intro st'
  rw [foldlM_eq_some_iff, foldlM_eq_some_iff]
  exact ⟨Runs.congr h, Runs.congr fun i => (h i).symm⟩

end Components
