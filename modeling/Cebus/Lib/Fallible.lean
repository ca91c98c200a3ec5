/-!
# Computations that may fail

* `bind_eq_ok`: a sequence of two steps goes well when both do.
* `exists_mapM_iff`: going through a list goes well when it does for each element.
* `Avoids.bind`, `Avoids.foldlM`: a sequence avoids an error when its steps do.
-/

namespace Fallible

variable {ε α β : Type} {a : α} {b : β} {e : ε}

@[simp] theorem ok_bind (f : α → Except ε β) : (Except.ok a >>= f) = f a := rfl

@[simp] theorem error_bind (f : α → Except ε β) : (Except.error e >>= f) = Except.error e := rfl

@[simp] theorem map_ok (f : α → β) : f <$> (Except.ok a : Except ε α) = Except.ok (f a) := rfl

@[simp] theorem map_error (f : α → β) :
    f <$> (Except.error e : Except ε α) = Except.error e := rfl

theorem bind_eq_ok {x : Except ε α} {f : α → Except ε β} :
    (x >>= f) = .ok b ↔ ∃ a, x = .ok a ∧ f a = .ok b := by
  cases x with
  | error e => simp
  | ok a => simp

theorem toOption_eq_some {x : Except ε α} : x.toOption = some a ↔ x = .ok a := by
  cases x with
  | error e => simp [Except.toOption]
  | ok a => simp [Except.toOption]

theorem map_eq_ok {x : Except ε α} {f : α → β} : f <$> x = .ok b ↔ ∃ a, x = .ok a ∧ f a = b := by
  cases x with
  | error e => simp
  | ok a => simp

/-- Going through a list goes well when it goes well for each element. -/
theorem exists_mapM_iff {f : α → Except ε β} {l : List α} :
    (∃ bs, l.mapM f = .ok bs) ↔ ∀ a ∈ l, ∃ b, f a = .ok b := by
  induction l with
  | nil => exact iff_of_true ⟨[], rfl⟩ (fun _ hmem => nomatch hmem)
  | cons a l ih =>
    rw [List.forall_mem_cons, ← ih]
    constructor
    · rintro ⟨bs, h⟩
      rw [List.mapM_cons] at h
      obtain ⟨b, hb, h⟩ := bind_eq_ok.mp h
      obtain ⟨rest, hrest, -⟩ := bind_eq_ok.mp h
      exact ⟨⟨b, hb⟩, ⟨rest, hrest⟩⟩
    · rintro ⟨⟨b, hb⟩, ⟨rest, hrest⟩⟩
      refine ⟨b :: rest, ?_⟩
      rw [List.mapM_cons, hb, ok_bind, hrest]
      rfl

/-- Going through a list when each element either has a result or fails in the same way. -/
theorem mapM_eq_ite {f : α → Except ε β} {good : α → Bool} {g : α → β} {l : List α}
    (h : ∀ a ∈ l, f a = if good a then .ok (g a) else .error e) :
    l.mapM f = if l.all good then .ok (l.map g) else .error e := by
  induction l with
  | nil => rfl
  | cons a l ih =>
    obtain ⟨hfirst, hrest⟩ := List.forall_mem_cons.mp h
    rw [List.mapM_cons, hfirst, ih hrest, List.all_cons]
    cases good a with
    | false => rfl
    | true =>
      cases l.all good with
      | false => rfl
      | true => rfl

/-! ## Avoiding an error -/

/-- The computation does not fail with `e`, and a result meets `P`. -/
def Avoids (e : ε) (P : α → Prop) : Except ε α → Prop
  | .ok a => P a
  | .error e' => e' ≠ e

variable {P : α → Prop} {Q : β → Prop} {x : Except ε α}

theorem Avoids.ne_error (h : Avoids e P x) : x ≠ .error e := by
  rintro rfl
  exact h rfl

theorem Avoids.mono {Q : α → Prop} (h : Avoids e P x) (hPQ : ∀ a, P a → Q a) : Avoids e Q x := by
  cases x with
  | error e' => exact h
  | ok a => exact hPQ a h

theorem Avoids.bind {f : α → Except ε β} (h : Avoids e P x) (hf : ∀ a, P a → Avoids e Q (f a)) :
    Avoids e Q (x >>= f) := by
  cases x with
  | error e' => exact h
  | ok a => exact hf a h

theorem Avoids.foldlM {γ : Type} {f : α → γ → Except ε α} {l : List γ} (ha : P a)
    (hf : ∀ c ∈ l, ∀ a, P a → Avoids e P (f a c)) : Avoids e P (l.foldlM f a) := by
  induction l generalizing a with
  | nil => exact ha
  | cons c l ih =>
    rw [List.foldlM_cons]
    apply (hf c List.mem_cons_self a ha).bind
    intro b hb
    exact ih hb fun d hd => hf d (List.mem_cons_of_mem c hd)

end Fallible
