import Cebus.Utils.Threading

/-!
# The blocking read of a future

`cb_future_get` waits once, without a look at whether its result is there.

* `reads_iff`: the read neither returns early nor gets stuck exactly in the runs
  in which the wait begins before the result is stored and does not end without
  a signal.
* `returned_eq`: in these runs the result read is the value of the future.
-/

namespace Cebus.Future

open Transition

variable {α : Type} {s t : System α} {e : Event α}

/-- The getter has not returned without a result, and it does not wait for a
    signal that is not going to come any more. -/
def Reads (s : System α) : Prop :=
  s.getter ≠ .returned none ∧ ¬ (s.result.isSome ∧ s.callers = 0 ∧ s.getter = .waiting)

/-- The wait begins before the result is stored, and ends only after it. -/
def WaitsInTime (s : System α) : Event α → Prop
  | .getWait => s.result = none
  | .spuriousWakeUp => s.result ≠ none
  | _ => True

/-- Nobody has stored the result, and the future is still to be set or one
    thread is about to call the continuation. -/
def Awaited (s : System α) : Prop :=
  s.result = none ∧
    (s.state = .pending ∧ s.continuation = true ∧ s.callers = 0 ∨
      s.state = .ready ∧ s.callers = 1)

/-- The result is stored, and nobody is going to store it again. -/
def Stored (s : System α) : Prop :=
  s.result = some s.valueStorage ∧ s.state = .ready ∧ s.callers = 0

/-- What holds at each place of the getter. -/
def Inv (s : System α) : Prop :=
  match s.getter with
  | .callThen => s.result = none ∧ s.continuation = false ∧ s.callers = 0
  | .callContinuation => s.state = .ready ∧ s.callers = 0
  | .callWait => Awaited s ∨ Stored s
  | .waiting => Awaited s
  | .signalled => Stored s
  | .returned r => Stored s ∧ r = s.result

theorem inv_init (value : α) : Inv (init value) := ⟨rfl, rfl, rfl⟩

theorem Inv.reads (h : Inv s) : Reads s := by
  unfold Inv at h
  split at h <;> rename_i hg <;> simp only [Reads, hg]
  case h_4 => simp [h.1]
  case h_6 => simp [h.2, h.1.1]
  all_goals simp

theorem Stored.set (h : Stored s) (data : α) : set s data = s := by
  rw [Future.set, h.2.1]

theorem Awaited.set (h : Awaited s) (data : α) : Awaited (set s data) := by
  obtain ⟨hr, ⟨hs, hc, hk⟩ | ⟨hs, hk⟩⟩ := h
  · rw [Future.set, hs]
    exact ⟨hr, Or.inr ⟨rfl, by simp [hc, hk]⟩⟩
  · rw [Future.set, hs]
    exact ⟨hr, Or.inr ⟨hs, hk⟩⟩

theorem Awaited.getContinuation (h : Awaited s) (hk : 0 < s.callers) :
    Stored { getContinuation s with callers := s.callers - 1 } := by
  obtain ⟨-, ⟨-, -, h0⟩ | ⟨hs, h1⟩⟩ := h
  · omega
  · exact ⟨rfl, hs, by simp [h1]⟩

/-! ## The steps -/

theorem Inv.afterSet (h : Inv s) (data : α) : Inv (set s data) := by
  have hgetter : (set s data).getter = s.getter := by unfold Future.set; split <;> rfl
  unfold Inv at h ⊢
  rw [hgetter]
  split at h <;> rename_i hg
  · obtain ⟨hr, hc, hk⟩ := h
    unfold Future.set
    split <;> simp [hr, hc, hk]
  · rw [Future.set, h.1]
    exact h
  · obtain h | h := h
    · exact Or.inl (h.set data)
    · rw [Stored.set h data]
      exact Or.inr h
  · exact h.set data
  · rw [h.set data]
    exact h
  · rw [h.1.set data]
    exact h

/-- The continuation that `cb_future_set` calls finds the getter waiting, or
    about to wait. -/
theorem Inv.afterContinuation (h : Inv s) (hk : 0 < s.callers) :
    Inv { getContinuation s with callers := s.callers - 1 } := by
  unfold Inv at h
  split at h <;> rename_i hg
  · omega
  · omega
  · obtain hst | hst := h
    · simpa only [Inv, getContinuation, hg] using Or.inr (hst.getContinuation hk)
    · exact absurd hst.2.2 (by omega)
  · simpa only [Inv, getContinuation, hg] using h.getContinuation hk
  · exact absurd h.2.2 (by omega)
  · exact absurd h.1.2.2 (by omega)

theorem Inv.step (h : Inv s) (hC : WaitsInTime s e) (hs : step s e = some t) : Inv t := by
  cases e with
  | set data =>
    obtain rfl := Option.some.inj hs
    exact h.afterSet data
  | setContinuation =>
    simp only [Future.step, Option.ite_none_right_eq_some, Option.some_inj] at hs
    obtain ⟨hk, rfl⟩ := hs
    exact h.afterContinuation hk
  | getThen =>
    cases hg : s.getter <;> simp [Future.step, hg] at hs
    simp only [Inv, hg] at h
    obtain ⟨hr, hc, hk⟩ := h
    subst hs
    cases hst : s.state
    · simp [Future.then, hst, Inv, Awaited, hr, hk]
    · simp [Future.then, hst, Inv, hk]
  | getContinuation =>
    cases hg : s.getter <;> simp [Future.step, hg] at hs
    simp only [Inv, hg] at h
    subst hs
    exact Or.inr ⟨rfl, h.1, h.2⟩
  | getWait =>
    cases hg : s.getter <;> simp [Future.step, hg] at hs
    simp only [Inv, hg] at h
    subst hs
    have hnone : s.result = none := hC
    refine h.resolve_right fun hst => ?_
    rw [hst.1] at hnone
    cases hnone
  | wakeUp =>
    cases hg : s.getter <;> simp [Future.step, hg] at hs
    simp only [Inv, hg] at h
    subst hs
    exact ⟨h, rfl⟩
  | spuriousWakeUp =>
    cases hg : s.getter <;> simp [Future.step, hg] at hs
    simp only [Inv, hg] at h
    exact absurd h.1 hC

/-- A wait that begins too late is never ended by a signal, and one that ends
    too early has no result to return. -/
theorem Inv.waitsInTime (h : Inv s) (hs : Future.step s e = some t) (ht : Reads t) :
    WaitsInTime s e := by
  cases e with
  | getWait =>
    cases hg : s.getter <;> simp [Future.step, hg] at hs
    simp only [Inv, hg] at h
    subst hs
    obtain h | h := h
    · exact h.1
    · exact absurd ⟨by simp [h.1], h.2.2, rfl⟩ ht.2
  | spuriousWakeUp =>
    cases hg : s.getter <;> simp [Future.step, hg] at hs
    subst hs
    exact fun hr => ht.1 (by simp [hr])
  | _ => trivial

/-- **A blocking read neither returns early nor gets stuck exactly in the runs
    in which its wait begins before the result is stored and ends after it.** -/
theorem reads_iff (value : α) (es : List (Event α)) :
    Always step Reads (init value) es ↔ Meets step WaitsInTime (init value) es :=
  always_iff_meets (I := Inv) (inv_init value) (fun _ => Inv.reads) (fun _ _ _ => Inv.step)
    (fun _ _ _ => Inv.waitsInTime)

/-- A future that is set before `cb_future_then` leaves the getter waiting. -/
theorem not_always_reads : ¬ ∀ (value : ℕ) es, Always step Reads (init value) es := by
  intro h
  have hlast := h 0 [.set 1, .getThen, .getContinuation, .getWait] _ _ List.prefix_rfl rfl
  exact hlast.2 (by decide)

/-- What is read is the value the future is set to. -/
theorem returned_eq {value : α} {es : List (Event α)} {r : Option α}
    (h : Meets step WaitsInTime (init value) es) (ht : run step (init value) es = some t)
    (hr : t.getter = .returned r) : r = some t.valueStorage ∧ t.state = .ready := by
  have hI := h.invariant (inv_init value) (fun _ _ _ => Inv.step) ht
  simp only [Inv, hr] at hI
  exact ⟨hI.2.trans hI.1.1, hI.1.2.1⟩

end Cebus.Future
