import Cebus.Dispatch.MessageDispatcher
import Cebus.Lib.Transition

/-!
# The continuation of a dispatch

The counter is set to the number of the invokers, and each handler that was
enqueued takes one off it. An invoker whose queue is unknown is skipped.

* `counts_run`: in every run the counter is the number of the handlers still to
  be counted and of the invokers that are skipped.
* `Counts.continued_eq_zero`: one skipped invoker, and the continuation never runs.
* `continuesOnce_iff`: the continuation runs once, after the last handler, in
  every run exactly when each invoker names a queue of the dispatcher.
-/

namespace Cebus.Dispatch

open Transition

variable {τ φ : Type} {dispatchQueues : List CString} {s t : State φ}

/-- Dispatch has returned, and no thread has or will get an entry of it. -/
def Quiescent (s : State φ) : Prop :=
  s.rest = [] ∧ s.queued = [] ∧ s.invoking = [] ∧ s.returned = [] ∧ s.counted = []

/-- The continuation has not run before the handlers enqueued have returned, not
    run twice, and has run when there is nothing left to do. A thread is done with
    a handler when `cb_message_dispatch_set_handled` has returned. -/
structure ContinuesOnce (s : State φ) : Prop where
  after : 0 < s.continued → s.queued = [] ∧ s.invoking = []
  once : s.continued ≤ 1
  done : Quiescent s → s.continued = 1

/-- The queue of an invoker is unknown. -/
def unknown (dispatchQueues : List CString) (invoker : MessageHandlerInvoker φ) : Bool :=
  (getDispatchQueue dispatchQueues invoker.dispatchQueue).isNone

theorem not_unknown_iff {invoker : MessageHandlerInvoker φ} :
    ¬ unknown dispatchQueues invoker = true ↔ invoker.dispatchQueue ∈ dispatchQueues := by
  simp [unknown, getDispatchQueue, CString.strcmpEq]

/-! ## The counter -/

/-- Of `n` unknown invokers those skipped are left in the counter, and it is zero
    when, and only when, one thread is to run the continuation or has run it. -/
structure Counts (dispatchQueues : List CString) (n : ℕ) (s : State φ) : Prop where
  count : s.remainingHandlersCount.toNat + s.rest.countP (unknown dispatchQueues) =
    s.rest.length + s.queued.length + s.invoking.length + s.returned.length + n
  last : s.counted.countP (fun c => c.2 = 0) + s.continued =
    if s.remainingHandlersCount.toNat = 0 then 1 else 0

theorem counts_dispatchAll (invokers : Option (MessageHandlerInvokerEntry φ)) :
    Counts dispatchQueues ((dispatchAll invokers).rest.countP (unknown dispatchQueues))
      (dispatchAll invokers) := by
  unfold dispatchAll
  split
  · exact ⟨rfl, rfl⟩
  · next entry =>
    split_ifs with hempty
    · exact ⟨rfl, rfl⟩
    · have hlen : (UInt64.ofNat entry.invokers.length).toNat = entry.invokers.length :=
        UInt64.toNat_ofNat_of_lt' entry.size_lt
      have hpos : entry.invokers.length ≠ 0 := fun h => hempty (by simpa using h)
      refine ⟨?_, ?_⟩
      · show (UInt64.ofNat entry.invokers.length).toNat + _ = _
        rw [hlen]
        rfl
      · show 0 = if (UInt64.ofNat entry.invokers.length).toNat = 0 then 1 else 0
        rw [hlen, if_neg hpos]

/-- The entry found is moved to the front. -/
theorem perm_eraseP {α : Type} {p : α → Bool} {l : List α} {a : α} (h : l.find? p = some a) :
    l.Perm (a :: l.eraseP p) := by
  obtain ⟨hpa, as, bs, rfl, has⟩ := List.find?_eq_some_iff_append.mp h
  rw [List.eraseP_append_right _ (by simpa using has), List.eraseP_cons_of_pos hpa]
  exact List.perm_middle

theorem length_eraseP_add_one {α : Type} {p : α → Bool} {l : List α} {a : α}
    (h : l.find? p = some a) : l.length = (l.eraseP p).length + 1 := by
  rw [(perm_eraseP h).length_eq, List.length_cons]

/-- An invoker leaves the rest, and its handler is enqueued if its queue is known. -/
theorem Counts.next {n : ℕ} {invoker : MessageHandlerInvoker φ}
    {rest : List (MessageHandlerInvoker φ)} (h : Counts dispatchQueues n s)
    (hrest : s.rest = invoker :: rest) :
    Counts dispatchQueues n (dispatchOne dispatchQueues { s with rest } invoker) := by
  obtain ⟨hcount, hlast⟩ := h
  rw [hrest, List.countP_cons, List.length_cons] at hcount
  unfold dispatchOne
  split
  · next hnone =>
    -- the invoker is skipped
    have hunknown : unknown dispatchQueues invoker = true := by simp [unknown, hnone]
    rw [if_pos hunknown] at hcount
    exact ⟨by dsimp only; omega, hlast⟩
  · next hsome =>
    have hknown : ¬ unknown dispatchQueues invoker = true := by simp [unknown, hsome]
    rw [if_neg hknown] at hcount
    refine ⟨?_, hlast⟩
    dsimp only
    rw [List.length_append, List.length_singleton]
    omega

/-- A handler that has returned is in the counter. -/
theorem Counts.toNat_pred {n : ℕ} (h : Counts dispatchQueues n s)
    (hreturned : 0 < s.returned.length) :
    0 < s.remainingHandlersCount.toNat ∧
      (s.remainingHandlersCount - 1).toNat = s.remainingHandlersCount.toNat - 1 := by
  have hcount := h.count
  have hle := s.rest.countP_le_length (p := unknown dispatchQueues)
  refine ⟨by omega, ?_⟩
  rw [UInt64.toNat_sub_of_le]
  · rfl
  · rw [UInt64.le_iff_toNat_le]
    show 1 ≤ _
    omega

/-- The decrement, which is remembered for the rest of the call. -/
theorem Counts.pred {n : ℕ} {invoker : MessageHandlerInvoker φ}
    {returned : List (MessageHandlerInvoker φ)} (h : Counts dispatchQueues n s)
    (hlen : s.returned.length = returned.length + 1) :
    Counts dispatchQueues n { s with
      returned
      counted := (invoker, s.remainingHandlersCount - 1) :: s.counted
      remainingHandlersCount := s.remainingHandlersCount - 1 } := by
  obtain ⟨hpos, hpred⟩ := h.toNat_pred (by omega)
  obtain ⟨hcount, hlast⟩ := h
  refine ⟨?_, ?_⟩
  · dsimp only
    rw [hpred]
    omega
  · dsimp only
    rw [if_neg (by omega)] at hlast
    have hzero : s.remainingHandlersCount - 1 = 0 ↔ s.remainingHandlersCount.toNat - 1 = 0 := by
      rw [← UInt64.toNat_inj, hpred]
      rfl
    simp only [List.countP_cons, decide_eq_true_eq, hzero, hpred]
    omega

theorem counts_step {n : ℕ} {e : Event} (h : Counts dispatchQueues n s)
    (hs : step dispatchQueues s e = some t) : Counts dispatchQueues n t := by
  cases e with
  | dispatchOne =>
    simp only [step] at hs
    split at hs
    · cases hs
    · next invoker rest hrest =>
      obtain rfl := Option.some.inj hs
      exact h.next hrest
  | invoke name =>
    simp only [step] at hs
    split at hs
    · cases hs
    · split at hs
      · cases hs
      · next invoker hfind =>
        obtain rfl := Option.some.inj hs
        have hcount := h.count
        have hlen := length_eraseP_add_one hfind
        refine ⟨?_, h.last⟩
        dsimp only
        rw [List.length_cons]
        omega
  | ret name =>
    simp only [step] at hs
    split at hs
    · cases hs
    · next invoker hfind =>
      obtain rfl := Option.some.inj hs
      have hcount := h.count
      have hlen := length_eraseP_add_one hfind
      refine ⟨?_, h.last⟩
      dsimp only
      rw [List.length_cons]
      omega
  | count name =>
    simp only [step] at hs
    split at hs
    · cases hs
    · next invoker hfind =>
      obtain rfl := Option.some.inj hs
      exact h.pred (length_eraseP_add_one hfind)
  | finish name =>
    simp only [step] at hs
    split at hs
    · cases hs
    · next invoker remaining hfind =>
      obtain rfl := Option.some.inj hs
      have hperm := (perm_eraseP hfind).countP_eq (fun c => c.2 = 0)
      simp only [List.countP_cons, decide_eq_true_eq] at hperm
      refine ⟨h.count, ?_⟩
      dsimp only
      rw [← h.last, hperm]
      by_cases hzero : remaining = 0
      · rw [if_pos hzero, if_pos hzero]
        omega
      · rw [if_neg hzero, if_neg hzero]
        omega

theorem counts_run {es : List Event} (invokers : Option (MessageHandlerInvokerEntry φ))
    (h : run (step dispatchQueues) (dispatchAll invokers) es = some t) :
    Counts dispatchQueues ((dispatchAll invokers).rest.countP (unknown dispatchQueues)) t :=
  run_induction (counts_dispatchAll invokers) (fun _ _ _ => counts_step) h

/-! ## Every run comes to an end -/

/-- The steps that are left. -/
def work (s : State φ) : ℕ :=
  5 * s.rest.length + 4 * s.queued.length + 3 * s.invoking.length + 2 * s.returned.length +
    s.counted.length

theorem work_dispatchOne (s : State φ) (invoker : MessageHandlerInvoker φ) :
    work (dispatchOne dispatchQueues s invoker) ≤ work s + 4 := by
  unfold dispatchOne
  split
  · omega
  · simp only [work, List.length_append, List.length_singleton]
    omega

/-- While there is something left to do, some thread can go on with it. -/
theorem exists_step (dispatchQueues : List CString) (s : State φ) (h : ¬ Quiescent s) :
    ∃ e t, step dispatchQueues s e = some t ∧ work t < work s := by
  obtain ⟨rest, queued, invoking, returned, counted, count, continued⟩ := s
  cases counted with
  | cons c counted =>
    have hfind : (c :: counted).find? (fun d => ofQueue c.1.dispatchQueue d.1) = some c := by
      simp [ofQueue]
    refine ⟨.finish c.1.dispatchQueue, _, by simp only [step, hfind]; rfl, ?_⟩
    have hlen := length_eraseP_add_one hfind
    simp only [work, List.length_cons] at hlen ⊢
    omega
  | nil =>
  cases returned with
  | cons i returned =>
    have hfind : (i :: returned).find? (ofQueue i.dispatchQueue) = some i := by simp [ofQueue]
    refine ⟨.count i.dispatchQueue, _, by simp only [step, hfind]; rfl, ?_⟩
    have hlen := length_eraseP_add_one hfind
    simp only [work, List.length_cons, List.length_nil] at hlen ⊢
    omega
  | nil =>
  cases invoking with
  | cons i invoking =>
    have hfind : (i :: invoking).find? (ofQueue i.dispatchQueue) = some i := by simp [ofQueue]
    refine ⟨.ret i.dispatchQueue, _, by simp only [step, hfind]; rfl, ?_⟩
    have hlen := length_eraseP_add_one hfind
    simp only [work, List.length_cons, List.length_nil] at hlen ⊢
    omega
  | nil =>
  cases queued with
  | cons i queued =>
    -- no thread is busy, so the one of the queue takes the entry
    have hfind : (i :: queued).find? (ofQueue i.dispatchQueue) = some i := by simp [ofQueue]
    refine ⟨.invoke i.dispatchQueue, _, by simp only [step, busy, hfind]; rfl, ?_⟩
    have hlen := length_eraseP_add_one hfind
    simp only [work, List.length_cons, List.length_nil] at hlen ⊢
    omega
  | nil =>
  cases rest with
  | cons i rest =>
    refine ⟨.dispatchOne, _, rfl, ?_⟩
    refine Nat.lt_of_le_of_lt (work_dispatchOne _ i) ?_
    simp only [work, List.length_cons]
    omega
  | nil => exact absurd ⟨rfl, rfl, rfl, rfl, rfl⟩ h

theorem exists_quiescent (dispatchQueues : List CString) (s : State φ) :
    ∃ es t, run (step dispatchQueues) s es = some t ∧ Quiescent t :=
  exists_run_of_measure work (exists_step dispatchQueues) s

/-! ## The continuation -/

/-- With no skipped invoker the counter is that of the handlers alone. -/
theorem Counts.continuesOnce (h : Counts dispatchQueues 0 s) : ContinuesOnce s := by
  obtain ⟨hcount, hlast⟩ := h
  have hle := s.rest.countP_le_length (p := unknown dispatchQueues)
  refine ⟨fun hrun => ?_, ?_, ?_⟩
  · have hzero : s.remainingHandlersCount.toNat = 0 := by
      by_contra hne
      rw [if_neg hne] at hlast
      omega
    refine ⟨List.length_eq_zero_iff.mp ?_, List.length_eq_zero_iff.mp ?_⟩
    · omega
    · omega
  · split_ifs at hlast
    · omega
    · omega
  · rintro ⟨hrest, hqueued, hinvoking, hreturned, hcounted⟩
    simp only [hrest, hqueued, hinvoking, hreturned, List.countP_nil, List.length_nil] at hcount
    rw [hcounted, if_pos (by omega)] at hlast
    simpa using hlast

/-- **A skipped invoker stays in the counter**, and the continuation never runs. -/
theorem Counts.continued_eq_zero {n : ℕ} (h : Counts dispatchQueues (n + 1) s) :
    s.continued = 0 := by
  obtain ⟨hcount, hlast⟩ := h
  have hle := s.rest.countP_le_length (p := unknown dispatchQueues)
  rw [if_neg (by omega)] at hlast
  omega

theorem rest_dispatch (dispatcher : MessageDispatcher τ φ) (messageTypeId : τ) :
    (dispatch dispatcher messageTypeId).rest =
      ((dispatcher.messageInvokers messageTypeId).map (·.invokers)).getD [] := by
  unfold dispatch dispatchAll
  split
  · next h => rw [h]; rfl
  · next entry h =>
    rw [h]
    split_ifs with hempty
    · exact (List.isEmpty_iff.mp hempty).symm
    · rfl

/-- **The continuation runs once, after the last handler, in every run exactly
    when each invoker of the message type names a queue of the dispatcher.** -/
theorem continuesOnce_iff (dispatcher : MessageDispatcher τ φ) (messageTypeId : τ) :
    (∀ es, Always (step dispatcher.dispatchQueues) ContinuesOnce
        (dispatch dispatcher messageTypeId) es) ↔
      ∀ entry, dispatcher.messageInvokers messageTypeId = some entry →
        ∀ invoker ∈ entry.invokers, invoker.dispatchQueue ∈ dispatcher.dispatchQueues := by
  have hcond : (∀ entry, dispatcher.messageInvokers messageTypeId = some entry →
      ∀ invoker ∈ entry.invokers, invoker.dispatchQueue ∈ dispatcher.dispatchQueues) ↔
      (dispatch dispatcher messageTypeId).rest.countP (unknown dispatcher.dispatchQueues) = 0 := by
    rw [rest_dispatch, List.countP_eq_zero]
    cases dispatcher.messageInvokers messageTypeId with
    | none => simp
    | some entry => simp only [not_unknown_iff]; simp
  rw [hcond]
  constructor
  · intro h
    obtain ⟨es, t, ht, hq⟩ :=
      exists_quiescent dispatcher.dispatchQueues (dispatch dispatcher messageTypeId)
    have hcounts := counts_run _ ht
    by_contra hne
    obtain ⟨n, hn⟩ := Nat.exists_eq_succ_of_ne_zero hne
    have hnever : t.continued = 0 := Counts.continued_eq_zero (n := n) (hn ▸ hcounts)
    have hdone := (h es es t List.prefix_rfl ht).done hq
    omega
  · intro h es es' t _ ht
    have hcounts := counts_run _ ht
    change Counts _ ((dispatch dispatcher messageTypeId).rest.countP _) t at hcounts
    rw [h] at hcounts
    exact hcounts.continuesOnce

/-- An invoker for the queue `q` in a dispatcher that has only the default one: its
    handler is not enqueued, and dispatch returns with the counter at one. -/
theorem not_continuesOnce :
    ¬ ∀ (dispatcher : MessageDispatcher ℕ ℕ) (messageTypeId : ℕ) (es : List Event),
      Always (step dispatcher.dispatchQueues) ContinuesOnce
        (dispatch dispatcher messageTypeId) es := by
  intro h
  let invoker : MessageHandlerInvoker ℕ := .init (some (CString.ofChars ['q'])) 0
  let dispatcher : MessageDispatcher ℕ ℕ :=
    { (MessageDispatcher.init : MessageDispatcher ℕ ℕ) with
      messageInvokers := fun _ => some ⟨[invoker], by simp [invoker]⟩ }
  have hlast := h dispatcher 0 [.dispatchOne] _ _ List.prefix_rfl rfl
  exact absurd (hlast.done ⟨rfl, rfl, rfl, rfl, rfl⟩) (by decide)

end Cebus.Dispatch
