import Cebus.Transport.ZmqTransport

/-!
# The order of outgoing messages

`cb_zmq_transport_outbound_push` adds at the head of the list, and the loop goes
through the list it took from the head.

* `queue_holds`: in every run each action sent is executed, in the batch or in
  the queue, and is so once.
* `inOrder_iff`: a run executes the actions in the order of the sends exactly
  when each action executed is the only one left in its batch.
-/

namespace Cebus.ZmqTransport

open LinkedList Transition

variable {μ π : Type} {t u : Transport μ π} {b q : List (ℕ × SendInfo μ π)}

/-- What the sends ask the sockets to be given, in the order of the sends. -/
def deliveries (sent : List (ℕ × SendInfo μ π)) : List (π × μ) :=
  sent.flatMap fun s => s.2.peers.map (·, s.2.message)

/-- The executed actions are the first of those sent, and the sockets have been
    given nothing out of this order. -/
def InOrder (t : Transport μ π) : Prop :=
  t.executed <+: t.sent ∧ List.Sublist t.handed (deliveries t.sent)

/-- An action is executed only as the last one of its batch. -/
def LastOfBatch (t : Transport μ π) : Event μ π → Prop
  | .execute _ => ∀ a action, t.node = some a → t.memory.read a = some action → action.next = none
  | _ => True

/-! ## The queue -/

/-- The batch and the queue are chains with the actions `b` and `q`, and with
    those executed they make up all that were sent. -/
structure Holds (t : Transport μ π) (b q : List (ℕ × SendInfo μ π)) : Prop where
  batch : Chain t.memory t.node b
  queue : Chain t.memory t.outboundActionHead q
  nodup : (t.sent.map Prod.fst).Nodup
  lt_length : ∀ a ∈ t.sent.map Prod.fst, a < t.memory.length
  perm : t.sent.Perm (t.executed ++ b ++ q)
  handed : List.Sublist t.handed (deliveries t.executed)

theorem holds_start : Holds (start : Transport μ π) [] [] :=
  ⟨rfl, rfl, List.nodup_nil, by simp [start], List.Perm.refl _, List.Sublist.refl _⟩

theorem holds_send (h : Holds t b q) (message : μ) (peers : List π) :
    Holds (send t message peers) b ((t.memory.length, ⟨message, peers⟩) :: q) where
  batch := h.batch.alloc
  queue := h.queue.cons
  nodup := by
    rw [send, outboundPush, List.map_append, List.nodup_append]
    refine ⟨h.nodup, by simp, fun a ha b hb => ?_⟩
    have := h.lt_length a ha
    simp at hb
    omega
  lt_length a ha := by
    simp only [send, outboundPush, List.map_append, List.map_cons, List.map_nil,
      List.mem_append, List.mem_singleton, Mem.length_alloc] at ha ⊢
    obtain ha | rfl := ha
    · exact Nat.lt_succ_of_lt (h.lt_length a ha)
    · exact Nat.lt_succ_self _
  perm := (h.perm.append_right _).trans
    ((List.perm_append_singleton _ _).trans List.perm_middle.symm)
  handed := h.handed

theorem holds_wake (h : Holds t b q) (ht : t.node = none) :
    b = [] ∧ Holds (outboundTake t) q [] := by
  have hb := h.batch
  rw [ht, chain_none] at hb
  refine ⟨hb, h.queue, rfl, h.nodup, h.lt_length, ?_, h.handed⟩
  have := h.perm
  rw [hb, List.append_nil] at this
  rwa [List.append_nil]

theorem deliveries_append (s s' : List (ℕ × SendInfo μ π)) :
    deliveries (s ++ s') = deliveries s ++ deliveries s' :=
  List.flatMap_append

theorem outboundActionSend_sublist (a : ℕ) (data : SendInfo μ π) (connected : π → Bool) :
    List.Sublist (outboundActionSend data connected) (deliveries [(a, data)]) := by
  rw [deliveries, List.flatMap_singleton]
  exact (List.filter_sublist ..).map _

/-- Executing the first action of the batch finds its cell, -/
theorem holds_execute {a : ℕ} {x : SendInfo μ π} (h : Holds t ((a, x) :: b) q)
    (connected : π → Bool) :
    ∃ n u, t.node = some a ∧ t.memory.read a = some ⟨x, n⟩ ∧
      outboundExecute t connected = some u ∧ u.sent = t.sent ∧
      u.executed = t.executed ++ [(a, x)] ∧ Chain u.memory n b ∧ Holds u b q := by
  obtain ⟨hnode, n, hn, -⟩ := id h.batch
  have hb := h.batch
  rw [hnode] at hb
  obtain ⟨n', hn', hpop⟩ := Chain.pop hb
  obtain rfl : n = n' := by simpa [hn] using hn'
  have hexec : outboundExecute t connected = some { t with
      node := n
      memory := t.memory.free a
      executed := t.executed ++ [(a, x)]
      handed := t.handed ++ outboundActionSend x connected } := by
    simp [outboundExecute, hnode, hn]
  refine ⟨n, _, hnode, hn, hexec, rfl, rfl, hpop, ?_⟩
  refine ⟨hpop, ?_, h.nodup, ?_, ?_, ?_⟩
  · -- the queue does not pass through the freed cell
    have hnd := (h.perm.map Prod.fst).nodup_iff.mp h.nodup
    rw [List.map_append, List.nodup_append] at hnd
    refine h.queue.congr fun d hd => Mem.read_free_ne ?_
    rintro rfl
    exact hnd.2.2 a (by simp) a hd rfl
  · simpa using h.lt_length
  · simpa using h.perm
  · rw [deliveries_append]
    exact h.handed.append (outboundActionSend_sublist a x connected)

/-- What the batch and the queue of a state are after a step. -/
theorem holds_step (h : Holds t b q) {e : Event μ π} (hs : step t e = some u) :
    (∃ message peers, e = .send message peers ∧ u = send t message peers ∧
        Holds u b ((t.memory.length, ⟨message, peers⟩) :: q)) ∨
      (e = .wake ∧ b = [] ∧ u = outboundTake t ∧ Holds u q []) ∨
      ∃ connected a x n b', e = .execute connected ∧ b = (a, x) :: b' ∧ t.node = some a ∧
        t.memory.read a = some ⟨x, n⟩ ∧ u.sent = t.sent ∧ u.executed = t.executed ++ [(a, x)] ∧
        Chain u.memory n b' ∧ Holds u b' q := by
  cases e with
  | send message peers =>
    obtain rfl := Option.some.inj hs
    exact Or.inl ⟨message, peers, rfl, rfl, holds_send h message peers⟩
  | wake =>
    simp only [step, Option.ite_none_right_eq_some, Option.some_inj] at hs
    obtain ⟨hnode, rfl⟩ := hs
    obtain ⟨hb, h⟩ := holds_wake h hnode
    exact Or.inr (Or.inl ⟨rfl, hb, rfl, h⟩)
  | execute connected =>
    cases b with
    | nil =>
      have hnode : t.node = none := h.batch
      simp [step, outboundExecute, hnode] at hs
    | cons ax b =>
      obtain ⟨a, x⟩ := ax
      obtain ⟨n, u', hnode, hn, hu', hsent, hexec, hc, hu⟩ := holds_execute h connected
      obtain rfl := Option.some.inj (hu'.symm.trans hs)
      exact Or.inr (Or.inr ⟨connected, a, x, n, b, rfl, rfl, hnode, hn, hsent, hexec, hc, hu⟩)

/-- **No action is lost or executed twice**, whatever the order of the steps. -/
theorem queue_holds {es : List (Event μ π)} (h : run step start es = some t) :
    ∃ b q, Holds t b q := by
  refine run_induction (I := fun t : Transport μ π => ∃ b q, Holds t b q) ⟨[], [], holds_start⟩
    (fun t e u ⟨b, q, hI⟩ hs => ?_) h
  obtain ⟨message, peers, -, -, hu⟩ | ⟨-, -, -, hu⟩ |
    ⟨connected, a, x, n, b', -, -, -, -, -, -, -, hu⟩ := holds_step hI hs
  · exact ⟨_, _, hu⟩
  · exact ⟨_, _, hu⟩
  · exact ⟨_, _, hu⟩

/-! ## The order -/

/-- The pushes since the last wake-up lie in the queue, and those before it in
    the batch, the last one first. -/
def Reversed (t : Transport μ π) (b q : List (ℕ × SendInfo μ π)) : Prop :=
  Holds t b q ∧ t.sent = t.executed ++ b.reverse ++ q.reverse

theorem Reversed.inOrder (h : Reversed t b q) : InOrder t := by
  obtain ⟨h, hsent⟩ := h
  rw [List.append_assoc] at hsent
  refine ⟨hsent ▸ List.prefix_append _ _, h.handed.trans ?_⟩
  rw [hsent, deliveries_append]
  exact List.sublist_append_left _ _

theorem reversed_step (h : Reversed t b q) {e : Event μ π} (hC : LastOfBatch t e)
    (hs : step t e = some u) : ∃ b' q', Reversed u b' q' := by
  obtain ⟨h, hsent⟩ := h
  obtain ⟨message, peers, -, rfl, hu⟩ | ⟨-, rfl, rfl, hu⟩ |
    ⟨connected, a, x, n, b', rfl, rfl, hnode, hn, hus, hue, hc, hu⟩ := holds_step h hs
  · refine ⟨_, _, hu, ?_⟩
    rw [List.reverse_cons, ← List.append_assoc]
    exact congrArg (· ++ _) hsent
  · refine ⟨_, _, hu, ?_⟩
    simpa [outboundTake] using hsent
  · obtain rfl : n = none := hC a _ hnode hn
    obtain rfl := chain_none.mp hc
    refine ⟨_, _, hu, ?_⟩
    rw [hus, hue, hsent]
    simp

/-- An action that is not the last of its batch comes before one sent earlier. -/
theorem Reversed.lastOfBatch (h : Reversed t b q) {e : Event μ π} (hs : step t e = some u)
    (hu : InOrder u) : LastOfBatch t e := by
  obtain ⟨h, hsent⟩ := h
  obtain ⟨message, peers, rfl, -, -⟩ | ⟨rfl, -, -, -⟩ |
    ⟨connected, a, x, n, b', rfl, rfl, hnode, hn, hus, hue, hc, -⟩ := holds_step h hs
  · trivial
  · trivial
  · intro a' action ha' haction
    obtain rfl : a = a' := Option.some.inj (hnode.symm.trans ha')
    obtain rfl := Option.some.inj (hn.symm.trans haction)
    have hpre := hu.1
    rw [hus, hue, hsent, List.append_assoc, List.prefix_append_right_inj] at hpre
    cases b' using List.reverseRecOn with
    | nil =>
      obtain rfl : n = none := hc
      rfl
    | append_singleton b' by' =>
      -- the next action in the order is `by'`, at another address
      have hnd := (h.perm.map Prod.fst).nodup_iff.mp h.nodup
      obtain rfl : (a, x) = by' := by simpa using hpre
      simp [List.nodup_append] at hnd

/-- **Outgoing messages keep their order exactly in the runs in which every
    action is executed as the last of its batch.** -/
theorem inOrder_iff (es : List (Event μ π)) :
    Always step InOrder start es ↔ Meets step LastOfBatch start es :=
  always_iff_meets (I := fun t => ∃ b q, Reversed t b q) ⟨[], [], holds_start, rfl⟩
    (fun _ ⟨_, _, h⟩ => h.inOrder) (fun _ _ _ ⟨_, _, h⟩ => reversed_step h)
    (fun _ _ _ ⟨_, _, h⟩ => h.lastOfBatch)

/-- Two sends between two wake-ups are executed the other way round. -/
theorem not_always_inOrder :
    ¬ ∀ es : List (Event ℕ ℕ), Always step InOrder start es := by
  intro h
  have hlast := h [.send 1 [7], .send 2 [7], .wake, .execute fun _ => true] _ _ List.prefix_rfl rfl
  exact absurd hlast.1 (by decide)

end Cebus.ZmqTransport
