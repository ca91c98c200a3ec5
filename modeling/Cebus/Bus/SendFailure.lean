import Cebus.Bus.BusImpl
import Cebus.Lib.Transition

/-!
# Futures of commands that are not sent

A send whose message the transport refuses takes the command out of the table of
tasks again, and gives its future to the caller all the same.

* `noOrphan_iff`: no future is orphaned along a run exactly when the transport
  refuses no send of it.
* `refused_stays`: the future of a refused command is never set.
-/

namespace Cebus.Bus

open Transition

variable {ι : Type}

/-- The bus, and the commands sent with the answers of the transport. The future of
    the `k`-th command is that with the number `k`. -/
structure Sending (ι : Type) where
  impl : BusImpl ι
  sent : List (ι × Bool)

/-- A task of the table that a completion can set the future `k` with. -/
def CanSet (impl : BusImpl ι) (id : ι) (k : ℕ) : Prop :=
  ∃ a commandFuture, impl.messageIdTasks id = some a ∧
    impl.commandFutures[a]? = some (some commandFuture) ∧ commandFuture.future = k

/-- Every future that is not set belongs to a command in the table, and that of a
    refused command is set to a failure. -/
def NoOrphan (s : Sending ι) : Prop :=
  ∀ k id ok, s.sent[k]? = some (id, ok) →
    (s.impl.futures[k]? = some none → CanSet s.impl id k) ∧
    (ok = false → ∃ result, s.impl.futures[k]? = some (some result) ∧ result.errorCode ≠ 0)

/-- The transport takes the message. -/
def Taken : Event ι → Prop
  | .send _ _ transportOk => transportOk = true
  | .received _ => True

namespace Sending

/-- A new bus, of which no future has been handed out. -/
def init : Sending ι := ⟨Bus.init, []⟩

variable [DecidableEq ι]

/-- A step of the bus; message ids are not used twice. A fault reaches no state. -/
def step (s : Sending ι) : Event ι → Option (Sending ι)
  | .send id fresh transportOk =>
    if id ∈ s.sent.map Prod.fst then none
    else some ⟨sendToAsync s.impl id fresh transportOk, s.sent ++ [(id, transportOk)]⟩
  | .received message =>
    match handleOnMessageExecutionCompleted s.impl message with
    | .error _ => none
    | .ok impl => some { s with impl }

end Sending

variable {s t : Sending ι}

/-! ## The table, the records and the futures -/

/-- The commands that were taken are in the table, the `k`-th with the `k`-th record,
    which is freed when the future is set. -/
structure Linked (s : Sending ι) : Prop where
  futures : s.impl.futures.length = s.sent.length
  records : s.impl.commandFutures.length = s.sent.length
  nodup : (s.sent.map Prod.fst).Nodup
  task : ∀ id k, s.impl.messageIdTasks id = some k ↔ s.sent[k]? = some (id, true)
  record : ∀ k < s.sent.length,
    (∃ fresh, s.impl.commandFutures[k]? = some (some ⟨fresh, k⟩) ∧
      s.impl.futures[k]? = some none) ∨
    (∃ id result, s.sent[k]? = some (id, true) ∧ s.impl.commandFutures[k]? = some none ∧
      s.impl.futures[k]? = some (some result))

theorem linked_init : Linked (Sending.init : Sending ι) where
  futures := rfl
  records := rfl
  nodup := List.nodup_nil
  task id k := by simp [Sending.init, init]
  record k hk := by simp [Sending.init] at hk

/-- **The future of a refused command is not set.** -/
theorem Linked.refused {id : ι} {k : ℕ} (h : Linked s) (hk : s.sent[k]? = some (id, false)) :
    s.impl.futures[k]? = some none := by
  obtain ⟨hlt, -⟩ := List.getElem?_eq_some_iff.mp hk
  obtain ⟨-, -, hunset⟩ | ⟨id', -, hk', -, -⟩ := h.record k hlt
  · exact hunset
  · rw [hk] at hk'
    cases hk'

theorem Linked.noOrphan_iff_forall (h : Linked s) : NoOrphan s ↔ ∀ p ∈ s.sent, p.2 = true := by
  constructor
  · rintro hno ⟨id, ok⟩ hp
    obtain ⟨k, hk⟩ := List.getElem?_of_mem hp
    cases ok with
    | true => rfl
    | false =>
      obtain ⟨result, hset, -⟩ := (hno k id false hk).2 rfl
      rw [h.refused hk] at hset
      cases hset
  · intro htaken k id ok hk
    obtain rfl : ok = true := htaken _ (List.mem_of_getElem? hk)
    refine ⟨fun hunset => ?_, fun hfalse => by cases hfalse⟩
    obtain ⟨hlt, -⟩ := List.getElem?_eq_some_iff.mp hk
    obtain ⟨fresh, hrecord, -⟩ | ⟨-, result, -, -, hset⟩ := h.record k hlt
    · exact ⟨k, _, (h.task id k).mpr hk, hrecord, rfl⟩
    · rw [hset] at hunset
      cases hunset

/-! ## The steps -/

variable [DecidableEq ι]

/-- A refused send leaves the table as it was before. -/
theorem sendToAsync_messageIdTasks (impl : BusImpl ι) (id : ι) (fresh : CommandResult)
    (transportOk : Bool) :
    (sendToAsync impl id fresh transportOk).messageIdTasks = Function.update impl.messageIdTasks id
      (if transportOk then some impl.commandFutures.length else none) := by
  cases transportOk <;> simp [sendToAsync]

theorem sendToAsync_commandFutures (impl : BusImpl ι) (id : ι) (fresh : CommandResult)
    (transportOk : Bool) :
    (sendToAsync impl id fresh transportOk).commandFutures =
      impl.commandFutures ++ [some ⟨fresh, impl.futures.length⟩] := by
  cases transportOk <;> rfl

theorem sendToAsync_futures (impl : BusImpl ι) (id : ι) (fresh : CommandResult)
    (transportOk : Bool) :
    (sendToAsync impl id fresh transportOk).futures = impl.futures ++ [none] := by
  cases transportOk <;> rfl

theorem linked_send {id : ι} (h : Linked s) (hid : id ∉ s.sent.map Prod.fst)
    (fresh : CommandResult) (transportOk : Bool) :
    Linked ⟨sendToAsync s.impl id fresh transportOk, s.sent ++ [(id, transportOk)]⟩ where
  futures := by simp [sendToAsync_futures, h.futures]
  records := by simp [sendToAsync_commandFutures, h.records]
  nodup := by
    rw [List.map_append, List.nodup_append]
    refine ⟨h.nodup, by simp, fun a ha b hb => ?_⟩
    obtain rfl : b = id := by simpa using hb
    rintro rfl
    exact hid ha
  task id' k := by
    have hnot : s.sent[k]? ≠ some (id, true) := fun hk =>
      hid (List.mem_map_of_mem (List.mem_of_getElem? hk))
    rw [sendToAsync_messageIdTasks, Function.update_apply, getElem?_concat_eq_some]
    by_cases hid' : id' = id
    · subst hid'
      cases transportOk with
      | true => simp [hnot, h.records, eq_comm]
      | false => simp [hnot]
    · simp [hid', h.task, Ne.symm hid']
  record k hk := by
    rw [sendToAsync_commandFutures, sendToAsync_futures]
    dsimp only at hk ⊢
    rw [List.length_append, List.length_singleton, Nat.lt_succ_iff_lt_or_eq] at hk
    obtain hk | rfl := hk
    · rw [List.getElem?_append_left (h.records ▸ hk), List.getElem?_append_left (h.futures ▸ hk),
        List.getElem?_append_left hk]
      exact h.record k hk
    · rw [List.getElem?_append_right (Nat.le_of_eq h.records),
        List.getElem?_append_right (Nat.le_of_eq h.futures)]
      exact Or.inl ⟨fresh, by simp [h.records, h.futures], by simp [h.futures]⟩

omit [DecidableEq ι] in
theorem linked_received {message : Option (MessageExecutionCompleted ι)} {impl : BusImpl ι}
    (h : Linked s) (hs : handleOnMessageExecutionCompleted s.impl message = .ok impl) :
    Linked { s with impl } := by
  obtain rfl | ⟨id, a, commandFuture, result, hfound, hrecord, rfl⟩ := handle_cases hs
  · exact h
  · have hsent := (h.task id a).mp hfound
    obtain ⟨hlt, -⟩ := List.getElem?_eq_some_iff.mp hsent
    -- the record found is that of the future with the same number
    have hopen : commandFuture.future = a ∧ s.impl.futures[a]? = some none := by
      obtain ⟨fresh, hrec, hfut⟩ | ⟨-, -, -, hrec, -⟩ := h.record a hlt
      · rw [hrec] at hrecord
        obtain rfl := Option.some.inj hrecord
        exact ⟨rfl, hfut⟩
      · rw [hrec] at hrecord
        cases hrecord
    obtain ⟨hnum, hfut⟩ := hopen
    refine ⟨by simp [futureSet, h.futures], by simp [h.records], h.nodup, h.task, ?_⟩
    intro k hk
    simp only [futureSet, hnum]
    by_cases hka : k = a
    · subst hka
      refine Or.inr ⟨id, result, hsent, ?_, ?_⟩
      · rw [List.getElem?_set_self (h.records ▸ hk)]
      · rw [List.getElem?_modify_eq, hfut]
        rfl
    · rw [List.getElem?_set_ne (Ne.symm hka), List.getElem?_modify_ne _ _ (Ne.symm hka)]
      exact h.record k hk

theorem linked_step {e : Event ι} (h : Linked s) (hs : s.step e = some t) : Linked t := by
  cases e with
  | send id fresh transportOk =>
    simp only [Sending.step, Option.ite_none_left_eq_some, Option.some_inj] at hs
    obtain ⟨hid, rfl⟩ := hs
    exact linked_send h hid fresh transportOk
  | received message =>
    simp only [Sending.step] at hs
    split at hs
    · cases hs
    · next impl himpl =>
      obtain rfl := Option.some.inj hs
      exact linked_received h himpl

/-- A step makes the sends go on to be taken exactly when it is not a refused one. -/
theorem taken_iff {e : Event ι} (hs : s.step e = some t) :
    (∀ p ∈ t.sent, p.2 = true) ↔ (∀ p ∈ s.sent, p.2 = true) ∧ Taken e := by
  cases e with
  | send id fresh transportOk =>
    simp only [Sending.step, Option.ite_none_left_eq_some, Option.some_inj] at hs
    obtain ⟨-, rfl⟩ := hs
    simp only [List.forall_mem_append, List.forall_mem_singleton]
    rfl
  | received message =>
    simp only [Sending.step] at hs
    split at hs
    · cases hs
    · obtain rfl := Option.some.inj hs
      exact (and_iff_left trivial).symm

/-! ## Runs -/

/-- In every run the future of a refused command stays as it was made, and its id
    is not in the table. -/
theorem refused_stays {es : List (Event ι)} {id : ι} {k : ℕ}
    (hs : run Sending.step Sending.init es = some s) (hk : s.sent[k]? = some (id, false)) :
    s.impl.futures[k]? = some none ∧ s.impl.messageIdTasks id = none := by
  have h : Linked s := run_induction linked_init (fun _ _ _ => linked_step) hs
  refine ⟨h.refused hk, ?_⟩
  by_contra hsome
  obtain ⟨a, ha⟩ := Option.ne_none_iff_exists'.mp hsome
  rw [h.task] at ha
  -- the ids are distinct, so the command of the task would be the refused one
  obtain ⟨hlt, -⟩ := List.getElem?_eq_some_iff.mp ha
  have hak : a = k := by
    refine (List.getElem?_inj (by simpa using hlt) h.nodup).mp ?_
    rw [List.getElem?_map, List.getElem?_map, ha, hk]
    rfl
  rw [hak, hk] at ha
  cases ha

/-- **No future is orphaned along a run exactly when the transport takes every
    message of it.** -/
theorem noOrphan_iff (es : List (Event ι)) :
    Always Sending.step NoOrphan Sending.init es ↔
      Meets Sending.step (fun _ e => Taken e) Sending.init es := by
  refine always_iff_meets (I := fun s => Linked s ∧ ∀ p ∈ s.sent, p.2 = true) ⟨linked_init, ?_⟩
    (fun s h => h.1.noOrphan_iff_forall.mpr h.2) (fun s e t h hC hs => ?_) (fun s e t h hs ht => ?_)
  · simp [Sending.init]
  · exact ⟨linked_step h.1 hs, (taken_iff hs).mpr ⟨h.2, hC⟩⟩
  · exact ((taken_iff hs).mp ((linked_step h.1 hs).noOrphan_iff_forall.mp ht)).2

/-- The transport refuses the only command: its future is not set, and its id is not
    in the table. -/
theorem not_always_noOrphan :
    ¬ ∀ es : List (Event ℕ), Always Sending.step NoOrphan Sending.init es := by
  intro h
  have hlast := h [.send 1 ⟨0, []⟩ false] _ _ List.prefix_rfl rfl
  obtain ⟨a, commandFuture, htask, -⟩ := (hlast 0 1 false rfl).1 rfl
  cases (htask : (none : Option ℕ) = some a)

end Cebus.Bus
