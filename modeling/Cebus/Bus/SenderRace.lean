import Cebus.Bus.BusImpl
import Cebus.Lib.Transition

/-!
# Senders beside the inbound thread

A sender gives the message to the transport and then reads the record of its
command once more, to return the future. In the meantime the inbound thread may
have completed the command and freed the record.

* `moves_of_step`: what each step needs and what it changes.
* `send_steps`, `complete_steps`: the steps of a sender, and those of the inbound
  thread, one after the other, are the functions of the bus.
* `returnsOwn_iff`: the senders return their futures in all of a run exactly when
  none reads its record after a completion of its command has come to its end.
-/

namespace Cebus.Bus.Race

open Transition

/-- Where a call of `cb_bus_impl_send_to_async` is. A call that has returned has
    the future that it read, or none if the record was freed. -/
inductive Stage where
  | created
  | inserted
  | refused
  | sent
  | returned (future : Option ℕ)
deriving DecidableEq

/-- A call, with the id and the record of its command and the record's future. -/
structure Sender (ι : Type) where
  id : ι
  commandFuture : ℕ
  future : ℕ
  stage : Stage
deriving DecidableEq

/-- A completion that has found its command, and whether it has set the future. -/
structure Completion (ι : Type) where
  message : MessageExecutionCompleted ι
  commandFuture : ℕ
  isSet : Bool

/-- The bus, the calls, what the inbound thread is at, and the ids of the commands
    whose completion has come to its end. -/
structure State (ι : Type) where
  impl : BusImpl ι
  senders : List (Sender ι)
  inbound : Option (Completion ι)
  completed : List ι

/-- The sections of the calls of `cb_bus_impl_send_to_async` and of the inbound thread, with the
    lines of `bus.c`. -/
inductive Event (ι : Type) where
  /-- a call makes its record (lines 207–230) -/
  | create (id : ι) (fresh : CommandResult)
  /-- it inserts the record (line 232) -/
  | insert (k : ℕ)
  /-- it gives the message to the transport (lines 234–236) -/
  | handOver (k : ℕ) (transportOk : Bool)
  /-- it removes the record of a refused message (line 239) -/
  | remove (k : ℕ)
  /-- it returns the future of the record (line 242) -/
  | read (k : ℕ)
  /-- the inbound thread looks up the command (lines 104–106) -/
  | lookup (message : MessageExecutionCompleted ι)
  /-- it sets the result and the future (lines 129–138) -/
  | set
  /-- it frees the record (line 139) -/
  | free

variable {ι : Type} {s t : State ι}

/-- A new bus without calls, with an inbound thread that waits. -/
def init : State ι := ⟨Bus.init, [], none, []⟩

/-- A new call with a new record and a new future. -/
def create (s : State ι) (id : ι) (fresh : CommandResult) : State ι :=
  { s with
    impl := { s.impl with
      commandFutures := s.impl.commandFutures ++ [some ⟨fresh, s.impl.futures.length⟩]
      futures := s.impl.futures ++ [none] }
    senders := s.senders ++
      [⟨id, s.impl.commandFutures.length, s.impl.futures.length, .created⟩] }

/-- The stage of a sender after a step. -/
def setStage (s : State ι) (k : ℕ) (stage : Stage) : State ι :=
  { s with senders := s.senders.modify k fun sender => { sender with stage } }

/-- The ids of the commands, in the order of the calls. -/
def ids (s : State ι) : List ι := s.senders.map (·.id)

theorem ids_setStage (s : State ι) (k : ℕ) (stage : Stage) : ids (setStage s k stage) = ids s := by
  refine List.ext_getElem? fun j => ?_
  simp only [ids, setStage, List.getElem?_map, List.getElem?_modify]
  cases s.senders[j]? with
  | none => rfl
  | some sender => split_ifs <;> rfl

theorem ids_create (s : State ι) (id : ι) (fresh : CommandResult) :
    ids (create s id fresh) = ids s ++ [id] :=
  List.map_append

theorem getElem?_setStage {k j : ℕ} {stage : Stage} {sender : Sender ι}
    (h : (setStage s k stage).senders[j]? = some sender) :
    ∃ sender', s.senders[j]? = some sender' ∧
      sender = if k = j then { sender' with stage } else sender' := by
  simp only [setStage, List.getElem?_modify] at h
  obtain ⟨sender', hj, h⟩ := Option.map_eq_some_iff.mp h
  refine ⟨sender', hj, ?_⟩
  rw [← h]

variable [DecidableEq ι]

/-- Message ids are not used twice. Where the inbound thread itself goes wrong, at a
    completion without a type or at the second one of a command, no state is reached. -/
def step (s : State ι) : Event ι → Option (State ι)
  | .create id fresh =>
    if id ∈ ids s then none
    else some (create s id fresh)
  | .insert k =>
    match s.senders[k]? with
    | some ⟨id, a, _, .created⟩ => some (setStage { s with
        impl := { s.impl with
          messageIdTasks := Function.update s.impl.messageIdTasks id (some a) } } k .inserted)
    | _ => none
  | .handOver k transportOk =>
    match s.senders[k]? with
    | some ⟨_, _, _, .inserted⟩ => some (setStage s k (if transportOk then .sent else .refused))
    | _ => none
  | .remove k =>
    match s.senders[k]? with
    | some ⟨id, _, _, .refused⟩ => some (setStage { s with
        impl := { s.impl with
          messageIdTasks := Function.update s.impl.messageIdTasks id none } } k .sent)
    | _ => none
  | .read k =>
    match s.senders[k]? with
    | some ⟨_, a, _, .sent⟩ =>
      some (setStage s k (.returned (s.impl.commandFutures[a]?.join.map CommandFuture.future)))
    | _ => none
  | .lookup message =>
    match s.inbound with
    | some _ => none
    | none =>
      match s.impl.messageIdTasks message.sourceMessageId with
      | none => some s
      | some a =>
        match message.payloadTypeId with
        | none => none
        | some _ => some { s with inbound := some ⟨message, a, false⟩ }
  | .set =>
    match s.inbound with
    | some ⟨message, a, false⟩ =>
      match s.impl.commandFutures[a]?.join with
      | none => none
      | some commandFuture =>
        let result : CommandResult :=
          { errorCode := message.errorCode
            data := message.payload.getD commandFuture.result.data }
        some { s with
          impl := { s.impl with futures := futureSet s.impl.futures commandFuture.future result }
          inbound := some ⟨message, a, true⟩ }
    | _ => none
  | .free =>
    match s.inbound with
    | some ⟨message, a, true⟩ => some { s with
        impl := { s.impl with commandFutures := s.impl.commandFutures.set a none }
        inbound := none
        completed := message.sourceMessageId :: s.completed }
    | _ => none

/-- Every call that has returned has read its record before it was freed and has
    returned its future. -/
def ReturnsOwn (s : State ι) : Prop :=
  ∀ sender ∈ s.senders, ∀ future, sender.stage = .returned future →
    future = some sender.future

/-- No completion of the command has come to its end when its sender reads the record. -/
def InTime (s : State ι) : Event ι → Prop
  | .read k => ∀ sender, s.senders[k]? = some sender → sender.id ∉ s.completed
  | _ => True

/-! ## What a step does -/

/-- The steps, each with what it needs and what it changes. -/
inductive Moves (s : State ι) : Event ι → State ι → Prop where
  | create {id : ι} {fresh : CommandResult} (hid : id ∉ ids s) :
    Moves s (.create id fresh) (create s id fresh)
  | insert {k : ℕ} {sender : Sender ι} (hk : s.senders[k]? = some sender) :
    Moves s (.insert k) (setStage { s with impl := { s.impl with
      messageIdTasks :=
        Function.update s.impl.messageIdTasks sender.id (some sender.commandFuture) } } k .inserted)
  | handOver {k : ℕ} {transportOk : Bool} :
    Moves s (.handOver k transportOk) (setStage s k (if transportOk then .sent else .refused))
  | remove {k : ℕ} {id : ι} :
    Moves s (.remove k) (setStage { s with impl := { s.impl with
      messageIdTasks := Function.update s.impl.messageIdTasks id none } } k .sent)
  | read {k : ℕ} {sender : Sender ι} (hk : s.senders[k]? = some sender) :
    Moves s (.read k) (setStage s k (.returned
      (s.impl.commandFutures[sender.commandFuture]?.join.map CommandFuture.future)))
  | unknown {message : MessageExecutionCompleted ι} : Moves s (.lookup message) s
  | lookup {message : MessageExecutionCompleted ι} {a : ℕ}
    (ha : s.impl.messageIdTasks message.sourceMessageId = some a) :
    Moves s (.lookup message) { s with inbound := some ⟨message, a, false⟩ }
  | set {message : MessageExecutionCompleted ι} {a f : ℕ} {result : CommandResult}
    (hc : s.inbound = some ⟨message, a, false⟩) :
    Moves s .set { s with
      impl := { s.impl with futures := futureSet s.impl.futures f result }
      inbound := some ⟨message, a, true⟩ }
  | free {message : MessageExecutionCompleted ι} {a : ℕ}
    (hc : s.inbound = some ⟨message, a, true⟩) :
    Moves s .free { s with
      impl := { s.impl with commandFutures := s.impl.commandFutures.set a none }
      inbound := none
      completed := message.sourceMessageId :: s.completed }

theorem moves_of_step {e : Event ι} (hs : step s e = some t) : Moves s e t := by
  cases e with
  | create id fresh =>
    simp only [step, Option.ite_none_left_eq_some, Option.some_inj] at hs
    obtain ⟨hid, rfl⟩ := hs
    exact .create hid
  | insert k =>
    simp only [step] at hs
    split at hs
    · next hk =>
      obtain rfl := Option.some.inj hs
      exact .insert hk
    · cases hs
  | handOver k transportOk =>
    simp only [step] at hs
    split at hs
    · obtain rfl := Option.some.inj hs
      exact .handOver
    · cases hs
  | remove k =>
    simp only [step] at hs
    split at hs
    · obtain rfl := Option.some.inj hs
      exact .remove
    · cases hs
  | read k =>
    simp only [step] at hs
    split at hs
    · next hk =>
      obtain rfl := Option.some.inj hs
      exact .read hk
    · cases hs
  | lookup message =>
    simp only [step] at hs
    split at hs
    · cases hs
    · split at hs
      · obtain rfl := Option.some.inj hs
        exact .unknown
      · next ha =>
        split at hs
        · cases hs
        · obtain rfl := Option.some.inj hs
          exact .lookup ha
  | set =>
    simp only [step] at hs
    split at hs
    · next hc =>
      split at hs
      · cases hs
      · obtain rfl := Option.some.inj hs
        exact .set hc
    · cases hs
  | free =>
    simp only [step] at hs
    split at hs
    · next hc =>
      obtain rfl := Option.some.inj hs
      exact .free hc
    · cases hs

/-! ## The records -/

/-- The `k`-th call has the `k`-th record and future. A command of the table, and one
    that the inbound thread has found, has its own record, and a record is freed
    when the completion of its command comes to its end. -/
structure Orderly (s : State ι) : Prop where
  numbered : ∀ (k : ℕ) (sender : Sender ι), s.senders[k]? = some sender →
    sender.commandFuture = k ∧ sender.future = k
  records : s.impl.commandFutures.length = s.senders.length
  futures : s.impl.futures.length = s.senders.length
  nodup : (ids s).Nodup
  task : ∀ (id : ι) (a : ℕ), s.impl.messageIdTasks id = some a → (ids s)[a]? = some id
  found : ∀ c, s.inbound = some c → (ids s)[c.commandFuture]? = some c.message.sourceMessageId
  completed : ∀ id ∈ s.completed, id ∈ ids s
  record : ∀ (k : ℕ) (id : ι), (ids s)[k]? = some id →
    s.impl.commandFutures[k]?.join.map CommandFuture.future =
      if id ∈ s.completed then none else some k

theorem orderly_init : Orderly (init : State ι) where
  numbered k sender h := by simp [init] at h
  records := rfl
  futures := rfl
  nodup := List.nodup_nil
  task id a h := by cases h
  found c h := by cases h
  completed id h := by cases h
  record k id h := by simp [init, ids] at h

theorem Orderly.setStage (h : Orderly s) (k : ℕ) (stage : Stage) :
    Orderly (setStage s k stage) where
  numbered j sender hj := by
    obtain ⟨sender', hj', rfl⟩ := getElem?_setStage hj
    have hnum := h.numbered j sender' hj'
    split_ifs
    · exact hnum
    · exact hnum
  records := by simpa [Race.setStage] using h.records
  futures := by simpa [Race.setStage] using h.futures
  nodup := by rw [ids_setStage]; exact h.nodup
  task := by rw [ids_setStage]; exact h.task
  found := by rw [ids_setStage]; exact h.found
  completed := by rw [ids_setStage]; exact h.completed
  record := by rw [ids_setStage]; exact h.record

theorem orderly_create (h : Orderly s) {id : ι} (hid : id ∉ ids s) (fresh : CommandResult) :
    Orderly (create s id fresh) where
  numbered k sender hk := by
    obtain hk | ⟨rfl, rfl⟩ := getElem?_concat_eq_some.mp hk
    · exact h.numbered k sender hk
    · exact ⟨h.records, h.futures⟩
  records := by simp [create, h.records]
  futures := by simp [create, h.futures]
  nodup := by
    rw [ids_create, List.nodup_append]
    refine ⟨h.nodup, by simp, fun a ha b hb => ?_⟩
    obtain rfl := List.mem_singleton.mp hb
    rintro rfl
    exact hid ha
  task id' a ha := by
    rw [ids_create]
    exact getElem?_concat_eq_some.mpr (Or.inl (h.task id' a ha))
  found c hc := by
    rw [ids_create]
    exact getElem?_concat_eq_some.mpr (Or.inl (h.found c hc))
  completed id' hid' := by
    rw [ids_create]
    exact List.mem_append_left _ (h.completed id' hid')
  record k id' hk := by
    rw [ids_create] at hk
    show ((s.impl.commandFutures ++ [_])[k]?).join.map _ =
      if id' ∈ s.completed then none else some k
    obtain hk | ⟨rfl, rfl⟩ := getElem?_concat_eq_some.mp hk
    · obtain ⟨hlt, -⟩ := List.getElem?_eq_some_iff.mp hk
      rw [ids, List.length_map, ← h.records] at hlt
      rw [List.getElem?_append_left hlt]
      exact h.record k id' hk
    · -- a new id has not been completed
      rw [if_neg fun hc => hid (h.completed id hc), ids, List.length_map, ← h.records,
        List.getElem?_concat_length, h.futures, h.records]
      rfl

theorem orderly_insert {k : ℕ} {sender : Sender ι} (h : Orderly s)
    (hk : s.senders[k]? = some sender) :
    Orderly { s with impl := { s.impl with
      messageIdTasks :=
        Function.update s.impl.messageIdTasks sender.id (some sender.commandFuture) } } where
  numbered := h.numbered
  records := h.records
  futures := h.futures
  nodup := h.nodup
  found := h.found
  completed := h.completed
  record := h.record
  task id a ha := by
    simp only [Function.update_apply] at ha
    split_ifs at ha with hid
    · obtain rfl := Option.some.inj ha
      show (ids s)[_]? = _
      rw [(h.numbered k sender hk).1, ids, List.getElem?_map, hk, hid]
      rfl
    · exact h.task id a ha

theorem orderly_remove (h : Orderly s) (id : ι) :
    Orderly { s with impl := { s.impl with
      messageIdTasks := Function.update s.impl.messageIdTasks id none } } where
  numbered := h.numbered
  records := h.records
  futures := h.futures
  nodup := h.nodup
  found := h.found
  completed := h.completed
  record := h.record
  task id' a ha := by
    simp only [Function.update_apply] at ha
    split_ifs at ha
    exact h.task id' a ha

theorem orderly_lookup {message : MessageExecutionCompleted ι} {a : ℕ} (h : Orderly s)
    (ha : s.impl.messageIdTasks message.sourceMessageId = some a) :
    Orderly { s with inbound := some ⟨message, a, false⟩ } where
  numbered := h.numbered
  records := h.records
  futures := h.futures
  nodup := h.nodup
  task := h.task
  completed := h.completed
  record := h.record
  found c hc := by
    obtain rfl := Option.some.inj hc
    exact h.task _ _ ha

theorem orderly_set {message : MessageExecutionCompleted ι} {a f : ℕ} {result : CommandResult}
    (h : Orderly s) (hc : s.inbound = some ⟨message, a, false⟩) :
    Orderly { s with
      impl := { s.impl with futures := futureSet s.impl.futures f result }
      inbound := some ⟨message, a, true⟩ } where
  numbered := h.numbered
  records := h.records
  futures := by simpa [futureSet] using h.futures
  nodup := h.nodup
  task := h.task
  completed := h.completed
  record := h.record
  found c hc' := by
    obtain rfl := Option.some.inj hc'
    exact (h.found _ hc :)

theorem orderly_free {message : MessageExecutionCompleted ι} {a : ℕ} (h : Orderly s)
    (hc : s.inbound = some ⟨message, a, true⟩) :
    Orderly { s with
      impl := { s.impl with commandFutures := s.impl.commandFutures.set a none }
      inbound := none
      completed := message.sourceMessageId :: s.completed } where
  numbered := h.numbered
  records := by simpa using h.records
  futures := h.futures
  nodup := h.nodup
  task := h.task
  found c hc' := by cases hc'
  completed id hid := by
    obtain rfl | hid := List.mem_cons.mp hid
    · exact List.mem_of_getElem? (h.found _ hc)
    · exact h.completed id hid
  record k id hk := by
    have hfound : (ids s)[a]? = some message.sourceMessageId := h.found _ hc
    by_cases hka : k = a
    · subst hka
      obtain rfl := Option.some.inj (hfound.symm.trans hk)
      rw [if_pos List.mem_cons_self, List.getElem?_set_self']
      cases s.impl.commandFutures[k]? <;> rfl
    · -- another command has another id
      have hne : id ≠ message.sourceMessageId := by
        rintro rfl
        obtain ⟨hlt, -⟩ := List.getElem?_eq_some_iff.mp hk
        exact hka ((List.getElem?_inj hlt h.nodup).mp (hk.trans hfound.symm))
      rw [List.getElem?_set_ne (Ne.symm hka)]
      simp only [List.mem_cons, hne, false_or]
      exact h.record k id hk

theorem orderly_step {e : Event ι} (h : Orderly s) (hs : step s e = some t) : Orderly t := by
  cases moves_of_step hs with
  | create hid => exact orderly_create h hid _
  | insert hk => exact (orderly_insert h hk).setStage _ _
  | handOver => exact h.setStage _ _
  | remove => exact (orderly_remove h _).setStage _ _
  | read hk => exact h.setStage _ _
  | unknown => exact h
  | lookup ha => exact orderly_lookup h ha
  | set hc => exact orderly_set h hc
  | free hc => exact orderly_free h hc

/-! ## The returned futures -/

omit [DecidableEq ι] in
theorem returnsOwn_setStage {k : ℕ} {stage : Stage} (h : ReturnsOwn s)
    (hstage : ∀ sender future, s.senders[k]? = some sender → stage = .returned future →
      future = some sender.future) :
    ReturnsOwn (setStage s k stage) := by
  intro sender hmem future hreturned
  obtain ⟨j, hj⟩ := List.getElem?_of_mem hmem
  obtain ⟨sender', hj', rfl⟩ := getElem?_setStage hj
  by_cases hkj : k = j
  · subst hkj
    rw [if_pos rfl] at hreturned ⊢
    exact hstage sender' future hj' hreturned
  · rw [if_neg hkj] at hreturned ⊢
    exact h sender' (List.mem_of_getElem? hj') future hreturned

/-- What a read finds: the future of the call, if no completion has come to its end. -/
theorem Orderly.read {k : ℕ} {sender : Sender ι} (h : Orderly s)
    (hk : s.senders[k]? = some sender) :
    s.impl.commandFutures[sender.commandFuture]?.join.map CommandFuture.future =
      if sender.id ∈ s.completed then none else some sender.future := by
  obtain ⟨hrecord, hfuture⟩ := h.numbered k sender hk
  rw [hrecord, hfuture]
  exact h.record k sender.id (by rw [ids, List.getElem?_map, hk]; rfl)

/-- A step that is not a read returns nothing new; a read returns what it finds. -/
theorem returnsOwn_step {e : Event ι} (h : Orderly s) (hs : step s e = some t)
    (hown : ReturnsOwn s) : ReturnsOwn t ↔ InTime s e := by
  cases moves_of_step hs with
  | @read k sender hk =>
    rw [h.read hk]
    constructor
    · intro hown' sender' hk' hc
      obtain rfl := Option.some.inj (hk.symm.trans hk')
      rw [if_pos hc] at hown'
      have hset : (setStage s k (.returned none)).senders[k]? =
          some { sender with stage := .returned none } := by
        simp [setStage, hk]
      cases hown' _ (List.mem_of_getElem? hset) none rfl
    · intro hC
      rw [if_neg (hC _ hk)]
      refine returnsOwn_setStage hown fun sender' future hk' hf => ?_
      obtain rfl := Option.some.inj (hk.symm.trans hk')
      exact (Stage.returned.inj hf).symm
  | create hid =>
    refine iff_of_true (fun sender hmem future hreturned => ?_) trivial
    obtain hmem | hmem := List.mem_append.mp hmem
    · exact hown sender hmem future hreturned
    · rw [List.mem_singleton.mp hmem] at hreturned
      cases hreturned
  | insert hk => exact iff_of_true (returnsOwn_setStage hown fun _ _ _ hf => by cases hf) trivial
  | handOver =>
    refine iff_of_true (returnsOwn_setStage hown fun _ _ _ hf => ?_) trivial
    split_ifs at hf
  | remove => exact iff_of_true (returnsOwn_setStage hown fun _ _ _ hf => by cases hf) trivial
  | unknown => exact iff_of_true hown trivial
  | lookup ha => exact iff_of_true hown trivial
  | set hc => exact iff_of_true hown trivial
  | free hc => exact iff_of_true hown trivial

/-- **Every sender returns the future of its command, and reads no freed record,
    exactly in the runs in which no sender reads its record after a completion of
    its command has come to its end.** -/
theorem returnsOwn_iff (es : List (Event ι)) :
    Always step ReturnsOwn init es ↔ Meets step InTime init es := by
  refine always_iff_meets (I := fun s => Orderly s ∧ ReturnsOwn s) ⟨orderly_init, ?_⟩
    (fun s h => h.2) (fun s e t h hC hs => ?_) (fun s e t h hs ht => ?_)
  · intro sender hmem
    cases hmem
  · exact ⟨orderly_step h.1 hs, (returnsOwn_step h.1 hs h.2).mpr hC⟩
  · exact (returnsOwn_step h.1 hs h.2).mp ht

/-- The completion comes to its end between the hand-over and the read. -/
theorem not_always_returnsOwn :
    ¬ ∀ es : List (Event ℕ), Always step ReturnsOwn init es := by
  intro h
  have hlast := h [.create 1 ⟨0, []⟩, .insert 0, .handOver 0 true,
    .lookup ⟨1, 0, some "Abc", none⟩, .set, .free, .read 0] _ _ List.prefix_rfl rfl
  cases hlast ⟨1, 0, 0, .returned none⟩ List.mem_cons_self none rfl

/-! ## The functions of the bus -/

/-- A call whose steps come one after the other is `cb_bus_impl_send_to_async`. -/
theorem send_steps (s : State ι) {id : ι} (hid : id ∉ ids s) (fresh : CommandResult)
    (transportOk : Bool) :
    ∃ t, run step s ([.create id fresh, .insert s.senders.length,
        .handOver s.senders.length transportOk] ++
          (if transportOk then [] else [.remove s.senders.length]) ++
          [.read s.senders.length]) = some t ∧
      t.impl = sendToAsync s.impl id fresh transportOk := by
  cases transportOk with
  | true => simp [step, hid, create, setStage, sendToAsync]
  | false => simp [step, hid, create, setStage, sendToAsync]

/-- The steps of a completion, one after the other, are the handler of the bus. -/
theorem complete_steps {message : MessageExecutionCompleted ι} (hidle : s.inbound = none)
    (hfound : s.impl.messageIdTasks message.sourceMessageId ≠ none) :
    (run step s [.lookup message, .set, .free]).map (·.impl) =
      (handleOnMessageExecutionCompleted s.impl (some message)).toOption := by
  obtain ⟨a, ha⟩ := Option.ne_none_iff_exists'.mp hfound
  simp only [run_cons, step, hidle, ha, handleOnMessageExecutionCompleted]
  cases message.payloadTypeId with
  | none => rfl
  | some name =>
    dsimp only
    cases hrecord : s.impl.commandFutures[a]?.join with
    | none => simp [hrecord, Except.toOption]
    | some commandFuture => simp [hrecord, Except.toOption]

end Cebus.Bus.Race
