import Cebus.Bus.BusImpl
import Cebus.Lib.Transition

/-!
# The completion of commands

The ledger says what the bus is for: a command is pending from its sending to
its first completion, which gives its future the result. The bus runs beside
the ledger.

* `agrees_iff`: they agree all along a run exactly when no completion received
  in it names a pending command.
* `first_completion`, `second_completion`: what happens to a command that is
  completed once, and twice.
-/

namespace Cebus.Bus

open Transition

variable {ι : Type}

/-- The handler leaves the table as it is. -/
theorem handle_messageIdTasks {impl impl' : BusImpl ι} {message}
    (h : handleOnMessageExecutionCompleted impl message = .ok impl') :
    impl'.messageIdTasks = impl.messageIdTasks := by
  obtain rfl | ⟨_, _, _, _, -, -, rfl⟩ := handle_cases h
  · rfl
  · rfl

variable [DecidableEq ι]

/-! ## The ledger -/

/-- The pending commands with the numbers of their futures, and the results of
    the futures that have one. -/
structure Ledger (ι : Type) where
  tasks : ι → Option ℕ
  futures : List (Option CommandResult)

/-- A send opens a new future; the command is pending if the transport took it. -/
def Ledger.send (l : Ledger ι) (id : ι) (transportOk : Bool) : Ledger ι :=
  { tasks := Function.update l.tasks id (if transportOk then some l.futures.length else none)
    futures := l.futures ++ [none] }

/-- A completion of a pending command sets its future to the error code and the
    payload, an empty one if there is none, and the command is not pending any
    more. Any other completion changes nothing. -/
def Ledger.complete (l : Ledger ι) (message : Option (MessageExecutionCompleted ι)) : Ledger ι :=
  match message with
  | none => l
  | some message =>
    match l.tasks message.sourceMessageId with
    | none => l
    | some future =>
      { tasks := Function.update l.tasks message.sourceMessageId none
        futures := l.futures.set future
          (some ⟨message.errorCode, message.payload.getD []⟩) }

/-- What the ledger records of an event. -/
def Ledger.step (l : Ledger ι) : Event ι → Ledger ι
  | .send id _ transportOk => l.send id transportOk
  | .received message => l.complete message

/-! ## The bus beside the ledger -/

/-- The bus, unless it has gone wrong, and the ledger after the same events. -/
abbrev Pair (ι : Type) [DecidableEq ι] := Except Fault (BusImpl ι) × Ledger ι

/-- A new bus beside an empty ledger. -/
def Pair.init : Pair ι := (.ok Bus.init, ⟨fun _ => none, []⟩)

/-- An event of the bus and of the ledger. A bus that has gone wrong stays so. -/
def Pair.step (p : Pair ι) (e : Event ι) : Option (Pair ι) :=
  some (p.1.bind (Bus.step · e), p.2.step e)

/-- The bus has the table and the futures of the ledger, and a record for each
    of its futures. -/
def Agrees (p : Pair ι) : Prop :=
  ∃ impl, p.1 = .ok impl ∧ impl.messageIdTasks = p.2.tasks ∧ impl.futures = p.2.futures ∧
    impl.commandFutures.length = impl.futures.length

/-- A completion, if it is one, names no pending command. -/
def NamesNoPending (p : Pair ι) : Event ι → Prop
  | .received (some message) => p.2.tasks message.sourceMessageId = none
  | _ => True

theorem agrees_init : Agrees (Pair.init : Pair ι) := ⟨_, rfl, rfl, rfl, rfl⟩

theorem Agrees.step {p q : Pair ι} {e : Event ι} (h : Agrees p) (hC : NamesNoPending p e)
    (hs : Pair.step p e = some q) : Agrees q := by
  obtain ⟨impl, hp, ht, hf, hl⟩ := h
  obtain ⟨p₁, p₂⟩ := p
  obtain rfl := Option.some.inj hs
  subst hp
  cases e with
  | send id fresh transportOk =>
    refine ⟨_, rfl, ?_, ?_, ?_⟩
    · cases transportOk <;> simp_all [sendToAsync, Ledger.step, Ledger.send]
    · cases transportOk <;> simp_all [sendToAsync, Ledger.step, Ledger.send]
    · cases transportOk <;> simp_all [sendToAsync]
  | received message =>
    cases message with
    | none => exact ⟨impl, rfl, ht, hf, hl⟩
    | some message =>
      have hnone : p₂.tasks message.sourceMessageId = none := hC
      have hledger : p₂.step (.received (some message)) = p₂ := by
        simp [Ledger.step, Ledger.complete, hnone]
      have hbus : handleOnMessageExecutionCompleted impl (some message) = .ok impl := by
        simp [handleOnMessageExecutionCompleted, ht, hnone]
      exact ⟨impl, hbus, by rw [hledger, ht], by rw [hledger, hf], hl⟩

/-- A completion of a pending command leaves it in the table. -/
theorem Agrees.namesNoPending {p q : Pair ι} {e : Event ι} (h : Agrees p)
    (hs : Pair.step p e = some q) (hq : Agrees q) : NamesNoPending p e := by
  obtain ⟨impl, hp, ht, -, -⟩ := h
  obtain ⟨p₁, p₂⟩ := p
  obtain rfl := Option.some.inj hs
  obtain rfl : p₁ = .ok impl := hp
  obtain ⟨impl', hq, ht', -, -⟩ := hq
  cases e with
  | send => trivial
  | received message =>
    cases message with
    | none => trivial
    | some message =>
      by_contra hsome
      obtain ⟨f, hf : p₂.tasks message.sourceMessageId = some f⟩ :=
        Option.ne_none_iff_exists'.mp hsome
      have hbus : handleOnMessageExecutionCompleted impl (some message) = .ok impl' := hq
      have hledger : (p₂.step (.received (some message))).tasks message.sourceMessageId = none := by
        simp [Ledger.step, Ledger.complete, hf]
      rw [← ht', handle_messageIdTasks hbus, ht] at hledger
      exact hsome hledger

/-- **Commands complete as they should exactly in the runs in which no pending
    command is completed.** -/
theorem agrees_iff (es : List (Event ι)) :
    Always Pair.step Agrees Pair.init es ↔ Meets Pair.step NamesNoPending Pair.init es :=
  always_iff_meets (I := Agrees) agrees_init (fun _ h => h) (fun _ _ _ => Agrees.step)
    (fun _ _ _ => Agrees.namesNoPending)

/-- The first completion of the only command leaves its id in the table. -/
theorem not_always_agrees : ¬ ∀ es : List (Event ℕ), Always Pair.step Agrees Pair.init es := by
  intro h
  obtain ⟨impl, himpl, ht, -⟩ :=
    h [.send 1 ⟨0, []⟩ true, .received (some ⟨1, 0, some "Abc", some [7]⟩)] _ _
      List.prefix_rfl rfl
  obtain rfl := Except.ok.inj himpl
  exact absurd (congrFun ht 1) (by decide)

/-! ## One command -/

/-- The first completion of a command sets its future to the error code and the
    payload, or to what the fresh memory of the record contains, and frees the
    record behind the table's back. -/
theorem first_completion (impl : BusImpl ι) (fresh : CommandResult)
    {message : MessageExecutionCompleted ι} (hname : message.payloadTypeId ≠ none) :
    ∃ impl', step (sendToAsync impl message.sourceMessageId fresh true)
        (.received (some message)) = .ok impl' ∧
      impl'.futures = impl.futures ++ [some ⟨message.errorCode, message.payload.getD fresh.data⟩] ∧
      impl'.messageIdTasks message.sourceMessageId = some impl.commandFutures.length ∧
      impl'.commandFutures[impl.commandFutures.length]?.join = none := by
  obtain ⟨name, hname⟩ := Option.ne_none_iff_exists'.mp hname
  refine ⟨_, by simp [step, handleOnMessageExecutionCompleted, sendToAsync, hname]; rfl, ?_⟩
  simp [futureSet, List.modify_eq_set]

/-- A second one finds the id in the table and uses the freed record. -/
theorem second_completion (impl : BusImpl ι) (fresh : CommandResult)
    {message message' : MessageExecutionCompleted ι} (hname : message.payloadTypeId ≠ none)
    (hname' : message'.payloadTypeId ≠ none)
    (hid : message'.sourceMessageId = message.sourceMessageId) :
    (step (sendToAsync impl message.sourceMessageId fresh true) (.received (some message))).bind
      (step · (.received (some message'))) = .error .useAfterFree := by
  obtain ⟨impl', hstep, -, htask, hfreed⟩ := first_completion impl fresh hname
  obtain ⟨name, hname'⟩ := Option.ne_none_iff_exists'.mp hname'
  rw [hstep]
  show handleOnMessageExecutionCompleted impl' (some message') = _
  simp [handleOnMessageExecutionCompleted, hid, htask, hname', hfreed]

end Cebus.Bus
