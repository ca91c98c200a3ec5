import Cebus.Bus.BusImpl
import Cebus.Dispatch.DispatchQueue
import Cebus.Dispatch.MessageDispatcher

/-!
# Starting and stopping the bus

Model of `cb_bus_impl_start` and `cb_bus_impl_stop` (`bus.c`) with the message
dispatcher and its queues, which they start and stop (`message_dispatcher.c`,
`dispatch_queue.c`). What the transport answers comes with the events; the answers
of the bus are recorded. A stop of a queue that has been started reads through a
`NULL` invoker and does not return.

* `flag_step`: of the steps of a queue, its starts and stops alone change what is
  modelled of it here.
* `call_of_asks`, `call_of_not_asks`: what a call does, by the flag, the answer of
  the transport and the queues.
* `consistent_iff`: the answers tell whether the bus is running exactly in the runs
  in which the transport never fails and no stop gets to a queue that was started.
* `Holds.not_stopped`: a bus that is running in such a run cannot be stopped.
-/

namespace Cebus.BusLifecycle

open Bus (Fault)
open Dispatch (MessageHandlerInvoker)
open Transition

/-! ## Model -/

/-- `cb_bus_error` (`bus.h`, lines 21–37). -/
inductive BusError where
  | ok
  | errorInit
  | errorAlreadyRunning
  | errorNotStarted
  | errorTransport
deriving DecidableEq, Repr

/-- The calls that the bus makes on its transport. -/
inductive Effect where
  | onMessageReceived
  | transportStart
  | transportStop
deriving DecidableEq, Repr

/-- `cb_atomic_compare_exchange_strong` (`atomic_c11.c`, lines 18–23), with what is
    then at the destination. -/
def compareExchangeStrong {α : Type} [DecidableEq α] (dst expected desired : α) : α × Bool :=
  if dst = expected then (desired, true) else (dst, false)

/-! ### Dispatch queues -/

/-- The field of `cb_dispatch_queue_impl` (`dispatch_queue.c`, lines 23–38) by which
    its starts and stops go. -/
structure DispatchQueueImpl where
  running : Int64
deriving DecidableEq

/-- `cb_dispatch_queue_impl_init` (lines 102–113). -/
def DispatchQueueImpl.init : DispatchQueueImpl := ⟨0⟩

/-- What `cb_dispatch_queue_entry_init` (lines 74–82) reads of the invoker. -/
def dispatchQueueEntryInit {φ : Type} (invoker : Option (MessageHandlerInvoker φ)) :
    Except Fault φ :=
  match invoker with
  | none => .error .nullPointer
  | some invoker => .ok invoker.handler

/-- `cb_dispatch_queue_impl_start` (lines 115–122). -/
def DispatchQueueImpl.start (impl : DispatchQueueImpl) : DispatchQueueImpl :=
  let (running, _) := compareExchangeStrong impl.running 0 1
  { impl with running }

/-- `cb_dispatch_queue_impl_stop` (lines 124–132), with the queue as it is then. The
    entry is made with a `NULL` invoker, so that it never comes to be enqueued. -/
def DispatchQueueImpl.stop (impl : DispatchQueueImpl) : DispatchQueueImpl × Except Fault Unit :=
  let (running, exchanged) := compareExchangeStrong impl.running 1 0
  let impl := { impl with running }
  if exchanged = false then (impl, .ok ()) else (impl, dispatchQueueEntryInit none)

/-! ### The message dispatcher -/

/-- The queues of `cb_message_dispatcher_impl` (`message_dispatcher.c`, lines 27–34). -/
structure MessageDispatcher where
  dispatchQueues : List DispatchQueueImpl
deriving DecidableEq

/-- `cb_message_dispatcher_impl_init` (lines 69–75): the default queue. -/
def MessageDispatcher.init : MessageDispatcher := ⟨[DispatchQueueImpl.init]⟩

/-- `cb_message_dispatcher_impl_start` (lines 77–86). -/
def MessageDispatcher.start (impl : MessageDispatcher) : MessageDispatcher :=
  ⟨impl.dispatchQueues.map DispatchQueueImpl.start⟩

/-- The loop of `cb_message_dispatcher_impl_stop` (lines 91–96), up to a queue whose
    stop does not return. -/
def stopQueues : List DispatchQueueImpl → List DispatchQueueImpl × Except Fault Unit
  | [] => ([], .ok ())
  | queue :: queues =>
    match queue.stop with
    | (queue, .error fault) => (queue :: queues, .error fault)
    | (queue, .ok ()) =>
      let (queues, result) := stopQueues queues
      (queue :: queues, result)

/-- `cb_message_dispatcher_impl_stop` (lines 88–97). -/
def MessageDispatcher.stop (impl : MessageDispatcher) : MessageDispatcher × Except Fault Unit :=
  let (dispatchQueues, result) := stopQueues impl.dispatchQueues
  (⟨dispatchQueues⟩, result)

/-! ### The bus -/

/-- The fields of `cb_bus_impl` that starting and stopping use, and the calls made
    so far on the transport. -/
structure BusImpl where
  isRunning : UInt64
  inboundEndpoint : Option CString
  messageDispatcher : MessageDispatcher
  effects : List Effect
deriving DecidableEq

/-- `cb_bus_impl_init` (`bus.c`, lines 175–187); the endpoint is not set there. -/
def init (inboundEndpoint : Option CString) : BusImpl :=
  ⟨0, inboundEndpoint, MessageDispatcher.init, []⟩

/-- `cb_bus_impl_start` (lines 255–275), where `cb_transport_start` returns
    `transportErr` and the transport is then bound to `endpoint`. -/
def start (impl : BusImpl) (transportErr : Int32) (endpoint : Option CString) :
    BusImpl × BusError :=
  let (isRunning, exchanged) := compareExchangeStrong impl.isRunning 0 1
  let impl := { impl with isRunning }
  if exchanged = false then (impl, .errorAlreadyRunning)
  else
    let impl := { impl with effects := impl.effects ++ [.onMessageReceived, .transportStart] }
    if transportErr ≠ 0 then (impl, .errorTransport)
    else ({ impl with
      inboundEndpoint := endpoint
      messageDispatcher := impl.messageDispatcher.start }, .ok)

/-- `cb_bus_impl_stop` (lines 277–293), where `cb_transport_stop` returns
    `transportErr`: the bus as it is when the call returns, or does not. -/
def stop (impl : BusImpl) (transportErr : Int32) : BusImpl × Except Fault BusError :=
  let (isRunning, exchanged) := compareExchangeStrong impl.isRunning 1 0
  let impl := { impl with isRunning }
  if exchanged = false then (impl, .ok .errorNotStarted)
  else
    let impl := { impl with effects := impl.effects ++ [.transportStop] }
    if transportErr ≠ 0 then (impl, .ok .errorTransport)
    else
      let (messageDispatcher, result) := impl.messageDispatcher.stop
      ({ impl with messageDispatcher }, result.map fun _ => .ok)

/-- A call of `cb_bus_start` or `cb_bus_stop`, with what it gets from the
    transport if it asks it. -/
inductive Event where
  | start (transportErr : Int32) (endpoint : Option CString)
  | stop (transportErr : Int32)

/-- The event is a start. -/
def Event.isStart : Event → Bool
  | .start _ _ => true
  | .stop _ => false

/-- The code that the transport returns if it is asked. -/
def Event.transportErr : Event → Int32
  | .start transportErr _ => transportErr
  | .stop transportErr => transportErr

/-- The bus after the call, and what the call returns if it does. -/
def call (impl : BusImpl) : Event → BusImpl × Except Fault BusError
  | .start transportErr endpoint =>
    let (impl, error) := start impl transportErr endpoint
    (impl, .ok error)
  | .stop transportErr => stop impl transportErr

/-! ## The queues -/

/-- No queue has been started. -/
def MessageDispatcher.Stopped (impl : MessageDispatcher) : Prop :=
  ∀ queue ∈ impl.dispatchQueues, queue.running ≠ 1

instance (impl : MessageDispatcher) : Decidable impl.Stopped :=
  inferInstanceAs (Decidable (∀ queue ∈ impl.dispatchQueues, queue.running ≠ 1))

/-- What is modelled here of a dispatch queue at work. -/
def flag {μ : Type} (impl : DispatchQueue.DispatchQueueImpl μ) : DispatchQueueImpl :=
  ⟨if impl.running then 1 else 0⟩

/-- The flag after an event of the queue. -/
def flagAfter {μ : Type} (queue : DispatchQueueImpl) : DispatchQueue.Event μ → DispatchQueueImpl
  | .start => queue.start
  | .stop => queue.stop.1
  | _ => queue

theorem running_enqueueEntry {μ : Type} (impl : DispatchQueue.DispatchQueueImpl μ)
    (dispatch : Option μ) :
    (DispatchQueue.enqueueEntry impl dispatch).running = impl.running := by
  unfold DispatchQueue.enqueueEntry
  split
  · rfl
  · split
    · rfl
    · dsimp only
      split <;> rfl

/-- The work of a queue between its starts and stops leaves the flag alone. -/
theorem flag_step {μ : Type} {impl impl' : DispatchQueue.DispatchQueueImpl μ}
    {e : DispatchQueue.Event μ} (h : DispatchQueue.step impl e = some impl') :
    flag impl' = flagAfter (flag impl) e := by
  have hrunning : ∀ {impl' : DispatchQueue.DispatchQueueImpl μ}, impl'.running = impl.running →
      flag impl' = flag impl := fun heq => by rw [flag, heq, flag]
  unfold DispatchQueue.step at h
  split at h
  · cases h
  · cases e with
    | enqueue dispatch =>
      obtain rfl := Option.some.inj h
      exact hrunning (running_enqueueEntry _ _)
    | start =>
      obtain rfl := Option.some.inj h
      cases hr : impl.running <;>
        simp [flag, flagAfter, DispatchQueue.start, DispatchQueueImpl.start,
          compareExchangeStrong, hr]
    | stop =>
      obtain rfl := Option.some.inj h
      cases hr : impl.running <;>
        simp [flag, flagAfter, DispatchQueue.stop, DispatchQueueImpl.stop,
          compareExchangeStrong, hr]
    | stopEnqueue trap =>
      simp only [DispatchQueue.stopEnqueue] at h
      split at h
      · cases h
      · split at h
        · obtain rfl := Option.some.inj h
          exact hrunning rfl
        · obtain rfl := Option.some.inj h
          exact hrunning (running_enqueueEntry _ _)
    | wake i =>
      obtain ⟨thread, -, h⟩ := Option.bind_eq_some_iff.mp h
      split at h
      · obtain rfl := Option.some.inj h
        exact hrunning rfl
      · cases h
    | turn i =>
      obtain ⟨thread, -, h⟩ := Option.bind_eq_some_iff.mp h
      obtain ⟨a, -, h⟩ := Option.bind_eq_some_iff.mp h
      split at h <;>
      · obtain rfl := Option.some.inj h
        exact hrunning rfl

/-- The stop of a queue returns when the queue has not been started, and then leaves
    it as it was. -/
theorem stop_queue (queue : DispatchQueueImpl) :
    (queue.running ≠ 1 → queue.stop = (queue, .ok ())) ∧
      (queue.running = 1 → queue.stop = (⟨0⟩, .error .nullPointer)) := by
  unfold DispatchQueueImpl.stop compareExchangeStrong dispatchQueueEntryInit
  constructor
  · intro h
    simp [h]
  · intro h
    simp [h]

theorem stopQueues_of_stopped {queues : List DispatchQueueImpl}
    (h : ∀ queue ∈ queues, queue.running ≠ 1) : stopQueues queues = (queues, .ok ()) := by
  induction queues with
  | nil => rfl
  | cons queue queues ih =>
    have hqueue := (stop_queue queue).1 (h queue (by simp))
    have hqueues := ih fun q hq => h q (by simp [hq])
    simp only [stopQueues, hqueue, hqueues]

theorem stopQueues_of_started {queues : List DispatchQueueImpl}
    (h : ¬ ∀ queue ∈ queues, queue.running ≠ 1) : (stopQueues queues).2 = .error .nullPointer := by
  induction queues with
  | nil => simp at h
  | cons queue queues ih =>
    by_cases hqueue : queue.running = 1
    · simp only [stopQueues, (stop_queue queue).2 hqueue]
    · have hrest : ¬ ∀ q ∈ queues, q.running ≠ 1 := by simpa [hqueue] using h
      simp only [stopQueues, (stop_queue queue).1 hqueue, ih hrest]

/-- **The stop of the message dispatcher returns exactly when no queue was started.** -/
theorem stop_messageDispatcher (impl : MessageDispatcher) :
    impl.stop.2 = if impl.Stopped then .ok () else .error .nullPointer := by
  by_cases h : impl.Stopped
  · rw [if_pos h, MessageDispatcher.stop, stopQueues_of_stopped h]
  · rw [if_neg h]
    exact stopQueues_of_started h

/-! ## One call -/

/-- The call goes on to ask the transport. -/
def Asks (impl : BusImpl) (e : Event) : Prop := impl.isRunning = if e.isStart then 0 else 1

/-- A call that does not ask the transport changes nothing. -/
theorem call_of_not_asks {impl : BusImpl} {e : Event} (h : ¬ Asks impl e) :
    call impl e = (impl, .ok (if e.isStart then .errorAlreadyRunning else .errorNotStarted)) := by
  unfold Asks at h
  cases e with
  | start transportErr endpoint =>
    have hrunning : impl.isRunning ≠ 0 := h
    simp [call, start, compareExchangeStrong, hrunning, Event.isStart]
  | stop transportErr =>
    have hrunning : impl.isRunning ≠ 1 := h
    simp [call, stop, compareExchangeStrong, hrunning, Event.isStart]

/-- One that does changes the flag, whatever the transport returns and also if the call
    then does not return; the message dispatcher is started or stopped only after the
    transport was. -/
theorem call_of_asks {impl : BusImpl} {e : Event} (h : Asks impl e) :
    (call impl e).1.isRunning = (if e.isStart then 1 else 0) ∧
      (call impl e).1.effects = impl.effects ++
        (if e.isStart then [.onMessageReceived, .transportStart] else [.transportStop]) ∧
      (call impl e).1.messageDispatcher = (if e.transportErr ≠ 0 then impl.messageDispatcher
        else if e.isStart then impl.messageDispatcher.start
        else impl.messageDispatcher.stop.1) ∧
      (call impl e).2 = if e.transportErr ≠ 0 then .ok .errorTransport
        else if e.isStart ∨ impl.messageDispatcher.Stopped then .ok .ok
        else .error .nullPointer := by
  unfold Asks at h
  cases e with
  | start transportErr endpoint =>
    have hrunning : impl.isRunning = 0 := h
    by_cases herr : transportErr = 0 <;>
      simp [call, start, compareExchangeStrong, hrunning, herr, Event.isStart,
        Event.transportErr]
  | stop transportErr =>
    have hrunning : impl.isRunning = 1 := h
    have hstop := stop_messageDispatcher impl.messageDispatcher
    by_cases herr : transportErr = 0
    · by_cases hstopped : impl.messageDispatcher.Stopped <;>
        simp [call, stop, compareExchangeStrong, hrunning, herr, Event.isStart,
          Event.transportErr, hstop, hstopped, Except.map]
    · simp [call, stop, compareExchangeStrong, hrunning, herr, Event.isStart,
        Event.transportErr]

/-! ## Runs -/

/-- What a call was and returned, and the flag before and after it. -/
structure Answer where
  isStart : Bool
  before : UInt64
  error : BusError
  after : UInt64
deriving DecidableEq, Repr

/-- The bus, the answers of the calls that have returned, and whether one has not. -/
structure System where
  impl : BusImpl
  answers : List Answer
  trapped : Bool
deriving DecidableEq

/-- A new bus, of which nothing has been asked. -/
def System.init (inboundEndpoint : Option CString) : System :=
  ⟨BusLifecycle.init inboundEndpoint, [], false⟩

/-- There is no call after one that does not return. -/
def step (s : System) (e : Event) : Option System :=
  if s.trapped then none
  else
    let (impl, result) := call s.impl e
    match result with
    | .error _ => some { s with impl, trapped := true }
    | .ok error =>
      let answer := ⟨e.isStart, s.impl.isRunning, error, impl.isRunning⟩
      some { s with impl, answers := s.answers ++ [answer] }

/-- A call does not return, or it does and is answered. -/
theorem step_cases {s t : System} {e : Event} (hs : step s e = some t) :
    t.impl = (call s.impl e).1 ∧
      ((∃ fault, (call s.impl e).2 = .error fault ∧ t.answers = s.answers) ∨
        ∃ error, (call s.impl e).2 = .ok error ∧ t.answers = s.answers ++
          [⟨e.isStart, s.impl.isRunning, error, t.impl.isRunning⟩]) := by
  unfold step at hs
  split at hs
  · cases hs
  · cases hcall : call s.impl e with
    | mk impl result =>
      rw [hcall] at hs
      cases result with
      | error fault =>
        obtain rfl := Option.some.inj hs
        exact ⟨rfl, Or.inl ⟨fault, rfl, rfl⟩⟩
      | ok error =>
        obtain rfl := Option.some.inj hs
        exact ⟨rfl, Or.inr ⟨error, rfl, rfl⟩⟩

/-- The last successful call, if there is one, is a start. -/
def lastOkIsStart (answers : List Answer) : Bool :=
  (answers.filter (·.error = .ok)).getLast?.any (·.isStart)

/-- The answers tell the flag, a call that failed has left it as it was, and a start
    after one that failed in the transport is not taken for a second one. A call that
    does not return leaves the bus as it is then. -/
structure Consistent (s : System) : Prop where
  isRunning : s.impl.isRunning = 1 ↔ lastOkIsStart s.answers
  unchanged : ∀ a ∈ s.answers, a.error ≠ .ok → a.after = a.before
  retried : ∀ pre a b post, s.answers = pre ++ a :: b :: post → a.isStart →
    a.error = .errorTransport → b.isStart → b.error ≠ .errorAlreadyRunning

/-- If the call asks the transport, the transport does what it is asked for, and a
    stop then finds no queue that has been started. -/
def Completes (s : System) (e : Event) : Prop :=
  Asks s.impl e → e.transportErr = 0 ∧ (e.isStart ∨ s.impl.messageDispatcher.Stopped)

/-- What such calls keep: the answers so far tell the flag and whether the queue has
    been started, and those that are errors are refusals. -/
structure Holds (s : System) : Prop where
  isRunning : s.impl.isRunning = if lastOkIsStart s.answers then 1 else 0
  queue : s.impl.messageDispatcher = ⟨[⟨if lastOkIsStart s.answers then 1 else 0⟩]⟩
  refused : ∀ a ∈ s.answers, a.error ≠ .ok → a.error ≠ .errorTransport ∧ a.after = a.before

theorem lastOkIsStart_concat (answers : List Answer) (a : Answer) :
    lastOkIsStart (answers ++ [a]) =
      if a.error = .ok then a.isStart else lastOkIsStart answers := by
  by_cases h : a.error = .ok <;> simp [lastOkIsStart, List.filter_append, h]

theorem holds_init (inboundEndpoint : Option CString) : Holds (System.init inboundEndpoint) :=
  ⟨rfl, rfl, by simp [System.init]⟩

theorem Holds.consistent {s : System} (h : Holds s) : Consistent s where
  isRunning := by
    rw [h.isRunning]
    cases lastOkIsStart s.answers <;> decide
  unchanged a ha hne := (h.refused a ha hne).2
  retried pre a b post hs _ herr := by
    have hmem : a ∈ s.answers := by rw [hs]; simp
    exact absurd herr (h.refused a hmem (by rw [herr]; decide)).1

/-- A bus that is running has its queue started, and a stop does not return. -/
theorem Holds.not_stopped {s : System} (h : Holds s) (hrunning : s.impl.isRunning = 1) :
    ¬ s.impl.messageDispatcher.Stopped := by
  have hstart : lastOkIsStart s.answers = true := h.consistent.isRunning.mp hrunning
  rw [h.queue, hstart]
  decide

/-- A call that asks the transport is a start that succeeds. -/
theorem Holds.isStart {s : System} {e : Event} (h : Holds s) (hC : Completes s e)
    (hasks : Asks s.impl e) : e.isStart = true ∧ e.transportErr = 0 := by
  obtain ⟨herr, hstart | hstopped⟩ := hC hasks
  · exact ⟨hstart, herr⟩
  · cases he : e.isStart with
    | true => exact ⟨rfl, herr⟩
    | false =>
      have hrunning : s.impl.isRunning = 1 := by simpa [Asks, he] using hasks
      exact absurd hstopped (h.not_stopped hrunning)

theorem Holds.step {s t : System} {e : Event} (h : Holds s) (hC : Completes s e)
    (hs : step s e = some t) : Holds t := by
  obtain ⟨himpl, hanswers⟩ := step_cases hs
  by_cases hasks : Asks s.impl e
  · -- a start that succeeds: the flag and the queue go from 0 to 1
    obtain ⟨hstart, herr⟩ := h.isStart hC hasks
    obtain ⟨hafter, -, hqueue, hresult⟩ := call_of_asks hasks
    rw [if_neg (not_not.mpr herr)] at hresult hqueue
    rw [if_pos (Or.inl hstart)] at hresult
    rw [if_pos hstart] at hafter hqueue
    obtain ⟨fault, hfault, -⟩ | ⟨error, herror, hanswers⟩ := hanswers
    · rw [hresult] at hfault
      cases hfault
    · obtain rfl := Except.ok.inj (hresult.symm.trans herror)
      have hlast : lastOkIsStart t.answers = true := by
        rw [hanswers, lastOkIsStart_concat, if_pos rfl, hstart]
      have hbefore : s.impl.messageDispatcher = ⟨[⟨0⟩]⟩ ∨
          s.impl.messageDispatcher = ⟨[⟨1⟩]⟩ := by
        rw [h.queue]
        cases lastOkIsStart s.answers <;> simp
      refine ⟨by rw [himpl, hafter, hlast, if_pos rfl], ?_, ?_⟩
      · rw [himpl, hqueue, hlast, if_pos rfl]
        obtain hq | hq := hbefore <;>
        · rw [hq]
          rfl
      · rw [hanswers, List.forall_mem_append, List.forall_mem_singleton]
        exact ⟨h.refused, fun hne => absurd rfl hne⟩
  · -- a refusal: all is as it was
    have hcall := call_of_not_asks hasks
    rw [hcall] at himpl hanswers
    obtain ⟨fault, hfault, -⟩ | ⟨error, herror, hanswers⟩ := hanswers
    · cases hfault
    · have hrefused : error ≠ .ok ∧ error ≠ .errorTransport := by
        rw [← Except.ok.inj herror]
        cases e.isStart <;> decide
      have hlast : lastOkIsStart t.answers = lastOkIsStart s.answers := by
        rw [hanswers, lastOkIsStart_concat, if_neg hrefused.1]
      refine ⟨?_, ?_, ?_⟩
      · rw [himpl, hlast]
        exact h.isRunning
      · rw [himpl, hlast]
        exact h.queue
      · rw [hanswers, himpl, List.forall_mem_append, List.forall_mem_singleton]
        exact ⟨h.refused, fun _ => ⟨hrefused.2, rfl⟩⟩

/-- When the transport fails the flag is not as it was, and when a stop does not
    return the flag is 0 after a start that was successful. -/
theorem Consistent.completes {s t : System} {e : Event} (h : Holds s)
    (hs : BusLifecycle.step s e = some t) (ht : Consistent t) : Completes s e := by
  obtain ⟨himpl, hanswers⟩ := step_cases hs
  intro hasks
  obtain ⟨hafter, -, -, hresult⟩ := call_of_asks hasks
  by_cases herr : e.transportErr = 0
  · refine ⟨herr, ?_⟩
    by_contra hstarted
    obtain ⟨hstop, -⟩ := not_or.mp hstarted
    rw [if_neg (not_not.mpr herr), if_neg hstarted] at hresult
    obtain ⟨fault, -, hanswers⟩ | ⟨error, herror, -⟩ := hanswers
    · have hrunning : s.impl.isRunning = 1 := by
        rw [hasks, if_neg hstop]
      have hlast := h.consistent.isRunning.mp hrunning
      have hflag := ht.isRunning.mpr (by rw [hanswers]; exact hlast)
      rw [himpl, hafter, if_neg hstop] at hflag
      exact absurd hflag (by decide)
    · rw [hresult] at herror
      cases herror
  · rw [if_pos herr] at hresult
    obtain ⟨fault, hfault, -⟩ | ⟨error, herror, hanswers⟩ := hanswers
    · rw [hresult] at hfault
      cases hfault
    · obtain rfl := Except.ok.inj (hresult.symm.trans herror)
      have hsame := ht.unchanged ⟨e.isStart, s.impl.isRunning, .errorTransport,
        t.impl.isRunning⟩ (by rw [hanswers]; simp) (by simp)
      dsimp only at hsame
      rw [himpl, hafter, hasks] at hsame
      cases he : e.isStart <;> simp [he] at hsame

/-- **The answers of the bus tell whether it is running exactly in the runs in which
    the transport never fails and no stop gets to a queue that was started.** -/
theorem consistent_iff (inboundEndpoint : Option CString) (es : List Event) :
    Always step Consistent (System.init inboundEndpoint) es ↔
      Meets step Completes (System.init inboundEndpoint) es :=
  always_iff_meets (I := Holds) (holds_init inboundEndpoint) (fun _ => Holds.consistent)
    (fun _ _ _ => Holds.step) (fun _ _ _ => Consistent.completes)

/-- A start that fails in the transport cannot be retried, and a stop of a bus that was
    started leaves the flag at 0 without an answer. -/
theorem not_always_consistent :
    ¬ Always step Consistent (System.init none) [.start 1 none, .start 0 none] ∧
      ¬ Always step Consistent (System.init none) [.start 0 none, .stop 0] := by
  constructor
  · intro h
    have hretried := (h _ _ List.prefix_rfl rfl).retried [] _ _ [] rfl
    exact hretried rfl rfl rfl rfl
  · intro h
    have hflag := (h _ _ List.prefix_rfl rfl).isRunning
    exact absurd (hflag.mpr rfl) (by decide)

end Cebus.BusLifecycle
