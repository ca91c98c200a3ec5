import Cebus.Lib.LinkedList
import Cebus.Lib.Transition

/-!
# Dispatch queues (`dispatch_queue.c`)

Producers append entries to a list under a mutex. A thread of the queue takes
the whole list at a wake-up and then goes through it outside the mutex; it ends
at an entry without a dispatch, which is what a stop enqueues.

There is one event for each section that runs as a whole. `cb_cond_wait` has no
predicate around it, so that a wake-up may come whenever a thread waits. Each
start spawns a thread, and a start that comes while a stop waits for the thread
of the queue to end spawns another one beside it. The join in a stop leaves the
queue as it is.
-/

namespace Cebus.DispatchQueue

open LinkedList

/-- A thread in `cb_dispatch_queue_impl_thread`: its flag, and the entry it has come
    to. It waits while it is running and has none. -/
structure Thread where
  running : Bool
  entry : Option ℕ
deriving DecidableEq

/-- `cb_dispatch_queue_impl` (lines 23–38), with the memory of the entries, whose
    value is the dispatch with its handler, and `none` where `dispatch` is `NULL`.
    The threads stand in the order in which they have last taken a batch.
    `stopping` counts the calls of stop that have exchanged `running` and not yet
    enqueued their entry; `enqueued` and `invoked` record the dispatches with the
    addresses of their entries. -/
structure DispatchQueueImpl (μ : Type) where
  memory : Mem (Option μ)
  head : Option ℕ
  tail : Option ℕ
  running : Bool
  threads : List Thread
  stopping : ℕ
  crashed : Bool
  enqueued : List (ℕ × μ)
  invoked : List (ℕ × μ)
deriving DecidableEq

variable {μ : Type}

/-- `cb_dispatch_queue_impl_init` (lines 102–113). -/
def init : DispatchQueueImpl μ := ⟨[], none, none, false, [], 0, false, [], []⟩

/-- `cb_dispatch_queue_impl_enqueue_entry` (lines 84–100) with a new entry
    (`cb_dispatch_queue_entry_init`, lines 74–82). -/
def enqueueEntry (impl : DispatchQueueImpl μ) (dispatch : Option μ) : DispatchQueueImpl μ :=
  let entry := impl.memory.length
  let memory := impl.memory.alloc ⟨dispatch, none⟩
  match impl.head with
  | none => { impl with memory, head := some entry, tail := some entry }
  | some _ =>
    match impl.tail with
    | none => { impl with crashed := true }
    | some a =>
      match memory.read a with
      | none => { impl with crashed := true }
      | some last => { impl with
          memory := memory.write a { last with next := some entry }
          tail := some entry }

/-- `cb_dispatch_queue_impl_enqueue` (lines 134–137). -/
def enqueue (impl : DispatchQueueImpl μ) (dispatch : μ) : DispatchQueueImpl μ :=
  enqueueEntry { impl with enqueued := impl.enqueued ++ [(impl.memory.length, dispatch)] }
    (some dispatch)

/-- `cb_dispatch_queue_impl_start` (lines 115–122). -/
def start (impl : DispatchQueueImpl μ) : DispatchQueueImpl μ :=
  if impl.running then impl
  else { impl with running := true, threads := impl.threads ++ [⟨true, none⟩] }

/-- The exchange in `cb_dispatch_queue_impl_stop` (lines 126–128). -/
def stop (impl : DispatchQueueImpl μ) : DispatchQueueImpl μ :=
  if impl.running then { impl with running := false, stopping := impl.stopping + 1 } else impl

/-- The rest of it (lines 130–131). `cb_dispatch_queue_entry_init` reads the fields of
    the invoker, which is `NULL` here; if the read does not trap, what it yields is
    not used. -/
def stopEnqueue (impl : DispatchQueueImpl μ) (trap : Bool) : Option (DispatchQueueImpl μ) :=
  match impl.stopping with
  | 0 => none
  | stopping + 1 =>
    if trap then some { impl with stopping, crashed := true }
    else some (enqueueEntry { impl with stopping } none)

/-- The section of the thread under the mutex (lines 48–52), from the return of
    `cb_cond_wait` on. -/
def wake (impl : DispatchQueueImpl μ) (i : ℕ) : Option (DispatchQueueImpl μ) := do
  let thread ← impl.threads[i]?
  if thread.running ∧ thread.entry = none then
    some { impl with
      threads := impl.threads.eraseIdx i ++ [{ thread with entry := impl.head }]
      head := none
      tail := none }
  else none

/-- One turn of the inner loop (lines 54–68). -/
def turn (impl : DispatchQueueImpl μ) (i : ℕ) : Option (DispatchQueueImpl μ) := do
  let thread ← impl.threads[i]?
  let a ← thread.entry
  match impl.memory.read a with
  | none => some { impl with crashed := true }
  | some ⟨none, _⟩ => some { impl with threads := impl.threads.set i ⟨false, none⟩ }
  | some ⟨some dispatch, next⟩ => some { impl with
      threads := impl.threads.set i { thread with entry := next }
      memory := impl.memory.free a
      invoked := impl.invoked ++ [(a, dispatch)] }

/-- The calls of producers and owners, and the sections of the threads; `i` is the place of a
    thread. -/
inductive Event (μ : Type) where
  | enqueue (dispatch : μ)
  | start
  | stop
  | stopEnqueue (trap : Bool)
  | wake (i : ℕ)
  | turn (i : ℕ)
deriving DecidableEq

/-- Nothing happens after a crash. -/
def step (impl : DispatchQueueImpl μ) (e : Event μ) : Option (DispatchQueueImpl μ) :=
  if impl.crashed then none
  else match e with
    | .enqueue dispatch => some (enqueue impl dispatch)
    | .start => some (start impl)
    | .stop => some (stop impl)
    | .stopEnqueue trap => stopEnqueue impl trap
    | .wake i => wake impl i
    | .turn i => turn impl i

/-! ## What the queue holds -/

/-- The entries that a thread has before it. -/
def batch (impl : DispatchQueueImpl μ) (thread : Thread) : List (ℕ × Option μ) :=
  cells impl.memory thread.entry

/-- The entries that are still linked in the queue. -/
def linked (impl : DispatchQueueImpl μ) : List (ℕ × Option μ) := cells impl.memory impl.head

/-- The entries in the batches and then those in the queue. -/
def pending (impl : DispatchQueueImpl μ) : List (ℕ × Option μ) :=
  impl.threads.flatMap (batch impl) ++ linked impl

/-- The dispatches among the entries, without those of the stops. -/
def dispatches (entries : List (ℕ × Option μ)) : List (ℕ × μ) :=
  entries.filterMap fun e => e.2.map (e.1, ·)

/-- The entries enqueued are those invoked, then those in the batches, then those
    in the queue, in their order. -/
def Conserves (impl : DispatchQueueImpl μ) : Prop :=
  impl.crashed = false ∧ impl.enqueued = impl.invoked ++ dispatches (pending impl)

instance [DecidableEq μ] (impl : DispatchQueueImpl μ) : Decidable (Conserves impl) :=
  inferInstanceAs (Decidable (_ ∧ _))

/-- A stop does not trap; behind the entry of a stop there is no dispatch in its
    batch; and a dispatch is invoked when the earlier batches have none left. -/
def InTurn (impl : DispatchQueueImpl μ) : Event μ → Prop
  | .stopEnqueue trap => trap = false
  | .turn i => ∀ thread a x b, impl.threads[i]? = some thread →
      batch impl thread = (a, x) :: b →
      match x with
      | none => dispatches b = []
      | some _ => dispatches ((impl.threads.take i).flatMap (batch impl)) = []
  | _ => True

end Cebus.DispatchQueue
