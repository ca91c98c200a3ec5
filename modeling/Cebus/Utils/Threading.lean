import Cebus.Lib.Transition

/-!
# Futures

Model of the futures of `src/threading.c` with one thread that runs
`cb_future_get` and any number of threads that run `cb_future_set`.

Each section under a mutex is one event. `cb_cond_signal` wakes the getter if it
waits and is lost otherwise; `cb_cond_wait` may also return without a signal.
-/

namespace Cebus.Future

/-- `cb_future_state`. -/
inductive FutureState where
  | pending
  | ready
deriving DecidableEq, Repr

/-- Where the thread in `cb_future_get` stands: before a call, in
    `cb_cond_wait`, woken by a signal, or back with the result it has read, which
    is `none` while `cb_future_get_continuation_state.result` is not written. -/
inductive Getter (α : Type) where
  | callThen
  | callContinuation
  | callWait
  | waiting
  | signalled
  | returned (result : Option α)
deriving DecidableEq, Repr

/-- The future (`cb_future_inner`), the getter with its
    `cb_future_get_continuation_state`, and the number of threads that have left
    the section of `cb_future_set` to call the continuation. -/
structure System (α : Type) where
  state : FutureState
  continuation : Bool
  valueStorage : α
  callers : ℕ
  result : Option α
  getter : Getter α
deriving DecidableEq, Repr

variable {α : Type}

/-- After `cb_future_init` (lines 64–75), which clears the storage to
    `value`. -/
def init (value : α) : System α := ⟨.pending, false, value, 0, none, .callThen⟩

/-- The section of `cb_future_then` (lines 98–115). -/
def «then» (s : System α) : System α :=
  match s.state with
  | .ready => { s with getter := .callContinuation }
  | .pending => { s with continuation := true, getter := .callWait }

/-- The section of `cb_future_set` (lines 117–141). -/
def set (s : System α) (data : α) : System α :=
  match s.state with
  | .pending => { s with
      valueStorage := data
      state := .ready
      callers := if s.continuation then s.callers + 1 else s.callers }
  | .ready => s

/-- `cb_future_get_continuation` (lines 39–46), the signal included. -/
def getContinuation (s : System α) : System α :=
  { s with
    result := some s.valueStorage
    getter := match s.getter with
      | .waiting => .signalled
      | g => g }

/-- The sections of the calls of `cb_future_set` and of `cb_future_get`. -/
inductive Event (α : Type) where
  | set (data : α)
  | setContinuation
  | getThen
  | getContinuation
  | getWait
  | wakeUp
  | spuriousWakeUp
deriving DecidableEq, Repr

/-- `cb_future_get` (lines 143–151) and the callers of `cb_future_set`,
    step by step. `cb_cond_wait` returns with its mutex held, so that the read of
    the result belongs to the wake-up. -/
def step (s : System α) : Event α → Option (System α)
  | .set data => some (set s data)
  | .setContinuation =>
    if 0 < s.callers then some { getContinuation s with callers := s.callers - 1 } else none
  | .getThen => if s.getter matches .callThen then some («then» s) else none
  | .getContinuation =>
    if s.getter matches .callContinuation then
      some { getContinuation s with getter := .callWait }
    else none
  | .getWait => if s.getter matches .callWait then some { s with getter := .waiting } else none
  | .wakeUp =>
    if s.getter matches .signalled then some { s with getter := .returned s.result } else none
  | .spuriousWakeUp =>
    if s.getter matches .waiting then some { s with getter := .returned s.result } else none

end Cebus.Future
