import Cebus.Lib.Fallible
import Cebus.Lib.Transition
import Cebus.Transport.OutboundSocket
import Mathlib.Tactic.SplitIfs

/-!
# The calls of an outbound socket (`zmq_outbound_socket.c`)

Sequences of connects, sends and disconnects, with any answers of ØMQ. A socket that has no
retries left when a send fails starts its cooldown timer, which is not implemented on this
platform.

* `state_step`: no socket that can be reached waits for its cooldown.
* `survivesCalls_iff`: which sequences of calls do not end the process.
-/

namespace Cebus.OutboundSocket

open LinkedList (Fault)
open Transition

/-! ## Model -/

/-- A call for a socket, with what ØMQ answers while it is made. -/
inductive Call where
  | connect (answers : ConnectAnswers)
  | send (rc : Int32)
  | disconnect (rc : Int32)
deriving DecidableEq

/-- The socket after the call, the code that it returns, and whether it gave a message to
    ØMQ. -/
def call (socket : OutboundSocket) :
    Call → Except Abort (OutboundSocket × OutboundSocketError × Bool)
  | .connect answers => let (socket, code) := socket.connect answers; .ok (socket, code, false)
  | .send rc => socket.send rc
  | .disconnect rc => let (socket, code) := socket.disconnect rc; .ok (socket, code, false)

/-- The socket after a call that returns. -/
def step (socket : OutboundSocket) (c : Call) : Option OutboundSocket :=
  match call socket c with
  | .error _ => none
  | .ok (socket, _, _) => some socket

/-- A socket that has used up its retries answers a send with an error, and drops it. -/
def Drops (socket : OutboundSocket) (c : Call) : Prop :=
  socket.state = .closedWait → ∀ rc, c = .send rc →
    ∃ socket' code, call socket c = .ok (socket', code, false) ∧ code ≠ .ok

/-- All calls return, and those that come without retries are answered. -/
def Survives (socket : OutboundSocket) (calls : List Call) : Prop :=
  (∃ socket', run step socket calls = some socket') ∧ Guarded step Drops socket calls

/-- A send that fails on a connected socket finds a retry that is left. -/
def RetriesLeft (socket : OutboundSocket) : Call → Prop
  | .send rc => rc ≠ 0 → socket.sock = true → socket.state = .established →
      socket.failedSendCount < socket.sendRetries.toInt64.toUInt64
  | .connect _ => True
  | .disconnect _ => True

instance (socket : OutboundSocket) : ∀ c, Decidable (RetriesLeft socket c)
  | .send _ => inferInstanceAs (Decidable (_ → _ → _ → _))
  | .connect _ => .isTrue trivial
  | .disconnect _ => .isTrue trivial

/-! ## One call -/

variable {socket socket' : OutboundSocket} {c : Call}

theorem step_eq_some_iff : step socket c = some socket' ↔
    ∃ code called, call socket c = .ok (socket', code, called) := by
  unfold step
  split
  · next heq => simp [heq]
  · next heq => simp [heq]

theorem state_connect (answers : ConnectAnswers) :
    (socket.connect answers).1.state = socket.state ∨
      (socket.connect answers).1.state = .established := by
  unfold connect
  split
  · exact Or.inl rfl
  · split
    · exact Or.inl rfl
    · split
      · exact Or.inl rfl
      · exact Or.inr rfl

theorem state_disconnect (rc : Int32) :
    (socket.disconnect rc).1.state = socket.state ∨
      (socket.disconnect rc).1.state = .closed := by
  unfold disconnect
  split_ifs
  · exact Or.inl rfl
  · exact Or.inl rfl
  · exact Or.inl rfl
  · exact Or.inr rfl

/-- A failed send only counts, as long as the process goes on. -/
theorem sendFailure_eq_ok_iff {rc : Int32} : socket.sendFailure rc = .ok socket' ↔
    socket.state = .established ∧
      socket.failedSendCount < socket.sendRetries.toInt64.toUInt64 ∧
      socket' = { socket with zmqError := rc, failedSendCount := socket.failedSendCount + 1 } := by
  unfold sendFailure
  split_ifs with hstate hleft
  · simp [hstate]
  · simp [UInt64.not_lt.mpr hleft]
  · simp [not_not.mp hstate, UInt64.not_le.mp hleft, eq_comm]

/-- A socket that is neither connected nor waiting is not sent to. -/
theorem send_of_not_connected (rc : Int32) (hwait : socket.state ≠ .closedWait)
    (h : ¬(socket.sock = true ∧ socket.state = .established)) :
    ∃ code, socket.send rc = .ok (socket, code, false) := by
  unfold send
  by_cases hsock : socket.sock = false
  · exact ⟨.errorNotConnected, if_pos hsock⟩
  · have hclosed : socket.state = .closed := by
      cases hstate : socket.state with
      | established => exact absurd ⟨(Bool.not_eq_false _).mp hsock, hstate⟩ h
      | closedWait => exact absurd hstate hwait
      | closed => rfl
    refine ⟨.errorSendCooldown, ?_⟩
    rw [if_neg hsock, canSend, hclosed]
    rfl

/-- A connected one is, and stays connected if the send returns. -/
theorem send_of_connected (rc : Int32) (hsock : socket.sock = true)
    (hstate : socket.state = .established) : socket.send rc =
      if rc = 0 then .ok (socket, .ok, true)
      else (socket.sendFailure rc).map fun socket => (socket, .errorSend, true) := by
  unfold send
  rw [if_neg (by rw [hsock]; decide), canSend, hstate, Fallible.ok_bind, if_neg (by decide)]
  by_cases hrc : rc = 0
  · rw [if_pos hrc, if_pos hrc]
  · rw [if_neg hrc, if_neg hrc]
    cases socket.sendFailure rc with
    | error abort => rfl
    | ok failed => rfl

/-- **A send** of a socket that is not waiting returns if there is a retry left when it
    fails. -/
theorem exists_send (rc : Int32) (hwait : socket.state ≠ .closedWait)
    (hleft : RetriesLeft socket (.send rc)) : ∃ answer, socket.send rc = .ok answer := by
  by_cases hconn : socket.sock = true ∧ socket.state = .established
  · rw [send_of_connected rc hconn.1 hconn.2]
    by_cases hrc : rc = 0
    · exact ⟨_, if_pos hrc⟩
    · have hfailure : socket.sendFailure rc = .ok _ :=
        sendFailure_eq_ok_iff.mpr ⟨hconn.2, hleft hrc hconn.1 hconn.2, rfl⟩
      exact ⟨_, by rw [if_neg hrc, hfailure]; rfl⟩
  · obtain ⟨code, hsend⟩ := send_of_not_connected rc hwait hconn
    exact ⟨_, hsend⟩

/-- A send that returns has not used up the retries. -/
theorem retriesLeft_of_send {rc : Int32} {answer : OutboundSocket × OutboundSocketError × Bool}
    (h : socket.send rc = .ok answer) : RetriesLeft socket (.send rc) := by
  intro hrc hsock hstate
  rw [send_of_connected rc hsock hstate, if_neg hrc] at h
  cases hfailure : socket.sendFailure rc with
  | error abort =>
    rw [hfailure] at h
    cases h
  | ok failed => exact (sendFailure_eq_ok_iff.mp hfailure).2.1

/-- **No call that returns leaves a socket waiting** for its cooldown. -/
theorem state_step (hwait : socket.state ≠ .closedWait) (h : step socket c = some socket') :
    socket'.state ≠ .closedWait := by
  obtain ⟨code, called, hcall⟩ := step_eq_some_iff.mp h
  cases c with
  | connect answers =>
    obtain rfl : (socket.connect answers).1 = socket' := congrArg Prod.fst (Except.ok.inj hcall)
    obtain hstate | hstate := state_connect answers
    · rwa [hstate]
    · rw [hstate]
      decide
  | disconnect rc =>
    obtain rfl : (socket.disconnect rc).1 = socket' := congrArg Prod.fst (Except.ok.inj hcall)
    obtain hstate | hstate := state_disconnect rc
    · rwa [hstate]
    · rw [hstate]
      decide
  | send rc =>
    have hsend : socket.send rc = .ok (socket', code, called) := hcall
    by_cases hconn : socket.sock = true ∧ socket.state = .established
    · rw [send_of_connected rc hconn.1 hconn.2] at hsend
      split_ifs at hsend
      · obtain rfl : socket = socket' := congrArg Prod.fst (Except.ok.inj hsend)
        exact hwait
      · cases hfailure : socket.sendFailure rc with
        | error abort =>
          rw [hfailure] at hsend
          cases hsend
        | ok failed =>
          rw [hfailure] at hsend
          obtain rfl : failed = socket' := congrArg Prod.fst (Except.ok.inj hsend)
          obtain ⟨-, -, rfl⟩ := sendFailure_eq_ok_iff.mp hfailure
          exact hwait
    · obtain ⟨code', hsame⟩ := send_of_not_connected rc hwait hconn
      obtain rfl : socket = socket' := congrArg Prod.fst (Except.ok.inj (hsame.symm.trans hsend))
      exact hwait

/-- **A call returns** if there is a retry left when it is a send that fails. -/
theorem exists_step (hwait : socket.state ≠ .closedWait) (hleft : RetriesLeft socket c) :
    ∃ socket', step socket c = some socket' := by
  cases c with
  | connect answers => exact ⟨_, step_eq_some_iff.mpr ⟨_, _, rfl⟩⟩
  | disconnect rc => exact ⟨_, step_eq_some_iff.mpr ⟨_, _, rfl⟩⟩
  | send rc =>
    obtain ⟨⟨socket', code, called⟩, hsend⟩ := exists_send rc hwait hleft
    exact ⟨socket', step_eq_some_iff.mpr ⟨code, called, hsend⟩⟩

theorem retriesLeft_of_step (h : step socket c = some socket') : RetriesLeft socket c := by
  obtain ⟨code, called, hcall⟩ := step_eq_some_iff.mp h
  cases c with
  | connect answers => exact trivial
  | disconnect rc => exact trivial
  | send rc => exact retriesLeft_of_send hcall

/-! ## The runs -/

/-- A new socket is closed, with what it is given. -/
theorem state_new {peerId : PeerId} {endpoint : CString} {sendRetries : Int32} {fresh : UInt64}
    (h : new peerId endpoint sendRetries fresh = .ok socket) : socket.state = .closed := by
  obtain ⟨id, -, hnew⟩ := Fallible.bind_eq_ok.mp h
  obtain rfl := Except.ok.inj hnew
  rfl

/-- **The process survives** the calls of a socket exactly if every send that fails finds a
    retry that is left. -/
theorem survivesCalls_iff (peerId : PeerId) (endpoint : CString) (sendRetries : Int32)
    (fresh : UInt64) (socket : OutboundSocket) (calls : List Call)
    (hnew : new peerId endpoint sendRetries fresh = .ok socket) :
    Survives socket calls ↔ Guarded step RetriesLeft socket calls := by
  have hclosed : socket.state ≠ .closedWait := by
    rw [state_new hnew]
    decide
  constructor
  · rintro ⟨⟨last, hrun⟩, -⟩ calls' c t hpre ht
    obtain ⟨u, hu⟩ := run_initial hpre hrun
    rw [run_concat, ht, Option.bind_some] at hu
    exact retriesLeft_of_step hu
  · intro hguarded
    obtain ⟨last, hrun, -⟩ := hguarded.reaches (I := fun _ t => t.state ≠ .closedWait) hclosed
      fun calls' c t _ hwait hleft => by
        obtain ⟨u, hu⟩ := exists_step hwait hleft
        exact ⟨u, hu, state_step hwait hu⟩
    refine ⟨⟨last, hrun⟩, fun calls' c t _ ht hwait => ?_⟩
    exact absurd hwait (run_induction (I := fun t => t.state ≠ .closedWait) hclosed
      (fun _ _ _ => state_step) ht)

/-- A socket with one retry survives two sends of which one fails. -/
theorem survivesCalls_oneRetry :
    Survives ⟨false, .closed, ⟨CString.ofChars "Abc.Peer.3".toList, by decide⟩,
        CString.ofChars "tcp://a:1".toList, 0, 1, 0⟩
      [.connect ⟨true, none, none⟩, .send (-1), .send 0, .disconnect 0] :=
  (survivesCalls_iff ⟨CString.ofChars "Abc.Peer.3".toList, by decide⟩
    (CString.ofChars "tcp://a:1".toList) 1 0 _ _ (by decide +kernel)).mpr (by decide +kernel)

/-- A socket without retries does not survive a send that fails. -/
theorem not_always_survivesCalls :
    ¬∀ (peerId : PeerId) (endpoint : CString) (sendRetries : Int32) (fresh : UInt64)
      (socket : OutboundSocket) (calls : List Call),
      new peerId endpoint sendRetries fresh = .ok socket → Survives socket calls := by
  intro h
  have hsurvives := h ⟨CString.ofChars "Abc.Peer.3".toList, by decide⟩
    (CString.ofChars "tcp://a:1".toList) 0 0 _ [.connect ⟨true, none, none⟩, .send (-1)] rfl
  obtain ⟨⟨last, hrun⟩, -⟩ := hsurvives
  exact absurd hrun (by rintro ⟨⟩)

end Cebus.OutboundSocket
