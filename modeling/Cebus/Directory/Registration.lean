import Cebus.Directory.PeerDirectory

/-!
# Registration with the directories of the list

`cb_peer_directory_iter_move_next` is called nowhere, so that both loops stay at the
first endpoint.

* `contactLoop_iff`: such a loop falls through the list exactly if the list is empty
  or the first contact is successful.
* `fallsThrough_iff`: the same for registering and for leaving.
-/

namespace Cebus.PeerDirectory

open Bus (CommandResult)
open LinkedList (Fault)

/-! ## Model -/

/-- The loop over the endpoints, with the peers contacted so far. `handle` is what is
    done with an answer, and whether it ends the loop; `fresh` is what the memory of
    each `directory_peer` contains. -/
def contactLoop (handle : Directory → CommandResult → Except Fault (Directory × Bool))
    (sendTo : ℕ → CommandResult) (fresh : ℕ → Peer) (it : Iterator) :
    ℕ → Directory → List Peer → Option (Except Fault (Directory × List Peer × Error))
  | 0, _, _ => none
  | fuel + 1, directory, contacted =>
    if it.hasNext then
      match it.getPeer (fresh contacted.length) with
      | .error e => some (.error e)
      | .ok directoryPeer =>
        match handle directory (sendTo contacted.length) with
        | .error e => some (.error e)
        | .ok (directory, true) => some (.ok (directory, contacted ++ [directoryPeer], .ok))
        | .ok (directory, false) =>
          contactLoop handle sendTo fresh it fuel directory (contacted ++ [directoryPeer])
    else some (.ok (directory, contacted, .registrationFailed))

/-- What `cb_peer_directory_try_register_directory` does with an answer. -/
def handleRegister (unpack : List UInt8 → Option (List Proto.PeerDescriptor))
    (descriptor : PeerDescriptor) (directory : Directory) (commandResult : CommandResult) :
    Except Fault (Directory × Bool) := do
  let (directory, rc) ← handleRegisterPeerResponse unpack descriptor directory commandResult
  .ok (directory, rc = .ok)

/-- What `cb_peer_directory_unregister` does with an answer. -/
def handleUnregister (directory : Directory) (commandResult : CommandResult) :
    Except Fault (Directory × Bool) := .ok (directory, commandResult.errorCode = 0)

/-- `cb_peer_directory_try_register_directory` (lines 157–187). -/
def tryRegisterDirectory (unpack : List UInt8 → Option (List Proto.PeerDescriptor))
    (descriptor : PeerDescriptor) (sendTo : ℕ → CommandResult) (fresh : ℕ → Peer) (fuel : ℕ)
    (directory : Directory) : Option (Except Fault (Directory × List Peer × Error)) :=
  contactLoop (handleRegister unpack descriptor) sendTo fresh (iter directory) fuel directory []

/-- `cb_peer_directory_unregister` (lines 246–277). -/
def unregister (sendTo : ℕ → CommandResult) (fresh : ℕ → Peer) (fuel : ℕ)
    (directory : Directory) : Option (Except Fault (Directory × List Peer × Error)) :=
  contactLoop handleUnregister sendTo fresh (iter directory) fuel directory []

/-! ## Falling through the list -/

/-- The ids and endpoints of the directories of the list. -/
def directoryPeers (endpoints : List CString) : List (PeerId × CString) :=
  endpoints.mapIdx fun i endpoint => (directoryPeerId i, endpoint.strncpy 255)

/-- The endpoints are contacted once each, in the order of the list, up to the first
    success, and the answer tells whether there was one. -/
structure FallsThrough (endpoints : List CString) (succeeds : ℕ → Prop) (contacted : List Peer)
    (rc : Error) : Prop where
  inOrder : contacted.map (fun peer => (peer.peerId, peer.endpoint)) <+: directoryPeers endpoints
  stops : ∀ k, k + 1 < contacted.length → ¬ succeeds k
  ok : rc = .ok ↔ ∃ k, contacted.length = k + 1 ∧ succeeds k
  failed : rc = .registrationFailed ↔
    contacted.length = endpoints.length ∧ ∀ k < endpoints.length, ¬ succeeds k

/-- The call returns, and falls through the list. -/
def Ends (call : ℕ → Option (Except Fault (Directory × List Peer × Error)))
    (endpoints : List CString) (succeeds : ℕ → Prop) : Prop :=
  ∃ fuel directory contacted rc, call fuel = some (.ok (directory, contacted, rc)) ∧
    FallsThrough endpoints succeeds contacted rc

/-! ## The loop -/

section Loop

variable {handle : Directory → CommandResult → Except Fault (Directory × Bool)}
  {sendTo : ℕ → CommandResult} {fresh : ℕ → Peer}

/-- The iterator stays where it is: without a success the first directory is contacted
    again. -/
theorem contactLoop_contacted {it : Iterator} {endpoint : CString}
    (hit : it.directoryEndpoints[it.index]? = some endpoint) {fuel : ℕ}
    {directory directory' : Directory} {contacted contacted' : List Peer} {rc : Error}
    (h : contactLoop handle sendTo fresh it fuel directory contacted =
      some (.ok (directory', contacted', rc))) :
    ∃ peer rest, contacted' = contacted ++ peer :: rest ∧
      peer.peerId = directoryPeerId it.index := by
  induction fuel generalizing directory contacted with
  | zero => cases h
  | succ fuel ih =>
    simp only [contactLoop, Iterator.hasNext, Iterator.getPeer, hit, Option.isSome_some,
      if_true] at h
    split at h
    · cases h
    · obtain ⟨-, rfl, -⟩ : _ ∧ _ ∧ _ := by simpa using h
      exact ⟨_, [], rfl, rfl⟩
    · obtain ⟨peer, rest, rfl, -⟩ := ih h
      exact ⟨_, peer :: rest, by rw [List.append_assoc]; rfl, rfl⟩

theorem directoryPeerId_zero_ne_one : directoryPeerId 0 ≠ directoryPeerId 1 := by decide

/-- Two contacts of the first directory are not in the order of any list. -/
theorem not_inOrder {endpoints : List CString} {first second : Peer} {rest : List Peer}
    (h : second.peerId = directoryPeerId 0) :
    ¬ (first :: second :: rest).map (fun peer => (peer.peerId, peer.endpoint)) <+:
      directoryPeers endpoints := by
  intro hpre
  obtain ⟨tail, htail⟩ := hpre
  have hsecond : (directoryPeers endpoints)[1]? = some (second.peerId, second.endpoint) := by
    rw [← htail]
    rfl
  rw [directoryPeers, List.getElem?_mapIdx, Option.map_eq_some_iff] at hsecond
  obtain ⟨endpoint, -, heq⟩ := hsecond
  exact directoryPeerId_zero_ne_one (h.symm.trans (congrArg Prod.fst heq).symm)

/-- A list without endpoints is at its end at once. -/
theorem ends_of_nil {directory : Directory} (hnil : directory.directoryEndpoints = [])
    (succeeds : ℕ → Prop) :
    Ends (fun fuel => contactLoop handle sendTo fresh (iter directory) fuel directory [])
      directory.directoryEndpoints succeeds := by
  refine ⟨1, directory, [], .registrationFailed, ?_, ?_⟩
  · simp [contactLoop, Iterator.hasNext, iter, hnil]
  · exact ⟨List.nil_prefix, by simp, by simp, by simp [hnil]⟩

/-- A success at the first contact ends the loop. -/
theorem ends_of_first {directory : Directory} {endpoint : CString} {endpoints : List CString}
    (hlist : directory.directoryEndpoints = endpoint :: endpoints) {directory' : Directory}
    (hfirst : handle directory (sendTo 0) = .ok (directory', true)) :
    Ends (fun fuel => contactLoop handle sendTo fresh (iter directory) fuel directory [])
      directory.directoryEndpoints (fun k => ∃ d, handle directory (sendTo k) = .ok (d, true)) := by
  refine ⟨1, directory',
    [{ fresh 0 with endpoint := endpoint.strncpy 255, peerId := directoryPeerId 0 }], .ok, ?_, ?_⟩
  · simp [contactLoop, Iterator.hasNext, Iterator.getPeer, iter, hlist, hfirst]
  · refine ⟨?_, by simp, ?_, ?_⟩
    · simp [hlist, directoryPeers, List.mapIdx_cons]
    · simpa using ⟨directory', hfirst⟩
    · simp only [reduceCtorEq, false_iff, not_and, not_forall]
      refine fun _ => ⟨0, by simp [hlist], ?_⟩
      simpa using ⟨directory', hfirst⟩

variable (handle sendTo fresh) in
/-- **The loop falls through the list exactly if there is nothing to contact or the
    first contact is successful.** -/
theorem contactLoop_iff (directory : Directory) :
    Ends (fun fuel => contactLoop handle sendTo fresh (iter directory) fuel directory [])
        directory.directoryEndpoints (fun k => ∃ d, handle directory (sendTo k) = .ok (d, true)) ↔
      directory.directoryEndpoints = [] ∨ ∃ d, handle directory (sendTo 0) = .ok (d, true) := by
  rcases hlist : directory.directoryEndpoints with _ | ⟨endpoint, endpoints⟩
  · refine iff_of_true ?_ (Or.inl rfl)
    rw [← hlist]
    exact ends_of_nil hlist _
  · constructor
    · rintro ⟨fuel, directory', contacted, rc, hloop, hfalls⟩
      have hit : (iter directory).directoryEndpoints[(iter directory).index]? = some endpoint := by
        simp [iter, hlist]
      rcases fuel with _ | fuel
      · cases hloop
      simp only [contactLoop, Iterator.hasNext, Iterator.getPeer, hit, Option.isSome_some,
        if_true] at hloop
      split at hloop
      · cases hloop
      · next d hd => exact Or.inr ⟨d, hd⟩
      · obtain ⟨second, rest, rfl, hid⟩ := contactLoop_contacted hit hloop
        exact absurd hfalls.inOrder (not_inOrder hid)
    · rintro (hnil | ⟨d, hd⟩)
      · cases hnil
      · rw [← hlist]
        exact ends_of_first hlist hd

end Loop

/-! ## Registering and leaving -/

/-- Registering falls through the list. A contact is successful if its answer is handled
    without an error. -/
def RegistrationEnds (unpack : List UInt8 → Option (List Proto.PeerDescriptor))
    (descriptor : PeerDescriptor) (sendTo : ℕ → CommandResult) (fresh : ℕ → Peer)
    (directory : Directory) : Prop :=
  Ends (fun fuel => tryRegisterDirectory unpack descriptor sendTo fresh fuel directory)
    directory.directoryEndpoints
    (fun k => ∃ d, handleRegisterPeerResponse unpack descriptor directory (sendTo k) = .ok (d, .ok))

/-- Leaving falls through the list. A contact is successful if its error code is 0. -/
def UnregistrationEnds (sendTo : ℕ → CommandResult) (fresh : ℕ → Peer) (directory : Directory) :
    Prop :=
  Ends (fun fuel => unregister sendTo fresh fuel directory) directory.directoryEndpoints
    (fun k => (sendTo k).errorCode = 0)

theorem handleRegister_eq_true {unpack : List UInt8 → Option (List Proto.PeerDescriptor)}
    {descriptor : PeerDescriptor} {directory d : Directory} {commandResult : CommandResult} :
    handleRegister unpack descriptor directory commandResult = .ok (d, true) ↔
      handleRegisterPeerResponse unpack descriptor directory commandResult = .ok (d, .ok) := by
  simp only [handleRegister, Fallible.bind_eq_ok, Prod.exists, Except.ok.injEq, Prod.mk.injEq,
    decide_eq_true_eq]
  constructor
  · rintro ⟨_, _, h, rfl, rfl⟩
    exact h
  · exact fun h => ⟨d, .ok, h, rfl, rfl⟩

theorem handleUnregister_eq_true {directory : Directory} {commandResult : CommandResult} :
    (∃ d, handleUnregister directory commandResult = .ok (d, true)) ↔
      commandResult.errorCode = 0 := by
  simp [handleUnregister]

/-- **Registration and its end fall through the list of directories exactly if there is
    none or the first one is contacted with success.** -/
theorem fallsThrough_iff (unpack : List UInt8 → Option (List Proto.PeerDescriptor))
    (descriptor : PeerDescriptor) (sendTo : ℕ → CommandResult) (fresh : ℕ → Peer)
    (directory : Directory) :
    (RegistrationEnds unpack descriptor sendTo fresh directory ↔
      directory.directoryEndpoints = [] ∨
        ∃ d, handleRegisterPeerResponse unpack descriptor directory (sendTo 0) = .ok (d, .ok)) ∧
    (UnregistrationEnds sendTo fresh directory ↔
      directory.directoryEndpoints = [] ∨ (sendTo 0).errorCode = 0) := by
  constructor
  · have hloop := contactLoop_iff (handleRegister unpack descriptor) sendTo fresh directory
    simp only [handleRegister_eq_true] at hloop
    exact hloop
  · have hloop := contactLoop_iff handleUnregister sendTo fresh directory
    simp only [handleUnregister_eq_true] at hloop
    exact hloop

/-- With one directory that never registers the peer, the loop does not fall through. -/
theorem not_fallsThrough :
    ¬ ∀ (unpack : List UInt8 → Option (List Proto.PeerDescriptor)) (descriptor : PeerDescriptor)
      (sendTo : ℕ → CommandResult) (fresh : ℕ → Peer) (directory : Directory),
      RegistrationEnds unpack descriptor sendTo fresh directory ∧
        UnregistrationEnds sendTo fresh directory := by
  intro h
  let peer : Peer := ⟨directoryPeerId 0, CString.ofChars [], true, true⟩
  let directory : Directory := ⟨[CString.ofChars "tcp://a:1".toList], fun _ => none⟩
  have hends := (h (fun _ => none) ⟨peer, [], true, ⟨0⟩, true⟩ (fun _ => ⟨1, []⟩) (fun _ => peer)
    directory).2
  have hloop := contactLoop_iff handleUnregister (fun _ => ⟨1, []⟩) (fun _ => peer) directory
  simp only [handleUnregister_eq_true] at hloop
  obtain hnil | hone := hloop.mp hends
  · cases hnil
  · exact absurd hone (by decide)

end Cebus.PeerDirectory
