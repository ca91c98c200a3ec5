import Cebus.Lib.Transition
import Cebus.Subscription.TreeDepth

/-!
# Keys from the wire

A key of a `BindingKey` message has the parts of the message, none of them if it
has none. Then it is not the empty key, and no node is a leaf for it.

* `grown_of_run`: what additions make of a tree.
* `add_unbounded_of_nil`: an addition under the key of a message without parts goes
  on for ever.
* `endsWithin_iff`: the operations on the tree go down by at most one node more than
  the key has parts exactly when it has a part.
-/

namespace Cebus.PeerSubscriptionTree

open LinkedList Fallible PeerList Transition

/-! ## The operations, to a depth -/

/-- `cb_peer_subscription_tree_add`, in which the calls of `update_node` are nested
    to this depth. -/
def addWithin (depth : ℕ) (tree : PeerSubscriptionTree) (peer : Peer) (bindingKey : BindingKey) :
    Except Fault PeerSubscriptionTree :=
  if BindingKey.isEmpty bindingKey then do
    let peersMatchingAll ← tree.peersMatchingAll.insert peer
    .ok { tree with peersMatchingAll }
  else do
    let root ← updateNode peer bindingKey findOrAdd addOrUpdatePeer depth true tree.root 0
    .ok { tree with root }

/-- `cb_peer_subscription_tree_remove`, in which the calls of `update_node` are nested
    to this depth. -/
def removeWithin (depth : ℕ) (tree : PeerSubscriptionTree) (peer : Peer)
    (bindingKey : BindingKey) : Except Fault PeerSubscriptionTree :=
  if BindingKey.isEmpty bindingKey then do
    let (peersMatchingAll, _) ← tree.peersMatchingAll.remove peer
    .ok { tree with peersMatchingAll }
  else do
    let root ← updateNode peer bindingKey find removePeer depth true tree.root 0
    .ok { tree with root }

/-- `cb_peer_subscription_tree_get_peers`, in which the calls of `collect` are nested
    to this depth. -/
def getPeersWithin (depth count : ℕ) (tree : PeerSubscriptionTree) (bindingKey : BindingKey) :
    Except Fault PeerList := do
  let peers ← (PeerList.init count).offer tree.peersMatchingAll
  if BindingKey.isEmpty bindingKey then offerAll tree.root.height peers tree.root
  else collect bindingKey depth true peers tree.root

variable {t : PeerSubscriptionTree} {peer : Peer} {bindingKey : BindingKey}

theorem add_eq_addWithin : add t peer bindingKey =
    addWithin (BindingKey.fragmentCount bindingKey + 1) t peer bindingKey := rfl

theorem remove_eq_removeWithin : remove t peer bindingKey =
    removeWithin (BindingKey.fragmentCount bindingKey + 1) t peer bindingKey := rfl

theorem getPeers_eq_getPeersWithin (count : ℕ) : getPeers count t bindingKey =
    getPeersWithin t.root.height count t bindingKey := rfl

/-- The operations with this key end and nest their calls to this depth at most.
    They may trap. -/
structure EndsWithin (depth count : ℕ) (t : PeerSubscriptionTree) (peer : Peer)
    (bindingKey : BindingKey) : Prop where
  add : addWithin depth t peer bindingKey ≠ .error .fuel
  remove : removeWithin depth t peer bindingKey ≠ .error .fuel
  getPeers : getPeersWithin depth count t bindingKey ≠ .error .fuel

/-! ## Trees that additions have made -/

/-- A call of `cb_peer_subscription_tree_add` that returns. -/
def addAny (t : PeerSubscriptionTree) (call : Peer × BindingKey) : Option PeerSubscriptionTree :=
  (add t call.1 call.2).toOption

/-- The tree is as additions leave it. -/
structure Grown (t : PeerSubscriptionTree) : Prop where
  root : t.root.Grown 0
  matchingAll : t.peersMatchingAll.Linked

theorem grown_init (count : ℕ) : (init count).Grown := ⟨nodeNew_grown rfl, linked_init count⟩

/-- A key that is not empty and has a fragment. -/
theorem fragments_of_not_empty (hempty : BindingKey.isEmpty bindingKey = false)
    (hne : bindingKey ≠ some []) :
    ∃ fs, bindingKey = some fs ∧ fs ≠ [] ∧ BindingKey.fragmentCount bindingKey = fs.length := by
  cases bindingKey with
  | none => cases hempty
  | some fs => exact ⟨fs, rfl, fun h => hne (congrArg some h), rfl⟩

/-- An addition under a key with a fragment. -/
theorem addWithin_grown (h : t.Grown) (hne : bindingKey ≠ some []) :
    Avoids Fault.fuel Grown
      (addWithin (BindingKey.fragmentCount bindingKey + 1) t peer bindingKey) := by
  unfold addWithin
  cases hempty : BindingKey.isEmpty bindingKey with
  | true =>
    apply (insert_linked h.matchingAll peer).bind
    rintro peers ⟨hlinked, -⟩
    exact ⟨h.root, hlinked⟩
  | false =>
    obtain ⟨fs, rfl, hfs, hcount⟩ := fragments_of_not_empty hempty hne
    rw [hcount]
    apply (add_grown h.root hfs (List.drop_zero (l := fs)) (Nat.zero_le _)
      (Nat.lt_succ_self _)).bind
    intro root hadded
    exact ⟨hadded.grown, h.matchingAll⟩

/-- The key of a message without parts. -/
theorem add_unbounded_of_nil (h : t.Grown) (depth : ℕ) :
    addWithin depth t peer (some []) = .error .fuel := by
  have hroot := h.root.here
  have hupdate : updateNode peer (some []) findOrAdd addOrUpdatePeer depth true t.root 0 =
      .error .fuel := add_unbounded hroot.shape hroot.tidy hroot.literals
  unfold addWithin
  rw [hupdate]
  rfl

theorem addAny_grown {t' : PeerSubscriptionTree} {call : Peer × BindingKey} (h : t.Grown)
    (hadd : addAny t call = some t') : t'.Grown := by
  have hok : add t call.1 call.2 = .ok t' := by
    unfold addAny at hadd
    cases hresult : add t call.1 call.2 with
    | error e =>
      rw [hresult] at hadd
      cases hadd
    | ok u =>
      rw [hresult] at hadd
      exact congrArg Except.ok (Option.some.inj hadd)
  rw [add_eq_addWithin] at hok
  by_cases hnil : call.2 = some []
  · rw [hnil, add_unbounded_of_nil h] at hok
    cases hok
  · have hgrown : Avoids Fault.fuel Grown
        (addWithin (BindingKey.fragmentCount call.2 + 1) t call.1 call.2) :=
      addWithin_grown h hnil
    rw [hok] at hgrown
    exact hgrown

/-- **What additions make of a tree.** -/
theorem grown_of_run {count : ℕ} {calls : List (Peer × BindingKey)}
    (h : run addAny (init count) calls = some t) : t.Grown :=
  run_induction (grown_init count) (fun _ _ _ hgrown hstep => addAny_grown hgrown hstep) h

/-! ## Keys with parts -/

theorem removeWithin_avoids (h : t.Grown) (hne : bindingKey ≠ some []) :
    Avoids Fault.fuel (fun _ => True)
      (removeWithin (BindingKey.fragmentCount bindingKey + 1) t peer bindingKey) := by
  unfold removeWithin
  cases hempty : BindingKey.isEmpty bindingKey with
  | true => exact (remove_avoids h.matchingAll peer).bind fun _ _ => trivial
  | false =>
    obtain ⟨fs, rfl, hfs, hcount⟩ := fragments_of_not_empty hempty hne
    rw [hcount]
    exact (remove_shapely h.root hfs (List.drop_zero (l := fs)) (Nat.zero_le _)
      (Nat.lt_succ_self _)).bind fun _ _ => trivial

theorem getPeersWithin_avoids (h : t.Grown) (hne : bindingKey ≠ some []) (count : ℕ) :
    Avoids Fault.fuel Linked
      (getPeersWithin (BindingKey.fragmentCount bindingKey + 1) count t bindingKey) := by
  apply (offer_linked h.matchingAll (linked_init count)).bind
  intro peers hpeers
  cases hempty : BindingKey.isEmpty bindingKey with
  | true => exact offerAll_linked h.root (Nat.le_refl _) hpeers
  | false =>
    obtain ⟨fs, rfl, hfs, hcount⟩ := fragments_of_not_empty hempty hne
    rw [hcount]
    exact collect_linked h.root hfs (Nat.zero_le _) (by omega) hpeers

/-- **The operations go down by at most one node more than the key has parts exactly
    when the message has a part.** -/
theorem endsWithin_iff (count garbage : ℕ) (calls : List (Peer × BindingKey))
    (tree : PeerSubscriptionTree) (h : run addAny (init count) calls = some tree) (peer : Peer)
    (proto : Proto.BindingKey) :
    EndsWithin (proto.parts.length + 1) garbage tree peer (BindingKey.fromProto proto) ↔
      proto.parts ≠ [] := by
  have hgrown := grown_of_run h
  constructor
  · intro hends hnil
    apply hends.add
    unfold BindingKey.fromProto
    rw [hnil]
    exact add_unbounded_of_nil hgrown _
  · intro hparts
    have hne : BindingKey.fromProto proto ≠ some [] := fun heq => hparts (Option.some.inj heq)
    exact ⟨(addWithin_grown hgrown hne).ne_error, (removeWithin_avoids hgrown hne).ne_error,
      (getPeersWithin_avoids hgrown hne garbage).ne_error⟩

/-- A peer. -/
def anyPeer : Peer where
  peerId := ⟨CString.ofChars ['p'], by decide⟩
  endpoint := CString.ofChars ['e']
  isUp := true
  isResponding := true

/-- A message with one part, on a fresh tree. -/
theorem endsWithin_onePart :
    EndsWithin 2 0 (init 0) anyPeer (BindingKey.fromProto ⟨[CString.ofChars ['a']]⟩) :=
  (endsWithin_iff 0 0 [] (init 0) rfl anyPeer ⟨[CString.ofChars ['a']]⟩).2 (List.cons_ne_nil _ _)

/-- A message without parts, on a fresh tree: the addition makes a child and goes on. -/
theorem not_always_endsWithin : ¬ ∀ (calls : List (Peer × BindingKey)) tree peer
    (proto : Proto.BindingKey), run addAny (init 0) calls = some tree →
      EndsWithin (proto.parts.length + 1) 0 tree peer (BindingKey.fromProto proto) := by
  intro h
  exact (h [] (init 0) anyPeer ⟨[]⟩ rfl).add rfl

end Cebus.PeerSubscriptionTree
