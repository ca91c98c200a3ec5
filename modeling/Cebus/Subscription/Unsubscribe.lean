import Cebus.Subscription.Routing

/-!
# Removing subscriptions

A history of additions and removals leaves some pairs of a key and a peer; a fresh
tree gets these pairs in their order.

* `routes_congr`: trees with the same pairs and distinct children route alike.
* `unsubscribesExactly`: the history and the fresh tree route alike, if no removal
  unlinks a second entry or bucket, no addition follows a pointer that a removal has
  left, and both go to the children that there are.
-/

namespace Cebus

open LinkedList PeerList Transition

/-- A call of `cb_peer_subscription_tree_add` or `cb_peer_subscription_tree_remove`. -/
inductive SubscriptionCall where
  | add (a : Subscription)
  | remove (a : Subscription)
deriving DecidableEq

/-- Both calls name the same pair of a key and a peer. -/
def Subscription.samePair (a b : Subscription) : Bool :=
  a.key.norm = b.key.norm && a.peer.peerId = b.peer.peerId

/-- The pairs that are subscribed, in the order in which they were added. A removal
    names one of them. -/
def pairStep (pairs : List Subscription) : SubscriptionCall → Option (List Subscription)
  | .add a => some (if pairs.any a.samePair then pairs else pairs ++ [a])
  | .remove a => if pairs.any a.samePair then some (pairs.filter fun b => !a.samePair b) else none

namespace PeerSubscriptionTree

/-- A call on the tree. -/
def callStep (t : PeerSubscriptionTree) : SubscriptionCall → Option PeerSubscriptionTree
  | .add a => (add t a.peer a.key).toOption
  | .remove a => (remove t a.peer a.key).toOption

/-- An addition finds its lists and buckets open and goes to the children that there
    are; a removal unlinks no second entry or bucket. -/
def clean (t : PeerSubscriptionTree) : SubscriptionCall → Bool
  | .add a => t.appends a && t.reuses a
  | .remove a => t.detaches a

/-- After the history and on the fresh tree a key is routed to the same peers. -/
def RoutesAlike (count garbage : ℕ) (calls : List SubscriptionCall) (pairs : List Subscription)
    (bindingKey : BindingKey) : Prop :=
  ∃ t u peers peers', run callStep (init count) calls = some t ∧
    run addStep (init count) pairs = some u ∧
    getPeers garbage t bindingKey = .ok peers ∧ getPeers garbage u bindingKey = .ok peers' ∧
    ∀ id, id ∈ peers.ids ↔ id ∈ peers'.ids

variable {n n' c : Node} {j : ℕ} {f : BindingKeyFragment} {bindingKey : BindingKey} {id : PeerId}
  {t u : PeerSubscriptionTree} {S : Subscribers} {a : Subscription} {pairs : List Subscription}

/-! ## Trees with the same pairs -/

/-- A child in one of two nodes that store the same has a counterpart in the other. -/
theorem counterpart (hs : n.Sound j) (hd : n.Distinct) (hd' : n'.Distinct)
    (hst : ∀ q id, n.Stored q id ↔ n'.Stored q id) (hc : (f, c) ∈ n.kids) :
    ∃ c', (f, c') ∈ n'.kids ∧ ∀ q id, c.Stored q id ↔ c'.Stored q id := by
  obtain ⟨q, id, hcs⟩ := hs.here.used f c hc
  obtain ⟨c', hc', -⟩ := Node.stored_cons.mp ((hst _ _).mp (Node.stored_cons.mpr ⟨c, hc, hcs⟩))
  refine ⟨c', hc', fun q id => ?_⟩
  rw [← hd.stored_cons hc, ← hd'.stored_cons hc', hst]

/-- What is collected depends on what is stored. -/
theorem collects_congr (hs : n.Sound j) (hs' : n'.Sound j) (hsep : n.Separate j)
    (hsep' : n'.Separate j) (hst : ∀ q id, n.Stored q id ↔ n'.Stored q id)
    (h : Collects bindingKey j n id) : Collects bindingKey j n' id := by
  obtain ⟨i, m, hvisit, hoffer⟩ := h
  induction hvisit generalizing n' with
  | here =>
    rcases hoffer with ⟨hleaf, hid⟩ | ⟨hnl, hsharp, q, hstored⟩
    · exact (collects_leaf hleaf).mpr
        (Node.stored_nil.mp ((hst _ _).mp (Node.stored_nil.mpr hid)))
    · obtain ⟨c, hc⟩ := Option.isSome_iff_exists.mp hsharp
      obtain ⟨c', hc', -⟩ := counterpart hs hsep.here hsep'.here hst
        (hs.here.literals.mem_kids.mpr (by rwa [if_pos rfl]))
      rw [hs'.here.literals.mem_kids, if_pos rfl] at hc'
      exact (collects_iff hnl).mpr (Or.inl (Or.inl ⟨by simp [hc'], q, (hst _ _).mp hstored⟩))
  | star hnl hc _ ih =>
    have hmem := Node.mem_kids.mpr (Or.inr (Or.inl ⟨rfl, hc⟩))
    obtain ⟨c', hc', hst'⟩ := counterpart hs hsep.here hsep'.here hst hmem
    have hstar := hc'
    rw [hs'.here.literals.mem_kids, if_neg BindingKey.tokenStar_ne_tokenSharp, if_pos rfl] at hstar
    exact (collects_iff hnl).mpr (Or.inl (Or.inr ⟨c', hstar,
      ih (hs.child hmem) (hs'.child hc') (hsep.child hmem) (hsep'.child hc') hst' hoffer⟩))
  | child hnl hc _ ih =>
    have hmem := Node.found_mem_kids hs hc
    obtain ⟨c', hc', hst'⟩ := counterpart hs hsep.here hsep'.here hst hmem
    exact (collects_iff hnl).mpr (Or.inr ⟨c', (Node.found_iff hs' hsep'.here).mpr hc',
      ih (hs.child hmem) (hs'.child hc') (hsep.child hmem) (hsep'.child hc') hst' hoffer⟩)

/-- **Trees with the same pairs route alike**, if their children are distinct. -/
theorem routes_congr (ht : t.Represents S) (hu : u.Represents S) (hsept : t.Separate)
    (hsepu : u.Separate) : t.Routes bindingKey id ↔ u.Routes bindingKey id := by
  have hst : ∀ q id, t.root.Stored q id ↔ u.root.Stored q id := fun q id => by
    rw [ht.stored, hu.stored]
  rw [Routes, Routes, ht.all, hu.all]
  refine or_congr_right ?_
  split
  · simp only [hst]
  · constructor
    · exact collects_congr ht.root hu.root hsept hsepu hst
    · exact collects_congr hu.root ht.root hsepu hsept fun q id => (hst q id).symm

/-! ## Histories -/

theorem samePair_iff {b : Subscription} :
    a.samePair b = true ↔ a.key.norm = b.key.norm ∧ a.peer.peerId = b.peer.peerId := by
  simp [Subscription.samePair]

theorem any_samePair : pairs.any a.samePair = true ↔
    Subscribers.ofList pairs a.key.norm a.peer.peerId := by
  rw [List.any_eq_true, Subscribers.ofList]
  constructor
  · rintro ⟨b, hb, hsame⟩
    obtain ⟨hkey, hid⟩ := samePair_iff.mp hsame
    exact ⟨b, hb, hkey.symm, hid.symm⟩
  · rintro ⟨b, hb, hkey, hid⟩
    exact ⟨b, hb, samePair_iff.mpr ⟨hkey.symm, hid.symm⟩⟩

/-- The pairs after an addition. -/
theorem ofList_add (key : BindingKey) (id : PeerId) :
    (Subscribers.ofList pairs).insert a key id ↔
      Subscribers.ofList (if pairs.any a.samePair then pairs else pairs ++ [a]) key id := by
  by_cases hany : pairs.any a.samePair = true
  · rw [if_pos hany, Subscribers.insert]
    constructor
    · rintro (h | ⟨rfl, rfl⟩)
      · exact h
      · exact any_samePair.mp hany
    · exact Or.inl
  · rw [if_neg hany, Subscribers.ofList_concat]

/-- The pairs after a removal. -/
theorem ofList_remove (key : BindingKey) (id : PeerId) :
    (Subscribers.ofList pairs).erase a key id ↔
      Subscribers.ofList (pairs.filter fun b => !a.samePair b) key id := by
  simp only [Subscribers.ofList, Subscribers.erase, List.mem_filter, Bool.not_eq_true']
  constructor
  · rintro ⟨⟨b, hb, rfl, rfl⟩, hne⟩
    refine ⟨b, ⟨hb, ?_⟩, rfl, rfl⟩
    rw [Bool.eq_false_iff, Ne, samePair_iff]
    rintro ⟨hkey, hid⟩
    exact hne ⟨hkey.symm, hid.symm⟩
  · rintro ⟨b, ⟨hb, hother⟩, rfl, rfl⟩
    refine ⟨⟨b, hb, rfl, rfl⟩, ?_⟩
    rintro ⟨hkey, hid⟩
    rw [samePair_iff.mpr ⟨hkey.symm, hid.symm⟩] at hother
    cases hother

/-- One call: the tree stays in order and stores the pairs that are subscribed. -/
theorem callStep_represents {call : SubscriptionCall} {pairs' : List Subscription}
    (hr : t.Represents (Subscribers.ofList pairs)) (hsep : t.Separate)
    (hpairs : pairStep pairs call = some pairs') (hclean : t.clean call = true) :
    ∃ t', callStep t call = some t' ∧ t'.Represents (Subscribers.ofList pairs') ∧ t'.Separate := by
  cases call with
  | add a =>
    rw [clean, Bool.and_eq_true] at hclean
    obtain ⟨t', hadd, hr', -, hsep'⟩ := add_represents hr hclean.1
    obtain rfl := Option.some.inj hpairs
    refine ⟨t', ?_, hr'.congr ofList_add, hsep' hsep hclean.2⟩
    rw [callStep, hadd]
    rfl
  | remove a =>
    rw [pairStep] at hpairs
    split at hpairs
    · next hany =>
      obtain rfl := Option.some.inj hpairs
      obtain ⟨t', hremove, hr', hsep'⟩ :=
        remove_represents hr hsep (any_samePair.mp hany) hclean
      refine ⟨t', ?_, hr'.congr ofList_remove, hsep'⟩
      rw [callStep, hremove]
      rfl
    · cases hpairs

/-- After a clean history the tree stores the pairs that are left. -/
theorem reaches_of_clean (count : ℕ) {calls : List SubscriptionCall}
    (hpairs : run pairStep [] calls = some pairs)
    (h : Guarded callStep (fun t call => t.clean call = true) (init count) calls) :
    ∃ t, run callStep (init count) calls = some t ∧
      t.Represents (Subscribers.ofList pairs) ∧ t.Separate := by
  have hreach := Guarded.reaches
    (I := fun calls (t : PeerSubscriptionTree) => ∃ pairs, run pairStep [] calls = some pairs ∧
      t.Represents (Subscribers.ofList pairs) ∧ t.Separate) h
    ⟨[], rfl, represents_nil count, init_separate count⟩ ?_
  · obtain ⟨t, hrun, pairs', hpairs', hr, hsep⟩ := hreach
    obtain rfl := Option.some.inj (hpairs'.symm.trans hpairs)
    exact ⟨t, hrun, hr, hsep⟩
  · rintro calls' call t hpre ⟨pairs', hpairs', hr, hsep⟩ hclean
    obtain ⟨left, hleft⟩ := run_initial hpre hpairs
    have hcall := hleft
    rw [run_concat, hpairs', Option.bind_some] at hcall
    obtain ⟨t', ht', hr', hsep'⟩ := callStep_represents hr hsep hcall hclean
    exact ⟨t', ht', left, hleft, hr', hsep'⟩

/-- **Unsubscribing removes exactly one subscription**: after a history whose calls
    are clean a key is routed as on a fresh tree with the pairs that are left. -/
theorem unsubscribesExactly (count garbage : ℕ) (calls : List SubscriptionCall)
    (pairs : List Subscription) (bindingKey : BindingKey)
    (hpairs : run pairStep [] calls = some pairs)
    (hclean : Guarded callStep (fun t call => t.clean call = true) (init count) calls)
    (hfresh : Guarded addStep (fun t a => t.reuses a = true) (init count) pairs) :
    RoutesAlike count garbage calls pairs bindingKey := by
  obtain ⟨t, hrun, hr, hsep⟩ := reaches_of_clean count hpairs hclean
  obtain ⟨u, hrun', hr', hsep'⟩ := reaches_of_reuses count hfresh
  obtain ⟨peers, hget, hids⟩ := getPeers_spec hr garbage bindingKey
  obtain ⟨peers', hget', hids'⟩ := getPeers_spec hr' garbage bindingKey
  refine ⟨t, u, peers, peers', hrun, hrun', hget, hget', fun id => ?_⟩
  rw [hids, hids', routes_congr hr hr' hsep hsep']

/-- The subscription of a peer to a key of one fragment of one letter. -/
def letter (i : ℕ) : Subscription :=
  ⟨peerNamed 'p', some [CString.ofChars [Char.ofNat (i + 65)]], plain_peerNamed,
    fun h => List.cons_ne_nil _ _ (Option.some.inj h)⟩

/-- 33 keys of one fragment, and the last of them removed again. -/
def secondBucket : List SubscriptionCall :=
  (List.range 33).map (fun i => .add (letter i)) ++ [.remove (letter 32)]

/-- Removals can take other subscriptions with them: with the second bucket of a node
    the first one is unlinked. -/
theorem not_always_unsubscribesExactly : ¬∀ count garbage calls pairs bindingKey,
    run pairStep [] calls = some pairs → RoutesAlike count garbage calls pairs bindingKey := by
  intro h
  obtain ⟨t, u, peers, peers', hrun, hrun', hget, hget', hids⟩ :=
    h 0 0 secondBucket ((List.range 32).map letter) (letter 0).key (by decide +kernel)
  have hlost : (run callStep (init 0) secondBucket).bind (fun t =>
      (getPeers 0 t (letter 0).key).toOption.map ids) = some [] := by decide +kernel
  have hkept : (run addStep (init 0) ((List.range 32).map letter)).bind (fun t =>
      (getPeers 0 t (letter 0).key).toOption.map ids) = some [(peerNamed 'p').peerId] := by
    decide +kernel
  rw [hrun, Option.bind_some, hget] at hlost
  rw [hrun', Option.bind_some, hget'] at hkept
  have hlost : peers.ids = [] := Option.some.inj hlost
  have hkept : peers'.ids = [(peerNamed 'p').peerId] := Option.some.inj hkept
  have hmem := (hids (peerNamed 'p').peerId).mpr (by rw [hkept]; simp)
  rw [hlost] at hmem
  cases hmem

/-- Of two peers under `a.x` the first is removed. -/
theorem unsubscribesExactly_first : RoutesAlike 0 0
    [.add ⟨peerNamed 'p', some keyAX.fragments, by decide, by simp [keyAX]⟩,
      .add ⟨peerNamed 'q', some keyAX.fragments, by decide, by simp [keyAX]⟩,
      .remove ⟨peerNamed 'p', some keyAX.fragments, by decide, by simp [keyAX]⟩]
    [⟨peerNamed 'q', some keyAX.fragments, by decide, by simp [keyAX]⟩]
    (some keyAX.fragments) :=
  unsubscribesExactly 0 0 _ _ _ (by decide +kernel) (by decide +kernel) (by decide +kernel)

end PeerSubscriptionTree

end Cebus
