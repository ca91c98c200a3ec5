import Cebus.Lib.TopicMatch
import Cebus.Subscription.Subscribers

/-!
# Routing after additions

A routing key has literal fragments; a subscription matches it fragment by fragment.

* `findsAll_of_reuses`: no subscriber is missed, if no fragment has been added to a
  node that had a child under it in another bucket than the last.
* `reachesOnly_iff`: when nobody else is reached. Where a key passes a node with a
  sharp child, everything below this node is reached.
-/

namespace Cebus

open LinkedList PeerList Transition

/-- A routing key: one or more fragments that are no tokens. -/
structure RoutingKey where
  fragments : List CString
  nonempty : fragments ≠ []
  literal : ∀ f ∈ fragments, f ≠ tokenStar ∧ f ≠ tokenSharp

/-- The fragments match the key; the empty key matches everything. -/
def BindingKey.Matches : BindingKey → List CString → Prop
  | none, _ => True
  | some parts, fragments => TopicMatch.Matches tokenStar tokenSharp parts fragments

instance : ∀ (key : BindingKey) (fragments : List CString), Decidable (key.Matches fragments)
  | none, _ => inferInstanceAs (Decidable True)
  | some parts, fragments =>
    inferInstanceAs (Decidable (TopicMatch.Matches tokenStar tokenSharp parts fragments))

/-- The subscription is under a key that matches. -/
def Subscription.Matches (a : Subscription) (r : RoutingKey) : Prop := a.key.Matches r.fragments

instance (a : Subscription) (r : RoutingKey) : Decidable (a.Matches r) :=
  inferInstanceAs (Decidable (a.key.Matches r.fragments))

/-- A peer with this id has subscribed under a key that matches. -/
def Subscribed (as : List Subscription) (r : RoutingKey) (id : PeerId) : Prop :=
  ∃ a ∈ as, a.peer.peerId = id ∧ a.Matches r

namespace PeerSubscriptionTree

/-- The list for the key, after the additions, contains every subscriber. -/
def FindsAll (count garbage : ℕ) (as : List Subscription) (r : RoutingKey) : Prop :=
  ∃ t peers, run addStep (init count) as = some t ∧
    getPeers garbage t (some r.fragments) = .ok peers ∧
    ∀ a ∈ as, a.Matches r → a.peer.peerId ∈ peers.ids

/-- The list for the key, after the additions, contains subscribers only. -/
def ReachesOnly (count garbage : ℕ) (as : List Subscription) (r : RoutingKey) : Prop :=
  ∃ t peers, run addStep (init count) as = some t ∧
    getPeers garbage t (some r.fragments) = .ok peers ∧ ∀ id ∈ peers.ids, Subscribed as r id

variable {n c m : Node} {j i : ℕ} {r : RoutingKey} {as : List Subscription} {a : Subscription}
  {id : PeerId} {t : PeerSubscriptionTree} {q rest : List CString} {f : CString}

/-! ## Routing keys in the tree -/

theorem leaf_iff : Leaf (some r.fragments) j ↔ j = r.fragments.length := by
  have := List.length_pos_iff.mpr r.nonempty
  constructor
  · exact And.right
  · rintro rfl
    exact ⟨this, rfl⟩

theorem getFragment_literal (r : RoutingKey) (j : ℕ) :
    BindingKey.getFragment (some r.fragments) j ≠ some tokenSharp ∧
      BindingKey.getFragment (some r.fragments) j ≠ some tokenStar := by
  constructor
  · intro h
    exact (r.literal _ (List.mem_of_getElem? h)).2 rfl
  · intro h
    exact (r.literal _ (List.mem_of_getElem? h)).1 rfl

/-- A routing key leads on with its own fragment. -/
theorem turn_literal (r : RoutingKey) (j : ℕ) :
    turn (some r.fragments) j = BindingKey.getFragment (some r.fragments) j := by
  rw [turn, if_neg (getFragment_literal r _).1, if_neg (getFragment_literal r _).2, if_neg]
  rintro (h | h)
  · exact (getFragment_literal r j).1 h
  · exact (getFragment_literal r j).2 h

theorem isEmpty_routing (r : RoutingKey) :
    BindingKey.isEmpty (some r.fragments) = false := by
  rw [Bool.eq_false_iff]
  intro h
  have hmem : tokenSharp ∈ r.fragments := by
    rw [BindingKey.isEmpty_some.mp h]
    simp
  exact (r.literal _ hmem).2 rfl

theorem Subscription.matches_of_empty (h : BindingKey.isEmpty a.key = true) : a.Matches r := by
  rw [Subscription.Matches]
  rcases hkey : a.key with _ | fs
  · trivial
  · rw [hkey] at h
    obtain ⟨f, rest, hfs⟩ := List.exists_cons_of_ne_nil r.nonempty
    show TopicMatch.Matches _ _ _ r.fragments
    rw [BindingKey.isEmpty_some.mp h, hfs]
    exact Or.inl ⟨rfl, rfl⟩

/-! ## No subscriber is missed -/

/-- What is stored at a path that matches is collected, where the children are distinct. -/
theorem collects_of_matches (hs : n.Sound j) (hsep : n.Separate j)
    (hrest : r.fragments.drop j = rest) (hj : j ≤ r.fragments.length)
    (hmatch : TopicMatch.Matches tokenStar tokenSharp q rest)
    (hstored : n.Stored (q.map some) id) : Collects (some r.fragments) j n id := by
  induction q generalizing n j rest with
  | nil =>
    rcases rest with _ | ⟨x, xs⟩
    · exact (collects_leaf (leaf_of_drop r.nonempty hrest hj)).mpr (Node.stored_nil.mp hstored)
    · exact hmatch.elim
  | cons p ps ih =>
    rcases rest with _ | ⟨x, xs⟩
    · exact hmatch.elim
    obtain ⟨hlt, hrest', hleaf⟩ := not_leaf_of_drop hrest
    obtain ⟨c, hc, hcs⟩ := Node.stored_cons.mp hstored
    have hlits := hs.here.literals
    rw [collects_iff hleaf]
    rcases hmatch with ⟨rfl, rfl⟩ | ⟨rfl | rfl, hmatch⟩
    · -- below a sharp child
      rw [hlits.mem_kids, if_pos rfl] at hc
      exact Or.inl (Or.inl ⟨by simp [hc], _, hstored⟩)
    · -- below the star child
      have hc' := hc
      rw [hlits.mem_kids, if_neg BindingKey.tokenStar_ne_tokenSharp, if_pos rfl] at hc'
      exact Or.inl (Or.inr ⟨c, hc', ih (hs.child hc) (hsep.child hc) hrest' hlt hmatch hcs⟩)
    · -- below the child under the fragment
      have hturn : turn (some r.fragments) j = some p := by
        rw [turn_literal, BindingKey.getFragment_of_drop hrest]
      have hfound := (Node.found_iff hs hsep.here).mpr (hturn.symm ▸ hc)
      exact Or.inr ⟨c, hfound, ih (hs.child hc) (hsep.child hc) hrest' hlt hmatch hcs⟩

theorem routes_of_matches (hr : t.Represents (Subscribers.ofList as)) (hsep : t.Separate)
    (ha : a ∈ as) (hmatch : a.Matches r) : t.Routes (some r.fragments) a.peer.peerId := by
  rw [Routes, isEmpty_routing]
  rcases Subscription.key_cases a with ⟨-, hnorm⟩ | ⟨fs, hkey, -, -, hnorm⟩
  · exact Or.inl ((hr.all _).mpr ⟨a, ha, hnorm, rfl⟩)
  · right
    rw [Subscription.Matches, hkey] at hmatch
    have hstored := (hr.stored (fs.map some) a.peer.peerId).mpr ⟨fs, rfl, a, ha, hnorm, rfl⟩
    exact collects_of_matches hr.root hsep List.drop_zero (Nat.zero_le _) hmatch hstored

/-- **No subscriber is missed**, if every addition goes to the child that there is
    under a fragment: to the star or sharp child, or to a child in the last bucket,
    which must not be full. -/
theorem findsAll_of_reuses (count garbage : ℕ) (as : List Subscription) (r : RoutingKey)
    (h : Guarded addStep (fun t a => t.reuses a = true) (init count) as) :
    FindsAll count garbage as r := by
  obtain ⟨t, hrun, hr, hsep⟩ := reaches_of_reuses count h
  obtain ⟨peers, hget, hids⟩ := getPeers_spec hr garbage (some r.fragments)
  refine ⟨t, peers, hrun, hget, fun a ha hmatch => ?_⟩
  rw [hids]
  exact routes_of_matches hr hsep ha hmatch

/-- The peer with a name of one letter. -/
def peerNamed (c : Char) : Peer where
  peerId := ⟨CString.ofChars [c], (List.length_filter_le _ _).trans_lt (by simp)⟩
  endpoint := CString.ofChars []
  isUp := true
  isResponding := true

theorem plain_peerNamed : (peerNamed 'p').peerId.value.Plain := by decide

/-- `a.x` for one peer, 31 other first fragments, and then `a.y` for another peer,
    which comes into a second bucket. -/
def shadowed : List Subscription :=
  ⟨peerNamed 'p', some [CString.ofChars ['a'], CString.ofChars ['x']], by decide, by simp⟩ ::
  (List.range 31).map (fun i => ⟨peerNamed 'r',
    some [CString.ofChars [Char.ofNat (i + 65)], CString.ofChars ['x']], by decide, by simp⟩) ++
  [⟨peerNamed 'q', some [CString.ofChars ['a'], CString.ofChars ['y']], by decide, by simp⟩]

/-- The key `a.y`. -/
def keyAY : RoutingKey := ⟨[CString.ofChars ['a'], CString.ofChars ['y']], by simp, by decide⟩

/-- Subscribers can be missed: the second node under `a` is not found. -/
theorem not_always_findsAll : ¬∀ count garbage as r, FindsAll count garbage as r := by
  intro h
  obtain ⟨t, peers, hrun, hget, hall⟩ := h 0 0 shadowed keyAY
  have hids : (run addStep (init 0) shadowed).bind (fun t =>
      (getPeers 0 t (some keyAY.fragments)).toOption.map ids) = some [] := by decide +kernel
  rw [hrun, Option.bind_some, hget] at hids
  have hnil : peers.ids = [] := Option.some.inj hids
  have hmem := hall ⟨peerNamed 'q', some keyAY.fragments, by decide, by simp [keyAY]⟩
    (by rw [shadowed]; exact List.mem_append_right _ (List.mem_singleton.mpr rfl)) (by decide)
  rw [hnil] at hmem
  cases hmem

/-- Two peers under `a.x` and `a.*` are found for `a.y`, as far as they match. -/
theorem findsAll_two : FindsAll 0 0
    [⟨peerNamed 'p', some [CString.ofChars ['a'], CString.ofChars ['x']], by decide, by simp⟩,
      ⟨peerNamed 'q', some [CString.ofChars ['a'], CString.ofChars ['*']], by decide, by simp⟩]
    keyAY :=
  findsAll_of_reuses 0 0 _ keyAY (by decide +kernel)

/-! ## Who else is reached -/

/-- A leaf that a key leads to is at a path that matches it. -/
theorem Visits.stored (h : Visits (some r.fragments) j n i m) (hs : n.Sound j)
    (hj : j ≤ r.fragments.length) (hleaf : Leaf (some r.fragments) i) (hid : m.Holds id) :
    ∃ q, TopicMatch.Matches tokenStar tokenSharp q (r.fragments.drop j) ∧
      n.Stored (q.map some) id := by
  induction h with
  | here =>
    rw [leaf_iff] at hleaf
    rw [List.drop_of_length_le (by omega)]
    exact ⟨[], trivial, Node.stored_nil.mpr hid⟩
  | @star j i n c m hnl hc _ ih =>
    rw [leaf_iff] at hnl
    have hlt : j < r.fragments.length := by omega
    have hmem : (some tokenStar, c) ∈ n.kids := Node.mem_kids.mpr (Or.inr (Or.inl ⟨rfl, hc⟩))
    obtain ⟨q, hq, hstored⟩ := ih (hs.child hmem) hlt hleaf hid
    rw [List.drop_eq_getElem_cons hlt]
    exact ⟨tokenStar :: q, Or.inr ⟨Or.inl rfl, hq⟩, Node.stored_cons.mpr ⟨c, hmem, hstored⟩⟩
  | @child j i n c m hnl hc _ ih =>
    rw [leaf_iff] at hnl
    have hlt : j < r.fragments.length := by omega
    have hmem := Node.found_mem_kids hs hc
    obtain ⟨q, hq, hstored⟩ := ih (hs.child hmem) hlt hleaf hid
    have hrest := List.drop_eq_getElem_cons hlt
    rw [turn_literal, BindingKey.getFragment_of_drop hrest] at hmem
    rw [hrest]
    exact ⟨_ :: q, Or.inr ⟨Or.inr rfl, hq⟩, Node.stored_cons.mpr ⟨c, hmem, hstored⟩⟩

/-- Where the key leads past a node with a sharp child, all peers at this node and
    below it are subscribers. -/
def SharpSafe (t : PeerSubscriptionTree) (as : List Subscription) (r : RoutingKey) : Prop :=
  ∀ i m, Visits (some r.fragments) 0 t.root i m → i ≠ r.fragments.length →
    m.sharpNode.isSome → ∀ q id, m.Stored q id → Subscribed as r id

theorem subscribed_of_ofList {key : BindingKey} (h : Subscribers.ofList as key id)
    (hkey : ∀ a ∈ as, a.key.norm = key → a.Matches r) : Subscribed as r id := by
  obtain ⟨a, ha, hnorm, hid⟩ := h
  exact ⟨a, ha, hid, hkey a ha hnorm⟩

/-- Everybody that the key is routed to is a subscriber, unless it leads past a node
    with a sharp child and other peers below. -/
theorem routes_subscribed_iff (hr : t.Represents (Subscribers.ofList as)) :
    (∀ id, t.Routes (some r.fragments) id → Subscribed as r id) ↔ t.SharpSafe as r := by
  constructor
  · intro h i m hvisit hi hsharp q id hstored
    refine h id ?_
    rw [Routes, isEmpty_routing]
    exact Or.inr ⟨i, m, hvisit, Or.inr ⟨by rwa [leaf_iff], hsharp, q, hstored⟩⟩
  · intro h id hroute
    rw [Routes, isEmpty_routing] at hroute
    rcases hroute with hall | ⟨i, m, hvisit, ⟨hleaf, hid⟩ | ⟨hnl, hsharp, q, hstored⟩⟩
    · refine subscribed_of_ofList ((hr.all id).mp hall) fun a _ hnorm => ?_
      rcases Subscription.key_cases a with ⟨hempty, -⟩ | ⟨fs, -, -, -, hnorm'⟩
      · exact Subscription.matches_of_empty hempty
      · cases hnorm.symm.trans hnorm'
    · obtain ⟨q, hmatch, hstored⟩ :=
        hvisit.stored hr.root (Nat.zero_le _) hleaf hid
      obtain ⟨fs, heq, hsub⟩ := (hr.stored _ _).mp hstored
      obtain rfl : q = fs := List.map_injective_iff.mpr (fun _ _ => Option.some.inj) heq
      refine subscribed_of_ofList hsub fun a _ hnorm => ?_
      rcases Subscription.key_cases a with ⟨-, hnorm'⟩ | ⟨fs, hkey, -, -, hnorm'⟩
      · cases hnorm.symm.trans hnorm'
      · obtain rfl := Option.some.inj (hnorm.symm.trans hnorm')
        rw [Subscription.Matches, hkey]
        exact hmatch
    · exact h i m hvisit (by rwa [leaf_iff] at hnl) hsharp q id hstored

/-- **Only subscribers are reached** exactly when the key does not lead past a node
    with a sharp child and other peers below it. -/
theorem reachesOnly_iff (count garbage : ℕ) (as : List Subscription) (r : RoutingKey) :
    ReachesOnly count garbage as r ↔
      ∀ t, run addStep (init count) as = some t → t.SharpSafe as r := by
  obtain ⟨t, hrun, hr, -⟩ := reaches_of_adds count as
  obtain ⟨peers, hget, hids⟩ := getPeers_spec hr garbage (some r.fragments)
  have honly : (∀ id ∈ peers.ids, Subscribed as r id) ↔ t.SharpSafe as r := by
    rw [← routes_subscribed_iff hr]
    simp only [hids]
  constructor
  · rintro ⟨t₁, peers₁, hrun₁, hget₁, hsub⟩ t₂ hrun₂
    obtain rfl := Option.some.inj (hrun.symm.trans hrun₁)
    obtain rfl := Option.some.inj (hrun.symm.trans hrun₂)
    obtain rfl := Except.ok.inj (hget.symm.trans hget₁)
    exact honly.mp hsub
  · intro h
    exact ⟨t, peers, hrun, hget, honly.mpr (h t hrun)⟩

/-- `a.#` for one peer and `a.b` for another. -/
def besideSharp : List Subscription :=
  [⟨peerNamed 'q', some [CString.ofChars ['a'], tokenSharp], by decide, by simp⟩,
    ⟨peerNamed 'p', some [CString.ofChars ['a'], CString.ofChars ['b']], by decide, by simp⟩]

/-- The key `a.x`. -/
def keyAX : RoutingKey := ⟨[CString.ofChars ['a'], CString.ofChars ['x']], by simp, by decide⟩

/-- Others can be reached: `a.#` makes `a.x` reach the peer under `a.b`. -/
theorem not_always_reachesOnly : ¬∀ count garbage as r, ReachesOnly count garbage as r := by
  intro h
  obtain ⟨t, peers, hrun, hget, honly⟩ := h 0 0 besideSharp keyAX
  have hids : (run addStep (init 0) besideSharp).bind (fun t =>
      (getPeers 0 t (some keyAX.fragments)).toOption.map ids) =
        some [(peerNamed 'q').peerId, (peerNamed 'p').peerId] := by decide +kernel
  rw [hrun, Option.bind_some, hget] at hids
  have hids : peers.ids = [(peerNamed 'q').peerId, (peerNamed 'p').peerId] := Option.some.inj hids
  have hsub := honly (peerNamed 'p').peerId (by rw [hids]; simp)
  revert hsub
  unfold Subscribed
  decide

end PeerSubscriptionTree

end Cebus
