import Cebus.Subscription.Subscribers

/-!
# Who is in the list for a key

* `delivers_once`: after any additions the list for any key has every peer once, only peers
  that were added, and all of them if the key is the empty one.
-/

namespace Cebus.PeerSubscriptionTree

open LinkedList PeerList Transition

variable {t : PeerSubscriptionTree} {as : List Subscription} {bindingKey : BindingKey}
  {id : PeerId}

/-- Everybody that a key is routed to has been added. -/
theorem added_of_routes (hr : t.Represents (Subscribers.ofList as))
    (h : t.Routes bindingKey id) : ∃ a ∈ as, a.peer.peerId = id := by
  have hstored {q : List BindingKeyFragment} (hq : t.root.Stored q id) :
      ∃ a ∈ as, a.peer.peerId = id := by
    obtain ⟨fs, -, a, ha, -, hid⟩ := (hr.stored q id).mp hq
    exact ⟨a, ha, hid⟩
  rcases h with hall | h
  · obtain ⟨a, ha, -, hid⟩ := (hr.all id).mp hall
    exact ⟨a, ha, hid⟩
  · split at h
    · obtain ⟨q, hq⟩ := h
      exact hstored hq
    · obtain ⟨q, hq⟩ := h.stored hr.root
      exact hstored hq

/-- Everybody is either matched by all keys or somewhere below the root. -/
theorem routes_of_isEmpty (hr : t.Represents (Subscribers.ofList as))
    (hempty : BindingKey.isEmpty bindingKey = true) {a : Subscription} (ha : a ∈ as) :
    t.Routes bindingKey a.peer.peerId := by
  rw [Routes, if_pos hempty]
  rcases Subscription.key_cases a with ⟨-, hnorm⟩ | ⟨fs, -, -, -, hnorm⟩
  · exact Or.inl ((hr.all _).mpr ⟨a, ha, hnorm, rfl⟩)
  · exact Or.inr ⟨fs.map some, (hr.stored _ _).mpr ⟨fs, rfl, a, ha, hnorm, rfl⟩⟩

/-- **Overlapping subscriptions deliver once, and the empty key reaches everyone.** -/
theorem delivers_once (count garbage : ℕ) (as : List Subscription) (bindingKey : BindingKey) :
    ∃ t peers, run addStep (init count) as = some t ∧
      getPeers garbage t bindingKey = .ok peers ∧
      Chain peers.entries peers.head peers.peers ∧ peers.ids.Nodup ∧
      (∀ id ∈ peers.ids, ∃ a ∈ as, a.peer.peerId = id) ∧
      (bindingKey = none ∨ bindingKey = some [tokenSharp] →
        ∀ a ∈ as, a.peer.peerId ∈ peers.ids) := by
  obtain ⟨t, hrun, hr, -⟩ := reaches_of_adds count as
  obtain ⟨peers, hget, hsound, hids⟩ := getPeers_sound hr garbage bindingKey
  refine ⟨t, peers, hrun, hget, hsound.chain, hsound.nodup, fun id hid => ?_,
    fun hempty a ha => ?_⟩
  · exact added_of_routes hr ((hids id).mp hid)
  · have hempty : BindingKey.isEmpty bindingKey = true := by
      obtain rfl | rfl := hempty
      · rfl
      · exact BindingKey.isEmpty_some.mpr rfl
    exact (hids _).mpr (routes_of_isEmpty hr hempty ha)

end Cebus.PeerSubscriptionTree
