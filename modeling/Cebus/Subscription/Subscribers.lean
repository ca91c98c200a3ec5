import Cebus.Lib.Transition
import Cebus.Subscription.TreeAdd
import Cebus.Subscription.TreeRemove

/-!
# What the tree is for

The tree stands for a set of pairs of a key and a peer. The keys `NULL` and `#` are
the one empty key, whose peers are in a list of their own.

* `add_represents`, `remove_represents`: the operations refine the insertion and
  the removal of a pair.
* `getPeers_spec`: the list that a key collects.
* `reaches_of_adds`: additions alone always work out.
-/

namespace Cebus

open LinkedList PeerList Transition

/-- `NULL` for the empty key. -/
def BindingKey.norm (key : BindingKey) : BindingKey := if isEmpty key then none else key

/-- A call of `cb_peer_subscription_tree_add` or `cb_peer_subscription_tree_remove`
    for a peer whose id contains no `%` and the empty key or a key of one or more
    fragments. -/
structure Subscription where
  peer : Peer
  key : BindingKey
  plain : peer.peerId.value.Plain
  nonempty : key ≠ some []
deriving DecidableEq

/-- The peers that are subscribed to a key. -/
abbrev Subscribers := BindingKey → PeerId → Prop

namespace Subscribers

/-- The pairs of the key and the peer of some calls. -/
def ofList (as : List Subscription) : Subscribers :=
  fun key id => ∃ a ∈ as, a.key.norm = key ∧ a.peer.peerId = id

/-- One more pair. -/
def insert (S : Subscribers) (a : Subscription) : Subscribers :=
  fun key id => S key id ∨ (key = a.key.norm ∧ id = a.peer.peerId)

/-- One pair less. -/
def erase (S : Subscribers) (a : Subscription) : Subscribers :=
  fun key id => S key id ∧ ¬(key = a.key.norm ∧ id = a.peer.peerId)

theorem ofList_concat (as : List Subscription) (a : Subscription) (key : BindingKey) (id : PeerId) :
    ofList (as ++ [a]) key id ↔ (ofList as).insert a key id := by
  simp only [ofList, insert, List.mem_append, List.mem_singleton]
  constructor
  · rintro ⟨b, hb | rfl, hkey, hid⟩
    · exact Or.inl ⟨b, hb, hkey, hid⟩
    · exact Or.inr ⟨hkey.symm, hid.symm⟩
  · rintro (⟨b, hb, h⟩ | ⟨rfl, rfl⟩)
    · exact ⟨b, Or.inl hb, h⟩
    · exact ⟨a, Or.inr rfl, rfl, rfl⟩

end Subscribers

namespace PeerSubscriptionTree

variable {t t' : PeerSubscriptionTree} {S : Subscribers} {a : Subscription} {id : PeerId}
  {as : List Subscription}

/-! ## Refinement -/

/-- The tree is in order and stores the pairs of `S`. -/
structure Represents (t : PeerSubscriptionTree) (S : Subscribers) : Prop where
  root : t.root.Sound 0
  matchingAll : t.peersMatchingAll.Sound
  all : ∀ id, id ∈ t.peersMatchingAll.ids ↔ S none id
  stored : ∀ q id, t.root.Stored q id ↔ ∃ fs, q = fs.map some ∧ S (some fs) id

/-- Nowhere in the tree two children of a node have one fragment. -/
def Separate (t : PeerSubscriptionTree) : Prop := t.root.Separate 0

/-- All lists and buckets are open to additions. -/
structure Neat (t : PeerSubscriptionTree) : Prop where
  root : t.root.Neat 0
  matchingAll : t.peersMatchingAll.TailOk

theorem Represents.congr {T : Subscribers} (h : t.Represents S)
    (hST : ∀ key id, S key id ↔ T key id) : t.Represents T where
  root := h.root
  matchingAll := h.matchingAll
  all id := (h.all id).trans (hST _ _)
  stored q id := (h.stored q id).trans (by simp only [hST])

theorem init_represents (count : ℕ) : (init count).Represents fun _ _ => False where
  root := nodeNew_sound rfl
  matchingAll := init_sound count
  all id := by simp [init]
  stored q id := iff_of_false nodeNew_not_stored (by simp)

theorem init_neat (count : ℕ) : (init count).Neat := ⟨nodeNew_neat, init_tailOk count⟩

theorem init_separate (count : ℕ) : (init count).Separate := nodeNew_separate

/-- The keys with a way into the tree. -/
theorem Subscription.key_cases (a : Subscription) :
    (BindingKey.isEmpty a.key = true ∧ a.key.norm = none) ∨
      ∃ fs, a.key = some fs ∧ fs ≠ [] ∧ BindingKey.isEmpty a.key = false ∧
        a.key.norm = some fs := by
  rcases hempty : BindingKey.isEmpty a.key with _ | _
  · right
    rcases hkey : a.key with _ | fs
    · rw [hkey] at hempty
      cases hempty
    · rw [hkey] at hempty
      have hne : fs ≠ [] := by
        rintro rfl
        exact a.nonempty hkey
      exact ⟨fs, rfl, hne, rfl, if_neg (by simp [hempty])⟩
  · exact Or.inl ⟨rfl, if_pos hempty⟩

/-! ## Addition -/

/-- All along its way an addition finds the lists and buckets open. -/
def appends (t : PeerSubscriptionTree) (a : Subscription) : Bool :=
  if BindingKey.isEmpty a.key then
    t.peersMatchingAll.ids.contains a.peer.peerId || t.peersMatchingAll.TailOk
  else t.root.appends (a.key.getD []) a.peer.peerId

/-- All along its way an addition goes to the child under a fragment, if there is one. -/
def reuses (t : PeerSubscriptionTree) (a : Subscription) : Bool :=
  BindingKey.isEmpty a.key || t.root.reuses (a.key.getD [])

theorem Neat.appends (h : t.Neat) (hr : t.Represents S) (a : Subscription) :
    t.appends a = true := by
  rw [PeerSubscriptionTree.appends]
  split
  · simp [h.matchingAll]
  · exact h.root.appends hr.root _ _

/-- **An addition inserts a pair.** -/
theorem add_represents (hr : t.Represents S) (happ : t.appends a = true) :
    ∃ t', add t a.peer a.key = .ok t' ∧ t'.Represents (S.insert a) ∧ (t.Neat → t'.Neat) ∧
      (t.Separate → t.reuses a = true → t'.Separate) := by
  rw [appends] at happ
  rw [add]
  rcases Subscription.key_cases a with ⟨hempty, hnorm⟩ | ⟨fs, hkey, hne, hempty, hnorm⟩
  · rw [if_pos hempty] at happ ⊢
    obtain ⟨peers, hins, hsound, htail, -, hids⟩ :=
      insert_spec hr.matchingAll a.plain (by simpa using happ)
    rw [hins]
    refine ⟨_, rfl, ⟨hr.root, hsound, fun id => ?_, fun q id => ?_⟩,
      fun hneat => ⟨hneat.root, htail hneat.matchingAll⟩, fun hsep _ => hsep⟩
    · rw [hids, hr.all, Subscribers.insert, hnorm]
      simp
    · rw [hr.stored]
      simp [Subscribers.insert, hnorm]
  · have hempty' : ¬BindingKey.isEmpty a.key = true := by simp [hempty]
    rw [if_neg hempty', hkey, Option.getD_some] at happ
    rw [if_neg hempty', hkey]
    obtain ⟨root, hupdate, hadded⟩ := updateNode_add hr.root hne List.drop_zero (Nat.zero_le _)
      a.plain happ (Nat.lt_succ_self fs.length)
    have hrun : updateNode a.peer (some fs) findOrAdd addOrUpdatePeer
        (BindingKey.fragmentCount (some fs) + 1) true t.root 0 = .ok root := hupdate
    rw [hrun]
    refine ⟨_, rfl, ⟨hadded.sound, hr.matchingAll, fun id => ?_, fun q id => ?_⟩,
      fun hneat => ⟨hadded.neat hneat.root, hneat.matchingAll⟩, fun hsep hreuses => ?_⟩
    · rw [hr.all, Subscribers.insert, hnorm]
      simp
    · rw [hadded.stored, hr.stored]
      simp only [Subscribers.insert, hnorm]
      constructor
      · rintro (⟨gs, rfl, hS⟩ | ⟨rfl, rfl⟩)
        · exact ⟨gs, rfl, Or.inl hS⟩
        · exact ⟨fs, rfl, Or.inr ⟨rfl, rfl⟩⟩
      · rintro ⟨gs, rfl, hS | ⟨heq, rfl⟩⟩
        · exact Or.inl ⟨gs, rfl, hS⟩
        · obtain rfl := Option.some.inj heq
          exact Or.inr ⟨rfl, rfl⟩
    · rw [reuses, hempty, hkey] at hreuses
      exact hadded.separate hsep hreuses

/-! ## Removal -/

/-- On its way a removal unlinks neither the second entry of a list of peers nor the
    second bucket of a node. -/
def detaches (t : PeerSubscriptionTree) (a : Subscription) : Bool :=
  if BindingKey.isEmpty a.key then t.peersMatchingAll.ids[1]? ≠ some a.peer.peerId
  else t.root.detaches (a.key.getD []) a.peer.peerId

/-- **A removal erases a pair.** -/
theorem remove_represents (hr : t.Represents S) (hsep : t.Separate)
    (hmem : S a.key.norm a.peer.peerId) (hdet : t.detaches a = true) :
    ∃ t', remove t a.peer a.key = .ok t' ∧ t'.Represents (S.erase a) ∧ t'.Separate := by
  rw [detaches] at hdet
  rw [remove]
  rcases Subscription.key_cases a with ⟨hempty, hnorm⟩ | ⟨fs, hkey, hne, hempty, hnorm⟩
  · rw [if_pos hempty] at hdet ⊢
    rw [hnorm] at hmem
    obtain ⟨peers, hrem, hsound, -, hids⟩ :=
      remove_spec hr.matchingAll ((hr.all _).mpr hmem) (by simpa using hdet)
    rw [hrem]
    refine ⟨_, rfl, ⟨hr.root, hsound, fun id => ?_, fun q id => ?_⟩, hsep⟩
    · rw [hids, hr.all, Subscribers.erase, hnorm]
      simp
    · rw [hr.stored]
      simp [Subscribers.erase, hnorm]
  · have hempty' : ¬BindingKey.isEmpty a.key = true := by simp [hempty]
    rw [if_neg hempty', hkey, Option.getD_some] at hdet
    rw [if_neg hempty', hkey]
    rw [hnorm] at hmem
    obtain ⟨root, hupdate, hremoved⟩ := updateNode_remove hr.root hsep hne List.drop_zero
      (Nat.zero_le _) ((hr.stored _ _).mpr ⟨fs, rfl, hmem⟩) hdet (Nat.lt_succ_self fs.length)
    have hrun : updateNode a.peer (some fs) find removePeer
        (BindingKey.fragmentCount (some fs) + 1) true t.root 0 = .ok root := hupdate
    rw [hrun]
    refine ⟨_, rfl, ⟨hremoved.sound, hr.matchingAll, fun id => ?_, fun q id => ?_⟩,
      hremoved.separate⟩
    · rw [hr.all, Subscribers.erase, hnorm]
      simp
    · rw [hremoved.stored, hr.stored]
      simp only [Subscribers.erase, hnorm]
      have hinj : ∀ gs : List CString, gs.map some = fs.map some ↔ some gs = some fs := by
        intro gs
        rw [Option.some_inj]
        exact (List.map_injective_iff.mpr fun _ _ => Option.some.inj).eq_iff
      constructor
      · rintro ⟨⟨gs, rfl, hS⟩, hne⟩
        rw [hinj] at hne
        exact ⟨gs, rfl, hS, hne⟩
      · rintro ⟨gs, rfl, hS, hne⟩
        rw [hinj]
        exact ⟨⟨gs, rfl, hS⟩, hne⟩

/-! ## Collection -/

/-- What a tree routes a key to. -/
def Routes (t : PeerSubscriptionTree) (bindingKey : BindingKey) (id : PeerId) : Prop :=
  id ∈ t.peersMatchingAll.ids ∨
    if BindingKey.isEmpty bindingKey then ∃ q, t.root.Stored q id
    else Collects bindingKey 0 t.root id

/-- The list that a key collects is linked, and has no id twice. -/
theorem getPeers_sound (hr : t.Represents S) (count : ℕ) (bindingKey : BindingKey) :
    ∃ peers, getPeers count t bindingKey = .ok peers ∧ peers.Sound ∧
      ∀ id, id ∈ peers.ids ↔ t.Routes bindingKey id := by
  obtain ⟨p₁, hoffer, hs₁, ht₁, hids₁⟩ :=
    offer_spec hr.matchingAll (PeerList.init count) (init_sound count) (init_tailOk count)
  simp only [init_ids, List.not_mem_nil, false_or] at hids₁
  have hoffer : (PeerList.init count).offer t.peersMatchingAll = .ok p₁ := hoffer
  rw [getPeers, hoffer, Fallible.ok_bind]
  by_cases hempty : BindingKey.isEmpty bindingKey = true
  · rw [if_pos hempty]
    obtain ⟨p₂, hall, hs₂, -, hids₂⟩ := offerAll_spec hr.root (Nat.le_refl _) p₁ hs₁ ht₁
    refine ⟨p₂, hall, hs₂, fun id => ?_⟩
    rw [hids₂, hids₁, Routes, if_pos hempty]
  · rw [if_neg hempty]
    have hgathers : Gathers (fun peers => collect bindingKey t.root.height true peers t.root)
        (Collects bindingKey 0 t.root) := collect_spec hr.root (Nat.le_refl _)
    obtain ⟨p₂, hcollect, hs₂, -, hids₂⟩ := hgathers p₁ hs₁ ht₁
    refine ⟨p₂, hcollect, hs₂, fun id => ?_⟩
    rw [hids₂, hids₁, Routes, if_neg hempty]

/-- **The list that a key collects.** -/
theorem getPeers_spec (hr : t.Represents S) (count : ℕ) (bindingKey : BindingKey) :
    ∃ peers, getPeers count t bindingKey = .ok peers ∧
      ∀ id, id ∈ peers.ids ↔ t.Routes bindingKey id := by
  obtain ⟨peers, hget, -, hids⟩ := getPeers_sound hr count bindingKey
  exact ⟨peers, hget, hids⟩

/-! ## Additions only -/

/-- A call of `cb_peer_subscription_tree_add`. -/
def addStep (t : PeerSubscriptionTree) (a : Subscription) : Option PeerSubscriptionTree :=
  (add t a.peer a.key).toOption

theorem addStep_represents (hr : t.Represents S) (happ : t.appends a = true) :
    ∃ t', addStep t a = some t' ∧ t'.Represents (S.insert a) ∧ (t.Neat → t'.Neat) ∧
      (t.Separate → t.reuses a = true → t'.Separate) := by
  obtain ⟨t', hadd, h⟩ := add_represents hr happ
  exact ⟨t', by rw [addStep, hadd]; rfl, h⟩

theorem represents_nil (count : ℕ) : (init count).Represents (Subscribers.ofList []) :=
  (init_represents count).congr fun key id => by simp [Subscribers.ofList]

/-- **Additions alone always work out**: the tree holds the pairs that were added. -/
theorem reaches_of_adds (count : ℕ) (as : List Subscription) :
    ∃ t, run addStep (init count) as = some t ∧
      t.Represents (Subscribers.ofList as) ∧ t.Neat := by
  refine Guarded.reaches (C := fun _ _ => True)
    (I := fun as (t : PeerSubscriptionTree) => t.Represents (Subscribers.ofList as) ∧ t.Neat)
    (fun _ _ _ _ _ => trivial) ⟨represents_nil count, init_neat count⟩ ?_
  rintro as a t - ⟨hr, hneat⟩ -
  obtain ⟨t', hadd, hr', hneat', -⟩ := addStep_represents hr (hneat.appends hr a)
  refine ⟨t', hadd, hr'.congr fun key id => ?_, hneat' hneat⟩
  exact (Subscribers.ofList_concat as a key id).symm

/-- Additions that go to the children that there are keep the children distinct. -/
theorem reaches_of_reuses (count : ℕ) {as : List Subscription}
    (h : Guarded addStep (fun t a => t.reuses a = true) (init count) as) :
    ∃ t, run addStep (init count) as = some t ∧
      t.Represents (Subscribers.ofList as) ∧ t.Separate := by
  have hreach := Guarded.reaches
    (I := fun as (t : PeerSubscriptionTree) =>
      t.Represents (Subscribers.ofList as) ∧ t.Neat ∧ t.Separate) h
    ⟨represents_nil count, init_neat count, init_separate count⟩ ?_
  · obtain ⟨t, hrun, hr, -, hsep⟩ := hreach
    exact ⟨t, hrun, hr, hsep⟩
  · rintro as a t - ⟨hr, hneat, hsep⟩ hreuses
    obtain ⟨t', hadd, hr', hneat', hsep'⟩ := addStep_represents hr (hneat.appends hr a)
    refine ⟨t', hadd, hr'.congr fun key id => ?_, hneat' hneat, hsep' hsep hreuses⟩
    exact (Subscribers.ofList_concat as a key id).symm

end PeerSubscriptionTree

end Cebus
