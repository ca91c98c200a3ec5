import Cebus.Subscription.Routing

/-!
# Removing what is not there

* `updateNode_absent`: a removal of a peer that is not in the list for the key changes nothing
  or follows a null pointer.
* `keepsTree_iff`: it follows a null pointer where the way of the key ends at a token.
-/

namespace Cebus.PeerSubscriptionTree

open LinkedList PeerList Transition

variable {n c : Node} {j i fuel : ℕ} {bindingKey key : BindingKey} {f : CString}
  {q fs : List CString} {peer : Peer} {ref : ChildRef} {t : PeerSubscriptionTree}
  {k₁ k₂ : List (BindingKeyFragment × Node)} {as : List Subscription}

/-- Where there is no child under a fragment of the key, the fragment is no token. -/
def Node.avoidsNull : Node → List CString → Bool
  | _, [] => true
  | n, f :: q => match n.under f with
    | none => f ≠ tokenSharp && f ≠ tokenStar
    | some c => c.avoidsNull q

/-- The way of a key from the root does not end at a token. -/
def avoidsNull (t : PeerSubscriptionTree) (key : BindingKey) : Bool :=
  BindingKey.isEmpty key || t.root.avoidsNull (key.getD [])

/-- After the additions a removal comes back and leaves the tree as it was. -/
def KeepsTree (count : ℕ) (as : List Subscription) (peer : Peer) (key : BindingKey) : Prop :=
  ∃ t, run addStep (init count) as = some t ∧ remove t peer key = .ok t

/-! ## Nodes -/

theorem Node.eta (n : Node) : (⟨n.fragment, n.fragmentIndex, n.peers, n.sharpNode, n.starNode,
    n.buckets, n.head, n.tail⟩ : Node) = n := by
  cases n
  rfl

/-- A child that is written to its own place. -/
theorem At.write_same {f : BindingKeyFragment} (h : At n ref f c k₁ k₂) (hn : n.Shape) :
    writeChild n c ref = .ok n := by
  cases h with
  | sharp h => rw [writeChild, ← h, n.eta]
  | star h => rw [writeChild, ← h, n.eta]
  | @child l₁ l₂ b B ns₁ ns₂ c hchain hB =>
    have hc := hn.chain
    have hsolid := hn.solid
    rw [hchain] at hc hsolid
    have hslot := (hsolid _ List.mem_append_cons_self).getElem?_children hB
    obtain ⟨hlt, hget⟩ := List.getElem?_eq_some_iff.mp hslot
    obtain ⟨next, hread, -⟩ := hc.update (y := B)
    have hset : B.children.set ns₁.length (.node c) = B.children := by
      rw [← hget, List.set_getElem_self]
    rw [writeChild, Mem.get_of_read hread, Fallible.ok_bind, hset, Mem.write_of_read hread,
      n.eta]

/-- The search for a fragment under which there is no child. -/
theorem find_none (hs : n.Sound j) (hkey : BindingKey.getFragment bindingKey j = some f)
    (h : n.under f = none) :
    find n bindingKey j = .ok (n, none) ∧ f ≠ tokenSharp ∧ f ≠ tokenStar ∨
      ∃ ref, find n bindingKey j = .ok (n, some ref) ∧ readChild n ref = .ok none ∧
        (f = tokenSharp ∨ f = tokenStar) := by
  rw [Node.under] at h
  by_cases hsharp : f = tokenSharp
  · subst hsharp
    rw [if_pos rfl] at h
    right
    refine ⟨.sharp, ?_, by rw [readChild, h], Or.inl rfl⟩
    rw [find, getChildNode_sharp hkey]
    rfl
  rw [if_neg hsharp] at h
  by_cases hstar : f = tokenStar
  · subst hstar
    rw [if_pos rfl] at h
    right
    refine ⟨.star, ?_, by rw [readChild, h], Or.inr rfl⟩
    rw [find, getChildNode_star hkey]
    rfl
  rw [if_neg hstar, List.find?_eq_none] at h
  left
  refine ⟨?_, hsharp, hstar⟩
  rw [find, getChildNode_miss hs.here.shape]
  · rfl
  · rwa [hkey, Ne, Option.some_inj]
  · rwa [hkey, Ne, Option.some_inj]
  · intro d hd
    rw [Bool.eq_false_iff, Ne, holdsFragment_iff hs hd, hkey, ← BindingKey.fragmentEq_iff]
    exact h d hd

/-- **A removal of what is not there** leaves the node, or follows a null pointer. -/
theorem updateNode_absent (h : n.Sound j) (hne : fs ≠ []) (hfs : fs.drop j = q)
    (hj : j ≤ fs.length) (hno : ¬n.Stored (q.map some) peer.peerId) (hfuel : q.length < fuel) :
    updateNode peer (some fs) find removePeer fuel (decide (j = 0)) n j =
      if n.avoidsNull q then .ok n else .error .null := by
  induction q generalizing n j fuel with
  | nil =>
    obtain ⟨k, rfl⟩ := Nat.exists_eq_add_one_of_ne_zero (show fuel ≠ 0 by omega)
    have hn := h.here
    rw [updateNode, if_pos ((isLeaf_iff hn).mpr (leaf_of_drop hne hfs hj)), removePeer,
      PeerList.remove_absent hn.peers.chain]
    · rw [Fallible.ok_bind, Node.avoidsNull, if_pos rfl]
      exact congrArg _ n.eta
    · intro p hp heq
      exact hno (Node.stored_nil.mpr (heq ▸ List.mem_map_of_mem hp))
  | cons f q ih =>
    obtain ⟨k, rfl⟩ := Nat.exists_eq_add_one_of_ne_zero (show fuel ≠ 0 by omega)
    have hn := h.here
    have hfuel : q.length < k := by simpa using hfuel
    obtain ⟨hlt, hrest, hleaf⟩ := not_leaf_of_drop hfs
    have hkey := BindingKey.getFragment_of_drop hfs
    rw [updateNode, if_neg (by rwa [isLeaf_iff hn]), Node.avoidsNull]
    rcases hunder : n.under f with _ | c
    · rcases find_none h hkey hunder with ⟨hfind, hsharp, hstar⟩ | ⟨ref, hfind, hread, htoken⟩
      · simp [hfind, Fallible.ok_bind, hsharp, hstar]
      · have htoken : ¬(f ≠ tokenSharp && f ≠ tokenStar) = true := by
          rcases htoken with rfl | rfl
          · simp
          · simp
        rw [hfind, Fallible.ok_bind, if_neg htoken]
        simp only [hread, Fallible.ok_bind]
    · obtain ⟨ref, k₁, k₂, hget, hat⟩ := getChildNode_under h hkey hunder
      have hmem := hat.mem_kids
      have hsc := h.child hmem
      have hrec := ih hsc hrest hlt
        (fun hs => hno (Node.stored_cons.mpr ⟨c, hmem, hs⟩)) hfuel
      rw [find, hget]
      simp only [Fallible.ok_bind, hat.readChild hn.shape]
      rw [show false = decide (j + 1 = 0) from rfl, hrec]
      split
      · -- the child is in use, so that it stays
        obtain ⟨count, hcount, hzero⟩ := nodeCount_eq_zero hsc
        have hused : count ≠ 0 := by
          obtain ⟨q', id, hs⟩ := hn.used _ c hmem
          exact fun hcount => hzero.mp hcount q' id hs
        simp only [Fallible.ok_bind, hat.write_same hn.shape, hcount, if_neg hused]
      · rfl

/-! ## The tree -/

/-- A key without fragments leads nowhere. -/
theorem updateNode_nil (hn : n.Shape) :
    updateNode peer (some []) find removePeer 1 true n 0 = .ok n := by
  rw [updateNode, isLeaf, if_pos rfl, if_neg Bool.false_ne_true, find,
    getChildNode_miss hn (by simp [BindingKey.getFragment]) (by simp [BindingKey.getFragment])]
  · rfl
  · intro c _
    rfl

/-- **A removal of a pair that is not there.** -/
theorem remove_of_absent (hr : t.Represents (Subscribers.ofList as))
    (hno : ¬Subscribers.ofList as key.norm peer.peerId) :
    remove t peer key = if t.avoidsNull key then .ok t else .error .null := by
  rw [remove, PeerSubscriptionTree.avoidsNull]
  by_cases hempty : BindingKey.isEmpty key = true
  · rw [if_pos hempty, PeerList.remove_absent hr.matchingAll.chain]
    · simp [hempty]
    · intro p hp heq
      rw [BindingKey.norm, if_pos hempty] at hno
      exact hno ((hr.all _).mp (heq ▸ List.mem_map_of_mem hp))
  · rw [if_neg hempty, Bool.eq_false_iff.mpr hempty, Bool.false_or]
    rcases key with _ | fs
    · exact absurd rfl hempty
    have hrun : updateNode peer (some fs) find removePeer
        (BindingKey.fragmentCount (some fs) + 1) true t.root 0 =
          if t.root.avoidsNull fs then .ok t.root else .error .null := by
      rcases eq_or_ne fs [] with rfl | hne
      · rw [Node.avoidsNull, if_pos rfl]
        exact updateNode_nil hr.root.here.shape
      · refine updateNode_absent hr.root hne List.drop_zero (Nat.zero_le _) ?_
          (Nat.lt_succ_self fs.length)
        rw [hr.stored]
        rintro ⟨gs, heq, hS⟩
        obtain rfl := List.map_injective_iff.mpr (fun _ _ => Option.some.inj) heq
        rw [BindingKey.norm, if_neg hempty] at hno
        exact hno hS
    rw [hrun, Option.getD_some]
    split
    · rfl
    · rfl

/-- **Removing an absent subscription** changes nothing exactly when the way of the key does
    not end at a `*` or `#` without a child. -/
theorem keepsTree_iff (count : ℕ) (as : List Subscription) (peer : Peer) (key : BindingKey)
    (hno : ¬Subscribers.ofList as key.norm peer.peerId) :
    KeepsTree count as peer key ↔
      ∀ t, run addStep (init count) as = some t → t.avoidsNull key = true := by
  obtain ⟨t, hrun, hr, -⟩ := reaches_of_adds count as
  have hremove := remove_of_absent hr hno
  constructor
  · rintro ⟨t₁, hrun₁, hremove₁⟩ t₂ hrun₂
    obtain rfl := Option.some.inj (hrun.symm.trans hrun₁)
    obtain rfl := Option.some.inj (hrun.symm.trans hrun₂)
    rw [hremove₁] at hremove
    by_contra hnull
    rw [if_neg hnull] at hremove
    cases hremove
  · intro h
    rw [if_pos (h t hrun)] at hremove
    exact ⟨t, hrun, hremove⟩

/-- In a fresh tree a removal under `*` follows the null pointer of the star child. -/
theorem not_always_keepsTree :
    ¬∀ count as, ∀ (peer : Peer) key, ¬Subscribers.ofList as key.norm peer.peerId →
      KeepsTree count as peer key := by
  intro h
  obtain ⟨t, hrun, hremove⟩ :=
    h 0 [] (peerNamed 'p') (some [tokenStar]) (by simp [Subscribers.ofList])
  obtain rfl : init 0 = t := Option.some.inj hrun
  have hnull : (remove (init 0) (peerNamed 'p') (some [tokenStar])).toOption.isNone = true := by
    decide +kernel
  rw [hremove] at hnull
  cases hnull

/-- `a.*` for one peer. -/
def underStar : List Subscription :=
  [⟨peerNamed 'p', some [CString.ofChars ['a'], tokenStar], plain_peerNamed,
    fun h => List.cons_ne_nil _ _ (Option.some.inj h)⟩]

/-- Another peer is not under `a.*`, and its removal leaves the tree. -/
theorem keepsTree_other :
    KeepsTree 0 underStar (peerNamed 'q') (some [CString.ofChars ['a'], tokenStar]) := by
  refine (keepsTree_iff 0 _ _ _ ?_).mpr fun t hrun => ?_
  · unfold Subscribers.ofList
    decide
  · have hall : (run addStep (init 0) underStar).all
        (avoidsNull · (some [CString.ofChars ['a'], tokenStar])) = true := by decide +kernel
    rw [hrun] at hall
    exact hall

end Cebus.PeerSubscriptionTree
