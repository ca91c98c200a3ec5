import Cebus.Subscription.TreeGrow
import Cebus.Subscription.TreeRead

/-!
# Adding a peer

* `updateNode_add`: an addition stores one more entry.
* `Node.Neat.appends`: in a tree in which nothing has been removed, every addition
  is safe.
-/

namespace Cebus

open LinkedList PeerList

namespace PeerSubscriptionTree

/-! ## The way of an addition -/

/-- All along the way of a key an addition finds its lists and buckets open. -/
def Node.appends : Node → List CString → PeerId → Bool
  | n, [], id => n.peers.ids.contains id || n.peers.TailOk
  | n, f :: q, id =>
    n.appendable f && match n.holder f with
      | none => true
      | some c => c.appends q id

/-- All along the way of a key an addition goes to the child that there is under
    the fragment, if there is one. -/
def Node.reuses : Node → List CString → Bool
  | _, [] => true
  | n, f :: q => match n.holder f with
    | none => n.kids.all fun child => !BindingKey.fragmentEq child.1 (some f)
    | some c => c.reuses q

/-- The lists and buckets of every node are open to additions. -/
abbrev Node.Neat : ℕ → Node → Prop :=
  Trie.Everywhere Node.kids fun _ n => n.Tidy ∧ n.peers.TailOk

variable {n n' c : Node} {j i fuel : ℕ} {bindingKey : BindingKey} {id : PeerId} {f : CString}
  {q fs : List CString} {peer : Peer}

theorem Node.holder_mem_kids (h : n.holder f = some c) : (some f, c) ∈ n.kids := by
  rw [Node.holder] at h
  by_cases hsharp : f = tokenSharp
  · rw [if_pos hsharp] at h
    exact Node.mem_kids.mpr (Or.inl ⟨congrArg _ hsharp, h⟩)
  rw [if_neg hsharp] at h
  by_cases hstar : f = tokenStar
  · rw [if_pos hstar] at h
    exact Node.mem_kids.mpr (Or.inr (Or.inl ⟨congrArg _ hstar, h⟩))
  rw [if_neg hstar, Node.lastHolder, Option.bind_eq_some_iff] at h
  obtain ⟨B, hopen, hfind⟩ := h
  obtain ⟨⟨l, b, hl⟩, -⟩ := Node.openBucket_eq_some.mp hopen
  have htest := List.find?_some hfind
  have hfrag : c.fragment = some f := BindingKey.fragmentEq_iff.mp htest
  refine Node.mem_kids.mpr (Or.inr (Or.inr ⟨hfrag.symm, ?_⟩))
  refine List.mem_flatMap.mpr ⟨(b, B), ?_, List.mem_of_find?_eq_some hfind⟩
  rw [hl]
  simp

theorem Node.Neat.appends (h : n.Neat j) (hs : n.Sound j) (q : List CString) (id : PeerId) :
    n.appends q id = true := by
  induction q generalizing n j with
  | nil => simp [Node.appends, h.here.2]
  | cons f q ih =>
    rw [Node.appends, h.here.1.appendable hs.here.shape, Bool.true_and]
    rcases hc : n.holder f with _ | c
    · rfl
    · have hmem := Node.holder_mem_kids hc
      exact ih (h.child hmem) (hs.child hmem)

/-! ## New nodes -/

theorem nodeNew_kids : (nodeNew bindingKey i).kids = [] := rfl

theorem nodeNew_chain : (nodeNew bindingKey i).chain = [] := rfl

theorem nodeNew_sound (h : i = j - 1) : (nodeNew bindingKey i).Sound j := by
  refine Trie.Everywhere.leaf ⟨h, ⟨?_, ?_⟩, init_sound 0, rfl, ?_, ?_⟩ nodeNew_kids
  · rfl
  · rw [nodeNew_chain]
    simp
  · intro c hc
    cases hc
  · intro f c hc
    cases hc

theorem nodeNew_neat : (nodeNew bindingKey i).Neat j := by
  refine Trie.Everywhere.leaf ⟨⟨Or.inl rfl, ?_⟩, init_tailOk 0⟩ nodeNew_kids
  rw [nodeNew_chain]
  simp

theorem nodeNew_separate : (nodeNew bindingKey i).Separate j :=
  Trie.Everywhere.leaf List.nodup_nil nodeNew_kids

theorem nodeNew_reuses : (nodeNew bindingKey i).reuses q = true := by
  cases q with
  | nil => rfl
  | cons f q =>
    have hholder : (nodeNew bindingKey i).holder f = none := by
      rw [Node.holder]
      split
      · rfl
      · split
        · rfl
        · rfl
    rw [Node.reuses, hholder, nodeNew_kids]
    rfl

theorem nodeNew_not_stored {q : List BindingKeyFragment} : ¬(nodeNew bindingKey i).Stored q id := by
  intro h
  cases h with
  | here h =>
    rw [Node.Holds, nodeNew, init_ids] at h
    cases h
  | step hc _ => cases hc

/-! ## Adding -/

/-- What an addition of the entry at the path `q` does to a node. -/
structure Added (j : ℕ) (n n' : Node) (q : List CString) (id : PeerId) : Prop where
  sound : n'.Sound j
  fragment : n'.fragment = n.fragment
  stored : ∀ q' id', n'.Stored q' id' ↔ n.Stored q' id' ∨ (q' = q.map some ∧ id' = id)
  neat : n.Neat j → n'.Neat j
  separate : n.Separate j → n.reuses q = true → n'.Separate j

/-- At the end of its way an addition changes the list of peers. -/
theorem addOrUpdatePeer_spec (h : n.Sound j) (hp : peer.peerId.value.Plain)
    (happ : n.appends [] peer.peerId = true) :
    ∃ n', addOrUpdatePeer n peer = .ok n' ∧ Added j n n' [] peer.peerId := by
  have hn := h.here
  have ht : peer.peerId ∈ n.peers.ids ∨ n.peers.TailOk := by
    simpa [Node.appends] using happ
  obtain ⟨peers, hins, hsound, htail, hcount, hids⟩ := insert_spec hn.peers hp ht
  rw [addOrUpdatePeer, hins, Fallible.ok_bind]
  refine ⟨_, rfl, h.withPeers hsound (hcount hn.counted), rfl, fun q' id' => ?_, ?_, ?_⟩
  · rw [Node.stored_withPeers, hids]
    cases q' with
    | nil =>
      rw [Node.stored_nil]
      simp [Node.Holds]
    | cons g q' => simp
  · intro hneat
    exact hneat.of_kids rfl
      ⟨⟨hneat.here.1.tail, hneat.here.1.buckets⟩, htail hneat.here.2⟩
  · intro hsep _
    exact hsep.of_kids rfl hsep.here

/-- An addition below a node, from what it does to the child that it goes to. -/
theorem Added.of_child {n₂ c' : Node} {o : Option Node} {k₁ k₂ : List (BindingKeyFragment × Node)}
    (h : n.Sound j) (hkids : n.kids = k₁ ++ (o.map (some f, ·)).toList ++ k₂)
    (hkids₂ : n₂.kids = k₁ ++ (some f, c') :: k₂) (hshape : n₂.Shape) (hself : n.SameSelf n₂)
    (htidy : n.Tidy → n₂.Tidy) (hlits : n.Literals → n₂.Literals) (hc' : c'.Sound (j + 1))
    (hstored : ∀ q' id', c'.Stored q' id' ↔
      (∃ c ∈ o, c.Stored q' id') ∨ (q' = q.map some ∧ id' = id))
    (hneat : n.Neat j → c'.Neat (j + 1))
    (hsep : n.Separate j → n.reuses (f :: q) = true →
      c'.Separate (j + 1) ∧ (o = none → ∀ d, (some f, d) ∉ n.kids)) :
    Added j n n₂ (f :: q) id := by
  have hkids₂' : n₂.kids = k₁ ++ ((some c').map (some f, ·)).toList ++ k₂ := by
    rw [hkids₂]
    simp
  refine ⟨?_, hself.fragment, ?_, ?_, ?_⟩
  · refine h.of_child hkids hkids₂' hshape hself hlits ?_
    rintro d ⟨⟩
    exact ⟨hc', _, id, (hstored _ _).mpr (Or.inr ⟨rfl, rfl⟩)⟩
  · refine Trie.stored_insert hkids hkids₂' ?_ ?_
    · intro y
      rw [Node.Holds, Node.Holds, hself.peers]
    · intro q' y
      rw [← hstored]
      simp
  · intro hn'
    refine hn'.update hkids hkids₂' ⟨htidy hn'.here.1, ?_⟩ ?_
    · rw [hself.peers]
      exact hn'.here.2
    · rintro d ⟨⟩
      exact hneat hn'
  · intro hn' hreuses
    obtain ⟨hsep', hfresh⟩ := hsep hn' hreuses
    refine hn'.update hkids hkids₂' ?_ ?_
    · have hnd : (n.kids.map Prod.fst).Nodup := hn'.here
      rw [Node.Distinct, hkids₂]
      rcases o with _ | c
      · have hfresh := hfresh rfl
        rw [hkids] at hnd hfresh
        rw [List.map_append, List.map_cons, List.nodup_middle, List.nodup_cons]
        refine ⟨fun hmem => ?_, by simpa using hnd⟩
        rw [← List.map_append] at hmem
        obtain ⟨⟨g, d⟩, hd, rfl⟩ := List.mem_map.mp hmem
        exact hfresh d (by simpa using hd)
      · rw [hkids] at hnd
        simpa using hnd
    · rintro d ⟨⟩
      exact hsep'

/-- What all nodes share, the child that an addition goes to shares, new or old. -/
theorem holder_everywhere {P : ℕ → Node → Prop} (h : Trie.Everywhere Node.kids P j n)
    (hnew : Trie.Everywhere Node.kids P (j + 1) (nodeNew bindingKey j)) :
    Trie.Everywhere Node.kids P (j + 1) ((n.holder f).getD (nodeNew bindingKey j)) := by
  rcases hholder : n.holder f with _ | c
  · exact hnew
  · exact h.child (Node.holder_mem_kids hholder)

/-- The child that an addition goes to, new or old. -/
theorem holder_or_new {child : Node} (h : n.Sound j) (happ : n.appends (f :: q) id = true)
    (hchild : (n.holder f).getD (nodeNew bindingKey j) = child) :
    child.Sound (j + 1) ∧ child.appends q id = true ∧
      (∀ q' id', child.Stored q' id' ↔ ∃ c ∈ n.holder f, c.Stored q' id') ∧
      (n.Neat j → child.Neat (j + 1)) ∧
      (n.Separate j → n.reuses (f :: q) = true → child.Separate (j + 1) ∧
        child.reuses q = true ∧ (n.holder f = none → ∀ d, (some f, d) ∉ n.kids)) := by
  rw [Node.appends, Bool.and_eq_true] at happ
  rw [Node.reuses]
  rcases hholder : n.holder f with _ | c
  · rw [hholder] at hchild
    obtain rfl : nodeNew bindingKey j = child := hchild
    have hnew : (nodeNew bindingKey j).Sound (j + 1) := nodeNew_sound rfl
    refine ⟨hnew, nodeNew_neat.appends hnew q _, fun q' id' => ?_, fun _ => nodeNew_neat,
      fun _ hreuses => ⟨nodeNew_separate, nodeNew_reuses, fun _ d hd => ?_⟩⟩
    · exact iff_of_false nodeNew_not_stored (by simp)
    · have hother := List.all_eq_true.mp hreuses _ hd
      rw [Bool.not_eq_true', Bool.eq_false_iff] at hother
      exact hother (BindingKey.fragmentEq_iff.mpr rfl)
  · rw [hholder] at hchild happ
    obtain rfl : c = child := hchild
    have hmem := Node.holder_mem_kids hholder
    exact ⟨h.child hmem, happ.2, by simp, fun hneat => hneat.child hmem,
      fun hsep hreuses => ⟨hsep.child hmem, hreuses, by simp⟩⟩

/-- **One step of an addition**: the child that it goes to is put in its place. -/
theorem updateNode_add_step {child c' : Node} (h : n.Sound j) (hfs : fs.drop j = f :: q)
    (happ : n.appendable f = true) (hchild : (n.holder f).getD (nodeNew (some fs) j) = child)
    (hrec : updateNode peer (some fs) findOrAdd addOrUpdatePeer fuel false child (j + 1) = .ok c')
    (hadded : Added (j + 1) child c' q peer.peerId) :
    ∃ n₁ n₂ ref k₁ k₂, getOrAddChildNode n (some fs) j = .ok (n₁, ref) ∧
      Prepared n n₁ f child ref k₁ k₂ ∧ writeChild n₁ c' ref = .ok n₂ ∧
      At n₂ ref (some f) c' k₁ k₂ ∧ n₂.Shape ∧ n.SameSelf n₂ ∧ (n₁.Tidy → n₂.Tidy) ∧
      (n₁.Literals → n₂.Literals) ∧ n₂.layout = n₁.layout ∧
      updateNode peer (some fs) findOrAdd addOrUpdatePeer (fuel + 1) (decide (j = 0)) n j =
        .ok n₂ := by
  have hn := h.here
  obtain ⟨-, -, hleaf⟩ := not_leaf_of_drop hfs
  obtain ⟨n₁, ref, k₁, k₂, hget, hprep⟩ :=
    getOrAdd_at hn.shape (BindingKey.getFragment_of_drop hfs) happ
  rw [hchild] at hprep
  obtain ⟨n₂, hwrite, hat₂, hshape₂, hself₂, htidy₂, hlits₂, hlayout⟩ :=
    hprep.place.write hprep.shape hadded.fragment
  -- the child stores the new entry, so that it is not removed
  obtain ⟨count, hcount, hzero⟩ := nodeCount_eq_zero hadded.sound
  have hcount₀ : count ≠ 0 := by
    intro h0
    exact hzero.mp h0 _ _ ((hadded.stored _ _).mpr (Or.inr ⟨rfl, rfl⟩))
  refine ⟨n₁, n₂, ref, k₁, k₂, hget, hprep, hwrite, hat₂, hshape₂, hprep.self.trans hself₂, htidy₂,
    hlits₂, hlayout, ?_⟩
  rw [updateNode, if_neg (by rwa [isLeaf_iff hn]), findOrAdd, hget]
  simp only [Fallible.ok_bind, hprep.place.readChild hprep.shape, hrec, hwrite, hcount,
    if_neg hcount₀]

/-- **An addition stores one more entry.** -/
theorem updateNode_add (h : n.Sound j) (hne : fs ≠ []) (hfs : fs.drop j = q) (hj : j ≤ fs.length)
    (hp : peer.peerId.value.Plain) (happ : n.appends q peer.peerId = true)
    (hfuel : q.length < fuel) :
    ∃ n', updateNode peer (some fs) findOrAdd addOrUpdatePeer fuel (decide (j = 0)) n j = .ok n' ∧
      Added j n n' q peer.peerId := by
  induction q generalizing n j fuel with
  | nil =>
    obtain ⟨k, rfl⟩ := Nat.exists_eq_add_one_of_ne_zero (show fuel ≠ 0 by omega)
    rw [updateNode, if_pos ((isLeaf_iff h.here).mpr (leaf_of_drop hne hfs hj))]
    exact addOrUpdatePeer_spec h hp happ
  | cons f q ih =>
    obtain ⟨k, rfl⟩ := Nat.exists_eq_add_one_of_ne_zero (show fuel ≠ 0 by omega)
    have hfuel : q.length < k := by simpa using hfuel
    obtain ⟨hlt, hrest, -⟩ := not_leaf_of_drop hfs
    have happendable : n.appendable f = true := by
      rw [Node.appends, Bool.and_eq_true] at happ
      exact happ.1
    generalize hchild : (n.holder f).getD (nodeNew (some fs) j) = child
    obtain ⟨hcs, hcapp, hcstored, hcneat, hcsep⟩ := holder_or_new h happ hchild
    obtain ⟨c', hrec, hadded⟩ := ih hcs hrest hlt hcapp hfuel
    obtain ⟨n₁, n₂, ref, k₁, k₂, -, hprep, -, hat₂, hshape₂, hself₂, htidy₂, hlits₂, -, hrun⟩ :=
      updateNode_add_step h hfs happendable hchild hrec hadded
    refine ⟨n₂, hrun, Added.of_child h hprep.kids hat₂.kids_eq hshape₂ hself₂
      (fun ht => htidy₂ (hprep.tidy ht)) (fun hl => hlits₂ (hprep.literals hl)) hadded.sound
      (fun q' id' => ?_) (fun hneat => hadded.neat (hcneat hneat)) fun hsep hreuses => ?_⟩
    · rw [hadded.stored, hcstored]
    · obtain ⟨hcsep, hcreuses, hfresh⟩ := hcsep hsep hreuses
      exact ⟨hadded.separate hcsep hcreuses, hfresh⟩

end PeerSubscriptionTree

end Cebus
