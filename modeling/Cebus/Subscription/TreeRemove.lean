import Cebus.Subscription.TreeRead
import Cebus.Subscription.TreeShrink
import Mathlib.Data.List.Find

/-!
# Removing a peer

* `updateNode_remove`: a removal takes one entry out, if nowhere on its way the
  second of a list of entries or of buckets is unlinked.
-/

namespace Cebus

open LinkedList PeerList

namespace PeerSubscriptionTree

/-! ## The way of a removal -/

/-- The child under a fragment of a key. -/
def Node.under (n : Node) (f : CString) : Option Node :=
  if f = tokenSharp then n.sharpNode
  else if f = tokenStar then n.starNode
  else n.literals.find? fun child => BindingKey.fragmentEq child.fragment (some f)

/-- The child under a fragment is not the only one of the second bucket. -/
def Node.notSecond (n : Node) (f : CString) : Bool :=
  match n.chain[1]? with
  | none => true
  | some (_, bucket) => bucket.depth ≠ 1 ||
    bucket.nodes.all fun child => !BindingKey.fragmentEq child.fragment (some f)

/-- On its way a removal unlinks neither the second entry of a list of peers nor the
    second bucket of a node. -/
def Node.detaches : Node → List CString → PeerId → Bool
  | n, [], id => n.peers.ids[1]? ≠ some id
  | n, f :: q, id => match n.under f with
    | none => true
    | some c => c.detaches q id && match nodeCount c.height c with
      | .ok 1 => n.notSecond f
      | _ => true

variable {n n' c : Node} {j i fuel b : ℕ} {bindingKey : BindingKey} {id : PeerId} {f : CString}
  {q fs : List CString} {peer : Peer} {ref : ChildRef}
  {k₁ k₂ : List (BindingKeyFragment × Node)}

theorem Node.under_mem_kids (hn : n.Literals) (h : n.under f = some c) :
    (some f, c) ∈ n.kids := by
  rw [hn.mem_kids]
  rw [Node.under] at h
  by_cases hsharp : f = tokenSharp
  · rwa [if_pos hsharp] at h ⊢
  · rw [if_neg hsharp] at h ⊢
    by_cases hstar : f = tokenStar
    · rwa [if_pos hstar] at h ⊢
    · rw [if_neg hstar] at h ⊢
      have htest := List.find?_some h
      exact ⟨List.mem_of_find?_eq_some h, BindingKey.fragmentEq_iff.mp htest⟩

theorem Node.under_eq_some (hn : n.Literals) (hd : n.Distinct) (h : (some f, c) ∈ n.kids) :
    n.under f = some c := by
  have hsome : (n.under f).isSome := by
    rw [hn.mem_kids] at h
    rw [Node.under]
    by_cases hsharp : f = tokenSharp
    · rw [if_pos hsharp] at h ⊢
      simp [h]
    · rw [if_neg hsharp] at h ⊢
      by_cases hstar : f = tokenStar
      · rw [if_pos hstar] at h ⊢
        simp [h]
      · rw [if_neg hstar] at h ⊢
        rw [List.find?_isSome]
        exact ⟨c, h.1, BindingKey.fragmentEq_iff.mpr h.2⟩
  obtain ⟨d, hd'⟩ := Option.isSome_iff_exists.mp hsome
  rw [hd', hd.unique (Node.under_mem_kids hn hd') h]

/-- The search for a fragment of the key leads to the child under it. -/
theorem getChildNode_under (hs : n.Sound j) (hkey : BindingKey.getFragment bindingKey j = some f)
    (h : n.under f = some c) :
    ∃ ref k₁ k₂, getChildNode n bindingKey j = .ok (some ref) ∧ At n ref (some f) c k₁ k₂ := by
  rw [Node.under] at h
  by_cases hsharp : f = tokenSharp
  · subst hsharp
    rw [if_pos rfl] at h
    exact ⟨_, _, _, getChildNode_sharp hkey, At.sharp h⟩
  rw [if_neg hsharp] at h
  by_cases hstar : f = tokenStar
  · subst hstar
    rw [if_pos rfl] at h
    exact ⟨_, _, _, getChildNode_star hkey, At.star h⟩
  rw [if_neg hstar] at h
  have htest := List.find?_some h
  have hfrag : c.fragment = some f := BindingKey.fragmentEq_iff.mp htest
  have hfind : n.literals.find? (holdsFragment bindingKey) = some c := by
    refine (List.find?_congr fun d hd => ?_).trans h
    rw [Bool.eq_iff_iff, holdsFragment_iff hs hd, hkey, BindingKey.fragmentEq_iff]
  obtain ⟨ref, k₁, k₂, hget, hat⟩ := getChildNode_hit hs.here.shape
    (by rw [hkey]; simpa using hsharp) (by rw [hkey]; simpa using hstar) hfind
  rw [hfrag] at hat
  exact ⟨ref, k₁, k₂, hget, hat⟩

/-- The place of a child that is not the only one of the second bucket. -/
theorem Node.safeRef_of_notSecond (hn : n.Shape) (hat : At n ref (some f) c k₁ k₂)
    (h : n.notSecond f = true) : n.SafeRef ref := by
  rintro b i rfl hlayout
  rw [Node.layout, List.getElem?_map, Option.map_eq_some_iff] at hlayout
  obtain ⟨⟨b', B'⟩, hB', heq⟩ := hlayout
  obtain ⟨rfl, hdepth⟩ := Prod.mk.inj heq
  have hdepth : B'.depth = 1 := hdepth
  rw [Node.notSecond, hB'] at h
  simp only [hdepth, ne_eq, not_true_eq_false, decide_false, Bool.false_or] at h
  -- the bucket with this address is the one that the child is in
  generalize hfrag : some f = g at hat
  cases hat with
  | @child l₁ l₂ b B ns₁ ns₂ c hchain hB =>
    have hmem : (b', B) ∈ n.chain := by
      rw [hchain]
      exact List.mem_append_cons_self
    have := List.inj_on_of_nodup_map hn.chain.nodup hmem (List.mem_of_getElem? hB') rfl
    obtain ⟨-, rfl⟩ := Prod.mk.inj this
    have hc : c ∈ B.nodes := by
      rw [hB]
      exact List.mem_append_cons_self
    have hno := List.all_eq_true.mp h c hc
    rw [Bool.not_eq_true', Bool.eq_false_iff] at hno
    exact hno (BindingKey.fragmentEq_iff.mpr hfrag.symm)

/-! ## Removing -/

/-- What the removal of the entry at the path `q` does to a node. -/
structure Removed (j : ℕ) (n n' : Node) (q : List CString) (id : PeerId) : Prop where
  sound : n'.Sound j
  fragment : n'.fragment = n.fragment
  stored : ∀ q' id', n'.Stored q' id' ↔ n.Stored q' id' ∧ ¬(q' = q.map some ∧ id' = id)
  separate : n'.Separate j

/-- At the end of its way a removal changes the list of peers. -/
theorem removePeer_spec (h : n.Sound j) (hsep : n.Separate j)
    (hstored : n.Stored [] peer.peerId) (hdet : n.detaches [] peer.peerId = true) :
    ∃ n', removePeer n peer = .ok n' ∧ Removed j n n' [] peer.peerId := by
  have hn := h.here
  obtain ⟨peers, hrem, hsound, hcount, hids⟩ := remove_spec hn.peers (Node.stored_nil.mp hstored)
    (by simpa [Node.detaches] using hdet)
  rw [removePeer, hrem]
  simp only [Fallible.ok_bind]
  refine ⟨_, rfl, h.withPeers hsound (hcount hn.counted), rfl, fun q' id' => ?_,
    hsep.of_kids rfl hsep.here⟩
  rw [Node.stored_withPeers, hids]
  cases q' with
  | nil =>
    rw [Node.stored_nil]
    simp [Node.Holds]
  | cons g q' => simp

/-- A removal below a node, from what is left of the child that it goes to. -/
theorem Removed.of_child {n₂ : Node} (o' : Option Node) (h : n.Sound j) (hsep : n.Separate j)
    (hkids : n.kids = k₁ ++ (some f, c) :: k₂)
    (hkids₂ : n₂.kids = k₁ ++ (o'.map (some f, ·)).toList ++ k₂) (hshape : n₂.Shape)
    (hself : n.SameSelf n₂) (hlits : n.Literals → n₂.Literals)
    (ho' : ∀ c' ∈ o', c'.Sound (j + 1) ∧ c'.Separate (j + 1) ∧ ∃ q id, c'.Stored q id)
    (hstored : ∀ q' id', (∃ c' ∈ o', c'.Stored q' id') ↔
      c.Stored q' id' ∧ ¬(q' = q.map some ∧ id' = id)) :
    Removed j n n₂ (f :: q) id := by
  have hkids' : n.kids = k₁ ++ ((some c).map (some f, ·)).toList ++ k₂ := by
    rw [hkids]
    simp
  have hnd : (n.kids.map Prod.fst).Nodup := hsep.here
  rw [hkids, List.map_append, List.map_cons, List.nodup_middle, List.nodup_cons,
    ← List.map_append] at hnd
  refine ⟨h.of_child hkids' hkids₂ hshape hself hlits fun c' hc' => ?_, hself.fragment, ?_, ?_⟩
  · obtain ⟨hsound, -, hstored⟩ := ho' c' hc'
    exact ⟨hsound, hstored⟩
  · refine Trie.stored_erase hkids' hkids₂ ?_ ?_ ?_
    · intro y
      rw [Node.Holds, Node.Holds, hself.peers]
    · intro d hd
      exact hnd.1 (List.mem_map.mpr ⟨_, hd, rfl⟩)
    · intro q' y
      rw [hstored]
      simp
  · refine hsep.update hkids' hkids₂ ?_ fun c' hc' => (ho' c' hc').2.1
    rw [Node.Distinct, hkids₂]
    rcases o' with _ | c'
    · simpa using hnd.2
    · simp only [Option.map_some, Option.toList_some, List.append_assoc, List.singleton_append,
        List.map_append, List.map_cons, List.nodup_middle, List.nodup_cons]
      rw [← List.map_append]
      exact hnd

/-- The count of a node that stores one entry only. -/
theorem nodeCount_eq_one (h : n.Sound j) (hsep : n.Separate j) {q : List BindingKeyFragment}
    (hstored : n.Stored q id) (honly : ∀ q' id', n.Stored q' id' → q' = q ∧ id' = id) :
    nodeCount n.height n = .ok 1 := by
  obtain ⟨es, hcount, hmem, hnd⟩ := nodeCount_spec h (Nat.le_refl _)
  have hnd := hnd hsep
  have heq : ∀ e ∈ es, e = (q, id) := by
    rintro ⟨q', id'⟩ he
    obtain ⟨rfl, rfl⟩ := honly _ _ ((hmem _ _).mp he)
    rfl
  have hin := (hmem _ _).mpr hstored
  have hone : es = [(q, id)] := by
    rw [List.eq_replicate_of_mem heq] at hnd hin ⊢
    have hle := List.nodup_replicate.mp hnd
    have hpos := List.length_pos_of_mem hin
    rw [List.length_replicate] at hpos
    rw [show es.length = 1 by omega]
    rfl
  rw [hcount, hone]
  rfl

/-- A child of which nothing is left is taken out. -/
theorem remove_spent {c' n₁ : Node} (h : n.Sound j) (hsep : n.Separate j)
    (hc : (some f, c) ∈ n.kids) (hat : At n ref (some f) c k₁ k₂)
    (hat₁ : At n₁ ref (some f) c' k₁ k₂) (hshape₁ : n₁.Shape) (hself₁ : n.SameSelf n₁)
    (hlits₁ : n.Literals → n₁.Literals) (hlayout : n₁.layout = n.layout)
    (hcstored : c.Stored (q.map some) id) (hremoved : Removed (j + 1) c c' q id)
    (hnone : ∀ q' id', ¬c'.Stored q' id')
    (hdet : (match nodeCount c.height c with
      | .ok 1 => n.notSecond f
      | _ => true) = true) :
    ∃ n', removeNode n₁ ref = .ok n' ∧ Removed j n n' (f :: q) id := by
  have hkids' : c'.kids = [] := by
    refine List.eq_nil_iff_forall_not_mem.mpr ?_
    rintro ⟨g, d⟩ hd
    obtain ⟨q', id', hs⟩ := hremoved.sound.here.used g d hd
    exact hnone _ _ (Node.stored_cons.mpr ⟨d, hd, hs⟩)
  have hone : nodeCount c.height c = .ok 1 := by
    refine nodeCount_eq_one (h.child hc) (hsep.child hc) hcstored fun q' id' hs => ?_
    by_contra hother
    exact hnone q' id' ((hremoved.stored _ _).mpr ⟨hs, hother⟩)
  rw [hone] at hdet
  have hsafe : n.SafeRef ref := Node.safeRef_of_notSecond h.here.shape hat hdet
  have hsafe₁ : n₁.SafeRef ref := by
    intro b i href
    rw [hlayout]
    exact hsafe b i href
  obtain ⟨n₂, hremove, hkids₂, hshape₂, hself₂, hlits₂⟩ :=
    removeNode_at hat₁ hshape₁ (hremoved.sound.here.shape.head_eq_none hkids') hsafe₁
  refine ⟨n₂, hremove, Removed.of_child none h hsep hat.kids_eq (by simpa using hkids₂) hshape₂
    (hself₁.trans hself₂) (fun hl => hlits₂ (hlits₁ hl)) (by simp) ?_⟩
  intro q' id'
  rw [← hremoved.stored]
  simp [hnone]

/-- **One step of a removal**: the child is written back, and removed if nothing is left of it. -/
theorem updateNode_remove_step {c' : Node} (h : n.Sound j) (hfs : fs.drop j = f :: q)
    (hunder : n.under f = some c)
    (hrec : updateNode peer (some fs) find removePeer fuel false c (j + 1) = .ok c')
    (hfrag : c'.fragment = c.fragment) (hc' : c'.Sound (j + 1)) :
    ∃ n₁ ref k₁ k₂ count, At n ref (some f) c k₁ k₂ ∧ writeChild n c' ref = .ok n₁ ∧
      At n₁ ref (some f) c' k₁ k₂ ∧ n₁.Shape ∧ n.SameSelf n₁ ∧ (n.Tidy → n₁.Tidy) ∧
      (n.Literals → n₁.Literals) ∧ n₁.layout = n.layout ∧
      (count = 0 ↔ ∀ q id, ¬c'.Stored q id) ∧
      updateNode peer (some fs) find removePeer (fuel + 1) (decide (j = 0)) n j =
        if count = 0 then removeNode n₁ ref else .ok n₁ := by
  have hn := h.here
  obtain ⟨-, -, hleaf⟩ := not_leaf_of_drop hfs
  obtain ⟨ref, k₁, k₂, hget, hat⟩ :=
    getChildNode_under h (BindingKey.getFragment_of_drop hfs) hunder
  obtain ⟨n₁, hwrite, hat₁, hshape₁, hself₁, htidy₁, hlits₁, hlayout⟩ := hat.write hn.shape hfrag
  obtain ⟨count, hcount, hzero⟩ := nodeCount_eq_zero hc'
  refine ⟨n₁, ref, k₁, k₂, count, hat, hwrite, hat₁, hshape₁, hself₁, htidy₁, hlits₁, hlayout,
    hzero, ?_⟩
  rw [updateNode, if_neg (by rwa [isLeaf_iff hn]), find, hget]
  simp only [Fallible.ok_bind, hat.readChild hn.shape, hrec, hwrite, hcount]

/-- **A removal takes one entry out.** -/
theorem updateNode_remove (h : n.Sound j) (hsep : n.Separate j) (hne : fs ≠ [])
    (hfs : fs.drop j = q) (hj : j ≤ fs.length) (hstored : n.Stored (q.map some) peer.peerId)
    (hdet : n.detaches q peer.peerId = true) (hfuel : q.length < fuel) :
    ∃ n', updateNode peer (some fs) find removePeer fuel (decide (j = 0)) n j = .ok n' ∧
      Removed j n n' q peer.peerId := by
  induction q generalizing n j fuel with
  | nil =>
    obtain ⟨k, rfl⟩ := Nat.exists_eq_add_one_of_ne_zero (show fuel ≠ 0 by omega)
    rw [updateNode, if_pos ((isLeaf_iff h.here).mpr (leaf_of_drop hne hfs hj))]
    exact removePeer_spec h hsep hstored hdet
  | cons f q ih =>
    obtain ⟨k, rfl⟩ := Nat.exists_eq_add_one_of_ne_zero (show fuel ≠ 0 by omega)
    have hfuel : q.length < k := by simpa using hfuel
    obtain ⟨hlt, hrest, -⟩ := not_leaf_of_drop hfs
    obtain ⟨c, hc, hcstored⟩ := Node.stored_cons.mp hstored
    have hunder := Node.under_eq_some h.here.literals hsep.here hc
    simp only [Node.detaches, hunder, Bool.and_eq_true] at hdet
    obtain ⟨c', hrec, hremoved⟩ := ih (h.child hc) (hsep.child hc) hrest hlt hcstored hdet.1 hfuel
    obtain ⟨n₁, ref, k₁, k₂, count, hat, -, hat₁, hshape₁, hself₁, -, hlits₁, hlayout, hzero,
      hrun⟩ := updateNode_remove_step h hfs hunder hrec hremoved.fragment hremoved.sound
    rw [hrun]
    by_cases hcount₀ : count = 0
    · rw [if_pos hcount₀]
      exact remove_spent h hsep hc hat hat₁ hshape₁ hself₁ hlits₁ hlayout hcstored hremoved
        (hzero.mp hcount₀) hdet.2
    · rw [if_neg hcount₀]
      refine ⟨n₁, rfl, Removed.of_child (some c') h hsep hat.kids_eq
        (by simpa using hat₁.kids_eq) hshape₁ hself₁ hlits₁ ?_ ?_⟩
      · rintro d ⟨⟩
        refine ⟨hremoved.sound, hremoved.separate, ?_⟩
        by_contra hno
        push Not at hno
        exact hcount₀ (hzero.mpr hno)
      · intro q' id'
        rw [← hremoved.stored]
        simp

end PeerSubscriptionTree

end Cebus
