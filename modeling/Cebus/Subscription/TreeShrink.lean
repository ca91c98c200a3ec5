import Cebus.Subscription.TreeChild

/-!
# Removing a child

* `removeBucket_spec`: a bucket is taken out of the chain, and with the second one the first.
* `removeNode_at`: a child without children of its own is taken out.
-/

namespace Cebus

open LinkedList

namespace PeerSubscriptionTree

open Node (label)

variable {n n' c : Node} {f : BindingKeyFragment} {ref : ChildRef} {b : ℕ} {B : Bucket Node}
  {k₁ k₂ : List (BindingKeyFragment × Node)} {l₁ l₂ : List (ℕ × Bucket Node)}
  {ns₁ ns₂ : List Node}

/-! ## Buckets -/

/-- The bucket before a bucket is linked to the one behind it, unless it is the
    second: then `prev` is `head`, as it is for the first, and the first bucket goes too. -/
theorem removeBucket_spec (h : Chain n.buckets n.head (l₁ ++ (b, B) :: l₂)) :
    ∃ n', removeBucket n b = .ok n' ∧ n.SameSelf n' ∧ n'.sharpNode = n.sharpNode ∧
      n'.starNode = n.starNode ∧ n'.tail = n.tail ∧
      Chain n'.buckets n'.head ((if l₁.length = 1 then [] else l₁) ++ l₂) := by
  have hfound := search_addr (fun prev _ => prev) n.head h h.length_le
  rw [removeBucket, hfound]
  simp only [Fallible.ok_bind]
  rcases List.eq_nil_or_concat l₁ with rfl | ⟨l, ⟨p, P⟩, rfl⟩
  · have hhead : n.head = some b := h.1
    rw [List.nil_append, hhead] at h
    obtain ⟨next, hnext, hrest⟩ := h.pop
    simp only [lastAddr_nil, hhead, Mem.get_of_read hnext, Fallible.ok_bind, if_true]
    exact ⟨_, rfl, ⟨rfl, rfl, rfl⟩, rfl, rfl, rfl, hrest⟩
  rw [List.concat_eq_append]
  rw [List.concat_eq_append, List.append_assoc, List.singleton_append] at h
  by_cases hl : l = []
  · subst hl
    obtain ⟨hhead, link, -, hlink⟩ := h
    obtain ⟨rfl, -⟩ := id hlink
    obtain ⟨next, hnext, hrest⟩ := Chain.pop hlink
    simp only [lastAddr_concat, hhead, Mem.get_of_read hnext, Fallible.ok_bind, if_true]
    exact ⟨_, rfl, ⟨rfl, rfl, rfl⟩, rfl, rfl, rfl, hrest⟩
  · have hne : some p ≠ n.head := h.ne_head hl
    have hsecond : (l ++ [(p, P)]).length ≠ 1 := by
      rw [List.length_append]
      have hpos := List.length_pos_iff.mpr hl
      simp only [List.length_singleton]
      omega
    obtain ⟨next, hp, hb, hrest⟩ := h.unlink
    simp only [lastAddr_concat, Mem.get_of_read hp, Mem.get_of_read hb, Fallible.ok_bind,
      if_neg hne, if_neg hsecond]
    refine ⟨_, rfl, ⟨rfl, rfl, rfl⟩, rfl, rfl, rfl, ?_⟩
    rw [List.append_assoc, List.singleton_append]
    exact hrest

theorem unlinked_sublist (l₁ l₂ : List (ℕ × Bucket Node)) :
    ((if l₁.length = 1 then [] else l₁) ++ l₂).Sublist (l₁ ++ l₂) := by
  split_ifs
  · exact List.sublist_append_right _ _
  · exact List.Sublist.refl _

/-- What `memmove` leaves in a bucket. -/
theorem Bucket.Solid.closeGap_eq (h : B.Solid) (hB : B.nodes = ns₁ ++ c :: ns₂) :
    ∃ rest, closeGap B ns₁.length = (ns₁ ++ ns₂).map Slot.node ++ rest ∧
      (closeGap B ns₁.length).length = bucketMax ∧ B.depth - 1 = (ns₁ ++ ns₂).length ∧
      (B.Tidy → B.depth ≠ bucketMax → ∀ slot ∈ rest, slot = .null) := by
  have hdepth := h.length_nodes
  have hchildren := h.children_eq
  have hlen := h.length
  have hle := h.le
  rw [Bucket.Tidy]
  generalize B.children.drop B.depth = rest at hchildren ⊢
  rw [hB] at hdepth hchildren
  have hd : B.depth = ns₁.length + (ns₂.length + 1) := by
    rw [← hdepth]
    simp
  have hgap : closeGap B ns₁.length =
      (ns₁ ++ ns₂).map Slot.node ++ ((rest ++ [Slot.word B.depth]).take 1 ++ rest) := by
    have htake : B.children.take ns₁.length = ns₁.map Slot.node := by
      rw [hchildren, List.map_append, List.append_assoc]
      exact List.take_left' (by simp)
    have hdrop : B.children.drop B.depth = rest := by
      rw [hchildren]
      exact List.drop_left' (by rw [List.length_map, hdepth])
    have hmove : (B.children ++ [Slot.word B.depth]).drop (ns₁.length + 1) =
        ns₂.map Slot.node ++ (rest ++ [Slot.word B.depth]) := by
      have hsplit : B.children ++ [Slot.word B.depth] =
          (ns₁ ++ [c]).map Slot.node ++ (ns₂.map Slot.node ++ (rest ++ [Slot.word B.depth])) := by
        rw [hchildren]
        simp
      rw [hsplit]
      exact List.drop_left' (by simp)
    have hcount : B.depth - ns₁.length = (ns₂.map Slot.node).length + 1 := by
      rw [List.length_map, hd]
      omega
    rw [closeGap, htake, hmove, hdrop, hcount, List.take_length_add_append]
    simp
  rw [hchildren] at hlen
  refine ⟨_, hgap, ?_, by rw [List.length_append, hd]; omega, fun htidy hfull slot hslot => ?_⟩
  · rw [hgap]
    simp only [List.length_append, List.length_map, List.length_cons, List.length_take,
      List.length_nil] at hlen ⊢
    omega
  · -- behind the children of a bucket with room there is a null pointer, which moves up
    rcases rest with _ | ⟨slot', rest⟩
    · simp only [List.append_nil, List.length_map] at hlen
      exact absurd (hdepth.symm.trans hlen) hfull
    · refine htidy slot ?_
      simpa using hslot

/-- **A bucket without one of its children.** -/
theorem Bucket.Solid.closeGap_spec (h : B.Solid) (hB : B.nodes = ns₁ ++ c :: ns₂) :
    let B' : Bucket Node := ⟨closeGap B ns₁.length, B.depth - 1⟩
    B'.nodes = ns₁ ++ ns₂ ∧ B.depth - 1 = (ns₁ ++ ns₂).length ∧ (B.depth - 1 ≠ 0 → B'.Solid) ∧
      (B.Tidy → B.depth ≠ bucketMax → B'.Tidy) := by
  intro B'
  obtain ⟨rest, hgap, hlen, hdepth, hnull⟩ := h.closeGap_eq hB
  refine ⟨Bucket.nodes_of_children hgap hdepth, hdepth, fun hne => ?_,
    fun htidy hroom slot hslot => ?_⟩
  · refine Bucket.solid_of_children hgap hdepth hlen fun hnil => hne ?_
    rw [hdepth, hnil, List.length_nil]
  · refine hnull htidy hroom slot ?_
    have hdrop : B'.children.drop B'.depth = rest := by
      show (closeGap B ns₁.length).drop (B.depth - 1) = rest
      rw [hgap, List.drop_left' (by rw [List.length_map, hdepth])]
    rwa [← hdrop]

/-! ## Nodes -/

/-- The bucket that loses a child is not the second one or has more children. -/
def Node.SafeRef (n : Node) (ref : ChildRef) : Prop :=
  ∀ b i, ref = .child b i → n.layout[1]? ≠ some (b, 1)

/-- A node without children has no bucket. -/
theorem Node.Shape.head_eq_none (h : n.Shape) (hkids : n.kids = []) : n.head = none := by
  have hchain : n.chain = [] := by
    rcases hc : n.chain with _ | ⟨⟨b, B⟩, l⟩
    · rfl
    · have hmem : (b, B) ∈ n.chain := by
        rw [hc]
        exact List.mem_cons_self ..
      obtain ⟨c, hcB⟩ := List.exists_mem_of_ne_nil _ (h.solid _ hmem).nodes_ne_nil
      have : (c.fragment, c) ∈ n.kids :=
        Node.mem_kids.mpr (Or.inr (Or.inr ⟨rfl, List.mem_flatMap.mpr ⟨_, hmem, hcB⟩⟩))
      rw [hkids] at this
      cases this
  have := h.chain
  rw [hchain] at this
  exact this

/-- A node in whose buckets a child is missing. -/
theorem Node.without_child (n' : Node) (hchain : n.chain = l₁ ++ (b, B) :: l₂)
    (hB : B.nodes = ns₁ ++ c :: ns₂) (hsharp : n'.sharpNode = n.sharpNode)
    (hstar : n'.starNode = n.starNode)
    (hlits : n'.literals = l₁.flatMap (·.2.nodes) ++ ns₁ ++ (ns₂ ++ l₂.flatMap (·.2.nodes))) :
    n'.kids = (n.sharpNode.map (some tokenSharp, ·)).toList ++
      (n.starNode.map (some tokenStar, ·)).toList ++
      label (l₁.flatMap (·.2.nodes) ++ ns₁) ++ label (ns₂ ++ l₂.flatMap (·.2.nodes)) ∧
    (n.Literals → n'.Literals) := by
  refine ⟨?_, fun hl d hd => ?_⟩
  · rw [Node.kids, hsharp, hstar, hlits, Node.label_append, List.append_assoc,
      List.append_assoc, List.append_assoc]
  · rw [Node.Literals, Node.literals_of_chain hchain hB] at hl
    rw [hlits] at hd
    rcases List.mem_append.mp hd with hd | hd
    · exact hl d (List.mem_append_left _ hd)
    · exact hl d (List.mem_append_right _ (List.mem_cons_of_mem _ hd))

/-- A bucket that is empty is taken out of the chain, and the others stay. -/
theorem removeBucket_empty (hn : n.Shape) (hchain : n.chain = l₁ ++ (b, B) :: l₂)
    (hB : B.nodes = [c]) (hlayout : n.layout[1]? ≠ some (b, 1)) {m : Node} {B' : Bucket Node}
    (hself : n.SameSelf m) (hsharp : m.sharpNode = n.sharpNode) (hstar : m.starNode = n.starNode)
    (hm : Chain m.buckets m.head (l₁ ++ (b, B') :: l₂)) :
    ∃ n', removeBucket m b = .ok n' ∧ n.SameSelf n' ∧ n'.sharpNode = n.sharpNode ∧
      n'.starNode = n.starNode ∧ n'.Shape ∧
      n'.literals = l₁.flatMap (·.2.nodes) ++ l₂.flatMap (·.2.nodes) := by
  have hsolid := hn.solid
  rw [hchain] at hsolid
  have hone : B.depth = 1 := by
    have := (hsolid _ List.mem_append_cons_self).length_nodes
    rw [← this, hB]
    rfl
  have hsecond : l₁.length ≠ 1 := by
    intro hl
    refine hlayout ?_
    rw [Node.layout, hchain, List.map_append, List.map_cons,
      List.getElem?_append_right (by simp [hl]), List.length_map, hl]
    simp [hone]
  obtain ⟨n', hremove, hself', hsharp', hstar', -, hchain'⟩ := removeBucket_spec hm
  rw [if_neg hsecond] at hchain'
  refine ⟨n', hremove, hself.trans hself', hsharp'.trans hsharp, hstar'.trans hstar,
    ⟨hchain'.self, ?_⟩, by rw [Node.literals, Node.chain_eq hchain', List.flatMap_append]⟩
  rw [Node.chain_eq hchain']
  intro d hd
  refine hsolid d ?_
  rcases List.mem_append.mp hd with hd | hd
  · exact List.mem_append_left _ hd
  · exact List.mem_append_right _ (List.mem_cons_of_mem _ hd)

/-- **A child is taken out** and the others stay. -/
theorem removeNode_at (h : At n ref f c k₁ k₂) (hn : n.Shape) (hc : c.head = none)
    (hsafe : n.SafeRef ref) :
    ∃ n', removeNode n ref = .ok n' ∧ n'.kids = k₁ ++ k₂ ∧ n'.Shape ∧ n.SameSelf n' ∧
      (n.Literals → n'.Literals) := by
  have hfree : freeNode c = .ok () := by rw [freeNode, hc]
  have hread := h.readChild hn
  rw [removeNode, hread, Fallible.ok_bind]
  cases h with
  | sharp h =>
    simp only [hfree, Fallible.ok_bind]
    exact ⟨_, rfl, rfl, ⟨hn.chain, hn.solid⟩, ⟨rfl, rfl, rfl⟩, fun hl => hl⟩
  | star h =>
    simp only [hfree, Fallible.ok_bind]
    refine ⟨_, rfl, ?_, ⟨hn.chain, hn.solid⟩, ⟨rfl, rfl, rfl⟩, fun hl => hl⟩
    simp only [Node.kids, Option.map_none, Option.toList_none, List.append_nil]
    rfl
  | @child l₁ l₂ b B ns₁ ns₂ c hchain hB =>
    have hch := hn.chain
    have hsolid := hn.solid
    rw [hchain] at hch hsolid
    obtain ⟨hnodes, hdepth, hsolid', -⟩ := (hsolid _ List.mem_append_cons_self).closeGap_spec hB
    have hfound := search_addr (fun _ a => a) n.head hch hch.length_le
    obtain ⟨next, hget, hwrite⟩ := hch.get_write ⟨closeGap B ns₁.length, B.depth - 1⟩
    simp only [hfree, Fallible.ok_bind, hfound, hget]
    by_cases hempty : B.depth - 1 = 0
    · rw [if_pos hempty]
      rw [hempty, eq_comm, List.length_eq_zero_iff, List.append_eq_nil_iff] at hdepth
      obtain ⟨rfl, rfl⟩ := hdepth
      obtain ⟨n', hremove, hself, hsharp, hstar, hshape, hlits⟩ :=
        removeBucket_empty (m := { n with buckets := _ }) hn hchain hB (hsafe b _ rfl)
          ⟨rfl, rfl, rfl⟩ rfl rfl hwrite
      obtain ⟨hkids, hlits'⟩ := Node.without_child n' hchain hB hsharp hstar (by simpa using hlits)
      exact ⟨n', hremove, hkids, hshape, hself, hlits'⟩
    · rw [if_neg hempty]
      obtain ⟨hkids, hlits⟩ :=
        Node.without_child { n with buckets := _ } hchain hB rfl rfl (by
          rw [Node.literals, Node.chain_eq hwrite, List.flatMap_append, List.flatMap_cons, hnodes]
          simp)
      exact ⟨_, rfl, hkids, hn.replace hchain hwrite (hsolid' hempty), ⟨rfl, rfl, rfl⟩, hlits⟩

end PeerSubscriptionTree

end Cebus
