import Cebus.Subscription.TreeChild

/-!
# Adding a child

A literal fragment goes to the last bucket or, when that is full, to a new one.
Only the bucket it goes to is searched for a child that is there already.

* `getOrAdd_at`: the child that an addition goes to.
-/

namespace Cebus

open LinkedList

namespace PeerSubscriptionTree

open Node (label)

/-! ## Where a fragment goes -/

/-- The bucket that a literal fragment goes to, if no new one is added. -/
def Node.openBucket (n : Node) : Option (Bucket Node) :=
  (n.chain.getLast?.map (·.2)).filter fun bucket => !bucketFull bucket

/-- The child under a literal fragment in this bucket. -/
def Node.lastHolder (n : Node) (f : CString) : Option Node :=
  n.openBucket.bind fun bucket =>
    bucket.nodes.find? fun child => BindingKey.fragmentEq child.fragment (some f)

/-- The child that an addition under a fragment goes to, unless it is a new one. -/
def Node.holder (n : Node) (f : CString) : Option Node :=
  if f = tokenSharp then n.sharpNode
  else if f = tokenStar then n.starNode
  else n.lastHolder f

/-- The first pointer that is not in use is null. -/
def Bucket.roomy (bucket : Bucket Node) : Bool :=
  match bucket.children[bucket.depth]? with
  | some .null => true
  | _ => false

/-- An addition under a fragment finds `tail` at the last bucket and, for a new
    child, a null pointer behind the children of that bucket. -/
def Node.appendable (n : Node) (f : CString) : Bool :=
  f = tokenSharp || f = tokenStar ||
    (n.TailOk && ((n.lastHolder f).isSome || n.openBucket.all Bucket.roomy))

variable {n n' c : Node} {f : CString} {bindingKey : BindingKey} {i b : ℕ}
  {l : List (ℕ × Bucket Node)} {B : Bucket Node} {ns : List Node} {rest : List (Slot Node)}

theorem bucketFull_iff : bucketFull B = true ↔ B.depth = bucketMax := by
  rw [bucketFull, decide_eq_true_iff]

theorem Node.openBucket_eq_some : n.openBucket = some B ↔
    (∃ l b, n.chain = l ++ [(b, B)]) ∧ B.depth ≠ bucketMax := by
  rw [Node.openBucket, Option.filter_eq_some_iff, Option.map_eq_some_iff, Bool.not_eq_true',
    Bool.eq_false_iff, Ne, bucketFull_iff]
  refine and_congr_left fun _ => ⟨?_, ?_⟩
  · rintro ⟨⟨b, B⟩, h, rfl⟩
    obtain ⟨l, hl⟩ := List.getLast?_eq_some_iff.mp h
    exact ⟨l, b, hl⟩
  · rintro ⟨l, b, hl⟩
    exact ⟨(b, B), by simp [hl], rfl⟩

theorem Bucket.roomy_iff : B.roomy = true ↔ ∃ rest, B.children.drop B.depth = .null :: rest := by
  rw [Bucket.roomy]
  constructor
  · intro h
    split at h
    · next hslot =>
      obtain ⟨hlt, heq⟩ := List.getElem?_eq_some_iff.mp hslot
      exact ⟨_, by rw [List.drop_eq_getElem_cons hlt, heq]⟩
    · cases h
  · rintro ⟨rest, h⟩
    have := congrArg List.head? h
    rw [List.head?_drop] at this
    rw [this]
    rfl

/-- In a tidy node the first pointer that is not in use is null. -/
theorem Node.Tidy.roomy (h : n.Tidy) (hn : n.Shape) : n.openBucket.all Bucket.roomy = true := by
  rw [Option.all_eq_true_iff_get]
  intro hsome
  obtain ⟨B, hB⟩ := Option.isSome_iff_exists.mp hsome
  obtain ⟨⟨l, b, hl⟩, hdepth⟩ := Node.openBucket_eq_some.mp hB
  simp only [hB, Option.get_some]
  have hmem : (b, B) ∈ n.chain := by
    rw [hl]
    simp
  have hsolid := hn.solid _ hmem
  have hlen := hsolid.length
  have hle := hsolid.le
  rw [Bucket.roomy_iff]
  rcases hdrop : B.children.drop B.depth with _ | ⟨slot, rest⟩
  · have := congrArg List.length hdrop
    rw [List.length_drop, List.length_nil] at this
    simp only at hlen hle
    omega
  · have hnull := h.buckets _ hmem slot (by simp only [hdrop]; simp)
    exact ⟨rest, by rw [hnull]⟩

/-- In a tidy node every addition is safe. -/
theorem Node.Tidy.appendable (h : n.Tidy) (hn : n.Shape) : n.appendable f = true := by
  simp [Node.appendable, h.tail, h.roomy hn]

/-! ## The bucket -/

/-- The node with a bucket as the last one, in which nothing is in use yet. -/
theorem bucketAdd_spec (hn : n.Shape) (htail : n.TailOk) :
    ∃ n' b, bucketAdd n = .ok (n', b) ∧ n.SameSelf n' ∧ n'.sharpNode = n.sharpNode ∧
      n'.starNode = n.starNode ∧ n'.tail = some b ∧
      Chain n'.buckets n'.head (n.chain ++ [(b, ⟨List.replicate bucketMax .null, 0⟩)]) := by
  have hchain := hn.chain
  rw [Node.TailOk] at htail
  rw [bucketAdd]
  rcases List.eq_nil_or_concat n.chain with hnil | ⟨l, ⟨a, L⟩, hconcat⟩
  · rw [hnil] at hchain ⊢
    have hhead : n.head = none := hchain
    rw [hhead]
    exact ⟨_, _, rfl, ⟨rfl, rfl, rfl⟩, rfl, rfl, rfl, Chain.cons (p := none) rfl⟩
  · rw [List.concat_eq_append] at hconcat
    rw [hconcat] at hchain htail ⊢
    rw [lastAddr_concat] at htail
    have htail' : n.tail = some a := htail.resolve_left (by simp)
    obtain ⟨r, hseg, rfl, next, hread, hnext⟩ := segment_append.mp hchain
    obtain rfl : next = none := hnext
    obtain ⟨p, hp⟩ := hchain.exists_head (by simp)
    rw [hp] at hchain
    simp only [hp, htail', Mem.get_of_read hread, Fallible.ok_bind]
    exact ⟨_, _, rfl, ⟨rfl, rfl, rfl⟩, rfl, rfl, rfl, hchain.snoc⟩

/-- The bucket in which a literal fragment is looked for and to which it is added. -/
theorem getOrAddBucket_spec (hn : n.Shape) (htail : n.TailOk) :
    ∃ n' b B l, getOrAddBucket n = .ok (n', b) ∧ n.SameSelf n' ∧ n'.sharpNode = n.sharpNode ∧
      n'.starNode = n.starNode ∧ n'.TailOk ∧ Chain n'.buckets n'.head (l ++ [(b, B)]) ∧
      n.openBucket.elim
        (l = n.chain ∧ B = ⟨List.replicate bucketMax .null, 0⟩)
        (fun L => n' = n ∧ L = B) := by
  have hchain := hn.chain
  rcases hopen : n.openBucket with _ | L
  · obtain ⟨n', b, hadd, hself, hsharp, hstar, htail', hchain'⟩ := bucketAdd_spec hn htail
    refine ⟨n', b, _, n.chain, ?_, hself, hsharp, hstar, ?_, hchain', rfl, rfl⟩
    · rw [getOrAddBucket, hadd]
      -- there is no bucket or the last one is full
      rcases List.eq_nil_or_concat n.chain with hnil | ⟨l, ⟨a, L⟩, hconcat⟩
      · rw [hnil] at hchain
        have hhead : n.head = none := hchain
        rw [hhead]
      · rw [List.concat_eq_append] at hconcat
        have hfull : bucketFull L = true := by
          by_contra hnot
          rw [bucketFull_iff] at hnot
          have := Node.openBucket_eq_some.mpr ⟨⟨l, a, hconcat⟩, hnot⟩
          rw [hopen] at this
          cases this
        rw [Node.TailOk, hconcat, lastAddr_concat] at htail
        have htail'' : n.tail = some a := htail.resolve_left (by simp)
        rw [hconcat] at hchain
        obtain ⟨next, hget, -⟩ := hchain.get_write L
        rcases hhead : n.head with _ | p
        · rfl
        · simp only [htail'', hget, Fallible.ok_bind, hfull, if_true]
    · rw [Node.TailOk, Node.chain_eq hchain', lastAddr_concat]
      exact Or.inr htail'
  · obtain ⟨⟨l, b, hl⟩, hdepth⟩ := Node.openBucket_eq_some.mp hopen
    have htail₀ := htail
    rw [Node.TailOk, hl, lastAddr_concat] at htail
    have htail' : n.tail = some b := htail.resolve_left (by simp)
    rw [hl] at hchain
    refine ⟨n, b, L, l, ?_, Node.SameSelf.refl n, rfl, rfl, htail₀, hchain, rfl, rfl⟩
    obtain ⟨p, hp⟩ := hchain.exists_head (by simp)
    obtain ⟨next, hget, -⟩ := hchain.get_write L
    have hfull : bucketFull L = false := Bool.eq_false_iff.mpr fun h => hdepth (bucketFull_iff.mp h)
    rw [getOrAddBucket, hp, htail']
    simp only [hget, Fallible.ok_bind, hfull]
    rfl

/-! ## The child -/

/-- A child behind the ones in use: the bucket of the node with it. -/
theorem addInBucket {g : BindingKeyFragment}
    (hchain : Chain n.buckets n.head
      (l ++ [(b, ⟨ns.map Slot.node ++ .null :: rest, ns.length⟩)]))
    (hno : ∀ d ∈ ns, BindingKey.fragmentEq d.fragment g = false) (c : Node) :
    ∃ m n', chooseInBucket n b g = .ok (m, .child b ns.length) ∧
      readChild m (.child b ns.length) = .ok none ∧
      writeChild m c (.child b ns.length) = .ok n' ∧ n.SameSelf n' ∧
      n'.sharpNode = n.sharpNode ∧ n'.starNode = n.starNode ∧ n'.tail = n.tail ∧
      Chain n'.buckets n'.head
        (l ++ [(b, ⟨(ns ++ [c]).map Slot.node ++ rest, ns.length + 1⟩)]) := by
  -- the bucket after `depth++`, and with the child in place
  let B₁ : Bucket Node := ⟨ns.map Slot.node ++ .null :: rest, ns.length + 1⟩
  let B₂ : Bucket Node := ⟨(ns ++ [c]).map Slot.node ++ rest, ns.length + 1⟩
  obtain ⟨next, hget, hwrite⟩ := hchain.get_write B₁
  obtain ⟨next', hget', hwrite'⟩ := hwrite.get_write B₂
  have hmiss := firstChild_eq (fun d => BindingKey.fragmentEq d.fragment g)
    (B := ⟨ns.map Slot.node ++ .null :: rest, ns.length⟩) rfl
  rw [List.findIdx?_eq_none_iff.mpr hno] at hmiss
  have hset : (ns.map Slot.node ++ Slot.null :: rest).set ns.length (.node c) =
      (ns ++ [c]).map Slot.node ++ rest := by simp
  refine ⟨{ n with buckets := Mem.write n.buckets b ⟨B₁, next⟩ },
    { n with buckets := Mem.write (Mem.write n.buckets b ⟨B₁, next⟩) b ⟨B₂, next'⟩ },
    ?_, ?_, ?_, ⟨rfl, rfl, rfl⟩, rfl, rfl, rfl, hwrite'⟩
  · rw [chooseInBucket, hget]
    simp only [Fallible.ok_bind, hmiss]
    rfl
  · rw [readChild, hget', Fallible.ok_bind]
    simp [B₁]
  · rw [writeChild, hget', Fallible.ok_bind]
    simp only [B₁, B₂, hset]

/-- The bucket that takes a new child: the nodes in it and a null pointer. -/
theorem bucket_for_new {g : BindingKeyFragment} (hn : n.Shape)
    (hnone : ∀ L ∈ n.openBucket, ∀ d ∈ L.nodes, BindingKey.fragmentEq d.fragment g = false)
    (hroom : n.openBucket.all Bucket.roomy = true) {m : Node}
    (hchain : Chain m.buckets m.head (l ++ [(b, B)]))
    (hB : n.openBucket.elim (l = n.chain ∧ B = ⟨List.replicate bucketMax .null, 0⟩)
      (fun L => m = n ∧ L = B)) :
    ∃ ns rest, B = ⟨ns.map Slot.node ++ .null :: rest, ns.length⟩ ∧
      (∀ d ∈ ns, BindingKey.fragmentEq d.fragment g = false) ∧
      n.literals = l.flatMap (·.2.nodes) ++ ns ∧
      (ns.map Slot.node ++ Slot.null :: rest).length = bucketMax ∧ (∀ d ∈ l, d ∈ n.chain) ∧
      (n.Tidy → ∀ slot ∈ rest, slot = .null) := by
  rcases hopen : n.openBucket with _ | L
  · rw [hopen] at hB
    obtain ⟨rfl, rfl⟩ := hB
    refine ⟨[], List.replicate 31 .null, rfl, by simp, by simp [Node.literals], rfl,
      fun d hd => hd, fun _ slot hslot => List.eq_of_mem_replicate hslot⟩
  · rw [hopen] at hB hroom
    obtain ⟨rfl, rfl⟩ := hB
    have hlist := Node.chain_eq hchain
    have hmem : (b, L) ∈ m.chain := by
      rw [hlist]
      simp
    have hsolid := hn.solid _ hmem
    obtain ⟨rest, hrest⟩ := Bucket.roomy_iff.mp hroom
    have hchildren := hsolid.children_eq
    simp only [hrest] at hchildren
    refine ⟨L.nodes, rest, ?_, ?_, ?_, ?_, ?_, ?_⟩
    · rw [hsolid.length_nodes, ← hchildren]
    · exact hnone L hopen
    · rw [Node.literals, hlist, List.flatMap_append]
      simp
    · rw [← hchildren]
      exact hsolid.length
    · intro d hd
      rw [hlist]
      exact List.mem_append_left _ hd
    · intro ht slot hslot
      refine ht.buckets _ hmem slot ?_
      simp only [hrest]
      exact List.mem_cons_of_mem _ hslot

/-- The node `n'` has the child that an addition to `n` under the fragment `f` goes to,
    a new child or an old one. -/
structure Prepared (n n' : Node) (f : CString) (child : Node) (ref : ChildRef)
    (k₁ k₂ : List (BindingKeyFragment × Node)) : Prop where
  place : At n' ref (some f) child k₁ k₂
  shape : n'.Shape
  self : n.SameSelf n'
  kids : n.kids = k₁ ++ ((n.holder f).map (some f, ·)).toList ++ k₂
  tidy : n.Tidy → n'.Tidy
  literals : n.Literals → n'.Literals

/-- A new child in the bucket `b`, which is the last one. -/
theorem prepared_new {m : Node} (hn : n.Shape) (hself : n.SameSelf m)
    (hsharp : m.sharpNode = n.sharpNode) (hstar : m.starNode = n.starNode) (htail : m.TailOk)
    (hchain : Chain m.buckets m.head (l ++ [(b, B)]))
    (hB : n.openBucket.elim (l = n.chain ∧ B = ⟨List.replicate bucketMax .null, 0⟩)
      (fun L => m = n ∧ L = B))
    (hf : f ≠ tokenSharp ∧ f ≠ tokenStar) (hholder : n.lastHolder f = none)
    (hroom : n.openBucket.all Bucket.roomy = true) (hc : c.fragment = some f) :
    ∃ m' n' ref k₁ k₂, chooseInBucket m b (some f) = .ok (m', ref) ∧
      readChild m' ref = .ok none ∧ writeChild m' c ref = .ok n' ∧
      Prepared n n' f c ref k₁ k₂ := by
  have hnone : ∀ L ∈ n.openBucket, ∀ d ∈ L.nodes,
      BindingKey.fragmentEq d.fragment (some f) = false := by
    intro L hopen d hd
    rw [Node.lastHolder, hopen, Option.bind_some, List.find?_eq_none] at hholder
    exact Bool.eq_false_iff.mpr (hholder d hd)
  obtain ⟨ns, rest, rfl, hno, hlits, hlen, hsub, htidy⟩ :=
    bucket_for_new hn hnone hroom hchain hB
  obtain ⟨m', n', hchoose, hread, hwrite, hself', hsharp', hstar', htail', hchain'⟩ :=
    addInBucket hchain hno c
  have hlist := Node.chain_eq hchain'
  have hnodes : (Bucket.mk ((ns ++ [c]).map Slot.node ++ rest) (ns.length + 1)).nodes =
      ns ++ c :: [] := Bucket.nodes_of_children rfl (by simp)
  have hat := At.child hlist hnodes
  rw [hc] at hat
  have hkids : n.holder f = none := by rw [Node.holder, if_neg hf.1, if_neg hf.2, hholder]
  refine ⟨m', n', _, _, _, hchoose, hread, hwrite, hat, ⟨hchain'.self, ?_⟩, hself.trans hself', ?_,
    fun ht => ⟨?_, ?_⟩, fun hl d hd => ?_⟩
  · rw [hlist]
    intro d hd
    rcases List.mem_append.mp hd with hd | hd
    · exact hn.solid d (hsub d hd)
    · rw [List.mem_singleton.mp hd]
      refine Bucket.solid_of_children rfl (by simp) ?_ (by simp)
      rw [← hlen]
      simp
  · rw [Node.kids, hlits, hsharp', hstar', hsharp, hstar, hkids]
    simp [label]
  · rw [Node.TailOk, Node.chain_eq hchain, lastAddr_concat] at htail
    rw [Node.TailOk, hlist, lastAddr_concat, htail']
    exact htail
  · rw [hlist]
    intro d hd
    rcases List.mem_append.mp hd with hd | hd
    · exact ht.buckets d (hsub d hd)
    · rw [List.mem_singleton.mp hd]
      intro slot hslot
      rw [List.drop_left' (by simp)] at hslot
      exact htidy ht slot hslot
  · rw [Node.literals, hlist, List.flatMap_append, List.flatMap_singleton, hnodes,
      ← List.append_assoc, ← hlits] at hd
    rcases List.mem_append.mp hd with hd | hd
    · exact hl d hd
    · rw [List.mem_singleton.mp hd]
      exact ⟨f, hc, hf⟩

/-- A child that is there already, in the last bucket. -/
theorem prepared_old (hn : n.Shape) (hchain : Chain n.buckets n.head (l ++ [(b, B)]))
    (hopen : n.openBucket = some B) (hf : f ≠ tokenSharp ∧ f ≠ tokenStar)
    (hholder : n.lastHolder f = some c) :
    ∃ ref k₁ k₂, chooseInBucket n b (some f) = .ok (n, ref) ∧ Prepared n n f c ref k₁ k₂ := by
  have hkids : n.holder f = some c := by rw [Node.holder, if_neg hf.1, if_neg hf.2, hholder]
  rw [Node.lastHolder, hopen, Option.bind_some] at hholder
  obtain ⟨hc, ns₁, ns₂, hnodes, hno⟩ := List.find?_eq_some_iff_append.mp hholder
  have hlist := Node.chain_eq hchain
  have hfrag : c.fragment = some f := BindingKey.fragmentEq_iff.mp hc
  have hmem : (b, B) ∈ n.chain := by
    rw [hlist]
    simp
  have hat := At.child hlist hnodes
  rw [hfrag] at hat
  obtain ⟨next, hget, -⟩ := hchain.get_write B
  have hhit := (hn.solid _ hmem).firstChild_hit hnodes (fun d hd => by simpa using hno d hd) hc
  refine ⟨.child b ns₁.length, _, _, ?_, hat, hn, Node.SameSelf.refl n, ?_, id, id⟩
  · rw [chooseInBucket, hget]
    simp only [Fallible.ok_bind, hhit]
  · rw [hat.kids_eq, hkids]
    simp

/-- **The child that an addition goes to**, in its place. -/
theorem getOrAdd_at (hn : n.Shape) (hkey : BindingKey.getFragment bindingKey i = some f)
    (happ : n.appendable f = true) :
    ∃ n' ref k₁ k₂, getOrAddChildNode n bindingKey i = .ok (n', ref) ∧
      Prepared n n' f ((n.holder f).getD (nodeNew bindingKey i)) ref k₁ k₂ := by
  rw [getOrAddChildNode, hkey, chooseChild]
  simp only [BindingKey.fragmentIsSharp_iff, BindingKey.fragmentIsStar_iff, Option.some_inj]
  by_cases hsharp : f = tokenSharp
  · subst hsharp
    have hholder : n.holder tokenSharp = n.sharpNode := if_pos rfl
    simp only [if_true, Fallible.ok_bind, readChild, hholder]
    rcases h : n.sharpNode with _ | c
    · refine ⟨_, _, _, _, rfl, At.sharp (n := { n with sharpNode := some _ }) rfl,
        ⟨hn.chain, hn.solid⟩, ⟨rfl, rfl, rfl⟩, ?_, fun ht => ⟨ht.tail, ht.buckets⟩,
        fun hl => hl⟩
      simp only [Node.kids, hholder, h]
      rfl
    · refine ⟨n, _, _, _, rfl, At.sharp h, hn, Node.SameSelf.refl n, ?_, id, id⟩
      simp [Node.kids, hholder, h]
  by_cases hstar : f = tokenStar
  · subst hstar
    have hholder : n.holder tokenStar = n.starNode := by rw [Node.holder, if_neg hsharp, if_pos rfl]
    simp only [if_neg hsharp, if_true, Fallible.ok_bind, readChild, hholder]
    rcases h : n.starNode with _ | c
    · refine ⟨_, _, _, _, rfl, At.star (n := { n with starNode := some _ }) rfl,
        ⟨hn.chain, hn.solid⟩, ⟨rfl, rfl, rfl⟩, ?_, fun ht => ⟨ht.tail, ht.buckets⟩,
        fun hl => hl⟩
      simp only [Node.kids, hholder, h]
      rfl
    · refine ⟨n, _, _, _, rfl, At.star h, hn, Node.SameSelf.refl n, ?_, id, id⟩
      simp [Node.kids, hholder, h]
  have hholder : n.holder f = n.lastHolder f := by
    rw [Node.holder, if_neg hsharp, if_neg hstar]
  simp only [if_neg hsharp, if_neg hstar, hholder]
  rw [Node.appendable] at happ
  simp only [hsharp, hstar, decide_false, Bool.false_or, Bool.and_eq_true, decide_eq_true_eq,
    Bool.or_eq_true] at happ
  obtain ⟨htail, hroom⟩ := happ
  obtain ⟨m, b, B, l, hget, hself, hms, hmst, hmtail, hchain, hB⟩ := getOrAddBucket_spec hn htail
  rw [hget]
  simp only [Fallible.ok_bind]
  rcases hlast : n.lastHolder f with _ | c
  · rw [hlast, Option.isSome_none] at hroom
    obtain ⟨m', n', ref, k₁, k₂, hchoose, hread, hwrite, hprepared⟩ :=
      prepared_new (c := nodeNew bindingKey i) hn hself hms hmst hmtail hchain hB ⟨hsharp, hstar⟩
        hlast (by simpa using hroom) hkey
    refine ⟨n', ref, k₁, k₂, ?_, hprepared⟩
    simp only [hchoose, Fallible.ok_bind, hread, hwrite]
  · obtain ⟨L, hopen, -⟩ := Option.bind_eq_some_iff.mp hlast
    rw [hopen] at hB
    obtain ⟨rfl, rfl⟩ := hB
    obtain ⟨ref, k₁, k₂, hchoose, hprepared⟩ := prepared_old hn hchain hopen ⟨hsharp, hstar⟩ hlast
    refine ⟨m, ref, k₁, k₂, ?_, hprepared⟩
    simp only [hchoose, Fallible.ok_bind, hprepared.place.readChild hn]

end PeerSubscriptionTree

end Cebus
