import Cebus.Subscription.TreeChild

/-!
# Reading the tree

* `nodeCount_spec`: the count is the number of entries in the lists.
* `offerAll_spec`: all peers that are stored below a node are offered.
* `collect_spec`: what is offered on the ways through the tree that a key opens.
-/

namespace Cebus

open LinkedList PeerList

namespace PeerSubscriptionTree

/-! ## Sound trees -/

/-- A node at the distance `j` from the root, with its peers in a list and all its
    children in use. -/
structure Node.Local (j : ℕ) (n : Node) : Prop where
  index : n.fragmentIndex = j - 1
  shape : n.Shape
  peers : n.peers.Sound
  counted : n.peers.Counted
  literals : n.Literals
  used : ∀ f c, (f, c) ∈ n.kids → ∃ q id, c.Stored q id

/-- Every node of the tree is in order. -/
abbrev Node.Sound : ℕ → Node → Prop := Trie.Everywhere Node.kids Node.Local

/-- No two children have one fragment. -/
def Node.Distinct (n : Node) : Prop := (n.kids.map Prod.fst).Nodup

/-- Nowhere in the tree two children of a node have one fragment. -/
abbrev Node.Separate : ℕ → Node → Prop := Trie.Everywhere Node.kids fun _ n => n.Distinct

variable {n n' c : Node} {j i fuel : ℕ} {bindingKey : BindingKey} {id : PeerId}
  {f : BindingKeyFragment} {q : List BindingKeyFragment}

theorem Node.height_pos (n : Node) : 0 < n.height := by
  rw [Node.height]
  omega

theorem Node.Distinct.unique {c' : Node} (h : n.Distinct) (hc : (f, c) ∈ n.kids)
    (hc' : (f, c') ∈ n.kids) : c = c' := by
  have := List.inj_on_of_nodup_map h hc hc' rfl
  exact (Prod.mk.inj this).2

theorem Node.stored_nil : n.Stored [] id ↔ n.Holds id := Trie.stored_nil

theorem Node.stored_cons : n.Stored (f :: q) id ↔ ∃ c, (f, c) ∈ n.kids ∧ c.Stored q id :=
  Trie.stored_cons

theorem Node.Distinct.stored_cons (h : n.Distinct) (hc : (f, c) ∈ n.kids) :
    n.Stored (f :: q) id ↔ c.Stored q id := by
  rw [Node.stored_cons]
  constructor
  · rintro ⟨c', hc', hs⟩
    rwa [h.unique hc hc']
  · exact fun hs => ⟨c, hc, hs⟩

/-- A node with one child changed, added or taken out. -/
theorem Node.Sound.of_child {o o' : Option Node} {k₁ k₂ : List (BindingKeyFragment × Node)}
    (h : n.Sound j) (hkids : n.kids = k₁ ++ (o.map (f, ·)).toList ++ k₂)
    (hkids' : n'.kids = k₁ ++ (o'.map (f, ·)).toList ++ k₂) (hshape : n'.Shape)
    (hself : n.SameSelf n') (hlits : n.Literals → n'.Literals)
    (ho' : ∀ c ∈ o', c.Sound (j + 1) ∧ ∃ q id, c.Stored q id) : n'.Sound j := by
  have hn := h.here
  have hothers := Trie.mem_others hkids
  refine h.update hkids hkids' ⟨?_, hshape, ?_, ?_, hlits hn.literals, ?_⟩
    fun c hc => (ho' c hc).1
  · rw [hself.fragmentIndex, hn.index]
  · rw [hself.peers]
    exact hn.peers
  · rw [hself.peers]
    exact hn.counted
  · intro g d hd
    rw [hkids'] at hd
    simp only [List.mem_append, Option.mem_toList, Option.map_eq_some_iff] at hd
    rcases hd with (hd | ⟨c, hc, heq⟩) | hd
    · exact hn.used g d (hothers _ (List.mem_append_left _ hd))
    · obtain ⟨-, rfl⟩ := Prod.mk.inj heq
      exact (ho' c hc).2
    · exact hn.used g d (hothers _ (List.mem_append_right _ hd))

/-- A node with another list of peers. -/
theorem Node.Sound.withPeers {peers : PeerList} (h : n.Sound j) (hs : peers.Sound)
    (hc : peers.Counted) : ({ n with peers } : Node).Sound j := by
  have hn := h.here
  exact h.of_kids rfl
    ⟨hn.index, ⟨hn.shape.chain, hn.shape.solid⟩, hs, hc, hn.literals, hn.used⟩

theorem Node.stored_withPeers {peers : PeerList} :
    ({ n with peers } : Node).Stored q id ↔
      (q = [] ∧ id ∈ peers.ids) ∨ (q ≠ [] ∧ n.Stored q id) := by
  cases q with
  | nil =>
    rw [Node.stored_nil, Node.Holds]
    simp
  | cons g q =>
    rw [Node.stored_cons, Node.stored_cons]
    simp only [reduceCtorEq, false_and, ne_eq, not_false_eq_true, true_and, false_or]
    exact Iff.rfl

/-! ## Counting -/

/-- What a recursive count finds out about a node. -/
def Counts (fuel : ℕ) (j : ℕ) (n : Node) : Prop :=
  ∃ entries : List (List BindingKeyFragment × PeerId), nodeCount fuel n = .ok entries.length ∧
    (∀ q id, (q, id) ∈ entries ↔ n.Stored q id) ∧ (n.Separate j → entries.Nodup)

theorem count_kids {ks : List (BindingKeyFragment × Node)}
    (h : ∀ f c, (f, c) ∈ ks → Counts fuel j c) (count : ℕ) :
    ∃ entries : List (List BindingKeyFragment × PeerId),
      ks.foldlM (fun count child => (count + ·) <$> nodeCount fuel child.2) count =
        .ok (count + entries.length) ∧
      (∀ q id, (q, id) ∈ entries ↔ ∃ f c q', (f, c) ∈ ks ∧ q = f :: q' ∧ c.Stored q' id) ∧
      ((ks.map Prod.fst).Nodup → (∀ f c, (f, c) ∈ ks → c.Separate j) → entries.Nodup) := by
  induction ks generalizing count with
  | nil => exact ⟨[], rfl, by simp, by simp⟩
  | cons fc ks ih =>
    obtain ⟨f, c⟩ := fc
    obtain ⟨es, hes, hmem, hnd⟩ := h f c (List.mem_cons_self ..)
    obtain ⟨es', hes', hmem', hnd'⟩ :=
      ih (fun g d hd => h g d (List.mem_cons_of_mem _ hd)) (count + es.length)
    refine ⟨es.map (fun e => (f :: e.1, e.2)) ++ es', ?_, fun q id => ?_, fun hlabels hsep => ?_⟩
    · rw [List.foldlM_cons, hes, Fallible.map_ok, Fallible.ok_bind, hes', List.length_append,
        List.length_map, Nat.add_assoc]
    · rw [List.mem_append, hmem', List.mem_map]
      constructor
      · rintro (⟨⟨q', id'⟩, he, heq⟩ | ⟨g, d, q', hd, hq, hs⟩)
        · obtain ⟨rfl, rfl⟩ := Prod.mk.inj heq
          exact ⟨f, c, q', List.mem_cons_self .., rfl, (hmem _ _).mp he⟩
        · exact ⟨g, d, q', List.mem_cons_of_mem _ hd, hq, hs⟩
      · rintro ⟨g, d, q', hd, rfl, hs⟩
        rcases List.mem_cons.mp hd with heq | hd
        · obtain ⟨rfl, rfl⟩ := Prod.mk.inj heq
          exact Or.inl ⟨(q', id), (hmem _ _).mpr hs, rfl⟩
        · exact Or.inr ⟨g, d, q', hd, rfl, hs⟩
    · rw [List.map_cons, List.nodup_cons] at hlabels
      refine List.Nodup.append ?_
        (hnd' hlabels.2 fun g d hd => hsep g d (List.mem_cons_of_mem _ hd)) ?_
      · refine List.Nodup.map ?_ (hnd (hsep f c (List.mem_cons_self ..)))
        rintro ⟨q, id⟩ ⟨q', id'⟩ heq
        simpa using heq
      · -- the paths of the others begin with another fragment
        rintro ⟨q, id⟩ he he'
        obtain ⟨⟨q', id'⟩, -, heq⟩ := List.mem_map.mp he
        obtain ⟨g, d, q'', hd, hq, -⟩ := (hmem' _ _).mp he'
        obtain ⟨rfl, rfl⟩ := Prod.mk.inj heq
        obtain ⟨rfl, -⟩ := List.cons.inj hq
        exact hlabels.1 (List.mem_map.mpr ⟨_, hd, rfl⟩)

/-- **The count** is the number of entries that are stored; each of them counts
    once where the children are distinct. -/
theorem nodeCount_spec (h : n.Sound j) (hfuel : n.height ≤ fuel) : Counts fuel j n := by
  induction h generalizing fuel with
  | @mk j n hn _ ih =>
    have hpos := n.height_pos
    obtain ⟨k, rfl⟩ := Nat.exists_eq_add_one_of_ne_zero (show fuel ≠ 0 by omega)
    have hkids : ∀ f c, (f, c) ∈ n.kids → Counts k (j + 1) c := by
      intro f c hc
      have hlt := Node.height_lt_of_kids hc
      exact ih f c hc (by omega)
    obtain ⟨es, hes, hmem, hnd⟩ := count_kids hkids n.peers.count
    refine ⟨n.peers.ids.map (fun id => ([], id)) ++ es, ?_, fun q id => ?_, fun hsep => ?_⟩
    · rw [nodeCount, foldChildren_eq hn.shape, hes, hn.counted]
      simp
    · rw [List.mem_append, hmem, List.mem_map]
      constructor
      · rintro (⟨id', hid, heq⟩ | ⟨f, c, q', hc, rfl, hs⟩)
        · obtain ⟨rfl, rfl⟩ := Prod.mk.inj heq
          exact Node.stored_nil.mpr hid
        · exact Node.stored_cons.mpr ⟨c, hc, hs⟩
      · intro hs
        cases hs with
        | here hv => exact Or.inl ⟨id, hv, rfl⟩
        | step hc hs => exact Or.inr ⟨_, _, _, hc, rfl, hs⟩
    · refine List.Nodup.append ?_ (hnd hsep.here fun f c hc => hsep.child hc) ?_
      · refine List.Nodup.map ?_ hn.peers.nodup
        intro id id' heq
        exact (Prod.mk.inj heq).2
      · rintro ⟨q, id⟩ he he'
        obtain ⟨id', -, heq⟩ := List.mem_map.mp he
        obtain ⟨f, c, q', -, hq, -⟩ := (hmem _ _).mp he'
        rw [← (Prod.mk.inj heq).1] at hq
        cases hq

/-- The count is zero when nothing is stored. -/
theorem nodeCount_eq_zero (h : n.Sound j) :
    ∃ count, nodeCount n.height n = .ok count ∧ (count = 0 ↔ ∀ q id, ¬n.Stored q id) := by
  obtain ⟨es, hcount, hmem, -⟩ := nodeCount_spec h (Nat.le_refl _)
  refine ⟨_, hcount, ?_⟩
  rw [List.length_eq_zero_iff, List.eq_nil_iff_forall_not_mem]
  constructor
  · intro hno q id hs
    exact hno _ ((hmem q id).mpr hs)
  · rintro hno ⟨q, id⟩ he
    exact hno q id ((hmem q id).mp he)

/-! ## Offering -/

/-- **All peers below a node are offered.** -/
theorem offerAll_spec (h : n.Sound j) (hfuel : n.height ≤ fuel) :
    Gathers (fun peers => offerAll fuel peers n) fun id => ∃ q, n.Stored q id := by
  induction h generalizing fuel with
  | @mk j n hn _ ih =>
    have hpos := n.height_pos
    obtain ⟨k, rfl⟩ := Nat.exists_eq_add_one_of_ne_zero (show fuel ≠ 0 by omega)
    have hkids : ∀ fc ∈ n.kids, Gathers (fun peers => offerAll k peers fc.2)
        fun id => ∃ q, fc.2.Stored q id := by
      rintro ⟨f, c⟩ hc
      have hlt := Node.height_lt_of_kids hc
      exact ih f c hc (by omega)
    have hrun : (fun peers => offerAll (k + 1) peers n) = fun peers =>
        peers.offer n.peers >>= fun peers =>
          n.kids.foldlM (fun peers fc => offerAll k peers fc.2) peers := by
      funext peers
      simp only [offerAll, foldChildren_eq hn.shape]
    rw [hrun]
    refine ((offer_spec hn.peers).seq (Gathers.foldlM hkids)).congr fun id => ?_
    constructor
    · rintro (hid | ⟨⟨f, c⟩, hc, q, hs⟩)
      · exact ⟨[], Node.stored_nil.mpr hid⟩
      · exact ⟨f :: q, Node.stored_cons.mpr ⟨c, hc, hs⟩⟩
    · rintro ⟨q, hs⟩
      cases hs with
      | here hv => exact Or.inl hv
      | step hc hs => exact Or.inr ⟨_, hc, _, hs⟩

/-! ## Finding -/

/-- The child that a search for a key finds. -/
def Node.found (n : Node) (bindingKey : BindingKey) (i : ℕ) : Option Node :=
  if BindingKey.fragmentIsSharp (BindingKey.getFragment bindingKey i) then n.sharpNode
  else if BindingKey.fragmentIsStar (BindingKey.getFragment bindingKey i) then n.starNode
  else n.literals.find? (holdsFragment bindingKey)

/-- A search finds a pointer to the child, or none, or a null pointer. -/
theorem getChildNode_found (hn : n.Shape) (bindingKey : BindingKey) (i : ℕ) :
    ∃ r, getChildNode n bindingKey i = .ok r ∧ (r = none → n.found bindingKey i = none) ∧
      ∀ ref, r = some ref → readChild n ref = .ok (n.found bindingKey i) := by
  rw [Node.found]
  by_cases hsharp : BindingKey.getFragment bindingKey i = some tokenSharp
  · refine ⟨_, getChildNode_sharp hsharp, by simp, ?_⟩
    intro ref href
    obtain rfl := Option.some.inj href
    rw [if_pos (BindingKey.fragmentIsSharp_iff.mpr hsharp)]
    rfl
  rw [if_neg (by rwa [BindingKey.fragmentIsSharp_iff])]
  by_cases hstar : BindingKey.getFragment bindingKey i = some tokenStar
  · refine ⟨_, getChildNode_star hstar, by simp, ?_⟩
    intro ref href
    obtain rfl := Option.some.inj href
    rw [if_pos (BindingKey.fragmentIsStar_iff.mpr hstar)]
    rfl
  rw [if_neg (by rwa [BindingKey.fragmentIsStar_iff])]
  rcases hfind : n.literals.find? (holdsFragment bindingKey) with _ | c
  · refine ⟨none, getChildNode_miss hn hsharp hstar fun c hc => ?_, fun _ => rfl, by simp⟩
    exact Bool.eq_false_iff.mpr (List.find?_eq_none.mp hfind c hc)
  · obtain ⟨ref, k₁, k₂, hget, hat⟩ := getChildNode_hit hn hsharp hstar hfind
    refine ⟨_, hget, by simp, ?_⟩
    intro ref' href
    obtain rfl := Option.some.inj href
    exact hat.readChild hn

/-- A fragment that is no token is in no other place than the buckets. -/
theorem Node.Literals.mem_kids (hn : n.Literals) {f : CString} : (some f, c) ∈ n.kids ↔
    if f = tokenSharp then n.sharpNode = some c
    else if f = tokenStar then n.starNode = some c
    else c ∈ n.literals ∧ c.fragment = some f := by
  rw [Node.mem_kids, Option.some_inj, Option.some_inj]
  constructor
  · rintro (⟨rfl, h⟩ | ⟨rfl, h⟩ | ⟨hf, h⟩)
    · rw [if_pos rfl]
      exact h
    · rw [if_neg BindingKey.tokenStar_ne_tokenSharp, if_pos rfl]
      exact h
    · obtain ⟨g, hg, hsharp, hstar⟩ := hn c h
      obtain rfl := Option.some.inj (hf.trans hg)
      rw [if_neg hsharp, if_neg hstar]
      exact ⟨h, hg⟩
  · intro h
    split at h
    · next hsharp => exact Or.inl ⟨hsharp, h⟩
    · split at h
      · next hstar => exact Or.inr (Or.inl ⟨hstar, h⟩)
      · exact Or.inr (Or.inr ⟨h.2.symm, h.1⟩)

theorem Node.Literals.ne_none (hn : n.Literals) : (none, c) ∉ n.kids := by
  intro h
  rcases Node.mem_kids.mp h with ⟨h, -⟩ | ⟨h, -⟩ | ⟨h, hc⟩
  · cases h
  · cases h
  · obtain ⟨f, hf, -⟩ := hn c hc
    cases h.trans hf

/-- The fragment under which a search at the distance `j` looks for a child. The
    tokens are looked for in the fragment before. -/
def turn (bindingKey : BindingKey) (j : ℕ) : BindingKeyFragment :=
  let before := BindingKey.getFragment bindingKey (j - 1)
  let here := BindingKey.getFragment bindingKey j
  if before = some tokenSharp then some tokenSharp
  else if before = some tokenStar then some tokenStar
  else if here = some tokenSharp ∨ here = some tokenStar then none
  else here

/-- In a bucket a child holds its fragment of the key if that is its fragment. -/
theorem holdsFragment_iff (hs : n.Sound j) (hc : c ∈ n.literals) :
    holdsFragment bindingKey c = true ↔ c.fragment = BindingKey.getFragment bindingKey j := by
  have hindex := (hs.child (Node.mem_kids.mpr (Or.inr (Or.inr ⟨rfl, hc⟩)))).here.index
  obtain ⟨f, hf, -⟩ := hs.here.literals c hc
  rw [Nat.add_sub_cancel] at hindex
  simp only [holdsFragment, hindex, hf, BindingKey.fragmentIsEmpty, Bool.and_eq_true,
    BindingKey.fragmentEq_iff, Bool.not_eq_true']
  constructor
  · exact And.right
  · intro h
    exact ⟨by rw [← h]; rfl, h⟩

/-- The child that is found stands under the fragment. -/
theorem Node.found_mem_kids (hs : n.Sound j) (h : n.found bindingKey n.fragmentIndex = some c) :
    (turn bindingKey j, c) ∈ n.kids := by
  simp only [Node.found, hs.here.index, BindingKey.fragmentIsSharp_iff,
    BindingKey.fragmentIsStar_iff] at h
  rw [turn]
  split at h
  · next hsharp =>
    rw [if_pos hsharp]
    exact Node.mem_kids.mpr (Or.inl ⟨rfl, h⟩)
  · next hsharp =>
    rw [if_neg hsharp]
    split at h
    · next hstar =>
      rw [if_pos hstar]
      exact Node.mem_kids.mpr (Or.inr (Or.inl ⟨rfl, h⟩))
    · next hstar =>
      rw [if_neg hstar]
      have hc := List.mem_of_find?_eq_some h
      have hfrag := (holdsFragment_iff hs hc).mp (List.find?_some h)
      obtain ⟨f, hf, hfsharp, hfstar⟩ := hs.here.literals c hc
      have hnot : ¬(BindingKey.getFragment bindingKey j = some tokenSharp ∨
          BindingKey.getFragment bindingKey j = some tokenStar) := by
        rw [← hfrag, hf, Option.some_inj, Option.some_inj]
        rintro (heq | heq)
        · exact hfsharp heq
        · exact hfstar heq
      rw [if_neg hnot, ← hfrag]
      exact Node.mem_kids.mpr (Or.inr (Or.inr ⟨rfl, hc⟩))

/-- Where the children are distinct, a child under the fragment is found. -/
theorem Node.found_iff (hs : n.Sound j) (hd : n.Distinct) :
    n.found bindingKey n.fragmentIndex = some c ↔ (turn bindingKey j, c) ∈ n.kids := by
  refine ⟨Node.found_mem_kids hs, fun h => ?_⟩
  -- if another child or none is found, there are two under the fragment
  have hsome : (n.found bindingKey n.fragmentIndex).isSome := by
    have hlits := hs.here.literals
    simp only [Node.found, hs.here.index, BindingKey.fragmentIsSharp_iff,
      BindingKey.fragmentIsStar_iff]
    rw [turn] at h
    split
    · next hsharp =>
      rw [if_pos hsharp] at h
      rw [hlits.mem_kids, if_pos rfl] at h
      simp [h]
    · next hsharp =>
      rw [if_neg hsharp] at h
      split
      · next hstar =>
        rw [if_pos hstar, hlits.mem_kids, if_neg BindingKey.tokenStar_ne_tokenSharp,
          if_pos rfl] at h
        simp [h]
      · next hstar =>
        rw [if_neg hstar] at h
        split at h
        · exact absurd h hlits.ne_none
        · next hnot =>
          rw [List.find?_isSome]
          rcases hkey : BindingKey.getFragment bindingKey j with _ | f
          · rw [hkey] at h
            exact absurd h hlits.ne_none
          · rw [hkey, Option.some_inj, Option.some_inj] at hnot
            rw [hkey, hlits.mem_kids, if_neg fun heq => hnot (Or.inl heq),
              if_neg fun heq => hnot (Or.inr heq)] at h
            exact ⟨c, h.1, (holdsFragment_iff hs h.1).mpr (by rw [h.2, hkey])⟩
  obtain ⟨d, hd'⟩ := Option.isSome_iff_exists.mp hsome
  rw [hd', hd.unique (Node.found_mem_kids hs hd') h]

/-! ## Collecting -/

/-- A node at this distance from the root is a leaf for the key. -/
def Leaf (bindingKey : BindingKey) (j : ℕ) : Prop :=
  0 < j ∧ j = BindingKey.fragmentCount bindingKey

theorem leaf_of_drop {fs : List CString} (hne : fs ≠ []) (h : fs.drop j = [])
    (hj : j ≤ fs.length) : Leaf (some fs) j := by
  have hpos := List.length_pos_iff.mpr hne
  have heq : j = fs.length := Nat.le_antisymm hj (List.drop_eq_nil_iff.mp h)
  exact ⟨by omega, heq⟩

theorem not_leaf_of_lt {fs : List CString} (h : j < fs.length) : ¬Leaf (some fs) j := by
  rintro ⟨-, heq⟩
  have heq : j = fs.length := heq
  omega

theorem lt_of_not_leaf {fs : List CString} (hne : fs ≠ []) (hj : j ≤ fs.length)
    (h : ¬Leaf (some fs) j) : j < fs.length := by
  have hpos := List.length_pos_iff.mpr hne
  by_contra hlt
  have heq : j = fs.length := by omega
  exact h ⟨by omega, heq⟩

/-- Before its end a key has another fragment. -/
theorem not_leaf_of_drop {fs q : List CString} {f : CString} (h : fs.drop j = f :: q) :
    j < fs.length ∧ fs.drop (j + 1) = q ∧ ¬Leaf (some fs) j := by
  have hlt : j < fs.length := by
    have := congrArg List.length h
    rw [List.length_drop, List.length_cons] at this
    omega
  exact ⟨hlt, by rw [← List.tail_drop, h]; rfl, not_leaf_of_lt hlt⟩

/-- From the node `n` at the distance `j` a key leads to `m` at the distance `i`. -/
inductive Visits (bindingKey : BindingKey) : ℕ → Node → ℕ → Node → Prop where
  | here {j : ℕ} {n : Node} : Visits bindingKey j n j n
  | star {j i : ℕ} {n c m : Node} : ¬Leaf bindingKey j → n.starNode = some c →
      Visits bindingKey (j + 1) c i m → Visits bindingKey j n i m
  | child {j i : ℕ} {n c m : Node} : ¬Leaf bindingKey j →
      n.found bindingKey n.fragmentIndex = some c →
      Visits bindingKey (j + 1) c i m → Visits bindingKey j n i m

/-- What is offered at a node: the peers of a leaf, and everything below another
    node that has a sharp child. -/
def Offers (bindingKey : BindingKey) (i : ℕ) (m : Node) (id : PeerId) : Prop :=
  (Leaf bindingKey i ∧ m.Holds id) ∨
    (¬Leaf bindingKey i ∧ m.sharpNode.isSome ∧ ∃ q, m.Stored q id)

/-- What is collected from a node on. -/
def Collects (bindingKey : BindingKey) (j : ℕ) (n : Node) (id : PeerId) : Prop :=
  ∃ i m, Visits bindingKey j n i m ∧ Offers bindingKey i m id

theorem isLeaf_iff_of_index (hn : n.fragmentIndex = j - 1) :
    isLeaf (decide (j = 0)) n bindingKey = true ↔ Leaf bindingKey j := by
  rw [isLeaf, Leaf, hn]
  by_cases hj : j = 0
  · simp [hj]
  · simp only [hj, decide_false, Bool.false_eq_true, if_false, decide_eq_true_eq]
    omega

theorem isLeaf_iff (hn : n.Local j) :
    isLeaf (decide (j = 0)) n bindingKey = true ↔ Leaf bindingKey j :=
  isLeaf_iff_of_index hn.index

theorem collects_iff (hleaf : ¬Leaf bindingKey j) : Collects bindingKey j n id ↔
    ((n.sharpNode.isSome ∧ ∃ q, n.Stored q id) ∨
      ∃ c, n.starNode = some c ∧ Collects bindingKey (j + 1) c id) ∨
      ∃ c, n.found bindingKey n.fragmentIndex = some c ∧ Collects bindingKey (j + 1) c id := by
  constructor
  · rintro ⟨i, m, hvisit, hoffer⟩
    cases hvisit with
    | here =>
      rcases hoffer with ⟨hl, -⟩ | ⟨-, h⟩
      · exact absurd hl hleaf
      · exact Or.inl (Or.inl h)
    | star _ hc hvisit => exact Or.inl (Or.inr ⟨_, hc, i, m, hvisit, hoffer⟩)
    | child _ hc hvisit => exact Or.inr ⟨_, hc, i, m, hvisit, hoffer⟩
  · rintro ((h | ⟨c, hc, i, m, hvisit, hoffer⟩) | ⟨c, hc, i, m, hvisit, hoffer⟩)
    · exact ⟨j, n, Visits.here, Or.inr ⟨hleaf, h⟩⟩
    · exact ⟨i, m, Visits.star hleaf hc hvisit, hoffer⟩
    · exact ⟨i, m, Visits.child hleaf hc hvisit, hoffer⟩

theorem collects_leaf (hleaf : Leaf bindingKey j) :
    Collects bindingKey j n id ↔ n.Holds id := by
  constructor
  · rintro ⟨i, m, hvisit, hoffer⟩
    cases hvisit with
    | here =>
      rcases hoffer with ⟨-, h⟩ | ⟨hl, -⟩
      · exact h
      · exact absurd hleaf hl
    | star hl _ _ => exact absurd hleaf hl
    | child hl _ _ => exact absurd hleaf hl
  · exact fun h => ⟨j, n, Visits.here, Or.inl ⟨hleaf, h⟩⟩

/-- A visit follows the star children and the fragments under which a search looks. -/
theorem Visits.path {m : Node} (h : Visits bindingKey j n i m) (hs : n.Sound j) :
    ∃ w : List BindingKeyFragment, j + w.length = i ∧
      (∀ q id, m.Stored q id → n.Stored (w ++ q) id) ∧
      ∀ k f, w[k]? = some f → f = some tokenStar ∨ f = turn bindingKey (j + k) := by
  have hstep {j i : ℕ} {n c m : Node} {f : BindingKeyFragment} (hc : (f, c) ∈ n.kids)
      (hf : f = some tokenStar ∨ f = turn bindingKey j)
      (h : ∃ w : List BindingKeyFragment, j + 1 + w.length = i ∧
        (∀ q id, m.Stored q id → c.Stored (w ++ q) id) ∧
        ∀ k f, w[k]? = some f → f = some tokenStar ∨ f = turn bindingKey (j + 1 + k)) :
      ∃ w : List BindingKeyFragment, j + w.length = i ∧
        (∀ q id, m.Stored q id → n.Stored (w ++ q) id) ∧
        ∀ k f, w[k]? = some f → f = some tokenStar ∨ f = turn bindingKey (j + k) := by
    obtain ⟨w, hlen, hstored, hlabels⟩ := h
    refine ⟨f :: w, by rw [List.length_cons]; omega, fun q id hq => ?_, fun k g hg => ?_⟩
    · exact Node.stored_cons.mpr ⟨c, hc, hstored q id hq⟩
    · rcases k with _ | k
      · obtain rfl := Option.some.inj hg
        exact hf
      · rw [show j + (k + 1) = j + 1 + k by omega]
        exact hlabels k g hg
  induction h with
  | here => exact ⟨[], rfl, fun q id hq => hq, fun k f hf => by simp at hf⟩
  | star _ hc _ ih =>
    have hmem := Node.mem_kids.mpr (Or.inr (Or.inl ⟨rfl, hc⟩))
    exact hstep hmem (Or.inl rfl) (ih (hs.child hmem))
  | child _ hc _ ih =>
    have hmem := Node.found_mem_kids hs hc
    exact hstep hmem (Or.inr rfl) (ih (hs.child hmem))

/-- No visit leaves the key behind. -/
theorem Visits.le {fs : List CString} {m : Node} (h : Visits (some fs) j n i m) (hne : fs ≠ [])
    (hj : j ≤ fs.length) : i ≤ fs.length := by
  induction h with
  | here => exact hj
  | star hl _ _ ih => exact ih (lt_of_not_leaf hne hj hl)
  | child hl _ _ ih => exact ih (lt_of_not_leaf hne hj hl)

/-- A visit comes to sound nodes. -/
theorem Visits.sound {m : Node} (h : Visits bindingKey j n i m) (hs : n.Sound j) : m.Sound i := by
  induction h with
  | here => exact hs
  | star _ hc _ ih => exact ih (hs.child (Node.mem_kids.mpr (Or.inr (Or.inl ⟨rfl, hc⟩))))
  | child _ hc _ ih => exact ih (hs.child (Node.found_mem_kids hs hc))

/-- Only what is stored is collected. -/
theorem Collects.stored (h : Collects bindingKey j n id) (hs : n.Sound j) :
    ∃ q, n.Stored q id := by
  obtain ⟨i, m, hvisit, hoffer⟩ := h
  obtain ⟨w, -, hstored, -⟩ := hvisit.path hs
  rcases hoffer with ⟨-, hid⟩ | ⟨-, -, q, hq⟩
  · exact ⟨_, hstored [] id (Node.stored_nil.mpr hid)⟩
  · exact ⟨_, hstored q id hq⟩

/-- A search and what is done with the child that it finds. -/
theorem getChildNode_then (hn : n.Shape) {β : Type} (bindingKey : BindingKey) (i : ℕ) (b : β)
    (k : Node → Except Fault β) :
    (do
      match ← getChildNode n bindingKey i with
      | none => .ok b
      | some ref => do
        match ← readChild n ref with
        | none => .ok b
        | some child => k child) = (n.found bindingKey i).elim (.ok b) k := by
  obtain ⟨r, hget, hnone, hsome⟩ := getChildNode_found hn bindingKey i
  rw [hget, Fallible.ok_bind]
  rcases r with _ | ref
  · rw [hnone rfl]
    rfl
  · simp only [hsome ref rfl, Fallible.ok_bind]
    rcases n.found bindingKey i with _ | c
    · rfl
    · rfl

/-- A visit of a child, if there is one. -/
theorem Gathers.child (visit : PeerList → Node → Except Fault PeerList) {o : Option Node}
    {S : Node → PeerId → Prop} (h : ∀ c, o = some c → Gathers (fun peers => visit peers c) (S c)) :
    Gathers (fun peers => o.elim (.ok peers) (visit peers)) fun id => ∃ c, o = some c ∧ S c id := by
  rcases o with _ | c
  · exact Gathers.nothing.congr (by simp)
  · exact (h c rfl).congr (by simp)

/-- The steps of a collection at a node that is no leaf. -/
theorem collect_eq (hindex : n.fragmentIndex = j - 1) (hn : n.Shape)
    (hleaf : ¬Leaf bindingKey j) (k : ℕ) (peers : PeerList) :
    collect bindingKey (k + 1) (decide (j = 0)) peers n =
      (n.sharpNode.elim (.ok peers) (fun _ => offerAll n.height peers n) >>= fun peers =>
        n.starNode.elim (.ok peers) (collect bindingKey k false peers)) >>= fun peers =>
          (n.found bindingKey n.fragmentIndex).elim (.ok peers)
            (collect bindingKey k false peers) := by
  have hthen := fun peers => getChildNode_then hn bindingKey n.fragmentIndex peers
    (collect bindingKey k false peers)
  have hstar : ∀ peers, (do
      let peers ← match n.starNode with
        | none => .ok peers
        | some starNode => collect bindingKey k false peers starNode
      match ← getChildNode n bindingKey n.fragmentIndex with
      | none => .ok peers
      | some ref => do
        match ← readChild n ref with
        | none => .ok peers
        | some child => collect bindingKey k false peers child) =
      n.starNode.elim (.ok peers) (collect bindingKey k false peers) >>= fun peers =>
        (n.found bindingKey n.fragmentIndex).elim (.ok peers)
          (collect bindingKey k false peers) := by
    intro peers
    rcases n.starNode with _ | star
    · exact hthen peers
    · exact congrArg _ (funext hthen)
  rw [collect, if_neg (by rwa [isLeaf_iff_of_index hindex])]
  rcases n.sharpNode with _ | sharp
  · exact hstar peers
  · rw [bind_assoc]
    exact congrArg _ (funext hstar)

/-- **What a key collects.** -/
theorem collect_spec (h : n.Sound j) (hfuel : n.height ≤ fuel) :
    Gathers (fun peers => collect bindingKey fuel (decide (j = 0)) peers n)
      (Collects bindingKey j n) := by
  induction h generalizing fuel with
  | @mk j n hn hkids ih =>
    have hpos := n.height_pos
    have hs : n.Sound j := Trie.Everywhere.mk hn hkids
    obtain ⟨k, rfl⟩ := Nat.exists_eq_add_one_of_ne_zero (show fuel ≠ 0 by omega)
    by_cases hleaf : Leaf bindingKey j
    · have hrun : (fun peers => collect bindingKey (k + 1) (decide (j = 0)) peers n) =
          fun peers => peers.offer n.peers := by
        funext peers
        rw [collect, if_pos ((isLeaf_iff hn).mpr hleaf)]
      rw [hrun]
      exact (offer_spec hn.peers).congr fun id => (collects_leaf hleaf).symm
    · have hsub : ∀ f c, (f, c) ∈ n.kids →
          Gathers (fun peers => collect bindingKey k false peers c)
            (Collects bindingKey (j + 1) c) := by
        intro f c hc
        have hlt := Node.height_lt_of_kids hc
        exact ih f c hc (by omega)
      rw [funext (collect_eq hn.index hn.shape hleaf k)]
      have hsharp : Gathers (fun peers => n.sharpNode.elim (.ok peers) fun _ =>
          offerAll n.height peers n) fun id => ∃ c, n.sharpNode = some c ∧ ∃ q, n.Stored q id :=
        Gathers.child _ fun c _ => offerAll_spec hs (Nat.le_refl _)
      have hstar := Gathers.child (collect bindingKey k false)
        fun c (hc : n.starNode = some c) =>
          hsub (some tokenStar) c (Node.mem_kids.mpr (Or.inr (Or.inl ⟨rfl, hc⟩)))
      have hchild := Gathers.child (collect bindingKey k false)
        fun c (hc : n.found bindingKey n.fragmentIndex = some c) =>
          hsub _ c (Node.found_mem_kids hs hc)
      refine ((hsharp.seq hstar).seq hchild).congr fun id => ?_
      rw [collects_iff hleaf, Option.isSome_iff_exists, exists_and_right]

end PeerSubscriptionTree

end Cebus
