import Mathlib.Data.Nat.Find
import Cebus.Subscription.Delivery
import Cebus.Subscription.Routing

/-!
# Looking up a key that was added

A search looks for a token in the fragment before, so that behind a `*` it looks for another
star child and misses a literal one.

* `routes_iff_leads`: where the children are distinct, the subscriptions that a key leads to
  can be read off the additions.
* `findsOwn_iff`: when the peer of an addition is found under the key of the addition.
-/

namespace Cebus.PeerSubscriptionTree

open LinkedList PeerList Transition

variable {n m c : Node} {i j : ℕ} {fs gs : List CString} {id : PeerId}
  {t : PeerSubscriptionTree} {as : List Subscription} {a : Subscription}

/-- The list for the key of an addition, after all of them, contains the peer of the addition. -/
def FindsOwn (count garbage : ℕ) (as : List Subscription) (a : Subscription) : Prop :=
  ∃ t peers, run addStep (init count) as = some t ∧ getPeers garbage t a.key = .ok peers ∧
    a.peer.peerId ∈ peers.ids

/-- A key was added that goes on with `#` after the first `i` fragments of `gs`. -/
def SharpAt (as : List Subscription) (gs : List CString) (i : ℕ) : Prop :=
  ∃ b ∈ as, ∃ hs, b.key.norm = some hs ∧ hs.take i = gs.take i ∧ hs[i]? = some tokenSharp

/-- No literal fragment of the key is right behind a `*`, unless a key was added that goes on
    with `#` before it. -/
def Unhindered (as : List Subscription) (fs : List CString) : Prop :=
  ∀ j f, fs[j]? = some tokenStar → fs[j + 1]? = some f → f ≠ tokenStar → f ≠ tokenSharp →
    ∃ i ≤ j + 1, SharpAt as fs i

/-- Each of the first `i` fragments of `gs` is a `*` or what a search for `fs` looks for. -/
def Follows (fs gs : List CString) (i : ℕ) : Prop :=
  ∀ k < i, ∃ g, gs[k]? = some g ∧ (g = tokenStar ∨ turn (some fs) k = some g)

/-- The key `fs` leads to the end of `gs`, or past a node with a sharp child that `gs` passes. -/
def Leads (as : List Subscription) (fs gs : List CString) : Prop :=
  ∃ i, Follows fs gs i ∧ ((i = fs.length ∧ gs.length = i) ∨ (i < fs.length ∧ SharpAt as gs i))

/-- The peer was added under another key too, to which the key `fs` leads. -/
def Elsewhere (as : List Subscription) (a : Subscription) (fs : List CString) : Prop :=
  ∃ b ∈ as, b.peer.peerId = a.peer.peerId ∧ b.key.norm ≠ a.key.norm ∧
    ∀ gs, b.key.norm = some gs → Leads as fs gs

/-! ## Ways through the tree -/

/-- Where the children are distinct, a path that is stored and follows the key is visited. -/
theorem visits_of_stored (hs : n.Sound j) (hsep : n.Separate j) {w : List CString}
    (hlen : j + w.length ≤ fs.length)
    (hw : ∀ k g, w[k]? = some g → g = tokenStar ∨ turn (some fs) (j + k) = some g)
    {q : List BindingKeyFragment} {x : PeerId} (hstored : n.Stored (w.map some ++ q) x) :
    ∃ m, Visits (some fs) j n (j + w.length) m ∧
      ∀ q id, n.Stored (w.map some ++ q) id ↔ m.Stored q id := by
  induction w generalizing n j with
  | nil => exact ⟨n, Visits.here, fun q id => Iff.rfl⟩
  | cons f w ih =>
    rw [List.length_cons] at hlen
    have hleaf : ¬Leaf (some fs) j := not_leaf_of_lt (by omega)
    obtain ⟨c, hc, hcs⟩ := Node.stored_cons.mp hstored
    have hrest : ∀ k g, w[k]? = some g → g = tokenStar ∨ turn (some fs) (j + 1 + k) = some g := by
      intro k g hg
      rw [show j + 1 + k = j + (k + 1) by omega]
      exact hw (k + 1) g hg
    obtain ⟨m, hvisit, hm⟩ := ih (hs.child hc) (hsep.child hc) (by omega) hrest hcs
    have hiff : ∀ q id, n.Stored ((f :: w).map some ++ q) id ↔ m.Stored q id := by
      intro q id
      rw [← hm]
      exact hsep.here.stored_cons hc
    rw [List.length_cons, show j + (w.length + 1) = j + 1 + w.length by omega]
    rcases hw 0 f rfl with rfl | hturn
    · rw [hs.here.literals.mem_kids, if_neg BindingKey.tokenStar_ne_tokenSharp, if_pos rfl] at hc
      exact ⟨m, Visits.star hleaf hc hvisit, hiff⟩
    · rw [← hturn, Nat.add_zero] at hc
      exact ⟨m, Visits.child hleaf ((Node.found_iff hs hsep.here).mpr hc) hvisit, hiff⟩

/-! ## What a key leads to -/

/-- There is a sharp child below a node exactly where something is stored below it. -/
theorem sharp_iff_stored (hs : n.Sound j) :
    n.sharpNode.isSome ↔ ∃ q id, n.Stored (some tokenSharp :: q) id := by
  have hkids (c : Node) : (some tokenSharp, c) ∈ n.kids ↔ n.sharpNode = some c := by
    rw [hs.here.literals.mem_kids, if_pos rfl]
  constructor
  · intro h
    obtain ⟨c, hc⟩ := Option.isSome_iff_exists.mp h
    obtain ⟨q, id, hq⟩ := hs.here.used _ c ((hkids c).mpr hc)
    exact ⟨q, id, Node.stored_cons.mpr ⟨c, (hkids c).mpr hc, hq⟩⟩
  · rintro ⟨q, id, hq⟩
    obtain ⟨c, hc, -⟩ := Node.stored_cons.mp hq
    rw [(hkids c).mp hc]
    rfl

/-- What is stored behind the first `i` fragments of `gs` and a `#`. -/
theorem sharpAt_iff (hr : t.Represents (Subscribers.ofList as)) (hi : i ≤ gs.length) :
    SharpAt as gs i ↔
      ∃ q id, t.root.Stored ((gs.take i).map some ++ some tokenSharp :: q) id := by
  have hlen : (gs.take i).length = i := by
    rw [List.length_take]
    omega
  constructor
  · rintro ⟨b, hb, hs, hnorm, htake, hsharp⟩
    refine ⟨(hs.drop (i + 1)).map some, b.peer.peerId, ?_⟩
    refine (hr.stored _ _).mpr ⟨hs, ?_, b, hb, hnorm, rfl⟩
    obtain ⟨hlt, hget⟩ := List.getElem?_eq_some_iff.mp hsharp
    rw [← htake, ← List.map_cons, ← List.map_append, ← hget, ← List.drop_eq_getElem_cons hlt,
      List.take_append_drop]
  · rintro ⟨q, id, hq⟩
    obtain ⟨hs, heq, b, hb, hnorm, -⟩ := (hr.stored _ _).mp hq
    have htake := congrArg (List.take i) heq
    have hget := congrArg (·[i]?) heq
    rw [List.take_left' (by rw [List.length_map, hlen]), ← List.map_take] at htake
    simp only [List.getElem?_append_right (show ((gs.take i).map some).length ≤ i by
      rw [List.length_map, hlen]), List.length_map, hlen, Nat.sub_self, List.getElem?_cons_zero,
      List.getElem?_map] at hget
    refine ⟨b, hb, hs, hnorm, ?_, ?_⟩
    · exact (List.map_injective_iff.mpr (fun _ _ => Option.some.inj) htake).symm
    · obtain ⟨g, hg, hsome⟩ := Option.map_eq_some_iff.mp hget.symm
      rw [hg, Option.some.inj hsome]

theorem Follows.le (h : Follows fs gs i) : i ≤ gs.length := by
  rcases i with _ | i
  · exact Nat.zero_le _
  · obtain ⟨g, hg, -⟩ := h i (Nat.lt_succ_self i)
    exact (List.getElem?_eq_some_iff.mp hg).1

/-- The labels of a visited path, if they are the first fragments of `gs`. -/
theorem follows_of_labels {w q : List BindingKeyFragment} (hlen : w.length = i)
    (hlabels : ∀ k x, w[k]? = some x → x = some tokenStar ∨ x = turn (some fs) k)
    (heq : w ++ q = gs.map some) : w = (gs.take i).map some ∧ Follows fs gs i := by
  have hw : w = (gs.take i).map some := by
    rw [List.map_take, ← heq, List.take_left' hlen]
  refine ⟨hw, fun k hk => ?_⟩
  have hk' : k < (gs.take i).length := by
    rw [← List.length_map some, ← hw]
    omega
  have hget : w[k]? = some (some (gs.take i)[k]) := by
    rw [hw, List.getElem?_map, List.getElem?_eq_getElem hk']
    rfl
  refine ⟨(gs.take i)[k], ?_, ?_⟩
  · rw [← List.getElem?_take_of_lt hk, List.getElem?_eq_getElem hk']
  · have hlabel := hlabels k _ hget
    rw [Option.some_inj, eq_comm (a := some _)] at hlabel
    exact hlabel

theorem leads_of_collects (hr : t.Represents (Subscribers.ofList as)) (hne : fs ≠ [])
    (h : Collects (some fs) 0 t.root id) :
    ∃ gs, Subscribers.ofList as (some gs) id ∧ Leads as fs gs := by
  obtain ⟨i, m, hvisit, hoffer⟩ := h
  obtain ⟨w, hlen, hstored, hlabels⟩ := hvisit.path hr.root
  simp only [Nat.zero_add] at hlen hlabels
  rcases hoffer with ⟨hleaf, hid⟩ | ⟨hleaf, hsharp, q, hq⟩
  · obtain ⟨gs, heq, hgs⟩ := (hr.stored _ _).mp (hstored [] id (Node.stored_nil.mpr hid))
    have hend : gs.length = i := by
      have := congrArg List.length heq
      rw [List.append_nil, List.length_map] at this
      omega
    exact ⟨gs, hgs, i, (follows_of_labels hlen hlabels heq).2, Or.inl ⟨hleaf.2, hend⟩⟩
  · obtain ⟨gs, heq, hgs⟩ := (hr.stored _ _).mp (hstored q id hq)
    obtain ⟨hw, hfollows⟩ := follows_of_labels hlen hlabels heq
    have hlt := lt_of_not_leaf hne (hvisit.le hne (Nat.zero_le _)) hleaf
    obtain ⟨q', id', hq'⟩ := (sharp_iff_stored (hvisit.sound hr.root)).mp hsharp
    have hbelow := hstored _ _ hq'
    rw [hw] at hbelow
    exact ⟨gs, hgs, i, hfollows, Or.inr ⟨hlt, (sharpAt_iff hr hfollows.le).mpr ⟨q', id', hbelow⟩⟩⟩

theorem collects_of_leads (hr : t.Represents (Subscribers.ofList as)) (hsep : t.Separate)
    (hne : fs ≠ []) (hgs : Subscribers.ofList as (some gs) id) (hleads : Leads as fs gs) :
    Collects (some fs) 0 t.root id := by
  obtain ⟨i, hfollows, hend⟩ := hleads
  have hlen : (gs.take i).length = i := by
    rw [List.length_take]
    have := hfollows.le
    omega
  have hstored := (hr.stored (gs.map some) id).mpr ⟨gs, rfl, hgs⟩
  rw [← List.take_append_drop i gs, List.map_append] at hstored
  have hle : 0 + (gs.take i).length ≤ fs.length := by
    rcases hend with ⟨hi, -⟩ | ⟨hi, -⟩
    · omega
    · omega
  have hlabels : ∀ k g, (gs.take i)[k]? = some g →
      g = tokenStar ∨ turn (some fs) (0 + k) = some g := by
    intro k g hg
    have hk : k < i := by
      obtain ⟨hk, -⟩ := List.getElem?_eq_some_iff.mp hg
      omega
    obtain ⟨g', hg', h⟩ := hfollows k hk
    rw [List.getElem?_take_of_lt hk, hg'] at hg
    obtain rfl := Option.some.inj hg
    rwa [Nat.zero_add]
  obtain ⟨m, hvisit, hm⟩ := visits_of_stored hr.root hsep hle hlabels hstored
  rw [Nat.zero_add, hlen] at hvisit
  refine ⟨i, m, hvisit, ?_⟩
  rcases hend with ⟨hi, hend⟩ | ⟨hi, hsharp⟩
  · have hpos := List.length_pos_iff.mpr hne
    have hm := (hm _ id).mp hstored
    rw [List.drop_eq_nil_iff.mpr (by omega)] at hm
    exact Or.inl ⟨⟨by omega, hi⟩, Node.stored_nil.mp hm⟩
  · obtain ⟨q, id', hq⟩ := (sharpAt_iff hr hfollows.le).mp hsharp
    exact Or.inr ⟨not_leaf_of_lt hi,
      (sharp_iff_stored (hvisit.sound hr.root)).mpr ⟨q, id', (hm _ _).mp hq⟩,
      _, (hm _ _).mp hstored⟩

/-- **What a key collects**, read off the additions. -/
theorem collects_iff_leads (hr : t.Represents (Subscribers.ofList as)) (hsep : t.Separate)
    (hne : fs ≠ []) : Collects (some fs) 0 t.root id ↔
      ∃ gs, Subscribers.ofList as (some gs) id ∧ Leads as fs gs :=
  ⟨leads_of_collects hr hne, fun ⟨_, hgs, hleads⟩ => collects_of_leads hr hsep hne hgs hleads⟩

/-- **Where the children are distinct**, a key is routed to the peers of the empty key and of
    the keys that it leads to. -/
theorem routes_iff_leads (hr : t.Represents (Subscribers.ofList as)) (hsep : t.Separate)
    (hne : fs ≠ []) (hempty : ¬BindingKey.isEmpty (some fs) = true) :
    t.Routes (some fs) id ↔ ∃ b ∈ as, b.peer.peerId = id ∧
      ∀ gs, b.key.norm = some gs → Leads as fs gs := by
  rw [Routes, if_neg hempty, hr.all, collects_iff_leads hr hsep hne]
  constructor
  · rintro (⟨b, hb, hnorm, hid⟩ | ⟨gs, ⟨b, hb, hnorm, hid⟩, hleads⟩)
    · refine ⟨b, hb, hid, fun gs hgs => ?_⟩
      cases hnorm.symm.trans hgs
    · refine ⟨b, hb, hid, fun gs' hgs => ?_⟩
      obtain rfl := Option.some.inj (hnorm.symm.trans hgs)
      exact hleads
  · rintro ⟨b, hb, hid, hleads⟩
    rcases hnorm : b.key.norm with _ | gs
    · exact Or.inl ⟨b, hb, hnorm, hid⟩
    · exact Or.inr ⟨gs, ⟨b, hb, hnorm, hid⟩, hleads gs hnorm⟩

/-! ## The own key -/

/-- What a search looks for behind a fragment that is no token. -/
theorem turn_of_plain {f : CString} (hf : fs[j]? = some f) (hsharp : f ≠ tokenSharp)
    (hstar : f ≠ tokenStar) (hbefore : 0 < j → fs[j - 1]? ≠ some tokenSharp ∧
      fs[j - 1]? ≠ some tokenStar) : turn (some fs) j = some f := by
  have hhere : BindingKey.getFragment (some fs) j = some f := hf
  have hbefore : BindingKey.getFragment (some fs) (j - 1) ≠ some tokenSharp ∧
      BindingKey.getFragment (some fs) (j - 1) ≠ some tokenStar := by
    rcases Nat.eq_zero_or_pos j with rfl | hpos
    · rw [Nat.zero_sub, hhere, Ne, Option.some_inj, Ne, Option.some_inj]
      exact ⟨hsharp, hstar⟩
    · exact hbefore hpos
  have htoken : ¬(some f = some tokenSharp ∨ some f = some tokenStar) := by
    rw [Option.some_inj, Option.some_inj]
    exact not_or_intro hsharp hstar
  rw [turn, if_neg hbefore.1, if_neg hbefore.2, hhere, if_neg htoken]

/-- The fragment is `#`, or a literal one right behind a `*`. -/
def Stops (fs : List CString) (k : ℕ) : Prop :=
  fs[k]? = some tokenSharp ∨ (0 < k ∧ fs[k - 1]? = some tokenStar ∧
    ∃ f, fs[k]? = some f ∧ f ≠ tokenStar ∧ f ≠ tokenSharp)

/-- Up to the first such fragment a key follows itself. -/
theorem follows_self (hi : i ≤ fs.length) (h : ∀ k < i, ¬Stops fs k) : Follows fs fs i := by
  intro k hk
  have hlt : k < fs.length := by omega
  have hf := List.getElem?_eq_getElem hlt
  refine ⟨fs[k], hf, ?_⟩
  by_cases hstar : fs[k] = tokenStar
  · exact Or.inl hstar
  right
  have hsharp : fs[k] ≠ tokenSharp := by
    intro heq
    exact h k hk (Or.inl (by rw [hf, heq]))
  refine turn_of_plain hf hsharp hstar fun hpos => ⟨fun hbefore => ?_, fun hbefore => ?_⟩
  · exact h (k - 1) (by omega) (Or.inl hbefore)
  · exact h k hk (Or.inr ⟨hpos, hbefore, fs[k], hf, hstar, hsharp⟩)

/-- A key leads to itself if its literal fragments are not hindered. -/
theorem leads_self_iff (ha : a ∈ as) (hnorm : a.key.norm = some fs) :
    Leads as fs fs ↔ Unhindered as fs := by
  constructor
  · rintro ⟨i, hfollows, hend⟩ j f hj hf hstar hsharp
    have hlt : j + 1 < fs.length := (List.getElem?_eq_some_iff.mp hf).1
    have hi : i ≤ j + 1 := by
      by_contra hi
      obtain ⟨g, hg, h⟩ := hfollows (j + 1) (by omega)
      obtain rfl := Option.some.inj (hf.symm.trans hg)
      have hturn : turn (some fs) (j + 1) = some tokenStar := by
        have hj : BindingKey.getFragment (some fs) (j + 1 - 1) = some tokenStar := hj
        rw [turn, hj, if_neg (by simp [BindingKey.tokenStar_ne_tokenSharp]), if_pos rfl]
      rcases h with h | h
      · exact hstar h
      · exact hstar (Option.some.inj (h.symm.trans hturn))
    rcases hend with ⟨heq, -⟩ | ⟨-, h⟩
    · omega
    · exact ⟨i, hi, h⟩
  · intro h
    by_cases hstop : ∃ k, Stops fs k
    · classical
      -- a way that ends at the first stop, or before it, has a sharp child beside it
      have hfirst : ∀ k < Nat.find hstop, ¬Stops fs k := fun k hk => Nat.find_min hstop hk
      obtain ⟨i, hi, hlt, hsharp⟩ :
          ∃ i ≤ Nat.find hstop, i < fs.length ∧ SharpAt as fs i := by
        rcases Nat.find_spec hstop with hsharp | ⟨hpos, hstar, f, hf, hplain⟩
        · have hlt := (List.getElem?_eq_some_iff.mp hsharp).1
          exact ⟨_, Nat.le_refl _, hlt, a, ha, fs, hnorm, rfl, hsharp⟩
        · have hlt := (List.getElem?_eq_some_iff.mp hf).1
          obtain ⟨k, hk⟩ := Nat.exists_eq_add_one_of_ne_zero (Nat.ne_of_gt hpos)
          rw [hk, Nat.add_sub_cancel] at hstar
          rw [hk] at hf
          obtain ⟨i, hi, hsharp⟩ := h k f hstar hf hplain.1 hplain.2
          exact ⟨i, by omega, by omega, hsharp⟩
      exact ⟨i, follows_self (by omega) fun k hk => hfirst k (by omega), Or.inr ⟨hlt, hsharp⟩⟩
    · refine ⟨fs.length, follows_self (Nat.le_refl _) fun k _ hk => hstop ⟨k, hk⟩, ?_⟩
      exact Or.inl ⟨rfl, rfl⟩

/-- **The peer of an addition is found under its own key** exactly when no literal fragment
    behind a `*` hinders the search or the key leads to another addition of this peer, if
    every addition goes to the child that there is under a fragment. -/
theorem findsOwn_iff (count garbage : ℕ) (as : List Subscription)
    (hreuses : Guarded addStep (fun t a => t.reuses a = true) (init count) as)
    (a : Subscription) (ha : a ∈ as) (fs : List CString) (hkey : a.key = some fs) :
    FindsOwn count garbage as a ↔ Unhindered as fs ∨ Elsewhere as a fs := by
  obtain ⟨t, hrun, hr, hsep⟩ := reaches_of_reuses count hreuses
  obtain ⟨peers, hget, hids⟩ := getPeers_spec hr garbage a.key
  have hfinds : FindsOwn count garbage as a ↔ t.Routes a.key a.peer.peerId := by
    rw [← hids]
    constructor
    · rintro ⟨t₁, peers₁, hrun₁, hget₁, hmem⟩
      obtain rfl := Option.some.inj (hrun.symm.trans hrun₁)
      obtain rfl := Except.ok.inj (hget.symm.trans hget₁)
      exact hmem
    · exact fun hmem => ⟨t, peers, hrun, hget, hmem⟩
  have hne : fs ≠ [] := by
    rintro rfl
    exact a.nonempty hkey
  rw [hfinds]
  rcases Subscription.key_cases a with ⟨hempty, -⟩ | ⟨gs, hgs, -, hempty, hnorm⟩
  · -- the key `#` has no literal fragment, and reaches everybody
    refine iff_of_true (routes_of_isEmpty hr hempty ha) (Or.inl fun j f hj => ?_)
    rw [hkey, BindingKey.isEmpty_some] at hempty
    subst hempty
    have hmem := List.mem_singleton.mp (List.mem_of_getElem? hj)
    exact absurd hmem BindingKey.tokenStar_ne_tokenSharp
  · obtain rfl := Option.some.inj (hkey.symm.trans hgs)
    rw [hkey] at hempty ⊢
    rw [routes_iff_leads hr hsep hne (by simp [hempty])]
    constructor
    · rintro ⟨b, hb, hid, hleads⟩
      by_cases hsame : b.key.norm = a.key.norm
      · exact Or.inl ((leads_self_iff ha hnorm).mp (hleads fs (hsame.trans hnorm)))
      · exact Or.inr ⟨b, hb, hid, hsame, hleads⟩
    · rintro (h | ⟨b, hb, hid, -, hleads⟩)
      · refine ⟨a, ha, rfl, fun gs hgs => ?_⟩
        obtain rfl := Option.some.inj (hnorm.symm.trans hgs)
        exact (leads_self_iff ha hnorm).mpr h
      · exact ⟨b, hb, hid, hleads⟩

/-- The key `*.a` with the peer `p`. -/
def behindStar : Subscription :=
  ⟨peerNamed 'p', some [tokenStar, CString.ofChars ['a']], plain_peerNamed,
    fun h => List.cons_ne_nil _ _ (Option.some.inj h)⟩

/-- A peer can be missed under its own key. -/
theorem not_always_findsOwn :
    ¬∀ count garbage as, ∀ a ∈ as, a.key ≠ none → FindsOwn count garbage as a := by
  intro h
  obtain ⟨t, peers, hrun, hget, hmem⟩ :=
    h 0 0 [behindStar] behindStar (by simp) (by simp [behindStar])
  have hids : (run addStep (init 0) [behindStar]).bind (fun t =>
      (getPeers 0 t behindStar.key).toOption.map ids) = some [] := by decide +kernel
  rw [hrun, Option.bind_some, hget] at hids
  have hnil : peers.ids = [] := Option.some.inj hids
  rw [hnil] at hmem
  cases hmem

/-- Beside a key that goes on with `#` there, a literal fragment behind a `*` does no harm. -/
theorem findsOwn_besideSharp :
    FindsOwn 0 0 [behindStar, ⟨peerNamed 'q', some [tokenStar, tokenSharp], by decide, by simp⟩]
      behindStar := by
  refine (findsOwn_iff 0 0 _ (by decide +kernel) behindStar (by simp) _ rfl).mpr (Or.inl ?_)
  intro j f hj hf _ _
  refine ⟨1, by omega, ⟨peerNamed 'q', some [tokenStar, tokenSharp], by decide, by simp⟩, by simp,
    [tokenStar, tokenSharp], ?_, rfl, rfl⟩
  decide

end Cebus.PeerSubscriptionTree
