import Cebus.Peer.Peer
import Mathlib.Data.List.Nodup

/-!
# What the operations on lists of peers do

* `PeerList.insert_spec`: the ids of a list after an insertion.
* `PeerList.offer_spec`: the ids that the collector's list gets by an offer.
* `PeerList.remove_spec`: the ids of a list after a removal, of an entry that is
  not the second.
-/

namespace Cebus

open LinkedList

/-! ## Peers -/

theorem peerIdEq_iff {lhs rhs : PeerId} : peerIdEq lhs rhs = true ↔ lhs = rhs := by
  have hl := lhs.length_lt
  have hr := rhs.length_lt
  rw [peerIdEq, CString.strncmpEq, CString.take_of_length_le (by omega),
    CString.take_of_length_le (by omega), decide_eq_true_iff, PeerId.mk.injEq]

theorem peerCopy_plain {peer : Peer} (h : peer.peerId.value.Plain) :
    ∃ copy, peerCopy peer = .ok copy ∧ copy.peerId = peer.peerId := by
  rw [peerCopy, peerIdCopy, peerIdSet_value h]
  exact ⟨_, rfl, rfl⟩

namespace PeerList

variable {l l' : PeerList} {peer : Peer} {id : PeerId}

/-! ## Sound lists -/

/-- The entries from `head` on, with their addresses. -/
def peers (l : PeerList) : List (ℕ × Peer) := cells l.entries l.head

/-- The ids of the entries. -/
def ids (l : PeerList) : List PeerId := l.peers.map (·.2.peerId)

/-- The entries form a chain and differ in their ids, which contain no `%`. -/
structure Sound (l : PeerList) : Prop where
  chain : Chain l.entries l.head l.peers
  nodup : l.ids.Nodup
  plain : ∀ id ∈ l.ids, id.value.Plain

/-- `tail` is the last entry. -/
def TailOk (l : PeerList) : Prop := l.tail = lastAddr none l.peers

instance (l : PeerList) : Decidable l.TailOk :=
  inferInstanceAs (Decidable (l.tail = lastAddr none l.peers))

/-- The counter counts the entries. -/
def Counted (l : PeerList) : Prop := l.count = l.ids.length

theorem ids_of_chain {ps : List (ℕ × Peer)} (h : Chain l.entries l.head ps) :
    l.ids = ps.map (·.2.peerId) := by
  rw [ids, peers, h.cells_eq]

theorem sound_of_chain {ps : List (ℕ × Peer)} (h : Chain l.entries l.head ps)
    (hnd : (ps.map (·.2.peerId)).Nodup) (hplain : ∀ p ∈ ps, p.2.peerId.value.Plain) :
    Sound l where
  chain := h.self
  nodup := by rwa [ids_of_chain h]
  plain id hid := by
    rw [ids_of_chain h] at hid
    obtain ⟨p, hp, rfl⟩ := List.mem_map.mp hid
    exact hplain p hp

theorem Sound.plain_peer (h : Sound l) : ∀ p ∈ l.peers, p.2.peerId.value.Plain :=
  fun _ hp => h.plain _ (List.mem_map_of_mem hp)

theorem init_chain (count : ℕ) : Chain (init count).entries (init count).head [] := rfl

@[simp] theorem init_ids (count : ℕ) : (init count).ids = [] := ids_of_chain (init_chain count)

theorem init_sound (count : ℕ) : Sound (init count) :=
  sound_of_chain (init_chain count) (by simp) (by simp)

theorem init_tailOk (count : ℕ) : TailOk (init count) := rfl

/-! ## Insertion -/

/-- `cb_peer_list_add` appends a clone if `tail` is the last entry. -/
theorem add_chain {clone : Peer} (h : Chain l.entries l.head l.peers) (ht : TailOk l)
    (hclone : peerClone peer = .ok clone) :
    ∃ l' a, add l peer = .ok l' ∧ Chain l'.entries l'.head (l.peers ++ [(a, clone)]) ∧
      TailOk l' ∧ l'.count = l.count + 1 := by
  rw [TailOk] at ht
  rw [add, hclone, Fallible.ok_bind]
  -- the list is empty or has a last entry
  rcases List.eq_nil_or_concat l.peers with hnil | ⟨ps, ⟨a, x⟩, hconcat⟩
  · rw [hnil] at h ht ⊢
    rw [ht, lastAddr_nil]
    have hchain' : Chain (l.entries.alloc ⟨clone, none⟩) (some l.entries.length)
        [(l.entries.length, clone)] := Chain.cons (p := none) rfl
    refine ⟨_, _, rfl, hchain', ?_, rfl⟩
    rw [TailOk, peers, hchain'.cells_eq]
    rfl
  · rw [List.concat_eq_append] at hconcat
    rw [hconcat] at h ht ⊢
    rw [ht, lastAddr_concat]
    obtain ⟨r, -, rfl, n, hn, hnone⟩ := segment_append.mp h
    obtain rfl : n = none := hnone
    have hchain' := h.snoc (y := clone)
    simp only [Mem.get_of_read hn, Fallible.ok_bind]
    refine ⟨_, _, rfl, hchain', ?_, rfl⟩
    rw [TailOk, peers, hchain'.cells_eq, lastAddr_concat]

/-- A new id comes last. -/
theorem add_spec (h : Sound l) (ht : TailOk l) (hp : peer.peerId.value.Plain)
    (hnew : peer.peerId ∉ l.ids) :
    ∃ l', add l peer = .ok l' ∧ Sound l' ∧ TailOk l' ∧ l'.ids = l.ids ++ [peer.peerId] ∧
      l'.count = l.count + 1 := by
  obtain ⟨clone, hclone, hid⟩ := peerCopy_plain hp
  obtain ⟨l', a, hadd, hchain, htail, hcount⟩ := add_chain h.chain ht hclone
  have hids : (l.peers ++ [(a, clone)]).map (·.2.peerId) = l.ids ++ [peer.peerId] := by
    rw [List.map_append, List.map_singleton, hid, ids]
  refine ⟨l', hadd, sound_of_chain hchain ?_ ?_, htail, by rw [ids_of_chain hchain, hids], hcount⟩
  · rw [hids]
    exact List.Nodup.append h.nodup (List.nodup_singleton _) (by simpa using hnew)
  · intro p hmem
    rcases List.mem_append.mp hmem with hmem | hmem
    · exact h.plain_peer p hmem
    · rw [List.mem_singleton.mp hmem, hid]
      exact hp

/-- The first entry with the id, if there is one. -/
theorem find_id {ps : List (ℕ × Peer)} (hid : id ∈ ps.map (·.2.peerId)) :
    ∃ ps₁ a x ps₂, ps = ps₁ ++ (a, x) :: ps₂ ∧ x.peerId = id ∧
      ∀ p ∈ ps₁, p.2.peerId ≠ id := by
  obtain ⟨q, hq, hqid⟩ := List.mem_map.mp hid
  have hsome : (ps.find? (·.2.peerId = id)).isSome := by
    rw [List.find?_isSome]
    exact ⟨q, hq, decide_eq_true hqid⟩
  obtain ⟨⟨a, x⟩, hfind⟩ := Option.isSome_iff_exists.mp hsome
  obtain ⟨hx, ps₁, ps₂, rfl, hno⟩ := List.find?_eq_some_iff_append.mp hfind
  exact ⟨ps₁, a, x, ps₂, rfl, by simpa using hx, fun p hp => by simpa using hno p hp⟩

theorem peerIdEq_eq_false {lhs rhs : PeerId} (h : lhs ≠ rhs) : peerIdEq lhs rhs = false := by
  rw [Bool.eq_false_iff]
  intro heq
  exact h (peerIdEq_iff.mp heq)

theorem insert_absent {ps : List (ℕ × Peer)} (h : Chain l.entries l.head ps)
    (hno : ∀ p ∈ ps, p.2.peerId ≠ peer.peerId) : insert l peer = add l peer := by
  have hfound := search_miss (β := ℕ)
    (f := fun _ a entry => .ok (if peerIdEq entry.peerId peer.peerId then some a else none))
    l.head h (fun b y o hby => by rw [peerIdEq_eq_false (hno (b, y) hby)]; rfl) h.length_le
  rw [insert, hfound]
  rfl

/-- The first entry with the id is overwritten. -/
theorem insert_found {ps₁ ps₂ : List (ℕ × Peer)} {a : ℕ} {x copy : Peer}
    (h : Chain l.entries l.head (ps₁ ++ (a, x) :: ps₂)) (hx : x.peerId = peer.peerId)
    (hno : ∀ p ∈ ps₁, p.2.peerId ≠ peer.peerId) (hcopy : peerCopy peer = .ok copy) :
    ∃ l', insert l peer = .ok l' ∧ Chain l'.entries l'.head (ps₁ ++ (a, copy) :: ps₂) ∧
      l'.tail = l.tail ∧ l'.count = l.count := by
  obtain ⟨n, hn, hchain'⟩ := h.update (y := copy)
  have hfound := search_hit (r := a) (k := l.entries.length)
    (f := fun _ a entry => .ok (if peerIdEq entry.peerId peer.peerId then some a else none))
    l.head h (fun b y o hby => by rw [peerIdEq_eq_false (hno (b, y) hby)]; rfl)
    (by rw [hx, peerIdEq_iff.mpr rfl]; rfl) (by have := h.length_le; simp at this; omega)
  rw [insert, hfound]
  simp only [Fallible.ok_bind, hcopy, Mem.get_of_read hn]
  exact ⟨_, rfl, hchain', rfl, rfl⟩

/-- **What an insertion does.** An entry with the id is overwritten; otherwise one
    is appended, for which `tail` has to be the last entry. -/
theorem insert_spec (h : Sound l) (hp : peer.peerId.value.Plain)
    (ht : peer.peerId ∈ l.ids ∨ TailOk l) :
    ∃ l', insert l peer = .ok l' ∧ Sound l' ∧ (TailOk l → TailOk l') ∧
      (Counted l → Counted l') ∧ ∀ id, id ∈ l'.ids ↔ id ∈ l.ids ∨ id = peer.peerId := by
  by_cases hmem : peer.peerId ∈ l.ids
  · obtain ⟨clone, hclone, hid⟩ := peerCopy_plain hp
    obtain ⟨ps₁, a, x, ps₂, hsplit, hx, hno⟩ := find_id hmem
    have hchain := h.chain
    rw [hsplit] at hchain
    obtain ⟨l', hins, hchain', htail, hcount⟩ := insert_found hchain hx hno hclone
    have hids : (ps₁ ++ (a, clone) :: ps₂).map (·.2.peerId) = l.ids := by
      rw [ids, hsplit]
      simp [hid, hx]
    refine ⟨l', hins, sound_of_chain hchain' (hids ▸ h.nodup) ?_, ?_, ?_, ?_⟩
    · intro p hmem
      exact h.plain _ (hids ▸ List.mem_map_of_mem hmem)
    · intro ht
      rw [TailOk, hsplit] at ht
      rw [TailOk, peers, hchain'.cells_eq, htail, ht, lastAddr_append_cons, lastAddr_append_cons]
    · intro hc
      rw [Counted, ids_of_chain hchain', hids, hcount]
      exact hc
    · intro id
      rw [ids_of_chain hchain', hids]
      constructor
      · exact Or.inl
      · rintro (hid | rfl)
        · exact hid
        · exact hmem
  · have ht := ht.resolve_left hmem
    have hins : insert l peer = add l peer := by
      apply insert_absent h.chain
      intro p hp heq
      exact hmem (heq ▸ List.mem_map_of_mem hp)
    obtain ⟨l', hadd, hsound, htail, hids, hcount⟩ := add_spec h ht hp hmem
    refine ⟨l', hins.trans hadd, hsound, fun _ => htail, fun hc => ?_, fun id => ?_⟩
    · rw [Counted] at hc ⊢
      rw [hcount, hids, hc]
      simp
    · rw [hids]
      simp

/-- A computation on the collector's list adds the ids that meet `S` and no others. -/
def Gathers (run : PeerList → Except Fault PeerList) (S : PeerId → Prop) : Prop :=
  ∀ peers : PeerList, Sound peers → TailOk peers →
    ∃ peers', run peers = .ok peers' ∧ Sound peers' ∧ TailOk peers' ∧
      ∀ id, id ∈ peers'.ids ↔ id ∈ peers.ids ∨ S id

namespace Gathers

variable {run run' : PeerList → Except Fault PeerList} {S T : PeerId → Prop}

theorem nothing : Gathers .ok fun _ => False :=
  fun peers h ht => ⟨peers, rfl, h, ht, by simp⟩

theorem congr (h : Gathers run S) (hST : ∀ id, S id ↔ T id) : Gathers run T := by
  intro peers hs ht
  obtain ⟨peers', hrun, hs', ht', hids⟩ := h peers hs ht
  exact ⟨peers', hrun, hs', ht', fun id => by rw [hids, hST]⟩

theorem seq (h : Gathers run S) (h' : Gathers run' T) :
    Gathers (fun peers => run peers >>= run') fun id => S id ∨ T id := by
  intro peers hs ht
  obtain ⟨p₁, hrun₁, hs₁, ht₁, hids₁⟩ := h peers hs ht
  obtain ⟨p₂, hrun₂, hs₂, ht₂, hids₂⟩ := h' p₁ hs₁ ht₁
  refine ⟨p₂, ?_, hs₂, ht₂, fun id => ?_⟩
  · show (run peers >>= run') = _
    rw [hrun₁, Fallible.ok_bind, hrun₂]
  · rw [hids₂, hids₁, or_assoc]

theorem foldlM {α : Type} {visit : PeerList → α → Except Fault PeerList}
    {U : α → PeerId → Prop} {as : List α}
    (h : ∀ a ∈ as, Gathers (fun peers => visit peers a) (U a)) :
    Gathers (fun peers => as.foldlM visit peers) fun id => ∃ a ∈ as, U a id := by
  induction as with
  | nil => exact nothing.congr (by simp)
  | cons a as ih =>
    have hfirst := h a (List.mem_cons_self ..)
    have hrest := ih fun b hb => h b (List.mem_cons_of_mem _ hb)
    refine ((hfirst.seq hrest).congr fun id => ?_)
    simp

end Gathers

/-- **What an offer does**: the collector's list gets the ids of the other list. -/
theorem offer_spec (hl : Sound l) : Gathers (fun peers => offer peers l) (· ∈ l.ids) := by
  have hfold : (fun peers => offer peers l) =
      fun peers => l.peers.foldlM (fun peers p => insert peers p.2) peers := by
    funext peers
    exact fold_eq hl.chain hl.chain.length_le peers
  rw [hfold]
  have hinsert : ∀ p ∈ l.peers, Gathers (fun peers => insert peers p.2) (· = p.2.peerId) := by
    intro p hp peers h ht
    obtain ⟨l', hins, hs, htail, -, hids⟩ := insert_spec h (hl.plain_peer p hp) (Or.inr ht)
    exact ⟨l', hins, hs, htail ht, hids⟩
  refine (Gathers.foldlM hinsert).congr fun id => ?_
  rw [ids, List.mem_map]
  simp only [eq_comm]

/-! ## Removal -/

/-- The entry before an entry is linked to the one behind it, unless the entry is
    the second: then `prev` is `head`, as it is for the first. -/
theorem unlink_spec {ps₁ ps₂ : List (ℕ × Peer)} {a : ℕ} {x : Peer}
    (h : Chain l.entries l.head (ps₁ ++ (a, x) :: ps₂)) (hsecond : ps₁.length ≠ 1) :
    ∃ l', unlink l (lastAddr l.head ps₁) a = .ok l' ∧ l'.tail = l.tail ∧
      l'.count = l.count - 1 ∧ Chain l'.entries l'.head (ps₁ ++ ps₂) := by
  rcases List.eq_nil_or_concat ps₁ with rfl | ⟨ps, ⟨b, y⟩, rfl⟩
  · have hhead : l.head = some a := h.1
    rw [List.nil_append, hhead] at h
    obtain ⟨n, hn, hrest⟩ := h.pop
    rw [unlink, lastAddr_nil, hhead]
    simp only [Mem.get_of_read hn, Fallible.ok_bind, if_true]
    exact ⟨_, rfl, rfl, rfl, hrest⟩
  · rw [List.concat_eq_append, List.append_assoc, List.singleton_append] at h
    obtain ⟨n, hb, ha, hrest⟩ := h.unlink
    rw [List.concat_eq_append] at hsecond ⊢
    have hne : some b ≠ l.head := by
      refine h.ne_head ?_
      rintro rfl
      exact hsecond rfl
    rw [unlink, lastAddr_concat]
    simp only [Mem.get_of_read ha, Mem.get_of_read hb, Fallible.ok_bind, if_neg hne]
    refine ⟨_, rfl, rfl, rfl, ?_⟩
    rw [List.append_assoc, List.singleton_append]
    exact hrest

/-- The second entry is freed, and then `head` is set to it. -/
theorem unlink_second {b a : ℕ} {y x : Peer} {ps : List (ℕ × Peer)}
    (h : Chain l.entries l.head ((b, y) :: (a, x) :: ps)) :
    ∃ l', unlink l (lastAddr l.head [(b, y)]) a = .ok l' ∧ l'.head = some a ∧
      l'.entries = l.entries.free a := by
  obtain ⟨hhead, n, hb, rfl, n', ha, -⟩ := h
  rw [unlink, lastAddr_cons, lastAddr_nil, hhead]
  simp only [Mem.get_of_read ha, Mem.get_of_read hb, Fallible.ok_bind, if_true]
  exact ⟨_, rfl, rfl, rfl⟩

theorem remove_absent {ps : List (ℕ × Peer)} (h : Chain l.entries l.head ps)
    (hno : ∀ p ∈ ps, p.2.peerId ≠ peer.peerId) : remove l peer = .ok (l, false) := by
  have hfound := search_miss (β := Option ℕ × ℕ)
    (f := fun prev a entry =>
      .ok (if peerIdEq entry.peerId peer.peerId then some (prev, a) else none))
    l.head h (fun b y o hby => by rw [peerIdEq_eq_false (hno (b, y) hby)]; rfl) h.length_le
  rw [remove, hfound]
  rfl

/-- The first entry with the id is unlinked. -/
theorem remove_found {ps₁ ps₂ : List (ℕ × Peer)} {a : ℕ} {x : Peer}
    (h : Chain l.entries l.head (ps₁ ++ (a, x) :: ps₂)) (hx : x.peerId = peer.peerId)
    (hno : ∀ p ∈ ps₁, p.2.peerId ≠ peer.peerId)
    (hunlink : unlink l (lastAddr l.head ps₁) a = .ok l') : remove l peer = .ok (l', true) := by
  have hfound := search_hit (r := (lastAddr l.head ps₁, a)) (k := l.entries.length)
    (f := fun prev a entry =>
      .ok (if peerIdEq entry.peerId peer.peerId then some (prev, a) else none))
    l.head h (fun b y o hby => by rw [peerIdEq_eq_false (hno (b, y) hby)]; rfl)
    (by rw [hx, peerIdEq_iff.mpr rfl]; rfl) (by have := h.length_le; simp at this; omega)
  rw [remove, hfound]
  simp only [Fallible.ok_bind, hunlink]

/-- **What a removal does**, of an entry that is not the second of the list. -/
theorem remove_spec (h : Sound l) (hmem : peer.peerId ∈ l.ids)
    (hsecond : l.ids[1]? ≠ some peer.peerId) :
    ∃ l', remove l peer = .ok (l', true) ∧ Sound l' ∧ (Counted l → Counted l') ∧
      ∀ id, id ∈ l'.ids ↔ id ∈ l.ids ∧ id ≠ peer.peerId := by
  obtain ⟨ps₁, a, x, ps₂, hsplit, hx, hno⟩ := find_id hmem
  have hchain := h.chain
  have hids : l.ids = ps₁.map (·.2.peerId) ++ peer.peerId :: ps₂.map (·.2.peerId) := by
    rw [ids, hsplit, List.map_append, List.map_cons, hx]
  rw [hsplit] at hchain
  have hlen : ps₁.length ≠ 1 := by
    intro hlen
    rw [hids, List.getElem?_append_right (by simp [hlen])] at hsecond
    simp [hlen] at hsecond
  obtain ⟨l', hunlink, -, hcount, hchain'⟩ := unlink_spec hchain hlen
  have hids' : l'.ids = ps₁.map (·.2.peerId) ++ ps₂.map (·.2.peerId) := by
    rw [ids_of_chain hchain', List.map_append]
  have hnd := h.nodup
  rw [hids, List.nodup_middle, List.nodup_cons] at hnd
  refine ⟨l', remove_found hchain hx hno hunlink, sound_of_chain hchain' (by simpa using hnd.2) ?_,
    ?_, ?_⟩
  · intro p hp
    refine h.plain_peer p ?_
    rw [hsplit]
    simp only [List.mem_append, List.mem_cons] at hp ⊢
    tauto
  · intro hc
    rw [Counted] at hc ⊢
    rw [hcount, hc, hids, hids']
    simp
  · intro id
    rw [hids, hids']
    simp only [List.mem_append, List.mem_cons] at hnd ⊢
    constructor
    · intro hid
      refine ⟨by tauto, ?_⟩
      rintro rfl
      exact hnd.1 hid
    · rintro ⟨hid, hne⟩
      tauto

end PeerList

end Cebus
