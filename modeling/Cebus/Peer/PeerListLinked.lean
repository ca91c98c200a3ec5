import Cebus.Peer.PeerListSpec

/-!
# Lists of any peers

The id of a peer is used as a format, so that the operations on a list may trap
when an id contains a `%`. Their loops come to an end all the same.

* `insert_linked`, `offer_linked`: a list to which peers are added stays linked.
* `remove_avoids`: the loop of a removal ends.
-/

namespace Cebus.PeerList

open LinkedList Fallible

variable {l peers : PeerList}

/-- The entries form a chain of which `tail` is the last one. -/
structure Linked (l : PeerList) : Prop where
  chain : Chain l.entries l.head l.peers
  tail : l.TailOk

theorem linked_init (count : ℕ) : (init count).Linked := ⟨init_chain count, rfl⟩

/-! ## What cannot loop -/

theorem get_avoids {α : Type} (m : Mem α) (p : Option ℕ) :
    Avoids Fault.fuel (fun _ => True) (Mem.get m p) := by
  unfold Mem.get
  cases p with
  | none => exact nofun
  | some a =>
    dsimp only
    cases m.read a with
    | none => exact nofun
    | some cell => trivial

theorem expand_avoids (fmt : List UInt8) :
    Avoids Fault.fuel (fun _ => True) (CString.expand fmt) := by
  have hmap {c : UInt8} {x : Except Fault (List UInt8)}
      (h : Avoids Fault.fuel (fun _ => True) x) :
      Avoids Fault.fuel (fun _ => True) ((c :: ·) <$> x) := by
    cases x with
    | ok out => trivial
    | error e => exact h
  fun_induction CString.expand fmt with
  | case1 => trivial
  | case2 =>
    intro h
    cases h
  | case3 => trivial
  | case4 cs ih => exact hmap ih
  | case5 =>
    intro h
    cases h
  | case6 c d cs _ ih => exact hmap ih

theorem peerIdSet_avoids (fmt : CString) : Avoids Fault.fuel (fun _ => True) (peerIdSet fmt) := by
  have hprint : Avoids Fault.fuel (fun _ => True) (CString.vsnprintf 255 fmt) := by
    have hexpand := expand_avoids fmt.bytes
    unfold CString.vsnprintf
    split
    · next e he =>
      rw [he] at hexpand
      exact hexpand
    · trivial
  apply hprint.bind
  intro value _
  split
  · trivial
  · exact nofun

theorem peerCopy_avoids (peer : Peer) : Avoids Fault.fuel (fun _ => True) (peerCopy peer) :=
  (peerIdSet_avoids peer.peerId.value).bind fun _ _ => trivial

/-! ## Additions -/

theorem add_linked (h : l.Linked) (peer : Peer) :
    Avoids Fault.fuel (fun l' => l'.Linked ∧ (l.Counted → l'.Counted ∧ l'.count ≠ 0))
      (add l peer) := by
  have hcopy := peerCopy_avoids peer
  rcases hclone : peerCopy peer with e | clone
  · have hadd : add l peer = .error e := by
      rw [add, show peerClone peer = .error e from hclone, Fallible.error_bind]
    rw [hclone] at hcopy
    rw [hadd]
    exact hcopy
  · obtain ⟨l', a, hadd, hchain, htail, hcount⟩ := add_chain h.chain h.tail hclone
    rw [hadd]
    refine ⟨⟨hchain.self, htail⟩, fun hcounted => ⟨?_, by omega⟩⟩
    rw [Counted, ids_of_chain hchain, hcount, hcounted, ids]
    simp

/-- A list in which an entry is overwritten. -/
theorem linked_overwrite {l' : PeerList} {ps₁ ps₂ : List (ℕ × Peer)} {a : ℕ} {x y : Peer}
    (h : l.Linked) (hsplit : l.peers = ps₁ ++ (a, x) :: ps₂)
    (hchain : Chain l'.entries l'.head (ps₁ ++ (a, y) :: ps₂)) (htail : l'.tail = l.tail)
    (hcount : l'.count = l.count) :
    l'.Linked ∧ (l.Counted → l'.Counted ∧ l'.count ≠ 0) := by
  refine ⟨⟨hchain.self, ?_⟩, fun hcounted => ?_⟩
  · have hlast := h.tail
    rw [TailOk, hsplit, lastAddr_append_cons] at hlast
    rw [TailOk, PeerList.peers, hchain.cells_eq, lastAddr_append_cons, htail, hlast]
  · rw [Counted, ids, hsplit] at hcounted
    rw [Counted, ids_of_chain hchain, hcount, hcounted]
    simp

/-- **A list to which a peer is added stays linked.** -/
theorem insert_linked (h : l.Linked) (peer : Peer) :
    Avoids Fault.fuel (fun l' => l'.Linked ∧ (l.Counted → l'.Counted ∧ l'.count ≠ 0))
      (insert l peer) := by
  unfold insert
  rcases search_cases (fun _ a (entry : Peer) =>
      if peerIdEq entry.peerId peer.peerId then some a else none) l.head h.chain
      h.chain.length_le with hmiss | ⟨ps₁, a, x, ps₂, r, hsplit, hr, hhit⟩
  · rw [hmiss]
    exact add_linked h peer
  · rw [hhit, Fallible.ok_bind]
    obtain rfl : a = r := by
      split_ifs at hr
      exact Option.some.inj hr
    apply (peerCopy_avoids peer).bind
    intro copy _
    have hchain := h.chain
    rw [hsplit] at hchain
    obtain ⟨next, hget, hchain'⟩ := hchain.get_write copy
    rw [hget, Fallible.ok_bind]
    exact linked_overwrite h hsplit hchain' rfl rfl

/-- **The collector's list stays linked.** -/
theorem offer_linked (hl : l.Linked) (h : peers.Linked) :
    Avoids Fault.fuel Linked (offer peers l) := by
  have hfold : offer peers l = l.peers.foldlM (fun peers p => insert peers p.2) peers :=
    fold_eq hl.chain hl.chain.length_le peers
  rw [hfold]
  apply Avoids.foldlM h
  intro p _ peers hpeers
  exact (insert_linked hpeers p.2).mono fun _ h' => h'.1

/-! ## Removals -/

theorem unlink_avoids (prev : Option ℕ) (a : ℕ) :
    Avoids Fault.fuel (fun _ => True) (unlink l prev a) := by
  apply (get_avoids l.entries (some a)).bind
  intro entry _
  split_ifs
  · exact (get_avoids l.entries l.head).bind fun _ _ => trivial
  · cases prev with
    | none => exact nofun
    | some b => exact (get_avoids l.entries (some b)).bind fun _ _ => trivial

/-- **The loop of a removal ends.** -/
theorem remove_avoids (h : l.Linked) (peer : Peer) :
    Avoids Fault.fuel (fun _ => True) (remove l peer) := by
  unfold remove
  rcases search_cases (fun prev a (entry : Peer) =>
      if peerIdEq entry.peerId peer.peerId then some (prev, a) else none) l.head h.chain
      h.chain.length_le with hmiss | ⟨-, -, -, -, ⟨prev, a⟩, -, -, hhit⟩
  · rw [hmiss]
    trivial
  · rw [hhit, Fallible.ok_bind]
    exact (unlink_avoids prev a).bind fun _ _ => trivial

end Cebus.PeerList
