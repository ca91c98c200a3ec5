import Cebus.Lib.Transition
import Cebus.Peer.PeerListLinked

/-!
# A list of peers is a sequence

A list runs beside a sequence, with the same operations and the answers of both to a
removal.

* `Represents.add`, `Represents.insert`, `Represents.remove`: what the operations do to
  the sequence.
* `behaves_iff`: the list is the sequence all along a run exactly when its counter was 0
  before the initialisation and no removal takes out the second or the last entry.
-/

namespace Cebus.PeerList

open LinkedList Transition

/-! ## Sequences -/

/-- The peer as an entry of a list holds it. -/
def stored (peer : Peer) : Peer := { peer with endpoint := peer.endpoint.strncpy 255 }

/-- The peer has the id of the other one. -/
def sameId (peer x : Peer) : Bool := x.peerId = peer.peerId

namespace Sequence

/-- The new element is the last one. -/
def add (xs : List Peer) (peer : Peer) : List Peer := xs ++ [stored peer]

/-- The first peer with the id is replaced; without one the peer comes last. -/
def insert (xs : List Peer) (peer : Peer) : List Peer :=
  match xs.findIdx? (sameId peer) with
  | none => add xs peer
  | some i => xs.set i (stored peer)

/-- The first peer with the id is taken out; the answer is whether there was one. -/
def remove (xs : List Peer) (peer : Peer) : List Peer × Bool :=
  (xs.eraseP (sameId peer), xs.any (sameId peer))

variable {xs ys : List Peer} {peer x : Peer}

theorem findIdx?_of_first (hno : ∀ y ∈ xs, sameId peer y = false) (hx : sameId peer x = true) :
    (xs ++ x :: ys).findIdx? (sameId peer) = some xs.length := by
  rw [List.findIdx?_append, List.findIdx?_eq_none_iff.mpr hno, List.findIdx?_cons, hx]
  simp

theorem insert_absent (hno : ∀ y ∈ xs, sameId peer y = false) :
    insert xs peer = xs ++ [stored peer] := by
  rw [insert, List.findIdx?_eq_none_iff.mpr hno]
  rfl

theorem insert_first (hno : ∀ y ∈ xs, sameId peer y = false) (hx : sameId peer x = true) :
    insert (xs ++ x :: ys) peer = xs ++ stored peer :: ys := by
  rw [insert, findIdx?_of_first hno hx]
  simp

theorem remove_absent (hno : ∀ y ∈ xs, sameId peer y = false) :
    remove xs peer = (xs, false) := by
  rw [remove, List.eraseP_of_forall_not (by simpa using hno), List.any_eq_false.mpr
    (by simpa using hno)]

theorem remove_first (hno : ∀ y ∈ xs, sameId peer y = false) (hx : sameId peer x = true) :
    remove (xs ++ x :: ys) peer = (xs ++ ys, true) := by
  rw [remove, List.eraseP_append_right _ (by simpa using hno), List.eraseP_cons_of_pos hx]
  simp [hx]

end Sequence

/-! ## The list beside the sequence -/

/-- The operations on a list of peers. -/
inductive Operation where
  | add
  | insert
  | remove
deriving DecidableEq, Repr

/-- A call with a peer whose id contains no `%`. -/
structure Call where
  operation : Operation
  peer : Peer
  plain : peer.peerId.value.Plain

/-- The list, unless it has gone wrong, and the sequence after the same calls, with their
    answers to the removals. -/
structure System where
  list : Except Fault PeerList
  sequence : List Peer
  answers : List Bool
  expected : List Bool

/-- The initialisation of a list whose counter is `count`. -/
def System.init (count : ℕ) : System := ⟨.ok (PeerList.init count), [], [], []⟩

/-- A call on the list and on the sequence. -/
def step (s : System) (c : Call) : Option System :=
  match c.operation with
  | .add => some { s with
      list := s.list >>= (add · c.peer), sequence := Sequence.add s.sequence c.peer }
  | .insert => some { s with
      list := s.list >>= (insert · c.peer), sequence := Sequence.insert s.sequence c.peer }
  | .remove =>
    let removed := s.list >>= (remove · c.peer)
    some {
      list := Prod.fst <$> removed
      sequence := (Sequence.remove s.sequence c.peer).1
      answers := s.answers ++ (match removed with | .ok (_, answer) => [answer] | .error _ => [])
      expected := s.expected ++ [(Sequence.remove s.sequence c.peer).2] }

/-- The entries from `head` on are those of the sequence, `tail` is the last of them, and the
    counter is their number. -/
structure Represents (l : PeerList) (xs : List Peer) : Prop where
  linked : l.Linked
  entries : l.peers.map Prod.snd = xs
  count : l.count = xs.length

/-- The list stands for the sequence, and the calls were answered as on it. -/
def Behaves (s : System) : Prop :=
  ∃ l, s.list = .ok l ∧ Represents l s.sequence ∧ s.answers = s.expected

/-- A removal takes out neither the second nor the last entry. -/
def RemovesInside (s : System) (c : Call) : Prop :=
  c.operation = .remove → ∀ i, s.sequence.findIdx? (sameId c.peer) = some i →
    i ≠ 1 ∧ i + 1 ≠ s.sequence.length

/-! ## The operations -/

variable {l l' : PeerList} {xs : List Peer} {peer : Peer}

theorem peerCopy_stored (h : peer.peerId.value.Plain) : peerCopy peer = .ok (stored peer) := by
  rw [peerCopy, peerIdCopy, peerIdSet_value h]
  rfl

theorem represents_init : Represents (init 0) [] :=
  ⟨linked_init 0, by rw [peers, (init_chain 0).cells_eq, List.map_nil], rfl⟩

theorem represents_of_chain {ps : List (ℕ × Peer)} (h : Chain l.entries l.head ps)
    (htail : l.tail = lastAddr none ps) (hcount : l.count = ps.length) :
    Represents l (ps.map Prod.snd) where
  linked := ⟨h.self, by rw [TailOk, peers, h.cells_eq, htail]⟩
  entries := by rw [peers, h.cells_eq]
  count := by rw [hcount, List.length_map]

theorem Represents.length (h : Represents l xs) : l.count = l.peers.length := by
  rw [h.count, ← h.entries, List.length_map]

/-- There is no entry with the id, or a first one. -/
theorem first_cases (ps : List (ℕ × Peer)) (peer : Peer) :
    (∀ p ∈ ps, p.2.peerId ≠ peer.peerId) ∨
      ∃ ps₁ a x ps₂, ps = ps₁ ++ (a, x) :: ps₂ ∧ x.peerId = peer.peerId ∧
        ∀ p ∈ ps₁, p.2.peerId ≠ peer.peerId := by
  by_cases hid : peer.peerId ∈ ps.map (·.2.peerId)
  · exact Or.inr (find_id hid)
  · refine Or.inl fun p hp heq => hid ?_
    rw [← heq]
    exact List.mem_map_of_mem hp

theorem sameId_snd {ps : List (ℕ × Peer)} (h : ∀ p ∈ ps, p.2.peerId ≠ peer.peerId) :
    ∀ y ∈ ps.map Prod.snd, sameId peer y = false := by
  intro y hy
  obtain ⟨p, hp, rfl⟩ := List.mem_map.mp hy
  exact decide_eq_false (h p hp)

theorem Represents.add (h : Represents l xs) (hp : peer.peerId.value.Plain) :
    ∃ l', add l peer = .ok l' ∧ Represents l' (Sequence.add xs peer) := by
  obtain ⟨l', a, hadd, hchain, htail, hcount⟩ :=
    add_chain h.linked.chain h.linked.tail (peerCopy_stored hp)
  refine ⟨l', hadd, ?_⟩
  rw [TailOk, peers, hchain.cells_eq] at htail
  have hrep := represents_of_chain hchain htail (by rw [hcount, h.length]; simp)
  rwa [List.map_append, h.entries] at hrep

theorem Represents.insert (h : Represents l xs) (hp : peer.peerId.value.Plain) :
    ∃ l', insert l peer = .ok l' ∧ Represents l' (Sequence.insert xs peer) := by
  have hchain := h.linked.chain
  rcases first_cases l.peers peer with hno | ⟨ps₁, a, x, ps₂, hsplit, hx, hno⟩
  · obtain ⟨l', hadd, hrep⟩ := h.add hp
    refine ⟨l', (insert_absent hchain hno).trans hadd, ?_⟩
    rwa [Sequence.insert_absent (h.entries ▸ sameId_snd hno)]
  · have htail := h.linked.tail
    rw [TailOk, hsplit, lastAddr_append_cons] at htail
    have hlength := h.length
    have hentries := h.entries
    rw [hsplit] at hchain hlength hentries
    obtain ⟨l', hins, hchain', htail', hcount'⟩ := insert_found hchain hx hno (peerCopy_stored hp)
    refine ⟨l', hins, ?_⟩
    have hrep := represents_of_chain hchain' (by rw [htail', htail, lastAddr_append_cons])
      (by rw [hcount', hlength]; simp)
    rw [List.map_append, List.map_cons] at hentries hrep
    rwa [← hentries, Sequence.insert_first (sameId_snd hno) (decide_eq_true hx)]

/-- The place of the first entry with the id, and what is left of the sequence. -/
theorem Represents.first (h : Represents l xs) {ps₁ ps₂ : List (ℕ × Peer)} {a : ℕ} {x : Peer}
    (hsplit : l.peers = ps₁ ++ (a, x) :: ps₂) (hx : x.peerId = peer.peerId)
    (hno : ∀ p ∈ ps₁, p.2.peerId ≠ peer.peerId) :
    xs.findIdx? (sameId peer) = some ps₁.length ∧
      Sequence.remove xs peer = ((ps₁ ++ ps₂).map Prod.snd, true) := by
  rw [← h.entries, hsplit, List.map_append, List.map_cons,
    Sequence.findIdx?_of_first (sameId_snd hno) (decide_eq_true hx),
    Sequence.remove_first (sameId_snd hno) (decide_eq_true hx), List.length_map, List.map_append]
  exact ⟨rfl, rfl⟩

/-- A removal does to the list what it does to the sequence, unless the entry is the second or
    the last one. -/
theorem Represents.remove (h : Represents l xs)
    (hinside : ∀ i, xs.findIdx? (sameId peer) = some i → i ≠ 1 ∧ i + 1 ≠ xs.length) :
    ∃ l', remove l peer = .ok (l', (Sequence.remove xs peer).2) ∧
      Represents l' (Sequence.remove xs peer).1 := by
  have hchain := h.linked.chain
  rcases first_cases l.peers peer with hno | ⟨ps₁, a, x, ps₂, hsplit, hx, hno⟩
  · rw [Sequence.remove_absent (h.entries ▸ sameId_snd hno)]
    exact ⟨l, remove_absent hchain hno, h⟩
  · obtain ⟨hfirst, hseq⟩ := h.first hsplit hx hno
    obtain ⟨hsecond, hlast⟩ := hinside _ hfirst
    have htail := h.linked.tail
    have hlength := h.length
    have hxs : xs.length = ps₁.length + (ps₂.length + 1) := by
      rw [← h.entries, hsplit]
      simp
    rw [TailOk, hsplit, lastAddr_append_cons] at htail
    rw [hsplit] at hchain hlength
    obtain ⟨l', hunlink, htail', hcount', hchain'⟩ := unlink_spec hchain hsecond
    rw [hseq]
    refine ⟨l', remove_found hchain hx hno hunlink, represents_of_chain hchain' ?_ ?_⟩
    · rcases ps₂ with _ | ⟨⟨b, y⟩, ps₂⟩
      · simp only [List.length_nil] at hxs
        omega
      · rw [htail', htail, lastAddr_cons, lastAddr_append_cons]
    · rw [hcount', hlength]
      simp

/-- A last address is one of the addresses. -/
theorem mem_of_lastAddr {ps : List (ℕ × Peer)} {a : ℕ} (h : lastAddr none ps = some a) :
    a ∈ ps.map Prod.fst := by
  rw [lastAddr, Option.or_none, Option.map_eq_some_iff] at h
  obtain ⟨p, hp, rfl⟩ := h
  exact List.mem_map_of_mem (List.mem_of_getLast? hp)

/-- The second entry leaves `head` at its freed cell, and the last one `tail`. -/
theorem Represents.inside (h : Represents l xs) {answer : Bool}
    (hrem : PeerList.remove l peer = .ok (l', answer))
    (hrep : Represents l' (Sequence.remove xs peer).1) :
    ∀ i, xs.findIdx? (sameId peer) = some i → i ≠ 1 ∧ i + 1 ≠ xs.length := by
  intro i hi
  have hchain := h.linked.chain
  rcases first_cases l.peers peer with hno | ⟨ps₁, a, x, ps₂, hsplit, hx, hno⟩
  · rw [List.findIdx?_eq_none_iff.mpr (h.entries ▸ sameId_snd hno)] at hi
    cases hi
  obtain ⟨hfirst, hseq⟩ := h.first hsplit hx hno
  obtain rfl := Option.some.inj (hfirst.symm.trans hi)
  have htail := h.linked.tail
  rw [TailOk, hsplit, lastAddr_append_cons] at htail
  have hxs : xs.length = ps₁.length + (ps₂.length + 1) := by
    rw [← h.entries, hsplit]
    simp
  rw [hsplit] at hchain
  have hsecond : ps₁.length ≠ 1 := by
    intro hone
    obtain ⟨⟨b, y⟩, rfl⟩ := List.length_eq_one_iff.mp hone
    obtain ⟨l₂, hunlink, hhead, hentries⟩ := unlink_second hchain
    rw [remove_found hchain hx hno hunlink] at hrem
    obtain ⟨rfl, -⟩ := Prod.mk.inj (Except.ok.inj hrem)
    have hchain' := hrep.linked.chain
    rw [hhead, hentries] at hchain'
    obtain ⟨_, _, _, -, hread, -⟩ := chain_some.mp hchain'
    rw [Mem.read_free_self] at hread
    cases hread
  refine ⟨hsecond, fun hlast => ?_⟩
  obtain rfl : ps₂ = [] := List.length_eq_zero_iff.mp (by omega)
  obtain ⟨l₂, hunlink, htail₂, -, hchain₂⟩ := unlink_spec hchain hsecond
  rw [remove_found hchain hx hno hunlink] at hrem
  obtain ⟨rfl, -⟩ := Prod.mk.inj (Except.ok.inj hrem)
  have htail' := hrep.linked.tail
  rw [TailOk, peers, hchain₂.cells_eq, htail₂, htail, List.append_nil, lastAddr_nil] at htail'
  have hnd := hchain.nodup
  rw [List.map_append, List.nodup_append] at hnd
  exact hnd.2.2 a (mem_of_lastAddr htail'.symm) a (by simp) rfl

/-! ## The runs -/

theorem Behaves.step {s t : System} {c : Call} (h : Behaves s) (hC : RemovesInside s c)
    (hs : step s c = some t) : Behaves t := by
  obtain ⟨l, hl, hrep, hanswers⟩ := h
  unfold PeerList.step at hs
  split at hs
  · obtain rfl := Option.some.inj hs
    obtain ⟨l', hadd, hrep'⟩ := hrep.add c.plain
    exact ⟨l', by rw [hl, Fallible.ok_bind, hadd], hrep', hanswers⟩
  · obtain rfl := Option.some.inj hs
    obtain ⟨l', hins, hrep'⟩ := hrep.insert c.plain
    exact ⟨l', by rw [hl, Fallible.ok_bind, hins], hrep', hanswers⟩
  · next hop =>
    obtain rfl := Option.some.inj hs
    obtain ⟨l', hrem, hrep'⟩ := hrep.remove (hC hop)
    refine ⟨l', ?_, hrep', ?_⟩
    · simp only [hl, Fallible.ok_bind, hrem, Fallible.map_ok]
    · simp only [hl, Fallible.ok_bind, hrem, hanswers]

theorem Behaves.removesInside {s t : System} {c : Call} (h : Behaves s)
    (hs : PeerList.step s c = some t) (ht : Behaves t) : RemovesInside s c := by
  obtain ⟨l, hl, hrep, -⟩ := h
  intro hop
  simp only [PeerList.step, hop, hl, Fallible.ok_bind] at hs
  obtain rfl := Option.some.inj hs
  obtain ⟨l', hl', hrep', -⟩ := ht
  obtain ⟨⟨l₂, answer⟩, hrem, rfl⟩ := Fallible.map_eq_ok.mp hl'
  exact hrep.inside hrem hrep'

/-- **A list of peers is the sequence exactly if its memory had a counter of 0 before the
    initialisation and no removal takes out the second or the last entry.** -/
theorem behaves_iff (count : ℕ) (calls : List Call) :
    Always step Behaves (System.init count) calls ↔
      count = 0 ∧ Meets step RemovesInside (System.init count) calls := by
  by_cases hcount : count = 0
  · subst hcount
    rw [always_iff_meets (I := Behaves) ⟨_, rfl, represents_init, rfl⟩ (fun _ h => h)
      (fun _ _ _ => Behaves.step) (fun _ _ _ => Behaves.removesInside)]
    exact ⟨fun h => ⟨rfl, h⟩, fun h => h.2⟩
  · refine iff_of_false (fun h => ?_) (fun h => hcount h.1)
    obtain ⟨l, hl, hrep, -⟩ := h [] _ List.nil_prefix rfl
    obtain rfl := Except.ok.inj hl
    exact hcount hrep.count

/-- The removal of the only entry leaves `tail` at it. -/
theorem not_always_behaves :
    ¬ ∀ (count : ℕ) (calls : List Call), Always step Behaves (System.init count) calls := by
  intro h
  let peer : Peer :=
    ⟨⟨CString.ofChars "Abc.Peer.1".toList, by decide⟩, CString.ofChars [], true, true⟩
  obtain ⟨l, hl, hrep, -⟩ := h 0 [⟨.add, peer, by decide⟩, ⟨.remove, peer, by decide⟩] _ _
    List.prefix_rfl rfl
  obtain rfl := Except.ok.inj hl
  exact absurd hrep.linked.tail (by decide)

end Cebus.PeerList
