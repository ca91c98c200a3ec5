import Mathlib.Data.List.Perm.Subperm

/-!
# Singly linked lists in memory

Cells with a value and the address of the next cell, the null-terminated chains
they form, and the loops that walk along a chain. A read of a freed cell is a
fault, and so is a walk that does not come to an end.

* `Chain.nodup`: a chain passes through every cell once.
* `Chain.cons`, `Chain.snoc`: adding a cell at either end.
* `Chain.pop`, `Chain.unlink`: taking a cell out.
* `Chain.cells_eq`: a walk along a chain.
* `search_hit`, `search_miss`, `fold_eq`: what the loops do on a chain.
-/

namespace LinkedList

universe u

/-- The ways in which following a pointer goes wrong. -/
inductive Fault where
  | null
  | dangling
  | wild
  | fuel
deriving DecidableEq, Repr

/-- A list cell. -/
@[ext] structure Cell (α : Type u) where
  val : α
  next : Option ℕ
deriving DecidableEq, Repr

/-- Memory for cells; a freed cell is `none` and its address is not used again. -/
abbrev Mem (α : Type u) := List (Option (Cell α))

variable {α β : Type u} {m m' : Mem α} {p q : Option ℕ} {a b : ℕ} {x y : α} {c : Cell α}
  {l l' l₁ l₂ : List (ℕ × α)}

/-! ## Memory -/

namespace Mem

/-- The cell at an address. -/
def read (m : Mem α) (a : ℕ) : Option (Cell α) := m[a]?.join

/-- Follow a pointer. -/
def get (m : Mem α) : Option ℕ → Except Fault (Cell α)
  | none => .error .null
  | some a => match m.read a with
    | none => .error .dangling
    | some c => .ok c

/-- Memory with one more cell, at address `m.length`. -/
def alloc (m : Mem α) (c : Cell α) : Mem α := m ++ [some c]

/-- Overwrite a cell. -/
def write (m : Mem α) (a : ℕ) (c : Cell α) : Mem α := m.set a (some c)

/-- Free a cell. -/
def free (m : Mem α) (a : ℕ) : Mem α := m.set a none

theorem lt_length_of_read (h : m.read a = some c) : a < m.length := by
  by_contra hlt
  rw [read, List.getElem?_eq_none (by omega)] at h
  cases h

theorem read_alloc_self : (m.alloc c).read m.length = some c := by
  simp [read, alloc]

theorem read_alloc_of_lt (h : a < m.length) : (m.alloc c).read a = m.read a := by
  rw [read, read, alloc, List.getElem?_append_left h]

theorem read_write_self (h : a < m.length) : (m.write a c).read a = some c := by
  rw [read, write, List.getElem?_set_self h]
  rfl

theorem read_write_ne (h : a ≠ b) : (m.write a c).read b = m.read b := by
  rw [read, read, write, List.getElem?_set_ne h]

theorem read_free_ne (h : a ≠ b) : (m.free a).read b = m.read b := by
  rw [read, read, free, List.getElem?_set_ne h]

theorem read_free_self : (m.free a).read a = none := by
  by_cases h : a < m.length
  · rw [read, free, List.getElem?_set_self h]
    rfl
  · rw [read, free, List.getElem?_eq_none (by simp; omega)]
    rfl

/-- Writing what is there changes nothing. -/
theorem write_of_read (h : m.read a = some c) : m.write a c = m := by
  obtain ⟨hlt, hget⟩ := List.getElem?_eq_some_iff.mp (Option.join_eq_some_iff.mp h)
  rw [write, ← hget, List.set_getElem_self]

theorem get_of_read (h : m.read a = some c) : m.get (some a) = .ok c := by
  simp [get, h]

@[simp] theorem length_alloc : (m.alloc c).length = m.length + 1 := by simp [alloc]

@[simp] theorem length_write : (m.write a c).length = m.length := by simp [write]

@[simp] theorem length_free : (m.free a).length = m.length := by simp [free]

end Mem

/-! ## Segments and chains -/

/-- From `p` the cells with the addresses and values of `l` are passed until `q`. -/
def Segment (m : Mem α) : Option ℕ → List (ℕ × α) → Option ℕ → Prop
  | p, [], q => p = q
  | p, (a, x) :: l, q => p = some a ∧ ∃ n, m.read a = some ⟨x, n⟩ ∧ Segment m n l q

/-- A segment up to the null pointer. -/
abbrev Chain (m : Mem α) (p : Option ℕ) (l : List (ℕ × α)) : Prop := Segment m p l none

theorem segment_append :
    Segment m p (l₁ ++ l₂) q ↔ ∃ r, Segment m p l₁ r ∧ Segment m r l₂ q := by
  induction l₁ generalizing p with
  | nil => simp [Segment]
  | cons ax l ih =>
    obtain ⟨a, x⟩ := ax
    simp only [List.cons_append, Segment, ih]
    constructor
    · rintro ⟨hp, n, hn, r, h1, h2⟩
      exact ⟨r, ⟨hp, n, hn, h1⟩, h2⟩
    · rintro ⟨r, ⟨hp, n, hn, h1⟩, h2⟩
      exact ⟨hp, n, hn, r, h1, h2⟩

/-- **Frame.** A segment is not affected by changes to other cells. -/
theorem Segment.congr (h : Segment m p l q) (hm : ∀ b ∈ l.map Prod.fst, m'.read b = m.read b) :
    Segment m' p l q := by
  induction l generalizing p with
  | nil => exact h
  | cons ax l ih =>
    obtain ⟨a, x⟩ := ax
    obtain ⟨hp, n, hn, h⟩ := h
    refine ⟨hp, n, ?_, ih h fun b hb => hm b (List.mem_cons_of_mem _ hb)⟩
    rw [hm a (List.mem_cons_self ..), hn]

theorem Segment.lt_length (h : Segment m p l q) : ∀ b ∈ l.map Prod.fst, b < m.length := by
  induction l generalizing p with
  | nil => simp
  | cons ax l ih =>
    obtain ⟨a, x⟩ := ax
    obtain ⟨-, n, hn, h⟩ := h
    intro b hb
    obtain rfl | hb := List.mem_cons.mp hb
    · exact Mem.lt_length_of_read hn
    · exact ih h b hb

theorem chain_none : Chain m none l ↔ l = [] := by
  cases l with
  | nil => simp [Segment]
  | cons ax l =>
    obtain ⟨a, x⟩ := ax
    simp [Segment]

theorem chain_some :
    Chain m (some a) l ↔ ∃ x n l', l = (a, x) :: l' ∧ m.read a = some ⟨x, n⟩ ∧ Chain m n l' := by
  cases l with
  | nil => simp [Segment]
  | cons bx l =>
    obtain ⟨b, x⟩ := bx
    simp only [Segment, Option.some_inj, List.cons.injEq, Prod.mk.injEq]
    constructor
    · rintro ⟨rfl, n, hn, h⟩
      exact ⟨x, n, l, ⟨⟨rfl, rfl⟩, rfl⟩, hn, h⟩
    · rintro ⟨_, n, _, ⟨⟨rfl, rfl⟩, rfl⟩, hn, h⟩
      exact ⟨rfl, n, hn, h⟩

/-- The memory and the head determine the chain. -/
theorem Chain.unique (h : Chain m p l) (h' : Chain m p l') : l = l' := by
  induction l generalizing p l' with
  | nil =>
    obtain rfl : p = none := h
    exact (chain_none.mp h').symm
  | cons ax l ih =>
    obtain ⟨a, x⟩ := ax
    obtain ⟨rfl, n, hn, h⟩ := h
    obtain ⟨x', n', l', rfl, hn', h'⟩ := chain_some.mp h'
    obtain ⟨rfl, rfl⟩ := Cell.mk.inj (Option.some.inj (hn.symm.trans hn'))
    rw [ih h h']

theorem Chain.exists_head (h : Chain m p l) (hl : l ≠ []) : ∃ a, p = some a := by
  rcases l with _ | ⟨⟨a, x⟩, l⟩
  · exact absurd rfl hl
  · exact ⟨a, h.1⟩

/-- **A chain does not come back to a cell**, for then it would not end. -/
theorem Chain.nodup (h : Chain m p l) : (l.map Prod.fst).Nodup := by
  induction l generalizing p with
  | nil => simp
  | cons ax l ih =>
    obtain ⟨a, x⟩ := ax
    have htail := h
    obtain ⟨rfl, n, hn, h⟩ := h
    refine List.nodup_cons.mpr ⟨fun ha => ?_, ih h⟩
    obtain ⟨⟨a', x'⟩, hmem, rfl⟩ := List.mem_map.mp ha
    obtain ⟨l₁, l₂, rfl⟩ := List.append_of_mem hmem
    obtain ⟨r, -, h2⟩ := segment_append.mp h
    obtain ⟨rfl, -⟩ := id h2
    have := congrArg List.length (htail.unique h2)
    simp at this
    omega

theorem Chain.length_le (h : Chain m p l) : l.length ≤ m.length := by
  have hsub : l.map Prod.fst ⊆ List.range m.length := fun b hb =>
    List.mem_range.mpr (h.lt_length b hb)
  have := (List.Nodup.subperm h.nodup hsub).length_le
  simpa using this

/-! ## Adding and removing cells -/

theorem Segment.alloc (h : Segment m p l q) : Segment (m.alloc c) p l q :=
  h.congr fun b hb => Mem.read_alloc_of_lt (h.lt_length b hb)

/-- A new cell in front of a chain. -/
theorem Chain.cons (h : Chain m p l) :
    Chain (m.alloc ⟨x, p⟩) (some m.length) ((m.length, x) :: l) :=
  ⟨rfl, p, Mem.read_alloc_self, Segment.alloc h⟩

/-- A new cell behind the last cell of a chain. -/
theorem Chain.snoc (h : Chain m p (l ++ [(a, x)])) :
    Chain ((m.alloc ⟨y, none⟩).write a ⟨x, some m.length⟩) p
      (l ++ [(a, x)] ++ [(m.length, y)]) := by
  have hnd := h.nodup
  rw [List.map_append, List.nodup_append] at hnd
  obtain ⟨r, h1, rfl, n, hn, -⟩ := segment_append.mp h
  have ha := Mem.lt_length_of_read hn
  rw [List.append_assoc]
  refine segment_append.mpr ⟨some a, ?_, rfl, some m.length, ?_, rfl, none, ?_, rfl⟩
  · refine (Segment.alloc h1).congr fun b hb => Mem.read_write_ne ?_
    rintro rfl
    exact hnd.2.2 a hb a (by simp) rfl
  · exact Mem.read_write_self (by rw [Mem.length_alloc]; omega)
  · rw [Mem.read_write_ne (by omega), Mem.read_alloc_self]

/-- Freeing the first cell leaves the rest of the chain. -/
theorem Chain.pop (h : Chain m (some a) ((a, x) :: l)) :
    ∃ n, m.read a = some ⟨x, n⟩ ∧ Chain (m.free a) n l := by
  have hnd := List.nodup_cons.mp h.nodup
  obtain ⟨-, n, hn, h⟩ := h
  refine ⟨n, hn, h.congr fun b hb => Mem.read_free_ne ?_⟩
  rintro rfl
  exact hnd.1 hb

/-- Linking the cell before it to the cell behind it takes a cell out. -/
theorem Chain.unlink (h : Chain m p (l₁ ++ (b, y) :: (a, x) :: l₂)) :
    ∃ n, m.read b = some ⟨y, some a⟩ ∧ m.read a = some ⟨x, n⟩ ∧
      Chain ((m.write b ⟨y, n⟩).free a) p (l₁ ++ (b, y) :: l₂) := by
  have hnd := h.nodup
  simp only [List.map_append, List.map_cons, List.nodup_append, List.nodup_cons,
    List.mem_cons] at hnd
  obtain ⟨-, ⟨hb, ha, -⟩, h1⟩ := hnd
  obtain ⟨r, hs1, rfl, -, hrb, rfl, n, hra, hs2⟩ := segment_append.mp h
  have hba : b ≠ a := fun heq => hb (Or.inl heq)
  refine ⟨n, hrb, hra, segment_append.mpr ⟨some b, ?_, rfl, n, ?_, ?_⟩⟩
  · refine hs1.congr fun d hd => ?_
    rw [Mem.read_free_ne fun heq => h1 d hd a (Or.inr (Or.inl rfl)) heq.symm,
      Mem.read_write_ne fun heq => h1 d hd b (Or.inl rfl) heq.symm]
  · rw [Mem.read_free_ne hba.symm, Mem.read_write_self (Mem.lt_length_of_read hrb)]
  · refine hs2.congr fun d hd => ?_
    rw [Mem.read_free_ne fun heq => ha (by rwa [heq]),
      Mem.read_write_ne fun heq => hb (Or.inr (by rwa [heq]))]

/-- Overwriting the value of a cell. -/
theorem Chain.update (h : Chain m p (l₁ ++ (a, x) :: l₂)) :
    ∃ n, m.read a = some ⟨x, n⟩ ∧ Chain (m.write a ⟨y, n⟩) p (l₁ ++ (a, y) :: l₂) := by
  have hnd := h.nodup
  simp only [List.map_append, List.map_cons, List.nodup_append, List.nodup_cons,
    List.mem_cons] at hnd
  obtain ⟨-, ⟨ha, -⟩, h1⟩ := hnd
  obtain ⟨r, hs1, rfl, n, hra, hs2⟩ := segment_append.mp h
  refine ⟨n, hra, segment_append.mpr ⟨some a, ?_, rfl, n, ?_, ?_⟩⟩
  · exact hs1.congr fun d hd => Mem.read_write_ne fun heq => h1 d hd a (Or.inl rfl) heq.symm
  · exact Mem.read_write_self (Mem.lt_length_of_read hra)
  · exact hs2.congr fun d hd => Mem.read_write_ne fun heq => ha (by rwa [heq])

theorem Chain.get_write (h : Chain m p (l₁ ++ (a, x) :: l₂)) (y : α) :
    ∃ n, m.get (some a) = .ok ⟨x, n⟩ ∧ Chain (m.write a ⟨y, n⟩) p (l₁ ++ (a, y) :: l₂) := by
  obtain ⟨n, hread, hchain⟩ := h.update (y := y)
  exact ⟨n, Mem.get_of_read hread, hchain⟩

/-- A cell with others before it is not the first. -/
theorem Chain.ne_head (h : Chain m p (l₁ ++ (a, x) :: l₂)) (hne : l₁ ≠ []) : some a ≠ p := by
  rcases l₁ with _ | ⟨⟨b, y⟩, l⟩
  · exact absurd rfl hne
  · have hnd := h.nodup
    rw [h.1]
    rw [List.cons_append, List.map_cons, List.nodup_cons, List.map_append, List.map_cons] at hnd
    intro heq
    rw [Option.some_inj] at heq
    exact hnd.1 (by simp [heq])

/-! ## Walking along a chain -/

/-- The cells passed in at most `k` steps. -/
def walk (m : Mem α) : ℕ → Option ℕ → List (ℕ × α)
  | 0, _ => []
  | _, none => []
  | k + 1, some a => match m.read a with
    | none => []
    | some c => (a, c.val) :: walk m k c.next

/-- The cells passed from `p` on. -/
def cells (m : Mem α) (p : Option ℕ) : List (ℕ × α) := walk m m.length p

theorem Chain.walk_eq {k : ℕ} (h : Chain m p l) (hk : l.length ≤ k) : walk m k p = l := by
  induction l generalizing p k with
  | nil =>
    obtain rfl : p = none := h
    cases k <;> rfl
  | cons ax l ih =>
    obtain ⟨a, x⟩ := ax
    obtain ⟨rfl, n, hn, h⟩ := h
    cases k with
    | zero => simp at hk
    | succ k =>
      rw [walk, hn]
      exact congrArg _ (ih h (by simpa using hk))

/-- A chain is what a walk along it passes. -/
theorem Chain.cells_eq (h : Chain m p l) : cells m p = l := h.walk_eq h.length_le

theorem mem_of_walk {k : ℕ} (h : (a, x) ∈ walk m k p) : ∃ next, some ⟨x, next⟩ ∈ m := by
  induction k generalizing p with
  | zero => simp [walk] at h
  | succ k ih =>
    rcases p with _ | b
    · simp [walk] at h
    · rw [walk] at h
      split at h
      · cases h
      · next cell hcell =>
        rcases List.mem_cons.mp h with heq | h
        · obtain ⟨rfl, rfl⟩ := Prod.mk.inj heq
          rw [Mem.read, Option.join_eq_some_iff] at hcell
          exact ⟨cell.next, List.mem_of_getElem? hcell⟩
        · exact ih h

theorem Chain.self (h : Chain m p l) : Chain m p (cells m p) := by rwa [h.cells_eq]

/-! ## Loops -/

/-- `prev = cur = head; while (cur != NULL) { … break; prev = cur; cur = cur->next; }`:
    the body sees both pointers and the value, and breaks with a result. -/
def search (m : Mem α) (f : Option ℕ → ℕ → α → Except Fault (Option β)) :
    ℕ → Option ℕ → Option ℕ → Except Fault (Option β)
  | _, _, none => .ok none
  | 0, _, some _ => .error .fuel
  | k + 1, prev, some a => do
    let c ← m.get (some a)
    match ← f prev a c.val with
    | some r => .ok (some r)
    | none => search m f k (some a) c.next

/-- `while (cur != NULL) { acc = …; cur = cur->next; }` -/
def fold (m : Mem α) (f : β → ℕ → α → Except Fault β) : ℕ → Option ℕ → β → Except Fault β
  | _, none, acc => .ok acc
  | 0, some _, _ => .error .fuel
  | k + 1, some a, acc => do
    let c ← m.get (some a)
    let acc ← f acc a c.val
    fold m f k c.next acc

variable {f : Option ℕ → ℕ → α → Except Fault (Option β)} {k : ℕ} {prev : Option ℕ} {r : β}

theorem search_miss (prev : Option ℕ) (h : Chain m p l)
    (hf : ∀ b y o, (b, y) ∈ l → f o b y = .ok none) (hk : l.length ≤ k) :
    search m f k prev p = .ok none := by
  induction l generalizing p k prev with
  | nil =>
    obtain rfl : p = none := h
    cases k <;> rfl
  | cons ax l ih =>
    obtain ⟨a, x⟩ := ax
    obtain ⟨rfl, n, hn, h⟩ := h
    cases k with
    | zero => simp at hk
    | succ k =>
      rw [search, Mem.get_of_read hn]
      show (f prev a x >>= _) = _
      rw [hf a x prev (List.mem_cons_self ..)]
      exact ih _ h (fun b y o hb => hf b y o (List.mem_cons_of_mem _ hb)) (by simpa using hk)

/-- The previous pointer when the loop has passed the cells of `l`. -/
def lastAddr (prev : Option ℕ) (l : List (ℕ × α)) : Option ℕ :=
  (l.getLast?.map Prod.fst).or prev

@[simp] theorem lastAddr_nil : lastAddr prev ([] : List (ℕ × α)) = prev := rfl

@[simp] theorem lastAddr_concat : lastAddr prev (l ++ [(a, x)]) = some a := by simp [lastAddr]

theorem lastAddr_cons : lastAddr prev ((a, x) :: l) = lastAddr (some a) l := by
  cases h : l.getLast? with
  | none => simp [lastAddr, List.getLast?_eq_none_iff.mp h]
  | some b => simp [lastAddr, List.getLast?_cons, h]

theorem lastAddr_append_cons : lastAddr prev (l₁ ++ (a, x) :: l₂) = lastAddr (some a) l₂ := by
  induction l₁ generalizing prev with
  | nil => exact lastAddr_cons
  | cons bx l ih =>
    obtain ⟨b, y⟩ := bx
    rw [List.cons_append, lastAddr_cons, ih]

theorem lastAddr_append (prev : Option ℕ) (h : l₂ ≠ []) :
    lastAddr prev (l₁ ++ l₂) = lastAddr none l₂ := by
  rcases l₂ with _ | ⟨⟨a, x⟩, l⟩
  · exact absurd rfl h
  · rw [lastAddr_append_cons, lastAddr_cons]

theorem search_hit (prev : Option ℕ) (h : Chain m p (l₁ ++ (a, x) :: l₂))
    (hno : ∀ b y o, (b, y) ∈ l₁ → f o b y = .ok none)
    (hyes : f (lastAddr prev l₁) a x = .ok (some r)) (hk : l₁.length < k) :
    search m f k prev p = .ok (some r) := by
  induction l₁ generalizing p k prev with
  | nil =>
    obtain ⟨rfl, n, hn, h⟩ := h
    cases k with
    | zero => simp at hk
    | succ k =>
      rw [search, Mem.get_of_read hn]
      show (f prev a x >>= _) = _
      rw [lastAddr_nil] at hyes
      rw [hyes]
      rfl
  | cons bx l ih =>
    obtain ⟨b, y⟩ := bx
    obtain ⟨rfl, n, hn, h⟩ := h
    rw [lastAddr_cons] at hyes
    cases k with
    | zero => simp at hk
    | succ k =>
      rw [search, Mem.get_of_read hn]
      show (f prev b y >>= _) = _
      rw [hno b y prev (List.mem_cons_self ..)]
      exact ih _ h (fun c z o hc => hno c z o (List.mem_cons_of_mem _ hc)) hyes
        (by simpa using hk)

/-- A loop whose body does not fail breaks at a cell or comes to the end. -/
theorem search_cases (t : Option ℕ → ℕ → α → Option β) (prev : Option ℕ) (h : Chain m p l)
    (hk : l.length ≤ k) :
    search m (fun o b y => .ok (t o b y)) k prev p = .ok none ∨
      ∃ l₁ a x l₂ r, l = l₁ ++ (a, x) :: l₂ ∧ t (lastAddr prev l₁) a x = some r ∧
        search m (fun o b y => .ok (t o b y)) k prev p = .ok (some r) := by
  induction l generalizing p k prev with
  | nil => exact .inl (search_miss prev h (fun _ _ _ hb => nomatch hb) hk)
  | cons ax l ih =>
    obtain ⟨a, x⟩ := ax
    have hchain : Chain m p ([] ++ (a, x) :: l) := h
    obtain ⟨rfl, n, hn, h⟩ := h
    rcases ht : t prev a x with _ | r
    · obtain ⟨k, rfl⟩ := Nat.exists_eq_add_one_of_ne_zero
        (show k ≠ 0 by rw [List.length_cons] at hk; omega)
      have hnext : search m (fun o b y => .ok (t o b y)) (k + 1) prev (some a) =
          search m (fun o b y => .ok (t o b y)) k (some a) n := by
        rw [search, Mem.get_of_read hn]
        simp only [bind, Except.bind, ht]
      rw [hnext]
      rcases ih (some a) h (by simpa using hk) with hmiss | ⟨l₁, b, y, l₂, r, rfl, hr, hhit⟩
      · exact .inl hmiss
      · exact .inr ⟨(a, x) :: l₁, b, y, l₂, r, rfl, by rw [lastAddr_cons, hr], hhit⟩
    · refine .inr ⟨[], a, x, l, r, rfl, by rw [lastAddr_nil, ht], ?_⟩
      rw [List.length_cons] at hk
      exact search_hit prev hchain (fun _ _ _ hb => nomatch hb)
        (by rw [lastAddr_nil, ht]) (by rw [List.length_nil]; omega)

/-- A loop that breaks at an address breaks at the cell with this address. -/
theorem search_addr (r : Option ℕ → ℕ → β) (prev : Option ℕ)
    (h : Chain m p (l₁ ++ (a, x) :: l₂)) (hk : (l₁ ++ (a, x) :: l₂).length ≤ k) :
    search m (fun prev b _ => .ok (if b = a then some (r prev b) else none)) k prev p =
      .ok (some (r (lastAddr prev l₁) a)) := by
  have hnd := h.nodup
  rw [List.map_append, List.nodup_append] at hnd
  refine search_hit prev h (fun b y o hb => ?_) (by rw [if_pos rfl]) ?_
  · have hne : b ≠ a := hnd.2.2 b (List.mem_map_of_mem hb) a (by simp)
    rw [if_neg hne]
  · rw [List.length_append, List.length_cons] at hk
    omega

theorem fold_eq {g : β → ℕ → α → Except Fault β} (h : Chain m p l) (hk : l.length ≤ k)
    (acc : β) :
    fold m g k p acc = l.foldlM (fun acc ax => g acc ax.1 ax.2) acc := by
  induction l generalizing p k acc with
  | nil =>
    obtain rfl : p = none := h
    cases k <;> rfl
  | cons ax l ih =>
    obtain ⟨a, x⟩ := ax
    obtain ⟨rfl, n, hn, h⟩ := h
    cases k with
    | zero => simp at hk
    | succ k =>
      rw [fold, Mem.get_of_read hn, List.foldlM_cons]
      show (g acc a x >>= _) = _
      exact congrArg _ (funext fun acc => ih h (by simpa using hk) acc)

end LinkedList
