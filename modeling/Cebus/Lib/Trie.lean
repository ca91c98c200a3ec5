import Mathlib.Data.List.Nodup
import Mathlib.Tactic.Common

/-!
# Tries

A trie is given by the labelled children and the values of its nodes. A node may
have several children under one label.

* `stored_insert`, `stored_erase`: what is stored below a node of which one child
  is added, replaced or taken out.
* `Everywhere.update`: a property of all nodes, after such a change.
-/

namespace Trie

universe u v w

variable {ν : Type u} {κ : Type v} {ι : Type w} {kids : ν → List (κ × ν)} {value : ν → ι → Prop}
  {n n' c c' : ν} {f g : κ} {q : List κ} {x : ι} {k₁ k₂ : List (κ × ν)} {o o' : Option ν}

/-- The value `x` is stored at the path `q` below the node. -/
inductive Stored (kids : ν → List (κ × ν)) (value : ν → ι → Prop) : ν → List κ → ι → Prop where
  | here {n : ν} {x : ι} : value n x → Stored kids value n [] x
  | step {n c : ν} {f : κ} {q : List κ} {x : ι} :
      (f, c) ∈ kids n → Stored kids value c q x → Stored kids value n (f :: q) x

theorem stored_nil : Stored kids value n [] x ↔ value n x := by
  constructor
  · intro h
    cases h with
    | here h => exact h
  · exact Stored.here

theorem stored_cons :
    Stored kids value n (f :: q) x ↔ ∃ c, (f, c) ∈ kids n ∧ Stored kids value c q x := by
  constructor
  · intro h
    cases h with
    | step hc h => exact ⟨_, hc, h⟩
  · rintro ⟨c, hc, h⟩
    exact Stored.step hc h

/-- `P` holds of a node and, with its distance, of every node below it. -/
inductive Everywhere (kids : ν → List (κ × ν)) (P : ℕ → ν → Prop) : ℕ → ν → Prop where
  | mk {j : ℕ} {n : ν} : P j n → (∀ f c, (f, c) ∈ kids n → Everywhere kids P (j + 1) c) →
      Everywhere kids P j n

namespace Everywhere

variable {P : ℕ → ν → Prop} {j : ℕ}

theorem here (h : Everywhere kids P j n) : P j n := by
  cases h with
  | mk hP _ => exact hP

theorem child (h : Everywhere kids P j n) (hc : (f, c) ∈ kids n) : Everywhere kids P (j + 1) c := by
  cases h with
  | mk _ hkids => exact hkids f c hc

theorem mono {Q : ℕ → ν → Prop} (h : Everywhere kids P j n) (hPQ : ∀ j n, P j n → Q j n) :
    Everywhere kids Q j n := by
  induction h with
  | mk hP _ ih => exact mk (hPQ _ _ hP) ih

/-- A node without children. -/
theorem leaf (hn : P j n) (hkids : kids n = []) : Everywhere kids P j n := by
  refine mk hn fun f c hc => ?_
  rw [hkids] at hc
  cases hc

/-- Two properties of all nodes are one. -/
theorem and {Q : ℕ → ν → Prop} (h : Everywhere kids P j n) (h' : Everywhere kids Q j n) :
    Everywhere kids (fun j n => P j n ∧ Q j n) j n := by
  induction h with
  | mk hP _ ih => exact mk ⟨hP, h'.here⟩ fun f c hc => ih f c hc (h'.child hc)

/-- A node with some of the children. -/
theorem of_subset (h : Everywhere kids P j n) (hk : kids n' ⊆ kids n) (hn' : P j n') :
    Everywhere kids P j n' :=
  mk hn' fun _ _ hc => h.child (hk hc)

/-- A node with the same children. -/
theorem of_kids (h : Everywhere kids P j n) (hk : kids n' = kids n) (hn' : P j n') :
    Everywhere kids P j n' :=
  h.of_subset (fun _ hc => hk ▸ hc) hn'

end Everywhere

/-! ## Changing one child -/

theorem mem_others (hk : kids n = k₁ ++ (o.map (f, ·)).toList ++ k₂) :
    ∀ p ∈ k₁ ++ k₂, p ∈ kids n := by
  intro p hp
  rw [hk]
  rcases List.mem_append.mp hp with hp | hp
  · exact List.mem_append_left _ (List.mem_append_left _ hp)
  · exact List.mem_append_right _ hp

/-- **Update.** The children other than the one that is changed keep the property. -/
theorem Everywhere.update {P : ℕ → ν → Prop} {j : ℕ} (h : Everywhere kids P j n)
    (hk : kids n = k₁ ++ (o.map (f, ·)).toList ++ k₂)
    (hk' : kids n' = k₁ ++ (o'.map (f, ·)).toList ++ k₂) (hn' : P j n')
    (hc' : ∀ c' ∈ o', Everywhere kids P (j + 1) c') : Everywhere kids P j n' := by
  have hothers := mem_others hk
  refine Everywhere.mk hn' fun g d hd => ?_
  rw [hk'] at hd
  simp only [List.mem_append, Option.mem_toList, Option.map_eq_some_iff] at hd
  rcases hd with (hd | ⟨c', hc, hd⟩) | hd
  · exact h.child (hothers _ (List.mem_append_left _ hd))
  · obtain ⟨-, rfl⟩ := Prod.mk.inj hd
    exact hc' c' hc
  · exact h.child (hothers _ (List.mem_append_right _ hd))

theorem stored_split (hk : kids n = k₁ ++ (o.map (f, ·)).toList ++ k₂) :
    Stored kids value n (g :: q) x ↔
      (g = f ∧ ∃ c ∈ o, Stored kids value c q x) ∨
        ∃ c, (g, c) ∈ k₁ ++ k₂ ∧ Stored kids value c q x := by
  rw [stored_cons, hk]
  simp only [List.mem_append, Option.mem_toList, Option.map_eq_some_iff, Prod.mk.injEq]
  constructor
  · rintro ⟨c, (h | ⟨d, hd, rfl, rfl⟩) | h, hc⟩
    · exact Or.inr ⟨c, Or.inl h, hc⟩
    · exact Or.inl ⟨rfl, d, hd, hc⟩
    · exact Or.inr ⟨c, Or.inr h, hc⟩
  · rintro (⟨rfl, c, hc, h⟩ | ⟨c, hc | hc, h⟩)
    · exact ⟨c, Or.inl (Or.inr ⟨c, hc, rfl, rfl⟩), h⟩
    · exact ⟨c, Or.inl (Or.inl hc), h⟩
    · exact ⟨c, Or.inr hc, h⟩

/-- **Insertion.** If the child under `f`, new or old, stores one value more, so
    does the node. -/
theorem stored_insert (hk : kids n = k₁ ++ (o.map (f, ·)).toList ++ k₂)
    (hk' : kids n' = k₁ ++ (o'.map (f, ·)).toList ++ k₂)
    (hv : ∀ y, value n' y ↔ value n y)
    (hc : ∀ q' y, (∃ c ∈ o', Stored kids value c q' y) ↔
      (∃ c ∈ o, Stored kids value c q' y) ∨ (q' = q ∧ y = x)) (q' : List κ) (y : ι) :
    Stored kids value n' q' y ↔ Stored kids value n q' y ∨ (q' = f :: q ∧ y = x) := by
  cases q' with
  | nil => simp [stored_nil, hv]
  | cons g q' =>
    rw [stored_split hk, stored_split hk', hc, List.cons.injEq]
    constructor
    · rintro (⟨rfl, h | ⟨rfl, rfl⟩⟩ | h)
      · exact Or.inl (Or.inl ⟨rfl, h⟩)
      · exact Or.inr ⟨⟨rfl, rfl⟩, rfl⟩
      · exact Or.inl (Or.inr h)
    · rintro ((⟨rfl, h⟩ | h) | ⟨⟨rfl, rfl⟩, rfl⟩)
      · exact Or.inl ⟨rfl, Or.inl h⟩
      · exact Or.inr h
      · exact Or.inl ⟨rfl, Or.inr ⟨rfl, rfl⟩⟩

/-- **Removal.** If the only child under `f` stores one value less, so does the node. -/
theorem stored_erase (hk : kids n = k₁ ++ (o.map (f, ·)).toList ++ k₂)
    (hk' : kids n' = k₁ ++ (o'.map (f, ·)).toList ++ k₂)
    (hv : ∀ y, value n' y ↔ value n y) (hf : ∀ c, (f, c) ∉ k₁ ++ k₂)
    (hc : ∀ q' y, (∃ c ∈ o', Stored kids value c q' y) ↔
      (∃ c ∈ o, Stored kids value c q' y) ∧ ¬(q' = q ∧ y = x)) (q' : List κ) (y : ι) :
    Stored kids value n' q' y ↔ Stored kids value n q' y ∧ ¬(q' = f :: q ∧ y = x) := by
  cases q' with
  | nil => simp [stored_nil, hv]
  | cons g q' =>
    rw [stored_split hk, stored_split hk', hc, List.cons.injEq]
    constructor
    · rintro (⟨rfl, h, hne⟩ | ⟨c, hmem, h⟩)
      · exact ⟨Or.inl ⟨rfl, h⟩, fun heq => hne ⟨heq.1.2, heq.2⟩⟩
      · refine ⟨Or.inr ⟨c, hmem, h⟩, ?_⟩
        rintro ⟨⟨rfl, -⟩, -⟩
        exact hf c hmem
    · rintro ⟨⟨rfl, h⟩ | h, hne⟩
      · exact Or.inl ⟨rfl, h, fun heq => hne ⟨⟨rfl, heq.1⟩, heq.2⟩⟩
      · exact Or.inr h

end Trie
