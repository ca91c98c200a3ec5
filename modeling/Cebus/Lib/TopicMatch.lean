import Mathlib.Data.Nat.Notation

/-!
# Topic patterns

A pattern is a list of fragments; `star` stands for one fragment and, as the last
of the pattern, `sharp` for one or more.
-/

namespace TopicMatch

variable {κ : Type} (star sharp : κ)

/-- The topic `r` matches the pattern. -/
def Matches : List κ → List κ → Prop
  | [], [] => True
  | p :: ps, r :: rs => (p = sharp ∧ ps = []) ∨ ((p = star ∨ p = r) ∧ Matches ps rs)
  | _, _ => False

/-- Whether the topic matches. -/
def decMatches [DecidableEq κ] : ∀ ps rs : List κ, Decidable (Matches star sharp ps rs)
  | [], [] => inferInstanceAs (Decidable True)
  | p :: ps, r :: rs =>
    have := decMatches ps rs
    inferInstanceAs (Decidable ((p = sharp ∧ ps = []) ∨ ((p = star ∨ p = r) ∧ _)))
  | [], _ :: _ => inferInstanceAs (Decidable False)
  | _ :: _, [] => inferInstanceAs (Decidable False)

instance [DecidableEq κ] {ps rs : List κ} : Decidable (Matches star sharp ps rs) :=
  decMatches star sharp ps rs

end TopicMatch
