import Cebus.Messages.Proto

/-!
# Binding keys (`binding_key.c`)

A key is `NULL` or an array of fragments; a fragment that is not there is `NULL`.
The array of a key without fragments is one of `malloc(0)`, which is taken to be a
pointer.
-/

namespace Cebus

/-- `cb_binding_key` (`binding_key.h`, lines 24–28): the array `parts`. -/
abbrev BindingKey := Option (List CString)

/-- `cb_binding_key_fragment` (`binding_key.h`, lines 19–22). -/
abbrev BindingKeyFragment := Option CString

/-- `CB_BINDING_KEY_TOKEN_STAR` (`binding_key.h`, line 16). -/
def tokenStar : CString := CString.ofChars ['*']

/-- `CB_BINDING_KEY_TOKEN_SHARP` (`binding_key.h`, line 17). -/
def tokenSharp : CString := CString.ofChars ['#']

namespace BindingKey

/-- `cb_binding_key_init` (lines 39–43). -/
def init : BindingKey := none

/-- `cb_binding_key_is_empty` (lines 95–99). -/
def isEmpty (key : BindingKey) : Bool :=
  match key with
  | none => true
  | some [part] => CString.strcmpEq part tokenSharp
  | some _ => false

/-- `cb_binding_key_fragment_count` (lines 111–114). -/
def fragmentCount (key : BindingKey) : ℕ := (key.getD []).length

/-- `cb_binding_key_get_fragment` (lines 329–339). -/
def getFragment (key : BindingKey) (index : ℕ) : BindingKeyFragment := (key.getD [])[index]?

/-- `cb_binding_key_fragment_is_empty` (lines 353–356). -/
def fragmentIsEmpty (fragment : BindingKeyFragment) : Bool := fragment.isNone

/-- `cb_binding_key_fragment_is_sharp` (lines 358–364). -/
def fragmentIsSharp (fragment : BindingKeyFragment) : Bool :=
  match fragment with
  | none => false
  | some value => CString.strcmpEq value tokenSharp

/-- `cb_binding_key_fragment_is_star` (lines 366–372). -/
def fragmentIsStar (fragment : BindingKeyFragment) : Bool :=
  match fragment with
  | none => false
  | some value => CString.strcmpEq value tokenStar

/-- `cb_binding_key_fragment_eq` (lines 374–383). -/
def fragmentEq (lhs rhs : BindingKeyFragment) : Bool :=
  match lhs, rhs with
  | none, none => true
  | some lhs, some rhs => CString.strcmpEq lhs rhs
  | _, _ => false

/-- `cb_binding_key_from_proto` (lines 151–163). -/
def fromProto (proto : Proto.BindingKey) : BindingKey := some proto.parts

/-- `cb_binding_key_proto_new` (lines 165–192). -/
def protoNew (key : BindingKey) : Proto.BindingKey :=
  match key with
  | none => ⟨[tokenSharp]⟩
  | some parts => ⟨parts⟩

@[simp] theorem fragmentIsSharp_iff {fragment : BindingKeyFragment} :
    fragmentIsSharp fragment = true ↔ fragment = some tokenSharp := by
  cases fragment <;> simp [fragmentIsSharp, CString.strcmpEq]

@[simp] theorem fragmentIsStar_iff {fragment : BindingKeyFragment} :
    fragmentIsStar fragment = true ↔ fragment = some tokenStar := by
  cases fragment <;> simp [fragmentIsStar, CString.strcmpEq]

@[simp] theorem fragmentEq_iff {lhs rhs : BindingKeyFragment} :
    fragmentEq lhs rhs = true ↔ lhs = rhs := by
  cases lhs <;> cases rhs <;> simp [fragmentEq, CString.strcmpEq]

theorem isEmpty_some {parts : List CString} :
    isEmpty (some parts) = true ↔ parts = [tokenSharp] := by
  rcases parts with _ | ⟨part, _ | ⟨next, parts⟩⟩
  · simp [isEmpty]
  · simp [isEmpty, CString.strcmpEq]
  · simp [isEmpty]

theorem tokenStar_ne_tokenSharp : tokenStar ≠ tokenSharp := by decide

/-- The fragment at an index from which the fragments `f :: q` are left. -/
theorem getFragment_of_drop {parts q : List CString} {f : CString} {j : ℕ}
    (h : parts.drop j = f :: q) : getFragment (some parts) j = some f := by
  have := congrArg List.head? h
  rwa [List.head?_drop] at this

end BindingKey

end Cebus
