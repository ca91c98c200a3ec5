import Mathlib.Algebra.Group.Nat.Defs
import Mathlib.Data.List.Basic
import Mathlib.Data.Nat.Notation

/-!
# Numbers in base 128

Seven bits of the number in each byte, the least significant ones first. The highest
bit of a byte tells whether another byte follows.

* `value_encode`: the bytes of a number have its value.
* `length_encode_le_iff`: how many bytes a number takes.
* `firstLow_append`: a code word ends where its first low byte is, whatever follows.
-/

namespace Base128

/-- The bytes of a number that takes at most `fuel + 1` of them. -/
def encodeFuel : ℕ → ℕ → List UInt8
  | 0, n => [UInt8.ofNat n]
  | fuel + 1, n =>
    if n < 128 then [UInt8.ofNat n]
    else UInt8.ofNat (n % 128 + 128) :: encodeFuel fuel (n / 128)

/-- The bytes of a number, as few as possible. -/
def encode (n : ℕ) : List UInt8 := encodeFuel n n

/-- The number that the lower seven bits of the bytes make. -/
def value : List UInt8 → ℕ
  | [] => 0
  | b :: bs => b.toNat % 128 + 128 * value bs

/-- No other byte follows this one. -/
def Low (b : UInt8) : Prop := b.toNat < 128

instance (b : UInt8) : Decidable (Low b) := inferInstanceAs (Decidable (_ < _))

/-- The last byte is the only low one. -/
def CodeWord (bs : List UInt8) : Prop :=
  ∃ init last, bs = init ++ [last] ∧ (∀ b ∈ init, ¬Low b) ∧ Low last

variable {n k m : ℕ} {bs cs : List UInt8} {b : UInt8}

/-! ## Values -/

@[simp] theorem value_nil : value [] = 0 := rfl

theorem value_cons : value (b :: bs) = b.toNat % 128 + 128 * value bs := rfl

theorem value_append : value (bs ++ cs) = value bs + 128 ^ bs.length * value cs := by
  induction bs with
  | nil => rw [List.nil_append, value_nil, List.length_nil, Nat.pow_zero, Nat.one_mul,
      Nat.zero_add]
  | cons b bs ih =>
    rw [List.cons_append, value_cons, value_cons, ih, List.length_cons, Nat.pow_succ,
      Nat.mul_add, Nat.add_assoc, ← Nat.mul_assoc, Nat.mul_comm (128 ^ bs.length)]

theorem value_lt (bs : List UInt8) : value bs < 128 ^ bs.length := by
  induction bs with
  | nil => exact Nat.one_pos
  | cons b bs ih =>
    rw [value_cons, List.length_cons, Nat.pow_succ]
    omega

theorem value_take (k : ℕ) (bs : List UInt8) : value (bs.take k) = value bs % 128 ^ k := by
  induction bs generalizing k with
  | nil => rw [List.take_nil, value_nil, Nat.zero_mod]
  | cons b bs ih =>
    cases k with
    | zero => rw [List.take_zero, value_nil, Nat.pow_zero, Nat.mod_one]
    | succ k =>
      have hdiv : (b.toNat % 128 + 128 * value bs) / 128 = value bs := by omega
      have hmod : (b.toNat % 128 + 128 * value bs) % 128 = b.toNat % 128 := by omega
      rw [List.take_succ_cons, value_cons, ih, value_cons, Nat.pow_succ, Nat.mul_comm (128 ^ k),
        Nat.mod_mul, hdiv, hmod]

/-! ## The bytes of a number -/

theorem encodeFuel_eq (h : n ≤ k) : encodeFuel k n = encode n := by
  rw [encode]
  induction n using Nat.strongRecOn generalizing k with
  | ind n ih =>
    cases n with
    | zero => cases k <;> rfl
    | succ n =>
      obtain ⟨k, rfl⟩ := Nat.exists_eq_add_one_of_ne_zero (show k ≠ 0 by omega)
      rw [encodeFuel, encodeFuel]
      by_cases hlt : n + 1 < 128
      · rw [if_pos hlt, if_pos hlt]
      · have hdiv : (n + 1) / 128 < n + 1 := Nat.div_lt_self (Nat.succ_pos n) (by decide)
        rw [if_neg hlt, if_neg hlt, ih _ hdiv (k := k) (by omega), ih _ hdiv (k := n) (by omega)]

theorem encode_of_lt (h : n < 128) : encode n = [UInt8.ofNat n] := by
  cases n with
  | zero => rfl
  | succ n => rw [encode, encodeFuel, if_pos h]

theorem encode_of_le (h : 128 ≤ n) :
    encode n = UInt8.ofNat (n % 128 + 128) :: encode (n / 128) := by
  obtain ⟨m, rfl⟩ := Nat.exists_eq_add_one_of_ne_zero (show n ≠ 0 by omega)
  rw [encode, encodeFuel, if_neg (Nat.not_lt.mpr h), encodeFuel_eq (by omega)]

theorem toNat_high (n : ℕ) : (UInt8.ofNat (n % 128 + 128)).toNat = n % 128 + 128 := by
  rw [UInt8.toNat_ofNat']
  omega

theorem toNat_low (h : n < 128) : (UInt8.ofNat n).toNat = n := by
  rw [UInt8.toNat_ofNat']
  omega

/-- A byte that another one follows, and the bytes of the rest. -/
theorem cons_eq_encode (h : 128 ≤ n) (hb : b.toNat = n % 128 + 128)
    (hbs : bs = encode (n / 128)) : b :: bs = encode n := by
  rw [encode_of_le h, ← hbs]
  congr 1
  rw [← UInt8.toNat_inj, hb, toNat_high]

/-- The last byte. -/
theorem singleton_eq_encode (h : n < 128) (hb : b.toNat = n) : [b] = encode n := by
  rw [encode_of_lt h]
  congr 1
  rw [← UInt8.toNat_inj, hb, toNat_low h]

/-- **The bytes of a number have its value.** -/
theorem value_encode (n : ℕ) : value (encode n) = n := by
  induction n using Nat.strongRecOn with
  | ind n ih =>
    by_cases h : n < 128
    · rw [encode_of_lt h, value_cons, value_nil, toNat_low h]
      omega
    · rw [encode_of_le (Nat.not_lt.mp h), value_cons, ih (n / 128) (by omega), toNat_high]
      omega

theorem codeWord_encode (n : ℕ) : CodeWord (encode n) := by
  induction n using Nat.strongRecOn with
  | ind n ih =>
    by_cases h : n < 128
    · rw [encode_of_lt h]
      refine ⟨[], _, rfl, fun b hb => absurd hb List.not_mem_nil, ?_⟩
      rwa [Low, toNat_low h]
    · obtain ⟨init, last, heq, hinit, hlast⟩ := ih (n / 128) (by omega)
      rw [encode_of_le (Nat.not_lt.mp h), heq]
      refine ⟨UInt8.ofNat (n % 128 + 128) :: init, last, by rw [List.cons_append], ?_, hlast⟩
      intro b hb
      obtain rfl | hb := List.mem_cons.mp hb
      · rw [Low, toNat_high]
        omega
      · exact hinit b hb

theorem encode_ne_nil (n : ℕ) : encode n ≠ [] := by
  obtain ⟨init, last, heq, -, -⟩ := codeWord_encode n
  rw [heq]
  exact List.append_ne_nil_of_right_ne_nil init (List.cons_ne_nil last [])

theorem length_encode_pos (n : ℕ) : 0 < (encode n).length :=
  List.length_pos_of_ne_nil (encode_ne_nil n)

/-- **How many bytes a number takes.** -/
theorem length_encode_le_iff : (encode n).length ≤ k + 1 ↔ n < 128 ^ (k + 1) := by
  induction k generalizing n with
  | zero =>
    by_cases h : n < 128
    · rw [encode_of_lt h]
      simpa using h
    · have hpos := length_encode_pos (n / 128)
      rw [encode_of_le (Nat.not_lt.mp h), List.length_cons]
      omega
  | succ k ih =>
    have hdiv : n / 128 < 128 ^ (k + 1) ↔ n < 128 ^ (k + 1 + 1) := by
      rw [Nat.pow_succ 128 (k + 1), Nat.div_lt_iff_lt_mul (by decide)]
    by_cases h : n < 128
    · rw [encode_of_lt h]
      have hle : 128 ^ 1 ≤ 128 ^ (k + 1 + 1) := Nat.pow_le_pow_right (by decide) (by omega)
      exact iff_of_true (by simp) (by omega)
    · rw [encode_of_le (Nat.not_lt.mp h), List.length_cons, Nat.add_le_add_iff_right, ih, hdiv]

theorem length_encode_eq (hlo : 128 ^ (k + 1) ≤ n) (hhi : n < 128 ^ (k + 2)) :
    (encode n).length = k + 2 := by
  have hle := (length_encode_le_iff (k := k + 1)).mpr hhi
  have hnot := mt (length_encode_le_iff (k := k)).mp (Nat.not_lt.mpr hlo)
  omega

theorem length_encode_mono (h : m ≤ n) : (encode m).length ≤ (encode n).length := by
  obtain ⟨k, hk⟩ := Nat.exists_eq_add_one_of_ne_zero (Nat.ne_of_gt (length_encode_pos n))
  rw [hk, length_encode_le_iff]
  exact Nat.lt_of_le_of_lt h (length_encode_le_iff.mp (Nat.le_of_eq hk))

/-- A number up to 128 times as large takes at most one more byte. -/
theorem length_encode_le_succ (h : n < 128 * (m + 1)) :
    (encode n).length ≤ (encode m).length + 1 := by
  obtain ⟨k, hk⟩ := Nat.exists_eq_add_one_of_ne_zero (Nat.ne_of_gt (length_encode_pos m))
  have hm := length_encode_le_iff.mp (Nat.le_of_eq hk)
  rw [hk, length_encode_le_iff, Nat.pow_succ]
  omega

/-! ## Code words -/

/-- The index of the first byte that no other one follows. -/
def firstLow (bs : List UInt8) : Option ℕ := bs.findIdx? fun b => decide (Low b)

/-- **A code word ends where its first low byte is**, whatever follows it. -/
theorem firstLow_append (h : CodeWord bs) : firstLow (bs ++ cs) = some (bs.length - 1) := by
  obtain ⟨init, last, rfl, hinit, hlast⟩ := h
  have hnone : init.findIdx? (fun b => decide (Low b)) = none := by
    rw [List.findIdx?_eq_none_iff]
    exact fun b hb => decide_eq_false (hinit b hb)
  rw [firstLow, List.append_assoc, List.findIdx?_append, hnone, Option.none_or,
    List.findIdx?_append, List.findIdx?_singleton, if_pos (decide_eq_true hlast), Option.some_or,
    Option.map_some, List.length_append, List.length_singleton, Nat.zero_add, Nat.add_sub_cancel]

/-- What ends with the first low byte is a code word. -/
theorem codeWord_take (h : firstLow bs = some k) : CodeWord (bs.take (k + 1)) := by
  obtain ⟨hk, hlast, hinit⟩ := List.findIdx?_eq_some_iff_getElem.mp h
  refine ⟨bs.take k, bs[k], List.take_succ_eq_append_getElem hk, fun b hb => ?_,
    of_decide_eq_true hlast⟩
  obtain ⟨i, hi, rfl⟩ := List.mem_take_iff_getElem.mp hb
  have hlow := hinit i (by omega)
  simpa using hlow

end Base128
