import Cebus.Lib.Fallible
import Cebus.Lib.LinkedList

/-!
# Strings

The strings of the C library that the peers and binding keys are made of.

* `vsnprintf_of_plain`: a format without a `%` is printed as it is, up to the
  size of the buffer.
* `vsnprintf_eq_self_iff`: no other format that fits is printed as it is.
-/

namespace Cebus

open LinkedList (Fault)

/-- A string without its terminating zero. -/
@[ext]
structure CString where
  bytes : List UInt8
  noNul : 0 ∉ bytes
deriving DecidableEq

namespace CString

/-- The string of the characters `cs`. -/
def ofChars (cs : List Char) : CString := ⟨(cs.map Char.toUInt8).filter (· ≠ 0), by simp⟩

/-- `strcmp(s, t) == 0`. -/
def strcmpEq (s t : CString) : Bool := s = t

/-- The first `n` bytes. -/
def take (s : CString) (n : ℕ) : CString :=
  ⟨s.bytes.take n, fun h => s.noNul (List.mem_of_mem_take h)⟩

/-- `strncmp(s, t, n) == 0`. -/
def strncmpEq (s t : CString) (n : ℕ) : Bool := s.take n = t.take n

/-- `strncpy(dst, s, n)`: what is in the array `dst` of `n` bytes up to its first
    zero, if there is one. -/
def strncpy (s : CString) (n : ℕ) : CString := s.take n

theorem take_of_length_le {s : CString} {n : ℕ} (h : s.bytes.length ≤ n) : s.take n = s := by
  ext1
  exact List.take_of_length_le h

theorem toNat_toUInt8_of_ascii {c : Char} (h : c.toNat < 128) : c.toUInt8.toNat = c.toNat := by
  have hmod : c.toUInt8.toNat = c.toNat % 2 ^ 8 := UInt32.toNat_toUInt8 c.val
  omega

/-- No character of an ASCII text gets lost. -/
theorem bytes_ofChars {cs : List Char} (h : ∀ c ∈ cs, 0 < c.toNat ∧ c.toNat < 128) :
    (ofChars cs).bytes = cs.map Char.toUInt8 := by
  apply List.filter_eq_self.2
  intro b hb
  obtain ⟨c, hc, rfl⟩ := List.mem_map.1 hb
  obtain ⟨hpos, hascii⟩ := h c hc
  have hbyte := toNat_toUInt8_of_ascii hascii
  apply decide_eq_true
  intro hzero
  rw [hzero] at hbyte
  have : (0 : UInt8).toNat = 0 := rfl
  omega

/-- ASCII texts with the same bytes are the same. -/
theorem ofChars_injective {cs ds : List Char} (hcs : ∀ c ∈ cs, 0 < c.toNat ∧ c.toNat < 128)
    (hds : ∀ c ∈ ds, 0 < c.toNat ∧ c.toNat < 128) (h : ofChars cs = ofChars ds) : cs = ds := by
  have hbytes := congrArg CString.bytes h
  rw [bytes_ofChars hcs, bytes_ofChars hds] at hbytes
  have hnat := congrArg (List.map fun b => Char.ofNat b.toNat) hbytes
  have hback {es : List Char} (hes : ∀ c ∈ es, 0 < c.toNat ∧ c.toNat < 128) :
      (es.map Char.toUInt8).map (fun b => Char.ofNat b.toNat) = es := by
    rw [List.map_map]
    apply (List.map_congr_left ?_).trans (List.map_id es)
    intro c hc
    rw [Function.comp_apply, toNat_toUInt8_of_ascii (hes c hc).2, Char.ofNat_toNat, id_eq]
  rwa [hback hcs, hback hds] at hnat

/-- What a format prints without arguments: only the directive `%%` needs none. -/
def expand : List UInt8 → Except Fault (List UInt8)
  | [] => .ok []
  | [c] => if c = 37 then .error .wild else .ok [c]
  | c :: d :: cs =>
    if c = 37 then
      if d = 37 then (37 :: ·) <$> expand cs else .error .wild
    else (c :: ·) <$> expand (d :: cs)

theorem expand_subset {fmt out : List UInt8} (h : expand fmt = .ok out) : ∀ c ∈ out, c ∈ fmt := by
  fun_induction expand fmt generalizing out with
  | case1 => cases h; simp
  | case2 => cases h
  | case3 => cases h; simp
  | case4 cs ih =>
    obtain ⟨out', ho, rfl⟩ := Fallible.map_eq_ok.mp h
    intro c hc
    rcases List.mem_cons.mp hc with rfl | hc
    · simp
    · simp [ih ho c hc]
  | case5 => cases h
  | case6 c d cs _ ih =>
    obtain ⟨out', ho, rfl⟩ := Fallible.map_eq_ok.mp h
    intro e he
    rcases List.mem_cons.mp he with rfl | he
    · simp
    · exact List.mem_cons_of_mem _ (ih ho e he)

/-- A directive is longer than what it prints. -/
theorem length_expand {fmt out : List UInt8} (h : expand fmt = .ok out) :
    out.length ≤ fmt.length ∧ (37 ∈ fmt → out.length < fmt.length) := by
  fun_induction expand fmt generalizing out with
  | case1 =>
    cases h
    exact ⟨Nat.le_refl _, fun hmem => nomatch hmem⟩
  | case2 => cases h
  | case3 c hc =>
    cases h
    exact ⟨Nat.le_refl _, fun hmem => absurd (List.mem_singleton.mp hmem).symm hc⟩
  | case4 cs ih =>
    obtain ⟨out', ho, rfl⟩ := Fallible.map_eq_ok.mp h
    have hle := (ih ho).1
    simp only [List.length_cons]
    exact ⟨by omega, fun _ => by omega⟩
  | case5 => cases h
  | case6 c d cs hc ih =>
    obtain ⟨out', ho, rfl⟩ := Fallible.map_eq_ok.mp h
    obtain ⟨hle, hlt⟩ := ih ho
    simp only [List.length_cons] at hle hlt ⊢
    refine ⟨by omega, fun hmem => ?_⟩
    have hrest := hlt ((List.mem_cons.mp hmem).resolve_left fun heq => hc heq.symm)
    omega

/-- `vsnprintf(buf, size, fmt, list)` with an empty argument list. -/
def vsnprintf (size : ℕ) (fmt : CString) : Except Fault CString :=
  match h : expand fmt.bytes with
  | .error e => .error e
  | .ok out => .ok (CString.take ⟨out, fun h0 => fmt.noNul (expand_subset h 0 h0)⟩ (size - 1))

/-- The string contains no `%`. -/
def Plain (s : CString) : Prop := 37 ∉ s.bytes

instance (s : CString) : Decidable (Plain s) := inferInstanceAs (Decidable (37 ∉ s.bytes))

theorem expand_of_plain {fmt : List UInt8} (h : 37 ∉ fmt) : expand fmt = .ok fmt := by
  fun_induction expand fmt with
  | case1 => rfl
  | case2 => simp at h
  | case3 => rfl
  | case4 => simp at h
  | case5 => simp at h
  | case6 c d cs _ ih => rw [ih fun hd => h (List.mem_cons_of_mem _ hd)]; rfl

theorem vsnprintf_of_plain {fmt : CString} (h : Plain fmt) (size : ℕ) :
    vsnprintf size fmt = .ok (fmt.take (size - 1)) := by
  unfold vsnprintf
  split
  · next e he =>
    rw [expand_of_plain h] at he
    cases he
  · next out ho =>
    obtain rfl := Except.ok.inj ((expand_of_plain h).symm.trans ho)
    rfl

/-- **A string that fits is printed as it is** only if it contains no `%`. -/
theorem vsnprintf_eq_self_iff {s : CString} (size : ℕ) (h : s.bytes.length ≤ size - 1) :
    vsnprintf size s = .ok s ↔ Plain s := by
  constructor
  · intro heq hmem
    unfold vsnprintf at heq
    split at heq
    · cases heq
    · next out ho =>
      have hlt := (length_expand ho).2 hmem
      have hlen := congrArg (fun t => (CString.bytes t).length) (Except.ok.inj heq)
      have hle : (out.take (size - 1)).length ≤ out.length := List.length_take_le' _ _
      dsimp only [take] at hlen
      omega
  · intro hplain
    rw [vsnprintf_of_plain hplain, take_of_length_le h]

end CString

end Cebus
