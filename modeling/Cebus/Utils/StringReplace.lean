import Cebus.Utils.CBuffer
import Mathlib.Tactic.SplitIfs

/-!
# Replacing a string (`string.c`)

Model of `cb_str_replace` on a buffer of bytes. The loop counts one byte too many when it passes
the needle: `n` is then one more than what has been written.

* `replaceLoop_behind`: the loop behind the needle copies what is left of the string.
* `replacesExactly_iff`: for which arguments the buffer gets the string that is asked for.
-/

namespace Cebus.CString

/-! ## Model -/

/-- The inner loop of `cb_str_replace` (lines 48–55), with the pointers `str` and `out` and the
    counter behind it. -/
def replaceStr (s : ℕ) : List UInt8 → Block UInt8 → ℕ → ℕ →
    Option (List UInt8 × Block UInt8 × ℕ × ℕ)
  | [], buf, out, n => some ([], buf, out, n)
  | c :: str, buf, out, n =>
    if n ≥ s then some (c :: str, buf, out, n)
    else do
      let buf ← buf.store out [c]
      replaceStr s str buf (out + 1) (n + 1)

/-- The outer loop (lines 41–66), with the buffer, the pointer `out` and the counter behind it.
    Each turn counts at least one byte, so that there are no more than `s` of them. -/
def replaceLoop (src needle : CString) (p s : ℕ) : ℕ → ℕ → List UInt8 → Block UInt8 → ℕ → ℕ →
    Option (Block UInt8 × ℕ × ℕ)
  | 0, _, _, _, _, _ => none
  | turns + 1, cursor, str, buf, out, n =>
    match src.bytes[cursor]? with
    | none => some (buf, out, n)
    | some c =>
      if n ≥ s then some (buf, out, n)
      else if cursor = p then do
        let (str, buf, out, n) ← replaceStr s str buf out n
        replaceLoop src needle p s turns (cursor + needle.bytes.length) str buf out (n + 1)
      else do
        let buf ← buf.store out [c]
        replaceLoop src needle p s turns (cursor + 1) str buf (out + 1) (n + 1)

/-- `cb_str_replace` (lines 23–70), for a `size` of at least 1: the buffer behind it. -/
def strReplace (src needle str : CString) (buf : Block UInt8) (size : ℕ) : Option (Block UInt8) :=
  match strstr src needle with
  | none => strncpyTo buf 0 src size
  | some p => do
    let (buf, out, n) ← replaceLoop src needle p (size - 1) size 0 str.bytes buf 0 0
    if n < size then buf.store out [0] else some buf

/-! ## What should be written -/

/-- The string with its first occurrence of the needle replaced. -/
def replaceFirst (src needle str : CString) : CString :=
  match strstr src needle with
  | none => src
  | some p => ⟨src.bytes.take p ++ str.bytes ++ src.bytes.drop (p + needle.bytes.length), by
      simp only [List.mem_append, not_or]
      exact ⟨⟨fun h => src.noNul (List.mem_of_mem_take h), str.noNul⟩,
        fun h => src.noNul (List.mem_of_mem_drop h)⟩⟩

/-- The buffer holds as much of this string as there is room for, with its terminator, and what
    is behind the `size` bytes stays as it was. -/
def ReplacesExactly (src needle str : CString) (buf : Block UInt8) (size : ℕ) : Prop :=
  ∃ buf', strReplace src needle str buf size = some buf' ∧
    ofCells buf' = some ((replaceFirst src needle str).take (size - 1)) ∧
    buf'.length = buf.length ∧ buf'.drop size = buf.drop size

/-- Without the needle, the string fits; with it, the room ends before the needle, or one byte
    more than the result fits, or the room ends in the replacement (or right behind it) and the
    last byte of the buffer is a terminator already. -/
def ReplacesWell (src needle str : CString) (buf : Block UInt8) (size : ℕ) : Prop :=
  match strstr src needle with
  | none => src.bytes.length < size
  | some p => size - 1 ≤ p ∨
      src.bytes.length + str.bytes.length + 1 < size + needle.bytes.length ∨
      size - 1 ≤ p + str.bytes.length ∧ buf[size - 1]? = some (some 0)

/-! ## The loops -/

variable {src needle str : CString} {buf rest : Block UInt8} {done : List UInt8}
  {p s size turns cursor n : ℕ}

/-- A byte goes behind those that have been written. -/
theorem store_byte (done : List UInt8) (c : UInt8) (hroom : 1 ≤ rest.length) :
    Block.store (done.map some ++ rest) done.length [c] =
      some ((done ++ [c]).map some ++ rest.drop 1) :=
  Block.store_append done [c] rest hroom

/-- **The inner loop** copies the replacement, as far as there is room. -/
theorem replaceStr_eq (n : ℕ) (str : List UInt8) (hroom : s - n ≤ rest.length) :
    ∃ left, replaceStr s str (done.map some ++ rest) done.length n =
      some (left,
        (done ++ str.take (s - n)).map some ++ rest.drop (str.take (s - n)).length,
        (done ++ str.take (s - n)).length, n + (str.take (s - n)).length) := by
  induction str generalizing done rest n with
  | nil =>
    refine ⟨[], ?_⟩
    rw [replaceStr, List.take_nil, List.append_nil]
    rfl
  | cons c str ih =>
    rw [replaceStr]
    by_cases hn : n ≥ s
    · refine ⟨c :: str, ?_⟩
      rw [if_pos hn, Nat.sub_eq_zero_of_le hn, List.take_zero, List.append_nil]
      rfl
    · obtain ⟨k, hk⟩ : ∃ k, s - n = k + 1 := ⟨s - n - 1, by omega⟩
      have hnext : s - (n + 1) = k := by omega
      obtain ⟨left, ih⟩ := @ih (rest.drop 1) (done ++ [c]) (n + 1)
        (by rw [List.length_drop]; omega)
      refine ⟨left, ?_⟩
      rw [if_neg hn, store_byte done c (by omega), Option.bind_eq_bind, Option.bind_some]
      rw [List.length_append, List.length_singleton, hnext] at ih
      rw [ih, hk, List.take_succ_cons, List.length_cons, List.drop_drop, List.append_assoc,
        List.singleton_append, Nat.add_assoc, Nat.add_comm 1]

/-- **The outer loop behind the needle** copies what is left of the string, as far as there is
    room. -/
theorem replaceLoop_behind (str : List UInt8) (hp : p < cursor) (hturns : s - n < turns)
    (hroom : s - n ≤ rest.length) :
    replaceLoop src needle p s turns cursor str (done.map some ++ rest) done.length n =
      some ((done ++ (src.bytes.drop cursor).take (s - n)).map some ++
          rest.drop ((src.bytes.drop cursor).take (s - n)).length,
        (done ++ (src.bytes.drop cursor).take (s - n)).length,
        n + ((src.bytes.drop cursor).take (s - n)).length) := by
  induction turns generalizing cursor done rest n with
  | zero => omega
  | succ turns ih =>
    rw [replaceLoop]
    cases hc : src.bytes[cursor]? with
    | none =>
      rw [List.drop_of_length_le (List.getElem?_eq_none_iff.mp hc), List.take_nil,
        List.append_nil]
      rfl
    | some c =>
      by_cases hn : n ≥ s
      · simp only [if_pos hn, Nat.sub_eq_zero_of_le hn, List.take_zero, List.append_nil]
        rfl
      · obtain ⟨k, hk⟩ : ∃ k, s - n = k + 1 := ⟨s - n - 1, by omega⟩
        have hnext : s - (n + 1) = k := by omega
        have ih := @ih (rest.drop 1) (done ++ [c]) (cursor + 1) (n + 1) (by omega) (by omega)
          (by rw [List.length_drop]; omega)
        rw [List.length_append, List.length_singleton, hnext] at ih
        obtain ⟨hlt, rfl⟩ := List.getElem?_eq_some_iff.mp hc
        simp only [if_neg hn, if_neg (Nat.ne_of_gt hp),
          store_byte done _ (show 1 ≤ rest.length by omega), Option.bind_eq_bind,
          Option.bind_some]
        rw [ih, hk, List.drop_eq_getElem_cons hlt, List.take_succ_cons, List.length_cons,
          List.drop_drop, List.append_assoc, List.singleton_append, Nat.add_assoc, Nat.add_comm 1]

/-- **The outer loop before the needle** copies the string. -/
theorem replaceLoop_before (str : List UInt8) {k : ℕ} (hp : k ≤ p) (hs : k ≤ s)
    (hlt : p < src.bytes.length) (hroom : s ≤ buf.length) :
    replaceLoop src needle p s (turns + k) 0 str buf 0 0 =
      replaceLoop src needle p s turns k str ((src.bytes.take k).map some ++ buf.drop k) k k := by
  induction k generalizing turns with
  | zero => rfl
  | succ k ih =>
    have hk : k < src.bytes.length := by omega
    have ih := @ih (turns + 1) (by omega) (by omega)
    have hlen : (src.bytes.take k).length = k := List.length_take_of_le (Nat.le_of_lt hk)
    have hstore := store_byte (src.bytes.take k) src.bytes[k]
      (show 1 ≤ (buf.drop k).length by rw [List.length_drop]; omega)
    rw [hlen, List.drop_drop] at hstore
    rw [Nat.add_right_comm] at ih
    rw [Nat.add_succ, ← Nat.succ_eq_add_one, Nat.succ_eq_add_one, ih, replaceLoop,
      List.getElem?_eq_getElem hk]
    simp only [if_neg (show ¬k ≥ s by omega), if_neg (show ¬k = p by omega), hstore,
      Option.bind_eq_bind, Option.bind_some, List.take_concat_get']

/-! ## What is written -/

/-- The needle stands in the string, and has a byte. -/
theorem lt_of_strstr (h : strstr src needle = some p) (hneedle : needle.bytes ≠ []) :
    p < src.bytes.length := by
  have hle := (bytes_of_strstr h).2
  have hpos := List.length_pos_iff.mpr hneedle
  omega

theorem length_replaceFirst (h : strstr src needle = some p) :
    (replaceFirst src needle str).bytes.length =
      p + str.bytes.length + (src.bytes.drop (p + needle.bytes.length)).length := by
  have hle := (bytes_of_strstr h).2
  simp only [replaceFirst, h, List.length_append]
  rw [List.length_take_of_le (by omega)]

theorem take_replaceFirst (h : strstr src needle = some p) :
    (replaceFirst src needle str).bytes =
      src.bytes.take p ++ str.bytes ++ src.bytes.drop (p + needle.bytes.length) := by
  simp only [replaceFirst, h]

/-- The room ends before the needle. -/
theorem strReplace_before (h : strstr src needle = some p) (hneedle : needle.bytes ≠ [])
    (hsize : 1 ≤ size) (hbuf : size ≤ buf.length) (hp : size - 1 ≤ p) :
    strReplace src needle str buf size =
      some ((((replaceFirst src needle str).bytes.take (size - 1)) ++ [0]).map some ++
        buf.drop size) := by
  obtain ⟨s, rfl⟩ : ∃ s, size = s + 1 := ⟨size - 1, by omega⟩
  rw [Nat.add_sub_cancel] at hp ⊢
  have hlt := lt_of_strstr h hneedle
  have hlen : (src.bytes.take s).length = s := List.length_take_of_le (by omega)
  have hresult : (replaceFirst src needle str).bytes.take s = src.bytes.take s := by
    rw [take_replaceFirst h, List.append_assoc, List.take_append_of_le_length
      (by rw [List.length_take_of_le (by omega)]; exact hp), List.take_take, Nat.min_eq_left hp]
  have hloop : replaceLoop src needle p s (1 + s) 0 str.bytes buf 0 0 = _ :=
    replaceLoop_before str.bytes hp (Nat.le_refl s) hlt (by omega)
  have hstop : replaceLoop src needle p s 1 s str.bytes
      ((src.bytes.take s).map some ++ buf.drop s) s s =
        some ((src.bytes.take s).map some ++ buf.drop s, s, s) := by
    rw [replaceLoop]
    cases src.bytes[s]? with
    | none => rfl
    | some c => exact if_pos (Nat.le_refl s)
  have hstore := store_byte (src.bytes.take s) 0
    (show 1 ≤ (buf.drop s).length by rw [List.length_drop]; omega)
  rw [hlen, List.drop_drop] at hstore
  rw [hstop, Nat.add_comm 1] at hloop
  simp only [strReplace, h, Nat.add_sub_cancel, hloop, Option.bind_eq_bind, Option.bind_some,
    if_pos (Nat.lt_succ_self s), hstore, hresult]

/-- **The loop with the needle**: it copies what is before it, the replacement and what is behind
    it, as far as there is room, and counts one byte more. -/
theorem replaceLoop_found (h : strstr src needle = some p) (hneedle : needle.bytes ≠ [])
    (hbuf : s + 1 ≤ buf.length) (hp : p < s) :
    ∃ written, written = src.bytes.take p ++ str.bytes.take (s - p) ++
        (src.bytes.drop (p + needle.bytes.length)).take
          (s - (p + (str.bytes.take (s - p)).length + 1)) ∧
      replaceLoop src needle p s (s + 1) 0 str.bytes buf 0 0 =
        some (written.map some ++ buf.drop written.length, written.length, written.length + 1) := by
  have hlt := lt_of_strstr h hneedle
  have hlen : (src.bytes.take p).length = p := List.length_take_of_le (Nat.le_of_lt hlt)
  have hpos := List.length_pos_iff.mpr hneedle
  obtain ⟨turns, hturns⟩ : ∃ turns, s = turns + p := ⟨s - p, by omega⟩
  have hbefore : replaceLoop src needle p s (turns + 1 + p) 0 str.bytes buf 0 0 = _ :=
    replaceLoop_before str.bytes (Nat.le_refl p) (Nat.le_of_lt hp) hlt (by omega)
  have hroom : s - p ≤ (buf.drop p).length := by
    rw [List.length_drop]
    omega
  obtain ⟨left, hstr⟩ := @replaceStr_eq (buf.drop p) (src.bytes.take p) s p str.bytes hroom
  have hle : (str.bytes.take (s - p)).length ≤ s - p := List.length_take_le _ _
  rw [hlen] at hstr
  refine ⟨_, rfl, ?_⟩
  rw [show s + 1 = turns + 1 + p by omega, hbefore, replaceLoop, List.getElem?_eq_getElem hlt]
  simp only [if_neg (show ¬p ≥ s by omega), if_true, hstr, Option.bind_eq_bind, Option.bind_some]
  rw [List.drop_drop, replaceLoop_behind left (by omega) (by omega)
    (by rw [List.length_drop]; omega)]
  generalize (src.bytes.drop (p + needle.bytes.length)).take
    (s - (p + (str.bytes.take (s - p)).length + 1)) = behind
  have hlength : (src.bytes.take p ++ str.bytes.take (s - p) ++ behind).length =
      p + (str.bytes.take (s - p)).length + behind.length := by
    rw [List.length_append, List.length_append, hlen]
  rw [hlength, List.drop_drop, Nat.add_right_comm _ 1 behind.length]

/-- The room ends in the replacement: nothing terminates what is written. -/
theorem strReplace_within (h : strstr src needle = some p) (hneedle : needle.bytes ≠ [])
    (hbuf : s + 1 ≤ buf.length) (hp : p < s) (hstr : s ≤ p + str.bytes.length) :
    strReplace src needle str buf (s + 1) =
      some (((replaceFirst src needle str).bytes.take s).map some ++ buf.drop s) := by
  obtain ⟨written, hwritten, hloop⟩ := @replaceLoop_found src needle str buf p s h hneedle hbuf hp
  have hlt := lt_of_strstr h hneedle
  have hlen : (src.bytes.take p).length = p := List.length_take_of_le (Nat.le_of_lt hlt)
  have htake : (str.bytes.take (s - p)).length = s - p := List.length_take_of_le (by omega)
  have hall : written = (replaceFirst src needle str).bytes.take s := by
    rw [hwritten, htake, show s - (p + (s - p) + 1) = 0 by omega, List.take_zero,
      List.append_nil, take_replaceFirst h, List.append_assoc, List.take_append, hlen,
      List.take_of_length_le (show (src.bytes.take p).length ≤ s by omega),
      List.take_append_of_le_length (by omega)]
  have hlength : written.length = s := by
    rw [hwritten, htake, show s - (p + (s - p) + 1) = 0 by omega, List.take_zero,
      List.append_nil, List.length_append, hlen, htake]
    omega
  rw [hlength] at hloop
  simp only [strReplace, h, Nat.add_sub_cancel, hloop, Option.bind_eq_bind, Option.bind_some,
    Nat.lt_irrefl, if_false, ← hall]

/-- The replacement ends before the room does: what is behind it gets one byte less than there
    is room for. -/
theorem strReplace_behind (h : strstr src needle = some p) (hneedle : needle.bytes ≠ [])
    (hbuf : s + 1 ≤ buf.length) (hstr : p + str.bytes.length < s) :
    strReplace src needle str buf (s + 1) =
      some (((replaceFirst src needle str).bytes.take (s - 1) ++ [0]).map some ++
        buf.drop (((replaceFirst src needle str).bytes.take (s - 1)).length + 1)) := by
  obtain ⟨written, hwritten, hloop⟩ := @replaceLoop_found src needle str buf p s h hneedle hbuf
    (by omega)
  have hlt := lt_of_strstr h hneedle
  have hlen : (src.bytes.take p).length = p := List.length_take_of_le (Nat.le_of_lt hlt)
  have hfits : (src.bytes.take p ++ str.bytes).length ≤ s - 1 := by
    rw [List.length_append, hlen]
    omega
  have hall : written = (replaceFirst src needle str).bytes.take (s - 1) := by
    rw [hwritten, List.take_of_length_le (show str.bytes.length ≤ s - p by omega),
      take_replaceFirst h, List.take_append, List.take_of_length_le hfits, List.length_append,
      hlen, Nat.sub_sub, Nat.add_comm 1]
  have hle : written.length ≤ s - 1 := hall ▸ List.length_take_le _ _
  have hstore := store_byte written 0
    (show 1 ≤ (buf.drop written.length).length by rw [List.length_drop]; omega)
  rw [List.drop_drop] at hstore
  simp only [strReplace, h, Nat.add_sub_cancel, hloop, Option.bind_eq_bind, Option.bind_some,
    if_pos (show written.length + 1 < s + 1 by omega), hstore, ← hall]

/-! ## When it is what should be written -/

/-- What is read behind bytes that are not a terminator has all of them. -/
theorem length_le_of_ofCells {t : CString} {written : List UInt8} (hnul : 0 ∉ written)
    (h : ofCells (written.map some ++ rest) = some t) : written.length ≤ t.bytes.length := by
  by_contra hlt
  obtain ⟨behind, hbytes⟩ := ofCells_eq_some_iff.mp h
  have hlength : t.bytes.length < written.length := by omega
  have hget : (t.block ++ behind)[t.bytes.length]? = some (some 0) := by
    rw [block, List.map_append, List.append_assoc,
      List.getElem?_append_right (Nat.le_of_eq (List.length_map _)), List.length_map, Nat.sub_self]
    rfl
  rw [hbytes, List.getElem?_append_left (by rw [List.length_map]; exact hlength),
    List.getElem?_map, List.getElem?_eq_getElem hlength] at hget
  refine hnul ?_
  have hzero : written[t.bytes.length] = 0 := Option.some.inj (Option.some.inj hget)
  exact hzero ▸ List.getElem_mem hlength

/-- The string that has been written is read, exactly if a terminator is behind it. -/
theorem ofCells_eq_self_iff {t : CString} :
    ofCells (t.bytes.map some ++ rest) = some t ↔ rest[0]? = some (some 0) := by
  rw [ofCells_eq_some_iff, block, List.map_append, List.prefix_append_right_inj]
  cases rest with
  | nil =>
    rw [List.getElem?_nil, List.prefix_nil, List.map_singleton]
    exact iff_of_false (List.cons_ne_nil _ _) (Option.some_ne_none _).symm
  | cons cell rest =>
    rw [List.map_singleton, List.cons_prefix_cons, List.getElem?_cons_zero, Option.some.injEq,
      eq_comm]
    exact and_iff_left List.nil_prefix

/-- Without the needle, the string is terminated exactly if it is shorter than the room. -/
theorem replacesExactly_of_strstr_none (h : strstr src needle = none) (hsize : 1 ≤ size)
    (hbuf : size ≤ buf.length) :
    ReplacesExactly src needle str buf size ↔ src.bytes.length < size := by
  have hstore : strncpyTo buf 0 src size =
      some ((src.padded size).map some ++ buf.drop size) := by
    have hstore := Block.store_append [] (src.padded size) buf
      (by rw [length_padded]; exact hbuf)
    rwa [length_padded] at hstore
  have hlen : ((src.padded size).map some ++ buf.drop size).length = buf.length := by
    rw [List.length_append, List.length_map, length_padded, List.length_drop]
    omega
  have hdrop : ((src.padded size).map some ++ buf.drop size).drop size = buf.drop size :=
    List.drop_left' (by rw [List.length_map, length_padded])
  simp only [ReplacesExactly, strReplace, replaceFirst, h, hstore, Option.some.injEq,
    exists_eq_left', hlen, hdrop, and_true]
  by_cases hlt : src.bytes.length < size
  · rw [iff_true_right hlt, take_of_length_le (by omega), padded_of_lt hlt, List.map_append,
      List.append_assoc]
    exact ofCells_block_append src _
  · rw [iff_false_right hlt, padded_of_le (by omega)]
    intro hread
    have hle := length_le_of_ofCells (fun hmem => src.noNul (List.mem_of_mem_take hmem)) hread
    have htake : (src.take (size - 1)).bytes.length ≤ size - 1 := List.length_take_le _ _
    rw [List.length_take_of_le (by omega)] at hle
    omega

/-- A buffer that has been written to from its start keeps its length and what is behind the
    written bytes. -/
theorem frame_written (written : List UInt8) (hlen : written.length ≤ size)
    (hbuf : size ≤ buf.length) :
    (written.map some ++ buf.drop written.length).length = buf.length ∧
      (written.map some ++ buf.drop written.length).drop size = buf.drop size := by
  have hlength : (written.map some).length = written.length := List.length_map _
  constructor
  · rw [List.length_append, hlength, List.length_drop]
    omega
  · rw [List.drop_append, hlength, List.drop_of_length_le (by omega), List.nil_append,
      List.drop_drop]
    congr 1
    omega

/-- Where the code writes `written`, the string is exact if it is read behind it. -/
theorem replacesExactly_iff_ofCells {written : List UInt8} (hbuf : s + 1 ≤ buf.length)
    (hcode : strReplace src needle str buf (s + 1) =
      some (written.map some ++ buf.drop written.length)) (hle : written.length ≤ s + 1) :
    ReplacesExactly src needle str buf (s + 1) ↔
      ofCells (written.map some ++ buf.drop written.length) =
        some ((replaceFirst src needle str).take s) := by
  obtain ⟨hlength, hdrop⟩ := frame_written written hle hbuf
  simp only [ReplacesExactly, hcode, Option.some.injEq, exists_eq_left', hlength, hdrop,
    and_true, Nat.add_sub_cancel]

/-- The room ends before the needle: the terminator is behind the bytes that are written. -/
theorem replacesExactly_before (h : strstr src needle = some p) (hneedle : needle.bytes ≠ [])
    (hbuf : s + 1 ≤ buf.length) (hp : s ≤ p) :
    ReplacesExactly src needle str buf (s + 1) := by
  have hresult := @length_replaceFirst src needle str p h
  have hs : ((replaceFirst src needle str).bytes.take s).length = s :=
    List.length_take_of_le (by omega)
  have hcode := @strReplace_before src needle str buf p (s + 1) h hneedle (by omega) hbuf hp
  have hwritten : ((replaceFirst src needle str).bytes.take s ++ [0]).length = s + 1 := by
    rw [List.length_append, hs, List.length_singleton]
  rw [Nat.add_sub_cancel, ← hwritten] at hcode
  apply (replacesExactly_iff_ofCells hbuf (hwritten ▸ hcode) (Nat.le_of_eq hwritten)).mpr
  exact ofCells_block_append ((replaceFirst src needle str).take s) _

/-- The room ends in the replacement: the terminator is what was in the buffer. -/
theorem replacesExactly_within (h : strstr src needle = some p) (hneedle : needle.bytes ≠ [])
    (hbuf : s + 1 ≤ buf.length) (hp : p < s) (hstr : s ≤ p + str.bytes.length) :
    ReplacesExactly src needle str buf (s + 1) ↔ buf[s]? = some (some 0) := by
  have hresult := @length_replaceFirst src needle str p h
  have hs : ((replaceFirst src needle str).bytes.take s).length = s :=
    List.length_take_of_le (by omega)
  have hcode := strReplace_within h hneedle hbuf hp hstr
  have hread := @ofCells_eq_self_iff (buf.drop s) ((replaceFirst src needle str).take s)
  rw [List.getElem?_drop, Nat.add_zero] at hread
  rw [replacesExactly_iff_ofCells hbuf (by rw [hs]; exact hcode) (by omega), hs]
  exact hread

/-- The replacement ends before: the last byte that there is room for is not written. -/
theorem replacesExactly_behind (h : strstr src needle = some p) (hneedle : needle.bytes ≠ [])
    (hbuf : s + 1 ≤ buf.length) (hstr : p + str.bytes.length < s) :
    ReplacesExactly src needle str buf (s + 1) ↔
      (replaceFirst src needle str).bytes.length < s := by
  have hle : ((replaceFirst src needle str).bytes.take (s - 1)).length ≤ s - 1 :=
    List.length_take_le _ _
  have hwritten : ((replaceFirst src needle str).bytes.take (s - 1) ++ [0]).length =
      ((replaceFirst src needle str).bytes.take (s - 1)).length + 1 := List.length_append
  have hcode := strReplace_behind h hneedle hbuf hstr
  rw [← hwritten] at hcode
  have hcells : ofCells (((replaceFirst src needle str).bytes.take (s - 1) ++ [0]).map some ++
      buf.drop ((replaceFirst src needle str).bytes.take (s - 1) ++ [0]).length) =
        some ((replaceFirst src needle str).take (s - 1)) :=
    ofCells_block_append ((replaceFirst src needle str).take (s - 1)) _
  rw [replacesExactly_iff_ofCells hbuf hcode (by omega), hcells, Option.some.injEq]
  constructor
  · intro heq
    by_contra hfull
    have hlengths := congrArg (fun t : CString => t.bytes.length) heq
    have hless : ((replaceFirst src needle str).take (s - 1)).bytes.length = s - 1 :=
      List.length_take_of_le (by omega)
    have hall : ((replaceFirst src needle str).take s).bytes.length = s :=
      List.length_take_of_le (by omega)
    rw [hless, hall] at hlengths
    omega
  · intro hfits
    rw [take_of_length_le (by omega), take_of_length_le (by omega)]

/-- With the needle, the string is exact in three cases. -/
theorem replacesExactly_of_strstr_some (h : strstr src needle = some p)
    (hneedle : needle.bytes ≠ []) (hbuf : s + 1 ≤ buf.length) :
    ReplacesExactly src needle str buf (s + 1) ↔
      s ≤ p ∨ (replaceFirst src needle str).bytes.length < s ∨
        s ≤ p + str.bytes.length ∧ buf[s]? = some (some 0) := by
  have hresult := @length_replaceFirst src needle str p h
  by_cases hp : s ≤ p
  · exact iff_of_true (replacesExactly_before h hneedle hbuf hp) (Or.inl hp)
  · by_cases hstr : s ≤ p + str.bytes.length
    · rw [replacesExactly_within h hneedle hbuf (by omega) hstr]
      constructor
      · exact fun hzero => Or.inr (Or.inr ⟨hstr, hzero⟩)
      · rintro (hle | hfits | hzero)
        · exact absurd hle hp
        · omega
        · exact hzero.2
    · rw [replacesExactly_behind h hneedle hbuf (by omega)]
      constructor
      · exact fun hfits => Or.inr (Or.inl hfits)
      · rintro (hle | hfits | hzero)
        · exact absurd hle hp
        · exact hfits
        · exact absurd hzero.1 hstr

/-- **The string is replaced exactly** as far as there is room, exactly if it fits without the
    needle, or the room ends before the needle, or one byte more than the result fits, or a byte
    that was in the buffer before ends it. -/
theorem replacesExactly_iff (src needle str : CString) (buf : Block UInt8) (size : ℕ)
    (hneedle : needle.bytes ≠ []) (hsize : 1 ≤ size) (hbuf : size ≤ buf.length) :
    ReplacesExactly src needle str buf size ↔ ReplacesWell src needle str buf size := by
  obtain ⟨s, rfl⟩ : ∃ s, size = s + 1 := ⟨size - 1, by omega⟩
  unfold ReplacesWell
  cases h : strstr src needle with
  | none => exact replacesExactly_of_strstr_none h hsize hbuf
  | some p =>
    have hresult := @length_replaceFirst src needle str p h
    have hle := (bytes_of_strstr h).2
    have hfits : (replaceFirst src needle str).bytes.length < s ↔
        src.bytes.length + str.bytes.length + 1 < s + 1 + needle.bytes.length := by
      rw [hresult, List.length_drop]
      omega
    rw [replacesExactly_of_strstr_some h hneedle hbuf, hfits]
    rfl

/-- "hello world" is replaced exactly in a buffer of 255 bytes. -/
theorem replacesExactly_helloWorld :
    ReplacesExactly (ofChars "hello world".toList) (ofChars "world".toList)
      (ofChars "sailor".toList) (Block.alloc 255) 255 :=
  (replacesExactly_iff (ofChars "hello world".toList) (ofChars "world".toList)
    (ofChars "sailor".toList) (Block.alloc 255) 255 (by decide) (by decide)
    (Nat.le_of_eq List.length_replicate.symm)).mpr
    (show _ ∨ _ ∨ _ from Or.inr (Or.inl (by decide)))

/-- In a buffer of 10 bytes, nothing terminates it. -/
theorem not_forall_replacesExactly :
    ¬∀ (src needle str : CString) (buf : Block UInt8) (size : ℕ), needle.bytes ≠ [] → 1 ≤ size →
      size ≤ buf.length → ReplacesExactly src needle str buf size := by
  intro h
  obtain ⟨buf, hcode, hread, -⟩ := h (ofChars "hello world".toList) (ofChars "world".toList)
    (ofChars "sailor".toList) (Block.alloc 10) 10 (by decide) (by decide) (by decide)
  have hbuf : strReplace (ofChars "hello world".toList) (ofChars "world".toList)
      (ofChars "sailor".toList) (Block.alloc 10) 10 =
        some ("hello sai".toList.map (some ∘ Char.toUInt8) ++ [none]) := by decide +kernel
  obtain rfl := Option.some.inj (hbuf.symm.trans hcode)
  exact absurd hread (by decide +kernel)

end Cebus.CString
