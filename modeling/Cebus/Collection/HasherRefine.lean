import Cebus.Collection.Hasher

/-!
# `cb_hasher` computes SipHash-2-4

* `u8to64Le_eq`, `u8to64LeMacro_eq`: the two little-endian reads, and the
  assertion at the end of `u8to64_le`.
* `writeLoop_spec`: the main loop of `cb_hasher_write` compresses exactly the
  complete words behind the tail, although its bound is not relative to its
  starting index.
* `absorbed_write`: `cb_hasher_write` keeps the invariant `Absorbed`, which ties
  the state words, the tail and the length to the bytes written so far.
* `finish_absorbed`: `cb_hasher_finish` on such a state is the SipHash-2-4 value
  of these bytes.
-/

namespace Cebus.Hasher

open SipHash BlockStream

/-! ## Little-endian reads -/

theorem byteAt_drop (p : List UInt8) (s i : ℕ) : byteAt p (s + i) = byteAt (p.drop s) i := by
  simp [byteAt, List.getD_eq_getElem?_getD]

theorem u8to16Le_drop (p : List UInt8) (s i : ℕ) :
    u8to16Le p (s + i) = u8to16Le (p.drop s) i := by
  simp [u8to16Le, byteAt_drop p s, Nat.add_assoc]

theorem u8to32Le_drop (p : List UInt8) (s i : ℕ) :
    u8to32Le p (s + i) = u8to32Le (p.drop s) i := by
  simp [u8to32Le, u8to16Le_drop p s, Nat.add_assoc]

/-- A single byte read is the one-byte word. -/
theorem byteAt_eq (p : List UInt8) (s : ℕ) (h : s + 1 ≤ p.length) :
    (byteAt p s).toBitVec.setWidth 64 = littleEndian ((p.drop s).take 1) := by
  obtain ⟨a, l, hl⟩ := List.exists_cons_of_length_pos (l := p.drop s) (by simp; omega)
  rw [show s = s + 0 from rfl, byteAt_drop p s 0, Nat.add_zero, hl]
  simp [byteAt, littleEndian]

/-- `U8TO16_LE`, widened, is the word of the two bytes at `s`. -/
theorem u8to16Le_eq (p : List UInt8) (s : ℕ) (h : s + 2 ≤ p.length) :
    (u8to16Le p s).setWidth 64 = littleEndian ((p.drop s).take 2) := by
  have hlen : 2 ≤ (p.drop s).length := by simp; omega
  rw [show s = s + 0 from rfl, u8to16Le_drop p s 0, Nat.add_zero]
  match p.drop s, hlen with
  | a :: b :: _, _ =>
    ext i hi
    simp [u8to16Le, byteAt, littleEndian]
    grind

/-- `U8TO32_LE`, widened, is the word of the four bytes at `s`. -/
theorem u8to32Le_eq (p : List UInt8) (s : ℕ) (h : s + 4 ≤ p.length) :
    (u8to32Le p s).setWidth 64 = littleEndian ((p.drop s).take 4) := by
  have hlen : 4 ≤ (p.drop s).length := by simp; omega
  rw [show s = s + 0 from rfl, u8to32Le_drop p s 0, Nat.add_zero]
  match p.drop s, hlen with
  | a :: b :: c :: d :: _, _ =>
    ext i hi
    simp [u8to32Le, u8to16Le, byteAt, littleEndian]
    grind

/-- Or-ing in the next `k` bytes extends the word read so far. -/
theorem littleEndian_take_add (l : List UInt8) (i k : ℕ) (hi : i ≤ l.length) :
    littleEndian (l.take i) ||| (littleEndian ((l.drop i).take k) <<< (i * 8)) =
      littleEndian (l.take (i + k)) := by
  rw [List.take_add, littleEndian_append, List.length_take, min_eq_left hi, Nat.mul_comm]

/-- `U8TO64_LE` is the word of the eight bytes at `s`. -/
theorem u8to64LeMacro_eq (p : List UInt8) (s : ℕ) (h : s + 8 ≤ p.length) :
    u8to64LeMacro p s = littleEndian ((p.drop s).take 8) := by
  rw [u8to64LeMacro, u8to32Le_eq p s (by omega), u8to32Le_eq p (s + 4) (by omega),
    ← List.drop_drop]
  exact littleEndian_take_add (p.drop s) 4 4 (by simp; omega)

/-- One of the three conditional reads of `u8to64_le`. -/
theorem read_if (l : List UInt8) (i k : ℕ) (w : BitVec 64) (c : Prop) [Decidable c]
    (hi : i ≤ l.length) (hw : c → w = littleEndian ((l.drop i).take k)) :
    (if c then (littleEndian (l.take i) ||| (w <<< (i * 8)), i + k)
      else (littleEndian (l.take i), i)) =
      (littleEndian (l.take (if c then i + k else i)), if c then i + k else i) := by
  split_ifs with h
  · rw [hw h, littleEndian_take_add l i k hi]
  · rfl

/-- `u8to64_le` reads the word of the `len ≤ 7` bytes at `start`, and its final
    index is `len`, as its assertion says. -/
theorem u8to64LeParts_eq (buf : List UInt8) (start len : ℕ) (hlen : len ≤ 7)
    (h : start + len ≤ buf.length) :
    u8to64LeParts buf start len = (littleEndian ((buf.drop start).take len), len) := by
  generalize hl : buf.drop start = l
  have hll : len ≤ l.length := by rw [← hl, List.length_drop]; omega
  have h4 := read_if l 0 4 ((u8to32Le buf (start + 0)).setWidth 64) (0 + 3 < len) (by omega)
    (fun hc => by rw [u8to32Le_eq buf _ (by omega), ← List.drop_drop, hl])
  simp only [List.take_zero, littleEndian_nil, BitVec.zero_or, Nat.zero_mul,
    BitVec.shiftLeft_zero] at h4
  generalize hi4 : (if 0 + 3 < len then 0 + 4 else 0) = i4 at h4
  have h2 := read_if l i4 2 ((u8to16Le buf (start + i4)).setWidth 64) (i4 + 1 < len)
    (by split_ifs at hi4 <;> omega)
    (fun hc => by rw [u8to16Le_eq buf _ (by omega), ← List.drop_drop, hl])
  generalize hi2 : (if i4 + 1 < len then i4 + 2 else i4) = i2 at h2
  have h1 := read_if l i2 1 ((byteAt buf (start + i2)).toBitVec.setWidth 64) (i2 < len)
    (by split_ifs at hi4 hi2 <;> omega)
    (fun hc => by rw [byteAt_eq buf _ (by omega), ← List.drop_drop, hl])
  have hi1 : (if i2 < len then i2 + 1 else i2) = len := by split_ifs at hi4 hi2 ⊢ <;> omega
  simp only [u8to64LeParts, h4, h2, h1, hi1]

theorem u8to64Le_eq (buf : List UInt8) (start len : ℕ) (hlen : len ≤ 7)
    (h : start + len ≤ buf.length) :
    u8to64Le buf start len = littleEndian ((buf.drop start).take len) := by
  rw [u8to64Le, u8to64LeParts_eq buf start len hlen h]

/-! ## The rounds -/

/-- The four state words. -/
def state (h : Hasher) : State := ⟨h.v0, h.v1, h.v2, h.v3⟩

theorem rotLeft_eq (x : BitVec 64) (b : ℕ) (hb : b < 64) : rotLeft x b = x.rotateLeft b := by
  rw [rotLeft, BitVec.rotateLeft_def, Nat.mod_eq_of_lt hb]

/-- `compress` is SipRound on the state words and touches nothing else. -/
theorem compress_eq (h : Hasher) :
    compress h = { h with
      v0 := (sipRound h.state).v0, v1 := (sipRound h.state).v1
      v2 := (sipRound h.state).v2, v3 := (sipRound h.state).v3 } := by
  simp [compress, sipRound, state, rotLeft_eq]

@[simp] theorem state_compress (h : Hasher) : (compress h).state = sipRound h.state := by
  rw [compress_eq]; rfl

@[simp] theorem state_absorbWord (h : Hasher) (m : BitVec 64) :
    (absorbWord h m).state = compressWord 2 h.state m := by
  have hs : (sip24Compress { h with v3 := h.v3 ^^^ m }).state =
      sipRound^[2] { h.state with v3 := h.state.v3 ^^^ m } := by
    simp only [sip24Compress, state_compress, Function.iterate_succ, Function.iterate_zero,
      Function.comp_apply, id]
    rfl
  simp only [compressWord, ← hs]
  rfl

/-- Mixing a word leaves everything but the state words alone. -/
theorem absorbWord_frame (h : Hasher) (m : BitVec 64) :
    (absorbWord h m).k0 = h.k0 ∧ (absorbWord h m).k1 = h.k1 ∧ (absorbWord h m).len = h.len ∧
      (absorbWord h m).tail = h.tail ∧ (absorbWord h m).nTail = h.nTail := by
  simp [absorbWord, sip24Compress, compress_eq]

/-! ## `cb_hasher_write` -/

/-- **The main loop.** Started at `i ≤ len` on a word boundary behind the
    `needed < 8` bytes that completed the tail, the loop compresses the complete
    words of what is left of the input and stops at the first byte behind them. -/
theorem writeLoop_spec (bytes : List UInt8) (needed : ℕ) (hn : needed < 8)
    (hlen : needed ≤ bytes.length) :
    ∀ k j (h : Hasher), bytes.length - needed = 8 * j + k →
      let r := writeLoop bytes (bytes.length - needed - (bytes.length - needed) % 8) h
        (needed + 8 * j)
      r.1.state = compressBytes 2 h.state (bytes.drop (needed + 8 * j)) ∧
        r.2 = bytes.length - (bytes.length - needed) % 8 ∧
        r.1.k0 = h.k0 ∧ r.1.k1 = h.k1 ∧ r.1.len = h.len := by
  intro k
  induction k using Nat.strong_induction_on with
  | _ k ih =>
    intro j h hk
    rw [writeLoop]
    by_cases h8 : k < 8
    · -- fewer than eight bytes are left: the loop is done
      rw [if_neg (by omega)]
      refine ⟨?_, by simp only; omega, rfl, rfl, rfl⟩
      rw [compressBytes, absorb_short _ _ (by simp; omega)]
    · rw [if_pos (by omega), Nat.add_assoc, show 8 * j + 8 = 8 * (j + 1) by ring]
      obtain ⟨h1, h2, h3, h4, h5⟩ := ih (k - 8) (by omega) (j + 1)
        (absorbWord h (u8to64LeMacro bytes (needed + 8 * j))) (by omega)
      obtain ⟨f1, f2, f3, -, -⟩ := absorbWord_frame h (u8to64LeMacro bytes (needed + 8 * j))
      refine ⟨?_, h2, h3.trans f1, h4.trans f2, h5.trans f3⟩
      have hd : bytes.drop (needed + 8 * j) =
          (bytes.drop (needed + 8 * j)).take 8 ++ bytes.drop (needed + 8 * (j + 1)) := by
        rw [show needed + 8 * (j + 1) = needed + 8 * j + 8 by ring, ← List.drop_drop (i := 8),
          List.take_append_drop]
      rw [h1, state_absorbWord, u8to64LeMacro_eq bytes _ (by omega), hd, compressBytes,
        compressBytes, absorb_block _ _ (by norm_num) (by simp; omega), ← hd]

/-- `cb_hasher_write` behind the tail: complete words are compressed, the
    leftover becomes the new tail. -/
theorem writeInput_spec (h : Hasher) (bytes : List UInt8) (needed : ℕ) (hn : needed < 8)
    (hlen : needed ≤ bytes.length) :
    let r := writeInput h bytes needed
    r.state = compressBytes 2 h.state (bytes.drop needed) ∧
      r.tail = littleEndian (leftover 8 (bytes.drop needed)) ∧
      r.nTail = (bytes.length - needed) % 8 ∧ r.k0 = h.k0 ∧ r.k1 = h.k1 ∧ r.len = h.len := by
  obtain ⟨h1, h2, h3, h4, h5⟩ := writeLoop_spec bytes needed hn hlen (bytes.length - needed) 0 h
    (by omega)
  simp only [Nat.mul_zero, Nat.add_zero] at h1 h2 h3 h4 h5
  have hl : leftover 8 (bytes.drop needed) =
      (bytes.drop (bytes.length - (bytes.length - needed) % 8)).take
        ((bytes.length - needed) % 8) := by
    rw [leftover, List.drop_drop, List.length_drop, List.take_of_length_le (by simp; omega)]
    congr 1
    omega
  refine ⟨h1, ?_, rfl, h3, h4, h5⟩
  rw [hl, ← u8to64Le_eq bytes _ _ (by omega) (by omega), ← h2]
  rfl

/-- The bytes `m` have been written under the key `(k0, k1)`. -/
structure Absorbed (k0 k1 : BitVec 64) (m : List UInt8) (h : Hasher) : Prop where
  key0 : h.k0 = k0
  key1 : h.k1 = k1
  len : h.len = BitVec.ofNat 64 m.length
  state : h.state = compressBytes 2 (SipHash.init k0 k1) m
  tail : h.tail = littleEndian (leftover 8 m)
  nTail : h.nTail = m.length % 8

theorem absorbed_reset (h : Hasher) : Absorbed h.k0 h.k1 [] (reset h) where
  key0 := rfl
  key1 := rfl
  len := rfl
  state := (absorb_short _ _ (by simp)).symm
  tail := rfl
  nTail := rfl

theorem absorbed_init (k0 k1 : BitVec 64) : Absorbed k0 k1 [] (init k0 k1) :=
  absorbed_reset ⟨k0, k1, 0, 0, 0, 0, 0, 0, 0⟩

/-- **Writing a chunk** appends it to the bytes written. -/
theorem absorbed_write {k0 k1 : BitVec 64} {m : List UInt8} {h : Hasher}
    (hm : Absorbed k0 k1 m h) (bytes : List UInt8) :
    Absorbed k0 k1 (m ++ bytes) (write h bytes) := by
  have hll : (leftover 8 m).length = m.length % 8 := length_leftover m
  have hlen : h.len + BitVec.ofNat 64 bytes.length = BitVec.ofNat 64 (m ++ bytes).length := by
    rw [hm.len, List.length_append, BitVec.ofNat_add]
  have habs : compressBytes 2 (SipHash.init k0 k1) (m ++ bytes) =
      compressBytes 2 h.state (leftover 8 m ++ bytes) := by
    rw [hm.state]; exact absorb_append (n := 8) (by norm_num) _ _ m bytes
  have hlo : leftover 8 (m ++ bytes) = leftover 8 (leftover 8 m ++ bytes) :=
    leftover_append (by norm_num) m bytes
  unfold write
  by_cases h0 : h.nTail = 0
  · -- no tail is waiting
    have ht : leftover 8 m = [] := List.length_eq_zero_iff.mp (by rw [hll, ← hm.nTail, h0])
    rw [if_neg (by simpa using h0)]
    obtain ⟨s1, s2, s3, s4, s5, s6⟩ := writeInput_spec
      { h with len := h.len + BitVec.ofNat 64 bytes.length } bytes 0 (by norm_num) (by omega)
    refine ⟨s4.trans hm.key0, s5.trans hm.key1, s6.trans hlen, ?_, ?_, ?_⟩
    · rw [habs, ht, s1]; rfl
    · rw [hlo, ht, s2]; rfl
    · rw [s3, List.length_append, Nat.add_mod, ← hm.nTail, h0]; simp
  · rw [if_pos (by simpa using h0)]
    simp only
    have hn8 : h.nTail < 8 := by rw [hm.nTail]; omega
    -- or-ing the first bytes of the chunk into the tail appends them to the leftover
    have htail : ∀ n ≤ 7, n ≤ bytes.length →
        h.tail ||| (u8to64Le bytes 0 n <<< (8 * h.nTail)) =
          littleEndian (leftover 8 m ++ bytes.take n) := by
      intro n hn hnb
      rw [u8to64Le_eq bytes 0 n hn (by omega), List.drop_zero, hm.tail, littleEndian_append, hll,
        hm.nTail]
    by_cases hlt : bytes.length < 8 - h.nTail
    · -- the chunk does not complete the tail
      rw [if_pos hlt, min_eq_left hlt.le, htail _ (by omega) le_rfl, List.take_length]
      have hshort : (leftover 8 m ++ bytes).length < 8 := by
        rw [List.length_append, hll, ← hm.nTail]; omega
      refine ⟨hm.key0, hm.key1, hlen, ?_, ?_, ?_⟩
      · rw [habs, compressBytes, absorb_short _ _ hshort]; rfl
      · rw [hlo, leftover_short hshort]
      · rw [List.length_append, Nat.add_mod, ← hm.nTail, Nat.mod_eq_of_lt (b := 8) (by omega),
          Nat.mod_eq_of_lt (by omega)]
    · -- the chunk completes the tail, which becomes one more word
      rw [if_neg hlt, min_eq_right (by omega), htail _ (by omega) (by omega)]
      generalize hneed : 8 - h.nTail = needed
      have hblk : (leftover 8 m ++ bytes.take needed).length = 8 := by
        rw [List.length_append, hll, List.length_take, ← hm.nTail]; omega
      have hsplit : leftover 8 m ++ bytes =
          (leftover 8 m ++ bytes.take needed) ++ bytes.drop needed := by
        rw [List.append_assoc, List.take_append_drop]
      generalize hw : littleEndian (leftover 8 m ++ bytes.take needed) = w
      generalize hh :
        ({ h with len := h.len + BitVec.ofNat 64 bytes.length, tail := w } : Hasher) = h'
      obtain ⟨f1, f2, f3, -, -⟩ := absorbWord_frame h' w
      obtain ⟨s1, s2, s3, s4, s5, s6⟩ :=
        writeInput_spec { absorbWord h' w with nTail := 0 } bytes needed (by omega) (by omega)
      have hst : state { absorbWord h' w with nTail := 0 } = compressWord 2 h.state w := by
        rw [show state { absorbWord h' w with nTail := 0 } = (absorbWord h' w).state from rfl,
          state_absorbWord, ← hh]
        rfl
      subst hh
      refine ⟨s4.trans (f1.trans hm.key0), s5.trans (f2.trans hm.key1), s6.trans (f3.trans hlen),
        ?_, ?_, ?_⟩
      · rw [habs, hsplit, s1, hst, ← hw, compressBytes, compressBytes,
          absorb_block _ _ (by norm_num) hblk]
      · rw [hlo, hsplit, s2, leftover_block (by norm_num) hblk]
      · rw [s3, List.length_append]
        have := hm.nTail
        omega

/-- The word `b` of `cb_hasher_finish` is the last word of the padded message. -/
theorem lastWord_eq {k0 k1 : BitVec 64} {m : List UInt8} {h : Hasher} (hm : Absorbed k0 k1 m h) :
    ((h.len &&& 0xff) <<< 56) ||| h.tail =
      littleEndian (leftover 8 m) ||| (BitVec.ofNat 64 (m.length % 256) <<< 56) := by
  have hmask : h.len &&& 0xff = BitVec.ofNat 64 (m.length % 256) := by
    apply BitVec.eq_of_toNat_eq
    have h255 : (0xff : BitVec 64).toNat = 2 ^ 8 - 1 := rfl
    rw [hm.len, BitVec.toNat_and, h255, Nat.and_two_pow_sub_one_eq_mod, BitVec.toNat_ofNat,
      BitVec.toNat_ofNat]
    omega
  rw [hmask, hm.tail, BitVec.or_comm]

/-- **Finishing** returns the SipHash-2-4 value of the bytes written. -/
theorem finish_absorbed {k0 k1 : BitVec 64} {m : List UInt8} {h : Hasher}
    (hm : Absorbed k0 k1 m h) : (finish h).1 = hash 2 4 k0 k1 m := by
  have hfin : ∀ g : Hasher, (sip24Finalize g).state = sipRound^[4] g.state := by
    intro g
    simp only [sip24Finalize, state_compress, Function.iterate_succ, Function.iterate_zero,
      Function.comp_apply, id]
  rw [hash_eq_finish, ← lastWord_eq hm, ← hm.state, ← state_absorbWord]
  generalize hw : absorbWord h (((h.len &&& 0xff) <<< 56) ||| h.tail) = g
  have hg : (sip24Finalize { g with v2 := g.v2 ^^^ 0xff }).state =
      sipRound^[4] { g.state with v2 := g.state.v2 ^^^ 0xff } := hfin _
  simp only [finalize, ← hg, finish, hw]
  rfl

/-- Writing and finishing keep the key, so a hasher can be reset and reused. -/
theorem finish_key (h : Hasher) : (finish h).2.k0 = h.k0 ∧ (finish h).2.k1 = h.k1 := by
  simp [finish, sip24Finalize, compress_eq, absorbWord, sip24Compress]

/-- Writing chunks one after the other writes their concatenation. -/
theorem absorbed_writes {k0 k1 : BitVec 64} (chunks : List (List UInt8)) :
    ∀ {m : List UInt8} {h : Hasher}, Absorbed k0 k1 m h →
      Absorbed k0 k1 (m ++ chunks.flatten) (chunks.foldl write h) := by
  induction chunks with
  | nil => intro m h hm; simpa using hm
  | cons c chunks ih =>
    intro m h hm
    rw [List.flatten_cons, ← List.append_assoc]
    exact ih (absorbed_write hm c)

/-- **`cb_hasher` is SipHash-2-4.** Whatever the keys and the chunks, a hasher
    initialised with the keys, or any hasher that holds them and is reset,
    returns after these writes the SipHash-2-4 value of the concatenation. -/
theorem finish_writes_eq_sipHash (k0 k1 : BitVec 64) (chunks : List (List UInt8)) :
    (finish (chunks.foldl write (init k0 k1))).1 = hash 2 4 k0 k1 chunks.flatten ∧
      ∀ h : Hasher,
        (finish (chunks.foldl write (reset h))).1 = hash 2 4 h.k0 h.k1 chunks.flatten :=
  ⟨finish_absorbed (absorbed_writes chunks (absorbed_init k0 k1)),
    fun h => finish_absorbed (absorbed_writes chunks (absorbed_reset h))⟩

/-- The fifteen-byte test vector of `hasher_test.c`, written in three chunks. -/
example :
    (finish ([[0, 1, 2], [], [3, 4, 5, 6, 7, 8, 9, 10, 11, 12, 13, 14]].foldl
      write (init 0x0706050403020100 0x0f0e0d0c0b0a0908))).1 = 0xa129ca6149be45e5 := by
  decide +kernel

end Cebus.Hasher
