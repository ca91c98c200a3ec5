import Cebus.Subscription.MessageKey
import Cebus.Utils.CBuffer
import Mathlib.Data.List.TakeWhile
import Mathlib.Data.Nat.SuccPred
import Mathlib.Logic.Function.Iterate

/-!
# The text of a binding key (`binding_key.c`)

A key is printed into a block that a pass over its parts has sized before, and read from a text
by splitting it twice, to count the parts and to fill a builder. The sizes of objects in memory
fit in a `size_t`. But `vsnprintf` returns the length of a text as an `int`.

* `strsepLoop_eq`: the loop over `strsep` goes over the parts between the dots.
* `str_eq`: what is printed.
* `fromStr_eq_some`, `fromStr_eq_none`: what is read.
* `keyText_iff`: text and parts convert both ways exactly below the largest `int`.
-/

namespace Cebus

/-! ## Strings in memory -/

namespace CString

/-- `cb_strdup` (`alloc.c`, lines 28–31), which is `cb_strndup` (lines 20–26) at the length. -/
def strdup (s : CString) : Option (Block UInt8) := do
  let dup ← (Block.alloc (s.bytes.length + 1)).store 0 s.bytes
  dup.store s.bytes.length [0]

/-- The byte `.`. -/
def dot : UInt8 := 46

/-- `strsep(&s, ".")`: the part before the first dot, and where `s` points to then. -/
def strsep (s : CString) : CString × Option CString :=
  (⟨s.bytes.takeWhile (· ≠ dot), fun h => s.noNul ((List.takeWhile_sublist _).mem h)⟩,
    if dot ∈ s.bytes then
      some ⟨(s.bytes.dropWhile (· ≠ dot)).tail,
        fun h => s.noNul ((List.dropWhile_sublist _).mem (List.mem_of_mem_tail h))⟩
    else none)

theorem length_strsep {s rest : CString} (h : (strsep s).2 = some rest) :
    rest.bytes.length < s.bytes.length := by
  unfold strsep at h
  dsimp only at h
  split_ifs at h with hdot
  obtain rfl := Option.some.inj h
  have hpos : 0 < s.bytes.length := List.length_pos_of_mem hdot
  have hle := (List.dropWhile_sublist (l := s.bytes) (· ≠ dot)).length_le
  rw [List.length_tail]
  omega

/-- `while ((part = strsep(&cursor, ".")) != NULL)`. -/
def strsepLoop {σ : Type} (body : σ → CString → σ) (state : σ) (cursor : Option CString) : σ :=
  match cursor with
  | none => state
  | some s => strsepLoop body (body state (strsep s).1) (strsep s).2
termination_by cursor.elim 0 fun s => s.bytes.length + 1
decreasing_by
  cases hrest : (strsep s).2 with
  | none => exact Nat.succ_pos _
  | some rest => exact Nat.succ_lt_succ (length_strsep hrest)

end CString

/-! ## Printing a key -/

namespace BindingKey

/-- The loop that adds up the sizes of the parts (lines 125–129). -/
def partsSize : List CString → ℕ
  | [] => 0
  | part :: parts => part.bytes.length + partsSize parts

/-- What `cb_binding_key_str` allocates (lines 124–134, and `cb_strdup` for no key). -/
def strSize (key : BindingKey) : ℕ :=
  match key with
  | none => tokenSharp.bytes.length + 1
  | some parts => partsSize parts + parts.length

/-- The loop that copies the parts (lines 138–147); the next one has the index `i` and goes to
    `p`. -/
def copyParts (out : Block UInt8) (p i : ℕ) : List CString → Option (Block UInt8)
  | [] => some out
  | part :: parts => do
    let (out, p) ← if i > 0 then (out.store p [CString.dot]).map (·, p + 1) else some (out, p)
    let out ← out.store p (part.bytes ++ [0])
    copyParts out (p + part.bytes.length) (i + 1) parts

/-- `cb_binding_key_str` (lines 116–149). -/
def str (key : BindingKey) : Option (Block UInt8) :=
  match key with
  | none => tokenSharp.strdup
  | some parts => copyParts (Block.alloc (strSize key)) 0 0 parts

/-! ## Reading a key -/

/-- The largest `int`. -/
def intMax : ℕ := 2 ^ 31 - 1

/-- What `vsnprintf` returns when it prints a text; a length that is no `int` is an error. -/
def printed (text : CString) : ℤ := if text.bytes.length ≤ intMax then text.bytes.length else -1

/-- The sum of two `int`s, which must be one. -/
def intAdd (a b : ℤ) : Option ℤ :=
  if -(intMax : ℤ) - 1 ≤ a + b ∧ a + b ≤ intMax then some (a + b) else none

/-- `vsnprintf(buf, len, …)`, with the block at `buf` and its size. -/
def printTo (buf : Block UInt8) (text : CString) : Option (Block UInt8) :=
  if buf.length = 0 then some buf else buf.store 0 (text.bytes.take (buf.length - 1) ++ [0])

/-- The loop that counts the parts (lines 298–301). -/
def countParts (cursor : CString) : ℕ :=
  CString.strsepLoop (fun count _ => count + 1) 0 (some cursor)

/-- The loop that adds the parts to the builder (lines 306–309). -/
def addParts (builder : BindingKeyBuilder) (cursor : CString) : Option BindingKeyBuilder :=
  CString.strsepLoop
    (fun builder part => builder.bind fun builder =>
      (builder.addStr (some part)).toOption.map Prod.snd)
    (some builder) (some cursor)

/-- `cb_binding_key_from_str` (lines 279–318), with the text that its format prints; there is
    none if an addition overflows, or memory is used that has not been written. -/
def fromStr (text : CString) : Option BindingKey := do
  let len ← intAdd (printed text) 1
  let buf ← printTo (Block.alloc len.toNat) text
  let buf1 ← (← CString.ofCells buf).strdup
  let count := countParts (← CString.ofCells buf)
  let builder ← addParts (.withCapacity count) (← CString.ofCells buf1)
  some builder.build

/-! ## What should be converted -/

/-- A text that is read as a key is printed again. -/
def TextSurvives (text : CString) : Prop :=
  ∃ key, fromStr text = some key ∧ str key = some text.block

/-- The parts of a key are read from what is printed. -/
def PartsSurvive (parts : List CString) : Prop :=
  ∃ text, str (some parts) = some text.block ∧ fromStr text = some (some parts)

/-- The key is printed into the whole of the block that is allocated. -/
def WritesAll (key : BindingKey) : Prop :=
  ∃ out, str key = some out ∧ out.length = strSize key ∧ none ∉ out

end BindingKey

/-! ## Strings -/

namespace CString

theorem strdup_eq (s : CString) : s.strdup = some s.block := by
  obtain ⟨dup, hstore, hlen, htake⟩ := Block.exists_store_alloc (n := s.bytes.length + 1) s.bytes
    (Nat.le_succ _)
  obtain ⟨out, hend, hlen', htake'⟩ := Block.exists_store [0] htake
    (by rw [hlen, List.length_singleton])
  rw [strdup, hstore, Option.bind_eq_bind, Option.bind_some, hend, block, ← htake',
    List.take_of_length_le (by rw [hlen', hlen, List.length_singleton])]

/-- Without a dot the part is the whole string. -/
theorem strsep_of_not_mem {s : CString} (h : dot ∉ s.bytes) : strsep s = (s, none) := by
  have hall : s.bytes.takeWhile (· ≠ dot) = s.bytes :=
    List.takeWhile_eq_self_iff.mpr fun c hc => decide_eq_true fun heq => h (heq ▸ hc)
  unfold strsep
  rw [if_neg h, Prod.mk.injEq, and_iff_left rfl]
  exact CString.ext hall

/-- The string is cut at its first dot. -/
theorem strsep_of_mem {s : CString} (h : dot ∈ s.bytes) :
    ∃ rest, (strsep s).2 = some rest ∧ dot ∉ (strsep s).1.bytes ∧
      s.bytes = (strsep s).1.bytes ++ dot :: rest.bytes := by
  obtain ⟨part, rest, hbytes, hpart⟩ := List.eq_append_cons_of_mem h
  have hall : ∀ c ∈ part, decide (c ≠ dot) = true :=
    fun c hc => decide_eq_true fun heq => hpart (heq ▸ hc)
  have htake : s.bytes.takeWhile (· ≠ dot) = part := by
    rw [hbytes, List.takeWhile_append_of_pos hall]
    exact List.append_nil part
  have hdrop : s.bytes.dropWhile (· ≠ dot) = dot :: rest := by
    rw [hbytes, List.dropWhile_append_of_pos hall]
    rfl
  unfold strsep
  rw [if_pos h]
  refine ⟨_, rfl, ?_, ?_⟩
  · dsimp only
    rwa [htake]
  · dsimp only
    rw [htake, hdrop, List.tail_cons, hbytes]

/-- **The loop over the parts** of a string goes over what is between its dots. -/
theorem strsepLoop_eq (s : CString) :
    ∃ parts : List CString, parts.map CString.bytes = s.bytes.splitOn dot ∧
      ∀ {σ : Type} (body : σ → CString → σ) (state : σ),
        strsepLoop body state (some s) = parts.foldl body state := by
  induction hn : s.bytes.length using Nat.strong_induction_on generalizing s with
  | _ n ih =>
    by_cases h : dot ∈ s.bytes
    · obtain ⟨rest, hrest, hpart, hbytes⟩ := strsep_of_mem h
      obtain ⟨parts, hsplit, hloop⟩ := ih _ (hn ▸ length_strsep hrest) rest rfl
      refine ⟨(strsep s).1 :: parts, ?_, fun body state => ?_⟩
      · rw [List.map_cons, hsplit, hbytes, List.splitOn_append_cons_self_of_not_mem hpart]
      · rw [strsepLoop, hrest, hloop, List.foldl_cons]
    · refine ⟨[s], ?_, fun body state => ?_⟩
      · rw [List.splitOn_eq_singleton h]
        rfl
      · rw [strsepLoop, strsep_of_not_mem h, strsepLoop]
        rfl

end CString

namespace BindingKey

/-! ## What is printed -/

/-- The text of the parts behind the first one. -/
def tailText (parts : List CString) : List UInt8 :=
  parts.flatMap fun part => CString.dot :: part.bytes

theorem length_tailText (parts : List CString) :
    (tailText parts).length = partsSize parts + parts.length := by
  induction parts with
  | nil => rfl
  | cons part parts ih =>
    have hcons : tailText (part :: parts) = CString.dot :: part.bytes ++ tailText parts :=
      List.flatMap_cons
    rw [hcons, List.length_append, List.length_cons, List.length_cons, ih, partsSize]
    omega

/-- The text of the parts of a key. -/
theorem intercalate_parts (part : CString) (parts : List CString) :
    [CString.dot].intercalate ((part :: parts).map CString.bytes) =
      part.bytes ++ tailText parts := by
  induction parts generalizing part with
  | nil =>
    rw [List.map_singleton, List.intercalate_singleton]
    exact (List.append_nil _).symm
  | cons next parts ih =>
    have hnext := ih next
    rw [List.map_cons] at hnext
    rw [List.map_cons, List.map_cons, List.intercalate_cons_cons, hnext, List.append_assoc]
    rfl

/-- **The parts behind the first one**, each with its dot, go behind what is there. -/
theorem copyParts_succ (parts : List CString) (i : ℕ) {out : Block UInt8} {done : List UInt8}
    (hdone : out.take (done.length + 1) = (done ++ [0]).map some)
    (hle : done.length + (tailText parts).length + 1 ≤ out.length) :
    ∃ out', copyParts out done.length (i + 1) parts = some out' ∧ out'.length = out.length ∧
      out'.take (done.length + (tailText parts).length + 1) =
        (done ++ tailText parts ++ [0]).map some := by
  induction parts generalizing out done i with
  | nil => exact ⟨out, rfl, rfl, by rwa [tailText, List.flatMap_nil, List.append_nil]⟩
  | cons part parts ih =>
    have hcons : tailText (part :: parts) = CString.dot :: part.bytes ++ tailText parts :=
      List.flatMap_cons
    rw [hcons, List.length_append, List.length_cons] at hle
    -- the dot takes the place of the terminator
    have hbefore : out.take done.length = done.map some := by
      have htake := congrArg (List.take done.length) hdone
      rwa [List.take_take, Nat.min_eq_left (Nat.le_succ _), List.map_append,
        List.take_left' (List.length_map _)] at htake
    obtain ⟨out₁, hdot, hlen₁, htake₁⟩ := Block.exists_store [CString.dot] hbefore
      (by rw [List.length_singleton]; omega)
    obtain ⟨out₂, hpart, hlen₂, htake₂⟩ := Block.exists_store (part.bytes ++ [0]) htake₁
      (by rw [List.length_append, List.length_singleton, List.length_singleton]; omega)
    have hlength : (done ++ CString.dot :: part.bytes).length =
        done.length + 1 + part.bytes.length := by
      rw [List.length_append, List.length_cons]
      omega
    have hdone₂ : out₂.take ((done ++ CString.dot :: part.bytes).length + 1) =
        (done ++ CString.dot :: part.bytes ++ [0]).map some := by
      rw [List.length_append, List.length_singleton, List.length_singleton,
        ← Nat.add_assoc] at htake₂
      rw [hlength, htake₂, List.append_assoc, List.append_assoc]
      rfl
    obtain ⟨out', hrest, hlen', htake'⟩ := ih (i + 1) hdone₂ (by rw [hlength]; omega)
    refine ⟨out', ?_, by omega, ?_⟩
    · rw [hlength] at hrest
      rw [List.length_singleton] at hpart
      simp only [copyParts, gt_iff_lt, Nat.succ_pos, if_true, hdot, Option.map_some,
        Option.bind_eq_bind, Option.bind_some, hpart]
      exact hrest
    · have hsum : done.length + (part.bytes.length + 1 + (tailText parts).length) + 1 =
          done.length + 1 + part.bytes.length + (tailText parts).length + 1 := by omega
      rw [hlength, List.append_assoc done] at htake'
      rw [hcons, List.length_append, List.length_cons, hsum]
      exact htake'

/-- **What is printed** of a key with parts: they are joined by dots, into the whole block. -/
theorem str_eq {parts : List CString} (h : parts ≠ []) :
    ∃ text : CString, text.bytes = [CString.dot].intercalate (parts.map CString.bytes) ∧
      str (some parts) = some text.block ∧ text.block.length = strSize (some parts) := by
  obtain ⟨part, parts, rfl⟩ := List.exists_cons_of_ne_nil h
  have hnul : 0 ∉ part.bytes ++ tailText parts := by
    intro hmem
    obtain hmem | hmem := List.mem_append.mp hmem
    · exact part.noNul hmem
    · obtain ⟨next, -, hmem⟩ := List.mem_flatMap.mp hmem
      obtain hdot | hmem := List.mem_cons.mp hmem
      · exact absurd hdot (by decide)
      · exact next.noNul hmem
  have hsize : strSize (some (part :: parts)) =
      part.bytes.length + (tailText parts).length + 1 := by
    rw [length_tailText, strSize, partsSize, List.length_cons]
    omega
  have hlength : (CString.mk _ hnul).block.length = strSize (some (part :: parts)) := by
    rw [CString.length_block, List.length_append, hsize]
  refine ⟨⟨_, hnul⟩, (intercalate_parts part parts).symm, ?_, hlength⟩
  obtain ⟨out₁, hfirst, hlen₁, htake₁⟩ := Block.exists_store_alloc
    (n := strSize (some (part :: parts))) (part.bytes ++ [0])
    (by rw [List.length_append, List.length_singleton]; omega)
  rw [List.length_append, List.length_singleton] at htake₁
  obtain ⟨out, hrest, hlen, htake⟩ := copyParts_succ parts 0 htake₁ (by omega)
  simp only [str, copyParts, gt_iff_lt, Nat.lt_irrefl, if_false, Option.bind_eq_bind,
    Option.bind_some, hfirst, Nat.zero_add]
  rw [List.take_of_length_le (by omega)] at htake
  exact hrest.trans (congrArg some htake)

/-! ## What is read -/

/-- The builder has room for the parts that are added. -/
theorem foldl_addStr (parts : List CString) {done : List CString} {capacity : ℕ}
    (h : done.length + parts.length ≤ capacity) :
    parts.foldl (fun builder part => builder.bind fun builder =>
        (BindingKeyBuilder.addStr builder (some part)).toOption.map Prod.snd)
      (some ⟨done, capacity⟩) = some ⟨done ++ parts, capacity⟩ := by
  induction parts generalizing done with
  | nil => rw [List.foldl_nil, List.append_nil]
  | cons part parts ih =>
    rw [List.length_cons] at h
    have hroom : ¬capacity ≤ done.length := by omega
    have hadd : (BindingKeyBuilder.addStr ⟨done, capacity⟩ (some part)).toOption.map Prod.snd =
        some ⟨done ++ [part], capacity⟩ := by
      rw [BindingKeyBuilder.addStr, if_neg hroom]
      rfl
    have hle : (done ++ [part]).length + parts.length ≤ capacity := by
      rw [List.length_append, List.length_singleton]
      omega
    rw [List.foldl_cons, Option.bind_some, hadd, ih hle, List.append_assoc, List.singleton_append]

/-- Both loops go over the same parts. -/
theorem addParts_eq (text : CString) :
    ∃ parts : List CString, parts.map CString.bytes = text.bytes.splitOn CString.dot ∧
      addParts (.withCapacity (countParts text)) text = some ⟨parts, parts.length⟩ := by
  obtain ⟨parts, hsplit, hloop⟩ := CString.strsepLoop_eq text
  have hcount : countParts text = parts.length := by
    rw [countParts, hloop, List.foldl_const, Nat.succ_iterate, Nat.zero_add]
  refine ⟨parts, hsplit, ?_⟩
  rw [addParts, hloop, hcount, BindingKeyBuilder.withCapacity, foldl_addStr parts (by simp),
    List.nil_append]

/-- A block of the right size holds the text that is printed to it. -/
theorem printTo_eq (text : CString) :
    printTo (Block.alloc (text.bytes.length + 1)) text = some text.block := by
  have hsize : (text.bytes ++ [0]).length = text.bytes.length + 1 := by
    rw [List.length_append, List.length_singleton]
  obtain ⟨out, hstore, hlen, htake⟩ := Block.exists_store_alloc (text.bytes ++ [0])
    (Nat.le_of_eq hsize)
  rw [List.take_of_length_le (by rw [hlen, hsize])] at htake
  rw [printTo, Block.length_alloc, if_neg (Nat.succ_ne_zero _), Nat.add_sub_cancel,
    List.take_length, hstore, htake]
  rfl

/-- **What is read** from a text whose length is below the largest `int`. -/
theorem fromStr_eq_some {text : CString} (h : text.bytes.length < intMax) :
    ∃ parts : List CString, parts.map CString.bytes = text.bytes.splitOn CString.dot ∧
      fromStr text = some (some parts) := by
  obtain ⟨parts, hsplit, hadd⟩ := addParts_eq text
  have hlen : intAdd (printed text) 1 = some ((text.bytes.length + 1 : ℕ) : ℤ) := by
    rw [intAdd, printed, if_pos (Nat.le_of_lt h), if_pos (by omega)]
    rfl
  refine ⟨parts, hsplit, ?_⟩
  simp only [fromStr, hlen, Option.bind_eq_bind, Option.bind_some, Int.toNat_natCast,
    printTo_eq, CString.ofCells_block, CString.strdup_eq, hadd]
  rfl

/-- At the largest `int` and above it nothing is read: the sum overflows, or the block is
    empty. -/
theorem fromStr_eq_none {text : CString} (h : intMax ≤ text.bytes.length) :
    fromStr text = none := by
  unfold fromStr printed
  split_ifs with hle
  · rw [intAdd, if_neg (by omega)]
    rfl
  · rfl

/-! ## Both ways -/

/-- **A text survives** if it is shorter than the largest `int`. -/
theorem textSurvives_iff (text : CString) : TextSurvives text ↔ text.bytes.length < intMax := by
  constructor
  · rintro ⟨key, hkey, -⟩
    by_contra hlong
    rw [fromStr_eq_none (Nat.le_of_not_lt hlong)] at hkey
    cases hkey
  · intro h
    obtain ⟨parts, hsplit, hread⟩ := fromStr_eq_some h
    have hne : parts ≠ [] := by
      rintro rfl
      exact List.splitOn_ne_nil _ _ hsplit.symm
    obtain ⟨back, hbytes, hstr, -⟩ := str_eq hne
    rw [hsplit, List.intercalate_splitOn] at hbytes
    obtain rfl : back = text := CString.ext hbytes
    exact ⟨_, hread, hstr⟩

/-- The length of the text of the parts. -/
def textLength (parts : List CString) : ℕ := partsSize parts + (parts.length - 1)

/-- **The parts of a key survive** if they have no dot and their text is shorter than the largest
    `int`. -/
theorem partsSurvive_iff {parts : List CString} (hne : parts ≠ [])
    (hdot : ∀ part ∈ parts, CString.dot ∉ part.bytes) :
    PartsSurvive parts ↔ textLength parts < intMax := by
  obtain ⟨text, hbytes, hstr, hsize⟩ := str_eq hne
  have hlength : textLength parts = text.bytes.length := by
    have hpos := List.length_pos_of_ne_nil hne
    rw [CString.length_block, strSize] at hsize
    rw [textLength]
    omega
  rw [hlength]
  constructor
  · rintro ⟨other, hother, hread⟩
    have hsame : text.block = other.block := Option.some.inj (hstr.symm.trans hother)
    have hback := congrArg CString.ofCells hsame
    rw [CString.ofCells_block, CString.ofCells_block] at hback
    obtain rfl := Option.some.inj hback
    by_contra hlong
    rw [fromStr_eq_none (Nat.le_of_not_lt hlong)] at hread
    cases hread
  · intro h
    obtain ⟨read, hsplit, hread⟩ := fromStr_eq_some h
    rw [hbytes, List.splitOn_intercalate CString.dot ?_ ?_] at hsplit
    · have hsame : read = parts :=
        List.map_injective_iff.mpr (fun _ _ => CString.ext) hsplit
      exact ⟨text, hstr, hsame ▸ hread⟩
    · intro bytes hmem
      obtain ⟨part, hpart, rfl⟩ := List.mem_map.mp hmem
      exact hdot part hpart
    · exact fun h => hne (List.map_eq_nil_iff.mp h)

/-- A key that is `NULL` or has parts is printed into the whole of its block. -/
theorem writesAll {key : BindingKey} (h : key ≠ some []) : WritesAll key := by
  have hset (text : CString) : none ∉ text.block := by
    intro hmem
    obtain ⟨c, -, hc⟩ := List.mem_map.mp hmem
    cases hc
  cases key with
  | none => exact ⟨_, CString.strdup_eq _, CString.length_block _, hset _⟩
  | some parts =>
    obtain ⟨text, -, hstr, hsize⟩ := str_eq fun hnil => h (congrArg some hnil)
    exact ⟨_, hstr, hsize, hset text⟩

/-- **Text and parts convert both ways** exactly below the largest `int`; `NULL` is printed as
    `#` and read as an empty key, and every key fills the block that it is printed to. -/
theorem keyText_iff (text : CString) {parts : List CString} (hne : parts ≠ [])
    (hdot : ∀ part ∈ parts, CString.dot ∉ part.bytes) :
    (TextSurvives text ↔ text.bytes.length < intMax) ∧
    (PartsSurvive parts ↔ textLength parts < intMax) ∧
    (str none = some tokenSharp.block ∧
      ∃ key, fromStr tokenSharp = some key ∧ isEmpty key = true) ∧
    WritesAll none ∧ WritesAll (some parts) := by
  refine ⟨textSurvives_iff text, partsSurvive_iff hne hdot, ⟨CString.strdup_eq _, ?_⟩,
    writesAll (fun h => nomatch h), writesAll fun h => hne (Option.some.inj h)⟩
  obtain ⟨read, hsplit, hread⟩ := fromStr_eq_some (show tokenSharp.bytes.length < intMax by decide)
  have hsharp : tokenSharp.bytes.splitOn CString.dot = [tokenSharp].map CString.bytes := by decide
  have hparts : read = [tokenSharp] :=
    List.map_injective_iff.mpr (fun _ _ => CString.ext) (hsplit.trans hsharp)
  exact ⟨_, hread, isEmpty_some.mpr hparts⟩

/-- A key whose last part is empty. -/
theorem partsSurvive_star_empty : PartsSurvive [tokenStar, CString.empty] :=
  (keyText_iff tokenSharp (List.cons_ne_nil tokenStar [CString.empty]) (by decide)).2.1.mpr
    (by decide)

/-- The text of `2 ^ 31 - 1` stars. -/
def longText : CString :=
  ⟨List.replicate intMax 42, fun h => absurd (List.eq_of_mem_replicate h) (by decide)⟩

/-- That text is not read. -/
theorem not_forall_textSurvives : ¬∀ text : CString, TextSurvives text := by
  intro h
  have hlt := (textSurvives_iff longText).mp (h longText)
  rw [longText, List.length_replicate] at hlt
  exact Nat.lt_irrefl _ hlt

end BindingKey

end Cebus
