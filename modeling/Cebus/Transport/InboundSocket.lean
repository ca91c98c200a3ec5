import Cebus.Utils.StringReplace

/-!
# Inbound sockets (`zmq_inbound_socket.c`)

Model of `cb_zmq_inbound_socket_get_zmq_endpoint` on the array of the socket. ØMQ reports the
endpoint that it has bound to; an address that stands for all of them is replaced by the name
of the host.

* `copyLoop_of_ne`: the copying away from the match.
* `sanitized_of_lt`, `sanitized_of_le`: what is in the buffer behind the loop.
* `getZmqEndpoint_rewrites`: the endpoint is rewritten as a whole, or stays as it is.
-/

namespace Cebus.InboundSocket

open CString

/-! ## Model -/

/-- `cb_zmq_inbound_socket_error` (`zmq_inbound_socket.h`, lines 9–34). -/
inductive InboundSocketError where
  | ok
  | errorInvalid
  | errorSockCreate
  | errorSockOptions
  | errorEndpointTooLarge
  | errorBind
  | errorRecv
  | errorUnbind
deriving DecidableEq, Repr

/-- `CB_ZMQ_IPADDR_ANY` (`zmq.h`, line 8). -/
def ipaddrAny : CString := ofChars "0.0.0.0".toList

/-- The loop (lines 46–63) with the match at `s`: the buffer and the index behind it. Each turn
    goes on in the endpoint, so that there are no more turns than cells. -/
def copyLoop (zmqEndpoint : Block UInt8) (hostname : CString) (s : ℕ) :
    ℕ → ℕ → Block UInt8 → ℕ → Option (Block UInt8 × ℕ)
  | 0, _, _, _ => none
  | turns + 1, p, sanitized, i =>
    if p < 255 then do
      let c ← (zmqEndpoint[p]?).join
      if c ≠ 0 ∧ i < 255 then
        if p ≠ s then do
          let sanitized ← sanitized.store i [c]
          copyLoop zmqEndpoint hostname s turns (p + 1) sanitized (i + 1)
        else do
          let sanitized ← strncpyTo sanitized i hostname (255 - i)
          copyLoop zmqEndpoint hostname s turns (p + ipaddrAny.bytes.length) sanitized
            (i + hostname.bytes.length)
      else some (sanitized, i)
    else some (sanitized, i)

/-- What follows the loop (lines 65–69). -/
def storeSanitized (zmqEndpoint sanitized : Block UInt8) (i : ℕ) :
    Option (Block UInt8 × InboundSocketError) :=
  if i ≥ 255 then some (zmqEndpoint, .errorEndpointTooLarge)
  else do
    let zmqEndpoint ← zmqEndpoint.store 0 (List.replicate 255 0)
    let sanitized ← ofCells sanitized
    let zmqEndpoint ← strncpyTo zmqEndpoint 0 sanitized 255
    some (zmqEndpoint, .ok)

/-- `cb_zmq_inbound_socket_get_zmq_endpoint` (lines 24–74), where `cb_env_hostname` returns
    `hostname` and `zmq_getsockopt` returns `rc` and writes `reported` if that is 0. -/
def getZmqEndpoint (hostname : CString) (rc : Int32) (reported : CString)
    (zmqEndpoint : Block UInt8) : Option (Block UInt8 × InboundSocketError) :=
  if rc ≠ 0 then some (zmqEndpoint, .errorSockOptions)
  else do
    let zmqEndpoint ← zmqEndpoint.store 0 (reported.bytes ++ [0])
    let endpoint ← ofCells zmqEndpoint
    match strstr endpoint ipaddrAny with
    | none => some (zmqEndpoint, .ok)
    | some s => do
      let (sanitized, i) ← copyLoop zmqEndpoint hostname s 256 0 (Block.alloc 255) 0
      storeSanitized zmqEndpoint sanitized i

/-- What ØMQ has written to the array. -/
def written (reported : CString) (before : Block UInt8) : Block UInt8 :=
  reported.block ++ before.drop (reported.bytes.length + 1)

/-- The endpoint with the name of the host. -/
def rewritten (hostname reported : CString) : CString :=
  replaceFirst reported ipaddrAny hostname

/-! ## The loop -/

variable {hostname reported : CString} {before rest : Block UInt8} {done : List UInt8}
  {s k p i turns : ℕ}

/-- A byte of the endpoint. -/
theorem join_written (hp : p < reported.bytes.length) :
    ((written reported before)[p]?).join = some reported.bytes[p] := by
  have hblock : p < reported.block.length := by
    rw [length_block]
    omega
  rw [written, List.getElem?_append_left hblock, block, List.getElem?_map,
    List.getElem?_append_left hp, List.getElem?_eq_getElem hp]
  rfl

/-- The terminator behind it. -/
theorem join_written_length :
    ((written reported before)[reported.bytes.length]?).join = some 0 := by
  have hblock : reported.bytes.length < reported.block.length := by
    rw [length_block]
    omega
  rw [written, List.getElem?_append_left hblock, block, List.getElem?_map,
    List.getElem?_append_right (Nat.le_refl _), Nat.sub_self]
  rfl

/-- A turn that goes on. -/
theorem copyLoop_step (hp : p < reported.bytes.length) (hreported : reported.bytes.length ≤ 254)
    (hi : i < 255) (sanitized : Block UInt8) :
    copyLoop (written reported before) hostname s (turns + 1) p sanitized i =
      if p ≠ s then (sanitized.store i [reported.bytes[p]]).bind fun sanitized =>
        copyLoop (written reported before) hostname s turns (p + 1) sanitized (i + 1)
      else (strncpyTo sanitized i hostname (255 - i)).bind fun sanitized =>
        copyLoop (written reported before) hostname s turns (p + ipaddrAny.bytes.length) sanitized
          (i + hostname.bytes.length) := by
  have hc : reported.bytes[p] ≠ 0 := fun hzero =>
    reported.noNul (hzero ▸ List.getElem_mem hp)
  rw [copyLoop, if_pos (by omega), join_written hp, Option.bind_eq_bind, Option.bind_some,
    if_pos ⟨hc, hi⟩]
  rfl

/-- The loop ends behind the endpoint, and when the buffer is full. -/
theorem copyLoop_stop (hp : p ≤ reported.bytes.length) (hreported : reported.bytes.length ≤ 254)
    (hstop : p = reported.bytes.length ∨ 255 ≤ i) (sanitized : Block UInt8) :
    copyLoop (written reported before) hostname s (turns + 1) p sanitized i =
      some (sanitized, i) := by
  obtain ⟨c, hread, hc⟩ : ∃ c, ((written reported before)[p]?).join = some c ∧
      ¬(c ≠ 0 ∧ i < 255) := by
    by_cases hend : p = reported.bytes.length
    · subst hend
      exact ⟨0, join_written_length, fun h => h.1 rfl⟩
    · exact ⟨_, join_written (by omega), fun h => by omega⟩
  rw [copyLoop, if_pos (by omega), hread, Option.bind_eq_bind, Option.bind_some, if_neg hc]

/-- **Away from the match**, the loop copies the endpoint. -/
theorem copyLoop_of_ne (hs : ∀ j < k, p + j ≠ s) (hp : p + k ≤ reported.bytes.length)
    (hreported : reported.bytes.length ≤ 254) (hi : done.length + k ≤ 255)
    (hrest : k ≤ rest.length) :
    copyLoop (written reported before) hostname s (turns + k) p (done.map some ++ rest)
        done.length =
      copyLoop (written reported before) hostname s turns (p + k)
        ((done ++ (reported.bytes.drop p).take k).map some ++ rest.drop k) (done.length + k) := by
  induction k generalizing p done rest with
  | zero =>
    rw [List.take_zero, List.append_nil]
    rfl
  | succ k ih =>
    have hlt : p < reported.bytes.length := by omega
    have hnext : ∀ j < k, p + 1 + j ≠ s := fun j hj => by
      rw [Nat.add_right_comm]
      exact hs (j + 1) (by omega)
    have ih := @ih (rest.drop 1) (done ++ [reported.bytes[p]]) (p + 1) hnext (by omega)
      (by rw [List.length_append, List.length_singleton]; omega)
      (by rw [List.length_drop]; omega)
    rw [List.length_append, List.length_singleton] at ih
    rw [← Nat.add_assoc, copyLoop_step hlt hreported (by omega),
      if_pos (show p ≠ s from hs 0 (by omega)), store_byte done _ (by omega), Option.bind_some, ih,
      List.drop_eq_getElem_cons hlt, List.take_succ_cons, List.drop_drop, List.append_assoc,
      List.singleton_append, Nat.add_right_comm p, Nat.add_right_comm done.length, Nat.add_assoc p,
      Nat.add_assoc done.length, Nat.add_comm 1]

/-! ## The buffer behind the loop -/

theorem ipaddrAny_ne_nil : ipaddrAny.bytes ≠ [] := by decide

/-- At the match the loop copies the name of the host, and pads the buffer with zeros. -/
theorem copyLoop_match (h : strstr reported ipaddrAny = some s)
    (hreported : reported.bytes.length ≤ 254) :
    copyLoop (written reported before) hostname s (turns + 1 + s) 0 (Block.alloc 255) 0 =
      copyLoop (written reported before) hostname s turns (s + ipaddrAny.bytes.length)
        ((reported.bytes.take s ++ hostname.padded (255 - s)).map some)
        (s + hostname.bytes.length) := by
  have hlt := lt_of_strstr h ipaddrAny_ne_nil
  have hlen : (reported.bytes.take s).length = s := List.length_take_of_le (Nat.le_of_lt hlt)
  have hrest : ((Block.alloc 255 : Block UInt8).drop s).length = 255 - s := by
    rw [List.length_drop, Block.length_alloc]
  have hbefore := @copyLoop_of_ne hostname reported before (Block.alloc 255) [] s s 0 (turns + 1)
    (fun j hj => by omega) (by omega) hreported (by rw [List.length_nil]; omega)
    (by rw [Block.length_alloc]; omega)
  have hpad : strncpyTo ((reported.bytes.take s).map some ++ (Block.alloc 255).drop s) s hostname
      (255 - s) = some ((reported.bytes.take s ++ hostname.padded (255 - s)).map some) := by
    have hstore := Block.store_append (reported.bytes.take s) (hostname.padded (255 - s))
      ((Block.alloc 255).drop s) (by rw [length_padded, hrest])
    rw [hlen, length_padded, List.drop_of_length_le (Nat.le_of_eq hrest), List.append_nil]
      at hstore
    exact hstore
  rw [List.map_nil, List.nil_append, List.drop_zero, List.length_nil, Nat.zero_add,
    List.nil_append] at hbefore
  rw [hbefore, copyLoop_step hlt hreported (by omega), if_neg (not_not.mpr rfl), hpad,
    Option.bind_some]

/-- Behind the match it goes on behind the name of the host. -/
theorem copyLoop_behind (h : strstr reported ipaddrAny = some s)
    (hreported : reported.bytes.length ≤ 254)
    (hk : s + ipaddrAny.bytes.length + k ≤ reported.bytes.length)
    (hroom : s + hostname.bytes.length + k ≤ 255) :
    copyLoop (written reported before) hostname s (turns + k + 1 + s) 0 (Block.alloc 255) 0 =
      copyLoop (written reported before) hostname s turns (s + ipaddrAny.bytes.length + k)
        ((reported.bytes.take s ++ hostname.bytes ++
            (reported.bytes.drop (s + ipaddrAny.bytes.length)).take k ++
          List.replicate (255 - (s + hostname.bytes.length + k)) 0).map some)
        (s + hostname.bytes.length + k) := by
  have hdone : (reported.bytes.take s ++ hostname.bytes).length = s + hostname.bytes.length := by
    rw [List.length_append, List.length_take_of_le (by omega)]
  have hpad : (reported.bytes.take s ++ hostname.padded (255 - s)).map some =
      (reported.bytes.take s ++ hostname.bytes).map some ++
        (List.replicate (255 - s - hostname.bytes.length) 0).map some := by
    rw [padded, List.take_of_length_le (show hostname.bytes.length ≤ 255 - s by omega),
      ← List.append_assoc, List.map_append]
  have hcopy := @copyLoop_of_ne hostname reported before
    ((List.replicate (255 - s - hostname.bytes.length) 0).map some)
    (reported.bytes.take s ++ hostname.bytes) s k (s + ipaddrAny.bytes.length) turns
    (fun j _ heq => by
      have hpos := List.length_pos_iff.mpr ipaddrAny_ne_nil
      omega) hk hreported (by rw [hdone]; exact hroom)
    (by rw [List.length_map, List.length_replicate]; omega)
  rw [hdone] at hcopy
  rw [copyLoop_match h hreported, hpad, hcopy, ← List.map_drop, List.drop_replicate,
    ← List.map_append, Nat.sub_sub, Nat.sub_sub, ← Nat.add_assoc s]

/-- A result that fits is in the buffer as a whole, and nothing is behind it. -/
theorem copyLoop_of_fits (h : strstr reported ipaddrAny = some s)
    (hreported : reported.bytes.length ≤ 254)
    (hfits : (rewritten hostname reported).bytes.length < 255) :
    copyLoop (written reported before) hostname s 256 0 (Block.alloc 255) 0 =
      some (((rewritten hostname reported).padded 255).map some,
        (rewritten hostname reported).bytes.length) := by
  have hlt := (bytes_of_strstr h).2
  obtain ⟨k, hk⟩ : ∃ k, reported.bytes.length = s + ipaddrAny.bytes.length + k :=
    ⟨_, (Nat.add_sub_of_le hlt).symm⟩
  have hlen : (rewritten hostname reported).bytes.length = s + hostname.bytes.length + k := by
    rw [rewritten, length_replaceFirst h, List.length_drop]
    omega
  have htail : (reported.bytes.drop (s + ipaddrAny.bytes.length)).length ≤ k := by
    rw [List.length_drop]
    omega
  have hbehind := @copyLoop_behind hostname reported before s k (254 - s - k + 1) h hreported
    (Nat.le_of_eq hk.symm) (by omega)
  rw [show 254 - s - k + 1 + k + 1 + s = 256 by omega, copyLoop_stop (Nat.le_of_eq hk.symm)
    hreported (Or.inl hk.symm), List.take_of_length_le htail] at hbehind
  rw [hbehind, padded, List.take_of_length_le (Nat.le_of_lt hfits), hlen, rewritten,
    take_replaceFirst h]

/-- One that does not fills the buffer. -/
theorem copyLoop_of_large (h : strstr reported ipaddrAny = some s)
    (hreported : reported.bytes.length ≤ 254)
    (hlarge : 255 ≤ (rewritten hostname reported).bytes.length) :
    ∃ sanitized i, copyLoop (written reported before) hostname s 256 0 (Block.alloc 255) 0 =
      some (sanitized, i) ∧ 255 ≤ i := by
  have hlt := (bytes_of_strstr h).2
  rw [rewritten, length_replaceFirst h, List.length_drop] at hlarge
  by_cases hroom : s + hostname.bytes.length ≤ 255
  · obtain ⟨k, hk⟩ : ∃ k, s + hostname.bytes.length + k = 255 := ⟨_, Nat.add_sub_of_le hroom⟩
    have hbehind := @copyLoop_behind hostname reported before s k (254 - s - k + 1) h hreported
      (by omega) (Nat.le_of_eq hk)
    rw [show 254 - s - k + 1 + k + 1 + s = 256 by omega, copyLoop_stop (by omega) hreported
      (Or.inr (Nat.le_of_eq hk.symm))] at hbehind
    exact ⟨_, _, hbehind, Nat.le_of_eq hk.symm⟩
  · -- The name of the host is already too long.
    have hmatch := @copyLoop_match hostname reported before s (254 - s + 1) h hreported
    rw [show 254 - s + 1 + 1 + s = 256 by omega, copyLoop_stop hlt hreported
      (Or.inr (by omega))] at hmatch
    exact ⟨_, _, hmatch, by omega⟩

/-! ## The endpoint -/

theorem length_written (hbefore : before.length = 255) (hreported : reported.bytes.length ≤ 254) :
    (written reported before).length = 255 := by
  rw [written, List.length_append, length_block, List.length_drop]
  omega

/-- ØMQ writes the endpoint to the array. -/
theorem store_reported (hbefore : before.length = 255) (hreported : reported.bytes.length ≤ 254) :
    before.store 0 (reported.bytes ++ [0]) = some (written reported before) := by
  have hstore := Block.store_append [] (reported.bytes ++ [0]) before
    (by rw [List.length_append, List.length_singleton]; omega)
  rwa [List.length_append, List.length_singleton] at hstore

/-- Without the address the array stays as ØMQ has written it. -/
theorem getZmqEndpoint_of_none (hbefore : before.length = 255)
    (hreported : reported.bytes.length ≤ 254) (h : strstr reported ipaddrAny = none) :
    getZmqEndpoint hostname 0 reported before = some (written reported before, .ok) := by
  have hread : ofCells (written reported before) = some reported := ofCells_block_append reported _
  simp only [getZmqEndpoint, ne_eq, not_true_eq_false, if_false, Option.bind_eq_bind,
    Option.bind_some, store_reported hbefore hreported, hread, h]

/-- With it, the loop fills the buffer. -/
theorem getZmqEndpoint_of_some (hbefore : before.length = 255)
    (hreported : reported.bytes.length ≤ 254) (h : strstr reported ipaddrAny = some s)
    {sanitized : Block UInt8} (hloop :
      copyLoop (written reported before) hostname s 256 0 (Block.alloc 255) 0 =
        some (sanitized, i)) :
    getZmqEndpoint hostname 0 reported before =
      storeSanitized (written reported before) sanitized i := by
  have hread : ofCells (written reported before) = some reported := ofCells_block_append reported _
  simp only [getZmqEndpoint, ne_eq, not_true_eq_false, if_false, Option.bind_eq_bind,
    Option.bind_some, store_reported hbefore hreported, hread, h, hloop]

theorem storeSanitized_of_le {zmqEndpoint sanitized : Block UInt8} (hi : 255 ≤ i) :
    storeSanitized zmqEndpoint sanitized i = some (zmqEndpoint, .errorEndpointTooLarge) :=
  if_pos hi

/-- The array is cleared, and then overwritten. -/
theorem storeSanitized_of_lt {zmqEndpoint sanitized : Block UInt8} {endpoint : CString}
    (hi : i < 255) (hlen : zmqEndpoint.length = 255) (hread : ofCells sanitized = some endpoint) :
    storeSanitized zmqEndpoint sanitized i = some ((endpoint.padded 255).map some, .ok) := by
  have hzeros : (List.replicate 255 (0 : UInt8)).length = 255 := List.length_replicate
  obtain ⟨cleared, hstore, hcleared, -⟩ := @Block.exists_store UInt8 zmqEndpoint 0 []
    (List.replicate 255 0) rfl (by rw [hzeros, hlen])
  rw [storeSanitized, if_neg (by omega), hstore, Option.bind_eq_bind, Option.bind_some, hread,
    Option.bind_eq_bind, Option.bind_some, strncpyTo_eq endpoint (hcleared.trans hlen)]
  rfl

/-- **The endpoint is rewritten as a whole, or stays as it is**: without the address nothing is
    changed, and with it the name of the host stands in its place exactly if the result has at
    most 254 bytes. -/
theorem getZmqEndpoint_rewrites (hostname reported : CString) (before : Block UInt8)
    (hbefore : before.length = 255) (hreported : reported.bytes.length ≤ 254) :
    ∃ zmqEndpoint code, getZmqEndpoint hostname 0 reported before = some (zmqEndpoint, code) ∧
      zmqEndpoint.length = 255 ∧
      (strstr reported ipaddrAny = none → zmqEndpoint = written reported before ∧ code = .ok) ∧
      ∀ s, strstr reported ipaddrAny = some s →
        (rewritten hostname reported).bytes = reported.bytes.take s ++ hostname.bytes ++
            reported.bytes.drop (s + ipaddrAny.bytes.length) ∧
        if (rewritten hostname reported).bytes.length ≤ 254 then
          ofCells zmqEndpoint = some (rewritten hostname reported) ∧ code = .ok
        else zmqEndpoint = written reported before ∧ code = .errorEndpointTooLarge := by
  have hlen := length_written hbefore hreported
  cases h : strstr reported ipaddrAny with
  | none =>
    refine ⟨_, _, getZmqEndpoint_of_none hbefore hreported h, hlen, fun _ => ⟨rfl, rfl⟩, ?_⟩
    exact fun s hs => absurd hs (Option.some_ne_none s).symm
  | some s =>
    have hbytes := @take_replaceFirst reported ipaddrAny hostname s h
    by_cases hfits : (rewritten hostname reported).bytes.length ≤ 254
    · have hread : ofCells (((rewritten hostname reported).padded 255).map some) = _ :=
        ofCells_padded (by omega)
      have hcode := getZmqEndpoint_of_some hbefore hreported h
        (copyLoop_of_fits h hreported (Nat.lt_succ_of_le hfits))
      rw [storeSanitized_of_lt (by omega) hlen hread] at hcode
      refine ⟨_, _, hcode, ?_, fun hnone => absurd hnone (Option.some_ne_none s), fun t ht => ?_⟩
      · rw [List.length_map, length_padded]
      · obtain rfl := Option.some.inj ht
        rw [if_pos hfits]
        exact ⟨hbytes, hread, rfl⟩
    · obtain ⟨sanitized, i, hloop, hi⟩ := @copyLoop_of_large hostname reported before s h
        hreported (by omega)
      have hcode := getZmqEndpoint_of_some hbefore hreported h hloop
      rw [storeSanitized_of_le hi] at hcode
      refine ⟨_, _, hcode, hlen, fun hnone => absurd hnone (Option.some_ne_none s), fun t ht => ?_⟩
      obtain rfl := Option.some.inj ht
      rw [if_neg hfits]
      exact ⟨hbytes, rfl, rfl⟩

/-- The name of a host instead of an address. -/
theorem getZmqEndpoint_octalLaptop :
    ∃ zmqEndpoint, getZmqEndpoint (ofChars "octal-laptop".toList) 0
        (ofChars "tcp://0.0.0.0:1234".toList) (Block.alloc 255) = some (zmqEndpoint, .ok) ∧
      ofCells zmqEndpoint = some (ofChars "tcp://octal-laptop:1234".toList) := by
  obtain ⟨zmqEndpoint, code, hcode, -, -, hsome⟩ := getZmqEndpoint_rewrites
    (ofChars "octal-laptop".toList) (ofChars "tcp://0.0.0.0:1234".toList) (Block.alloc 255)
    Block.length_alloc (by decide)
  obtain ⟨-, hrewritten⟩ := hsome 6 (by decide +kernel)
  rw [if_pos (by decide +kernel)] at hrewritten
  obtain ⟨hread, rfl⟩ := hrewritten
  exact ⟨zmqEndpoint, hcode, hread.trans (by decide +kernel)⟩

end Cebus.InboundSocket
