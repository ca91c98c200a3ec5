import Cebus.Utils.Threading

/-!
# Futures with a continuation

Model of `cb_future_set`, `cb_future_poll` and `cb_future_then` (`src/threading.c`)
for any number of threads that set and poll and one that runs `cb_future_then`.

Each section under the mutex is one event, and so is each call of the continuation,
which comes after the mutex is released. A call that has nothing left to do behind its
section returns with it.

* `deliversOnce`: in every run the continuation is called at most once, with the value
  of the first setter, and has been called as soon as the first setter and
  `cb_future_then` have returned.
* `not_always_invoked`: the return of another setter is not enough.
-/

namespace Cebus.FutureThen

open Transition
open Future (FutureState)

/-! ## Model -/

/-- `cb_future_inner` (lines 18–31), where `continuation` stands for the function with its
    user data; `none` is the null pointer. -/
structure FutureInner (κ α : Type) where
  state : FutureState
  continuation : Option κ
  valueStorage : α
deriving DecidableEq

/-- A call of `cb_future_set` that has been through its section, and whether it has
    returned; otherwise it is about to call the continuation. -/
structure SetCall (α : Type) where
  data : α
  returned : Bool
deriving DecidableEq

/-- Where the call of `cb_future_then` stands. -/
inductive ThenCall (κ : Type) where
  | notCalled
  | callContinuation (continuation : κ)
  | returned (continuation : κ)
deriving DecidableEq

/-- The future, its callers, with the setters in the order in which they took the lock,
    the calls of the continuation with what it finds at its second argument, and the
    answers to the polls. -/
structure System (κ α : Type) where
  inner : FutureInner κ α
  sets : List (SetCall α)
  thenCall : ThenCall κ
  invocations : List (Option κ × α)
  polled : List (Option α)
deriving DecidableEq

variable {κ α : Type}

/-- After `cb_future_init` (lines 64–75), which clears the storage to `value`. -/
def init (value : α) : System κ α := ⟨⟨.pending, none, value⟩, [], .notCalled, [], []⟩

/-- `cb_future_poll` (lines 77–96): what is at `*data_out` when it answers
    `cb_future_ready`. -/
def poll (inner : FutureInner κ α) : Option α :=
  match inner.state with
  | .ready => some inner.valueStorage
  | .pending => none

/-- The section of `cb_future_then` (lines 98–115). -/
def «then» (inner : FutureInner κ α) (continuation : κ) : FutureInner κ α × ThenCall κ :=
  match inner.state with
  | .ready => (inner, .callContinuation continuation)
  | .pending => ({ inner with continuation := some continuation }, .returned continuation)

/-- The section of `cb_future_set` (lines 117–141). -/
def set (inner : FutureInner κ α) (data : α) : FutureInner κ α × SetCall α :=
  match inner.state with
  | .pending =>
    ({ inner with valueStorage := data, state := .ready }, ⟨data, inner.continuation.isNone⟩)
  | .ready => (inner, ⟨data, true⟩)

/-- The sections of the setters, the polls, and the sections of the call of `cb_future_then`. -/
inductive Event (κ α : Type) where
  | set (data : α)
  | setContinuation (i : ℕ)
  | poll
  | then (continuation : κ)
  | thenContinuation
deriving DecidableEq

/-- A step of one of them, if it is enabled. -/
def step (s : System κ α) : Event κ α → Option (System κ α)
  | .set data =>
    let (inner, call) := set s.inner data
    some { s with inner, sets := s.sets ++ [call] }
  | .setContinuation i =>
    match s.sets[i]? with
    | some ⟨data, false⟩ => some { s with
        sets := s.sets.set i ⟨data, true⟩
        invocations := s.invocations ++ [(s.inner.continuation, s.inner.valueStorage)] }
    | _ => none
  | .poll => some { s with polled := s.polled ++ [poll s.inner] }
  | .then continuation =>
    match s.thenCall with
    | .notCalled =>
      let (inner, thenCall) := «then» s.inner continuation
      some { s with inner, thenCall }
    | _ => none
  | .thenContinuation =>
    match s.thenCall with
    | .callContinuation continuation => some { s with
        thenCall := .returned continuation
        invocations := s.invocations ++ [(some continuation, s.inner.valueStorage)] }
    | _ => none

/-! ## What a future is for -/

/-- The data of the first setter to take the lock. -/
def first (s : System κ α) : Option α := s.sets.head?.map (·.data)

/-- The continuation is called at most once, with the first value, which is also what
    the polls yield and what stays stored. -/
structure DeliversOnce (s : System κ α) : Prop where
  once : s.invocations.length ≤ 1
  invoked : ∀ k c, s.thenCall = .returned k → s.sets.head? = some c → c.returned →
    s.invocations = [(some k, c.data)]
  received : ∀ i ∈ s.invocations, some i.2 = first s
  polled : ∀ a, some a ∈ s.polled → some a = first s
  stored : s.sets ≠ [] → poll s.inner = first s

/-- With `cb_future_then` and some setter the continuation has been called. -/
def InvokedOnceSet (s : System κ α) : Prop :=
  (∃ k, s.thenCall = .returned k) → (∃ c ∈ s.sets, c.returned) → s.invocations ≠ []

/-! ## The invariant -/

variable {s t : System κ α}

/-- Before the first setter the future is pending, and from then on it stores the data of
    this one; the others return at once. -/
def Stored (s : System κ α) : Prop :=
  match s.sets with
  | [] => s.inner.state = .pending
  | c :: rest => s.inner.state = .ready ∧ s.inner.valueStorage = c.data ∧ ∀ d ∈ rest, d.returned

/-- Who is to call the continuation, at each place of `cb_future_then` and of the first
    setter. -/
def Phase (s : System κ α) : Prop :=
  match s.thenCall, s.sets with
  | .notCalled, [] => s.inner.continuation = none ∧ s.invocations = []
  | .notCalled, c :: _ => c.returned ∧ s.invocations = []
  | .callContinuation _, [] => False
  | .callContinuation _, c :: _ => c.returned ∧ s.invocations = []
  | .returned k, [] => s.inner.continuation = some k ∧ s.invocations = []
  | .returned k, c :: _ =>
    if c.returned then s.invocations = [(some k, c.data)]
    else s.inner.continuation = some k ∧ s.invocations = []

/-- What is kept of the future by every step. -/
structure Holds (s : System κ α) : Prop where
  stored : Stored s
  phase : Phase s
  polled : ∀ a, some a ∈ s.polled → some a = first s

theorem holds_init (value : α) : Holds (init value : System κ α) :=
  ⟨rfl, ⟨rfl, rfl⟩, by simp [init]⟩

/-- What is stored is what the first setter has brought, if there was one. -/
theorem Stored.poll_eq (h : Stored s) : poll s.inner = first s := by
  unfold Stored at h
  split at h
  · next hs => simp [poll, first, h, hs]
  · next hs => simp [poll, first, h.1, h.2.1, hs]

theorem Holds.delivers (h : Holds s) : DeliversOnce s := by
  obtain ⟨hstored, hphase, hpolled⟩ := h
  have hinvocations : s.invocations = [] ∨ ∃ k c rest, s.thenCall = .returned k ∧
      s.sets = c :: rest ∧ s.invocations = [(some k, c.data)] := by
    unfold Phase at hphase
    split at hphase
    · exact Or.inl hphase.2
    · exact Or.inl hphase.2
    · exact hphase.elim
    · exact Or.inl hphase.2
    · exact Or.inl hphase.2
    · next k c rest ht hs =>
      split at hphase
      · exact Or.inr ⟨k, c, rest, ht, hs, hphase⟩
      · exact Or.inl hphase.2
  refine ⟨?_, fun k c ht hc hret => ?_, fun i hi => ?_, hpolled, fun _ => hstored.poll_eq⟩
  · obtain h | ⟨_, _, _, -, -, h⟩ := hinvocations <;> simp [h]
  · obtain ⟨rest, hs⟩ := List.head?_eq_some_iff.mp hc
    simpa [Phase, ht, hs, hret] using hphase
  · obtain h | ⟨k, c, rest, -, hs, h⟩ := hinvocations
    · simp [h] at hi
    · rw [h, List.mem_singleton] at hi
      simp [hi, first, hs]

/-! ## The steps -/

/-- The first setter stores its data, and calls the continuation if there is one; any
    other changes nothing. -/
theorem Holds.set (h : Holds s) (data : α) :
    Holds { s with inner := (set s.inner data).1, sets := s.sets ++ [(set s.inner data).2] } := by
  obtain ⟨hstored, hphase, hpolled⟩ := h
  rcases hs : s.sets with _ | ⟨c, rest⟩
  · have hstate : s.inner.state = .pending := by simpa [Stored, hs] using hstored
    have hnone : ∀ a, some a ∉ s.polled := fun a ha => by simpa [first, hs] using hpolled a ha
    refine ⟨by simp [Stored, FutureThen.set, hstate], ?_, fun a ha => absurd ha (hnone a)⟩
    rcases ht : s.thenCall with _ | k | k
    · have hp : s.inner.continuation = none ∧ s.invocations = [] := by
        simpa [Phase, ht, hs] using hphase
      simp [Phase, FutureThen.set, hstate, hp]
    · simp [Phase, ht, hs] at hphase
    · have hp : s.inner.continuation = some k ∧ s.invocations = [] := by
        simpa [Phase, ht, hs] using hphase
      simp [Phase, FutureThen.set, hstate, hp]
  · obtain ⟨hstate, hvalue, hrest⟩ :
        s.inner.state = .ready ∧ s.inner.valueStorage = c.data ∧ ∀ d ∈ rest, d.returned := by
      simpa [Stored, hs] using hstored
    have hset : FutureThen.set s.inner data = (s.inner, ⟨data, true⟩) := by
      rw [FutureThen.set, hstate]
    rw [hset]
    refine ⟨?_, ?_, fun a ha => ?_⟩
    · refine ⟨hstate, hvalue, fun d hd => ?_⟩
      obtain hd | hd := List.mem_append.mp hd
      · exact hrest d hd
      · rw [List.mem_singleton.mp hd]
    · unfold Phase at hphase ⊢
      rw [hs] at hphase
      cases ht : s.thenCall <;> simpa only [ht, List.cons_append] using hphase
    · simpa [first, hs] using hpolled a ha

/-- Only the first setter calls the continuation, and it is the one that
    `cb_future_then` has left. -/
theorem Holds.setContinuation (h : Holds s) {i : ℕ} {data : α}
    (hi : s.sets[i]? = some ⟨data, false⟩) :
    Holds { s with
      sets := s.sets.set i ⟨data, true⟩
      invocations := s.invocations ++ [(s.inner.continuation, s.inner.valueStorage)] } := by
  obtain ⟨hstored, hphase, hpolled⟩ := h
  rcases hs : s.sets with _ | ⟨c, rest⟩
  · simp [hs] at hi
  obtain ⟨hstate, hvalue, hrest⟩ :
      s.inner.state = .ready ∧ s.inner.valueStorage = c.data ∧ ∀ d ∈ rest, d.returned := by
    simpa [Stored, hs] using hstored
  rcases i with _ | i
  · obtain rfl : c = ⟨data, false⟩ := by simpa [hs] using hi
    refine ⟨⟨hstate, hvalue, hrest⟩, ?_, fun a ha => by simpa [first, hs] using hpolled a ha⟩
    rcases ht : s.thenCall with _ | k | k
    · simp [Phase, ht, hs] at hphase
    · simp [Phase, ht, hs] at hphase
    · have hp : s.inner.continuation = some k ∧ s.invocations = [] := by
        simpa [Phase, ht, hs] using hphase
      simp [Phase, hp, hvalue]
  · have hmem : (⟨data, false⟩ : SetCall α) ∈ rest := by
      rw [hs, List.getElem?_cons_succ] at hi
      exact List.mem_of_getElem? hi
    exact absurd (hrest _ hmem) Bool.false_ne_true

theorem Holds.poll (h : Holds s) : Holds { s with polled := s.polled ++ [poll s.inner] } := by
  refine ⟨h.stored, h.phase, fun a ha => ?_⟩
  obtain ha | ha := List.mem_append.mp ha
  · exact h.polled a ha
  · rw [List.mem_singleton.mp ha]
    exact h.stored.poll_eq

/-- `cb_future_then` leaves the continuation to the first setter, or calls it itself if
    this one has come before. -/
theorem Holds.then (h : Holds s) (hcall : s.thenCall = .notCalled) (k : κ) :
    Holds { s with inner := («then» s.inner k).1, thenCall := («then» s.inner k).2 } := by
  obtain ⟨hstored, hphase, hpolled⟩ := h
  rcases hs : s.sets with _ | ⟨c, rest⟩
  · have hstate : s.inner.state = .pending := by simpa [Stored, hs] using hstored
    have hp : s.inner.continuation = none ∧ s.invocations = [] := by
      simpa [Phase, hcall, hs] using hphase
    refine ⟨?_, ?_, by simpa [first, hs] using hpolled⟩
    · simp [Stored, FutureThen.then, hstate]
    · simp [Phase, FutureThen.then, hstate, hp]
  · obtain ⟨hstate, hvalue, hrest⟩ :
        s.inner.state = .ready ∧ s.inner.valueStorage = c.data ∧ ∀ d ∈ rest, d.returned := by
      simpa [Stored, hs] using hstored
    have hp : c.returned ∧ s.invocations = [] := by simpa [Phase, hcall, hs] using hphase
    refine ⟨?_, ?_, by simpa [first, hs] using hpolled⟩
    · simpa [Stored, FutureThen.then, hstate] using ⟨hvalue, hrest⟩
    · simpa [Phase, FutureThen.then, hstate] using hp

theorem Holds.thenContinuation (h : Holds s) {k : κ} (hcall : s.thenCall = .callContinuation k) :
    Holds { s with
      thenCall := .returned k
      invocations := s.invocations ++ [(some k, s.inner.valueStorage)] } := by
  obtain ⟨hstored, hphase, hpolled⟩ := h
  refine ⟨hstored, ?_, hpolled⟩
  rcases hs : s.sets with _ | ⟨c, rest⟩
  · simp [Phase, hcall, hs] at hphase
  · have hvalue : s.inner.valueStorage = c.data := by
      unfold Stored at hstored
      rw [hs] at hstored
      exact hstored.2.1
    have hp : c.returned ∧ s.invocations = [] := by simpa [Phase, hcall, hs] using hphase
    simp [Phase, hp, hvalue]

theorem Holds.step {e : Event κ α} (h : Holds s) (hs : step s e = some t) : Holds t := by
  cases e with
  | set data =>
    obtain rfl := Option.some.inj hs
    exact h.set data
  | setContinuation i =>
    simp only [FutureThen.step] at hs
    split at hs
    · next data hi =>
      obtain rfl := Option.some.inj hs
      exact h.setContinuation hi
    · cases hs
  | poll =>
    obtain rfl := Option.some.inj hs
    exact h.poll
  | «then» k =>
    simp only [FutureThen.step] at hs
    split at hs
    · next hcall =>
      obtain rfl := Option.some.inj hs
      exact h.then hcall k
    · cases hs
  | thenContinuation =>
    simp only [FutureThen.step] at hs
    split at hs
    · next k hcall =>
      obtain rfl := Option.some.inj hs
      exact h.thenContinuation hcall
    · cases hs

/-- **A future delivers its first value exactly once**, whatever the interleaving. -/
theorem deliversOnce (value : α) (es : List (Event κ α)) :
    Always step DeliversOnce (init value) es :=
  fun _ _ _ ht => (run_induction (holds_init value) (fun _ _ _ => Holds.step) ht).delivers

/-- A second setter may return before the first one calls the continuation. -/
theorem not_always_invoked :
    ¬ ∀ es : List (Event ℕ ℕ), Always step InvokedOnceSet (init 0) es := by
  intro h
  exact h [.then 7, .set 1, .set 2] _ _ List.prefix_rfl rfl ⟨7, rfl⟩ ⟨⟨2, true⟩, by decide, rfl⟩ rfl

end Cebus.FutureThen
