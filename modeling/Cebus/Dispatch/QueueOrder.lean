import Cebus.Dispatch.DispatchQueue

/-!
# The order of the work of a dispatch queue

* `tidy_run`: in every run the batches and the queue are chains with no entry in
  common, and no pointer goes astray.
* `conserves_iff`: a run conserves the work and its order exactly when the reads
  of the stops do not trap, the stops come last in their batches, and no thread
  invokes a dispatch before an earlier batch is done.
-/

namespace Cebus.DispatchQueue

open LinkedList Transition

variable {μ : Type} {impl impl' : DispatchQueueImpl μ}

/-! ## Chains -/

theorem batch_none (impl : DispatchQueueImpl μ) (running : Bool) :
    batch impl ⟨running, none⟩ = [] :=
  Chain.cells_eq (chain_none.mpr rfl)

/-- The batches and the queue are chains, the queue ends at its tail, and no entry
    is in two of them. -/
structure Tidy (impl : DispatchQueueImpl μ) : Prop where
  batches : ∀ thread ∈ impl.threads, Chain impl.memory thread.entry (batch impl thread)
  queue : Chain impl.memory impl.head (linked impl)
  tail : impl.tail = lastAddr none (linked impl)
  nodup : ((pending impl).map Prod.fst).Nodup

theorem tidy_init : Tidy (init : DispatchQueueImpl μ) where
  batches _ h := by cases h
  queue := rfl
  tail := rfl
  nodup := List.nodup_nil

/-- Tidiness from the lists that the chains are. -/
theorem tidy_of_chains (impl : DispatchQueueImpl μ) (ls : Thread → List (ℕ × Option μ))
    (q : List (ℕ × Option μ))
    (hb : ∀ thread ∈ impl.threads, Chain impl.memory thread.entry (ls thread))
    (hq : Chain impl.memory impl.head q) (ht : impl.tail = lastAddr none q)
    (hn : ((impl.threads.flatMap ls ++ q).map Prod.fst).Nodup) :
    Tidy impl ∧ pending impl = impl.threads.flatMap ls ++ q := by
  have hbatch : ∀ thread ∈ impl.threads, batch impl thread = ls thread :=
    fun thread hmem => (hb thread hmem).cells_eq
  have hlinked : linked impl = q := hq.cells_eq
  have hpending : pending impl = impl.threads.flatMap ls ++ q := by
    rw [pending, hlinked, List.flatMap_congr hbatch]
  refine ⟨⟨fun thread hmem => ?_, ?_, ?_, ?_⟩, hpending⟩
  · rw [hbatch thread hmem]
    exact hb thread hmem
  · rwa [hlinked]
  · rwa [hlinked]
  · rwa [hpending]

theorem Tidy.lt_length (h : Tidy impl) :
    ∀ b ∈ (pending impl).map Prod.fst, b < impl.memory.length := by
  intro b hb
  rw [pending, List.map_append, List.mem_append, List.map_flatMap, List.mem_flatMap] at hb
  obtain ⟨thread, hmem, hb⟩ | hb := hb
  · exact (h.batches thread hmem).lt_length b hb
  · exact h.queue.lt_length b hb

theorem mem_pending_of_batch {thread : Thread} (hmem : thread ∈ impl.threads) {b : ℕ}
    (hb : b ∈ (batch impl thread).map Prod.fst) :
    b ∈ (impl.threads.flatMap (batch impl)).map Prod.fst := by
  rw [List.map_flatMap, List.mem_flatMap]
  exact ⟨thread, hmem, hb⟩

theorem threads_split {threads : List Thread} {i : ℕ} {thread : Thread}
    (h : threads[i]? = some thread) :
    threads = threads.take i ++ thread :: threads.drop (i + 1) := by
  obtain ⟨hi, rfl⟩ := List.getElem?_eq_some_iff.mp h
  rw [← List.drop_eq_getElem_cons, List.take_append_drop]

theorem threads_set {threads : List Thread} {i : ℕ} {thread : Thread}
    (h : threads[i]? = some thread) (thread' : Thread) :
    threads.set i thread' = threads.take i ++ thread' :: threads.drop (i + 1) := by
  obtain ⟨hi, -⟩ := List.getElem?_eq_some_iff.mp h
  rw [List.set_eq_take_append_cons_drop, if_pos hi]

/-! ## The steps -/

/-- The two cases of an empty and of a nonempty queue. -/
theorem enqueueEntry_eq (h : Tidy impl) (dispatch : Option μ) :
    ∃ memory head, enqueueEntry impl dispatch =
        { impl with memory, head, tail := some impl.memory.length } ∧
      Chain memory head (linked impl ++ [(impl.memory.length, dispatch)]) ∧
      ∀ thread ∈ impl.threads, Chain memory thread.entry (batch impl thread) := by
  have hqueue := h.queue
  obtain hq | ⟨l, ⟨a, x⟩, hq⟩ := List.eq_nil_or_concat (linked impl)
  · rw [hq] at hqueue ⊢
    have hhead : impl.head = none := hqueue
    refine ⟨_, some impl.memory.length, by simp only [enqueueEntry, hhead]; rfl, ?_, ?_⟩
    · exact Chain.cons (p := none) rfl
    · exact fun thread hmem => Segment.alloc (h.batches thread hmem)
  · rw [List.concat_eq_append] at hq
    have htail : impl.tail = some a := by rw [h.tail, hq, lastAddr_concat]
    rw [hq] at hqueue ⊢
    obtain ⟨b, hhead⟩ := hqueue.exists_head (by simp)
    obtain ⟨-, -, -, n, hread, hnext⟩ := segment_append.mp hqueue
    obtain rfl : n = none := hnext
    have hread' : (impl.memory.alloc ⟨dispatch, none⟩).read a = some ⟨x, none⟩ := by
      rw [Mem.read_alloc_of_lt (Mem.lt_length_of_read hread), hread]
    refine ⟨_, some b, by simp only [enqueueEntry, hhead, htail, hread']; rfl, ?_, ?_⟩
    · rw [← hhead]
      exact hqueue.snoc
    · intro thread hmem
      refine (Segment.alloc (h.batches thread hmem)).congr fun b hb => Mem.read_write_ne ?_
      -- the last entry of the queue is in no batch
      have hnd := h.nodup
      rw [pending, hq, List.map_append, List.nodup_append] at hnd
      exact (hnd.2.2 b (mem_pending_of_batch hmem hb) a (by simp)).symm

/-- A new entry comes to the end of the queue. -/
theorem enqueueEntry_spec (h : Tidy impl) (dispatch : Option μ) :
    Tidy (enqueueEntry impl dispatch) ∧
      pending (enqueueEntry impl dispatch) = pending impl ++ [(impl.memory.length, dispatch)] ∧
      (enqueueEntry impl dispatch).crashed = impl.crashed ∧
      (enqueueEntry impl dispatch).enqueued = impl.enqueued ∧
      (enqueueEntry impl dispatch).invoked = impl.invoked := by
  have hnodup : ((pending impl ++ [(impl.memory.length, dispatch)]).map Prod.fst).Nodup := by
    rw [List.map_append, List.nodup_append]
    refine ⟨h.nodup, by simp, fun b hb c hc => ?_⟩
    have hlt := h.lt_length b hb
    obtain rfl : c = impl.memory.length := by simpa using hc
    omega
  have hassoc : pending impl ++ [(impl.memory.length, dispatch)] =
      impl.threads.flatMap (batch impl) ++ (linked impl ++ [(impl.memory.length, dispatch)]) :=
    List.append_assoc ..
  rw [hassoc] at hnodup ⊢
  obtain ⟨memory, head, heq, hq, hb⟩ := enqueueEntry_eq h dispatch
  rw [heq]
  obtain ⟨ht, hp⟩ := tidy_of_chains { impl with memory, head, tail := some impl.memory.length }
    (batch impl) _ hb hq lastAddr_concat.symm hnodup
  exact ⟨ht, hp, rfl, rfl, rfl⟩

/-- A thread takes the whole queue as the last batch. -/
theorem wake_spec {i : ℕ} (h : Tidy impl) (hs : wake impl i = some impl') :
    Tidy impl' ∧ pending impl' = pending impl ∧ impl'.crashed = impl.crashed ∧
      impl'.enqueued = impl.enqueued ∧ impl'.invoked = impl.invoked := by
  simp only [wake, Option.bind_eq_bind, Option.bind_eq_some_iff, Option.ite_none_right_eq_some,
    Option.some_inj] at hs
  obtain ⟨thread, hthread, ⟨-, hwait⟩, rfl⟩ := hs
  have hempty : batch impl thread = [] := by
    rw [← batch_none impl thread.running, ← hwait]
  have hflat : (impl.threads.eraseIdx i ++ [{ thread with entry := impl.head }]).flatMap
      (batch impl) ++ [] = pending impl := by
    rw [pending, List.append_nil, List.flatMap_append, List.flatMap_singleton,
      List.eraseIdx_eq_take_drop_succ]
    conv_rhs => rw [threads_split hthread]
    rw [List.flatMap_append, List.flatMap_append, List.flatMap_cons, hempty, List.nil_append]
    rfl
  obtain ⟨ht, hp⟩ := tidy_of_chains { impl with
      threads := impl.threads.eraseIdx i ++ [{ thread with entry := impl.head }]
      head := none, tail := none } (batch impl) []
    (fun other hmem => by
      obtain hmem | hmem := List.mem_append.mp hmem
      · exact h.batches other (List.mem_of_mem_eraseIdx hmem)
      · obtain rfl := List.mem_singleton.mp hmem
        exact h.queue)
    rfl rfl (by rw [hflat]; exact h.nodup)
  exact ⟨ht, hp.trans hflat, rfl, rfl, rfl⟩

/-- The entries of the batches before and behind that of a thread, and of the queue. -/
theorem pending_split {i : ℕ} {thread : Thread} (h : impl.threads[i]? = some thread) :
    pending impl = (impl.threads.take i).flatMap (batch impl) ++ (batch impl thread ++
      ((impl.threads.drop (i + 1)).flatMap (batch impl) ++ linked impl)) := by
  rw [pending]
  conv_lhs => rw [threads_split h]
  rw [List.flatMap_append, List.flatMap_cons, List.append_assoc, List.append_assoc]

/-- A stop ends the thread, whose batch is lost. -/
theorem endThread_spec {i : ℕ} {thread : Thread} (h : Tidy impl)
    (hthread : impl.threads[i]? = some thread) :
    Tidy { impl with threads := impl.threads.set i ⟨false, none⟩ } ∧
      pending { impl with threads := impl.threads.set i ⟨false, none⟩ } =
        (impl.threads.take i).flatMap (batch impl) ++
          ((impl.threads.drop (i + 1)).flatMap (batch impl) ++ linked impl) := by
  have hflat : (impl.threads.set i ⟨false, none⟩).flatMap (batch impl) ++ linked impl =
      (impl.threads.take i).flatMap (batch impl) ++
        ((impl.threads.drop (i + 1)).flatMap (batch impl) ++ linked impl) := by
    rw [threads_set hthread, List.flatMap_append, List.flatMap_cons, List.append_assoc,
      List.append_assoc, batch_none, List.nil_append]
  have hsub : ((impl.threads.set i ⟨false, none⟩).flatMap (batch impl) ++ linked impl).Sublist
      (pending impl) := by
    rw [hflat, pending_split hthread]
    exact (List.Sublist.refl _).append (List.sublist_append_right _ _)
  obtain ⟨ht, hp⟩ := tidy_of_chains { impl with threads := impl.threads.set i ⟨false, none⟩ }
    (batch impl) (linked impl)
    (fun other hmem => by
      obtain hmem | rfl := List.mem_or_eq_of_mem_set hmem
      · exact h.batches other hmem
      · exact (batch_none impl false).symm ▸ chain_none.mpr rfl)
    h.queue h.tail (h.nodup.sublist (hsub.map _))
  exact ⟨ht, hp.trans hflat⟩

/-- A thread goes through the first entry of its batch: a stop ends it, and what is
    left of the batch is lost; a dispatch is invoked. -/
theorem turn_spec {i : ℕ} (h : Tidy impl) (hs : turn impl i = some impl') :
    ∃ thread a x b, impl.threads[i]? = some thread ∧ batch impl thread = (a, x) :: b ∧
      Tidy impl' ∧ impl'.crashed = impl.crashed ∧ impl'.enqueued = impl.enqueued ∧
      pending impl' = (impl.threads.take i).flatMap (batch impl) ++
        ((if x = none then [] else b) ++
          ((impl.threads.drop (i + 1)).flatMap (batch impl) ++ linked impl)) ∧
      impl'.invoked = impl.invoked ++ dispatches [(a, x)] := by
  simp only [turn, Option.bind_eq_bind, Option.bind_eq_some_iff] at hs
  obtain ⟨thread, hthread, a, hentry, hs⟩ := hs
  have hchain := h.batches thread (List.mem_of_getElem? hthread)
  rw [hentry] at hchain
  obtain ⟨x, next, b, hb, hread, hnext⟩ := chain_some.mp hchain
  refine ⟨thread, a, x, b, hthread, hb, ?_⟩
  rw [hread] at hs
  cases x with
  | none =>
    obtain rfl := Option.some.inj hs
    obtain ⟨ht, hp⟩ := endThread_spec h hthread
    exact ⟨ht, rfl, rfl, hp, (List.append_nil _).symm⟩
  | some dispatch =>
    obtain rfl := Option.some.inj hs
    have hnd := h.nodup
    rw [pending_split hthread, hb, List.cons_append,
      (List.perm_middle.map Prod.fst).nodup_iff, List.map_cons, List.nodup_cons] at hnd
    obtain ⟨ha, hnd⟩ := hnd
    -- the chains that do not pass through the entry stay as they are
    have hframe : ∀ {p l}, Chain impl.memory p l → l ⊆ (impl.threads.take i).flatMap (batch impl) ++
        (b ++ ((impl.threads.drop (i + 1)).flatMap (batch impl) ++ linked impl)) →
        Chain (impl.memory.free a) p l := by
      intro p l hl hsub
      refine hl.congr fun c hc => Mem.read_free_ne ?_
      rintro rfl
      exact ha (List.map_subset _ hsub hc)
    have hbefore : ∀ other ∈ impl.threads.take i,
        Chain (impl.memory.free a) other.entry (batch impl other) := fun other hmem =>
      hframe (h.batches other (List.mem_of_mem_take hmem)) fun e he =>
        List.mem_append_left _ (List.mem_flatMap_of_mem hmem he)
    have hbehind : ∀ other ∈ impl.threads.drop (i + 1),
        Chain (impl.memory.free a) other.entry (batch impl other) := fun other hmem =>
      hframe (h.batches other (List.mem_of_mem_drop hmem)) fun e he =>
        List.mem_append_right _ (List.mem_append_right _
          (List.mem_append_left _ (List.mem_flatMap_of_mem hmem he)))
    have hrest : Chain (impl.memory.free a) next b := hframe hnext fun e he =>
      List.mem_append_right _ (List.mem_append_left _ he)
    have hqueue : Chain (impl.memory.free a) impl.head (linked impl) := hframe h.queue fun e he =>
      List.mem_append_right _ (List.mem_append_right _ (List.mem_append_right _ he))
    have hflat : (impl.threads.set i { thread with entry := next }).flatMap
          (fun other => cells (impl.memory.free a) other.entry) ++ linked impl =
        (impl.threads.take i).flatMap (batch impl) ++ (b ++
          ((impl.threads.drop (i + 1)).flatMap (batch impl) ++ linked impl)) := by
      rw [threads_set hthread, List.flatMap_append, List.flatMap_cons, List.append_assoc,
        List.append_assoc, List.flatMap_congr fun other hmem => (hbefore other hmem).cells_eq,
        List.flatMap_congr fun other hmem => (hbehind other hmem).cells_eq, hrest.cells_eq]
    obtain ⟨ht, hp⟩ := tidy_of_chains { impl with
        threads := impl.threads.set i { thread with entry := next }
        memory := impl.memory.free a
        invoked := impl.invoked ++ [(a, dispatch)] }
      (fun other => cells (impl.memory.free a) other.entry) (linked impl)
      (fun other hmem => by
        rw [threads_set hthread, List.mem_append, List.mem_cons] at hmem
        obtain hmem | rfl | hmem := hmem
        · exact (hbefore other hmem).self
        · exact hrest.self
        · exact (hbehind other hmem).self)
      hqueue h.tail (by rw [hflat]; exact hnd)
    exact ⟨ht, rfl, rfl, hp.trans hflat, rfl⟩

theorem tidy_enqueue (h : Tidy impl) (dispatch : μ) :
    Tidy (enqueue impl dispatch) ∧ (enqueue impl dispatch).crashed = impl.crashed ∧
      (enqueue impl dispatch).enqueued = impl.enqueued ++ [(impl.memory.length, dispatch)] ∧
      (enqueue impl dispatch).invoked = impl.invoked ∧
      pending (enqueue impl dispatch) = pending impl ++ [(impl.memory.length, some dispatch)] := by
  have h₁ : Tidy ({ impl with enqueued := impl.enqueued ++ [(impl.memory.length, dispatch)] } :
      DispatchQueueImpl μ) := ⟨h.batches, h.queue, h.tail, h.nodup⟩
  obtain ⟨ht, hp, hc, he, hi⟩ := enqueueEntry_spec h₁ (some dispatch)
  exact ⟨ht, hc, he, hi, hp⟩

theorem start_spec (h : Tidy impl) :
    Tidy (start impl) ∧ pending (start impl) = pending impl ∧
      (start impl).crashed = impl.crashed ∧ (start impl).enqueued = impl.enqueued ∧
      (start impl).invoked = impl.invoked := by
  unfold start
  split
  · exact ⟨h, rfl, rfl, rfl, rfl⟩
  · have hflat : (impl.threads ++ [(⟨true, none⟩ : Thread)]).flatMap (batch impl) =
        impl.threads.flatMap (batch impl) := by
      rw [List.flatMap_append, List.flatMap_singleton, batch_none, List.append_nil]
    obtain ⟨ht, hp⟩ := tidy_of_chains
      { impl with running := true, threads := impl.threads ++ [⟨true, none⟩] } (batch impl)
      (linked impl)
      (fun thread hmem => by
        obtain hmem | hmem := List.mem_append.mp hmem
        · exact h.batches thread hmem
        · obtain rfl := List.mem_singleton.mp hmem
          exact (batch_none impl true).symm ▸ chain_none.mpr rfl)
      h.queue h.tail (by rw [hflat]; exact h.nodup)
    refine ⟨ht, hp.trans ?_, rfl, rfl, rfl⟩
    rw [hflat, pending]

theorem stop_spec (h : Tidy impl) :
    Tidy (stop impl) ∧ pending (stop impl) = pending impl ∧
      (stop impl).crashed = impl.crashed ∧ (stop impl).enqueued = impl.enqueued ∧
      (stop impl).invoked = impl.invoked := by
  unfold stop
  split
  · exact ⟨⟨h.batches, h.queue, h.tail, h.nodup⟩, rfl, rfl, rfl, rfl⟩
  · exact ⟨h, rfl, rfl, rfl, rfl⟩

/-- A stop crashes if its read traps. Otherwise its entry comes to the end of the queue. -/
theorem stopEnqueue_spec {trap : Bool} (h : Tidy impl) (hs : stopEnqueue impl trap = some impl') :
    Tidy impl' ∧ impl'.enqueued = impl.enqueued ∧ impl'.invoked = impl.invoked ∧
      (trap = true → impl'.crashed = true) ∧
      (trap = false → impl'.crashed = impl.crashed ∧
        pending impl' = pending impl ++ [(impl.memory.length, none)]) := by
  unfold stopEnqueue at hs
  split at hs
  · cases hs
  · next stopping _ =>
    split at hs
    · next htrap =>
      obtain rfl := Option.some.inj hs
      exact ⟨⟨h.batches, h.queue, h.tail, h.nodup⟩, rfl, rfl, fun _ => rfl,
        fun hfalse => absurd htrap (by simp [hfalse])⟩
    · next htrap =>
      obtain rfl := Option.some.inj hs
      have h₁ : Tidy { impl with stopping } := ⟨h.batches, h.queue, h.tail, h.nodup⟩
      obtain ⟨ht, hp, hc, he, hi⟩ := enqueueEntry_spec h₁ none
      exact ⟨ht, he, hi, fun htrue => absurd htrue htrap, fun _ => ⟨hc, hp⟩⟩

theorem tidy_step {e : Event μ} (h : Tidy impl) (hs : step impl e = some impl') : Tidy impl' := by
  unfold step at hs
  split at hs
  · cases hs
  · cases e with
    | enqueue dispatch => exact Option.some.inj hs ▸ (tidy_enqueue h dispatch).1
    | start => exact Option.some.inj hs ▸ (start_spec h).1
    | stop => exact Option.some.inj hs ▸ (stop_spec h).1
    | stopEnqueue trap => exact (stopEnqueue_spec h hs).1
    | wake i => exact (wake_spec h hs).1
    | turn i =>
      obtain ⟨_, _, _, _, _, _, ht, _⟩ := turn_spec h hs
      exact ht

theorem tidy_run {es : List (Event μ)} (h : run step init es = some impl) : Tidy impl :=
  run_induction tidy_init (fun _ _ _ => tidy_step) h

/-! ## Conservation -/

theorem dispatches_append (l l' : List (ℕ × Option μ)) :
    dispatches (l ++ l') = dispatches l ++ dispatches l' :=
  List.filterMap_append

theorem dispatches_cons_none (a : ℕ) (l : List (ℕ × Option μ)) :
    dispatches ((a, none) :: l) = dispatches l := rfl

theorem dispatches_cons_some (a : ℕ) (dispatch : μ) (l : List (ℕ × Option μ)) :
    dispatches ((a, some dispatch) :: l) = (a, dispatch) :: dispatches l := rfl

theorem mem_dispatches {a : ℕ} {dispatch : μ} {l : List (ℕ × Option μ)}
    (h : (a, dispatch) ∈ dispatches l) : (a, some dispatch) ∈ l := by
  obtain ⟨⟨b, x⟩, hmem, hx⟩ := List.mem_filterMap.mp h
  obtain ⟨m, rfl, hm⟩ := Option.map_eq_some_iff.mp hx
  obtain ⟨rfl, rfl⟩ := Prod.mk.inj hm
  exact hmem

/-- What a step that meets the condition keeps. -/
theorem conserves_step {e : Event μ} (h : Tidy impl ∧ Conserves impl) (hC : InTurn impl e)
    (hs : step impl e = some impl') : Tidy impl' ∧ Conserves impl' := by
  refine ⟨tidy_step h.1 hs, ?_⟩
  obtain ⟨h, hcrashed, hlog⟩ := h
  unfold step at hs
  rw [if_neg (by simp [hcrashed])] at hs
  cases e with
  | enqueue dispatch =>
    obtain rfl := Option.some.inj hs
    obtain ⟨-, hc, he, hi, hp⟩ := tidy_enqueue h dispatch
    refine ⟨hc.trans hcrashed, ?_⟩
    rw [he, hi, hp, dispatches_append, hlog, List.append_assoc]
    rfl
  | start =>
    obtain rfl := Option.some.inj hs
    obtain ⟨-, hp, hc, he, hi⟩ := start_spec h
    exact ⟨hc.trans hcrashed, by rw [he, hi, hp, hlog]⟩
  | stop =>
    obtain rfl := Option.some.inj hs
    obtain ⟨-, hp, hc, he, hi⟩ := stop_spec h
    exact ⟨hc.trans hcrashed, by rw [he, hi, hp, hlog]⟩
  | stopEnqueue trap =>
    obtain ⟨-, he, hi, -, hno⟩ := stopEnqueue_spec h hs
    obtain ⟨hc, hp⟩ := hno hC
    refine ⟨hc.trans hcrashed, ?_⟩
    rw [he, hi, hp, dispatches_append, hlog]
    exact congrArg _ (List.append_nil _).symm
  | wake i =>
    obtain ⟨-, hp, hc, he, hi⟩ := wake_spec h hs
    exact ⟨hc.trans hcrashed, by rw [he, hi, hp, hlog]⟩
  | turn i =>
    obtain ⟨thread, a, x, b, hthread, hb, -, hc, he, hp, hi⟩ := turn_spec h hs
    refine ⟨hc.trans hcrashed, ?_⟩
    have hturn := hC thread a x b hthread hb
    rw [he, hi, hp, hlog, pending_split hthread, hb]
    simp only [dispatches_append]
    cases x with
    | none =>
      have hbehind : dispatches b = [] := hturn
      rw [dispatches_cons_none, hbehind, if_pos rfl]
      simp [dispatches]
    | some dispatch =>
      have hbefore : dispatches ((impl.threads.take i).flatMap (batch impl)) = [] := hturn
      rw [hbefore, if_neg (by simp), dispatches_cons_some, List.append_assoc]
      rfl

/-- Where the condition does not hold, the step crashes, loses work or changes its order. -/
theorem inTurn_of_conserves {e : Event μ} (h : Tidy impl ∧ Conserves impl)
    (hs : step impl e = some impl') (hconserves : Conserves impl') : InTurn impl e := by
  obtain ⟨h, hcrashed, hlog⟩ := h
  obtain ⟨hcrashed', hlog'⟩ := hconserves
  unfold step at hs
  rw [if_neg (by simp [hcrashed])] at hs
  cases e with
  | enqueue dispatch => trivial
  | start => trivial
  | stop => trivial
  | stopEnqueue trap =>
    obtain ⟨-, -, -, htrap, -⟩ := stopEnqueue_spec h hs
    show trap = false
    by_contra hne
    rw [htrap (by simpa using hne)] at hcrashed'
    cases hcrashed'
  | wake i => trivial
  | turn i =>
    obtain ⟨thread, a, x, b, hthread, hb, -, -, he, hp, hi⟩ := turn_spec h hs
    intro thread' a' x' b' hthread' hb'
    obtain rfl := Option.some.inj (hthread.symm.trans hthread')
    obtain ⟨hax, rfl⟩ := List.cons.inj (hb.symm.trans hb')
    obtain ⟨rfl, rfl⟩ := Prod.mk.inj hax
    rw [he, hi, hp, hlog, pending_split hthread, hb, List.append_assoc,
      List.append_cancel_left_eq] at hlog'
    simp only [dispatches_append] at hlog'
    cases x with
    | none =>
      show dispatches b = []
      have hlen := congrArg List.length hlog'
      rw [if_pos rfl, dispatches_cons_none] at hlen
      simp only [List.length_append, dispatches, List.filterMap_nil, List.filterMap_cons,
        Option.map_none, List.length_nil] at hlen
      exact List.length_eq_zero_iff.mp (by simp only [dispatches]; omega)
    | some dispatch =>
      show dispatches ((impl.threads.take i).flatMap (batch impl)) = []
      rcases hbefore : dispatches ((impl.threads.take i).flatMap (batch impl)) with _ | ⟨e, l⟩
      · rfl
      · -- the first dispatch of the earlier batches would have the same address
        rw [hbefore, List.cons_append, dispatches_cons_some, List.cons_append] at hlog'
        obtain ⟨rfl, -⟩ := List.cons.inj hlog'
        have hmem := mem_dispatches (hbefore ▸ List.mem_cons_self)
        have hnd := h.nodup
        rw [pending_split hthread, hb, List.map_append, List.nodup_append] at hnd
        exact absurd rfl (hnd.2.2 a (List.mem_map_of_mem hmem) a (by simp))

/-- **A dispatch queue neither loses nor reorders work exactly in the runs whose
    steps are all in turn.** -/
theorem conserves_iff (es : List (Event μ)) :
    Always step Conserves init es ↔ Meets step InTurn init es :=
  always_iff_meets (I := fun impl => Tidy impl ∧ Conserves impl) ⟨tidy_init, rfl, rfl⟩
    (fun _ h => h.2) (fun _ _ _ => conserves_step) (fun _ _ _ => inTurn_of_conserves)

/-- The three ways out: the read of a stop traps; a dispatch comes behind the entry
    of a stop; a start that comes before the entry of a stop gives a second thread,
    which takes and invokes a later batch first. -/
theorem not_conserves :
    ¬ Always step Conserves (init : DispatchQueueImpl ℕ) [.start, .stop, .stopEnqueue true] ∧
    ¬ Always step Conserves (init : DispatchQueueImpl ℕ)
      [.start, .stop, .stopEnqueue false, .enqueue 7, .wake 0, .turn 0] ∧
    ¬ Always step Conserves (init : DispatchQueueImpl ℕ)
      [.start, .stop, .start, .enqueue 1, .wake 0, .enqueue 2, .wake 0, .turn 1] := by
  refine ⟨fun h => ?_, fun h => ?_, fun h => ?_⟩
  · exact absurd (h _ _ List.prefix_rfl rfl) (by decide)
  · exact absurd (h _ _ List.prefix_rfl rfl) (by decide)
  · exact absurd (h _ _ List.prefix_rfl rfl) (by decide)

end Cebus.DispatchQueue
