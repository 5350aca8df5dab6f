import PipeAI.Pipeline.WindowFormation

/-!
# The delivery of results

Each window goes through the stages one after the other: the first stage turns it into a
tensor, the second stage runs the model on the tensor and numbers the result, and the third
stage classifies the result and gives it to the callback.  What a stage pushes may be refused
once the queue after it is closed, but from then on all that it pushes is refused.  Hence in
every reachable state the tensors inferred so far are those of the first windows, and the
results delivered so far are the first results (`delivery_of_reachable`).
-/

namespace Pipeline

variable {σ K : Type} [Field K] [LinearOrder K]

/-! ### Tensors and results -/

omit [LinearOrder K] in
/-- The results for the answers of the engine, numbered from 1 on. -/
def resultsOf (inferred : List (ModelInput K × Answer K)) : List (InferenceResult K) :=
  inferred.mapIdx (fun k p => inferenceResult (UInt64.ofNat (k + 1)) p.2)

omit [LinearOrder K] in
@[simp]
theorem resultsOf_snoc (inferred : List (ModelInput K × Answer K)) (p : ModelInput K × Answer K) :
  resultsOf (inferred ++ [p])
    = resultsOf inferred ++ [inferenceResult (UInt64.ofNat (inferred.length + 1)) p.2]
  := by
  rw [resultsOf, List.mapIdx_concat, resultsOf]

/-- The tensor that the first stage has still to offer. -/
def PreprocessPc.tensor (P : Params K) : PreprocessPc K → List (ModelInput K)
  | .swapped window => if window = [] then [] else (tensorOf P window).toList
  | .unlocked window => if window = [] then [] else (tensorOf P window).toList
  | .push input => [input]
  | _ => []

omit [Field K] [LinearOrder K] in
/-- The tensor that the second stage has received, and not inferred. -/
def InferencePc.tensor : InferencePc K → List (ModelInput K)
  | .item input => [input]
  | _ => []

omit [Field K] [LinearOrder K] in
/-- The result that the second stage has still to offer. -/
def InferencePc.result : InferencePc K → List (InferenceResult K)
  | .push result => [result]
  | _ => []

omit [Field K] [LinearOrder K] in
/-- The result that the third stage has received, and not delivered. -/
def PostPc.result : PostPc K → List (InferenceResult K)
  | .item result => [result]
  | _ => []

/-! ### What each stage has done -/

/-- The first stage has offered the tensors of the windows, but the one it has still to offer. -/
def Transforming (P : Params K) (c : Core σ K)
    (q : BlockingQueue.State (Thread σ) (ModelInput K)) : Prop :=
  ∃ L, BlockingQueue.Offered q (.stage .preprocess) L
    ∧ c.windows.filterMap (tensorOf P) = L ++ c.preprocess.tensor P

omit [LinearOrder K] in
/-- The second stage has inferred the tensors it has received, but the present one, has
numbered the results, and has offered them, but the one it has still to offer. -/
structure Inferring (c : Core σ K) (tensors : BlockingQueue.State (Thread σ) (ModelInput K))
    (results : BlockingQueue.State (Thread σ) (InferenceResult K)) : Prop where
  consumed : BlockingQueue.Consumed tensors (.stage .inference)
    (c.inferred.map Prod.fst ++ c.inference.tensor)
  offered : ∃ L, BlockingQueue.Offered results (.stage .inference) L
    ∧ resultsOf c.inferred = L ++ c.inference.result
  window_id : c.window_id = UInt64.ofNat c.inferred.length

/-- The third stage has delivered the results it has received, but the present one. -/
def Posting (P : Params K) (c : Core σ K)
    (q : BlockingQueue.State (Thread σ) (InferenceResult K)) : Prop :=
  ∃ L, BlockingQueue.Consumed q (.stage .post) (L ++ c.post.result)
    ∧ c.callbacks = L.map (Classifier.classify P.exp)

variable [DecidableEq σ] {P : Params K} {c c' : Core σ K} {t : Thread σ} {a : Action K}

/-- The steps of the first stage turn windows into tensors. -/
theorem Transforming.preprocess {q q' : BlockingQueue.State (Thread σ) (ModelInput K)}
    (h : Transforming P c q) (hc : PreprocessStep P c a c')
    (hq : a.tensor.Run (.stage .preprocess) q q') :
  Transforming P c' q'
  := by
  obtain ⟨L, hoffered, hwindows⟩ := h
  cases hc with
  | enter hp ht hr =>
      obtain rfl := hq
      rw [hp] at hwindows
      exact ⟨L, hoffered, hwindows⟩
  | exit ht hr =>
      obtain rfl := hq
      exact ⟨L, hoffered, hwindows⟩
  | swap hp hsize =>
      obtain rfl := hq
      rw [hp] at hwindows
      refine ⟨L, hoffered, ?_⟩
      have hne : c.window_buffer ≠ [] := by
        intro hnil
        rw [hnil, List.length_nil] at hsize
        apply absurd hsize (by decide)
      simp only [PreprocessPc.tensor, if_neg hne, List.filterMap_append, hwindows,
        List.append_nil]
      congr 1
  | run hp hw hrun =>
      obtain rfl := hq
      rw [hp] at hwindows
      refine ⟨L, hoffered, ?_⟩
      rw [PreprocessPc.tensor, if_neg hw, tensorOf, hrun] at hwindows
      simp only at hwindows ⊢
      rw [hwindows]
      split <;> rfl
  | callPush hp =>
      obtain ⟨hidle, rfl⟩ := hq
      rw [hp] at hwindows
      refine ⟨_, hoffered.push hidle _, ?_⟩
      simpa [PreprocessPc.tensor] using hwindows
  | popEnds hp =>
      rw [hp] at hwindows
      exact ⟨L, hoffered.run hq (by rintro op hop; cases hop), hwindows⟩
  | _ hp =>
      rw [hp] at hwindows
      refine ⟨L, hoffered.run hq (by rintro op hop; cases hop), ?_⟩
      simpa [PreprocessPc.tensor] using hwindows

/-- The steps of the other threads leave the tensors. -/
theorem Transforming.others {q q' : BlockingQueue.State (Thread σ) (ModelInput K)}
    (h : Transforming P c q) (hc : CoreStep P c t a c') (ht : t ≠ .stage .preprocess)
    (hq : a.tensor.Run t q q') :
  Transforming P c' q'
  := by
  obtain ⟨hp, -, -, hw⟩ := hc.forming ht
  obtain ⟨L, hoffered, hwindows⟩ := h
  rw [Transforming, hp, hw]
  exact ⟨L, hoffered.run hq (fun op hop => hc.pushes_tensor ht hop), hwindows⟩

omit [LinearOrder K] in
/-- The steps of the second stage turn tensors into results. -/
theorem Inferring.inference {q q' : BlockingQueue.State (Thread σ) (ModelInput K)}
    {r r' : BlockingQueue.State (Thread σ) (InferenceResult K)} (h : Inferring c q r)
    (hc : InferenceStep c a c') (hq : a.tensor.Run (.stage .inference) q q')
    (hr : a.result.Run (.stage .inference) r r') :
  Inferring c' q' r'
  := by
  obtain ⟨hconsumed, ⟨L, hoffered, hresults⟩, hid⟩ := h
  cases hc with
  | enter hp ht hr' =>
      obtain rfl := hq
      obtain rfl := hr
      rw [hp] at hconsumed hresults
      exact ⟨hconsumed, ⟨L, hoffered, hresults⟩, hid⟩
  | exit ht hr' =>
      obtain rfl := hq
      obtain rfl := hr
      exact ⟨hconsumed, ⟨L, hoffered, hresults⟩, hid⟩
  | callPop hp =>
      obtain ⟨hidle, rfl⟩ := hq
      obtain rfl := hr
      rw [hp] at hconsumed hresults
      exact ⟨hconsumed.call hidle _, ⟨L, hoffered, hresults⟩, hid⟩
  | popReturns hp =>
      obtain ⟨hphase, rfl⟩ := hq
      obtain rfl := hr
      rw [hp] at hconsumed hresults
      refine ⟨?_, ⟨L, hoffered, hresults⟩, hid⟩
      simpa [InferencePc.tensor, BlockingQueue.takenValue] using hconsumed.ret hphase
  | popEnds hp =>
      obtain ⟨hphase, rfl⟩ := hq
      obtain rfl := hr
      rw [hp] at hconsumed hresults
      refine ⟨?_, ⟨L, hoffered, hresults⟩, hid⟩
      simpa [Core.setWorker, InferencePc.tensor, BlockingQueue.takenValue]
        using hconsumed.ret hphase
  | infer hp a =>
      obtain rfl := hq
      obtain rfl := hr
      rw [hp] at hconsumed hresults
      have hid' : c.window_id + 1 = UInt64.ofNat (c.inferred.length + 1) := by
        rw [hid]
        simp
      refine ⟨?_, ⟨L, hoffered, ?_⟩, ?_⟩
      · simpa [InferencePc.tensor] using hconsumed
      · rw [resultsOf_snoc, hresults]
        simp [InferencePc.result, hid']
      · rw [List.length_append, List.length_singleton]
        apply hid'
  | callPush hp =>
      obtain rfl := hq
      obtain ⟨hidle, rfl⟩ := hr
      rw [hp] at hconsumed hresults
      refine ⟨hconsumed, ⟨_, hoffered.push hidle _, ?_⟩, hid⟩
      simpa [InferencePc.result] using hresults
  | pushReturns hp =>
      obtain rfl := hq
      obtain ⟨hphase, rfl⟩ := hr
      rw [hp] at hconsumed hresults
      exact ⟨hconsumed, ⟨L, hoffered.ret hphase, hresults⟩, hid⟩

/-- The steps of the other threads leave the results. -/
theorem Inferring.others {q q' : BlockingQueue.State (Thread σ) (ModelInput K)}
    {r r' : BlockingQueue.State (Thread σ) (InferenceResult K)} (h : Inferring c q r)
    (hc : CoreStep P c t a c') (ht : t ≠ .stage .inference) (hq : a.tensor.Run t q q')
    (hr : a.result.Run t r r') :
  Inferring c' q' r'
  := by
  obtain ⟨hp, hid', hi⟩ := hc.inferring ht
  obtain ⟨hconsumed, ⟨L, hoffered, hresults⟩, hid⟩ := h
  constructor
  · rw [hp, hi]
    apply hconsumed.run_of_ne ht hq
  · rw [hp, hi]
    exact ⟨L, hoffered.run hr (fun op hop => hc.pushes_result ht hop), hresults⟩
  · rw [hid', hi, hid]

/-- The steps of the third stage deliver results. -/
theorem Posting.post {q q' : BlockingQueue.State (Thread σ) (InferenceResult K)}
    (h : Posting P c q) (hc : PostStep P c a c') (hq : a.result.Run (.stage .post) q q') :
  Posting P c' q'
  := by
  obtain ⟨L, hconsumed, hcallbacks⟩ := h
  cases hc with
  | enter hp ht hr =>
      obtain rfl := hq
      rw [hp] at hconsumed
      exact ⟨L, hconsumed, hcallbacks⟩
  | exit ht hr =>
      obtain rfl := hq
      exact ⟨L, hconsumed, hcallbacks⟩
  | callPop hp =>
      obtain ⟨hidle, rfl⟩ := hq
      rw [hp] at hconsumed
      exact ⟨L, hconsumed.call hidle _, hcallbacks⟩
  | popReturns hp =>
      obtain ⟨hphase, rfl⟩ := hq
      rw [hp] at hconsumed
      refine ⟨L, ?_, hcallbacks⟩
      simpa [PostPc.result, BlockingQueue.takenValue] using hconsumed.ret hphase
  | popEnds hp =>
      obtain ⟨hphase, rfl⟩ := hq
      rw [hp] at hconsumed
      refine ⟨L, ?_, hcallbacks⟩
      simpa [PostPc.result, BlockingQueue.takenValue] using hconsumed.ret hphase
  | @callback result hp =>
      obtain rfl := hq
      rw [hp] at hconsumed
      refine ⟨L ++ [result], ?_, ?_⟩
      · simpa [PostPc.result] using hconsumed
      · simp [hcallbacks]

/-- The steps of the other threads deliver no results. -/
theorem Posting.others {q q' : BlockingQueue.State (Thread σ) (InferenceResult K)}
    (h : Posting P c q) (hc : CoreStep P c t a c') (ht : t ≠ .stage .post)
    (hq : a.result.Run t q q') :
  Posting P c' q'
  := by
  obtain ⟨hp, hcb⟩ := hc.posting ht
  obtain ⟨L, hconsumed, hcallbacks⟩ := h
  rw [Posting, hp, hcb]
  exact ⟨L, hconsumed.run_of_ne ht hq, hcallbacks⟩

/-! ### Reachable states -/

/-- In every reachable state the first stage has offered the tensors of the windows. -/
theorem transforming_of_reachable {s : State σ K} (h : (system σ P).Reachable s) :
  Transforming P s.core s.tensor_queue
  := by
  apply h.invariant
  · rintro s rfl
    exact ⟨[], ⟨List.nil_prefix, fun _ => rfl⟩, rfl⟩
  · intro s t s' hs htrans hstep
    obtain ⟨a, hc, -, htensor, -⟩ | ⟨hcore, ⟨-, hq, -⟩ | ⟨hq, -, -⟩ | ⟨-, -, hq⟩⟩ := hstep.cases
    · by_cases ht : t = .stage .preprocess
      · subst ht
        apply htrans.preprocess hc htensor
      · apply htrans.others hc ht htensor
    · rw [hcore, hq]
      apply htrans
    · rw [hcore]
      obtain ⟨L, hoffered, hwindows⟩ := htrans
      exact ⟨L, hoffered.internal (synced_of_reachable hs).tensorPushes hq, hwindows⟩
    · rw [hcore, hq]
      apply htrans

/-- In every reachable state the second stage has inferred the tensors and offered the
results. -/
theorem inferring_of_reachable {s : State σ K} (h : (system σ P).Reachable s) :
  Inferring s.core s.tensor_queue s.result_queue
  := by
  apply h.invariant
  · rintro s rfl
    exact ⟨rfl, ⟨[], ⟨List.nil_prefix, fun _ => rfl⟩, rfl⟩, rfl⟩
  · intro s t s' hs hinf hstep
    obtain ⟨a, hc, -, htensor, hresult⟩ | ⟨hcore, ⟨-, hq, hr⟩ | ⟨hq, -, hr⟩ | ⟨hr, -, hq⟩⟩ :=
      hstep.cases
    · by_cases ht : t = .stage .inference
      · subst ht
        apply hinf.inference hc htensor hresult
      · apply hinf.others hc ht htensor hresult
    · rw [hcore, hq, hr]
      apply hinf
    · rw [hcore, hr]
      obtain ⟨hconsumed, hoffered, hid⟩ := hinf
      exact ⟨hconsumed.internal (synced_of_reachable hs).tensorPops hq, hoffered, hid⟩
    · rw [hcore, hq]
      obtain ⟨hconsumed, ⟨L, hoffered, hresults⟩, hid⟩ := hinf
      exact ⟨hconsumed,
        ⟨L, hoffered.internal (synced_of_reachable hs).resultPushes hr, hresults⟩, hid⟩

/-- In every reachable state the third stage has delivered the results it has received. -/
theorem posting_of_reachable {s : State σ K} (h : (system σ P).Reachable s) :
  Posting P s.core s.result_queue
  := by
  apply h.invariant
  · rintro s rfl
    exact ⟨[], rfl, rfl⟩
  · intro s t s' hs hpost hstep
    obtain ⟨a, hc, -, -, hresult⟩ | ⟨hcore, ⟨-, -, hq⟩ | ⟨-, -, hq⟩ | ⟨hq, -, -⟩⟩ := hstep.cases
    · by_cases ht : t = .stage .post
      · subst ht
        apply hpost.post hc hresult
      · apply hpost.others hc ht hresult
    · rw [hcore, hq]
      apply hpost
    · rw [hcore, hq]
      apply hpost
    · rw [hcore]
      obtain ⟨L, hconsumed, hcallbacks⟩ := hpost
      exact ⟨L, hconsumed.internal (synced_of_reachable hs).resultPops hq, hcallbacks⟩

/-- In every reachable state, the tensors inferred so far are those of the first windows, and
the results given to the callback are the first results, classified. -/
theorem delivery_of_reachable {s : State σ K} (h : (system σ P).Reachable s) :
  s.core.inferred.map Prod.fst <+: s.core.windows.filterMap (tensorOf P)
    ∧ s.core.callbacks <+: (resultsOf s.core.inferred).map (Classifier.classify P.exp)
  := by
  obtain ⟨-, htensor, hresult⟩ := accepted_eq h
  obtain ⟨L, hoffered, hwindows⟩ := transforming_of_reachable h
  obtain ⟨hconsumed, ⟨L', hoffered', hresults⟩, -⟩ := inferring_of_reachable h
  obtain ⟨L'', hconsumed', hcallbacks⟩ := posting_of_reachable h
  constructor
  · have htaken : s.core.inferred.map Prod.fst <+: BlockingQueue.taken s.tensor_queue.log := by
      rw [hconsumed, List.append_assoc]
      apply List.prefix_append
    rw [hwindows]
    apply ((htaken.trans _).trans hoffered.isPrefix).trans (List.prefix_append _ _)
    rw [htensor]
    apply List.prefix_append
  · have htaken : L'' <+: BlockingQueue.taken s.result_queue.log := by
      rw [hconsumed', List.append_assoc]
      apply List.prefix_append
    rw [hcallbacks, hresults]
    apply List.IsPrefix.map
    apply ((htaken.trans _).trans hoffered'.isPrefix).trans (List.prefix_append _ _)
    rw [hresult]
    apply List.prefix_append

/-! ### Order -/

omit [DecidableEq σ] [Field K] [LinearOrder K] in
/-- Where a function has a value for every member of a list, it keeps the positions. -/
theorem getElem?_filterMap {α β : Type} {f : α → Option β} {l : List α}
    (h : ∀ x ∈ l, (f x).isSome = true) (k : ℕ) :
  (l.filterMap f)[k]? = l[k]?.bind f
  := by
  induction l generalizing k with
  | nil => rfl
  | cons x l ih =>
      obtain ⟨y, hy⟩ := Option.isSome_iff_exists.mp (h x List.mem_cons_self)
      rw [List.filterMap_cons_some hy]
      cases k with
      | zero => simp [hy]
      | succ k =>
          rw [List.getElem?_cons_succ, List.getElem?_cons_succ]
          apply ih (fun x hx => h x (List.mem_cons_of_mem _ hx))

omit [DecidableEq σ] [Field K] [LinearOrder K] in
/-- A member of a prefix is at the same position in the whole list. -/
theorem getElem?_of_prefix {α : Type} {l l' : List α} (h : l <+: l') {k : ℕ} {x : α}
    (hk : l[k]? = some x) :
  l'[k]? = some x
  := by
  obtain ⟨hlt, rfl⟩ := List.getElem?_eq_some_iff.mp hk
  apply List.prefix_iff_getElem?.mp h k hlt

/-- In every reachable state, the tensors inferred so far are those of the first blocks of the
samples accepted. -/
theorem inferred_of_reachable {s : State σ K} (h : (system σ P).Reachable s) {k : ℕ}
    {input : ModelInput K} {a : Answer K} (hk : s.core.inferred[k]? = some (input, a)) :
  tensorOf P (block (BlockingQueue.accepted s.raw_queue.log) k) = some input
    ∧ (k + 1) * kTargetLength ≤ (BlockingQueue.accepted s.raw_queue.log).length
  := by
  obtain ⟨hdelivery, -⟩ := delivery_of_reachable h
  have hsome : ∀ w ∈ s.core.windows, (tensorOf P w).isSome = true := by
    intro w hw
    apply tensorOf_isSome
    rintro rfl
    cases (forming_of_reachable h).windows [] hw
  have hinput : (s.core.windows.filterMap (tensorOf P))[k]? = some input := by
    apply getElem?_of_prefix hdelivery
    rw [List.getElem?_map, hk]
    rfl
  rw [getElem?_filterMap hsome] at hinput
  obtain ⟨window, hwindow, htensor⟩ := Option.bind_eq_some_iff.mp hinput
  obtain ⟨rfl, hle⟩ := window_eq_block h hwindow
  exact ⟨htensor, hle⟩

/-- In every reachable state, the results delivered so far are those for the answers to the
first tensors. -/
theorem callbacks_of_reachable {s : State σ K} (h : (system σ P).Reachable s) {k : ℕ}
    {r : InferenceResult K} (hk : s.core.callbacks[k]? = some r) :
  ∃ input a, s.core.inferred[k]? = some (input, a)
    ∧ r = Classifier.classify P.exp (inferenceResult (UInt64.ofNat (k + 1)) a)
  := by
  obtain ⟨-, hdelivery⟩ := delivery_of_reachable h
  have hr := getElem?_of_prefix hdelivery hk
  rw [List.getElem?_map, resultsOf, List.getElem?_mapIdx] at hr
  cases hp : s.core.inferred[k]? with
  | none =>
      rw [hp] at hr
      cases hr
  | some p =>
      rw [hp] at hr
      cases hr
      exact ⟨p.1, p.2, rfl, rfl⟩

/-- In every reachable state the results delivered so far are numbered from 1 on. -/
theorem window_ids_of_reachable {s : State σ K} (h : (system σ P).Reachable s) :
  s.core.callbacks.map (fun r => r.window_id)
    = (List.range s.core.callbacks.length).map (fun k => UInt64.ofNat (k + 1))
  := by
  apply List.ext_getElem
  · simp
  · intro k hk _
    rw [List.length_map] at hk
    obtain ⟨input, a, -, hr⟩ := callbacks_of_reachable h (List.getElem?_eq_getElem hk)
    simp [hr, Classifier.classify, inferenceResult]

omit [DecidableEq σ] [Field K] [LinearOrder K] in
/-- Numbers from 1 on, modulo 2^64, are the numbers themselves below 2^64. -/
theorem map_toNat_ofNat {n : ℕ} (h : n < 2 ^ 64) :
  ((List.range n).map (fun k => UInt64.ofNat (k + 1))).map UInt64.toNat = List.range' 1 n
  := by
  rw [List.map_map, List.range_eq_range', List.range'_eq_map_range, List.range'_eq_map_range,
    List.map_map]
  apply List.map_congr_left
  intro k hk
  rw [List.mem_range] at hk
  have hmod : (k + 1) % 2 ^ 64 = k + 1 := Nat.mod_eq_of_lt (by omega)
  simp only [Function.comp_apply, UInt64.toNat_ofNat', hmod, Nat.add_comm]

/-- In every reachable state the results given to the callback are numbered 1, 2, …, k, as 64-bit
numbers, which are exactly 1, 2, …, k below 2^64; the result numbered `k + 1` has been computed
from the tensor of the block of samples that `k` blocks come before; and the results delivered
are the first of those computed, the tensors inferred the first of those of the windows. -/
theorem inOrder_of_reachable (P : Params K) {s : State σ K} (h : (system σ P).Reachable s) :
  s.core.callbacks.map (fun r => r.window_id)
      = (List.range s.core.callbacks.length).map (fun k => UInt64.ofNat (k + 1))
    ∧ (s.core.callbacks.length < 2 ^ 64 →
        s.core.callbacks.map (fun r => r.window_id.toNat)
          = List.range' 1 s.core.callbacks.length)
    ∧ (∀ k, k < s.core.callbacks.length →
      (k + 1) * kTargetLength ≤ (BlockingQueue.accepted s.raw_queue.log).length
        ∧ ∃ input a, tensorOf P (block (BlockingQueue.accepted s.raw_queue.log) k) = some input
          ∧ s.core.inferred[k]? = some (input, a)
          ∧ s.core.callbacks[k]?
            = some (Classifier.classify P.exp (inferenceResult (UInt64.ofNat (k + 1)) a)))
    ∧ s.core.callbacks <+: (resultsOf s.core.inferred).map (Classifier.classify P.exp)
    ∧ s.core.inferred.map Prod.fst <+: s.core.windows.filterMap (tensorOf P)
  := by
  obtain ⟨htensors, hresults⟩ := delivery_of_reachable h
  refine ⟨window_ids_of_reachable h, ?_, ?_, hresults, htensors⟩
  · intro hlt
    rw [← map_toNat_ofNat hlt, ← window_ids_of_reachable h, List.map_map]
    rfl
  · intro k hk
    have hr := List.getElem?_eq_getElem hk
    obtain ⟨input, a, hinferred, heq⟩ := callbacks_of_reachable h hr
    obtain ⟨htensor, hle⟩ := inferred_of_reachable h hinferred
    rw [heq] at hr
    exact ⟨hle, input, a, htensor, hinferred, hr⟩

/-- The theorem after a window has been delivered. -/
theorem inOrder_of_reachable_window :
  ∃ s : State Unit ℚ, (system Unit Params.small).Reachable s ∧ s.core.callbacks.length = 1
    ∧ s.core.callbacks.map (fun r => r.window_id)
      = (List.range s.core.callbacks.length).map (fun k => UInt64.ofNat (k + 1))
    ∧ (s.core.callbacks.length < 2 ^ 64 →
        s.core.callbacks.map (fun r => r.window_id.toNat)
          = List.range' 1 s.core.callbacks.length)
    ∧ (∀ k, k < s.core.callbacks.length →
      (k + 1) * kTargetLength ≤ (BlockingQueue.accepted s.raw_queue.log).length
        ∧ ∃ input a, tensorOf Params.small (block (BlockingQueue.accepted s.raw_queue.log) k)
            = some input
          ∧ s.core.inferred[k]? = some (input, a)
          ∧ s.core.callbacks[k]? = some
            (Classifier.classify Params.small.exp (inferenceResult (UInt64.ofNat (k + 1)) a)))
    ∧ s.core.callbacks
      <+: (resultsOf s.core.inferred).map (Classifier.classify Params.small.exp)
    ∧ s.core.inferred.map Prod.fst <+: s.core.windows.filterMap (tensorOf Params.small)
  := by
  obtain ⟨c, ⟨rawLog, tensorLog, resultLog, h⟩, -, -, hlen⟩ :=
    exists_quiet Params.small () Answer.zeros 1
  exact ⟨_, h, hlen, inOrder_of_reachable Params.small h⟩

/-- After 2^64 windows the numbers given to the callback are not 1, 2, …, k for any k. -/
theorem not_exactly_numbered :
  ∃ s : State Unit ℚ, (system Unit Params.small).Reachable s
    ∧ ∀ k, s.core.callbacks.map (fun r => r.window_id.toNat) ≠ List.range' 1 k
  := by
  obtain ⟨c, ⟨rawLog, tensorLog, resultLog, h⟩, -, -, hlen⟩ := exists_quiet Params.small ()
    Answer.zeros (2 ^ 64)
  refine ⟨_, h, ?_⟩
  intro k heq
  have hk : k = 2 ^ 64 := by
    have hlength := congrArg List.length heq
    rw [List.length_map, List.length_range', hlen] at hlength
    apply hlength.symm
  have hmem : 2 ^ 64 ∈ List.range' 1 k := by
    rw [List.mem_range'_1]
    omega
  rw [← heq] at hmem
  obtain ⟨r, -, hr⟩ := List.mem_map.mp hmem
  have hlt := r.window_id.toNat_lt
  omega

end Pipeline
