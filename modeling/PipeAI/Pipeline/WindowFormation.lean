import PipeAI.Pipeline.Schedule
import PipeAI.Pipeline.Steps

/-!
# The formation of windows

The first stage puts the samples it takes from the raw queue into windows of `kTargetLength`
samples.  In every reachable state, the samples accepted by `submit` are, in order, those of
the windows formed so far, those in the window buffer, the one the stage holds in between, and
those in the queue (`conserves_of_reachable`).
-/

namespace Pipeline

variable {σ K : Type}

/-- The sample that has been popped and returned, and not been appended to the buffer. -/
def PreprocessPc.sample : PreprocessPc K → List (RawSample K)
  | .item sample => [sample]
  | .locked sample => [sample]
  | _ => []

/-- The thread of the first stage has the lock of the window. -/
def PreprocessPc.locks : PreprocessPc K → Bool
  | .locked _ => true
  | .appended => true
  | .swapped _ => true
  | _ => false

/-- The largest length of the buffer at a program counter of the first stage. -/
def PreprocessPc.bufferBound : PreprocessPc K → ℕ
  | .appended => kTargetLength
  | _ => kTargetLength - 1

/-- The sample that the first stage has popped, and not appended to the buffer: it has been
returned by its call of `pop`, or is about to be. -/
def State.inHand (s : State σ K) : List (RawSample K) :=
  s.core.preprocess.sample ++ BlockingQueue.inHand (s.raw_queue.phase (.stage .preprocess)).view

/-- The samples received by the first stage are those in the windows, in the buffer, and in its
hand; the windows are full, and the buffer is not, while the lock is free. -/
structure Forming (c : Core σ K) (q : BlockingQueue.State (Thread σ) (RawSample K)) : Prop where
  consumed : BlockingQueue.Consumed q (.stage .preprocess)
    (c.windows.flatten ++ c.window_buffer ++ c.preprocess.sample)
  windows : ∀ w ∈ c.windows, w.length = kTargetLength
  buffer : c.window_buffer.length ≤ c.preprocess.bufferBound
  mutex : c.window_mutex = c.preprocess.locks

variable [Field K] [LinearOrder K]

/-- The steps of the first stage keep the samples together. -/
theorem Forming.preprocess {P : Params K} {c c' : Core σ K} {a : Action K} [DecidableEq σ]
    {q q' : BlockingQueue.State (Thread σ) (RawSample K)} (h : Forming c q)
    (hc : PreprocessStep P c a c') (hq : a.raw.Run (.stage .preprocess) q q') :
  Forming c' q'
  := by
  obtain ⟨hconsumed, hwindows, hbuffer, hmutex⟩ := h
  cases hc with
  | enter hp ht hr =>
      obtain rfl := hq
      rw [hp] at hconsumed hbuffer hmutex
      exact ⟨hconsumed, hwindows, hbuffer, hmutex⟩
  | exit ht hr =>
      obtain rfl := hq
      exact ⟨hconsumed, hwindows, hbuffer, hmutex⟩
  | callPop hp =>
      obtain ⟨hidle, rfl⟩ := hq
      rw [hp] at hconsumed hbuffer hmutex
      exact ⟨hconsumed.call hidle _, hwindows, hbuffer, hmutex⟩
  | popReturns hp =>
      obtain ⟨hphase, rfl⟩ := hq
      rw [hp] at hconsumed hbuffer hmutex
      refine ⟨?_, hwindows, hbuffer, hmutex⟩
      simpa [PreprocessPc.sample, BlockingQueue.takenValue] using hconsumed.ret hphase
  | popEnds hp =>
      obtain ⟨hphase, rfl⟩ := hq
      rw [hp] at hconsumed hbuffer hmutex
      refine ⟨?_, hwindows, hbuffer, hmutex⟩
      simpa [Core.setWorker, PreprocessPc.sample, BlockingQueue.takenValue]
        using hconsumed.ret hphase
  | lock hp hm =>
      obtain rfl := hq
      rw [hp] at hconsumed hbuffer
      exact ⟨hconsumed, hwindows, hbuffer, rfl⟩
  | append hp =>
      obtain rfl := hq
      rw [hp] at hconsumed hbuffer hmutex
      refine ⟨?_, hwindows, ?_, hmutex⟩
      · simpa [PreprocessPc.sample] using hconsumed
      · simp only [PreprocessPc.bufferBound, kTargetLength] at hbuffer
        simp only [PreprocessPc.bufferBound, kTargetLength, List.length_append,
          List.length_singleton]
        omega
  | swap hp hsize =>
      obtain rfl := hq
      rw [hp] at hconsumed hbuffer hmutex
      refine ⟨?_, ?_, Nat.zero_le _, hmutex⟩
      · simpa [PreprocessPc.sample] using hconsumed
      · intro w hw
        obtain hw | hw := List.mem_append.mp hw
        · apply hwindows w hw
        · cases List.mem_singleton.mp hw
          apply le_antisymm hbuffer hsize
  | noSwap hp hsize =>
      obtain rfl := hq
      rw [hp] at hconsumed hbuffer hmutex
      refine ⟨hconsumed, hwindows, ?_, hmutex⟩
      apply Nat.le_sub_one_of_lt hsize
  | unlock hp =>
      obtain rfl := hq
      rw [hp] at hconsumed hbuffer
      exact ⟨hconsumed, hwindows, hbuffer, rfl⟩
  | skip hp =>
      obtain rfl := hq
      rw [hp] at hconsumed hbuffer hmutex
      exact ⟨hconsumed, hwindows, hbuffer, hmutex⟩
  | run hp hw hrun =>
      obtain rfl := hq
      rw [hp] at hconsumed hbuffer hmutex
      constructor
      · simp only
        split <;> exact hconsumed
      · apply hwindows
      · simp only
        split <;> exact hbuffer
      · simp only
        split <;> exact hmutex
  | callPush hp =>
      obtain rfl := hq
      rw [hp] at hconsumed hbuffer hmutex
      exact ⟨hconsumed, hwindows, hbuffer, hmutex⟩
  | pushReturns hp =>
      obtain rfl := hq
      rw [hp] at hconsumed hbuffer hmutex
      exact ⟨hconsumed, hwindows, hbuffer, hmutex⟩

/-- The steps of the other threads keep the samples together. -/
theorem Forming.others {P : Params K} {c c' : Core σ K} {t : Thread σ} {a : Action K}
    [DecidableEq σ] {q q' : BlockingQueue.State (Thread σ) (RawSample K)} (h : Forming c q)
    (hc : CoreStep P c t a c') (ht : t ≠ .stage .preprocess) (hq : a.raw.Run t q q') :
  Forming c' q'
  := by
  obtain ⟨hp, hb, hm, hw⟩ := hc.forming ht
  obtain ⟨hconsumed, hwindows, hbuffer, hmutex⟩ := h
  rw [← hp, ← hb, ← hw] at hconsumed
  rw [← hw] at hwindows
  rw [← hp, ← hb] at hbuffer
  rw [← hp, ← hm] at hmutex
  exact ⟨hconsumed.run_of_ne ht hq, hwindows, hbuffer, hmutex⟩

variable [DecidableEq σ]

/-- In every reachable state the samples received by the first stage are kept together. -/
theorem forming_of_reachable {P : Params K} {s : State σ K} (h : (system σ P).Reachable s) :
  Forming s.core s.raw_queue
  := by
  apply h.invariant
  · rintro s rfl
    exact ⟨rfl, by simp [State.initial, Core.initial], Nat.zero_le _, rfl⟩
  · intro s t s' hs hforming hstep
    obtain ⟨a, hc, hraw, -, -⟩ | ⟨hcore, ⟨hq, -, -⟩ | ⟨-, hraw, -⟩ | ⟨-, hraw, -⟩⟩ := hstep.cases
    · by_cases ht : t = .stage .preprocess
      · subst ht
        apply hforming.preprocess hc hraw
      · apply hforming.others hc ht hraw
    · rw [hcore]
      obtain ⟨hconsumed, hwindows, hbuffer, hmutex⟩ := hforming
      exact ⟨hconsumed.internal (synced_of_reachable hs).rawPops hq, hwindows, hbuffer, hmutex⟩
    · rw [hcore, hraw]
      apply hforming
    · rw [hcore, hraw]
      apply hforming

omit [Field K] [LinearOrder K] [DecidableEq σ] in
/-- The first stage has at most one sample in its hand. -/
theorem Synced.length_inHand {s : State σ K} (h : Synced s) :
  s.inHand.length ≤ 1
  := by
  have hhand : (BlockingQueue.inHand (s.raw_queue.phase (.stage .preprocess)).view).length ≤ 1 := by
    cases (s.raw_queue.phase (.stage .preprocess)).view with
    | after r =>
        rw [BlockingQueue.inHand_after]
        cases BlockingQueue.takenValue r <;> simp
    | _ => apply Nat.zero_le
  have hnone : s.core.preprocess.call = none →
      BlockingQueue.inHand (s.raw_queue.phase (.stage .preprocess)).view = [] := by
    intro hcall
    have hidle := h.raw (.stage .preprocess)
    rw [Core.rawCall, Core.calling, hcall] at hidle
    have hidle : s.raw_queue.phase (.stage .preprocess) = .idle := hidle
    rw [hidle]
    rfl
  rw [State.inHand, List.length_append]
  cases hp : s.core.preprocess with
  | item sample =>
      rw [hnone (by rw [hp]; rfl)]
      rfl
  | locked sample =>
      rw [hnone (by rw [hp]; rfl)]
      rfl
  | _ => simpa [PreprocessPc.sample] using hhand

/-- The samples of the windows, those in the buffer, the one in the hand of the first stage, and
those in the queue are the samples accepted, in order. -/
theorem samples_eq_accepted {P : Params K} {s : State σ K} (h : (system σ P).Reachable s) :
  s.core.windows.flatten ++ s.core.window_buffer ++ s.inHand ++ s.raw_queue.shared.queue
    = BlockingQueue.accepted s.raw_queue.log
  := by
  rw [(accepted_eq h).1, (forming_of_reachable h).consumed, State.inHand]
  simp only [List.append_assoc]

/-- The samples accepted are those of the windows, and what is on its way to the next one. -/
theorem length_accepted_samples {P : Params K} {s : State σ K} (h : (system σ P).Reachable s) :
  (BlockingQueue.accepted s.raw_queue.log).length
    = s.core.windows.length * kTargetLength + s.core.window_buffer.length + s.inHand.length
      + s.raw_queue.shared.queue.length
  := by
  rw [← samples_eq_accepted h, List.length_append, List.length_append, List.length_append,
    List.length_flatten, List.map_eq_replicate_iff.mpr (forming_of_reachable h).windows,
    List.sum_replicate, smul_eq_mul]

/-- In every reachable state, the samples of the windows taken so far, then those in the window
buffer, then the one the first stage has popped and not appended, if any, and then those in
the raw queue are the samples whose `submit` was accepted, in the order of acceptance; every
window has `kTargetLength` samples; and the buffer has fewer whenever the lock of the window
is free. -/
theorem conserves_of_reachable (P : Params K) {s : State σ K} (h : (system σ P).Reachable s) :
  s.core.windows.flatten ++ s.core.window_buffer ++ s.inHand ++ s.raw_queue.shared.queue
      = BlockingQueue.accepted s.raw_queue.log
    ∧ s.inHand.length ≤ 1
    ∧ (∀ w ∈ s.core.windows, w.length = kTargetLength)
    ∧ (s.core.window_mutex = false → s.core.window_buffer.length < kTargetLength)
  := by
  obtain ⟨-, hwindows, hbuffer, hmutex⟩ := forming_of_reachable h
  refine ⟨samples_eq_accepted h, (synced_of_reachable h).length_inHand, hwindows, ?_⟩
  intro hfree
  rw [hmutex] at hfree
  cases hp : s.core.preprocess with
  | appended =>
      rw [hp] at hfree
      cases hfree
  | _ =>
      rw [hp] at hbuffer
      apply Nat.lt_of_le_sub_one (by decide) hbuffer

/-- The theorem after a window has been delivered and one more sample has been appended to the
buffer. -/
theorem conserves_of_reachable_window :
  ∃ s : State Unit ℚ, (system Unit Params.small).Reachable s
    ∧ s.core.windows = [defaultWindow ℚ]
    ∧ s.core.window_buffer = [{ RawSample.default ℚ with timestamp_ns := 1 }]
    ∧ s.core.windows.flatten ++ s.core.window_buffer ++ s.inHand ++ s.raw_queue.shared.queue
        = BlockingQueue.accepted s.raw_queue.log
    ∧ s.inHand.length ≤ 1
    ∧ (∀ w ∈ s.core.windows, w.length = kTargetLength)
    ∧ (s.core.window_mutex = false → s.core.window_buffer.length < kTargetLength)
  := by
  obtain ⟨input, htensor, hwindow⟩ := exists_quiet_afterWindow
  have hroom : ([] : List (RawSample ℚ)).length + 1 < kTargetLength := by decide
  obtain ⟨rawLog, tensorLog, resultLog, h⟩ :=
    hwindow.append (ready_afterWindow input) ()
      { RawSample.default ℚ with timestamp_ns := 1 } hroom
  exact ⟨_, h, rfl, rfl, conserves_of_reachable Params.small h⟩

/-! ### Blocks -/

/-- The block of `kTargetLength` samples that `k` such blocks come before. -/
def block {α : Type} (samples : List α) (k : ℕ) : List α :=
  (samples.drop (k * kTargetLength)).take kTargetLength

/-- Lists of `kTargetLength` samples are the blocks of their concatenation. -/
theorem block_flatten {α : Type} {windows : List (List α)}
    (h : ∀ w ∈ windows, w.length = kTargetLength) (rest : List α) {k : ℕ} {window : List α}
    (hk : windows[k]? = some window) :
  window = block (windows.flatten ++ rest) k
    ∧ (k + 1) * kTargetLength ≤ (windows.flatten ++ rest).length
  := by
  induction windows generalizing k with
  | nil => cases hk
  | cons w windows ih =>
      have hlen : w.length = kTargetLength := h w List.mem_cons_self
      rw [List.flatten_cons, List.append_assoc]
      cases k with
      | zero =>
          cases hk
          constructor
          · rw [block, Nat.zero_mul, List.drop_zero, List.take_left' hlen]
          · rw [List.length_append, hlen]
            omega
      | succ k =>
          obtain ⟨heq, hle⟩ := ih (fun w hw => h w (List.mem_cons_of_mem _ hw)) hk
          constructor
          · rw [heq, block, block, Nat.succ_mul, Nat.add_comm, ← List.drop_drop,
              List.drop_left' hlen]
          · rw [List.length_append, hlen]
            rw [Nat.succ_mul]
            omega

/-- In every reachable state the windows are the first blocks of the samples accepted. -/
theorem window_eq_block {P : Params K} {s : State σ K} (h : (system σ P).Reachable s) {k : ℕ}
    {window : List (RawSample K)} (hk : s.core.windows[k]? = some window) :
  window = block (BlockingQueue.accepted s.raw_queue.log) k
    ∧ (k + 1) * kTargetLength ≤ (BlockingQueue.accepted s.raw_queue.log).length
  := by
  obtain ⟨hconsumed, hwindows, -, -⟩ := forming_of_reachable h
  rw [(accepted_eq h).1, hconsumed]
  simp only [List.append_assoc]
  apply block_flatten hwindows _ hk

/-! ### Resampling of windows -/

/-- Whatever non-decreasing function rounds the positions of the knots, with the other
arithmetic exact: where there are at least two values and at least two are wanted, each
interpolation that reaches its division reads within the arrays and divides by a positive number,
and the resampled values are convex combinations of neighbouring values, with the first and the
last value at the ends.  Where the rounding keeps the knots distinct, resampling to the same
length changes nothing; so no column of a window of the pipeline is altered. -/
theorem resampleLinearNormalized_of_rounded_knots (R : Rounding ℚ) (hR : ∀ v, R.toFloat v = v)
    (σ : Type) [DecidableEq σ] :
  (∀ (source : List ℚ) (m : ℕ) (output : List (Flt ℚ)), 2 ≤ source.length → 2 ≤ m →
      (linspace01Float32 R source.length).head? = some (.fin 0)
      ∧ (linspace01Float32 R source.length).getLast? = some (.fin 1)
      ∧ (∀ j, j < m → ∃ x, (linspace01Float32 R m)[j]? = some (.fin x)
          ∧ (0 < x → x < 1 → ∀ right,
              right = upperBound (linspace01Float32 R source.length) (.fin x) →
              0 < right ∧ right < source.length
              ∧ ∃ x₀ x₁, (linspace01Float32 R source.length)[right - 1]? = some (.fin x₀)
                ∧ (linspace01Float32 R source.length)[right]? = some (.fin x₁)
                ∧ 0 < x₁ - x₀))
      ∧ ∃ out : List ℚ,
          resampleLinearNormalized R (source.map .fin) m output = some (.success, out.map .fin)
          ∧ out.length = m
          ∧ out[0]? = source[0]?
          ∧ out[m - 1]? = source[source.length - 1]?
          ∧ (∀ y ∈ out, ∃ k y₀ y₁ w, source[k]? = some y₀ ∧ source[k + 1]? = some y₁
              ∧ 0 ≤ w ∧ w ≤ 1 ∧ y = (1 - w) * y₀ + w * y₁)
          ∧ (∀ lo hi, (∀ y ∈ source, lo ≤ y ∧ y ≤ hi) → ∀ y ∈ out, lo ≤ y ∧ y ≤ hi)
          ∧ (m = source.length → (linspace01Float32 R source.length).Nodup → out = source))
    ∧ ((linspace01Float32 R kTargetLength).Nodup → ∀ (P : Params ℚ) (s : State σ ℚ),
        (system σ P).Reachable s → ∀ window ∈ s.core.windows,
        ∀ (column : RawSample ℚ → ℚ) (output : List (Flt ℚ)),
        resampleLinearNormalized R (window.map (fun sample => .fin (column sample)))
            kTargetLength output
          = some (.success, window.map (fun sample => .fin (column sample))))
  := by
  constructor
  · intro source m output hn hm
    refine ⟨?_, ?_, ?_, ?_⟩
    · rw [linspace01Float32_eq R hn, head?_table _ (by omega), knot_first R hn]
    · rw [linspace01Float32_eq R hn, getLast?_table _ (by omega), knot_last]
    · intro j hj
      use knot R m j
      rw [linspace01Float32_eq R hm, getElem?_table _ hj]
      refine ⟨rfl, ?_⟩
      rintro h₀ h₁ right rfl
      obtain ⟨k, hk, hkn, hle, hlt⟩ := bracket R hn h₀ h₁
      rw [hk, linspace01Float32_eq R hn, Nat.add_sub_cancel, getElem?_table _ hkn,
        getElem?_table _ (by omega : k < source.length)]
      exact ⟨Nat.succ_pos k, hkn, _, _, rfl, rfl, sub_pos.mpr (hle.trans_lt hlt)⟩
    · obtain ⟨g, hg, hfirst, hlast, hconvex⟩ :=
        resampleLinearNormalized_convex hR (fun i => source.getD i 0) hn hm output
      have hbetween : ∀ y ∈ table m g, ∃ k y₀ y₁ w, source[k]? = some y₀
          ∧ source[k + 1]? = some y₁ ∧ 0 ≤ w ∧ w ≤ 1 ∧ y = (1 - w) * y₀ + w * y₁ := by
        intro y hy
        obtain ⟨j, -, rfl⟩ := List.mem_map.mp hy
        obtain ⟨k, w, hk, hw₀, hw₁, hj⟩ := hconvex j
        have hk' : k < source.length := by omega
        exact ⟨k, _, _, w, getElem?_eq_getD hk' 0, getElem?_eq_getD hk 0, hw₀, hw₁, hj⟩
      rw [← map_eq_table source Flt.fin 0] at hg
      refine ⟨table m g, ?_, length_table _ _, ?_, ?_, hbetween, ?_, ?_⟩
      · rw [hg, map_table]
      · rw [getElem?_table _ (by omega), hfirst, getElem?_eq_getD (by omega) 0]
      · rw [getElem?_table _ (by omega), hlast, getElem?_eq_getD (by omega) 0]
      · intro lo hi hsource y hy
        obtain ⟨k, y₀, y₁, w, h₀, h₁, hw₀, hw₁, rfl⟩ := hbetween y hy
        obtain ⟨hlo₀, hhi₀⟩ := hsource y₀ (List.mem_of_getElem? h₀)
        obtain ⟨hlo₁, hhi₁⟩ := hsource y₁ (List.mem_of_getElem? h₁)
        constructor <;> nlinarith
      · rintro rfl hknots
        rw [resampleLinearNormalized_same hR source hn hknots, ← map_table] at hg
        injection hg with hg
        injection hg with _ hg
        apply (List.map_injective_iff.mpr (fun _ _ h => by injection h) hg).symm
  · intro hknots P s hs window hwindow column output
    have hlen : (window.map column).length = kTargetLength := by
      rw [List.length_map, (forming_of_reachable hs).windows window hwindow]
    rw [← hlen] at hknots
    have hsame := resampleLinearNormalized_same hR (window.map column) (by rw [hlen]; decide)
      hknots output
    rw [hlen, List.map_map] at hsame
    apply hsame

/-- The theorem for exact knots and a sequence of three values. -/
theorem resampleLinearNormalized_of_rounded_knots_exact :
  ∃ out : List ℚ,
    resampleLinearNormalized (Rounding.exact ℚ) ([1, 2, 6].map .fin) 5 []
      = some (.success, out.map .fin)
    ∧ out.length = 5
    ∧ out[0]? = some 1
    ∧ out[4]? = some 6
    ∧ ∀ y ∈ out, 1 ≤ y ∧ y ≤ 6
  := by
  obtain ⟨-, -, -, out, hout, hlen, hfirst, hlast, -, hmem, -⟩ :=
    (resampleLinearNormalized_of_rounded_knots (Rounding.exact ℚ) (fun _ => rfl) Unit).1
      [1, 2, 6] 5 [] (by decide) (by decide)
  refine ⟨out, hout, hlen, hfirst, hlast, hmem 1 6 ?_⟩
  intro y hy
  simp only [List.mem_cons, List.not_mem_nil, or_false] at hy
  obtain rfl | rfl | rfl := hy <;> norm_num

end Pipeline
