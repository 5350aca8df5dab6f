import PipeAI.Algorithm.Network

/-!
# Evaluation and training

`evaluate` runs the network on the batches of a data set.  However the data set is cut into batches,
the loss is the mean of the losses of its samples, the accuracy the fraction of those whose class is
predicted, and the predictions are in the order of the data set (`evaluate_eq`).

`train` evaluates the network after each epoch, and keeps the parameters when the accuracy is higher
than any before.  So the parameters that are tested in the end are those after the first epoch with
the highest accuracy, which need not be the last one, and do not depend on the batches of the
evaluation (`train_eq`).

The loss of a sample and what an epoch of optimization does are parameters.
-/

universe u v

open scoped BigOperators

open Layers

namespace NetTraining

variable {K : Type u} [Field K] {T n : ℕ}

/-! ### The code -/

/-- A batch: windows and their labels, at least one. -/
structure Batch (K : Type u) (T n : ℕ) where
  size : ℕ
  x : Tensor K size (T + 1) 9
  y : Fin size → Fin (n + 1)
  size_pos : 0 < size

/-- The batches of a data set, which is not empty. -/
structure Loader (K : Type u) (T n : ℕ) where
  batches : List (Batch K T n)
  batches_ne : batches ≠ []

/-- The samples of a batch. -/
def Batch.samples (b : Batch K T n) : List (Window K (T + 1) × Fin (n + 1)) :=
  List.ofFn (fun i => (b.x i, b.y i))

/-- The data set. -/
def Loader.dataset (loader : Loader K T n) : List (Window K (T + 1) × Fin (n + 1)) :=
  loader.batches.flatMap Batch.samples

/-- The criterion: the mean of the losses of the samples of a batch. -/
def criterion (sampleLoss : (Fin (n + 1) → K) → Fin (n + 1) → K) {N : ℕ}
    (logits : Fin N → Fin (n + 1) → K) (y : Fin N → Fin (n + 1)) : K :=
  (∑ i, sampleLoss (logits i) (y i)) / (N : ℕ)

/-- The variables of the loop of `evaluate`. -/
structure Totals (K : Type u) (n : ℕ) where
  preds : List (Fin (n + 1))
  labels : List (Fin (n + 1))
  total_loss : K

/-- What `evaluate` returns. -/
structure Evaluation (K : Type u) (n : ℕ) where
  loss : K
  acc : K
  preds : List (Fin (n + 1))
  labels : List (Fin (n + 1))

variable [LinearOrder K] {cfg : Config K} (F : Functions K)
  (sampleLoss : (Fin (n + 1) → K) → Fin (n + 1) → K)

/-- The body of the loop of `evaluate`. -/
def evaluateBatch (model : End2EndPipeNet K cfg (n + 1)) (s : Totals K n) (b : Batch K T n) :
    Totals K n :=
  let logits := model.forward F b.x
  let loss := criterion sampleLoss logits b.y
  { total_loss := s.total_loss + loss * (b.size : ℕ)
    preds := s.preds ++ List.ofFn (fun i => argmax (logits i))
    labels := s.labels ++ List.ofFn b.y }

/-- `evaluate`. -/
def evaluate (model : End2EndPipeNet K cfg (n + 1)) (loader : Loader K T n) : Evaluation K n :=
  let s := loader.batches.foldl (evaluateBatch F sampleLoss model) ⟨[], [], 0⟩
  { loss := s.total_loss / (loader.dataset.length : ℕ)
    acc := ((s.preds.zip s.labels).countP (fun p => p.1 = p.2) : ℕ) / (s.preds.length : ℕ)
    preds := s.preds
    labels := s.labels }

/-- The variables of `train`: what the optimization changes, the best accuracy, the checkpoint, and
the history with the losses and accuracies of each epoch. -/
structure TrainState (S : Type v) (K : Type u) (cfg : Config K) (n : ℕ) where
  optimized : S
  best_acc : K
  ckpt : Option (End2EndPipeNet K cfg (n + 1))
  history : List (ℕ × K × K × K × K)

variable {S : Type v} (model : S → End2EndPipeNet K cfg (n + 1)) (optimize : ℕ → S → S × K × K)

/-- The body of the loop of `train` over the epochs. -/
def trainEpoch (val_loader : Loader K T n) (epoch : ℕ) (s : TrainState S K cfg n) :
    TrainState S K cfg n :=
  let (optimized, train_loss, train_acc) := optimize epoch s.optimized
  let val := evaluate F sampleLoss (model optimized) val_loader
  let history := s.history ++ [(epoch, train_loss, train_acc, val.loss, val.acc)]
  if s.best_acc < val.acc then ⟨optimized, val.acc, some (model optimized), history⟩
  else ⟨optimized, s.best_acc, s.ckpt, history⟩

/-- The variables of `train` after some epochs. -/
def trainEpochs (val_loader : Loader K T n) (init : S) : ℕ → TrainState S K cfg n
  | 0 => ⟨init, -1, none, []⟩
  | epoch + 1 =>
      trainEpoch F sampleLoss model optimize val_loader (epoch + 1)
        (trainEpochs val_loader init epoch)

/-- `train`: the variables after all epochs, and the evaluation of the checkpoint, if one has been
saved. -/
def train (val_loader test_loader : Loader K T n) (init : S) (epochs : ℕ) :
    TrainState S K cfg n × Option (Evaluation K n) :=
  let s := trainEpochs F sampleLoss model optimize val_loader init epochs
  (s, s.ckpt.map (fun ckpt => evaluate F sampleLoss ckpt test_loader))

/-! ### Evaluation -/

/-- The evaluation of a data set, whatever its batches are. -/
def evaluateAll (model : End2EndPipeNet K cfg (n + 1))
    (dataset : List (Window K (T + 1) × Fin (n + 1))) : Evaluation K n where
  loss := (dataset.map (fun p => sampleLoss (model.windowLogits F p.1) p.2)).sum
    / (dataset.length : ℕ)
  acc := (dataset.countP (fun p => argmax (model.windowLogits F p.1) = p.2) : ℕ)
    / (dataset.length : ℕ)
  preds := dataset.map (fun p => argmax (model.windowLogits F p.1))
  labels := dataset.map Prod.snd

variable [IsStrictOrderedRing K]

/-- The loss of a batch, multiplied by its size, is the sum of the losses of its samples. -/
theorem criterion_mul_size (model : End2EndPipeNet K cfg (n + 1)) (b : Batch K T n) :
  criterion sampleLoss (model.forward F b.x) b.y * (b.size : ℕ)
    = (b.samples.map (fun p => sampleLoss (model.windowLogits F p.1) p.2)).sum
  := by
  have hsize : (b.size : K) ≠ 0 := Nat.cast_ne_zero.mpr b.size_pos.ne'
  rw [criterion, div_mul_cancel₀ _ hsize, Batch.samples, List.map_ofFn, List.sum_ofFn]
  rfl

/-- The variables of the loop after the batches. -/
theorem foldl_evaluateBatch (model : End2EndPipeNet K cfg (n + 1)) (batches : List (Batch K T n))
    (s : Totals K n) :
  batches.foldl (evaluateBatch F sampleLoss model) s
    = { preds := s.preds
          ++ (batches.flatMap Batch.samples).map (fun p => argmax (model.windowLogits F p.1))
        labels := s.labels ++ (batches.flatMap Batch.samples).map Prod.snd
        total_loss := s.total_loss + ((batches.flatMap Batch.samples).map
          (fun p => sampleLoss (model.windowLogits F p.1) p.2)).sum }
  := by
  induction batches generalizing s with
  | nil => simp
  | cons b batches ih =>
      have hpreds : List.ofFn (fun i => argmax (model.forward F b.x i))
          = b.samples.map (fun p => argmax (model.windowLogits F p.1)) := by
        rw [Batch.samples, List.map_ofFn]
        rfl
      have hlabels : List.ofFn b.y = b.samples.map Prod.snd := by
        rw [Batch.samples, List.map_ofFn]
        rfl
      rw [List.foldl_cons, ih, evaluateBatch]
      simp only [criterion_mul_size, hpreds, hlabels, List.flatMap_cons, List.map_append,
        List.sum_append, List.append_assoc, add_assoc]

/-- The evaluation is that of the data set. -/
theorem evaluate_eq (model : End2EndPipeNet K cfg (n + 1)) (loader : Loader K T n) :
  evaluate F sampleLoss model loader = evaluateAll F sampleLoss model loader.dataset
  := by
  have hzip : (loader.dataset.map (fun p => argmax (model.windowLogits F p.1))).zip
      (loader.dataset.map Prod.snd)
      = loader.dataset.map (fun p => (argmax (model.windowLogits F p.1), p.2)) := by
    rw [List.zip_map']
  have hdataset : loader.batches.flatMap Batch.samples = loader.dataset := rfl
  rw [evaluate, foldl_evaluateBatch, evaluateAll]
  simp only [hdataset, List.nil_append, zero_add, List.length_map, hzip, List.countP_map]
  rfl

/-! ### Training -/

/-- What the optimization has changed after some epochs. -/
def optimizedAfter (init : S) : ℕ → S
  | 0 => init
  | epoch + 1 => (optimize (epoch + 1) (optimizedAfter init epoch)).1

/-- The accuracy of a network on a data set. -/
def accuracy (net : End2EndPipeNet K cfg (n + 1))
    (dataset : List (Window K (T + 1) × Fin (n + 1))) : K :=
  (evaluateAll F (fun _ _ => 0) net dataset).acc

theorem accuracy_nonneg (net : End2EndPipeNet K cfg (n + 1))
    (dataset : List (Window K (T + 1) × Fin (n + 1))) :
  0 ≤ accuracy F net dataset
  := by
  apply div_nonneg (Nat.cast_nonneg _) (Nat.cast_nonneg _)

/-- What the variables of `train` are after some epochs. -/
structure AfterEpochs (val_data : List (Window K (T + 1) × Fin (n + 1))) (init : S) (epochs : ℕ)
    (s : TrainState S K cfg n) : Prop where
  optimized : s.optimized = optimizedAfter optimize init epochs
  history : s.history.map (fun row => (row.1, row.2.2.2))
    = (List.range' 1 epochs).map (fun e => (e,
      (evaluateAll F sampleLoss (model (optimizedAfter optimize init e)) val_data).loss,
      accuracy F (model (optimizedAfter optimize init e)) val_data))
  best : (epochs = 0 ∧ s.best_acc = -1 ∧ s.ckpt = none)
    ∨ ∃ e, 1 ≤ e ∧ e ≤ epochs ∧ s.ckpt = some (model (optimizedAfter optimize init e))
      ∧ s.best_acc = accuracy F (model (optimizedAfter optimize init e)) val_data
      ∧ (∀ e', 1 ≤ e' → e' ≤ epochs →
        accuracy F (model (optimizedAfter optimize init e')) val_data ≤ s.best_acc)
      ∧ ∀ e', 1 ≤ e' → e' < e →
        accuracy F (model (optimizedAfter optimize init e')) val_data < s.best_acc

theorem afterEpochs (val_loader : Loader K T n) (init : S) (epochs : ℕ) :
  AfterEpochs F sampleLoss model optimize val_loader.dataset init epochs
    (trainEpochs F sampleLoss model optimize val_loader init epochs)
  := by
  induction epochs with
  | zero => exact ⟨rfl, rfl, Or.inl ⟨rfl, rfl, rfl⟩⟩
  | succ epoch ih =>
      have hbefore : ∀ e', 1 ≤ e' → e' ≤ epoch →
          accuracy F (model (optimizedAfter optimize init e')) val_loader.dataset
            ≤ (trainEpochs F sampleLoss model optimize val_loader init epoch).best_acc := by
        intro e' hpos hle
        obtain ⟨rfl, -, -⟩ | ⟨e, -, -, -, -, hmax, -⟩ := ih.best
        · omega
        · apply hmax e' hpos hle
      have hnext : (optimize (epoch + 1)
          (trainEpochs F sampleLoss model optimize val_loader init epoch).optimized).1
          = optimizedAfter optimize init (epoch + 1) := by
        rw [ih.optimized, optimizedAfter]
      have hval := evaluate_eq F sampleLoss (model (optimizedAfter optimize init (epoch + 1)))
        val_loader
      have hacc : (evaluateAll F sampleLoss (model (optimizedAfter optimize init (epoch + 1)))
          val_loader.dataset).acc
          = accuracy F (model (optimizedAfter optimize init (epoch + 1))) val_loader.dataset := rfl
      have hhistory : ∀ train_loss train_acc : K,
          ((trainEpochs F sampleLoss model optimize val_loader init epoch).history
            ++ [(epoch + 1, train_loss, train_acc,
              (evaluateAll F sampleLoss (model (optimizedAfter optimize init (epoch + 1)))
                val_loader.dataset).loss,
              accuracy F (model (optimizedAfter optimize init (epoch + 1)))
                val_loader.dataset)]).map (fun row => (row.1, row.2.2.2))
          = (List.range' 1 (epoch + 1)).map (fun e => (e,
            (evaluateAll F sampleLoss (model (optimizedAfter optimize init e))
              val_loader.dataset).loss,
            accuracy F (model (optimizedAfter optimize init e)) val_loader.dataset)) := by
        intro train_loss train_acc
        rw [List.map_append, ih.history, List.range'_concat, List.map_append]
        simp [add_comm]
      rw [trainEpochs, trainEpoch]
      simp only [hnext, hval, hacc]
      split
      · rename_i hlt
        refine ⟨rfl, hhistory _ _, Or.inr ⟨epoch + 1, by omega, le_rfl, rfl, rfl, ?_, ?_⟩⟩
        · intro e' hpos hle
          obtain hle | rfl : e' ≤ epoch ∨ e' = epoch + 1 := by omega
          · apply (hbefore e' hpos hle).trans hlt.le
          · apply le_rfl
        · intro e' hpos hlt'
          apply (hbefore e' hpos (by omega)).trans_lt hlt
      · rename_i hge
        rw [not_lt] at hge
        obtain ⟨-, hbest, -⟩ | ⟨e, hpos, hle, hckpt, hbest, hmax, hfirst⟩ := ih.best
        · rw [hbest] at hge
          have hnonneg := accuracy_nonneg F (model (optimizedAfter optimize init (epoch + 1)))
            val_loader.dataset
          linarith
        · refine ⟨rfl, hhistory _ _, Or.inr ⟨e, hpos, by omega, hckpt, hbest, ?_, hfirst⟩⟩
          intro e' hpos' hle'
          obtain hle' | rfl : e' ≤ epoch ∨ e' = epoch + 1 := by omega
          · apply hmax e' hpos' hle'
          · apply hge

/-- After at least one epoch, the parameters that are kept and tested are those after the first epoch
with the highest accuracy on the validation set; the loss and the accuracies are those of the data
sets, whatever their batches are, and the history holds them for every epoch. -/
theorem train_eq (val_loader test_loader : Loader K T n) (init : S) {epochs : ℕ} (h : 0 < epochs) :
  let after := fun e => model (optimizedAfter optimize init e)
  let acc := fun e => accuracy F (after e) val_loader.dataset
  ∃ e s, 1 ≤ e ∧ e ≤ epochs
    ∧ (∀ e', 1 ≤ e' → e' ≤ epochs → acc e' ≤ acc e) ∧ (∀ e', 1 ≤ e' → e' < e → acc e' < acc e)
    ∧ train F sampleLoss model optimize val_loader test_loader init epochs
      = (s, some (evaluateAll F sampleLoss (after e) test_loader.dataset))
    ∧ s.ckpt = some (after e) ∧ s.best_acc = acc e
    ∧ s.history.map (fun row => (row.1, row.2.2.2)) = (List.range' 1 epochs).map
      (fun e => (e, (evaluateAll F sampleLoss (after e) val_loader.dataset).loss, acc e))
  := by
  intro after acc
  have hafter := afterEpochs F sampleLoss model optimize val_loader init epochs
  obtain ⟨rfl, -, -⟩ | ⟨e, hpos, hle, hckpt, hbest, hmax, hfirst⟩ := hafter.best
  · omega
  · rw [hbest] at hmax hfirst
    refine ⟨e, _, hpos, hle, hmax, hfirst, ?_, hckpt, hbest, hafter.history⟩
    rw [train]
    simp only [hckpt, Option.map_some, evaluate_eq]
    rfl

/-- The theorem at three epochs, for a data set of three windows of the first class in two batches,
and a network that prefers the second class after the first epoch, and the first one later. -/
theorem train_eq_three :
  let loader : Loader ℝ 127 1 := ⟨[⟨1, fun _ t _ => 200 + (t : ℕ), fun _ => 0, Nat.one_pos⟩,
    ⟨2, fun i _ _ => 200 + (i : ℕ), fun _ => 0, Nat.two_pos⟩], by simp⟩
  let model := fun s : ℕ => End2EndPipeNet.ofWeight (Config.default : Config ℝ) 1
    (if s = 1 then ![0, 1] else ![1, 0])
  let optimize := fun _ s : ℕ => (s + 1, (0 : ℝ), (0 : ℝ))
  ∃ s, train Functions.real (fun _ _ => 0) model optimize loader loader 0 3
      = (s, some (evaluateAll Functions.real (fun _ _ => 0) (model 2) loader.dataset))
    ∧ s.ckpt = some (model 2) ∧ s.best_acc = 1
    ∧ s.history.map (fun row => row.2.2.2.2) = [0, 1, 1]
  := by
  intro loader model optimize
  have hfirst : accuracy Functions.real (model 1) loader.dataset = 0 := by
    have hclass : ∀ x : Window ℝ 128, argmax ((model 1).windowLogits Functions.real x) = 1 :=
      fun x => End2EndPipeNet.argmax_ofWeight _ _ (by simp [Fin.forall_fin_two]) _ _
    simp [accuracy, evaluateAll, hclass, Loader.dataset, loader, Batch.samples]
  have hlater : ∀ s, s ≠ 1 → accuracy Functions.real (model s) loader.dataset = 1 := by
    intro s hs
    have hclass : ∀ x : Window ℝ 128, argmax ((model s).windowLogits Functions.real x) = 0 :=
      fun x => End2EndPipeNet.argmax_ofWeight _ _ (by simp [hs, Fin.forall_fin_two]) _ _
    simp [accuracy, evaluateAll, hclass, Loader.dataset, loader, Batch.samples]
  obtain ⟨e, s, hpos, hle, hmax, hbefore, htrain, hckpt, hbest, hhistory⟩ :=
    train_eq Functions.real (fun _ _ => 0) model optimize loader loader 0 three_pos
  have hoptimized : ∀ e, optimizedAfter optimize 0 e = e := by
    intro e
    induction e with
    | zero => rfl
    | succ e ih => rw [optimizedAfter, ih]
  simp only [hoptimized] at hmax hbefore htrain hckpt hbest hhistory
  obtain rfl : e = 2 := by
    have hne : e ≠ 1 := by
      rintro rfl
      have hle := hmax 2 (by decide) (by decide)
      rw [hfirst, hlater 2 (by decide)] at hle
      linarith
    by_contra hother
    have hlt := hbefore 2 (by decide) (by omega)
    rw [hlater 2 (by decide), hlater e hne] at hlt
    apply lt_irrefl _ hlt
  refine ⟨s, htrain, hckpt, hbest.trans (hlater 2 (by decide)), ?_⟩
  have haccs := congrArg (List.map (fun row => row.2.2)) hhistory
  rw [List.map_map, List.map_map] at haccs
  apply haccs.trans
  simp [List.range', hfirst, hlater]

end NetTraining
