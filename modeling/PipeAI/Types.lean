import PipeAI.Numeric.Flt
import Mathlib.Tactic.NormNum

/-!
# The data types of the runtime

The samples, tensors and results that the stages of the runtime pass to each other, and the
status values its functions return.  A floating-point number is an element of `Flt K`; the
arrays of fixed length are functions on the finite sets of their indices.
-/

universe u

/-- `ErrorCode`. -/
inductive ErrorCode where
  | ok
  | invalidArgument
  | ioError
  | parseError
  | queueClosed
  | modelLoadFailed
  | rknnInitFailed
  | rknnQueryFailed
  | rknnInferenceFailed
  | preprocessFailed
  deriving DecidableEq

/-- `Status`. -/
structure Status where
  code : ErrorCode
  message : String
  deriving DecidableEq

namespace Status

/-- `Status::success`. -/
def success : Status := ⟨.ok, ""⟩

/-- `Status::failure`. -/
def failure (c : ErrorCode) (m : String) : Status := ⟨c, m⟩

/-- `Status::ok`. -/
def ok (s : Status) : Bool := decide (s.code = .ok)

@[simp]
theorem ok_success :
  success.ok = true
  := rfl

end Status

/-- `kRadarChannels`. -/
def kRadarChannels : ℕ := 8

/-- `kInputChannels`. -/
def kInputChannels : ℕ := 9

/-- `kTargetLength`. -/
def kTargetLength : ℕ := 128

/-- `kClassCount`. -/
def kClassCount : ℕ := 5

/-- `RawSample`: one synchronized acquisition sample. -/
structure RawSample (K : Type u) where
  timestamp_ns : UInt64
  radar : Fin kRadarChannels → Flt K
  imu : Flt K

/-- The default-constructed `RawSample`. -/
def RawSample.default (K : Type u) [Zero K] : RawSample K where
  timestamp_ns := 0
  radar := fun _ => .fin 0
  imu := .fin 0

/-- The value of a sample in a column of the tensor: of a radar channel, or of the inertial sensor
in the last one. -/
def RawSample.channel {K : Type u} (sample : RawSample K) (c : Fin kInputChannels) : Flt K :=
  if h : (c : ℕ) < kRadarChannels then sample.radar ⟨c, h⟩ else sample.imu

/-- `ModelInput`: the tensor of `kTargetLength` rows and `kInputChannels` columns, in row-major
order. -/
structure ModelInput (K : Type u) where
  values : Fin (kTargetLength * kInputChannels) → Flt K

namespace ModelInput

variable {K : Type u}

/-- The position of row `t` and column `c` in the array of values. -/
def index (t : Fin kTargetLength) (c : Fin kInputChannels) :
    Fin (kTargetLength * kInputChannels) :=
  ⟨t * kInputChannels + c, by
    have ht := t.isLt
    have hc := c.isLt
    simp only [kTargetLength, kInputChannels] at *
    omega⟩

/-- `ModelInput::at`, read. -/
def get (x : ModelInput K) (t : Fin kTargetLength) (c : Fin kInputChannels) : Flt K :=
  x.values (index t c)

/-- `ModelInput::at`, written. -/
def set (x : ModelInput K) (t : Fin kTargetLength) (c : Fin kInputChannels) (v : Flt K) :
    ModelInput K where
  values := Function.update x.values (index t c) v

/-- Distinct rows or columns have distinct positions. -/
theorem index_injective {t t' : Fin kTargetLength} {c c' : Fin kInputChannels}
    (h : index t c = index t' c') :
  t = t' ∧ c = c'
  := by
  have h := congrArg Fin.val h
  have hc := c.isLt
  have hc' := c'.isLt
  simp only [index, kInputChannels] at *
  constructor <;> apply Fin.ext <;> omega

@[simp]
theorem get_set_self (x : ModelInput K) (t : Fin kTargetLength) (c : Fin kInputChannels)
    (v : Flt K) :
  (x.set t c v).get t c = v
  := Function.update_self ..

/-- Every position is that of a row and a column. -/
theorem exists_index (i : Fin (kTargetLength * kInputChannels)) :
  ∃ t c, index t c = i
  := by
  have hi := i.isLt
  simp only [kTargetLength, kInputChannels] at hi
  use ⟨i / kInputChannels, by simp only [kTargetLength, kInputChannels]; omega⟩
  use ⟨i % kInputChannels, Nat.mod_lt _ (by decide)⟩
  apply Fin.ext
  apply Nat.div_add_mod'

/-- A tensor is given by its rows and columns. -/
theorem ext_get {x y : ModelInput K} (h : ∀ t c, x.get t c = y.get t c) :
  x = y
  := by
  cases x
  cases y
  congr 1
  funext i
  obtain ⟨t, c, rfl⟩ := exists_index i
  apply h t c

/-- Writing one cell leaves the others. -/
theorem get_set_of_ne (x : ModelInput K) {t t' : Fin kTargetLength} {c c' : Fin kInputChannels}
    (v : Flt K) (h : ¬ (t' = t ∧ c' = c)) :
  (x.set t c v).get t' c' = x.get t' c'
  := by
  apply Function.update_of_ne
  intro heq
  apply h (index_injective heq)

end ModelInput

/-- `InferenceResult`. -/
structure InferenceResult (K : Type u) where
  window_id : UInt64
  window_start_ns : UInt64
  window_end_ns : UInt64
  logits : Fin kClassCount → Flt K
  probabilities : Fin kClassCount → Flt K
  class_id : ℤ
  confidence : Flt K
  input_healthy : Bool

/-- The default-constructed `InferenceResult`. -/
def InferenceResult.default (K : Type u) [Zero K] : InferenceResult K where
  window_id := 0
  window_start_ns := 0
  window_end_ns := 0
  logits := fun _ => .fin 0
  probabilities := fun _ => .fin 0
  class_id := -1
  confidence := .fin 0
  input_healthy := true

/-- The value-initialised `ModelInput`. -/
def ModelInput.zero (K : Type u) [Zero K] : ModelInput K where
  values := fun _ => .fin 0
