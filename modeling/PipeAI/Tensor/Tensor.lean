import PipeAI.Concurrency.History
import Mathlib.Algebra.BigOperators.Group.List.Basic
import Mathlib.Algebra.Order.Ring.Int
import Mathlib.Tactic.Linarith

/-!
# Tensors

A `Tensor` has a shape, a type of elements, and a buffer of bytes, all of which are set when it is
constructed or resized.  The number of elements is computed modulo `2 ^ 64` from dimensions that
may be negative, and the shape is set before the buffer is resized, which may throw an exception.

A call that completes gives the true sizes exactly for the shapes without a negative dimension
whose size in bytes is below `2 ^ 64` (`Tensor.sizes_iff`).  The buffer has the size of the shape
throughout all calls of `resize`, and a call that throws leaves the tensor as it was, as long as
no call throws, and no longer (`Tensor.consistent_iff`).
-/

/-- `TensorType`. -/
inductive TensorType where
  | float32
  | int8
  | uint8
  deriving DecidableEq

/-- `type_size`. -/
def typeSize (t : TensorType) : UInt64 :=
  if t = .float32 then 4 else 1

/-- `Tensor`. -/
structure Tensor where
  shape : List Int32
  type : TensorType
  buffer : List UInt8
  deriving DecidableEq

namespace Tensor

/-! ### The code -/

/-- The default-constructed `Tensor`. -/
def default : Tensor where
  shape := []
  type := .float32
  buffer := []

/-- `Tensor::elements`, of a shape. -/
def elementsOf (shape : List Int32) : UInt64 :=
  let n := shape.foldl (fun n v => n * UInt64.ofInt v.toInt) 1
  if shape.isEmpty then 0 else n

/-- `Tensor::elements`. -/
def elements (t : Tensor) : UInt64 :=
  elementsOf t.shape

/-- `Tensor::bytes`. -/
def bytes (t : Tensor) : UInt64 :=
  UInt64.ofNat t.buffer.length

/-- `std::vector::resize` to `n` bytes, where `memory` says whether there is room for them, if they
are more than there are: there is no result when it throws an exception. -/
def resizeBuffer (buffer : List UInt8) (n : UInt64) (memory : Bool) : Option (List UInt8) :=
  if n.toNat ≤ buffer.length then some (buffer.take n.toNat)
  else if memory then some (buffer ++ List.replicate (n.toNat - buffer.length) 0)
  else none

/-- `Tensor::resize`: whether it completes, and the tensor. -/
def resize (s : List Int32) (memory : Bool) (t : Tensor) : Bool × Tensor :=
  let t := { t with shape := s }
  match resizeBuffer t.buffer (t.elements * typeSize t.type) memory with
  | none => (false, t)
  | some buffer => (true, { t with buffer := buffer })

/-- The constructor `Tensor::Tensor`, unless it throws an exception. -/
def construct (s : List Int32) (type : TensorType) (memory : Bool) : Option Tensor :=
  match resize s memory ⟨s, type, []⟩ with
  | (true, t) => some t
  | (false, _) => none

/-! ### Sizes -/

/-- The mathematical product of the dimensions, which is 0 for the empty shape. -/
def trueElements (shape : List Int32) : ℤ :=
  if shape = [] then 0 else (shape.map Int32.toInt).prod

/-- The tensor has the given shape, of which no dimension is negative, and its true sizes. -/
structure Sized (shape : List Int32) (t : Tensor) : Prop where
  shape_eq : t.shape = shape
  nonneg : ∀ v ∈ shape, 0 ≤ v.toInt
  elements : (t.elements.toNat : ℤ) = trueElements shape
  bytes : (t.bytes.toNat : ℤ) = trueElements shape * (typeSize t.type).toNat

/-- The shape has no negative dimension, and its size in bytes is below `2 ^ 64`. -/
def Fits (shape : List Int32) (type : TensorType) : Prop :=
  (∀ v ∈ shape, 0 ≤ v.toInt) ∧ trueElements shape * (typeSize type).toNat < 2 ^ 64

/-- The number of elements is computed modulo `2 ^ 64`. -/
theorem elementsOf_eq (shape : List Int32) :
  elementsOf shape = UInt64.ofInt (trueElements shape)
  := by
  have hfold : ∀ (shape : List Int32) (a : ℤ),
      shape.foldl (fun n v => n * UInt64.ofInt v.toInt) (UInt64.ofInt a)
        = UInt64.ofInt (a * (shape.map Int32.toInt).prod) := by
    intro shape
    induction shape with
    | nil => simp
    | cons v shape ih =>
        intro a
        rw [List.foldl_cons, ← UInt64.ofInt_mul, ih, List.map_cons, List.prod_cons, mul_assoc]
  rcases shape with _ | ⟨v, shape⟩
  · rfl
  · have hone : (1 : UInt64) = UInt64.ofInt 1 := rfl
    rw [elementsOf, trueElements, if_neg (by simp), if_neg (by simp), hone, hfold, one_mul]

/-- A completed `resize` sets the shape, keeps the type, and leaves a buffer with the computed
number of bytes. -/
theorem resize_of_completed {s : List Int32} {memory : Bool} {t t' : Tensor}
    (h : t.resize s memory = (true, t')) :
  t'.shape = s ∧ t'.type = t.type
    ∧ t'.buffer.length = (elementsOf s * typeSize t.type).toNat
  := by
  rw [resize, elements] at h
  simp only at h
  split at h
  · cases h
  · rename_i buffer hbuffer
    cases h
    use rfl, rfl
    rw [resizeBuffer] at hbuffer
    split at hbuffer
    · rename_i hle
      cases hbuffer
      apply List.length_take_of_le hle
    · rename_i hlt
      split at hbuffer
      · cases hbuffer
        rw [List.length_append, List.length_replicate]
        omega
      · cases hbuffer

/-- A `resize` that throws sets the shape, and leaves the type and the buffer, which has fewer than
the computed number of bytes. -/
theorem resize_of_thrown {s : List Int32} {memory : Bool} {t t' : Tensor}
    (h : t.resize s memory = (false, t')) :
  t' = { t with shape := s } ∧ memory = false
    ∧ t.buffer.length < (elementsOf s * typeSize t.type).toNat
  := by
  rw [resize, elements] at h
  simp only at h
  split at h
  · rename_i hbuffer
    cases h
    use rfl
    rw [resizeBuffer] at hbuffer
    split at hbuffer
    · cases hbuffer
    · rename_i hlt
      split at hbuffer
      · cases hbuffer
      · rename_i hmemory
        exact ⟨by simpa using hmemory, Nat.not_le.mp hlt⟩
  · cases h

/-- A constructor that completes has resized a tensor without bytes. -/
theorem resize_of_construct {s : List Int32} {type : TensorType} {memory : Bool} {t : Tensor}
    (h : construct s type memory = some t) :
  resize s memory ⟨s, type, []⟩ = (true, t)
  := by
  rw [construct] at h
  split at h
  · rename_i t' hresize
    cases h
    apply hresize
  · cases h

/-- The product of dimensions that are not negative is not negative. -/
theorem trueElements_nonneg {shape : List Int32} (h : ∀ v ∈ shape, 0 ≤ v.toInt) :
  0 ≤ trueElements shape
  := by
  rw [trueElements]
  split
  · apply le_rfl
  · apply List.prod_induction (fun k : ℤ => 0 ≤ k) (fun _ _ => mul_nonneg) zero_le_one
    simpa using h

/-- The residue of an integer is the integer just when it is in the range. -/
theorem toNat_ofInt_eq_iff (k : ℤ) :
  ((UInt64.ofInt k).toNat : ℤ) = k ↔ 0 ≤ k ∧ k < 2 ^ 64
  := by
  rw [UInt64.ofInt, UInt64.toNat_ofNat']
  omega

/-- A completed `resize` gives the true sizes exactly when the shape fits. -/
theorem sized_iff_fits {s : List Int32} {memory : Bool} {t t' : Tensor}
    (h : t.resize s memory = (true, t')) :
  Sized s t' ↔ Fits s t.type
  := by
  obtain ⟨hshape, htype, hlength⟩ := resize_of_completed h
  have helements : t'.elements = UInt64.ofInt (trueElements s) := by
    rw [elements, hshape, elementsOf_eq]
  have hbytes : t'.bytes = UInt64.ofInt (trueElements s * (typeSize t.type).toNat) := by
    have hsize : UInt64.ofInt (typeSize t.type).toNat = typeSize t.type := by
      rw [typeSize]
      split <;> rfl
    rw [bytes, hlength, UInt64.ofNat_toNat, elementsOf_eq, UInt64.ofInt_mul, hsize]
  have hsize : 1 ≤ (typeSize t.type).toNat := by
    rw [typeSize]
    split <;> decide
  constructor
  · intro hsized
    use hsized.nonneg
    have hb := hsized.bytes
    rw [hbytes, htype, toNat_ofInt_eq_iff] at hb
    apply hb.2
  · rintro ⟨hnonneg, hlt⟩
    have hpos := trueElements_nonneg hnonneg
    have hle : trueElements s ≤ trueElements s * (typeSize t.type).toNat := by
      apply le_mul_of_one_le_right hpos
      exact_mod_cast hsize
    refine ⟨hshape, hnonneg, ?_, ?_⟩
    · rw [helements, toNat_ofInt_eq_iff]
      omega
    · rw [hbytes, htype, toNat_ofInt_eq_iff]
      omega

/-- A call of `resize`, or a constructor, that completes gives the tensor the true sizes, without a
negative dimension, if and only if no dimension is negative and the size in bytes is below
`2 ^ 64`. -/
theorem sizes_iff (s : List Int32) (memory : Bool) :
  (∀ t t' : Tensor, t.resize s memory = (true, t') → (Sized s t' ↔ Fits s t.type))
    ∧ ∀ (type : TensorType) (t : Tensor), construct s type memory = some t →
      (Sized s t ↔ Fits s type)
  := by
  constructor
  · intro t t' h
    apply sized_iff_fits h
  · intro type t h
    apply sized_iff_fits (resize_of_construct h)

/-- The theorem for a tensor of two rows and three columns. -/
theorem sizes_iff_two_three :
  Sized [2, 3] ⟨[2, 3], .int8, List.replicate 6 0⟩ ↔ Fits [2, 3] .int8
  := (sizes_iff [2, 3] true).2 .int8 _ rfl

/-- A tensor of two negative dimensions is constructed with four bytes, and one of four dimensions
of `2 ^ 16` without any. -/
theorem not_sized_negative :
  construct [-1, -1] .float32 true = some ⟨[-1, -1], .float32, [0, 0, 0, 0]⟩
    ∧ (Tensor.mk [-1, -1] .float32 [0, 0, 0, 0]).elements = 1
    ∧ ¬ Sized [-1, -1] ⟨[-1, -1], .float32, [0, 0, 0, 0]⟩
    ∧ construct [65536, 65536, 65536, 65536] .float32 false
      = some ⟨[65536, 65536, 65536, 65536], .float32, []⟩
    ∧ (Tensor.mk [65536, 65536, 65536, 65536] .float32 []).elements = 0
    ∧ ¬ Sized [65536, 65536, 65536, 65536] ⟨[65536, 65536, 65536, 65536], .float32, []⟩
  := by
  refine ⟨by decide, by decide, ?_, by decide, by decide, ?_⟩
  · intro h
    apply absurd (h.nonneg (-1) (by decide)) (by decide)
  · intro h
    apply absurd h.elements (by decide)

/-! ### Consistency -/

/-- The buffer has the computed size of the shape. -/
def Consistent (t : Tensor) : Prop :=
  t.bytes = t.elements * typeSize t.type

/-- A tensor as a constructor leaves it. -/
inductive Constructed : Tensor → Prop where
  | default : Constructed default
  | construct {s : List Int32} {type : TensorType} {memory : Bool} {t : Tensor}
      (h : construct s type memory = some t) : Constructed t

/-- A call of `resize`: the shape, and whether there is room for more bytes. -/
structure Call where
  shape : List Int32
  memory : Bool

/-- The tensor after a call. -/
def step (t : Tensor) (call : Call) : Tensor :=
  (t.resize call.shape call.memory).2

/-- A call that throws an exception leaves the tensor as it was. -/
def UnchangedIfThrown (t : Tensor) (call : Call) : Prop :=
  (t.resize call.shape call.memory).1 = false → t.step call = t

/-- The condition on a call that the buffer has as many bytes as are computed for the shape, or
there is room for more. -/
def HasRoom (t : Tensor) (call : Call) : Prop :=
  (elementsOf call.shape * typeSize t.type).toNat ≤ t.buffer.length ∨ call.memory = true

/-- A call that completes leaves a consistent tensor. -/
theorem consistent_of_completed {s : List Int32} {memory : Bool} {t t' : Tensor}
    (h : t.resize s memory = (true, t')) :
  Consistent t'
  := by
  obtain ⟨hshape, htype, hlength⟩ := resize_of_completed h
  rw [Consistent, bytes, elements, hlength, hshape, htype, UInt64.ofNat_toNat]

/-- A constructor leaves a consistent tensor. -/
theorem Constructed.consistent {t : Tensor} (h : Constructed t) :
  Consistent t
  := by
  cases h with
  | default => rfl
  | construct h => apply consistent_of_completed (resize_of_construct h)

/-- A call that throws leaves a tensor that is not consistent. -/
theorem not_consistent_of_thrown {s : List Int32} {memory : Bool} {t t' : Tensor}
    (h : t.resize s memory = (false, t')) :
  ¬ Consistent t'
  := by
  obtain ⟨rfl, -, hlt⟩ := resize_of_thrown h
  intro hconsistent
  have hbytes := congrArg UInt64.toNat hconsistent
  have hmax := (elementsOf s * typeSize t.type).toNat_lt
  rw [bytes, elements, UInt64.toNat_ofNat'] at hbytes
  simp only at hbytes
  omega

/-- The buffer can be resized exactly when it has as many bytes, or there is room for more. -/
theorem resizeBuffer_isSome {buffer : List UInt8} {n : UInt64} {memory : Bool} :
  (resizeBuffer buffer n memory).isSome = true ↔ n.toNat ≤ buffer.length ∨ memory = true
  := by
  rw [resizeBuffer]
  split
  · rename_i hle
    simp [hle]
  · rename_i hlt
    cases memory <;> simp [hlt]

/-- A call completes exactly when there is room. -/
theorem completes_iff {t : Tensor} {call : Call} :
  (t.resize call.shape call.memory).1 = true ↔ HasRoom t call
  := by
  rw [HasRoom, ← resizeBuffer_isSome, resize, elements]
  simp only
  split
  · rename_i hbuffer
    simp [hbuffer]
  · rename_i buffer hbuffer
    simp [hbuffer]

/-- A call leaves a consistent tensor exactly when there is room. -/
theorem consistent_step_iff {t : Tensor} {call : Call} :
  Consistent (t.step call) ↔ HasRoom t call
  := by
  rw [← completes_iff, step]
  obtain ⟨completed, t', h⟩ : ∃ completed t', t.resize call.shape call.memory = (completed, t') :=
    ⟨_, _, rfl⟩
  rw [h]
  cases completed with
  | false => simp [not_consistent_of_thrown h]
  | true => simp [consistent_of_completed h]

/-- From any constructor on, the buffer has the computed size of the shape throughout the calls, and
each call that throws leaves the tensor as it was, if and only if there is room in each of the
calls, so that none throws. -/
theorem consistent_iff {t : Tensor} (h : Constructed t) (calls : List Call) :
  Throughout step Consistent t calls ∧ EachCall step UnchangedIfThrown t calls
    ↔ EachCall step HasRoom t calls
  := by
  have hvalid : EachCall step (fun _ _ => True) t calls := fun _ _ _ => trivial
  rw [throughout_iff_eachCall h.consistent hvalid (fun t call _ _ => consistent_step_iff)]
  constructor
  · rintro ⟨hroom, -⟩
    apply hroom
  · intro hroom
    use hroom
    intro before call hbefore hthrown
    rw [completes_iff.mpr (hroom before call hbefore)] at hthrown
    cases hthrown

/-- The theorem for a default-constructed tensor that is resized to two elements. -/
theorem consistent_iff_default :
  Throughout step Consistent default [⟨[2], true⟩]
      ∧ EachCall step UnchangedIfThrown default [⟨[2], true⟩]
    ↔ EachCall step HasRoom default [⟨[2], true⟩]
  := consistent_iff .default _

/-- A tensor of one element that is resized to a million elements without room keeps the buffer of
one element, but has the new shape. -/
theorem not_consistent_million :
  ∃ t, construct [1] .float32 true = some t
    ∧ t.resize [1000000] false = (false, ⟨[1000000], .float32, [0, 0, 0, 0]⟩)
    ∧ (t.step ⟨[1000000], false⟩).bytes = 4
    ∧ (t.step ⟨[1000000], false⟩).elements * typeSize .float32 = 4000000
    ∧ t.step ⟨[1000000], false⟩ ≠ t
  := by
  refine ⟨_, rfl, ?_, ?_, ?_, ?_⟩ <;> decide

end Tensor
