import PipeAI.Model.RknnEngine
import Mathlib.Data.List.TakeDrop

/-!
# The tensors of a model

`RknnRuntimeInfo.query` asks the runtime library for the numbers of inputs and outputs of a model
and for the attributes of each input, and keeps them.  What the library answers is not determined.

The entries of a query are those of the query before, as far as there are as many, and a successful
query of attributes assigns all fields of its entry but the dimensions, to which it appends.  So the
entries are the ones reported as long as no entry has a dimension before its attributes are queried,
and the numbers reported fit the entries, and no longer (`RknnRuntimeInfo.reflects_iff`).
-/

universe u

variable {K : Type u}

/-- `RknnRuntimeTensorInfo`. -/
structure RknnRuntimeTensorInfo (K : Type u) where
  index : Int32
  dims : List Int32
  type : ℤ
  scale : Flt K
  zero_point : Int32

/-- The default-constructed `RknnRuntimeTensorInfo`. -/
def RknnRuntimeTensorInfo.default (K : Type u) [One K] : RknnRuntimeTensorInfo K where
  index := 0
  dims := []
  type := 0
  scale := .fin 1
  zero_point := 0

/-- The attributes in `rknn_tensor_attr`, with the first `n_dims` of its dimensions. -/
structure TensorAttr (K : Type u) where
  dims : List UInt32
  type : ℤ
  scale : Flt K
  zp : Int32

/-- What the runtime library answers to a query: the numbers of inputs and outputs, and the
attributes of each input, unless the call fails. -/
structure QueryAnswer (K : Type u) where
  io : Option IoNum
  attr : ℕ → Option (TensorAttr K)

/-- `RknnRuntimeInfo`. -/
@[ext]
structure RknnRuntimeInfo (K : Type u) where
  inputs : List (RknnRuntimeTensorInfo K)
  outputs : List (RknnRuntimeTensorInfo K)

namespace RknnRuntimeInfo

/-! ### The code -/

/-- The default-constructed `RknnRuntimeInfo`. -/
def default : RknnRuntimeInfo K where
  inputs := []
  outputs := []

/-- What a successful query of attributes does to the entry of an input. -/
def assign (i : ℕ) (attr : TensorAttr K) (entry : RknnRuntimeTensorInfo K) :
    RknnRuntimeTensorInfo K where
  index := (UInt32.ofNat i).toInt32
  type := attr.type
  scale := attr.scale
  zero_point := attr.zp
  dims := attr.dims.foldl (fun dims dim => dims ++ [dim.toInt32]) entry.dims

/-- The loop of `RknnRuntimeInfo::query` over the inputs. -/
def queryInputs (answer : QueryAnswer K) (n_input : ℕ) (inputs : List (RknnRuntimeTensorInfo K)) :
    List (RknnRuntimeTensorInfo K) :=
  (List.range n_input).foldl (fun inputs i =>
    match answer.attr i with
    | none => inputs
    | some attr => inputs.modify i (assign i attr)) inputs

/-- `RknnRuntimeInfo::query`, with `PIPEAI_WITH_RKNN`: the value returned, and the object. -/
def query [One K] (answer : QueryAnswer K) (info : RknnRuntimeInfo K) :
    Bool × RknnRuntimeInfo K :=
  match answer.io with
  | none => (false, info)
  | some io =>
      let inputs := info.inputs.takeD io.n_input.toNat (.default K)
      let outputs := info.outputs.takeD io.n_output.toNat (.default K)
      (true, ⟨queryInputs answer io.n_input.toNat inputs, outputs⟩)

/-- The object after a query. -/
def step [One K] (info : RknnRuntimeInfo K) (answer : QueryAnswer K) : RknnRuntimeInfo K :=
  (info.query answer).2

/-! ### Entries -/

/-- The entry of an input is the one reported: it has the values of the attributes. -/
structure Shows (i : ℕ) (attr : TensorAttr K) (entry : RknnRuntimeTensorInfo K) : Prop where
  index : entry.index.toInt = i
  type : entry.type = attr.type
  scale : entry.scale = attr.scale
  zero_point : entry.zero_point = attr.zp
  dims : entry.dims.map Int32.toInt = attr.dims.map fun dim => (dim.toNat : ℤ)

/-- The entry of an input after a query, from the one before. -/
def entryAfter (answer : QueryAnswer K) (i : ℕ) (entry : RknnRuntimeTensorInfo K) :
    RknnRuntimeTensorInfo K :=
  match answer.attr i with
  | none => entry
  | some attr => assign i attr entry

/-- The numbers reported for an input fit its entry. -/
structure Small (i : ℕ) (attr : TensorAttr K) : Prop where
  index : i < 2 ^ 31
  dims : ∀ dim ∈ attr.dims, dim.toNat < 2 ^ 31

/-- A conversion to a signed integer keeps the value of a number below `2 ^ 31`, and of no
other. -/
theorem toInt_toInt32_iff {n : UInt32} :
  n.toInt32.toInt = n.toNat ↔ n.toNat < 2 ^ 31
  := by
  have hlt : n.toNat < 2 ^ 32 := n.toNat_lt
  have hcast : n.toInt32.toInt = n.toBitVec.toInt := rfl
  have hnat : n.toBitVec.toNat = n.toNat := rfl
  rw [hcast, BitVec.toInt_eq_toNat_cond, hnat]
  split <;> omega

/-- The dimensions are appended. -/
theorem dims_assign (i : ℕ) (attr : TensorAttr K) (entry : RknnRuntimeTensorInfo K) :
  (assign i attr entry).dims = entry.dims ++ attr.dims.map UInt32.toInt32
  := by
  have hpush : ∀ (dims : List UInt32) (start : List Int32),
      dims.foldl (fun dims dim => dims ++ [dim.toInt32]) start
        = start ++ dims.map UInt32.toInt32 := by
    intro dims
    induction dims with
    | nil => simp
    | cons dim dims ih =>
        intro start
        rw [List.foldl_cons, ih, List.map_cons, List.append_assoc]
        rfl
  apply hpush

/-- The dimensions after a query are the ones reported exactly when there was none before and those
reported fit. -/
theorem dims_assign_iff {i : ℕ} {attr : TensorAttr K} {entry : RknnRuntimeTensorInfo K} :
  (assign i attr entry).dims.map Int32.toInt = attr.dims.map (fun dim => (dim.toNat : ℤ))
    ↔ entry.dims = [] ∧ ∀ dim ∈ attr.dims, dim.toNat < 2 ^ 31
  := by
  have hvalues : (attr.dims.map UInt32.toInt32).map Int32.toInt
      = attr.dims.map (fun dim => (dim.toNat : ℤ))
      ↔ ∀ dim ∈ attr.dims, dim.toNat < 2 ^ 31 := by
    simp only [List.map_map, List.map_inj_left, Function.comp_apply, toInt_toInt32_iff]
  rw [dims_assign, List.map_append]
  constructor
  · intro h
    have hlen := congrArg List.length h
    simp only [List.length_append, List.length_map, Nat.add_eq_right, List.length_eq_zero_iff]
      at hlen
    rw [hlen, List.map_nil, List.nil_append] at h
    exact ⟨hlen, hvalues.mp h⟩
  · rintro ⟨hempty, hsmall⟩
    rw [hempty, List.map_nil, List.nil_append]
    apply hvalues.mpr hsmall

/-- An entry that is assigned is the one reported exactly when it had no dimension before and the
numbers reported fit. -/
theorem shows_assign_iff {i : ℕ} (hi : i < 2 ^ 32) {attr : TensorAttr K}
    {entry : RknnRuntimeTensorInfo K} :
  Shows i attr (assign i attr entry) ↔ entry.dims = [] ∧ Small i attr
  := by
  have hnat : (UInt32.ofNat i).toNat = i := UInt32.toNat_ofNat_of_lt' hi
  have hindex := toInt_toInt32_iff (n := UInt32.ofNat i)
  rw [hnat] at hindex
  constructor
  · intro h
    have hdims := dims_assign_iff.mp h.dims
    exact ⟨hdims.1, hindex.mp h.index, hdims.2⟩
  · rintro ⟨hempty, hsmall⟩
    exact ⟨hindex.mpr hsmall.index, rfl, rfl, rfl, dims_assign_iff.mpr ⟨hempty, hsmall.dims⟩⟩

/-! ### A query -/

/-- The loop changes each entry once. -/
theorem getElem?_queryInputs (answer : QueryAnswer K) (n : ℕ)
    (inputs : List (RknnRuntimeTensorInfo K)) (i : ℕ) :
  (queryInputs answer n inputs)[i]?
    = if i < n then inputs[i]?.map (entryAfter answer i) else inputs[i]?
  := by
  have hbody : ∀ (inputs : List (RknnRuntimeTensorInfo K)) (j : ℕ),
      (match answer.attr j with
        | none => inputs
        | some attr => inputs.modify j (assign j attr))
        = inputs.modify j (entryAfter answer j) := by
    intro inputs j
    unfold entryAfter
    cases answer.attr j with
    | none => exact (List.modify_id j inputs).symm
    | some attr => rfl
  simp only [queryInputs, hbody]
  induction n with
  | zero => simp
  | succ n ih =>
      rw [List.range_succ, List.foldl_append, List.foldl_cons, List.foldl_nil]
      by_cases heq : n = i
      · rw [heq] at ih ⊢
        rw [List.getElem?_modify_eq, ih, if_neg (lt_irrefl i), if_pos (Nat.lt_succ_self i)]
        rfl
      · rw [List.getElem?_modify_ne _ _ heq, ih]
        congr 1
        apply propext
        omega

/-- The loop keeps the number of entries. -/
theorem length_queryInputs (answer : QueryAnswer K) (n : ℕ)
    (inputs : List (RknnRuntimeTensorInfo K)) :
  (queryInputs answer n inputs).length = inputs.length
  := by
  rw [queryInputs]
  induction n with
  | zero => rfl
  | succ n ih =>
      rw [List.range_succ, List.foldl_append, List.foldl_cons, List.foldl_nil]
      split
      · apply ih
      · rw [List.length_modify, ih]

/-- A vector that is resized keeps its entries, and is filled up with one. -/
theorem getElem?_takeD {α : Type u} (n : ℕ) (xs : List α) (x : α) (i : ℕ) :
  (xs.takeD n x)[i]? = if i < n then some (xs[i]?.getD x) else none
  := by
  induction n generalizing xs i with
  | zero => rfl
  | succ n ih =>
      rw [List.takeD_succ]
      cases i with
      | zero => cases xs <;> rfl
      | succ i =>
          rw [List.getElem?_cons_succ, ih]
          simp

variable [One K]

/-- The entry of an input before a query that reports it. -/
def entryBefore (info : RknnRuntimeInfo K) (i : ℕ) : RknnRuntimeTensorInfo K :=
  info.inputs[i]?.getD (.default K)

/-- An entry after a query, when the number of inputs is reported. -/
theorem getElem?_inputs_step {answer : QueryAnswer K} {io : IoNum} (hio : answer.io = some io)
    (info : RknnRuntimeInfo K) (i : ℕ) :
  (info.step answer).inputs[i]?
    = if i < io.n_input.toNat then some (entryAfter answer i (info.entryBefore i)) else none
  := by
  have hinputs : (info.step answer).inputs = queryInputs answer io.n_input.toNat
      (info.inputs.takeD io.n_input.toNat (.default K)) := by
    rw [step, query, hio]
  rw [hinputs, getElem?_queryInputs, getElem?_takeD]
  by_cases hlt : i < io.n_input.toNat
  · rw [if_pos hlt, if_pos hlt, if_pos hlt]
    rfl
  · rw [if_neg hlt, if_neg hlt, if_neg hlt]

/-- The inputs are those reported. -/
structure Reported (answer : QueryAnswer K) (io : IoNum) (info : RknnRuntimeInfo K) : Prop where
  length : info.inputs.length = io.n_input.toNat
  entry : ∀ i attr, i < io.n_input.toNat → answer.attr i = some attr
    → ∃ entry, info.inputs[i]? = some entry ∧ Shows i attr entry

/-- If the query returns true, then the inputs after it are those reported. -/
def Reflects (info : RknnRuntimeInfo K) (answer : QueryAnswer K) : Prop :=
  (info.query answer).1 = true
    → ∃ io, answer.io = some io ∧ Reported answer io (info.step answer)

/-- Each input whose attributes are reported has no dimension yet, and its numbers fit. -/
def Clean (info : RknnRuntimeInfo K) (answer : QueryAnswer K) : Prop :=
  ∀ io, answer.io = some io → ∀ i attr, i < io.n_input.toNat → answer.attr i = some attr
    → (info.entryBefore i).dims = [] ∧ Small i attr

/-- The number of entries after a query is the one reported. -/
theorem length_inputs_step {answer : QueryAnswer K} {io : IoNum} (hio : answer.io = some io)
    (info : RknnRuntimeInfo K) :
  (info.step answer).inputs.length = io.n_input.toNat
  := by
  rw [step, query, hio]
  dsimp only
  rw [length_queryInputs, List.takeD_length]

/-- A query gives the inputs reported exactly when they had no dimension yet. -/
theorem reflects_step_iff {info : RknnRuntimeInfo K} {answer : QueryAnswer K} :
  info.Reflects answer ↔ info.Clean answer
  := by
  have hentry : ∀ io, answer.io = some io → ∀ i attr, i < io.n_input.toNat →
      answer.attr i = some attr →
      (info.step answer).inputs[i]? = some (assign i attr (info.entryBefore i)) := by
    intro io hio i attr hi hattr
    rw [getElem?_inputs_step hio, if_pos hi, entryAfter, hattr]
  constructor
  · intro h io hio i attr hi hattr
    have htrue : (info.query answer).1 = true := by
      rw [query, hio]
    obtain ⟨io', hio', -, hreported⟩ := h htrue
    rw [hio, Option.some.injEq] at hio'
    subst hio'
    obtain ⟨entry, hsome, hshows⟩ := hreported i attr hi hattr
    rw [hentry io hio i attr hi hattr, Option.some.injEq] at hsome
    rw [← hsome] at hshows
    apply (shows_assign_iff (lt_trans hi io.n_input.toNat_lt)).mp hshows
  · intro h htrue
    cases hio : answer.io with
    | none =>
        rw [query, hio] at htrue
        cases htrue
    | some io =>
        refine ⟨io, rfl, length_inputs_step hio info, ?_⟩
        intro i attr hi hattr
        refine ⟨_, hentry io hio i attr hi hattr, ?_⟩
        apply (shows_assign_iff (lt_trans hi io.n_input.toNat_lt)).mpr
        apply h io hio i attr hi hattr

/-- Of two queries in a row with the same answers, both on inputs without dimensions, the second
changes nothing. -/
theorem step_step {info : RknnRuntimeInfo K} {answer : QueryAnswer K} (h : info.Clean answer)
    (h' : (info.step answer).Clean answer) :
  (info.step answer).step answer = info.step answer
  := by
  cases hio : answer.io with
  | none =>
      rw [step, query, hio]
  | some io =>
      have houtputs : ∀ info : RknnRuntimeInfo K,
          (info.step answer).outputs = info.outputs.takeD io.n_output.toNat (.default K) := by
        intro info
        rw [step, query, hio]
      have hinputs : ((info.step answer).step answer).inputs = (info.step answer).inputs := by
        apply List.ext_getElem?
        intro i
        rw [getElem?_inputs_step hio, getElem?_inputs_step hio]
        by_cases hi : i < io.n_input.toNat
        · rw [if_pos hi, if_pos hi]
          have hbefore : (info.step answer).entryBefore i
              = entryAfter answer i (info.entryBefore i) := by
            rw [entryBefore, getElem?_inputs_step hio, if_pos hi, Option.getD_some]
          cases hattr : answer.attr i with
          | none =>
              rw [hbefore, entryAfter, hattr]
          | some attr =>
              have hempty := (h io hio i attr hi hattr).1
              have hempty' := (h' io hio i attr hi hattr).1
              simp only [entryAfter, hattr, assign, hempty, hempty']
        · rw [if_neg hi, if_neg hi]
      have hfix : ((info.step answer).step answer).outputs = (info.step answer).outputs := by
        have hlen : (info.step answer).outputs.length = io.n_output.toNat := by
          rw [houtputs, List.takeD_length]
        rw [houtputs, List.takeD_eq_take _ hlen.ge, ← hlen, List.take_length]
      apply RknnRuntimeInfo.ext hinputs hfix

/-! ### A run -/

/-- Each of the queries of a new object that returns true gives the inputs reported exactly when
each of them finds no dimension and reports numbers that fit.  Of two such queries in a row with the
same answers the second changes nothing. -/
theorem reflects_iff {answers : List (QueryAnswer K)} :
  (EachCall step Reflects default answers ↔ EachCall step Clean default answers)
    ∧ (EachCall step Clean default answers → ∀ before answer,
      before ++ [answer, answer] <+: answers →
      (before ++ [answer, answer]).foldl step default = (before ++ [answer]).foldl step default)
  := by
  constructor
  · constructor
    · intro h before answer hbefore
      apply reflects_step_iff.mp (h before answer hbefore)
    · intro h before answer hbefore
      apply reflects_step_iff.mpr (h before answer hbefore)
  · intro h before answer hbefore
    have hsplit : before ++ [answer, answer] = (before ++ [answer]) ++ [answer] := by simp
    rw [hsplit] at hbefore ⊢
    have hfirst := h before answer (List.IsPrefix.trans (List.prefix_append _ _) hbefore)
    have hsecond := h (before ++ [answer]) answer hbefore
    rw [List.foldl_append, List.foldl_cons, List.foldl_nil] at hsecond
    simp only [List.foldl_append, List.foldl_cons, List.foldl_nil]
    apply step_step hfirst hsecond

/-- The answers for a model with one input of one dimension. -/
def oneInput : QueryAnswer ℚ where
  io := some ⟨1, 1⟩
  attr := fun _ => some ⟨[1], 0, .fin 1, 0⟩

/-- Queried twice, the input has the dimension twice. -/
theorem not_reflects_twice :
  ¬ EachCall step Reflects default [oneInput, oneInput]
    ∧ (default.step oneInput).inputs.map (fun entry => entry.dims) = [[1]]
    ∧ ((default.step oneInput).step oneInput).inputs.map (fun entry => entry.dims) = [[1, 1]]
  := by
  refine ⟨?_, by decide, by decide⟩
  intro h
  obtain ⟨io, hio, hreported⟩ := h [oneInput] oneInput List.prefix_rfl rfl
  cases hio
  obtain ⟨entry, hentry, hshows⟩ := hreported.entry 0 ⟨[1], 0, .fin 1, 0⟩ (by decide) rfl
  have hdims := hshows.dims
  cases hentry
  revert hdims
  decide

end RknnRuntimeInfo
