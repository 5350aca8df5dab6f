import PipeAI.Concurrency.History
import PipeAI.Types
import Mathlib.Data.List.TakeDrop
import Mathlib.Logic.Function.Basic

/-!
# The engine and its context

`RknnEngine.load` reads a model and creates a context of the neural processing unit from it,
`RknnEngine.infer` runs the model, and `RknnEngine.close`, which the destructor calls, destroys
the context.  What the file system, the memory and the calls of the runtime library answer is not
determined, except that a context that is created is not zero and not alive already.

A function that changes a state and may throw an exception gives its result, or none when the
exception is thrown, together with the state that it leaves in either case.

`load` neither closes the context of an engine that has one, nor leaves the buffer it was
created from as it is.  The engine owns exactly the context it refers to, and the bytes it was
created from, as long as no model is loaded in place of another, and no longer
(`RknnEngine.owns_iff`).
-/

universe u

/-! ### The model file -/

/-- What the file of a model gives: it cannot be opened, or it has a size, there is memory for
that many bytes or not, and the read delivers bytes, as many as it is asked for unless it fails. -/
inductive ModelFile where
  | unreadable
  | readable (size : ℤ) (allocates : Bool) (bytes : List UInt8)

/-- The condition on a file that resizing the data to its size throws an exception: the data have
to grow, and there is no memory for them. -/
def ModelFile.Throws (data : List UInt8) : ModelFile → Prop
  | .unreadable => False
  | .readable size allocates _ => data.length < size.toNat ∧ allocates = false

instance (data : List UInt8) : DecidablePred (ModelFile.Throws data)
  | .unreadable => inferInstanceAs (Decidable False)
  | .readable size allocates _ =>
      inferInstanceAs (Decidable (data.length < size.toNat ∧ allocates = false))

/-- `ModelLoader::load_file`: the status, unless an exception is thrown, and the data.  The data are
left as they are when they cannot be resized. -/
def ModelLoader.loadFile (path : String) (file : ModelFile) (data : List UInt8) :
    Option Status × List UInt8 :=
  match file with
  | .unreadable => (some (.failure .ioError ("cannot open model: " ++ path)), data)
  | .readable size allocates bytes =>
      if size ≤ 0 then (some (.failure .ioError ("empty model: " ++ path)), data)
      else if ModelFile.Throws data (.readable size allocates bytes) then (none, data)
      else
        let data := data.takeD size.toNat 0
        let data := bytes.take size.toNat ++ data.drop bytes.length
        if bytes.length < size.toNat then
          (some (.failure .ioError ("failed reading model: " ++ path)), [])
        else (some .success, data)

namespace ModelFile

/-- The condition on a file that the data are left as they are: it cannot be opened, is empty, or
there is no memory for it. -/
def LeavesData (data : List UInt8) : ModelFile → Prop
  | .unreadable => True
  | .readable size allocates bytes => size ≤ 0 ∨ Throws data (.readable size allocates bytes)

/-- The condition on a file that it is not empty and the given bytes are read from it, all of
them. -/
def Delivers (model : List UInt8) : ModelFile → Prop
  | .unreadable => False
  | .readable size _ bytes =>
      0 < size ∧ size.toNat ≤ bytes.length ∧ bytes.take size.toNat = model

/-- A file that throws leaves the data. -/
theorem Throws.leavesData {data : List UInt8} {file : ModelFile} (h : file.Throws data) :
  file.LeavesData data
  := by
  rcases file with _ | _
  · trivial
  · right
    apply h

/-- At most one list of bytes is delivered. -/
theorem Delivers.unique {model model' : List UInt8} {file : ModelFile} (h : file.Delivers model)
    (h' : file.Delivers model') :
  model = model'
  := by
  rcases file with _ | ⟨size, allocates, bytes⟩
  · cases h
  · rw [← h.2.2, h'.2.2]

/-- What is delivered is not empty. -/
theorem Delivers.ne_nil {model : List UInt8} {file : ModelFile} (h : file.Delivers model) :
  model ≠ []
  := by
  rcases file with _ | ⟨size, allocates, bytes⟩
  · cases h
  · obtain ⟨hpos, hlen, rfl⟩ := h
    rw [← List.length_pos_iff_ne_nil, List.length_take]
    omega

end ModelFile

/-- What `load_file` can do: an exception is thrown, or the data are left as they are, or they are
cleared after a read that has failed, or they are replaced by the bytes of the file. -/
inductive ModelLoader.Loads (file : ModelFile) (data : List UInt8) :
    Option Status × List UInt8 → Prop
  | threw (hthrows : file.Throws data) : Loads file data (none, data)
  | rejected {status : Status} (hthrows : ¬ file.Throws data) (hleaves : file.LeavesData data)
      (hok : status.ok = false) : Loads file data (some status, data)
  | cleared {status : Status} (hleaves : ¬ file.LeavesData data)
      (hmodel : ∀ model, ¬ file.Delivers model) (hok : status.ok = false) :
      Loads file data (some status, [])
  | read {model : List UInt8} (hleaves : ¬ file.LeavesData data) (hmodel : file.Delivers model) :
      Loads file data (some .success, model)

/-- `load_file` does one of these. -/
theorem ModelLoader.loads (path : String) (file : ModelFile) (data : List UInt8) :
  Loads file data (loadFile path file data)
  := by
  rcases file with _ | ⟨size, allocates, bytes⟩
  · apply Loads.rejected _ _ rfl
    · rintro ⟨⟩
    · trivial
  · rw [loadFile]
    dsimp only
    split
    · rename_i hsize
      apply Loads.rejected _ _ rfl
      · rintro ⟨hlen, -⟩
        omega
      · left
        apply hsize
    · rename_i hsize
      split
      · rename_i hthrows
        apply Loads.threw hthrows
      · rename_i hthrows
        have hleaves : ¬ (ModelFile.readable size allocates bytes).LeavesData data := by
          rintro (h | h)
          · apply hsize h
          · apply hthrows h
        split
        · rename_i hshort
          apply Loads.cleared hleaves _ rfl
          rintro model ⟨-, hlen, -⟩
          omega
        · rename_i hshort
          rw [List.drop_eq_nil_of_le (by rw [List.takeD_length]; omega), List.append_nil]
          apply Loads.read hleaves ⟨by omega, by omega, rfl⟩

/-! ### The runtime library -/

/-- The contexts that are alive, each with the bytes it was created from. -/
abbrev Npu : Type := UInt64 → Option (List UInt8)

/-- The effect of `rknn_init` when it succeeds. -/
def Npu.init (npu : Npu) (context : UInt64) (model : List UInt8) : Npu :=
  Function.update npu context (some model)

/-- `rknn_destroy`. -/
def Npu.destroy (npu : Npu) (context : UInt64) : Npu :=
  Function.update npu context none

/-- `rknn_input_output_num`. -/
structure IoNum where
  n_input : UInt32
  n_output : UInt32

/-- What the runtime library answers to `infer`: whether the first two calls succeed, and, if the
third does, the buffer of the first output, which may be null. -/
structure InferAnswer (K : Type u) where
  inputs_set : ModelInput K → Bool
  run : Bool
  outputs_get : Option (Option (List (Flt K)))

/-! ### The engine -/

/-- `RknnEngine`. -/
structure RknnEngine where
  initialized : Bool
  model_buffer : List UInt8
  input_count : Int32
  output_count : Int32
  ctx : UInt64

namespace RknnEngine

variable {K : Type u}

/-- The default-constructed `RknnEngine`. -/
def default : RknnEngine where
  initialized := false
  model_buffer := []
  input_count := 0
  output_count := 0
  ctx := 0

/-- The engine and the contexts that are alive. -/
structure Session where
  engine : RknnEngine
  npu : Npu

/-- A new engine, when no context is alive. -/
def Session.start : Session := ⟨default, fun _ => none⟩

/-- `RknnEngine::close`. -/
def close (s : Session) : Session where
  engine := default
  npu := if s.engine.ctx ≠ 0 then s.npu.destroy s.engine.ctx else s.npu

/-- The session with other bytes in the buffer of the engine. -/
def Session.withBuffer (s : Session) (model_buffer : List UInt8) : Session :=
  { s with engine := { s.engine with model_buffer := model_buffer } }

/-- `RknnEngine::load`: the status, unless an exception is thrown, and the session. -/
def load (path : String) (file : ModelFile) (init : Option UInt64) (query : Option IoNum)
    (s : Session) : Option Status × Session :=
  let (status, model_buffer) := ModelLoader.loadFile path file s.engine.model_buffer
  let s := s.withBuffer model_buffer
  match status with
  | none => (none, s)
  | some status =>
      if !status.ok then (some status, s)
      else
        match init with
        | none => (some (.failure .rknnInitFailed "rknn_init failed"), s)
        | some context =>
            let s : Session :=
              ⟨{ s.engine with ctx := context }, s.npu.init context s.engine.model_buffer⟩
            match query with
            | none =>
                (some (.failure .rknnQueryFailed "rknn_query input/output failed"), close s)
            | some io_num =>
                (some .success, { s with engine := { s.engine with
                  input_count := io_num.n_input.toInt32
                  output_count := io_num.n_output.toInt32
                  initialized := true } })

/-- `RknnEngine::infer`: the status and the output.  There is no result when the vector of outputs
cannot be constructed. -/
def infer (engine : RknnEngine) (answer : InferAnswer K) (input : ModelInput K)
    (output : List (Flt K)) : Option (Status × List (Flt K)) :=
  if !engine.initialized then
    some (.failure .rknnInferenceFailed "RKNN engine not initialized", output)
  else if !answer.inputs_set input then
    some (.failure .rknnInferenceFailed "rknn_inputs_set failed", output)
  else if !answer.run then some (.failure .rknnInferenceFailed "rknn_run failed", output)
  else if engine.output_count < 0 then none
  else
    match answer.outputs_get with
    | none => some (.failure .rknnInferenceFailed "rknn_outputs_get failed", output)
    | some buf =>
        if engine.output_count > 0 then some (.success, buf.getD [])
        else some (.success, [])

/-- A call of the engine, with what the file system and the runtime library answer. -/
inductive Call (K : Type u) where
  | load (path : String) (file : ModelFile) (init : Option UInt64) (query : Option IoNum)
  | infer (answer : InferAnswer K) (input : ModelInput K) (output : List (Flt K))
  | close

/-- The session after a call. -/
def Session.step (s : Session) : Call K → Session
  | .load path file init query => (load path file init query s).2
  | .infer _ _ _ => s
  | .close => close s

/-- A context that `rknn_init` gives is not zero and not alive already. -/
def GivesFresh (s : Session) : Call K → Prop
  | .load _ _ (some context) _ => context ≠ 0 ∧ s.npu context = none
  | _ => True

/-! ### Ownership -/

/-- The contexts that are alive are exactly the context of the engine, if there is one; an
initialized engine has one, created from the bytes in its buffer; and when the engine is
destroyed, no context is left alive. -/
structure Owns (s : Session) : Prop where
  alive : ∀ context, s.npu context ≠ none ↔ s.engine.ctx ≠ 0 ∧ context = s.engine.ctx
  initialized : s.engine.initialized = true →
    s.engine.ctx ≠ 0 ∧ s.npu s.engine.ctx = some s.engine.model_buffer
  released : ∀ context, (close s).npu context = none

/-- The condition on a call that, if it loads a model into an engine that has a context, the file
cannot be opened, is empty, or there is no memory for it, or it delivers the bytes that the buffer
holds already and `rknn_init` fails on them. -/
def ReplacesNoModel (s : Session) : Call K → Prop
  | .load _ file init _ => s.engine.ctx ≠ 0 →
      file.LeavesData s.engine.model_buffer
        ∨ file.Delivers s.engine.model_buffer ∧ init = none
  | _ => True

/-- An engine that has a context is initialized, and one without is not, and no context was created
from an empty model. -/
structure Settled (s : Session) : Prop where
  initialized : s.engine.ctx ≠ 0 ↔ s.engine.initialized = true
  nonempty : ∀ context, s.npu context ≠ some []

/-! ### What a call changes -/

/-- The session with a context created for the engine from the given bytes. -/
def Session.opened (s : Session) (context : UInt64) (model : List UInt8) : Session :=
  ⟨{ s.engine with model_buffer := model, ctx := context }, s.npu.init context model⟩

/-- The session with an engine that is initialized, with the given numbers of inputs and of
outputs. -/
def Session.initialized (s : Session) (io_num : IoNum) : Session :=
  { s with engine := { s.engine with
      input_count := io_num.n_input.toInt32
      output_count := io_num.n_output.toInt32
      initialized := true } }

/-- What `load` can do: an exception is thrown, or nothing changes, or the buffer is cleared, or it
has the bytes of the file; and then a context is not created, or it is and the engine is closed, or
it is and the engine is initialized. -/
inductive Loads (file : ModelFile) (init : Option UInt64) (s : Session) :
    Option Status × Session → Prop
  | threw (hthrows : file.Throws s.engine.model_buffer) : Loads file init s (none, s)
  | rejected {status : Status} (hthrows : ¬ file.Throws s.engine.model_buffer)
      (hleaves : file.LeavesData s.engine.model_buffer) (hok : status.ok = false) :
      Loads file init s (some status, s)
  | cleared {status : Status} (hleaves : ¬ file.LeavesData s.engine.model_buffer)
      (hmodel : ∀ model, ¬ file.Delivers model) (hok : status.ok = false) :
      Loads file init s (some status, s.withBuffer [])
  | failed {status : Status} {model : List UInt8}
      (hleaves : ¬ file.LeavesData s.engine.model_buffer) (hmodel : file.Delivers model)
      (hinit : init = none) (hok : status.ok = false) :
      Loads file init s (some status, s.withBuffer model)
  | closed {status : Status} {model : List UInt8} {context : UInt64}
      (hleaves : ¬ file.LeavesData s.engine.model_buffer) (hmodel : file.Delivers model)
      (hinit : init = some context) (hok : status.ok = false) :
      Loads file init s (some status, close (s.opened context model))
  | opened {model : List UInt8} {context : UInt64} {io_num : IoNum}
      (hleaves : ¬ file.LeavesData s.engine.model_buffer) (hmodel : file.Delivers model)
      (hinit : init = some context) :
      Loads file init s (some .success, (s.opened context model).initialized io_num)

/-- `load` does one of these. -/
theorem loads (path : String) (file : ModelFile) (init : Option UInt64) (query : Option IoNum)
    (s : Session) :
  Loads file init s (load path file init query s)
  := by
  have hfile := ModelLoader.loads path file s.engine.model_buffer
  rw [load]
  generalize ModelLoader.loadFile path file s.engine.model_buffer = r at hfile
  cases hfile with
  | threw hthrows => apply Loads.threw hthrows
  | rejected hthrows hleaves hok =>
      simp only [hok]
      apply Loads.rejected hthrows hleaves hok
  | cleared hleaves hmodel hok =>
      simp only [hok]
      apply Loads.cleared hleaves hmodel hok
  | read hleaves hmodel =>
      rcases init with _ | context
      · apply Loads.failed hleaves hmodel rfl rfl
      · rcases query with _ | io_num
        · apply Loads.closed hleaves hmodel rfl rfl
        · apply Loads.opened hleaves hmodel rfl

/-- Destroying a context leaves the others. -/
theorem Npu.destroy_eq_none (npu : Npu) (context c : UInt64) :
  npu.destroy context c = none ↔ c = context ∨ npu c = none
  := by
  rw [Npu.destroy]
  by_cases h : c = context
  · simp [h]
  · simp [h]

/-- A context that is not zero is destroyed when the engine is closed, and the others are left. -/
theorem close_npu_eq_none {s : Session} (h : s.engine.ctx ≠ 0) (c : UInt64) :
  (close s).npu c = none ↔ c = s.engine.ctx ∨ s.npu c = none
  := by
  rw [close]
  simp only [if_pos h]
  apply Npu.destroy_eq_none

/-- An engine that owns its context leaves none alive when it is destroyed. -/
theorem Owns.of_alive {s : Session}
    (alive : ∀ context, s.npu context ≠ none ↔ s.engine.ctx ≠ 0 ∧ context = s.engine.ctx)
    (initialized : s.engine.initialized = true →
      s.engine.ctx ≠ 0 ∧ s.npu s.engine.ctx = some s.engine.model_buffer) :
  Owns s
  := by
  refine ⟨alive, initialized, ?_⟩
  intro c
  by_cases h : s.engine.ctx = 0
  · have hc := alive c
    simp only [h, ne_eq, not_true_eq_false, false_and, iff_false, not_not] at hc
    simpa [close, h] using hc
  · rw [close_npu_eq_none h]
    by_contra hne
    rw [not_or] at hne
    apply hne.1 ((alive c).mp hne.2).2

/-- An engine without a context owns it exactly when no context is alive. -/
theorem owns_iff_of_zero {s : Session} (h : s.engine.ctx = 0)
    (hinit : s.engine.initialized = false) :
  Owns s ↔ ∀ context, s.npu context = none
  := by
  constructor
  · intro howns context
    have hiff := howns.alive context
    simpa [h] using hiff
  · intro hnone
    apply Owns.of_alive
    · simp [hnone, h]
    · simp [hinit]

/-- The bytes in the buffer of an engine that has a context are not empty. -/
theorem Owns.buffer_ne_nil {s : Session} (h : Owns s) (hs : Settled s) (hctx : s.engine.ctx ≠ 0) :
  s.engine.model_buffer ≠ []
  := by
  intro hnil
  have hnpu := (h.initialized (hs.initialized.mp hctx)).2
  rw [hnil] at hnpu
  apply hs.nonempty _ hnpu

/-- Other bytes in the buffer keep the ownership exactly when there is no context, or the bytes
are the same. -/
theorem Owns.withBuffer_iff {s : Session} (h : Owns s) (hs : Settled s) (buffer : List UInt8) :
  Owns (s.withBuffer buffer) ↔ (s.engine.ctx ≠ 0 → buffer = s.engine.model_buffer)
  := by
  constructor
  · intro howns hctx
    have hold := (h.initialized (hs.initialized.mp hctx)).2
    have hnew := (howns.initialized (hs.initialized.mp hctx)).2
    have heq : some s.engine.model_buffer = some buffer := hold.symm.trans hnew
    cases heq
    rfl
  · intro hbuffer
    apply Owns.of_alive (s := s.withBuffer buffer) h.alive
    intro hinit
    obtain ⟨hctx, hnpu⟩ := h.initialized hinit
    use hctx
    rw [← hbuffer hctx] at hnpu
    apply hnpu

/-- A context that is created when there is none is owned. -/
theorem owns_initialized {s : Session} (h : Owns s) (hctx : s.engine.ctx = 0) {context : UInt64}
    (hcontext : context ≠ 0) (model : List UInt8) (io_num : IoNum) :
  Owns ((s.opened context model).initialized io_num)
  := by
  have hnone : ∀ c, s.npu c = none := by
    intro c
    have hiff := h.alive c
    simpa [hctx] using hiff
  apply Owns.of_alive
  · intro c
    by_cases hc : c = context
    · simp [Session.initialized, Session.opened, Npu.init, hc, hcontext]
    · simp [Session.initialized, Session.opened, Npu.init, hnone, hc]
  · intro _
    use hcontext
    simp [Session.initialized, Session.opened, Npu.init]

/-- No context is left when a context that is created when there is none is closed at once. -/
theorem owns_close_opened {s : Session} (h : Owns s) (hctx : s.engine.ctx = 0) {context : UInt64}
    (hcontext : context ≠ 0) (model : List UInt8) :
  Owns (close (s.opened context model))
  := by
  rw [owns_iff_of_zero rfl rfl]
  intro c
  rw [close_npu_eq_none hcontext]
  by_cases hc : c = context
  · left
    apply hc
  · right
    rw [Session.opened, Npu.init]
    simp only [Function.update_of_ne hc]
    have hiff := h.alive c
    simpa [hctx] using hiff

/-- A context that is alive stays alive when another one is created. -/
theorem Owns.npu_opened {s : Session} (h : Owns s) (hctx : s.engine.ctx ≠ 0) {context : UInt64}
    (hfresh : s.npu context = none) (model : List UInt8) :
  s.engine.ctx ≠ context ∧ (s.opened context model).npu s.engine.ctx ≠ none
  := by
  have halive := (h.alive s.engine.ctx).mpr ⟨hctx, rfl⟩
  have hne : s.engine.ctx ≠ context := by
    intro heq
    rw [heq] at halive
    apply halive hfresh
  use hne
  rw [Session.opened, Npu.init]
  simpa only [Function.update_of_ne hne] using halive

/-- So the engine does not own its new context. -/
theorem Owns.not_owns_initialized {s : Session} (h : Owns s) (hctx : s.engine.ctx ≠ 0)
    {context : UInt64} (hfresh : s.npu context = none) (model : List UInt8) (io_num : IoNum) :
  ¬ Owns ((s.opened context model).initialized io_num)
  := by
  obtain ⟨hne, halive⟩ := h.npu_opened hctx hfresh model
  intro howns
  apply hne ((howns.alive s.engine.ctx).mp halive).2

/-- And the old context is left when the new one is closed. -/
theorem Owns.not_owns_close_opened {s : Session} (h : Owns s) (hctx : s.engine.ctx ≠ 0)
    {context : UInt64} (hcontext : context ≠ 0) (hfresh : s.npu context = none)
    (model : List UInt8) :
  ¬ Owns (close (s.opened context model))
  := by
  obtain ⟨hne, halive⟩ := h.npu_opened hctx hfresh model
  rw [owns_iff_of_zero rfl rfl]
  intro hnone
  rcases (close_npu_eq_none hcontext _).mp (hnone s.engine.ctx) with hc | hc
  · apply hne hc
  · apply halive hc

/-! ### The invariant -/

/-- A context that is created from bytes is not created from an empty model. -/
theorem Npu.init_ne_nil {npu : Npu} (h : ∀ c, npu c ≠ some []) (context : UInt64)
    {model : List UInt8} (hmodel : model ≠ []) (c : UInt64) :
  npu.init context model c ≠ some []
  := by
  rw [Npu.init]
  by_cases hc : c = context
  · rw [hc, Function.update_self]
    simpa using hmodel
  · rw [Function.update_of_ne hc]
    apply h

/-- An engine that is closed is settled. -/
theorem settled_close {s : Session} (h : ∀ c, s.npu c ≠ some []) :
  Settled (close s)
  := by
  constructor
  · simp [close, default]
  · intro c
    rw [close]
    dsimp only
    split
    · rw [Npu.destroy]
      by_cases hc : c = s.engine.ctx
      · simp [hc]
      · rw [Function.update_of_ne hc]
        apply h
    · apply h

/-- The engine is settled after every call. -/
theorem Settled.step {s : Session} (h : Settled s) (call : Call K) (hfresh : GivesFresh s call) :
  Settled (s.step call)
  := by
  cases call with
  | load path file init query =>
      rw [Session.step]
      have hloads := loads path file init query s
      generalize load path file init query s = r at hloads
      cases hloads with
      | threw hthrows => apply h
      | rejected hthrows hleaves hok => apply h
      | cleared hleaves hmodel hok => exact ⟨h.initialized, h.nonempty⟩
      | failed hleaves hmodel hinit hok => exact ⟨h.initialized, h.nonempty⟩
      | closed hleaves hmodel hinit hok =>
          apply settled_close
          apply Npu.init_ne_nil h.nonempty _ hmodel.ne_nil
      | opened hleaves hmodel hinit =>
          rw [hinit] at hfresh
          constructor
          · apply iff_of_true hfresh.1 rfl
          · apply Npu.init_ne_nil h.nonempty _ hmodel.ne_nil
  | infer answer input output => apply h
  | close => apply settled_close h.nonempty

/-- A call of `load` keeps the ownership exactly when it does not replace a model. -/
theorem Owns.load_iff {s : Session} (h : Owns s) (hs : Settled s) {path : String}
    {file : ModelFile} {init : Option UInt64} {query : Option IoNum}
    (hfresh : GivesFresh s (.load path file init query : Call K)) :
  Owns (s.step (.load path file init query : Call K))
    ↔ ReplacesNoModel s (.load path file init query : Call K)
  := by
  rw [Session.step, ReplacesNoModel]
  have hloads := loads path file init query s
  generalize load path file init query s = r at hloads
  cases hloads with
  | threw hthrows => apply iff_of_true h (fun _ => Or.inl hthrows.leavesData)
  | rejected hthrows hleaves hok => apply iff_of_true h (fun _ => Or.inl hleaves)
  | cleared hleaves hmodel hok =>
      rw [h.withBuffer_iff hs]
      apply imp_congr_right
      intro hctx
      apply iff_of_false
      · apply (h.buffer_ne_nil hs hctx).symm
      · simp [hleaves, hmodel]
  | failed hleaves hmodel hinit hok =>
      rw [h.withBuffer_iff hs]
      apply imp_congr_right
      intro _
      constructor
      · rintro rfl
        right
        exact ⟨hmodel, hinit⟩
      · rintro (hleft | ⟨hdelivers, -⟩)
        · apply absurd hleft hleaves
        · apply hmodel.unique hdelivers
  | closed hleaves hmodel hinit hok =>
      rw [hinit] at hfresh
      by_cases hctx : s.engine.ctx = 0
      · apply iff_of_true _ (fun hne => absurd hctx hne)
        apply owns_close_opened h hctx hfresh.1
      · apply iff_of_false
        · apply h.not_owns_close_opened hctx hfresh.1 hfresh.2
        · simp [hctx, hleaves, hinit]
  | opened hleaves hmodel hinit =>
      rw [hinit] at hfresh
      by_cases hctx : s.engine.ctx = 0
      · apply iff_of_true _ (fun hne => absurd hctx hne)
        apply owns_initialized h hctx hfresh.1
      · apply iff_of_false
        · apply h.not_owns_initialized hctx hfresh.2
        · simp [hctx, hleaves, hinit]

/-- A call keeps the ownership exactly when it does not replace a model. -/
theorem Owns.step_iff {s : Session} (h : Owns s) (hs : Settled s) (call : Call K)
    (hfresh : GivesFresh s call) :
  Owns (s.step call) ↔ ReplacesNoModel s call
  := by
  rcases call with ⟨path, file, init, query⟩ | _ | _
  · apply h.load_iff hs hfresh
  · apply iff_of_true h trivial
  · apply iff_of_true _ trivial
    rw [Session.step, owns_iff_of_zero rfl rfl]
    apply h.released

/-- For every sequence of calls and whatever the file system and the runtime library answer, the
engine owns exactly its context before, between and after the calls, exactly when no call replaces
a model. -/
theorem owns_iff (calls : List (Call K))
    (hfresh : EachCall Session.step GivesFresh Session.start calls) :
  Throughout Session.step Owns Session.start calls
    ↔ EachCall Session.step ReplacesNoModel Session.start calls
  := by
  have hstart : Owns Session.start := by
    rw [owns_iff_of_zero rfl rfl]
    intro context
    rfl
  have hsettled : Settled Session.start := by
    constructor
    · simp [Session.start, default]
    · simp [Session.start]
  have hthroughout := throughout_of_invariant hsettled hfresh (fun s call h => h.step call)
  rw [← throughout_iff_eachCall (P := fun s => Owns s ∧ Settled s) ⟨hstart, hsettled⟩ hfresh]
  · constructor
    · intro h
      apply h.and hthroughout
    · intro h
      apply h.imp (fun s hs => hs.1)
  · intro s call ⟨howns, hs⟩ hcall
    rw [and_iff_left (hs.step call hcall)]
    apply howns.step_iff hs call hcall

/-- A model is loaded, its file is replaced by a directory, whose size no memory can hold, and after
the engine has been closed another model is loaded. -/
theorem owns_iff_reload :
  let calls : List (Call ℚ) :=
    [.load "pipe_model.rknn" (.readable 1 true [7]) (some 1) (some ⟨1, 1⟩),
      .load "pipe_model.rknn" (.readable (2 ^ 63 - 1) false []) none none, .close,
      .load "pipe_model.rknn" (.readable 1 true [8]) (some 1) none]
  EachCall Session.step GivesFresh Session.start calls
    ∧ EachCall Session.step ReplacesNoModel Session.start calls
    ∧ (Throughout Session.step Owns Session.start calls
      ↔ EachCall Session.step ReplacesNoModel Session.start calls)
  := by
  intro calls
  have hfresh : EachCall Session.step GivesFresh Session.start calls := by
    simp only [calls, eachCall_cons, eachCall_nil, and_true]
    refine ⟨⟨by decide, rfl⟩, trivial, trivial, by decide, rfl⟩
  have hreplaces : EachCall Session.step ReplacesNoModel Session.start calls := by
    simp only [calls, eachCall_cons, eachCall_nil, and_true]
    refine ⟨fun hctx => absurd rfl hctx, fun _ => ?_, trivial, fun hctx => absurd rfl hctx⟩
    left
    right
    use by decide
  exact ⟨hfresh, hreplaces, owns_iff calls hfresh⟩

/-- The context of a model is not destroyed when another model is loaded in its place. -/
theorem not_owns_of_second_load :
  ∃ calls : List (Call ℚ),
    calls = [.load "pipe_model.rknn" (.readable 1 true [7]) (some 1) (some ⟨1, 1⟩),
      .load "pipe_model.rknn" (.readable 1 true [7]) (some 2) (some ⟨1, 1⟩)]
    ∧ EachCall Session.step GivesFresh Session.start calls
    ∧ (close (calls.foldl Session.step Session.start)).npu 1 = some [7]
    ∧ ¬ Throughout Session.step Owns Session.start calls
  := by
  refine ⟨_, rfl, ?_, rfl, ?_⟩
  · simp only [eachCall_cons, eachCall_nil, and_true]
    refine ⟨⟨by decide, rfl⟩, by decide, rfl⟩
  · intro h
    have halive := (h _ (List.prefix_refl _)).released 1
    cases halive

end RknnEngine
