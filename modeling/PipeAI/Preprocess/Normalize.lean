import PipeAI.Numeric.While
import Mathlib.Algebra.Group.Nat.Defs
import Mathlib.Algebra.Ring.Int.Defs
import Mathlib.Data.Fin.VecNotation
import Mathlib.Data.Fintype.Basic
import Mathlib.Data.List.Range
import Mathlib.Logic.Function.Basic
import Mathlib.Tactic.FinCases

/-!
# Vectorised normalisation

`neon_normalize` and `normalize_dispatch` subtract the mean from each element of an array and
multiply by the inverse of the standard deviation, four elements at a time and then one by one.
Their indices are of different types, and they test differently for another block.

A `Machine` has the arrays in memory, the index of the loop, and a record of the elements that have
been read and written and of the sums that have been computed for the index.  The operations on
floating-point values are arbitrary.

Both functions end, read and write each index below the length once, compute no sum beyond the
type of the index, and leave the memory as the plain loop does, also in place
(`Normalize.agree`).
-/

namespace Normalize

/-! ### The machine -/

/-- An array of `float`, which is in the address space. -/
structure Floats (V : Type) where
  data : List V
  bounded : 4 * data.length < 2 ^ 64

/-- The state of a function: the arrays, the elements read and written so far, the sums computed for
the index, and the index. -/
structure Machine (ι V : Type) where
  mem : ι → List V
  reads : List (ι × ℤ)
  writes : List (ι × ℤ)
  sums : List ℤ
  index : ℤ

variable {ι V : Type}

/-- The state at the start of a function. -/
def Machine.start (arrays : ι → Floats V) : Machine ι V where
  mem := fun a => (arrays a).data
  reads := []
  writes := []
  sums := []
  index := 0

/-- The read of an element. -/
def load (a : ι) (i : ℤ) (s : Machine ι V) : Option (V × Machine ι V) :=
  if 0 ≤ i then
    ((s.mem a)[i.toNat]?).map (fun v => (v, { s with reads := s.reads ++ [(a, i)] }))
  else none

/-- The write of an element. -/
def store [DecidableEq ι] (a : ι) (i : ℤ) (v : V) (s : Machine ι V) : Option (Machine ι V) :=
  if 0 ≤ i ∧ i.toNat < (s.mem a).length then
    some { s with
      mem := Function.update s.mem a ((s.mem a).set i.toNat v)
      writes := s.writes ++ [(a, i)] }
  else none

/-- `float32x4_t`. -/
abbrev Float32x4 (V : Type) : Type := Fin 4 → V

/-- `vld1q_f32`. -/
def vld1q (a : ι) (i : ℤ) (s : Machine ι V) : Option (Float32x4 V × Machine ι V) := do
  let (x₀, s) ← load a i s
  let (x₁, s) ← load a (i + 1) s
  let (x₂, s) ← load a (i + 2) s
  let (x₃, s) ← load a (i + 3) s
  return (![x₀, x₁, x₂, x₃], s)

/-- `vst1q_f32`. -/
def vst1q [DecidableEq ι] (a : ι) (i : ℤ) (x : Float32x4 V) (s : Machine ι V) :
    Option (Machine ι V) := do
  let s ← store a i (x 0) s
  let s ← store a (i + 1) (x 1) s
  let s ← store a (i + 2) (x 2) s
  store a (i + 3) (x 3) s

/-- `vdupq_n_f32`. -/
def vdupq (v : V) : Float32x4 V := fun _ => v

/-- `vsubq_f32`. -/
def vsubq [Sub V] (x y : Float32x4 V) : Float32x4 V := fun l => x l - y l

/-- `vmulq_f32`. -/
def vmulq [Mul V] (x y : Float32x4 V) : Float32x4 V := fun l => x l * y l

/-! ### The code -/

/-- The integer type of an index: its arithmetic, and the bound of its values. -/
structure IndexType where
  wrap : ℤ → ℤ
  bound : ℤ

/-- `std::size_t`. -/
def sizeT : IndexType := ⟨fun k => k % 2 ^ 64, 2 ^ 64⟩

/-- `int`. -/
def int : IndexType := ⟨fun k => k.bmod (2 ^ 32), 2 ^ 31⟩

/-- A sum computed for the index. -/
def Machine.sum (I : IndexType) (k : ℤ) (s : Machine ι V) : ℤ × Machine ι V :=
  (I.wrap (s.index + k), { s with sums := s.sums ++ [s.index + k] })

/-- The increment of the index. -/
def Machine.advance (I : IndexType) (k : ℤ) (s : Machine ι V) : Machine ι V :=
  { (s.sum I k).2 with index := (s.sum I k).1 }

section Code

variable [DecidableEq ι] [Sub V] [Mul V] (I : IndexType) (inp out : ι) (mean inv_std : V)

/-- The test for another block, of the sum of the index and `ahead`. -/
def blockTest (ahead : ℤ) (more : ℤ → Bool) (s : Machine ι V) : Bool × Machine ι V :=
  (more (s.sum I ahead).1, (s.sum I ahead).2)

/-- A block of four elements. -/
def blockBody (s : Machine ι V) : Option (Machine ι V) := do
  let (x, s) ← vld1q inp s.index s
  let x := vsubq x (vdupq mean)
  let x := vmulq x (vdupq inv_std)
  let s ← vst1q out s.index x s
  return s.advance I 4

/-- The loop over blocks of four elements. -/
def blockLoop (ahead : ℤ) (more : ℤ → Bool) : ℕ → Machine ι V → Option (Machine ι V) :=
  whileLoop (blockTest I ahead more) (blockBody I inp out mean inv_std)

/-- The test for another element. -/
def scalarTest (n : ℤ) (s : Machine ι V) : Bool × Machine ι V :=
  (decide (s.index < n), s)

/-- A single element. -/
def scalarBody (s : Machine ι V) : Option (Machine ι V) := do
  let (x, s) ← load inp s.index s
  let s ← store out s.index ((x - mean) * inv_std) s
  return s.advance I 1

/-- The loop over single elements. -/
def scalarLoop (n : ℤ) : ℕ → Machine ι V → Option (Machine ι V) :=
  whileLoop (scalarTest n) (scalarBody I inp out mean inv_std)

/-- `neon_normalize` with `__ARM_NEON`, from its start. -/
def neonNormalize (n : UInt64) (fuel : ℕ) (s : Machine ι V) : Option (Machine ι V) :=
  (blockLoop sizeT inp out mean inv_std 4 (fun k => decide (k ≤ n.toNat)) fuel s).bind
    (scalarLoop sizeT inp out mean inv_std n.toNat fuel)

/-- `neon_normalize` without `__ARM_NEON`. -/
def plainNormalize (n : UInt64) (fuel : ℕ) (s : Machine ι V) : Option (Machine ι V) :=
  scalarLoop sizeT inp out mean inv_std n.toNat fuel s

/-- `normalize_dispatch` with `__ARM_NEON`, from its start. -/
def normalizeDispatch (n : Int32) (fuel : ℕ) (s : Machine ι V) : Option (Machine ι V) :=
  (blockLoop int inp out mean inv_std 3 (fun k => decide (k < n.toInt)) fuel s).bind
    (scalarLoop int inp out mean inv_std n.toInt fuel)

/-- `normalize_dispatch` without `__ARM_NEON`. -/
def plainDispatch (n : Int32) (fuel : ℕ) (s : Machine ι V) : Option (Machine ι V) :=
  scalarLoop int inp out mean inv_std n.toInt fuel s

end Code

/-! ### Progress -/

/-- The elements `0, …, n - 1` of an array, in order. -/
def indices (a : ι) (n : ℕ) : List (ι × ℤ) :=
  (List.range n).map (fun i : ℕ => (a, (i : ℤ)))

theorem indices_succ (a : ι) (n : ℕ) :
  indices a (n + 1) = indices a n ++ [(a, (n : ℤ))]
  := by
  rw [indices, List.range_succ, List.map_append]
  rfl

theorem length_map_take (f : V → V) {w : ℕ} {xs : List V} (h : w ≤ xs.length) :
  ((xs.take w).map f).length = w
  := by
  rw [List.length_map, List.length_take_of_le h]

section Progress

variable [DecidableEq ι] [Sub V] [Mul V] (I : IndexType) (arrays : ι → Floats V) (inp out : ι)
  (mean inv_std : V)

/-- The memory when the first `w` elements have been written. -/
def normalized (w : ℕ) : ι → List V :=
  Function.update (fun a => (arrays a).data) out
    (((arrays inp).data.take w).map (fun x => (x - mean) * inv_std) ++ (arrays out).data.drop w)

/-- The first `r` elements have been read, and the first `w` written, in order, and all sums are in
the range of the type. -/
structure Reached (r w : ℕ) (s : Machine ι V) : Prop where
  mem : s.mem = normalized arrays inp out mean inv_std w
  reads : s.reads = indices inp r
  writes : s.writes = indices out w
  sums : ∀ k ∈ s.sums, 0 ≤ k ∧ k < I.bound

variable {I arrays inp out mean inv_std}

/-- The elements that have not been written are still the ones at the start, also in place. -/
theorem getElem?_normalized {w i : ℕ} (h : w ≤ i) {x : V} (hx : (arrays inp).data[i]? = some x) :
  (normalized arrays inp out mean inv_std w inp)[i]? = some x
  := by
  have hlt : i < (arrays inp).data.length := (List.getElem?_eq_some_iff.mp hx).1
  rw [normalized, Function.update_apply]
  split
  · rename_i heq
    have hlen := length_map_take (fun x => (x - mean) * inv_std) (h.trans hlt.le)
    rw [List.getElem?_append_right (by omega), hlen, List.getElem?_drop, ← heq, ← hx]
    congr 1
    omega
  · apply hx

/-- The next element that is read is the one at the start. -/
theorem Reached.load {r w : ℕ} {s : Machine ι V}
    (h : Reached I arrays inp out mean inv_std r w s) (hwr : w ≤ r) {x : V}
    (hx : (arrays inp).data[r]? = some x) :
  ∃ s', load inp r s = some (x, s') ∧ Reached I arrays inp out mean inv_std (r + 1) w s'
    ∧ s'.index = s.index
  := by
  refine ⟨{ s with reads := s.reads ++ [(inp, (r : ℤ))] }, ?_, ?_, rfl⟩
  · rw [Normalize.load, if_pos (by omega), Int.toNat_natCast, h.mem, getElem?_normalized hwr hx]
    rfl
  · refine ⟨h.mem, ?_, h.writes, h.sums⟩
    rw [indices_succ, ← h.reads]

/-- The memory after the next element has been written. -/
theorem normalized_succ (mean inv_std : V) {w : ℕ} {x : V} (hx : (arrays inp).data[w]? = some x)
    (hw : w < (arrays out).data.length) :
  w < (normalized arrays inp out mean inv_std w out).length
    ∧ Function.update (normalized arrays inp out mean inv_std w) out
        ((normalized arrays inp out mean inv_std w out).set w ((x - mean) * inv_std))
      = normalized arrays inp out mean inv_std (w + 1)
  := by
  obtain ⟨hlt, rfl⟩ := List.getElem?_eq_some_iff.mp hx
  have hlen := length_map_take (fun x => (x - mean) * inv_std) hlt.le
  rw [normalized, normalized, Function.update_self, Function.update_idem]
  constructor
  · rw [List.length_append, hlen, List.length_drop]
    omega
  · congr 1
    rw [List.set_append_right _ _ (by omega), hlen, Nat.sub_self, List.drop_eq_getElem_cons hw,
      List.set_cons_zero, List.take_succ_eq_append_getElem hlt, List.map_append,
      List.append_assoc]
    rfl

/-- The next element is written with its normalised value. -/
theorem Reached.store {r w : ℕ} {s : Machine ι V}
    (h : Reached I arrays inp out mean inv_std r w s) {x : V}
    (hx : (arrays inp).data[w]? = some x) (hw : w < (arrays out).data.length) :
  ∃ s', store out w ((x - mean) * inv_std) s = some s'
    ∧ Reached I arrays inp out mean inv_std r (w + 1) s' ∧ s'.index = s.index
  := by
  obtain ⟨hlt, hupdate⟩ := normalized_succ mean inv_std hx hw
  rw [Normalize.store, h.mem, Int.toNat_natCast, if_pos ⟨by omega, hlt⟩, hupdate]
  refine ⟨_, rfl, ⟨rfl, h.reads, ?_, h.sums⟩, rfl⟩
  rw [indices_succ, ← h.writes]

/-- The next four elements are read. -/
theorem Reached.vld1q {r w : ℕ} {s : Machine ι V}
    (h : Reached I arrays inp out mean inv_std r w s) (hwr : w ≤ r)
    (hr : r + 4 ≤ (arrays inp).data.length) :
  ∃ (x : Float32x4 V) (s' : Machine ι V), vld1q inp r s = some (x, s')
    ∧ (∀ l : Fin 4, (arrays inp).data[r + l]? = some (x l))
    ∧ Reached I arrays inp out mean inv_std (r + 4) w s' ∧ s'.index = s.index
  := by
  have hx : ∀ l : Fin 4, ∃ x, (arrays inp).data[r + l]? = some x := by
    intro l
    exact ⟨_, List.getElem?_eq_getElem (by omega)⟩
  choose x hx using hx
  obtain ⟨s₁, hs₁, h₁, hi₁⟩ := h.load hwr (hx 0)
  obtain ⟨s₂, hs₂, h₂, hi₂⟩ := h₁.load (by omega) (hx 1)
  obtain ⟨s₃, hs₃, h₃, hi₃⟩ := h₂.load (by omega) (hx 2)
  obtain ⟨s₄, hs₄, h₄, hi₄⟩ := h₃.load (by omega) (hx 3)
  refine ⟨x, s₄, ?_, hx, h₄, by rw [hi₄, hi₃, hi₂, hi₁]⟩
  have hlanes : ![x 0, x 1, x 2, x 3] = x := by
    funext l
    fin_cases l <;> rfl
  rw [Normalize.vld1q, hs₁]
  simp only [Option.bind_eq_bind, Option.bind_some]
  rw [show (r : ℤ) + 1 = ((r + 1 : ℕ) : ℤ) by omega, hs₂, Option.bind_some,
    show (r : ℤ) + 2 = ((r + 2 : ℕ) : ℤ) by omega, hs₃, Option.bind_some,
    show (r : ℤ) + 3 = ((r + 3 : ℕ) : ℤ) by omega, hs₄, Option.bind_some, hlanes]
  rfl

/-- The next four elements are written with their normalised values. -/
theorem Reached.vst1q {r w : ℕ} {s : Machine ι V}
    (h : Reached I arrays inp out mean inv_std r w s) {x : Float32x4 V}
    (hx : ∀ l : Fin 4, (arrays inp).data[w + l]? = some (x l))
    (hw : w + 4 ≤ (arrays out).data.length) :
  ∃ s', vst1q out w (vmulq (vsubq x (vdupq mean)) (vdupq inv_std)) s = some s'
    ∧ Reached I arrays inp out mean inv_std r (w + 4) s' ∧ s'.index = s.index
  := by
  obtain ⟨s₁, hs₁, h₁, hi₁⟩ := h.store (hx 0) (by omega)
  obtain ⟨s₂, hs₂, h₂, hi₂⟩ := h₁.store (hx 1) (by omega)
  obtain ⟨s₃, hs₃, h₃, hi₃⟩ := h₂.store (hx 2) (by omega)
  obtain ⟨s₄, hs₄, h₄, hi₄⟩ := h₃.store (hx 3) (by omega)
  refine ⟨s₄, ?_, h₄, by rw [hi₄, hi₃, hi₂, hi₁]⟩
  simp only [Normalize.vst1q, vmulq, vsubq, vdupq, Option.bind_eq_bind]
  rw [hs₁, Option.bind_some, show (w : ℤ) + 1 = ((w + 1 : ℕ) : ℤ) by omega, hs₂, Option.bind_some,
    show (w : ℤ) + 2 = ((w + 2 : ℕ) : ℤ) by omega, hs₃, Option.bind_some,
    show (w : ℤ) + 3 = ((w + 3 : ℕ) : ℤ) by omega, hs₄]

/-- A sum in the range of the type is computed exactly. -/
theorem Reached.sum {r w : ℕ} {s : Machine ι V}
    (h : Reached I arrays inp out mean inv_std r w s)
    (hI : ∀ k, 0 ≤ k → k < I.bound → I.wrap k = k) {k : ℤ} (hlo : 0 ≤ s.index + k)
    (hhi : s.index + k < I.bound) :
  (s.sum I k).1 = s.index + k ∧ Reached I arrays inp out mean inv_std r w (s.sum I k).2
  := by
  constructor
  · apply hI _ hlo hhi
  · refine ⟨h.mem, h.reads, h.writes, ?_⟩
    intro k' hk'
    rcases List.mem_append.mp hk' with hk' | hk'
    · apply h.sums k' hk'
    · rw [List.mem_singleton.mp hk']
      exact ⟨hlo, hhi⟩

/-! ### Loops -/

/-- The first `k` of `n` elements have been read and written, and `k` is the index. -/
structure AtIndex (I : IndexType) (arrays : ι → Floats V) (inp out : ι) (mean inv_std : V)
    (n k : ℕ) (s : Machine ι V) : Prop where
  reached : Reached I arrays inp out mean inv_std k k s
  index : s.index = k
  le : k ≤ n

section Loops

variable {n : ℕ} (hinp : n ≤ (arrays inp).data.length) (hout : n ≤ (arrays out).data.length)
  (hI : ∀ k, 0 ≤ k → k < I.bound → I.wrap k = k) (hbound : (n : ℤ) < I.bound)

include hI hbound

/-- The index is advanced to a number of elements that have been read and written. -/
theorem AtIndex.advance {k j : ℕ} {s : Machine ι V}
    (h : Reached I arrays inp out mean inv_std (k + j) (k + j) s) (hindex : s.index = k)
    (hle : k + j ≤ n) :
  AtIndex I arrays inp out mean inv_std n (k + j) (s.advance I j)
  := by
  obtain ⟨hsum, hreached⟩ := h.sum hI (k := (j : ℤ)) (by omega) (by omega)
  refine ⟨⟨hreached.mem, hreached.reads, hreached.writes, hreached.sums⟩, ?_, hle⟩
  rw [Machine.advance]
  simp only [hsum, hindex]
  omega

include hinp hout

/-- A single element is read and written. -/
theorem scalarBody_spec {k : ℕ} {s : Machine ι V}
    (hs : AtIndex I arrays inp out mean inv_std n k s) (hk : k < n) :
  ∃ s', scalarBody I inp out mean inv_std s = some s'
    ∧ AtIndex I arrays inp out mean inv_std n (k + 1) s'
  := by
  obtain ⟨x, hx⟩ : ∃ x, (arrays inp).data[k]? = some x :=
    ⟨_, List.getElem?_eq_getElem (by omega)⟩
  obtain ⟨s₁, hload, h₁, hi₁⟩ := hs.reached.load le_rfl hx
  obtain ⟨s₂, hstore, h₂, hi₂⟩ := h₁.store hx (by omega)
  refine ⟨s₂.advance I 1, ?_, ?_⟩
  · simp only [scalarBody, Option.bind_eq_bind, hs.index, hload, Option.bind_some, hi₁, hstore]
    rfl
  · apply AtIndex.advance hI hbound h₂ (by rw [hi₂, hi₁, hs.index]) (by omega)

/-- A block of four elements is read and written. -/
theorem blockBody_spec {k : ℕ} {s : Machine ι V}
    (hs : Reached I arrays inp out mean inv_std k k s) (hindex : s.index = k) (hk : k + 4 ≤ n) :
  ∃ s', blockBody I inp out mean inv_std s = some s'
    ∧ AtIndex I arrays inp out mean inv_std n (k + 4) s'
  := by
  obtain ⟨x, s₁, hload, hx, h₁, hi₁⟩ := hs.vld1q le_rfl (by omega)
  obtain ⟨s₂, hstore, h₂, hi₂⟩ := h₁.vst1q hx (by omega)
  refine ⟨s₂.advance I 4, ?_, ?_⟩
  · simp only [blockBody, Option.bind_eq_bind, hindex, hload, Option.bind_some, hi₁, hstore]
    rfl
  · apply AtIndex.advance hI hbound h₂ (by rw [hi₂, hi₁, hindex]) hk

/-- The loop over single elements ends when all have been read and written. -/
theorem scalarLoop_spec {k : ℕ} {s : Machine ι V}
    (hs : AtIndex I arrays inp out mean inv_std n k s) :
  ∃ s', Reached I arrays inp out mean inv_std n n s'
    ∧ ∀ fuel, n < fuel → scalarLoop I inp out mean inv_std n fuel s = some s'
  := by
  have hbody : ∀ s s₁, (∃ k, AtIndex I arrays inp out mean inv_std n k s) →
      scalarTest n s = (true, s₁) → ∃ s', scalarBody I inp out mean inv_std s₁ = some s'
        ∧ (∃ k, AtIndex I arrays inp out mean inv_std n k s')
        ∧ ((n : ℤ) - s'.index).toNat < ((n : ℤ) - s.index).toNat := by
    rintro s s₁ ⟨k, hk⟩ htest
    rw [scalarTest, Prod.mk.injEq, decide_eq_true_eq, hk.index] at htest
    obtain ⟨hlt, rfl⟩ := htest
    obtain ⟨s', hbody, hs'⟩ := scalarBody_spec hinp hout hI hbound hk (by omega)
    refine ⟨s', hbody, ⟨k + 1, hs'⟩, ?_⟩
    rw [hs'.index, hk.index]
    omega
  have hexit : ∀ s s₁, (∃ k, AtIndex I arrays inp out mean inv_std n k s) →
      scalarTest n s = (false, s₁) → Reached I arrays inp out mean inv_std n n s₁ := by
    rintro s s₁ ⟨k, hk⟩ htest
    rw [scalarTest, Prod.mk.injEq, decide_eq_false_iff_not, hk.index] at htest
    obtain ⟨hge, rfl⟩ := htest
    have hle := hk.le
    obtain rfl : k = n := by omega
    apply hk.reached
  obtain ⟨s', hs', hloop⟩ := whileLoop_spec _ _ (fun s => ((n : ℤ) - s.index).toNat) hbody hexit
    ⟨k, hs⟩
  use s', hs'
  intro fuel hfuel
  apply hloop fuel
  have hindex := hs.index
  omega

/-- The loop over blocks ends at a number of elements that have been read and written, if the test
is whether another block is left. -/
theorem blockLoop_spec {ahead : ℤ} {more : ℤ → Bool}
    (hahead : ∀ k : ℕ, 4 ∣ k → k ≤ n → 0 ≤ k + ahead ∧ k + ahead < I.bound
      ∧ (more (k + ahead) = true ↔ k + 4 ≤ n)) {s : Machine ι V}
    (hs : AtIndex I arrays inp out mean inv_std n 0 s) :
  ∃ s' k, AtIndex I arrays inp out mean inv_std n k s'
    ∧ ∀ fuel, n < fuel → blockLoop I inp out mean inv_std ahead more fuel s = some s'
  := by
  have htest : ∀ {s : Machine ι V} {k : ℕ}, AtIndex I arrays inp out mean inv_std n k s → 4 ∣ k →
      (s.sum I ahead).1 = k + ahead
        ∧ Reached I arrays inp out mean inv_std k k (s.sum I ahead).2 := by
    intro s k hk hdvd
    obtain ⟨hlo, hhi, -⟩ := hahead k hdvd hk.le
    have hsum := hk.reached.sum hI (k := ahead) (by rw [hk.index]; apply hlo)
      (by rw [hk.index]; apply hhi)
    rw [hk.index] at hsum
    apply hsum
  have hbody : ∀ s s₁, (∃ k, 4 ∣ k ∧ AtIndex I arrays inp out mean inv_std n k s) →
      blockTest I ahead more s = (true, s₁) →
      ∃ s', blockBody I inp out mean inv_std s₁ = some s'
        ∧ (∃ k, 4 ∣ k ∧ AtIndex I arrays inp out mean inv_std n k s')
        ∧ ((n : ℤ) - s'.index).toNat < ((n : ℤ) - s.index).toNat := by
    rintro s s₁ ⟨k, hdvd, hk⟩ hmore
    obtain ⟨hsum, hreached⟩ := htest hk hdvd
    rw [blockTest, Prod.mk.injEq, hsum, (hahead k hdvd hk.le).2.2] at hmore
    obtain ⟨hle, rfl⟩ := hmore
    obtain ⟨s', hbody, hs'⟩ := blockBody_spec hinp hout hI hbound hreached hk.index hle
    refine ⟨s', hbody, ⟨k + 4, Nat.dvd_add hdvd (Nat.dvd_refl 4), hs'⟩, ?_⟩
    rw [hs'.index, hk.index]
    omega
  have hexit : ∀ s s₁, (∃ k, 4 ∣ k ∧ AtIndex I arrays inp out mean inv_std n k s) →
      blockTest I ahead more s = (false, s₁) →
      ∃ k, AtIndex I arrays inp out mean inv_std n k s₁ := by
    rintro s s₁ ⟨k, hdvd, hk⟩ hmore
    rw [blockTest, Prod.mk.injEq] at hmore
    obtain ⟨-, rfl⟩ := hmore
    exact ⟨k, (htest hk hdvd).2, hk.index, hk.le⟩
  obtain ⟨s', ⟨k, hs'⟩, hloop⟩ := whileLoop_spec _ _ (fun s => ((n : ℤ) - s.index).toNat) hbody
    hexit ⟨0, Nat.dvd_zero 4, hs⟩
  use s', k, hs'
  intro fuel hfuel
  apply hloop fuel
  have hindex := hs.index
  omega

end Loops

/-- Nothing has been read or written at the start. -/
theorem atIndex_start (I : IndexType) (arrays : ι → Floats V) (inp out : ι) (mean inv_std : V)
    (n : ℕ) :
  AtIndex I arrays inp out mean inv_std n 0 (.start arrays)
  := by
  refine ⟨⟨?_, rfl, rfl, ?_⟩, rfl, Nat.zero_le n⟩
  · rw [normalized, List.take_zero, List.map_nil, List.nil_append, List.drop_zero,
      Function.update_eq_self]
    rfl
  · intro k hk
    cases hk

/-! ### Agreement -/

/-- With any fuel above `n`, the vectorised function ends: it has read and written each index below
`n` once, in order, its sums are in the range of the type, and the memory has the normalised values
in the first `n` elements of `out`, and is the one that the plain function leaves. -/
def Agrees (I : IndexType) (arrays : ι → Floats V) (inp out : ι) (mean inv_std : V) (n : ℕ)
    (vectorised plain : ℕ → Machine ι V → Option (Machine ι V)) : Prop :=
  ∃ s s', (∀ fuel, n < fuel → vectorised fuel (.start arrays) = some s)
    ∧ (∀ fuel, n < fuel → plain fuel (.start arrays) = some s')
    ∧ s.reads = indices inp n ∧ s.writes = indices out n
    ∧ (∀ k ∈ s.sums, 0 ≤ k ∧ k < I.bound)
    ∧ s.mem = normalized arrays inp out mean inv_std n ∧ s.mem = s'.mem

/-- Blocks and then single elements agree with single elements, if the test is whether another block
is left. -/
theorem agrees_of_ahead {n : ℕ} (hinp : n ≤ (arrays inp).data.length)
    (hout : n ≤ (arrays out).data.length) (hI : ∀ k, 0 ≤ k → k < I.bound → I.wrap k = k)
    (hbound : (n : ℤ) < I.bound) {ahead : ℤ} {more : ℤ → Bool}
    (hahead : ∀ k : ℕ, 4 ∣ k → k ≤ n → 0 ≤ k + ahead ∧ k + ahead < I.bound
      ∧ (more (k + ahead) = true ↔ k + 4 ≤ n)) :
  Agrees I arrays inp out mean inv_std n
    (fun fuel s => (blockLoop I inp out mean inv_std ahead more fuel s).bind
      (scalarLoop I inp out mean inv_std n fuel))
    (scalarLoop I inp out mean inv_std n)
  := by
  have hstart := atIndex_start I arrays inp out mean inv_std n
  obtain ⟨s₁, k, hs₁, hblocks⟩ := blockLoop_spec hinp hout hI hbound hahead hstart
  obtain ⟨s₂, hs₂, htail⟩ := scalarLoop_spec hinp hout hI hbound hs₁
  obtain ⟨s₃, hs₃, hplain⟩ := scalarLoop_spec hinp hout hI hbound hstart
  refine ⟨s₂, s₃, ?_, hplain, hs₂.reads, hs₂.writes, hs₂.sums, hs₂.mem, ?_⟩
  · intro fuel hfuel
    simp only [hblocks fuel hfuel, Option.bind_some, htail fuel hfuel]
  · rw [hs₂.mem, hs₃.mem]

/-- Both functions agree with the plain loop, for every length of which there are elements in both
arrays, which may be the same. -/
theorem agree (arrays : ι → Floats V) (inp out : ι) (mean inv_std : V) :
  (∀ n : UInt64, n.toNat ≤ (arrays inp).data.length → n.toNat ≤ (arrays out).data.length →
      Agrees sizeT arrays inp out mean inv_std n.toNat (neonNormalize inp out mean inv_std n)
        (plainNormalize inp out mean inv_std n))
    ∧ ∀ n : Int32, 0 ≤ n → n.toInt.toNat ≤ (arrays inp).data.length →
      n.toInt.toNat ≤ (arrays out).data.length →
      Agrees int arrays inp out mean inv_std n.toInt.toNat
        (normalizeDispatch inp out mean inv_std n) (plainDispatch inp out mean inv_std n)
  := by
  constructor
  · intro n hinp hout
    have hbounded := (arrays inp).bounded
    apply agrees_of_ahead hinp hout
    · intro k hlo hhi
      apply Int.emod_eq_of_lt hlo hhi
    · simp only [sizeT]
      omega
    · intro k _ hk
      simp only [sizeT, decide_eq_true_eq]
      omega
  · intro n hn hinp hout
    have hlt := n.toInt_lt
    have hpos : 0 ≤ n.toInt := by
      rw [Int32.le_iff_toInt_le] at hn
      apply hn
    have hcast : ((n.toInt.toNat : ℕ) : ℤ) = n.toInt := Int.toNat_of_nonneg hpos
    have hvector : normalizeDispatch inp out mean inv_std n
        = fun fuel s => (blockLoop int inp out mean inv_std 3 (fun k => decide (k < n.toInt))
          fuel s).bind (scalarLoop int inp out mean inv_std (n.toInt.toNat : ℕ) fuel) := by
      rw [hcast]
      rfl
    have hplain : plainDispatch inp out mean inv_std n
        = scalarLoop int inp out mean inv_std (n.toInt.toNat : ℕ) := by
      rw [hcast]
      rfl
    rw [hvector, hplain]
    apply agrees_of_ahead hinp hout
    · intro k hlo hhi
      simp only [int] at hhi ⊢
      rw [Int.bmod_eq_of_le] <;> omega
    · simp only [int]
      omega
    · intro k hdvd hk
      simp only [int, decide_eq_true_eq]
      omega

/-- The theorem for an array of five elements, in place. -/
theorem agree_five :
  Agrees sizeT (fun _ : Unit => ⟨[1, 2, 3, 4, 5], by decide⟩) () () (3 : ℤ) 2 5
      (neonNormalize () () 3 2 5) (plainNormalize () () 3 2 5)
    ∧ Agrees int (fun _ : Unit => ⟨[1, 2, 3, 4, 5], by decide⟩) () () (3 : ℤ) 2 5
      (normalizeDispatch () () 3 2 5) (plainDispatch () () 3 2 5)
  := by
  constructor
  · exact (agree (fun _ : Unit => ⟨[1, 2, 3, 4, 5], by decide⟩) () () (3 : ℤ) 2).1 5
      (by decide) (by decide)
  · exact (agree (fun _ : Unit => ⟨[1, 2, 3, 4, 5], by decide⟩) () () (3 : ℤ) 2).2 5
      (by decide) (by decide) (by decide)

end Progress

end Normalize
