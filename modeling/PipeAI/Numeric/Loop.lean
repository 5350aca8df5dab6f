import Mathlib.Data.Fin.Tuple.Basic
import Mathlib.Data.List.Basic

/-!
# Counted loops over arrays

`forFin n body s` runs the body at `0, …, n - 1` in order from the state `s`; the body may
fail, and then the loop fails.  An invariant that each iteration keeps, without failing, holds
at the end of the loop (`forFin_spec`).

`write` is an assignment to an element of an array given as a list, and fails outside of it,
as the read `xs[i]?` does.  `fillRange` assigns to a range of indices values that do not
depend on the array.  `table n f` is the array of the values `f i`.  `mapInto f s d n` applies
`f` to the first `n` elements of one array and assigns the values to those of another one.
-/

universe u v

/-- The loop over `0, …, n - 1`. -/
def forFin {σ : Type u} : (n : ℕ) → (Fin n → σ → Option σ) → σ → Option σ
  | 0, _, s => some s
  | n + 1, body, s => (forFin n (fun i => body i.castSucc) s).bind (body (Fin.last n))

/-- An invariant that holds at the start of a loop, and that each iteration keeps without
failing, holds at its end, and the loop does not fail. -/
theorem forFin_spec {σ : Type u} {n : ℕ} (body : Fin n → σ → Option σ) (s : σ)
    (P : ℕ → σ → Prop) (hinit : P 0 s)
    (hstep : ∀ (i : Fin n) (s : σ), P i s → ∃ s', body i s = some s' ∧ P (i + 1) s') :
  ∃ s', forFin n body s = some s' ∧ P n s'
  := by
  induction n with
  | zero => exact ⟨s, rfl, hinit⟩
  | succ n ih =>
      obtain ⟨s₁, hs₁, hP₁⟩ := ih (fun i => body i.castSucc) (fun i s => hstep i.castSucc s)
      obtain ⟨s₂, hs₂, hP₂⟩ := hstep (Fin.last n) s₁ hP₁
      use s₂
      rw [forFin, hs₁, Option.bind_some, hs₂]
      exact ⟨rfl, hP₂⟩

variable {α : Type u}

/-- The assignment of `v` to the element `i`. -/
def write (xs : List α) (i : ℕ) (v : α) : Option (List α) :=
  if i < xs.length then some (xs.set i v) else none

/-- An assignment within the array succeeds. -/
theorem write_eq {xs : List α} {i : ℕ} (v : α) (h : i < xs.length) :
  write xs i v = some (xs.set i v)
  := if_pos h

/-- The assignment of `f i` to the elements `i` of a range, given by its first index and its
length, in increasing order. -/
def fillRange (xs : List α) (lo : ℕ) (f : ℕ → α) : ℕ → List α
  | 0 => xs
  | n + 1 => (fillRange xs lo f n).set (lo + n) (f (lo + n))

@[simp]
theorem length_fillRange (xs : List α) (lo : ℕ) (f : ℕ → α) (n : ℕ) :
  (fillRange xs lo f n).length = xs.length
  := by
  induction n with
  | zero => rfl
  | succ n ih => rw [fillRange, List.length_set, ih]

/-- The elements outside the range stay. -/
theorem getElem?_fillRange_of_notMem (xs : List α) {lo : ℕ} (f : ℕ → α) {n i : ℕ}
    (h : i < lo ∨ lo + n ≤ i) :
  (fillRange xs lo f n)[i]? = xs[i]?
  := by
  induction n with
  | zero => rfl
  | succ n ih =>
      rw [fillRange, List.getElem?_set_ne (by omega)]
      apply ih
      omega

/-- The elements of the range hold the values assigned to them. -/
theorem getElem?_fillRange_of_mem (xs : List α) {lo : ℕ} (f : ℕ → α) {n i : ℕ}
    (hlo : lo ≤ i) (hi : i < lo + n) (hlen : i < xs.length) :
  (fillRange xs lo f n)[i]? = some (f i)
  := by
  induction n with
  | zero => omega
  | succ n ih =>
      rw [fillRange]
      by_cases h : i = lo + n
      · subst h
        rw [List.getElem?_set_self (by simpa using hlen)]
      · rw [List.getElem?_set_ne (by omega)]
        apply ih
        omega

/-- The array of length `n` with the element `f i` at `i`. -/
def table (n : ℕ) (f : ℕ → α) : List α :=
  (List.range n).map f

@[simp]
theorem length_table (n : ℕ) (f : ℕ → α) :
  (table n f).length = n
  := by
  simp [table]

theorem getElem?_table {n : ℕ} (f : ℕ → α) {i : ℕ} (h : i < n) :
  (table n f)[i]? = some (f i)
  := by
  simp [table, h]

/-- An array is given by its length and its elements. -/
theorem eq_table {xs : List α} {n : ℕ} {f : ℕ → α} (hlen : xs.length = n)
    (h : ∀ i, i < n → xs[i]? = some (f i)) :
  xs = table n f
  := by
  apply List.ext_getElem?
  intro i
  by_cases hi : i < n
  · rw [h i hi, getElem?_table f hi]
  · rw [List.getElem?_eq_none (by omega), List.getElem?_eq_none (by simpa using hi)]

/-- The first element of a table. -/
theorem head?_table (f : ℕ → α) {n : ℕ} (h : 0 < n) :
  (table n f).head? = some (f 0)
  := by
  rw [List.head?_eq_getElem?, getElem?_table f h]

/-- The last element of a table. -/
theorem getLast?_table (f : ℕ → α) {n : ℕ} (h : 0 < n) :
  (table n f).getLast? = some (f (n - 1))
  := by
  rw [List.getLast?_eq_getElem?, length_table, getElem?_table f (by omega)]

@[simp]
theorem map_table {β : Type u} (n : ℕ) (f : ℕ → α) (g : α → β) :
  (table n f).map g = table n (fun i => g (f i))
  := by
  simp [table]

/-- An element within the bounds is the one that the default stands in for. -/
theorem getElem?_eq_getD {xs : List α} {i : ℕ} (hi : i < xs.length) (d : α) :
  xs[i]? = some (xs.getD i d)
  := by
  rw [List.getD_eq_getElem?_getD, List.getElem?_eq_getElem hi, Option.getD_some]

/-- The images of the elements of an array. -/
theorem map_eq_table {β : Type u} (xs : List β) (f : β → α) (d : β) :
  xs.map f = table xs.length (fun i => f (xs.getD i d))
  := by
  apply eq_table (List.length_map f)
  intro i hi
  rw [List.getElem?_map, getElem?_eq_getD hi d, Option.map_some]

/-- A loop that assigns `f i` to the element `i`, for all elements in order, computes the
array of the values `f i`. -/
theorem forFin_write {n : ℕ} {body : Fin n → List α → Option (List α)} {f : ℕ → α} {xs : List α}
    (hlen : xs.length = n)
    (hbody : ∀ (i : Fin n) ys, ys.length = n → body i ys = write ys i (f i)) :
  forFin n body xs = some (table n f)
  := by
  obtain ⟨ys, hys, hylen, hy⟩ := forFin_spec body xs
    (fun i ys => ys.length = n ∧ ∀ j, j < i → ys[j]? = some (f j)) (by simpa using hlen) (by
      rintro i ys ⟨hylen, hy⟩
      use ys.set i (f i)
      rw [hbody i ys hylen, write_eq _ (by omega)]
      refine ⟨rfl, by simpa using hylen, ?_⟩
      intro j hj
      by_cases h : j = i
      · subst h
        rw [List.getElem?_set_self (by omega)]
      · rw [List.getElem?_set_ne (by omega)]
        apply hy j (by omega))
  rw [hys, eq_table hylen hy]

/-! ### Loops that collect values -/

/-- The loop over `0, …, n - 1` that computes a value at each index, and ends with the first
error. -/
def collect {ε : Type u} {α : Type v} : (n : ℕ) → (Fin n → Except ε α) → Except ε (Fin n → α)
  | 0, _ => .ok Fin.elim0
  | n + 1, f =>
      match collect n (fun i => f i.castSucc) with
      | .error e => .error e
      | .ok g =>
          match f (Fin.last n) with
          | .error e => .error e
          | .ok a => .ok (Fin.snoc (α := fun _ => α) g a)

/-- The loop collects the values where there is no error. -/
theorem collect_eq_ok {ε : Type u} {α : Type v} {n : ℕ} {f : Fin n → Except ε α} {g : Fin n → α}
    (h : ∀ i, f i = .ok (g i)) :
  collect n f = .ok g
  := by
  induction n with
  | zero =>
      rw [collect]
      congr 1
      funext i
      apply i.elim0
  | succ n ih =>
      rw [collect, ih (g := fun i => g i.castSucc) (fun i => h i.castSucc), h]
      simp only [Except.ok.injEq]
      funext i
      refine Fin.lastCases ?_ (fun i => ?_) i
      · simp
      · simp

/-- The values collected without an error are computed at each index. -/
theorem eq_ok_of_collect {ε : Type u} {α : Type v} {n : ℕ} {f : Fin n → Except ε α} {g : Fin n → α}
    (h : collect n f = .ok g) (i : Fin n) :
  f i = .ok (g i)
  := by
  induction n with
  | zero => apply i.elim0
  | succ n ih =>
      rw [collect] at h
      rcases hcollect : collect n (fun i => f i.castSucc) with e | g'
      · rw [hcollect] at h
        cases h
      · rw [hcollect] at h
        rcases hlast : f (Fin.last n) with e | a
        · rw [hlast] at h
          cases h
        · rw [hlast] at h
          simp only [Except.ok.injEq] at h
          subst h
          refine Fin.lastCases ?_ (fun i => ?_) i
          · simp [hlast]
          · simp [ih hcollect i]

/-- The error of the loop is the error at an index. -/
theorem exists_error_of_collect {ε : Type u} {α : Type v} {n : ℕ} {f : Fin n → Except ε α} {e : ε}
    (h : collect n f = .error e) :
  ∃ i, f i = .error e
  := by
  induction n with
  | zero => cases h
  | succ n ih =>
      rw [collect] at h
      rcases hcollect : collect n (fun i => f i.castSucc) with e' | g'
      · rw [hcollect] at h
        cases h
        obtain ⟨i, hi⟩ := ih hcollect
        use i.castSucc, hi
      · rw [hcollect] at h
        rcases hlast : f (Fin.last n) with e' | a
        · rw [hlast] at h
          cases h
          use Fin.last n, hlast
        · rw [hlast] at h
          cases h

/-- The loop ends with the first error, whatever the errors are called. -/
theorem collect_mapError {ε : Type u} {ε' : Type u} {α : Type v} (g : ε → ε') {n : ℕ}
    (f : Fin n → Except ε α) :
  (collect n f).mapError g = collect n (fun i => (f i).mapError g)
  := by
  induction n with
  | zero => rfl
  | succ n ih =>
      rw [collect, collect, ← ih (fun i => f i.castSucc)]
      rcases collect n (fun i => f i.castSucc) with e | values
      · rfl
      · simp only [Except.mapError]
        rcases f (Fin.last n) with e | a
        · rfl
        · rfl

/-! ### Conversion from one array to another -/

variable {β : Type v}

/-- The loop that assigns to the elements `0, …, n - 1` of `d` the values of `f` at those of
`s`. -/
def mapInto (f : α → β) (s : List α) (d : List β) (n : ℕ) : Option (List β) :=
  forFin n (fun i d => s[(i : ℕ)]?.bind (fun x => write d i (f x))) d

/-- The loop succeeds within both arrays, and leaves the other elements of `d`. -/
theorem mapInto_eq (f : α → β) {s : List α} {d : List β} {n : ℕ} (hs : n ≤ s.length)
    (hd : n ≤ d.length) :
  mapInto f s d n = some ((s.take n).map f ++ d.drop n)
  := by
  obtain ⟨d', hd', heq⟩ := forFin_spec
    (fun (i : Fin n) d => s[(i : ℕ)]?.bind (fun x => write d i (f x))) d
    (fun i d' => d' = (s.take i).map f ++ d.drop i) (by simp) (by
      rintro ⟨i, hi⟩ _ rfl
      have hlen : ((s.take i).map f).length = i := by
        rw [List.length_map, List.length_take]
        omega
      have hdrop : d.drop i = d[i] :: d.drop (i + 1) := List.drop_eq_getElem_cons (by omega)
      have hset : ((s.take i).map f ++ d.drop i).set i (f s[i])
          = (s.take (i + 1)).map f ++ d.drop (i + 1) := by
        rw [List.set_append_right _ _ (by omega), hlen, Nat.sub_self, hdrop, List.set_cons_zero,
          List.take_succ_eq_append_getElem (by omega), List.map_append, List.append_assoc]
        rfl
      use (s.take (i + 1)).map f ++ d.drop (i + 1)
      rw [List.getElem?_eq_getElem (by omega), Option.bind_some, write_eq _ (by simp; omega), hset]
      exact ⟨rfl, rfl⟩)
  rw [mapInto, hd', heq]

/-- The conversion there, back, and there again, by functions of which the second is a right
inverse of the first, succeeds within the arrays and gives the same array as the first
conversion. -/
theorem mapInto_roundTrip {f : α → β} {g : β → α} (h : ∀ y, f (g y) = y) {s : List α}
    {d : List β} {e : List α} {n : ℕ} (hs : n ≤ s.length) (hd : n ≤ d.length)
    (he : n ≤ e.length) :
  ∃ d' e', mapInto f s d n = some d' ∧ d' = (s.take n).map f ++ d.drop n
    ∧ mapInto g d' e n = some e' ∧ e' = (d'.take n).map g ++ e.drop n
    ∧ mapInto f e' d' n = some d'
  := by
  obtain ⟨d', hd'⟩ : ∃ d', d' = (s.take n).map f ++ d.drop n := ⟨_, rfl⟩
  obtain ⟨e', he'⟩ : ∃ e', e' = (d'.take n).map g ++ e.drop n := ⟨_, rfl⟩
  have hdlen : n ≤ d'.length := by
    rw [hd', List.length_append, List.length_map, List.length_take]
    omega
  have helen : n ≤ e'.length := by
    rw [he', List.length_append, List.length_map, List.length_take]
    omega
  have hback : (e'.take n).map f = d'.take n := by
    have htake : e'.take n = (d'.take n).map g := by
      rw [he']
      apply List.take_left'
      rw [List.length_map, List.length_take]
      omega
    rw [htake, List.map_map]
    conv_rhs => rw [← List.map_id (d'.take n)]
    apply List.map_congr_left
    intro y _
    apply h y
  use d', e'
  rw [mapInto_eq f hs hd, mapInto_eq g hdlen he, mapInto_eq f helen hdlen, hback,
    List.take_append_drop, ← hd', ← he']
  exact ⟨rfl, rfl, rfl, rfl, rfl⟩
