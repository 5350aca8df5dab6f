import PipeAI.Concurrency.History
import Mathlib.Data.List.FinRange
import Mathlib.Data.List.Nodup
import Mathlib.Logic.Embedding.Basic

/-!
# The buffer pool

`BufferPool` hands out its buffers with `acquire` and takes them back with `release`, which
ignores null and foreign pointers.  Each call holds the mutex, so calls take place one after the
other.

`release` does not ignore a buffer that is free already.  Hence no buffer is ever free twice, or
both free and held, as long as no buffer is released that is free, and no longer
(`BufferPool.sound_iff`).
-/

universe u

/-- `BufferPool`, with buffers at addresses in `A`.  The last of the free buffers is at the
back. -/
structure BufferPool (A : Type u) where
  size : ℕ
  free : List A
  all : List A

namespace BufferPool

variable {A : Type u}

/-! ### The code -/

/-- The constructor `BufferPool::BufferPool`.  The buffer allocated by the `i`-th iteration of
its loop has the address `alloc i`, and distinct buffers have distinct addresses. -/
def construct (buffer_size : ℕ) {count : ℕ} (alloc : Fin count ↪ A) : BufferPool A :=
  (List.finRange count).foldl
    (fun pool i => { pool with all := pool.all ++ [alloc i], free := pool.free ++ [alloc i] })
    ⟨buffer_size, [], []⟩

/-- `BufferPool::acquire`: the pointer returned, which may be null, and the pool. -/
def acquire (pool : BufferPool A) : Option A × BufferPool A :=
  match pool.free.getLast? with
  | none => (none, pool)
  | some p => (some p, { pool with free := pool.free.dropLast })

variable [DecidableEq A]

/-- `BufferPool::release` of a pointer, which may be null. -/
def release (pool : BufferPool A) : Option A → BufferPool A
  | none => pool
  | some p => if p ∈ pool.all then { pool with free := pool.free ++ [p] } else pool

/-! ### Histories -/

/-- A call of the pool, with its argument. -/
inductive Call (A : Type u) where
  | acquire
  | release (ptr : Option A)

/-- A call that has returned: with its result, or with its argument. -/
inductive Event (A : Type u) where
  | acquired (ptr : Option A)
  | released (ptr : Option A)
  deriving DecidableEq

/-- The pool and the calls served so far. -/
structure Session (A : Type u) where
  pool : BufferPool A
  events : List (Event A)

/-- The session of a new pool. -/
def Session.start (pool : BufferPool A) : Session A := ⟨pool, []⟩

/-- The session after a call. -/
def Session.step (s : Session A) : Call A → Session A
  | .acquire => ⟨s.pool.acquire.2, s.events ++ [.acquired s.pool.acquire.1]⟩
  | .release ptr => ⟨s.pool.release ptr, s.events ++ [.released ptr]⟩

omit [DecidableEq A] in
/-- The buffer `p` has been returned by `acquire` and not released since. -/
def Held (events : List (Event A)) (p : A) : Prop :=
  ∃ before after, events = before ++ .acquired (some p) :: after ∧ .released (some p) ∉ after

omit [DecidableEq A] in
/-- Between two calls of `acquire` that return the same buffer, it has been released. -/
def Exclusive (events : List (Event A)) : Prop :=
  ∀ before between after p,
    events = before ++ .acquired (some p) :: (between ++ .acquired (some p) :: after) →
      .released (some p) ∈ between

omit [DecidableEq A] in
/-- No buffer is free twice, the free buffers are buffers of the pool that are not held, and no
buffer has been handed to two holders. -/
structure Sound (s : Session A) : Prop where
  nodup : s.pool.free.Nodup
  mem : ∀ p ∈ s.pool.free, p ∈ s.pool.all
  held : ∀ p, Held s.events p → p ∉ s.pool.free
  exclusive : Exclusive s.events

/-- The condition on a call that it does not release a buffer of the pool that is free. -/
def ReleasesNoFree (s : Session A) : Call A → Prop
  | .release (some p) => p ∈ s.pool.all → p ∉ s.pool.free
  | _ => True

/-! ### What a call changes -/

omit [DecidableEq A] in
/-- The constructor makes a pool whose buffers are all free. -/
theorem construct_eq (buffer_size : ℕ) {count : ℕ} (alloc : Fin count ↪ A) :
  construct buffer_size alloc
    = ⟨buffer_size, (List.finRange count).map alloc, (List.finRange count).map alloc⟩
  := by
  have hloop : ∀ (is : List (Fin count)) (pool : BufferPool A),
      is.foldl (fun pool i =>
          { pool with all := pool.all ++ [alloc i], free := pool.free ++ [alloc i] }) pool
        = ⟨pool.size, pool.free ++ is.map alloc, pool.all ++ is.map alloc⟩ := by
    intro is
    induction is with
    | nil => simp
    | cons i is ih =>
        intro pool
        rw [List.foldl_cons, ih]
        simp
  rw [construct, hloop]
  rfl

omit [DecidableEq A] in
/-- `acquire` returns null when no buffer is free, and else takes the free buffer at the back. -/
theorem acquire_cases (pool : BufferPool A) :
  pool.free = [] ∧ pool.acquire = (none, pool)
    ∨ ∃ free p, pool.free = free ++ [p] ∧ pool.acquire = (some p, { pool with free := free })
  := by
  rcases List.eq_nil_or_concat pool.free with h | ⟨free, p, h⟩
  · left
    simp [acquire, h]
  · right
    rw [List.concat_eq_append] at h
    use free, p, h
    simp [acquire, h]

omit [DecidableEq A] in
/-- A list ends with `e`, and has `x` in front of `after`, in two ways. -/
theorem snoc_eq_append_cons {events before after : List (Event A)} {e x : Event A}
    (h : events ++ [e] = before ++ x :: after) :
  (after = [] ∧ x = e ∧ before = events)
    ∨ ∃ after', after = after' ++ [e] ∧ events = before ++ x :: after'
  := by
  rcases List.eq_nil_or_concat after with rfl | ⟨after', e', rfl⟩
  · left
    have hsnoc := List.append_inj' h rfl
    simp_all
  · right
    rw [List.concat_eq_append, ← List.cons_append, ← List.append_assoc] at h
    obtain ⟨hevents, he⟩ := List.append_inj' h rfl
    use after'
    simp_all

omit [DecidableEq A] in
/-- After a call of `acquire`, the buffer it has returned is held as well. -/
theorem Held.of_acquired {events : List (Event A)} {ptr : Option A} {p : A}
    (h : Held (events ++ [.acquired ptr]) p) :
  ptr = some p ∨ Held events p
  := by
  obtain ⟨before, after, heq, hafter⟩ := h
  obtain ⟨-, he, -⟩ | ⟨after', rfl, rfl⟩ := snoc_eq_append_cons heq
  · left
    cases he
    rfl
  · right
    use before, after', rfl
    intro hmem
    apply hafter (List.mem_append_left _ hmem)

omit [DecidableEq A] in
/-- After a call of `release`, the buffer it has been given is not held. -/
theorem Held.of_released {events : List (Event A)} {ptr : Option A} {p : A}
    (h : Held (events ++ [.released ptr]) p) :
  ptr ≠ some p ∧ Held events p
  := by
  obtain ⟨before, after, heq, hafter⟩ := h
  obtain ⟨-, he, -⟩ | ⟨after', rfl, rfl⟩ := snoc_eq_append_cons heq
  · cases he
  · constructor
    · rintro rfl
      apply hafter
      simp
    · use before, after', rfl
      intro hmem
      apply hafter (List.mem_append_left _ hmem)

omit [DecidableEq A] in
/-- If the buffer `acquire` returns is not held, then it is not handed to a second holder. -/
theorem Exclusive.acquired {events : List (Event A)} {ptr : Option A} (h : Exclusive events)
    (hptr : ∀ p, ptr = some p → ¬ Held events p) :
  Exclusive (events ++ [.acquired ptr])
  := by
  intro before between after p heq
  rw [← List.cons_append, ← List.append_assoc] at heq
  obtain ⟨-, he, rfl⟩ | ⟨after', rfl, rfl⟩ := snoc_eq_append_cons heq
  · by_contra hbetween
    cases he
    apply hptr p rfl ⟨before, between, rfl, hbetween⟩
  · apply h before between after' p
    simp

omit [DecidableEq A] in
/-- A call of `release` hands no buffer to a holder. -/
theorem Exclusive.released {events : List (Event A)} {ptr : Option A} (h : Exclusive events) :
  Exclusive (events ++ [.released ptr])
  := by
  intro before between after p heq
  rw [← List.cons_append, ← List.append_assoc] at heq
  obtain ⟨-, he, -⟩ | ⟨after', rfl, rfl⟩ := snoc_eq_append_cons heq
  · cases he
  · apply h before between after' p
    simp

/-! ### The invariant -/

omit [DecidableEq A] in
/-- A new pool is sound. -/
theorem sound_start (buffer_size : ℕ) {count : ℕ} (alloc : Fin count ↪ A) :
  Sound (Session.start (construct buffer_size alloc))
  := by
  rw [Session.start, construct_eq]
  constructor
  · apply (List.nodup_finRange count).map alloc.injective
  · intro p hp
    apply hp
  · rintro p ⟨before, after, heq, -⟩
    simp at heq
  · intro before between after p heq
    simp at heq

/-- A call of `acquire` keeps a pool sound. -/
theorem Sound.acquire {s : Session A} (h : Sound s) :
  Sound (s.step .acquire)
  := by
  rw [Session.step]
  obtain ⟨-, hnull⟩ | ⟨free, p, hfree, hp⟩ := acquire_cases s.pool
  · rw [hnull]
    constructor
    · apply h.nodup
    · apply h.mem
    · intro q hq
      rcases hq.of_acquired with hptr | hq
      · cases hptr
      · apply h.held q hq
    · apply h.exclusive.acquired
      rintro q ⟨⟩
  · have hnodup := h.nodup
    rw [hfree, List.nodup_append] at hnodup
    rw [hp]
    constructor
    · apply hnodup.1
    · intro q hq
      apply h.mem q
      rw [hfree]
      apply List.mem_append_left _ hq
    · intro q hq hmem
      rcases hq.of_acquired with hptr | hq
      · cases hptr
        apply hnodup.2.2 p hmem p (by simp) rfl
      · apply h.held q hq
        rw [hfree]
        apply List.mem_append_left _ hmem
    · apply h.exclusive.acquired
      rintro q ⟨⟩ hq
      apply h.held p hq
      rw [hfree]
      simp

/-- A call of `release` that changes nothing in the pool keeps it sound. -/
theorem Sound.release_of_eq {s : Session A} (h : Sound s) {ptr : Option A}
    (hsame : s.pool.release ptr = s.pool) :
  Sound (s.step (.release ptr))
  := by
  rw [Session.step, hsame]
  constructor
  · apply h.nodup
  · apply h.mem
  · intro q hq
    apply h.held q hq.of_released.2
  · apply h.exclusive.released

/-- A call of `release` keeps a pool sound exactly when it releases no free buffer. -/
theorem Sound.release_iff {s : Session A} (h : Sound s) (ptr : Option A) :
  Sound (s.step (.release ptr)) ↔ ReleasesNoFree s (.release ptr)
  := by
  rcases ptr with _ | p
  · apply iff_of_true (h.release_of_eq rfl) trivial
  · by_cases hp : p ∈ s.pool.all
    · have hpool : s.pool.release (some p) = { s.pool with free := s.pool.free ++ [p] } :=
        if_pos hp
      constructor
      · intro hsound _ hfree
        have hnodup := hsound.nodup
        rw [Session.step, hpool, List.nodup_append] at hnodup
        apply hnodup.2.2 p hfree p (by simp) rfl
      · intro hguard
        rw [Session.step, hpool]
        constructor
        · apply List.Nodup.append h.nodup (List.nodup_singleton p)
          simpa using hguard hp
        · intro q hq
          rcases List.mem_append.mp hq with hq | hq
          · apply h.mem q hq
          · rw [List.mem_singleton.mp hq]
            apply hp
        · intro q hq hmem
          obtain ⟨hne, hq⟩ := hq.of_released
          rcases List.mem_append.mp hmem with hmem | hmem
          · apply h.held q hq hmem
          · apply hne
            rw [List.mem_singleton.mp hmem]
        · apply h.exclusive.released
    · have hpool : s.pool.release (some p) = s.pool := if_neg hp
      apply iff_of_true (h.release_of_eq hpool)
      intro hmem
      apply absurd hmem hp

/-- A call keeps a pool sound exactly when it releases no free buffer. -/
theorem Sound.step_iff {s : Session A} (h : Sound s) (call : Call A) :
  Sound (s.step call) ↔ ReleasesNoFree s call
  := by
  rcases call with _ | ptr
  · apply iff_of_true h.acquire trivial
  · apply h.release_iff

/-- For every number of buffers and every sequence of calls, the pool is sound before, between
and after the calls exactly when none of them releases a free buffer. -/
theorem sound_iff (buffer_size : ℕ) {count : ℕ} (alloc : Fin count ↪ A) (calls : List (Call A)) :
  Throughout Session.step Sound (Session.start (construct buffer_size alloc)) calls
    ↔ EachCall Session.step ReleasesNoFree (Session.start (construct buffer_size alloc)) calls
  := by
  have hvalid : EachCall Session.step (fun _ _ => True)
      (Session.start (construct buffer_size alloc)) calls := fun _ _ _ => trivial
  apply throughout_iff_eachCall (sound_start buffer_size alloc) hvalid
  intro s call h _
  apply h.step_iff

/-- A buffer that is released twice is handed to two holders. -/
theorem not_sound_of_double_release :
  ∃ (alloc : Fin 1 ↪ ℕ) (p : ℕ),
    ¬ Throughout Session.step Sound (Session.start (construct 1152 alloc))
        [.acquire, .release (some p), .release (some p), .acquire, .acquire]
      ∧ ([.acquire, .release (some p), .release (some p), .acquire, .acquire].foldl Session.step
          (Session.start (construct 1152 alloc))).events
        = [.acquired (some p), .released (some p), .released (some p), .acquired (some p),
            .acquired (some p)]
  := by
  refine ⟨⟨fun i => i + 4096, fun i j h => by omega⟩, 4096, ?_, rfl⟩
  intro h
  have hsound := h [.acquire, .release (some 4096), .release (some 4096), .acquire, .acquire]
    (List.prefix_refl _)
  have hmem := hsound.exclusive [.acquired (some 4096), .released (some 4096),
    .released (some 4096)] [] [] 4096 rfl
  simp at hmem

end BufferPool
