import PipeAI.Concurrency.Monitor
import Mathlib.Algebra.BigOperators.Group.Finset.Basic
import Mathlib.Algebra.Order.BigOperators.Group.Finset
import Mathlib.Data.Fintype.Basic

/-!
# No lost wake-up

A supply of a monitor counts, for each condition variable, the waiters that could go on in a
shared state, and says when all of them can go on for good.  No operation increases a count
by more than the signals it sends to single waiters, an operation that waited on the
condition variable uses up one, and who releases all waiters for good signals all of them.

Then the count never exceeds the credits of the condition variable, the signals for single
waiters that are still to be sent and the threads that are out of the waiter set and have to
evaluate their predicate again (`Supply.covered_of_reachable`).  Hence no thread waits in
vain when no signal is pending and no thread has to evaluate its predicate again
(`Supply.not_ready_of_quiescent`).  After the release of all waiters of a condition variable, a
thread waits on it only while a signal for all of them is pending
(`Supply.releases_of_reachable`).
-/

universe u v w x y

namespace Monitor

variable {S : Type u} {Cond : Type v} {Op : Type w} {Ret : Type x} {τ : Type y}
  [DecidableEq Cond]

/-- How many waiters of each condition variable could go on, and whether all of them can for
good. -/
structure Supply (M : Monitor S Cond Op Ret) where
  count : Cond → S → ℕ
  released : Cond → S → Bool
  /-- An operation whose predicate fails finds nothing. -/
  blocked : ∀ op c σ, M.cond op = some c → M.ready op σ = false →
    released c σ = false ∧ count c σ = 0
  /-- The effect of an operation is paid for by the signals it sends. -/
  paid : ∀ op c σ, M.ready op σ = true →
    .all c ∈ M.signals op (M.body op σ).1 ∨
      (released c (M.body op σ).2 = released c σ ∧
        (released c σ = false →
          count c (M.body op σ).2 + (if M.cond op = some c then 1 else 0)
            ≤ count c σ + (M.signals op (M.body op σ).1).count (.one c)))

/-- What a phase contributes to the credits of the condition variable `c`: the signals for one
waiter it has still to send, and the evaluation of a predicate it has still to make. -/
def credit (M : Monitor S Cond Op Ret) (c : Cond) : Phase Cond Op Ret → ℕ
  | .idle => 0
  | .entering _ => 0
  | .waiting _ => 0
  | .woken op _ => if M.cond op = some c then 1 else 0
  | .leaving _ pending => pending.count (.one c)

/-- The phase has still to send a signal for all waiters of `c`. -/
def Releases (c : Cond) : Phase Cond Op Ret → Prop
  | .leaving _ pending => .all c ∈ pending
  | _ => False

/-- No signal is pending, and no thread has to evaluate its predicate again. -/
def Quiescent (s : State S Cond Op Ret τ) : Prop :=
  ∀ t, (∀ r pending, s.phase t = .leaving r pending → pending = []) ∧
    ∀ op b, s.phase t ≠ .woken op b

/-- A signal for all waiters of `c` leaves none. -/
theorem not_waitsOn_wakeAll (M : Monitor S Cond Op Ret) (c : Cond) (p : Phase Cond Op Ret) :
  ¬ M.WaitsOn c (M.wakeAll c p)
  := by
  cases p with
  | waiting op =>
      rw [wakeAll]
      split
      · apply id
      · assumption
  | _ => apply id

/-- A signal for all waiters of `d` is nothing to the waiters of `c`. -/
theorem wakeAll_of_ne (M : Monitor S Cond Op Ret) {c d : Cond} (h : d ≠ c)
    (p : Phase Cond Op Ret) :
  (M.WaitsOn c (M.wakeAll d p) → M.WaitsOn c p)
    ∧ (Releases c p → Releases c (M.wakeAll d p))
    ∧ M.credit c (M.wakeAll d p) = M.credit c p
  := by
  cases p with
  | waiting op =>
      rw [wakeAll]
      split
      · rename_i hd
        simp [WaitsOn, Releases, credit, hd, h]
      · exact ⟨id, id, rfl⟩
  | _ => exact ⟨id, id, rfl⟩

/-- The credits of the condition variable `c`. -/
def credits [Fintype τ] (M : Monitor S Cond Op Ret) (c : Cond) (φ : τ → Phase Cond Op Ret) : ℕ :=
  ∑ t, M.credit c (φ t)

/-- Replacing the phase of one thread exchanges its contribution to the credits. -/
theorem credits_update [Fintype τ] [DecidableEq τ] (M : Monitor S Cond Op Ret) (c : Cond)
    (φ : τ → Phase Cond Op Ret) (t : τ) (p : Phase Cond Op Ret) :
  M.credits c (Function.update φ t p) + M.credit c (φ t) = M.credits c φ + M.credit c p
  := by
  have h : ∀ ψ : τ → Phase Cond Op Ret, M.credits c ψ
      = M.credit c (ψ t) + ∑ u ∈ Finset.univ.erase t, M.credit c (ψ u) := by
    intro ψ
    symm
    apply Finset.add_sum_erase _ (fun u => M.credit c (ψ u)) (Finset.mem_univ t)
  have hrest : ∑ u ∈ Finset.univ.erase t, M.credit c (Function.update φ t p u)
      = ∑ u ∈ Finset.univ.erase t, M.credit c (φ u) := by
    apply Finset.sum_congr rfl
    intro u hu
    rw [Function.update_of_ne (Finset.ne_of_mem_erase hu)]
  rw [h, h φ, hrest, Function.update_self]
  omega

/-- The invariant behind the wake-ups: if a thread waits on `c`, a signal for all waiters of
`c` is pending, or the credits cover the waiters that could go on. -/
def Supply.Covered [Fintype τ] {M : Monitor S Cond Op Ret} (B : M.Supply) (c : Cond) (σ : S)
    (φ : τ → Phase Cond Op Ret) : Prop :=
  (∃ t, M.WaitsOn c (φ t)) →
    (∃ t, Releases c (φ t)) ∨ (B.released c σ = false ∧ B.count c σ ≤ M.credits c φ)

variable [Fintype τ] {M : Monitor S Cond Op Ret} {B : M.Supply} {c : Cond} {σ σ' : S}
  {φ : τ → Phase Cond Op Ret}

/-- Where no waiter could go on, no credit is needed. -/
theorem Supply.Covered.of_blocked (h : B.released c σ = false ∧ B.count c σ = 0) :
  B.Covered c σ φ
  := by
  intro _
  right
  use h.1
  rw [h.2]
  apply Nat.zero_le

/-- Where no thread waits, no credit is needed. -/
theorem Supply.Covered.of_no_waiter (h : ∀ t, ¬ M.WaitsOn c (φ t)) :
  B.Covered c σ φ
  := by
  rintro ⟨t, ht⟩
  apply absurd ht (h t)

variable [DecidableEq τ]

/-- A thread takes a phase that is not in the waiter set, and pays for the change of the
shared state with what it contributes to the credits, or with a signal for all waiters. -/
theorem Supply.Covered.replace (h : B.Covered c σ φ) {t : τ} {p : Phase Cond Op Ret}
    (hw : ¬ M.WaitsOn c p) (hr : Releases c (φ t) → Releases c p)
    (hpaid : Releases c p ∨ (B.released c σ' = B.released c σ ∧
      (B.released c σ = false → B.count c σ' + M.credit c (φ t) ≤ B.count c σ + M.credit c p))) :
  B.Covered c σ' (Function.update φ t p)
  := by
  rintro ⟨u, hu⟩
  have hut : u ≠ t := by
    rintro rfl
    rw [Function.update_self] at hu
    apply hw hu
  rw [Function.update_of_ne hut] at hu
  obtain ⟨v, hv⟩ | ⟨hrel, hcount⟩ := h ⟨u, hu⟩
  · left
    use v
    by_cases hvt : v = t
    · subst hvt
      rw [Function.update_self]
      apply hr hv
    · rw [Function.update_of_ne hvt]
      apply hv
  · obtain hp | ⟨hrel', hcount'⟩ := hpaid
    · left
      use t
      rw [Function.update_self]
      apply hp
    · right
      have hsum := M.credits_update c φ t p
      have hcount' := hcount' hrel
      constructor
      · rw [hrel', hrel]
      · omega

/-- A thread takes a phase that is not in the waiter set and contributes no less to the
credits. -/
theorem Supply.Covered.setPhase (h : B.Covered c σ φ) {t : τ} {p : Phase Cond Op Ret}
    (hw : ¬ M.WaitsOn c p) (hr : Releases c (φ t) → Releases c p)
    (hle : M.credit c (φ t) ≤ M.credit c p) :
  B.Covered c σ (Function.update φ t p)
  := by
  apply h.replace hw hr
  right
  use rfl
  intro _
  omega

omit [DecidableEq Cond] in
/-- A thread before its section sends no signal. -/
theorem not_releases_of_before {p : Phase Cond Op Ret} {op : Op} (h : p.view = .before op) :
  ¬ Releases c p
  := by
  cases p with
  | leaving r pending => cases h
  | _ => apply id

/-- A signal for one waiter of `d` reaches one of them. -/
theorem Supply.Covered.notifyOne (h : B.Covered c σ φ) {t u : τ} {d : Cond} {r : Ret}
    {pending : List (Signal Cond)} {op : Op} (hp : φ t = .leaving r (.one d :: pending))
    (hu : φ u = .waiting op) (hd : M.cond op = some d) :
  B.Covered c σ
    (Function.update (Function.update φ t (.leaving r pending)) u (.woken op false))
  := by
  have hut : u ≠ t := by
    rintro rfl
    rw [hp] at hu
    cases hu
  rintro ⟨w, hw⟩
  have hwu : w ≠ u := by
    rintro rfl
    rw [Function.update_self] at hw
    apply hw
  rw [Function.update_of_ne hwu] at hw
  have hwt : w ≠ t := by
    rintro rfl
    rw [Function.update_self] at hw
    apply hw
  rw [Function.update_of_ne hwt] at hw
  obtain ⟨v, hv⟩ | ⟨hrel, hcount⟩ := h ⟨w, hw⟩
  · left
    use v
    have hvu : v ≠ u := by
      rintro rfl
      rw [hu] at hv
      apply hv
    rw [Function.update_of_ne hvu]
    by_cases hvt : v = t
    · subst hvt
      rw [hp] at hv
      rw [Function.update_self]
      simpa [Releases] using hv
    · rw [Function.update_of_ne hvt]
      apply hv
  · right
    use hrel
    have h₁ := M.credits_update c φ t (.leaving r pending)
    have h₂ := M.credits_update c (Function.update φ t (.leaving r pending)) u (.woken op false)
    rw [Function.update_of_ne hut, hu] at h₂
    rw [hp] at h₁
    by_cases hdc : d = c
    · subst hdc
      simp only [credit, hd, List.count_cons_self, if_true] at h₁ h₂
      omega
    · have hne : Signal.one d ≠ Signal.one c := by simpa using hdc
      simp only [credit, hd, List.count_cons_of_ne hne, Option.some.injEq, hdc, if_false] at h₁ h₂
      omega

/-- A signal for all waiters of `d` empties its waiter set. -/
theorem Supply.Covered.notifyAll (h : B.Covered c σ φ) {t : τ} {d : Cond} {r : Ret}
    {pending : List (Signal Cond)} (hp : φ t = .leaving r (.all d :: pending)) :
  B.Covered c σ (fun u => M.wakeAll d (Function.update φ t (.leaving r pending) u))
  := by
  by_cases hdc : d = c
  · subst hdc
    apply Covered.of_no_waiter
    intro u
    apply M.not_waitsOn_wakeAll
  · have hbase : B.Covered c σ (Function.update φ t (.leaving r pending)) := by
      apply h.setPhase
      · apply id
      · simp [hp, Releases, Ne.symm hdc]
      · simp [hp, credit]
    rintro ⟨u, hu⟩
    obtain ⟨v, hv⟩ | ⟨hrel, hcount⟩ := hbase ⟨u, (M.wakeAll_of_ne hdc _).1 hu⟩
    · left
      use v
      apply (M.wakeAll_of_ne hdc _).2.1 hv
    · right
      use hrel
      apply hcount.trans (le_of_eq _)
      apply Finset.sum_congr rfl
      intro v _
      symm
      apply (M.wakeAll_of_ne hdc _).2.2

/-- A section whose predicate holds keeps the waiters covered. -/
theorem Supply.Covered.act {s : State S Cond Op Ret τ} (h : B.Covered c s.shared s.phase)
    {t : τ} {op : Op} (hp : (s.phase t).Checks op) (hr : M.ready op s.shared = true) :
  B.Covered c (M.body op s.shared).2 (Function.update s.phase t
    (.leaving (M.body op s.shared).1 (M.signals op (M.body op s.shared).1)))
  := by
  have hbefore : (s.phase t).view = .before op := by
    obtain hp | ⟨b, hp⟩ := hp
    · rw [hp, Phase.view_entering]
    · rw [hp, Phase.view_woken]
  have hcredit : M.credit c (s.phase t) ≤ if M.cond op = some c then 1 else 0 := by
    obtain hp | ⟨b, hp⟩ := hp
    · rw [hp]
      apply Nat.zero_le
    · rw [hp, credit]
  apply h.replace
  · apply id
  · intro hrel
    apply absurd hrel (not_releases_of_before hbefore)
  · obtain hall | ⟨hrel, hcount⟩ := B.paid op c s.shared hr
    · left
      apply hall
    · right
      use hrel
      intro hfalse
      have hle := hcount hfalse
      rw [credit]
      omega

/-- Every step keeps the waiters of every condition variable covered. -/
theorem Supply.Covered.step {s s' : State S Cond Op Ret τ} {t : τ} (hs : M.Step s t s')
    (h : ∀ c, B.Covered c s.shared s.phase) :
  ∀ c, B.Covered c s'.shared s'.phase
  := by
  intro c
  cases hs with
  | call op hp =>
      apply (h c).setPhase
      · apply id
      · simp [hp, Releases]
      · simp [hp, credit]
  | ret hp =>
      apply (h c).setPhase
      · apply id
      · simp [hp, Releases]
      · simp [hp, credit]
  | internal hs =>
      cases hs with
      | act hp hr => apply (h c).act hp hr
      | @block op hp hr =>
          by_cases hc : M.cond op = some c
          · apply Covered.of_blocked
            apply B.blocked op c _ hc hr
          · apply (h c).setPhase
            · apply hc
            · obtain hp | hp := hp <;> simp [hp, Releases]
            · obtain hp | hp := hp <;> simp [hp, credit, hc]
      | expire hp ht =>
          apply (h c).setPhase
          · apply id
          · simp [hp, Releases]
          · simp [hp, credit]
      | @giveUp op r hp hr ht =>
          by_cases hc : M.cond op = some c
          · apply Covered.of_blocked
            apply B.blocked op c _ hc hr
          · apply (h c).setPhase
            · apply id
            · simp [hp, Releases]
            · simp [hp, credit, hc]
      | wake hp =>
          apply (h c).setPhase
          · apply id
          · simp [hp, Releases]
          · simp [hp, credit]
      | notifyOne hp hu hd => apply (h c).notifyOne hp hu hd
      | @notifyNone d r pending hp hu =>
          by_cases hdc : d = c
          · subst hdc
            apply Covered.of_no_waiter
            intro u
            by_cases hut : u = t
            · subst hut
              rw [State.setPhase_phase_self]
              apply id
            · rw [State.setPhase_phase_of_ne _ _ hut]
              apply hu
          · apply (h c).setPhase
            · apply id
            · simp [hp, Releases]
            · simp [hp, credit, hdc]
      | notifyAll hp => apply (h c).notifyAll hp

/-- In every reachable state the waiters of every condition variable are covered. -/
theorem Supply.covered_of_reachable (B : M.Supply) {σ₀ : S} {s : State S Cond Op Ret τ}
    (h : (M.system τ σ₀).Reachable s) :
  ∀ c, B.Covered c s.shared s.phase
  := by
  apply h.invariant
  · rintro s rfl c
    apply Covered.of_no_waiter
    intro t
    apply id
  · intro s t s' _ hs hstep
    apply Covered.step hstep hs

/-- When no signal is pending and no thread has to evaluate its predicate again, a thread
that waits could not go on. -/
theorem Supply.not_ready_of_quiescent (B : M.Supply) {σ₀ : S} {s : State S Cond Op Ret τ}
    (h : (M.system τ σ₀).Reachable s) (hq : Quiescent s) {t : τ} {c : Cond}
    (hw : M.WaitsOn c (s.phase t)) :
  B.released c s.shared = false ∧ B.count c s.shared = 0
  := by
  obtain ⟨u, hu⟩ | ⟨hrel, hcount⟩ := B.covered_of_reachable h c ⟨t, hw⟩
  · cases hp : s.phase u with
    | leaving r pending =>
        obtain rfl := (hq u).1 r pending hp
        rw [hp] at hu
        cases hu
    | _ =>
        rw [hp] at hu
        cases hu
  · use hrel
    have hzero : M.credits c s.phase = 0 := by
      apply Finset.sum_eq_zero
      intro u _
      cases hp : s.phase u with
      | woken op b => apply absurd hp ((hq u).2 op b)
      | leaving r pending =>
          obtain rfl := (hq u).1 r pending hp
          rfl
      | _ => rfl
    omega

/-- When a thread waits on `c` though it could go on, a thread has still to release all waiters of
`c`, or contributes to its credits. -/
theorem Supply.exists_credit (B : M.Supply) {σ₀ : S} {s : State S Cond Op Ret τ}
    (h : (M.system τ σ₀).Reachable s) {t : τ} {c : Cond} (hw : M.WaitsOn c (s.phase t))
    (hcount : 0 < B.count c s.shared) :
  ∃ u, Releases c (s.phase u) ∨ 0 < M.credit c (s.phase u)
  := by
  obtain ⟨u, hu⟩ | ⟨-, hle⟩ := B.covered_of_reachable h c ⟨t, hw⟩
  · exact ⟨u, Or.inl hu⟩
  · have hpos : 0 < M.credits c s.phase := hcount.trans_le hle
    obtain ⟨u, -, hu⟩ := Finset.exists_ne_zero_of_sum_ne_zero hpos.ne'
    exact ⟨u, Or.inr (Nat.pos_of_ne_zero hu)⟩

/-! ### Released waiters -/

omit [Fintype τ] [DecidableEq τ] in
/-- If a thread waits on `c` though all waiters of `c` have been released, a signal for all of them
is pending. -/
def Supply.Served (B : M.Supply) (c : Cond) (σ : S) (φ : τ → Phase Cond Op Ret) : Prop :=
  B.released c σ = true → (∃ t, M.WaitsOn c (φ t)) → ∃ t, Releases c (φ t)

omit [Fintype τ] in
/-- A thread takes a phase that is not in the waiter set, and releases the waiters only with a
signal for all of them. -/
theorem Supply.Served.replace (h : B.Served c σ φ) {t : τ} {p : Phase Cond Op Ret}
    (hw : ¬ M.WaitsOn c p) (hr : Releases c (φ t) → Releases c p)
    (hreleased : Releases c p ∨ B.released c σ' = B.released c σ) :
  B.Served c σ' (Function.update φ t p)
  := by
  rintro hrel ⟨u, hu⟩
  have hself : Releases c p → ∃ v, Releases c (Function.update φ t p v) := by
    intro hp
    use t
    rwa [Function.update_self]
  obtain hp | hsame := hreleased
  · apply hself hp
  · have hut : u ≠ t := by
      rintro rfl
      rw [Function.update_self] at hu
      apply hw hu
    rw [Function.update_of_ne hut] at hu
    rw [hsame] at hrel
    obtain ⟨v, hv⟩ := h hrel ⟨u, hu⟩
    by_cases hvt : v = t
    · subst hvt
      apply hself (hr hv)
    · use v
      rwa [Function.update_of_ne hvt]

omit [Fintype τ] in
/-- A thread that waits on another condition variable, or on none, takes another phase. -/
theorem Supply.Served.setPhase (h : B.Served c σ φ) (t : τ) {p : Phase Cond Op Ret}
    (hw : ¬ M.WaitsOn c p) (hr : Releases c (φ t) → Releases c p) :
  B.Served c σ (Function.update φ t p)
  := h.replace hw hr (Or.inr rfl)

omit [Fintype τ] in
/-- A signal for all waiters of `d` empties its waiter set. -/
theorem Supply.Served.notifyAll (h : B.Served c σ φ) {t : τ} {d : Cond} {r : Ret}
    {pending : List (Signal Cond)} (hp : φ t = .leaving r (.all d :: pending)) :
  B.Served c σ (fun u => M.wakeAll d (Function.update φ t (.leaving r pending) u))
  := by
  by_cases hdc : d = c
  · subst hdc
    rintro - ⟨u, hu⟩
    apply absurd hu (M.not_waitsOn_wakeAll d _)
  · have hbase : B.Served c σ (Function.update φ t (.leaving r pending)) := by
      apply h.setPhase
      · apply id
      · simp [hp, Releases, Ne.symm hdc]
    rintro hrel ⟨u, hu⟩
    obtain ⟨v, hv⟩ := hbase hrel ⟨u, (M.wakeAll_of_ne hdc _).1 hu⟩
    use v
    apply (M.wakeAll_of_ne hdc _).2.1 hv

omit [Fintype τ] in
/-- Every step keeps the released waiters served. -/
theorem Supply.Served.step {s s' : State S Cond Op Ret τ} {t : τ} (hs : M.Step s t s')
    (h : B.Served c s.shared s.phase) :
  B.Served c s'.shared s'.phase
  := by
  cases hs with
  | call op hp =>
      apply h.setPhase
      · apply id
      · simp [hp, Releases]
  | ret hp =>
      apply h.setPhase
      · apply id
      · simp [hp, Releases]
  | internal hs =>
      cases hs with
      | @act op hp hr =>
          apply h.replace
          · apply id
          · obtain hp | ⟨b, hp⟩ := hp <;> simp [hp, Releases]
          · obtain hall | ⟨hrel, -⟩ := B.paid op c s.shared hr
            · left
              apply hall
            · right
              apply hrel
      | @block op hp hr =>
          by_cases hc : M.cond op = some c
          · intro hrel
            have hnot : B.released c s.shared = false := (B.blocked op c _ hc hr).1
            rw [State.setPhase_shared, hnot] at hrel
            cases hrel
          · apply h.setPhase
            · apply hc
            · obtain hp | hp := hp <;> simp [hp, Releases]
      | expire hp ht =>
          apply h.setPhase
          · apply id
          · simp [hp, Releases]
      | giveUp hp hr ht =>
          apply h.setPhase
          · apply id
          · simp [hp, Releases]
      | wake hp =>
          apply h.setPhase
          · apply id
          · simp [hp, Releases]
      | @notifyOne u d r pending op hp hu hd =>
          have hut : u ≠ t := by
            rintro rfl
            rw [hp] at hu
            cases hu
          have hsent : B.Served c s.shared (Function.update s.phase t (.leaving r pending)) := by
            apply h.setPhase
            · apply id
            · simp [hp, Releases]
          apply hsent.setPhase
          · apply id
          · rw [Function.update_of_ne hut, hu]
            apply id
      | notifyNone hp hu =>
          apply h.setPhase
          · apply id
          · simp [hp, Releases]
      | notifyAll hp => apply h.notifyAll hp

omit [Fintype τ] in
/-- When all waiters of `c` have been released, a thread waits on `c` only while a signal for all
of them is pending. -/
theorem Supply.releases_of_reachable (B : M.Supply) {σ₀ : S} {s : State S Cond Op Ret τ}
    (h : (M.system τ σ₀).Reachable s) {c : Cond} (hrel : B.released c s.shared = true) {t : τ}
    (hw : M.WaitsOn c (s.phase t)) :
  ∃ u, Releases c (s.phase u)
  := by
  have hserved : B.Served c s.shared s.phase := by
    apply h.invariant
    · rintro s rfl - ⟨t, ht⟩
      cases ht
    · intro s t s' _ hs hstep
      apply hs.step hstep
  apply hserved hrel ⟨t, hw⟩

end Monitor
