import PipeAI.Runtime.Config

/-!
# What a failed load of a configuration leaves

`Config::load` clears the values once it has opened the file, and then stores those of one line
after the other.  A failure to open the file leaves the values as they were.  A line that is not
accepted leaves the values of the lines before it, so that all the getters answer from them, and
what was stored before is lost.  So a file is loaded without any danger to what was stored before
exactly when it cannot be opened, or all its lines are accepted (`load_unchanged_iff`).
-/

universe u

namespace Config

/-! ### The lines -/

/-- The line is accepted: it is passed over; or it has a name that is not blank in square brackets;
or it has a key that is not blank before its first equality sign. -/
inductive IsAccepted (line : Text) : Prop where
  | skipped (hskip : IsSkipped line)
  | header (name : Text) (hline : trim line = '[' :: name ++ [']']) (hname : trim name ≠ [])
  | assignment (key value : Text) (hline : trim line = key ++ '=' :: value) (hsign : '=' ∉ key)
      (hkey : trim key ≠ [])

/-- A line in square brackets has a name between them. -/
theorem IsBracketed.exists_name {line : Text} (h : IsBracketed line) :
  ∃ name, trim line = '[' :: name ++ [']']
  := by
  obtain ⟨rest, hrest⟩ := List.head?_eq_some_iff.mp h.1
  rcases List.eq_nil_or_concat rest with rfl | ⟨name, c, rfl⟩
  · have hlast := h.2
    rw [hrest] at hlast
    cases hlast
  · have hlast := h.2
    rw [hrest, List.concat_eq_append, ← List.cons_append, List.getLast?_concat] at hlast
    cases hlast
    use name
    rw [hrest, List.concat_eq_append, List.cons_append]

/-- A line is cut at its first equality sign in one way only. -/
theorem append_equals_inj {key key' value value' : Text} (hsign : '=' ∉ key) (hsign' : '=' ∉ key')
    (h : key ++ '=' :: value = key' ++ '=' :: value') :
  key = key'
  := by
  have hlen : some key.length = some key'.length := by
    rw [← idxOf?_append_cons hsign value, h, idxOf?_append_cons hsign']
  apply List.append_inj_left h (Option.some.inj hlen)

/-- A line with a blank name in square brackets is not accepted. -/
theorem not_isAccepted_header {line name : Text} (hskip : ¬ IsSkipped line)
    (hline : trim line = '[' :: name ++ [']']) (hname : trim name = []) :
  ¬ IsAccepted line
  := by
  intro haccepted
  cases haccepted with
  | skipped hskip' => apply hskip hskip'
  | header name' hline' hname' =>
      rw [hline, List.append_cancel_right_eq, List.cons.injEq] at hline'
      rw [← hline'.2] at hname'
      apply hname' hname
  | assignment key value hline' hsign hkey =>
      have hmem : '=' ∈ '[' :: name ++ [']'] := by
        rw [← hline, hline']
        simp
      rw [List.cons_append, List.mem_cons, List.mem_append, List.mem_singleton] at hmem
      rcases hmem with hmem | hmem | hmem
      · cases hmem
      · apply absurd (strip_eq_nil_iff.mp hname '=' hmem) (by decide)
      · cases hmem

/-- A line with a blank key is not accepted. -/
theorem not_isAccepted_assignment {line key value : Text} (hskip : ¬ IsSkipped line)
    (hbracket : ¬ IsBracketed line) (hline : trim line = key ++ '=' :: value) (hsign : '=' ∉ key)
    (hkey : trim key = []) :
  ¬ IsAccepted line
  := by
  intro haccepted
  cases haccepted with
  | skipped hskip' => apply hskip hskip'
  | header name hline' hname =>
      apply hbracket
      rw [IsBracketed, hline', List.getLast?_concat]
      exact ⟨rfl, rfl⟩
  | assignment key' value' hline' hsign' hkey' =>
      rw [append_equals_inj hsign hsign' (hline.symm.trans hline')] at hkey
      apply hkey' hkey

/-- Any other line without an equality sign is not accepted. -/
theorem not_isAccepted_of_notMem {line : Text} (hskip : ¬ IsSkipped line)
    (hbracket : ¬ IsBracketed line) (hsign : '=' ∉ trim line) :
  ¬ IsAccepted line
  := by
  intro haccepted
  cases haccepted with
  | skipped hskip' => apply hskip hskip'
  | header name hline hname =>
      apply hbracket
      rw [IsBracketed, hline, List.getLast?_concat]
      exact ⟨rfl, rfl⟩
  | assignment key value hline =>
      rw [hline] at hsign
      simp at hsign

/-- A line is accepted, and leads to a section and values; or it is not, and is a failure. -/
theorem loadLine_cases (line : Text) (line_no : ℕ) (sect : Text) (config : Config) :
  (IsAccepted line ∧ ∃ sect' config', loadLine line line_no sect config = .ok (sect', config'))
    ∨ (¬ IsAccepted line
      ∧ ∃ status, loadLine line line_no sect config = .error status ∧ status.ok = false)
  := by
  by_cases hskip : IsSkipped line
  · left
    exact ⟨.skipped hskip, sect, config, loadLine_skip hskip line_no sect config⟩
  · by_cases hbracket : IsBracketed line
    · obtain ⟨name, hline⟩ := hbracket.exists_name
      rw [loadLine_header hline]
      by_cases hname : trim name = []
      · right
        rw [if_pos hname]
        exact ⟨not_isAccepted_header hskip hline hname, _, rfl, rfl⟩
      · left
        rw [if_neg hname]
        exact ⟨.header name hline hname, _, _, rfl⟩
    · by_cases hsign : '=' ∈ trim line
      · obtain ⟨key, value, hline, hkeySign⟩ := List.eq_append_cons_of_mem hsign
        rw [loadLine_assignment hline hkeySign hskip hbracket]
        by_cases hkey : trim key = []
        · right
          rw [if_pos hkey]
          exact ⟨not_isAccepted_assignment hskip hbracket hline hkeySign hkey, _, rfl, rfl⟩
        · left
          rw [if_neg hkey]
          exact ⟨.assignment key value hline hkeySign hkey, _, _, rfl⟩
      · right
        rw [loadLine_of_notMem hskip hbracket hsign]
        exact ⟨not_isAccepted_of_notMem hskip hbracket hsign, _, rfl, rfl⟩

/-- The lines are loaded up to their end exactly when each of them is accepted. -/
theorem ok_loadLines_iff (ls : List Text) (line_no : ℕ) (sect : Text) (config : Config) :
  (loadLines ls line_no sect config).1.ok = true ↔ ∀ line ∈ ls, IsAccepted line
  := by
  induction ls generalizing line_no sect config with
  | nil => simp [loadLines]
  | cons line ls ih =>
      rw [List.forall_mem_cons, loadLines]
      rcases loadLine_cases line (line_no + 1) sect config with
        ⟨haccepted, sect', config', hline⟩ | ⟨hnot, status, hline, hfail⟩
      · simp only [hline, haccepted, true_and]
        apply ih
      · simp only [hline, hnot, false_and, hfail, Bool.false_eq_true]

/-! ### The getters -/

/-- The getters give the same answers, for every key and fallback. -/
structure SameAnswers {K : Type u} (stof : Text → Option (Flt K × ℕ)) (config config' : Config) :
    Prop where
  has : ∀ key, config.has key = config'.has key
  getString : ∀ key fallback, config.getString key fallback = config'.getString key fallback
  getInt : ∀ key fallback, config.getInt key fallback = config'.getInt key fallback
  getSize : ∀ key fallback, config.getSize key fallback = config'.getSize key fallback
  getFloat : ∀ key fallback,
    config.getFloat stof key fallback = config'.getFloat stof key fallback
  getBool : ∀ key fallback, config.getBool key fallback = config'.getBool key fallback

variable {K : Type u} {stof : Text → Option (Flt K × ℕ)}

/-- The answers tell what is stored. -/
theorem sameAnswers_iff {config config' : Config} :
  SameAnswers stof config config' ↔ config = config'
  := by
  constructor
  · intro h
    apply Config.ext
    funext key
    have hhas := h.has key
    have hstring := h.getString key []
    rw [Config.has, Config.has] at hhas
    rw [Config.getString, Config.getString] at hstring
    rcases hvalue : config.values key with _ | value
    · rcases hvalue' : config'.values key with _ | value'
      · rfl
      · rw [hvalue, hvalue'] at hhas
        cases hhas
    · rcases hvalue' : config'.values key with _ | value'
      · rw [hvalue, hvalue'] at hhas
        cases hhas
      · rw [hvalue, hvalue'] at hstring
        exact congrArg some hstring
  · rintro rfl
    constructor <;> intros <;> rfl

/-! ### The file -/

/-- Whatever was stored before, a failed load leaves all answers of the getters as they were,
exactly when the file cannot be opened, or all its lines are accepted. -/
theorem load_unchanged_iff (stof : Text → Option (Flt K × ℕ)) (path : String)
    (file : Option Text) :
  (∀ config, (load path file config).1.ok = false →
      SameAnswers stof config (load path file config).2)
    ↔ ∀ text, file = some text → ∀ line ∈ lines text, IsAccepted line
  := by
  simp only [sameAnswers_iff]
  rcases file with _ | text
  · apply iff_of_true
    · intro config _
      rfl
    · rintro text ⟨⟩
  · simp only [load, Option.some.injEq, forall_eq']
    rw [← ok_loadLines_iff (lines text) 0 [] cleared]
    constructor
    · intro h
      by_contra hfail
      rw [Bool.not_eq_true] at hfail
      have hempty := (h cleared hfail).trans (h (cleared.set [] []) hfail).symm
      have hvalue := congrArg (fun config => config.values []) hempty
      simp [cleared] at hvalue
    · intro hok config hfail
      rw [hok] at hfail
      cases hfail

/-- Loading a file whose only line is an equality sign fails, and clears the values. -/
theorem not_load_unchanged :
  ¬ ∀ (stof : Text → Option (Flt ℚ × ℕ)) (path : String) (file : Option Text) (config : Config),
    (load path file config).1.ok = false → SameAnswers stof config (load path file config).2
  := by
  intro h
  have hsame := h (fun _ => none) "" (some ['=']) (cleared.set ['a'] ['b']) rfl
  have hhas := hsame.has ['a']
  cases hhas

end Config
