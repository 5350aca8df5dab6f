import PipeAI.Runtime.Config
import Mathlib.Data.List.Find
import Mathlib.Data.List.Induction
import Mathlib.Tactic.Use

/-!
# INI documents

A document is a list of blank lines, comments, section headers and assignments.  It assigns
values to pairs of a section, which is missing before the first header, and a key; the name of a
pair is the key, preceded by the section and a dot.  Because no section contains a dot, and no key
before the first header does, distinct pairs have distinct names (`fullName_injective`).

Loading the text of a document stores under the name of each pair the last value that the document
assigns to it, and nothing else (`load_values_eq_some_iff`); so a configuration depends only on
the last values (`load_text`).
-/

namespace Config

/-! ### Documents -/

/-- A line of a document, with the white space around its parts. -/
inductive Line where
  | blank (space : Text)
  | comment (space : Text) (mark : Char) (text : Text)
  | header (left name right : Text)
  | assignment (key value : Text)

/-- The text of a line. -/
def Line.render : Line → Text
  | blank space => space
  | comment space mark text => space ++ mark :: text
  | header left name right => left ++ (('[' :: name ++ [']']) ++ right)
  | assignment key value => key ++ '=' :: value

/-- A section has a name without dots; a key is not empty, has no equality sign, and does not
begin like a comment or a header. -/
def Line.IsValid : Line → Prop
  | blank space => ∀ c ∈ space, isSpace c = true
  | comment space mark _ => (∀ c ∈ space, isSpace c = true) ∧ (mark = '#' ∨ mark = ';')
  | header left name right =>
      (∀ c ∈ left, isSpace c = true) ∧ (∀ c ∈ right, isSpace c = true)
        ∧ trim name ≠ [] ∧ '.' ∉ name
  | assignment key _ =>
      trim key ≠ [] ∧ '=' ∉ key ∧ ∀ c ∈ (trim key).head?, c ≠ '#' ∧ c ≠ ';' ∧ c ≠ '['

/-- A pair of a section, which may be missing, and a key. -/
abbrev Pair : Type := Option Text × Text

/-- The pairs that the lines assign values to, in order, in a section at first. -/
def assignments : Option Text → List Line → List (Pair × Text)
  | _, [] => []
  | s, .blank _ :: ls => assignments s ls
  | s, .comment _ _ _ :: ls => assignments s ls
  | _, .header _ name _ :: ls => assignments (some (trim name)) ls
  | s, .assignment key value :: ls => ((s, trim key), trim value) :: assignments s ls

/-- The name of a pair. -/
def fullName : Pair → Text
  | (none, key) => key
  | (some s, key) => s ++ '.' :: key

/-- A document. -/
structure Document where
  lines : List Line
  isValid : ∀ line ∈ lines, line.IsValid
  noBreak : ∀ line ∈ lines, '\n' ∉ line.render
  noDot : ∀ e ∈ assignments none lines, e.1.1 = none → '.' ∉ e.1.2

namespace Document

/-- The text of a document, whose last line may end without a line break. -/
def text (d : Document) (newline : Bool) : Text :=
  if newline then unlines (d.lines.map Line.render)
  else (unlines (d.lines.map Line.render)).dropLast

/-- The assignments of a document. -/
def assignments (d : Document) : List (Pair × Text) :=
  Config.assignments none d.lines

/-- The last value that is assigned to a pair. -/
def lastValue (d : Document) (p : Pair) : Option Text :=
  (d.assignments.reverse.find? (fun e => e.1 = p)).map Prod.snd

end Document

/-! ### Names -/

/-- A section has a name without dots, and a key without a section has no dots. -/
def Pair.IsValid (p : Pair) : Prop :=
  (∀ s ∈ p.1, s ≠ [] ∧ '.' ∉ s) ∧ (p.1 = none → '.' ∉ p.2)

/-- A text is cut at its first dot in one way. -/
theorem append_dot_inj {s s' key key' : Text} (hs : '.' ∉ s) (hs' : '.' ∉ s')
    (h : s ++ '.' :: key = s' ++ '.' :: key') :
  s = s' ∧ key = key'
  := by
  have hlen : s.length = s'.length := by
    have hidx := idxOf?_append_cons hs key
    rw [h, idxOf?_append_cons hs' key', Option.some.injEq] at hidx
    apply hidx.symm
  obtain ⟨hss, hkey⟩ := List.append_inj h hlen
  constructor
  · apply hss
  · apply List.tail_eq_of_cons_eq hkey

/-- Distinct pairs have distinct names. -/
theorem fullName_injective {p p' : Pair} (hp : p.IsValid) (hp' : p'.IsValid)
    (h : fullName p = fullName p') :
  p = p'
  := by
  obtain ⟨s, key⟩ := p
  obtain ⟨s', key'⟩ := p'
  rcases s with _ | s <;> rcases s' with _ | s'
  · apply congrArg (Prod.mk none) h
  · have hdot : '.' ∈ key := by
      have h : key = s' ++ '.' :: key' := h
      rw [h]
      simp
    exact absurd hdot (hp.2 rfl)
  · have hdot : '.' ∈ key' := by
      have h : s ++ '.' :: key = key' := h
      rw [← h]
      simp
    exact absurd hdot (hp'.2 rfl)
  · obtain ⟨hs, hkey⟩ := append_dot_inj (hp.1 s rfl).2 (hp'.1 s' rfl).2 h
    rw [hs, hkey]

/-- The sections of the pairs that the lines assign values to have names without dots. -/
theorem section_of_mem_assignments {ls : List Line} (hvalid : ∀ line ∈ ls, line.IsValid)
    {s : Option Text} (hs : ∀ t ∈ s, t ≠ [] ∧ '.' ∉ t) :
  ∀ e ∈ assignments s ls, ∀ t ∈ e.1.1, t ≠ [] ∧ '.' ∉ t
  := by
  induction ls generalizing s with
  | nil =>
      intro e he
      cases he
  | cons line ls ih =>
      rw [List.forall_mem_cons] at hvalid
      obtain ⟨hline, hrest⟩ := hvalid
      cases line with
      | blank space => apply ih hrest hs
      | comment space mark text => apply ih hrest hs
      | header left name right =>
          obtain ⟨-, -, hname, hdot⟩ := hline
          apply ih hrest
          intro t ht
          cases ht
          constructor
          · apply hname
          · intro hmem
            apply hdot (mem_of_mem_strip hmem)
      | assignment key value =>
          intro e he
          rcases List.mem_cons.mp he with rfl | he
          · apply hs
          · apply ih hrest hs e he

/-- The pairs that a document assigns values to are valid. -/
theorem Document.isValid_of_mem {d : Document} {e : Pair × Text} (he : e ∈ d.assignments) :
  Pair.IsValid e.1
  := by
  constructor
  · apply section_of_mem_assignments d.isValid _ e he
    intro t ht
    cases ht
  · apply d.noDot e he

/-! ### Loading -/

/-- The name of a pair, by the section as the loop of `Config::load` keeps it. -/
theorem fullName_eq {s : Option Text} (hs : ∀ t ∈ s, t ≠ []) (key : Text) :
  (if (s.getD []).isEmpty then key else s.getD [] ++ '.' :: key) = fullName (s, key)
  := by
  rcases s with _ | s
  · rfl
  · rw [if_neg]
    · rfl
    · simpa using hs s rfl

/-- A comment begins with its mark when it is trimmed. -/
theorem head?_trim_comment {space : Text} (hspace : ∀ c ∈ space, isSpace c = true) {mark : Char}
    (hmark : mark = '#' ∨ mark = ';') (text : Text) :
  (trim (Line.comment space mark text).render).head? = some mark
  := by
  have hnot : isSpace mark = false := by
    rcases hmark with rfl | rfl <;> decide
  rw [trim, Line.render, strip_append_left hspace, ← head?_dropWhile,
    List.dropWhile_cons_of_neg (by simp [hnot]), List.head?_cons]

/-- A header is in square brackets when it is trimmed. -/
theorem trim_header {left right : Text} (hleft : ∀ c ∈ left, isSpace c = true)
    (hright : ∀ c ∈ right, isSpace c = true) (name : Text) :
  trim (Line.header left name right).render = '[' :: name ++ [']']
  := by
  rw [trim, Line.render, strip_append_left hleft, strip_append_right _ hright]
  apply strip_eq_self
  · intro c hc
    cases hc
    decide
  · intro c hc
    rw [List.getLast?_concat] at hc
    cases hc
    decide

/-- The equality sign of an assignment stays where it is when the line is trimmed. -/
theorem trim_assignment (key value : Text) :
  trim (Line.assignment key value).render
    = key.dropWhile isSpace ++ '=' :: value.rdropWhile isSpace
  := strip_append_cons key (by decide) value

/-- An assignment begins with the first character of its key when it is trimmed. -/
theorem head?_trim_assignment {key : Text} (hkey : trim key ≠ []) (value : Text) :
  (trim (Line.assignment key value).render).head? = (trim key).head?
  := by
  rw [trim_assignment, trim, ← head?_dropWhile]
  rcases hdrop : key.dropWhile isSpace with _ | ⟨c, rest⟩
  · rw [trim, ← strip_dropWhile, hdrop] at hkey
    apply absurd rfl hkey
  · rfl

/-- So it is not passed over. -/
theorem not_isSkipped_assignment {key : Text} (hkey : trim key ≠ [])
    (hhead : ∀ c ∈ (trim key).head?, c ≠ '#' ∧ c ≠ ';' ∧ c ≠ '[') (value : Text) :
  ¬ IsSkipped (Line.assignment key value).render
  := by
  rintro (hnil | hmark)
  · rw [trim_assignment] at hnil
    simp at hnil
  · rw [head?_trim_assignment hkey] at hmark
    rcases hmark with hmark | hmark
    · apply (hhead _ hmark).1 rfl
    · apply (hhead _ hmark).2.1 rfl

/-- And it is not in square brackets. -/
theorem not_isBracketed_assignment {key : Text} (hkey : trim key ≠ [])
    (hhead : ∀ c ∈ (trim key).head?, c ≠ '#' ∧ c ≠ ';' ∧ c ≠ '[') (value : Text) :
  ¬ IsBracketed (Line.assignment key value).render
  := by
  rintro ⟨hbracket, -⟩
  rw [head?_trim_assignment hkey] at hbracket
  apply (hhead _ hbracket).2.2 rfl

/-- The lines store their assignments one after the other. -/
theorem loadLines_render {ls : List Line} (hvalid : ∀ line ∈ ls, line.IsValid) {s : Option Text}
    (hs : ∀ t ∈ s, t ≠ []) (line_no : ℕ) (config : Config) :
  loadLines (ls.map Line.render) line_no (s.getD []) config
    = (.success, (assignments s ls).foldl (fun config e => config.set (fullName e.1) e.2) config)
  := by
  induction ls generalizing s line_no config with
  | nil => rfl
  | cons line ls ih =>
      rw [List.forall_mem_cons] at hvalid
      obtain ⟨hline, hrest⟩ := hvalid
      cases line with
      | blank space =>
          have htrim : trim (Line.blank space).render = [] := strip_eq_nil_iff.mpr hline
          rw [List.map_cons, loadLines_of_ok (loadLine_skip (.inl htrim) _ _ _), ih hrest hs]
          rfl
      | comment space mark text =>
          obtain ⟨hspace, hmark⟩ := hline
          have hskip : IsSkipped (Line.comment space mark text).render := by
            right
            rw [head?_trim_comment hspace hmark, Option.some.injEq, Option.some.injEq]
            apply hmark
          rw [List.map_cons, loadLines_of_ok (loadLine_skip hskip _ _ _), ih hrest hs]
          rfl
      | header left name right =>
          obtain ⟨hleft, hright, hname, -⟩ := hline
          have hload := loadLine_header (trim_header hleft hright name) (line_no + 1) (s.getD [])
            config
          rw [if_neg hname] at hload
          rw [List.map_cons, loadLines_of_ok hload]
          apply ih hrest (s := some (trim name))
          intro t ht
          cases ht
          apply hname
      | assignment key value =>
          obtain ⟨hkey, hsign, hhead⟩ := hline
          have hsign' : '=' ∉ key.dropWhile isSpace :=
            fun hmem => hsign ((List.dropWhile_sublist _).mem hmem)
          have hload := loadLine_assignment (trim_assignment key value) hsign'
            (not_isSkipped_assignment hkey hhead value) (not_isBracketed_assignment hkey hhead value)
            (line_no + 1) (s.getD []) config
          have hkey' : trim (key.dropWhile isSpace) = trim key := strip_dropWhile key
          have hvalue' : trim (value.rdropWhile isSpace) = trim value := strip_rdropWhile value
          rw [hkey', hvalue', if_neg hkey] at hload
          rw [List.map_cons, loadLines_of_ok hload, ih hrest hs, assignments, List.foldl_cons,
            ← fullName_eq hs]

/-- An empty line at the end makes no difference. -/
theorem loadLines_append_nil (ls : List Text) (line_no : ℕ) (sect : Text) (config : Config) :
  loadLines (ls ++ [[]]) line_no sect config = loadLines ls line_no sect config
  := by
  induction ls generalizing line_no sect config with
  | nil =>
      rw [List.nil_append, loadLines_of_ok (loadLine_skip (.inl rfl) _ _ _)]
      rfl
  | cons line ls ih =>
      rw [List.cons_append, loadLines, loadLines]
      simp only [ih]

/-- The lines of a document are read, but for an empty last one. -/
theorem lines_text (d : Document) (newline : Bool) :
  lines (d.text newline) = d.lines.map Line.render
    ∨ lines (d.text newline) ++ [[]] = d.lines.map Line.render
  := by
  have hbreak : ∀ line ∈ d.lines.map Line.render, '\n' ∉ line := by
    intro line hline
    obtain ⟨l, hl, rfl⟩ := List.mem_map.mp hline
    apply d.noBreak l hl
  rcases newline with _ | _
  · rw [Document.text, if_neg (by decide)]
    apply lines_dropLast_unlines hbreak
  · left
    rw [Document.text, if_pos rfl, lines_unlines hbreak]

/-- Loading a document stores its assignments one after the other. -/
theorem load_eq (d : Document) (newline : Bool) (path : String) (config : Config) :
  load path (some (d.text newline)) config
    = (.success, d.assignments.foldl (fun config e => config.set (fullName e.1) e.2) cleared)
  := by
  have hrender := loadLines_render d.isValid (s := none) (by simp) 0 cleared
  rw [load, Document.assignments, ← hrender]
  rcases lines_text d newline with h | h
  · rw [h]
    rfl
  · rw [← h, loadLines_append_nil]
    rfl

/-- After assignments, a text is stored under a name when it is the last that was assigned to a
pair of this name, or when there is no such pair and it was stored before. -/
theorem values_foldl_set (l : List (Pair × Text)) (config : Config) (q : Text) :
  (l.foldl (fun config e => config.set (fullName e.1) e.2) config).values q
    = ((l.reverse.find? (fun e => fullName e.1 = q)).map Prod.snd).or (config.values q)
  := by
  induction l using List.reverseRecOn with
  | nil => rfl
  | append_singleton l e ih =>
      rw [List.foldl_append, List.foldl_cons, List.foldl_nil, List.reverse_append,
        List.reverse_singleton, List.singleton_append, List.find?_cons, values_set]
      by_cases hq : fullName e.1 = q
      · rw [decide_eq_true hq, ← hq, Function.update_self]
        rfl
      · rw [decide_eq_false hq, Function.update_of_ne (Ne.symm hq), ih]

/-- Every pair that is assigned to has a last value. -/
theorem Document.lastValue_isSome_iff {d : Document} {p : Pair} :
  (d.lastValue p).isSome ↔ ∃ e ∈ d.assignments, e.1 = p
  := by
  rw [lastValue, Option.isSome_map, List.find?_isSome]
  simp

/-- What is stored after loading a document are the last values, under the names of the pairs. -/
theorem load_values_eq_some_iff (d : Document) (newline : Bool) (path : String) (config : Config)
    (q v : Text) :
  (load path (some (d.text newline)) config).2.values q = some v
    ↔ ∃ p, d.lastValue p = some v ∧ fullName p = q
  := by
  have hvalues : (load path (some (d.text newline)) config).2.values q
      = (d.assignments.reverse.find? (fun e => fullName e.1 = q)).map Prod.snd := by
    rw [load_eq, values_foldl_set]
    apply Option.or_none
  have hlast : ∀ e ∈ d.assignments, fullName e.1 = q →
      d.assignments.reverse.find? (fun e => fullName e.1 = q)
        = d.assignments.reverse.find? (fun e' => e'.1 = e.1) := by
    intro e he hq
    apply List.find?_congr
    intro e' he'
    rw [decide_eq_decide]
    constructor
    · intro hq'
      apply fullName_injective (Document.isValid_of_mem (List.mem_reverse.mp he'))
        (Document.isValid_of_mem he)
      rw [hq, hq']
    · intro heq
      rw [heq, hq]
  rw [hvalues]
  constructor
  · intro h
    obtain ⟨e, hfind, hv⟩ := Option.map_eq_some_iff.mp h
    have he := List.mem_reverse.mp (List.mem_of_find?_eq_some hfind)
    have hq : fullName e.1 = q := by
      simpa using List.find?_some hfind
    use e.1
    constructor
    · rw [Document.lastValue, ← hlast e he hq, h]
    · apply hq
  · rintro ⟨p, hp, hq⟩
    obtain ⟨e, he, rfl⟩ := Document.lastValue_isSome_iff.mp (Option.isSome_of_eq_some hp)
    rw [hlast e he hq]
    apply hp

/-- Loading a document succeeds; then the value under the name of a pair is the last one assigned
to this pair, a text that is not the name of such a pair has no value, and documents with the same
last values give the same configuration. -/
theorem load_text (d : Document) (newline : Bool) (path : String) (config : Config) :
  (load path (some (d.text newline)) config).1 = .success
    ∧ (∀ e ∈ d.assignments, ∀ fallback,
        some ((load path (some (d.text newline)) config).2.getString (fullName e.1) fallback)
          = d.lastValue e.1)
    ∧ (∀ q, (∀ e ∈ d.assignments, fullName e.1 ≠ q) →
        (load path (some (d.text newline)) config).2.has q = false
          ∧ ∀ fallback,
              (load path (some (d.text newline)) config).2.getString q fallback = fallback)
    ∧ ∀ (d' : Document) (newline' : Bool) (path' : String) (config' : Config),
        d'.lastValue = d.lastValue →
        load path' (some (d'.text newline')) config' = load path (some (d.text newline)) config
  := by
  constructor
  · rw [load_eq]
  constructor
  · intro e he fallback
    obtain ⟨v, hv⟩ := Option.isSome_iff_exists.mp
      (Document.lastValue_isSome_iff.mpr ⟨e, he, rfl⟩)
    rw [getString, (load_values_eq_some_iff d newline path config (fullName e.1) v).mpr
      ⟨e.1, hv, rfl⟩, hv]
  constructor
  · intro q hq
    have hnone : (load path (some (d.text newline)) config).2.values q = none := by
      rw [Option.eq_none_iff_forall_not_mem]
      intro v hv
      obtain ⟨p, hp, hname⟩ := (load_values_eq_some_iff d newline path config q v).mp hv
      obtain ⟨e, he, rfl⟩ := Document.lastValue_isSome_iff.mp (Option.isSome_of_eq_some hp)
      apply hq e he hname
    constructor
    · rw [has, hnone]
      rfl
    · intro fallback
      rw [getString, hnone]
  · intro d' newline' path' config' hlast
    have hstatus : (load path' (some (d'.text newline')) config').1
        = (load path (some (d.text newline)) config).1 := by
      rw [load_eq, load_eq]
    apply Prod.ext hstatus
    apply Config.ext
    funext q
    apply Option.ext
    intro v
    rw [load_values_eq_some_iff, load_values_eq_some_iff, hlast]

/-- The document `[pipeline]`, `stride = 16`, and the value it stores. -/
theorem load_text_stride :
  ∃ d : Document, d.text true = "[pipeline]\nstride = 16\n".toList
    ∧ (load "pipeai_test_config.ini" (some (d.text true)) cleared).2.getString
        "pipeline.stride".toList [] = "16".toList
  := by
  let d : Document :=
    { lines := [.header [] "pipeline".toList [], .assignment "stride ".toList " 16".toList]
      isValid := by
        intro line hline
        rw [List.mem_cons, List.mem_singleton] at hline
        rcases hline with rfl | rfl
        · exact ⟨by simp, by simp, by decide, by decide⟩
        · constructor
          · decide
          constructor
          · decide
          · intro c hc
            cases hc
            decide
      noBreak := by decide
      noDot := by decide }
  use d
  constructor
  · rfl
  · have h := (load_text d true "pipeai_test_config.ini" cleared).2.1
      ((some "pipeline".toList, "stride".toList), "16".toList) (by decide) []
    apply Option.some.inj (h.trans (by rfl))

end Config
