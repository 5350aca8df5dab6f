import PipeAI.Preprocess.CsvTable

/-!
# Lines of CSV files

`splitLineInto` is `CsvReader::split_line` with the vector it clears and fills.  A field may be
written as it is, or in quotes after any number of blanks; splitting a line of written fields
gives the fields back, whatever the vector held before (`splitLineInto_joinFields`).

The lines that are split are those of comma-separated fields that the scanner reads to their ends
(`isSplit_iff`).  Such a field is a text without quotes, or has a quoted text after nothing but
blanks.  The scanner does not check what comes after the quoted text: it reads any text up to the
next comma, and where all it has read is blank, also another quoted text.  These are the only lines
that are split and are not in the grammar of the format (`isSplit_iff_inGrammar_iff`).
-/

namespace CsvReader

/-! ### The vector of fields -/

/-- `CsvReader::split_line` with the vector of fields, which it clears first. -/
def splitLineInto (line : Text) (_fields : List Text) : Status × List Text :=
  match splitFrom false false [] [] line with
  | .error failure => failure
  | .ok fields => (.success, fields)

/-- A line that is split fills the vector with its fields, whatever it held before. -/
theorem splitLineInto_of_ok {line : Text} {out : List Text} (h : splitLine line = .ok out)
    (fields : List Text) :
  splitLineInto line fields = (.success, out)
  := by
  rw [splitLineInto, splitLine_eq_ok_iff.mp h]

/-! ### Written fields -/

/-- A blank is neither a comma nor a quote. -/
theorem ne_of_isBlank {c : Char} (h : isBlank c = true) :
  c ≠ ',' ∧ c ≠ '"'
  := by
  constructor
  · rintro rfl
    cases h
  · rintro rfl
    cases h

/-- Only a text of blanks is empty when trimmed. -/
theorem trim_eq_nil_iff {s : Text} :
  trim s = [] ↔ ∀ c ∈ s, isBlank c = true
  := strip_eq_nil_iff

/-- A field is written as it is, if it has no comma and no quote, or in quotes after blanks. -/
inductive Written : Text → Text → Prop where
  | plain {field : Text} (h : ∀ c ∈ field, c ≠ ',' ∧ c ≠ '"') : Written field field
  | quoted {blanks : Text} (h : ∀ c ∈ blanks, isBlank c = true) (field : Text) :
      Written (blanks ++ quote field) field

/-- A written field encodes the field. -/
theorem Written.encodes {encoded field : Text} (h : Written encoded field) :
  Encodes encoded field
  := by
  cases h with
  | plain h => apply encodes_plain h
  | @quoted blanks h =>
      intro fields rest hrest
      rw [List.append_assoc, splitFrom_plain (fun c hc => ne_of_isBlank (h c hc)),
        List.nil_append]
      apply splitFrom_quote (trim_eq_nil_iff.mpr h)
      intro hhead
      cases hrest '"' hhead

/-- Splitting a line of written fields gives the fields, whatever the vector held before. -/
theorem splitLineInto_joinFields {encoded fields : List Text}
    (h : List.Forall₂ Written encoded fields) (hne : fields ≠ []) (prior : List Text) :
  splitLineInto (joinFields encoded) prior = (.success, fields)
  := by
  apply splitLineInto_of_ok
  apply splitLine_joinFields _ hne
  apply h.imp
  intro _ _ hwritten
  apply hwritten.encodes

/-- The theorem for a field with a comma and quotes, written after a blank, and an empty one. -/
theorem splitLineInto_joinFields_two :
  joinFields [" \"a,\"\"b\"\"\"".toList, []] = " \"a,\"\"b\"\"\",".toList
    ∧ splitLineInto (joinFields [" \"a,\"\"b\"\"\"".toList, []]) [['x']]
      = (.success, ["a,\"b\"".toList, []])
  := by
  refine ⟨rfl, splitLineInto_joinFields ?_ (by simp) _⟩
  apply List.Forall₂.cons (@Written.quoted [' '] (by simp [isBlank]) "a,\"b\"".toList)
  apply List.Forall₂.cons (Written.plain (by simp)) List.Forall₂.nil

/-! ### The grammar -/

/-- The text has only blanks. -/
def Blank (s : Text) : Prop :=
  ∀ c ∈ s, isBlank c = true

/-- The text has no commas and no quotes. -/
def Plain (s : Text) : Prop :=
  ∀ c ∈ s, c ≠ ',' ∧ c ≠ '"'

theorem Blank.plain {s : Text} (h : Blank s) :
  Plain s
  := fun c hc => ne_of_isBlank (h c hc)

/-- A field of the format: a text without commas and quotes, or a quoted text between blanks. -/
inductive FieldText : Text → Prop where
  | plain {s : Text} (h : Plain s) : FieldText s
  | quoted {left right : Text} (hleft : Blank left) (s : Text) (hright : Blank right) :
      FieldText (left ++ (quote s ++ right))

/-- A line of the format: one or more fields, separated by commas. -/
def InGrammar (line : Text) : Prop :=
  ∃ parts, parts ≠ [] ∧ line = joinFields parts ∧ ∀ part ∈ parts, FieldText part

/-- A field with a quoted text that the scanner reads: after nothing but blanks, and before any
text; or, if it is blank itself, before another quoted text. -/
inductive QuotedText : Text → Prop where
  | last {left rest : Text} (hleft : Blank left) (s : Text) (hrest : Plain rest) :
      QuotedText (left ++ (quote s ++ rest))
  | again {left s rest : Text} (hleft : Blank left) (hs : Blank s) (hrest : QuotedText rest)
      (hhead : rest.head? ≠ some '"') : QuotedText (left ++ (quote s ++ rest))

/-- A field that the scanner reads and that is not of the format: after the quoted text there is
text that is not blank, or another quoted text. -/
inductive Overrun : Text → Prop where
  | text {left rest : Text} (hleft : Blank left) (s : Text) (hrest : Plain rest)
      (hnot : ¬ Blank rest) : Overrun (left ++ (quote s ++ rest))
  | quoted {left s rest : Text} (hleft : Blank left) (hs : Blank s) (hrest : QuotedText rest)
      (hhead : rest.head? ≠ some '"') : Overrun (left ++ (quote s ++ rest))

/-- The scanner reads the field to its end. -/
def Scanned (part : Text) : Prop :=
  Plain part ∨ QuotedText part

theorem quote_mem_quote (s : Text) :
  '"' ∈ quote s
  := by
  simp [quote]

theorem QuotedText.quote_mem {part : Text} (h : QuotedText part) :
  '"' ∈ part
  := by
  cases h with
  | last _ s _ =>
      apply List.mem_append_right _ (List.mem_append_left _ (quote_mem_quote s))
  | @again _ s _ _ _ _ _ =>
      apply List.mem_append_right _ (List.mem_append_left _ (quote_mem_quote s))

/-- What the scanner reads is of the format, or overruns the quoted text. -/
theorem scanned_iff {part : Text} :
  Scanned part ↔ FieldText part ∨ Overrun part
  := by
  constructor
  · rintro (h | h)
    · left
      apply FieldText.plain h
    · cases h with
      | @last left rest hleft s hrest =>
          by_cases hblank : Blank rest
          · left
            apply FieldText.quoted hleft s hblank
          · right
            apply Overrun.text hleft s hrest hblank
      | again hleft hs hrest hhead =>
          right
          apply Overrun.quoted hleft hs hrest hhead
  · rintro (h | h)
    · cases h with
      | plain h => exact Or.inl h
      | quoted hleft s hright => exact Or.inr (QuotedText.last hleft s hright.plain)
    · cases h with
      | text hleft s hrest hnot => exact Or.inr (QuotedText.last hleft s hrest)
      | quoted hleft hs hrest hhead => exact Or.inr (QuotedText.again hleft hs hrest hhead)

/-! ### Quoted texts -/

theorem doubleQuotes_cons_quote (s : Text) :
  doubleQuotes ('"' :: s) = '"' :: '"' :: doubleQuotes s
  := rfl

theorem doubleQuotes_cons_of_ne {c : Char} (hc : c ≠ '"') (s : Text) :
  doubleQuotes (c :: s) = c :: doubleQuotes s
  := by
  rw [doubleQuotes_cons, if_neg hc, List.singleton_append]

/-- A text with doubled quotes, up to the quote after it, is determined by what it is the beginning
of. -/
theorem doubleQuotes_append_inj {s s' rest rest' : Text}
    (h : doubleQuotes s ++ '"' :: rest = doubleQuotes s' ++ '"' :: rest')
    (hrest : rest.head? ≠ some '"') (hrest' : rest'.head? ≠ some '"') :
  s = s' ∧ rest = rest'
  := by
  induction s generalizing s' with
  | nil =>
      rcases s' with _ | ⟨c, s'⟩
      · exact ⟨rfl, (List.cons.inj h).2⟩
      · by_cases hc : c = '"'
        · subst hc
          cases h
          apply absurd rfl hrest
        · rw [doubleQuotes_cons_of_ne hc] at h
          apply absurd (List.cons.inj h).1.symm hc
  | cons c s ih =>
      by_cases hc : c = '"'
      · subst hc
        rcases s' with _ | ⟨c', s'⟩
        · cases h
          apply absurd rfl hrest'
        · by_cases hc' : c' = '"'
          · subst hc'
            rw [doubleQuotes_cons_quote, doubleQuotes_cons_quote] at h
            obtain ⟨rfl, rfl⟩ := ih (List.cons.inj (List.cons.inj h).2).2
            exact ⟨rfl, rfl⟩
          · rw [doubleQuotes_cons_of_ne hc'] at h
            apply absurd (List.cons.inj h).1.symm hc'
      · rw [doubleQuotes_cons_of_ne hc] at h
        rcases s' with _ | ⟨c', s'⟩
        · apply absurd (List.cons.inj h).1 hc
        · by_cases hc' : c' = '"'
          · subst hc'
            apply absurd (List.cons.inj h).1 hc
          · rw [doubleQuotes_cons_of_ne hc'] at h
            obtain ⟨rfl, htail⟩ := List.cons.inj h
            obtain ⟨rfl, rfl⟩ := ih htail
            exact ⟨rfl, rfl⟩

/-- Plain texts before a quote are determined by what they are the beginning of. -/
theorem plain_append_inj {left left' rest rest' : Text} (hleft : Plain left)
    (hleft' : Plain left') (h : left ++ '"' :: rest = left' ++ '"' :: rest') :
  left = left' ∧ rest = rest'
  := by
  have htake : ∀ {left : Text} (rest : Text), Plain left →
      (left ++ '"' :: rest).takeWhile (fun c => c ≠ '"') = left := by
    intro left rest hleft
    rw [List.takeWhile_append_of_pos, List.takeWhile_cons_of_neg, List.append_nil]
    · simp
    · intro c hc
      simpa using (hleft c hc).2
  have heq : left = left' := by
    rw [← htake rest hleft, h, htake rest' hleft']
  subst heq
  exact ⟨rfl, by simpa using h⟩

/-- A field that overruns its quoted text is not of the format. -/
theorem Overrun.not_fieldText {part : Text} (h : Overrun part) :
  ¬ FieldText part
  := by
  have hblank : ∀ {left s rest : Text}, Blank left → rest.head? ≠ some '"' →
      FieldText (left ++ (quote s ++ rest)) → Blank rest := by
    intro left s rest hleft hrest hfield
    generalize hpart : left ++ (quote s ++ rest) = part at hfield
    cases hfield with
    | plain hplain =>
        have hmem : '"' ∈ part := by
          rw [← hpart]
          apply List.mem_append_right _ (List.mem_append_left _ (quote_mem_quote s))
        apply absurd rfl (hplain '"' hmem).2
    | @quoted left' right hleft' s' hright =>
        have hright' : right.head? ≠ some '"' := by
          intro hhead
          apply (hright.plain '"' (List.mem_of_mem_head? hhead)).2 rfl
        simp only [quote, List.cons_append, List.append_assoc] at hpart
        obtain ⟨rfl, heq⟩ := plain_append_inj hleft.plain hleft'.plain hpart
        obtain ⟨rfl, rfl⟩ := doubleQuotes_append_inj heq hrest hright'
        apply hright
  cases h with
  | text hleft s hrest hnot =>
      intro hfield
      apply hnot (hblank hleft _ hfield)
      intro hhead
      apply (hrest '"' (List.mem_of_mem_head? hhead)).2 rfl
  | quoted hleft hs hrest hhead =>
      intro hfield
      apply ((hblank hleft hhead hfield).plain '"' hrest.quote_mem).2 rfl

/-! ### The lines that are split -/

/-- Inside quotes, a line that is split goes on with a text with doubled quotes and a quote. -/
theorem exists_of_splitFrom_quoted {field line : Text} {fields out : List Text}
    (h : splitFrom false true field fields line = .ok out) :
  ∃ s rest, line = doubleQuotes s ++ '"' :: rest ∧ rest.head? ≠ some '"'
    ∧ splitFrom false false (field ++ s) fields rest = .ok out
  := by
  induction hn : line.length using Nat.strong_induction_on generalizing field line with
  | _ n ih =>
      rcases line with _ | ⟨c, line⟩
      · cases h
      · rw [splitFrom] at h
        split at h
        · rename_i hc
          subst hc
          split at h
          · rename_i hhead
            obtain ⟨rest, rfl⟩ := List.head?_eq_some_iff.mp hhead
            rw [splitFrom] at h
            obtain ⟨s, rest', rfl, hrest', h⟩ := ih rest.length
              (by rw [← hn]; simp only [List.length_cons]; omega) h rfl
            use '"' :: s, rest'
            rw [doubleQuotes_cons_quote]
            rw [List.append_assoc] at h
            exact ⟨rfl, hrest', h⟩
          · rename_i hhead
            use [], line, rfl, hhead
            rw [List.append_nil]
            apply h
        · rename_i hc
          obtain ⟨s, rest', rfl, hrest', h⟩ := ih line.length
            (by rw [← hn, List.length_cons]; omega) h rfl
          use c :: s, rest'
          rw [doubleQuotes_cons_of_ne hc]
          rw [List.append_assoc] at h
          exact ⟨rfl, hrest', h⟩

/-- Outside of quotes, a line that is split goes on with a text without quotes, or, where the field
is blank so far, with a field with a quoted text; then it ends or goes on after a comma. -/
theorem exists_of_splitFrom {field line : Text} {fields out : List Text}
    (h : splitFrom false false field fields line = .ok out) :
  ∃ part tail, line = part ++ tail
    ∧ (Plain part ∨ trim field = [] ∧ QuotedText part)
    ∧ (tail = [] ∨ ∃ line' fields', tail = ',' :: line'
      ∧ splitFrom false false [] fields' line' = .ok out)
  := by
  induction hn : line.length using Nat.strong_induction_on generalizing field line with
  | _ n ih =>
      obtain ⟨text, tail, rfl, htext, hend | ⟨line', rfl, hcomma⟩ | ⟨rest, rfl, hquote⟩⟩ :=
        splitFrom_cases h
      · exact ⟨text, tail, rfl, Or.inl htext, Or.inl hend.1⟩
      · exact ⟨text, _, rfl, Or.inl htext, Or.inr ⟨line', _, rfl, hcomma⟩⟩
      · rw [splitFrom_plain htext, splitFrom_open hquote] at h
        obtain ⟨s, rest', rfl, hrest', h⟩ := exists_of_splitFrom_quoted h
        rw [trim_eq_nil_iff] at hquote
        have hfield : trim field = [] :=
          trim_eq_nil_iff.mpr (fun c hc => hquote c (List.mem_append_left _ hc))
        have hleft : Blank text := fun c hc => hquote c (List.mem_append_right _ hc)
        obtain ⟨part, tail, rfl, hpart, htail⟩ := ih rest'.length
          (by rw [← hn]; simp only [List.length_append, List.length_cons]; omega) h rfl
        refine ⟨text ++ (quote s ++ part), tail, by simp [quote], Or.inr ⟨hfield, ?_⟩, htail⟩
        rcases hpart with hplain | ⟨hs, hquoted⟩
        · apply QuotedText.last hleft s hplain
        · apply QuotedText.again hleft (trim_eq_nil_iff.mp hs) hquoted
          rcases part with _ | ⟨c, part⟩
          · simp
          · apply hrest'

/-- A line that is split has comma-separated fields that the scanner reads to their ends. -/
theorem scanned_of_splitFrom {line : Text} {fields out : List Text}
    (h : splitFrom false false [] fields line = .ok out) :
  ∃ parts, parts ≠ [] ∧ line = joinFields parts ∧ ∀ part ∈ parts, Scanned part
  := by
  induction hn : line.length using Nat.strong_induction_on generalizing line fields with
  | _ n ih =>
      obtain ⟨part, tail, rfl, hpart, rfl | ⟨line', fields', rfl, hcomma⟩⟩ :=
        exists_of_splitFrom h
      · refine ⟨[part], by simp, by simp [joinFields], ?_⟩
        intro part' hpart'
        rw [List.mem_singleton.mp hpart']
        apply hpart.imp_right And.right
      · obtain ⟨parts, hne, rfl, hparts⟩ := ih line'.length
          (by rw [← hn]; simp only [List.length_append, List.length_cons]; omega) hcomma rfl
        obtain ⟨e, es, rfl⟩ := List.exists_cons_of_ne_nil hne
        refine ⟨part :: e :: es, by simp, by rw [joinFields_cons_cons], ?_⟩
        intro part' hpart'
        rcases List.mem_cons.mp hpart' with rfl | hpart'
        · apply hpart.imp_right And.right
        · apply hparts part' hpart'

/-- The scanner reads a field with a quoted text where the field is blank so far. -/
theorem QuotedText.splitFrom_eq {part : Text} (h : QuotedText part) :
  ∃ out, ∀ field fields rest, trim field = [] → (∀ c ∈ rest.head?, c = ',') →
    splitFrom false false field fields (part ++ rest) = splitFrom false false out fields rest
  := by
  have hblank : ∀ {field left : Text}, trim field = [] → Blank left →
      trim (field ++ left) = [] := by
    intro field left hfield hleft
    rw [trim_eq_nil_iff] at hfield ⊢
    intro c hc
    rcases List.mem_append.mp hc with hc | hc
    · apply hfield c hc
    · apply hleft c hc
  induction h with
  | @last left right hleft s hright =>
      use s ++ right
      intro field fields rest hfield hrest
      rw [List.append_assoc, splitFrom_plain hleft.plain, List.append_assoc,
        splitFrom_quote (hblank hfield hleft), splitFrom_plain hright]
      rcases right with _ | ⟨c, right⟩
      · intro hhead
        cases hrest '"' hhead
      · intro hhead
        apply (hright c List.mem_cons_self).2 (Option.some.inj hhead)
  | @again left s right hleft hs hright hhead ih =>
      obtain ⟨out, hout⟩ := ih
      use out
      intro field fields rest hfield hrest
      rw [List.append_assoc, splitFrom_plain hleft.plain, List.append_assoc,
        splitFrom_quote (hblank hfield hleft), hout s fields rest (trim_eq_nil_iff.mpr hs) hrest]
      rcases right with _ | ⟨c, right⟩
      · cases hright.quote_mem
      · apply hhead

/-- What the scanner reads to the end encodes a field. -/
theorem Scanned.encodes {part : Text} (h : Scanned part) :
  ∃ field, Encodes part field
  := by
  rcases h with h | h
  · exact ⟨part, encodes_plain h⟩
  · obtain ⟨out, hout⟩ := h.splitFrom_eq
    exact ⟨out, fun fields rest hrest => hout [] fields rest rfl hrest⟩

/-- The lines that are split are those of comma-separated fields that the scanner reads to their
ends. -/
theorem isSplit_iff {line : Text} :
  (∃ fields, splitLine line = .ok fields)
    ↔ ∃ parts, parts ≠ [] ∧ line = joinFields parts ∧ ∀ part ∈ parts, Scanned part
  := by
  constructor
  · rintro ⟨fields, h⟩
    apply scanned_of_splitFrom (splitLine_eq_ok_iff.mp h)
  · rintro ⟨parts, hne, rfl, hparts⟩
    choose! f hf using fun part hpart => (hparts part hpart).encodes
    use parts.map f
    apply splitLine_joinFields _ (by simpa using hne)
    rw [List.forall₂_map_right_iff, List.forall₂_same]
    apply hf

/-! ### The fields of a line are determined -/

/-- Whether the end of the text is inside quotes, if it has no comma outside of them. -/
def quotedAfter : Bool → Text → Option Bool
  | quoted, [] => some quoted
  | quoted, c :: rest =>
      if c = '"' then quotedAfter (!quoted) rest
      else if c = ',' && !quoted then none
      else quotedAfter quoted rest

theorem quotedAfter_append (quoted : Bool) (s t : Text) :
  quotedAfter quoted (s ++ t) = (quotedAfter quoted s).bind (fun quoted => quotedAfter quoted t)
  := by
  induction s generalizing quoted with
  | nil => rfl
  | cons c s ih =>
      rw [List.cons_append, quotedAfter, quotedAfter]
      split
      · apply ih
      · split
        · rfl
        · apply ih

theorem quotedAfter_plain {s : Text} (h : Plain s) :
  quotedAfter false s = some false
  := by
  induction s with
  | nil => rfl
  | cons c s ih =>
      obtain ⟨hcomma, hquote⟩ := h c List.mem_cons_self
      rw [quotedAfter, if_neg hquote, if_neg (by simpa using hcomma),
        ih (fun d hd => h d (List.mem_cons_of_mem _ hd))]

theorem quotedAfter_doubleQuotes (s : Text) :
  quotedAfter true (doubleQuotes s) = some true
  := by
  induction s with
  | nil => rfl
  | cons c s ih =>
      by_cases hc : c = '"'
      · subst hc
        rw [doubleQuotes_cons_quote, quotedAfter, if_pos rfl, quotedAfter, if_pos rfl,
          Bool.not_true, Bool.not_false, ih]
      · rw [doubleQuotes_cons_of_ne hc, quotedAfter, if_neg hc, if_neg (by simp), ih]

theorem quotedAfter_quote (s : Text) :
  quotedAfter false (quote s) = some false
  := by
  rw [quote, quotedAfter, if_pos rfl, Bool.not_false, quotedAfter_append, quotedAfter_doubleQuotes]
  rfl

/-- What the scanner reads to the end has no comma outside of quotes, and ends outside of them. -/
theorem Scanned.quotedAfter_eq {part : Text} (h : Scanned part) :
  quotedAfter false part = some false
  := by
  rcases h with h | h
  · apply quotedAfter_plain h
  · induction h with
    | last hleft s hrest =>
        rw [quotedAfter_append, quotedAfter_plain hleft.plain, Option.bind_some, quotedAfter_append,
          quotedAfter_quote, Option.bind_some, quotedAfter_plain hrest]
    | again hleft hs hrest hhead ih =>
        rw [quotedAfter_append, quotedAfter_plain hleft.plain, Option.bind_some, quotedAfter_append,
          quotedAfter_quote, Option.bind_some, ih]

/-- A field that is read to the end, and before the end or a comma, is not part of a longer one. -/
theorem Scanned.eq_nil_of_append {part more rest : Text} (h : Scanned part)
    (hmore : Scanned (part ++ more)) (hrest : ∀ c ∈ (more ++ rest).head?, c = ',') :
  more = []
  := by
  rcases more with _ | ⟨c, more⟩
  · rfl
  · obtain rfl : c = ',' := hrest c (by simp)
    have heq := hmore.quotedAfter_eq
    rw [quotedAfter_append, h.quotedAfter_eq, Option.bind_some, quotedAfter, if_neg (by decide),
      if_pos (by decide)] at heq
    cases heq

/-- The first field of a line is determined. -/
theorem Scanned.append_inj {part part' rest rest' : Text} (h : Scanned part) (h' : Scanned part')
    (hrest : ∀ c ∈ rest.head?, c = ',') (hrest' : ∀ c ∈ rest'.head?, c = ',')
    (heq : part ++ rest = part' ++ rest') :
  part = part' ∧ rest = rest'
  := by
  rcases List.append_eq_append_iff.mp heq with ⟨more, rfl, rfl⟩ | ⟨more, rfl, rfl⟩
  · obtain rfl := h.eq_nil_of_append h' hrest
    simp
  · obtain rfl := h'.eq_nil_of_append h hrest'
    simp

/-- The rest of a line after its first field begins with a comma. -/
theorem head?_flatMap_comma (parts : List Text) :
  ∀ c ∈ (parts.flatMap (fun part => ',' :: part)).head?, c = ','
  := by
  intro c hc
  cases parts with
  | nil => cases hc
  | cons part parts =>
      cases hc
      rfl

/-- The fields of a line are determined. -/
theorem joinFields_inj {parts parts' : List Text} (hne : parts ≠ []) (hne' : parts' ≠ [])
    (h : ∀ part ∈ parts, Scanned part) (h' : ∀ part ∈ parts', Scanned part)
    (heq : joinFields parts = joinFields parts') :
  parts = parts'
  := by
  induction parts generalizing parts' with
  | nil => apply absurd rfl hne
  | cons part parts ih =>
      obtain ⟨part', parts', rfl⟩ := List.exists_cons_of_ne_nil hne'
      rw [joinFields_cons, joinFields_cons] at heq
      obtain ⟨rfl, hrest⟩ := (h part List.mem_cons_self).append_inj (h' part' List.mem_cons_self)
        (head?_flatMap_comma parts) (head?_flatMap_comma parts') heq
      congr 1
      rcases parts with _ | ⟨e, es⟩
      · rcases parts' with _ | ⟨e', es'⟩
        · rfl
        · cases hrest
      · rcases parts' with _ | ⟨e', es'⟩
        · cases hrest
        · apply ih (by simp) (by simp) (fun part hpart => h part (List.mem_cons_of_mem _ hpart))
            (fun part hpart => h' part (List.mem_cons_of_mem _ hpart))
          rw [List.flatMap_cons, List.flatMap_cons, List.cons_append, List.cons_append] at hrest
          rw [joinFields_cons, joinFields_cons]
          apply (List.cons.inj hrest).2

/-- A line of fields that the scanner reads is in the grammar if they are of the format. -/
theorem inGrammar_joinFields {parts : List Text} (hne : parts ≠ [])
    (h : ∀ part ∈ parts, Scanned part) :
  InGrammar (joinFields parts) ↔ ∀ part ∈ parts, FieldText part
  := by
  constructor
  · rintro ⟨parts', hne', heq, hparts'⟩
    rw [joinFields_inj hne hne' h (fun part hpart => scanned_iff.mpr (Or.inl (hparts' part hpart)))
      heq]
    apply hparts'
  · intro hparts
    exact ⟨parts, hne, rfl, hparts⟩

/-- A line is split exactly when it is in the grammar, unless it has comma-separated fields each of
which is of the format or overruns its quoted text, and one of them does. -/
theorem isSplit_iff_inGrammar_iff (line : Text) :
  ((∃ fields, splitLine line = .ok fields) ↔ InGrammar line)
    ↔ ¬ ∃ parts, parts ≠ [] ∧ line = joinFields parts
      ∧ (∀ part ∈ parts, FieldText part ∨ Overrun part) ∧ ∃ part ∈ parts, Overrun part
  := by
  rw [isSplit_iff]
  constructor
  · rintro h ⟨parts, hne, rfl, hparts, part, hpart, hover⟩
    have hscanned : ∀ part ∈ parts, Scanned part :=
      fun part hpart => scanned_iff.mpr (hparts part hpart)
    have hgrammar := h.mp ⟨parts, hne, rfl, hscanned⟩
    apply hover.not_fieldText ((inGrammar_joinFields hne hscanned).mp hgrammar part hpart)
  · intro h
    constructor
    · rintro ⟨parts, hne, rfl, hparts⟩
      rw [inGrammar_joinFields hne hparts]
      intro part hpart
      rcases scanned_iff.mp (hparts part hpart) with hfield | hover
      · apply hfield
      · apply absurd _ h
        exact ⟨parts, hne, rfl, fun part hpart => scanned_iff.mp (hparts part hpart), part, hpart,
          hover⟩
    · rintro ⟨parts, hne, rfl, hparts⟩
      exact ⟨parts, hne, rfl, fun part hpart => scanned_iff.mpr (Or.inl (hparts part hpart))⟩

/-- The line `"abc"def` is split, but not in the grammar. -/
theorem not_inGrammar_of_text_after_quote :
  ¬ ∀ line, '\n' ∉ line → ((∃ fields, splitLine line = .ok fields) ↔ InGrammar line)
  := by
  intro h
  have hover : Overrun "\"abc\"def".toList :=
    @Overrun.text [] "def".toList (by simp [Blank]) "abc".toList
      (by simp [Plain]) (by simp [Blank, isBlank])
  have hgrammar := (h "\"abc\"def".toList (by decide)).mp ⟨["abcdef".toList], by rfl⟩
  have hscanned : ∀ part ∈ ["\"abc\"def".toList], Scanned part := by
    intro part hpart
    rw [List.mem_singleton.mp hpart]
    apply scanned_iff.mpr (Or.inr hover)
  apply hover.not_fieldText
  apply (inGrammar_joinFields (by simp) hscanned).mp hgrammar
  apply List.mem_singleton_self

end CsvReader
