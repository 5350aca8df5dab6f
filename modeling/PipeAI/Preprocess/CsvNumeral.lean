import PipeAI.Preprocess.CsvTable
import PipeAI.Text.Numerals

/-!
# What the CSV reader takes for a number

`CsvReader::parse_float` lets `strtof` read the field up to its first null character, and then
compares the character where it has stopped with a null character, instead of the place where it has
stopped with the end of the field.  So what follows a null character in the field is not looked at.

A field that is read is blank or a numeral as a whole, exactly when no null character follows a part
that is a numeral as a whole; and this goes for the fields of a row (`parseFloat_whole_iff`).
-/

namespace CsvReader

/-! ### Fields -/

/-- The field is blank or a numeral. -/
def IsWhole (text : Text) : Prop :=
  trim text = [] ∨ IsNumeral (trim text)

/-- The field is blank or, up to its first null character, a numeral. -/
def IsRead (text : Text) : Prop :=
  trim text = [] ∨ IsNumeral (cString (trim text))

/-- The field has a null character after a part that is a numeral. -/
def HidesTail (text : Text) : Prop :=
  '\x00' ∈ trim text ∧ IsNumeral (cString (trim text))

/-- A field is read as not a number when it is blank, and as what `strtof` reads when it is a numeral
up to its first null character. -/
theorem parseFloat_eq_ok_iff (F : FloatType) (text : Text) (value : Flt ℚ) :
  parseFloat (strtof F) text = .ok value
    ↔ trim text = [] ∧ value = .nan
      ∨ IsNumeral (cString (trim text)) ∧ value = (strtof F (cString (trim text))).1
  := by
  rw [parseFloat]
  rcases htrim : trim text with _ | ⟨c, rest⟩
  · have hnil : ¬ IsNumeral (cString []) := fun h => h.ne_nil rfl
    simp only [List.isEmpty_nil, if_true, Except.ok.injEq, hnil, false_and, or_false, true_and]
    exact eq_comm
  · have hwhole := strtof_whole_iff F (cString (c :: rest))
    simp only [List.isEmpty_cons, Bool.false_eq_true, if_false, List.cons_ne_nil, false_and,
      false_or]
    split
    · rename_i hstop
      have hnot := mt hwhole.mpr (not_not.mpr hstop)
      simp only [reduceCtorEq, hnot, false_and]
    · rename_i hstop
      simp only [Except.ok.injEq, hwhole.mp hstop, true_and]
      exact eq_comm

/-- Some value is read from a field exactly when it is a numeral up to its first null character. -/
theorem exists_parseFloat_iff (F : FloatType) (text : Text) :
  (∃ value, parseFloat (strtof F) text = .ok value) ↔ IsRead text
  := by
  simp only [parseFloat_eq_ok_iff]
  constructor
  · rintro ⟨value, h | h⟩
    · left
      apply h.1
    · right
      apply h.1
  · rintro (h | h)
    · exact ⟨_, .inl ⟨h, rfl⟩⟩
    · exact ⟨_, .inr ⟨h, rfl⟩⟩

/-- A field that is read is a whole numeral exactly when no null character follows one. -/
theorem IsRead.isWhole_iff {text : Text} (h : IsRead text) :
  IsWhole text ↔ ¬ HidesTail text
  := by
  constructor
  · rintro (hblank | hnumeral) ⟨hnull, -⟩
    · rw [hblank] at hnull
      cases hnull
    · apply hnumeral.not_mem hnull
  · intro htail
    rcases h with hblank | hnumeral
    · left
      apply hblank
    · right
      have hnull : '\x00' ∉ trim text := fun hnull => htail ⟨hnull, hnumeral⟩
      rw [cString_eq_self hnull] at hnumeral
      apply hnumeral

/-! ### Rows -/

/-- The fields of a row that are read. -/
def sampleTexts (columns : Columns) (fields : List Text) : List Text :=
  fields.getD columns.imu [] :: List.ofFn (fun ch => fields.getD (columns.radar ch) [])

/-- A sample is read from a row exactly when all its fields are read. -/
theorem exists_readSample_iff (F : FloatType) (columns : Columns) (fields : List Text)
    (line_no size : ℕ) :
  (∃ sample, readSample (strtof F) columns fields line_no size = .ok sample)
    ↔ ∀ text ∈ sampleTexts columns fields, IsRead text
  := by
  rw [sampleTexts, List.forall_mem_cons, List.forall_mem_ofFn_iff]
  simp only [← exists_parseFloat_iff F]
  constructor
  · rintro ⟨sample, hsample⟩
    obtain ⟨-, hradar, himu⟩ := holds_of_readSample hsample
    exact ⟨⟨_, himu⟩, fun ch => ⟨_, hradar ch⟩⟩
  · rintro ⟨⟨imu, himu⟩, hradar⟩
    choose radar hradar using hradar
    have hholds : Holds (strtof F) columns fields ⟨0, radar, imu⟩ := ⟨hradar, himu⟩
    exact ⟨_, readSample_of_holds hholds line_no size⟩

/-- What is read from a field is nothing, from a blank one, or a whole numeral, exactly when no null
character follows a numeral in it.  When a sample is read from a row, its fields are blank or whole
numerals, exactly when no null character follows a numeral in them, or one of them is not read. -/
theorem parseFloat_whole_iff (F : FloatType) (text : Text) (columns : Columns)
    (fields : List Text) (line_no size : ℕ) :
  ((∀ value, parseFloat (strtof F) text = .ok value →
      trim text = [] ∧ value = .nan ∨ IsNumeral (trim text)) ↔ ¬ HidesTail text)
    ∧ ((∀ sample, readSample (strtof F) columns fields line_no size = .ok sample →
        ∀ field ∈ sampleTexts columns fields, IsWhole field)
      ↔ ((∀ field ∈ sampleTexts columns fields, IsRead field) →
        ∀ field ∈ sampleTexts columns fields, ¬ HidesTail field))
  := by
  constructor
  · constructor
    · intro h htail
      have hread : IsRead text := .inr htail.2
      obtain ⟨value, hvalue⟩ := (exists_parseFloat_iff F text).mpr hread
      apply hread.isWhole_iff.mp _ htail
      apply (h value hvalue).imp_left And.left
    · intro htail value hvalue
      rcases (parseFloat_eq_ok_iff F text value).mp hvalue with hblank | hnumeral
      · left
        apply hblank
      · have hread : IsRead text := .inr hnumeral.1
        rcases hread.isWhole_iff.mpr htail with hblank | hwhole
        · rw [hblank] at hnumeral
          apply absurd rfl hnumeral.1.ne_nil
        · right
          apply hwhole
  · rw [← forall_exists_index (p := fun sample =>
      readSample (strtof F) columns fields line_no size = .ok sample)
      (q := fun _ => ∀ field ∈ sampleTexts columns fields, IsWhole field),
      exists_readSample_iff]
    constructor
    · intro h hread field hfield
      apply (hread field hfield).isWhole_iff.mp (h hread field hfield)
    · intro h hread field hfield
      apply (hread field hfield).isWhole_iff.mpr (h hread field hfield)

/-- The number 1 is read from a field in which more than white space follows a null character. -/
theorem not_parseFloat_whole :
  parseFloat (strtof .float) "1\x00xyz".toList = .ok (.fin 1)
    ∧ trim "1\x00xyz".toList ≠ [] ∧ ¬ IsNumeral (trim "1\x00xyz".toList)
  := by
  refine ⟨?_, by decide, ?_⟩
  · decide +kernel
  · intro h
    apply h.not_mem
    decide

end CsvReader
