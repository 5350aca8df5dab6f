import PipeAI.Preprocess.CsvTable
import PipeAI.Text.Numbers
import Mathlib.Data.Fin.VecNotation
import Mathlib.Logic.Equiv.Fin.Rotate

/-!
# Tables in quotes

A table has columns with distinct names, among them those that `CsvReader.read` asks for; its
fields are arbitrary texts without line breaks.  It is written by quoting every field.

The reader looks the columns up by their names: it reads from each row the fields in the columns
of the radar channels and of the inertial sensor, and complains about them by their names and
lines.  So a table with its columns permuted is read like the table (`read_permute`).
-/

universe u

namespace CsvReader

variable {K : Type u}

/-! ### Quoted lines -/

/-- A row written with each of its fields in quotes. -/
def quotedLine (fields : List Text) : Text :=
  joinFields (fields.map quote)

/-- A character of a quoted text is a quote, or a character of the text. -/
theorem mem_quote {s : Text} {c : Char} (h : c ∈ quote s) :
  c = '"' ∨ c ∈ s
  := by
  rw [quote, List.mem_cons, List.mem_append, List.mem_singleton, doubleQuotes,
    List.mem_flatMap] at h
  rcases h with h | ⟨d, hd, h⟩ | h
  · left
    apply h
  · split at h
    · left
      simpa using h
    · right
      rw [List.mem_singleton] at h
      rw [h]
      apply hd
  · left
    apply h

/-- A quoted row has no line break when its fields have none. -/
theorem newline_notMem_quotedLine {fields : List Text} (h : ∀ field ∈ fields, '\n' ∉ field) :
  '\n' ∉ quotedLine fields
  := by
  intro hmem
  rcases mem_joinFields hmem with hcomma | ⟨encoded, hencoded, hmem⟩
  · cases hcomma
  · obtain ⟨field, hfield, rfl⟩ := List.mem_map.mp hencoded
    rcases mem_quote hmem with hquote | hmem
    · cases hquote
    · apply h field hfield hmem

/-- A quoted row begins with a quote. -/
theorem head?_quotedLine {fields : List Text} (hne : fields ≠ []) :
  (quotedLine fields).head? = some '"'
  := by
  obtain ⟨field, rest, rfl⟩ := List.exists_cons_of_ne_nil hne
  rw [quotedLine, List.map_cons, joinFields_cons]
  rfl

/-- A quoted row ends with a quote. -/
theorem getLast?_quotedLine {fields : List Text} (hne : fields ≠ []) :
  (quotedLine fields).getLast? = some '"'
  := by
  rcases List.eq_nil_or_concat fields with rfl | ⟨init, field, rfl⟩
  · exact absurd rfl hne
  · rw [List.concat_eq_append, quotedLine, List.map_append, List.map_singleton,
      getLast?_joinFields (by simp [quote]), quote, List.getLast?_cons, List.getLast?_concat]
    rfl

/-- A quoted row is a line of the file that holds the fields of the row. -/
theorem isRow_quotedLine {fields : List Text} (hne : fields ≠ []) :
  IsRow (quotedLine fields) fields
  := by
  have hdrop : dropCarriageReturn (quotedLine fields) = quotedLine fields := by
    apply dropCarriageReturn_eq_self
    rw [getLast?_quotedLine hne]
    decide
  constructor
  · rw [hdrop, trim, ne_eq, strip_eq_nil_iff]
    intro hblank
    have hquote := hblank '"' (List.mem_of_mem_head? (head?_quotedLine hne))
    cases hquote
  · rw [hdrop]
    apply splitLine_joinFields _ hne
    rw [List.forall₂_map_left_iff, List.forall₂_same]
    intro field _
    apply encodes_quote

/-- A text that begins with a quote has no byte order mark. -/
theorem hasUtf8Bom_of_quote {s : Text} (h : s.head? = some '"') :
  hasUtf8Bom s = false
  := by
  rcases s with _ | ⟨c, s⟩
  · cases h
  · cases h
    rw [hasUtf8Bom, decide_eq_false_iff_not, List.take_succ_cons, List.cons.injEq]
    intro hbom
    revert hbom
    simp

/-! ### The columns -/

/-- One more column takes its name, also from a column before. -/
theorem columnMap_concat (headers : List Text) (header : Text) :
  columnMap (headers ++ [header])
    = Function.update (columnMap headers) (trim header) (some headers.length)
  := by
  rw [columnMap, List.zipIdx_append, List.foldl_append, columnMap]
  simp

/-- Distinct names are mapped to their columns. -/
theorem columnMap_ofFn {n : ℕ} {header : Fin n → Text}
    (hdistinct : Function.Injective (fun i => trim (header i))) (i : Fin n) :
  columnMap (List.ofFn header) (trim (header i)) = some (i : ℕ)
  := by
  induction n with
  | zero => apply i.elim0
  | succ n ih =>
      rw [List.ofFn_succ', List.concat_eq_append, columnMap_concat, List.length_ofFn]
      rcases Fin.eq_castSucc_or_eq_last i with ⟨j, rfl⟩ | rfl
      · have hne : trim (header j.castSucc) ≠ trim (header (Fin.last n)) := by
          intro h
          exact absurd (hdistinct h) (Fin.castSucc_ne_last j)
        have hinit : Function.Injective (fun i : Fin n => trim (header i.castSucc)) := by
          intro i j h
          apply Fin.castSucc_injective n (hdistinct h)
        rw [Function.update_of_ne hne, ih hinit]
        rfl
      · rw [Function.update_self, Fin.val_last]

/-- The reader finds the columns with the names of the radar channels and the inertial sensor. -/
theorem findColumns_ofFn {n : ℕ} {header : Fin n → Text}
    (hdistinct : Function.Injective (fun i => trim (header i))) {r : Fin kRadarChannels → Fin n}
    {m : Fin n} (hr : ∀ ch, trim (header (r ch)) = radarName ch)
    (hm : trim (header m) = imuName) :
  findColumns (List.ofFn header) = .ok ⟨fun ch => r ch, m⟩
  := by
  apply findColumns_eq_ok
  · intro ch
    rw [← hr, columnMap_ofFn hdistinct]
  · rw [← hm, columnMap_ofFn hdistinct]

/-! ### The rows -/

/-- The rows have the same texts, one in some columns and the other in others. -/
def SameTexts (columns columns' : Columns) (fields fields' : List Text) : Prop :=
  (∀ ch, fields.getD (columns.radar ch) [] = fields'.getD (columns'.radar ch) [])
    ∧ fields.getD columns.imu [] = fields'.getD columns'.imu []

section Rows

variable {strtof : Text → Flt K × ℕ} {columns columns' : Columns}

/-- The same is read from rows with the same texts. -/
theorem readSample_congr {fields fields' : List Text}
    (h : SameTexts columns columns' fields fields') (line_no size : ℕ) :
  readSample strtof columns fields line_no size = readSample strtof columns' fields' line_no size
  := by
  obtain ⟨hradar, himu⟩ := h
  rw [readSample, readSample]
  simp only [readValue_eq, hradar, himu]

/-- The same is read from lists of rows with the same texts. -/
theorem readRows_congr {rows rows' : List (List Text)}
    (h : List.Forall₂ (SameTexts columns columns') rows rows') (line_no : ℕ)
    (samples : List (RawSample K)) :
  readRows strtof columns rows line_no samples = readRows strtof columns' rows' line_no samples
  := by
  induction h generalizing line_no samples with
  | nil => rfl
  | @cons fields fields' rows rows' hfields _ ih =>
      rw [readRows, readRows, readSample_congr hfields]
      rcases readSample strtof columns' fields' (line_no + 1) samples.length with status | sample
      · rfl
      · apply ih

/-- The same is read from tables with the same texts. -/
theorem readTable_congr {headers headers' : List Text}
    (hcolumns : findColumns headers = .ok columns)
    (hcolumns' : findColumns headers' = .ok columns') {rows rows' : List (List Text)}
    (h : List.Forall₂ (SameTexts columns columns') rows rows') (path : String)
    (samples : List (RawSample K)) :
  readTable strtof path headers rows samples = readTable strtof path headers' rows' samples
  := by
  rw [readTable, readTable, hcolumns, hcolumns']
  simp only [readRows_congr h]

/-- When a table is read without an error, then a sample is read from each row, with its values,
and numbered from zero. -/
theorem samples_of_readTable {headers : List Text} (hcolumns : findColumns headers = .ok columns)
    {rows : List (List Text)} {path : String} {samples samples' : List (RawSample K)}
    {status : Status} (h : readTable strtof path headers rows samples = (status, samples'))
    (hok : status.ok = true) :
  List.Forall₂ (Holds strtof columns) rows samples'
    ∧ ∀ i sample, samples'[i]? = some sample → sample.timestamp_ns = UInt64.ofNat i
  := by
  rw [readTable, hcolumns] at h
  rcases hrows : readRows strtof columns rows 1 ([] : List (RawSample K)) with ⟨status', out⟩
  simp only [hrows] at h
  have hout : status'.ok = true ∧ out = samples' := by
    split at h
    · rename_i hfail
      cases h
      rw [hok] at hfail
      cases hfail
    · rename_i hsuccess
      have hsuccess : status'.ok = true := by
        simpa using hsuccess
      split at h
      · cases h
        exact ⟨hsuccess, rfl⟩
      · cases h
        exact ⟨hsuccess, rfl⟩
  obtain ⟨hok', rfl⟩ := hout
  obtain ⟨-, more, rfl, hmore, htime⟩ := exists_samples_of_readRows hrows hok'
  constructor
  · apply hmore
  · intro i sample hi
    rw [htime i sample hi, List.length_nil, Nat.zero_add]

end Rows

/-! ### Tables -/

/-- A table with `n` columns, which have distinct names, and among them those of the radar channels
and the inertial sensor. -/
structure NamedTable (n : ℕ) where
  header : Fin n → Text
  rows : List (Fin n → Text)
  noBreak_header : ∀ i, '\n' ∉ header i
  noBreak_rows : ∀ row ∈ rows, ∀ i, '\n' ∉ row i
  distinct : Function.Injective (fun i => trim (header i))
  radar : ∀ ch, ∃ i, trim (header i) = radarName ch
  imu : ∃ i, trim (header i) = imuName

namespace NamedTable

variable {n : ℕ}

/-- The text of the table, with every field in quotes. -/
def text (t : NamedTable n) : Text :=
  unlines (quotedLine (List.ofFn t.header)
    :: t.rows.map (fun row => quotedLine (List.ofFn row)))

/-- The table with its columns permuted. -/
def permute (t : NamedTable n) (σ : Equiv.Perm (Fin n)) : NamedTable n where
  header := t.header ∘ σ
  rows := t.rows.map (fun row => row ∘ σ)
  noBreak_header := fun i => t.noBreak_header (σ i)
  noBreak_rows := by
    intro row hrow i
    obtain ⟨row, hmem, rfl⟩ := List.mem_map.mp hrow
    apply t.noBreak_rows row hmem
  distinct := t.distinct.comp σ.injective
  radar := by
    intro ch
    obtain ⟨i, hi⟩ := t.radar ch
    use σ.symm i
    rw [Function.comp_apply, Equiv.apply_symm_apply, hi]
  imu := by
    obtain ⟨i, hi⟩ := t.imu
    use σ.symm i
    rw [Function.comp_apply, Equiv.apply_symm_apply, hi]

@[simp]
theorem permute_header (t : NamedTable n) (σ : Equiv.Perm (Fin n)) (i : Fin n) :
  (t.permute σ).header i = t.header (σ i)
  := rfl

@[simp]
theorem permute_rows (t : NamedTable n) (σ : Equiv.Perm (Fin n)) :
  (t.permute σ).rows = t.rows.map (fun row => row ∘ σ)
  := rfl

/-- The sample has the values of the row in the columns with the names of its parts. -/
def IsSample (t : NamedTable n) (strtof : Text → Flt K × ℕ) (row : Fin n → Text)
    (sample : RawSample K) : Prop :=
  ∀ i, (∀ ch, trim (t.header i) = radarName ch → parseFloat strtof (row i) = .ok (sample.radar ch))
    ∧ (trim (t.header i) = imuName → parseFloat strtof (row i) = .ok sample.imu)

/-- A table has a column. -/
theorem ofFn_ne_nil (t : NamedTable n) (row : Fin n → Text) :
  List.ofFn row ≠ []
  := by
  obtain ⟨i, -⟩ := t.imu
  rw [ne_eq, List.ofFn_eq_nil_iff]
  rintro rfl
  apply i.elim0

/-- The reading of the text of a table is the reading of the table. -/
theorem read_text (t : NamedTable n) (strtof : Text → Flt K × ℕ) (path : String)
    (samples : List (RawSample K)) :
  read strtof path (some t.text) samples
    = readTable strtof path (List.ofFn t.header) (t.rows.map List.ofFn) samples
  := by
  have hheader := isRow_quotedLine (t.ofFn_ne_nil t.header)
  have hquote := head?_quotedLine (t.ofFn_ne_nil t.header)
  have hlast := getLast?_quotedLine (t.ofFn_ne_nil t.header)
  apply read_eq_readTable strtof path (lines_unlines _) hheader
  · rw [dropCarriageReturn_eq_self (by rw [hlast]; decide)]
    apply hasUtf8Bom_of_quote hquote
  · rw [List.forall₂_map_left_iff, List.forall₂_map_right_iff, List.forall₂_same]
    intro row _
    apply isRow_quotedLine (t.ofFn_ne_nil row)
  · rw [List.forall_mem_cons, List.forall_mem_map]
    constructor
    · apply newline_notMem_quotedLine
      rw [List.forall_mem_ofFn_iff]
      apply t.noBreak_header
    · intro row hrow
      apply newline_notMem_quotedLine
      rw [List.forall_mem_ofFn_iff]
      apply t.noBreak_rows row hrow

/-- The columns of the radar channels and the inertial sensor are found. -/
theorem exists_findColumns (t : NamedTable n) :
  ∃ (r : Fin kRadarChannels → Fin n) (m : Fin n), (∀ ch, trim (t.header (r ch)) = radarName ch)
    ∧ trim (t.header m) = imuName
    ∧ findColumns (List.ofFn t.header) = .ok ⟨fun ch => r ch, m⟩
  := by
  choose r hr using t.radar
  obtain ⟨m, hm⟩ := t.imu
  use r, m, hr, hm
  apply findColumns_ofFn t.distinct hr hm

/-- A field of a row. -/
theorem getD_ofFn (row : Fin n → Text) (i : Fin n) :
  (List.ofFn row).getD i [] = row i
  := by
  rw [List.getD_eq_getElem?_getD, List.getElem?_ofFn, dif_pos i.isLt, Option.getD_some]

end NamedTable

/-- A table with its columns permuted is read like the table, with the same status and the same
samples; and when it is read without an error, there is one sample for each row, with the values
in the columns with the names of its parts, and numbered from zero. -/
theorem read_permute {n : ℕ} (t : NamedTable n) (σ : Equiv.Perm (Fin n))
    (strtof : Text → Flt K × ℕ) (path : String) (samples : List (RawSample K)) :
  read strtof path (some (t.permute σ).text) samples = read strtof path (some t.text) samples
    ∧ ∀ status samples', read strtof path (some t.text) samples = (status, samples') →
        status.ok = true →
        List.Forall₂ (t.IsSample strtof) t.rows samples'
          ∧ ∀ i sample, samples'[i]? = some sample → sample.timestamp_ns = UInt64.ofNat i
  := by
  obtain ⟨r, m, hr, hm, hcolumns⟩ := t.exists_findColumns
  constructor
  · have hcolumns' : findColumns (List.ofFn (t.permute σ).header)
        = .ok ⟨fun ch => σ.symm (r ch), σ.symm m⟩ := by
      apply findColumns_ofFn (t.permute σ).distinct
      · intro ch
        rw [NamedTable.permute_header, Equiv.apply_symm_apply, hr]
      · rw [NamedTable.permute_header, Equiv.apply_symm_apply, hm]
    rw [NamedTable.read_text, NamedTable.read_text]
    apply readTable_congr hcolumns' hcolumns
    rw [NamedTable.permute_rows, List.map_map, List.forall₂_map_left_iff,
      List.forall₂_map_right_iff, List.forall₂_same]
    intro row _
    constructor
    · intro ch
      rw [Function.comp_apply, NamedTable.getD_ofFn, NamedTable.getD_ofFn, Function.comp_apply,
        Equiv.apply_symm_apply]
    · rw [Function.comp_apply, NamedTable.getD_ofFn, NamedTable.getD_ofFn, Function.comp_apply,
        Equiv.apply_symm_apply]
  · intro status samples' hread hok
    rw [NamedTable.read_text] at hread
    obtain ⟨hholds, htime⟩ := samples_of_readTable hcolumns hread hok
    constructor
    · rw [List.forall₂_map_left_iff] at hholds
      apply hholds.imp
      intro row sample h i
      constructor
      · intro ch hi
        have heq : i = r ch := t.distinct (hi.trans (hr ch).symm)
        rw [heq, ← NamedTable.getD_ofFn row]
        apply h.1
      · intro hi
        have heq : i = m := t.distinct (hi.trans hm.symm)
        rw [heq, ← NamedTable.getD_ofFn row]
        apply h.2
    · apply htime

/-- A table with a column of notes and two rows, one of them with a comma and quotes in its note, is
read with success by the conversion of the C library, and so is the table with its columns
rotated. -/
theorem read_permute_rotate :
  ∃ (t : NamedTable 10) (σ : Equiv.Perm (Fin 10)) (samples : List (RawSample ℚ)),
    (t.permute σ).text ≠ t.text
    ∧ t.rows.map (fun row => row 0) = ["calm, \"flat\" sea".toList, "swell".toList]
    ∧ read (strtof .float) "data.csv" (some (t.permute σ).text) []
        = read (strtof .float) "data.csv" (some t.text) []
    ∧ read (strtof .float) "data.csv" (some t.text) [] = (.success, samples)
    ∧ samples.map (fun sample => sample.imu) = [.fin (37 / 4), .fin (-1 / 2)]
    ∧ List.Forall₂ (t.IsSample (strtof .float)) t.rows samples
    ∧ ∀ i sample, samples[i]? = some sample → sample.timestamp_ns = UInt64.ofNat i
  := by
  let t : NamedTable 10 :=
    { header := ![" note".toList, "D1".toList, "D2".toList, "D3".toList, "D4".toList, "D5".toList,
        "D6".toList, "D7".toList, "D8".toList, "IMU".toList]
      rows := [
        ![ "calm, \"flat\" sea".toList, "101".toList, "102".toList, "103".toList, "104".toList,
          "105".toList, "106".toList, "107".toList, "108".toList, "9.25".toList],
        ![ "swell".toList, "201".toList, "202.5".toList, "203".toList, "204".toList,
          "205".toList, "2e2".toList, "207".toList, "208".toList, "-0.5".toList]]
      noBreak_header := by decide
      noBreak_rows := by decide
      distinct := by decide
      radar := by decide
      imu := by decide }
  obtain ⟨heq, hrows⟩ := read_permute t (finRotate 10) (strtof .float) "data.csv" []
  have hok : (read (strtof .float) "data.csv" (some t.text) []).1 = .success := by
    decide +kernel
  have himu : (read (strtof .float) "data.csv" (some t.text) []).2.map (fun sample => sample.imu)
      = [.fin (37 / 4), .fin (-1 / 2)] := by
    decide +kernel
  have hread : read (strtof .float) "data.csv" (some t.text) []
      = (.success, (read (strtof .float) "data.csv" (some t.text) []).2) := by
    rw [← hok]
  refine ⟨t, finRotate 10, _, ?_, rfl, heq, hread, himu, hrows _ _ hread rfl⟩
  decide

end CsvReader
