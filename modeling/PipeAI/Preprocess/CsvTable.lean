import PipeAI.Preprocess.CsvReader
import Mathlib.Data.Fintype.EquivFin
import Mathlib.Data.List.Forall2
import Mathlib.Data.List.OfFn

/-!
# Tables in CSV files

A line of a CSV file encodes a row of fields: as a list of texts, each of which encodes a
field, separated by commas.  A text without commas and quotes encodes itself, and every text is
encoded by quoting it, with its quotes doubled.

Reading a file whose lines encode a header and rows amounts to reading the table of their
fields (`read_eq_readTable`).  When the rows are read without an error, then a sample is read from
each of them, in order (`exists_samples_of_readRows`).
-/

universe u

namespace CsvReader

variable {K : Type u}

/-! ### Reading a table -/

/-- What the loop of `CsvReader::read` does on rows of fields. -/
def readRows (strtof : Text → Flt K × ℕ) (columns : Columns) :
    List (List Text) → ℕ → List (RawSample K) → Status × List (RawSample K)
  | [], _, samples => (.success, samples)
  | fields :: rows, line_no, samples =>
      match readSample strtof columns fields (line_no + 1) samples.length with
      | .error status => (status, samples)
      | .ok sample => readRows strtof columns rows (line_no + 1) (samples ++ [sample])

/-- What `CsvReader::read` does on a header and rows of fields. -/
def readTable (strtof : Text → Flt K × ℕ) (path : String) (headers : List Text)
    (rows : List (List Text)) (samples : List (RawSample K)) : Status × List (RawSample K) :=
  match findColumns headers with
  | .error status => (status, samples)
  | .ok columns =>
      let (status, samples) := readRows strtof columns rows 1 []
      if !status.ok then (status, samples)
      else if samples.isEmpty then
        (.failure .parseError ("CSV contains no data rows: " ++ path), samples)
      else (.success, samples)

/-- The columns are found when their names are mapped to them. -/
theorem findColumns_eq_ok {headers : List Text} {columns : Columns}
    (hradar : ∀ ch, columnMap headers (radarName ch) = some (columns.radar ch))
    (himu : columnMap headers imuName = some columns.imu) :
  findColumns headers = .ok columns
  := by
  have hcollect : collect kRadarChannels (fun ch =>
      requiredColumn (columnMap headers) (radarName ch)) = .ok columns.radar := by
    apply collect_eq_ok
    intro ch
    rw [requiredColumn, hradar]
  rw [findColumns, hcollect]
  simp only [requiredColumn, himu]

/-- A line of a file that holds the given fields, possibly before a carriage return. -/
structure IsRow (line : Text) (fields : List Text) : Prop where
  notBlank : trim (dropCarriageReturn line) ≠ []
  split : splitLine (dropCarriageReturn line) = .ok fields

/-- Nothing is dropped from a line that does not end with a carriage return. -/
theorem dropCarriageReturn_eq_self {line : Text} (h : line.getLast? ≠ some '\r') :
  dropCarriageReturn line = line
  := by
  rw [dropCarriageReturn, if_neg h]

/-- The reading of lines that hold rows is the reading of the rows. -/
theorem readLines_eq {strtof : Text → Flt K × ℕ} {columns : Columns} {ls : List Text}
    {rows : List (List Text)} (h : List.Forall₂ IsRow ls rows) (line_no : ℕ)
    (samples : List (RawSample K)) :
  readLines strtof columns ls line_no samples = readRows strtof columns rows line_no samples
  := by
  induction h generalizing line_no samples with
  | nil => rfl
  | @cons line fields ls rows hrow _ ih =>
      have hblank : (trim (dropCarriageReturn line)).isEmpty = false :=
        List.isEmpty_eq_false_iff.mpr hrow.notBlank
      rw [readLines, readRows]
      simp only [readLine, hblank, Bool.false_eq_true, if_false, hrow.split]
      rcases readSample strtof columns fields (line_no + 1) samples.length with status | sample
      · rfl
      · apply ih

/-- The reading of a file whose lines hold a header and rows is the reading of the table. -/
theorem read_eq_readTable (strtof : Text → Flt K × ℕ) (path : String) {text header : Text}
    {headers : List Text} {ls : List Text} {rows : List (List Text)}
    (htext : lines text = header :: ls) (hheader : IsRow header headers)
    (hbom : hasUtf8Bom (dropCarriageReturn header) = false) (hrows : List.Forall₂ IsRow ls rows)
    (samples : List (RawSample K)) :
  read strtof path (some text) samples = readTable strtof path headers rows samples
  := by
  rw [read]
  simp only [htext, hbom, Bool.false_eq_true, if_false, hheader.split]
  rw [readTable]
  rcases findColumns headers with status | columns
  · rfl
  · simp only [readLines_eq hrows]

/-! ### Encoded fields -/

/-- Splitting a line goes past the text `encoded` with the result `field`. -/
def Encodes (encoded field : Text) : Prop :=
  ∀ fields rest, (∀ c ∈ rest.head?, c = ',') →
    splitFrom false false [] fields (encoded ++ rest) = splitFrom false false field fields rest

/-- A line of encoded fields separated by commas. -/
def joinFields (encoded : List Text) : Text :=
  [','].intercalate encoded

/-- A comma follows each field but the last. -/
theorem joinFields_cons_cons (e e' : Text) (encoded : List Text) :
  joinFields (e :: e' :: encoded) = e ++ ',' :: joinFields (e' :: encoded)
  := by
  simp [joinFields, List.intercalate, List.intersperse]

/-- A line is split when the loop reads it to its end. -/
theorem splitLine_eq_ok_iff {line : Text} {fields : List Text} :
  splitLine line = .ok fields ↔ splitFrom false false [] [] line = .ok fields
  := by
  rw [splitLine]
  rcases splitFrom false false [] [] line with failure | out
  · simp [Except.mapError]
  · simp [Except.mapError]

/-- Splitting a line of encoded fields gives the fields. -/
theorem splitLine_joinFields {encoded fields : List Text}
    (h : List.Forall₂ Encodes encoded fields) (hne : fields ≠ []) :
  splitLine (joinFields encoded) = .ok fields
  := by
  have hsplit : ∀ acc, splitFrom false false [] acc (joinFields encoded) = .ok (acc ++ fields) := by
    induction h with
    | nil => apply absurd rfl hne
    | @cons e field es fields hfield hes ih =>
        intro acc
        rcases hes with _ | @⟨e', field', es, fields, hfield', hes'⟩
        · have hend := hfield acc [] (by simp)
          rw [List.append_nil] at hend
          rw [joinFields, List.intercalate_singleton, hend]
          simp [splitFrom]
        · have hcomma := hfield acc (',' :: joinFields (e' :: es)) (by simp)
          rw [joinFields_cons_cons, hcomma, splitFrom, if_pos rfl, ih (by simp), List.append_assoc,
            List.singleton_append]
  rw [splitLine_eq_ok_iff, hsplit, List.nil_append]

/-- Splitting a line appends a text without commas and quotes to the field. -/
theorem splitFrom_plain {s : Text} (h : ∀ c ∈ s, c ≠ ',' ∧ c ≠ '"') (field : Text)
    (fields : List Text) (rest : Text) :
  splitFrom false false field fields (s ++ rest) = splitFrom false false (field ++ s) fields rest
  := by
  induction s generalizing field with
  | nil => simp
  | cons c s ih =>
      obtain ⟨hcomma, hquote⟩ := h c (by simp)
      rw [List.cons_append, splitFrom, if_neg hcomma, if_neg hquote,
        ih (fun d hd => h d (List.mem_cons_of_mem _ hd)), List.append_assoc,
        List.singleton_append]

/-- A text without commas and quotes encodes itself. -/
theorem encodes_plain {s : Text} (h : ∀ c ∈ s, c ≠ ',' ∧ c ≠ '"') :
  Encodes s s
  := by
  intro fields rest _
  apply splitFrom_plain h

/-- The text with each of its quotes doubled. -/
def doubleQuotes (s : Text) : Text :=
  s.flatMap (fun c => if c = '"' then ['"', '"'] else [c])

/-- The text in quotes, with each of its own quotes doubled. -/
def quote (s : Text) : Text :=
  '"' :: (doubleQuotes s ++ ['"'])

theorem doubleQuotes_cons (c : Char) (s : Text) :
  doubleQuotes (c :: s) = (if c = '"' then ['"', '"'] else [c]) ++ doubleQuotes s
  := rfl

/-- A quote after nothing but blanks drops them and begins the field. -/
theorem splitFrom_open {field : Text} (h : trim field = []) (fields : List Text) (rest : Text) :
  splitFrom false false field fields ('"' :: rest) = splitFrom false true [] fields rest
  := by
  rw [splitFrom, if_neg (by decide), if_pos rfl, h]
  rfl

/-- Inside quotes, splitting a line appends a text with doubled quotes to the field, and the quote
after it ends the quoted text, unless another one follows. -/
theorem splitFrom_doubleQuotes (s field : Text) (fields : List Text) {rest : Text}
    (hrest : rest.head? ≠ some '"') :
  splitFrom false true field fields (doubleQuotes s ++ '"' :: rest)
    = splitFrom false false (field ++ s) fields rest
  := by
  induction s generalizing field with
  | nil =>
      rw [doubleQuotes, List.flatMap_nil, List.nil_append, List.append_nil, splitFrom, if_pos rfl,
        if_neg hrest]
  | cons c s ih =>
      rw [doubleQuotes_cons]
      by_cases hc : c = '"'
      · subst hc
        simp only [if_true, List.cons_append, List.nil_append]
        rw [splitFrom, if_pos rfl, if_pos (by simp), splitFrom, ih, List.append_assoc,
          List.singleton_append]
      · simp only [if_neg hc, List.cons_append, List.nil_append]
        rw [splitFrom, if_neg hc, ih, List.append_assoc, List.singleton_append]

/-- After nothing but blanks, splitting a line reads a quoted text. -/
theorem splitFrom_quote {field : Text} (h : trim field = []) (s : Text) (fields : List Text)
    {rest : Text} (hrest : rest.head? ≠ some '"') :
  splitFrom false false field fields (quote s ++ rest) = splitFrom false false s fields rest
  := by
  rw [quote, List.cons_append, splitFrom_open h, List.append_assoc, List.singleton_append,
    splitFrom_doubleQuotes s [] fields hrest, List.nil_append]

/-- A text is encoded by quoting it. -/
theorem encodes_quote (s : Text) :
  Encodes (quote s) s
  := by
  intro fields rest hrest
  apply splitFrom_quote rfl
  intro hhead
  cases hrest '"' hhead

/-- A row written with a comma before each field but the first. -/
theorem joinFields_cons (field : Text) (fields : List Text) :
  joinFields (field :: fields) = field ++ fields.flatMap (fun f => ',' :: f)
  := by
  induction fields generalizing field with
  | nil => simp [joinFields]
  | cons f fields ih =>
      rw [List.flatMap_cons, List.cons_append, ← ih, joinFields_cons_cons]

/-- A character of a line of encoded fields is a comma, or a character of one of them. -/
theorem mem_joinFields {encoded : List Text} {c : Char} (h : c ∈ joinFields encoded) :
  c = ',' ∨ ∃ field ∈ encoded, c ∈ field
  := by
  rcases encoded with _ | ⟨field, fields⟩
  · simp [joinFields] at h
  · rw [joinFields_cons, List.mem_append, List.mem_flatMap] at h
    rcases h with h | ⟨f, hf, h⟩
    · right
      use field, by simp
    · rcases List.mem_cons.mp h with rfl | h
      · left
        rfl
      · right
        use f, List.mem_cons_of_mem _ hf

/-- The characters of the encoded fields are characters of the line. -/
theorem mem_joinFields_of_mem {encoded : List Text} {field : Text} {c : Char}
    (hfield : field ∈ encoded) (hc : c ∈ field) :
  c ∈ joinFields encoded
  := by
  rcases encoded with _ | ⟨f, fields⟩
  · cases hfield
  · rw [joinFields_cons, List.mem_append, List.mem_flatMap]
    rcases List.mem_cons.mp hfield with rfl | hfield
    · left
      apply hc
    · right
      use field, hfield
      apply List.mem_cons_of_mem _ hc

/-- The last character of a line whose last field is not empty is the last of that field. -/
theorem getLast?_joinFields {encoded : List Text} {field : Text} (hne : field ≠ []) :
  (joinFields (encoded ++ [field])).getLast? = field.getLast?
  := by
  induction encoded with
  | nil => simp [joinFields]
  | cons e encoded ih =>
      rcases henc : encoded ++ [field] with _ | ⟨f, fields⟩
      · simp at henc
      · rw [henc] at ih
        rw [List.cons_append, henc, joinFields_cons_cons, List.getLast?_append, List.getLast?_cons,
          ih, List.getLast?_eq_some_getLast hne]
        rfl

/-! ### The fields of a line -/

/-- Splitting a line adds fields to those before. -/
theorem exists_eq_append_of_splitFrom {skip quoted : Bool} {field line : Text}
    {fields out : List Text} (h : splitFrom skip quoted field fields line = .ok out) :
  ∃ f more, out = fields ++ f :: more
  := by
  induction line generalizing skip quoted field fields with
  | nil =>
      rcases skip <;> rcases quoted
      · cases h
        use field, []
      · cases h
      · cases h
        use field, []
      · cases h
  | cons c line ih =>
      rcases skip
      · rcases quoted
        · rw [splitFrom] at h
          split at h
          · obtain ⟨f, more, rfl⟩ := ih h
            use field, f :: more
            simp
          · split at h
            · split at h
              · cases h
              · apply ih h
            · apply ih h
        · rw [splitFrom] at h
          split at h
          · split at h
            · apply ih h
            · apply ih h
          · apply ih h
      · rw [splitFrom] at h
        apply ih h

/-- A line that is split is cut at the first comma or quote: it ends before, it goes on after a
comma, or a quote follows nothing but blanks. -/
theorem splitFrom_cases {field line : Text} {fields out : List Text}
    (h : splitFrom false false field fields line = .ok out) :
  ∃ text tail, line = text ++ tail ∧ (∀ c ∈ text, c ≠ ',' ∧ c ≠ '"')
    ∧ ((tail = [] ∧ out = fields ++ [field ++ text])
      ∨ (∃ line', tail = ',' :: line'
        ∧ splitFrom false false [] (fields ++ [field ++ text]) line' = .ok out)
      ∨ (∃ rest, tail = '"' :: rest ∧ trim (field ++ text) = []))
  := by
  induction line generalizing field with
  | nil =>
      cases h
      use [], []
      simp
  | cons c line ih =>
      rw [splitFrom] at h
      split at h
      · rename_i hc
        use [], c :: line
        refine ⟨rfl, by simp, Or.inr (Or.inl ?_)⟩
        use line
        rw [hc, List.append_nil]
        exact ⟨rfl, h⟩
      · split at h
        · rename_i hc
          split at h
          · cases h
          · rename_i hblank
            use [], c :: line
            refine ⟨rfl, by simp, Or.inr (Or.inr ?_)⟩
            use line
            rw [hc, List.append_nil]
            refine ⟨rfl, by simpa using hblank⟩
        · rename_i hcomma hquote
          obtain ⟨text, tail, rfl, htext, hcases⟩ := ih h
          use c :: text, tail, rfl
          rw [List.append_assoc, List.singleton_append] at hcases
          refine ⟨?_, hcases⟩
          intro d hd
          rcases List.mem_cons.mp hd with rfl | hd
          · exact ⟨hcomma, hquote⟩
          · apply htext d hd

/-- The first field of a line: it is not quoted, and ends the line or is followed by a comma and
the other fields; or it is quoted, after nothing but blanks. -/
theorem splitFrom_first {line : Text} (fields : List Text) {more : List Text} {f : Text}
    (h : splitFrom false false [] fields line = .ok (fields ++ f :: more)) :
  ((∀ c ∈ f, c ≠ ',' ∧ c ≠ '"') ∧ (line = f ∧ more = [] ∨ ∃ line', line = f ++ ',' :: line'
      ∧ splitFrom false false [] (fields ++ [f]) line' = .ok ((fields ++ [f]) ++ more)))
    ∨ ∃ text rest, line = text ++ '"' :: rest ∧ trim text = []
  := by
  obtain ⟨text, tail, rfl, htext, hend | ⟨line', rfl, hcomma⟩ | ⟨rest, rfl, hquote⟩⟩ :=
    splitFrom_cases h
  · left
    obtain ⟨rfl, hout⟩ := hend
    rw [List.append_cancel_left_eq, List.nil_append, List.cons.injEq] at hout
    obtain ⟨rfl, rfl⟩ := hout
    use htext
    left
    simp
  · left
    obtain ⟨f', more', hout⟩ := exists_eq_append_of_splitFrom hcomma
    rw [List.append_assoc, List.append_cancel_left_eq, List.nil_append, List.singleton_append,
      List.cons.injEq] at hout
    obtain ⟨rfl, rfl⟩ := hout
    use htext
    right
    use line', rfl
    rw [List.nil_append] at hcomma
    rw [hcomma, List.append_assoc, List.singleton_append]
  · right
    use text, rest, rfl
    rw [List.nil_append] at hquote
    apply hquote

/-! ### The samples of a table -/

/-- If a sample is read from each row, then these are the samples read. -/
theorem readRows_eq_success {strtof : Text → Flt K × ℕ} {columns : Columns}
    {rows : List (List Text)} {line_no : ℕ} {samples : List (RawSample K)} {f : ℕ → RawSample K}
    (h : ∀ i fields, rows[i]? = some fields →
      readSample strtof columns fields (line_no + 1 + i) (samples.length + i) = .ok (f i)) :
  readRows strtof columns rows line_no samples = (.success, samples ++ table rows.length f)
  := by
  induction rows generalizing line_no samples f with
  | nil => simp [readRows, table]
  | cons fields rows ih =>
      have hfirst := h 0 fields rfl
      simp only [Nat.add_zero] at hfirst
      rw [readRows, hfirst]
      simp only
      rw [ih (f := fun i => f (i + 1))]
      · rw [List.length_cons, table, table, List.range_succ_eq_map]
        simp
      · intro i fields' hfields'
        have hnext := h (i + 1) fields' (by simpa using hfields')
        rw [List.length_append, List.length_singleton]
        convert hnext using 2
        · omega
        · omega

/-- The values of the columns of a row are those of the sample. -/
def Holds (strtof : Text → Flt K × ℕ) (columns : Columns) (fields : List Text)
    (sample : RawSample K) : Prop :=
  (∀ ch, parseFloat strtof (fields.getD (columns.radar ch) []) = .ok (sample.radar ch))
    ∧ parseFloat strtof (fields.getD columns.imu []) = .ok sample.imu

/-- A column that a row does not have is empty. -/
theorem readValue_eq (strtof : Text → Flt K × ℕ) (fields : List Text) (idx : ℕ) (name : Text)
    (line_no : ℕ) :
  readValue strtof fields idx name line_no = match parseFloat strtof (fields.getD idx []) with
    | .error status =>
        .error { status with message := status.message ++ " for " ++ String.ofList name
          ++ " at CSV line " ++ toString line_no }
    | .ok value => .ok value
  := by
  have htext : (if idx < fields.length then fields.getD idx [] else []) = fields.getD idx [] := by
    split
    · rfl
    · rename_i hidx
      rw [List.getD_eq_getElem?_getD, List.getElem?_eq_none (by omega), Option.getD_none]
  have hread : readValue strtof fields idx name line_no
      = match parseFloat strtof (if idx < fields.length then fields.getD idx [] else []) with
        | .error status =>
            .error { status with message := status.message ++ " for " ++ String.ofList name
              ++ " at CSV line " ++ toString line_no }
        | .ok value => .ok value := rfl
  rw [hread, htext]

/-- A value is read exactly when its text is converted. -/
theorem readValue_eq_ok {strtof : Text → Flt K × ℕ} {fields : List Text} {idx : ℕ} {name : Text}
    {line_no : ℕ} {value : Flt K} :
  readValue strtof fields idx name line_no = .ok value
    ↔ parseFloat strtof (fields.getD idx []) = .ok value
  := by
  rw [readValue_eq]
  rcases parseFloat strtof (fields.getD idx []) with status | v
  · simp
  · rfl

/-- A sample is read from a row that holds its values. -/
theorem readSample_of_holds {strtof : Text → Flt K × ℕ} {columns : Columns} {fields : List Text}
    {sample : RawSample K} (h : Holds strtof columns fields sample) (line_no size : ℕ) :
  readSample strtof columns fields line_no size
    = .ok { sample with timestamp_ns := UInt64.ofNat size }
  := by
  have hradar := collect_eq_ok (f := fun ch : Fin kRadarChannels =>
    readValue strtof fields (columns.radar ch) (radarName ch) line_no) (g := sample.radar) (by
      intro ch
      rw [readValue_eq_ok]
      apply h.1)
  have himu : readValue strtof fields columns.imu imuName line_no = .ok sample.imu := by
    rw [readValue_eq_ok]
    apply h.2
  rw [readSample]
  simp only [hradar, himu]

/-- A sample read from a row holds the values of its fields, and the number of samples before. -/
theorem holds_of_readSample {strtof : Text → Flt K × ℕ} {columns : Columns}
    {fields : List Text} {line_no size : ℕ} {sample : RawSample K}
    (h : readSample strtof columns fields line_no size = .ok sample) :
  sample.timestamp_ns = UInt64.ofNat size ∧ Holds strtof columns fields sample
  := by
  rw [readSample] at h
  rcases hradar : collect kRadarChannels
      (fun ch => readValue strtof fields (columns.radar ch) (radarName ch) line_no)
    with status | radar
  · rw [hradar] at h
    cases h
  · rw [hradar] at h
    rcases himu : readValue strtof fields columns.imu imuName line_no with status | imu
    · rw [himu] at h
      cases h
    · rw [himu] at h
      simp only [Except.ok.injEq] at h
      subst h
      refine ⟨rfl, ?_, readValue_eq_ok.mp himu⟩
      intro ch
      apply readValue_eq_ok.mp (eq_ok_of_collect hradar ch)

/-- A text without a null character is converted up to its end. -/
theorem cString_eq_self {s : Text} (h : '\x00' ∉ s) :
  cString s = s
  := by
  apply List.takeWhile_eq_self_iff.mpr
  intro c hc
  rw [decide_eq_true_eq]
  rintro rfl
  apply h hc

/-- A text that is not converted is a failure. -/
theorem ok_of_parseFloat_error {strtof : Text → Flt K × ℕ} {text : Text} {status : Status}
    (h : parseFloat strtof text = .error status) :
  status.ok = false
  := by
  rw [parseFloat] at h
  simp only at h
  split at h
  · cases h
  · split at h
    · cases h
      rfl
    · cases h

/-- A value that is not read is a failure. -/
theorem ok_of_readValue_error {strtof : Text → Flt K × ℕ} {fields : List Text} {idx : ℕ}
    {name : Text} {line_no : ℕ} {status : Status}
    (h : readValue strtof fields idx name line_no = .error status) :
  status.ok = false
  := by
  rw [readValue_eq] at h
  rcases hparse : parseFloat strtof (fields.getD idx []) with status' | value
  · rw [hparse] at h
    cases h
    apply ok_of_parseFloat_error hparse
  · rw [hparse] at h
    cases h

/-- A sample that is not read is a failure. -/
theorem ok_of_readSample_error {strtof : Text → Flt K × ℕ} {columns : Columns}
    {fields : List Text} {line_no size : ℕ} {status : Status}
    (h : readSample strtof columns fields line_no size = .error status) :
  status.ok = false
  := by
  rw [readSample] at h
  rcases hradar : collect kRadarChannels
      (fun ch => readValue strtof fields (columns.radar ch) (radarName ch) line_no)
    with status' | radar
  · rw [hradar] at h
    cases h
    obtain ⟨ch, hch⟩ := exists_error_of_collect hradar
    apply ok_of_readValue_error hch
  · rw [hradar] at h
    rcases himu : readValue strtof fields columns.imu imuName line_no with status' | imu
    · rw [himu] at h
      cases h
      apply ok_of_readValue_error himu
    · rw [himu] at h
      cases h

/-- When the rows are read without an error, then a sample is read from each row, with its values,
and numbered after those before. -/
theorem exists_samples_of_readRows {strtof : Text → Flt K × ℕ} {columns : Columns}
    {rows : List (List Text)} {line_no : ℕ} {samples samples' : List (RawSample K)}
    {status : Status} (h : readRows strtof columns rows line_no samples = (status, samples'))
    (hok : status.ok = true) :
  status = .success ∧ ∃ more, samples' = samples ++ more
    ∧ List.Forall₂ (Holds strtof columns) rows more
    ∧ ∀ i sample, more[i]? = some sample → sample.timestamp_ns = UInt64.ofNat (samples.length + i)
  := by
  induction rows generalizing line_no samples with
  | nil =>
      cases h
      use rfl, []
      simp
  | cons fields rows ih =>
      rw [readRows] at h
      rcases hsample : readSample strtof columns fields (line_no + 1) samples.length
        with status' | sample
      · rw [hsample] at h
        cases h
        rw [ok_of_readSample_error hsample] at hok
        cases hok
      · rw [hsample] at h
        obtain ⟨hsuccess, more, rfl, hmore, htime⟩ := ih h
        obtain ⟨hstamp, hholds⟩ := holds_of_readSample hsample
        use hsuccess, sample :: more, by simp
        constructor
        · rw [List.forall₂_cons]
          exact ⟨hholds, hmore⟩
        · intro i sample' hi
          rcases i with _ | i
          · cases hi
            rw [hstamp, Nat.add_zero]
          · rw [htime i sample' hi, List.length_append, List.length_singleton]
            congr 1
            omega

end CsvReader
