import PipeAI.Preprocess.CsvTable

/-!
# The layout of a CSV file

Files with the same data come with line ends of either kind, with a byte order mark or without one,
with blank lines, and with a line break at the end or without one.  The data of a file are the text
of its header line and its data lines (`content`).  `CsvReader::read` gives the same samples, or
fails with the same code after the same samples, for files with the same data
(`read_of_content_eq`).  The messages of its failures tell the numbers of the lines, which depend on
the layout.
-/

universe u

namespace CsvReader

variable {K : Type u}

/-! ### The data of a file -/

/-- The text of the header line. -/
def headerText (line : Text) : Text :=
  if hasUtf8Bom (dropCarriageReturn line) then (dropCarriageReturn line).drop 3
  else dropCarriageReturn line

/-- The lines with data. -/
def dataLines (ls : List Text) : List Text :=
  (ls.map dropCarriageReturn).filter (fun line => !(trim line).isEmpty)

/-- The text of the header line, and the lines with data. -/
def content (text : Text) : Option (Text × List Text) :=
  match lines text with
  | [] => none
  | header :: ls => some (headerText header, dataLines ls)

/-! ### Files of Windows -/

/-- The byte order mark of UTF-8. -/
def bom : Text := ['\u00EF', '\u00BB', '\u00BF']

/-- A text with a carriage return before each line break. -/
def withCarriageReturns (text : Text) : Text :=
  text.flatMap (fun c => if c = '\n' then ['\r', '\n'] else [c])

/-- A carriage return is dropped at the end only. -/
theorem dropCarriageReturn_cons {c : Char} (h : c ≠ '\r') (line : Text) :
  dropCarriageReturn (c :: line) = c :: dropCarriageReturn line
  := by
  rcases line with _ | ⟨d, line⟩
  · simp [dropCarriageReturn, h]
  · simp only [dropCarriageReturn, List.getLast?_cons_cons, List.dropLast_cons_cons]
    split
    · rfl
    · rfl

/-- The lines are those of the text without the carriage returns. -/
theorem lines_withCarriageReturns {text : Text} (h : '\r' ∉ text) :
  (lines (withCarriageReturns text)).map dropCarriageReturn = lines text
  := by
  induction text with
  | nil => rfl
  | cons c text ih =>
      rw [List.mem_cons, not_or] at h
      have ih := ih h.2
      by_cases hc : c = '\n'
      · subst hc
        have hstep : withCarriageReturns ('\n' :: text)
            = '\r' :: '\n' :: withCarriageReturns text := rfl
        have hlines : lines ('\r' :: '\n' :: withCarriageReturns text)
            = ['\r'] :: lines (withCarriageReturns text) := by
          simp [lines]
        have hlines' : lines ('\n' :: text) = [] :: lines text := by
          simp [lines]
        rw [hstep, hlines, hlines', List.map_cons, ih]
        rfl
      · have hstep : withCarriageReturns (c :: text) = c :: withCarriageReturns text := by
          simp [withCarriageReturns, hc]
        rw [hstep, lines, lines, if_neg hc, if_neg hc, ← ih]
        rcases lines (withCarriageReturns text) with _ | ⟨line, more⟩
        · rw [List.map_nil, List.map_cons, dropCarriageReturn_cons (Ne.symm h.1)]
          rfl
        · rw [List.map_cons, List.map_cons, dropCarriageReturn_cons (Ne.symm h.1)]

/-- The first line is at the beginning of the text, and what is put before the text is put before
it. -/
theorem exists_first_line {text : Text} (h : text ≠ []) :
  ∃ line more, lines text = line :: more ∧ line <+: text
    ∧ ∀ before : Text, '\n' ∉ before → lines (before ++ text) = (before ++ line) :: more
  := by
  have hfirst : ∃ line more, lines text = line :: more ∧ line <+: text := by
    induction text with
    | nil => apply absurd rfl h
    | cons c text ih =>
        by_cases hc : c = '\n'
        · exact ⟨[], lines text, by simp [lines, hc], List.nil_prefix⟩
        · rcases text with _ | ⟨d, text⟩
          · exact ⟨[c], [], by simp [lines, hc], List.prefix_rfl⟩
          · obtain ⟨line, more, hlines, hprefix⟩ := ih (by simp)
            refine ⟨c :: line, more, ?_, (List.cons_prefix_cons).mpr ⟨rfl, hprefix⟩⟩
            rw [lines, if_neg hc, hlines]
  obtain ⟨line, more, hlines, hprefix⟩ := hfirst
  refine ⟨line, more, hlines, hprefix, ?_⟩
  intro before hbefore
  induction before with
  | nil => apply hlines
  | cons c before ih =>
      rw [List.mem_cons, not_or] at hbefore
      rw [List.cons_append, lines, if_neg (Ne.symm hbefore.1), ih hbefore.2, List.cons_append]

/-- The characters of the lines are those of the text. -/
theorem mem_of_mem_lines {text line : Text} (h : line ∈ lines text) {c : Char} (hc : c ∈ line) :
  c ∈ text
  := by
  induction text generalizing line with
  | nil => cases h
  | cons d text ih =>
      rw [lines] at h
      split at h
      · rcases List.mem_cons.mp h with rfl | h
        · cases hc
        · apply List.mem_cons_of_mem _ (ih h hc)
      · rcases hlines : lines text with _ | ⟨first, more⟩
        · rw [hlines, List.mem_singleton] at h
          rw [h, List.mem_singleton] at hc
          rw [hc]
          apply List.mem_cons_self
        · rw [hlines] at h
          rcases List.mem_cons.mp h with rfl | h
          · rcases List.mem_cons.mp hc with rfl | hc
            · apply List.mem_cons_self
            · apply List.mem_cons_of_mem _ (ih (hlines ▸ List.mem_cons_self) hc)
          · apply List.mem_cons_of_mem _ (ih (hlines ▸ List.mem_cons_of_mem _ h) hc)

/-- The byte order mark is at the beginning. -/
theorem hasUtf8Bom_append {line text : Text} (h : line <+: text)
    (hbom : hasUtf8Bom line = true) :
  hasUtf8Bom text = true
  := by
  obtain ⟨rest, rfl⟩ := h
  rw [hasUtf8Bom, decide_eq_true_eq] at hbom ⊢
  have hlen : 3 ≤ line.length := by
    have h := congrArg List.length hbom
    simp at h
    omega
  rw [List.take_append_of_le_length hlen, hbom]

/-- A file with a byte order mark and the line ends of Windows has the same data. -/
theorem content_windows {text : Text} (hne : text ≠ []) (hcr : '\r' ∉ text)
    (hbom : hasUtf8Bom text = false) :
  content (bom ++ withCarriageReturns text) = content text
  := by
  have hne' : withCarriageReturns text ≠ [] := by
    intro hnil
    have hlines := lines_withCarriageReturns hcr
    rw [hnil] at hlines
    obtain ⟨line, more, hmore, -⟩ := exists_first_line hne
    rw [hmore] at hlines
    cases hlines
  obtain ⟨line, more, hlines, -, hbefore⟩ := exists_first_line hne'
  obtain ⟨first, rest, hfirst, hprefix, -⟩ := exists_first_line hne
  have hmap := lines_withCarriageReturns hcr
  rw [hlines, hfirst, List.map_cons, List.cons.injEq] at hmap
  have hdrop : ∀ l ∈ lines text, dropCarriageReturn l = l := by
    intro l hl
    apply dropCarriageReturn_eq_self
    intro hlast
    apply hcr (mem_of_mem_lines hl (List.mem_of_getLast? hlast))
  rw [hfirst, List.forall_mem_cons] at hdrop
  have hno : hasUtf8Bom first = false := by
    rw [Bool.eq_false_iff]
    intro h
    rw [hasUtf8Bom_append hprefix h] at hbom
    cases hbom
  have hheader : dropCarriageReturn (bom ++ line) = bom ++ first := by
    rw [← hmap.1]
    simp only [bom, List.cons_append, List.nil_append]
    rw [dropCarriageReturn_cons (by decide), dropCarriageReturn_cons (by decide),
      dropCarriageReturn_cons (by decide)]
  have hdata : rest.map dropCarriageReturn = rest := by
    rw [List.map_congr_left hdrop.2, List.map_id']
  have hlines' : lines (bom ++ withCarriageReturns text) = (bom ++ line) :: more :=
    hbefore bom (by decide)
  rw [content, content, hlines', hfirst]
  simp only [headerText, dataLines, hheader, hdrop.1, hno, hmap.2, hdata]
  rfl

/-! ### The samples of the data lines -/

/-- Results that are equal but for the messages of errors. -/
theorem cases_of_mapError_eq {α : Type u} {x y : Except Status α}
    (h : x.mapError Status.code = y.mapError Status.code) :
  (∃ status status', x = .error status ∧ y = .error status' ∧ status.code = status'.code)
    ∨ ∃ a, x = .ok a ∧ y = .ok a
  := by
  rcases x with status | a
  · rcases y with status' | b
    · left
      exact ⟨status, status', rfl, rfl, Except.error.inj h⟩
    · cases h
  · rcases y with status' | b
    · cases h
    · right
      exact ⟨a, rfl, congrArg Except.ok (Except.ok.inj h).symm⟩

/-- A value is read or not whatever the number of its line is. -/
theorem mapError_readValue (strtof : Text → Flt K × ℕ) (fields : List Text) (idx : ℕ) (name : Text)
    (line_no line_no' : ℕ) :
  (readValue strtof fields idx name line_no).mapError Status.code
    = (readValue strtof fields idx name line_no').mapError Status.code
  := by
  rw [readValue, readValue]
  rcases parseFloat strtof (if idx < fields.length then fields.getD idx [] else [])
    with status | value
  · rfl
  · rfl

/-- A sample is read or not whatever the number of its line is. -/
theorem mapError_readSample (strtof : Text → Flt K × ℕ) (columns : Columns) (fields : List Text)
    (line_no line_no' size : ℕ) :
  (readSample strtof columns fields line_no size).mapError Status.code
    = (readSample strtof columns fields line_no' size).mapError Status.code
  := by
  have hradar : (collect kRadarChannels (fun ch =>
        readValue strtof fields (columns.radar ch) (radarName ch) line_no)).mapError Status.code
      = (collect kRadarChannels (fun ch =>
        readValue strtof fields (columns.radar ch) (radarName ch) line_no')).mapError
          Status.code := by
    rw [collect_mapError, collect_mapError]
    congr 1
    funext ch
    apply mapError_readValue
  have himu := mapError_readValue strtof fields columns.imu imuName line_no line_no'
  rw [readSample, readSample]
  rcases cases_of_mapError_eq hradar with ⟨status, status', hx, hy, hcode⟩ | ⟨radar, hx, hy⟩
  · rw [hx, hy]
    apply congrArg Except.error hcode
  · rw [hx, hy]
    rcases cases_of_mapError_eq himu with ⟨status, status', hx, hy, hcode⟩ | ⟨imu, hx, hy⟩
    · simp only [hx, hy]
      apply congrArg Except.error hcode
    · simp only [hx, hy]

/-- What the reader makes of the data lines: the code of the first failure, and the samples. -/
def readData (strtof : Text → Flt K × ℕ) (columns : Columns) :
    List Text → List (RawSample K) → ErrorCode × List (RawSample K)
  | [], samples => (.ok, samples)
  | line :: rest, samples =>
      match splitLine line with
      | .error status => (status.code, samples)
      | .ok fields =>
          match readSample strtof columns fields 0 samples.length with
          | .error status => (status.code, samples)
          | .ok sample => readData strtof columns rest (samples ++ [sample])

/-- The reader depends on the data lines, but for the messages. -/
theorem readLines_eq_readData (strtof : Text → Flt K × ℕ) (columns : Columns) (ls : List Text)
    (line_no : ℕ) (samples : List (RawSample K)) :
  ((readLines strtof columns ls line_no samples).1.code,
      (readLines strtof columns ls line_no samples).2)
    = readData strtof columns (dataLines ls) samples
  := by
  induction ls generalizing line_no samples with
  | nil => rfl
  | cons line ls ih =>
      rw [readLines, readLine, dataLines, List.map_cons, List.filter_cons]
      cases hblank : (trim (dropCarriageReturn line)).isEmpty with
      | true =>
          simp only [if_true, Bool.not_true, Bool.false_eq_true, if_false]
          apply ih
      | false =>
          simp only [Bool.false_eq_true, if_false, Bool.not_false, if_true]
          rw [readData]
          rcases splitLine (dropCarriageReturn line) with status | fields
          · rfl
          · rcases cases_of_mapError_eq (mapError_readSample strtof columns fields (line_no + 1) 0
              samples.length) with ⟨status, status', hx, hy, hcode⟩ | ⟨sample, hx, hy⟩
            · simp only [hx, hy, hcode]
            · simp only [hx, hy]
              apply ih

/-! ### The file -/

/-- What the reader makes of the data of a file: the code of the failure, and the samples. -/
def readContent (strtof : Text → Flt K × ℕ) (data : Option (Text × List Text))
    (samples : List (RawSample K)) : ErrorCode × List (RawSample K) :=
  match data with
  | none => (.parseError, samples)
  | some (header, ls) =>
      match splitLine header with
      | .error status => (status.code, samples)
      | .ok headers =>
          match findColumns headers with
          | .error status => (status.code, samples)
          | .ok columns =>
              let (code, samples) := readData strtof columns ls []
              if code = .ok ∧ samples.isEmpty then (.parseError, samples) else (code, samples)

/-- The reader depends on the data of the file, but for the messages. -/
theorem read_eq_readContent (strtof : Text → Flt K × ℕ) (path : String) (text : Text)
    (samples : List (RawSample K)) :
  ((read strtof path (some text) samples).1.code, (read strtof path (some text) samples).2)
    = readContent strtof (content text) samples
  := by
  rw [read, content]
  rcases lines text with _ | ⟨header, ls⟩
  · rfl
  · simp only [readContent, headerText]
    rcases splitLine (if hasUtf8Bom (dropCarriageReturn header)
      then (dropCarriageReturn header).drop 3 else dropCarriageReturn header) with status | headers
    · rfl
    · simp only
      rcases findColumns headers with status | columns
      · rfl
      · simp only
        rw [← readLines_eq_readData strtof columns ls 1 []]
        rcases readLines strtof columns ls 1 [] with ⟨status, samples'⟩
        simp only [Status.ok]
        by_cases hcode : status.code = .ok
        · rcases samples' with _ | ⟨sample, samples'⟩
          · simp [hcode, Status.failure]
          · simp [hcode, Status.success]
        · simp [hcode]

/-- Files with the same data are read alike: with the same code and the same samples, whatever the
ends of the lines, the byte order marks and the blank lines are. -/
theorem read_of_content_eq {strtof : Text → Flt K × ℕ} {text text' : Text}
    (h : content text = content text') (path path' : String) (samples : List (RawSample K)) :
  (read strtof path (some text) samples).1.code = (read strtof path' (some text') samples).1.code
    ∧ (read strtof path (some text) samples).2 = (read strtof path' (some text') samples).2
  := by
  have hread := read_eq_readContent strtof path text samples
  rw [h, ← read_eq_readContent strtof path' text' samples, Prod.mk.injEq] at hread
  apply hread

/-- The theorem at a file with a row, and its variant of Windows with a blank line. -/
theorem read_of_content_eq_windows :
  (read (fun s => (.fin (1 : ℚ), s.length)) "plain.csv"
        (some "D1,D2,D3,D4,D5,D6,D7,D8,IMU\n1,2,3,4,5,6,7,8,9".toList) []).2
    = (read (fun s => (.fin (1 : ℚ), s.length)) "windows.csv"
        (some (bom ++ withCarriageReturns
          "D1,D2,D3,D4,D5,D6,D7,D8,IMU\n \n1,2,3,4,5,6,7,8,9\n".toList)) []).2
  := by
  apply (read_of_content_eq _ "plain.csv" "windows.csv" []).2
  rw [content_windows (by decide) (by decide) (by decide)]
  decide

end CsvReader
