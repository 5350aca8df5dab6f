import PipeAI.Preprocess.CsvLayout

/-!
# What a failed read of a CSV file leaves

`CsvReader::read` empties the vector of samples once it has found the columns, and then fills it
line by line.  A failure before that leaves the vector as it was; a failure after it leaves the
samples of the lines before the malformed one, or none when there are no rows.  So a file is read
without any danger to what the vector held before exactly when its columns are not found, or all
its data lines are read and there is one (`read_unchanged_iff`).
-/

universe u

namespace CsvReader

variable {K : Type u}

/-! ### The lines -/

/-- A line that is not split is a failure. -/
theorem ok_of_splitFrom_error {skip quoted : Bool} {field line : Text} {fields : List Text}
    {failure : Status × List Text}
    (h : splitFrom skip quoted field fields line = .error failure) :
  failure.1.ok = false
  := by
  induction line generalizing skip quoted field fields with
  | nil =>
      rw [splitFrom] at h
      split at h
      · cases h
        rfl
      · cases h
  | cons c line ih =>
      cases skip with
      | true => apply ih h
      | false =>
          cases quoted with
          | true =>
              rw [splitFrom] at h
              split at h
              · split at h
                · apply ih h
                · apply ih h
              · apply ih h
          | false =>
              rw [splitFrom] at h
              split at h
              · apply ih h
              · split at h
                · split at h
                  · cases h
                    rfl
                  · apply ih h
                · apply ih h

/-- A line that is not split has the code of a failure. -/
theorem code_of_splitLine_error {line : Text} {status : Status}
    (h : splitLine line = .error status) :
  status.code ≠ .ok
  := by
  rw [splitLine] at h
  rcases hsplit : splitFrom false false [] [] line with failure | fields
  · rw [hsplit] at h
    cases h
    apply of_decide_eq_false (ok_of_splitFrom_error hsplit)
  · rw [hsplit] at h
    cases h

/-- The line is split, and the values in its columns are converted. -/
def HasValues (strtof : Text → Flt K × ℕ) (columns : Columns) (line : Text) : Prop :=
  ∃ fields sample, splitLine line = .ok fields ∧ Holds strtof columns fields sample

/-- The data lines are read up to their end exactly when each of them is. -/
theorem readData_eq_ok_iff (strtof : Text → Flt K × ℕ) (columns : Columns) (ls : List Text)
    (samples : List (RawSample K)) :
  (readData strtof columns ls samples).1 = .ok ↔ ∀ line ∈ ls, HasValues strtof columns line
  := by
  induction ls generalizing samples with
  | nil => simp [readData]
  | cons line ls ih =>
      rw [List.forall_mem_cons, readData]
      rcases hsplit : splitLine line with status | fields
      · apply iff_of_false (code_of_splitLine_error hsplit)
        rintro ⟨⟨fields, sample, hok, -⟩, -⟩
        rw [hsplit] at hok
        cases hok
      · rcases hsample : readSample strtof columns fields 0 samples.length with status | sample
        · simp only [hsample]
          apply iff_of_false (of_decide_eq_false (ok_of_readSample_error hsample))
          rintro ⟨⟨fields', sample, hok, hholds⟩, -⟩
          rw [hsplit] at hok
          cases hok
          rw [readSample_of_holds hholds] at hsample
          cases hsample
        · simp only [hsample]
          rw [ih, and_iff_right]
          exact ⟨fields, sample, hsplit, (holds_of_readSample hsample).2⟩

/-- The samples before are kept. -/
theorem length_le_readData (strtof : Text → Flt K × ℕ) (columns : Columns) (ls : List Text)
    (samples : List (RawSample K)) :
  samples.length ≤ (readData strtof columns ls samples).2.length
  := by
  induction ls generalizing samples with
  | nil => rfl
  | cons line ls ih =>
      rw [readData]
      rcases splitLine line with status | fields
      · rfl
      · rcases hsample : readSample strtof columns fields 0 samples.length with status | sample
        · simp only [hsample]
          rfl
        · simp only [hsample]
          apply le_trans _ (ih _)
          rw [List.length_append]
          omega

/-- The reading of the data lines gives samples without a failure exactly when there is a data line,
and each of them is read. -/
theorem readData_nonempty_iff (strtof : Text → Flt K × ℕ) (columns : Columns) (ls : List Text) :
  (readData strtof columns ls []).1 = .ok ∧ (readData strtof columns ls []).2 ≠ []
    ↔ (∀ line ∈ ls, HasValues strtof columns line) ∧ ls ≠ []
  := by
  rw [readData_eq_ok_iff]
  apply and_congr_right
  intro hread
  rcases ls with _ | ⟨line, ls⟩
  · simp [readData]
  · apply iff_of_true
    · obtain ⟨fields, sample, hsplit, hholds⟩ := hread line (by simp)
      rw [readData, hsplit]
      simp only [readSample_of_holds hholds]
      intro hnil
      have hle := length_le_readData strtof columns ls
        ([] ++ [{ sample with timestamp_ns := UInt64.ofNat ([] : List (RawSample K)).length }])
      rw [hnil] at hle
      simp at hle
    · simp

/-! ### The file -/

/-- The file has a header that names all columns, and the given data lines after it. -/
def HasColumns (file : Option Text) (columns : Columns) (ls : List Text) : Prop :=
  ∃ text header headers, file = some text ∧ content text = some (header, ls)
    ∧ splitLine header = .ok headers ∧ findColumns headers = .ok columns

/-- Without such a header the vector of samples stays. -/
theorem read_of_not_hasColumns (strtof : Text → Flt K × ℕ) (path : String) {file : Option Text}
    (samples : List (RawSample K)) (h : ∀ columns ls, ¬ HasColumns file columns ls) :
  (read strtof path file samples).2 = samples
  := by
  rcases file with _ | text
  · rfl
  · have hread := congrArg Prod.snd (read_eq_readContent strtof path text samples)
    dsimp only at hread
    rw [hread]
    rcases hcontent : content text with _ | ⟨header, ls⟩
    · rfl
    · rw [readContent]
      rcases hsplit : splitLine header with status | headers
      · rfl
      · rcases hcolumns : findColumns headers with status | columns
        · simp only [hcolumns]
        · apply absurd _ (h columns ls)
          exact ⟨text, header, headers, rfl, hcontent, hsplit, hcolumns⟩

/-- With such a header what the vector held does not matter, and the reading succeeds exactly when
there is a data line, and each of them is read. -/
theorem read_of_hasColumns (strtof : Text → Flt K × ℕ) (path : String) {file : Option Text}
    {columns : Columns} {ls : List Text} (h : HasColumns file columns ls) :
  ∃ code after, (∀ samples, (read strtof path file samples).1.code = code
      ∧ (read strtof path file samples).2 = after)
    ∧ (code = .ok ↔ (∀ line ∈ ls, HasValues strtof columns line) ∧ ls ≠ [])
  := by
  obtain ⟨text, header, headers, rfl, hcontent, hsplit, hcolumns⟩ := h
  refine ⟨(readContent strtof (some (header, ls)) []).1,
    (readContent strtof (some (header, ls)) []).2, ?_, ?_⟩
  · intro samples
    have hread := read_eq_readContent strtof path text samples
    have hsame : readContent strtof (some (header, ls)) samples
        = readContent strtof (some (header, ls)) [] := by
      simp only [readContent, hsplit, hcolumns]
    rw [hcontent, hsame, Prod.ext_iff] at hread
    apply hread
  · rw [← readData_nonempty_iff]
    simp only [readContent, hsplit, hcolumns]
    split
    · rename_i hempty
      simp [List.isEmpty_iff.mp hempty.2]
    · rename_i hempty
      simp only [List.isEmpty_iff] at hempty
      tauto

/-- Whatever the vector of samples held before, a failed read leaves it as it was, exactly when the
columns are not found, or there is a data line, and each of them is split and has its values
converted. -/
theorem read_unchanged_iff (strtof : Text → Flt K × ℕ) (path : String) (file : Option Text) :
  (∀ samples, (read strtof path file samples).1.ok = false →
      (read strtof path file samples).2 = samples)
    ↔ ∀ columns ls, HasColumns file columns ls →
      (∀ line ∈ ls, HasValues strtof columns line) ∧ ls ≠ []
  := by
  constructor
  · intro h columns ls hcolumns
    obtain ⟨code, after, hread, hiff⟩ := read_of_hasColumns strtof path hcolumns
    rw [← hiff]
    by_contra hcode
    have hafter : ∀ samples : List (RawSample K), after = samples := by
      intro samples
      rw [← (hread samples).2]
      apply h
      rw [Status.ok, (hread samples).1]
      apply decide_eq_false hcode
    have hempty := (hafter []).symm.trans (hafter [⟨0, fun _ => .nan, .nan⟩])
    cases hempty
  · intro h samples hfail
    by_cases hheader : ∃ columns ls, HasColumns file columns ls
    · obtain ⟨columns, ls, hcolumns⟩ := hheader
      obtain ⟨code, after, hread, hiff⟩ := read_of_hasColumns strtof path hcolumns
      rw [Status.ok, (hread samples).1, hiff.mpr (h columns ls hcolumns)] at hfail
      cases hfail
    · push Not at hheader
      apply read_of_not_hasColumns strtof path samples hheader

/-- Reading a file whose second line is a single quote fails, and empties the vector. -/
theorem not_read_unchanged :
  ¬ ∀ (strtof : Text → Flt ℚ × ℕ) (path : String) (file : Option Text)
    (samples : List (RawSample ℚ)),
    (read strtof path file samples).1.ok = false → (read strtof path file samples).2 = samples
  := by
  intro h
  have hsamples := h (fun _ => (.fin 0, 0)) "" (some "D1,D2,D3,D4,D5,D6,D7,D8,IMU\n\"".toList)
    [RawSample.default ℚ] rfl
  cases hsamples

end CsvReader
