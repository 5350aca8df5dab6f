import PipeAI.Preprocess.CsvTable
import PipeAI.Preprocess.Preprocessor
import Mathlib.Tactic.FinCases

/-!
# The commissioning tool

`PreprocessCsv.main` reads samples from a CSV file, preprocesses them, and writes the tensor as
a CSV file, one line for each row.

The tool and the CSV reader share no code.  The reader reads what the tool has written: it
succeeds on the text of a tensor of finite values, and gives its rows as samples
(`PreprocessCsv.read_writeTensor`).  Of the library functions, printing a value must give a text
that is one field of a line, and that converts back to the value (`ReadsBack`).
-/

universe u

namespace PreprocessCsv

variable {K : Type u}

/-! ### The code -/

/-- The header line. -/
def header : Text := "D1,D2,D3,D4,D5,D6,D7,D8,IMU".toList

/-- The line of a row of the tensor, without the line break; `print` is the insertion of a value
into the stream. -/
def writeRow (print : Flt K → Text) (tensor : ModelInput K) (t : Fin kTargetLength) : Text :=
  (List.finRange kInputChannels).flatMap (fun (c : Fin kInputChannels) =>
    (if (c : ℕ) ≠ 0 then [','] else []) ++ print (tensor.get t c))

/-- What the tool writes for a tensor. -/
def writeTensor (print : Flt K → Text) (tensor : ModelInput K) : Text :=
  header ++ ['\n'] ++ (List.finRange kTargetLength).flatMap (fun t =>
    writeRow print tensor t ++ ['\n'])

/-- The exit status of the tool, what it writes to its output, and what it reports. -/
structure Outcome where
  success : Bool
  out : Text
  err : String

/-- The exit of the tool with a failure. -/
def Outcome.failure (err : String) : Outcome := ⟨false, [], err ++ "\n"⟩

/-- The report of the preprocessor, as the tool prints it. -/
def summary (report : PreprocessReport) : String :=
  "source_samples=" ++ toString report.source_samples
    ++ " repaired_radar_values=" ++ toString report.radar_invalid_values
    ++ " all_invalid_channels=" ++ toString report.all_invalid_radar_channels
    ++ " imu_nonfinite=" ++ toString report.imu_nonfinite_values
    ++ " savgol=" ++ (if report.savgol_applied then "yes" else "no")
    ++ "\n"

section Main

variable [Field K] [LinearOrder K]

/-- The tool, for an input and an output file; the output file is the standard output if it has
no name.  `files` are the texts of the files that can be opened, and `creatable` tells which
files can be created. -/
def convert (R : Rounding K) (strtof : Text → Flt K × ℕ) (print : Flt K → Text)
    (files : String → Option Text) (creatable : String → Bool) (input_path output_path : String) :
    Option Outcome :=
  let (status, samples) := CsvReader.read strtof input_path (files input_path) []
  if !status.ok then some (.failure ("CSV error: " ++ status.message))
  else
    (Preprocessor.run R ⟨.fin (150 : ℕ)⟩ samples (ModelInput.zero K)
        (some (PreprocessReport.ofSamples 0))).map (fun p =>
      if !p.1.ok then .failure ("preprocess error: " ++ p.1.message)
      else if !output_path.isEmpty && !creatable output_path then
        .failure ("cannot create output: " ++ output_path)
      else ⟨true, writeTensor print p.2.1, (p.2.2.elim "" summary)⟩)

/-- `main`. -/
def main (R : Rounding K) (strtof : Text → Flt K × ℕ) (print : Flt K → Text)
    (files : String → Option Text) (creatable : String → Bool) (argv : List String) :
    Option Outcome :=
  match argv with
  | [_, input_path] => convert R strtof print files creatable input_path ""
  | [_, input_path, output_path] => convert R strtof print files creatable input_path output_path
  | _ => some (.failure "usage: pipeai_preprocess_csv INPUT.csv [OUTPUT.csv]")

end Main

/-! ### The header -/

open CsvReader

/-- The names of the columns. -/
def names : List Text :=
  (List.finRange kRadarChannels).map radarName ++ [imuName]

/-- The header line holds the names of the columns. -/
theorem isRow_header :
  IsRow header names
  := by
  have hjoin : header = joinFields names := by decide
  have hdrop : dropCarriageReturn header = header := dropCarriageReturn_eq_self (by decide)
  constructor
  · decide
  · rw [hdrop, hjoin]
    apply splitLine_joinFields _ (by decide)
    rw [List.forall₂_same]
    have hplain : names.all (fun name => name.all (fun c => c ≠ ',' && c ≠ '"')) = true := by
      decide
    intro name hname
    apply encodes_plain
    intro c hc
    have hname := List.all_eq_true.mp (List.all_eq_true.mp hplain name hname) c hc
    simpa using hname

/-- The reader finds the columns at the places where the tool writes them. -/
theorem findColumns_names :
  findColumns names = .ok ⟨fun ch => ch, kRadarChannels⟩
  := by
  apply findColumns_eq_ok
  · decide
  · decide

/-! ### The rows -/

/-- Printing the value gives a text that is not empty, has no comma, quote, or blank, and which
`strtof` converts back to the value. -/
structure ReadsBack (print : Flt K → Text) (strtof : Text → Flt K × ℕ) (value : Flt K) : Prop where
  nonempty : print value ≠ []
  plain : ∀ c ∈ print value, c ≠ ',' ∧ c ≠ '"' ∧ isBlank c = false
  exact : strtof (cString (print value)) = (value, (print value).length)

/-- The fields of a row. -/
def rowFields (print : Flt K → Text) (tensor : ModelInput K) (t : Fin kTargetLength) : List Text :=
  (List.finRange kInputChannels).map (fun c => print (tensor.get t c))

/-- The insertion of a comma before each field but the first. -/
theorem flatMap_finRange {n : ℕ} (f : Fin (n + 1) → Text) :
  (List.finRange (n + 1)).flatMap
      (fun (c : Fin (n + 1)) => (if (c : ℕ) ≠ 0 then [','] else []) ++ f c)
    = joinFields ((List.finRange (n + 1)).map f)
  := by
  rw [List.finRange_succ, List.map_cons, joinFields_cons, List.flatMap_cons]
  simp [List.flatMap_map]

/-- The tool separates the fields of a row by commas. -/
theorem writeRow_eq (print : Flt K → Text) (tensor : ModelInput K) (t : Fin kTargetLength) :
  writeRow print tensor t = joinFields (rowFields print tensor t)
  := flatMap_finRange (fun c => print (tensor.get t c))

variable {print : Flt K → Text} {strtof : Text → Flt K × ℕ} {tensor : ModelInput K}

/-- The line of a row holds its fields, and no line break. -/
theorem isRow_writeRow {t : Fin kTargetLength}
    (h : ∀ c, ReadsBack print strtof (tensor.get t c)) :
  IsRow (writeRow print tensor t) (rowFields print tensor t) ∧ '\n' ∉ writeRow print tensor t
  := by
  have hplain : ∀ field ∈ rowFields print tensor t, ∀ c ∈ field,
      c ≠ ',' ∧ c ≠ '"' ∧ isBlank c = false := by
    intro field hfield
    obtain ⟨c, -, rfl⟩ := List.mem_map.mp hfield
    apply (h c).plain
  have hchar : ∀ c ∈ writeRow print tensor t, isBlank c = false := by
    intro c hc
    rw [writeRow_eq] at hc
    rcases mem_joinFields hc with rfl | ⟨field, hfield, hc⟩
    · decide
    · apply (hplain field hfield c hc).2.2
  have hne : writeRow print tensor t ≠ [] := by
    obtain ⟨c, hc⟩ := List.exists_mem_of_ne_nil _ (h Preprocessor.imuColumn).nonempty
    have hfield : print (tensor.get t Preprocessor.imuColumn) ∈ rowFields print tensor t := by
      apply List.mem_map_of_mem (List.mem_finRange _)
    rw [writeRow_eq]
    apply List.ne_nil_of_mem (mem_joinFields_of_mem hfield hc)
  have hdrop : dropCarriageReturn (writeRow print tensor t) = writeRow print tensor t := by
    apply dropCarriageReturn_eq_self
    intro hlast
    have hblank := hchar _ (List.mem_of_getLast? hlast)
    revert hblank
    decide
  constructor
  · constructor
    · rw [hdrop, trim, strip_of_forall hchar]
      apply hne
    · rw [hdrop, writeRow_eq]
      apply splitLine_joinFields
      · rw [List.forall₂_same]
        intro field hfield
        apply encodes_plain
        intro c hc
        obtain ⟨hcomma, hquote, -⟩ := hplain field hfield c hc
        exact ⟨hcomma, hquote⟩
      · intro hnil
        have hlen := congrArg List.length hnil
        simp [rowFields, kInputChannels] at hlen
  · intro hmem
    have hblank := hchar _ hmem
    revert hblank
    decide

/-- The field of a column of a row converts back to the value. -/
theorem parseFloat_rowFields {t : Fin kTargetLength} {c : Fin kInputChannels}
    (h : ReadsBack print strtof (tensor.get t c)) :
  parseFloat strtof ((rowFields print tensor t).getD c []) = .ok (tensor.get t c)
  := by
  have hget : (rowFields print tensor t).getD c [] = print (tensor.get t c) := by
    have hlt : (c : ℕ) < (rowFields print tensor t).length := by
      rw [rowFields, List.length_map, List.length_finRange]
      apply c.isLt
    rw [List.getD_eq_getElem?_getD, List.getElem?_eq_getElem hlt]
    simp [rowFields]
  have htrim : trim (print (tensor.get t c)) = print (tensor.get t c) := by
    apply strip_of_forall
    intro d hd
    apply (h.plain d hd).2.2
  have hle : (cString (print (tensor.get t c))).length ≤ (print (tensor.get t c)).length :=
    List.Sublist.length_le (List.takeWhile_sublist _)
  have hpos := List.length_pos_iff.mpr h.nonempty
  rw [hget, parseFloat, htrim]
  simp only [List.isEmpty_eq_false_iff.mpr h.nonempty, Bool.false_eq_true, if_false, h.exact]
  rw [if_neg (by omega)]

/-- The sample read from a row. -/
def rowSample (tensor : ModelInput K) (t : Fin kTargetLength) : RawSample K where
  timestamp_ns := UInt64.ofNat t
  radar := fun ch => tensor.get t (Preprocessor.radarColumn ch)
  imu := tensor.get t Preprocessor.imuColumn

/-- The reader gives the sample of a row. -/
theorem readSample_rowFields {t : Fin kTargetLength}
    (h : ∀ c, ReadsBack print strtof (tensor.get t c)) (line_no : ℕ) :
  readSample strtof ⟨fun ch => ch, kRadarChannels⟩ (rowFields print tensor t) line_no t
    = .ok (rowSample tensor t)
  := by
  have hholds : Holds strtof ⟨fun ch => ch, kRadarChannels⟩ (rowFields print tensor t)
      (rowSample tensor t) := by
    constructor
    · intro ch
      apply parseFloat_rowFields (h (Preprocessor.radarColumn ch))
    · apply parseFloat_rowFields (h Preprocessor.imuColumn)
  apply readSample_of_holds hholds

/-- The lines written for a tensor hold the header and the rows. -/
theorem writeTensor_eq (print : Flt K → Text) (tensor : ModelInput K) :
  writeTensor print tensor
    = unlines (header :: (List.finRange kTargetLength).map (writeRow print tensor))
  := by
  simp [writeTensor, unlines, List.flatMap_map]

/-- The reader succeeds on what the tool writes for a tensor of finite values, and gives a sample
for each row, with the values of the row. -/
theorem read_writeTensor (path : String) (samples : List (RawSample K))
    (hfinite : ∀ t c, (tensor.get t c).isFinite = true)
    (hprint : ∀ t c, (tensor.get t c).isFinite = true → ReadsBack print strtof (tensor.get t c)) :
  ∃ samples', CsvReader.read strtof path (some (writeTensor print tensor)) samples
      = (.success, samples')
    ∧ samples'.length = kTargetLength
    ∧ ∀ t : Fin kTargetLength, ∃ sample, samples'[(t : ℕ)]? = some sample
      ∧ sample.timestamp_ns = UInt64.ofNat t
      ∧ (∀ ch, sample.radar ch = tensor.get t (Preprocessor.radarColumn ch))
      ∧ sample.imu = tensor.get t Preprocessor.imuColumn
  := by
  have hback : ∀ t c, ReadsBack print strtof (tensor.get t c) :=
    fun t c => hprint t c (hfinite t c)
  have hrows : List.Forall₂ IsRow ((List.finRange kTargetLength).map (writeRow print tensor))
      ((List.finRange kTargetLength).map (rowFields print tensor)) := by
    rw [List.forall₂_map_left_iff, List.forall₂_map_right_iff, List.forall₂_same]
    intro t _
    apply (isRow_writeRow (hback t)).1
  have hlines : lines (writeTensor print tensor)
      = header :: (List.finRange kTargetLength).map (writeRow print tensor) := by
    rw [writeTensor_eq, lines_unlines]
    intro line hline
    rcases List.mem_cons.mp hline with rfl | hline
    · decide
    · obtain ⟨t, -, rfl⟩ := List.mem_map.mp hline
      apply (isRow_writeRow (hback t)).2
  let sampleAt : ℕ → RawSample K := fun i =>
    if h : i < kTargetLength then rowSample tensor ⟨i, h⟩ else rowSample tensor ⟨0, by decide⟩
  have hread : readRows strtof ⟨fun ch => ch, kRadarChannels⟩
      ((List.finRange kTargetLength).map (rowFields print tensor)) 1 []
      = (.success, table kTargetLength sampleAt) := by
    rw [readRows_eq_success (f := sampleAt)]
    · simp
    · intro i fields hfields
      rw [List.getElem?_map, Option.map_eq_some_iff] at hfields
      obtain ⟨t, ht, rfl⟩ := hfields
      obtain ⟨hlt, rfl⟩ := List.getElem?_eq_some_iff.mp ht
      have hi : i < kTargetLength := by simpa using hlt
      simp only [sampleAt, dif_pos hi, List.getElem_finRange]
      rw [List.length_nil, Nat.zero_add]
      apply readSample_rowFields (t := ⟨i, hi⟩) (hback ⟨i, hi⟩)
  use table kTargetLength sampleAt
  refine ⟨?_, length_table _ _, ?_⟩
  · rw [read_eq_readTable strtof path hlines isRow_header (by decide) hrows, readTable,
      findColumns_names]
    simp only [hread]
    rfl
  · intro t
    use rowSample tensor t
    rw [getElem?_table _ t.isLt]
    refine ⟨?_, rfl, fun ch => rfl, rfl⟩
    simp [sampleAt]

/-- The tensor whose columns hold their indices. -/
def columnIndices : ModelInput ℚ where
  values i := .fin ((i : ℕ) % kInputChannels : ℕ)

/-- The printing of a natural number in digits. -/
def printDigits : Flt ℚ → Text
  | .fin x => Nat.toDigits 10 x.num.toNat
  | _ => ['n', 'a', 'n']

/-- The reading of a digit. -/
def readDigit : Text → Flt ℚ × ℕ
  | [c] => if c.isDigit then (.fin (c.toNat - '0'.toNat : ℕ), 1) else (.fin 0, 0)
  | _ => (.fin 0, 0)

theorem get_columnIndices (t : Fin kTargetLength) (c : Fin kInputChannels) :
  columnIndices.get t c = .fin (c : ℕ)
  := by
  have hc : (t * kInputChannels + c : ℕ) % kInputChannels = c := by
    rw [Nat.mul_add_mod_of_lt c.isLt]
  simp only [columnIndices, ModelInput.get, ModelInput.index, hc]

/-- The index of a column is read back from its digit. -/
theorem readsBack_digit (c : Fin kInputChannels) :
  ReadsBack printDigits readDigit (.fin (c : ℕ))
  := by
  have hdigit : printDigits (.fin (c : ℕ)) = [Char.ofNat (48 + c)] := by
    revert c
    decide
  have hplain : Char.ofNat (48 + c) ≠ ',' ∧ Char.ofNat (48 + c) ≠ '"'
      ∧ isBlank (Char.ofNat (48 + c)) = false := by
    revert c
    decide
  constructor
  · rw [hdigit]
    simp
  · rw [hdigit]
    simpa using hplain
  · rw [hdigit]
    revert c
    decide

/-- The theorem at the tensor whose columns hold their indices, which are printed as digits. -/
theorem read_writeTensor_index :
  ∃ (tensor : ModelInput ℚ) (print : Flt ℚ → Text) (strtof : Text → Flt ℚ × ℕ),
    (∀ t c, tensor.get t c = .fin (c : ℕ)) ∧ print (.fin 7) = ['7'] ∧ strtof ['7'] = (.fin 7, 1)
    ∧ ∃ samples', CsvReader.read strtof "tensor.csv" (some (writeTensor print tensor)) []
        = (.success, samples')
      ∧ samples'.length = kTargetLength
      ∧ ∀ t : Fin kTargetLength, ∃ sample, samples'[(t : ℕ)]? = some sample
        ∧ sample.timestamp_ns = UInt64.ofNat t
        ∧ (∀ ch, sample.radar ch = tensor.get t (Preprocessor.radarColumn ch))
        ∧ sample.imu = tensor.get t Preprocessor.imuColumn
  := by
  refine ⟨columnIndices, printDigits, readDigit, get_columnIndices, by decide, by decide, ?_⟩
  apply read_writeTensor
  · intro t c
    rw [get_columnIndices]
    rfl
  · intro t c _
    rw [get_columnIndices]
    apply readsBack_digit

end PreprocessCsv
