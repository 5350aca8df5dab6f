import PipeAI.Numeric.Loop
import PipeAI.Text.Lines
import PipeAI.Text.Strip
import PipeAI.Types

/-!
# The CSV reader

`CsvReader.read` reads samples from a CSV file with a header line: it finds the columns of the
radar channels and of the inertial sensor by their names, and reads a number, or nothing, from
these columns of every line that is not blank.

The conversion `strtof` of the C library is a parameter: it gives a value and the number of
characters it has read.
-/

universe u

namespace CsvReader

variable {K : Type u}

/-! ### The code -/

/-- The characters that `CsvReader::trim` removes. -/
def isBlank (c : Char) : Bool :=
  c = ' ' || c = '\t' || c = '\n' || c = '\r'

/-- `CsvReader::trim`. -/
def trim (s : Text) : Text :=
  strip isBlank s

/-- The loop of `CsvReader::split_line` over the rest of the line: whether the next character has
been read already, whether it is inside quotes, the field, and the fields before it.  A failure
leaves the fields before. -/
def splitFrom : (skip quoted : Bool) → Text → List Text → Text →
    Except (Status × List Text) (List Text)
  | _, quoted, field, fields, [] =>
      if quoted then .error (.failure .parseError "unterminated quoted CSV field", fields)
      else .ok (fields ++ [field])
  | true, quoted, field, fields, _ :: rest => splitFrom false quoted field fields rest
  | false, true, field, fields, c :: rest =>
      if c = '"' then
        if rest.head? = some '"' then splitFrom true true (field ++ ['"']) fields rest
        else splitFrom false false field fields rest
      else splitFrom false true (field ++ [c]) fields rest
  | false, false, field, fields, c :: rest =>
      if c = ',' then splitFrom false false [] (fields ++ [field]) rest
      else if c = '"' then
        if !(trim field).isEmpty then
          .error (.failure .parseError "unexpected quote in unquoted CSV field", fields)
        else splitFrom false true [] fields rest
      else splitFrom false false (field ++ [c]) fields rest

/-- `CsvReader::split_line` for a caller that does not use the fields that a failure leaves. -/
def splitLine (line : Text) : Except Status (List Text) :=
  (splitFrom false false [] [] line).mapError Prod.fst

/-- The characters of `s.c_str()` before the terminating null character. -/
def cString (s : Text) : Text :=
  s.takeWhile (fun c => c ≠ '\x00')

/-- `CsvReader::parse_float`. -/
def parseFloat (strtof : Text → Flt K × ℕ) (text : Text) : Except Status (Flt K) :=
  let s := trim text
  if s.isEmpty then .ok .nan
  else
    let (parsed, stop) := strtof (cString s)
    if stop = 0 ∨ stop < (cString s).length then
      .error (.failure .parseError ("invalid numeric value: '" ++ String.ofList s ++ "'"))
    else .ok parsed

/-- A line without the carriage return at its end. -/
def dropCarriageReturn (line : Text) : Text :=
  if line.getLast? = some '\r' then line.dropLast else line

/-- `has_utf8_bom`. -/
def hasUtf8Bom (s : Text) : Bool :=
  s.take 3 = ['\u00EF', '\u00BB', '\u00BF']

/-- The index of the last column with a name, for the names that occur. -/
def columnMap (headers : List Text) : Text → Option ℕ :=
  headers.zipIdx.foldl (fun column p => Function.update column (trim p.1) (some p.2))
    (fun _ => none)

/-- The name of the column of a radar channel. -/
def radarName (ch : Fin kRadarChannels) : Text :=
  'D' :: Nat.toDigits 10 (ch + 1)

/-- The name of the column of the inertial sensor. -/
def imuName : Text := ['I', 'M', 'U']

/-- The search for a required column. -/
def requiredColumn (column : Text → Option ℕ) (name : Text) : Except Status ℕ :=
  match column name with
  | none => .error (.failure .parseError ("required CSV column missing: " ++ String.ofList name))
  | some i => .ok i

/-- The columns of the radar channels and of the inertial sensor. -/
structure Columns where
  radar : Fin kRadarChannels → ℕ
  imu : ℕ

/-- The search for all columns. -/
def findColumns (headers : List Text) : Except Status Columns :=
  match collect kRadarChannels (fun ch => requiredColumn (columnMap headers) (radarName ch)) with
  | .error status => .error status
  | .ok radar =>
      match requiredColumn (columnMap headers) imuName with
      | .error status => .error status
      | .ok imu => .ok ⟨radar, imu⟩

/-- The reading of one value: the field `idx`, or nothing when there are not as many fields. -/
def readValue (strtof : Text → Flt K × ℕ) (fields : List Text) (idx : ℕ) (name : Text)
    (line_no : ℕ) : Except Status (Flt K) :=
  let text := if idx < fields.length then fields.getD idx [] else []
  match parseFloat strtof text with
  | .error status =>
      .error { status with message := status.message ++ " for " ++ String.ofList name
        ++ " at CSV line " ++ toString line_no }
  | .ok value => .ok value

/-- The reading of the sample on a line. -/
@[irreducible]
def readSample (strtof : Text → Flt K × ℕ) (columns : Columns) (fields : List Text)
    (line_no size : ℕ) : Except Status (RawSample K) :=
  match collect kRadarChannels
      (fun ch => readValue strtof fields (columns.radar ch) (radarName ch) line_no) with
  | .error status => .error status
  | .ok radar =>
      match readValue strtof fields columns.imu imuName line_no with
      | .error status => .error status
      | .ok imu => .ok ⟨UInt64.ofNat size, radar, imu⟩

/-- The body of the loop of `CsvReader::read` over the lines after the header: the samples after a
line. -/
def readLine (strtof : Text → Flt K × ℕ) (columns : Columns) (line : Text) (line_no : ℕ)
    (samples : List (RawSample K)) : Except Status (List (RawSample K)) :=
  let line := dropCarriageReturn line
  if (trim line).isEmpty then .ok samples
  else
    match splitLine line with
    | .error status =>
        .error { status with message := status.message ++ " at CSV line " ++ toString line_no }
    | .ok fields =>
        match readSample strtof columns fields line_no samples.length with
        | .error status => .error status
        | .ok sample => .ok (samples ++ [sample])

/-- The loop of `CsvReader::read` over the lines after the header: the lines left, the number of
lines read, and the samples. -/
def readLines (strtof : Text → Flt K × ℕ) (columns : Columns) :
    List Text → ℕ → List (RawSample K) → Status × List (RawSample K)
  | [], _, samples => (.success, samples)
  | line :: rest, line_no, samples =>
      let line_no := line_no + 1
      match readLine strtof columns line line_no samples with
      | .error status => (status, samples)
      | .ok samples => readLines strtof columns rest line_no samples

/-- `CsvReader::read` of the file at a path, which has the given text if it can be opened: the
status and the samples. -/
def read (strtof : Text → Flt K × ℕ) (path : String) (file : Option Text)
    (samples : List (RawSample K)) : Status × List (RawSample K) :=
  match file with
  | none => (.failure .ioError ("cannot open CSV: " ++ path), samples)
  | some text =>
      match lines text with
      | [] => (.failure .parseError ("CSV is empty: " ++ path), samples)
      | header_line :: rest =>
          let header_line := dropCarriageReturn header_line
          let header_line := if hasUtf8Bom header_line then header_line.drop 3 else header_line
          match splitLine header_line with
          | .error status => (status, samples)
          | .ok headers =>
              match findColumns headers with
              | .error status => (status, samples)
              | .ok columns =>
                  let (status, samples) := readLines strtof columns rest 1 []
                  if !status.ok then (status, samples)
                  else if samples.isEmpty then
                    (.failure .parseError ("CSV contains no data rows: " ++ path), samples)
                  else (.success, samples)

end CsvReader
