import PipeAI.Text.Numbers
import PipeAI.Text.Strip
import PipeAI.Types
import Mathlib.Logic.Function.Basic

/-!
# The configuration reader

`Config.load` reads a configuration file line by line.  A line is trimmed, and passed over when
nothing is left or it begins with a number sign or a semicolon; a line in square brackets opens a
section; any other line is cut at its first equality sign, and its value is stored under its key,
which is preceded by the section and a dot when a section is open.

A file that cannot be opened is `none`.  The texts stored are a function of their keys.  The
conversions `std::stoi` and `std::stoull` have no result where they throw an exception;
`std::stof` is a parameter.
-/

universe u

/-- `Config`: the texts stored. -/
@[ext]
structure Config where
  values : Text → Option Text

namespace Config

/-! ### The code -/

/-- The values of a `Config` that has been cleared. -/
def cleared : Config where
  values := fun _ => none

/-- `Config::trim`. -/
def trim (s : Text) : Text :=
  strip isSpace s

/-- A value stored under a key. -/
def set (config : Config) (key value : Text) : Config where
  values := Function.update config.values key (some value)

@[simp]
theorem values_set (config : Config) (key value : Text) :
  (config.set key value).values = Function.update config.values key (some value)
  := rfl

/-- The body of the loop of `Config::load`: the section and the values after a line. -/
def loadLine (line : Text) (line_no : ℕ) (sect : Text) (config : Config) :
    Except Status (Text × Config) :=
  let line := trim line
  if line.isEmpty ∨ line.head? = some '#' ∨ line.head? = some ';' then .ok (sect, config)
  else if line.head? = some '[' ∧ line.getLast? = some ']' then
    let sect := trim ((line.drop 1).take (line.length - 2))
    if sect.isEmpty then
      .error (.failure .parseError ("empty section at line " ++ toString line_no))
    else .ok (sect, config)
  else
    match line.idxOf? '=' with
    | none => .error (.failure .parseError ("expected key=value at line " ++ toString line_no))
    | some eq =>
        let key := trim (line.take eq)
        let value := trim (line.drop (eq + 1))
        if key.isEmpty then
          .error (.failure .parseError ("empty key at line " ++ toString line_no))
        else
          let key := if sect.isEmpty then key else sect ++ '.' :: key
          .ok (sect, config.set key value)

/-- The loop of `Config::load`: the lines left, the number of lines read, the section, and the
values. -/
def loadLines : List Text → ℕ → Text → Config → Status × Config
  | [], _, _, config => (.success, config)
  | line :: rest, line_no, sect, config =>
      let line_no := line_no + 1
      match loadLine line line_no sect config with
      | .error status => (status, config)
      | .ok (sect, config) => loadLines rest line_no sect config

/-- `Config::load`. -/
def load (path : String) (file : Option Text) (config : Config) : Status × Config :=
  match file with
  | none => (.failure .ioError ("cannot open config: " ++ path), config)
  | some text => loadLines (lines text) 0 [] cleared

/-- `Config::has`. -/
def has (config : Config) (key : Text) : Bool :=
  (config.values key).isSome

/-- `Config::get_string`. -/
def getString (config : Config) (key fallback : Text) : Text :=
  match config.values key with
  | none => fallback
  | some value => value

/-- `std::stoi` to the base 10: the value and the number of characters read. -/
def stoi (s : Text) : Option (ℤ × ℕ) :=
  let sign := scanSign (s.dropWhile isSpace)
  let digits := scanDigits sign.2
  if digits.1 = [] then none
  else
    let value : ℤ :=
      if sign.1 = ['-'] then -(digitsValue 10 digits.1 : ℤ) else digitsValue 10 digits.1
    if value < -2 ^ 31 ∨ 2 ^ 31 ≤ value then none
    else some (value, s.length - digits.2.length)

/-- `std::stoull` to the base 10: the value, negated after a minus sign, and the number of
characters read. -/
def stoull (s : Text) : Option (UInt64 × ℕ) :=
  let sign := scanSign (s.dropWhile isSpace)
  let digits := scanDigits sign.2
  if digits.1 = [] then none
  else if 2 ^ 64 ≤ digitsValue 10 digits.1 then none
  else
    let value := UInt64.ofNat (digitsValue 10 digits.1)
    some (if sign.1 = ['-'] then -value else value, s.length - digits.2.length)

/-- The largest value of `std::size_t`. -/
def sizeMax : UInt64 :=
  UInt64.ofNat (2 ^ 64 - 1)

/-- `Config::get_int`. -/
def getInt (config : Config) (key : Text) (fallback : ℤ) : ℤ :=
  match config.values key with
  | none => fallback
  | some text =>
      match stoi text with
      | none => fallback
      | some (value, pos) => if pos ≠ text.length then fallback else value

/-- `Config::get_size`. -/
def getSize (config : Config) (key : Text) (fallback : UInt64) : UInt64 :=
  match config.values key with
  | none => fallback
  | some text =>
      match stoull text with
      | none => fallback
      | some (value, pos) => if pos ≠ text.length ∨ value > sizeMax then fallback else value

/-- `Config::get_float`. -/
def getFloat {K : Type u} (stof : Text → Option (Flt K × ℕ)) (config : Config) (key : Text)
    (fallback : Flt K) : Flt K :=
  match config.values key with
  | none => fallback
  | some text =>
      match stof text with
      | none => fallback
      | some (value, pos) => if pos ≠ text.length then fallback else value

/-- `Config::get_bool`. -/
def getBool (config : Config) (key : Text) (fallback : Bool) : Bool :=
  match config.values key with
  | none => fallback
  | some text =>
      let value := text.map Char.toLower
      if value = "1".toList ∨ value = "true".toList ∨ value = "yes".toList ∨ value = "on".toList
      then true
      else if value = "0".toList ∨ value = "false".toList ∨ value = "no".toList
          ∨ value = "off".toList
      then false
      else fallback

/-! ### The lines -/

/-- The line is empty when it is trimmed, or begins with a number sign or a semicolon. -/
def IsSkipped (line : Text) : Prop :=
  trim line = [] ∨ (trim line).head? = some '#' ∨ (trim line).head? = some ';'

/-- The line is in square brackets when it is trimmed. -/
def IsBracketed (line : Text) : Prop :=
  (trim line).head? = some '[' ∧ (trim line).getLast? = some ']'

/-- The line after one that is accepted is the next to be read. -/
theorem loadLines_of_ok {line : Text} {line_no : ℕ} {sect sect' : Text} {config config' : Config}
    (h : loadLine line (line_no + 1) sect config = .ok (sect', config')) (rest : List Text) :
  loadLines (line :: rest) line_no sect config = loadLines rest (line_no + 1) sect' config'
  := by
  rw [loadLines, h]

/-- A line of which nothing is left, or that begins with a number sign or a semicolon, is passed
over. -/
theorem loadLine_skip {line : Text} (h : IsSkipped line) (line_no : ℕ) (sect : Text)
    (config : Config) :
  loadLine line line_no sect config = .ok (sect, config)
  := by
  rw [loadLine, if_pos]
  rw [List.isEmpty_iff]
  apply h

/-- A line in square brackets opens the section between them, unless that is blank. -/
theorem loadLine_header {line name : Text} (hline : trim line = '[' :: name ++ [']'])
    (line_no : ℕ) (sect : Text) (config : Config) :
  loadLine line line_no sect config
    = if trim name = [] then
        .error (.failure .parseError ("empty section at line " ++ toString line_no))
      else .ok (trim name, config)
  := by
  have hbetween : ((trim line).drop 1).take ((trim line).length - 2) = name := by
    rw [hline]
    simp
  rw [loadLine]
  simp only [hbetween, List.isEmpty_iff]
  rw [if_neg (by simp [hline]), if_pos]
  rw [hline]
  constructor
  · rfl
  · apply List.getLast?_concat

/-- The first character of a kind is where the rest of the text begins with it. -/
theorem idxOf?_append_cons {s : Text} {c : Char} (h : c ∉ s) (t : Text) :
  (s ++ c :: t).idxOf? c = some s.length
  := by
  induction s with
  | nil => simp [List.idxOf?_cons]
  | cons d s ih =>
      rw [List.mem_cons, not_or] at h
      rw [List.cons_append, List.idxOf?_cons, ih h.2, if_neg (by simpa using Ne.symm h.1)]
      rfl

/-- Any other line with an equality sign stores the value on the right of the first one under
the key on the left, unless that is blank. -/
theorem loadLine_assignment {line key value : Text} (hline : trim line = key ++ '=' :: value)
    (hsign : '=' ∉ key) (hskip : ¬ IsSkipped line) (hbracket : ¬ IsBracketed line) (line_no : ℕ)
    (sect : Text) (config : Config) :
  loadLine line line_no sect config
    = if trim key = [] then
        .error (.failure .parseError ("empty key at line " ++ toString line_no))
      else .ok (sect,
        config.set (if sect.isEmpty then trim key else sect ++ '.' :: trim key) (trim value))
  := by
  have hidx : (trim line).idxOf? '=' = some key.length := by
    rw [hline, idxOf?_append_cons hsign]
  have htake : (trim line).take key.length = key := by
    rw [hline, List.take_left]
  have hdrop : (trim line).drop (key.length + 1) = value := by
    rw [hline, ← List.drop_drop, List.drop_left, List.drop_one, List.tail_cons]
  rw [loadLine]
  simp only [hidx, htake, hdrop, List.isEmpty_iff]
  rw [if_neg, if_neg]
  · apply hbracket
  · apply hskip

/-- Any other line without an equality sign is a failure. -/
theorem loadLine_of_notMem {line : Text} (hskip : ¬ IsSkipped line) (hbracket : ¬ IsBracketed line)
    (hsign : '=' ∉ trim line) (line_no : ℕ) (sect : Text) (config : Config) :
  loadLine line line_no sect config
    = .error (.failure .parseError ("expected key=value at line " ++ toString line_no))
  := by
  rw [loadLine]
  simp only [List.idxOf?_eq_none_iff.mpr hsign, List.isEmpty_iff]
  rw [if_neg, if_neg]
  · apply hbracket
  · apply hskip

/-! ### The values -/

/-- No white space is stored at the ends of a value. -/
def Trimmed (config : Config) : Prop :=
  ∀ q v, config.values q = some v → trim v = v

/-- A trimmed value is stored. -/
theorem Trimmed.set {config : Config} (h : config.Trimmed) (key value : Text) :
  (config.set key (trim value)).Trimmed
  := by
  intro q v hv
  rw [values_set, Function.update_apply] at hv
  split at hv
  · cases hv
    apply strip_strip
  · apply h q v hv

/-- A line that is accepted stores a trimmed value, if any. -/
theorem Trimmed.loadLine {config config' : Config} (h : config.Trimmed) {line : Text} {line_no : ℕ}
    {sect sect' : Text} (hline : Config.loadLine line line_no sect config = .ok (sect', config')) :
  config'.Trimmed
  := by
  rw [Config.loadLine] at hline
  simp only at hline
  split at hline
  · cases hline
    apply h
  · split at hline
    · split at hline
      · cases hline
      · cases hline
        apply h
    · split at hline
      · cases hline
      · split at hline
        · cases hline
        · cases hline
          apply h.set

/-- The lines store trimmed values, also when one of them is not accepted. -/
theorem Trimmed.loadLines {config : Config} (h : config.Trimmed) (ls : List Text) (line_no : ℕ)
    (sect : Text) :
  (loadLines ls line_no sect config).2.Trimmed
  := by
  induction ls generalizing line_no sect config with
  | nil => apply h
  | cons line ls ih =>
      rw [Config.loadLines]
      rcases hline : Config.loadLine line (line_no + 1) sect config with status | ⟨sect', config'⟩
      · apply h
      · apply ih (h.loadLine hline)

/-- Loading keeps the values trimmed, whether it succeeds or not. -/
theorem Trimmed.load {config : Config} (h : config.Trimmed) (path : String) (file : Option Text) :
  (load path file config).2.Trimmed
  := by
  cases file with
  | none => apply h
  | some text =>
      apply Trimmed.loadLines
      intro q v hv
      cases hv

end Config
