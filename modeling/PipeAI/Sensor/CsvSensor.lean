import PipeAI.Preprocess.CsvTable
import PipeAI.Text.Numbers

/-!
# Live replay of a CSV file

`CsvSensor.read` reads a sample from the next line of a file by extraction from a stream of the
line, and `CsvSensor.replay` reads samples until a line fails.

The CSV reader takes a field for missing when it is blank, and reads what `strtof` reads, also
infinite values and values that are not numbers, in quotes or not.  Extraction reads decimal
numbers within the range of the type, without quotes.  On lines with ten columns that the reader
accepts, the replay gives the samples of the reader where all values are such numbers, and,
unless there are values in hexadecimal or with null characters, only there
(`CsvSensor.replay_agrees`).
-/

namespace CsvSensor

/-! ### The code -/

/-- The loop of `CsvSensor::read` over the radar channels. -/
@[irreducible]
def readRadar (F : FloatType) (is : List (Fin kRadarChannels))
    (p : (Fin kRadarChannels → Flt ℚ) × InStream) : (Fin kRadarChannels → Flt ℚ) × InStream :=
  is.foldl (fun p i =>
    let (_, ss) := p.2.getChar ','
    let (value, ss) := ss.getFloat F (p.1 i)
    (Function.update p.1 i value, ss)) p

/-- The extraction of a sample from a line: whether it succeeds, and the sample. -/
def readLine (F : FloatType) (line : Text) (sample : RawSample ℚ) : Bool × RawSample ℚ :=
  let (timestamp_ns, ss) := (InStream.ofText line).getUInt64 sample.timestamp_ns
  let (radar, ss) := readRadar F (List.finRange kRadarChannels) (sample.radar, ss)
  let (_, ss) := ss.getChar ','
  let (imu, ss) := ss.getFloat F sample.imu
  (!ss.fail, ⟨timestamp_ns, radar, imu⟩)

/-- `CsvSensor::read`, on the lines of the file that are left: whether it succeeds, the lines left,
and the sample. -/
def read (F : FloatType) (file : List Text) (sample : RawSample ℚ) :
    Bool × List Text × RawSample ℚ :=
  match file with
  | [] => (false, [], sample)
  | line :: rest => ((readLine F line sample).1, rest, (readLine F line sample).2)

/-- The samples that the replay loop of `Application::initialize` submits, while the application
is running. -/
def replay (F : FloatType) : List Text → RawSample ℚ → List (RawSample ℚ)
  | [], _ => []
  | line :: rest, sample =>
      match readLine F line sample with
      | (true, sample) => sample :: replay F rest sample
      | (false, _) => []

/-! ### Fields -/

open CsvReader

/-- A value that extraction reads: what follows the white space is accumulated as a whole, and its
value is not infinite. -/
def IsPlain (F : FloatType) (f : Text) : Prop :=
  (trim f).dropWhile isSpace ≠ [] ∧ (scanFloat ((trim f).dropWhile isSpace)).2 = []
    ∧ (strtof F (trim f)).1 ≠ .posInf ∧ (strtof F (trim f)).1 ≠ .negInf

/-- A value that is not in hexadecimal, and has no null character. -/
def IsOrdinary (f : Text) : Prop :=
  ¬ IsHex (trim f) ∧ '\x00' ∉ f

/-- A blank is white space. -/
theorem isSpace_of_isBlank {c : Char} (h : isBlank c = true) :
  isSpace c = true
  := by
  simp only [isBlank, Bool.or_eq_true, decide_eq_true_eq] at h
  rcases h with ((rfl | rfl) | rfl) | rfl <;> decide

/-- A comma or the end of the line after white space delimits a number. -/
theorem delimits_of_comma {space tail : Text} (hspace : ∀ c ∈ space, isSpace c = true)
    (htail : tail = [] ∨ ∃ rest, tail = ',' :: rest) :
  Delimits (space ++ tail)
  := by
  apply Delimits.append_space _ hspace
  rcases htail with rfl | ⟨rest, rfl⟩
  · intro c hc
    cases hc
  · intro c hc
    cases hc
    decide

/-- A field is its value between white space. -/
theorem field_eq (f : Text) :
  ∃ left right, f = left ++ ((trim f).dropWhile isSpace ++ right)
    ∧ (∀ c ∈ left, isSpace c = true) ∧ ∀ c ∈ right, isSpace c = true
  := by
  obtain ⟨left, right, heq, hleft, hright⟩ := exists_eq_append_strip (p := isBlank) f
  use left ++ (trim f).takeWhile isSpace, right
  constructor
  · rw [List.append_assoc, ← List.append_assoc (List.takeWhile _ _),
      List.takeWhile_append_dropWhile]
    apply heq
  · constructor
    · intro c hc
      rcases List.mem_append.mp hc with hc | hc
      · apply isSpace_of_isBlank (hleft c hc)
      · apply List.mem_takeWhile_imp hc
    · intro c hc
      apply isSpace_of_isBlank (hright c hc)

/-- A value the reader accepts is blank, and then missing, or read by `strtof` as a whole. -/
theorem strtof_of_parseFloat {F : FloatType} {f : Text} {v : Flt ℚ} (hnull : '\x00' ∉ trim f)
    (h : parseFloat (strtof F) f = .ok v) :
  trim f = [] ∨ trim f ≠ [] ∧ (strtof F (trim f)).1 = v
    ∧ (strtof F (trim f)).2 ≠ 0 ∧ (trim f).length ≤ (strtof F (trim f)).2
  := by
  have hcstring := cString_eq_self hnull
  rcases htrim : trim f with _ | ⟨c, rest⟩
  · left
    rfl
  · right
    rw [parseFloat, hcstring, htrim] at h
    simp only [List.isEmpty_cons, Bool.false_eq_true, if_false] at h
    split at h
    · cases h
    · rename_i hstop
      rw [not_or] at hstop
      rw [Except.ok.injEq] at h
      refine ⟨by simp, h, hstop.1, by omega⟩

/-- A plain value has no null character. -/
theorem IsPlain.not_mem {F : FloatType} {f : Text} (h : IsPlain F f) :
  '\x00' ∉ trim f
  := by
  rw [← List.takeWhile_append_dropWhile (p := isSpace) (l := trim f), List.mem_append, not_or]
  constructor
  · intro hmem
    have hspace := List.mem_takeWhile_imp hmem
    revert hspace
    decide
  · intro hmem
    obtain ⟨before, after, heq⟩ := List.append_of_mem hmem
    have hdelimits : Delimits ('\x00' :: after) := by
      intro c hc
      cases hc
      decide
    have hacc := h.2.1
    rw [heq, scanFloat_append hdelimits] at hacc
    simp at hacc

/-- A plain value that the reader accepts is read by `strtof` as a whole, without the white space
before it. -/
theorem IsPlain.strtof_eq {F : FloatType} {f : Text} {v : Flt ℚ} (h : IsPlain F f)
    (hv : parseFloat (strtof F) f = .ok v) :
  (strtof F ((trim f).dropWhile isSpace)).1 = v
    ∧ (strtof F ((trim f).dropWhile isSpace)).2 = ((trim f).dropWhile isSpace).length
    ∧ v ≠ .posInf ∧ v ≠ .negInf
  := by
  obtain hblank | ⟨hne, hval, hstop⟩ := strtof_of_parseFloat h.not_mem hv
  · have hdrop := h.1
    rw [hblank] at hdrop
    apply absurd rfl hdrop
  · obtain ⟨-, hfst, hsnd⟩ := strtof_dropWhile hne hstop
    rw [hval] at hfst
    refine ⟨hfst, hsnd, ?_⟩
    rw [← hval]
    apply h.2.2

/-- A plain value that the reader accepts is extracted before a comma or the end of the line. -/
theorem IsPlain.getFloat {F : FloatType} {f : Text} {v : Flt ℚ} (h : IsPlain F f)
    (hv : parseFloat (strtof F) f = .ok v) {space tail : Text}
    (hspace : ∀ c ∈ space, isSpace c = true) (htail : tail = [] ∨ ∃ rest, tail = ',' :: rest)
    (value : Flt ℚ) :
  ∃ space', (∀ c ∈ space', isSpace c = true)
    ∧ (InStream.mk (f ++ (space ++ tail)) false false).getFloat F value
      = (v, ⟨space' ++ tail, false, (space' ++ tail).isEmpty⟩)
  := by
  obtain ⟨left, right, heq, hleft, hright⟩ := field_eq f
  obtain ⟨hfst, hsnd, hfinite⟩ := h.strtof_eq hv
  have hspace' : ∀ c ∈ right ++ space, isSpace c = true := by
    intro c hc
    rcases List.mem_append.mp hc with hc | hc
    · apply hright c hc
    · apply hspace c hc
  obtain ⟨hget, -⟩ := InStream.getFloat_append F hleft h.1 (List.dropWhile_idempotent _ _) h.2.1
    hsnd (delimits_of_comma hspace' htail) value
  use right ++ space, hspace'
  rw [← hfst] at hfinite ⊢
  rw [← hget hfinite]
  congr 2
  conv_lhs => rw [heq]
  simp

/-- An ordinary value that the reader accepts, but that is not plain, is not extracted. -/
theorem IsOrdinary.getFloat {F : FloatType} {f : Text} {v : Flt ℚ} (h : IsOrdinary f)
    (hplain : ¬ IsPlain F f) (hv : parseFloat (strtof F) f = .ok v) {space tail : Text}
    (hspace : ∀ c ∈ space, isSpace c = true) (htail : tail = [] ∨ ∃ rest, tail = ',' :: rest)
    (value : Flt ℚ) :
  ((InStream.mk (f ++ (space ++ tail)) false false).getFloat F value).2.fail = true
  := by
  obtain ⟨left, right, heq, hleft, hright⟩ := field_eq f
  have hspace' : ∀ c ∈ right ++ space, isSpace c = true := by
    intro c hc
    rcases List.mem_append.mp hc with hc | hc
    · apply hright c hc
    · apply hspace c hc
  have htext : f ++ (space ++ tail)
      = left ++ ((trim f).dropWhile isSpace ++ ((right ++ space) ++ tail)) := by
    conv_lhs => rw [heq]
    simp
  have hnull : '\x00' ∉ trim f := fun hmem => h.2 (mem_of_mem_strip hmem)
  rw [htext]
  obtain hblank | ⟨hne, hval, hstop⟩ := strtof_of_parseFloat hnull hv
  · have hall : ∀ c ∈ left ++ (right ++ space), isSpace c = true := by
      intro c hc
      rcases List.mem_append.mp hc with hc | hc
      · apply hleft c hc
      · apply hspace' c hc
    rw [hblank, List.dropWhile_nil, List.nil_append, ← List.append_assoc]
    rcases htail with rfl | ⟨rest, rfl⟩
    · apply InStream.getFloat_of_blank
      simpa using hall
    · apply InStream.getFloat_of_head F ',' rest
      · rw [List.dropWhile_append_of_pos hall]
        rfl
      · decide
      · decide
  · obtain ⟨hdrop, hfst, hsnd⟩ := strtof_dropWhile hne hstop
    obtain hhex | hacc | ⟨c, rest, hsign, hdigit, hpoint⟩ := scanFloat_of_strtof hne hstop
    · apply absurd hhex h.1
    · apply (InStream.getFloat_append F hleft hdrop (List.dropWhile_idempotent _ _) hacc hsnd
        (delimits_of_comma hspace' htail) value).2
      rw [hfst]
      by_contra hfinite
      rw [not_or] at hfinite
      apply hplain ⟨hdrop, hacc, hfinite⟩
    · apply InStream.getFloat_of_head F c (rest ++ ((right ++ space) ++ tail)) _ hdigit hpoint
      rw [List.dropWhile_append_of_pos hleft, List.dropWhile_append, List.dropWhile_idempotent,
        if_neg (by simpa using hdrop), scanSign_append (delimits_of_comma hspace' htail), hsign]
      rfl

/-- A quote after nothing but blanks is not extracted as a number. -/
theorem getFloat_of_quote (F : FloatType) {text rest : Text} (h : trim text = [])
    (value : Flt ℚ) :
  ((InStream.mk (text ++ '"' :: rest) false false).getFloat F value).2.fail = true
  := by
  apply InStream.getFloat_of_head F '"' rest
  · rw [List.dropWhile_append_of_pos]
    · rfl
    · intro c hc
      apply isSpace_of_isBlank (strip_eq_nil_iff.mp h c hc)
  · decide
  · decide

/-! ### The loop over the columns -/

/-- The character before a value is extracted. -/
theorem getChar_comma {space rest : Text} (hspace : ∀ c ∈ space, isSpace c = true) (value : Char) :
  (InStream.mk (space ++ ',' :: rest) false false).getChar value = (',', ⟨rest, false, false⟩)
  := by
  have hdrop : (space ++ ',' :: rest).dropWhile isSpace = ',' :: rest := by
    rw [List.dropWhile_append_of_pos hspace]
    rfl
  rw [InStream.getChar, InStream.next_eq_some (by simp [hdrop]), hdrop]

theorem readRadar_nil (F : FloatType) (p : (Fin kRadarChannels → Flt ℚ) × InStream) :
  readRadar F [] p = p
  := by
  rw [readRadar, List.foldl_nil]

theorem readRadar_cons (F : FloatType) (i : Fin kRadarChannels) (is : List (Fin kRadarChannels))
    (p : (Fin kRadarChannels → Flt ℚ) × InStream) :
  readRadar F (i :: is) p
    = readRadar F is
        (Function.update p.1 i ((p.2.getChar ',').2.getFloat F (p.1 i)).1,
          ((p.2.getChar ',').2.getFloat F (p.1 i)).2)
  := by
  rw [readRadar, List.foldl_cons, readRadar]

/-- Nothing is extracted from a stream that has failed. -/
theorem readRadar_of_fail (F : FloatType) (is : List (Fin kRadarChannels))
    (p : (Fin kRadarChannels → Flt ℚ) × InStream) (h : p.2.fail = true) :
  (readRadar F is p).2.fail = true
  := by
  induction is generalizing p with
  | nil =>
      rw [readRadar_nil]
      apply h
  | cons i is ih =>
      rw [readRadar_cons]
      apply ih
      apply InStream.getFloat_of_fail
      apply InStream.getChar_of_fail h

/-- The extraction of the rest of a line, after a comma: the radar channels left, and the inertial
sensor. -/
def readRest (F : FloatType) (is : List (Fin kRadarChannels))
    (p : (Fin kRadarChannels → Flt ℚ) × InStream) (imu : Flt ℚ) :
    (Fin kRadarChannels → Flt ℚ) × Flt ℚ × InStream :=
  ((readRadar F is p).1, ((readRadar F is p).2.getChar ',').2.getFloat F imu)

/-- The extraction of the rest of a line, when the next value is extracted. -/
theorem readRest_cons (F : FloatType) (i : Fin kRadarChannels) (is : List (Fin kRadarChannels))
    (radar : Fin kRadarChannels → Flt ℚ) {space rest : Text}
    (hspace : ∀ c ∈ space, isSpace c = true) {v : Flt ℚ} {s : InStream}
    (h : (InStream.mk rest false false).getFloat F (radar i) = (v, s)) (imu : Flt ℚ) :
  readRest F (i :: is) (radar, ⟨space ++ ',' :: rest, false, false⟩) imu
    = readRest F is (Function.update radar i v, s) imu
  := by
  simp only [readRest, readRadar_cons, getChar_comma hspace, h]

/-- The extraction of the rest of a line fails when the extraction of the next value does. -/
theorem readRest_of_fail (F : FloatType) (is : List (Fin kRadarChannels))
    (p : (Fin kRadarChannels → Flt ℚ) × InStream) (h : p.2.fail = true) (imu : Flt ℚ) :
  (readRest F is p imu).2.2.fail = true
  := by
  apply InStream.getFloat_of_fail
  apply InStream.getChar_of_fail
  apply readRadar_of_fail F is p h

/-- The rest of a line without quotes, whose values are plain. -/
structure IsPlainRest (F : FloatType) (is : List (Fin kRadarChannels)) (line : Text)
    (texts : Fin kRadarChannels → Text) (imuText : Text) : Prop where
  noQuote : '"' ∉ line
  radar : ∀ i ∈ is, IsPlain F (texts i)
  imu : IsPlain F imuText

/-- The rest of a line is plain when its first value and the rest after it are. -/
theorem isPlainRest_cons {F : FloatType} {i : Fin kRadarChannels} {is : List (Fin kRadarChannels)}
    {line : Text} {texts : Fin kRadarChannels → Text} {imuText : Text}
    (hquote : '"' ∉ texts i) :
  IsPlainRest F (i :: is) (texts i ++ ',' :: line) texts imuText
    ↔ IsPlain F (texts i) ∧ IsPlainRest F is line texts imuText
  := by
  constructor
  · intro h
    have hline := h.noQuote
    simp only [List.mem_append, List.mem_cons, not_or] at hline
    exact ⟨h.radar i (by simp), hline.2.2, fun j hj => h.radar j (List.mem_cons_of_mem _ hj), h.imu⟩
  · rintro ⟨hfirst, hrest⟩
    constructor
    · simp [hquote, hrest.noQuote]
    · rw [List.forall_mem_cons]
      exact ⟨hfirst, hrest.radar⟩
    · apply hrest.imu

/-- The values of the first channel and those of the channels after it. -/
theorem update_channels {i : Fin kRadarChannels} {is : List (Fin kRadarChannels)} (hi : i ∉ is)
    (radar old : Fin kRadarChannels → Flt ℚ) :
  (fun j => if j ∈ is then radar j else Function.update old i (radar i) j)
    = fun j => if j ∈ i :: is then radar j else old j
  := by
  funext j
  by_cases hj : j = i
  · rw [hj, if_neg hi, Function.update_self, if_pos List.mem_cons_self]
  · rw [Function.update_of_ne hj]
    simp [hj]

/-- The rest of a line that the reader accepts: when it is plain, then its values are extracted;
else, when its values are ordinary, the extraction fails. -/
theorem readRest_spec {F : FloatType} {is : List (Fin kRadarChannels)} (hnodup : is.Nodup)
    {line : Text} {acc : List Text} {texts : Fin kRadarChannels → Text} {imuText : Text}
    (hsplit : splitFrom false false [] acc line = .ok (acc ++ (is.map texts ++ [imuText])))
    {radar : Fin kRadarChannels → Flt ℚ} {imu : Flt ℚ}
    (hradar : ∀ i ∈ is, parseFloat (strtof F) (texts i) = .ok (radar i))
    (himu : parseFloat (strtof F) imuText = .ok imu) {space ending : Text}
    (hspace : ∀ c ∈ space, isSpace c = true) (hending : ∀ c ∈ ending, isSpace c = true)
    (old : Fin kRadarChannels → Flt ℚ) (oldImu : Flt ℚ) :
  (IsPlainRest F is line texts imuText →
      ∃ s, readRest F is (old, ⟨space ++ ',' :: (line ++ ending), false, false⟩) oldImu
          = (fun i => if i ∈ is then radar i else old i, imu, s)
        ∧ s.fail = false)
    ∧ (¬ IsPlainRest F is line texts imuText →
      (∀ i ∈ is, IsOrdinary (texts i)) → IsOrdinary imuText →
        (readRest F is (old, ⟨space ++ ',' :: (line ++ ending), false, false⟩) oldImu).2.2.fail
          = true)
  := by
  induction is generalizing line acc space old with
  | nil =>
      have hrest : readRest F [] (old, ⟨space ++ ',' :: (line ++ ending), false, false⟩) oldImu
          = (old, (InStream.mk (line ++ ending) false false).getFloat F oldImu) := by
        simp only [readRest, readRadar_nil, getChar_comma hspace]
      rw [hrest]
      obtain ⟨hfield, ⟨rfl, -⟩ | ⟨line', -, hmore⟩⟩ | ⟨text, rest, rfl, hblank⟩ :=
        splitFrom_first _ hsplit
      · constructor
        · intro hplain
          obtain ⟨space', -, hget⟩ := hplain.imu.getFloat himu hending (Or.inl rfl) oldImu
          rw [List.append_nil] at hget
          rw [hget]
          simp
        · intro hnot _ hordinary
          have himuNot : ¬ IsPlain F line := by
            intro hplain
            apply hnot
            exact ⟨fun hmem => (hfield _ hmem).2 rfl, by simp, hplain⟩
          have hget := hordinary.getFloat himuNot himu hending (Or.inl rfl) oldImu
          rw [List.append_nil] at hget
          apply hget
      · obtain ⟨f, more, hout⟩ := exists_eq_append_of_splitFrom hmore
        simp at hout
      · constructor
        · intro hplain
          exact absurd (by simp) hplain.noQuote
        · intro _ _ _
          rw [List.append_assoc, List.cons_append]
          apply getFloat_of_quote F hblank
  | cons i is ih =>
      rw [List.nodup_cons] at hnodup
      rw [List.map_cons, List.cons_append] at hsplit
      rw [List.forall_mem_cons] at hradar
      obtain ⟨hfield, ⟨-, hmore⟩ | ⟨line', rfl, hmore⟩⟩ | ⟨text, rest, rfl, hblank⟩ :=
        splitFrom_first _ hsplit
      · simp at hmore
      · have hquote : '"' ∉ texts i := fun hmem => (hfield _ hmem).2 rfl
        have htail : (texts i ++ ',' :: line') ++ ending
            = texts i ++ ([] ++ ',' :: (line' ++ ending)) := by simp
        have hcomma : (',' :: (line' ++ ending)) = []
            ∨ ∃ rest, ',' :: (line' ++ ending) = ',' :: rest := Or.inr ⟨_, rfl⟩
        rw [htail, isPlainRest_cons hquote]
        rcases Classical.em (IsPlain F (texts i)) with hplain | hplain
        · obtain ⟨space', hspace', hget⟩ := hplain.getFloat hradar.1
            (by simp : ∀ c ∈ ([] : Text), isSpace c = true) hcomma (old i)
          have hempty : (space' ++ ',' :: (line' ++ ending)).isEmpty = false := by simp
          rw [hempty] at hget
          obtain ⟨hgood, hbad⟩ := ih hnodup.2 hmore hradar.2 hspace'
            (Function.update old i (radar i))
          rw [readRest_cons F i is old hspace hget oldImu, ← update_channels hnodup.1]
          constructor
          · rintro ⟨-, hrest⟩
            apply hgood hrest
          · intro hnot hall himuOrdinary
            rw [List.forall_mem_cons] at hall
            apply hbad _ hall.2 himuOrdinary
            intro hrest
            exact hnot ⟨hplain, hrest⟩
        · constructor
          · rintro ⟨hfirst, -⟩
            exact absurd hfirst hplain
          · intro _ hall _
            rw [readRest_cons F i is old hspace rfl oldImu]
            apply readRest_of_fail
            apply (hall i (by simp)).getFloat hplain hradar.1 (by simp) hcomma
      · constructor
        · intro hplain
          exact absurd (by simp) hplain.noQuote
        · intro _ _ _
          rw [List.append_assoc, List.cons_append, readRest_cons F i is old hspace rfl oldImu]
          apply readRest_of_fail
          apply getFloat_of_quote F hblank

/-! ### The columns -/

/-- The header line. -/
def header : Text := "time,D1,D2,D3,D4,D5,D6,D7,D8,IMU".toList

/-- The names of the columns. -/
def names : List Text :=
  "time".toList :: ((List.finRange kRadarChannels).map radarName ++ [imuName])

/-- The columns of the values. -/
def columns : Columns where
  radar := fun ch => ch + 1
  imu := kRadarChannels + 1

/-- The header line holds the names of the columns. -/
theorem isRow_header :
  IsRow header names
  := by
  have hjoin : header = joinFields names := by decide
  have hplain : names.all (fun name => name.all (fun c => c ≠ ',' && c ≠ '"')) = true := by decide
  constructor
  · decide
  · rw [dropCarriageReturn_eq_self (by decide), hjoin]
    apply splitLine_joinFields _ (by decide)
    rw [List.forall₂_same]
    intro name hname
    apply encodes_plain
    intro c hc
    have hname := List.all_eq_true.mp (List.all_eq_true.mp hplain name hname) c hc
    simpa using hname

/-- The reader finds the columns of the values by their names. -/
theorem findColumns_names :
  findColumns names = .ok columns
  := by
  apply findColumns_eq_ok
  · decide
  · decide

/-- The fields of a line that can be split. -/
def fields (line : Text) : List Text :=
  match splitLine (dropCarriageReturn line) with
  | .error _ => []
  | .ok fields => fields

/-- The field of the time. -/
def timeField (line : Text) : Text :=
  (fields line).getD 0 []

/-- The field of a radar channel. -/
def radarField (line : Text) (ch : Fin kRadarChannels) : Text :=
  (fields line).getD (columns.radar ch) []

/-- The field of the inertial sensor. -/
def imuField (line : Text) : Text :=
  (fields line).getD columns.imu []

/-- A line of ten fields, the first of which is an unsigned integer. -/
structure IsDataLine (line : Text) : Prop where
  length : (fields line).length = kRadarChannels + 2
  nonempty : trim (timeField line) ≠ []
  digits : ∀ c ∈ trim (timeField line), c.isDigit = true

/-- A line without quotes, whose time is in the range of its type, and whose values are plain. -/
structure IsPlainLine (F : FloatType) (line : Text) : Prop where
  noQuote : '"' ∉ line
  time : digitsValue 10 (trim (timeField line)) < 2 ^ 64
  radar : ∀ ch, IsPlain F (radarField line ch)
  imu : IsPlain F (imuField line)

/-- A line whose values are ordinary. -/
structure IsOrdinaryLine (line : Text) : Prop where
  radar : ∀ ch, IsOrdinary (radarField line ch)
  imu : IsOrdinary (imuField line)

/-- The fields of a data line. -/
theorem IsDataLine.splitLine_eq {line : Text} (h : IsDataLine line) :
  splitLine (dropCarriageReturn line) = .ok (fields line)
  := by
  rcases hsplit : splitLine (dropCarriageReturn line) with status | fs
  · have hlen := h.length
    rw [fields, hsplit] at hlen
    cases hlen
  · rw [fields, hsplit]

/-- The fields of a data line are those of its columns. -/
theorem IsDataLine.fields_eq {line : Text} (h : IsDataLine line) :
  fields line = timeField line ::
    ((List.finRange kRadarChannels).map (radarField line) ++ [imuField line])
  := by
  have hlen := h.length
  apply List.ext_getElem
  · simpa using hlen
  · intro i hi _
    rcases i with _ | i
    · simp [timeField, List.getD_eq_getElem?_getD, List.getElem?_eq_getElem hi]
    · rw [List.getElem_cons_succ]
      rcases Nat.lt_or_ge i kRadarChannels with hlt | hge
      · rw [List.getElem_append_left (by simpa using hlt)]
        simp [radarField, columns, List.getD_eq_getElem?_getD, List.getElem?_eq_getElem hi]
      · have hi' : i = kRadarChannels := by omega
        subst hi'
        rw [List.getElem_append_right (by simp)]
        simp [imuField, columns, List.getD_eq_getElem?_getD, List.getElem?_eq_getElem hi]

/-- A line is its text before the carriage return, and white space. -/
theorem exists_eq_dropCarriageReturn_append (line : Text) :
  ∃ ending, line = dropCarriageReturn line ++ ending ∧ (∀ c ∈ ending, isSpace c = true)
    ∧ '"' ∉ ending
  := by
  rw [dropCarriageReturn]
  split
  · rename_i hlast
    use ['\r']
    refine ⟨(List.dropLast_append_getLast? _ hlast).symm, ?_, by decide⟩
    intro c hc
    rw [List.mem_singleton] at hc
    rw [hc]
    decide
  · use []
    simp

/-! ### The extraction of a line -/

/-- The samples have the same values. -/
def SameValues (a b : RawSample ℚ) : Prop :=
  a.radar = b.radar ∧ a.imu = b.imu

/-- The extraction of a line, as the extraction of the time and of the rest. -/
theorem readLine_eq (F : FloatType) (line : Text) (sample : RawSample ℚ) :
  readLine F line sample
    = (!(readRest F (List.finRange kRadarChannels)
          (sample.radar, ((InStream.ofText line).getUInt64 sample.timestamp_ns).2)
          sample.imu).2.2.fail,
        ⟨((InStream.ofText line).getUInt64 sample.timestamp_ns).1,
          (readRest F (List.finRange kRadarChannels)
            (sample.radar, ((InStream.ofText line).getUInt64 sample.timestamp_ns).2) sample.imu).1,
          (readRest F (List.finRange kRadarChannels)
            (sample.radar, ((InStream.ofText line).getUInt64 sample.timestamp_ns).2)
            sample.imu).2.1⟩)
  := by
  simp only [readLine, readRest]

/-- The extraction of a line fails when the extraction of the time does. -/
theorem readLine_of_fail {F : FloatType} {line : Text} {sample : RawSample ℚ}
    (h : ((InStream.ofText line).getUInt64 sample.timestamp_ns).2.fail = true) :
  (readLine F line sample).1 = false
  := by
  rw [readLine_eq, Bool.not_eq_false']
  apply readRest_of_fail
  apply h

/-- The extraction of a line whose values the reader accepts: it succeeds on plain lines, with the
same values, and fails on other ordinary lines. -/
theorem readLine_spec {F : FloatType} {line : Text} (hdata : IsDataLine line) {sample : RawSample ℚ}
    (hradar : ∀ ch, parseFloat (strtof F) (radarField line ch) = .ok (sample.radar ch))
    (himu : parseFloat (strtof F) (imuField line) = .ok sample.imu) (old : RawSample ℚ) :
  (IsPlainLine F line → (readLine F line old).1 = true ∧ SameValues (readLine F line old).2 sample)
    ∧ (¬ IsPlainLine F line → IsOrdinaryLine line → (readLine F line old).1 = false)
  := by
  obtain ⟨ending, hline, hending, hquoteEnding⟩ := exists_eq_dropCarriageReturn_append line
  have hsplit := hdata.splitLine_eq
  rw [hdata.fields_eq, splitLine_eq_ok_iff] at hsplit
  obtain ⟨hfield, ⟨-, hmore⟩ | ⟨line', heq, hmore⟩⟩ | ⟨text, rest, heq, hblank⟩ :=
    splitFrom_first [] hsplit
  · simp at hmore
  · have hquote : '"' ∉ timeField line := fun hmem => (hfield _ hmem).2 rfl
    obtain ⟨left, right, htime, hleft, hright⟩ :=
      exists_eq_append_strip (p := isBlank) (timeField line)
    have htext : line = left ++ (trim (timeField line) ++ (right ++ ',' :: (line' ++ ending))) := by
      conv_lhs => rw [hline, heq, htime]
      simp [trim]
    have hspace : ∀ c ∈ right, isSpace c = true := fun c hc => isSpace_of_isBlank (hright c hc)
    obtain ⟨hgood, hbad⟩ := InStream.getUInt64_append
      (fun c hc => isSpace_of_isBlank (hleft c hc)) hdata.nonempty hdata.digits
      (delimits_of_comma hspace (Or.inr ⟨line' ++ ending, rfl⟩)) old.timestamp_ns
    rw [← htext] at hgood hbad
    rcases Nat.lt_or_ge (digitsValue 10 (trim (timeField line))) (2 ^ 64) with hlt | hge
    · have hempty : (right ++ ',' :: (line' ++ ending)).isEmpty = false := by simp
      have hget := hgood hlt
      rw [hempty] at hget
      obtain ⟨hplain, hordinary⟩ := readRest_spec (List.nodup_finRange _) hmore
        (fun ch _ => hradar ch) himu hspace hending old.radar old.imu
      rw [readLine_eq, InStream.ofText, hget]
      constructor
      · intro h
        obtain ⟨stream, hrest, hfail⟩ := hplain
          ⟨fun hmem => h.noQuote (by rw [hline, heq]; simp [hmem]), fun ch _ => h.radar ch, h.imu⟩
        rw [hrest]
        refine ⟨by simp [hfail], ?_, rfl⟩
        simp only [List.mem_finRange, if_true]
      · intro h hall
        rw [Bool.not_eq_false']
        apply hordinary _ (fun ch _ => hall.radar ch) hall.imu
        intro hrest
        apply h
        refine ⟨?_, hlt, fun ch => hrest.radar ch (List.mem_finRange ch), hrest.imu⟩
        rw [hline, heq]
        simp [hquote, hrest.noQuote, hquoteEnding]
    · constructor
      · intro h
        have hlt := h.time
        omega
      · intro _ _
        apply readLine_of_fail (hbad hge)
  · constructor
    · intro h
      apply absurd _ h.noQuote
      rw [hline, heq]
      simp
    · intro _ _
      apply readLine_of_fail
      rw [hline, heq, List.append_assoc, List.cons_append]
      apply InStream.getUInt64_of_head '"' (rest ++ ending)
      · rw [List.dropWhile_append_of_pos]
        · rfl
        · intro c hc
          apply isSpace_of_isBlank (strip_eq_nil_iff.mp hblank c hc)
      · decide

/-- A data line holds its fields. -/
theorem IsDataLine.isRow {line : Text} (h : IsDataLine line) :
  IsRow line (fields line)
  := by
  constructor
  · have hsplit := h.splitLine_eq
    intro hblank
    rw [trim, strip_eq_nil_iff] at hblank
    rw [h.fields_eq, splitLine_eq_ok_iff] at hsplit
    obtain ⟨-, ⟨-, hmore⟩ | ⟨line', heq, -⟩⟩ | ⟨text, rest, heq, -⟩ :=
      splitFrom_first [] hsplit
    · simp at hmore
    · apply absurd (hblank ',' (by rw [heq]; simp)) (by decide)
    · apply absurd (hblank '"' (by rw [heq]; simp)) (by decide)
  · apply h.splitLine_eq

/-! ### Replay and reading -/

/-- The replay loop reads a sample, and goes on if it succeeds. -/
theorem replay_eq (F : FloatType) (file : List Text) (sample : RawSample ℚ) :
  replay F file sample = match read F file sample with
    | (true, rest, sample) => sample :: replay F rest sample
    | (false, _, _) => []
  := by
  rcases file with _ | ⟨line, rest⟩
  · rfl
  · rw [replay, read]
    rcases readLine F line sample with ⟨_ | _, sample'⟩
    · rfl
    · rfl

/-- The sensor reads the values of the sample from the line, whatever the sample was before, and
whatever lines follow. -/
def Yields (F : FloatType) (line : Text) (sample : RawSample ℚ) : Prop :=
  ∀ rest old, ∃ sample', read F (line :: rest) old = (true, rest, sample')
    ∧ SameValues sample' sample

/-- The sensor reads the values of the samples from the lines, and the replay of the lines gives
them. -/
def Agrees (F : FloatType) (ls : List Text) (samples : List (RawSample ℚ)) : Prop :=
  List.Forall₂ (Yields F) ls samples
    ∧ ∀ old, List.Forall₂ SameValues (replay F ls old) samples

/-- On plain lines, the sensor gives the samples of the reader. -/
theorem agrees_of_plain {F : FloatType} {ls : List Text} {samples : List (RawSample ℚ)}
    (hholds : List.Forall₂ (Holds (strtof F) columns) (ls.map fields) samples)
    (hdata : ∀ line ∈ ls, IsDataLine line) (hplain : ∀ line ∈ ls, IsPlainLine F line) :
  Agrees F ls samples
  := by
  induction ls generalizing samples with
  | nil =>
      cases hholds
      use List.Forall₂.nil
      intro old
      apply List.Forall₂.nil
  | cons line ls ih =>
      rcases hholds with _ | @⟨_, sample, _, samples, ⟨hradar, himu⟩, hmore⟩
      obtain ⟨hyields, hreplay⟩ := ih hmore (fun line' h => hdata line' (List.mem_cons_of_mem _ h))
        (fun line' h => hplain line' (List.mem_cons_of_mem _ h))
      have hline := fun old => (readLine_spec (hdata line (by simp)) hradar himu old).1
        (hplain line (by simp))
      constructor
      · rw [List.forall₂_cons]
        use fun rest old => ⟨(readLine F line old).2, by rw [read, (hline old).1], (hline old).2⟩
      · intro old
        obtain ⟨hok, hsame⟩ := hline old
        have hpair : readLine F line old = (true, (readLine F line old).2) := by rw [← hok]
        rw [replay, hpair]
        simp only
        rw [List.forall₂_cons]
        use hsame
        apply hreplay

/-- If the replay of ordinary lines gives as many samples as the reader, then the lines are
plain. -/
theorem plain_of_length {F : FloatType} {ls : List Text} {samples : List (RawSample ℚ)}
    (hholds : List.Forall₂ (Holds (strtof F) columns) (ls.map fields) samples)
    (hdata : ∀ line ∈ ls, IsDataLine line) (hordinary : ∀ line ∈ ls, IsOrdinaryLine line)
    {old : RawSample ℚ} (hlen : (replay F ls old).length = samples.length) :
  ∀ line ∈ ls, IsPlainLine F line
  := by
  induction ls generalizing samples old with
  | nil => simp
  | cons line ls ih =>
      rcases hholds with _ | @⟨_, sample, _, samples, ⟨hradar, himu⟩, hmore⟩
      obtain ⟨-, hfails⟩ := readLine_spec (hdata line (by simp)) hradar himu old
      rcases hread : readLine F line old with ⟨_ | _, sample'⟩
      · rw [replay, hread] at hlen
        cases hlen
      · rw [replay, hread, List.length_cons, List.length_cons, Nat.add_right_cancel_iff] at hlen
        intro line' hline'
        rcases List.mem_cons.mp hline' with rfl | hline'
        · by_contra hnot
          have hfalse := hfails hnot (hordinary line' (by simp))
          rw [hread] at hfalse
          cases hfalse
        · apply ih hmore (fun line' h => hdata line' (List.mem_cons_of_mem _ h))
            (fun line' h => hordinary line' (List.mem_cons_of_mem _ h)) hlen line' hline'

/-- The reader accepts a data line whose values are converted. -/
theorem read_line {F : FloatType} {line : Text} {sample : RawSample ℚ} (hdata : IsDataLine line)
    (hholds : Holds (strtof F) columns (fields line) sample) (hline : '\n' ∉ line) (path : String)
    (before : List (RawSample ℚ)) :
  CsvReader.read (strtof F) path (some (unlines [header, line])) before
    = (.success, [{ sample with timestamp_ns := 0 }])
  := by
  have hlines : lines (unlines [header, line]) = [header, line] := by
    apply lines_unlines
    intro line' hline'
    rcases List.mem_pair.mp hline' with rfl | rfl
    · decide
    · apply hline
  have hrows : List.Forall₂ IsRow [line] [fields line] := by
    rw [List.forall₂_cons]
    use hdata.isRow
    apply List.Forall₂.nil
  rw [read_eq_readTable (strtof F) path hlines isRow_header (by decide) hrows, readTable,
    findColumns_names]
  simp only [readRows, readSample_of_holds hholds]
  rfl

/-- When the reader accepts a file of data lines, the sensor reads the values of the samples from
the lines, and their replay gives these samples, if all lines are plain; and only if they are,
where the values are ordinary. -/
theorem replay_agrees {F : FloatType} {path : String} {text : Text} {ls : List Text}
    {before samples : List (RawSample ℚ)} (htext : lines text = header :: ls)
    (hdata : ∀ line ∈ ls, IsDataLine line)
    (hread : CsvReader.read (strtof F) path (some text) before = (.success, samples)) :
  ((∀ line ∈ ls, IsPlainLine F line) → Agrees F ls samples)
    ∧ ((∀ line ∈ ls, IsOrdinaryLine line) →
        (Agrees F ls samples ↔ ∀ line ∈ ls, IsPlainLine F line))
  := by
  have hholds : List.Forall₂ (Holds (strtof F) columns) (ls.map fields) samples := by
    have hrows : List.Forall₂ IsRow ls (ls.map fields) := by
      rw [List.forall₂_map_right_iff, List.forall₂_same]
      intro line hline
      apply (hdata line hline).isRow
    rw [read_eq_readTable (strtof F) path htext isRow_header (by decide) hrows, readTable,
      findColumns_names] at hread
    simp only at hread
    rcases hrun : readRows (strtof F) columns (ls.map fields) 1 [] with ⟨status, samples'⟩
    rw [hrun] at hread
    simp only at hread
    rcases hok : status.ok with _ | _
    · rw [hok] at hread
      cases hread
      cases hok
    · obtain ⟨-, more, rfl, hmore, -⟩ := exists_samples_of_readRows hrun hok
      rw [hok] at hread
      simp only [Bool.not_true, Bool.false_eq_true, if_false] at hread
      split at hread
      · cases hread
      · cases hread
        apply hmore
  have hplain := agrees_of_plain hholds hdata
  use hplain
  intro hordinary
  constructor
  · rintro ⟨-, hreplay⟩
    apply plain_of_length hholds hdata hordinary (hreplay (RawSample.default ℚ)).length_eq
  · apply hplain

/-- The theorem at a line of decimal numbers. -/
theorem replay_agrees_decimal :
  ∃ line samples, line = "0,160,162.5,-3e2,0,149,+200,.25, 500,0.5".toList
    ∧ CsvReader.read (strtof .float) "input.csv" (some (unlines [header, line])) []
      = (.success, samples)
    ∧ Agrees .float [line] samples
  := by
  let line : Text := "0,160,162.5,-3e2,0,149,+200,.25, 500,0.5".toList
  have hdata : IsDataLine line := by
    constructor
    · decide +kernel
    · decide +kernel
    · apply List.all_eq_true.mp
      decide +kernel
  have hholds : Holds (strtof .float) columns (fields line)
      ⟨0, fun ch => (strtof .float (trim (radarField line ch))).1,
        (strtof .float (trim (imuField line))).1⟩ := by
    constructor
    · decide +kernel
    · decide +kernel
  have hread := read_line hdata hholds (by decide) "input.csv" []
  refine ⟨line, _, rfl, hread, ?_⟩
  apply (replay_agrees (lines_unlines (by decide)) _ hread).1
  · intro line' hline'
    rw [List.mem_singleton.mp hline']
    constructor
    · decide
    · decide +kernel
    · unfold IsPlain
      decide +kernel
    · unfold IsPlain
      decide +kernel
  · intro line' hline'
    rw [List.mem_singleton.mp hline']
    apply hdata

/-- The reader accepts a line with a missing value, and the sensor does not read it. -/
theorem not_agrees_of_nan :
  ¬ ∀ text ls samples, lines text = header :: ls → (∀ line ∈ ls, IsDataLine line) →
    CsvReader.read (strtof .float) "input.csv" (some text) [] = (.success, samples) →
    Agrees .float ls samples
  := by
  let line : Text := "0,160,nan,300,0,149,200,250,500,0.5".toList
  have hdata : IsDataLine line := by
    constructor
    · decide +kernel
    · decide +kernel
    · apply List.all_eq_true.mp
      decide +kernel
  have hholds : Holds (strtof .float) columns (fields line)
      ⟨0, fun ch => (strtof .float (trim (radarField line ch))).1,
        (strtof .float (trim (imuField line))).1⟩ := by
    constructor
    · decide +kernel
    · decide +kernel
  have hfails : (readLine .float line (RawSample.default ℚ)).1 = false := by decide +kernel
  intro h
  obtain ⟨hyields, -⟩ := h _ [line] _ (lines_unlines (by decide)) (by simpa using hdata)
    (read_line hdata hholds (by decide) "input.csv" [])
  rcases hyields with _ | ⟨hyield, -⟩
  obtain ⟨sample, hread, -⟩ := hyield [] (RawSample.default ℚ)
  rw [read, hfails] at hread
  cases hread

end CsvSensor
