import PipeAI.Algorithm.TrainingStats
import PipeAI.Text.Lines

/-!
# The calibration set

`make_calibration_dataset.py` chooses files of the training set for the quantization of the model:
the same number from each class, in random order.  It saves the windows of the files under numbered
names, and lists the names in `dataset.txt`.

Whatever the shuffles are, no file is chosen twice, no class gives more than its part, and a class
gives less only when it has no more files; and no window is saved over another one
(`main_balanced`).

The files of the classes, the shuffles of `random.Random(seed)` and the windows of the files are
parameters.
-/

universe u

open NetTraining

namespace MakeCalibrationDataset

variable {α : Type u}

/-! ### The code -/

/-- The slice `files[:stop]`. -/
def upTo (files : List α) (stop : ℤ) : List α :=
  if 0 ≤ stop then files.take stop.toNat else files.take (files.length - (-stop).toNat)

/-- The number of files that are chosen from each class, at least one. -/
def perClass (num : ℤ) : ℤ :=
  max 1 (num / 5)

variable (shuffle : ℤ → List α → List α) (glob : PipeClass → List α) (num seed : ℤ)

/-- The body of the loop over the classes. -/
def chooseFrom (files : List α) (cls : PipeClass) : List α :=
  let cls_files := shuffle (seed + files.length) (glob cls)
  files ++ upTo cls_files (perClass num)

/-- The files that are chosen. -/
def chooseFiles : List α :=
  let files := classes.foldl (chooseFrom shuffle glob num seed) []
  upTo (shuffle seed files) num

/-- A number with zeros before it up to four digits. -/
def fourDigits (i : ℕ) : Text :=
  List.replicate (4 - (Nat.toDigits 10 i).length) '0' ++ Nat.toDigits 10 i

/-- The name of the file for the window with a number. -/
def calibName (i : ℕ) : Text :=
  ['c', 'a', 'l', 'i', 'b', '_'] ++ fourDigits i ++ ['.', 'n', 'p', 'y']

/-- A name as it is written to `dataset.txt`. -/
def slashes (name : Text) : Text :=
  name.map (fun c => if c = '\\' then '/' else c)

/-- The files that `main` saves, with their windows, and the text of `dataset.txt`.  The directory is
given with the separator at its end. -/
def main {W : Type u} (out_dir : Text) (repair_and_resample : α → W) : List (Text × W) × Text :=
  let files := chooseFiles shuffle glob num seed
  let saved := files.zipIdx.map (fun p => (out_dir ++ calibName p.2, repair_and_resample p.1))
  (saved, saved.flatMap (fun p => slashes p.1 ++ ['\n']))

/-! ### The names -/

theorem fourDigits_injective {i j : ℕ} (h : fourDigits i = fourDigits j) :
  i = j
  := by
  have hvalue : ∀ i, Nat.ofDigitChars 10 (fourDigits i) 0 = i := by
    intro i
    rw [fourDigits, Nat.ofDigitChars_append, Nat.ofDigitChars_replicate_zero, mul_zero,
      Nat.ofDigitChars_ten_toDigits]
  rw [← hvalue i, h, hvalue]

theorem calibName_injective {i j : ℕ} (h : calibName i = calibName j) :
  i = j
  := by
  apply fourDigits_injective
  rw [calibName, calibName] at h
  apply List.append_cancel_left (List.append_cancel_right h)

/-- The numbered names are different. -/
theorem nodup_names {W : Type u} (out_dir : Text) (f : α → W) (files : List α) :
  ((files.zipIdx.map (fun p => (out_dir ++ calibName p.2, f p.1))).map Prod.fst).Nodup
  := by
  have hnames : (files.zipIdx.map (fun p => (out_dir ++ calibName p.2, f p.1))).map Prod.fst
      = (List.range' 0 files.length).map (fun i => out_dir ++ calibName i) := by
    rw [← List.zipIdx_map_snd 0 files, List.map_map, List.map_map]
    rfl
  rw [hnames]
  apply List.Nodup.map _ List.nodup_range'
  intro i j h
  apply calibName_injective (List.append_cancel_left h)

/-! ### The choice -/

/-- The files that a class gives. -/
def IsPart (cls : PipeClass) (part : List α) : Prop :=
  ∃ cls_files : List α, cls_files.Perm (glob cls) ∧ part = cls_files.take (perClass num).toNat

variable {shuffle glob num seed} (hshuffle : ∀ seed files, (shuffle seed files).Perm files)

include hshuffle in
/-- The files that are chosen by the loop, class by class. -/
theorem exists_parts (cs : List PipeClass) (files : List α) :
  ∃ parts, List.Forall₂ (IsPart glob num) cs parts
    ∧ cs.foldl (chooseFrom shuffle glob num seed) files = files ++ parts.flatten
  := by
  induction cs generalizing files with
  | nil => exact ⟨[], .nil, by simp⟩
  | cons cls cs ih =>
      obtain ⟨parts, hparts, hfoldl⟩ := ih (chooseFrom shuffle glob num seed files cls)
      refine ⟨_ :: parts, .cons ⟨_, hshuffle (seed + files.length) (glob cls), rfl⟩ hparts, ?_⟩
      have hpos : 0 ≤ perClass num := (Int.zero_le_ofNat 1).trans (le_max_left _ _)
      rw [List.foldl_cons, hfoldl, chooseFrom, upTo, if_pos hpos, List.flatten_cons,
        List.append_assoc]

variable {classOf : α → PipeClass} (hclass : ∀ cls, ∀ f ∈ glob cls, classOf f = cls)

include hclass in
/-- The files that a class gives are files of the class. -/
theorem IsPart.mem {cls : PipeClass} {part : List α} (h : IsPart glob num cls part) {f : α}
    (hf : f ∈ part) :
  f ∈ glob cls ∧ classOf f = cls
  := by
  obtain ⟨cls_files, hperm, rfl⟩ := h
  have hmem : f ∈ glob cls := hperm.mem_iff.mp (List.mem_of_mem_take hf)
  exact ⟨hmem, hclass cls f hmem⟩

/-- How many files a class gives. -/
theorem IsPart.length_eq {cls : PipeClass} {part : List α} (h : IsPart glob num cls part) :
  part.length = min (perClass num).toNat (glob cls).length
  := by
  obtain ⟨cls_files, hperm, rfl⟩ := h
  rw [List.length_take, hperm.length_eq]

include hclass in
/-- The classes of the files. -/
theorem mem_flatten_parts {cs : List PipeClass} {parts : List (List α)}
    (h : List.Forall₂ (IsPart glob num) cs parts) {f : α} (hf : f ∈ parts.flatten) :
  f ∈ glob (classOf f) ∧ classOf f ∈ cs
  := by
  induction h with
  | nil => cases hf
  | cons hpart _ ih =>
      rw [List.flatten_cons, List.mem_append] at hf
      rcases hf with hf | hf
      · obtain ⟨hmem, rfl⟩ := hpart.mem hclass hf
        exact ⟨hmem, by simp⟩
      · exact ⟨(ih hf).1, List.mem_cons_of_mem _ (ih hf).2⟩

include hclass in
/-- How many files of a class are chosen. -/
theorem countP_flatten_parts {cs : List PipeClass} (hcs : cs.Nodup) {parts : List (List α)}
    (h : List.Forall₂ (IsPart glob num) cs parts) (cls : PipeClass) :
  parts.flatten.countP (fun f => classOf f = cls)
    = if cls ∈ cs then min (perClass num).toNat (glob cls).length else 0
  := by
  induction h with
  | nil => simp
  | @cons cls' part cs parts hpart hparts ih =>
      rw [List.nodup_cons] at hcs
      rw [List.flatten_cons, List.countP_append, ih hcs.2]
      by_cases heq : cls = cls'
      · subst heq
        have hall : part.countP (fun f => classOf f = cls) = part.length := by
          rw [List.countP_eq_length]
          intro f hf
          simpa using (hpart.mem hclass hf).2
        rw [hall, hpart.length_eq, if_neg hcs.1, if_pos (by simp), add_zero]
      · have hnone : part.countP (fun f => classOf f = cls) = 0 := by
          rw [List.countP_eq_zero]
          intro f hf
          rw [(hpart.mem hclass hf).2]
          simpa using Ne.symm heq
        rw [hnone, zero_add]
        simp [heq]

include hclass in
/-- No file is chosen twice. -/
theorem nodup_flatten_parts (hglob : ∀ cls, (glob cls).Nodup) {cs : List PipeClass} (hcs : cs.Nodup)
    {parts : List (List α)} (h : List.Forall₂ (IsPart glob num) cs parts) :
  parts.flatten.Nodup
  := by
  induction h with
  | nil => simp
  | cons hpart hparts ih =>
      rw [List.nodup_cons] at hcs
      rw [List.flatten_cons, List.nodup_append']
      refine ⟨?_, ih hcs.2, ?_⟩
      · obtain ⟨cls_files, hperm, rfl⟩ := hpart
        apply (hperm.nodup_iff.mpr (hglob _)).sublist (List.take_sublist _ _)
      · intro f hf hf'
        apply hcs.1
        rw [← (hpart.mem hclass hf).2]
        apply (mem_flatten_parts hclass hparts hf').2

omit hclass in
/-- How many files are chosen before the last cut. -/
theorem length_flatten_parts {cs : List PipeClass} {parts : List (List α)}
    (h : List.Forall₂ (IsPart glob num) cs parts) :
  parts.flatten.length = (cs.map (fun cls => min (perClass num).toNat (glob cls).length)).sum
  := by
  induction h with
  | nil => rfl
  | cons hpart _ ih =>
      rw [List.flatten_cons, List.length_append, hpart.length_eq, ih, List.map_cons, List.sum_cons]

/-- At most the last cut is taken of the shuffled files. -/
theorem upTo_eq_take (files : List α) (stop : ℤ) :
  ∃ n, upTo files stop = files.take n ∧ (0 ≤ stop → n = stop.toNat)
  := by
  rw [upTo]
  split
  · exact ⟨_, rfl, fun _ => rfl⟩
  · rename_i hneg
    exact ⟨_, rfl, fun h => absurd h hneg⟩

/-- If five or more files are asked for, the parts of the classes are not more than these. -/
theorem sum_parts_le (glob : PipeClass → List α) {num : ℤ} (h : 5 ≤ num) :
  (classes.map (fun cls => min (perClass num).toNat (glob cls).length)).sum ≤ num.toNat
  := by
  have hper : (perClass num).toNat * 5 ≤ num.toNat := by
    rw [perClass]
    omega
  simp only [classes, List.map_cons, List.map_nil, List.sum_cons, List.sum_nil]
  have hle : ∀ cls, min (perClass num).toNat (glob cls).length ≤ (perClass num).toNat :=
    fun _ => min_le_left _ _
  have h₀ := hle .normal
  have h₁ := hle .collapse
  have h₂ := hle .bulge
  have h₃ := hle .flip
  have h₄ := hle .torsion
  omega

include hshuffle hclass in
/-- The files that are chosen. -/
theorem chooseFiles_balanced (hglob : ∀ cls, (glob cls).Nodup) :
  (chooseFiles shuffle glob num seed).Nodup
    ∧ (∀ f ∈ chooseFiles shuffle glob num seed, f ∈ glob (classOf f))
    ∧ (∀ cls, (chooseFiles shuffle glob num seed).countP (fun f => classOf f = cls)
      ≤ (perClass num).toNat)
    ∧ (0 ≤ num → (chooseFiles shuffle glob num seed).length = min num.toNat
      (classes.map (fun cls => min (perClass num).toNat (glob cls).length)).sum)
    ∧ (5 ≤ num → ∀ cls, (chooseFiles shuffle glob num seed).countP (fun f => classOf f = cls)
      = min (perClass num).toNat (glob cls).length)
  := by
  have hclasses : classes.Nodup := by decide
  obtain ⟨parts, hparts, hfoldl⟩ :=
    @exists_parts α shuffle glob num seed hshuffle classes []
  obtain ⟨n, htake, hn⟩ := upTo_eq_take (shuffle seed parts.flatten) num
  have hperm := hshuffle seed parts.flatten
  have hcount := countP_flatten_parts hclass hclasses hparts
  have hmem : ∀ cls : PipeClass, cls ∈ classes := by
    intro cls
    cases cls <;> decide
  rw [List.nil_append] at hfoldl
  rw [chooseFiles, hfoldl, htake]
  have hsub := List.take_sublist n (shuffle seed parts.flatten)
  refine ⟨?_, ?_, ?_, ?_, ?_⟩
  · apply (hperm.nodup_iff.mpr (nodup_flatten_parts hclass hglob hclasses hparts)).sublist hsub
  · intro f hf
    apply (mem_flatten_parts hclass hparts (hperm.mem_iff.mp (hsub.subset hf))).1
  · intro cls
    apply hsub.countP_le.trans
    rw [hperm.countP_eq, hcount, if_pos (hmem cls)]
    apply min_le_left
  · intro hnum
    rw [List.length_take, hperm.length_eq, length_flatten_parts hparts, hn hnum]
  · intro hnum cls
    have hall : (shuffle seed parts.flatten).length ≤ n := by
      rw [hperm.length_eq, length_flatten_parts hparts, hn (by omega)]
      apply sum_parts_le glob hnum
    rw [List.take_of_length_le hall, hperm.countP_eq, hcount, if_pos (hmem cls)]

/-! ### The list -/

/-- The names have no line breaks. -/
theorem newline_notMem_calibName (i : ℕ) :
  '\n' ∉ calibName i
  := by
  have hdigits : '\n' ∉ Nat.toDigits 10 i := by
    intro hmem
    have hdigit := Nat.isDigit_of_mem_toDigits (by decide) le_rfl hmem
    cases hdigit
  rw [calibName, fourDigits]
  simp [hdigits]

/-- They have no line breaks either. -/
theorem newline_notMem_slashes {name : Text} (h : '\n' ∉ name) :
  '\n' ∉ slashes name
  := by
  rw [slashes, List.mem_map]
  rintro ⟨c, hc, heq⟩
  split at heq
  · cases heq
  · subst heq
    apply h hc

include hshuffle hclass in
/-- The calibration set has no file twice, and at most its part of each class, and of all files as
many as are asked for if there are enough; if five or more are asked for, each class gives its
part as far as it has files.  The windows of the files are saved under names that are all different,
and `dataset.txt` lists these. -/
theorem main_balanced (hglob : ∀ cls, (glob cls).Nodup) {W : Type u} {out_dir : Text}
    (hdir : '\n' ∉ out_dir) (repair_and_resample : α → W) :
  ∃ files : List α, files.Nodup ∧ (∀ f ∈ files, f ∈ glob (classOf f))
    ∧ (∀ cls, files.countP (fun f => classOf f = cls) ≤ (perClass num).toNat)
    ∧ (0 ≤ num → files.length = min num.toNat
      (classes.map (fun cls => min (perClass num).toNat (glob cls).length)).sum)
    ∧ (5 ≤ num → ∀ cls, files.countP (fun f => classOf f = cls)
      = min (perClass num).toNat (glob cls).length)
    ∧ ∃ saved text, main shuffle glob num seed out_dir repair_and_resample = (saved, text)
      ∧ saved.map Prod.snd = files.map repair_and_resample ∧ (saved.map Prod.fst).Nodup
      ∧ lines text = saved.map (fun p => slashes p.1)
  := by
  obtain ⟨hnodup, hmem, hle, hlength, heq⟩ :=
    @chooseFiles_balanced α shuffle glob num seed hshuffle classOf hclass hglob
  refine ⟨_, hnodup, hmem, hle, hlength, heq, _, _, rfl, ?_, ?_, ?_⟩
  · have hfst := congrArg (List.map repair_and_resample)
      (List.zipIdx_map_fst 0 (chooseFiles shuffle glob num seed))
    rw [List.map_map] at hfst
    rw [List.map_map]
    apply hfst
  · apply nodup_names
  · have htext : ∀ saved : List (Text × W),
        saved.flatMap (fun p => slashes p.1 ++ ['\n'])
          = unlines (saved.map (fun p => slashes p.1)) := by
      intro saved
      rw [unlines, List.flatMap_map]
    apply (congrArg lines (htext _)).trans
    apply lines_unlines
    intro line hline
    obtain ⟨p, hp, rfl⟩ := List.mem_map.mp hline
    obtain ⟨q, -, rfl⟩ := List.mem_map.mp hp
    apply newline_notMem_slashes
    rw [List.mem_append, not_or]
    exact ⟨hdir, newline_notMem_calibName _⟩

/-! ### A shuffle -/

/-- A list in the order of indices, if they are the indices of the list. -/
def inOrder (order : List ℕ) (files : List α) : List α :=
  if order.Perm (List.range files.length) then order.filterMap (fun i => files[i]?) else files

/-- The elements of a list at its indices. -/
theorem filterMap_range_length (files : List α) :
  (List.range files.length).filterMap (fun i => files[i]?) = files
  := by
  induction files using List.reverseRecOn with
  | nil => rfl
  | append_singleton files file ih =>
      have hinit : (List.range files.length).filterMap (fun i => (files ++ [file])[i]?)
          = (List.range files.length).filterMap (fun i => files[i]?) :=
        List.filterMap_congr (fun i hi => List.getElem?_append_left (List.mem_range.mp hi))
      rw [List.length_append, List.length_singleton, List.range_succ, List.filterMap_append, hinit,
        ih]
      simp

theorem inOrder_perm (order : List ℕ) (files : List α) :
  (inOrder order files).Perm files
  := by
  rw [inOrder]
  split
  · rename_i horder
    apply (horder.filterMap _).trans (List.Perm.of_eq (filterMap_range_length files))
  · apply List.Perm.refl

/-- What `random.Random(seed).shuffle` does with some seeds to lists of some lengths. -/
def shuffled (seed : ℤ) (files : List α) : List α :=
  inOrder (([((42, 3), [1, 0, 2]), ((44, 3), [2, 0, 1]), ((46, 3), [2, 1, 0]),
    ((48, 3), [0, 1, 2]), ((50, 3), [0, 2, 1]),
    ((42, 10), [7, 3, 2, 8, 5, 6, 9, 4, 0, 1])].lookup (seed, files.length)).getD
      (List.range files.length)) files

example :
    chooseFiles shuffled (fun cls => [(cls, 0), (cls, 1), (cls, 2)]) 10 42
      = [(.flip, 1), (.collapse, 0), (.collapse, 2), (.torsion, 0), (.bulge, 1), (.flip, 0),
        (.torsion, 2), (.bulge, 2), (.normal, 1), (.normal, 0)] := by
  decide

/-- The theorem at three files in each class, from which two of each are chosen. -/
theorem main_balanced_shuffled :
  ∃ files : List (PipeClass × ℕ), files.Nodup ∧ files.length = 10
    ∧ (∀ cls, files.countP (fun f => f.1 = cls) = 2)
    ∧ ∃ saved text, main shuffled (fun cls => [(cls, 0), (cls, 1), (cls, 2)]) 10 42 ['o', '/']
        (fun f : PipeClass × ℕ => f.2) = (saved, text)
      ∧ saved.map Prod.snd = files.map Prod.snd ∧ (saved.map Prod.fst).Nodup
      ∧ lines text = saved.map (fun p => slashes p.1)
  := by
  obtain ⟨files, hnodup, -, -, hlength, hcount, saved, text, hmain, hsnd, hfst, hlines⟩ :=
    @main_balanced (PipeClass × ℕ) shuffled (fun cls => [(cls, 0), (cls, 1), (cls, 2)]) 10 42
      (fun _ _ => inOrder_perm _ _) Prod.fst (by simp) (by simp) ℕ ['o', '/'] (by decide)
      (fun f => f.2)
  refine ⟨files, hnodup, hlength (by decide), ?_, saved, text, hmain, hsnd, hfst, hlines⟩
  intro cls
  rw [hcount (by decide) cls]
  rfl

end MakeCalibrationDataset
