import PipeAI.Runtime.Config

/-!
# Sizes in the configuration

`Config.get_size` is meant to read the unsigned decimal numbers and to give the fallback for any
other text.  It takes the number from `std::stoull`, which also passes over white space before the
number, and negates the number after a minus sign modulo `2 ^ 64`.

`get_size` reads a text as it is meant to unless the text is a number in the range after white
space or a minus sign (`Config.Misread`), and gives a wrong value for each of these texts, but
where the value is by chance the fallback (`Config.getSize_eq_iff`).  A text in the configuration
has no white space at its ends, so that the misread ones are negative numbers
(`Config.misread_iff_of_trim_eq`).
-/

namespace Config

/-! ### The texts that are numbers -/

/-- The number that a text denotes: an optional plus sign followed by decimal digits, with a value
below `2 ^ 64`. -/
def unsignedDecimal (text : Text) : Option UInt64 :=
  let digits := if text.head? = some '+' then text.tail else text
  if digits ≠ [] ∧ digits.all Char.isDigit ∧ digitsValue 10 digits < 2 ^ 64 then
    some (UInt64.ofNat (digitsValue 10 digits))
  else none

/-- The value of digits after a sign, modulo `2 ^ 64`. -/
def signedSize (sign digits : Text) : UInt64 :=
  if sign = ['-'] then -UInt64.ofNat (digitsValue 10 digits)
  else UInt64.ofNat (digitsValue 10 digits)

/-- A text in three parts: white space, an optional sign, and decimal digits of which there is at
least one, with a value below `2 ^ 64`. -/
structure Parts (text space sign digits : Text) : Prop where
  text_eq : text = space ++ (sign ++ digits)
  space_isSpace : ∀ c ∈ space, isSpace c = true
  sign_mem : sign = [] ∨ sign = ['+'] ∨ sign = ['-']
  digits_ne_nil : digits ≠ []
  digits_isDigit : ∀ c ∈ digits, c.isDigit = true
  inRange : digitsValue 10 digits < 2 ^ 64

/-- The text is a number in the range after white space or a minus sign, and its value modulo
`2 ^ 64` is not the fallback. -/
def Misread (text : Text) (fallback : UInt64) : Prop :=
  ∃ space sign digits, Parts text space sign digits ∧ (space ≠ [] ∨ sign = ['-'])
    ∧ signedSize sign digits ≠ fallback

/-! ### Reading the parts -/

/-- A digit is not white space, and not a sign. -/
theorem not_isSpace_of_isDigit {c : Char} (h : c.isDigit = true) :
  isSpace c = false ∧ c ≠ '+' ∧ c ≠ '-'
  := by
  constructor
  · rw [← Bool.not_eq_true]
    intro hspace
    rw [(delimits_of_isSpace hspace).1] at h
    cases h
  · constructor
    · rintro rfl
      cases h
    · rintro rfl
      cases h

section Parts

variable {text space sign digits : Text} (h : Parts text space sign digits)

include h

/-- The white space ends where the sign or the digits begin. -/
theorem Parts.dropWhile_eq :
  text.dropWhile isSpace = sign ++ digits
  := by
  obtain ⟨d, rest, rfl⟩ := List.exists_cons_of_ne_nil h.digits_ne_nil
  have hd := (not_isSpace_of_isDigit (h.digits_isDigit d (by simp))).1
  rw [h.text_eq, List.dropWhile_append_of_pos h.space_isSpace]
  rcases h.sign_mem with rfl | rfl | rfl
  · apply List.dropWhile_cons_of_neg
    simp [hd]
  · apply List.dropWhile_cons_of_neg
    decide
  · apply List.dropWhile_cons_of_neg
    decide

/-- The sign is scanned first. -/
theorem Parts.scanSign_eq :
  scanSign (sign ++ digits) = (sign, digits)
  := by
  obtain ⟨d, rest, rfl⟩ := List.exists_cons_of_ne_nil h.digits_ne_nil
  obtain ⟨-, hplus, hminus⟩ := not_isSpace_of_isDigit (h.digits_isDigit d (by simp))
  rcases h.sign_mem with rfl | rfl | rfl
  · simp [scanSign, hplus, hminus]
  · rfl
  · rfl

/-- `std::stoull` reads a text in parts up to its end. -/
theorem Parts.stoull_eq :
  stoull text = some (signedSize sign digits, text.length)
  := by
  have hscan : scanDigits digits = (digits, []) := by
    rw [scanDigits, List.takeWhile_eq_self_iff.mpr h.digits_isDigit,
      List.dropWhile_eq_nil_iff.mpr h.digits_isDigit]
  rw [stoull, h.dropWhile_eq, h.scanSign_eq]
  simp only [hscan]
  rw [if_neg h.digits_ne_nil, if_neg (Nat.not_le.mpr h.inRange)]
  rfl

/-- A text without white space at its ends has no white space before its sign. -/
theorem Parts.space_eq_nil (htrim : trim text = text) :
  space = []
  := by
  rcases space with _ | ⟨c, space⟩
  · rfl
  · have hc : isSpace c = false := by
      apply head?_strip (s := text)
      rw [trim] at htrim
      rw [htrim, h.text_eq]
      rfl
    rw [h.space_isSpace c (by simp)] at hc
    cases hc

end Parts

/-- A text that `std::stoull` reads up to its end is in parts. -/
theorem exists_parts_of_stoull {text : Text} {value : UInt64}
    (h : stoull text = some (value, text.length)) :
  ∃ space sign digits, Parts text space sign digits ∧ value = signedSize sign digits
  := by
  rw [stoull] at h
  simp only at h
  split at h
  · cases h
  · rename_i hne
    split at h
    · cases h
    · rename_i hrange
      rw [Option.some.injEq, Prod.mk.injEq] at h
      obtain ⟨hvalue, hpos⟩ := h
      have hsplit : text = text.takeWhile isSpace
          ++ ((scanSign (text.dropWhile isSpace)).1
            ++ ((scanDigits (scanSign (text.dropWhile isSpace)).2).1
              ++ (scanDigits (scanSign (text.dropWhile isSpace)).2).2)) := by
        rw [scanDigits_fst_append_snd, scanSign_fst_append_snd, List.takeWhile_append_dropWhile]
      have hrest : (scanDigits (scanSign (text.dropWhile isSpace)).2).2 = [] := by
        have hlen := congrArg List.length hsplit
        simp only [List.length_append] at hlen
        rw [← List.length_eq_zero_iff]
        omega
      rw [hrest, List.append_nil] at hsplit
      refine ⟨_, _, _, ⟨hsplit, ?_, ?_, hne, ?_, Nat.not_le.mp hrange⟩, hvalue.symm⟩
      · intro c hc
        apply List.mem_takeWhile_imp hc
      · rcases text.dropWhile isSpace with _ | ⟨c, rest⟩
        · left
          rfl
        · rw [scanSign]
          split
          · rename_i hc
            right
            simpa using hc
          · left
            rfl
      · intro c hc
        apply List.mem_takeWhile_imp hc

/-- A size is read from a text in parts. -/
theorem getSize_of_parts {config : Config} {key text space sign digits : Text}
    (htext : config.values key = some text) (h : Parts text space sign digits)
    (fallback : UInt64) :
  config.getSize key fallback = signedSize sign digits
  := by
  have hmax : ¬ signedSize sign digits > sizeMax := by
    rw [gt_iff_lt, UInt64.lt_iff_toNat_lt]
    have hlt := (signedSize sign digits).toNat_lt
    have hsize : sizeMax.toNat = 2 ^ 64 - 1 := rfl
    omega
  rw [getSize, htext]
  simp only [h.stoull_eq]
  rw [if_neg]
  rw [not_or]
  exact ⟨by simp, hmax⟩

/-- The size of any other text is the fallback. -/
theorem getSize_of_not_parts {config : Config} {key text : Text}
    (htext : config.values key = some text)
    (h : ∀ space sign digits, ¬ Parts text space sign digits) (fallback : UInt64) :
  config.getSize key fallback = fallback
  := by
  rw [getSize, htext]
  simp only
  split
  · rfl
  · rename_i value pos hstoull
    rw [if_pos]
    left
    rintro rfl
    obtain ⟨space, sign, digits, hparts, -⟩ := exists_parts_of_stoull hstoull
    apply h _ _ _ hparts

/-! ### Where a text is misread -/

/-- A text in parts without white space or a minus sign denotes its value. -/
theorem unsignedDecimal_of_parts {text sign digits : Text} (h : Parts text [] sign digits)
    (hsign : sign ≠ ['-']) :
  unsignedDecimal text = some (signedSize sign digits)
  := by
  have hdigits : (if text.head? = some '+' then text.tail else text) = digits := by
    obtain ⟨d, rest, rfl⟩ := List.exists_cons_of_ne_nil h.digits_ne_nil
    obtain ⟨-, hplus, -⟩ := not_isSpace_of_isDigit (h.digits_isDigit d (by simp))
    rw [h.text_eq]
    rcases h.sign_mem with rfl | rfl | rfl
    · simp [hplus]
    · rfl
    · apply absurd rfl hsign
  rw [unsignedDecimal]
  simp only [hdigits]
  rw [if_pos ⟨h.digits_ne_nil, List.all_eq_true.mpr h.digits_isDigit, h.inRange⟩, signedSize,
    if_neg hsign]

/-- A text that denotes a number is in parts without white space or a minus sign. -/
theorem parts_of_unsignedDecimal {text : Text} {value : UInt64}
    (h : unsignedDecimal text = some value) :
  ∃ sign digits, Parts text [] sign digits ∧ sign ≠ ['-'] ∧ value = signedSize sign digits
  := by
  obtain ⟨digits, hdigits⟩ :
      ∃ digits, (if text.head? = some '+' then text.tail else text) = digits := ⟨_, rfl⟩
  obtain ⟨sign, htext, hsign⟩ : ∃ sign, text = sign ++ digits ∧ (sign = [] ∨ sign = ['+']) := by
    rw [← hdigits]
    split
    · rename_i hplus
      use ['+']
      rcases text with _ | ⟨c, rest⟩
      · cases hplus
      · cases hplus
        simp
    · use []
      simp
  rw [unsignedDecimal] at h
  simp only [hdigits] at h
  split at h
  · rename_i hnumber
    rw [Option.some.injEq] at h
    obtain ⟨hne, hall, hrange⟩ := hnumber
    have hnot : sign ≠ ['-'] := by
      rcases hsign with rfl | rfl <;> decide
    refine ⟨sign, digits, ⟨htext, by simp, ?_, hne, List.all_eq_true.mp hall, hrange⟩, hnot, ?_⟩
    · rcases hsign with rfl | rfl <;> simp
    · rw [signedSize, if_neg hnot, h]
  · cases h

/-- The parts of a text are determined by it. -/
theorem Parts.unique {text space sign digits space' sign' digits' : Text}
    (h : Parts text space sign digits) (h' : Parts text space' sign' digits') :
  space = space' ∧ sign = sign' ∧ digits = digits'
  := by
  have hrest : sign ++ digits = sign' ++ digits' := by
    rw [← h.dropWhile_eq, h'.dropWhile_eq]
  have hpair : (sign, digits) = (sign', digits') := by
    rw [← h.scanSign_eq, hrest, h'.scanSign_eq]
  rw [Prod.mk.injEq] at hpair
  have htext := h.text_eq
  rw [h'.text_eq, hrest] at htext
  exact ⟨(List.append_cancel_right htext).symm, hpair⟩

/-- A text in parts with white space or a minus sign denotes no number. -/
theorem unsignedDecimal_eq_none {text space sign digits : Text}
    (h : Parts text space sign digits) (hpart : space ≠ [] ∨ sign = ['-']) :
  unsignedDecimal text = none
  := by
  rw [Option.eq_none_iff_forall_not_mem]
  intro value hvalue
  obtain ⟨sign', digits', h', hsign', -⟩ := parts_of_unsignedDecimal hvalue
  obtain ⟨hspace, hsign, -⟩ := h.unique h'
  rcases hpart with hpart | hpart
  · apply hpart hspace
  · apply hsign'
    rw [← hsign, hpart]

/-- A text that is not in parts denotes no number. -/
theorem unsignedDecimal_of_not_parts {text : Text}
    (h : ∀ space sign digits, ¬ Parts text space sign digits) :
  unsignedDecimal text = none
  := by
  rw [Option.eq_none_iff_forall_not_mem]
  intro value hvalue
  obtain ⟨sign, digits, h', -⟩ := parts_of_unsignedDecimal hvalue
  apply h _ _ _ h'

/-- `Config::get_size` gives the number that the text denotes, and the fallback if it denotes
none, unless the text is misread. -/
theorem getSize_eq_iff {config : Config} {key text : Text}
    (htext : config.values key = some text) (fallback : UInt64) :
  config.getSize key fallback = (unsignedDecimal text).getD fallback ↔ ¬ Misread text fallback
  := by
  by_cases hparts : ∃ space sign digits, Parts text space sign digits
  · obtain ⟨space, sign, digits, hparts⟩ := hparts
    rw [getSize_of_parts htext hparts]
    by_cases hpart : space ≠ [] ∨ sign = ['-']
    · rw [unsignedDecimal_eq_none hparts hpart, Option.getD_none]
      constructor
      · rintro hvalue ⟨space', sign', digits', hparts', -, hvalue'⟩
        obtain ⟨rfl, rfl, rfl⟩ := hparts.unique hparts'
        apply hvalue' hvalue
      · intro hread
        by_contra hvalue
        apply hread ⟨space, sign, digits, hparts, hpart, hvalue⟩
    · obtain ⟨rfl, hsign⟩ : space = [] ∧ sign ≠ ['-'] := by
        rw [not_or, not_not] at hpart
        apply hpart
      rw [unsignedDecimal_of_parts hparts hsign, Option.getD_some]
      apply iff_of_true rfl
      rintro ⟨space', sign', digits', hparts', hpart', -⟩
      obtain ⟨rfl, rfl, -⟩ := hparts.unique hparts'
      apply hpart hpart'
  · have hnot : ∀ space sign digits, ¬ Parts text space sign digits :=
      fun space sign digits h => hparts ⟨space, sign, digits, h⟩
    rw [getSize_of_not_parts htext hnot, unsignedDecimal_of_not_parts hnot, Option.getD_none]
    apply iff_of_true rfl
    rintro ⟨space, sign, digits, h, -⟩
    apply hnot _ _ _ h

/-- The theorem for a number after a minus sign, as a fallback that is not the value misread. -/
theorem getSize_eq_iff_minus :
  (⟨fun _ => some "-1".toList⟩ : Config).getSize [] 1024
      = (unsignedDecimal "-1".toList).getD 1024
    ↔ ¬ Misread "-1".toList 1024
  := getSize_eq_iff rfl 1024

/-- The capacity `-1` in a configuration file, which denotes no size, is read as the largest
size. -/
theorem getSize_minus_one :
  ∃ config, load "pipe.conf" (some "[pipeline]\nraw_queue_capacity = -1\n".toList) cleared
      = (.success, config)
    ∧ config.values "pipeline.raw_queue_capacity".toList = some "-1".toList
    ∧ unsignedDecimal "-1".toList = none
    ∧ config.getSize "pipeline.raw_queue_capacity".toList 1024 = 18446744073709551615
    ∧ config.getSize "pipeline.raw_queue_capacity".toList 1024
      ≠ (unsignedDecimal "-1".toList).getD 1024
  := by
  refine ⟨_, rfl, ?_, ?_, ?_, ?_⟩ <;> decide

/-! ### The texts stored -/

/-- A text without white space at its ends is misread where it is a negative number. -/
theorem misread_iff_of_trim_eq {text : Text} (htrim : trim text = text) (fallback : UInt64) :
  Misread text fallback
    ↔ ∃ digits, Parts text [] ['-'] digits ∧ signedSize ['-'] digits ≠ fallback
  := by
  constructor
  · rintro ⟨space, sign, digits, hparts, hpart, hvalue⟩
    obtain rfl := hparts.space_eq_nil htrim
    obtain rfl : sign = ['-'] := by simpa using hpart
    exact ⟨digits, hparts, hvalue⟩
  · rintro ⟨digits, hparts, hvalue⟩
    exact ⟨[], ['-'], digits, hparts, Or.inr rfl, hvalue⟩

/-- The value of digits is 0 exactly when all of them are 0. -/
theorem digitsValue_eq_zero_iff {digits : Text} (h : ∀ c ∈ digits, c.isDigit = true) :
  digitsValue 10 digits = 0 ↔ ∀ c ∈ digits, c = '0'
  := by
  induction digits using List.reverseRecOn with
  | nil => simp [digitsValue]
  | append_singleton digits c ih =>
      have hc := h c (by simp)
      have hle : '0'.toNat ≤ c.toNat := by
        simp only [Char.isDigit, Bool.and_eq_true, decide_eq_true_eq] at hc
        apply hc.1
      have hzero : c = '0' ↔ c.toNat = '0'.toNat := by
        constructor
        · rintro rfl
          rfl
        · intro heq
          apply Char.toNat_inj.mp heq
      have hstep : digitsValue 10 (digits ++ [c])
          = 10 * digitsValue 10 digits + (c.toNat - '0'.toNat) := by
        rw [digitsValue, List.foldl_append, List.foldl_cons, List.foldl_nil, if_pos hc]
        rfl
      rw [hstep, Nat.add_eq_zero_iff, Nat.sub_eq_zero_iff_le, Nat.mul_eq_zero,
        ih (fun d hd => h d (by simp [hd]))]
      simp only [List.mem_append, List.mem_singleton]
      constructor
      · rintro ⟨hdigits, hle'⟩ d (hd | rfl)
        · apply hdigits.resolve_left (by decide) d hd
        · rw [hzero]
          omega
      · intro hall
        refine ⟨Or.inr (fun d hd => hall d (Or.inl hd)), ?_⟩
        rw [hzero.mp (hall c (Or.inr rfl))]

/-- A number in the range is 0 modulo `2 ^ 64`, with any sign, exactly when all of its digits
are 0. -/
theorem Parts.signedSize_eq_zero_iff {text space sign digits : Text}
    (h : Parts text space sign digits) :
  signedSize sign digits = 0 ↔ ∀ c ∈ digits, c = '0'
  := by
  rw [← digitsValue_eq_zero_iff h.digits_isDigit]
  have hof : UInt64.ofNat (digitsValue 10 digits) = 0 ↔ digitsValue 10 digits = 0 := by
    rw [← UInt64.toNat_inj, UInt64.toNat_ofNat_of_lt' h.inRange]
    rfl
  rw [signedSize]
  split
  · rw [← hof]
    constructor
    · intro hneg
      rw [← UInt64.neg_neg (a := UInt64.ofNat _), hneg]
      rfl
    · intro hzero
      rw [hzero]
      rfl
  · apply hof

end Config
