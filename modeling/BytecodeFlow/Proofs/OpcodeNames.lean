import Mathlib
import BytecodeFlow.Proofs.Spelling

/-!
# The texts that name an opcode

`Opcode.parse` trims a text, brings it to upper case, and looks for a number between `UNKNOWN(0X` and a
parenthesis or for a name in the table.  This file says which texts it accepts, without any of these steps.

**Case and blanks.**  Two texts have the same letters if they are equal in lower case, and then they are equal
in upper case too (`sameLetters_iff`).  A text is trimmed to the part that has no blanks
(`trim_append_append`).

**Numerals.**  A numeral is a sign or none and the digits of values below its base, and it is read as the
number that these values write (`unsigned?_eq_some_iff`).

**Spellings.**  `Spelling` lists the texts of an opcode up to case: its mnemonic, a former name, and its
number in any form.  A text in upper case is read as an opcode exactly if it has the letters of one of its
spellings (`ofUpper?_eq_some_iff`), because no mnemonic is a former name and neither has a parenthesis.
-/

namespace BytecodeFlow

/-! ## Case and blanks -/

namespace Text

/-- Texts that differ at most in the case of their ASCII letters. -/
def SameLetters (a b : List Char) : Prop :=
  a.map Char.toLower = b.map Char.toLower

instance (a b : List Char) : Decidable (SameLetters a b) :=
  inferInstanceAs (Decidable (_ = _))

/-- Upper case forgets what the case was. -/
lemma map_toUpper_map_toLower (text : List Char) :
    (text.map Char.toLower).map Char.toUpper = text.map Char.toUpper := by
  simp [Function.comp_def]

lemma map_toLower_map_toUpper (text : List Char) :
    (text.map Char.toUpper).map Char.toLower = text.map Char.toLower := by
  simp [Function.comp_def]

/-- Whether texts have the same letters can be asked in upper case, which the reader brings them to. -/
lemma sameLetters_iff {a b : List Char} :
    SameLetters a b ↔ a.map Char.toUpper = b.map Char.toUpper := by
  constructor
  · intro h
    rw [← map_toUpper_map_toLower a, h, map_toUpper_map_toLower]
  · intro h
    rw [SameLetters, ← map_toLower_map_toUpper a, h, map_toLower_map_toUpper]

/-- Letters are no blanks, in either case. -/
lemma isBlank_toLower (c : Char) : isBlank c.toLower = isBlank c := by
  by_cases hc : c.isUpper = true
  · have hletter : c.isAlpha = true := by simp [Char.isAlpha, hc]
    have hplain : isPlain c = true := by simp [isPlain, Char.isAlphanum, hletter]
    have hlower : isPlain c.toLower = true := by simp [isPlain, Char.isAlphanum, hletter]
    rw [isBlank_of_isPlain hplain, isBlank_of_isPlain hlower]
  · rw [Char.toLower_eq_of_not_isUpper hc]

/-- A text without blanks has none in another case. -/
lemma SameLetters.not_isBlank {a b : List Char} (h : SameLetters a b)
    (hb : ∀ c ∈ b, isBlank c = false) : ∀ c ∈ a, isBlank c = false := by
  intro c hc
  have hlower : c.toLower ∈ b.map Char.toLower := by
    rw [← h]
    exact List.mem_map_of_mem hc
  obtain ⟨d, hd, heq⟩ := List.mem_map.mp hlower
  rw [← isBlank_toLower, ← heq, isBlank_toLower, hb d hd]

/-- **Trimming takes away the blanks around a text without blanks.** -/
lemma trim_append_append {front core back : List Char} (hfront : ∀ c ∈ front, isBlank c = true)
    (hcore : ∀ c ∈ core, isBlank c = false) (hback : ∀ c ∈ back, isBlank c = true) :
    trim (front ++ core ++ back) = core := by
  have hback' : trimFront (back.reverse ++ core.reverse) = core.reverse := by
    rw [Hex.trimFront_append (by simpa using hback), trimFront_eq_self (by simpa using hcore)]
  rw [trim, List.append_assoc, Hex.trimFront_append hfront]
  cases core with
  | nil =>
      have hnil : trimFront back = [] := by
        rw [trimFront, List.dropWhile_eq_nil_iff]
        exact hback
      rw [List.nil_append, hnil]
      rfl
  | cons c core =>
      have hstart : trimFront (c :: core ++ back) = c :: core ++ back := by
        simp [trimFront, hcore c List.mem_cons_self]
      rw [hstart, List.reverse_append, hback', List.reverse_reverse]

/-- What trimming takes away are blanks. -/
lemma exists_eq_trim_append (text : List Char) :
    ∃ front back, text = front ++ trim text ++ back ∧ (∀ c ∈ front, isBlank c = true) ∧
      ∀ c ∈ back, isBlank c = true := by
  obtain ⟨back, hback, hblank⟩ := Hex.exists_trim_append text
  refine ⟨text.takeWhile isBlank, back, ?_, fun c => List.mem_takeWhile_imp, hblank⟩
  rw [List.append_assoc, ← hback, trimFront, List.takeWhile_append_dropWhile]

/-! ## Numerals -/

variable {base limit n v : Nat} {c : Char}

/-- The values of the ASCII characters as digits, looked up one by one. -/
lemma digitValue?_ascii : ∀ n : Fin 128, ∀ v : Fin 16,
    digitValue? (Char.ofNat n) = some v.val ↔ (Char.ofNat n).toLower = Nat.digitChar v := by
  decide +kernel

/-- No character beyond ASCII is a digit, and the lower case of one that is tells its value. -/
lemma digitValue?_eq_some_iff (hv : v < 16) :
    digitValue? c = some v ↔ c.toLower = Nat.digitChar v := by
  rcases Nat.lt_or_ge 127 c.toNat with hc | hc
  · have hvalue : digitValue? c = none := by
      have hle : ∀ d : Char, d.toNat ≤ 127 → ¬c ≤ d := by
        intro d hd h
        exact absurd (show c.toNat ≤ d.toNat from h) (by omega)
      simp [digitValue?, hle '9' (by decide), hle 'z' (by decide), hle 'Z' (by decide)]
    have hne : c ≠ Nat.digitChar v := by
      rintro rfl
      exact absurd (Hex.digitChar_le v hv) (by omega)
    simp [hvalue, Hex.toLower_of_lt hc, hne]
  · simpa using digitValue?_ascii ⟨c.toNat, by omega⟩ ⟨v, hv⟩

/-- In a base only the values below it count. -/
lemma digitInBase?_eq_some_iff (hbase : base ≤ 16) :
    digitInBase? base c = some v ↔ v < base ∧ c.toLower = Nat.digitChar v := by
  rw [digitInBase?, Option.filter_eq_some_iff]
  constructor
  · rintro ⟨hvalue, hv⟩
    have hv : v < base := by simpa using hv
    exact ⟨hv, (digitValue?_eq_some_iff (by omega)).mp hvalue⟩
  · rintro ⟨hv, hc⟩
    exact ⟨(digitValue?_eq_some_iff (by omega)).mpr hc, by simpa using hv⟩

/-- **Digits are read as the number that their values write**, in either case. -/
lemma digits?_eq_some_iff (hbase : base ≤ 16) (text : List Char) :
    digits? base text = some n ↔ ∃ values : List Nat, (∀ v ∈ values, v < base) ∧
      text.map Char.toLower = values.map Nat.digitChar ∧ Nat.ofDigits base values.reverse = n := by
  induction text using List.reverseRecOn generalizing n with
  | nil => simp [digits?, eq_comm]
  | append_singleton text c ih =>
      have hstep : digits? base (text ++ [c]) = some n ↔ ∃ front, digits? base text = some front ∧
          ∃ v, digitInBase? base c = some v ∧ front * base + v = n := by
        simp [digits?, List.foldlM_append, Option.bind_eq_some_iff]
      rw [hstep]
      constructor
      · rintro ⟨front, hfront, v, hv, rfl⟩
        obtain ⟨values, hvalues, htext, rfl⟩ := ih.mp hfront
        obtain ⟨hv, hc⟩ := (digitInBase?_eq_some_iff hbase).mp hv
        refine ⟨values ++ [v], ?_, by simp [htext, hc], ?_⟩
        · simpa [or_imp, forall_and] using ⟨hvalues, hv⟩
        · simp [Nat.ofDigits_cons, Nat.mul_comm, Nat.add_comm]
      · rintro ⟨values, hvalues, htext, rfl⟩
        rw [List.map_append, eq_comm, List.map_eq_append_iff] at htext
        obtain ⟨values, last, rfl, htext, hlast⟩ := htext
        obtain ⟨v, rfl, hc⟩ := List.map_eq_singleton_iff.mp hlast
        simp only [List.mem_append, List.mem_singleton, or_imp, forall_and, forall_eq] at hvalues
        refine ⟨_, ih.mpr ⟨values, hvalues.1, htext.symm, rfl⟩, v, ?_, ?_⟩
        · exact (digitInBase?_eq_some_iff hbase).mpr ⟨hvalues.2, hc.symm⟩
        · simp [Nat.ofDigits_cons, Nat.mul_comm, Nat.add_comm]

/-- **A numeral**: a plus sign or none, and the digits of values, most significant first. -/
inductive Numeral (base : Nat) : List Char → Nat → Prop where
  | intro (sign : List Char) (values : List Nat) (hsign : sign ∈ [[], ['+']]) (hsome : values ≠ [])
      (hvalues : ∀ v ∈ values, v < base) :
      Numeral base (sign ++ values.map Nat.digitChar) (Nat.ofDigits base values.reverse)

/-- A sign is no digit, so it can stand at the beginning only. -/
lemma digits?_plus (rest : List Char) : digits? base ('+' :: rest) = none := by
  have hplus : digitInBase? base '+' = none := rfl
  simp [digits?, hplus]

/-- What is read behind a sign, or without one. -/
lemma unsigned?_eq_some_iff_digits? (text : List Char) :
    unsigned? base limit text = some n ↔ n < limit ∧ ∃ sign ∈ [[], ['+']], ∃ digits,
      text = sign ++ digits ∧ digits ≠ [] ∧ digits? base digits = some n := by
  have hread : ∀ digits : List Char,
      (if digits.isEmpty then none else (digits? base digits).filter (· < limit)) = some n ↔
        n < limit ∧ digits ≠ [] ∧ digits? base digits = some n := by
    intro digits
    cases digits with
    | nil => simp
    | cons c digits => simp [Option.filter_eq_some_iff, and_comm]
  cases text with
  | nil => simp [unsigned?]
  | cons c rest =>
      by_cases hc : c = '+'
      · subst hc
        -- with no sign the plus would have to be a digit
        have hbehind : unsigned? base limit ('+' :: rest)
            = if rest.isEmpty then none else (digits? base rest).filter (· < limit) := rfl
        rw [hbehind, hread rest]
        simp [digits?_plus]
      · have hwhole : unsigned? base limit (c :: rest)
            = if (c :: rest).isEmpty then none else (digits? base (c :: rest)).filter (· < limit) := by
          simp [unsigned?, hc]
        rw [hwhole, hread (c :: rest)]
        simp [hc]

/-- Digits are written in lower case. -/
lemma map_toLower_digitChar {values : List Nat} (h : ∀ v ∈ values, v < 16) :
    (values.map Nat.digitChar).map Char.toLower = values.map Nat.digitChar := by
  have hlower : ∀ d < 16, (Nat.digitChar d).toLower = Nat.digitChar d := by decide
  rw [List.map_map]
  exact List.map_congr_left fun v hv => hlower v (h v hv)

lemma eq_plus_of_toLower (h : c.toLower = '+') : c = '+' := by
  by_cases hc : c.isUpper = true
  · have hletter : c.toLower.isLower = true := by simp [Char.isAlpha, hc]
    rw [h] at hletter
    exact absurd hletter (by decide)
  · rwa [Char.toLower_eq_of_not_isUpper hc] at h

/-- A sign has no case, so it stands as it is in every spelling. -/
lemma eq_sign_of_map_toLower {sign front : List Char} (hsign : sign ∈ [[], ['+']])
    (h : front.map Char.toLower = sign.map Char.toLower) : front = sign := by
  rcases (by simpa using hsign : sign = [] ∨ sign = ['+']) with rfl | rfl
  · simpa using h
  · obtain ⟨c, rfl, hc⟩ := List.map_eq_singleton_iff.mp h
    rw [eq_plus_of_toLower hc]

/-- **A numeral is read as the number that it writes**, if that is below the limit. -/
lemma unsigned?_eq_some_iff (hbase : base ≤ 16) (text : List Char) :
    unsigned? base limit text = some n ↔ n < limit ∧ ∃ numeral, Numeral base numeral n ∧
      SameLetters text numeral := by
  rw [unsigned?_eq_some_iff_digits?]
  refine and_congr_right fun _ => ?_
  constructor
  · rintro ⟨sign, hsign, digits, rfl, hsome, hdigits⟩
    obtain ⟨values, hvalues, htext, rfl⟩ := (digits?_eq_some_iff hbase digits).mp hdigits
    refine ⟨_, .intro sign values hsign ?_ hvalues, ?_⟩
    · rintro rfl
      simp [hsome] at htext
    · rw [SameLetters, List.map_append, List.map_append, htext,
        map_toLower_digitChar fun v hv => (hvalues v hv).trans_le hbase]
  · rintro ⟨_, ⟨sign, values, hsign, hsome, hvalues⟩, htext⟩
    rw [SameLetters, List.map_append, map_toLower_digitChar fun v hv => (hvalues v hv).trans_le hbase,
      List.map_eq_append_iff] at htext
    obtain ⟨front, digits, rfl, hfront, hdigits⟩ := htext
    refine ⟨sign, hsign, digits, by rw [eq_sign_of_map_toLower hsign hfront], ?_,
      (digits?_eq_some_iff hbase digits).mpr ⟨values, hvalues, hdigits, rfl⟩⟩
    rintro rfl
    exact hsome (by simpa using hdigits.symm)

/-- A numeral has no blanks inside. -/
lemma Numeral.not_isBlank {numeral : List Char} (h : Numeral base numeral n) (hbase : base ≤ 16) :
    ∀ c ∈ numeral, isBlank c = false := by
  obtain ⟨sign, values, hsign, -, hvalues⟩ := h
  intro c hc
  rcases List.mem_append.mp hc with hc | hc
  · have hsigns : ∀ sign ∈ [[], ['+']], ∀ c ∈ sign, isBlank c = false := by
      simp [isBlank, blankRanges]
    exact hsigns sign hsign c hc
  · obtain ⟨v, hv, rfl⟩ := List.mem_map.mp hc
    exact isBlank_of_isPlain (isPlain_digitChar v ((hvalues v hv).trans_le hbase))

end Text

/-! ## Spellings -/

namespace Opcode

open Text

variable {op : Opcode} {name : String} {core spelling : List Char}

/-- The opcodes that have had another name. -/
def formerOpcodes : List (String × Opcode) :=
  [("KECCAK256", ⟨0x20⟩), ("DIFFICULTY", ⟨0x44⟩), ("SUICIDE", ⟨0xff⟩)]

/-- **The spellings of an opcode**, up to case: its mnemonic, a name that it has had, and its number, which
any opcode can be written with. -/
inductive Spelling (op : Opcode) : List Char → Prop where
  | mnemonic {name : String} (h : op.mnemonic? = some name) : Spelling op name.toList
  | former {name : String} (h : (name, op) ∈ formerOpcodes) : Spelling op name.toList
  | number {numeral : List Char} (h : Numeral 16 numeral op.byte.toNat) :
      Spelling op ("UNKNOWN(0x".toList ++ numeral ++ [')'])

/-- **The texts that name an opcode**: one of its spellings in either case, with blanks around it. -/
def Named (text : List Char) (op : Opcode) : Prop :=
  ∃ front core back spelling, text = front ++ core ++ back ∧ (∀ c ∈ front ++ back, isBlank c = true) ∧
    Spelling op spelling ∧ SameLetters core spelling

/-- Every former name has an assigned name in its place, which is another one. -/
lemma formerOpcodes_current : ∀ entry ∈ formerOpcodes,
    (entry.2.byte.toNat, currentName entry.1) ∈ assigned ∧ currentName entry.1 ≠ entry.1 := by
  decide +kernel

/-- Former names are spelled like mnemonics. -/
lemma formerOpcodes_names :
    (formerOpcodes.all fun entry => entry.1.toList.all fun c => c.isUpper || c.isDigit) = true := by
  decide +kernel

/-- A name that is no former one is looked up as it stands. -/
lemma currentName_eq_self (h : ∀ op, (name, op) ∉ formerOpcodes) : currentName name = name := by
  have hkeys : formerNames.map Prod.fst = formerOpcodes.map Prod.fst := rfl
  have hnone : formerNames.lookup name = none := by
    rw [List.lookup_eq_none_iff]
    intro entry hentry
    have hmem : entry.1 ∈ formerOpcodes.map Prod.fst := hkeys ▸ List.mem_map_of_mem hentry
    obtain ⟨former, hformer, heq⟩ := List.mem_map.mp hmem
    rw [bne_iff_ne]
    rintro rfl
    exact h former.2 (heq ▸ hformer)
  rw [currentName, hnone, Option.getD_none]

/-- A name is looked up as a mnemonic, or as a former name; no name is both. -/
lemma mnemonic?_eq_currentName_iff :
    op.mnemonic? = some (currentName name) ↔ op.mnemonic? = some name ∨ (name, op) ∈ formerOpcodes := by
  by_cases hformer : ∃ former, (name, former) ∈ formerOpcodes
  · obtain ⟨former, hmem⟩ := hformer
    obtain ⟨hcurrent, hne⟩ := formerOpcodes_current _ hmem
    have hmnemonic : former.mnemonic? = some (currentName name) := mnemonic?_eq_some_iff.mpr hcurrent
    constructor
    · intro h
      rw [eq_of_mnemonic? h hmnemonic]
      exact Or.inr hmem
    · rintro (h | h)
      · exact absurd (assigned_current _ (mnemonic?_eq_some_iff.mp h)).2 hne
      · exact mnemonic?_eq_some_iff.mpr (formerOpcodes_current _ h).1
  · push Not at hformer
    simp [currentName_eq_self hformer, hformer op]

lemma size_table : table.size = 256 := by
  decide +kernel

/-- **Looking up a name is the inverse of the table of mnemonics.** -/
lemma ofMnemonic?_eq_some_iff : ofMnemonic? name = some op ↔ op.mnemonic? = some name := by
  refine ⟨fun h => ?_, ofMnemonic?_of_mnemonic?⟩
  obtain ⟨i, hfound, rfl⟩ := Option.map_eq_some_iff.mp h
  obtain ⟨hlt, hname, -⟩ := Array.findIdx?_eq_some_iff_getElem.mp hfound
  have hi : i < 256 := by
    rw [← size_table]
    exact hlt
  have hbyte : (UInt8.ofNat i).toNat = i := UInt8.toNat_ofNat_of_lt' hi
  rw [mnemonic?, hbyte, Array.getElem?_eq_getElem hlt, of_decide_eq_true hname]
  rfl

/-- What is taken for a numeral stands between the opening and the closing parenthesis, and nothing else
does. -/
lemma unknownNumeral?_eq_some_iff {upper numeral : List Char} :
    unknownNumeral? upper = some numeral ↔ upper = "UNKNOWN(0X".toList ++ numeral ++ [')'] := by
  refine ⟨fun h => ?_, fun h => h ▸ unknownNumeral?_append numeral⟩
  rw [unknownNumeral?] at h
  split_ifs at h with hopening
  obtain ⟨rest, rfl⟩ := List.isPrefixOf_iff_prefix.mp hopening
  rw [List.drop_left] at h
  split at h
  · next turned hturned =>
      rw [← List.reverse_reverse rest, hturned, ← Option.some.inj h, List.reverse_cons, List.append_assoc]
  · cases h

lemma not_isLower_of_isDigit {c : Char} (h : c.isDigit = true) : ¬c.isLower = true := by
  simp [Char.isDigit, Char.isLower, UInt32.le_iff_toNat_le] at h ⊢
  omega

/-- Names are upper-case letters and digits. -/
lemma isUpper_or_isDigit_of_name (h : op.mnemonic? = some name ∨ (name, op) ∈ formerOpcodes) {c : Char}
    (hc : c ∈ name.toList) : c.isUpper = true ∨ c.isDigit = true := by
  rcases h with h | h
  · exact isUpper_or_isDigit h hc
  · have hall := List.all_eq_true.mp formerOpcodes_names _ h
    exact Bool.or_eq_true_iff.mp (List.all_eq_true.mp hall c hc)

/-- A name has no parenthesis, so it is looked up in the table. -/
lemma ofUpper?_of_name (h : op.mnemonic? = some name ∨ (name, op) ∈ formerOpcodes) :
    ofUpper? (name.toList.map Char.toUpper) = some op := by
  have hupper : name.toList.map Char.toUpper = name.toList := by
    conv_rhs => rw [← List.map_id name.toList]
    refine List.map_congr_left fun c hc => Char.toUpper_eq_of_not_isLower ?_
    rcases isUpper_or_isDigit_of_name h hc with hc | hc
    · exact Char.not_isLower_of_isUpper hc
    · exact not_isLower_of_isDigit hc
  have hopening : '(' ∉ name.toList := by
    intro hc
    rcases isUpper_or_isDigit_of_name h hc with hc | hc <;> simp at hc
  rw [hupper, ofUpper?, unknownNumeral?_eq_none hopening, String.ofList_toList]
  exact ofMnemonic?_eq_some_iff.mpr (mnemonic?_eq_currentName_iff.mpr h)

/-- **Every spelling is read**, in any case. -/
lemma ofUpper?_of_spelling (h : Spelling op spelling) : ofUpper? (spelling.map Char.toUpper) = some op := by
  cases h with
  | mnemonic h => exact ofUpper?_of_name (Or.inl h)
  | former h => exact ofUpper?_of_name (Or.inr h)
  | @number numeral h =>
      have hletters : SameLetters (numeral.map Char.toUpper) numeral := map_toLower_map_toUpper numeral
      have hread : unsigned? 16 256 (numeral.map Char.toUpper) = some op.byte.toNat :=
        (unsigned?_eq_some_iff (le_refl 16) _).mpr ⟨op.byte.toNat_lt, numeral, h, hletters⟩
      have hopening : "UNKNOWN(0x".toList.map Char.toUpper = "UNKNOWN(0X".toList := by decide
      have hclosing : [')'].map Char.toUpper = [')'] := by decide
      rw [List.map_append, List.map_append, hopening, hclosing, ofUpper?, unknownNumeral?_append]
      simp [hread]

/-- **A text that is read has the letters of a spelling.** -/
lemma exists_spelling (h : ofUpper? (core.map Char.toUpper) = some op) :
    ∃ spelling, Spelling op spelling ∧ SameLetters core spelling := by
  rw [ofUpper?] at h
  cases hnumeral : unknownNumeral? (core.map Char.toUpper) with
  | some numeral =>
      rw [hnumeral] at h
      obtain ⟨byte, hread, rfl⟩ := Option.map_eq_some_iff.mp h
      obtain ⟨hbyte, written, hwritten, hletters⟩ := (unsigned?_eq_some_iff (le_refl 16) _).mp hread
      rw [← UInt8.toNat_ofNat_of_lt' hbyte] at hwritten
      refine ⟨_, .number hwritten, ?_⟩
      have hopening : "UNKNOWN(0X".toList.map Char.toLower = "UNKNOWN(0x".toList.map Char.toLower := by
        decide
      rw [SameLetters, ← map_toLower_map_toUpper core, unknownNumeral?_eq_some_iff.mp hnumeral]
      simp only [List.map_append, hopening]
      rw [hletters]
  | none =>
      rw [hnumeral] at h
      have hname := mnemonic?_eq_currentName_iff.mp (ofMnemonic?_eq_some_iff.mp h)
      have hletters : SameLetters core (String.ofList (core.map Char.toUpper)).toList := by
        rw [String.toList_ofList]
        exact (map_toLower_map_toUpper core).symm
      rcases hname with hname | hname
      · exact ⟨_, .mnemonic hname, hletters⟩
      · exact ⟨_, .former hname, hletters⟩

/-- The reader of texts in upper case accepts the letters of spellings. -/
lemma ofUpper?_eq_some_iff :
    ofUpper? (core.map Char.toUpper) = some op ↔
      ∃ spelling, Spelling op spelling ∧ SameLetters core spelling := by
  refine ⟨exists_spelling, ?_⟩
  rintro ⟨spelling, hspelling, hletters⟩
  rw [sameLetters_iff.mp hletters]
  exact ofUpper?_of_spelling hspelling

lemma isBlank_of_name (h : op.mnemonic? = some name ∨ (name, op) ∈ formerOpcodes) :
    ∀ c ∈ name.toList, isBlank c = false := by
  intro c hc
  refine isBlank_of_isPlain ?_
  rcases isUpper_or_isDigit_of_name h hc with hc | hc
  · simp [isPlain, Char.isAlphanum, Char.isAlpha, hc]
  · simp [isPlain, Char.isAlphanum, hc]

/-- No spelling has blanks inside, so trimming leaves it whole. -/
lemma Spelling.not_isBlank (h : Spelling op spelling) : ∀ c ∈ spelling, isBlank c = false := by
  cases h with
  | mnemonic h => exact isBlank_of_name (Or.inl h)
  | former h => exact isBlank_of_name (Or.inr h)
  | number h =>
      have hunknown : ∀ c ∈ "UNKNOWN(0x".toList ++ [')'], isBlank c = false := by
        simp [isBlank, blankRanges]
      intro c hc
      simp only [List.mem_append, or_assoc] at hc hunknown
      rcases hc with hc | hc | hc
      · exact hunknown c (Or.inl hc)
      · exact h.not_isBlank (le_refl 16) c hc
      · exact hunknown c (Or.inr hc)

/-! ## Texts -/

/-- **A text is read as an opcode exactly if it names it.** -/
lemma parse_eq_ok_iff (given : String) : parse given = .ok op ↔ Named given.toList op := by
  have hparse : parse given = .ok op ↔ ofUpper? ((trim given.toList).map Char.toUpper) = some op := by
    rw [parse]
    cases ofUpper? ((trim given.toList).map Char.toUpper) <;> simp
  rw [hparse]
  constructor
  · intro h
    obtain ⟨spelling, hspelling, hletters⟩ := exists_spelling h
    obtain ⟨front, back, htext, hfront, hback⟩ := exists_eq_trim_append given.toList
    refine ⟨front, _, back, spelling, htext, ?_, hspelling, hletters⟩
    simpa [or_imp, forall_and] using ⟨hfront, hback⟩
  · rintro ⟨front, core, back, spelling, htext, hblank, hspelling, hletters⟩
    simp only [List.mem_append, or_imp, forall_and] at hblank
    rw [htext, trim_append_append hblank.1 (hletters.not_isBlank hspelling.not_isBlank) hblank.2]
    exact ofUpper?_eq_some_iff.mpr ⟨spelling, hspelling, hletters⟩

/-- **The reader accepts exactly the texts that name an opcode**, and gives back that opcode.  Any other text
is refused and handed back as it was given.  So no text names two opcodes, and every opcode is named by the
text that it is written as. -/
theorem parse_accepts_exactly (given : String) :
    (∀ op, parse given = .ok op ↔ Named given.toList op) ∧
      (∀ e, parse given = .error e ↔ e = ⟨given⟩ ∧ ∀ op, ¬Named given.toList op) ∧
      (∀ a b, Named given.toList a → Named given.toList b → a = b) ∧
      ∀ op, parse op.text = .ok op ∧ Named op.text.toList op := by
  refine ⟨fun op => parse_eq_ok_iff given, fun e => ?_, fun a b ha hb => ?_, fun op => ?_⟩
  · rw [forall_congr' fun op => not_congr (parse_eq_ok_iff given).symm, parse]
    cases ofUpper? ((trim given.toList).map Char.toUpper) <;> simp [eq_comm]
  · rw [← parse_eq_ok_iff] at ha hb
    exact Except.ok.inj (ha.symm.trans hb)
  · exact ⟨parse_text op, (parse_eq_ok_iff op.text).mp (parse_text op)⟩

/-- An assigned opcode may be written with its number, behind a sign and zeros.  A number that no byte has is
refused, and the complaint shows the text with its blanks. -/
theorem parse_accepts_exactly_numbers :
    Named " unknown(0X+00fE)\n".toList invalid ∧ parse " unknown(0X+00fE)\n" = .ok invalid ∧
      (∀ op, Named " unknown(0X+00fE)\n".toList op → op = invalid) ∧
      parse " UNKNOWN(0x100)" = .error ⟨" UNKNOWN(0x100)"⟩ ∧ ∀ op, ¬Named " UNKNOWN(0x100)".toList op := by
  have hnamed : Named " unknown(0X+00fE)\n".toList invalid := by
    refine ⟨[' '], "unknown(0X+00fE)".toList, ['\n'], _, by decide, by simp [isBlank, blankRanges],
      .number (.intro ['+'] [0, 0, 15, 14] (by simp) (by simp) (by simp)), by decide⟩
  have hrefused : parse " UNKNOWN(0x100)" = .error ⟨" UNKNOWN(0x100)"⟩ := by cbv
  obtain ⟨hok, -, hunique, -⟩ := parse_accepts_exactly " unknown(0X+00fE)\n"
  exact ⟨hnamed, (hok _).mpr hnamed, fun op hop => hunique op invalid hop hnamed, hrefused,
    (((parse_accepts_exactly " UNKNOWN(0x100)").2.1 _).mp hrefused).2⟩

end Opcode

end BytecodeFlow
