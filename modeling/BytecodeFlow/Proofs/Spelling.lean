import Mathlib
import BytecodeFlow.Proofs.HexText

/-!
# How opcodes and instructions are spelled

The reports put texts side by side with spaces, underscores and line breaks between them.  They can be
told apart because none of these characters is part of a spelling.

**Digits.**  A byte and a numeral are written in hexadecimal digits (`mem_digits`, `mem_toDigits`).  The
digits of bytes give the bytes back (`digits_injective`), and a numeral gives back its number
(`digits?_toDigits`).

**Mnemonics.**  The table of mnemonics holds the assigned names at their bytes
(`mnemonic?_eq_some_iff`).  The names are letters and digits, and no two are equal; both are checked on
the list of names (`assigned_names`).

**Texts.**  An unassigned byte is spelled with parentheses, which no mnemonic has, and with its two digits.
So every opcode is spelled in letters, digits and parentheses (`isPlain_of_mem_text`), and a line of a
listing is one line (`newline_not_mem_text`).

**Reading.**  A mnemonic is in upper case and stands at one place of the table, and an unassigned byte is
read from its digits.  So every opcode is read from its text (`parse_text`), and none shares it
(`text_injective`).

**Lines.**  A text whose lines end in line breaks gives its lines back (`lines_unlines`).
-/

namespace BytecodeFlow

/-! ## Digits -/

/-- The characters that opcodes are spelled with. -/
def Text.isPlain (c : Char) : Bool :=
  c.isAlphanum || c = '(' || c = ')'

lemma Text.isPlain_digitChar : ∀ d < 16, isPlain (Nat.digitChar d) = true := by
  decide

/-- A separator is told from the characters of spellings by one of them not being plain. -/
lemma Text.ne_of_isPlain {c d : Char} (hc : isPlain c = true) (hd : isPlain d = false) : c ≠ d := by
  rintro rfl
  rw [hc] at hd
  cases hd

/-- No separator occurs in a spelling. -/
lemma Text.not_mem_of_isPlain {text : List Char} (h : ∀ c ∈ text, isPlain c = true) {d : Char}
    (hd : isPlain d = false) : d ∉ text :=
  fun hmem => ne_of_isPlain (h d hmem) hd rfl

/-- Bytes are written in hexadecimal digits. -/
lemma Hex.mem_digits {bytes : List UInt8} {c : Char} (h : c ∈ digits bytes) :
    ∃ d < 16, c = Nat.digitChar d := by
  rw [digits_eq_map_halves, List.mem_map] at h
  obtain ⟨value, hvalue, rfl⟩ := h
  exact ⟨value.toNat, halves_lt value hvalue, rfl⟩

lemma Hex.isPlain_of_mem_digits (bytes : List UInt8) : ∀ c ∈ digits bytes, Text.isPlain c = true := by
  intro c hc
  obtain ⟨d, hd, rfl⟩ := mem_digits hc
  exact Text.isPlain_digitChar d hd

/-- The digits of bytes are read as these bytes, since they are in lower case already. -/
lemma Hex.decode_digits (bytes : List UInt8) : decode (digits bytes) = .ok bytes := by
  have hlower : ∀ d < 16, (Nat.digitChar d).toLower = Nat.digitChar d := by decide
  rw [decode_eq_ok_iff, List.map_congr_left (g := id), List.map_id]
  intro c hc
  obtain ⟨d, hd, rfl⟩ := mem_digits hc
  exact hlower d hd

/-- What is written can be read, so no two lists of bytes have the same digits. -/
lemma Hex.digits_injective : Function.Injective digits := by
  intro a b h
  have hread := decode_digits b
  rw [← h, decode_digits] at hread
  exact Except.ok.inj hread

/-- Numerals are written in hexadecimal digits. -/
lemma Text.mem_toDigits {c : Char} {n : Nat} (h : c ∈ Nat.toDigits 16 n) :
    ∃ d < 16, c = Nat.digitChar d := by
  induction n using Nat.strongRecOn with
  | ind n ih =>
      rw [Nat.toDigits_eq_if (by decide)] at h
      split_ifs at h with hn
      · exact ⟨n, hn, by simpa using h⟩
      · rcases List.mem_append.mp h with h | h
        · exact ih (n / 16) (by omega) h
        · exact ⟨n % 16, by omega, by simpa using h⟩

lemma Text.isPlain_of_mem_toDigits (n : Nat) : ∀ c ∈ Nat.toDigits 16 n, isPlain c = true := by
  intro c hc
  obtain ⟨d, hd, rfl⟩ := mem_toDigits hc
  exact isPlain_digitChar d hd

/-- So are numerals that are filled up with zeros. -/
lemma Text.isPlain_of_mem_hexPadded (width n : Nat) :
    ∀ c ∈ (hexPadded width n).toList, isPlain c = true := by
  intro c hc
  rw [hexPadded, String.toList_ofList, List.mem_append] at hc
  rcases hc with hc | hc
  · rw [(List.mem_replicate.mp hc).2]
    rfl
  · exact isPlain_of_mem_toDigits n c hc

/-- Two places are enough for a byte. -/
lemma Text.hexPadded_two {n : Nat} (h : n < 256) :
    hexPadded 2 n = String.ofList [Nat.digitChar (n / 16), Nat.digitChar (n % 16)] := by
  rw [hexPadded, Nat.toDigits_eq_if (by decide)]
  split_ifs with hn
  · rw [Nat.div_eq_of_lt hn, Nat.mod_eq_of_lt hn]
    rfl
  · rw [Nat.toDigits_of_lt_base (by omega)]
    rfl

/-- A digit is read as the value that it writes. -/
lemma Text.digitInBase?_digitChar {base d : Nat} (hbase : base ≤ 16) (hd : d < base) :
    digitInBase? base (Nat.digitChar d) = some d := by
  have hvalue : ∀ d < 16, digitValue? (Nat.digitChar d) = some d := by decide
  simp [digitInBase?, hvalue d (hd.trans_le hbase), Option.filter, hd]

/-- **A numeral gives back the number that it writes.** -/
lemma Text.digits?_toDigits {base : Nat} (hlow : 1 < base) (hhigh : base ≤ 16) (n : Nat) :
    digits? base (Nat.toDigits base n) = some n := by
  induction n using Nat.strongRecOn with
  | ind n ih =>
      rw [Nat.toDigits_eq_if hlow]
      split_ifs with hn
      · simp [digits?, digitInBase?_digitChar hhigh hn]
      · have hrest := ih (n / base) (Nat.div_lt_self (by omega) hlow)
        rw [digits?] at hrest ⊢
        rw [List.foldlM_append, hrest]
        simp [digitInBase?_digitChar hhigh (Nat.mod_lt n (by omega)), Nat.div_add_mod']

/-- No two numbers have the same numeral. -/
lemma Text.toDigits_injective {base : Nat} (hlow : 1 < base) (hhigh : base ≤ 16) :
    Function.Injective (Nat.toDigits base) := by
  intro m n h
  have hread := digits?_toDigits hlow hhigh m
  rw [h, digits?_toDigits hlow hhigh] at hread
  exact (Option.some.inj hread).symm

/-- **An offset is told by how it is shown.** -/
lemma Text.hexOffset_injective : Function.Injective hexOffset := by
  intro m n h
  have hdigits : Nat.toDigits 16 m = Nat.toDigits 16 n := by
    simpa [hexOffset, hex, String.ext_iff] using h
  exact toDigits_injective (by decide) (by decide) hdigits

/-! ## Mnemonics -/

/-- Writing entries into a table one after the other puts each at its place. -/
lemma join_foldl_set {α : Type} (entries : List (Nat × α)) (table : Array (Option α))
    (hnodup : (entries.map Prod.fst).Nodup) (hlt : ∀ entry ∈ entries, entry.1 < table.size)
    (i : Nat) (x : α) :
    ((entries.foldl (fun table entry => table.setIfInBounds entry.1 (some entry.2)) table)[i]?).join
        = some x ↔
      (i, x) ∈ entries ∨ i ∉ entries.map Prod.fst ∧ (table[i]?).join = some x := by
  induction entries generalizing table with
  | nil => simp
  | cons entry entries ih =>
      obtain ⟨hnew, hnodup⟩ := List.nodup_cons.mp hnodup
      obtain ⟨hentry, hlt⟩ := List.forall_mem_cons.mp hlt
      rw [List.foldl_cons, ih _ hnodup (by simpa using hlt), Array.getElem?_setIfInBounds]
      by_cases hi : entry.1 = i
      · subst hi
        have hnone : ∀ y, (entry.1, y) ∉ entries := fun y hy =>
          hnew (List.mem_map.mpr ⟨_, hy, rfl⟩)
        simp [hnone, hnew, hentry, Prod.ext_iff, eq_comm]
      · have hne : (i, x) ≠ entry := fun h => hi (by rw [← h])
        simp [hi, hne, Ne.symm hi]

namespace Opcode

/-- A name as a number, so that names can be put in order. -/
def nameNumber (name : String) : Nat :=
  name.toList.foldl (fun number c => number * 256 + c.toNat) 0

/-- The list of assigned names goes through the bytes in order. -/
lemma assigned_bytes :
    (assigned.map Prod.fst).IsChain (· < ·) ∧ ∀ byte ∈ assigned.map Prod.fst, byte < 256 := by
  decide +kernel

/-- The names are all different, as their numbers show once they are sorted, and each is in upper-case
letters and digits. -/
lemma assigned_names :
    ((assigned.map fun entry => nameNumber entry.2).insertionSort (· ≤ ·)).IsChain (· < ·) ∧
      (assigned.all fun entry => entry.2.toList.all fun c => c.isUpper || c.isDigit) = true := by
  decide +kernel

/-- **The table of mnemonics holds the assigned names**, each at its byte. -/
lemma mnemonic?_eq_some_iff {op : Opcode} {name : String} :
    op.mnemonic? = some name ↔ (op.byte.toNat, name) ∈ assigned := by
  have hnodup : (assigned.map Prod.fst).Nodup :=
    (List.isChain_iff_pairwise.mp assigned_bytes.1).imp fun h => Nat.ne_of_lt h
  rw [mnemonic?, table, join_foldl_set _ _ hnodup]
  · simp [op.byte.toNat_lt]
  · intro entry hentry
    simpa using assigned_bytes.2 _ (List.mem_map_of_mem hentry)

/-- **No two opcodes have the same mnemonic.** -/
lemma eq_of_mnemonic? {a b : Opcode} {name : String} (ha : a.mnemonic? = some name)
    (hb : b.mnemonic? = some name) : a = b := by
  rw [mnemonic?_eq_some_iff] at ha hb
  have hsorted := (List.isChain_iff_pairwise.mp assigned_names.1).imp fun h => Nat.ne_of_lt h
  have hnodup : (assigned.map fun entry => nameNumber entry.2).Nodup :=
    (List.perm_insertionSort (· ≤ ·) _).nodup_iff.mp hsorted
  have hentry := List.inj_on_of_nodup_map hnodup ha hb rfl
  have hbyte : a.byte = b.byte := UInt8.toNat_inj.mp (congrArg Prod.fst hentry)
  cases a
  cases b
  exact congrArg Opcode.mk hbyte

/-- A mnemonic is written in upper-case letters and digits. -/
lemma isUpper_or_isDigit {op : Opcode} {name : String} (h : op.mnemonic? = some name) {c : Char}
    (hc : c ∈ name.toList) : c.isUpper = true ∨ c.isDigit = true := by
  have hall := List.all_eq_true.mp assigned_names.2 _ (mnemonic?_eq_some_iff.mp h)
  exact Bool.or_eq_true_iff.mp (List.all_eq_true.mp hall c hc)

/-! ## Texts -/

/-- The text is the mnemonic, or the byte if there is none.  Everything below goes through this form, because
opening `text` makes the kernel look into the table. -/
lemma text_eq_elim (op : Opcode) :
    op.text = op.mnemonic?.elim (unknownName ++ "(0x" ++ Text.hexPadded 2 op.byte.toNat ++ ")") id := by
  unfold text
  generalize op.mnemonic? = mnemonic
  cases mnemonic <;> rfl

lemma text_of_some {op : Opcode} {name : String} (h : op.mnemonic? = some name) : op.text = name := by
  rw [text_eq_elim, h, Option.elim_some, id]

/-- An unassigned byte is written with its two digits. -/
lemma toList_text_of_none {op : Opcode} (h : op.mnemonic? = none) :
    op.text.toList = "UNKNOWN(0x".toList ++ Hex.digits [op.byte] ++ [')'] := by
  rw [text_eq_elim, h, Option.elim_none, Text.hexPadded_two op.byte.toNat_lt]
  simp [unknownName, Hex.digits, Hex.byteDigits]

/-- **An opcode is spelled in letters, digits and parentheses.** -/
lemma isPlain_of_mem_text {op : Opcode} {c : Char} (h : c ∈ op.text.toList) :
    Text.isPlain c = true := by
  cases hname : op.mnemonic? with
  | some name =>
      rw [text_of_some hname] at h
      rcases isUpper_or_isDigit hname h with hc | hc
      · simp [Text.isPlain, Char.isAlphanum, Char.isAlpha, hc]
      · simp [Text.isPlain, Char.isAlphanum, hc]
  | none =>
      have hunknown : ∀ c ∈ "UNKNOWN(0x".toList ++ [')'], Text.isPlain c = true := by
        simp [Text.isPlain]
      rw [toList_text_of_none hname, List.mem_append, List.mem_append] at h
      rcases h with (h | h) | h
      · exact hunknown c (List.mem_append_left _ h)
      · exact Hex.isPlain_of_mem_digits _ c h
      · exact hunknown c (List.mem_append_right _ h)

/-- The texts of the unassigned bytes are told from mnemonics by their parentheses. -/
lemma mnemonic?_eq_none_iff {op : Opcode} : op.mnemonic? = none ↔ '(' ∈ op.text.toList := by
  cases hname : op.mnemonic? with
  | some name =>
      rw [text_of_some hname]
      simp only [reduceCtorEq, false_iff]
      intro h
      rcases isUpper_or_isDigit hname h with hc | hc <;> simp at hc
  | none => simp [toList_text_of_none hname]

end Opcode

/-! ## Reading -/

/-- The characters of spellings lie between two runs of blanks. -/
lemma Text.isBlank_of_isPlain {c : Char} (h : isPlain c = true) : isBlank c = false := by
  have hrange : 40 ≤ c.toNat ∧ c.toNat ≤ 122 := by
    simp only [isPlain, Char.isAlphanum, Char.isAlpha, Char.isUpper, Char.isLower, Char.isDigit,
      Bool.or_eq_true, Bool.and_eq_true, decide_eq_true_eq, UInt32.le_iff_toNat_le, ge_iff_le] at h
    rcases h with (((h | h) | h) | rfl) | rfl
    · exact ⟨le_trans (by decide) h.1, h.2.trans (by decide)⟩
    · exact ⟨le_trans (by decide) h.1, h.2.trans (by decide)⟩
    · exact ⟨le_trans (by decide) h.1, h.2.trans (by decide)⟩
    · decide
    · decide
  simp only [isBlank, blankRanges, List.any_cons, List.any_nil, Bool.or_eq_false_iff,
    Bool.and_eq_false_iff, decide_eq_false_iff_not, and_true]
  omega

lemma Text.trimFront_eq_self {text : List Char} (h : ∀ c ∈ text, isBlank c = false) :
    trimFront text = text := by
  rw [trimFront, List.dropWhile_eq_self_iff]
  intro hpos
  simp [h]

/-- Trimming leaves a text without blanks alone. -/
lemma Text.trim_eq_self {text : List Char} (h : ∀ c ∈ text, isBlank c = false) :
    trim text = text := by
  rw [trim, trimFront_eq_self h, trimFront_eq_self (by simpa using h), List.reverse_reverse]

namespace Opcode

/-- A mnemonic is in upper case, and it is not a former name of another one. -/
lemma assigned_current : ∀ entry ∈ assigned,
    entry.2.toList.map Char.toUpper = entry.2.toList ∧ currentName entry.2 = entry.2 := by
  decide +kernel

/-- The first place of the table with a mnemonic is the only one. -/
lemma ofMnemonic?_of_mnemonic? {op : Opcode} {name : String} (h : op.mnemonic? = some name) :
    ofMnemonic? name = some op := by
  obtain ⟨hlt, hname⟩ := Array.getElem?_eq_some_iff.mp (Option.join_eq_some_iff.mp h)
  have hfound : table.findIdx? (· = some name) = some op.byte.toNat := by
    refine Array.findIdx?_eq_some_iff_getElem.mpr ⟨hlt, by simpa using hname, fun j hj hfirst => ?_⟩
    have hbyte : (UInt8.ofNat j).toNat = j := UInt8.toNat_ofNat_of_lt' (hj.trans op.byte.toNat_lt)
    have hearlier : (Opcode.mk (UInt8.ofNat j)).mnemonic? = some name := by
      rw [mnemonic?, hbyte, Array.getElem?_eq_getElem (hj.trans hlt), of_decide_eq_true hfirst]
      rfl
    have := congrArg (·.byte.toNat) (eq_of_mnemonic? hearlier h)
    simp only [hbyte] at this
    omega
  simp [ofMnemonic?, hfound]

/-- The numeral of an unassigned byte is found between the parentheses. -/
lemma unknownNumeral?_append (numeral : List Char) :
    unknownNumeral? ("UNKNOWN(0X".toList ++ numeral ++ [')']) = some numeral := by
  simp [unknownNumeral?]

/-- A mnemonic is not taken for a number. -/
lemma unknownNumeral?_eq_none {upper : List Char} (h : '(' ∉ upper) :
    unknownNumeral? upper = none := by
  rw [unknownNumeral?, if_neg]
  intro hopening
  exact h ((List.isPrefixOf_iff_prefix.mp hopening).subset (by decide))

/-- Two digits in upper case are read as their byte, for each of the bytes. -/
lemma unsigned?_digits : ∀ n : Fin 256,
    Text.unsigned? 16 256 ((Hex.digits [UInt8.ofNat n]).map Char.toUpper) = some n.val := by
  decide +kernel

/-- **Every opcode is read from its text.** -/
lemma parse_text (op : Opcode) : parse op.text = .ok op := by
  have htrim : Text.trim op.text.toList = op.text.toList :=
    Text.trim_eq_self fun c hc => Text.isBlank_of_isPlain (isPlain_of_mem_text hc)
  suffices hupper : ofUpper? (op.text.toList.map Char.toUpper) = some op by
    rw [parse, htrim, hupper]
  cases hname : op.mnemonic? with
  | some name =>
      obtain ⟨hupper, hcurrent⟩ := assigned_current _ (mnemonic?_eq_some_iff.mp hname)
      have hplain : '(' ∉ op.text.toList := by
        rw [← mnemonic?_eq_none_iff, hname]
        exact Option.some_ne_none name
      rw [text_of_some hname] at hplain ⊢
      rw [hupper, ofUpper?, unknownNumeral?_eq_none hplain, String.ofList_toList, hcurrent]
      exact ofMnemonic?_of_mnemonic? hname
  | none =>
      have hbyte := unsigned?_digits ⟨op.byte.toNat, op.byte.toNat_lt⟩
      rw [UInt8.ofNat_toNat] at hbyte
      have hopening : "UNKNOWN(0x".toList.map Char.toUpper = "UNKNOWN(0X".toList := by decide
      have hclosing : [')'].map Char.toUpper = [')'] := by decide
      rw [toList_text_of_none hname, List.map_append, List.map_append, hopening, hclosing, ofUpper?,
        unknownNumeral?_append]
      simp [hbyte]

/-- **Every opcode has a text of its own.** -/
lemma text_injective : Function.Injective text := by
  intro a b h
  have hread := parse_text b
  rw [← h, parse_text] at hread
  exact Except.ok.inj hread

end Opcode

/-- **An instruction is written on one line.** -/
lemma Instruction.newline_not_mem_text (i : Instruction) : '\n' ∉ i.text.toList := by
  have hnewline : Text.isPlain '\n' = false := by decide
  have hopcode : '\n' ∉ i.opcode.text.toList :=
    Text.not_mem_of_isPlain (fun _ => Opcode.isPlain_of_mem_text) hnewline
  have hoffset := Text.not_mem_of_isPlain (Text.isPlain_of_mem_hexPadded 6 i.offset) hnewline
  have hoperand := Text.not_mem_of_isPlain (Hex.isPlain_of_mem_digits i.operand) hnewline
  rw [text]
  split_ifs
  · simp [hoffset, hopcode]
  · simp [hoffset, hopcode, hoperand, Text.padRight, operandHex, Hex.encode, List.mem_replicate]

/-! ## Lines -/

/-- Behind the first part, every part has the separator before it. -/
lemma intercalate_cons_eq {α : Type} (sep part : List α) (parts : List (List α)) :
    sep.intercalate (part :: parts) = part ++ parts.flatMap (sep ++ ·) := by
  induction parts generalizing part with
  | nil => simp
  | cons next parts ih => simp [List.intercalate_cons_cons, ih]

namespace Text

/-- The lines of a text.  What stands behind the last line break is a line too, unless it is empty. -/
def lines (text : String) : List String :=
  let pieces := text.toList.splitOn '\n'
  (if pieces.getLast? = some [] then pieces.dropLast else pieces).map String.ofList

/-- The text of lines, each with a line break behind it. -/
def unlines (lines : List String) : String :=
  String.join (lines.map (· ++ "\n"))

/-- Line breaks behind the lines are line breaks between them and an empty last line. -/
lemma toList_unlines (lines : List String) :
    (unlines lines).toList = ['\n'].intercalate (lines.map String.toList ++ [[]]) := by
  induction lines with
  | nil => rfl
  | cons line lines ih =>
      rw [unlines] at ih ⊢
      cases lines <;> simp_all [String.toList_join]

/-- **Lines without line breaks are the lines of their text.** -/
lemma lines_unlines {list : List String} (h : ∀ line ∈ list, '\n' ∉ line.toList) :
    lines (unlines list) = list := by
  have hsplit : (unlines list).toList.splitOn '\n' = list.map String.toList ++ [[]] := by
    rw [toList_unlines]
    refine List.splitOn_intercalate '\n' ?_ (by simp)
    simp only [List.mem_append, List.mem_map, List.mem_singleton]
    rintro _ (⟨line, hline, rfl⟩ | rfl)
    · exact h line hline
    · simp
  simp [lines, hsplit]

end Text

end BytecodeFlow
