import Mathlib
import BytecodeFlow.Error

/-!
# The texts that write bytes

`Hex.parse` trims a text, drops one mark, drops all blanks and reads what is left two digits at a time.
This file says which texts it accepts, and what it complains about in the others, without any of these
steps.

**Digits.**  `halves` are the values that the digits of bytes have.  Reading pairs succeeds on the bytes
of a text exactly if their values are the halves of the result (`decodePairs_eq_ok_iff`), and otherwise
complains about the first byte that is no digit (`decodePairs_cases`).  A character outside ASCII starts
with a byte that is no digit, so a text that is read consists of digits of either case
(`map_nibble?_utf8_iff`).

**Blanks and marks.**  `Reading` splits a text into blanks, a mark and the rest.  Dropping the blanks at
the end changes nothing about the mark, so the digits of a text are the rest without its blanks
(`Reading.significant_eq`).

**Texts.**  `Writes` is the grammar; `parseCode_accepts_exactly` compares the reader with it.
-/

namespace BytecodeFlow.Hex

open Text (isBlank trimFront trim)

/-! ## Digits -/

/-- The values of the digits of bytes, high half first. -/
def halves (bytes : List UInt8) : List UInt8 :=
  bytes.flatMap fun byte => [byte / 16, byte % 16]

/-- The bytes that are hexadecimal digits, of either case. -/
def digitBytes : List UInt8 :=
  utf8 "0123456789abcdefABCDEF".toList

/-- **The first byte that is no digit**, and where it stands. -/
structure FirstBad (code : List UInt8) (byte : UInt8) (position : Nat) : Prop where
  found : code[position]? = some byte
  bad : byte ∉ digitBytes
  before : ∀ x ∈ code.take position, x ∈ digitBytes

/-- A byte is written as its two halves. -/
lemma digits_eq_map_halves (bytes : List UInt8) :
    digits bytes = (halves bytes).map fun value => Nat.digitChar value.toNat := by
  simp only [digits, halves, List.map_flatMap]
  refine congrArg (fun f => List.flatMap f bytes) (funext fun byte => ?_)
  simp [byteDigits]

lemma halves_lt {bytes : List UInt8} : ∀ value ∈ halves bytes, value.toNat < 16 := by
  intro value h
  simp only [halves, List.mem_flatMap, List.mem_cons, List.not_mem_nil, or_false] at h
  obtain ⟨byte, _, rfl | rfl⟩ := h
  · have := byte.toNat_lt
    simp only [UInt8.toNat_div, UInt8.reduceToNat]
    omega
  · simp only [UInt8.toNat_mod, UInt8.reduceToNat]
    omega

lemma length_halves (bytes : List UInt8) : (halves bytes).length = 2 * bytes.length := by
  simp [halves, List.length_flatMap, Nat.mul_comm]

/-- A byte is put together from its halves. -/
lemma mul_add_eq_iff {high low : UInt8} (hhigh : high.toNat < 16) (hlow : low.toNat < 16) (byte : UInt8) :
    high * 16 + low = byte ↔ high = byte / 16 ∧ low = byte % 16 := by
  have := byte.toNat_lt
  simp only [← UInt8.toNat_inj, UInt8.toNat_add, UInt8.toNat_mul, UInt8.toNat_div, UInt8.toNat_mod,
    UInt8.reduceToNat]
  omega

/-- What is no digit has no value. -/
lemma nibble?_eq_none_iff (byte : UInt8) : nibble? byte = none ↔ byte ∉ digitBytes := by
  have hdigits : digitBytes = [48, 49, 50, 51, 52, 53, 54, 55, 56, 57, 97, 98, 99, 100, 101, 102,
      65, 66, 67, 68, 69, 70] := by rfl
  unfold nibble?
  simp only [hdigits, List.mem_cons, List.not_mem_nil, or_false, UInt8.le_iff_toNat_le,
    ← UInt8.toNat_inj, UInt8.reduceToNat]
  split_ifs <;> simp only [true_iff, false_iff] <;> omega

lemma nibble?_lt {byte value : UInt8} (h : nibble? byte = some value) : value.toNat < 16 := by
  unfold nibble? at h
  simp only [UInt8.le_iff_toNat_le, UInt8.reduceToNat] at h
  split_ifs at h <;> cases h <;>
    simp only [UInt8.toNat_add, UInt8.toNat_sub, UInt8.reduceToNat] <;> omega

/-- No byte beyond ASCII is a digit, so that a character of several bytes is bad at its first one. -/
lemma nibble?_eq_none_of_le {byte : UInt8} (h : 128 ≤ byte.toNat) : nibble? byte = none := by
  unfold nibble?
  simp only [UInt8.le_iff_toNat_le, UInt8.reduceToNat]
  rw [if_neg (by omega), if_neg (by omega), if_neg (by omega)]

/-- **Reading pairs gives the bytes whose halves are the values of the digits.** -/
lemma decodePairs_eq_ok_iff (position : Nat) (code bytes : List UInt8) :
    decodePairs position code = .ok bytes ↔ code.map nibble? = (halves bytes).map some := by
  fun_induction decodePairs position code generalizing bytes with
  | case1 => cases bytes <;> simp [halves]
  | case2 => cases bytes <;> simp [halves]
  | case3 position high low rest ih =>
      cases hhigh : nibble? high with
      | none => cases bytes <;> simp [nibble, hhigh, halves, bind, Except.bind]
      | some h =>
          cases hlow : nibble? low with
          | none => cases bytes <;> simp [nibble, hhigh, hlow, halves, bind, Except.bind]
          | some l =>
              cases bytes with
              | nil =>
                  cases decodePairs (position + 2) rest <;>
                    simp [nibble, hhigh, hlow, halves, bind, Except.bind, pure, Except.pure]
              | cons byte bytes =>
                  have hjoin := mul_add_eq_iff (nibble?_lt hhigh) (nibble?_lt hlow) byte
                  have ih := ih bytes
                  cases hrest : decodePairs (position + 2) rest <;>
                    simp_all [nibble, halves, bind, Except.bind, pure, Except.pure, and_assoc]

lemma FirstBad.cons {x byte : UInt8} {code : List UInt8} {position : Nat} (hx : x ∈ digitBytes)
    (h : FirstBad code byte position) : FirstBad (x :: code) byte (position + 1) where
  found := h.found
  bad := h.bad
  before := by simpa using ⟨hx, h.before⟩

/-- The first byte is the first bad one if it is bad. -/
lemma firstBad_head {byte : UInt8} (code : List UInt8) (hbyte : byte ∉ digitBytes) :
    FirstBad (byte :: code) byte 0 :=
  ⟨rfl, hbyte, by simp⟩

/-- **Reading pairs fails at the first byte that is no digit**, where the digits pair up. -/
lemma decodePairs_cases (position : Nat) (code : List UInt8) (heven : code.length % 2 = 0) :
    (∃ bytes, decodePairs position code = .ok bytes) ∨
      ∃ byte i, decodePairs position code = .error (.badDigit byte (position + i)) ∧
        FirstBad code byte i := by
  fun_induction decodePairs position code with
  | case1 => exact Or.inl ⟨[], rfl⟩
  | case2 => simp at heven
  | case3 position high low rest ih =>
      have hdigit : ∀ byte value, nibble? byte = some value → byte ∈ digitBytes := by
        intro byte value hvalue
        by_contra hbad
        simp [(nibble?_eq_none_iff byte).mpr hbad] at hvalue
      cases hhigh : nibble? high with
      | none =>
          refine Or.inr ⟨high, 0, ?_, firstBad_head _ ((nibble?_eq_none_iff high).mp hhigh)⟩
          simp [nibble, hhigh, bind, Except.bind]
      | some h =>
          have hhead := hdigit high h hhigh
          cases hlow : nibble? low with
          | none =>
              refine Or.inr ⟨low, 1, ?_,
                (firstBad_head _ ((nibble?_eq_none_iff low).mp hlow)).cons hhead⟩
              simp [nibble, hhigh, hlow, bind, Except.bind]
          | some l =>
              rcases ih (by simp only [List.length_cons] at heven; omega) with ⟨bytes, hrest⟩ | ⟨byte, i, hrest, hbad⟩
              · refine Or.inl ⟨(h * 16 + l) :: bytes, ?_⟩
                simp [nibble, hhigh, hlow, hrest, bind, Except.bind, pure, Except.pure]
              · refine Or.inr ⟨byte, i + 2, ?_, (hbad.cons (hdigit low l hlow)).cons hhead⟩
                simp [nibble, hhigh, hlow, hrest, bind, Except.bind, Nat.add_assoc, Nat.add_comm 2 i]

/-! ## Characters -/

/-- Digits of different values are different. -/
lemma digitChar_inj : ∀ v < 16, ∀ w < 16, Nat.digitChar v = Nat.digitChar w → v = w := by
  decide

/-- What an ASCII character is read as is, written again, the character in lower case. -/
lemma map_nibble?_ascii : ∀ n : Fin 128,
    (nibble? (UInt8.ofNat n)).map (fun value => Nat.digitChar value.toNat)
      = (some (Char.ofNat n).toLower).filter (· ∈ (List.range 16).map Nat.digitChar) := by
  decide +kernel

/-- **A digit is read in either case.** -/
lemma nibble?_ascii_iff {c : Char} (hc : c.toNat < 128) {value : UInt8} (hvalue : value.toNat < 16) :
    nibble? (UInt8.ofNat c.toNat) = some value ↔ c.toLower = Nat.digitChar value.toNat := by
  have hmap := map_nibble?_ascii ⟨c.toNat, hc⟩
  simp only [Char.ofNat_toNat] at hmap
  constructor
  · intro h
    rw [h, Option.map_some, eq_comm, Option.filter_eq_some_iff] at hmap
    exact Option.some.inj hmap.1
  · intro h
    have hmem : Nat.digitChar value.toNat ∈ (List.range 16).map Nat.digitChar :=
      List.mem_map_of_mem (List.mem_range.mpr hvalue)
    rw [h, Option.filter_some_pos (by simpa using hmem), Option.map_eq_some_iff] at hmap
    obtain ⟨w, hw, heq⟩ := hmap
    rw [hw, UInt8.toNat_inj.mp (digitChar_inj _ (nibble?_lt hw) _ hvalue heq)]

/-- An ASCII character is one byte. -/
lemma utf8EncodeChar_of_le {c : Char} (hc : c.toNat ≤ 127) :
    String.utf8EncodeChar c = [UInt8.ofNat c.toNat] := by
  simp only [String.utf8EncodeChar]
  exact if_pos hc

/-- A character outside ASCII starts with a byte that is no digit. -/
lemma utf8EncodeChar_of_lt {c : Char} (hc : 127 < c.toNat) :
    ∃ first rest, String.utf8EncodeChar c = first :: rest ∧ nibble? first = none := by
  have hbyte : ∀ n, 128 ≤ n → n < 256 → nibble? (UInt8.ofNat n) = none := by
    intro n hge hlt
    refine nibble?_eq_none_of_le ?_
    rw [UInt8.toNat_ofNat_of_lt' hlt]
    exact hge
  have hnot : ¬c.val.toNat ≤ 127 := Nat.not_le.mpr hc
  simp only [String.utf8EncodeChar, if_neg hnot]
  split_ifs
  · exact ⟨_, _, rfl, hbyte _ (by omega) (by omega)⟩
  · exact ⟨_, _, rfl, hbyte _ (by omega) (by omega)⟩
  · exact ⟨_, _, rfl, hbyte _ (by omega) (by omega)⟩

lemma digitChar_le : ∀ v < 16, (Nat.digitChar v).toNat ≤ 127 := by
  decide

lemma toLower_of_lt {c : Char} (hc : 127 < c.toNat) : c.toLower = c := by
  have hnot : ¬c.val.toNat ≤ 90 := by
    have : c.val.toNat = c.toNat := rfl
    omega
  rw [Char.toLower, dif_neg]
  rintro ⟨_, hle⟩
  exact hnot hle

/-- **A text is read as values exactly if it is, in lower case, their digits.** -/
lemma map_nibble?_utf8_iff (text : List Char) {values : List UInt8}
    (hvalues : ∀ value ∈ values, value.toNat < 16) :
    (utf8 text).map nibble? = values.map some ↔
      text.map Char.toLower = values.map fun value => Nat.digitChar value.toNat := by
  induction text generalizing values with
  | nil => cases values <;> simp [utf8]
  | cons c text ih =>
      have hutf8 : utf8 (c :: text) = String.utf8EncodeChar c ++ utf8 text := List.flatMap_cons
      rcases Nat.lt_or_ge 127 c.toNat with hc | hc
      · obtain ⟨first, rest, hchar, hfirst⟩ := utf8EncodeChar_of_lt hc
        cases values with
        | nil => simp [hutf8, hchar]
        | cons value values =>
            have hne : c ≠ Nat.digitChar value.toNat := by
              intro h
              have := digitChar_le value.toNat (hvalues value List.mem_cons_self)
              rw [← h] at this
              omega
            simp [hutf8, hchar, hfirst, toLower_of_lt hc, hne]
      · cases values with
        | nil => simp [hutf8, utf8EncodeChar_of_le hc]
        | cons value values =>
            obtain ⟨hvalue, hvalues⟩ := List.forall_mem_cons.mp hvalues
            simp [hutf8, utf8EncodeChar_of_le hc, nibble?_ascii_iff (Nat.lt_succ_of_le hc) hvalue,
              ih hvalues]

/-- **Digits are decoded to the bytes that they write**, in either case. -/
lemma decode_eq_ok_iff (text : List Char) (bytes : List UInt8) :
    decode text = .ok bytes ↔ text.map Char.toLower = digits bytes := by
  rw [digits_eq_map_halves, ← map_nibble?_utf8_iff text halves_lt, ← decodePairs_eq_ok_iff 0, decode]
  refine ⟨fun h => ?_, fun h => ?_⟩
  · split_ifs at h
    exact h
  · have hlength := congrArg List.length ((decodePairs_eq_ok_iff 0 _ _).mp h)
    rw [List.length_map, List.length_map, length_halves] at hlength
    rw [if_neg (by omega), h]

/-! ## Blanks and marks -/

/-- The marks that may stand in front of the digits; the first is none. -/
def marks : List (List Char) := [[], ['0', 'x'], ['0', 'X']]

/-- A text without its blanks. -/
def unblanked (text : List Char) : List Char :=
  text.filter fun c => !isBlank c

/-- **How a text is split into blanks, a mark and the rest.**  A mark that stands behind the blanks is
read as one. -/
structure Reading (text front mark body : List Char) : Prop where
  text_eq : text = front ++ mark ++ body
  blank : ∀ c ∈ front, isBlank c = true
  mark_mem : mark ∈ marks
  marked : mark = [] → ∀ m ∈ marks, m ≠ [] → ¬m <+: body.dropWhile isBlank

/-- **The texts that write bytes**: blanks, a mark or none, and the digits of the bytes in either case
with blanks anywhere among them. -/
def Writes (text : List Char) (bytes : List UInt8) : Prop :=
  ∃ front mark body, text = front ++ mark ++ body ∧ (∀ c ∈ front, isBlank c = true) ∧
    mark ∈ marks ∧ (unblanked body).map Char.toLower = digits bytes

lemma unblanked_eq_nil {text : List Char} (h : ∀ c ∈ text, isBlank c = true) : unblanked text = [] := by
  rw [unblanked, List.filter_eq_nil_iff]
  intro c hc
  simp [h c hc]

/-- Blanks in front are dropped twice over. -/
lemma unblanked_trimFront (text : List Char) : unblanked (trimFront text) = unblanked text := by
  induction text with
  | nil => rfl
  | cons c text ih =>
      by_cases hc : isBlank c
      · simpa [trimFront, unblanked, hc] using ih
      · simp [trimFront, unblanked, hc]

lemma trimFront_append {front body : List Char} (hfront : ∀ c ∈ front, isBlank c = true) :
    trimFront (front ++ body) = trimFront body := by
  rw [trimFront, List.dropWhile_append_of_pos hfront, trimFront]

/-- Trimming takes blanks off the end of a text without blanks at its front. -/
lemma exists_trim_append (text : List Char) :
    ∃ tail, trimFront text = trim text ++ tail ∧ ∀ c ∈ tail, isBlank c = true := by
  refine ⟨((trimFront text).reverse.takeWhile isBlank).reverse, ?_, fun c hc => ?_⟩
  · have hsplit : (trimFront text).reverse.takeWhile isBlank ++ trimFront (trimFront text).reverse
        = (trimFront text).reverse := List.takeWhile_append_dropWhile
    rw [trim, ← List.reverse_append, hsplit, List.reverse_reverse]
  · exact List.mem_takeWhile_imp (List.mem_reverse.mp hc)

/-- Without a mark nothing is dropped. -/
lemma dropMark_of_unmarked {text : List Char} (h : ∀ m ∈ marks, m ≠ [] → ¬m <+: text) :
    dropMark text = text := by
  unfold dropMark
  split
  · exact absurd (List.prefix_append ['0', 'x'] _) (h _ (by decide) (by decide))
  · exact absurd (List.prefix_append ['0', 'X'] _) (h _ (by decide) (by decide))
  · rfl

lemma eq_of_mem_marks {m : List Char} (hm : m ∈ marks) : m = [] ∨ m = ['0', 'x'] ∨ m = ['0', 'X'] := by
  simpa [marks] using hm

lemma isBlank_of_mem_marks {m : List Char} {c : Char} (hm : m ∈ marks) (hc : c ∈ m) :
    isBlank c = false := by
  have hall : ∀ c ∈ ['0', 'x', 'X'], isBlank c = false := by
    simp [isBlank, Text.blankRanges]
  refine hall c ?_
  rcases eq_of_mem_marks hm with rfl | rfl | rfl
  · simp at hc
  · exact (by simp : ['0', 'x'] ⊆ ['0', 'x', 'X']) hc
  · exact (by simp : ['0', 'X'] ⊆ ['0', 'x', 'X']) hc

/-- No blank is part of a mark, so blanks at the end of a text do not matter to it. -/
lemma dropMark_append {text tail : List Char} (htail : ∀ c ∈ tail, isBlank c = true) :
    dropMark (text ++ tail) = dropMark text ++ tail := by
  by_cases hmark : ∃ m ∈ marks, m ≠ [] ∧ m <+: text
  · obtain ⟨m, hm, hne, rest, rfl⟩ := hmark
    rcases eq_of_mem_marks hm with rfl | rfl | rfl
    · exact absurd rfl hne
    · rfl
    · rfl
  · push Not at hmark
    rw [dropMark_of_unmarked hmark, dropMark_of_unmarked]
    intro m hm hne hinit
    rcases List.prefix_or_prefix_of_prefix hinit (List.prefix_append text tail) with hm' | ⟨s, rfl⟩
    · exact hmark m hm hne hm'
    · -- the mark would reach into the blanks
      obtain ⟨c, s, rfl⟩ : ∃ c s', s = c :: s' := by
        refine List.exists_cons_of_ne_nil ?_
        rintro rfl
        exact hmark _ hm hne (by simp)
      have hblank := htail c (((List.prefix_append_right_inj text).mp hinit).subset List.mem_cons_self)
      rw [isBlank_of_mem_marks hm (by simp)] at hblank
      exact Bool.false_ne_true hblank

/-- What is left is the body without its blanks, however the text was cut. -/
lemma Reading.significant_eq {text front mark body : List Char} (h : Reading text front mark body) :
    significant text = unblanked body := by
  obtain ⟨tail, htrim, htail⟩ := exists_trim_append text
  have hbody : unblanked (dropMark (trimFront text)) = significant text := by
    rw [htrim, dropMark_append htail, unblanked, List.filter_append, ← unblanked, ← unblanked,
      unblanked_eq_nil htail, List.append_nil]
    rfl
  rw [← hbody, h.text_eq, List.append_assoc, trimFront_append h.blank]
  rcases eq_of_mem_marks h.mark_mem with rfl | rfl | rfl
  · rw [List.nil_append, (dropMark_of_unmarked (h.marked rfl) : dropMark (trimFront body) = _),
      unblanked_trimFront]
  · rfl
  · rfl

/-- Every text can be cut into blanks, a mark or none, and a body. -/
lemma exists_reading (text : List Char) : ∃ front mark body, Reading text front mark body := by
  have hsplit := List.takeWhile_append_dropWhile (p := isBlank) (l := text)
  have hblank : ∀ c ∈ text.takeWhile isBlank, isBlank c = true := fun c => List.mem_takeWhile_imp
  by_cases hmark : ∃ m ∈ marks, m ≠ [] ∧ m <+: text.dropWhile isBlank
  · obtain ⟨m, hm, hne, body, hbody⟩ := hmark
    refine ⟨_, m, body, ?_, hblank, hm, fun h => absurd h hne⟩
    rw [List.append_assoc, hbody, hsplit]
  · push Not at hmark
    refine ⟨_, [], text.dropWhile isBlank, ?_, hblank, List.mem_cons_self, fun _ m hm hne => ?_⟩
    · rw [List.append_nil, hsplit]
    · rw [List.dropWhile_idempotent]
      exact hmark m hm hne

/-! ## Texts -/

/-- No mark can be read where only digits and blanks stand. -/
lemma not_prefix_of_digits {body m : List Char} {bytes : List UInt8}
    (hbody : (unblanked body).map Char.toLower = digits bytes) (hm : m ∈ marks) (hne : m ≠ []) :
    ¬m <+: body.dropWhile isBlank := by
  intro hinit
  obtain ⟨x, hx, hdigit⟩ : ∃ x ∈ m, ∀ v < 16, x.toLower ≠ Nat.digitChar v := by
    rcases eq_of_mem_marks hm with rfl | rfl | rfl
    · exact absurd rfl hne
    · exact ⟨'x', by simp, by decide⟩
    · exact ⟨'X', by simp, by decide⟩
  have hmem : x ∈ body := (List.dropWhile_sublist isBlank).subset (hinit.subset hx)
  have hlower : x.toLower ∈ digits bytes := by
    rw [← hbody]
    exact List.mem_map_of_mem (List.mem_filter.mpr ⟨hmem, by simp [isBlank_of_mem_marks hm hx]⟩)
  rw [digits_eq_map_halves, List.mem_map] at hlower
  obtain ⟨value, hvalue, heq⟩ := hlower
  exact hdigit _ (halves_lt value hvalue) heq.symm

/-- **A text is read as the bytes that it writes.** -/
lemma parse_eq_ok_iff (text : String) (bytes : List UInt8) :
    parse text = .ok bytes ↔ Writes text.toList bytes := by
  rw [parse, decode_eq_ok_iff]
  constructor
  · intro h
    obtain ⟨front, mark, body, hread⟩ := exists_reading text.toList
    rw [hread.significant_eq] at h
    exact ⟨front, mark, body, hread.text_eq, hread.blank, hread.mark_mem, h⟩
  · rintro ⟨front, mark, body, heq, hblank, hmark, hbody⟩
    have hread : Reading text.toList front mark body :=
      ⟨heq, hblank, hmark, fun _ m hm hne => not_prefix_of_digits hbody hm hne⟩
    rw [hread.significant_eq, hbody]

/-- **The reader accepts exactly the texts that write bytes**, and gives back the bytes.  It refuses the
others for an odd number of bytes behind the mark and without blanks, and otherwise for the first of these
bytes that is no digit. -/
theorem parseCode_accepts_exactly (text : String) :
    (∀ bytes, parseCode text = .ok bytes ↔ Writes text.toList bytes) ∧
      (∃ front mark body, Reading text.toList front mark body) ∧
      ∀ front mark body, Reading text.toList front mark body →
        (∀ bytes, ¬Writes text.toList bytes) →
          if (utf8 (unblanked body)).length % 2 = 1 then
            parseCode text = .error (.invalidHex .oddLength)
          else
            ∃ byte position, FirstBad (utf8 (unblanked body)) byte position ∧
              parseCode text = .error (.invalidHex (.badDigit byte position)) := by
  have hok : ∀ bytes, parseCode text = .ok bytes ↔ Writes text.toList bytes := by
    intro bytes
    rw [← parse_eq_ok_iff, parseCode]
    cases parse text <;> simp [Except.mapError]
  refine ⟨hok, exists_reading text.toList, fun front mark body hread hnot => ?_⟩
  have hparse : parse text = decode (unblanked body) := by
    rw [parse, hread.significant_eq]
  split_ifs with hodd
  · rw [parseCode, hparse, decode, if_pos hodd]
    rfl
  · rw [decode, if_neg hodd] at hparse
    rcases decodePairs_cases 0 _ (Nat.mod_two_ne_one.mp hodd) with ⟨bytes, hbytes⟩ | ⟨byte, i, herror, hbad⟩
    · exact absurd ((parse_eq_ok_iff text bytes).mp (hparse.trans hbytes)) (hnot bytes)
    · refine ⟨byte, i, hbad, ?_⟩
      rw [parseCode, hparse, herror, Nat.zero_add]
      rfl

/-- A mark may stand behind blanks and digits may have blanks between them.  A second mark is no mark: its
letter is the first byte that is no digit. -/
theorem parseCode_accepts_exactly_marks :
    Writes " 0X6 0\n0A".toList [0x60, 0x0a] ∧ parseCode " 0X6 0\n0A" = .ok [0x60, 0x0a] ∧
      Reading "0x0x60".toList [] "0x".toList "0x60".toList ∧
      ∃ byte position, FirstBad (utf8 (unblanked "0x60".toList)) byte position ∧
        parseCode "0x0x60" = .error (.invalidHex (.badDigit byte position)) := by
  have hwrites : Writes " 0X6 0\n0A".toList [0x60, 0x0a] :=
    ⟨[' '], "0X".toList, "6 0\n0A".toList, by simp, by simp [isBlank, Text.blankRanges], by decide, by cbv⟩
  have hread : Reading "0x0x60".toList [] "0x".toList "0x60".toList :=
    ⟨by decide, by simp, by decide, by decide⟩
  have hrun : (parseCode "0x0x60").toOption = none := by cbv
  have hnot : ∀ bytes, ¬Writes "0x0x60".toList bytes := by
    intro bytes h
    rw [((parseCode_accepts_exactly "0x0x60").1 bytes).mpr h] at hrun
    cases hrun
  have hbad := (parseCode_accepts_exactly "0x0x60").2.2 _ _ _ hread hnot
  rw [if_neg (by decide +kernel)] at hbad
  exact ⟨hwrites, ((parseCode_accepts_exactly _).1 _).mpr hwrites, hread, hbad⟩

end BytecodeFlow.Hex
