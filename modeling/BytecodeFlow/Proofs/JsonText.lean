import Mathlib
import BytecodeFlow.Json.Basic
import BytecodeFlow.Proofs.Spelling

/-!
# A JSON text stands for one value

Two values without decimals that are written the same are the same (`compact_injective`,
`pretty_injective`), and one line is written without line breaks (`newline_not_mem_compact`).

**Texts and numbers.**  A quoted text is read character by character (`readChar?`), so it tells where it
ends.  A number does not: what is behind it must not start with a digit (`EndsNumber`).

**Lists.**  Both ways of writing put the parts of an array or object between brackets, with commas and
perhaps gaps (`enclosed`).  The parts can be told apart as long as the brackets cannot be taken for the
start of a part (`Clear.enclosed_inj`).

**Values.**  `IsWriter` says what the two ways of writing have in common.  The first character of a text
gives the kind of the value (`mark`), and the rest goes by induction on the value (`IsWriter.separates`).
-/

namespace BytecodeFlow.Json

/-! ## Quoted texts -/

/-- The character that the front of a quoted text stands for, and the rest of it. -/
def readChar? : List Char → Option (Char × List Char)
  | '\x5c' :: 'u' :: _ :: _ :: high :: low :: rest =>
    (Text.digits? 16 [high, low]).map fun n => (Char.ofNat n, rest)
  | '\x5c' :: c :: rest =>
    ([('\x22', '\x22'), ('\x5c', '\x5c'), ('b', '\x08'), ('f', '\x0c'), ('n', '\n'), ('r', '\r'),
      ('t', '\t')].lookup c).map fun d => (d, rest)
  | c :: rest => some (c, rest)
  | [] => none

/-- A character below 256 is escaped with two zeros and its two digits. -/
lemma toList_hexPadded_four {n : Nat} (h : n < 256) :
    (Text.hexPadded 4 n).toList = ['0', '0', Nat.digitChar (n / 16), Nat.digitChar (n % 16)] := by
  rw [Text.hexPadded, String.toList_ofList, Nat.toDigits_eq_if (by decide)]
  split_ifs with hn
  · rw [Nat.div_eq_of_lt hn, Nat.mod_eq_of_lt hn]
    rfl
  · rw [Nat.toDigits_of_lt_base (by omega)]
    rfl

/-- **A character is read from what is written for it.** -/
lemma readChar?_escapeChar (c : Char) (rest : List Char) :
    readChar? (escapeChar c ++ rest) = some (c, rest) := by
  unfold escapeChar
  split_ifs with h₁ h₂ h₃ h₄ h₅ h₆ h₇ h₈
  · subst h₁; rfl
  · subst h₂; rfl
  · subst h₃; rfl
  · subst h₄; rfl
  · subst h₅; rfl
  · subst h₆; rfl
  · subst h₇; rfl
  · have hdigit : ∀ d < 16, Text.digitInBase? 16 (Nat.digitChar d) = some d := fun d hd =>
      Text.digitInBase?_digitChar (Nat.le_refl 16) hd
    have hread : Text.digits? 16 [Nat.digitChar (c.toNat / 16), Nat.digitChar (c.toNat % 16)]
        = some c.toNat := by
      simp [Text.digits?, hdigit (c.toNat / 16) (by omega), hdigit (c.toNat % 16) (by omega),
        Nat.div_add_mod']
    rw [toList_hexPadded_four (by omega)]
    simp [readChar?, hread]
  · simp [readChar?, h₂]

lemma escapeChar_append_inj {c d : Char} {r s : List Char}
    (h : escapeChar c ++ r = escapeChar d ++ s) : c = d ∧ r = s := by
  have hread := readChar?_escapeChar c r
  rw [h, readChar?_escapeChar] at hread
  simpa [eq_comm] using hread

/-- The closing quotation mark is not part of the text. -/
lemma escapeChar_append_ne (c : Char) (r s : List Char) : escapeChar c ++ r ≠ '\x22' :: s := by
  intro h
  have hread := readChar?_escapeChar c r
  rw [h] at hread
  obtain ⟨rfl, rfl⟩ : '\x22' = c ∧ s = r := by simpa [readChar?] using hread
  simp [escapeChar] at h

/-- **A quoted string is told from what stands behind it.** -/
lemma quote_append_inj {a b : String} {r s : List Char}
    (h : (quote a).toList ++ r = (quote b).toList ++ s) : a = b ∧ r = s := by
  have hlists : ∀ v w : List Char,
      v.flatMap escapeChar ++ '\x22' :: r = w.flatMap escapeChar ++ '\x22' :: s → v = w ∧ r = s := by
    intro v
    induction v with
    | nil =>
        rintro (_ | ⟨d, w⟩) h
        · simpa using h
        · rw [List.flatMap_cons, List.append_assoc] at h
          exact absurd h.symm (escapeChar_append_ne d _ _)
    | cons c v ih =>
        rintro (_ | ⟨d, w⟩) h
        · rw [List.flatMap_cons, List.append_assoc] at h
          exact absurd h (escapeChar_append_ne c _ _)
        · simp only [List.flatMap_cons, List.append_assoc] at h
          obtain ⟨rfl, hrest⟩ := escapeChar_append_inj h
          obtain ⟨rfl, hrs⟩ := ih w hrest
          exact ⟨rfl, hrs⟩
  simp only [quote, String.toList_ofList, List.cons_append, List.append_assoc, List.nil_append,
    List.cons.injEq, true_and] at h
  obtain ⟨hab, hrs⟩ := hlists _ _ h
  exact ⟨String.toList_injective hab, hrs⟩

/-- A line break inside a string is escaped. -/
lemma newline_not_mem_quote (text : String) : '\n' ∉ (quote text).toList := by
  have hdigit : ∀ d < 16, '\n' ≠ Nat.digitChar d := by decide
  have hescape : ∀ c, '\n' ∉ escapeChar c := by
    intro c
    unfold escapeChar
    split_ifs with h₁ h₂ h₃ h₄ h₅ h₆ h₇ h₈
    all_goals try simp
    · rw [toList_hexPadded_four (by omega)]
      simp [hdigit (c.toNat / 16) (by omega), hdigit (c.toNat % 16) (by omega)]
    · exact fun h => h₅ h.symm
  simp [quote, hescape]

/-! ## Numbers -/

/-- Whether a text cannot be the rest of a number: it does not start with a digit. -/
def EndsNumber (text : List Char) : Prop :=
  ∀ c ∈ text.head?, c.isDigit = false

lemma endsNumber_cons {c : Char} (h : c.isDigit = false) (r : List Char) : EndsNumber (c :: r) := by
  simpa [EndsNumber] using h

/-- A number ends where no digit follows. -/
lemma takeWhile_isDigit (n : Nat) {r : List Char} (hr : EndsNumber r) :
    (Nat.toDigits 10 n ++ r).takeWhile Char.isDigit = Nat.toDigits 10 n := by
  have hdigits : ∀ c ∈ Nat.toDigits 10 n, c.isDigit = true := fun c =>
    Nat.isDigit_of_mem_toDigits (by decide) (by decide)
  rw [List.takeWhile_append_of_pos hdigits]
  cases r with
  | nil => simp
  | cons c r => simp [hr c rfl]

/-- A number without a sign is told from what stands behind it. -/
lemma toDigits_append_inj {m n : Nat} {r s : List Char} (hr : EndsNumber r) (hs : EndsNumber s)
    (h : Nat.toDigits 10 m ++ r = Nat.toDigits 10 n ++ s) : m = n ∧ r = s := by
  have hdigits : Nat.toDigits 10 m = Nat.toDigits 10 n := by
    rw [← takeWhile_isDigit m hr, h, takeWhile_isDigit n hs]
  refine ⟨Text.toDigits_injective (by decide) (by decide) hdigits, ?_⟩
  rw [hdigits] at h
  exact List.append_cancel_left h

/-- A number starts with a digit. -/
lemma exists_toDigits_eq_cons (n : Nat) : ∃ c t, Nat.toDigits 10 n = c :: t ∧ c.isDigit = true := by
  obtain ⟨c, t, h⟩ := List.exists_cons_of_ne_nil (Nat.toDigits_ne_nil (b := 10) (n := n))
  exact ⟨c, t, h, Nat.isDigit_of_mem_toDigits (b := 10) (n := n) (by decide) (by decide) (by simp [h])⟩

lemma toList_integer (z : Int) : (toString z).toList =
    if z < 0 then '-' :: Nat.toDigits 10 z.natAbs else Nat.toDigits 10 z.natAbs := by
  cases z with
  | ofNat n => simp [toString, Int.repr, Nat.repr]
  | negSucc n => simp [toString, Int.repr, Nat.repr, Int.negSucc_lt_zero]

/-- A number with a sign is told from what stands behind it, too. -/
lemma integer_append_inj {y z : Int} {r s : List Char} (hr : EndsNumber r) (hs : EndsNumber s)
    (h : (toString y).toList ++ r = (toString z).toList ++ s) : y = z ∧ r = s := by
  have hminus : ∀ n t u, Nat.toDigits 10 n ++ t ≠ '-' :: u := by
    intro n t u h
    obtain ⟨c, v, hc, hdigit⟩ := exists_toDigits_eq_cons n
    rw [hc] at h
    obtain ⟨rfl, -⟩ := List.cons.inj h
    simp at hdigit
  rw [toList_integer, toList_integer] at h
  split_ifs at h with hy hz hz
  · obtain ⟨habs, hrs⟩ := toDigits_append_inj hr hs (List.cons.inj h).2
    exact ⟨by omega, hrs⟩
  · exact absurd h.symm (hminus _ _ _)
  · exact absurd h (hminus _ _ _)
  · obtain ⟨habs, hrs⟩ := toDigits_append_inj hr hs h
    exact ⟨by omega, hrs⟩

/-! ## Lists between brackets -/

/-- Parts between brackets, with a gap before each part and another one before the closing bracket.
Without parts there are no gaps. -/
def enclosed (opening closing : Char) (inner outer : List Char) (parts : List (List Char)) :
    List Char :=
  if parts.isEmpty then [opening, closing]
  else opening :: inner ++ (',' :: inner).intercalate parts ++ outer ++ [closing]

/-- The first part stands without a comma, and every other part behind one. -/
lemma enclosed_cons (opening closing : Char) (inner outer part : List Char)
    (parts : List (List Char)) :
    enclosed opening closing inner outer (part :: parts) =
      opening :: (inner ++ (part ++ (parts.flatMap (',' :: inner ++ ·) ++ (outer ++ [closing])))) := by
  simp [enclosed, intercalate_cons_eq]

section Enclosed

variable {α : Type} {write : α → List Char} {p : α → Prop} {opening closing : Char}
  {inner outer r s : List Char}

/-- Whether what is written for a value can be told from what is written for any other one with a
property, in front of anything that is not the rest of a number. -/
def Separates (write : α → List Char) (p : α → Prop) (x : α) : Prop :=
  ∀ y, p y → ∀ r s, EndsNumber r → EndsNumber s → write x ++ r = write y ++ s → x = y ∧ r = s

/-- **Whether a closing bracket and gaps keep clear of the parts.** -/
structure Clear (write : α → List Char) (p : α → Prop) (closing : Char) (inner outer : List Char) :
    Prop where
  closing_ne : closing ≠ ',' ∧ closing.isDigit = false
  inner_ne : closing ∉ inner
  outer_ne : ∀ c ∈ outer, c ≠ ',' ∧ c.isDigit = false
  start : ∀ x, p x → ∃ c rest, write x = c :: rest ∧ c ≠ closing

namespace Clear

lemma endsNumber (h : Clear write p closing inner outer) (r : List Char) :
    EndsNumber (outer ++ closing :: r) := by
  cases outer with
  | nil => exact endsNumber_cons h.closing_ne.2 r
  | cons c outer => exact endsNumber_cons (h.outer_ne c List.mem_cons_self).2 _

lemma ne_comma (h : Clear write p closing inner outer) (r t : List Char) :
    outer ++ closing :: r ≠ ',' :: t := by
  cases outer with
  | nil => simp [h.closing_ne.1]
  | cons c outer => simp [(h.outer_ne c List.mem_cons_self).1]

/-- An empty list goes on with the closing bracket, any other with a gap or a part. -/
lemma closing_cons_ne (h : Clear write p closing inner outer) {x : α} (hx : p x) (r s : List Char) :
    closing :: r ≠ inner ++ (write x ++ s) := by
  obtain ⟨c, rest, hc, hne⟩ := h.start x hx
  cases hinner : inner with
  | nil => simp [hc, hne.symm]
  | cons d inner' =>
      have : closing ≠ d := fun hd => h.inner_ne (by simp [hinner, hd])
      simp [this]

/-- The parts behind the first one. -/
lemma more_inj (h : Clear write p closing inner outer) {xs ys : List α}
    (hxs : ∀ x ∈ xs, Separates write p x) (hys : ∀ y ∈ ys, p y)
    (heq : (xs.map write).flatMap (',' :: inner ++ ·) ++ (outer ++ closing :: r) =
      (ys.map write).flatMap (',' :: inner ++ ·) ++ (outer ++ closing :: s)) : xs = ys ∧ r = s := by
  have hends : ∀ (zs : List α) t,
      EndsNumber ((zs.map write).flatMap (',' :: inner ++ ·) ++ (outer ++ closing :: t)) := by
    rintro (_ | ⟨z, zs⟩) t
    · exact h.endsNumber t
    · exact endsNumber_cons (by decide) _
  induction xs generalizing ys with
  | nil =>
      cases ys with
      | nil => exact ⟨rfl, by simpa using heq⟩
      | cons y ys => exact absurd heq (h.ne_comma _ _)
  | cons x xs ih =>
      cases ys with
      | nil => exact absurd heq.symm (h.ne_comma _ _)
      | cons y ys =>
          simp only [List.map_cons, List.flatMap_cons, List.cons_append, List.append_assoc,
            List.cons.injEq, true_and, List.append_cancel_left_eq] at heq
          obtain ⟨hx, hmore⟩ := List.forall_mem_cons.mp hxs
          obtain ⟨hy, hmore'⟩ := List.forall_mem_cons.mp hys
          obtain ⟨rfl, hrest⟩ := hx y hy _ _ (hends xs r) (hends ys s) heq
          obtain ⟨rfl, hrs⟩ := ih hmore hmore' hrest
          exact ⟨rfl, hrs⟩

/-- **A list between brackets determines its items and where it ends.** -/
lemma enclosed_inj (h : Clear write p closing inner outer) {xs ys : List α}
    (hxs : ∀ x ∈ xs, Separates write p x) (hp : ∀ x ∈ xs, p x) (hys : ∀ y ∈ ys, p y)
    (heq : enclosed opening closing inner outer (xs.map write) ++ r =
      enclosed opening closing inner outer (ys.map write) ++ s) : xs = ys ∧ r = s := by
  cases xs with
  | nil =>
      cases ys with
      | nil => exact ⟨rfl, by simpa [enclosed] using heq⟩
      | cons y ys =>
          rw [List.map_cons, enclosed_cons, List.cons_append, List.append_assoc, List.append_assoc] at heq
          exact absurd (List.cons.inj heq).2 (h.closing_cons_ne (hys y List.mem_cons_self) _ _)
  | cons x xs =>
      cases ys with
      | nil =>
          rw [List.map_cons, enclosed_cons, List.cons_append, List.append_assoc, List.append_assoc] at heq
          exact absurd (List.cons.inj heq).2.symm (h.closing_cons_ne (hp x List.mem_cons_self) _ _)
      | cons y ys =>
          -- Behind the gap, the lists read as if each part had a comma before it.
          refine h.more_inj hxs hys ?_
          simpa [enclosed_cons] using heq

end Clear

/-- Neither brackets nor commas bring in other characters. -/
lemma not_mem_enclosed {c : Char} {parts : List (List Char)}
    (hbrackets : c ≠ opening ∧ c ≠ closing ∧ c ≠ ',') (hparts : ∀ part ∈ parts, c ∉ part) :
    c ∉ enclosed opening closing [] [] parts := by
  cases parts with
  | nil => simp [enclosed, hbrackets]
  | cons part parts =>
      rw [enclosed_cons]
      simp only [List.mem_cons, forall_eq_or_imp] at hparts
      simpa [hbrackets, hparts.1] using hparts.2

end Enclosed

/-! ## Values -/

/-- **Whether a value holds no decimal.** -/
inductive Whole : Json → Prop
  | null : Whole .null
  | bool (value : Bool) : Whole (.bool value)
  | integer (value : Int) : Whole (.integer value)
  | string (value : String) : Whole (.string value)
  | array {items : List Json} (h : ∀ item ∈ items, Whole item) : Whole (.array items)
  | object {members : List (String × Json)} (h : ∀ member ∈ members, Whole member.2) :
      Whole (.object members)

attribute [simp] Whole.null Whole.bool Whole.integer Whole.string

@[simp] lemma whole_nat (n : Nat) : Whole (.nat n) :=
  .integer n

@[simp] lemma whole_array_iff {items : List Json} : Whole (.array items) ↔ ∀ item ∈ items, Whole item :=
  ⟨fun | .array h => h, .array⟩

@[simp] lemma whole_object_iff {members : List (String × Json)} :
    Whole (.object members) ↔ ∀ member ∈ members, Whole member.2 :=
  ⟨fun | .object h => h, .object⟩

/-- The first character of what is written for a value, with `0` for all numbers and `t` for both truth
values. -/
def mark : Json → Char
  | .null => 'n'
  | .bool _ => 't'
  | .integer _ => '0'
  | .decimal _ => '.'
  | .string _ => '\x22'
  | .array _ => '['
  | .object _ => '\x7b'

/-- The mark that the first character of a text gives. -/
def markOf (c : Char) : Char :=
  if c.isDigit || c = '-' then '0' else if c = 'f' then 't' else c

/-- The text of a member of an object. -/
def memberText (colon : List Char) (write : Json → List Char) (member : String × Json) : List Char :=
  (quote member.1).toList ++ (colon ++ write member.2)

/-- **What the ways of writing a value have in common**, with the gaps in front of the parts of each level
and what is between the name of a member and its value as parameters. -/
structure IsWriter (gap : Nat → List Char) (colon : List Char) (write : Nat → Json → List Char) :
    Prop where
  null : ∀ level, write level .null = "null".toList
  bool : ∀ level b, write level (.bool b) = if b then "true".toList else "false".toList
  integer : ∀ level z, write level (.integer z) = (toString z).toList
  string : ∀ level text, write level (.string text) = (quote text).toList
  array : ∀ level items, write level (.array items) =
    enclosed '[' ']' (gap (level + 1)) (gap level) (items.map (write (level + 1)))
  object : ∀ level members, write level (.object members) =
    enclosed '\x7b' '\x7d' (gap (level + 1)) (gap level)
      (members.map (memberText colon (write (level + 1))))
  gap_blank : ∀ level, ∀ c ∈ gap level, c = '\n' ∨ c = ' '

namespace IsWriter

variable {gap : Nat → List Char} {colon : List Char} {write : Nat → Json → List Char}

/-- **The first character tells the kind of a value.** -/
lemma exists_eq_cons (hw : IsWriter gap colon write) (level : Nat) {v : Json} (hv : Whole v) :
    ∃ c rest, write level v = c :: rest ∧ markOf c = v.mark := by
  have henclosed : ∀ opening closing inner outer parts,
      ∃ rest, enclosed opening closing inner outer parts = opening :: rest := by
    intro opening closing inner outer parts
    cases parts with
    | nil => exact ⟨_, rfl⟩
    | cons part parts => exact ⟨_, enclosed_cons ..⟩
  cases hv with
  | null => exact ⟨'n', _, hw.null level, rfl⟩
  | bool b =>
      cases b with
      | false => exact ⟨'f', _, hw.bool level false, rfl⟩
      | true => exact ⟨'t', _, hw.bool level true, rfl⟩
  | integer z =>
      obtain ⟨c, rest, hc, hdigit⟩ := exists_toDigits_eq_cons z.natAbs
      rw [hw.integer, toList_integer, hc]
      split_ifs
      · exact ⟨'-', _, rfl, rfl⟩
      · exact ⟨c, rest, rfl, by simp [markOf, hdigit, mark]⟩
  | string text => exact ⟨'\x22', _, by rw [hw.string, quote, String.toList_ofList]; rfl, rfl⟩
  | array h =>
      obtain ⟨rest, hrest⟩ := henclosed '[' ']' _ _ _
      exact ⟨'[', rest, (hw.array level _).trans hrest, rfl⟩
  | object h =>
      obtain ⟨rest, hrest⟩ := henclosed '\x7b' '\x7d' _ _ _
      exact ⟨'\x7b', rest, (hw.object level _).trans hrest, rfl⟩

/-- Values that are written the same are of one kind. -/
lemma mark_eq (hw : IsWriter gap colon write) (level : Nat) {a b : Json} (ha : Whole a)
    (hb : Whole b) {r s : List Char} (h : write level a ++ r = write level b ++ s) :
    a.mark = b.mark := by
  obtain ⟨c, v, hc, hcmark⟩ := hw.exists_eq_cons level ha
  obtain ⟨d, w, hd, hdmark⟩ := hw.exists_eq_cons level hb
  rw [hc, hd] at h
  rw [← hcmark, ← hdmark, (List.cons.inj h).1]

/-- Blanks do not look like the next part or the rest of a number. -/
lemma gap_ne (hw : IsWriter gap colon write) {level : Nat} {c : Char} (hc : c ∈ gap level) :
    c ≠ ',' ∧ c.isDigit = false := by
  obtain rfl | rfl := hw.gap_blank level c hc <;> decide

/-- The items of an array, and the members of an object, stand clear of each other. -/
lemma clear_items (hw : IsWriter gap colon write) (level : Nat) :
    Clear (write (level + 1)) Whole ']' (gap (level + 1)) (gap level) where
  closing_ne := by decide
  inner_ne hmem := by simpa using hw.gap_blank _ _ hmem
  outer_ne _ hc := hw.gap_ne hc
  start v hv := by
    obtain ⟨c, rest, hc, hmark⟩ := hw.exists_eq_cons (level + 1) hv
    refine ⟨c, rest, hc, ?_⟩
    rintro rfl
    cases hv <;> simp [markOf, mark] at hmark

lemma clear_members (hw : IsWriter gap colon write) (level : Nat) :
    Clear (memberText colon (write (level + 1))) (fun member => Whole member.2) '\x7d'
      (gap (level + 1)) (gap level) where
  closing_ne := by decide
  inner_ne hmem := by simpa using hw.gap_blank _ _ hmem
  outer_ne _ hc := hw.gap_ne hc
  start member _ := ⟨'\x22', _, by rw [memberText, quote, String.toList_ofList]; rfl, by decide⟩

/-- A member is told by its name and its value. -/
lemma separates_member (level : Nat) {member : String × Json}
    (h : Separates (write level) Whole member.2) :
    Separates (memberText colon (write level)) (fun member => Whole member.2) member := by
  obtain ⟨key, v⟩ := member
  rintro ⟨key', w⟩ hw r s hr hs heq
  simp only [memberText, List.append_assoc] at heq
  obtain ⟨rfl, hvalue⟩ := quote_append_inj heq
  obtain ⟨rfl, hrs⟩ := h w hw r s hr hs (List.append_cancel_left hvalue)
  exact ⟨rfl, hrs⟩

/-- **What is written for a value determines it**, wherever it ends. -/
lemma separates (hw : IsWriter gap colon write) {a : Json} (ha : Whole a) (level : Nat) :
    Separates (write level) Whole a := by
  -- The marks agree, so only values of one kind are left to compare.
  induction ha generalizing level with
  | null =>
      intro b hb r s hr hs h
      have hmark := hw.mark_eq level .null hb h
      cases hb with
      | null => exact ⟨rfl, List.append_cancel_left h⟩
      | _ => simp [mark] at hmark
  | bool v =>
      intro b hb r s hr hs h
      have hmark := hw.mark_eq level (.bool v) hb h
      cases hb with
      | bool w =>
          rw [hw.bool, hw.bool] at h
          cases v <;> cases w <;> simp_all
      | _ => simp [mark] at hmark
  | integer y =>
      intro b hb r s hr hs h
      have hmark := hw.mark_eq level (.integer y) hb h
      cases hb with
      | integer z =>
          rw [hw.integer, hw.integer] at h
          obtain ⟨rfl, hrs⟩ := integer_append_inj hr hs h
          exact ⟨rfl, hrs⟩
      | _ => simp [mark] at hmark
  | string v =>
      intro b hb r s hr hs h
      have hmark := hw.mark_eq level (.string v) hb h
      cases hb with
      | string w =>
          rw [hw.string, hw.string] at h
          obtain ⟨rfl, hrs⟩ := quote_append_inj h
          exact ⟨rfl, hrs⟩
      | _ => simp [mark] at hmark
  | array hitems ih =>
      intro b hb r s hr hs h
      have hmark := hw.mark_eq level (.array hitems) hb h
      cases hb with
      | array hitems' =>
          rw [hw.array, hw.array] at h
          obtain ⟨rfl, hrs⟩ := (hw.clear_items level).enclosed_inj
            (fun item hitem => ih item hitem (level + 1)) hitems hitems' h
          exact ⟨rfl, hrs⟩
      | _ => simp [mark] at hmark
  | object hmembers ih =>
      intro b hb r s hr hs h
      have hmark := hw.mark_eq level (.object hmembers) hb h
      cases hb with
      | object hmembers' =>
          rw [hw.object, hw.object] at h
          obtain ⟨rfl, hrs⟩ := (hw.clear_members level).enclosed_inj
            (fun member hmem => separates_member (level + 1) (ih member hmem (level + 1))) hmembers hmembers' h
          exact ⟨rfl, hrs⟩
      | _ => simp [mark] at hmark

/-- **No two whole values are written the same.** -/
lemma injective (hw : IsWriter gap colon write) (level : Nat) {a b : Json} (ha : Whole a)
    (hb : Whole b) (h : write level a = write level b) : a = b :=
  (hw.separates ha level b hb [] [] (by simp [EndsNumber]) (by simp [EndsNumber]) (by rw [h])).1

end IsWriter

lemma compactItems_eq_map (items : List Json) : compactItems items = items.map compact := by
  induction items with
  | nil => rfl
  | cons item items ih => rw [compactItems, ih, List.map_cons]

lemma compactMembers_eq_map (members : List (String × Json)) :
    compactMembers members = members.map fun member => quote member.1 ++ ":" ++ member.2.compact := by
  induction members with
  | nil => rfl
  | cons member members ih => rw [compactMembers, ih, List.map_cons]

lemma prettyItems_eq_map (level : Nat) (items : List Json) :
    prettyItems level items = items.map (prettyAt level) := by
  induction items with
  | nil => rfl
  | cons item items ih => rw [prettyItems, ih, List.map_cons]

lemma prettyMembers_eq_map (level : Nat) (members : List (String × Json)) :
    prettyMembers level members =
      members.map fun member => quote member.1 ++ ": " ++ member.2.prettyAt level := by
  induction members with
  | nil => rfl
  | cons member members ih => rw [prettyMembers, ih, List.map_cons]

lemma toList_enclose (opening closing : Char) (level : Nat) (parts : List String) :
    (enclose opening.toString closing.toString level parts).toList =
      enclosed opening closing (newline (level + 1)).toList (newline level).toList
        (parts.map String.toList) := by
  cases parts with
  | nil => simp [enclose, enclosed]
  | cons part parts => simp [enclose, enclosed, String.toList_intercalate]

lemma toList_brackets (opening closing : Char) (parts : List String) :
    (opening.toString ++ String.intercalate "," parts ++ closing.toString).toList =
      enclosed opening closing [] [] (parts.map String.toList) := by
  cases parts with
  | nil => simp [enclosed]
  | cons part parts => simp [enclosed, String.toList_intercalate]

/-- Values on one line are written in this way. -/
lemma isWriter_compact : IsWriter (fun _ => []) [':'] fun _ v => v.compact.toList where
  null _ := by rw [compact]
  bool _ b := by cases b <;> rw [compact] <;> rfl
  integer _ z := by rw [compact]
  string _ text := by rw [compact]
  array _ items := by
    rw [compact, compactItems_eq_map]
    exact (toList_brackets '[' ']' _).trans (by simp [Function.comp_def])
  object _ members := by
    rw [compact, compactMembers_eq_map]
    exact (toList_brackets '\x7b' '\x7d' _).trans (by simp [Function.comp_def]; rfl)
  gap_blank _ _ hc := absurd hc List.not_mem_nil

/-- Values on lines that are indented are written in this way. -/
lemma isWriter_pretty :
    IsWriter (fun level => (newline level).toList) [':', ' '] fun level v => (v.prettyAt level).toList where
  null _ := by rw [prettyAt]
  bool _ b := by cases b <;> rw [prettyAt] <;> rfl
  integer _ z := by rw [prettyAt]
  string _ text := by rw [prettyAt]
  array level items := by
    rw [prettyAt, prettyItems_eq_map]
    exact (toList_enclose '[' ']' level _).trans (by simp [Function.comp_def])
  object level members := by
    rw [prettyAt, prettyMembers_eq_map]
    exact (toList_enclose '\x7b' '\x7d' level _).trans (by simp [Function.comp_def]; rfl)
  gap_blank level c hc := by
    rw [newline, String.toList_ofList, List.mem_cons] at hc
    exact hc.imp_right List.eq_of_mem_replicate

/-- **A text on one line stands for one value.** -/
lemma compact_injective {a b : Json} (ha : Whole a) (hb : Whole b) (h : a.compact = b.compact) : a = b :=
  isWriter_compact.injective 0 ha hb (congrArg String.toList h)

/-- **So does a text over several lines.** -/
lemma pretty_injective {a b : Json} (ha : Whole a) (hb : Whole b) (h : a.pretty = b.pretty) : a = b :=
  isWriter_pretty.injective 0 ha hb (congrArg String.toList h)

/-- **A text on one line has no line breaks.** -/
lemma newline_not_mem_compact {v : Json} (hv : Whole v) : '\n' ∉ v.compact.toList := by
  induction hv with
  | null => simp [compact]
  | bool b => cases b <;> simp [compact]
  | integer z =>
      have hdigits : ∀ n, '\n' ∉ Nat.toDigits 10 n := fun n h =>
        absurd (Nat.isDigit_of_mem_toDigits (b := 10) (by decide) (by decide) h) (by decide)
      rw [isWriter_compact.integer 0 z, toList_integer]
      split_ifs <;> simp [hdigits]
  | string text =>
      rw [isWriter_compact.string 0 text]
      exact newline_not_mem_quote text
  | array hitems ih =>
      rw [isWriter_compact.array 0]
      exact not_mem_enclosed (by decide) (by simpa using ih)
  | object hmembers ih =>
      rw [isWriter_compact.object 0]
      refine not_mem_enclosed (by decide) ?_
      simp only [List.forall_mem_map, memberText, List.mem_append, not_or]
      exact fun member hmem => ⟨newline_not_mem_quote member.1, by decide, ih member hmem⟩

end BytecodeFlow.Json
