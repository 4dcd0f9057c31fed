/-
  BehaviorTree.Proofs.ReadBack: what is printed is read back.

  Texts, numbers and documents are read back from their own printing, whatever follows them
  (`readValue_printChars`), if the document has a reading at all: every text is one, and numbers
  are written with digits and no idle zero (`Plain`). What follows a number has to end it
  (`Ends`). The reader's step limit is twice the length, which is enough for the nesting.
-/

import Mathlib.Data.List.TakeDrop
import BehaviorTree.Json.Printer
import BehaviorTree.Json.Reader

namespace BehaviorTree

namespace Json

/-! ## Texts -/

/-- How the printer writes a character: by its number if that is the only way, else as a character. -/
def pieceOf (c : Char) : Piece :=
  if c.toNat < 0x20 ∧ c ∉ ['\x08', '\x0c', '\n', '\r', '\t'] then .unit c.toNat else .char c

theorem hexValue?_hexDigit (n : Nat) : hexValue? (hexDigit n) = some (n % 16) := by
  have digits : ∀ k < 16, hexValue? (Nat.digitChar k) = some k := by decide
  exact digits (n % 16) (Nat.mod_lt n (by decide))

theorem readPieces_escape (c : Char) (cs : List Char) :
    readPieces (escape c ++ cs) = (readPieces cs).map fun (pieces, rest) => (pieceOf c :: pieces, rest) := by
  unfold escape
  split
  case h_8 =>
    split
    case isTrue control =>
      have piece : pieceOf c = .unit c.toNat := by
        refine if_pos ⟨control, ?_⟩
        simp only [List.mem_cons, List.not_mem_nil, or_false, not_or]
        exact ⟨‹_›, ‹_›, ‹_›, ‹_›, ‹_›⟩
      have unit : c.toNat / 16 % 16 * 16 + c.toNat % 16 = c.toNat := by omega
      have zero : hexValue? '0' = some 0 := rfl
      simp only [List.cons_append, List.nil_append, readPieces, zero, hexValue?_hexDigit, piece]
      cases readPieces cs <;> simp [unit]
    case isFalse printable =>
      have piece : pieceOf c = .char c := if_neg fun control => printable control.1
      rw [List.singleton_append, readPieces, if_neg printable, piece]
      · cases readPieces cs <;> rfl
      -- the quote and the backslash have cases of their own
      all_goals grind
  all_goals
    simp [readPieces, pieceOf, escaped?]
    cases readPieces cs <;> rfl

theorem readPieces_escapes (s rest : List Char) :
    readPieces (s.flatMap escape ++ '"' :: rest) = some (s.map pieceOf, rest) := by
  induction s with
  | nil => rfl
  | cons c s ih => rw [List.flatMap_cons, List.append_assoc, readPieces_escape, ih]; rfl

theorem charsOf_char (c : Char) (pieces : List Piece) :
    charsOf (.char c :: pieces) = (c :: ·) <$> charsOf pieces := rfl

theorem charsOf_unit {n : Nat} (small : n < 0xD800) (pieces : List Piece) :
    charsOf (.unit n :: pieces) = (Char.ofNat n :: ·) <$> charsOf pieces := by
  have notHigh : isHighSurrogate n = false := by simp [isHighSurrogate]; omega
  have notLow : isLowSurrogate n = false := by simp [isLowSurrogate]; omega
  match pieces with
  | [] => simp [charsOf, notHigh, notLow]
  | .char _ :: _ => simp [charsOf, notHigh, notLow]
  | .unit m :: pieces =>
    rw [charsOf]
    simp [notHigh, notLow]

theorem charsOf_pieces (s : List Char) : charsOf (s.map pieceOf) = some s := by
  induction s with
  | nil => rfl
  | cons c s ih =>
    rw [List.map_cons, pieceOf]
    split
    case isTrue control =>
      rw [charsOf_unit (by omega), ih, Char.ofNat_toNat]
      rfl
    case isFalse => rw [charsOf_char, ih]; rfl

/-- A text is read back from its own printing, after the opening quote. -/
theorem readText_escapes (s : String) (rest : List Char) :
    readText (s.toList.flatMap escape ++ '"' :: rest) = some (some s, rest) := by
  rw [readText, readPieces_escapes]
  simp [charsOf_pieces]

/-! ## Numbers -/

/-- What follows a number and is no part of it. -/
def Ends (rest : List Char) : Prop := ∀ c ∈ rest.head?, c.isDigit = false ∧ c ≠ '.' ∧ c ≠ 'e' ∧ c ≠ 'E'

end Json

/-- A number is written as the reader accepts it: with digits, at least one before the point and in
the exponent, and no zero before other digits. -/
structure Numeral.Wellformed (n : Numeral) : Prop where
  whole : n.whole ≠ [] ∧ ∀ c ∈ n.whole, c.isDigit = true
  lead : n.whole.head? = some '0' → n.whole = ['0']
  fraction : ∀ c ∈ n.fraction, c.isDigit = true
  exponent : ∀ power ∈ n.exponent, power.2 ≠ [] ∧ ∀ c ∈ power.2, c.isDigit = true

namespace Json

theorem readDigits_append {digits rest : List Char} (some' : digits ≠ []) (all : ∀ c ∈ digits, c.isDigit = true)
    (stop : ∀ c ∈ rest.head?, c.isDigit = false) : readDigits (digits ++ rest) = some (digits, rest) := by
  have stopped : rest.takeWhile Char.isDigit = [] ∧ rest.dropWhile Char.isDigit = rest := by
    cases rest with
    | nil => exact ⟨rfl, rfl⟩
    | cons c rest => simp [stop c rfl]
  have found : (digits ++ rest).span Char.isDigit = (digits, rest) := by
    rw [List.span_eq_takeWhile_dropWhile, List.takeWhile_append_of_pos all, List.dropWhile_append_of_pos all,
      stopped.1, stopped.2, List.append_nil]
  rw [readDigits, found]
  split
  case h_1 empty => exact absurd (Prod.mk.inj empty).1 some'
  case h_2 => rfl

variable {n : Numeral} {rest : List Char}

/-- The digits after the point as they are printed, with the point. -/
def printFraction (fraction : List Char) : List Char := if fraction.isEmpty then [] else '.' :: fraction

/-- The exponent as it is printed, with its letter. -/
def printPower : Option (Bool × List Char) → List Char
  | none => []
  | some (negative, digits) => 'e' :: (if negative then ['-'] else []) ++ digits

theorem printNumeral_eq (n : Numeral) : printNumeral n =
    (if n.negative then ['-'] else []) ++ (n.whole ++ (printFraction n.fraction ++ printPower n.exponent)) := by
  rw [printNumeral, printFraction, List.append_assoc, List.append_assoc]
  cases n.exponent <;> rfl

theorem readPower_digits {digits : List Char} (nonempty : digits ≠ [])
    (all : ∀ c ∈ digits, c.isDigit = true) (stop : ∀ c ∈ rest.head?, c.isDigit = false) :
    readPower (digits ++ rest) = some ((false, digits), rest) := by
  have read := readDigits_append nonempty all stop
  obtain ⟨c, digits, rfl⟩ := List.exists_cons_of_ne_nil nonempty
  have digit := all c List.mem_cons_self
  rw [List.cons_append, readPower, ← List.cons_append, read]
  · rfl
  · rintro _ ⟨rfl, -⟩
    exact absurd digit (by decide)
  · rintro _ ⟨rfl, -⟩
    exact absurd digit (by decide)

theorem readExponent_print {power : Option (Bool × List Char)}
    (good : ∀ p ∈ power, p.2 ≠ [] ∧ ∀ c ∈ p.2, c.isDigit = true) (ends : Ends rest) :
    readExponent (printPower power ++ rest) = some (power, rest) := by
  have stop := fun c hc => (ends c hc).1
  match power with
  | none =>
    match rest with
    | [] => rfl
    | c :: rest =>
      have ⟨_, _, small, large⟩ := ends c rfl
      rw [printPower, List.nil_append, readExponent]
      all_goals grind
  | some (true, digits) =>
    have ⟨nonempty, all⟩ := good _ rfl
    simp [printPower, readExponent, readPower, readDigits_append nonempty all stop]
  | some (false, digits) =>
    have ⟨nonempty, all⟩ := good _ rfl
    simp [printPower, readExponent, readPower_digits nonempty all stop]

theorem readFraction_print {fraction : List Char} (all : ∀ c ∈ fraction, c.isDigit = true)
    (stop : ∀ c ∈ rest.head?, c.isDigit = false ∧ c ≠ '.') :
    readFraction (printFraction fraction ++ rest) = some (fraction, rest) := by
  match fraction with
  | [] =>
    match rest with
    | [] => rfl
    | c :: rest =>
      rw [printFraction, if_pos List.isEmpty_nil, List.nil_append, readFraction]
      have := (stop c rfl).2
      grind
  | c :: fraction =>
    rw [printFraction, if_neg (by simp), List.cons_append, readFraction]
    exact readDigits_append (List.cons_ne_nil _ _) all fun c hc => (stop c hc).1

theorem readWhole_append (good : n.Wellformed) (stop : ∀ c ∈ rest.head?, c.isDigit = false) :
    readWhole (n.whole ++ rest) = some (n.whole, rest) := by
  have read := readDigits_append good.whole.1 good.whole.2 stop
  by_cases zero : n.whole.head? = some '0'
  case pos => rw [good.lead zero]; rfl
  case neg =>
    obtain ⟨c, digits, whole⟩ := List.exists_cons_of_ne_nil good.whole.1
    rw [whole] at zero read ⊢
    rw [List.cons_append, readWhole, ← List.cons_append, read]
    rintro _ ⟨rfl, -⟩
    exact zero rfl

/-- A digit begins neither the fraction nor the exponent. -/
theorem printPower_head (power : Option (Bool × List Char)) (ends : Ends rest) :
    ∀ c ∈ (printPower power ++ rest).head?, c.isDigit = false ∧ c ≠ '.' := by
  match power with
  | none => exact fun c hc => ⟨(ends c hc).1, (ends c hc).2.1⟩
  | some _ => rintro c ⟨⟩; decide

theorem printFraction_head (fraction : List Char) (power : Option (Bool × List Char)) (ends : Ends rest) :
    ∀ c ∈ (printFraction fraction ++ (printPower power ++ rest)).head?, c.isDigit = false := by
  match fraction with
  | [] => exact fun c hc => (printPower_head power ends c hc).1
  | _ :: _ => rintro c ⟨⟩; decide

theorem readUnsigned_print (good : n.Wellformed) (ends : Ends rest) :
    readUnsigned n.negative (n.whole ++ (printFraction n.fraction ++ (printPower n.exponent ++ rest))) =
      some (n, rest) := by
  rw [readUnsigned, readWhole_append good (printFraction_head _ _ ends)]
  simp only [Option.bind_eq_bind, Option.bind_some]
  rw [readFraction_print good.fraction (printPower_head _ ends)]
  simp only [Option.bind_some]
  rw [readExponent_print good.exponent ends]
  rfl

/-- A number is read back from its own printing, if it ends there. -/
theorem readNumeral_print (good : n.Wellformed) (ends : Ends rest) :
    readNumeral (printNumeral n ++ rest) = some (n, rest) := by
  have read := readUnsigned_print good ends
  rw [printNumeral_eq, List.append_assoc, List.append_assoc, List.append_assoc]
  cases sign : n.negative with
  | true =>
    rw [sign] at read
    exact read
  | false =>
    obtain ⟨c, digits, whole⟩ := List.exists_cons_of_ne_nil good.whole.1
    have digit := good.whole.2 c (whole ▸ List.mem_cons_self)
    rw [sign, whole] at read
    rw [whole]
    refine Eq.trans ?_ read
    rw [if_neg Bool.false_ne_true, List.nil_append, List.cons_append, readNumeral]
    rintro _ ⟨rfl, -⟩
    exact absurd digit (by decide)

/-! ## Documents -/

/-- A document that has a reading: its texts and keys are texts, and its numbers are written well. -/
inductive Plain : Json → Prop where
  | null : Plain .null
  | bool (b : Bool) : Plain (.bool b)
  | number {n : Numeral} (good : n.Wellformed) : Plain (.number n)
  | text (s : String) : Plain (.text (some s))
  | list {items : List Json} (all : ∀ item ∈ items, Plain item) : Plain (.list items)
  | object {members : List (Option String × Json)} (keys : ∀ member ∈ members, member.1.isSome = true)
    (all : ∀ member ∈ members, Plain member.2) : Plain (.object members)

/-- A document is read back from its printing, in twice as many steps as that is long. -/
def ReadBack (j : Json) : Prop :=
  ∀ steps rest, 2 * (printChars j).length ≤ steps → Ends rest →
    readValue steps (printChars j ++ rest) = some (j, rest)

theorem printChars_number (n : Numeral) : printChars (.number n) = printNumeral n := rfl

theorem printChars_text (s : String) : printChars (.text (some s)) = '"' :: (s.toList.flatMap escape ++ ['"']) := rfl

theorem printChars_list (items : List Json) : printChars (.list items) = '[' :: (printItems items ++ [']']) := rfl

theorem printChars_object (members : List (Option String × Json)) :
    printChars (.object members) = '\x7b' :: (printMembers members ++ ['\x7d']) := rfl

/-- Neither a blank nor the end of a list. -/
def Begins (c : Char) : Prop := isBlank c = false ∧ c ≠ ']'

theorem begins_digit {c : Char} (digit : c.isDigit = true) : Begins c := by
  constructor
  · simp only [isBlank, Bool.or_eq_false_iff, decide_eq_false_iff_not]
    refine ⟨⟨⟨?_, ?_⟩, ?_⟩, ?_⟩ <;> rintro rfl <;> exact absurd digit (by decide)
  · rintro rfl
    exact absurd digit (by decide)

theorem printNumeral_begins (good : n.Wellformed) :
    ∃ c cs, printNumeral n = c :: cs ∧ (c = '-' ∨ c.isDigit = true) := by
  obtain ⟨c, digits, whole⟩ := List.exists_cons_of_ne_nil good.whole.1
  have digit := good.whole.2 c (whole ▸ List.mem_cons_self)
  rw [printNumeral_eq, whole]
  cases n.negative with
  | true => exact ⟨_, _, rfl, .inl rfl⟩
  | false => exact ⟨_, _, rfl, .inr digit⟩

theorem printChars_begins {j : Json} (plain : Plain j) : ∃ c cs, printChars j = c :: cs ∧ Begins c := by
  cases plain with
  | null => exact ⟨_, _, rfl, by decide, by decide⟩
  | bool b => cases b <;> exact ⟨_, _, rfl, by decide, by decide⟩
  | text s => exact ⟨_, _, printChars_text s, by decide, by decide⟩
  | list => exact ⟨_, _, printChars_list _, by decide, by decide⟩
  | object => exact ⟨_, _, printChars_object _, by decide, by decide⟩
  | number good =>
    obtain ⟨c, cs, print, rfl | digit⟩ := printNumeral_begins good
    · exact ⟨_, _, print, by decide, by decide⟩
    · exact ⟨_, _, print, begins_digit digit⟩

theorem skipBlanks_cons {c : Char} (solid : isBlank c = false) (cs : List Char) : skipBlanks (c :: cs) = c :: cs := by
  rw [skipBlanks, List.dropWhile_cons, solid]
  rfl

/-- A document that is printed takes a step to read. -/
theorem exists_step {j : Json} {steps : Nat} (plain : Plain j) (long : 2 * (printChars j).length ≤ steps) :
    ∃ k, steps = k + 1 := by
  obtain ⟨c, cs, print, -⟩ := printChars_begins plain
  rw [print, List.length_cons] at long
  exact ⟨steps - 1, by omega⟩

variable {steps : Nat}

theorem readValue_quote : readValue (steps + 1) ('"' :: rest) =
    (readText rest).bind fun (s, rest) => some (text s, rest) := rfl

/-- What is no blank and begins no other document begins a number. -/
theorem readValue_numeral {c : Char} (solid : isBlank c = false) (lead : c = '-' ∨ c.isDigit = true) (cs : List Char) :
    readValue (steps + 1) (c :: cs) = (readNumeral (c :: cs)).bind fun (n, rest) => some (number n, rest) := by
  rw [readValue, skipBlanks_cons solid]
  split
  case h_7 => rfl
  all_goals
    rename_i clash
    obtain rfl := (List.cons.inj clash).1
    exact absurd lead (by decide)

theorem readValue_bracket {c : Char} (begins : Begins c) (cs : List Char) :
    readValue (steps + 1) ('[' :: c :: cs) =
      (readItems steps (c :: cs)).bind fun (items, rest) => some (list items, rest) := by
  rw [readValue, skipBlanks_cons rfl]
  simp only [skipBlanks_cons begins.1]
  split
  case h_1 clash => exact absurd (List.cons.inj clash).1 begins.2
  case h_2 => rfl

theorem readValue_brace (cs : List Char) : readValue (steps + 1) ('\x7b' :: '"' :: cs) =
    (readMembers steps ('"' :: cs)).bind fun (members, rest) => some (object members, rest) := rfl

theorem readBack_null : ReadBack .null := by
  intro steps rest long _
  obtain ⟨steps, rfl⟩ := exists_step .null long
  rfl

theorem readBack_bool (b : Bool) : ReadBack (.bool b) := by
  intro steps rest long _
  obtain ⟨steps, rfl⟩ := exists_step (.bool b) long
  cases b <;> rfl

theorem readBack_text (s : String) : ReadBack (.text (some s)) := by
  intro steps rest long _
  obtain ⟨steps, rfl⟩ := exists_step (.text s) long
  rw [printChars_text, List.cons_append, List.append_assoc, List.singleton_append, readValue_quote, readText_escapes]
  rfl

theorem readBack_number (good : n.Wellformed) : ReadBack (.number n) := by
  intro steps rest long ends
  have read := readNumeral_print good ends
  obtain ⟨c, cs, print, lead⟩ := printNumeral_begins good
  obtain ⟨steps, rfl⟩ := exists_step (.number good) long
  rw [print, List.cons_append] at read
  have solid : isBlank c = false := lead.elim (fun h => h ▸ by decide) fun digit => (begins_digit digit).1
  rw [printChars_number, print, List.cons_append, readValue_numeral solid lead, read]
  rfl

theorem ends_cons {c : Char} (mark : c = ',' ∨ c = ']' ∨ c = '\x7d') (cs : List Char) : Ends (c :: cs) := by
  rintro _ ⟨⟩
  obtain rfl | rfl | rfl := mark <;> decide

theorem printItems_cons (item next : Json) (items : List Json) :
    printItems (item :: next :: items) = printChars item ++ ',' :: printItems (next :: items) := rfl

theorem readItems_print {items : List Json} (nonempty : items ≠ []) (all : ∀ item ∈ items, ReadBack item) :
    ∀ steps, 2 * (printItems items).length + 1 ≤ steps →
      readItems steps (printItems items ++ ']' :: rest) = some (items, rest) := by
  induction items with
  | nil => exact absurd rfl nonempty
  | cons item items ih =>
    intro steps long
    obtain ⟨steps, rfl⟩ : ∃ k, steps = k + 1 := ⟨steps - 1, by omega⟩
    match items with
    | [] =>
      change 2 * (printChars item).length + 1 ≤ steps + 1 at long
      change readItems (steps + 1) (printChars item ++ ']' :: rest) = _
      rw [readItems, all item List.mem_cons_self _ _ (by omega) (ends_cons (.inr (.inl rfl)) rest)]
      rfl
    | next :: items =>
      rw [printItems_cons, List.length_append, List.length_cons] at long
      have first := all item List.mem_cons_self steps _ (by omega)
        (ends_cons (.inl rfl) (printItems (next :: items) ++ ']' :: rest))
      have others := ih (List.cons_ne_nil _ _) (fun i hi => all i (List.mem_cons_of_mem _ hi)) steps (by omega)
      rw [printItems_cons, List.append_assoc, List.cons_append, readItems, first]
      simp [skipBlanks_cons (c := ',') (by decide), others]

theorem readBack_list {items : List Json} (plain : ∀ item ∈ items, Plain item)
    (all : ∀ item ∈ items, ReadBack item) : ReadBack (.list items) := by
  intro steps rest long _
  rw [printChars_list, List.length_cons, List.length_append] at long
  obtain ⟨steps, rfl⟩ : ∃ k, steps = k + 1 := ⟨steps - 1, by omega⟩
  rw [printChars_list, List.cons_append, List.append_assoc, List.singleton_append]
  match items with
  | [] => rfl
  | item :: items =>
    have read : readItems steps (printItems (item :: items) ++ ']' :: rest) = some (item :: items, rest) :=
      readItems_print (List.cons_ne_nil item items) all steps (by simp at long; omega)
    obtain ⟨c, cs, print, begins⟩ : ∃ c cs, printItems (item :: items) = c :: cs ∧ Begins c := by
      obtain ⟨c, cs, print, begins⟩ := printChars_begins (plain item List.mem_cons_self)
      cases items with
      | nil => exact ⟨c, cs, print, begins⟩
      | cons => exact ⟨c, _, by rw [printItems_cons, print, List.cons_append], begins⟩
    rw [print, List.cons_append] at read ⊢
    rw [readValue_bracket begins, read]
    rfl

/-- A member of an object as it is printed. -/
def printMember (key : String) (value : Json) : List Char := printText key ++ ':' :: printChars value

theorem printMembers_cons (key : String) (value : Json) (next : Option String × Json)
    (members : List (Option String × Json)) :
    printMembers ((some key, value) :: next :: members) =
      printMember key value ++ ',' :: printMembers (next :: members) := rfl

/-- A member is read back, and what follows it decides how to go on. -/
theorem readMembers_print (key : String) {value : Json} (good : ReadBack value) {steps : Nat}
    (long : 2 * (printMember key value).length ≤ steps) (ends : Ends rest) :
    readMembers (steps + 1) (printMember key value ++ rest) = match skipBlanks rest with
      | '\x7d' :: rest => some ([(some key, value)], rest)
      | ',' :: rest => (readMembers steps rest).map fun (members, rest) => ((some key, value) :: members, rest)
      | _ => none := by
  have read := good steps rest (by simp [printMember] at long; omega) ends
  rw [printMember, printText, List.append_assoc, List.cons_append, List.append_assoc, List.singleton_append,
    List.cons_append, readMembers, skipBlanks_cons (by decide)]
  simp only [readText_escapes, Option.bind_eq_bind, Option.bind_some]
  rw [skipBlanks_cons (by decide)]
  simp only [read, Option.bind_some]
  generalize skipBlanks rest = next
  split
  case h_1 => rfl
  case h_2 more =>
    show _ = (readMembers steps more).map _
    cases readMembers steps more <;> rfl
  case h_3 => simp_all

theorem readMembers_printMembers {members : List (Option String × Json)} (nonempty : members ≠ [])
    (keys : ∀ member ∈ members, member.1.isSome = true) (all : ∀ member ∈ members, ReadBack member.2) :
    ∀ steps, 2 * (printMembers members).length + 1 ≤ steps →
      readMembers steps (printMembers members ++ '\x7d' :: rest) = some (members, rest) := by
  induction members with
  | nil => exact absurd rfl nonempty
  | cons member members ih =>
    intro steps long
    obtain ⟨steps, rfl⟩ : ∃ k, steps = k + 1 := ⟨steps - 1, by omega⟩
    obtain ⟨key, value⟩ := member
    obtain ⟨key, rfl⟩ := Option.isSome_iff_exists.1 (keys _ List.mem_cons_self)
    have good : ReadBack value := all _ List.mem_cons_self
    match members with
    | [] =>
      change 2 * (printMember key value).length + 1 ≤ steps + 1 at long
      change readMembers (steps + 1) (printMember key value ++ '\x7d' :: rest) = _
      rw [readMembers_print key good (by omega) (ends_cons (.inr (.inr rfl)) rest), skipBlanks_cons (by decide)]
      rfl
    | next :: members =>
      rw [printMembers_cons, List.length_append, List.length_cons] at long
      rw [printMembers_cons, List.append_assoc, List.cons_append,
        readMembers_print key good (by omega) (ends_cons (.inl rfl) _), skipBlanks_cons (by decide)]
      simp only [ih (List.cons_ne_nil _ _) (fun m hm => keys m (List.mem_cons_of_mem _ hm))
        (fun m hm => all m (List.mem_cons_of_mem _ hm)) steps (by omega)]
      rfl

theorem readBack_object {members : List (Option String × Json)}
    (keys : ∀ member ∈ members, member.1.isSome = true) (all : ∀ member ∈ members, ReadBack member.2) :
    ReadBack (.object members) := by
  intro steps rest long _
  rw [printChars_object, List.length_cons, List.length_append] at long
  obtain ⟨steps, rfl⟩ : ∃ k, steps = k + 1 := ⟨steps - 1, by omega⟩
  rw [printChars_object, List.cons_append, List.append_assoc, List.singleton_append]
  match members with
  | [] => rfl
  | member :: members =>
    have read : readMembers steps (printMembers (member :: members) ++ '\x7d' :: rest) =
        some (member :: members, rest) :=
      readMembers_printMembers (List.cons_ne_nil member members) keys all steps (by simp at long; omega)
    obtain ⟨cs, print⟩ : ∃ cs, printMembers (member :: members) = '"' :: cs := by
      obtain ⟨key, value⟩ := member
      obtain ⟨key, rfl⟩ := Option.isSome_iff_exists.1 (keys _ List.mem_cons_self)
      cases members with
      | nil => exact ⟨_, rfl⟩
      | cons => exact ⟨_, by rw [printMembers_cons, printMember, printText]; rfl⟩
    rw [print, List.cons_append] at read ⊢
    rw [readValue_brace, read]
    rfl

/-- A document with a reading is read back from its own printing. -/
theorem Plain.readBack {j : Json} (plain : Plain j) : ReadBack j := by
  induction plain with
  | null => exact readBack_null
  | bool b => exact readBack_bool b
  | number good => exact readBack_number good
  | text s => exact readBack_text s
  | list plain all => exact readBack_list plain all
  | object keys _ all => exact readBack_object keys all

/-- Printing and parsing gives the document back. -/
theorem parse_print {j : Json} (plain : Plain j) : parse (print j) = some j := by
  have read : readValue (2 * (printChars j).length + 2) (printChars j) = some (j, []) := by
    have := plain.readBack (2 * (printChars j).length + 2) [] (by omega) (fun _ h => nomatch h)
    rwa [List.append_nil] at this
  rw [parse, print, String.toList_ofList, read]
  rfl

end Json

end BehaviorTree
