/-
  BehaviorTree.Json.Printer: writing JSON without blanks.

  Quotes, backslashes and control characters are escaped, the common ones by a letter and
  the others by their number; every other character stands for itself.
-/

import BehaviorTree.Json.Basic

namespace BehaviorTree.Json

/-- A lower-case hexadecimal digit. -/
def hexDigit (n : Nat) : Char := Nat.digitChar (n % 16)

/-- A character inside quotes. -/
def escape (c : Char) : List Char :=
  match c with
  | '"' => ['\\', '"']
  | '\\' => ['\\', '\\']
  | '\x08' => ['\\', 'b']
  | '\x0c' => ['\\', 'f']
  | '\n' => ['\\', 'n']
  | '\r' => ['\\', 'r']
  | '\t' => ['\\', 't']
  | c =>
    if c.toNat < 0x20 then ['\\', 'u', '0', '0', hexDigit (c.toNat / 16), hexDigit c.toNat]
    else [c]

/-- A text in quotes. -/
def printText (s : String) : List Char := '"' :: (s.toList.flatMap escape ++ ['"'])

def printNumeral (n : Numeral) : List Char :=
  let sign := if n.negative then ['-'] else []
  let fraction := if n.fraction.isEmpty then [] else '.' :: n.fraction
  let exponent := match n.exponent with
    | none => []
    | some (negative, digits) => 'e' :: (if negative then ['-'] else []) ++ digits
  sign ++ n.whole ++ fraction ++ exponent

mutual

/-- A document; a text that escapes give no reading for is written as the empty one. -/
def printChars : Json → List Char
  | null => "null".toList
  | bool true => "true".toList
  | bool false => "false".toList
  | number n => printNumeral n
  | text s => printText (s.getD "")
  | list items => '[' :: (printItems items ++ [']'])
  | object members => '\x7b' :: (printMembers members ++ ['\x7d'])

def printItems : List Json → List Char
  | [] => []
  | [item] => printChars item
  | item :: rest => printChars item ++ ',' :: printItems rest

def printMembers : List (Option String × Json) → List Char
  | [] => []
  | [(key, value)] => printText (key.getD "") ++ ':' :: printChars value
  | (key, value) :: rest =>
    printText (key.getD "") ++ ':' :: printChars value ++ ',' :: printMembers rest

end

/-- The text of a document. -/
def print (j : Json) : String := String.ofList (printChars j)

end BehaviorTree.Json
