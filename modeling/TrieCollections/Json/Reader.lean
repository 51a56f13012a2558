/-
  TrieCollections/Json/Reader.lean
  ================================
  **JSON data from text.**  Texts may hold escapes, numbers are read as `Json.Number`
  says, and of fields with one name the last counts.

  A reader takes what it reads off the front of a list of characters.  How deep data
  is nested and how many items it has are bounded by the length of the text, so that
  length serves as the readers' fuel.
-/
import TrieCollections.Json.Number

namespace TrieCollections

namespace Json

/-- What is read, and the characters after it. -/
abbrev Reader (α : Type) := List Char → Option (α × List Char)

def isBlank (c : Char) : Bool := c == ' ' || c == '\n' || c == '\t' || c == '\r'

def skipBlanks (cs : List Char) : List Char := cs.dropWhile isBlank

/-! ### Texts -/

def hexDigit? (c : Char) : Option Nat :=
  if '0' ≤ c ∧ c ≤ '9' then some (c.toNat - '0'.toNat)
  else if 'a' ≤ c ∧ c ≤ 'f' then some (c.toNat - 'a'.toNat + 10)
  else if 'A' ≤ c ∧ c ≤ 'F' then some (c.toNat - 'A'.toNat + 10)
  else none

def hexValue? (cs : List Char) : Option Nat :=
  if cs.isEmpty then none
  else cs.foldl (fun n c => n.bind fun n => (hexDigit? c).map (16 * n + ·)) (some 0)

def unescape? : Char → Option Char
  | '"' => some '"'
  | '\\' => some '\\'
  | '/' => some '/'
  | 'b' => some '\x08'
  | 'f' => some '\x0c'
  | 'n' => some '\n'
  | 'r' => some '\r'
  | 't' => some '\t'
  | _ => none

/-- The character that a pair of surrogates stands for. -/
def ofSurrogates (high low : Nat) : Char :=
  Char.ofNat (0x10000 + (high - 0xd800) * 0x400 + (low - 0xdc00))

/-- Read the rest of a text up to its closing quote; `acc` holds what was read, last
    character first. -/
def readText (fuel : Nat) (acc : List Char) : Reader String := fun cs =>
  match fuel, cs with
  | 0, _ => none
  | _, '"' :: cs => some (String.ofList acc.reverse, cs)
  | fuel + 1, '\\' :: 'u' :: cs =>
    match hexValue? (cs.take 4), cs.drop 4 with
    | none, _ => none
    | some high, rest =>
      if 0xd800 ≤ high ∧ high < 0xdc00 then
        match rest with
        | '\\' :: 'u' :: rest =>
          match hexValue? (rest.take 4) with
          | none => none
          | some low => readText fuel (ofSurrogates high low :: acc) (rest.drop 4)
        | _ => none
      else readText fuel (Char.ofNat high :: acc) rest
  | fuel + 1, '\\' :: c :: cs =>
    match unescape? c with
    | none => none
    | some c => readText fuel (c :: acc) cs
  | fuel + 1, c :: cs => readText fuel (c :: acc) cs
  | _, [] => none

/-! ### Data -/

mutual

/-- Read data behind blanks. -/
def readData (fuel : Nat) : Reader Json := fun cs =>
  match fuel with
  | 0 => none
  | fuel + 1 =>
    match skipBlanks cs with
    | 'n' :: 'u' :: 'l' :: 'l' :: cs => some (null, cs)
    | 't' :: 'r' :: 'u' :: 'e' :: cs => some (bool true, cs)
    | 'f' :: 'a' :: 'l' :: 's' :: 'e' :: cs => some (bool false, cs)
    | '"' :: cs => (readText fuel [] cs).map fun r => (str r.1, r.2)
    | '[' :: cs =>
      match skipBlanks cs with
      | ']' :: cs => some (arr [], cs)
      | cs => (readItems fuel cs).map fun r => (arr r.1, r.2)
    | '\x7b' :: cs =>
      match skipBlanks cs with
      | '\x7d' :: cs => some (object [], cs)
      | cs => (readFields fuel cs).map fun r => (object r.1, r.2)
    | cs => (numberOf? (cs.takeWhile isNumberChar)).map fun j => (j, cs.dropWhile isNumberChar)

/-- Read one or more items and the bracket after them. -/
def readItems (fuel : Nat) : Reader (List Json) := fun cs =>
  match fuel with
  | 0 => none
  | fuel + 1 =>
    match readData fuel cs with
    | none => none
    | some (j, cs) =>
      match skipBlanks cs with
      | ']' :: cs => some ([j], cs)
      | ',' :: cs => (readItems fuel cs).map fun r => (j :: r.1, r.2)
      | _ => none

/-- Read one or more fields and the brace after them. -/
def readFields (fuel : Nat) : Reader (List (String × Json)) := fun cs =>
  match fuel with
  | 0 => none
  | fuel + 1 =>
    match skipBlanks cs with
    | '"' :: cs =>
      match readText fuel [] cs with
      | none => none
      | some (name, cs) =>
        match skipBlanks cs with
        | ':' :: cs =>
          match readData fuel cs with
          | none => none
          | some (j, cs) =>
            match skipBlanks cs with
            | '\x7d' :: cs => some ([(name, j)], cs)
            | ',' :: cs => (readFields fuel cs).map fun r => ((name, j) :: r.1, r.2)
            | _ => none
        | _ => none
    | _ => none

end

def read? (s : String) : Option Json :=
  let cs := s.toList
  match readData (2 * cs.length + 2) cs with
  | some (j, rest) => if (skipBlanks rest).isEmpty then some j else none
  | none => none

end Json

end TrieCollections
