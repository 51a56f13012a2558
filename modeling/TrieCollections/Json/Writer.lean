/-
  TrieCollections/Json/Writer.lean
  ================================
  **JSON data as text.**  Texts have a backslash in front of quotes and backslashes and
  write control characters by their number; all else stands for itself.  Numbers are
  written as `Json.floatLayout` says.  There are no blanks.
-/
import TrieCollections.Json.Basic

namespace TrieCollections

namespace Json

/-- The number in hexadecimal, padded with zeros to at least `width` digits. -/
def hexDigits (width n : Nat) : List Char :=
  let digits := Nat.toDigits 16 n
  List.replicate (width - digits.length) '0' ++ digits

/-- The written form of one character of a text. -/
def escapeChar (c : Char) : List Char :=
  if c = '"' then ['\\', '"']
  else if c = '\\' then ['\\', '\\']
  else if c.toNat < 0x20 then ['\\', 'u'] ++ hexDigits 4 c.toNat
  else [c]

def quoteText (s : String) : String :=
  String.ofList (['"'] ++ s.toList.flatMap escapeChar ++ ['"'])

mutual

def write : Json → String
  | null => "null"
  | bool b => toString b
  | int n => toString n
  | float bits => Binary64.render floatLayout bits
  | str s => quoteText s
  | arr items => "[" ++ ",".intercalate (writeItems items) ++ "]"
  | obj fields => "\x7b" ++ ",".intercalate (writeFields fields) ++ "\x7d"

def writeItems : List Json → List String
  | [] => []
  | j :: js => write j :: writeItems js

def writeFields : List (String × Json) → List String
  | [] => []
  | (name, j) :: fields => (quoteText name ++ ":" ++ write j) :: writeFields fields

end

end Json

end TrieCollections
