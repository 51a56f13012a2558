/-
  TrieCollections/Text/Quoted.lean
  ================================
  **Quoted text.**  A text is written between double quotes.  A quote and a backslash
  get a backslash in front, tab, line feed, carriage return and the zero character
  have an escape of one letter, and other hidden characters are written by their code
  point in hexadecimal.  All else stands for itself, the single quote included.
-/
import TrieCollections.Text.Hidden

namespace TrieCollections.Text

/-- The written form of one character inside a quoted text. -/
def escape (c : Char) : List Char :=
  match c with
  | '"' => ['\\', '"']
  | '\\' => ['\\', '\\']
  | '\t' => ['\\', 't']
  | '\n' => ['\\', 'n']
  | '\r' => ['\\', 'r']
  | '\x00' => ['\\', '0']
  | c =>
    if isHidden c then ['\\', 'u', '\x7b'] ++ Nat.toDigits 16 c.toNat ++ ['\x7d'] else [c]

def quote (s : String) : String := String.ofList (['"'] ++ s.toList.flatMap escape ++ ['"'])

end TrieCollections.Text
