/-
  TrieCollections/Text/Outline.lean
  =================================
  **Texts of nested data.**  The text of a value shows its structure: a name with
  arguments in parentheses, a list in brackets, a set or a map in braces.  An
  `Outline` is that structure without a layout.  It is written on one line
  (`compact`) or over several (`pretty`), where each part stands on a line of its
  own, is indented by four blanks, and ends with a comma.
-/

namespace TrieCollections

inductive Outline where
  | atom (text : String)
  | call (name : String) (args : List Outline)
  | list (items : List Outline)
  | set (items : List Outline)
  | map (entries : List (Outline × Outline))

namespace Outline

def compact : Outline → String
  | atom text => text
  | call name args =>
    name ++ if args.isEmpty then ""
      else "(" ++ ", ".intercalate (args.map fun a => a.compact) ++ ")"
  | list items => "[" ++ ", ".intercalate (items.map fun a => a.compact) ++ "]"
  | set items => "\x7b" ++ ", ".intercalate (items.map fun a => a.compact) ++ "\x7d"
  | map entries =>
    "\x7b" ++ ", ".intercalate (entries.map fun e => e.1.compact ++ ": " ++ e.2.compact) ++ "\x7d"
termination_by o => sizeOf o
decreasing_by
  all_goals simp_wf
  all_goals first
    | (rename_i h; have := List.sizeOf_lt_of_mem h; omega)
    | (rename_i h; have := List.sizeOf_lt_of_mem h; cases e; simp at *; omega)

/-- The text with four blanks behind every line feed. -/
def indented (text : String) : String :=
  String.ofList (text.toList.flatMap fun c => if c = '\n' then "\n    ".toList else [c])

/-- Parts on lines of their own between two brackets.  A part that has several lines is
    indented as a whole, and so is a line feed that an atom brings along. -/
def block (opening : String) (parts : List String) (closing : String) : String :=
  if parts.isEmpty then opening ++ closing
  else opening ++ indented (String.join (parts.map fun p => "\n" ++ p ++ ",")) ++ "\n" ++ closing

def pretty : Outline → String
  | atom text => text
  | call name args =>
    if args.isEmpty then name else block (name ++ "(") (args.map fun a => a.pretty) ")"
  | list items => block "[" (items.map fun a => a.pretty) "]"
  | set items => block "\x7b" (items.map fun a => a.pretty) "\x7d"
  | map entries =>
    block "\x7b" (entries.map fun e => e.1.pretty ++ ": " ++ e.2.pretty) "\x7d"
termination_by o => sizeOf o
decreasing_by
  all_goals simp_wf
  all_goals first
    | (rename_i h; have := List.sizeOf_lt_of_mem h; omega)
    | (rename_i h; have := List.sizeOf_lt_of_mem h; cases e; simp at *; omega)

end Outline

end TrieCollections
