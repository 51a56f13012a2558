/-
  TrieCollections/Json/KeyForm.lean
  =================================
  **The forms that a key can take.**  A data format offers a writer many forms for one
  piece of data: texts, numbers of several widths, options, tuples, records, variants
  of a choice with their names.  In JSON they come out as texts, numbers, null, arrays
  and objects, but only a text, plain or wrapped in a type of its own, counts as the
  name of a field.  A single character does not, although it is written as a text.

  A `FormKey` takes the form it is told to, with a text and a small number as what it
  holds.
-/
import TrieCollections.Json.Codec

namespace TrieCollections

/-- The form in which a key is written. -/
inductive KeyForm where
  | text
  | wrappedText
  | wrappedInteger
  | boolean
  /-- Integers of any width and sign. -/
  | integer
  /-- Floats of either width: one half above the number. -/
  | float
  | character
  /-- Bytes, sequences, tuples and tuples with a name of their own. -/
  | sequence
  /-- An absent option, a unit, or a unit with a name of its own. -/
  | nothing
  | present
  | unitVariant
  | wrappedVariant
  | tupleVariant
  | map
  | record
  | recordVariant
deriving DecidableEq

/-- The number of a form, which takes its place in a hash. -/
def KeyForm.number : KeyForm → UInt8
  | text => 0
  | wrappedText => 1
  | wrappedInteger => 2
  | boolean => 3
  | integer => 4
  | float => 5
  | character => 6
  | sequence => 7
  | nothing => 8
  | present => 9
  | unitVariant => 10
  | wrappedVariant => 11
  | tupleVariant => 12
  | map => 13
  | record => 14
  | recordVariant => 15

/-- A key that takes a given form.  `label` keeps keys apart that take one form in
    different ways. -/
structure FormKey where
  form : KeyForm
  label : String
  text : String
  number : UInt8
deriving DecidableEq

namespace FormKey

instance : Hashed FormKey where
  words k :=
    Hashed.words k.form.number ++ Hashed.words k.label ++ Hashed.words k.text
      ++ Hashed.words k.number

/-- The bits of the double one half above a number: `2 * n + 1` halves. -/
def halfAbove (n : UInt8) : UInt64 :=
  let halves := 2 * n.toNat + 1
  let top := halves.log2
  UInt64.ofNat ((1022 + top) <<< 52 + (halves - 1 <<< top) <<< (52 - top))

def toJson (k : FormKey) : Json :=
  let number := Json.int k.number.toNat
  match k.form with
  | .text => .str k.text
  | .wrappedText => .str k.text
  | .wrappedInteger => number
  | .boolean => .bool (k.number.toNat % 2 == 1)
  | .integer => number
  | .float => .float (halfAbove k.number)
  | .character => .str (String.singleton (Char.ofNat k.number.toNat))
  | .sequence => .arr [number]
  | .nothing => .null
  | .present => .str k.text
  | .unitVariant => .str "V"
  | .wrappedVariant => .obj [("V", .str k.text)]
  | .tupleVariant => .obj [("V", .arr [number])]
  | .map => .obj [(k.text, number)]
  | .record => .obj [("f", number)]
  | .recordVariant => .obj [("V", .obj [("f", number)])]

instance : JsonEncode FormKey where
  encode _ := toJson
  fieldName? k :=
    match k.form with
    | .text => some k.text
    | .wrappedText => some k.text
    | _ => none

end FormKey

end TrieCollections
