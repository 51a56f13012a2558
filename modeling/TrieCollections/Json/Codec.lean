/-
  TrieCollections/Json/Codec.lean
  ===============================
  **Collections as JSON.**  A set is an array.  A map is an object if every key can
  name a field, which an empty map meets whatever its keys, and otherwise an array of
  pairs `[key, value]`.  Which of the two it is depends on the map at hand, so both
  are read back, at every level: `decode` recognizes them by what they are.

  Texts name fields as they are.  No other type does: an absent or present text, as an
  option, does not count as a text.  Reading is more generous: an integer is read from
  a field name that is its decimal text, and an optional text from any field name.

  The order of the items of an array is that of the trie; `arrange` may put the items
  of each collection into another one.

  Data is read from left to right and the first failure is the answer.
-/
import TrieCollections.Json.Basic
import TrieCollections.TrieMap.Basic

namespace TrieCollections

/-! ### Failures -/

/-- What a reader expects. -/
inductive Expected where
  | sequence
  | entries
  | pair
  | integer
  | boolean
  | text
deriving DecidableEq

/-- The cause of a failed reading. -/
inductive DecodeError where
  /-- Data of another sort than expected. -/
  | wrongSort (found : Json) (expected : Expected)
  /-- An array of another length than a pair. -/
  | wrongLength (found : Nat)
  /-- A field name that is not the text of a key. -/
  | wrongName (found : String) (expected : Expected)

/-- The text of an error: there is one where a collection should stand. -/
def DecodeError.message? : DecodeError → Option String
  | wrongSort found .sequence =>
    some ("invalid type: " ++ found.describe ++ ", expected a sequence")
  | wrongSort found .entries =>
    some ("invalid type: " ++ found.describe
      ++ ", expected a map or a sequence of key/value pairs")
  | _ => none

/-! ### The two directions -/

class JsonEncode (α : Type) where
  /-- The data of a value; `arrange` orders the items of each collection. -/
  encode : (arrange : List Json → List Json) → α → Json
  /-- The field name that stands for a value, if one does. -/
  fieldName? : α → Option String

class JsonDecode (α : Type) where
  decode : Json → Except DecodeError α
  /-- Read a value from the name of a field. -/
  decodeName : String → Except DecodeError α

export JsonEncode (encode fieldName?)

export JsonDecode (decode decodeName)

/-! ### Scalars -/

instance : JsonEncode Int64 where
  encode _ n := .int n.toInt
  fieldName? _ := none

/-- The signed 64-bit integer of a given value, if there is one. -/
def int64OfInt? (n : Int) : Option Int64 :=
  if Int64.minValue.toInt ≤ n ∧ n ≤ Int64.maxValue.toInt then some (.ofInt n) else none

/-- The value of a nonempty run of decimal digits without a leading zero. -/
def natOfDigits? (cs : List Char) : Option Nat :=
  if cs.isEmpty || !cs.all (·.isDigit) || (cs.head? == some '0' && cs.length != 1) then none
  else some (cs.foldl (fun n c => 10 * n + (c.toNat - '0'.toNat)) 0)

/-- The integer with the given decimal text; a minus sign needs a number to negate. -/
def intOfText? (s : String) : Option Int :=
  match s.toList with
  | '-' :: cs => (natOfDigits? cs).bind fun n => if n = 0 then none else some (-n)
  | cs => (natOfDigits? cs).map Int.ofNat

instance : JsonDecode Int64 where
  decode
    | .int n =>
      match int64OfInt? n with
      | some i => .ok i
      | none => .error (.wrongSort (.int n) .integer)
    | j => .error (.wrongSort j .integer)
  decodeName s :=
    match (intOfText? s).bind int64OfInt? with
    | some i => .ok i
    | none => .error (.wrongName s .integer)

instance : JsonEncode Bool where
  encode _ b := .bool b
  fieldName? _ := none

instance : JsonDecode Bool where
  decode
    | .bool b => .ok b
    | j => .error (.wrongSort j .boolean)
  decodeName s :=
    if s = "true" then .ok true
    else if s = "false" then .ok false
    else .error (.wrongName s .boolean)

instance : JsonEncode String where
  encode _ s := .str s
  fieldName? := some

instance : JsonDecode String where
  decode
    | .str s => .ok s
    | j => .error (.wrongSort j .text)
  decodeName := .ok

instance (α : Type) [JsonEncode α] : JsonEncode (Option α) where
  encode arrange
    | none => .null
    | some x => encode arrange x
  fieldName? _ := none

instance (α : Type) [JsonDecode α] : JsonDecode (Option α) where
  decode
    | .null => .ok none
    | j => (decode j).map some
  decodeName s := (decodeName s).map some

/-! ### Pairs -/

section Pairs

variable {α β : Type}

/-- A pair is an array of two. -/
def encodePair [JsonEncode α] [JsonEncode β] (arrange : List Json → List Json) (p : α × β) : Json :=
  .arr [encode arrange p.1, encode arrange p.2]

/-- Read a pair: its parts in turn, then its length. -/
def decodePair [JsonDecode α] [JsonDecode β] : Json → Except DecodeError (α × β)
  | .arr [] => .error (.wrongLength 0)
  | .arr [a] => do
    let _ ← (decode a : Except DecodeError α)
    .error (.wrongLength 1)
  | .arr (a :: b :: rest) => do
    let x ← decode a
    let y ← decode b
    if rest.isEmpty then .ok (x, y) else .error (.wrongLength (rest.length + 2))
  | j => .error (.wrongSort j .pair)

instance [JsonEncode α] [JsonEncode β] : JsonEncode (α × β) where
  encode := encodePair
  fieldName? _ := none

instance [JsonDecode α] [JsonDecode β] : JsonDecode (α × β) where
  decode := decodePair
  decodeName s := .error (.wrongName s .pair)

def decodeAll [JsonDecode α] : List Json → Except DecodeError (List α)
  | [] => .ok []
  | j :: js => do
    let x ← decode j
    let xs ← decodeAll js
    .ok (x :: xs)

/-- Read the fields of an object in turn, each by its name and then by its value. -/
def decodeFields [JsonDecode α] [JsonDecode β] :
    List (String × Json) → Except DecodeError (List (α × β))
  | [] => .ok []
  | (name, j) :: fields => do
    let k ← decodeName name
    let v ← decode j
    let es ← decodeFields fields
    .ok ((k, v) :: es)

end Pairs

/-! ### Collections -/

instance (α : Type) [JsonEncode α] : JsonEncode (TrieSet α) where
  encode arrange s := .arr (arrange (s.toList.map (encode arrange)))
  fieldName? _ := none

instance (α : Type) [JsonDecode α] [Hashed α] [BEq α] : JsonDecode (TrieSet α) where
  decode
    | .arr items => (decodeAll items).map .ofList
    | j => .error (.wrongSort j .sequence)
  decodeName s := .error (.wrongSort (.str s) .sequence)

/-- The fields of a map whose keys all name fields. -/
def encodeFields? {κ ν : Type} [JsonEncode κ] [JsonEncode ν] (arrange : List Json → List Json) :
    List (κ × ν) → Option (List (String × Json))
  | [] => some []
  | (k, v) :: es =>
    match fieldName? k, encodeFields? arrange es with
    | some name, some fields => some ((name, encode arrange v) :: fields)
    | _, _ => none

instance (κ ν : Type) [JsonEncode κ] [JsonEncode ν] : JsonEncode (TrieMap κ ν) where
  encode arrange m :=
    match encodeFields? arrange m.toList with
    | some fields => .object fields
    | none => .arr (arrange (m.toList.map (encodePair arrange)))
  fieldName? _ := none

instance (κ ν : Type) [JsonDecode κ] [JsonDecode ν] [Hashed κ] [BEq κ] [Hashed ν] :
    JsonDecode (TrieMap κ ν) where
  decode
    | .arr items => (decodeAll items).map .ofList
    | .obj fields => (decodeFields fields).map .ofList
    | j => .error (.wrongSort j .entries)
  decodeName s := .error (.wrongSort (.str s) .entries)

end TrieCollections
