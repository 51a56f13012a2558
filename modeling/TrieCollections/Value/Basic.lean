/-
  TrieCollections/Value/Basic.lean
  ================================
  **Values of any kind in one type.**  A value is a scalar, an array of values, or a
  set, a map or a relation of values, so data of mixed kinds fits into one collection,
  relations fit into tuples, and every value can be a member or a key.

  The words of a value start with the number of its kind.  The integer 1, the float
  1.0 and `true` therefore differ in their hashes, and so do an array and a set.
  The words of a collection do not depend on what is inside it but through its size
  and its combined hash, both of which the collection has at hand.
-/
import TrieCollections.FloatKey
import TrieCollections.Relation.Nest

namespace TrieCollections

inductive Kind where
  | bool
  | int
  | float
  | complex
  | str
  | array
  | set
  | map
  | relation
deriving DecidableEq

namespace Kind

def number : Kind → UInt8
  | bool => 0
  | int => 1
  | float => 2
  | complex => 3
  | str => 4
  | array => 5
  | set => 6
  | map => 7
  | relation => 8

def name : Kind → String
  | bool => "Bool"
  | int => "Int"
  | float => "Float"
  | complex => "Complex"
  | str => "Str"
  | array => "Array"
  | set => "Set"
  | map => "Map"
  | relation => "Relation"

end Kind

inductive Value where
  | bool (b : Bool)
  | int (i : Int64)
  | float (x : FloatKey)
  | complex (re im : FloatKey)
  | str (s : String)
  | array (xs : List Value)
  | set (s : TrieSet Value)
  | map (m : TrieMap Value Value)
  | relation (r : TrieSet (TrieMap String Value))

namespace Value

instance : Inhabited Value := ⟨.bool false⟩

def kind : Value → Kind
  | bool _ => .bool
  | int _ => .int
  | float _ => .float
  | complex _ _ => .complex
  | str _ => .str
  | array _ => .array
  | set _ => .set
  | map _ => .map
  | relation _ => .relation

/-- The relation that a value holds, if it is one. -/
def asRelation? : Value → Option (Relation String Value)
  | relation r => some r
  | _ => none

instance : HoldsRelation String Value where
  ofRelation := relation
  asRelation? := asRelation?

/-! ### Words -/

mutual

/-- The words of what a value holds, without its kind. -/
def contentWords : Value → List UInt64
  | bool b => Hashed.words b
  | int i => Hashed.words i
  | float x => Hashed.words x
  | complex re im => Hashed.words re ++ Hashed.words im
  | str s => Hashed.words s
  | array xs => lengthWord xs.length :: elementWords xs
  | set s => Hashed.words s
  | map m => Hashed.words m
  | relation r => Hashed.words r

/-- The words of the elements of an array, kinds included. -/
def elementWords : List Value → List UInt64
  | [] => []
  | x :: xs => (x.kind.number.toUInt64 :: contentWords x) ++ elementWords xs

end

/-- A value is hashed by the number of its kind and by what it holds. -/
instance : Hashed Value where
  words x := x.kind.number.toUInt64 :: x.contentWords

theorem words_eq (x : Value) : Hashed.words x = x.kind.number.toUInt64 :: x.contentWords := rfl

theorem elementWords_eq (xs : List Value) : elementWords xs = xs.flatMap Hashed.words := by
  induction xs with
  | nil => rfl
  | cons x xs ih => rw [elementWords, ih]; rfl

/-- An array is hashed as the list of its elements is. -/
theorem contentWords_array (xs : List Value) : contentWords (array xs) = Hashed.words xs := by
  rw [contentWords, elementWords_eq]; rfl

end Value

end TrieCollections
