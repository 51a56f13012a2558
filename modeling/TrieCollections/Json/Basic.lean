/-
  TrieCollections/Json/Basic.lean
  ===============================
  **JSON data.**  A number is an integer or a double; the two are told apart, so 1 and
  1.0 are different data.  The fields of an object are kept in the order of their
  names, each name once: `object` builds one from any list of fields, and of those
  with one name the last counts.

  Data is ordered: null, booleans, numbers, texts, arrays, objects, and within these
  numerically, by code points, or lexicographically.
-/
import TrieCollections.Decimal.Shortest
import TrieCollections.Text.Quoted

namespace TrieCollections

inductive Json where
  | null
  | bool (b : Bool)
  | int (n : Int)
  | float (bits : UInt64)
  | str (s : String)
  | arr (items : List Json)
  | obj (fields : List (String × Json))

namespace Json

instance : Inhabited Json := ⟨.null⟩

/-! ### Objects -/

/-- Put a field among fields in the order of their names; one with its name gives way. -/
def insertField (name : String) (value : Json) : List (String × Json) → List (String × Json)
  | [] => [(name, value)]
  | (other, old) :: rest =>
    match compare name other with
    | .lt => (name, value) :: (other, old) :: rest
    | .eq => (name, value) :: rest
    | .gt => (other, old) :: insertField name value rest

def object (fields : List (String × Json)) : Json :=
  obj (fields.foldl (fun out f => insertField f.1 f.2 out) [])

/-! ### Order -/

/-- The place of a sort of data among the others. -/
def rank : Json → Nat
  | null => 0
  | bool _ => 1
  | int _ => 2
  | float _ => 2
  | str _ => 3
  | arr _ => 4
  | obj _ => 5

/-- The number of units of 2^(-1074) in one. -/
def unitsInOne : Int := (1 <<< 1074 : Nat)

mutual

def order : Json → Json → Ordering
  | bool a, bool b => compare a b
  | int m, int n => compare m n
  | int m, float b => compare (m * unitsInOne) (Binary64.signedUnits b)
  | float a, int n => compare (Binary64.signedUnits a) (n * unitsInOne)
  | float a, float b => compare (Binary64.signedUnits a) (Binary64.signedUnits b)
  | str s, str t => compare s t
  | arr xs, arr ys => orderItems xs ys
  | obj fs, obj gs => orderFields fs gs
  | x, y => compare x.rank y.rank

/-- Lexicographic order of items. -/
def orderItems : List Json → List Json → Ordering
  | [], [] => .eq
  | [], _ :: _ => .lt
  | _ :: _, [] => .gt
  | x :: xs, y :: ys => (order x y).then (orderItems xs ys)

/-- Lexicographic order of fields, each by its name and then by its value. -/
def orderFields : List (String × Json) → List (String × Json) → Ordering
  | [], [] => .eq
  | [], _ :: _ => .lt
  | _ :: _, [] => .gt
  | (n, x) :: fs, (m, y) :: gs => ((compare n m).then (order x y)).then (orderFields fs gs)

end

def sorted (items : List Json) : List Json := items.mergeSort fun x y => order x y != .gt

/-! ### Description -/

/-- Floats have no exponent for magnitudes from 10^(-5) to below 10^16.  An exponent
    has its sign, and a tie goes to the even digit. -/
def floatLayout : Decimal.Layout := ⟨-4, 16, true, .even⟩

/-- The words for a piece of data in the text of an error. -/
def describe : Json → String
  | null => "null"
  | bool b => "boolean \x60" ++ toString b ++ "\x60"
  | int n => "integer \x60" ++ toString n ++ "\x60"
  | float bits => "floating point \x60" ++ Binary64.render floatLayout bits ++ "\x60"
  | str s => "string " ++ Text.quote s
  | arr _ => "sequence"
  | obj _ => "map"

end Json

end TrieCollections
