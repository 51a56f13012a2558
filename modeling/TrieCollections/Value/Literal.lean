/-
  TrieCollections/Value/Literal.lean
  ==================================
  **Values written out.**  A literal is a value with its collections as plain lists.
  Reading one (`Literal.toValue`) inserts the listed members in their order, so of
  equal ones the last counts, and refuses a NaN.  Writing one (`Value.literal`) lists
  the members in canonical order, so equal values have one literal whatever the order
  inside their tries.

  The canonical order puts kinds first, in the order of their numbers.  Numbers are in
  numerical order, floats in the order of their bits, texts in the order of their code
  points, and lists in lexicographic order, a beginning before the whole; sets, maps
  and relations are compared as the lists of what they hold, each in canonical order.

  What depends on the order inside a trie should not be shown: `isOrderFree` tells the
  literals in which no collection has two members.
-/
import TrieCollections.Decimal.Shortest
import TrieCollections.Text.Outline
import TrieCollections.Text.Quoted
import TrieCollections.Value.Equality

namespace TrieCollections

/-- A value with its collections as plain lists; floats are any bits. -/
inductive Literal where
  | bool (b : Bool)
  | int (i : Int64)
  | float (bits : UInt64)
  | complex (re im : UInt64)
  | str (s : String)
  | array (xs : List Literal)
  | set (xs : List Literal)
  | map (es : List (Literal × Literal))
  | relation (tuples : List (List (String × Literal)))

namespace Literal

instance : Inhabited Literal := ⟨.bool false⟩

def kind : Literal → Kind
  | bool _ => .bool
  | int _ => .int
  | float _ => .float
  | complex _ _ => .complex
  | str _ => .str
  | array _ => .array
  | set _ => .set
  | map _ => .map
  | relation _ => .relation

/-! ### Reading -/

mutual

/-- The value that a literal stands for. -/
def toValue : Literal → Except Failure Value
  | bool b => .ok (.bool b)
  | int i => .ok (.int i)
  | float bits => (FloatKey.ofBits? bits).map .float
  | complex re im => do return .complex (← FloatKey.ofBits? re) (← FloatKey.ofBits? im)
  | str s => .ok (.str s)
  | array xs => (toValues xs).map .array
  | set xs => (toValues xs).map fun xs => .set (.ofList xs)
  | map es => (toEntries es).map fun es => .map (.ofList es)
  | relation tuples => (toTuples tuples).map fun tuples => .relation (.ofList tuples)

def toValues : List Literal → Except Failure (List Value)
  | [] => .ok []
  | x :: xs => do return (← toValue x) :: (← toValues xs)

def toEntries : List (Literal × Literal) → Except Failure (List (Value × Value))
  | [] => .ok []
  | (k, v) :: es => do return (← toValue k, ← toValue v) :: (← toEntries es)

def toTuple : List (String × Literal) → Except Failure (List (String × Value))
  | [] => .ok []
  | (a, v) :: es => do return (a, ← toValue v) :: (← toTuple es)

def toTuples : List (List (String × Literal)) → Except Failure (List (TrieMap String Value))
  | [] => .ok []
  | t :: ts => do return .ofList (← toTuple t) :: (← toTuples ts)

end

/-! ### The canonical order -/

mutual

/-- The canonical order of literals whose collections are in canonical order. -/
def order : Literal → Literal → Ordering
  | bool a, bool b => compare a b
  | int a, int b => compare a.toInt b.toInt
  | float a, float b => compare a b
  | complex a b, complex c d => (compare a c).then (compare b d)
  | str a, str b => compare a b
  | array xs, array ys => orderList xs ys
  | set xs, set ys => orderList xs ys
  | map es, map fs => orderEntries es fs
  | relation ts, relation us => orderTuples ts us
  | a, b => compare a.kind.number b.kind.number

def orderList : List Literal → List Literal → Ordering
  | [], [] => .eq
  | [], _ :: _ => .lt
  | _ :: _, [] => .gt
  | x :: xs, y :: ys => (order x y).then (orderList xs ys)

/-- Lexicographic order, a pair by its key and then by its value. -/
def orderEntries : List (Literal × Literal) → List (Literal × Literal) → Ordering
  | [], [] => .eq
  | [], _ :: _ => .lt
  | _ :: _, [] => .gt
  | (k, v) :: es, (l, w) :: fs => ((order k l).then (order v w)).then (orderEntries es fs)

/-- Lexicographic order, an attribute by its name and then by its value. -/
def orderTuple : List (String × Literal) → List (String × Literal) → Ordering
  | [], [] => .eq
  | [], _ :: _ => .lt
  | _ :: _, [] => .gt
  | (a, v) :: es, (b, w) :: fs => ((compare a b).then (order v w)).then (orderTuple es fs)

def orderTuples : List (List (String × Literal)) → List (List (String × Literal)) → Ordering
  | [], [] => .eq
  | [], _ :: _ => .lt
  | _ :: _, [] => .gt
  | t :: ts, u :: us => (orderTuple t u).then (orderTuples ts us)

end

/-- A list brought into the order that `order` gives. -/
def arranged {α : Type} (order : α → α → Ordering) (xs : List α) : List α :=
  xs.mergeSort fun a b => order a b != .gt

/-! ### No order shows -/

mutual

/-- No collection inside has two members. -/
def isOrderFree : Literal → Bool
  | array xs => areOrderFree xs
  | set xs => decide (xs.length ≤ 1) && areOrderFree xs
  | map es => decide (es.length ≤ 1) && entriesOrderFree es
  | relation ts => decide (ts.length ≤ 1) && tuplesOrderFree ts
  | _ => true

def areOrderFree : List Literal → Bool
  | [] => true
  | x :: xs => isOrderFree x && areOrderFree xs

def entriesOrderFree : List (Literal × Literal) → Bool
  | [] => true
  | (k, v) :: es => isOrderFree k && isOrderFree v && entriesOrderFree es

/-- No collection among the values of a list of attributes has two members. -/
def attributesOrderFree : List (String × Literal) → Bool
  | [] => true
  | (_, v) :: es => isOrderFree v && attributesOrderFree es

def tuplesOrderFree : List (List (String × Literal)) → Bool
  | [] => true
  | t :: ts => decide (t.length ≤ 1) && attributesOrderFree t && tuplesOrderFree ts

end

/-! ### Texts -/

/-- Floats have no exponent for magnitudes from 10^(-4) to below 10^16.  A positive
    exponent has no sign, and a tie goes up. -/
def floatLayout : Decimal.Layout := ⟨-3, 16, false, .upper⟩

mutual

/-- The structure of a literal's text: the name of the kind and what the value holds. -/
def outline : Literal → Outline
  | bool b => .call "Bool" [.atom (toString b)]
  | int i => .call "Int" [.atom (toString i.toInt)]
  | float bits => .call "Float" [.atom (Binary64.render floatLayout bits)]
  | complex re im =>
    .call "Complex"
      [.atom (Binary64.render floatLayout re), .atom (Binary64.render floatLayout im)]
  | str s => .call "Str" [.atom (Text.quote s)]
  | array xs => .call "Array" [.list (outlines xs)]
  | set xs => .call "Set" [.set (outlines xs)]
  | map es => .call "Map" [.map (entryOutlines es)]
  | relation ts => .call "Relation" [.set (tupleOutlines ts)]

def outlines : List Literal → List Outline
  | [] => []
  | x :: xs => outline x :: outlines xs

def entryOutlines : List (Literal × Literal) → List (Outline × Outline)
  | [] => []
  | (k, v) :: es => (outline k, outline v) :: entryOutlines es

/-- The attributes of a tuple, quoted, with the structures of their values. -/
def attributeOutlines : List (String × Literal) → List (Outline × Outline)
  | [] => []
  | (a, v) :: es => (.atom (Text.quote a), outline v) :: attributeOutlines es

def tupleOutlines : List (List (String × Literal)) → List Outline
  | [] => []
  | t :: ts => .map (attributeOutlines t) :: tupleOutlines ts

end

end Literal

/-! ### Writing -/

namespace Value

mutual

/-- The literal of a value, all collections in canonical order. -/
def literal : Value → Literal
  | bool b => .bool b
  | int i => .int i
  | float x => .float x.bits
  | complex re im => .complex re.bits im.bits
  | str s => .str s
  | array xs => .array (literals xs)
  | set s =>
    .set (Literal.arranged Literal.order (s.trie.entries.attach.map fun p => literal p.1.1.value))
  | map m =>
    .map (Literal.arranged (fun a b => Literal.orderEntries [a] [b])
      (m.trie.entries.attach.map fun p => (literal p.1.1.1, literal p.1.1.2)))
  | relation r =>
    .relation (Literal.arranged Literal.orderTuple
      (r.trie.entries.attach.map fun p => tupleLiteral p.1.1.value))
termination_by x => sizeOf x
decreasing_by
  · simp only [array.sizeOf_spec]; omega
  all_goals
    have h := Trie.sizeOf_entry_lt p.2
    rcases p with ⟨⟨⟨⟩, _⟩, _⟩
    first
    | cases s
    | cases r
    | cases m
    simp only [set.sizeOf_spec, map.sizeOf_spec, relation.sizeOf_spec, TrieSet.mk.sizeOf_spec,
      TrieMap.mk.sizeOf_spec, Member.mk.sizeOf_spec, Prod.mk.sizeOf_spec] at *
    omega

/-- The attributes of a tuple with the literals of their values, in canonical order. -/
def tupleLiteral (t : TrieMap String Value) : List (String × Literal) :=
  Literal.arranged (fun a b => Literal.orderTuple [a] [b])
    (t.trie.entries.attach.map fun p => (p.1.1.1, literal p.1.1.2))
termination_by sizeOf t
decreasing_by
  have h := Trie.sizeOf_entry_lt p.2
  rcases p with ⟨⟨⟨⟩, _⟩, _⟩
  cases t
  simp only [TrieMap.mk.sizeOf_spec, Prod.mk.sizeOf_spec] at *
  omega

def literals : List Value → List Literal
  | [] => []
  | x :: xs => literal x :: literals xs
termination_by xs => sizeOf xs

end

def outline (x : Value) : Outline := x.literal.outline

end Value

end TrieCollections
