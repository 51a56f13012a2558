/-
  TrieCollections/Relation/Nest.lean
  ==================================
  **Relations inside tuples.**  Where values can hold relations, some attributes of a
  relation can be folded away: `nest` groups the tuples by their other attributes and
  puts what it folded away into one nested relation per group.  `unnest` goes back: a
  tuple that holds a relation becomes one tuple for each nested one.

  A tuple whose value under an unnested attribute is no relation stays as it is, and
  one that holds an empty relation disappears.
-/
import TrieCollections.Relation.Basic

namespace TrieCollections

/-- Values that can hold a relation whose tuples have such values. -/
class HoldsRelation (κ ν : Type) where
  ofRelation : Relation κ ν → ν
  asRelation? : ν → Option (Relation κ ν)

namespace Relation

variable {κ ν : Type} [Hashed κ] [BEq κ] [Hashed ν] [BEq ν]

/-- The tuples of a relation, grouped by what they are without `attrs`: under each
    such part the relation of the parts on `attrs`. -/
def groupOutside (rel : Relation κ ν) (attrs : TrieSet κ) :
    TrieMap (Tuple κ ν) (Relation κ ν) :=
  rel.fold (fun groups tuple =>
    let outer := TrieMap.eraseMany tuple attrs.toList
    groups.insert outer ((groups.getD outer .empty).insert (TrieMap.project tuple attrs))) .empty

variable [HoldsRelation κ ν]

/-- Group the tuples by everything but `attrs`; what the tuples of a group have on
    `attrs` is gathered in a relation under `attr`. -/
def nest (rel : Relation κ ν) (attr : κ) (attrs : TrieSet κ) : Relation κ ν :=
  (rel.groupOutside attrs).fold (fun out outer inner =>
    out.insert (TrieMap.insert outer attr (HoldsRelation.ofRelation inner))) .empty

/-- Put in the tuples that one tuple stands for once `attr` is unnested. -/
def expand (attr : κ) (out : Relation κ ν) (tuple : Tuple κ ν) : Relation κ ν :=
  match (TrieMap.get? tuple attr).bind HoldsRelation.asRelation? with
  | none => out.insert tuple
  | some nested =>
    TrieSet.fold (fun (out : Relation κ ν) (inner : Tuple κ ν) =>
      out.insert ((TrieMap.erase tuple attr).update inner)) out nested

def unnestOne (rel : Relation κ ν) (attr : κ) : Relation κ ν := rel.fold (expand attr) .empty

/-- Unnest attributes, one after the other. -/
def unnest (rel : Relation κ ν) (attrs : TrieSet κ) : Relation κ ν := attrs.fold unnestOne rel

end Relation

end TrieCollections
