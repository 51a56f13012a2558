/-
  TrieCollections/Relation/Join.lean
  ==================================
  **The natural join, by groups.**  Tuples match if they agree on the attributes that
  both headers have, and a matching pair is merged into one tuple; without common
  attributes that is the cartesian product.

  No two tuples are compared for that.  The headers are read from one tuple of each
  side.  Each side is grouped by the common part of its tuples, every group holding
  the other parts.  Then the groups of one side are looked up among those of the
  other, and their parts are put together again: the common part, the rest from one
  side, the rest from the other.  The three have no attribute in common, so the order
  does not matter, and the side with fewer groups is the one that is walked.

  An empty operand has no tuple to read a header from, and no match either.
-/
import TrieCollections.Relation.Basic

namespace TrieCollections

namespace Relation

variable {κ ν : Type} [Hashed κ] [BEq κ] [Hashed ν] [BEq ν]

/-- The tuples of a relation, split into a part on `keyAttrs` and a part on
    `restAttrs`: under each first part the set of the second parts. -/
def group (rel : Relation κ ν) (keyAttrs restAttrs : TrieSet κ) :
    TrieMap (Tuple κ ν) (Relation κ ν) :=
  rel.fold (fun groups tuple =>
    let key := TrieMap.project tuple keyAttrs
    groups.insert key ((groups.getD key .empty).insert (TrieMap.project tuple restAttrs))) .empty

/-- All tuples put together from a common part and one part of either side. -/
def mergeGroups (probe build : TrieMap (Tuple κ ν) (Relation κ ν)) : Relation κ ν :=
  probe.fold (fun out key ours =>
    match build.get? key with
    | none => out
    | some theirs =>
      ours.fold (fun out a =>
        theirs.fold (fun out b => out.insert ((TrieMap.update key a).update b)) out) out) .empty

def join (s t : Relation κ ν) : Relation κ ν :=
  match s.any?, t.any? with
  | some sTuple, some tTuple =>
    let sHeader := TrieMap.keySet sTuple
    let tHeader := TrieMap.keySet tTuple
    let common := sHeader.intersection tHeader
    let sGroups := s.group common (sHeader.difference common)
    let tGroups := t.group common (tHeader.difference common)
    if sGroups.size ≤ tGroups.size then mergeGroups sGroups tGroups
    else mergeGroups tGroups sGroups
  | _, _ => .empty

end Relation

end TrieCollections
