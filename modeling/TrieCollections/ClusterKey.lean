/-
  TrieCollections/ClusterKey.lean
  ===============================
  **Keys that collide on purpose.**  A hash may ignore part of what makes keys differ.
  A `ClusterKey` is hashed by its cluster alone, so different keys of one cluster have
  equal hashes under every seed and share all slots down to the full depth.  Its tag
  is ignored by the hash and by `==` alike: it shows which of two equal keys a
  collection has kept.
-/
import TrieCollections.Hashing.Hashed
import TrieCollections.Text.Outline

namespace TrieCollections

/-- A key hashed by its cluster and told apart by cluster and number. -/
structure ClusterKey where
  cluster : Int64
  number : Int64
  tag : String

namespace ClusterKey

/-- The tag takes no part. -/
instance : BEq ClusterKey where
  beq a b := a.cluster == b.cluster && a.number == b.number

instance : Hashed ClusterKey where
  words k := Hashed.words k.cluster

theorem beq_iff {a b : ClusterKey} :
    (a == b) = true ↔ a.cluster = b.cluster ∧ a.number = b.number := by
  show (a.cluster == b.cluster && a.number == b.number) = true ↔ _
  simp

instance : LawfulHashed ClusterKey where
  rfl := beq_iff.2 ⟨rfl, rfl⟩
  symm h := beq_iff.2 ⟨(beq_iff.1 h).1.symm, (beq_iff.1 h).2.symm⟩
  trans h h' :=
    beq_iff.2 ⟨(beq_iff.1 h).1.trans (beq_iff.1 h').1, (beq_iff.1 h).2.trans (beq_iff.1 h').2⟩
  hashSeeded_congr h seed :=
    congrArg (fun i : Int64 => Hashing.hashWords seed (Hashed.words i)) (beq_iff.1 h).1

/-- By cluster, number and tag. -/
def order (a b : ClusterKey) : Ordering :=
  ((compare a.cluster.toInt b.cluster.toInt).then (compare a.number.toInt b.number.toInt)).then
    (compare a.tag b.tag)

def outline (k : ClusterKey) : Outline :=
  .atom ("weak(" ++ toString k.cluster.toInt ++ "," ++ toString k.number.toInt ++ "," ++ k.tag
    ++ ")")

end ClusterKey

end TrieCollections
