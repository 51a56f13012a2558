/-
  TrieCollections/Proofs/JoinLaws.lean
  ====================================
  **The laws of the join.**  On relations with uniform headers the join is commutative,
  associative and idempotent.  Its own doing says little about that: with the operands swapped
  another side is walked, and with three operands bracketed in another way other headers are read
  and other keys divide the tuples.  But each join comprises the updates of the tuples that match,
  and so the laws are laws of matching and of updating:

    * two tuples that match can update each other (`update_comm_of_matches`), and updates are
      associative (`update_assoc`);
    * an update matches a third tuple exactly when both its parts do (`matches_update_left`), so
      in either bracketing three tuples come together when any two of them match.

  A join in between has a uniform header again (`uniform_join`).  When it is empty its header is
  lost, and nothing is to be read from it: then there are no tuples that match, in the other
  bracketing either.
-/
import TrieCollections.Proofs.Headers
import TrieCollections.Proofs.SetContents

namespace TrieCollections

/-! ### Tuples that match -/

namespace TrieMap

variable {κ ν : Type} [BEq κ] [Hashed κ] [BEq ν] [Hashed ν] {ok : κ → Prop} {okValue : ν → Prop}
  (law : LawfulOn ok) (lawValue : LawfulOn okValue) {x x' y y' z : TrieMap κ ν}
  (hx : x.WellFormed ok okValue) (hy : y.WellFormed ok okValue) (hz : z.WellFormed ok okValue)

include law lawValue hx hy

theorem matches_comm : Matches ok x y ↔ Matches ok y x := by
  constructor
  · intro h k hk v w hv hw
    exact lawValue.symm (hx.okValue_of_get? law hk hw) (hy.okValue_of_get? law hk hv)
      (h k hk w v hw hv)
  · intro h k hk v w hv hw
    exact lawValue.symm (hy.okValue_of_get? law hk hw) (hx.okValue_of_get? law hk hv)
      (h k hk w v hw hv)

/-- What matches is matched by equal maps. -/
theorem Matches.congr (hx' : x'.WellFormed ok okValue) (hy' : y'.WellFormed ok okValue)
    (hxx' : (x == x') = true) (hyy' : (y == y') = true) (h : Matches ok x y) :
    Matches ok x' y' := by
  rw [beq_iff_agree law hx hx' lawValue] at hxx'
  rw [beq_iff_agree law hy hy' lawValue] at hyy'
  intro k hk v' w' hv' hw'
  have hleft := hxx' k hk
  have hright := hyy' k hk
  rcases hv : x.get? k with _ | v <;> rw [hv, hv'] at hleft <;> cases hleft
  rcases hw : y.get? k with _ | w <;> rw [hw, hw'] at hright <;> cases hright
  next hvv' hww' =>
  have hokv := hx.okValue_of_get? law hk hv
  have hokw := hy.okValue_of_get? law hk hw
  have hokv' := hx'.okValue_of_get? law hk hv'
  have hokw' := hy'.okValue_of_get? law hk hw'
  have hvw' := lawValue.trans hokv hokw hokw' (h k hk v w hv hw) hww'
  exact lawValue.trans hokv' hokv hokw' (lawValue.symm hokv hokv' hvv') hvw'

/-- Of two maps that match either one can update the other. -/
theorem update_comm_of_matches (h : Matches ok x y) : (x.update y == y.update x) = true := by
  rw [beq_iff_agree law (hx.update law hy) (hy.update law hx) lawValue]
  intro k hk
  rw [get?_update law hx.trie hy.trie hk, get?_update law hy.trie hx.trie hk]
  rcases hv : x.get? k with _ | v <;> rcases hw : y.get? k with _ | w
  · exact .none
  · exact .some (lawValue.refl (hy.okValue_of_get? law hk hw))
  · exact .some (lawValue.refl (hx.okValue_of_get? law hk hv))
  · exact .some (lawValue.symm (hx.okValue_of_get? law hk hv) (hy.okValue_of_get? law hk hw)
      (h k hk v w hv hw))

include hz

theorem update_assoc : ((x.update y).update z == x.update (y.update z)) = true := by
  have hxy := hx.update law hy
  have hyz := hy.update law hz
  apply beq_of_get?_eq law lawValue (hxy.update law hz) (hx.update law hyz)
  intro k hk
  rw [get?_update law hxy.trie hz.trie hk, get?_update law hx.trie hy.trie hk,
    get?_update law hx.trie hyz.trie hk, get?_update law hy.trie hz.trie hk, Option.or_assoc]

/-- **An update of maps that match matches what both of them match.** -/
theorem matches_update_left (h : Matches ok x y) :
    Matches ok (x.update y) z ↔ Matches ok x z ∧ Matches ok y z := by
  have hget := fun k (hk : ok k) => get?_update law hx.trie hy.trie hk
  constructor
  · intro hmatch
    constructor
    · intro k hk v w hv hw
      rcases hv' : y.get? k with _ | v'
      · exact hmatch k hk v w (by rw [hget k hk, hv', hv]; rfl) hw
      · -- the update shows the value of `y`, and this equals the one of `x`
        have hvw := hmatch k hk v' w (by rw [hget k hk, hv']; rfl) hw
        exact lawValue.trans (hx.okValue_of_get? law hk hv) (hy.okValue_of_get? law hk hv')
          (hz.okValue_of_get? law hk hw) (h k hk v v' hv hv') hvw
    · intro k hk v w hv hw
      exact hmatch k hk v w (by rw [hget k hk, hv]; rfl) hw
  · rintro ⟨hleft, hright⟩ k hk v w hv hw
    rw [hget k hk, Option.or_eq_some_iff] at hv
    rcases hv with hv | ⟨-, hv⟩
    · exact hright k hk v w hv hw
    · exact hleft k hk v w hv hw

theorem matches_update_right (h : Matches ok y z) :
    Matches ok x (y.update z) ↔ Matches ok x y ∧ Matches ok x z := by
  rw [matches_comm law lawValue hx (hy.update law hz), matches_update_left law lawValue hy hz hx h,
    matches_comm law lawValue hy hx, matches_comm law lawValue hz hx]

end TrieMap

namespace Relation

open TrieMap (Matches ReachableWith)

variable {κ ν : Type} [BEq κ] [Hashed κ] [BEq ν] [Hashed ν] {ok : κ → Prop} {okValue : ν → Prop}
  (law : LawfulOn ok) (lawValue : LawfulOn okValue) {s t u : Relation κ ν}

/-- The updates of matching tuples, where the tuples on either side are described. -/
def Joined (ok : κ → Prop) (left right : Tuple κ ν → Prop) (r : Tuple κ ν) : Prop :=
  ∃ x y, left x ∧ right y ∧ Matches ok x y ∧ r = TrieMap.update x y

include law

theorem uniform_unit {x : Tuple κ ν} (hx : ReachableWith ok okValue x) : Uniform (.unit x) := by
  intro a ha b hb
  rw [TrieSet.toList_unit, List.mem_singleton] at ha hb
  rw [ha, hb]
  exact (TrieSet.lawfulOn law).refl (TrieMap.keySet_wellFormed law (hx.wellFormed law).trie)

include lawValue

/-- Relations of which the tuples have the same attributes have a header. -/
theorem Uniform.exists_headed (hs : s.Reachable (ReachableWith ok okValue))
    (huniform : s.Uniform) : ∃ header, Headed ok okValue header s := by
  rcases hany : s.any? with _ | x
  · refine ⟨.empty, .empty, hs, ?_⟩
    intro t ht
    rw [TrieSet.toList_eq_nil_of_any? hany] at ht
    cases ht
  · have hx := TrieSet.mem_of_any? hany
    have hwf := hs.wellFormed (TrieMap.lawfulOn_reachableWith law lawValue)
    have hwx := (TrieSet.lawful_of_mem hwf hx).wellFormed law
    exact ⟨x.keySet, .keySet fun _ he => TrieMap.lawful_of_mem hwx.trie he, hs,
      fun t ht => huniform t ht x hx⟩

/-- **A join of uniform relations is uniform.** -/
theorem uniform_join (hs : s.Reachable (ReachableWith ok okValue))
    (ht : t.Reachable (ReachableWith ok okValue)) (hsUniform : s.Uniform) (htUniform : t.Uniform) :
    (s.join t).Uniform := by
  obtain ⟨_, hheader⟩ := hsUniform.exists_headed law lawValue hs
  obtain ⟨_, hheader'⟩ := htUniform.exists_headed law lawValue ht
  exact (hheader.join law lawValue hheader').uniform law lawValue

section Two

variable (hs : s.trie.WellFormed (ReachableWith ok okValue))
  (ht : t.trie.WellFormed (ReachableWith ok okValue)) (hsUniform : s.Uniform)
  (htUniform : t.Uniform)

include hs ht hsUniform htUniform

/-- **The join comprises the updates of what matches**, whatever describes its operands. -/
theorem comprises_join {left right : Tuple κ ν → Prop}
    (hleft : s.Comprises (ReachableWith ok okValue) left)
    (hright : t.Comprises (ReachableWith ok okValue) right) :
    (s.join t).Comprises (ReachableWith ok okValue) (Joined ok left right) := by
  have lawTuple := TrieMap.lawfulOn_reachableWith law lawValue
  constructor
  · rintro _ ⟨x, y, hx, hy, -, rfl⟩
    exact (hleft.lawful x hx).update law (hright.lawful y hy)
  · intro r hr
    rw [contains_join law lawValue hs ht hsUniform htUniform hr]
    -- equal tuples match alike and have equal updates, so it does not matter which are stored
    have hpass : ∀ x x' y y' : Tuple κ ν, ReachableWith ok okValue x →
        ReachableWith ok okValue x' → ReachableWith ok okValue y → ReachableWith ok okValue y' →
        (x == x') = true → (y == y') = true → Matches ok x y →
        (r == TrieMap.update x y) = true →
        Matches ok x' y' ∧ (r == TrieMap.update x' y') = true := by
      intro x x' y y' hx hx' hy hy' hxx' hyy' hmatch heq
      have hupdate := TrieMap.update_congr law lawValue (hx.wellFormed law) (hx'.wellFormed law)
        hxx' (hy.wellFormed law) (hy'.wellFormed law) hyy'
      exact ⟨hmatch.congr law lawValue (hx.wellFormed law) (hy.wellFormed law)
          (hx'.wellFormed law) (hy'.wellFormed law) hxx' hyy',
        lawTuple.trans hr (hx.update law hy) (hx'.update law hy') heq hupdate⟩
    constructor
    · rintro ⟨x, hx, y, hy, hmatch, heq⟩
      obtain ⟨x', hx', hxx'⟩ := hleft.exists_of_mem lawTuple hs hx
      obtain ⟨y', hy', hyy'⟩ := hright.exists_of_mem lawTuple ht hy
      obtain ⟨hmatch', heq'⟩ := hpass x x' y y' (TrieSet.lawful_of_mem hs hx)
        (hleft.lawful x' hx') (TrieSet.lawful_of_mem ht hy) (hright.lawful y' hy') hxx' hyy' hmatch
        heq
      exact ⟨_, ⟨x', y', hx', hy', hmatch', rfl⟩, heq'⟩
    · rintro ⟨_, ⟨x, y, hx, hy, hmatch, rfl⟩, heq⟩
      obtain ⟨x', hx', hxx'⟩ := hleft.exists_mem lawTuple hs hx
      obtain ⟨y', hy', hyy'⟩ := hright.exists_mem lawTuple ht hy
      obtain ⟨hmatch', heq'⟩ := hpass x x' y y' (hleft.lawful x hx)
        (TrieSet.lawful_of_mem hs hx') (hright.lawful y hy) (TrieSet.lawful_of_mem ht hy') hxx'
        hyy' hmatch heq
      exact ⟨x', hx', y', hy', hmatch', heq'⟩

theorem join_comm : (s.join t == t.join s) = true := by
  have lawTuple := TrieMap.lawfulOn_reachableWith law lawValue
  have hmembers := TrieSet.comprises_toList lawTuple hs
  have hmembers' := TrieSet.comprises_toList lawTuple ht
  have hst := comprises_join law lawValue hs ht hsUniform htUniform hmembers hmembers'
  have hts := comprises_join law lawValue ht hs htUniform hsUniform hmembers' hmembers
  refine hst.beq lawTuple (hts.redescribe lawTuple hst.lawful ?_ ?_)
    ((reachable_join law lawValue hs ht).wellFormed lawTuple)
    ((reachable_join law lawValue ht hs).wellFormed lawTuple)
  · rintro _ ⟨y, x, hy, hx, hmatch, rfl⟩
    have hwx := (hmembers.lawful x hx).wellFormed law
    have hwy := (hmembers'.lawful y hy).wellFormed law
    exact ⟨_, ⟨x, y, hx, hy, (TrieMap.matches_comm law lawValue hwy hwx).mp hmatch, rfl⟩,
      TrieMap.update_comm_of_matches law lawValue hwy hwx hmatch⟩
  · rintro _ ⟨x, y, hx, hy, hmatch, rfl⟩
    have hwx := (hmembers.lawful x hx).wellFormed law
    have hwy := (hmembers'.lawful y hy).wellFormed law
    exact ⟨_, ⟨y, x, hy, hx, (TrieMap.matches_comm law lawValue hwx hwy).mp hmatch, rfl⟩,
      TrieMap.update_comm_of_matches law lawValue hwx hwy hmatch⟩

end Two

theorem join_self (hs : s.trie.WellFormed (ReachableWith ok okValue)) (hsUniform : s.Uniform) :
    (s.join s == s) = true := by
  have lawTuple := TrieMap.lawfulOn_reachableWith law lawValue
  have lawRelation := TrieSet.lawfulOn lawTuple
  have hjoin := (reachable_join law lawValue hs hs).wellFormed lawTuple
  have hmeet := TrieSet.wellFormed_intersection lawTuple hs hs
  have hsame : (s.intersection s == s) = true := by
    rw [TrieSet.beq_iff_contains lawTuple hmeet hs]
    intro r hr
    rw [TrieSet.contains_intersection lawTuple hs hs hr, Bool.and_self]
  exact lawRelation.trans hjoin hmeet hs
    (join_beq_intersection law lawValue hs hs hsUniform hsUniform hsUniform) hsame

section Three

variable (hs : s.Reachable (ReachableWith ok okValue)) (ht : t.Reachable (ReachableWith ok okValue))
  (hu : u.Reachable (ReachableWith ok okValue)) (hsUniform : s.Uniform) (htUniform : t.Uniform)
  (huUniform : u.Uniform)

include hs ht hu hsUniform htUniform huUniform

theorem join_assoc : ((s.join t).join u == s.join (t.join u)) = true := by
  have lawTuple := TrieMap.lawfulOn_reachableWith law lawValue
  have hws := hs.wellFormed lawTuple
  have hwt := ht.wellFormed lawTuple
  have hwu := hu.wellFormed lawTuple
  have hms := TrieSet.comprises_toList lawTuple hws
  have hmt := TrieSet.comprises_toList lawTuple hwt
  have hmu := TrieSet.comprises_toList lawTuple hwu
  have hst := (reachable_join law lawValue hws hwt).wellFormed lawTuple
  have htu := (reachable_join law lawValue hwt hwu).wellFormed lawTuple
  have hleft := comprises_join law lawValue hst hwu
    (uniform_join law lawValue hs ht hsUniform htUniform) huUniform
    (comprises_join law lawValue hws hwt hsUniform htUniform hms hmt) hmu
  have hright := comprises_join law lawValue hws htu hsUniform
    (uniform_join law lawValue ht hu htUniform huUniform) hms
    (comprises_join law lawValue hwt hwu htUniform huUniform hmt hmu)
  refine hleft.beq lawTuple (hright.redescribe lawTuple hleft.lawful ?_ ?_)
    ((reachable_join law lawValue hst hwu).wellFormed lawTuple)
    ((reachable_join law lawValue hws htu).wellFormed lawTuple)
  · rintro _ ⟨x, _, hx, ⟨y, z, hy, hz, hyz, rfl⟩, hmatch, rfl⟩
    have hokx := hms.lawful x hx
    have hoky := hmt.lawful y hy
    have hokz := hmu.lawful z hz
    have hwx := hokx.wellFormed law
    have hwy := hoky.wellFormed law
    have hwz := hokz.wellFormed law
    rw [TrieMap.matches_update_right law lawValue hwx hwy hwz hyz] at hmatch
    have hxyz := (TrieMap.matches_update_left law lawValue hwx hwy hwz hmatch.1).mpr
      ⟨hmatch.2, hyz⟩
    exact ⟨_, ⟨_, z, ⟨x, y, hx, hy, hmatch.1, rfl⟩, hz, hxyz, rfl⟩,
      lawTuple.symm ((hokx.update law hoky).update law hokz) (hokx.update law (hoky.update law hokz))
        (TrieMap.update_assoc law lawValue hwx hwy hwz)⟩
  · rintro _ ⟨_, z, ⟨x, y, hx, hy, hxy, rfl⟩, hz, hmatch, rfl⟩
    have hwx := (hms.lawful x hx).wellFormed law
    have hwy := (hmt.lawful y hy).wellFormed law
    have hwz := (hmu.lawful z hz).wellFormed law
    rw [TrieMap.matches_update_left law lawValue hwx hwy hwz hxy] at hmatch
    have hxyz := (TrieMap.matches_update_right law lawValue hwx hwy hwz hmatch.2).mpr
      ⟨hxy, hmatch.1⟩
    exact ⟨_, ⟨x, _, hx, ⟨y, z, hy, hz, hmatch.2, rfl⟩, hxyz, rfl⟩,
      TrieMap.update_assoc law lawValue hwx hwy hwz⟩

end Three

end Relation

open TrieMap (ReachableWith)

/-- **The join is commutative, associative and idempotent** on relations that came about by
    operations, each with one header.  The headers may have anything in common or nothing, and
    relations and joins in between may be empty. -/
theorem join_laws {κ ν : Type} [BEq κ] [Hashed κ] [BEq ν] [Hashed ν] {ok : κ → Prop}
    {okValue : ν → Prop} (law : LawfulOn ok) (lawValue : LawfulOn okValue) {s t u : Relation κ ν}
    (hs : s.Reachable (ReachableWith ok okValue)) (ht : t.Reachable (ReachableWith ok okValue))
    (hu : u.Reachable (ReachableWith ok okValue)) (hsUniform : s.Uniform) (htUniform : t.Uniform)
    (huUniform : u.Uniform) :
    (s.join t == t.join s) = true ∧
    ((s.join t).join u == s.join (t.join u)) = true ∧
    (s.join s == s) = true := by
  have lawTuple := TrieMap.lawfulOn_reachableWith law lawValue
  have hws := hs.wellFormed lawTuple
  exact ⟨Relation.join_comm law lawValue hws (ht.wellFormed lawTuple) hsUniform htUniform,
    Relation.join_assoc law lawValue hs ht hu hsUniform htUniform huUniform,
    Relation.join_self law lawValue hws hsUniform⟩

/-- The first two relations have no tuples that match, so one join in between is empty and has
    lost its header.  All attributes collide. -/
theorem join_laws_lost_header :
    let s : Relation ClusterKey Int64 := .unit (.unit ⟨7, 1, "a"⟩ 10)
    let t : Relation ClusterKey Int64 := .unit ((TrieMap.unit ⟨7, 1, "b"⟩ 11).insert ⟨7, 2, "c"⟩ 20)
    let u : Relation ClusterKey Int64 := .unit (.unit ⟨7, 2, "d"⟩ 20)
    LawfulOn (fun _ : ClusterKey => True) ∧ LawfulOn (fun _ : Int64 => True) ∧
    s.Uniform ∧ t.Uniform ∧ u.Uniform ∧
    (s.join t == t.join s) = true ∧
    ((s.join t).join u == s.join (t.join u)) = true ∧
    (s.join s == s) = true := by
  intro s t u
  have law : LawfulOn fun _ : ClusterKey => True := lawfulOn_true
  have lawValue : LawfulOn fun _ : Int64 => True := lawfulOn_true
  have hunit : ∀ k n, ReachableWith (fun _ => True) (fun _ => True)
      (TrieMap.unit k n : Tuple ClusterKey Int64) := fun _ _ => .unit law trivial trivial
  have hx := hunit ⟨7, 1, "a"⟩ 10
  have hy := (hunit ⟨7, 1, "b"⟩ 11).insert law (k := ⟨7, 2, "c"⟩) trivial (v := 20) trivial
  have hz := hunit ⟨7, 2, "d"⟩ 20
  have hsUniform : s.Uniform := Relation.uniform_unit law hx
  have htUniform : t.Uniform := Relation.uniform_unit law hy
  have huUniform : u.Uniform := Relation.uniform_unit law hz
  exact ⟨law, lawValue, hsUniform, htUniform, huUniform,
    join_laws law lawValue (.unit hx) (.unit hy) (.unit hz) hsUniform htUniform huUniform⟩

end TrieCollections
