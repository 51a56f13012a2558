/-
  TrieCollections/Proofs/MergedEntries.lean
  =========================================
  **What a merge keeps.**  For one key a rule has to choose between what the left and what
  the right trie find under it; `MergeRule.pick` says how.  It looks at one key only: no
  size, no order and no walk occurs in it.

  A merge finds under every key what the rule picks.  The walk goes over the right trie and
  each of its entries assigns its own key (`assigned_step`), so after some of the entries
  the keys of these have been decided, and all others find what the start had for them
  (`Merged`).  Entries have different keys, so no key is decided twice.  That the walk edits
  a copy of the left trie while it looks into the left trie itself does no harm: the key
  that is looked up has not been touched.

  The same induction counts: every step adds one to the size, or takes one off, as the
  found and the picked entry say.  Summed up, that is the tally of the rule.
-/
import Mathlib.Data.List.Induction
import TrieCollections.Proofs.LookupLaws
import TrieCollections.Proofs.Reachable

namespace TrieCollections

namespace MergeRule

variable {ε κ : Type}

/-! ### The rule for one key -/

/-- What a rule keeps of what the left and the right trie find under a key. -/
def pick (rule : MergeRule) : Option ε → Option ε → Option ε
  | some l, some r =>
    match rule.shared with
    | .drop => none
    | .left => some l
    | .right => some r
  | some l, none => if rule.keepLeft then some l else none
  | none, some r => if rule.keepRight then some r else none
  | none, none => none

theorem pick_flip (rule : MergeRule) (l r : Option ε) : rule.flip.pick r l = rule.pick l r := by
  obtain ⟨keepLeft, keepRight, shared, tally⟩ := rule
  cases l with
  | none => cases r <;> rfl
  | some l =>
    cases r with
    | none => rfl
    | some r => cases shared <;> rfl

theorem pick_none (rule : MergeRule) (l : Option ε) :
    rule.pick l none = if rule.keepLeft then l else none := by
  cases l with
  | none => simp [pick]
  | some l => rfl

/-- The size that the picked entries make up, from the sizes of the tries and from the
    number of keys that both have. -/
def picked (rule : MergeRule) (left right shared : Nat) : Int :=
  (if rule.keepLeft then (left : Int) - shared else 0)
    + (if rule.keepRight then (right : Int) - shared else 0)
    + (if rule.shared = .drop then 0 else (shared : Int))

theorem picked_flip (rule : MergeRule) (left right shared : Nat) :
    rule.flip.picked right left shared = rule.picked left right shared := by
  obtain ⟨keepLeft, keepRight, choice, tally⟩ := rule
  cases keepLeft <;> cases keepRight <;> cases choice <;> simp [picked, flip, Shared.flip] <;> omega

/-- One more entry on the right: what was picked for its key gives way to what is picked
    now, and a key of the left trie is now shared. -/
theorem picked_succ (rule : MergeRule) (l : Option ε) (r : ε) (left done shared : Nat) :
    rule.picked left (done + 1) (shared + if l.isSome then 1 else 0)
        + (rule.pick l none).toList.length =
      rule.picked left done shared + (rule.pick l (some r)).toList.length := by
  obtain ⟨keepLeft, keepRight, choice, tally⟩ := rule
  cases l <;> cases keepLeft <;> cases keepRight <;> cases choice <;> simp [picked, pick] <;> omega

/-- The four rules of the set operations. -/
def operations : List MergeRule := [union, intersection, difference, symmetricDifference]

/-- The tally of each operation says what its rule picks, in both orders of the operands. -/
theorem count_eq_picked {rule : MergeRule} (h : rule ∈ operations) (left right shared : Nat) :
    rule.tally.count left right shared = rule.picked left right shared ∧
      rule.flip.tally.count right left shared = rule.flip.picked right left shared := by
  simp only [operations, List.mem_cons, List.not_mem_nil, or_false] at h
  rcases h with rfl | rfl | rfl | rfl <;>
    simp only [union, intersection, difference, symmetricDifference, flip, Tally.flip, Shared.flip,
      Tally.count, picked, reduceCtorEq, if_true, if_false, Bool.false_eq_true] <;>
    omega

/-! ### One step of the walk -/

variable [BEq κ] [Hashed κ] [Keyed ε κ] {ok : κ → Prop} (law : LawfulOn ok)
  {left right out : Trie ε}

include law

/-- **One step decides one key.**  The entry of the right trie assigns to its key what the
    rule picks, if the key still finds what the start had for it. -/
theorem assigned_step (rule : MergeRule) (hleft : left.WellFormed ok) (hout : out.WellFormed ok)
    {p : ε × UInt64} (hp : Stored ok p)
    (hopen : out.get? (Keyed.key p.1) = rule.pick (left.get? (Keyed.key p.1)) none) :
    Trie.Assigned ok out (Keyed.key p.1) (rule.pick (left.get? (Keyed.key p.1)) (some p.1))
      (rule.step left out p) := by
  have hk := hp.lawful
  have hself := Trie.assigned_self law hout hk
  rw [hopen, pick_none] at hself
  obtain ⟨e, hash⟩ := p
  obtain rfl : hash = hashValue (Keyed.key e) := hp.hash
  have hinsert : Trie.Assigned ok out (Keyed.key e) (some e)
      (out.insertHashed (hashValue (Keyed.key e)) e).1 :=
    Trie.assigned_insert law hout hk hk (law.refl hk)
  have hremove : Trie.Assigned ok out (Keyed.key e) none
      (out.removeHashed (hashValue (Keyed.key e)) (Keyed.key e)).1 :=
    Trie.assigned_remove law hout hk
  have hprobe : left.getHashed? (hashValue (Keyed.key e)) (Keyed.key e) = left.get? (Keyed.key e) :=
    rfl
  simp only [step, hprobe]
  rcases hfound : left.get? (Keyed.key e) with _ | found
  · rw [hfound] at hself
    by_cases hright : rule.keepRight = true
    · simpa only [pick, hright, if_true] using hinsert
    · simpa [pick, hright] using hself
  · rw [hfound] at hself
    obtain ⟨foundHash, hmem, hkey⟩ := (hleft.get?_eq_some_iff law hk).mp hfound
    have hfoundOk := hleft.lawful _ hmem
    cases hshared : rule.shared with
    | drop =>
      by_cases hkeep : rule.keepLeft = true
      · simpa only [pick, hshared, hkeep, if_true] using hremove
      · simpa [pick, hshared, hkeep] using hself
    | left =>
      by_cases hkeep : rule.keepLeft = true
      · simpa only [pick, hshared, hkeep, if_true] using hself
      · -- the left entry comes in under the hash of the right one, which is its own
        have hback := Trie.assigned_insert law hout hk hfoundOk hkey
        rw [Trie.insert, ← law.hashValue_congr hk hfoundOk hkey] at hback
        simpa [pick, hshared, hkeep] using hback
    | right => simpa only [pick, hshared] using hinsert

/-! ### The whole walk -/

omit law in
/-- The state of a walk over the right trie after the entries `done`. -/
structure Merged (ok : κ → Prop) (rule : MergeRule) (left : Trie ε) (done : List (ε × UInt64))
    (out : Trie ε) : Prop where
  wellFormed : out.WellFormed ok
  get?_eq : ∀ k, ok k → out.get? k = rule.pick (left.get? k) (entryUnder k done)
  size_eq : (out.size : Int) = rule.picked left.size done.length
    (done.countP fun p => (left.getHashed? p.2 (Keyed.key p.1)).isSome)

omit law in
theorem merged_start (rule : MergeRule) (hleft : left.WellFormed ok) :
    rule.Merged ok left [] (if rule.keepLeft then left else .empty) := by
  by_cases hkeep : rule.keepLeft = true
  · rw [if_pos hkeep]
    refine ⟨hleft, ?_, ?_⟩
    · intro k _
      show _ = rule.pick _ none
      rw [pick_none, if_pos hkeep]
    · simp [picked, hkeep]
  · rw [if_neg hkeep]
    refine ⟨Trie.wellFormed_empty, ?_, ?_⟩
    · intro k _
      show none = rule.pick _ none
      rw [pick_none, if_neg hkeep]
    · simp [picked, hkeep, Trie.empty]

theorem Merged.step {rule : MergeRule} (hleft : left.WellFormed ok) {done : List (ε × UInt64)}
    (h : rule.Merged ok left done out) {p : ε × UInt64} (hstored : ∀ q ∈ done ++ [p], Stored ok q)
    (hdistinct : DistinctKeys (done ++ [p])) :
    rule.Merged ok left (done ++ [p]) (rule.step left out p) := by
  have hp := hstored p (List.mem_append_right _ (List.mem_singleton_self p))
  have hk := hp.lawful
  have hnew : entryUnder (Keyed.key p.1) done = none := by
    rw [entryUnder_eq_none_iff]
    intro q hq
    exact ((List.pairwise_append.mp hdistinct).2.2 q hq p (List.mem_singleton_self p)).2
  have hopen : out.get? (Keyed.key p.1) = rule.pick (left.get? (Keyed.key p.1)) none := by
    rw [h.get?_eq _ hk, hnew]
  have hstep := rule.assigned_step law hleft h.wellFormed hp hopen
  refine ⟨hstep.wellFormed, ?_, ?_⟩
  · intro k hok
    have hlast : entryUnder k (done ++ [p]) =
        if k == Keyed.key p.1 then some p.1 else entryUnder k done := by
      rw [entryUnder_perm law (fun q hq => (hstored q hq).lawful) hdistinct hok
        (List.perm_append_singleton p done), entryUnder_cons]
    rw [hstep.get?_eq k hok, hlast]
    by_cases heq : (k == Keyed.key p.1) = true
    · rw [if_pos heq, if_pos heq, hleft.get?_congr law hok hk heq]
    · rw [if_neg heq, if_neg heq, h.get?_eq k hok]
  · have hsize := hstep.size_eq
    have hcount := h.size_eq
    have hpicked := rule.picked_succ (left.get? (Keyed.key p.1)) p.1 left.size done.length
      (done.countP fun q => (left.getHashed? q.2 (Keyed.key q.1)).isSome)
    rw [hopen] at hsize
    rw [List.countP_append, List.length_append, List.countP_singleton, List.length_singleton,
      hleft.getHashed?_eq law hp, ← hleft.get?_eq law hk]
    omega

/-- **What a walk makes.** -/
theorem merged_walk (rule : MergeRule) (hleft : left.WellFormed ok) (hright : right.WellFormed ok) :
    rule.Merged ok left right.entries (rule.walk left right) := by
  have hrun : ∀ es : List (ε × UInt64), (∀ p ∈ es, Stored ok p) → DistinctKeys es →
      rule.Merged ok left es
        (es.foldl (rule.step left) (if rule.keepLeft then left else .empty)) := by
    intro es hes hdistinct
    induction es using List.reverseRecOn with
    | nil => exact rule.merged_start hleft
    | append_singleton es p ih =>
      rw [List.foldl_append]
      have hbefore := ih (fun q hq => hes q (List.mem_append_left _ hq))
        (List.pairwise_append.mp hdistinct).1
      exact hbefore.step law hleft hes hdistinct
  exact hrun right.entries hright.stored (hright.distinct law)

theorem get?_walk (rule : MergeRule) (hleft : left.WellFormed ok) (hright : right.WellFormed ok)
    {k : κ} (hk : ok k) : (rule.walk left right).get? k = rule.pick (left.get? k) (right.get? k) := by
  rw [(rule.merged_walk law hleft hright).get?_eq k hk, hright.get?_eq law hk]

theorem get?_walk_flip (rule : MergeRule) (hleft : left.WellFormed ok)
    (hright : right.WellFormed ok) {k : κ} (hk : ok k) :
    (rule.flip.walk right left).get? k = rule.pick (left.get? k) (right.get? k) := by
  rw [rule.flip.get?_walk law hright hleft hk, pick_flip]

/-- **A merge finds what the rule picks**, whichever trie is walked. -/
theorem get?_merge (rule : MergeRule) (hleft : left.WellFormed ok) (hright : right.WellFormed ok)
    {k : κ} (hk : ok k) :
    (rule.merge left right).get? k = rule.pick (left.get? k) (right.get? k) := by
  unfold merge
  split
  · exact rule.get?_walk_flip law hleft hright hk
  · exact rule.get?_walk law hleft hright hk

theorem size_walk (rule : MergeRule) (hleft : left.WellFormed ok) (hright : right.WellFormed ok) :
    ((rule.walk left right).size : Int) =
      rule.picked left.size right.size (sharedCount left right) := by
  rw [(rule.merged_walk law hleft hright).size_eq, ← hright.size_eq]
  rfl

/-- Either trie has the same number of keys in common with the other one: that is the
    size of their intersection. -/
theorem sharedCount_comm (hleft : left.WellFormed ok) (hright : right.WellFormed ok) :
    sharedCount right left = sharedCount left right := by
  have hwalk := intersection.wellFormed_walk law hleft hright
  have hflip := intersection.flip.wellFormed_walk law hright hleft
  have hperm : (intersection.flip.walk right left).entries.Perm
      (intersection.walk left right).entries := by
    apply hflip.perm_of_get?_eq law hwalk
    intro k hk
    rw [intersection.get?_walk_flip law hleft hright hk, intersection.get?_walk law hleft hright hk]
  have hlength := hperm.length_eq
  rw [← hwalk.size_eq, ← hflip.size_eq] at hlength
  have hsize := intersection.size_walk law hleft hright
  have hsize' := intersection.flip.size_walk law hright hleft
  simp [picked, intersection, flip, Shared.flip] at hsize hsize' hlength
  omega

theorem size_merge (rule : MergeRule) (hleft : left.WellFormed ok) (hright : right.WellFormed ok) :
    ((rule.merge left right).size : Int) =
      rule.picked left.size right.size (sharedCount left right) := by
  unfold merge
  split
  · rw [rule.flip.size_walk law hright hleft, sharedCount_comm law hleft hright, picked_flip]
  · exact rule.size_walk law hleft hright

/-- With the operands swapped the flipped rule merges the same entries. -/
theorem perm_merge_flip (rule : MergeRule) (hleft : left.WellFormed ok)
    (hright : right.WellFormed ok) :
    (rule.flip.merge right left).entries.Perm (rule.merge left right).entries := by
  have hflip := rule.flip.wellFormed_merge law hright hleft
  apply hflip.perm_of_get?_eq law (rule.wellFormed_merge law hleft hright)
  intro k hk
  rw [rule.flip.get?_merge law hright hleft hk, rule.get?_merge law hleft hright hk, pick_flip]

/-! ### Any two tries -/

omit law in
/-- What the merges of two tries give. -/
structure MergesAsPicked (ok : κ → Prop) (left right : Trie ε) : Prop where
  /-- Under every key the merge finds what the rule picks. -/
  merged : ∀ (rule : MergeRule) (k : κ), ok k →
    (rule.merge left right).get? k = rule.pick (left.get? k) (right.get? k)
  /-- So do both walks, whatever the sizes are: the one over the right trie, and the one over
      the left trie by the flipped rule. -/
  walked : ∀ (rule : MergeRule) (k : κ), ok k →
    (rule.walk left right).get? k = rule.pick (left.get? k) (right.get? k) ∧
    (rule.flip.walk right left).get? k = rule.pick (left.get? k) (right.get? k)
  /-- The flipped rule merges the same entries out of the swapped tries. -/
  flipped : ∀ rule : MergeRule,
    (rule.flip.merge right left).entries.Perm (rule.merge left right).entries
  /-- Union and intersection keep the right entry of a shared key, on both walks. -/
  rightEntry : ∀ rule ∈ [union, intersection], ∀ (k : κ) (l r : ε), ok k →
    left.get? k = some l → right.get? k = some r →
      (rule.merge left right).get? k = some r ∧ (rule.walk left right).get? k = some r ∧
      (rule.flip.walk right left).get? k = some r
  /-- The tally of each operation is not negative, and it is the size of the result. -/
  tallied : ∀ rule ∈ operations,
    0 ≤ rule.tally.count left.size right.size (sharedCount left right) ∧
    rule.tally.count left.size right.size (sharedCount left right) = (rule.merge left right).size ∧
    rule.tally.count left.size right.size (sharedCount left right) = (rule.walk left right).size ∧
    rule.flip.tally.count right.size left.size (sharedCount right left) =
      (rule.flip.walk right left).size

theorem mergesAsPicked (hleft : left.WellFormed ok) (hright : right.WellFormed ok) :
    MergesAsPicked ok left right := by
  constructor
  · intro rule k hk
    exact rule.get?_merge law hleft hright hk
  · intro rule k hk
    exact ⟨rule.get?_walk law hleft hright hk, rule.get?_walk_flip law hleft hright hk⟩
  · intro rule
    exact rule.perm_merge_flip law hleft hright
  · intro rule hrule k l r hk hl hr
    rw [rule.get?_merge law hleft hright hk, rule.get?_walk law hleft hright hk,
      rule.get?_walk_flip law hleft hright hk, hl, hr]
    simp only [List.mem_cons, List.not_mem_nil, or_false] at hrule
    rcases hrule with rfl | rfl <;> exact ⟨rfl, rfl, rfl⟩
  · intro rule hrule
    have hcount := (count_eq_picked hrule left.size right.size (sharedCount left right)).1
    have hflip := (count_eq_picked hrule left.size right.size (sharedCount right left)).2
    have hwalk := rule.size_walk law hleft hright
    have hwalk' := rule.flip.size_walk law hright hleft
    have hmerge := rule.size_merge law hleft hright
    rw [hflip, ← hwalk', hcount, ← hwalk]
    exact ⟨Int.natCast_nonneg _, hwalk.trans hmerge.symm, rfl, rfl⟩

end MergeRule

/-- **Merges keep what the rule picks.**  For tries of any entries, and so for the tries of all
    sets and maps that come about: under every key a merge finds what the rule picks from what
    the operands find there, whichever of them is larger, and the sizes come out as tallied. -/
theorem merges_keep_picked {ε κ ν : Type} [BEq κ] [Hashed κ] [Keyed ε κ] [Hashed ν]
    {ok : κ → Prop} (law : LawfulOn ok) :
    (∀ left right : Trie ε, left.WellFormed ok → right.WellFormed ok →
      MergeRule.MergesAsPicked ok left right) ∧
    (∀ s t : TrieSet κ, s.Reachable ok → t.Reachable ok →
      MergeRule.MergesAsPicked ok s.trie t.trie) ∧
    ∀ m n : TrieMap κ ν, m.Reachable ok → n.Reachable ok →
      MergeRule.MergesAsPicked ok m.trie n.trie := by
  refine ⟨?_, ?_, ?_⟩
  · intro left right hleft hright
    exact MergeRule.mergesAsPicked law hleft hright
  · intro s t hs ht
    exact MergeRule.mergesAsPicked law (hs.wellFormed law) (ht.wellFormed law)
  · intro m n hm hn
    exact MergeRule.mergesAsPicked law (hm.wellFormed law) (hn.wellFormed law)

/-- A smaller set on the left: the walk goes over it by the flipped rule, and the member that
    stays is still the right one. -/
theorem merges_keep_picked_mirrored :
    LawfulOn (fun _ : ClusterKey => True) ∧
    let s := TrieSet.unit (⟨7, 1, "left"⟩ : ClusterKey)
    let t := (TrieSet.unit (⟨7, 1, "right"⟩ : ClusterKey)).insert ⟨7, 2, "other"⟩
    (MergeRule.intersection.merge s.trie t.trie).get? ⟨7, 1, "sought"⟩ = some ⟨⟨7, 1, "right"⟩⟩ ∧
    (MergeRule.union.flip.walk t.trie s.trie).get? ⟨7, 1, "sought"⟩ = some ⟨⟨7, 1, "right"⟩⟩ := by
  refine ⟨lawfulOn_true, ?_⟩
  intro s t
  have hs : s.Reachable fun _ => True := .unit trivial
  have ht : t.Reachable fun _ => True := .insert (.unit trivial) trivial
  have hempty : (Trie.empty : Trie (Member ClusterKey)).WellFormed fun _ => True :=
    Trie.wellFormed_empty
  have hunit := hempty.insert lawfulOn_true (e := ⟨⟨7, 1, "right"⟩⟩) trivial
  have hleft : s.trie.get? ⟨7, 1, "sought"⟩ = some ⟨⟨7, 1, "left"⟩⟩ :=
    hempty.get?_insert lawfulOn_true trivial trivial
  have hright : t.trie.get? ⟨7, 1, "sought"⟩ = some ⟨⟨7, 1, "right"⟩⟩ :=
    (hunit.1.get?_insert lawfulOn_true trivial trivial).trans
      (hempty.get?_insert lawfulOn_true trivial trivial)
  have hmerges := (@merges_keep_picked (Member ClusterKey) ClusterKey Int64 _ _ _ _ _
    lawfulOn_true).2.1 s t hs ht
  exact ⟨(hmerges.rightEntry .intersection (by simp) _ _ _ trivial hleft hright).1,
    (hmerges.rightEntry .union (by simp) _ _ _ trivial hleft hright).2.2⟩

end TrieCollections
