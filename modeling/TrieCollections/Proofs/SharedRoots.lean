/-
  TrieCollections/Proofs/SharedRoots.lean
  =======================================
  **A shared root tells the truth.**  Whether two tries stand on one root is read off their
  stamps, and a stamp is only a number.  It can be trusted because of how it is handed on:

    * an edit that changes a trie leaves it without a stamp;
    * everything else hands on a root together with its stamp;
    * a trie without a stamp is given one that no trie had before.

  A `Shelf` keeps tries in this way.  Each step makes one more trie from those on the shelf,
  by edits, a filter or a merge, and marks it.  By induction on the steps a shelf is
  *honest*: all its stamps have been given out, and tries with one stamp have one root
  (`Shelf.honest_run`).  So two of its tries that are found to share their root do share it.
-/
import TrieCollections.Proofs.EditRuns
import TrieCollections.Proofs.LookupLaws

namespace TrieCollections

/-- Tries that are kept, and the supply of stamps for them. -/
structure Shelf (ε : Type) where
  tries : List (Trie ε)
  stamps : Stamps

/-- What the next trie on a shelf is made by, from the tries at some places of the shelf. -/
inductive Shelf.Step (ε κ : Type) where
  | empty
  | edit (place : Nat) (edits : List (Edit ε κ))
  | filter (place : Nat) (p : ε → Bool)
  | merge (rule : MergeRule) (left right : Nat)

variable {ε κ : Type} [Hashed κ] [BEq κ] [Keyed ε κ]

/-! ### How stamps are handed on -/

namespace Trie

/-- The trie has no stamp, or root and stamp of one of the others. -/
def Inherits (others : List (Trie ε)) (t : Trie ε) : Prop :=
  t.stamp = none ∨ ∃ u ∈ others, t.root = u.root ∧ t.stamp = u.stamp

theorem stamp_insertHashed (t : Trie ε) (hash : UInt64) (e : ε) :
    (t.insertHashed hash e).1.stamp = none := by
  unfold insertHashed
  dsimp only
  split <;> rfl

variable {others : List (Trie ε)} {t : Trie ε}

theorem inherits_insertHashed (t : Trie ε) (hash : UInt64) (e : ε) :
    (t.insertHashed hash e).1.Inherits others := .inl (stamp_insertHashed t hash e)

theorem Inherits.removeHashed (h : t.Inherits others) (hash : UInt64) (k : κ) :
    (t.removeHashed hash k).1.Inherits others := by
  unfold Trie.removeHashed
  dsimp only
  split
  · exact h
  · exact .inl rfl

theorem Inherits.apply (h : t.Inherits others) (edit : Edit ε κ) :
    (t.apply edit).1.Inherits others := by
  cases edit with
  | insert e => exact inherits_insertHashed t _ e
  | remove k => exact h.removeHashed _ k

theorem Inherits.filter (h : t.Inherits others) (p : ε → Bool) :
    (t.filter p).Inherits others := by
  refine List.foldlRecOn t.entries _ h ?_
  intro out hout x _
  split
  · exact hout
  · exact hout.removeHashed _ _

theorem Inherits.walk {left : Trie ε} (h : left.Inherits others) (rule : MergeRule)
    (right : Trie ε) : (rule.walk left right).Inherits others := by
  have hstart : (if rule.keepLeft then left else .empty : Trie ε).Inherits others := by
    split
    · exact h
    · exact .inl rfl
  refine List.foldlRecOn right.entries _ hstart ?_
  intro out hout x _
  unfold MergeRule.step
  split
  · split
    · split
      · exact hout.removeHashed _ _
      · exact hout
    · split
      · exact hout
      · exact inherits_insertHashed _ _ _
    · exact inherits_insertHashed _ _ _
  · split
    · exact inherits_insertHashed _ _ _
    · exact hout

theorem Inherits.merge {left right : Trie ε} (hleft : left.Inherits others)
    (hright : right.Inherits others) (rule : MergeRule) :
    (rule.merge left right).Inherits others := by
  unfold MergeRule.merge
  split
  · exact hright.walk rule.flip left
  · exact hleft.walk rule right

end Trie

/-! ### Shelves -/

namespace Shelf

def initial : Shelf ε := ⟨[], .initial⟩

/-- The trie at a place; there is nothing behind the last place. -/
def get (shelf : Shelf ε) (place : Nat) : Trie ε := shelf.tries[place]?.getD .empty

/-- Put one more trie on the shelf, marked. -/
def put (shelf : Shelf ε) (t : Trie ε) : Shelf ε :=
  ⟨(shelf.stamps.mark t).1 :: shelf.tries, (shelf.stamps.mark t).2⟩

def make (shelf : Shelf ε) : Step ε κ → Trie ε
  | .empty => .empty
  | .edit place edits => edits.foldl (fun t edit => (t.apply edit).1) (shelf.get place)
  | .filter place p => (shelf.get place).filter p
  | .merge rule left right => rule.merge (shelf.get left) (shelf.get right)

def run (steps : List (Step ε κ)) : Shelf ε :=
  steps.foldl (fun shelf step => shelf.put (shelf.make step)) initial

theorem run_concat (steps : List (Step ε κ)) (step : Step ε κ) :
    run (steps ++ [step]) = (run steps).put ((run steps).make step) := by
  rw [run, List.foldl_append]
  rfl

omit [Hashed κ] [BEq κ] [Keyed ε κ] in
theorem get_mem (shelf : Shelf ε) (place : Nat) :
    shelf.get place = .empty ∨ shelf.get place ∈ shelf.tries := by
  unfold get
  rcases h : shelf.tries[place]? with _ | t
  · exact .inl rfl
  · exact .inr (List.mem_of_getElem? h)

omit [Hashed κ] [BEq κ] [Keyed ε κ] in
theorem inherits_get (shelf : Shelf ε) (place : Nat) :
    (shelf.get place).Inherits shelf.tries := by
  rcases shelf.get_mem place with h | h
  · rw [h]
    exact .inl rfl
  · exact .inr ⟨_, h, rfl, rfl⟩

theorem inherits_make (shelf : Shelf ε) (step : Step ε κ) :
    (shelf.make step).Inherits shelf.tries := by
  cases step with
  | empty => exact .inl rfl
  | edit place edits =>
    refine List.foldlRecOn edits _ (shelf.inherits_get place) ?_
    intro t ht edit _
    exact ht.apply edit
  | filter place p => exact (shelf.inherits_get place).filter p
  | merge rule left right => exact (shelf.inherits_get left).merge (shelf.inherits_get right) rule

/-! ### Honest shelves -/

omit [Hashed κ] [BEq κ] [Keyed ε κ] in
structure Honest (shelf : Shelf ε) : Prop where
  given : ∀ t ∈ shelf.tries, ∀ n, t.stamp = some n → n < shelf.stamps.next
  oneRoot : ∀ t ∈ shelf.tries, ∀ u ∈ shelf.tries, ∀ n,
    t.stamp = some n → u.stamp = some n → t.root = u.root

omit [Hashed κ] [BEq κ] [Keyed ε κ] in
theorem honest_initial : (initial : Shelf ε).Honest := by
  constructor
  · intro t ht
    cases ht
  · intro t ht
    cases ht

omit [Hashed κ] [BEq κ] [Keyed ε κ] in
/-- A trie that has its stamp from the shelf can go back as it is. -/
theorem Honest.cons {shelf : Shelf ε} (h : shelf.Honest) {t : Trie ε}
    (ht : t.Inherits shelf.tries) : (⟨t :: shelf.tries, shelf.stamps⟩ : Shelf ε).Honest := by
  have hfrom : ∀ u ∈ t :: shelf.tries, ∀ n, u.stamp = some n →
      ∃ v ∈ shelf.tries, u.root = v.root ∧ v.stamp = some n := by
    intro u hu n hn
    rcases List.mem_cons.mp hu with rfl | hu
    · rcases ht with hnone | ⟨v, hv, hroot, hstamp⟩
      · rw [hnone] at hn
        cases hn
      · exact ⟨v, hv, hroot, hstamp ▸ hn⟩
    · exact ⟨u, hu, rfl, hn⟩
  constructor
  · intro u hu n hn
    obtain ⟨v, hv, -, hvn⟩ := hfrom u hu n hn
    exact h.given v hv n hvn
  · intro u hu w hw n hun hwn
    obtain ⟨v, hv, hroot, hvn⟩ := hfrom u hu n hun
    obtain ⟨v', hv', hroot', hvn'⟩ := hfrom w hw n hwn
    rw [hroot, hroot']
    exact h.oneRoot v hv v' hv' n hvn hvn'

omit [Hashed κ] [BEq κ] [Keyed ε κ] in
/-- **One more trie keeps a shelf honest.** -/
theorem Honest.put {shelf : Shelf ε} (h : shelf.Honest) {t : Trie ε}
    (ht : t.Inherits shelf.tries) : (shelf.put t).Honest := by
  unfold Shelf.put Stamps.mark
  split
  · -- the new stamp is above all that were given out
    have hold : ∀ u ∈ shelf.tries, u.stamp ≠ some shelf.stamps.next := by
      intro u hu hn
      exact Nat.lt_irrefl _ (h.given u hu _ hn)
    constructor
    · intro u hu n hn
      rcases List.mem_cons.mp hu with rfl | hu
      · obtain rfl := Option.some.inj hn
        exact Nat.lt_succ_self _
      · exact Nat.lt_succ_of_lt (h.given u hu n hn)
    · intro u hu w hw n hun hwn
      rcases List.mem_cons.mp hu with rfl | hu <;> rcases List.mem_cons.mp hw with rfl | hw
      · rfl
      · obtain rfl := Option.some.inj hun
        exact absurd hwn (hold w hw)
      · obtain rfl := Option.some.inj hwn
        exact absurd hun (hold u hu)
      · exact h.oneRoot u hu w hw n hun hwn
  · exact h.cons ht

/-- **A shelf stays honest**, whatever is put on it. -/
theorem honest_run (steps : List (Step ε κ)) : (run steps).Honest := by
  induction steps using List.reverseRecOn with
  | nil => exact honest_initial
  | append_singleton steps step ih =>
    rw [run_concat]
    exact ih.put ((run steps).inherits_make step)

omit [Hashed κ] [BEq κ] [Keyed ε κ] in
/-- Tries of an honest shelf that are found to share a root have one. -/
theorem Honest.root_eq {shelf : Shelf ε} (h : shelf.Honest) {s t : Trie ε}
    (hs : s ∈ shelf.tries) (ht : t ∈ shelf.tries) (hsame : s.sameRoot t = true) :
    s.root = t.root := by
  unfold Trie.sameRoot at hsame
  split at hsame
  · next hsroot htroot => rw [hsroot, htroot]
  · rw [Bool.and_eq_true, Option.isSome_iff_exists, beq_iff_eq] at hsame
    obtain ⟨⟨n, hn⟩, heq⟩ := hsame
    exact h.oneRoot s hs t ht n hn (heq ▸ hn)
  · cases hsame

/-! ### Well-formed shelves -/

def Step.keys : Step ε κ → List κ
  | .edit _ edits => edits.map Edit.key
  | _ => []

variable {ok : κ → Prop} (law : LawfulOn ok)

include law

theorem wellFormed_make {shelf : Shelf ε} (h : ∀ t ∈ shelf.tries, t.WellFormed ok)
    {step : Step ε κ} (hstep : ∀ k ∈ step.keys, ok k) : (shelf.make step).WellFormed ok := by
  have hget : ∀ place, (shelf.get place).WellFormed ok := by
    intro place
    rcases shelf.get_mem place with hplace | hplace
    · rw [hplace]
      exact Trie.wellFormed_empty
    · exact h _ hplace
  cases step with
  | empty => exact Trie.wellFormed_empty
  | edit place edits =>
    refine List.foldlRecOn edits _ (hget place) ?_
    intro t ht edit hedit
    exact (ht.apply law (hstep _ (List.mem_map_of_mem hedit))).1
  | filter place p => exact (hget place).filter law p
  | merge rule left right => exact rule.wellFormed_merge law (hget left) (hget right)

/-- All tries of a shelf are well-formed, by induction on the steps. -/
theorem wellFormed_run {steps : List (Step ε κ)} (hsteps : ∀ step ∈ steps, ∀ k ∈ step.keys, ok k) :
    ∀ t ∈ (run steps).tries, t.WellFormed ok := by
  induction steps using List.reverseRecOn with
  | nil =>
    intro t ht
    cases ht
  | append_singleton steps step ih =>
    have hbefore := ih fun s hs => hsteps s (List.mem_append_left _ hs)
    have hmade := wellFormed_make law hbefore
      (hsteps step (List.mem_append_right _ (List.mem_singleton_self _)))
    rw [run_concat]
    intro t ht
    rcases List.mem_cons.mp ht with rfl | ht
    · exact hmade.mark _
    · exact hbefore t ht

end Shelf

end TrieCollections
