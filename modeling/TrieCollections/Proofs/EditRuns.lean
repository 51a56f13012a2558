/-
  TrieCollections/Proofs/EditRuns.lean
  ====================================
  **Runs of edits.**  A run inserts and removes, one edit after the other, from the empty
  collection on.  What a key has to find afterwards can be read off the history alone: go
  back to the last edit of an equal key; if that was an insertion, its entry is the one,
  and otherwise there is none (`latest`).  No trie occurs in that.

  A trie answers as the history says, at every point of every run and for every hash.  So
  do sets and maps, whose edits are those of their tries.  In particular the entry found
  is the one inserted last, and not an older one with an equal key.
-/
import Mathlib.Data.List.Induction
import TrieCollections.ClusterKey
import TrieCollections.Proofs.CollectionEdits

namespace TrieCollections

inductive Edit (ε κ : Type) where
  | insert (entry : ε)
  | remove (key : κ)

variable {ε κ : Type} [Keyed ε κ]

def Edit.key : Edit ε κ → κ
  | insert e => Keyed.key e
  | remove k => k

/-- The entry that an edit leaves under its key. -/
def Edit.entry? : Edit ε κ → Option ε
  | insert e => some e
  | remove _ => none

variable [BEq κ]

/-- What a history of edits leaves under a key: what the last edit of an equal key left. -/
def latest (edits : List (Edit ε κ)) (k : κ) : Option ε :=
  (edits.reverse.find? fun edit => k == edit.key).bind Edit.entry?

theorem latest_concat (edits : List (Edit ε κ)) (edit : Edit ε κ) (k : κ) :
    latest (edits ++ [edit]) k = if k == edit.key then edit.entry? else latest edits k := by
  rw [latest, List.reverse_append, List.reverse_singleton, List.singleton_append, List.find?_cons]
  split <;> simp_all [latest]

variable [Hashed κ]

/-! ### Runs on a trie -/

namespace Trie

/-- One edit, with the entry that it replaced or took out. -/
def apply (t : Trie ε) : Edit ε κ → Trie ε × Option ε
  | .insert e => t.insert e
  | .remove k => t.remove k

def run (edits : List (Edit ε κ)) : Trie ε := edits.foldl (fun t edit => (t.apply edit).1) empty

theorem run_concat (edits : List (Edit ε κ)) (edit : Edit ε κ) :
    run (edits ++ [edit]) = ((run edits).apply edit).1 := by
  rw [run, List.foldl_append]
  rfl

variable {ok : κ → Prop} (law : LawfulOn ok)

include law

/-- **What one edit does**: the trie stays well-formed, the answer is what the key found
    before, the key finds what the edit left, and other keys find what they found. -/
theorem WellFormed.apply {t : Trie ε} (h : t.WellFormed ok) {edit : Edit ε κ}
    (hedit : ok edit.key) :
    (t.apply edit).1.WellFormed ok ∧ (t.apply edit).2 = t.get? edit.key ∧
      ∀ k, ok k → (t.apply edit).1.get? k = if k == edit.key then edit.entry? else t.get? k := by
  cases edit with
  | insert e =>
    exact ⟨(h.insert law hedit).1, h.insert_snd law hedit,
      fun k hk => h.get?_insert law hedit hk⟩
  | remove k =>
    exact ⟨(h.remove law hedit).1, h.remove_snd law hedit,
      fun k' hk' => h.get?_remove law hedit hk'⟩

/-- **What a run does**: by induction on its edits, the last one last. -/
theorem wellFormed_run {edits : List (Edit ε κ)} (hedits : ∀ edit ∈ edits, ok edit.key) :
    (run edits).WellFormed ok ∧ ∀ k, ok k → (run edits).get? k = latest edits k := by
  induction edits using List.reverseRecOn with
  | nil => exact ⟨wellFormed_empty, fun _ _ => rfl⟩
  | append_singleton edits edit ih =>
    obtain ⟨hwf, hget⟩ := ih fun c hc => hedits c (List.mem_append_left _ hc)
    obtain ⟨hwf', -, hget'⟩ :=
      hwf.apply law (hedits edit (List.mem_append_right _ (List.mem_singleton_self _)))
    rw [run_concat]
    refine ⟨hwf', fun k hk => ?_⟩
    rw [hget' k hk, hget k hk, latest_concat]

end Trie

/-! ### Runs on a set and on a map -/

def TrieSet.run (edits : List (Edit (Member κ) κ)) : TrieSet κ :=
  edits.foldl (fun s edit =>
    match edit with
    | .insert m => s.insert m.value
    | .remove x => s.erase x) .empty

def TrieMap.run {ν : Type} [Hashed ν] (edits : List (Edit (κ × ν) κ)) : TrieMap κ ν :=
  edits.foldl (fun m edit =>
    match edit with
    | .insert e => m.insert e.1 e.2
    | .remove k => m.erase k) .empty

theorem TrieSet.trie_run (edits : List (Edit (Member κ) κ)) :
    (run edits).trie = Trie.run edits := by
  induction edits using List.reverseRecOn with
  | nil => rfl
  | append_singleton edits edit ih =>
    rw [Trie.run_concat, ← ih, run, List.foldl_append]
    cases edit <;> rfl

theorem TrieMap.trie_run {ν : Type} [Hashed ν] (edits : List (Edit (κ × ν) κ)) :
    (run edits).trie = Trie.run edits := by
  induction edits using List.reverseRecOn with
  | nil => rfl
  | append_singleton edits edit ih =>
    rw [Trie.run_concat, ← ih, run, List.foldl_append]
    cases edit <;> rfl

/-! ### The answers of a run -/

/-- **Collections answer as the history of their edits says.**  After any run, a key finds
    what the last edit of an equal key left; an insertion hands back what it replaced and a
    removal what it took out, which is what the key found before; and no edit changes what
    another key finds.  That holds for tries of any entries, for sets and for maps, for all
    keys on which `==` is lawful, whatever else their hashes do. -/
theorem run_answers_latest {ν : Type} [Hashed ν] {ok : κ → Prop} (law : LawfulOn ok) :
    (∀ edits : List (Edit ε κ), (∀ edit ∈ edits, ok edit.key) →
      (∀ k, ok k → (Trie.run edits).get? k = latest edits k) ∧
      (∀ e, ok (Keyed.key e) → ((Trie.run edits).insert e).2 = latest edits (Keyed.key e)) ∧
      (∀ k, ok k → ((Trie.run edits).remove k).2 = latest edits k) ∧
      ∀ edit k, ok edit.key → ok k → (k == edit.key) = false →
        ((Trie.run edits).apply edit).1.get? k = (Trie.run edits).get? k) ∧
    (∀ edits : List (Edit (Member κ) κ), (∀ edit ∈ edits, ok edit.key) →
      (∀ x, ok x →
        (TrieSet.run edits).get? x = (latest edits x).map Member.value ∧
        ((TrieSet.run edits).exchange x).2 = (latest edits x).map Member.value ∧
        ((TrieSet.run edits).extract x).2 = (latest edits x).map Member.value) ∧
      ∀ x y, ok x → ok y → (y == x) = false →
        ((TrieSet.run edits).insert x).get? y = (TrieSet.run edits).get? y ∧
        ((TrieSet.run edits).erase x).get? y = (TrieSet.run edits).get? y) ∧
    ∀ edits : List (Edit (κ × ν) κ), (∀ edit ∈ edits, ok edit.key) →
      (∀ k, ok k →
        TrieMap.getEntry? (TrieMap.run edits) k = latest edits k ∧
        (TrieMap.run edits).get? k = (latest edits k).map Prod.snd ∧
        (∀ v, ((TrieMap.run edits).exchange k v).2 = (latest edits k).map Prod.snd) ∧
        ((TrieMap.run edits).extract k).2 = latest edits k) ∧
      ∀ k k' v, ok k → ok k' → (k' == k) = false →
        TrieMap.getEntry? ((TrieMap.run edits).insert k v) k' =
          TrieMap.getEntry? (TrieMap.run edits) k' ∧
        TrieMap.getEntry? ((TrieMap.run edits).erase k) k' =
          TrieMap.getEntry? (TrieMap.run edits) k' := by
  refine ⟨?_, ?_, ?_⟩
  · intro edits hedits
    obtain ⟨hwf, hget⟩ := Trie.wellFormed_run law hedits
    refine ⟨hget, fun e he => ?_, fun k hk => ?_, fun edit k hedit hk hne => ?_⟩
    · rw [hwf.insert_snd law he, hget _ he]
    · rw [hwf.remove_snd law hk, hget k hk]
    · rw [(hwf.apply law hedit).2.2 k hk, hne]
      rfl
  · intro edits hedits
    obtain ⟨hwf, hget⟩ := Trie.wellFormed_run law hedits
    rw [← TrieSet.trie_run] at hwf hget
    have hfound : ∀ x, ok x → (TrieSet.run edits).get? x = (latest edits x).map Member.value :=
      fun x hx => congrArg _ (hget x hx)
    refine ⟨fun x hx => ⟨hfound x hx, ?_, ?_⟩, fun x y hx hy hne => ⟨?_, ?_⟩⟩
    · rw [TrieSet.exchange_snd law hwf hx, hfound x hx]
    · rw [TrieSet.extract_snd law hwf hx, hfound x hx]
    · rw [TrieSet.get?_insert law hwf hx hy, hne]
      rfl
    · rw [TrieSet.get?_erase law hwf hx hy, hne]
      rfl
  · intro edits hedits
    obtain ⟨hwf, hget⟩ := Trie.wellFormed_run law hedits
    rw [← TrieMap.trie_run] at hwf hget
    have hfound : ∀ k, ok k → (TrieMap.run edits).get? k = (latest edits k).map Prod.snd :=
      fun k hk => congrArg _ (hget k hk)
    refine ⟨fun k hk => ⟨hget k hk, hfound k hk, fun v => ?_, ?_⟩,
      fun k k' v hk hk' hne => ⟨?_, ?_⟩⟩
    · rw [TrieMap.exchange_snd law hwf hk, hfound k hk]
    · rw [TrieMap.extract_snd law hwf hk]
      exact hget k hk
    · rw [TrieMap.getEntry?_insert law hwf hk hk', hne]
      rfl
    · rw [TrieMap.getEntry?_erase law hwf hk hk', hne]
      rfl

/-- Three keys that share all their hashes, one of them replaced and one removed. -/
theorem run_answers_latest_colliding :
    LawfulOn (fun _ : ClusterKey => True) ∧
    TrieMap.getEntry? (TrieMap.run [.insert (⟨7, 1, "first"⟩, (10 : Int64)),
      .insert (⟨7, 2, "second"⟩, 20), .insert (⟨7, 3, "third"⟩, 30),
      .insert (⟨7, 1, "again"⟩, 11), .remove (⟨7, 2, ""⟩ : ClusterKey)]) ⟨7, 1, "sought"⟩ =
        some (⟨7, 1, "again"⟩, 11) :=
  ⟨lawfulOn_true,
    (((@run_answers_latest (ClusterKey × Int64) _ _ _ _ _ _ _ lawfulOn_true).2.2 _
      fun _ _ => trivial).1 _ trivial).1⟩

end TrieCollections
