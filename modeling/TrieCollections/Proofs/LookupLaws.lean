/-
  TrieCollections/Proofs/LookupLaws.lean
  ======================================
  **A well-formed trie is its lookups.**  Two tries that find the same entry under every
  key hold the same entries, in some order (`perm_of_get?_eq`).  So it is enough to say of
  an operation what is found afterwards.

  Most operations go through a list and *assign* one key after the other: after the step
  this key finds a given entry, or nothing, and all other keys find what they found
  (`Assigned`).  An insertion assigns, a removal assigns, and so does doing nothing where
  the key finds the right thing already.  The size is then the old one, corrected by what
  the key found before and finds now.
-/
import TrieCollections.Proofs.TrieEdits

namespace TrieCollections

/-! ### Well-formed for other keys -/

/-- The shape of a node asks nothing more of the keys than that the stored ones are
    lawful, so the predicate can be changed as long as these satisfy it. -/
theorem Node.WellFormed.relabel {ε κ : Type} [BEq κ] [Hashed κ] [Keyed ε κ] {ok ok' : κ → Prop}
    {depth : Nat} {node : Node ε} (h : node.WellFormed ok depth)
    (hok : ∀ p ∈ node.entries, ok' (Keyed.key p.1)) : node.WellFormed ok' depth := by
  induction h with
  | leaf deep stored =>
    refine .leaf deep ⟨hok _ ?_, stored.hash⟩
    rw [Node.entries_leaf]
    exact List.mem_singleton_self _
  | collision two stored distinct =>
    rw [Node.entries_collision] at hok
    exact .collision two (fun p hp => ⟨hok p hp, (stored p hp).hash⟩) distinct
  | branch deep exact two below routed ih =>
    refine .branch deep exact two ?_ routed
    intro i kid hi
    apply ih i kid hi
    intro p hp
    exact hok p ((Node.mem_entries_branch exact).mpr ⟨i, kid, hi, hp⟩)

namespace Trie

variable {ε κ : Type} [BEq κ] [Hashed κ] [Keyed ε κ]

theorem WellFormed.relabel {ok ok' : κ → Prop} {t : Trie ε} (h : t.WellFormed ok)
    (hok : ∀ p ∈ t.entries, ok' (Keyed.key p.1)) : t.WellFormed ok' := by
  refine ⟨?_, h.size_eq, h.hash_eq⟩
  intro node hroot
  apply (h.nodes node hroot).relabel
  intro p hp
  apply hok
  rw [entries_eq, hroot, Node.entriesOf_some]
  exact hp

variable {ok : κ → Prop} (law : LawfulOn ok) {t : Trie ε}

include law

namespace WellFormed

/-! ### Lookups and entries -/

/-- Equal keys find the same entry. -/
theorem get?_congr (h : t.WellFormed ok) {k l : κ} (hk : ok k) (hl : ok l)
    (heq : (k == l) = true) : t.get? k = t.get? l := by
  apply Option.ext
  intro e
  rw [h.get?_eq_some_iff law hk, h.get?_eq_some_iff law hl]
  apply exists_congr
  intro hash
  apply and_congr_right
  intro hmem
  rw [law.beq_congr hk hl (h.lawful _ hmem) heq]

theorem get?_of_mem (h : t.WellFormed ok) {p : ε × UInt64} (hp : p ∈ t.entries) :
    t.get? (Keyed.key p.1) = some p.1 := by
  have hok := h.lawful p hp
  rw [h.get?_eq_some_iff law hok]
  exact ⟨p.2, hp, law.refl hok⟩

/-- An entry is listed when it is the one that its own key finds, and then with the hash of that
    key. -/
theorem mem_entries_iff (h : t.WellFormed ok) {p : ε × UInt64} (hk : ok (Keyed.key p.1)) :
    p ∈ t.entries ↔ t.get? (Keyed.key p.1) = some p.1 ∧ p.2 = hashValue (Keyed.key p.1) := by
  constructor
  · intro hp
    exact ⟨h.get?_of_mem law hp, (h.stored p hp).hash⟩
  · rintro ⟨hfound, hhash⟩
    obtain ⟨hash, hmem, -⟩ := (h.get?_eq_some_iff law hk).mp hfound
    have hsame : hash = p.2 := (h.stored _ hmem).hash.trans hhash.symm
    rw [hsame] at hmem
    exact hmem

theorem nodup_entries (h : t.WellFormed ok) : t.entries.Nodup := by
  apply List.Pairwise.imp_of_mem _ (h.distinct law)
  intro p q hp hq hne heq
  subst heq
  have hrefl := law.refl (h.lawful p hp)
  rw [hne.1] at hrefl
  cases hrefl

/-- **Tries with the same lookups hold the same entries.** -/
theorem perm_of_get?_eq {s : Trie ε} (hs : s.WellFormed ok) (ht : t.WellFormed ok)
    (hsame : ∀ k, ok k → s.get? k = t.get? k) : s.entries.Perm t.entries := by
  have hsub : ∀ {u v : Trie ε}, u.WellFormed ok → v.WellFormed ok →
      (∀ k, ok k → u.get? k = v.get? k) → ∀ p ∈ u.entries, p ∈ v.entries := by
    intro u v hu hv hsame p hp
    have hok := hu.lawful p hp
    rw [hv.mem_entries_iff law hok, ← hsame _ hok]
    exact (hu.mem_entries_iff law hok).mp hp
  rw [List.perm_ext_iff_of_nodup (hs.nodup_entries law) (ht.nodup_entries law)]
  intro p
  constructor
  · exact hsub hs ht hsame p
  · exact hsub ht hs (fun k hk => (hsame k hk).symm) p

theorem size_insert (h : t.WellFormed ok) {e : ε} (he : ok (Keyed.key e)) :
    (t.insert e).1.size = t.size + if (t.get? (Keyed.key e)).isNone then 1 else 0 := by
  obtain ⟨hwf, hplaced⟩ := h.insert law he
  rw [hwf.size_eq, h.size_eq, hplaced.length_after, h.insert_snd law he]

end WellFormed

/-! ### Assigning one key -/

omit law in
/-- Of all keys, those equal to `k` find `found?` afterwards and the others find what they
    found before. -/
structure Assigned (ok : κ → Prop) (before : Trie ε) (k : κ) (found? : Option ε)
    (after : Trie ε) : Prop where
  wellFormed : after.WellFormed ok
  get?_eq : ∀ l, ok l → after.get? l = if l == k then found? else before.get? l
  size_eq : after.size + (before.get? k).toList.length = before.size + found?.toList.length

theorem assigned_insert (h : t.WellFormed ok) {k : κ} (hk : ok k) {e : ε} (he : ok (Keyed.key e))
    (hkey : (k == Keyed.key e) = true) : Assigned ok t k (some e) (t.insert e).1 := by
  refine ⟨(h.insert law he).1, ?_, ?_⟩
  · intro l hl
    rw [h.get?_insert law he hl, law.beq_comm hl hk, law.beq_congr hk he hl hkey,
      law.beq_comm he hl]
  · rw [h.size_insert law he, h.get?_congr law hk he hkey]
    rcases t.get? (Keyed.key e) with _ | old <;> simp

theorem assigned_remove (h : t.WellFormed ok) {k : κ} (hk : ok k) :
    Assigned ok t k none (t.remove k).1 := by
  refine ⟨(h.remove law hk).1, ?_, ?_⟩
  · intro l hl
    exact h.get?_remove law hk hl
  · have hsize := h.size_remove law hk
    rw [h.remove_snd law hk] at hsize
    rcases hfound : t.get? k with _ | old <;> simp_all

theorem assigned_self (h : t.WellFormed ok) {k : κ} (hk : ok k) :
    Assigned ok t k (t.get? k) t := by
  refine ⟨h, ?_, rfl⟩
  intro l hl
  by_cases hlk : (l == k) = true
  · rw [if_pos hlk, h.get?_congr law hl hk hlk]
  · rw [if_neg hlk]

/-! ### Removing many keys -/

theorem WellFormed.foldl_remove (h : t.WellFormed ok) {ks : List κ} (hks : ∀ k ∈ ks, ok k) :
    (ks.foldl (fun out k => (out.remove k).1) t).WellFormed ok ∧
      ∀ l, ok l → (ks.foldl (fun out k => (out.remove k).1) t).get? l =
        if ks.any (l == ·) then none else t.get? l := by
  induction ks generalizing t with
  | nil => exact ⟨h, fun l _ => rfl⟩
  | cons k ks ih =>
    have hk := hks k List.mem_cons_self
    obtain ⟨hwf, hget⟩ := ih (h.remove law hk).1 fun l hl => hks l (List.mem_cons_of_mem _ hl)
    refine ⟨hwf, ?_⟩
    intro l hl
    rw [List.foldl_cons, hget l hl, h.get?_remove law hk hl, List.any_cons]
    by_cases hlk : (l == k) = true
    · simp [hlk]
    · simp [hlk]

/-- **After filtering** a key finds what it found, if that satisfies the predicate. -/
theorem WellFormed.get?_filter (h : t.WellFormed ok) (p : ε → Bool) {k : κ} (hk : ok k) :
    (t.filter p).get? k = (t.get? k).filter p := by
  -- the keys of the entries that fail are removed, one after the other
  have hrun : t.filter p =
      ((t.entries.filter fun x => !p x.1).map fun x => Keyed.key x.1).foldl
        (fun out k => (out.remove k).1) t := by
    rw [List.foldl_map, List.foldl_filter, Trie.filter]
    congr 1
    funext out x
    cases p x.1 <;> rfl
  have hkeys : ∀ l ∈ (t.entries.filter fun x => !p x.1).map fun x => Keyed.key x.1, ok l := by
    intro l hl
    obtain ⟨x, hx, rfl⟩ := List.mem_map.mp hl
    exact h.lawful x (List.mem_of_mem_filter hx)
  have hany : ((t.entries.filter fun x => !p x.1).map fun x => Keyed.key x.1).any (k == ·) =
      (t.get? k).any fun e => !p e := by
    rw [Bool.eq_iff_iff, Option.any_eq_true]
    simp only [List.any_map, List.any_eq_true, List.mem_filter, Function.comp,
      h.get?_eq_some_iff law hk]
    constructor
    · rintro ⟨x, ⟨hx, hp⟩, heq⟩
      exact ⟨x.1, ⟨x.2, hx, heq⟩, hp⟩
    · rintro ⟨e, ⟨hash, hmem, heq⟩, hp⟩
      exact ⟨(e, hash), ⟨hmem, hp⟩, heq⟩
  rw [hrun, (h.foldl_remove law hkeys).2 k hk, hany]
  rcases t.get? k with _ | e
  · rfl
  · cases hp : p e <;> simp [Option.filter, hp]

end Trie

end TrieCollections
