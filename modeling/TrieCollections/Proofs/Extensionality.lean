/-
  TrieCollections/Proofs/Extensionality.lean
  ==========================================
  **Equality is extensional.**  `==` compares sizes, then combined hashes, and then walks one
  side only and looks its entries up on the other.  It takes a shared root for an answer.
  None of this shows: two sets are equal exactly when they have the same members, two maps
  exactly when equal values stand under the same keys.

    * One direction of lookups is enough because no key occurs twice.  So many entries that
      find different partners on a side of the same size leave nothing over there
      (`Covers.matched_of_length`).
    * The hashes agree by themselves, being the xor of what matched entries contribute.
    * With one root there is one list of entries, and each of them finds itself.

  It follows that `==` is an equivalence, and that equal collections have equal hashes: sets
  and maps are lawful keys as soon as what they hold is lawful (`TrieSet.lawfulOn`,
  `TrieMap.lawfulOn`).
-/
import TrieCollections.Proofs.SameContents
import TrieCollections.Proofs.SharedRoots

namespace TrieCollections

theorem LawfulOn.mono {κ : Type} [BEq κ] [Hashed κ] {ok ok' : κ → Prop} (law : LawfulOn ok)
    (h : ∀ x, ok' x → ok x) : LawfulOn ok' where
  refl hx := law.refl (h _ hx)
  symm hx hy := law.symm (h _ hx) (h _ hy)
  trans hx hy hz := law.trans (h _ hx) (h _ hy) (h _ hz)
  hashSeeded_congr hx hy := law.hashSeeded_congr (h _ hx) (h _ hy)

/-- What a covered trie finds is found by the covering one. -/
theorem Trie.WellFormed.found_of_covers {ε κ : Type} [BEq κ] [Hashed κ] [Keyed ε κ]
    {ok : κ → Prop} (law : LawfulOn ok) {s t : Trie ε} (hs : s.WellFormed ok)
    (ht : t.WellFormed ok) (hcover : Covers s.entries t.entries) {k : κ} (hk : ok k)
    (hfound : (s.get? k).isSome = true) : (t.get? k).isSome = true := by
  rw [hs.isSome_get?_iff law hk] at hfound
  obtain ⟨p, hp, hkp⟩ := hfound
  obtain ⟨q, hq, hpq⟩ := hcover p hp
  rw [ht.isSome_get?_iff law hk]
  exact ⟨q, hq, law.trans hk (hs.lawful p hp) (ht.lawful q hq) hkp hpq.keys⟩

theorem Trie.entries_congr {ε : Type} {s t : Trie ε} (h : s.root = t.root) :
    s.entries = t.entries := by
  rw [entries, entries, h]

/-! ### Sets -/

namespace TrieSet

variable {α : Type} [BEq α] [Hashed α] {ok : α → Prop} (law : LawfulOn ok) {s t : TrieSet α}

include law

/-- **Sets are equal when they have the same members.** -/
theorem beq_iff_contains (hs : s.trie.WellFormed ok) (ht : t.trie.WellFormed ok) :
    (s == t) = true ↔ ∀ x, ok x → s.contains x = t.contains x := by
  rw [beq_iff_matched law hs ht]
  constructor
  · intro h x hx
    rw [contains_eq, contains_eq, Bool.eq_iff_iff]
    constructor
    · exact hs.found_of_covers law ht h.covers hx
    · exact ht.found_of_covers law hs (h.covers_symm law hs.stored ht.stored) hx
  · exact matched_of_contains law hs ht

/-- One walk and the counters say as much as two walks. -/
theorem beq_eq_within (hs : s.trie.WellFormed ok) (ht : t.trie.WellFormed ok) :
    (s == t) = (s.within t && t.within s) := by
  rw [Bool.eq_iff_iff, beq_iff_matched law hs ht, Bool.and_eq_true, within_iff law hs ht,
    within_iff law ht hs]
  constructor
  · intro h
    exact ⟨h.covers, h.covers_symm law hs.stored ht.stored⟩
  · intro h
    exact matched_of_covers law hs.stored ht.stored (hs.distinct law) (ht.distinct law) h.1 h.2

theorem within_of_root_eq (hs : s.trie.WellFormed ok) (ht : t.trie.WellFormed ok)
    (hroot : s.trie.root = t.trie.root) : s.within t = true := by
  rw [within_iff law hs ht, ← Trie.entries_congr hroot]
  intro p hp
  exact ⟨p, hp, law.refl (hs.lawful p hp), rfl⟩

/-- A test for a shared root changes no answer, as long as it is right when it says yes. -/
theorem sameMembers_eq_beq (hs : s.trie.WellFormed ok) (ht : t.trie.WellFormed ok)
    {shared : Bool} (hshared : shared = true → s.trie.root = t.trie.root) :
    sameMembers shared s t = (s == t) := by
  cases shared with
  | false => rfl
  | true =>
    have hwithin := within_of_root_eq law hs ht (hshared rfl)
    show (_ && (true || _)) = (_ && (false || _))
    simp [hwithin]

theorem lawfulOn : LawfulOn fun s : TrieSet α => s.trie.WellFormed ok := by
  constructor
  · intro s hs
    rw [beq_iff_contains law hs hs]
    intro x _
    rfl
  · intro s t hs ht h
    rw [beq_iff_contains law hs ht] at h
    rw [beq_iff_contains law ht hs]
    intro x hx
    exact (h x hx).symm
  · intro s t u hs ht hu h h'
    rw [beq_iff_contains law hs ht] at h
    rw [beq_iff_contains law ht hu] at h'
    rw [beq_iff_contains law hs hu]
    intro x hx
    exact (h x hx).trans (h' x hx)
  · intro s t _ _ h seed
    exact hashSeeded_eq_of_beq h seed

end TrieSet

/-! ### Maps -/

namespace TrieMap

variable {κ ν : Type} [BEq κ] [Hashed κ] [BEq ν] [Hashed ν] {ok : κ → Prop} {okValue : ν → Prop}
  {m n : TrieMap κ ν}

omit [BEq ν] in
/-- The map is as the operations keep it, with keys and values that satisfy the two
    predicates. -/
structure WellFormed (ok : κ → Prop) (okValue : ν → Prop) (m : TrieMap κ ν) : Prop where
  trie : m.trie.WellFormed ok
  values : ∀ e ∈ m.toList, okValue e.2

theorem within_of_beq (h : (m == n) = true) : m.within n = true := by
  have h' : (m.size == n.size && m.hash == n.hash && (false || m.within n)) = true := h
  simp only [Bool.false_or, Bool.and_eq_true] at h'
  exact h'.2

/-- Under the same keys stand equal values. -/
def Agree (ok : κ → Prop) (m n : TrieMap κ ν) : Prop :=
  ∀ k, ok k → Option.Rel (fun v w => (v == w) = true) (m.get? k) (n.get? k)

variable (law : LawfulOn ok)

include law

omit [BEq ν] in
theorem get?_eq_some_iff (hm : m.trie.WellFormed ok) {k : κ} (hk : ok k) {v : ν} :
    m.get? k = some v ↔ ∃ p ∈ m.trie.entries, (k == p.1.1) = true ∧ p.1.2 = v := by
  rw [get?, getEntry?, Option.map_eq_some_iff]
  constructor
  · rintro ⟨e, he, hv⟩
    obtain ⟨hash, hmem, heq⟩ := (hm.get?_eq_some_iff law hk).mp he
    exact ⟨(e, hash), hmem, heq, hv⟩
  · rintro ⟨p, hp, heq, hv⟩
    exact ⟨p.1, (hm.get?_eq_some_iff law hk).mpr ⟨p.2, hp, heq⟩, hv⟩

omit [BEq ν] in
theorem WellFormed.okValue_of_get? (hm : m.WellFormed ok okValue) {k : κ} (hk : ok k) {v : ν}
    (hv : m.get? k = some v) : okValue v := by
  obtain ⟨p, hp, -, rfl⟩ := (get?_eq_some_iff law hm.trie hk).mp hv
  exact hm.values _ (List.mem_map_of_mem hp)

/-- Where every entry finds an equal value, every key finds values that are equal. -/
theorem rel_of_within (hm : m.trie.WellFormed ok) (hn : n.trie.WellFormed ok)
    (h : m.within n = true) {k : κ} (hk : ok k) {v : ν} (hv : m.get? k = some v) :
    ∃ w, n.get? k = some w ∧ (v == w) = true := by
  obtain ⟨p, hp, hkp, rfl⟩ := (get?_eq_some_iff law hm hk).mp hv
  obtain ⟨q, hq, hpq, hvalue⟩ := (within_iff law hm hn).mp h p hp
  have hkq := law.trans hk (hm.lawful p hp) (hn.lawful q hq) hkp hpq.keys
  exact ⟨q.1.2, get?_of_mem law hn hq hk hkq, hvalue⟩

variable (lawValue : LawfulOn okValue)

/-- **Maps are equal when equal values stand under the same keys.** -/
theorem beq_iff_agree (hm : m.WellFormed ok okValue) (hn : n.WellFormed ok okValue)
    (lawValue : LawfulOn okValue) : (m == n) = true ↔ Agree ok m n := by
  constructor
  · intro h k hk
    have hmatched := matched_of_beq law hm.trie hn.trie h
    rcases hv : m.get? k with _ | v
    · have hnone : n.get? k = none := by
        have hcover := hmatched.covers_symm law hm.trie.stored hn.trie.stored
        have hback := hn.trie.found_of_covers law hm.trie hcover hk
        rw [get?, getEntry?, Option.map_eq_none_iff] at hv ⊢
        rw [hv] at hback
        rcases hw : n.trie.get? k with _ | e
        · rfl
        · simp [hw] at hback
      rw [hnone]
      exact .none
    · obtain ⟨w, hw, heq⟩ := rel_of_within law hm.trie hn.trie (within_of_beq h) hk hv
      rw [hw]
      exact .some heq
  · exact beq_of_sameContents law lawValue hm.trie hn.trie hm.values hn.values

include lawValue

theorem lawfulOn : LawfulOn fun m : TrieMap κ ν => m.WellFormed ok okValue := by
  constructor
  · intro m hm
    rw [beq_iff_agree law hm hm lawValue]
    intro k hk
    rcases hv : m.get? k with _ | v
    · exact .none
    · exact .some (lawValue.refl (hm.okValue_of_get? law hk hv))
  · intro m n hm hn h
    rw [beq_iff_agree law hm hn lawValue] at h
    rw [beq_iff_agree law hn hm lawValue]
    intro k hk
    have hrel := h k hk
    rcases hv : m.get? k with _ | v <;> rcases hw : n.get? k with _ | w <;> rw [hv, hw] at hrel <;>
      cases hrel
    · exact .none
    · next heq =>
      exact .some (lawValue.symm (hm.okValue_of_get? law hk hv) (hn.okValue_of_get? law hk hw) heq)
  · intro m n o hm hn ho h h'
    rw [beq_iff_agree law hm hn lawValue] at h
    rw [beq_iff_agree law hn ho lawValue] at h'
    rw [beq_iff_agree law hm ho lawValue]
    intro k hk
    have hrel := h k hk
    have hrel' := h' k hk
    rcases hv : m.get? k with _ | v <;> rcases hw : n.get? k with _ | w <;>
      rcases hx : o.get? k with _ | x <;> rw [hv, hw] at hrel <;> rw [hw, hx] at hrel' <;>
      cases hrel <;> cases hrel'
    · exact .none
    · next heq heq' =>
      exact .some (lawValue.trans (hm.okValue_of_get? law hk hv) (hn.okValue_of_get? law hk hw)
        (ho.okValue_of_get? law hk hx) heq heq')
  · intro m n _ _ h seed
    exact hashSeeded_eq_of_beq h seed

/-- One walk and the counters say as much as two walks. -/
theorem beq_eq_within (hm : m.WellFormed ok okValue) (hn : n.WellFormed ok okValue) :
    (m == n) = (m.within n && n.within m) := by
  rw [Bool.eq_iff_iff, Bool.and_eq_true]
  constructor
  · intro h
    exact ⟨within_of_beq h, within_of_beq ((lawfulOn law lawValue).symm hm hn h)⟩
  · rintro ⟨h, h'⟩
    rw [beq_iff_agree law hm hn lawValue]
    intro k hk
    rcases hv : m.get? k with _ | v
    · rcases hw : n.get? k with _ | w
      · exact .none
      · obtain ⟨v, hv', -⟩ := rel_of_within law hn.trie hm.trie h' hk hw
        rw [hv] at hv'
        cases hv'
    · obtain ⟨w, hw, heq⟩ := rel_of_within law hm.trie hn.trie h hk hv
      rw [hw]
      exact .some heq

theorem within_of_root_eq (hm : m.WellFormed ok okValue) (hn : n.WellFormed ok okValue)
    (hroot : m.trie.root = n.trie.root) : m.within n = true := by
  rw [within_iff law hm.trie hn.trie, ← Trie.entries_congr hroot]
  intro p hp
  exact ⟨p, hp, ⟨law.refl (hm.trie.lawful p hp), rfl⟩,
    lawValue.refl (hm.values _ (List.mem_map_of_mem hp))⟩

theorem sameEntries_eq_beq (hm : m.WellFormed ok okValue) (hn : n.WellFormed ok okValue)
    {shared : Bool} (hshared : shared = true → m.trie.root = n.trie.root) :
    sameEntries shared m n = (m == n) := by
  cases shared with
  | false => rfl
  | true =>
    have hwithin := within_of_root_eq law lawValue hm hn (hshared rfl)
    show (_ && (true || _)) = (_ && (false || _))
    simp [hwithin]

end TrieMap

/-! ### Collections that come about -/

/-- **Equality is extensional on all sets and maps that come about.**  It says whether the
    members agree, or the values under all keys; that is what a walk over both sides would
    say, and neither the counters nor a shared root ever change it, be it any test that is
    right when it says yes or the one by stamps on tries that are kept on a shelf.  In
    particular it is an equivalence, and equal collections are hashed alike. -/
theorem equality_extensional {κ ν : Type} [BEq κ] [Hashed κ] [BEq ν] [Hashed ν] {ok : κ → Prop}
    {okValue : ν → Prop} (law : LawfulOn ok) (lawValue : LawfulOn okValue) :
    (∀ s t : TrieSet κ, s.Reachable ok → t.Reachable ok →
      ((s == t) = true ↔ ∀ x, ok x → s.contains x = t.contains x) ∧
      (s == t) = (s.within t && t.within s) ∧
      ∀ shared : Bool, (shared = true → s.trie.root = t.trie.root) →
        TrieSet.sameMembers shared s t = (s == t)) ∧
    (∀ m n : TrieMap κ ν, m.Reachable ok → n.Reachable ok →
      (∀ e ∈ m.toList, okValue e.2) → (∀ e ∈ n.toList, okValue e.2) →
      ((m == n) = true ↔
        ∀ k, ok k → Option.Rel (fun v w => (v == w) = true) (m.get? k) (n.get? k)) ∧
      (m == n) = (m.within n && n.within m) ∧
      ∀ shared : Bool, (shared = true → m.trie.root = n.trie.root) →
        TrieMap.sameEntries shared m n = (m == n)) ∧
    (∀ steps : List (Shelf.Step (Member κ) κ), (∀ step ∈ steps, ∀ x ∈ step.keys, ok x) →
      ∀ s t : TrieSet κ, s.trie ∈ (Shelf.run steps).tries → t.trie ∈ (Shelf.run steps).tries →
        TrieSet.sameMembers (s.trie.sameRoot t.trie) s t = (s == t)) ∧
    (∀ steps : List (Shelf.Step (κ × ν) κ), (∀ step ∈ steps, ∀ k ∈ step.keys, ok k) →
      ∀ m n : TrieMap κ ν, m.trie ∈ (Shelf.run steps).tries → n.trie ∈ (Shelf.run steps).tries →
        (∀ e ∈ m.toList, okValue e.2) → (∀ e ∈ n.toList, okValue e.2) →
        TrieMap.sameEntries (m.trie.sameRoot n.trie) m n = (m == n)) ∧
    LawfulOn (fun s : TrieSet κ => s.Reachable ok) ∧
    LawfulOn fun m : TrieMap κ ν => m.Reachable ok ∧ ∀ e ∈ m.toList, okValue e.2 := by
  refine ⟨?_, ?_, ?_, ?_, ?_, ?_⟩
  · intro s t hs ht
    have hws := hs.wellFormed law
    have hwt := ht.wellFormed law
    refine ⟨TrieSet.beq_iff_contains law hws hwt, TrieSet.beq_eq_within law hws hwt, ?_⟩
    intro shared hshared
    exact TrieSet.sameMembers_eq_beq law hws hwt hshared
  · intro m n hm hn hmValues hnValues
    have hwm : m.WellFormed ok okValue := ⟨hm.wellFormed law, hmValues⟩
    have hwn : n.WellFormed ok okValue := ⟨hn.wellFormed law, hnValues⟩
    refine ⟨TrieMap.beq_iff_agree law hwm hwn lawValue,
      TrieMap.beq_eq_within law lawValue hwm hwn, ?_⟩
    intro shared hshared
    exact TrieMap.sameEntries_eq_beq law lawValue hwm hwn hshared
  · intro steps hsteps s t hs ht
    have hwf := Shelf.wellFormed_run law hsteps
    apply TrieSet.sameMembers_eq_beq law (hwf _ hs) (hwf _ ht)
    intro hsame
    exact (Shelf.honest_run steps).root_eq hs ht hsame
  · intro steps hsteps m n hm hn hmValues hnValues
    have hwf := Shelf.wellFormed_run law hsteps
    apply TrieMap.sameEntries_eq_beq law lawValue ⟨hwf _ hm, hmValues⟩ ⟨hwf _ hn, hnValues⟩
    intro hsame
    exact (Shelf.honest_run steps).root_eq hm hn hsame
  · apply (TrieSet.lawfulOn law).mono
    intro s hs
    exact hs.wellFormed law
  · apply (TrieMap.lawfulOn law lawValue).mono
    intro m hm
    exact ⟨hm.1.wellFormed law, hm.2⟩

/-- Two colliding members put in in either order, and a set beside a filtered copy of it that
    has kept the root. -/
theorem equality_extensional_colliding :
    LawfulOn (fun _ : ClusterKey => True) ∧ LawfulOn (fun _ : Int64 => True) ∧
    (let s := (TrieSet.unit (⟨7, 1, "a"⟩ : ClusterKey)).insert ⟨7, 2, "b"⟩
     let t := (TrieSet.unit (⟨7, 2, "c"⟩ : ClusterKey)).insert ⟨7, 1, "d"⟩
     (s == t) = true) ∧
    let shelf := Shelf.run [.edit 0 [.insert ⟨⟨7, 1, "a"⟩⟩], .filter 0 fun _ => true]
    let s : TrieSet ClusterKey := ⟨shelf.get 0⟩
    let t : TrieSet ClusterKey := ⟨shelf.get 1⟩
    TrieSet.sameMembers (s.trie.sameRoot t.trie) s t = (s == t) := by
  have hall := @equality_extensional ClusterKey Int64 _ _ _ _ _ _ lawfulOn_true lawfulOn_true
  refine ⟨lawfulOn_true, lawfulOn_true, ?_, ?_⟩
  · intro s t
    refine (hall.1 s t (.insert (.unit trivial) trivial) (.insert (.unit trivial) trivial)).1.mpr ?_
    intro x _
    have hempty : (TrieSet.empty : TrieSet ClusterKey).trie.WellFormed fun _ => True :=
      TrieSet.wellFormed_empty
    have hunit : ∀ y : ClusterKey, (TrieSet.unit y).trie.WellFormed fun _ => True := fun y =>
      TrieSet.wellFormed_insert lawfulOn_true hempty trivial
    have hcontains : ∀ y z : ClusterKey,
        ((TrieSet.unit y).insert z).contains x = (x == z || (x == y || false)) := by
      intro y z
      rw [TrieSet.contains_insert lawfulOn_true (hunit y) trivial trivial]
      congr 1
      exact TrieSet.contains_insert lawfulOn_true hempty trivial trivial
    show ((TrieSet.unit _).insert _).contains x = ((TrieSet.unit _).insert _).contains x
    rw [hcontains, hcontains, Bool.eq_iff_iff]
    simp only [Bool.or_false, Bool.or_eq_true, ClusterKey.beq_iff]
    exact Or.comm
  · intro shelf s t
    have hs : s.trie ∈ shelf.tries := List.mem_cons_self
    have ht : t.trie ∈ shelf.tries := List.mem_cons_of_mem _ List.mem_cons_self
    exact hall.2.2.1 _ (fun _ _ _ _ => trivial) s t hs ht

end TrieCollections
