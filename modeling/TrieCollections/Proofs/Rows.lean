/-
  TrieCollections/Proofs/Rows.lean
  ================================
  **Relations from rows.**  Rows are taken one after the other, and the first one that has another
  number of values than the header has names ends it with an error (`addRows_eq_error_iff`).
  Nothing is said of the rows that come after it.

  A row that fits is made into a tuple.  Its values are written under their names from left to
  right, so where a name is repeated the value at its last place is left (`StandsAt`).  A tuple is
  in the relation when it has these values and no others, for one of the rows (`Yields`).

  Different rows may well be made into equal tuples: values that are overwritten do not show.  As
  long as no name is repeated each value does show, and a relation has as many tuples as there are
  different rows (`tupleOfRow_beq_iff`).  To compare rows is to compare lists, and lists of lawful
  elements are lawful keys themselves (`lawfulOn_list`).
-/
import TrieCollections.Proofs.DistinctCounts
import TrieCollections.Proofs.Headers
import TrieCollections.Proofs.Mixing

namespace TrieCollections

open TrieMap (ReachableWith)

/-! ### Lists as keys -/

section Lists

open Hashing

variable {α : Type} [BEq α] [Hashed α] {ok : α → Prop} (law : LawfulOn ok) {xs ys : List α}

include law

/-- Equal lists are of one length and lead the hash from any state to the same one. -/
theorem mixAll_words_congr (hxs : ∀ x ∈ xs, ok x) (hys : ∀ y ∈ ys, ok y) (h : (xs == ys) = true) :
    xs.length = ys.length ∧ ∀ state,
      mixAll state (xs.flatMap Hashed.words) = mixAll state (ys.flatMap Hashed.words) := by
  induction xs generalizing ys with
  | nil =>
    cases ys with
    | nil => exact ⟨rfl, fun _ => rfl⟩
    | cons y ys => cases h
  | cons x xs ih =>
    cases ys with
    | nil => cases h
    | cons y ys =>
      rw [List.forall_mem_cons] at hxs hys
      rw [List.cons_beq_cons, Bool.and_eq_true] at h
      obtain ⟨hlength, htail⟩ := ih hxs.2 hys.2 h.2
      refine ⟨congrArg Nat.succ hlength, ?_⟩
      intro state
      rw [List.flatMap_cons, List.flatMap_cons, mixAll_append, mixAll_append, htail,
        mixAll_eq_of_hashWords_eq (law.hashSeeded_congr hxs.1 hys.1 h.1)]

/-- **Lists of lawful elements are lawful keys.** -/
theorem lawfulOn_list : LawfulOn fun xs : List α => ∀ x ∈ xs, ok x where
  refl hxs := beq_list_refl law hxs
  symm hxs hys := beq_list_symm law hxs hys
  trans hxs hys hzs := beq_list_trans law hxs hys hzs
  hashSeeded_congr {xs ys} hxs hys h seed := by
    obtain ⟨hlength, hwords⟩ := mixAll_words_congr law hxs hys h
    have hlist : ∀ zs : List α,
        Hashed.words zs = lengthWord zs.length :: zs.flatMap Hashed.words := fun _ => rfl
    simp only [hashSeeded, hashWords, hlist, mixAll_cons, hlength, hwords]

end Lists

namespace Relation

/-! ### The first row that does not fit -/

section Shapes

variable {κ ν : Type} [BEq κ] [Hashed κ] [BEq ν] [Hashed ν] {header : List κ}

/-- **The error is that of the first row that does not fit**, whatever comes after it. -/
theorem addRows_eq_error_iff {index : Nat} {rows : List (List ν)} {rel : Relation κ ν}
    {failure : Failure} :
    addRows header index rows rel = .error failure ↔
      ∃ front row back, rows = front ++ row :: back ∧ (∀ r ∈ front, r.length = header.length) ∧
        row.length ≠ header.length ∧
        failure = .shapeMismatch (index + front.length) header.length row.length := by
  induction rows generalizing index rel with
  | nil => simp [addRows]
  | cons row rows ih =>
    rw [addRows]
    split
    · next hlength =>
      rw [ih]
      constructor
      · rintro ⟨front, bad, back, rfl, hfront, hbad, rfl⟩
        refine ⟨row :: front, bad, back, rfl, List.forall_mem_cons.mpr ⟨hlength, hfront⟩, hbad, ?_⟩
        rw [List.length_cons, Nat.add_assoc, Nat.add_comm 1]
      · rintro ⟨front, bad, back, hrows, hfront, hbad, rfl⟩
        cases front with
        | nil =>
          obtain ⟨rfl, -⟩ := List.cons.inj hrows
          exact absurd hlength hbad
        | cons _ front =>
          obtain ⟨rfl, rfl⟩ := List.cons.inj hrows
          refine ⟨front, bad, back, rfl, (List.forall_mem_cons.mp hfront).2, hbad, ?_⟩
          rw [List.length_cons, Nat.add_assoc, Nat.add_comm 1]
    · next hlength =>
      constructor
      · intro h
        exact ⟨[], row, rows, rfl, List.forall_mem_nil _, hlength, (Except.error.inj h).symm⟩
      · rintro ⟨front, bad, back, hrows, hfront, hbad, rfl⟩
        cases front with
        | nil =>
          obtain ⟨rfl, rfl⟩ := List.cons.inj hrows
          rfl
        | cons _ front =>
          obtain ⟨rfl, -⟩ := List.cons.inj hrows
          exact absurd (List.forall_mem_cons.mp hfront).1 hlength

end Shapes

/-! ### What stands under a name -/

section Names

variable {κ ν : Type} [BEq κ]

/-- The header has the name at this place and at no later one, and the row has the value there. -/
structure StandsAt (header : List κ) (row : List ν) (k : κ) (v : ν) (place : Nat) : Prop where
  name : ∃ a, header[place]? = some a ∧ (k == a) = true
  value : row[place]? = some v
  last : ∀ later a, place < later → header[later]? = some a → (k == a) = false

/-- The value at the last place of a name. -/
def valueUnder : List κ → List ν → κ → Option ν
  | a :: header, v :: row, k => (valueUnder header row k).or (if k == a then some v else none)
  | _, _, _ => none

variable {header : List κ} {row : List ν} {k : κ} {v : ν}

theorem isSome_valueUnder (hlength : row.length = header.length) :
    (valueUnder header row k).isSome = header.any (k == ·) := by
  induction header generalizing row with
  | nil => rfl
  | cons a header ih =>
    obtain ⟨w, row, rfl⟩ := List.exists_cons_of_length_eq_add_one hlength
    rw [valueUnder, Option.isSome_or, ih (Nat.succ.inj hlength), List.any_cons, Bool.or_comm]
    cases k == a <;> rfl

theorem valueUnder_eq_none_iff (hlength : row.length = header.length) :
    valueUnder header row k = none ↔ header.any (k == ·) = false := by
  rw [← isSome_valueUnder hlength, Option.isSome_eq_false_iff, Option.isNone_iff_eq_none]

theorem standsAt_succ_iff {a : κ} {w : ν} {place : Nat} :
    StandsAt (a :: header) (w :: row) k v (place + 1) ↔ StandsAt header row k v place := by
  constructor
  · rintro ⟨hname, hvalue, hlast⟩
    exact ⟨hname, hvalue, fun later b hlt hb => hlast (later + 1) b (Nat.succ_lt_succ hlt) hb⟩
  · rintro ⟨hname, hvalue, hlast⟩
    refine ⟨hname, hvalue, ?_⟩
    intro later b hlt hb
    cases later with
    | zero => exact absurd hlt (Nat.not_lt_zero _)
    | succ later => exact hlast later b (Nat.lt_of_succ_lt_succ hlt) hb

theorem standsAt_zero_iff {a : κ} {w : ν} :
    StandsAt (a :: header) (w :: row) k v 0 ↔
      (k == a) = true ∧ w = v ∧ header.any (k == ·) = false := by
  rw [List.any_eq_false]
  constructor
  · rintro ⟨⟨b, hb, hname⟩, hvalue, hlast⟩
    obtain rfl := Option.some.inj hb
    refine ⟨hname, Option.some.inj hvalue, ?_⟩
    intro b hmem
    obtain ⟨place, hplace⟩ := List.mem_iff_getElem?.mp hmem
    rw [hlast (place + 1) b (Nat.succ_pos _) hplace]
    exact Bool.false_ne_true
  · rintro ⟨hname, rfl, hlast⟩
    refine ⟨⟨a, rfl, hname⟩, rfl, ?_⟩
    intro later b hlt hb
    cases later with
    | zero => exact absurd hlt (Nat.lt_irrefl _)
    | succ later => exact Bool.eq_false_iff.mpr (hlast b (List.mem_of_getElem? hb))

/-- **The value under a name stands at its last place.** -/
theorem valueUnder_eq_some_iff (hlength : row.length = header.length) :
    valueUnder header row k = some v ↔ ∃ place, StandsAt header row k v place := by
  induction header generalizing row with
  | nil =>
    constructor
    · exact nofun
    · rintro ⟨place, ⟨a, ha, -⟩, -, -⟩
      cases ha
  | cons a header ih =>
    obtain ⟨w, row, rfl⟩ := List.exists_cons_of_length_eq_add_one hlength
    have hrest := Nat.succ.inj hlength
    rw [valueUnder, Option.or_eq_some_iff, ih hrest, valueUnder_eq_none_iff hrest]
    constructor
    · rintro (⟨place, hplace⟩ | ⟨hlast, hhere⟩)
      · exact ⟨place + 1, standsAt_succ_iff.mpr hplace⟩
      · obtain ⟨hname, hvalue⟩ := Option.ite_none_right_eq_some.mp hhere
        exact ⟨0, standsAt_zero_iff.mpr ⟨hname, Option.some.inj hvalue, hlast⟩⟩
    · rintro ⟨_ | place, hplace⟩
      · obtain ⟨hname, rfl, hlast⟩ := standsAt_zero_iff.mp hplace
        exact .inr ⟨hlast, if_pos hname⟩
      · exact .inl ⟨place, standsAt_succ_iff.mp hplace⟩

/-- Written from left to right, a row leaves under each name the value at its last place. -/
theorem find?_reverse_zip (header : List κ) (row : List ν) (k : κ) :
    ((header.zip row).reverse.find? (k == ·.1)).map (·.2) = valueUnder header row k := by
  induction header generalizing row with
  | nil => rfl
  | cons a header ih =>
    cases row with
    | nil => rfl
    | cons v row =>
      rw [List.zip_cons_cons, List.reverse_cons, List.find?_append, Option.map_or, ih,
        List.find?_singleton, valueUnder]
      cases k == a <;> rfl

end Names

/-! ### The tuple of a row -/

section Tuples

variable {κ ν : Type} [BEq κ] [Hashed κ] [BEq ν] [Hashed ν] {ok : κ → Prop} {okValue : ν → Prop}

/-- The tuple has under each name what the row has at the last place of the name, and nothing
    else. -/
structure Yields (ok : κ → Prop) (header : List κ) (row : List ν) (t : Tuple κ ν) : Prop where
  only : ∀ k v, ok k → TrieMap.get? t k = some v →
    ∃ place w, StandsAt header row k w place ∧ (v == w) = true
  all : ∀ k place w, ok k → StandsAt header row k w place →
    ∃ v, TrieMap.get? t k = some v ∧ (v == w) = true

variable {header : List κ} {row row' : List ν} {t : Tuple κ ν}

theorem yields_iff_rel (hlength : row.length = header.length) :
    Yields ok header row t ↔ ∀ k, ok k →
      Option.Rel (fun v w => (v == w) = true) (TrieMap.get? t k) (valueUnder header row k) := by
  constructor
  · rintro ⟨honly, hall⟩ k hk
    rcases hv : TrieMap.get? t k with _ | v
    · have hnone : valueUnder header row k = none := by
        rw [Option.eq_none_iff_forall_ne_some]
        intro w hw
        obtain ⟨place, hplace⟩ := (valueUnder_eq_some_iff hlength).mp hw
        obtain ⟨v, hv', -⟩ := hall k place w hk hplace
        rw [hv] at hv'
        cases hv'
      rw [hnone]
      exact .none
    · obtain ⟨place, w, hplace, heq⟩ := honly k v hk hv
      rw [(valueUnder_eq_some_iff hlength).mpr ⟨place, hplace⟩]
      exact .some heq
  · intro hrel
    refine ⟨?_, ?_⟩
    · intro k v hk hv
      have hrel' := hrel k hk
      rcases hw : valueUnder header row k with _ | w <;> rw [hv, hw] at hrel' <;> cases hrel'
      next heq =>
      obtain ⟨place, hplace⟩ := (valueUnder_eq_some_iff hlength).mp hw
      exact ⟨place, w, hplace, heq⟩
    · intro k place w hk hplace
      have hrel' := hrel k hk
      rw [(valueUnder_eq_some_iff hlength).mpr ⟨place, hplace⟩] at hrel'
      rcases hv : TrieMap.get? t k with _ | v <;> rw [hv] at hrel' <;> cases hrel'
      next heq =>
      exact ⟨v, rfl, heq⟩

omit [Hashed κ] [Hashed ν] in
/-- Equal rows have equal values under every name. -/
theorem rel_valueUnder (h : (row == row') = true) (k : κ) : Option.Rel
    (fun v w => (v == w) = true) (valueUnder header row k) (valueUnder header row' k) := by
  induction header generalizing row row' with
  | nil => exact .none
  | cons a header ih =>
    cases row with
    | nil =>
      cases row' with
      | nil => exact .none
      | cons w' row' => cases h
    | cons w row =>
      cases row' with
      | nil => cases h
      | cons w' row' =>
        rw [List.cons_beq_cons, Bool.and_eq_true] at h
        have hrest := ih h.2
        rw [valueUnder, valueUnder]
        generalize valueUnder header row k = v, valueUnder header row' k = v' at hrest
        cases hrest with
        | some heq => exact .some heq
        | none =>
          rw [Option.none_or, Option.none_or]
          split
          · exact .some h.1
          · exact .none

section Lawful

variable (law : LawfulOn ok)

include law

omit [Hashed ν] in
/-- Where no name is repeated, rows with equal values under the names are equal. -/
theorem beq_of_rel_valueUnder (hheader : Distinct ok header)
    (hlength : row.length = header.length) (hlength' : row'.length = header.length)
    (hrel : ∀ k ∈ header, Option.Rel (fun v w => (v == w) = true) (valueUnder header row k)
      (valueUnder header row' k)) : (row == row') = true := by
  induction header generalizing row row' with
  | nil =>
    rw [List.eq_nil_of_length_eq_zero hlength, List.eq_nil_of_length_eq_zero hlength']
    rfl
  | cons a header ih =>
    obtain ⟨w, row, rfl⟩ := List.exists_cons_of_length_eq_add_one hlength
    obtain ⟨w', row', rfl⟩ := List.exists_cons_of_length_eq_add_one hlength'
    have hrest := Nat.succ.inj hlength
    have hrest' := Nat.succ.inj hlength'
    rw [List.forall_mem_cons] at hrel
    rw [List.cons_beq_cons, Bool.and_eq_true]
    constructor
    · -- the first name stands at the first place only, so it shows the first value
      have hlacks : header.any (a == ·) = false := by
        rw [List.any_eq_false]
        intro b hb
        rw [List.rel_of_pairwise_cons hheader.pairwise hb]
        exact Bool.false_ne_true
      have hfirst : ∀ {v : ν} {vs : List ν}, vs.length = header.length →
          valueUnder (a :: header) (v :: vs) a = some v := by
        intro v vs hvs
        rw [valueUnder, (valueUnder_eq_none_iff hvs).mpr hlacks, Option.none_or,
          if_pos (law.refl (hheader.lawful a List.mem_cons_self))]
      have hhead := hrel.1
      rw [hfirst hrest, hfirst hrest'] at hhead
      cases hhead with
      | some heq => exact heq
    · apply ih hheader.tail hrest hrest'
      intro k hk
      have hlater : ∀ {v : ν} {vs : List ν}, vs.length = header.length →
          valueUnder (a :: header) (v :: vs) k = valueUnder header vs k := by
        intro v vs hvs
        have hhas : header.any (k == ·) = true := List.any_eq_true.mpr
          ⟨k, hk, law.refl (hheader.lawful k (List.mem_cons_of_mem _ hk))⟩
        rw [valueUnder, Option.or_of_isSome (by rw [isSome_valueUnder hvs, hhas])]
      have htail := hrel.2 k hk
      rwa [hlater hrest, hlater hrest'] at htail

variable (hheader : ∀ k ∈ header, ok k)

include hheader

omit [BEq ν] in
theorem get?_tupleOfRow {k : κ} (hk : ok k) :
    TrieMap.get? (tupleOfRow header row) k = valueUnder header row k := by
  have hzip : ∀ e ∈ header.zip row, ok e.1 := fun e he => hheader e.1 (List.of_mem_zip he).1
  rw [tupleOfRow, TrieMap.get?_ofList law hzip hk, find?_reverse_zip]

variable (lawValue : LawfulOn okValue) (hrow : ∀ v ∈ row, okValue v) (hrow' : ∀ v ∈ row', okValue v)

include lawValue hrow

/-- A tuple is equal to that of a row when it has equal values under all names. -/
theorem beq_tupleOfRow_iff (ht : ReachableWith ok okValue t) :
    (t == tupleOfRow header row) = true ↔ ∀ k, ok k →
      Option.Rel (fun v w => (v == w) = true) (TrieMap.get? t k) (valueUnder header row k) := by
  have hmade := reachableWith_tupleOfRow law hheader hrow
  rw [TrieMap.beq_iff_agree law (ht.wellFormed law) (hmade.wellFormed law) lawValue]
  refine forall₂_congr fun k hk => ?_
  rw [get?_tupleOfRow law hheader hk]

/-- **A row yields the tuples that are equal to its own.** -/
theorem yields_iff_beq (hlength : row.length = header.length) (ht : ReachableWith ok okValue t) :
    Yields ok header row t ↔ (t == tupleOfRow header row) = true := by
  rw [yields_iff_rel hlength, beq_tupleOfRow_iff law hheader lawValue hrow ht]

include hrow'

theorem tupleOfRow_congr (h : (row == row') = true) :
    (tupleOfRow header row == tupleOfRow header row') = true := by
  rw [beq_tupleOfRow_iff law hheader lawValue hrow' (reachableWith_tupleOfRow law hheader hrow)]
  intro k hk
  rw [get?_tupleOfRow law hheader hk]
  exact rel_valueUnder h k

/-- Where no name is repeated, equal tuples come of equal rows. -/
theorem beq_of_tupleOfRow_beq (hdistinct : Distinct ok header)
    (hlength : row.length = header.length) (hlength' : row'.length = header.length)
    (h : (tupleOfRow header row == tupleOfRow header row') = true) : (row == row') = true := by
  rw [beq_tupleOfRow_iff law hheader lawValue hrow' (reachableWith_tupleOfRow law hheader hrow)]
    at h
  apply beq_of_rel_valueUnder law hdistinct hlength hlength'
  intro k hk
  have hrel := h k (hheader k hk)
  rwa [get?_tupleOfRow law hheader (hheader k hk)] at hrel

end Lawful

end Tuples

/-! ### The relation of the rows -/

section Rows

variable {κ ν : Type} [BEq κ] [Hashed κ] [BEq ν] [Hashed ν] {ok : κ → Prop} {okValue : ν → Prop}
  (law : LawfulOn ok) (lawValue : LawfulOn okValue) {header : List κ}
  (hheader : ∀ k ∈ header, ok k) {rows : List (List ν)}
  (hrows : ∀ row ∈ rows, ∀ v ∈ row, okValue v)
  (hfit : ∀ row ∈ rows, row.length = header.length)

include law lawValue hheader hrows

omit [BEq ν] lawValue in
theorem reachableWith_of_mem_rows :
    ∀ t ∈ rows.map (tupleOfRow header), ReachableWith ok okValue t :=
  List.forall_mem_map.mpr fun row hrow => reachableWith_tupleOfRow law hheader (hrows row hrow)

include hfit

/-- **A tuple is in the relation when some row yields it.** -/
theorem contains_rows {t : Tuple κ ν} (ht : ReachableWith ok okValue t) :
    (TrieSet.ofList (rows.map (tupleOfRow header))).contains t = true ↔
      ∃ row ∈ rows, Yields ok header row t := by
  have lawTuple := TrieMap.lawfulOn_reachableWith law lawValue
  rw [TrieSet.contains_ofList lawTuple (reachableWith_of_mem_rows law hheader hrows) ht,
    List.any_map, List.any_eq_true]
  refine exists_congr fun row => and_congr_right fun hrow => ?_
  exact (yields_iff_beq law hheader lawValue (hrows row hrow) (hfit row hrow) ht).symm

/-- **Where no name is repeated there are as many tuples as different rows.** -/
theorem size_rows (hdistinct : Distinct ok header) :
    (TrieSet.ofList (rows.map (tupleOfRow header))).size = rows.eraseDups.length := by
  have lawTuple := TrieMap.lawfulOn_reachableWith law lawValue
  have lawRow := lawfulOn_list lawValue
  have hmade := reachableWith_of_mem_rows law hheader hrows
  have hwf : (TrieSet.ofList (rows.map (tupleOfRow header))).trie.WellFormed
      (ReachableWith ok okValue) :=
    TrieSet.wellFormed_insertMany lawTuple TrieSet.wellFormed_empty hmade
  have hcount : (rows.map (tupleOfRow header)).eraseDups.length =
      (rows.map fun row => row).eraseDups.length := by
    rw [length_eraseDups_map_eq_iff lawRow lawTuple hrows (List.forall_mem_map.mp hmade)]
    · intro row hrow row' hrow'
      exact beq_of_tupleOfRow_beq law hheader lawValue (hrows row hrow) (hrows row' hrow') hdistinct
        (hfit row hrow) (hfit row' hrow')
    · intro row hrow row' hrow'
      exact tupleOfRow_congr law hheader lawValue (hrows row hrow) (hrows row' hrow')
  rw [(TrieSet.comprises_ofList lawTuple hmade).size_eq lawTuple hwf, hcount, List.map_id']

end Rows

end Relation

/-- **Rows make a relation if they all fit the header.**  If not, the error tells of the first row
    that does not, by its number and by its length, whatever comes after it.  If they do, a tuple
    is in the relation exactly when some row yields it, place by place, with the value at the last
    place of a name.  A header that repeats no name gives as many tuples as there are different
    rows. -/
theorem rows_make_relation {κ ν : Type} [BEq κ] [Hashed κ] [BEq ν] [Hashed ν] :
    (∀ (header : List κ) (rows : List (List ν)),
      (∃ r, Relation.ofRows header rows = .ok r) ↔ ∀ row ∈ rows, row.length = header.length) ∧
    (∀ (header : List κ) (rows : List (List ν)) (failure : Failure),
      Relation.ofRows header rows = .error failure ↔
        ∃ front row back, rows = front ++ row :: back ∧
          (∀ r ∈ front, r.length = header.length) ∧ row.length ≠ header.length ∧
          failure = .shapeMismatch front.length header.length row.length) ∧
    ∀ (ok : κ → Prop) (okValue : ν → Prop), LawfulOn ok → LawfulOn okValue →
      ∀ (header : List κ) (rows : List (List ν)), (∀ k ∈ header, ok k) →
        (∀ row ∈ rows, ∀ v ∈ row, okValue v) → ∀ r, Relation.ofRows header rows = .ok r →
          r.Reachable (ReachableWith ok okValue) ∧
          (∀ t, ReachableWith ok okValue t →
            (r.contains t = true ↔ ∃ row ∈ rows, Relation.Yields ok header row t)) ∧
          (Distinct ok header → r.size = rows.eraseDups.length) := by
  refine ⟨?taken, ?refused, ?made⟩
  case taken =>
    intro header rows
    simp only [Relation.ofRows, Relation.addRows_eq_ok_iff, exists_and_left, exists_eq, and_true]
  case refused =>
    intro header rows failure
    simp only [Relation.ofRows, Relation.addRows_eq_error_iff, Nat.zero_add]
  case made =>
    intro ok okValue law lawValue header rows hheader hrows r hr
    obtain ⟨hfit, rfl⟩ := Relation.addRows_eq_ok_iff.mp hr
    exact ⟨.ofList (Relation.reachableWith_of_mem_rows law hheader hrows),
      fun t ht => Relation.contains_rows law lawValue hheader hrows hfit ht,
      fun hdistinct => Relation.size_rows law lawValue hheader hrows hfit hdistinct⟩

/-- Rows under a repeated name, of which two differ only where the value is overwritten; a header
    of different names with a row that occurs twice; and a row too long behind one that fits. -/
theorem rows_make_relation_repeated :
    let overwritten : List (List Value) := [[.int 1, .int 2, .int 3], [.int 9, .int 2, .int 3]]
    let twice : List (List Value) := [[.int 1, .int 2], [.int 1, .int 3], [.int 1, .int 2]]
    (∃ r, Relation.ofRows ["a", "b", "a"] overwritten = .ok r ∧
      ∀ t, Value.BuiltTuple t → (r.contains t = true ↔
        ∃ row ∈ overwritten, Relation.Yields (fun _ => True) ["a", "b", "a"] row t)) ∧
    (∃ r, Relation.ofRows ["a", "b"] twice = .ok r ∧ r.size = twice.eraseDups.length) ∧
    Relation.ofRows ["a"] [[Value.int 1], [.int 2, .int 3], []] =
      .error (.shapeMismatch 1 1 2) := by
  intro overwritten twice
  have law : LawfulOn fun _ : String => True := lawfulOn_true
  obtain ⟨htaken, hrefused, hmade⟩ := @rows_make_relation String Value _ _ _ _
  have hint : ∀ i : Int64, Value.Built (.int i) := .int
  refine ⟨?_, ?_, ?_⟩
  · obtain ⟨r, hr⟩ := (htaken ["a", "b", "a"] overwritten).mpr (by decide)
    refine ⟨r, hr, (hmade _ Value.Built law Value.lawfulOn_built _ _ (fun _ _ => trivial) ?_ r
      hr).2.1⟩
    simp [overwritten, hint]
  · obtain ⟨r, hr⟩ := (htaken ["a", "b"] twice).mpr (by decide)
    have hdistinct : Distinct (fun _ : String => True) ["a", "b"] := ⟨fun _ _ => trivial, by decide⟩
    refine ⟨r, hr, (hmade _ Value.Built law Value.lawfulOn_built _ _ (fun _ _ => trivial) ?_ r
      hr).2.2 hdistinct⟩
    simp [twice, hint]
  · rw [hrefused]
    exact ⟨[[.int 1]], [.int 2, .int 3], [[]], rfl, by decide, by decide, rfl⟩

end TrieCollections
