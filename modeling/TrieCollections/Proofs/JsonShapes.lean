/-
  TrieCollections/Proofs/JsonShapes.lean
  ======================================
  **What is written for a collection, and what is read from many pieces.**  A map is written in
  one of two shapes, and which one depends on its keys only (`encode_map`).

    * An object keeps its fields in the order of their names, and of those with one name the
      latest one that was put in (`object_holdsLatest`).  The names of a map come from different
      keys, so as long as these give different names the object has all the fields that were put
      in, in another order (`object_perm`).
    * An array of items, and the fields of an object likewise, are read one after the other.
      They are read if each of them is, and neither the order nor anything else but the pieces
      themselves has a say in what comes out (`mapM_of_forall`).

  So if the pieces are written from the elements of a list and each is read as a copy of its
  element, then copies of just these elements come out (`exists_copies`).
-/
import Mathlib.Data.List.Nodup
import TrieCollections.Json.Codec
import TrieCollections.Proofs.CollectionLookups

namespace TrieCollections

/-! ### Reading pieces in turn -/

/-- Every element of the one list is a copy of one of the other, and each of these has a copy. -/
structure Copies {α β : Type} (Copy : α → β → Prop) (ys : List α) (xs : List β) : Prop where
  exists_original : ∀ y ∈ ys, ∃ x ∈ xs, Copy y x
  exists_copy : ∀ x ∈ xs, ∃ y ∈ ys, Copy y x

section Reading

variable {α β ι ε : Type} {read : ι → Except ε α}

theorem bind_eq_ok_iff {x : Except ε α} {f : α → Except ε β} {b : β} :
    (x >>= f) = .ok b ↔ ∃ a, x = .ok a ∧ f a = .ok b := by
  cases x with
  | error e => exact ⟨nofun, fun ⟨_, h, _⟩ => nomatch h⟩
  | ok a =>
    constructor
    · exact fun h => ⟨a, rfl, h⟩
    · rintro ⟨a', ha, h⟩
      obtain rfl := Except.ok.inj ha
      exact h

theorem map_eq_ok_iff {x : Except ε α} {f : α → β} {b : β} :
    x.map f = .ok b ↔ ∃ a, x = .ok a ∧ f a = b := by
  cases x with
  | error e => exact ⟨nofun, fun ⟨_, h, _⟩ => nomatch h⟩
  | ok a =>
    constructor
    · exact fun h => ⟨a, rfl, Except.ok.inj h⟩
    · rintro ⟨a', ha, rfl⟩
      obtain rfl := Except.ok.inj ha
      rfl

/-- Pieces are read if each of them is, and what comes out is what they are read as. -/
theorem mapM_of_forall {js : List ι} (h : ∀ j ∈ js, ∃ x, read j = .ok x) :
    ∃ xs, js.mapM read = .ok xs ∧ ∀ x, x ∈ xs ↔ ∃ j ∈ js, read j = .ok x := by
  induction js with
  | nil => exact ⟨[], rfl, by simp⟩
  | cons j js ih =>
    obtain ⟨x, hx⟩ := h j List.mem_cons_self
    obtain ⟨xs, hxs, hmem⟩ := ih fun i hi => h i (List.mem_cons_of_mem _ hi)
    refine ⟨x :: xs, ?_, ?_⟩
    · rw [List.mapM_cons, hx, hxs]
      rfl
    · intro y
      rw [List.mem_cons, hmem, @eq_comm _ y x]
      simp only [List.mem_cons, exists_eq_or_imp, hx, Except.ok.injEq]

/-- Where pieces are read, each of them is, and nothing else comes out. -/
theorem forall_of_mapM {js : List ι} {xs : List α} (h : js.mapM read = .ok xs) :
    (∀ j ∈ js, ∃ x, read j = .ok x) ∧ ∀ x ∈ xs, ∃ j, read j = .ok x := by
  have hall : ∀ j ∈ js, ∃ x, read j = .ok x := by
    induction js generalizing xs with
    | nil => exact List.forall_mem_nil _
    | cons j js ih =>
      rw [List.mapM_cons, bind_eq_ok_iff] at h
      obtain ⟨x, hx, h⟩ := h
      obtain ⟨xs', hxs, -⟩ := bind_eq_ok_iff.mp h
      exact List.forall_mem_cons.mpr ⟨⟨x, hx⟩, ih hxs⟩
  refine ⟨hall, ?_⟩
  intro x hx
  obtain ⟨xs', hxs, hmem⟩ := mapM_of_forall hall
  obtain rfl := Except.ok.inj (h.symm.trans hxs)
  obtain ⟨j, -, hj⟩ := (hmem x).mp hx
  exact ⟨j, hj⟩

theorem mapM_concat_eq_ok {j : ι} {js : List ι} {xs : List α}
    (h : (js ++ [j]).mapM read = .ok xs) :
    ∃ front x, js.mapM read = .ok front ∧ read j = .ok x ∧ xs = front ++ [x] := by
  rw [List.mapM_append, bind_eq_ok_iff] at h
  obtain ⟨front, hfront, h⟩ := h
  obtain ⟨back, hback, h⟩ := bind_eq_ok_iff.mp h
  rw [List.mapM_cons] at hback
  obtain ⟨x, hx, hback⟩ := bind_eq_ok_iff.mp hback
  cases hback
  cases h
  exact ⟨front, x, hfront, hx, rfl⟩

/-- **Pieces written from the elements of a list, in whatever order, are read as copies.** -/
theorem exists_copies {Copy : α → β → Prop} {write : β → ι} {xs : List β} {js : List ι}
    (hjs : js.Perm (xs.map write)) (hread : ∀ x ∈ xs, ∃ y, read (write x) = .ok y ∧ Copy y x) :
    ∃ ys, js.mapM read = .ok ys ∧ Copies Copy ys xs := by
  have hpieces : ∀ j, j ∈ js ↔ ∃ x ∈ xs, write x = j := by
    intro j
    rw [hjs.mem_iff, List.mem_map]
  have hall : ∀ j ∈ js, ∃ y, read j = .ok y := by
    intro j hj
    obtain ⟨x, hx, rfl⟩ := (hpieces j).mp hj
    obtain ⟨y, hy, -⟩ := hread x hx
    exact ⟨y, hy⟩
  obtain ⟨ys, hys, hmem⟩ := mapM_of_forall hall
  refine ⟨ys, hys, ?_, ?_⟩
  · intro y hy
    obtain ⟨j, hj, hyj⟩ := (hmem y).mp hy
    obtain ⟨x, hx, rfl⟩ := (hpieces j).mp hj
    obtain ⟨y', hy', hcopy⟩ := hread x hx
    rw [hyj] at hy'
    obtain rfl := Except.ok.inj hy'
    exact ⟨x, hx, hcopy⟩
  · intro x hx
    obtain ⟨y, hy, hcopy⟩ := hread x hx
    exact ⟨y, (hmem y).mpr ⟨write x, (hpieces _).mpr ⟨x, hx, rfl⟩, hy⟩, hcopy⟩

end Reading

section Items

variable {α κ ν : Type} [JsonDecode α] [JsonDecode κ] [JsonDecode ν]

theorem decodeAll_eq_mapM (js : List Json) : decodeAll js = js.mapM (decode : _ → Except _ α) := by
  induction js with
  | nil => rfl
  | cons j js ih =>
    rw [decodeAll, ih, List.mapM_cons]
    rfl

/-- Read one field, by its name and then by its value. -/
def decodeField (f : String × Json) : Except DecodeError (κ × ν) := do
  let k ← decodeName f.1
  let v ← decode f.2
  .ok (k, v)

theorem decodeField_eq_ok_iff {f : String × Json} {e : κ × ν} :
    decodeField f = .ok e ↔ decodeName f.1 = .ok e.1 ∧ decode f.2 = .ok e.2 := by
  rw [decodeField, bind_eq_ok_iff]
  constructor
  · rintro ⟨k, hk, h⟩
    obtain ⟨v, hv, h⟩ := bind_eq_ok_iff.mp h
    cases h
    exact ⟨hk, hv⟩
  · rintro ⟨hk, hv⟩
    exact ⟨e.1, hk, bind_eq_ok_iff.mpr ⟨e.2, hv, rfl⟩⟩

/-- What is read as a pair is an array of two, and its parts are read as the parts. -/
theorem exists_of_decodePair {j : Json} {e : κ × ν} (h : decodePair j = .ok e) :
    ∃ a b, j = .arr [a, b] ∧ decode a = .ok e.1 ∧ decode b = .ok e.2 := by
  unfold decodePair at h
  split at h
  · cases h
  · obtain ⟨-, -, h⟩ := bind_eq_ok_iff.mp h
    cases h
  · next a b rest =>
    obtain ⟨k, hk, h⟩ := bind_eq_ok_iff.mp h
    obtain ⟨v, hv, h⟩ := bind_eq_ok_iff.mp h
    split at h
    · next hrest =>
      cases h
      rw [List.isEmpty_iff.mp hrest]
      exact ⟨a, b, rfl, hk, hv⟩
    · cases h
  · cases h

theorem decodeFields_eq_mapM (fields : List (String × Json)) :
    decodeFields fields = fields.mapM (decodeField : _ → Except _ (κ × ν)) := by
  induction fields with
  | nil => rfl
  | cons f fields ih =>
    rw [decodeFields, ih, List.mapM_cons, decodeField]
    rcases (decodeName f.1 : Except DecodeError κ) with _ | k
    · rfl
    · rcases (decode f.2 : Except DecodeError ν) with _ | v <;> rfl

theorem TrieSet.decode_arr [BEq α] [Hashed α] (js : List Json) :
    (decode (.arr js) : Except _ (TrieSet α)) = (js.mapM decode).map ofList := by
  rw [← decodeAll_eq_mapM]
  rfl

variable [BEq κ] [Hashed κ] [Hashed ν]

theorem TrieMap.decode_arr (js : List Json) :
    (decode (.arr js) : Except _ (TrieMap κ ν)) = (js.mapM decode).map ofList := by
  rw [← decodeAll_eq_mapM]
  rfl

theorem TrieMap.decode_obj (fields : List (String × Json)) :
    (decode (.obj fields) : Except _ (TrieMap κ ν)) = (fields.mapM decodeField).map ofList := by
  rw [← decodeFields_eq_mapM]
  rfl

end Items

/-! ### Objects -/

namespace Json

/-- The names of the fields increase. -/
def Ordered (fields : List (String × Json)) : Prop :=
  fields.Pairwise fun f g => compare f.1 g.1 = .lt

theorem ne_of_compare_lt {name other : String} (h : compare name other = .lt) : name ≠ other := by
  rintro rfl
  have hself : compare name name = .eq := Std.ReflCmp.compare_self
  cases hself.symm.trans h

variable {name : String} {value : Json} {fields : List (String × Json)}

theorem Ordered.nodup (h : Ordered fields) : (fields.map Prod.fst).Nodup := by
  rw [List.Nodup, List.pairwise_map]
  exact List.Pairwise.imp ne_of_compare_lt h

/-- **A field is put in among those with other names**, and one with its name is left out. -/
theorem Ordered.insertField_spec (h : Ordered fields) (name : String) (value : Json) :
    Ordered (insertField name value fields) ∧
      ∀ g, g ∈ insertField name value fields ↔
        g = (name, value) ∨ g.1 ≠ name ∧ g ∈ fields := by
  induction fields with
  | nil =>
    refine ⟨List.pairwise_singleton _ _, ?_⟩
    intro g
    simp [insertField]
  | cons f fields ih =>
    obtain ⟨hfirst, hfields⟩ := List.pairwise_cons.mp h
    rw [insertField]
    split
    · next hlt =>
      have hall : ∀ g ∈ f :: fields, compare name g.1 = .lt := by
        rw [List.forall_mem_cons]
        exact ⟨hlt, fun g hg => Std.TransCmp.lt_trans hlt (hfirst g hg)⟩
      refine ⟨List.pairwise_cons.mpr ⟨hall, h⟩, ?_⟩
      intro g
      rw [List.mem_cons]
      exact or_congr_right (iff_and_self.mpr fun hg => (ne_of_compare_lt (hall g hg)).symm)
    · next heq =>
      obtain rfl := Std.LawfulEqCmp.eq_of_compare heq
      refine ⟨List.pairwise_cons.mpr ⟨hfirst, hfields⟩, ?_⟩
      intro g
      rw [List.mem_cons, List.mem_cons]
      refine or_congr_right ⟨fun hg => ⟨(ne_of_compare_lt (hfirst g hg)).symm, .inr hg⟩, ?_⟩
      rintro ⟨hne, rfl | hg⟩
      · exact absurd rfl hne
      · exact hg
    · next hgt =>
      obtain ⟨hordered, hmem⟩ := ih hfields
      have hlt : compare f.1 name = .lt := Std.OrientedCmp.gt_iff_lt.mp hgt
      refine ⟨List.pairwise_cons.mpr ⟨?_, hordered⟩, ?_⟩
      · intro g hg
        rcases (hmem g).mp hg with rfl | ⟨-, hg⟩
        · exact hlt
        · exact hfirst g hg
      · intro g
        rw [List.mem_cons, List.mem_cons, hmem, or_left_comm, and_or_left]
        refine or_congr_right (or_congr_left (iff_and_self.mpr ?_))
        rintro rfl
        exact ne_of_compare_lt hlt

end Json

/-- The entry is in the list, and none of those after it has its name. -/
def IsLatest (entries : List (String × Json)) (e : String × Json) : Prop :=
  ∃ front back, entries = front ++ e :: back ∧ ∀ f ∈ back, f.1 ≠ e.1

/-- The fields are the entries that come latest under their names, in the order of the names. -/
structure HoldsLatest (fields entries : List (String × Json)) : Prop where
  ordered : Json.Ordered fields
  mem_iff : ∀ e, e ∈ fields ↔ IsLatest entries e

section Latest

variable {entries fields : List (String × Json)} {e f : String × Json}

theorem not_isLatest_nil : ¬IsLatest [] e := by
  rintro ⟨front, back, h, -⟩
  exact List.append_ne_nil_of_right_ne_nil front (List.cons_ne_nil e back) h.symm

theorem IsLatest.mem (h : IsLatest entries e) : e ∈ entries := by
  obtain ⟨front, back, rfl, -⟩ := h
  exact List.mem_append_right front List.mem_cons_self

/-- An entry that is added is the latest, and those with another name remain so. -/
theorem isLatest_concat_iff :
    IsLatest (entries ++ [f]) e ↔ e = f ∨ e.1 ≠ f.1 ∧ IsLatest entries e := by
  constructor
  · rintro ⟨front, back, h, hback⟩
    rcases List.eq_nil_or_concat' back with rfl | ⟨back, g, rfl⟩
    · exact .inl (List.singleton_inj.mp (List.append_inj' h rfl).2).symm
    · rw [← List.cons_append, ← List.append_assoc] at h
      obtain ⟨rfl, hlast⟩ := List.append_inj' h rfl
      obtain rfl := List.singleton_inj.mp hlast
      rw [List.forall_mem_append, List.forall_mem_singleton] at hback
      exact .inr ⟨hback.2.symm, front, back, rfl, hback.1⟩
  · rintro (rfl | ⟨hne, front, back, rfl, hback⟩)
    · exact ⟨entries, [], rfl, List.forall_mem_nil _⟩
    · refine ⟨front, back ++ [f], List.append_assoc front (e :: back) [f], ?_⟩
      exact List.forall_mem_append.mpr ⟨hback, List.forall_mem_singleton.mpr hne.symm⟩

/-- Where no name is repeated, every entry is the latest. -/
theorem isLatest_iff_mem (h : (entries.map Prod.fst).Nodup) : IsLatest entries e ↔ e ∈ entries := by
  refine ⟨IsLatest.mem, ?_⟩
  intro he
  obtain ⟨front, back, rfl⟩ := List.append_of_mem he
  refine ⟨front, back, rfl, ?_⟩
  intro f hf heq
  rw [List.map_append, List.map_cons, List.nodup_append, List.nodup_cons] at h
  exact h.2.1.1 (heq ▸ List.mem_map_of_mem hf)

theorem HoldsLatest.isLatest_iff (h : HoldsLatest fields entries) :
    IsLatest fields e ↔ IsLatest entries e := by
  rw [isLatest_iff_mem h.ordered.nodup, h.mem_iff]

/-- **An object has the latest fields that were put in**, in the order of their names. -/
theorem Json.object_holdsLatest (entries : List (String × Json)) :
    ∃ fields, object entries = .obj fields ∧ HoldsLatest fields entries := by
  refine ⟨_, rfl, ?_⟩
  induction entries using List.reverseRecOn with
  | nil =>
    refine ⟨.nil, ?_⟩
    intro e
    simp [not_isLatest_nil]
  | append_singleton entries f ih =>
    obtain ⟨hordered, hmem⟩ := ih.ordered.insertField_spec f.1 f.2
    rw [List.foldl_concat]
    refine ⟨hordered, ?_⟩
    intro e
    rw [isLatest_concat_iff, ← ih.mem_iff]
    exact hmem e

/-- **Under different names, an object has the fields that were put in.** -/
theorem Json.object_perm (h : (entries.map Prod.fst).Nodup) :
    ∃ fields, object entries = .obj fields ∧ fields.Perm entries := by
  obtain ⟨fields, hobject, hholds⟩ := object_holdsLatest entries
  refine ⟨fields, hobject, ?_⟩
  rw [List.perm_ext_iff_of_nodup (hholds.ordered.nodup.of_map _) (h.of_map _)]
  intro e
  rw [hholds.mem_iff, isLatest_iff_mem h]

end Latest

/-! ### The shape of a map -/

section Shape

variable {κ ν : Type} [JsonEncode κ] [JsonEncode ν] (arrange : List Json → List Json)

/-- The key names a field. -/
def namesField (e : κ × ν) : Bool := (fieldName? e.1).isSome

/-- The field of an entry whose key names one. -/
def fieldOf (e : κ × ν) : String × Json := ((fieldName? e.1).getD "", encode arrange e.2)

theorem encodeFields?_eq (es : List (κ × ν)) :
    encodeFields? arrange es =
      if es.all namesField then some (es.map (fieldOf arrange)) else none := by
  induction es with
  | nil => rfl
  | cons e es ih =>
    rw [encodeFields?, ih, List.all_cons, namesField]
    rcases hname : fieldName? e.1 with _ | name
    · simp
    · cases es.all namesField <;> simp [fieldOf, hname]

/-- **A map whose keys all name fields is an object, and any other map an array of pairs.** -/
theorem encode_map (m : TrieMap κ ν) :
    encode arrange m =
      if m.toList.all namesField then Json.object (m.toList.map (fieldOf arrange))
      else .arr (arrange (m.toList.map (encode arrange))) := by
  simp only [encode, encodeFields?_eq]
  cases m.toList.all namesField <;> rfl

end Shape

end TrieCollections
