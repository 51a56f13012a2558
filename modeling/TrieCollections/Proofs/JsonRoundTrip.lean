/-
  TrieCollections/Proofs/JsonRoundTrip.lean
  =========================================
  **What is written is read back.**  Types are *portable* if they are made from scalars by sets
  and maps, nested in any way (`Portable`).  What is written for a value of such a type is read
  back as an equal value.  That is an induction on how the type is made (`Portable.readsBack`),
  with two things to carry along: a value of the type can also be read back from the name of a
  field, if it gives one, and `==` is lawful on the values.

    * The pieces of a collection are read as copies of its elements, whatever their order, and
      a collection built from copies of its elements is equal to it (`isCopy_ofList`).
    * Which shape a map has is decided anew for each map.  Where it is an object, different keys
      gave different names, as one name is read as one key (`nodup_names`).
-/
import TrieCollections.Proofs.JsonShapes

namespace TrieCollections

open TrieMap (ReachableWith)

/-! ### Collections of copies -/

/-- A lawful value that is equal to another one. -/
def IsCopy {α : Type} [BEq α] (ok : α → Prop) (y x : α) : Prop := ok y ∧ (y == x) = true

/-- An entry whose parts are copies of those of another one. -/
def IsEntryCopy {κ ν : Type} [BEq κ] [BEq ν] (ok : κ → Prop) (okValue : ν → Prop) (f e : κ × ν) :
    Prop :=
  IsCopy ok f.1 e.1 ∧ IsCopy okValue f.2 e.2

namespace TrieSet

variable {α : Type} [BEq α] [Hashed α] {ok : α → Prop} (law : LawfulOn ok) {s : TrieSet α}
  {ys : List α}

include law

/-- **A set built from copies of the members of a set is a copy of it.** -/
theorem isCopy_ofList (hs : s.trie.WellFormed ok) (h : Copies (IsCopy ok) ys s.toList) :
    IsCopy (Reachable ok) (ofList ys) s := by
  have hys : ∀ y ∈ ys, ok y := fun y hy => (h.exists_original y hy).choose_spec.2.1
  have hbuilt : (ofList ys).Reachable ok := .ofList hys
  refine ⟨hbuilt, ?_⟩
  rw [beq_iff_contains law (hbuilt.wellFormed law) hs]
  intro z hz
  rw [contains_ofList law hys hz, Bool.eq_iff_iff, List.any_eq_true, contains_iff_mem law hs hz]
  constructor
  · rintro ⟨y, hy, hzy⟩
    obtain ⟨x, hx, -, hyx⟩ := h.exists_original y hy
    exact ⟨x, hx, law.trans hz (hys y hy) (lawful_of_mem hs hx) hzy hyx⟩
  · rintro ⟨x, hx, hzx⟩
    obtain ⟨y, hy, -, hyx⟩ := h.exists_copy x hx
    have hokx := lawful_of_mem hs hx
    exact ⟨y, hy, law.trans hz hokx (hys y hy) hzx (law.symm (hys y hy) hokx hyx)⟩

end TrieSet

namespace TrieMap

variable {κ ν : Type} [BEq κ] [Hashed κ] [BEq ν] [Hashed ν] {ok : κ → Prop} {okValue : ν → Prop}
  (law : LawfulOn ok) (lawValue : LawfulOn okValue) {m : TrieMap κ ν} {es : List (κ × ν)}

include law lawValue

/-- **A map built from copies of the entries of a map is a copy of it.** -/
theorem isCopy_ofList (hm : m.WellFormed ok okValue)
    (h : Copies (IsEntryCopy ok okValue) es m.toList) :
    IsCopy (ReachableWith ok okValue) (ofList es) m := by
  have hes : ∀ f ∈ es, ok f.1 ∧ okValue f.2 := by
    intro f hf
    obtain ⟨e, he, hkey, hvalue⟩ := h.exists_original f hf
    exact ⟨hkey.1, hvalue.1⟩
  have hbuilt : (ofList es).ReachableWith ok okValue := .ofList law hes
  refine ⟨hbuilt, ?_⟩
  rw [beq_iff_agree law (hbuilt.wellFormed law) hm lawValue]
  intro k hk
  rw [get?_ofList law (fun f hf => (hes f hf).1) hk]
  rcases hfind : es.reverse.find? fun e => k == e.1 with _ | f
  · -- no copy has the key, so no entry has it
    have hnone : m.get? k = none := by
      rw [Option.eq_none_iff_forall_ne_some]
      intro v hv
      obtain ⟨e, he, hke, -⟩ := (get?_eq_some_iff_mem law hm.trie hk).mp hv
      obtain ⟨f, hf, ⟨hokf, hfe⟩, -⟩ := h.exists_copy e he
      have hoke := lawful_of_mem hm.trie he
      exact List.find?_eq_none.mp hfind f (List.mem_reverse.mpr hf)
        (law.trans hk hoke hokf hke (law.symm hokf hoke hfe))
    rw [hnone, hfind]
    exact .none
  · have hf := List.mem_reverse.mp (List.mem_of_find?_eq_some hfind)
    have hkf : (k == f.1) = true := List.find?_some (p := fun e : κ × ν => k == e.1) hfind
    obtain ⟨e, he, ⟨hokf, hfe⟩, -, hvalue⟩ := h.exists_original f hf
    have hke := law.trans hk hokf (lawful_of_mem hm.trie he) hkf hfe
    rw [(get?_eq_some_iff_mem law hm.trie hk).mpr ⟨e, he, hke, rfl⟩, hfind]
    exact .some hvalue

end TrieMap

/-! ### Reading back -/

/-- What is written for a lawful value is read back as a copy of it, from data as well as from the
    name of a field. -/
structure ReadsBack (arrange : List Json → List Json) {α : Type} [BEq α] [Hashed α] [JsonEncode α]
    [JsonDecode α] (ok : α → Prop) : Prop where
  law : LawfulOn ok
  decode_encode : ∀ x, ok x → ∃ y, decode (encode arrange x) = .ok y ∧ IsCopy ok y x
  decode_name : ∀ x name, ok x → fieldName? x = some name →
    ∃ y, decodeName name = .ok y ∧ IsCopy ok y x

namespace ReadsBack

variable {arrange : List Json → List Json}

/-! #### Scalars -/

/-- A type whose `==` is equality, and all of whose values are read back as they are. -/
theorem of_eq {α : Type} [BEq α] [LawfulBEq α] [Hashed α] [JsonEncode α] [JsonDecode α]
    (hdata : ∀ x : α, decode (encode arrange x) = .ok x)
    (hname : ∀ (x : α) name, fieldName? x = some name → decodeName name = .ok x) :
    ReadsBack arrange fun _ : α => True where
  law := lawfulOn_true
  decode_encode x _ := ⟨x, hdata x, trivial, BEq.rfl⟩
  decode_name x name _ h := ⟨x, hname x name h, trivial, BEq.rfl⟩

theorem int64OfInt?_toInt (n : Int64) : int64OfInt? n.toInt = some n := by
  rw [int64OfInt?, if_pos ⟨Int64.minValue_le_toInt n, Int64.toInt_le n⟩, Int64.ofInt_toInt]

theorem decode_int64 (n : Int64) : decode (encode arrange n) = .ok n := by
  simp only [encode, decode, int64OfInt?_toInt]

theorem int64 : ReadsBack arrange fun _ : Int64 => True :=
  of_eq decode_int64 fun _ _ h => nomatch h

theorem bool : ReadsBack arrange fun _ : Bool => True :=
  of_eq (fun _ => rfl) fun _ _ h => nomatch h

theorem string : ReadsBack arrange fun _ : String => True :=
  of_eq (fun _ => rfl) fun _ _ h => congrArg Except.ok (Option.some.inj h).symm

theorem optionString : ReadsBack arrange fun _ : Option String => True := by
  apply of_eq
  · intro x
    cases x <;> rfl
  · exact fun _ _ h => nomatch h

theorem int64Pair : ReadsBack arrange fun _ : Int64 × Int64 => True := by
  apply of_eq
  · intro p
    show (decodePair (encodePair arrange p) : Except _ (Int64 × Int64)) = _
    rw [encodePair, decodePair, decode_int64, decode_int64]
    rfl
  · exact fun _ _ h => nomatch h

/-! #### Collections -/

variable (harrange : ∀ js, (arrange js).Perm js)

include harrange

theorem set {α : Type} [BEq α] [Hashed α] [JsonEncode α] [JsonDecode α] {ok : α → Prop}
    (h : ReadsBack arrange ok) : ReadsBack arrange (TrieSet.Reachable ok) where
  law := (TrieSet.lawfulOn h.law).mono fun _ hs => hs.wellFormed h.law
  decode_encode s hs := by
    have hwf := hs.wellFormed h.law
    obtain ⟨ys, hys, hcopies⟩ : ∃ ys,
        (arrange (s.toList.map (encode arrange))).mapM decode = .ok ys ∧
          Copies (IsCopy ok) ys s.toList :=
      exists_copies (harrange _) fun x hx => h.decode_encode x (TrieSet.lawful_of_mem hwf hx)
    refine ⟨.ofList ys, ?_, TrieSet.isCopy_ofList h.law hwf hcopies⟩
    show decode (.arr (arrange (s.toList.map (encode arrange)))) = _
    rw [TrieSet.decode_arr, hys]
    rfl
  decode_name _ _ _ hname := nomatch hname

variable {κ ν : Type} [BEq κ] [Hashed κ] [JsonEncode κ] [JsonDecode κ] [BEq ν] [Hashed ν]
  [JsonEncode ν] [JsonDecode ν] {ok : κ → Prop} {okValue : ν → Prop} (hkey : ReadsBack arrange ok)
  (hvalue : ReadsBack arrange okValue)

include hkey

omit harrange in
include hvalue in
/-- An entry is read back from a pair. -/
theorem decode_pair {e : κ × ν} (hk : ok e.1) (hv : okValue e.2) :
    ∃ f, decode (encode arrange e) = .ok f ∧ IsEntryCopy ok okValue f e := by
  obtain ⟨k, hdecode, hcopy⟩ := hkey.decode_encode e.1 hk
  obtain ⟨v, hdecode', hcopy'⟩ := hvalue.decode_encode e.2 hv
  refine ⟨(k, v), ?_, hcopy, hcopy'⟩
  show (decodePair (encodePair arrange e) : Except _ (κ × ν)) = _
  rw [encodePair, decodePair, hdecode, hdecode']
  rfl

omit harrange in
include hvalue in
/-- An entry whose key names a field is read back from this field. -/
theorem decode_field {e : κ × ν} (hk : ok e.1) (hv : okValue e.2) (hname : namesField e = true) :
    ∃ f, decodeField (fieldOf arrange e) = .ok f ∧ IsEntryCopy ok okValue f e := by
  obtain ⟨name, hname⟩ := Option.isSome_iff_exists.mp hname
  obtain ⟨k, hdecode, hcopy⟩ := hkey.decode_name e.1 name hk hname
  obtain ⟨v, hdecode', hcopy'⟩ := hvalue.decode_encode e.2 hv
  refine ⟨(k, v), ?_, hcopy, hcopy'⟩
  rw [decodeField, fieldOf, hname, Option.getD_some, hdecode, hdecode']
  rfl

omit harrange [BEq ν] [JsonDecode ν] in
/-- **Different keys give different names**, since each name is read as one key. -/
theorem nodup_names {m : TrieMap κ ν} (hm : m.trie.WellFormed ok)
    (hnames : m.toList.all namesField = true) :
    ((m.toList.map (fieldOf arrange)).map Prod.fst).Nodup := by
  rw [List.Nodup, List.pairwise_map, List.pairwise_map]
  refine (TrieMap.pairwise_toList hkey.law hm).imp_of_mem ?_
  intro e f he hf hne heq
  obtain ⟨name, hname⟩ := Option.isSome_iff_exists.mp (List.all_eq_true.mp hnames e he)
  obtain ⟨name', hname'⟩ := Option.isSome_iff_exists.mp (List.all_eq_true.mp hnames f hf)
  rw [fieldOf, fieldOf, hname, hname', Option.getD_some, Option.getD_some] at heq
  obtain rfl : name = name' := heq
  have hke := TrieMap.lawful_of_mem hm he
  have hkf := TrieMap.lawful_of_mem hm hf
  obtain ⟨k, hdecode, hk, hcopy⟩ := hkey.decode_name e.1 name hke hname
  obtain ⟨l, hdecode', hl, hcopy'⟩ := hkey.decode_name f.1 name hkf hname'
  rw [hdecode'] at hdecode
  obtain rfl := Except.ok.inj hdecode
  rw [hkey.law.trans hke hk hkf (hkey.law.symm hk hke hcopy) hcopy'] at hne
  cases hne

include hvalue

theorem map : ReadsBack arrange (ReachableWith ok okValue) where
  law := TrieMap.lawfulOn_reachableWith hkey.law hvalue.law
  decode_encode m hm := by
    have hwf := hm.wellFormed hkey.law
    have hok : ∀ e ∈ m.toList, ok e.1 ∧ okValue e.2 := fun e he =>
      ⟨TrieMap.lawful_of_mem hwf.trie he, hwf.values e he⟩
    -- in either shape the pieces are read as copies of the entries
    rw [encode_map]
    split
    · next hnames =>
      obtain ⟨fields, hobject, hperm⟩ := Json.object_perm (hkey.nodup_names hwf.trie hnames)
      obtain ⟨es, hes, hcopies⟩ : ∃ es, fields.mapM decodeField = .ok es ∧
          Copies (IsEntryCopy ok okValue) es m.toList :=
        exists_copies hperm fun e he => hkey.decode_field hvalue (hok e he).1 (hok e he).2
          (List.all_eq_true.mp hnames e he)
      refine ⟨.ofList es, ?_, TrieMap.isCopy_ofList hkey.law hvalue.law hwf hcopies⟩
      rw [hobject, TrieMap.decode_obj, hes]
      rfl
    · obtain ⟨es, hes, hcopies⟩ : ∃ es,
          (arrange (m.toList.map (encode arrange))).mapM decode = .ok es ∧
            Copies (IsEntryCopy ok okValue) es m.toList :=
        exists_copies (harrange _) fun e he => hkey.decode_pair hvalue (hok e he).1 (hok e he).2
      refine ⟨.ofList es, ?_, TrieMap.isCopy_ofList hkey.law hvalue.law hwf hcopies⟩
      rw [TrieMap.decode_arr, hes]
      rfl
  decode_name _ _ _ hname := nomatch hname

end ReadsBack

/-! ### Portable types -/

/-- The types that are made from scalars by sets and maps, each with the values of it that come
    about. -/
inductive Portable : (α : Type) → [BEq α] → [Hashed α] → [JsonEncode α] → [JsonDecode α] →
    (α → Prop) → Prop
  | int64 : Portable Int64 fun _ => True
  | bool : Portable Bool fun _ => True
  | string : Portable String fun _ => True
  | optionString : Portable (Option String) fun _ => True
  | int64Pair : Portable (Int64 × Int64) fun _ => True
  | set {α : Type} [BEq α] [Hashed α] [JsonEncode α] [JsonDecode α] {ok : α → Prop}
      (elements : Portable α ok) : Portable (TrieSet α) (TrieSet.Reachable ok)
  | map {κ ν : Type} [BEq κ] [Hashed κ] [JsonEncode κ] [JsonDecode κ] [BEq ν] [Hashed ν]
      [JsonEncode ν] [JsonDecode ν] {ok : κ → Prop} {okValue : ν → Prop} (keys : Portable κ ok)
      (values : Portable ν okValue) : Portable (TrieMap κ ν) (ReachableWith ok okValue)

/-- **Values of portable types are read back**, by induction on how the type is made. -/
theorem Portable.readsBack {arrange : List Json → List Json}
    (harrange : ∀ js, (arrange js).Perm js) {α : Type} [BEq α] [Hashed α] [JsonEncode α]
    [JsonDecode α] {ok : α → Prop} (h : Portable α ok) : ReadsBack arrange ok := by
  induction h with
  | int64 => exact .int64
  | bool => exact .bool
  | string => exact .string
  | optionString => exact .optionString
  | int64Pair => exact .int64Pair
  | set elements ih => exact ih.set harrange
  | map keys values ihk ihv => exact ihk.map harrange ihv

/-- **Serialization round-trips.**  Whatever is written for a value of a portable type, with the
    items of its arrays in any order, is read back as a value that is equal to it.  This holds for
    maps of both shapes, which may be different ones at different depths: a map is an object with
    one field for each entry if all its keys name fields, hence also if it is empty, and otherwise
    an array with one pair for each entry. -/
theorem serialization_round_trips {arrange : List Json → List Json}
    (harrange : ∀ js, (arrange js).Perm js) :
    (∀ (α : Type) [BEq α] [Hashed α] [JsonEncode α] [JsonDecode α] (ok : α → Prop),
      Portable α ok → ∀ x, ok x →
        ∃ y, decode (encode arrange x) = .ok y ∧ ok y ∧ (y == x) = true) ∧
    ∀ (κ ν : Type) [BEq κ] [Hashed κ] [JsonEncode κ] [JsonDecode κ] [Hashed ν] [JsonEncode ν]
      (ok : κ → Prop), Portable κ ok → ∀ m : TrieMap κ ν, m.Reachable ok →
        ((∀ e ∈ m.toList, (fieldName? e.1).isSome = true) →
          ∃ fields, encode arrange m = .obj fields ∧
            fields.Perm (m.toList.map fun e => ((fieldName? e.1).getD "", encode arrange e.2))) ∧
        (m.isEmpty = true → encode arrange m = .obj []) ∧
        ((∃ e ∈ m.toList, fieldName? e.1 = none) →
          ∃ items, encode arrange m = .arr items ∧
            items.Perm (m.toList.map fun e => .arr [encode arrange e.1, encode arrange e.2])) := by
  refine ⟨?roundTrip, ?shape⟩
  case roundTrip =>
    intro α _ _ _ _ ok hα x hx
    exact (hα.readsBack harrange).decode_encode x hx
  case shape =>
    intro κ ν _ _ _ _ _ _ ok hκ m hm
    have hkey := hκ.readsBack harrange
    have hwf := hm.wellFormed hkey.law
    have hobject : (∀ e ∈ m.toList, (fieldName? e.1).isSome = true) → ∃ fields,
        encode arrange m = .obj fields ∧ fields.Perm (m.toList.map (fieldOf arrange)) := by
      intro hnames
      have hall : m.toList.all namesField = true := List.all_eq_true.mpr hnames
      rw [encode_map, if_pos hall]
      exact Json.object_perm (hkey.nodup_names hwf hall)
    refine ⟨hobject, ?_, ?_⟩
    · intro hempty
      rw [TrieMap.isEmpty, TrieMap.size_eq_length hwf, beq_iff_eq,
        List.length_eq_zero_iff] at hempty
      rw [hempty] at hobject
      obtain ⟨fields, hfields, hperm⟩ := hobject (List.forall_mem_nil _)
      rw [hfields, hperm.eq_nil]
    · rintro ⟨e, he, hname⟩
      have hnot : ¬m.toList.all namesField = true := by
        intro hall
        have hsome := List.all_eq_true.mp hall e he
        rw [namesField, hname] at hsome
        cases hsome
      rw [encode_map, if_neg hnot]
      exact ⟨_, rfl, harrange _⟩

/-- An object that holds an array of pairs, with a set of options in it, and an empty object. -/
theorem serialization_round_trips_mixed :
    let inner : TrieMap Int64 (TrieSet (Option String)) := .unit 5 (.unit none)
    let m := (TrieMap.unit "a" inner).insert "b" .empty
    (∃ y, decode (encode id m) = .ok y ∧ (y == m) = true) ∧
      (∃ fields, encode id m = .obj fields) ∧
      encode id inner = .arr [.arr [.int 5, .arr [.null]]] := by
  intro inner m
  have harrange : ∀ js : List Json, (id js).Perm js := fun js => .refl js
  have law : LawfulOn fun _ : String => True := lawfulOn_true
  have hmiddle : Portable (TrieMap Int64 (TrieSet (Option String))) _ :=
    .map .int64 (.set .optionString)
  have hinner : ReachableWith (fun _ => True) (TrieSet.Reachable fun _ => True) inner :=
    .unit lawfulOn_true trivial (.unit trivial)
  have hm : ReachableWith (fun _ => True)
      (ReachableWith (fun _ => True) (TrieSet.Reachable fun _ => True)) m :=
    (ReachableWith.unit law trivial hinner).insert law trivial .empty
  obtain ⟨hround, hshape⟩ := serialization_round_trips harrange
  obtain ⟨y, hy, -, heq⟩ := hround _ _ (.map .string hmiddle) m hm
  obtain ⟨fields, hfields, -⟩ := (hshape _ _ _ .string m hm.history).1 fun _ _ => rfl
  refine ⟨⟨y, hy, heq⟩, ⟨fields, hfields⟩, ?_⟩
  have hset : encode id (TrieSet.unit (none : Option String)) = .arr [.null] := by
    show Json.arr (id ((TrieSet.unit (none : Option String)).toList.map (encode id))) = _
    rw [TrieSet.toList_unit]
    rfl
  have hlist : inner.toList = [(5, .unit none)] := TrieMap.toList_unit _ _
  obtain ⟨items, hitems, hperm⟩ :=
    (hshape _ _ _ .int64 inner hinner.history).2.2 ⟨(5, .unit none), by simp [hlist], rfl⟩
  rw [hlist, List.map_singleton, List.perm_singleton, hset] at hperm
  rw [hitems, hperm]
  rfl

end TrieCollections
