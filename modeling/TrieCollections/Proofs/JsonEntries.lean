/-
  TrieCollections/Proofs/JsonEntries.lean
  =======================================
  **Two shapes, one map.**  A map from texts is read from an object, or from an array of pairs.
  Field by field and pair by pair the same is read (`decode_pairs`), so what is left to compare is
  the order of the entries, and what comes of those that share their name.

  Entries are put in one after the other, so under each name counts the latest one (`IsLatest`).
  That holds for an object, which has no others, and it holds for the map, which has what the latest
  entry is read as (`get?_of_decode_obj`).  Whether anything is read, on the other hand, depends on
  all entries that stand there (`exists_decode_obj_iff`).  An array with an entry that is not read
  fails even if a later one has its name, where the object does not see it.
-/
import TrieCollections.Proofs.JsonRoundTrip

namespace TrieCollections

open TrieMap (ReachableWith)

/-! ### What is read is lawful -/

/-- Whatever is read is a lawful value, from data as well as from the name of a field. -/
structure ReadsLawful {α : Type} [JsonDecode α] (ok : α → Prop) : Prop where
  of_decode : ∀ {j x}, decode j = .ok x → ok x
  of_decodeName : ∀ {name x}, decodeName name = .ok x → ok x

namespace ReadsLawful

theorem set {α : Type} [BEq α] [Hashed α] [JsonDecode α] {ok : α → Prop} (h : ReadsLawful ok) :
    ReadsLawful (TrieSet.Reachable ok) where
  of_decode {j s} hs := by
    cases j
    case arr js =>
      rw [TrieSet.decode_arr] at hs
      obtain ⟨xs, hxs, rfl⟩ := map_eq_ok_iff.mp hs
      refine .ofList fun x hx => ?_
      obtain ⟨j, hj⟩ := (forall_of_mapM hxs).2 x hx
      exact h.of_decode hj
    all_goals cases hs
  of_decodeName hs := nomatch hs

variable {κ ν : Type} [BEq κ] [Hashed κ] [JsonDecode κ] [Hashed ν] [JsonDecode ν] {ok : κ → Prop}
  {okValue : ν → Prop}

theorem map (law : LawfulOn ok) (hkey : ReadsLawful ok) (hvalue : ReadsLawful okValue) :
    ReadsLawful (ReachableWith ok okValue : TrieMap κ ν → Prop) where
  of_decode {j m} hm := by
    cases j
    case arr js =>
      rw [TrieMap.decode_arr] at hm
      obtain ⟨es, hes, rfl⟩ := map_eq_ok_iff.mp hm
      refine .ofList law fun e he => ?_
      obtain ⟨j, hj⟩ := (forall_of_mapM hes).2 e he
      obtain ⟨a, b, -, ha, hb⟩ := exists_of_decodePair hj
      exact ⟨hkey.of_decode ha, hvalue.of_decode hb⟩
    case obj fields =>
      rw [TrieMap.decode_obj] at hm
      obtain ⟨es, hes, rfl⟩ := map_eq_ok_iff.mp hm
      refine .ofList law fun e he => ?_
      obtain ⟨f, hf⟩ := (forall_of_mapM hes).2 e he
      obtain ⟨hk, hv⟩ := decodeField_eq_ok_iff.mp hf
      exact ⟨hkey.of_decodeName hk, hvalue.of_decode hv⟩
    all_goals cases hm
  of_decodeName hm := nomatch hm

end ReadsLawful

theorem Portable.law {α : Type} [BEq α] [Hashed α] [JsonEncode α] [JsonDecode α] {ok : α → Prop}
    (h : Portable α ok) : LawfulOn ok :=
  have hread : ReadsBack id ok := h.readsBack fun js => .refl js
  hread.law

/-- **What is read as a value of a portable type is a lawful value**, by induction on how the type
    is made. -/
theorem Portable.readsLawful {α : Type} [BEq α] [Hashed α] [JsonEncode α] [JsonDecode α]
    {ok : α → Prop} (h : Portable α ok) : ReadsLawful ok := by
  induction h with
  | int64 | bool | string | optionString | int64Pair =>
    exact ⟨fun _ => trivial, fun _ => trivial⟩
  | set elements ih => exact ih.set
  | map keys values ihk ihv =>
    exact ihk.map keys.law ihv

/-! ### Maps from texts -/

/-- An entry as an array of two. -/
def Json.pair (e : String × Json) : Json := .arr [.str e.1, e.2]

section Entries

variable {ν : Type} [Hashed ν] [JsonDecode ν] {fields fields' : List (String × Json)}
  {m n : TrieMap String ν}

/-- **An array of pairs is read as the fields in the same order are**, with the same failure. -/
theorem decode_pairs (entries : List (String × Json)) :
    (decode (.arr (entries.map Json.pair)) : Except _ (TrieMap String ν)) =
      decode (.obj entries) := by
  have hpair : (fun e => decode (Json.pair e)) = (decodeField : _ → Except _ (String × ν)) := rfl
  rw [TrieMap.decode_arr, TrieMap.decode_obj, List.mapM_map, ← hpair]
  rfl

/-- An object is read if and only if all its values are. -/
theorem exists_decode_obj_iff :
    (∃ m : TrieMap String ν, decode (.obj fields) = .ok m) ↔
      ∀ f ∈ fields, ∃ v : ν, decode f.2 = .ok v := by
  simp only [TrieMap.decode_obj, map_eq_ok_iff]
  constructor
  · rintro ⟨m, es, hes, -⟩ f hf
    obtain ⟨e, he⟩ := (forall_of_mapM hes).1 f hf
    exact ⟨e.2, (decodeField_eq_ok_iff.mp he).2⟩
  · intro hall
    have hfields : ∀ f ∈ fields, ∃ e : String × ν, decodeField f = .ok e := by
      intro f hf
      obtain ⟨v, hv⟩ := hall f hf
      exact ⟨(f.1, v), decodeField_eq_ok_iff.mpr ⟨rfl, hv⟩⟩
    obtain ⟨es, hes, -⟩ := mapM_of_forall hfields
    exact ⟨_, es, hes, rfl⟩

/-- **Under a name a map has what the latest field with this name is read as.**  By induction on
    the fields, the last one last: it takes the place of what stood under its name. -/
theorem get?_of_decode_obj (hm : decode (.obj fields) = .ok m) (name : String) (v : ν) :
    m.get? name = some v ↔ ∃ j, IsLatest fields (name, j) ∧ decode j = .ok v := by
  rw [TrieMap.decode_obj] at hm
  obtain ⟨es, hes, rfl⟩ := map_eq_ok_iff.mp hm
  clear hm
  induction fields using List.reverseRecOn generalizing es with
  | nil =>
    cases hes
    show (none : Option ν) = some v ↔ _
    simp [not_isLatest_nil]
  | append_singleton fields f ih =>
    obtain ⟨front, e, hfront, he, rfl⟩ := mapM_concat_eq_ok hes
    obtain ⟨hname, hvalue⟩ := decodeField_eq_ok_iff.mp he
    have hname : f.1 = e.1 := Except.ok.inj hname
    have hbefore : (TrieMap.ofList front).Reachable fun _ => True := .ofList fun _ _ => trivial
    have hlast : TrieMap.ofList (front ++ [e]) = (TrieMap.ofList front).insert e.1 e.2 :=
      List.foldl_concat ..
    rw [hlast, TrieMap.get?_insert lawfulOn_true (hbefore.wellFormed lawfulOn_true) trivial trivial]
    split
    · next heq =>
      -- the field that comes last is the only one that is left under its name
      have heq : name = f.1 := (eq_of_beq heq).trans hname.symm
      constructor
      · intro hv
        refine ⟨f.2, isLatest_concat_iff.mpr (.inl (by rw [heq])), ?_⟩
        rw [hvalue, Option.some.inj hv]
      · rintro ⟨j, hj, hv⟩
        rcases isLatest_concat_iff.mp hj with rfl | ⟨hne, -⟩
        · rw [Except.ok.inj (hvalue.symm.trans hv)]
        · exact absurd heq hne
    · next hne =>
      have hne : name ≠ f.1 := fun heq => hne (by rw [heq, hname, BEq.rfl])
      rw [ih front hfront]
      refine exists_congr fun j => and_congr_left fun _ => ?_
      rw [isLatest_concat_iff]
      constructor
      · exact fun hj => .inr ⟨hne, hj⟩
      · rintro (rfl | ⟨-, hj⟩)
        · exact absurd rfl hne
        · exact hj

variable [BEq ν] {okValue : ν → Prop} (lawValue : LawfulOn okValue)
  (hlawful : ReadsLawful okValue)

include lawValue hlawful

/-- **Objects with the same latest fields are read as equal maps.** -/
theorem beq_of_isLatest_iff (hm : decode (.obj fields) = .ok m) (hn : decode (.obj fields') = .ok n)
    (h : ∀ f, IsLatest fields f ↔ IsLatest fields' f) : (m == n) = true := by
  have law : LawfulOn fun _ : String => True := lawfulOn_true
  have hmaps : ReadsLawful (ReachableWith (fun _ => True) okValue : TrieMap String ν → Prop) :=
    .map law ⟨fun _ => trivial, fun _ => trivial⟩ hlawful
  apply TrieMap.beq_of_get?_eq law lawValue ((hmaps.of_decode hm).wellFormed law)
    ((hmaps.of_decode hn).wellFormed law)
  intro name _
  ext v
  rw [get?_of_decode_obj hm, get?_of_decode_obj hn]
  exact exists_congr fun j => and_congr_left fun _ => h (name, j)

end Entries

/-- **Both shapes of a map are read alike.**  Let there be any entries, whatever is in them.  The
    object of the entries has the latest one under each name and no others.

      * If no name is repeated, an array of pairs with the entries in any order is read if and only
        if the object is, and they are read as equal maps.
      * Names may be repeated if all entries are read: then the array with all of them and the
        object, which has only the latest ones, are read as equal maps.
      * Whichever shape a map is read from, it has under each name what the latest entry with this
        name is read as, and nothing else. -/
theorem shapes_read_alike {ν : Type} [BEq ν] [Hashed ν] [JsonEncode ν] [JsonDecode ν]
    {okValue : ν → Prop} (values : Portable ν okValue) (entries : List (String × Json)) :
    (∃ fields, Json.object entries = .obj fields ∧ HoldsLatest fields entries) ∧
    ((entries.map Prod.fst).Nodup → ∀ shuffled : List (String × Json), shuffled.Perm entries →
      ((∃ m : TrieMap String ν, decode (.arr (shuffled.map Json.pair)) = .ok m) ↔
        ∃ n : TrieMap String ν, decode (Json.object entries) = .ok n) ∧
      ∀ m n : TrieMap String ν, decode (.arr (shuffled.map Json.pair)) = .ok m →
        decode (Json.object entries) = .ok n → (m == n) = true) ∧
    ((∀ e ∈ entries, ∃ v : ν, decode e.2 = .ok v) →
      ∃ m n : TrieMap String ν, decode (.arr (entries.map Json.pair)) = .ok m ∧
        decode (Json.object entries) = .ok n ∧ (m == n) = true) ∧
    ∀ m : TrieMap String ν, decode (.arr (entries.map Json.pair)) = .ok m ∨
        decode (Json.object entries) = .ok m →
      ∀ name v, m.get? name = some v ↔ ∃ j, IsLatest entries (name, j) ∧ decode j = .ok v := by
  obtain ⟨fields, hobject, hholds⟩ := Json.object_holdsLatest entries
  simp only [decode_pairs, hobject]
  refine ⟨⟨fields, rfl, hholds⟩, ?distinct, ?repeated, ?contents⟩
  case distinct =>
    intro hnames shuffled hperm
    have hmem : ∀ e, e ∈ fields ↔ e ∈ shuffled := by
      intro e
      rw [hholds.mem_iff, isLatest_iff_mem hnames, hperm.mem_iff]
    refine ⟨?_, ?_⟩
    · simp only [exists_decode_obj_iff, hmem]
    · intro m n hm hn
      apply beq_of_isLatest_iff values.law values.readsLawful hm hn
      intro e
      rw [isLatest_iff_mem ((hperm.map Prod.fst).nodup_iff.mpr hnames),
        isLatest_iff_mem hholds.ordered.nodup, hmem]
  case repeated =>
    intro hread
    obtain ⟨m, hm⟩ := exists_decode_obj_iff.mpr hread
    obtain ⟨n, hn⟩ := exists_decode_obj_iff.mpr fun f hf =>
      hread f ((hholds.mem_iff f).mp hf).mem
    refine ⟨m, n, hm, hn, ?_⟩
    exact beq_of_isLatest_iff values.law values.readsLawful hm hn fun _ => hholds.isLatest_iff.symm
  case contents =>
    rintro m (hm | hm) name v
    · exact get?_of_decode_obj hm name v
    · simp only [get?_of_decode_obj hm name v, hholds.isLatest_iff]

/-- Sets in another order, an entry that is no number, and a map that takes the place of another. -/
theorem shapes_read_alike_nested :
    (∃ m n : TrieMap String (TrieSet Int64),
      decode (.arr ([("b", .arr []), ("a", .arr [.int 1])].map Json.pair)) = .ok m ∧
        decode (Json.object [("a", .arr [.int 1]), ("b", .arr [])]) = .ok n ∧ (m == n) = true) ∧
    (¬∃ m : TrieMap String Int64,
      decode (.arr ([("a", .int 1), ("b", .null)].map Json.pair)) = .ok m) ∧
    let inner : Json := .obj [("x", .int 1)]
    let entries := [("a", inner), ("b", .obj []), ("a", .arr [.arr [.str "x", .int 2]])]
    ∃ m n : TrieMap String (TrieMap String Int64),
      decode (.arr (entries.map Json.pair)) = .ok m ∧
        decode (Json.object entries) = .ok n ∧ (m == n) = true ∧
        ∀ name v, n.get? name = some v ↔ ∃ j, IsLatest entries (name, j) ∧ decode j = .ok v := by
  refine ⟨?sets, ?numbers, ?maps⟩
  case sets =>
    obtain ⟨-, hdistinct, -⟩ :=
      shapes_read_alike (.set .int64) [("a", .arr [.int 1]), ("b", .arr [])]
    obtain ⟨-, halike⟩ := hdistinct (by decide) [("b", .arr []), ("a", .arr [.int 1])] (.swap _ _ _)
    exact ⟨_, _, rfl, rfl, halike _ _ rfl rfl⟩
  case numbers =>
    obtain ⟨-, hdistinct, -⟩ := shapes_read_alike .int64 [("a", .int 1), ("b", .null)]
    rw [(hdistinct (by decide) _ (.refl _)).1]
    rintro ⟨n, hn⟩
    cases hn
  case maps =>
    intro inner entries
    have hread : ∀ e ∈ entries, ∃ v : TrieMap String Int64, decode e.2 = .ok v := by
      simp only [entries, List.forall_mem_cons]
      exact ⟨⟨_, rfl⟩, ⟨_, rfl⟩, ⟨_, rfl⟩, List.forall_mem_nil _⟩
    obtain ⟨-, -, hrepeated, hcontents⟩ := shapes_read_alike (.map .string .int64) entries
    obtain ⟨m, n, hm, hn, heq⟩ := hrepeated hread
    exact ⟨m, n, hm, hn, heq, hcontents n (.inr hn)⟩

end TrieCollections
