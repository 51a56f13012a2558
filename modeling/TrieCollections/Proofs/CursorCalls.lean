/-
  TrieCollections/Proofs/CursorCalls.lean
  =======================================
  **Walks and drains hand out every entry once, and then nothing any more.**  A call of either is
  a loop.  Each turn of it takes up the next thing that is still to be visited, and the loop ends
  when this is an entry or when nothing is left.  `Walk.turn` and `Drain.turn` are single turns of
  the two loops.  A turn that hands something out also counts one down; what it does when the
  count has run out is told apart from everything else (`Turn.overdrawn`), and it does not happen.

  Where a cursor stands says what is still to come and how many turns that takes at most.  A turn
  hands out the first of what is to come, or it leaves that as it is, and in both cases there is
  less to do afterwards.  These are the laws of a `Cursor`, and walks and drains are two of them.
  What follows is the same for both: a call ends (`Cursor.exists_call`) and does with what is to
  come what one turn does, by induction on its turns; and a row of calls hands out all that is to
  come, by induction on the row (`Cursor.lists`).

  A walk has the entries of its trie to come in their order.  A drain has them in the opposite
  one, since it takes up the last node first.
-/
import TrieCollections.ClusterKey
import TrieCollections.Proofs.LookupLaws
import TrieCollections.Proofs.Reachable
import TrieCollections.Proofs.Walks

namespace TrieCollections

/-! ### Turns -/

/-- What one turn of a cursor's loop comes to. -/
inductive Turn (σ τ : Type) where
  | hand (x : τ) (rest : σ)
  | again (rest : σ)
  | done
  /-- Something would be handed out, but the count has run out. -/
  | overdrawn

/-- Hand out `x` and count down. -/
def Turn.handing {σ τ : Type} (x : τ) (rest : Nat → σ) : (remaining : Nat) → Turn σ τ
  | 0 => overdrawn
  | n + 1 => hand x (rest n)

/-- What can be asked of a cursor wherever it stands. -/
structure Reading (σ τ : Type) where
  /-- What a whole call gives. -/
  next? : σ → Option (τ × σ)
  /-- What is still to come. -/
  pending : σ → List τ
  /-- How much is still to come, as the cursor itself reports it. -/
  remaining : σ → Nat
  /-- A bound on the turns that are still to be taken. -/
  effort : σ → Nat

/-- A turn does what it should with what is to come, with the count, and with what there is to
    do. -/
inductive Turn.Fits {σ τ : Type} (r : Reading σ τ) (w : σ) : Turn σ τ → Prop
  | hand {x : τ} {rest : σ} (given : r.next? w = some (x, rest))
      (first : r.pending w = x :: r.pending rest) (counted : r.remaining w = r.remaining rest + 1)
      (less : r.effort rest < r.effort w) : Fits r w (.hand x rest)
  | again {rest : σ} (given : r.next? w = r.next? rest) (same : r.pending w = r.pending rest)
      (counted : r.remaining w = r.remaining rest) (less : r.effort rest < r.effort w) :
      Fits r w (.again rest)
  | done (given : r.next? w = none) (nothing : r.pending w = []) : Fits r w .done
  | overdrawn (short : r.remaining w < (r.pending w).length) : Fits r w .overdrawn

theorem Turn.fits_handing {σ τ : Type} {r : Reading σ τ} {w : σ} {x : τ} {rest : Nat → σ}
    {remaining : Nat} (hremaining : r.remaining w = remaining)
    (hrest : ∀ n, r.remaining (rest n) = n)
    (hgiven : r.next? w = some (x, rest (remaining - 1)))
    (hpending : ∀ n, r.pending w = x :: r.pending (rest n))
    (hless : ∀ n, r.effort (rest n) < r.effort w) :
    (Turn.handing x rest remaining).Fits r w := by
  cases remaining with
  | zero =>
    apply Fits.overdrawn
    rw [hremaining, hpending 0]
    exact Nat.succ_pos _
  | succ n => exact .hand hgiven (hpending n) (by rw [hremaining, hrest]) (hless n)

/-! ### Calls -/

/-- Something that hands out one thing after the other, each of them in a loop of turns. -/
structure Cursor (σ τ : Type) extends Reading σ τ where
  turn : σ → Turn σ τ
  fits : ∀ w, (turn w).Fits toReading w

namespace Cursor

variable {σ τ : Type} (c : Cursor σ τ)

/-- A call: the turns that its loop takes, what it hands out, and where it leaves the cursor. -/
inductive Call : σ → Nat → Option τ → σ → Prop
  | hand {w rest : σ} {x : τ} (now : c.turn w = .hand x rest) : Call w 1 (some x) rest
  | done {w : σ} (now : c.turn w = .done) : Call w 1 none w
  | again {w v rest : σ} {turns : Nat} {answer : Option τ} (now : c.turn w = .again v)
      (later : Call v turns answer rest) : Call w (turns + 1) answer rest

/-- Calls in a row, each from where the one before it has left the cursor: the turns of all their
    loops, and their answers. -/
inductive Calls : σ → Nat → List (Option τ) → σ → Prop
  | nil {w : σ} : Calls w 0 [] w
  | cons {w v rest : σ} {turns turns' : Nat} {answer : Option τ} {answers : List (Option τ)}
      (first : c.Call w turns answer v) (later : Calls v turns' answers rest) :
      Calls w (turns + turns') (answer :: answers) rest

/-- The cursor hands out these things, one with each call, and nothing any more after the last of
    them.  However many calls are made, they come to an end, and the cursor then reports how much
    is still to come. -/
structure Lists (w : σ) (listed : List τ) : Prop where
  ends : ∀ n, ∃ turns answers rest, c.Calls w turns answers rest ∧ answers.length = n
  answers_eq : ∀ {turns answers rest}, c.Calls w turns answers rest →
    answers = (List.range answers.length).map (listed[·]?)
  remaining_eq : ∀ {turns answers rest}, c.Calls w turns answers rest →
    c.remaining rest = listed.length - answers.length
  turns_le : ∀ {turns answers rest}, c.Calls w turns answers rest →
    turns ≤ c.effort w + answers.length

variable {c} {w v rest : σ} {turns : Nat} {x : τ} {answer : Option τ} {answers : List (Option τ)}

/-- **A call ends** where the count is not short.  By induction on what there is to do. -/
theorem exists_call (hcount : (c.pending w).length ≤ c.remaining w) :
    ∃ turns answer rest, c.Call w turns answer rest := by
  induction heffort : c.effort w using Nat.strongRecOn generalizing w with
  | ind effort ih =>
    have hfits := c.fits w
    rcases hturn : c.turn w with ⟨x, rest⟩ | v | _ | _ <;> rw [hturn] at hfits
    · exact ⟨1, some x, rest, .hand hturn⟩
    · cases hfits with
      | again given same counted less =>
        rw [same, counted] at hcount
        obtain ⟨turns, answer, rest, hlater⟩ := ih _ (heffort ▸ less) hcount rfl
        exact ⟨turns + 1, answer, rest, .again hturn hlater⟩
    · exact ⟨1, none, w, .done hturn⟩
    · cases hfits with
      | overdrawn short => exact absurd hcount (Nat.not_le_of_lt short)

/-- What a call does: it is what `next?` gives, it hands out the first of what is to come and
    leaves the others, it counts what it hands out, and each turn but the last leaves less to
    do. -/
structure Served (c : Cursor σ τ) (w : σ) (turns : Nat) (answer : Option τ) (rest : σ) : Prop where
  given : c.next? w = answer.map (·, rest)
  answer_eq : answer = (c.pending w).head?
  pending_eq : c.pending rest = (c.pending w).tail
  counted : c.remaining w = c.remaining rest + answer.toList.length
  turns_le : turns + c.effort rest ≤ c.effort w + 1

/-- **A call does with what is to come what a single turn does.**  By induction on its turns. -/
theorem Call.served (h : c.Call w turns answer rest) : c.Served w turns answer rest := by
  induction h with
  | @hand w rest x now =>
    cases (now ▸ c.fits w : (Turn.hand x rest).Fits c.toReading w) with
    | hand given first counted less =>
      exact ⟨given, by rw [first]; rfl, by rw [first]; rfl, counted, by omega⟩
  | @done w now =>
    cases (now ▸ c.fits w : Turn.done.Fits c.toReading w) with
    | done given nothing =>
      exact ⟨given, by rw [nothing]; rfl, by rw [nothing]; rfl, rfl, by omega⟩
  | @again w v rest turns answer now later ih =>
    cases (now ▸ c.fits w : (Turn.again v).Fits c.toReading w) with
    | again given same counted less =>
      have hturns := ih.turns_le
      exact ⟨given.trans ih.given, same ▸ ih.answer_eq, same ▸ ih.pending_eq,
        counted.trans ih.counted, by omega⟩

/-- A right count stays right. -/
theorem Served.right (h : c.Served w turns answer rest)
    (hright : c.remaining w = (c.pending w).length) :
    c.remaining rest = (c.pending rest).length := by
  have hcounted := h.counted
  rw [hright, h.answer_eq] at hcounted
  rw [h.pending_eq, List.length_tail]
  rcases hpending : c.pending w with _ | ⟨x, xs⟩ <;> rw [hpending] at hcounted <;>
    simpa [eq_comm] using hcounted

/-! ### Calls in a row -/

/-- As long as the count is right there is always one more call. -/
theorem exists_calls (hright : c.remaining w = (c.pending w).length) (n : Nat) :
    ∃ turns answers rest, c.Calls w turns answers rest ∧ answers.length = n := by
  induction n generalizing w with
  | zero => exact ⟨0, [], w, .nil, rfl⟩
  | succ n ih =>
    obtain ⟨turns, answer, v, hfirst⟩ := exists_call (Nat.le_of_eq hright.symm)
    obtain ⟨turns', answers, rest, hlater, hlength⟩ := ih (hfirst.served.right hright)
    exact ⟨turns + turns', answer :: answers, rest, .cons hfirst hlater, by simp [hlength]⟩

namespace Calls

/-- **The answers are what was to come, in its order, and then nothing any more.** -/
theorem answers_eq (h : c.Calls w turns answers rest) :
    answers = (List.range answers.length).map ((c.pending w)[·]?) := by
  induction h with
  | nil => rfl
  | @cons w v rest turns turns' answer answers first later ih =>
    have hanswer : answer = (c.pending w)[0]? := by
      rw [first.served.answer_eq, List.head?_eq_getElem?]
    have hanswers : answers = (List.range answers.length).map fun i => (c.pending w)[i + 1]? := by
      conv_lhs => rw [ih, first.served.pending_eq]
      simp only [List.getElem?_tail]
    rw [List.length_cons, List.range_succ_eq_map, List.map_cons, List.map_map, ← hanswer]
    exact congrArg _ hanswers

theorem pending_eq (h : c.Calls w turns answers rest) :
    c.pending rest = (c.pending w).drop answers.length := by
  induction h with
  | nil => rfl
  | cons first later ih => rw [ih, first.served.pending_eq, List.drop_tail, List.length_cons]

theorem right (h : c.Calls w turns answers rest)
    (hright : c.remaining w = (c.pending w).length) :
    c.remaining rest = (c.pending rest).length := by
  induction h with
  | nil => exact hright
  | cons first later ih => exact ih (first.served.right hright)

theorem turns_le (h : c.Calls w turns answers rest) :
    turns + c.effort rest ≤ c.effort w + answers.length := by
  induction h with
  | nil => simp
  | cons first later ih =>
    have hfirst := first.served.turns_le
    rw [List.length_cons]
    omega

end Calls

/-- **A cursor whose count is right lists what it has to come.** -/
theorem lists (hright : c.remaining w = (c.pending w).length) : c.Lists w (c.pending w) where
  ends := exists_calls hright
  answers_eq h := h.answers_eq
  remaining_eq h := by rw [h.right hright, h.pending_eq, List.length_drop]
  turns_le h := Nat.le_of_add_right_le h.turns_le

end Cursor

/-! ### Walks -/

variable {ε : Type}

namespace Walk

def reading : Reading (Walk ε) (ε × UInt64) where
  next? := next?
  pending := pending
  remaining := remaining
  effort w := effort w.chain w.stack

/-- One turn of a walk's loop: it goes on in the list of collisions it stands in, it comes back
    from nodes that have all been visited, or it takes up the next node. -/
def turn : Walk ε → Turn (Walk ε) (ε × UInt64)
  | ⟨n, p :: chain, stack⟩ => .handing p (⟨·, chain, stack⟩) n
  | ⟨_, [], []⟩ => .done
  | ⟨n, [], [] :: stack⟩ => .again ⟨n, [], stack⟩
  | ⟨n, [], (.leaf e hash :: nodes) :: stack⟩ => .handing (e, hash) (⟨·, [], nodes :: stack⟩) n
  | ⟨n, [], (.collision es :: nodes) :: stack⟩ => .again ⟨n, es, nodes :: stack⟩
  | ⟨n, [], (.branch ⟨_, kids⟩ :: nodes) :: stack⟩ => .again ⟨n, [], kids :: nodes :: stack⟩

/-- **Each turn of a walk does what it should**, one case for each of its arms. -/
theorem fits_turn (w : Walk ε) : w.turn.Fits reading w := by
  fun_cases turn w with
  | case1 n p chain stack =>
    apply Turn.fits_handing rfl
    case hrest => exact fun _ => rfl
    case hgiven => simp [reading, next?, advance]
    case hpending => exact fun _ => rfl
    case hless => simp [reading, effort]
  | case2 => exact .done (by simp [reading, next?, advance]) rfl
  | case3 n stack =>
    exact .again (by simp [reading, next?, advance]) rfl rfl (by simp [reading, effort])
  | case4 n e hash nodes stack =>
    apply Turn.fits_handing rfl
    case hrest => exact fun _ => rfl
    case hgiven => simp [reading, next?, advance]
    case hpending => simp [reading, pending]
    case hless => simp [reading, effort, Node.effort]
  | case5 n es nodes stack =>
    refine .again (by simp [reading, next?, advance]) (by simp [reading, pending]) rfl ?less
    case less =>
      simp only [reading, effort, Node.effort, List.map_cons, total_cons, List.length_nil]
      omega
  | case6 n bitmap kids nodes stack =>
    refine .again (by simp [reading, next?, advance]) ?same rfl ?less
    case same => simp [reading, pending, Node.entries_branch]
    case less =>
      simp only [reading, effort, Node.effort_branch, List.map_cons, total_cons]
      omega

def cursor : Cursor (Walk ε) (ε × UInt64) := { reading with turn, fits := fits_turn }

theorem lists_start {t : Trie ε} (hsize : t.size = t.entries.length) :
    cursor.Lists (start t) t.entries := by
  rw [← pending_start t] at hsize ⊢
  exact Cursor.lists hsize

end Walk

/-! ### Drains -/

namespace Drain

/-- The entries still to come: of each node the last one first. -/
def pending (d : Drain ε) : List (ε × UInt64) :=
  d.chain ++ d.stack.flatMap fun node => node.entries.reverse

theorem pending_start (t : Trie ε) : (start t).pending = t.entries.reverse := by
  rw [pending, start, Trie.entries]
  rcases t.root with _ | node
  · rfl
  · simp

def reading : Reading (Drain ε) (ε × UInt64) where
  next? := next?
  pending := pending
  remaining := remaining
  effort d := effort d.chain d.stack

/-- One turn of a drain's loop: it goes on in the list of collisions it stands in, or it takes up
    the node on top. -/
def turn : Drain ε → Turn (Drain ε) (ε × UInt64)
  | ⟨n, p :: chain, stack⟩ => .handing p (⟨·, chain, stack⟩) n
  | ⟨_, [], []⟩ => .done
  | ⟨n, [], .leaf e hash :: stack⟩ => .handing (e, hash) (⟨·, [], stack⟩) n
  | ⟨n, [], .collision es :: stack⟩ => .again ⟨n, es.reverse, stack⟩
  | ⟨n, [], .branch ⟨_, kids⟩ :: stack⟩ => .again ⟨n, [], kids.reverse ++ stack⟩

/-- **Each turn of a drain does what it should**, one case for each of its arms. -/
theorem fits_turn (d : Drain ε) : d.turn.Fits reading d := by
  fun_cases turn d with
  | case1 n p chain stack =>
    apply Turn.fits_handing rfl
    case hrest => exact fun _ => rfl
    case hgiven => simp [reading, next?, advance]
    case hpending => exact fun _ => rfl
    case hless => simp [reading, effort]
  | case2 => exact .done (by simp [reading, next?, advance]) rfl
  | case3 n e hash stack =>
    apply Turn.fits_handing rfl
    case hrest => exact fun _ => rfl
    case hgiven => simp [reading, next?, advance]
    case hpending => simp [reading, pending]
    case hless => simp [reading, effort, Node.effort]
  | case4 n es stack =>
    refine .again (by simp [reading, next?, advance]) (by simp [reading, pending]) rfl ?less
    case less => simp [reading, effort, Node.effort]
  | case5 n bitmap kids stack =>
    refine .again (by simp [reading, next?, advance]) ?same rfl ?less
    case same =>
      -- the last node comes out on top, and its last entry first
      simp [reading, pending, Node.entries_branch, List.reverse_flatMap, Function.comp_def]
    case less => simp [reading, effort, Node.effort_branch]

def cursor : Cursor (Drain ε) (ε × UInt64) := { reading with turn, fits := fits_turn }

theorem lists_start {t : Trie ε} (hsize : t.size = t.entries.length) :
    cursor.Lists (start t) t.entries.reverse := by
  rw [← List.length_reverse, ← pending_start t] at hsize
  rw [← pending_start t]
  exact Cursor.lists hsize

end Drain

/-! ### What is listed -/

section Listed

variable {κ : Type} [BEq κ] [Hashed κ] [Keyed ε κ] {ok : κ → Prop}

/-- The list has every stored entry, with the hash of its key, and no two entries of one key. -/
structure Trie.Enumerates (ok : κ → Prop) (t : Trie ε) (listed : List (ε × UInt64)) : Prop where
  stored : ∀ p ∈ listed, Stored ok p
  get?_eq_some_iff : ∀ k, ok k → ∀ e,
    t.get? k = some e ↔ ∃ hash, (e, hash) ∈ listed ∧ (k == Keyed.key e) = true
  distinct : DistinctKeys listed
  length_eq : listed.length = t.size

/-- Both cursors hand out the entries of the trie, each in an order of its own. -/
def Trie.ListedBy (ok : κ → Prop) (t : Trie ε) (w : Walk ε) (d : Drain ε) : Prop :=
  ∃ walked drained, Walk.cursor.Lists w walked ∧ Drain.cursor.Lists d drained ∧
    t.Enumerates ok walked ∧ t.Enumerates ok drained ∧ walked.Perm drained

theorem Trie.WellFormed.enumerates (law : LawfulOn ok) {t : Trie ε} (h : t.WellFormed ok) :
    t.Enumerates ok t.entries where
  stored := h.stored
  get?_eq_some_iff _ hk _ := h.get?_eq_some_iff law hk
  distinct := h.distinct law
  length_eq := h.size_eq.symm

theorem Trie.Enumerates.perm {t : Trie ε} {listed listed' : List (ε × UInt64)}
    (h : t.Enumerates ok listed) (hperm : listed.Perm listed') : t.Enumerates ok listed' where
  stored p hp := h.stored p (hperm.mem_iff.mpr hp)
  get?_eq_some_iff k hk e := by simp only [h.get?_eq_some_iff k hk e, hperm.mem_iff]
  distinct := h.distinct.perm hperm
  length_eq := hperm.length_eq.symm.trans h.length_eq

/-- **The walk and the drain of a well-formed trie list its entries**: the count that they start
    from is the size of the trie, and that is right. -/
theorem Trie.WellFormed.listedBy (law : LawfulOn ok) {t : Trie ε} (h : t.WellFormed ok) :
    t.ListedBy ok (.start t) (.start t) := by
  have hperm : t.entries.Perm t.entries.reverse := (List.reverse_perm t.entries).symm
  exact ⟨t.entries, t.entries.reverse, Walk.lists_start h.size_eq, Drain.lists_start h.size_eq,
    h.enumerates law, (h.enumerates law).perm hperm, hperm⟩

end Listed

/-- **Cursors hand out every stored entry once.**  The walk and the drain of any set and of any map
    that comes about hand out, one with each call, all entries that are stored, each once and with
    the hash of its key, and nothing any more after that; the one has them in another order than
    the other.  However often they are called, each call comes to an end, the number of turns is
    bounded, and they report as many entries as are still to come.  That needs no more of a trie
    than that its size is right: its nodes may be of any shape.  A call gives what `next?` gives. -/
theorem cursors_list_entries_once {κ ν : Type} [BEq κ] [Hashed κ] [Hashed ν] {ok : κ → Prop}
    (law : LawfulOn ok) :
    (∀ s : TrieSet κ, s.Reachable ok → s.trie.ListedBy ok s.walk s.drain) ∧
    (∀ m : TrieMap κ ν, m.Reachable ok → m.trie.ListedBy ok m.walk m.drain) ∧
    (∀ t : Trie ε, t.size = t.entries.length →
      Walk.cursor.Lists (.start t) t.entries ∧
      Drain.cursor.Lists (.start t) t.entries.reverse) ∧
    (∀ {w rest : Walk ε} {turns : Nat} {answer : Option (ε × UInt64)},
      Walk.cursor.Call w turns answer rest → w.next? = answer.map (·, rest)) ∧
    ∀ {d rest : Drain ε} {turns : Nat} {answer : Option (ε × UInt64)},
      Drain.cursor.Call d turns answer rest → d.next? = answer.map (·, rest) := by
  refine ⟨?_, ?_, ?_, fun h => h.served.given, fun h => h.served.given⟩
  · intro s hs
    exact (hs.wellFormed law).listedBy law
  · intro m hm
    exact (hm.wellFormed law).listedBy law
  · intro t hsize
    exact ⟨Walk.lists_start hsize, Drain.lists_start hsize⟩

/-- A list of collisions beside a leaf, after one of the colliding keys has been removed; and a
    list of collisions that stands at the root. -/
theorem cursors_list_entries_once_colliding :
    LawfulOn (fun _ : ClusterKey => True) ∧
    (let s := (TrieSet.ofList [⟨7, 1, "a"⟩, ⟨7, 2, "b"⟩, ⟨9, 1, "c"⟩, ⟨7, 3, "d"⟩]).erase
      (⟨7, 2, "e"⟩ : ClusterKey)
     s.trie.ListedBy (fun _ => True) s.walk s.drain) ∧
    let t : Trie (Member ClusterKey) :=
      ⟨some (.collision [(⟨⟨7, 1, "a"⟩⟩, 5), (⟨⟨7, 2, "b"⟩⟩, 5)]), 2, 0, none⟩
    Drain.cursor.Lists (.start t) [(⟨⟨7, 2, "b"⟩⟩, 5), (⟨⟨7, 1, "a"⟩⟩, 5)] := by
  have hall := @cursors_list_entries_once (Member ClusterKey) ClusterKey Int64 _ _ _ _ lawfulOn_true
  refine ⟨lawfulOn_true, hall.1 _ (.erase (.ofList fun _ _ => trivial) trivial), ?_⟩
  intro t
  have hentries : t.entries = [(⟨⟨7, 1, "a"⟩⟩, 5), (⟨⟨7, 2, "b"⟩⟩, 5)] := Node.entries_collision _
  have hlisted := (hall.2.2.1 t (by rw [hentries]; rfl)).2
  rw [hentries] at hlisted
  exact hlisted

end TrieCollections
