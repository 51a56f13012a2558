/-
  TrieCollections/Proofs/DistinctCounts.lean
  ==========================================
  **How many different elements a list has.**  With equal elements taken for one, a list has as
  many as it takes to *represent* it: elements of which no two are equal, that equal elements of
  the list, and that leave none out (`Represents`).  All ways to choose such elements choose the
  same number of them (`Represents.length_eq`).  To drop each element that equals an earlier one is
  one way (`represents_eraseDups`), and to put all of them into a set is another, so the size of a
  set counts the different elements of what it comprises (`TrieSet.Comprises.size_eq`).

  Of two functions on the elements, the one that tells fewer of them apart has no more different
  results (`length_eraseDups_map_le`), and as many only if it tells the same ones apart
  (`length_eraseDups_map_eq_iff`).
-/
import TrieCollections.Proofs.SetContents

namespace TrieCollections

/-- Some elements stand for those of a list, none of them for what another one stands for. -/
structure Represents {α : Type} [BEq α] (ok : α → Prop) (reps xs : List α) : Prop where
  distinct : Distinct ok reps
  exists_of_mem : ∀ r ∈ reps, ∃ x ∈ xs, (r == x) = true
  exists_mem : ∀ x ∈ xs, ∃ r ∈ reps, (x == r) = true

section Counts

variable {α : Type} [BEq α] [Hashed α] {ok : α → Prop} (law : LawfulOn ok) {xs ys : List α}

include law

/-- Elements of which no two are equal are no more than those of a list that has them all. -/
theorem Distinct.length_le (h : Distinct ok xs) (hys : ∀ y ∈ ys, ok y)
    (hcover : ∀ x ∈ xs, ∃ y ∈ ys, (x == y) = true) : xs.length ≤ ys.length := by
  refine length_le_of_apart (h.pairwise.imp_of_mem ?_) hcover
  intro x x' hx hx' hne y hy hxy hxy'
  have hokx' := h.lawful x' hx'
  have heq := law.trans (h.lawful x hx) (hys y hy) hokx' hxy (law.symm hokx' (hys y hy) hxy')
  simp [hne] at heq

/-- **All that represent a list are of one length.** -/
theorem Represents.length_eq {reps reps' : List α} (hxs : ∀ x ∈ xs, ok x)
    (h : Represents ok reps xs) (h' : Represents ok reps' xs) : reps.length = reps'.length := by
  have hle : ∀ {rs rs' : List α}, Represents ok rs xs → Represents ok rs' xs →
      rs.length ≤ rs'.length := by
    intro rs rs' hrs hrs'
    apply hrs.distinct.length_le law hrs'.distinct.lawful
    intro r hr
    obtain ⟨x, hx, hrx⟩ := hrs.exists_of_mem r hr
    obtain ⟨r', hr', hxr'⟩ := hrs'.exists_mem x hx
    exact ⟨r', hr', law.trans (hrs.distinct.lawful r hr) (hxs x hx)
      (hrs'.distinct.lawful r' hr') hrx hxr'⟩
  exact Nat.le_antisymm (hle h h') (hle h' h)

/-- An element stands for all that equal it, so it goes in front of what represents the others. -/
theorem Represents.cons_of_filter {x : α} {reps : List α} (hx : ok x) (hxs : ∀ y ∈ xs, ok y)
    (h : Represents ok reps (xs.filter fun y => !y == x)) :
    Represents ok (x :: reps) (x :: xs) := by
  refine ⟨⟨List.forall_mem_cons.mpr ⟨hx, h.distinct.lawful⟩, ?pairwise⟩, ?stands, ?covers⟩
  case pairwise =>
    refine List.pairwise_cons.mpr ⟨?_, h.distinct.pairwise⟩
    intro r hr
    obtain ⟨y, hy, hry⟩ := h.exists_of_mem r hr
    obtain ⟨hmem, hne⟩ := List.mem_filter.mp hy
    have hokr := h.distinct.lawful r hr
    rw [law.beq_comm hx hokr, law.beq_congr hokr (hxs y hmem) hx hry]
    simpa using hne
  case stands =>
    intro r hr
    rcases List.mem_cons.mp hr with rfl | hr
    · exact ⟨r, List.mem_cons_self, law.refl hx⟩
    · obtain ⟨y, hy, hry⟩ := h.exists_of_mem r hr
      exact ⟨y, List.mem_cons_of_mem _ (List.mem_of_mem_filter hy), hry⟩
  case covers =>
    intro y hy
    rcases List.mem_cons.mp hy with rfl | hy
    · exact ⟨y, List.mem_cons_self, law.refl hx⟩
    · by_cases heq : (y == x) = true
      · exact ⟨x, List.mem_cons_self, heq⟩
      · obtain ⟨r, hr, hyr⟩ := h.exists_mem y (List.mem_filter.mpr ⟨hy, by simp [heq]⟩)
        exact ⟨r, List.mem_cons_of_mem _ hr, hyr⟩

/-- **What is left without repetitions represents the list.** -/
theorem represents_eraseDups : ∀ {xs : List α}, (∀ x ∈ xs, ok x) → Represents ok xs.eraseDups xs
  | [], _ => ⟨⟨by simp, by simp⟩, by simp, by simp⟩
  | x :: xs, h => by
    obtain ⟨hx, hxs⟩ := List.forall_mem_cons.mp h
    rw [List.eraseDups_cons]
    exact .cons_of_filter law hx hxs
      (represents_eraseDups fun y hy => hxs y (List.mem_of_mem_filter hy))
termination_by xs => xs.length
decreasing_by exact Nat.lt_succ_of_le (List.length_filter_le _ _)

/-- **The size of a set counts the different elements of what it comprises.** -/
theorem TrieSet.Comprises.size_eq {s : TrieSet α} (h : s.Comprises ok (· ∈ xs))
    (hs : s.trie.WellFormed ok) : s.size = xs.eraseDups.length := by
  have hmembers : Represents ok s.toList xs :=
    ⟨distinct_toList law hs, fun _ hr => h.exists_of_mem law hs hr,
      fun _ hx => h.exists_mem law hs hx⟩
  rw [size_eq_length hs]
  exact hmembers.length_eq law h.lawful (represents_eraseDups law h.lawful)

end Counts

/-! ### Results of functions -/

section Results

variable {τ α β : Type} [BEq α] [Hashed α] [BEq β] [Hashed β] {ok : α → Prop} {okImage : β → Prop}
  (law : LawfulOn ok) (lawImage : LawfulOn okImage) {f : τ → α} {g : τ → β} {ts : List τ}
  (hf : ∀ t ∈ ts, ok (f t)) (hg : ∀ t ∈ ts, okImage (g t))
  (hcoarser : ∀ t ∈ ts, ∀ u ∈ ts, (f t == f u) = true → (g t == g u) = true)

include law hf

theorem represents_map : Represents ok (ts.map f).eraseDups (ts.map f) :=
  represents_eraseDups law (List.forall_mem_map.mpr hf)

include lawImage hg hcoarser

/-- If some of the elements reach all results of the coarser function, then already these have no
    fewer results of the finer one. -/
theorem length_eraseDups_map_le_of_reach {us : List τ} (hsub : ∀ u ∈ us, u ∈ ts)
    (hreach : ∀ t ∈ ts, ∃ u ∈ us, (g t == g u) = true) :
    (ts.map g).eraseDups.length ≤ (us.map f).eraseDups.length := by
  have hreps := represents_map lawImage hg
  have hreps' := represents_map law fun u hu => hf u (hsub u hu)
  -- a result of the one goes with a result of the other when some element has both
  apply length_le_of_apart (R := fun y x => ∃ u ∈ us, (y == g u) = true ∧ (f u == x) = true)
  · refine hreps.distinct.pairwise.imp_of_mem ?_
    rintro y y' hy hy' hne x hx ⟨u, hu, hyu, hux⟩ ⟨u', hu', hyu', hux'⟩
    have hoky := hreps.distinct.lawful y hy
    have hoky' := hreps.distinct.lawful y' hy'
    have hokx := hreps'.distinct.lawful x hx
    have hfs := hf u (hsub u hu)
    have hfs' := hf u' (hsub u' hu')
    have hsame := hcoarser u (hsub u hu) u' (hsub u' hu')
      (law.trans hfs hokx hfs' hux (law.symm hfs' hokx hux'))
    have hgs := hg u (hsub u hu)
    have hgs' := hg u' (hsub u' hu')
    have heq := lawImage.trans hoky hgs hoky' hyu
      (lawImage.trans hgs hgs' hoky' hsame (lawImage.symm hoky' hgs' hyu'))
    simp [hne] at heq
  · intro y hy
    obtain ⟨_, hmem, hyt⟩ := hreps.exists_of_mem y hy
    obtain ⟨t, ht, rfl⟩ := List.mem_map.mp hmem
    obtain ⟨u, hu, htu⟩ := hreach t ht
    obtain ⟨x, hx, hux⟩ := hreps'.exists_mem (f u) (List.mem_map_of_mem hu)
    exact ⟨x, hx, u, hu, lawImage.trans (hreps.distinct.lawful y hy) (hg t ht)
      (hg u (hsub u hu)) hyt htu, hux⟩

/-- **A coarser function has no more different results.** -/
theorem length_eraseDups_map_le :
    (ts.map g).eraseDups.length ≤ (ts.map f).eraseDups.length :=
  length_eraseDups_map_le_of_reach law lawImage hf hg hcoarser (fun _ ht => ht)
    fun t ht => ⟨t, ht, lawImage.refl (hg t ht)⟩

/-- If it gives one result for two elements that the finer one tells apart, it has fewer. -/
theorem length_eraseDups_map_lt {t u : τ} (ht : t ∈ ts) (hu : u ∈ ts) (hsame : (g t == g u) = true)
    (hne : (f t == f u) = false) :
    (ts.map g).eraseDups.length < (ts.map f).eraseDups.length := by
  have hle : (ts.map g).eraseDups.length ≤
      ((ts.filter fun v => !f v == f u).map f).eraseDups.length := by
    apply length_eraseDups_map_le_of_reach law lawImage hf hg hcoarser
      fun v hv => List.mem_of_mem_filter hv
    intro v hv
    by_cases heq : (f v == f u) = true
    · refine ⟨t, List.mem_filter.mpr ⟨ht, by simp [hne]⟩, ?_⟩
      exact lawImage.trans (hg v hv) (hg u hu) (hg t ht) (hcoarser v hv u hu heq)
        (lawImage.symm (hg t ht) (hg u hu) hsame)
    · exact ⟨v, List.mem_filter.mpr ⟨hv, by simp [heq]⟩, lawImage.refl (hg v hv)⟩
  have hall := represents_map law hf
  have hothers := represents_map law fun v (hv : v ∈ ts.filter fun v => !f v == f u) =>
    hf v (List.mem_of_mem_filter hv)
  have hadded : Represents ok (f u :: ((ts.filter fun v => !f v == f u).map f).eraseDups)
      (f u :: ts.map f) := by
    apply Represents.cons_of_filter law (hf u hu) (List.forall_mem_map.mpr hf)
    rw [List.filter_map]
    exact hothers
  have hlt := hadded.distinct.length_le law hall.distinct.lawful ?_
  · exact Nat.lt_of_le_of_lt hle hlt
  · intro r hr
    obtain ⟨x, hx, hrx⟩ := hadded.exists_of_mem r hr
    have hmem : x ∈ ts.map f := by
      rcases List.mem_cons.mp hx with rfl | hx
      · exact List.mem_map_of_mem hu
      · exact hx
    obtain ⟨r', hr', hxr'⟩ := hall.exists_mem x hmem
    exact ⟨r', hr', law.trans (hadded.distinct.lawful r hr) (List.forall_mem_map.mpr hf x hmem)
      (hall.distinct.lawful r' hr') hrx hxr'⟩

/-- **It has as many exactly when it tells the same elements apart.** -/
theorem length_eraseDups_map_eq_iff :
    (ts.map g).eraseDups.length = (ts.map f).eraseDups.length ↔
      ∀ t ∈ ts, ∀ u ∈ ts, (g t == g u) = true → (f t == f u) = true := by
  constructor
  · intro hlength t ht u hu hsame
    by_contra hne
    have hlt := length_eraseDups_map_lt law lawImage hf hg hcoarser ht hu hsame (by simpa using hne)
    exact absurd hlength (Nat.ne_of_lt hlt)
  · intro hfiner
    exact Nat.le_antisymm (length_eraseDups_map_le law lawImage hf hg hcoarser)
      (length_eraseDups_map_le lawImage law hg hf hfiner)

end Results

end TrieCollections
