import CascadeSearch.Query.Opened

/-!
# Looking a term up (`find_term`)

On a table whose strings ascend strictly, the binary search returns the record
of the term and nothing else.
-/
namespace CascadeSearch.Query.Dictionary

open Index.Format Index.Corpus Index.Inverted
open Reader Opened

variable {S : Type} {ix : Index S} {term : Str}

def StringsAscend (ix : Index S) : Prop :=
  ∀ i j, i < j → j < ix.termCount → ix.termAt (ix.termRecords i) < ix.termAt (ix.termRecords j)

theorem StringsAscend.injective (h : StringsAscend ix) {i j : Nat} (hi : i < ix.termCount) (hj : j < ix.termCount)
    (heq : ix.termAt (ix.termRecords i) = ix.termAt (ix.termRecords j)) : i = j := by
  rcases Nat.lt_trichotomy i j with hlt | hij | hgt
  · exact absurd heq (h i j hlt hj).ne
  · exact hij
  · exact absurd heq.symm (h j i hgt hi).ne

theorem StringsAscend.lt_of_lt (h : StringsAscend ix) {i j : Nat} (hi : i < ix.termCount)
    (hlt : ix.termAt (ix.termRecords i) < ix.termAt (ix.termRecords j)) : i < j := by
  by_contra hge
  rcases Nat.lt_or_eq_of_le (not_lt.mp hge) with hgt | rfl
  · exact absurd (h j i hgt hi) hlt.asymm
  · exact lt_irrefl _ hlt

theorem findTermFrom_eq_some (h : StringsAscend ix) {record : TermRecord S} :
    ∀ {rounds low high : Nat}, high ≤ ix.termCount → high - low ≤ rounds →
      (ix.findTermFrom term rounds low high = some record ↔
        ∃ i, low ≤ i ∧ i < high ∧ ix.termAt (ix.termRecords i) = term ∧ ix.termRecords i = record) := by
  intro rounds
  induction rounds with
  | zero =>
    intro low high _ hrounds
    rw [Index.findTermFrom]
    constructor
    · intro hnone
      cases hnone
    · rintro ⟨i, hlow, hhigh, -⟩
      omega
  | succ rounds ih =>
    intro low high hcount hrounds
    rw [Index.findTermFrom]
    by_cases hlt : low < high
    · rw [if_pos hlt]
      dsimp only
      have hmid : low ≤ low + (high - low) / 2 ∧ low + (high - low) / 2 < high := by omega
      generalize low + (high - low) / 2 = mid at hmid
      by_cases heq : term = ix.termAt (ix.termRecords mid)
      · rw [if_pos heq, Option.some.injEq]
        constructor
        · rintro rfl
          exact ⟨mid, hmid.1, hmid.2, heq.symm, rfl⟩
        · rintro ⟨i, -, hhigh, hterm, rfl⟩
          have hi : i = mid := h.injective (by omega) (by omega) (hterm.trans heq)
          rw [hi]
      · rw [if_neg heq]
        by_cases hless : term < ix.termAt (ix.termRecords mid)
        · rw [if_pos hless, ih (by omega) (by omega)]
          constructor
          · rintro ⟨i, hlow, hhigh, hi⟩
            exact ⟨i, hlow, by omega, hi⟩
          · rintro ⟨i, hlow, hhigh, hterm, hrecord⟩
            exact ⟨i, hlow, h.lt_of_lt (by omega) (hterm ▸ hless), hterm, hrecord⟩
        · rw [if_neg hless, ih hcount (by omega)]
          constructor
          · rintro ⟨i, hlow, hhigh, hi⟩
            exact ⟨i, by omega, hhigh, hi⟩
          · rintro ⟨i, hlow, hhigh, hterm, hrecord⟩
            have hmore : ix.termAt (ix.termRecords mid) < ix.termAt (ix.termRecords i) :=
              hterm ▸ lt_of_le_of_ne (not_lt.mp hless) (Ne.symm heq)
            exact ⟨i, h.lt_of_lt (by omega) hmore, hhigh, hterm, hrecord⟩
    · rw [if_neg hlt]
      constructor
      · intro hnone
        cases hnone
      · rintro ⟨i, hlow, hhigh, -⟩
        omega

theorem findTerm_eq_some (h : StringsAscend ix) {record : TermRecord S} :
    ix.findTerm term = some record ↔
      ∃ i < ix.termCount, ix.termAt (ix.termRecords i) = term ∧ ix.termRecords i = record := by
  rw [Index.findTerm, findTermFrom_eq_some h le_rfl (Nat.sub_le _ _)]
  simp only [Nat.zero_le, true_and]

variable [LinearOrder S] [Zero S] {bm25 : Bm25 S} {docs : List Document}

theorem stringsAscend (h : Represents bm25 docs ix) : StringsAscend ix := by
  intro i j hlt hj
  rw [h.termCount] at hj
  rw [h.termAt i _ (List.getElem?_eq_getElem (hlt.trans hj)), h.termAt j _ (List.getElem?_eq_getElem hj)]
  exact List.pairwise_iff_getElem.mp (vocabulary_ascending docs) i j _ hj hlt

/-- A term that occurs is found, and its record leads to its postings. -/
theorem findTerm_of_mem (h : Represents bm25 docs ix) (hterm : term ∈ vocabulary docs) :
    ∃ record, ix.findTerm term = some record ∧ PointsAt bm25 docs ix record term := by
  obtain ⟨i, hi⟩ := List.mem_iff_getElem?.mp hterm
  have hlt : i < ix.termCount := by
    rw [h.termCount]
    exact (List.getElem?_eq_some_iff.mp hi).1
  exact ⟨_, (findTerm_eq_some (stringsAscend h)).mpr ⟨i, hlt, h.termAt i term hi, rfl⟩, h.pointsAt i term hi⟩

theorem findTerm_of_notMem (h : Represents bm25 docs ix) (hterm : term ∉ vocabulary docs) :
    ix.findTerm term = none := by
  rw [Option.eq_none_iff_forall_ne_some]
  intro record hfound
  obtain ⟨i, hlt, hi, -⟩ := (findTerm_eq_some (stringsAscend h)).mp hfound
  rw [h.termCount] at hlt
  rw [h.termAt i _ (List.getElem?_eq_getElem hlt)] at hi
  exact hterm (hi ▸ List.getElem_mem hlt)

theorem findTerm_isSome (h : Represents bm25 docs ix) :
    (ix.findTerm term).isSome ↔ term ∈ vocabulary docs := by
  by_cases hterm : term ∈ vocabulary docs
  · obtain ⟨record, hfound, -⟩ := findTerm_of_mem h hterm
    rw [hfound]
    exact iff_of_true rfl hterm
  · rw [findTerm_of_notMem h hterm]
    exact iff_of_false Bool.false_ne_true hterm

end CascadeSearch.Query.Dictionary
