import CascadeSearch.Nrt.WriteSide
import CascadeSearch.Query.Openable

/-!
# When a flush publishes a segment

`build_segment` with the builder and the reader of this repository. It raises
where the builder exits with an error and where the index does not open, and a
flush then keeps its buffer for the next one.
-/
namespace CascadeSearch.Nrt.Publish

open Lib.TextFile
open Index.Format Index.Porter Index.Corpus Index.Inverted Index.Builder Index.MergePass Index.Layout Index.Fits
open Query Query.Reader Query.Search Query.Opened Query.Retrieval Query.Openable
open Tsv WriteSide

def HasTerm (docs : List Document) : Prop := ∃ d ∈ docs, termsOf d ≠ []

/-- `build_segment` on the bytes of a TSV file; `none` if it raises. -/
def buildSegment (bm25 : Bm25 ℚ) (tsv : Str) : Option (Index ℚ) :=
  match buildIndex bm25 kSegmentDocs 0 tsv with
  | .error _ => none
  | .ok files => (Reader.open bm25 files).toOption

def segmentBuilder (bm25 : Bm25 ℚ) : BuildSegment (Index ℚ) where
  returns tsv index := buildSegment bm25 tsv = some index
  docCount index := index.docCount

/-- The flush moved the buffer into a new segment. -/
def Publishes {Ix : Type} (s s' : NrtIndex Ix) : Prop :=
  ∃ segment, s'.segments = s.segments ++ [segment] ∧ s'.buffer = []

theorem buildSegment_isSome_iff {bm25 : Bm25 ℚ} {tsv : Str} :
    (buildSegment bm25 tsv).isSome ↔ u32 (documents tsv).length ≠ 0 ∧ HasTerm (documents tsv) := by
  rw [← @buildIndex_isOk_iff _ _ _ bm25 tsv, buildSegment]
  cases hbuild : buildIndex bm25 kSegmentDocs 0 tsv with
  | error e => exact iff_of_false Bool.false_ne_true fun h => nomatch h.1
  | ok files =>
    have hopen := open_iff hbuild
    dsimp only
    cases hresult : Reader.open bm25 files with
    | error e =>
      rw [hresult] at hopen
      exact iff_of_false Bool.false_ne_true fun h => nomatch hopen.mpr h.2
    | ok ix => exact iff_of_true rfl ⟨⟨files, rfl⟩, hopen.mp ⟨ix, hresult⟩⟩

theorem flushLocked_publishes_iff {Ix : Type} (cfg : Config) (builder : BuildSegment Ix) (built : Option Ix)
    (now : ℚ) {s : NrtIndex Ix} (hne : s.buffer ≠ []) :
    Publishes s (flushLocked cfg builder built now s) ↔ built.isSome := by
  rw [flushLocked, if_neg hne]
  cases built with
  | none => exact iff_of_false (fun ⟨_, _, hempty⟩ => hne hempty) Bool.false_ne_true
  | some index =>
    exact iff_of_true ⟨_, schedule_segments cfg _, schedule_buffer cfg _⟩ rfl

/-- Which built indexes open and answer, and which flushes publish. -/
theorem opens_answers_publishes_iff (log : ℚ → ℚ) (hlog : ∀ x, 1 ≤ x → 0 ≤ log x) :
    (∀ corpus files, buildIndex (Bm25.exact log BM25Params.default) kSegmentDocs 0 corpus = .ok files →
      ((∃ ix, Reader.open (Bm25.exact log BM25Params.default) files = .ok ix) ↔ HasTerm (documents corpus)) ∧
      (FitsFormat (documents corpus) → ∀ query k algorithm,
        (∃ ix, Reader.open (Bm25.exact log BM25Params.default) files = .ok ix ∧
            ∃ results, SearchReturns ix query k algorithm results) ↔
          HasTerm (documents corpus) ∧ (k = 0 → ∀ d ∈ documents corpus, shares query d = false))) ∧
    ∀ cfg now (s : NrtIndex (Index ℚ)), s.buffer ≠ [] → (∀ d ∈ s.buffer, WellFormed d) →
      (Publishes s (flushLocked cfg (segmentBuilder (Bm25.exact log BM25Params.default))
          (buildSegment (Bm25.exact log BM25Params.default) (flushTsv s.buffer)) now s) ↔
        u32 s.buffer.length ≠ 0 ∧ HasTerm (s.buffer.map encodeDocument)) := by
  constructor
  · intro corpus files hbuild
    refine ⟨open_iff hbuild, fun hfits query k algorithm => ?_⟩
    have hne := docs_ne_nil_of_count (buildIndex_isOk_iff.mp ⟨files, hbuild⟩)
    rw [buildIndex_eq _ (by decide) hfits hne] at hbuild
    cases hbuild
    have hix := openedOn_represents (Bm25.exact log BM25Params.default) hfits
    constructor
    · rintro ⟨ix, hopen, hreturns⟩
      have hterm : HasTerm (documents corpus) := (open_iff (buildIndex_eq _ (by decide) hfits hne)).mp ⟨ix, hopen⟩
      rw [open_indexOf hfits (vocabulary_ne_nil_iff.mpr hterm)] at hopen
      cases hopen
      exact ⟨hterm, (searchReturns_iff hlog hfits hix query k algorithm).mp hreturns⟩
    · rintro ⟨hterm, hk⟩
      exact ⟨_, open_indexOf hfits (vocabulary_ne_nil_iff.mpr hterm),
        (searchReturns_iff hlog hfits hix query k algorithm).mpr hk⟩
  · intro cfg now s hne hwf
    rw [flushLocked_publishes_iff cfg _ _ now hne, buildSegment_isSome_iff, (flushTsv_spec hwf).1, List.length_map]

/-- `log` near one. -/
def nearOne (x : ℚ) : ℚ := 2 * (x - 1) / (x + 1)

theorem nearOne_nonneg (x : ℚ) (hx : 1 ≤ x) : 0 ≤ nearOne x := by
  have hnum : 0 ≤ x - 1 := sub_nonneg.mpr hx
  have hden : 0 ≤ x + 1 := by linarith
  exact div_nonneg (mul_nonneg (by norm_num) hnum) hden

/-- One document, and a query for it. -/
theorem opens_answers_cat :
    ∃ files ix results,
      buildIndex (Bm25.exact nearOne BM25Params.default) kSegmentDocs 0 (lit "a\tcat\n") = .ok files ∧
      Reader.open (Bm25.exact nearOne BM25Params.default) files = .ok ix ∧
      SearchReturns ix (lit "cats") 1 .blockMaxWand results := by
  have hfits : FitsFormat (documents (lit "a\tcat\n")) := fitsFormat_of_length_lt (by decide)
  have hterm : HasTerm (documents (lit "a\tcat\n")) := ⟨⟨lit "a", lit "cat"⟩, by decide +kernel, by decide +kernel⟩
  have hcount : u32 (documents (lit "a\tcat\n")).length ≠ 0 := by decide +kernel
  obtain ⟨files, hbuild⟩ := (@buildIndex_isOk_iff _ _ _ (Bm25.exact nearOne BM25Params.default) _).mpr hcount
  obtain ⟨ix, hopen, results, hreturns⟩ :=
    (((opens_answers_publishes_iff nearOne nearOne_nonneg).1 _ files hbuild).2 hfits (lit "cats") 1
      .blockMaxWand).mpr ⟨hterm, fun h => absurd h one_ne_zero⟩
  exact ⟨files, ix, results, hbuild, hopen, hreturns⟩

/-- A document of stopwords: the builder succeeds and the index does not open,
so a buffer of it is never flushed. -/
theorem stopwords_never_published :
    (∃ files, buildIndex (Bm25.exact nearOne BM25Params.default) kSegmentDocs 0 (lit "a\tthe\n") = .ok files ∧
      Reader.open (Bm25.exact nearOne BM25Params.default) files = .error (.cannotMmap "/index.post")) ∧
    WellFormed (['a'], ['t', 'h', 'e']) ∧
    ∀ cfg now (s : NrtIndex (Index ℚ)), s.buffer = [(['a'], ['t', 'h', 'e'])] →
      ¬ Publishes s (flushLocked cfg (segmentBuilder (Bm25.exact nearOne BM25Params.default))
        (buildSegment (Bm25.exact nearOne BM25Params.default) (flushTsv s.buffer)) now s) := by
  have hnone : ∀ tsv, documents tsv = [⟨lit "a", lit "the"⟩] → ¬ HasTerm (documents tsv) := by
    rintro tsv hdocs ⟨d, hd, hterms⟩
    rw [hdocs, List.mem_singleton] at hd
    rw [hd] at hterms
    exact hterms (by decide +kernel)
  refine ⟨?_, ?_, ?_⟩
  · have hdocs : documents (lit "a\tthe\n") = [⟨lit "a", lit "the"⟩] := by decide +kernel
    have hcount : u32 (documents (lit "a\tthe\n")).length ≠ 0 := by decide +kernel
    have hfits : FitsFormat (documents (lit "a\tthe\n")) := fitsFormat_of_length_lt (by decide)
    have hpost : (indexOf (Bm25.exact nearOne BM25Params.default) (documents (lit "a\tthe\n"))).post = [] := by
      by_contra hne
      have hopen : ∃ ix, Reader.open (Bm25.exact nearOne BM25Params.default)
          (indexOf (Bm25.exact nearOne BM25Params.default) (documents (lit "a\tthe\n"))) = .ok ix :=
        (open_writeFiles_iff _ _ _ _ _).mpr hne
      have hbuild := buildIndex_eq (Bm25.exact nearOne BM25Params.default) (by decide : 0 < kSegmentDocs) hfits
        (docs_ne_nil_of_count hcount)
      exact hnone _ hdocs ((open_iff hbuild).mp hopen)
    exact ⟨_, buildIndex_eq _ (by decide) hfits (docs_ne_nil_of_count hcount),
      open_of_empty_post (Nat.succ_pos _) (Nat.succ_pos _) hpost⟩
  · constructor <;> decide
  · intro cfg now s hbuffer hpublishes
    have hne : s.buffer ≠ [] := by
      rw [hbuffer]
      exact List.cons_ne_nil _ _
    rw [flushLocked_publishes_iff cfg _ _ now hne, buildSegment_isSome_iff, hbuffer] at hpublishes
    exact hnone _ (by decide +kernel) hpublishes.2

end CascadeSearch.Nrt.Publish
