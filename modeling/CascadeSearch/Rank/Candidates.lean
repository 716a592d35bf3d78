import CascadeSearch.Harness.RunFile

/-!
# Candidates to encode (`encode_candidates.py`)

A run cut to the best `k` documents of each query, from the loaded run and
straight from its file. The two agree on what `write_run` writes, since a query's
lines are in the order in which the loaded documents are sorted.
-/
namespace CascadeSearch.Rank.Candidates

open Harness.Metrics Harness.RunFile
open Lib.Mapping Lib.Sorted Lib.TextFile Lib.Fields

variable {S : Type}

/-- `truncate_to_top_k`. -/
def truncateToTopK [LT S] [DecidableLT S] (run : Run Text Text S) (k : Nat) : Run Text Text S :=
  run.mapItems fun _ candidates => Dict.ofList ((sortedReverse keyLt candidates.items).take k)

/-- The body of the loop of `read_run_truncated`; a full bucket leaves the score unread. -/
def readRowTruncated (parse : Text → Option S) (k : Nat) (run : Run Text Text S) (fields : List Text) :
    Option (Run Text Text S) :=
  match fields with
  | [] => some run
  | qid :: _ :: docid :: _ :: score :: _ =>
    let bucket := run.getD qid Dict.empty
    if k ≤ bucket.items.length then some (run.set qid bucket)
    else do
      let score ← parse score
      some (run.set qid (bucket.set docid score))
  | _ => none

def readRunTruncated (parse : Text → Option S) (bytes : List Lib.Memory.Byte) (k : Nat) :
    Option (Run Text Text S) := do
  let lines ← readFields bytes
  lines.foldlM (readRowTruncated parse k) Dict.empty

/-- What one line does to the bucket of its query. -/
def fill (k : Nat) (bucket : Dict Text S) (doc : Text × S) : Dict Text S :=
  if k ≤ bucket.items.length then bucket else bucket.set doc.1 doc.2

theorem readsRows_readRowTruncated {print : S → Text} {parse : Text → Option S} (k : Nat) :
    ReadsRows print parse (readRowTruncated parse k) (fill k) where
  blank _ := rfl
  row run tag qid rank doc h := by
    rw [row, readRowTruncated, fill, h]
    split
    · rfl
    · rfl

/-- A bucket takes the first documents until it is full. -/
theorem items_foldl_fill {k : Nat} {docs : List (Text × S)} :
    ∀ {bucket : Dict Text S}, (bucket.keys ++ docs.map Prod.fst).Nodup →
      (docs.foldl (fill k) bucket).items = bucket.items ++ docs.take (k - bucket.items.length) := by
  induction docs with
  | nil =>
    intro bucket _
    rw [List.take_nil, List.append_nil]
    rfl
  | cons doc docs ih =>
    intro bucket h
    rw [List.foldl_cons, fill]
    by_cases hfull : k ≤ bucket.items.length
    · rw [if_pos hfull, ih (h.sublist ((List.sublist_cons_self _ _).append_left _)), Nat.sub_eq_zero_of_le hfull, List.take_zero, List.take_zero]
    · have hitems := Dict.items_set_of_new (v := doc.2) (Dict.notMem_of_nodup h)
      have hroom : k - bucket.items.length = (k - (bucket.items.length + 1)) + 1 := by omega
      rw [if_neg hfull, ih (Dict.nodup_keys_set h _), hitems, List.length_append, List.length_singleton, hroom,
        List.take_succ_cons, List.append_assoc, List.singleton_append]

variable [LT S] [DecidableLT S] [IsStrictWeakOrder S (· < ·)]

/-- The first documents of a query as they are written are its best ones. -/
theorem foldl_fill_truncated (depth : Option Int) (docs : Dict Text S) (k : Nat) :
    (truncated depth (ranked docs)).foldl (fill k) Dict.empty = Dict.ofList ((ranked (cut depth docs)).take k) := by
  have hnodup : ((truncated depth (ranked docs)).map Prod.fst).Nodup := by
    rw [← items_cut]
    exact (cut depth docs).nodup
  refine Dict.ext ?_
  rw [@items_foldl_fill S k _ Dict.empty hnodup, ranked_cut, Dict.items_ofList (hnodup.sublist ((List.take_sublist k _).map Prod.fst))]
  rfl

/-- Streaming a written file cuts it to the same documents, in the same order, as loading it does. -/
theorem readRunTruncated_eq {print : S → Text} {parse : Text → Option S} {run : Run Text Text S} {tag : Text}
    (h : Printable print parse run tag) (depth : Option Int) (k : Nat) :
    ∃ file, readRun parse (writeRun print run tag depth) = some file ∧
      readRunTruncated parse (writeRun print run tag depth) k = some (truncateToTopK file k) := by
  obtain ⟨file, hfile, hitems⟩ := readRun_writeRun h depth
  obtain ⟨streamed, hstreamed, hblocks⟩ := h.foldlM_written (readsRows_readRowTruncated k) depth
  refine ⟨file, hfile, ?_⟩
  have heq : streamed = truncateToTopK file k := by
    refine Dict.ext ?_
    rw [hblocks, gathered, blocks, List.filter_map, List.map_map, truncateToTopK, Dict.items_mapItems, hitems, List.map_map]
    simp only [items_cut]
    refine List.map_congr_left fun entry _ => ?_
    exact congrArg (entry.1, ·) (foldl_fill_truncated depth entry.2 k)
  rw [← heq]
  exact hstreamed

/-- Of two equal scores both keep the greater id. -/
theorem readRunTruncated_tied :
    ∃ file, readRun parseWhole (writeRun printWhole tied ['t'] none) = some file ∧
      readRunTruncated parseWhole (writeRun printWhole tied ['t'] none) 1 = some (truncateToTopK file 1) :=
  readRunTruncated_eq printable_tied none 1

end CascadeSearch.Rank.Candidates
