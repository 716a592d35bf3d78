import CascadeSearch.Lib.SplitLines
import CascadeSearch.Nrt.Tsv

/-!
# Sharding the corpus file (`partition_corpus.py`, `export.py`)

`partition` counts lines with `str.splitlines` after newline translation, the
index builder with `getline`. A shard boundary falls between two documents only
where the two agree on how much stands before it.
-/
namespace CascadeSearch.Server.Partition

open Lib.TextFile Lib.SplitLines
open Index.Format Index.Corpus
open Nrt.Tsv (tsvLine newline_mem_encode tab_mem_encode)

inductive ExportError where
  | lossy (docId : Text)
deriving DecidableEq

def exportLine (d : Text × Text) : Except ExportError Text :=
  if '\t' ∈ d.2 ∨ '\n' ∈ d.2 then .error (.lossy d.1) else .ok (tsvLine d)

/-- The loop of `export_tsv`, and the file it writes. -/
def exportTsv (docs : List (Text × Text)) : Except ExportError Str := do
  let lines ← docs.mapM exportLine
  return writeText lines.flatten

/-- `for i, path in enumerate(paths)`: the lines each shard gets. -/
def shardLines (lines : List Text) (base extra : Nat) : (left i start : Nat) → List (List Text)
  | 0, _, _ => []
  | left + 1, i, start =>
      let size := base + if i < extra then 1 else 0
      (lines.drop start).take size :: shardLines lines base extra left (i + 1) (start + size)

/-- The shard files `partition` writes where none of them exists; `none` if the
corpus is not UTF-8. -/
def partition (corpus : Str) (n : Nat) : Option (List Str) :=
  (readText corpus).map fun text =>
    let lines := splitlines text
    let total := lines.length
    (shardLines lines (total / n) (total % n) n 0 0).map fun shard => writeText shard.flatten

theorem length_shardLines (lines : List Text) (base extra left i start : Nat) :
    (shardLines lines base extra left i start).length = left := by
  induction left generalizing i start with
  | zero => rfl
  | succ left ih => rw [shardLines, List.length_cons, ih]

theorem length_partition {corpus : Str} {n : Nat} {files : List Str} (h : partition corpus n = some files) :
    files.length = n := by
  obtain ⟨text, -, rfl⟩ := Option.map_eq_some_iff.mp h
  rw [List.length_map, length_shardLines]

/-- `divmod(total, n)`: the first `total % n` shards get one line more. -/
def shardSizes (total n : Nat) : List Nat :=
  (List.range n).map fun i => total / n + if i < total % n then 1 else 0

theorem sum_shardSizes (total : Nat) {n : Nat} (hn : 0 < n) : (shardSizes total n).sum = total := by
  have hextra : ∀ m, ((List.range m).map fun i => total / n + if i < total % n then 1 else 0).sum =
      m * (total / n) + min m (total % n) := by
    intro m
    induction m with
    | zero => simp
    | succ m ih =>
      rw [List.range_succ, List.map_append, List.sum_append, ih, Nat.add_mul]
      simp only [List.map_singleton, List.sum_singleton]
      split <;> omega
  have hlt := Nat.mod_lt total hn
  rw [shardSizes, hextra, Nat.min_eq_right hlt.le]
  exact Nat.div_add_mod total n

theorem shardLines_spec (lines : List Text) (base extra : Nat) :
    ∀ left i start, start + ((List.range' i left).map fun j => base + if j < extra then 1 else 0).sum ≤ lines.length →
      (shardLines lines base extra left i start).map List.length =
          (List.range' i left).map (fun j => base + if j < extra then 1 else 0) ∧
        (shardLines lines base extra left i start).flatten =
          (lines.drop start).take ((List.range' i left).map fun j => base + if j < extra then 1 else 0).sum := by
  intro left
  induction left with
  | zero => intro i start _; exact ⟨rfl, List.take_zero.symm⟩
  | succ left ih =>
    intro i start hfits
    rw [List.range'_succ, List.map_cons, List.sum_cons] at hfits ⊢
    rw [shardLines]
    generalize (base + if i < extra then 1 else 0) = size at hfits ⊢
    obtain ⟨hlengths, hflatten⟩ := ih (i + 1) (start + size) (by omega)
    constructor
    · rw [List.map_cons, hlengths, List.length_take, List.length_drop]
      congr 1
      omega
    · rw [List.flatten_cons, hflatten, ← List.drop_drop, List.take_add]

/-- The groups of lines, by their sizes. -/
theorem shardLines_eq_iff (lines : List Text) {n : Nat} (hn : 0 < n) (groups : List (List Text)) :
    shardLines lines (lines.length / n) (lines.length % n) n 0 0 = groups ↔
      groups.flatten = lines ∧ groups.map List.length = shardSizes lines.length n := by
  have hsum := sum_shardSizes lines.length hn
  rw [shardSizes, List.range_eq_range'] at hsum
  obtain ⟨hlengths, hflatten⟩ := shardLines_spec lines (lines.length / n) (lines.length % n) n 0 0 (by
    rw [hsum, Nat.zero_add])
  rw [hsum, List.drop_zero, List.take_length] at hflatten
  rw [shardSizes, List.range_eq_range', List.eq_iff_flatten_eq, hflatten, hlengths]
  exact and_congr eq_comm eq_comm

/-- Every document whole, in its place, and the shards alike in size. -/
structure KeepsWhole (corpus : Str) (files : List Str) : Prop where
  concat : files.flatten = corpus
  boundaries : ∀ file ∈ files, Terminated file
  parsed : files.flatMap documents = documents corpus
  balanced : ∀ file ∈ files, ∀ other ∈ files, (documents file).length ≤ (documents other).length + 1

/-- The lines of the text can be dealt out so that every shard gets as many
pieces as `partition` gives it, and as many documents as the others, or one more. -/
def DealsOut (text : Text) (n : Nat) : Prop :=
  ∃ shares : List (List Text), (∀ line ∈ shares.flatten, '\n' ∉ line) ∧ unlines shares.flatten = text ∧
    shares.map (fun share => (share.map weight).sum) = shardSizes (shares.flatten.map weight).sum n ∧
    ∀ share ∈ shares, ∀ other ∈ shares, share.countP ('\t' ∈ ·) ≤ other.countP ('\t' ∈ ·) + 1

theorem encode_unlines (lines : List Text) :
    encode (unlines lines) = (lines.map fun line => encode line ++ [newline]).flatten := by
  rw [unlines, List.flatMap_def, encode_flatten, List.map_map]
  congr 1
  apply List.map_congr_left
  intro line _
  rw [Function.comp_apply, encode_append]
  rfl

theorem terminated_unlines (lines : List Text) : Terminated (encode (unlines lines)) := by
  rw [encode_unlines]
  apply terminated_flatten
  intro file hfile
  obtain ⟨line, -, rfl⟩ := List.mem_map.mp hfile
  exact terminated_concat _

/-- A line is one document if it has a tab, and none otherwise. -/
theorem length_documents_unlines {lines : List Text} (h : ∀ line ∈ lines, '\n' ∉ line) :
    (documents (encode (unlines lines))).length = lines.countP ('\t' ∈ ·) := by
  induction lines with
  | nil => rfl
  | cons line lines ih =>
    have hline : (documents (encode line ++ [newline])).length = if '\t' ∈ line then 1 else 0 := by
      rw [documents, getlines_concat (mt newline_mem_encode.mp (h line List.mem_cons_self))]
      by_cases htab : '\t' ∈ line
      · obtain ⟨externalId, text, hsplit, hid⟩ := List.eq_append_cons_of_mem (tab_mem_encode.mpr htab)
        rw [if_pos htab, hsplit, List.filterMap_cons, parseLine_tab hid]
        rfl
      · rw [if_neg htab, List.filterMap_cons, parseLine_of_notMem (mt tab_mem_encode.mp htab)]
        rfl
    have hencode : encode (unlines (line :: lines)) = encode line ++ [newline] ++ encode (unlines lines) := by
      rw [encode_unlines, encode_unlines]
      rfl
    rw [hencode, documents_append (terminated_concat _), List.length_append, hline,
      ih fun l hl => h l (List.mem_cons_of_mem _ hl), List.countP_cons, Nat.add_comm]
    simp only [decide_eq_true_eq]

/-- A group of pieces is a file of whole lines only if its last piece ends one. -/
theorem newline_mem_getLast {group : List Text} (h : Terminated (encode group.flatten))
    (hne : ∀ piece ∈ group, piece ≠ []) :
    ∀ piece ∈ group.getLast?, '\n' ∈ piece := by
  intro piece hpiece
  obtain ⟨front, rfl⟩ := List.getLast?_eq_some_iff.mp hpiece
  obtain ⟨init, c, rfl⟩ := (List.eq_nil_or_concat piece).resolve_left
    (hne piece (List.mem_append_right _ List.mem_cons_self))
  have hencode : encode (front ++ [init.concat c]).flatten = encode (front.flatten ++ init) ++ encodeChar c := by
    rw [List.flatten_append, List.flatten_singleton, List.concat_eq_append, ← List.append_assoc, encode_append]
    congr 1
    exact List.append_nil _
  have hlast := List.getLast?_eq_some_getLast (encodeChar_ne_nil c)
  have hbyte := h ((encodeChar c).getLast (encodeChar_ne_nil c)) (by
    rw [hencode, List.getLast?_append, hlast]
    rfl)
  have hmem : newline ∈ encodeChar c := hbyte ▸ List.getLast_mem (encodeChar_ne_nil c)
  change asciiByte '\n' ∈ encodeChar c at hmem
  rw [List.concat_eq_append, (asciiByte_mem_encodeChar (by decide)).mp hmem]
  exact List.mem_append_right _ List.mem_cons_self

theorem exportTsv_ok {docs : List (Text × Text)} {corpus : Str} (h : exportTsv docs = .ok corpus) :
    corpus = encode (docs.flatMap tsvLine) := by
  have hmap : ∀ {docs lines}, List.mapM exportLine docs = .ok lines → lines = docs.map tsvLine := by
    intro docs
    induction docs with
    | nil =>
      intro lines hlines
      cases hlines
      rfl
    | cons d docs ih =>
      intro lines hlines
      rw [List.mapM_cons, exportLine] at hlines
      split at hlines
      · cases hlines
      · cases hrest : List.mapM exportLine docs with
        | error e =>
          rw [hrest] at hlines
          cases hlines
        | ok rest =>
          rw [hrest] at hlines
          cases hlines
          rw [ih hrest, List.map_cons]
  rw [exportTsv] at h
  cases hlines : List.mapM exportLine docs with
  | error e =>
    rw [hlines] at h
    cases h
  | ok lines =>
    rw [hlines] at h
    cases h
    rw [hmap hlines, List.flatMap_def]
    rfl

/-- The text `export_tsv` writes is made of lines. -/
theorem exists_lines (docs : List (Text × Text)) :
    ∃ lines, (∀ line ∈ lines, '\n' ∉ line) ∧ unlines lines = docs.flatMap tsvLine := by
  induction docs with
  | nil => exact ⟨[], by simp, rfl⟩
  | cons d docs ih =>
    obtain ⟨front, hfront, hd⟩ := exists_unlines (d.1 ++ '\t' :: d.2)
    obtain ⟨back, hback, hdocs⟩ := ih
    refine ⟨front ++ back, ?_, ?_⟩
    · intro line hline
      rcases List.mem_append.mp hline with hline | hline
      · exact hfront line hline
      · exact hback line hline
    · rw [unlines_append, hd, hdocs, List.flatMap_cons, tsvLine]

theorem mem_unlines {lines : List Text} {line : Text} (hline : line ∈ lines) {c : Char} (hc : c ∈ line) :
    c ∈ unlines lines := List.mem_flatMap.mpr ⟨line, hline, List.mem_append_left _ hc⟩

/-- On a text without carriage returns the shards are the shares it is dealt out in. -/
theorem partition_eq_iff {text : Text} (hreturn : '\r' ∉ text) {n : Nat} (hn : 1 ≤ n) {shares : List (List Text)}
    (hnewline : ∀ line ∈ shares.flatten, '\n' ∉ line) (htext : unlines shares.flatten = text) :
    shardLines (splitlines text) ((splitlines text).length / n) ((splitlines text).length % n) n 0 0 =
        shares.map (List.flatMap pieces) ↔
      shares.map (fun share => (share.map weight).sum) = shardSizes (shares.flatten.map weight).sum n := by
  have hr : ∀ line ∈ shares.flatten, '\r' ∉ line := fun line hline hmem =>
    hreturn (htext ▸ mem_unlines hline hmem)
  have hpieces : splitlines text = shares.flatten.flatMap pieces := by
    rw [← htext, splitlines_unlines hr]
  have hflatten : (shares.map (List.flatMap pieces)).flatten = splitlines text := by
    rw [hpieces, ← List.flatMap_def, ← List.flatMap_id, List.flatMap_assoc]
    rfl
  have hlengths : (shares.map (List.flatMap pieces)).map List.length =
      shares.map fun share => (share.map weight).sum := by
    rw [List.map_map]
    apply List.map_congr_left
    intro share hshare
    exact length_flatMap_pieces (fun line hline => hr line (List.mem_flatten.mpr ⟨share, hshare, hline⟩))
      fun line hline => hnewline line (List.mem_flatten.mpr ⟨share, hshare, hline⟩)
  have htotal : (splitlines text).length = (shares.flatten.map weight).sum := by
    rw [hpieces, length_flatMap_pieces hr hnewline]
  rw [shardLines_eq_iff _ hn, hlengths, htotal]
  exact and_iff_right hflatten

theorem files_of_shares (shares : List (List Text)) :
    (shares.map (List.flatMap pieces)).map (fun shard => writeText shard.flatten) =
      shares.map fun share => encode (unlines share) := by
  rw [List.map_map]
  apply List.map_congr_left
  intro share _
  rw [Function.comp_apply, flatten_flatMap_pieces]
  rfl

theorem flatten_unlines (shares : List (List Text)) :
    (shares.map fun share => encode (unlines share)).flatten = encode (unlines shares.flatten) := by
  induction shares with
  | nil => rfl
  | cons share shares ih =>
    rw [List.map_cons, List.flatten_cons, ih, List.flatten_cons, unlines_append, encode_append]

/-- Without other line breaks than the newlines every corpus can be dealt out. -/
theorem dealsOut_of_plain {docs : List (Text × Text)}
    (hplain : ∀ d ∈ docs, ∀ c ∈ d.1 ++ '\t' :: d.2, isLineBreak c = false) {n : Nat} (hn : 1 ≤ n) :
    DealsOut (docs.flatMap tsvLine) n := by
  have hline : ∀ line ∈ docs.map (fun d => d.1 ++ '\t' :: d.2),
      '\n' ∉ line ∧ weight line = 1 ∧ '\t' ∈ line := by
    intro line hline
    obtain ⟨d, hd, rfl⟩ := List.mem_map.mp hline
    refine ⟨fun hmem => ?_, ?_, List.mem_append_right _ List.mem_cons_self⟩
    · exact absurd (hplain d hd '\n' hmem) (by decide)
    · rw [weight, List.countP_eq_zero.mpr fun c hc => by rw [hplain d hd c hc]; exact Bool.false_ne_true]
  have htext : unlines (docs.map fun d => d.1 ++ '\t' :: d.2) = docs.flatMap tsvLine := by
    rw [unlines, List.flatMap_map]
    rfl
  generalize docs.map (fun d => d.1 ++ '\t' :: d.2) = lines at hline htext
  obtain ⟨hflatten, hlengths⟩ := (shardLines_eq_iff lines hn _).mp rfl
  generalize shardLines lines (lines.length / n) (lines.length % n) n 0 0 = shares at hflatten hlengths
  have hshare : ∀ share ∈ shares, ∀ line ∈ share, line ∈ lines := fun share hmem line hmem' =>
    hflatten ▸ List.mem_flatten.mpr ⟨share, hmem, hmem'⟩
  have hweight : ∀ share : List Text, (∀ line ∈ share, line ∈ lines) → (share.map weight).sum = share.length := by
    intro share hsub
    rw [List.map_congr_left fun line hmem => (hline line (hsub line hmem)).2.1, List.map_const', List.sum_replicate,
      smul_eq_mul, Nat.mul_one]
  have hcount : ∀ share ∈ shares, share.countP ('\t' ∈ ·) = share.length := fun share hmem =>
    List.countP_eq_length.mpr fun line hmem' => decide_eq_true (hline line (hshare share hmem line hmem')).2.2
  have hsize : ∀ share ∈ shares, lines.length / n ≤ share.length ∧ share.length ≤ lines.length / n + 1 := by
    intro share hmem
    have hin : share.length ∈ shardSizes lines.length n := hlengths ▸ List.mem_map_of_mem hmem
    obtain ⟨i, -, hi⟩ := List.mem_map.mp hin
    split at hi <;> omega
  refine ⟨shares, ?_, by rw [hflatten, htext], ?_, ?_⟩
  · rw [hflatten]
    exact fun line hmem => (hline line hmem).1
  · rw [hflatten, hweight lines fun line hmem => hmem, ← hlengths]
    exact List.map_congr_left fun share hmem => hweight share (hshare share hmem)
  · intro share hmem other hmem'
    rw [hcount share hmem, hcount other hmem']
    have hle := (hsize share hmem).2
    have hge := (hsize other hmem').1
    omega

theorem partition_encode (text : Text) (n : Nat) : partition (encode text) n = some ((shardLines
    (splitlines (universalNewlines text)) ((splitlines (universalNewlines text)).length / n)
    ((splitlines (universalNewlines text)).length % n) n 0 0).map fun shard => writeText shard.flatten) := by
  rw [partition, readText_encode]
  rfl

/-- Shards made of whole lines keep the documents whole if they are alike in size. -/
theorem keepsWhole_shares {text : Text} {shares : List (List Text)} (hnewline : ∀ line ∈ shares.flatten, '\n' ∉ line)
    (htext : unlines shares.flatten = text) :
    KeepsWhole (encode text) (shares.map fun share => encode (unlines share)) ↔
      ∀ share ∈ shares, ∀ other ∈ shares, share.countP ('\t' ∈ ·) ≤ other.countP ('\t' ∈ ·) + 1 := by
  have hcount : ∀ share ∈ shares, (documents (encode (unlines share))).length = share.countP ('\t' ∈ ·) :=
    fun share hshare => length_documents_unlines fun line hline =>
      hnewline line (List.mem_flatten.mpr ⟨share, hshare, hline⟩)
  have hterminated : ∀ file ∈ shares.map (fun share => encode (unlines share)), Terminated file := by
    intro file hfile
    obtain ⟨share, -, rfl⟩ := List.mem_map.mp hfile
    exact terminated_unlines share
  have hconcat : (shares.map fun share => encode (unlines share)).flatten = encode text := by
    rw [flatten_unlines, htext]
  constructor
  · intro hkeeps share hshare other hother
    have hle := hkeeps.balanced _ (List.mem_map_of_mem hshare) _ (List.mem_map_of_mem hother)
    rwa [hcount share hshare, hcount other hother] at hle
  · intro hbalanced
    refine ⟨hconcat, hterminated, by rw [← hconcat, documents_flatten hterminated], ?_⟩
    intro file hfile other hother
    obtain ⟨share, hshare, rfl⟩ := List.mem_map.mp hfile
    obtain ⟨share', hshare', rfl⟩ := List.mem_map.mp hother
    rw [hcount share hshare, hcount share' hshare']
    exact hbalanced share hshare share' hshare'

/-- Groups of pieces whose files end with whole lines are groups of lines. -/
theorem exists_shares {lines : List Text} (hlines : ∀ line ∈ lines, '\n' ∉ line) (hreturn : '\r' ∉ unlines lines)
    {groups : List (List Text)} (hflatten : groups.flatten = splitlines (unlines lines))
    (hterminated : ∀ group ∈ groups, Terminated (encode group.flatten)) :
    ∃ shares : List (List Text), shares.flatten = lines ∧ shares.map (List.flatMap pieces) = groups := by
  have hr : ∀ line ∈ lines, '\r' ∉ line := fun line hline hmem => hreturn (mem_unlines hline hmem)
  have hlast : ∀ group ∈ groups, ∀ piece ∈ group.getLast?, '\n' ∈ piece := by
    intro group hgroup
    apply newline_mem_getLast (hterminated group hgroup)
    intro piece hpiece
    apply ne_nil_of_mem_splitlinesFrom [] (unlines lines)
    change piece ∈ splitlines (unlines lines)
    rw [← hflatten]
    exact List.mem_flatten.mpr ⟨group, hgroup, hpiece⟩
  obtain ⟨shares, hshares, hgroups⟩ := cut_groups hr hlines (by rw [hflatten, splitlines_unlines hr]) hlast
  exact ⟨shares, hshares, hgroups.symm⟩

/-- A text that can be dealt out is cut into such shards. -/
theorem keepsWhole_of_dealsOut {text : Text} {n : Nat} (hn : 1 ≤ n) (hreturn : '\r' ∉ text) (hdeals : DealsOut text n) :
    ∃ files, partition (encode text) n = some files ∧ KeepsWhole (encode text) files := by
  obtain ⟨shares, hnewline, hshares, hsizes, hbalanced⟩ := hdeals
  rw [partition_encode, universalNewlines_of_notMem hreturn, (partition_eq_iff hreturn hn hnewline hshares).mpr hsizes,
    files_of_shares]
  exact ⟨_, rfl, (keepsWhole_shares hnewline hshares).mpr hbalanced⟩

/-- Sharding keeps every document whole exactly if no carriage return occurs and
the lines can be dealt out as their pieces are. -/
theorem partition_keepsWhole_iff {docs : List (Text × Text)} {corpus : Str} (hexport : exportTsv docs = .ok corpus)
    {n : Nat} (hn : 1 ≤ n) :
    (∃ files, partition corpus n = some files ∧ KeepsWhole corpus files) ↔
      '\r' ∉ docs.flatMap tsvLine ∧ DealsOut (docs.flatMap tsvLine) n := by
  obtain ⟨lines, hlines, htext⟩ := exists_lines docs
  rw [exportTsv_ok hexport]
  generalize docs.flatMap tsvLine = text at htext ⊢
  constructor
  · rintro ⟨files, hfiles, hkeeps⟩
    rw [partition_encode] at hfiles
    cases hfiles
    obtain ⟨hflatten, -⟩ := (shardLines_eq_iff (splitlines (universalNewlines text)) hn _).mp rfl
    generalize hgroups : shardLines (splitlines (universalNewlines text)) _ _ n 0 0 = groups at hkeeps hflatten
    -- the files joined are the text after newline translation
    have hconcat : encode (universalNewlines text) = encode text := by
      rw [← hkeeps.concat, ← flatten_splitlines (universalNewlines text), ← hflatten, List.flatten_flatten,
        encode_flatten, List.map_map]
      rfl
    have hsame := encode_injective hconcat
    have hreturn : '\r' ∉ text := hsame ▸ notMem_universalNewlines text
    rw [hsame] at hflatten hgroups
    obtain ⟨shares, hshares, rfl⟩ := exists_shares hlines (htext ▸ hreturn) (htext ▸ hflatten) fun group hgroup =>
      hkeeps.boundaries _ (List.mem_map_of_mem hgroup)
    subst hshares
    rw [files_of_shares] at hkeeps
    exact ⟨hreturn, shares, hlines, htext, (partition_eq_iff hreturn hn hlines htext).mp hgroups,
      (keepsWhole_shares hlines htext).mp hkeeps⟩
  · rintro ⟨hreturn, hdeals⟩
    exact keepsWhole_of_dealsOut hn hreturn hdeals

/-- Three documents in two shards. -/
theorem partition_keepsWhole_three :
    ∃ corpus files, exportTsv [(['a'], ['x']), (['b'], ['y']), (['c'], ['z'])] = .ok corpus ∧
      partition corpus 2 = some files ∧ KeepsWhole corpus files := by
  have hexport : exportTsv [(['a'], ['x']), (['b'], ['y']), (['c'], ['z'])] =
      .ok (encode ['a', '\t', 'x', '\n', 'b', '\t', 'y', '\n', 'c', '\t', 'z', '\n']) := rfl
  obtain ⟨files, hfiles, hkeeps⟩ := (partition_keepsWhole_iff hexport (n := 2) (by decide)).mpr
    ⟨by decide, dealsOut_of_plain (by simp [isLineBreak, lineBreaks]) (by decide)⟩
  exact ⟨_, files, hexport, hfiles, hkeeps⟩

/-- A line separator in a text cuts its document in two; a carriage return is
written back as a newline. -/
theorem separator_cuts_document :
    (∃ corpus files, exportTsv [(['a'], ['x', '\u2028', 'y'])] = .ok corpus ∧ partition corpus 2 = some files ∧
      ¬ KeepsWhole corpus files ∧ files.flatMap documents ≠ documents corpus) ∧
    ∃ corpus files, exportTsv [(['a'], ['x', '\r', 'y'])] = .ok corpus ∧ partition corpus 1 = some files ∧
      ¬ KeepsWhole corpus files ∧ files.flatten ≠ corpus := by
  constructor
  · have hfiles : partition (encode ['a', '\t', 'x', '\u2028', 'y', '\n']) 2 =
        some [encode ['a', '\t', 'x', '\u2028'], encode ['y', '\n']] := by
      rw [partition, readText_encode]
      decide
    have hcut : [encode ['a', '\t', 'x', '\u2028'], encode ['y', '\n']].flatMap documents ≠
        documents (encode ['a', '\t', 'x', '\u2028', 'y', '\n']) := by decide +kernel
    exact ⟨_, _, rfl, hfiles, fun h => hcut h.parsed, hcut⟩
  · have hfiles : partition (encode ['a', '\t', 'x', '\r', 'y', '\n']) 1 =
        some [encode ['a', '\t', 'x', '\n', 'y', '\n']] := by
      rw [partition, readText_encode]
      decide
    have hchanged : [encode ['a', '\t', 'x', '\n', 'y', '\n']].flatten ≠
        encode ['a', '\t', 'x', '\r', 'y', '\n'] := by decide +kernel
    exact ⟨_, _, rfl, hfiles, fun h => hchanged h.concat, hchanged⟩

end CascadeSearch.Server.Partition
