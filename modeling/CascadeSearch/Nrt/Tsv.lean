import CascadeSearch.Index.Corpus
import CascadeSearch.Lib.TextFile

/-!
# The source TSV of a segment (`index.py`)

A flush writes its buffer as text, a merge reads the chosen files back as text
and writes their concatenation, and `build_index` reads bytes. The two readers
agree on where a line ends except at a carriage return.
-/
namespace CascadeSearch.Nrt.Tsv

open Lib.TextFile
open Index.Format Index.Corpus

/-- `f"{eid}\t{text}\n"`. -/
def tsvLine (d : Text × Text) : Text := d.1 ++ '\t' :: d.2 ++ ['\n']

/-- The file `_flush_locked` writes. -/
def flushTsv (buffer : List (Text × Text)) : Str := writeText (buffer.flatMap tsvLine)

/-- The file `_run_merge` writes from the source files of the chosen segments. -/
def mergeTsv (sources : List Str) : Option Str :=
  (sources.mapM readText).map fun texts => writeText texts.flatten

/-- The document `build_index` sees of an added one. -/
def encodeDocument (d : Text × Text) : Document := ⟨encode d.1, encode d.2⟩

def carriageReturn : Byte := 0x0D

theorem newline_mem_encode {text : Text} : newline ∈ encode text ↔ '\n' ∈ text :=
  mem_encode_ascii (c := '\n') (by decide)

theorem tab_mem_encode {text : Text} : tab ∈ encode text ↔ '\t' ∈ text :=
  mem_encode_ascii (c := '\t') (by decide)

theorem carriageReturn_mem_encode {text : Text} : carriageReturn ∈ encode text ↔ '\r' ∈ text :=
  mem_encode_ascii (c := '\r') (by decide)

theorem encode_line (l rest : Text) :
    encode (l ++ '\n' :: rest) = encode l ++ [newline] ++ encode rest := by
  rw [encode_append, encode_cons, List.append_assoc]
  rfl

/-- Newline translation never crosses a newline; without carriage returns it changes nothing. -/
theorem universalNewlines_line (l : Text) (rest : Text) :
    ∃ l', universalNewlines (l ++ '\n' :: rest) = l' ++ '\n' :: universalNewlines rest ∧
      ('\t' ∉ l → '\t' ∉ l') ∧ ('\r' ∉ l → l' = l) := by
  induction l using universalNewlines.induct with
  | case1 => exact ⟨[], rfl, fun h => h, fun _ => rfl⟩
  | case2 l ih =>
    obtain ⟨l', hl, htab, -⟩ := ih
    refine ⟨'\n' :: l', ?_, ?_, fun h => absurd List.mem_cons_self h⟩
    · rw [List.cons_append, List.cons_append, universalNewlines, hl]
      rfl
    · intro h
      have hl' := htab fun hmem => h (List.mem_cons_of_mem _ (List.mem_cons_of_mem _ hmem))
      exact List.not_mem_cons_of_ne_of_not_mem (by decide) hl'
  | case3 l hn ih =>
    obtain ⟨l', hl, htab, -⟩ := ih
    cases l with
    | nil => exact ⟨[], rfl, fun _ => List.not_mem_nil, fun h => absurd List.mem_cons_self h⟩
    | cons c l =>
      refine ⟨'\n' :: l', ?_, ?_, fun h => absurd List.mem_cons_self h⟩
      · rw [List.cons_append, universalNewlines, hl]
        · rfl
        · intro text htext
          rw [List.cons_append] at htext
          exact hn l (congrArg (· :: l) (List.cons_eq_cons.mp htext).1)
      · intro h
        have hl' := htab fun hmem => h (List.mem_cons_of_mem _ hmem)
        exact List.not_mem_cons_of_ne_of_not_mem (by decide) hl'
  | case4 c l hn hr ih =>
    obtain ⟨l', hl, htab, hret⟩ := ih
    refine ⟨c :: l', ?_, ?_, ?_⟩
    · rw [List.cons_append, universalNewlines, hl]
      · rfl
      · intro text hc
        exact absurd hc hr
      · exact hr
    · intro h
      have hl' := htab fun hmem => h (List.mem_cons_of_mem _ hmem)
      exact List.not_mem_cons_of_ne_of_not_mem (fun hc => h (hc ▸ List.mem_cons_self)) hl'
    · intro h
      rw [hret fun hmem => h (List.mem_cons_of_mem _ hmem)]

/-- A text without a newline stays one line, or a few without a tab. -/
theorem tab_notMem_universalNewlines {text : Text} (h : '\t' ∉ text) : '\t' ∉ universalNewlines text := by
  induction text using universalNewlines.induct with
  | case1 => exact h
  | case2 text ih =>
    rw [universalNewlines]
    have ht := ih fun hmem => h (List.mem_cons_of_mem _ (List.mem_cons_of_mem _ hmem))
    exact List.not_mem_cons_of_ne_of_not_mem (by decide) ht
  | case3 text hn ih =>
    rw [universalNewlines]
    · have ht := ih fun hmem => h (List.mem_cons_of_mem _ hmem)
      exact List.not_mem_cons_of_ne_of_not_mem (by decide) ht
    · exact hn
  | case4 c text hn hr ih =>
    rw [universalNewlines]
    · have ht := ih fun hmem => h (List.mem_cons_of_mem _ hmem)
      exact List.not_mem_cons_of_ne_of_not_mem (fun hc => h (hc ▸ List.mem_cons_self)) ht
    all_goals assumption

/-- Neither the id nor the text of a document holds a carriage return. -/
def NoReturns (d : Document) : Prop := carriageReturn ∉ d.externalId ∧ carriageReturn ∉ d.text

/-- A line that is a document without carriage returns has none. -/
theorem return_notMem_line {line : Text} (htab : '\t' ∈ line)
    (h : ∀ d, parseLine (encode line) = some d → NoReturns d) : '\r' ∉ line := by
  obtain ⟨externalId, text, hsplit, hid⟩ := List.eq_append_cons_of_mem (tab_mem_encode.mpr htab)
  have hparse := parseLine_tab hid text
  rw [← hsplit] at hparse
  obtain ⟨hnoId, hnoText⟩ := h _ hparse
  rw [← carriageReturn_mem_encode, hsplit, List.mem_append, List.mem_cons]
  rintro (hr | hr | hr)
  · exact hnoId hr
  · exact absurd hr (by decide)
  · exact hnoText hr

theorem mem_documents_line {file : Str} (hline : newline ∉ file) {d : Document}
    (hd : parseLine file = some d) : d ∈ documents file ∧ d ∈ documents (file ++ [newline]) := by
  have hne : file ≠ [] := by
    rw [(parseLine_eq_some hd).1]
    simp
  rw [documents, documents, getlines_line hline hne, getlines_concat hline]
  have hmem := List.mem_filterMap.mpr ⟨file, List.mem_singleton_self _, hd⟩
  exact ⟨hmem, hmem⟩

/-- Text mode changes no document, as long as none holds a carriage return. -/
theorem documents_universalNewlines (text : Text)
    (h : ∀ d ∈ documents (encode text), NoReturns d) :
    documents (encode (universalNewlines text)) = documents (encode text) := by
  induction hn : text.length using Nat.strong_induction_on generalizing text with
  | h n ih =>
    by_cases hline : '\n' ∈ text
    · obtain ⟨l, rest, rfl, hl⟩ := List.eq_append_cons_of_mem hline
      obtain ⟨l', huniv, htab', hret'⟩ := universalNewlines_line l rest
      rw [encode_line, documents_append (terminated_concat _)] at h
      have hrest := ih rest.length (by simp at hn; omega) rest
        (fun d hd => h d (List.mem_append_right _ hd)) rfl
      rw [huniv, encode_line, encode_line, documents_append (terminated_concat _),
        documents_append (terminated_concat _), hrest]
      have hlb : newline ∉ encode l := fun hmem => hl (newline_mem_encode.mp hmem)
      by_cases htab : '\t' ∈ l
      · have hret := return_notMem_line htab fun d hd =>
          h d (List.mem_append_left _ (mem_documents_line hlb hd).2)
        rw [hret' hret]
      · have hskip : ∀ {line : Text}, '\t' ∉ line → tab ∉ encode line ++ [newline] := by
          intro line hline
          rw [List.mem_append, tab_mem_encode]
          exact not_or.mpr ⟨hline, by decide⟩
        rw [documents_of_notMem (hskip (htab' htab)), documents_of_notMem (hskip htab)]
    · have hlb : newline ∉ encode text := fun hmem => hline (newline_mem_encode.mp hmem)
      by_cases htab : '\t' ∈ text
      · have hret := return_notMem_line htab fun d hd => h d (mem_documents_line hlb hd).1
        rw [universalNewlines_of_notMem hret]
      · rw [documents_of_notMem (mt tab_mem_encode.mp htab),
          documents_of_notMem (mt tab_mem_encode.mp (tab_notMem_universalNewlines htab))]

theorem terminated_universalNewlines {text : Text} (h : Terminated (encode text)) :
    Terminated (encode (universalNewlines text)) := by
  induction text using List.reverseRecOn with
  | nil => exact terminated_nil
  | append_singleton l c _ =>
    have hc : c = '\n' := by
      have hlast : (encodeChar c).getLast? = some newline := by
        cases hx : (encodeChar c).getLast? with
        | none =>
          rw [List.getLast?_eq_none_iff] at hx
          exact absurd (List.map_eq_nil_iff.mp hx) String.utf8EncodeChar_ne_nil
        | some b =>
          have hb : (encode (l ++ [c])).getLast? = some b := by
            rw [encode_append, encode_cons, List.getLast?_append]
            change ((encodeChar c ++ []).getLast?.or _) = some b
            rw [List.append_nil, hx]
            rfl
          rw [h b hb]
      have hmem := List.mem_of_getLast? hlast
      exact ((asciiByte_mem_encodeChar (c := '\n') (by decide)).mp hmem).symm
    obtain ⟨l', huniv, -, -⟩ := universalNewlines_line l []
    rw [hc, huniv, encode_line]
    have hnil : encode (universalNewlines []) = [] := rfl
    rw [hnil, List.append_nil]
    exact terminated_concat _

theorem mergeTsv_cons {source merged : Str} {sources : List Str}
    (h : mergeTsv (source :: sources) = some merged) :
    ∃ chars rest, source = encode chars ∧ mergeTsv sources = some rest ∧
      merged = encode (universalNewlines chars) ++ rest := by
  obtain ⟨texts, htexts, rfl⟩ := Option.map_eq_some_iff.mp h
  rw [List.mapM_cons] at htexts
  obtain ⟨text, htext, htexts⟩ := Option.bind_eq_some_iff.mp htexts
  obtain ⟨texts', htexts', hcons⟩ := Option.bind_eq_some_iff.mp htexts
  cases hcons
  obtain ⟨chars, hsource, rfl⟩ := readText_eq_some htext
  refine ⟨chars, writeText texts'.flatten, hsource, ?_, ?_⟩
  · rw [mergeTsv, htexts']
    rfl
  · rw [writeText, List.flatten_cons, encode_append]
    rfl

/-- A merge keeps the documents of every source file that ends with a newline
and holds no carriage return; its own file ends with a newline again. -/
theorem mergeTsv_spec {sources : List Str} :
    ∀ {merged}, mergeTsv sources = some merged →
      (∀ source ∈ sources, Terminated source) →
      (∀ source ∈ sources, ∀ d ∈ documents source, NoReturns d) →
      documents merged = sources.flatMap documents ∧ Terminated merged := by
  induction sources with
  | nil =>
    intro merged hmerge _ _
    cases hmerge
    exact ⟨rfl, terminated_nil⟩
  | cons source sources ih =>
    intro merged hmerge hterm hret
    obtain ⟨chars, rest, rfl, hrest, rfl⟩ := mergeTsv_cons hmerge
    obtain ⟨hdocs, hrestTerm⟩ := ih hrest (fun s hs => hterm s (List.mem_cons_of_mem _ hs))
      fun s hs => hret s (List.mem_cons_of_mem _ hs)
    have hsource := hterm _ List.mem_cons_self
    have huniv := terminated_universalNewlines hsource
    constructor
    · rw [documents_append huniv, hdocs, List.flatMap_cons,
        documents_universalNewlines chars (hret _ List.mem_cons_self)]
    · exact huniv.append hrestTerm

theorem getlines_encode {text : Text} {line : Str} (h : line ∈ getlines (encode text)) : ∃ l, line = encode l := by
  induction hn : text.length using Nat.strong_induction_on generalizing text with
  | h n ih =>
    by_cases hline : '\n' ∈ text
    · obtain ⟨l, rest, rfl, hl⟩ := List.eq_append_cons_of_mem hline
      have hlb : newline ∉ encode l := fun hmem => hl (newline_mem_encode.mp hmem)
      rw [encode_line, getlines_append (terminated_concat _), getlines_concat hlb] at h
      rcases List.mem_cons.mp h with rfl | h
      · exact ⟨l, rfl⟩
      · exact ih rest.length (by simp at hn; omega) h rfl
    · by_cases hnil : encode text = []
      · rw [hnil] at h
        cases h
      · rw [getlines_line (mt newline_mem_encode.mp hline) hnil] at h
        exact ⟨text, List.mem_singleton.mp h⟩

/-- The ids and the texts in an encoded file are encoded. -/
theorem documents_encode {text : Text} {d : Document} (h : d ∈ documents (encode text)) :
    ∃ e : Text × Text, d = encodeDocument e := by
  obtain ⟨line, hline, hparse⟩ := List.mem_filterMap.mp h
  obtain ⟨l, rfl⟩ := getlines_encode hline
  have htab : '\t' ∈ l := by
    rw [← tab_mem_encode, (parseLine_eq_some hparse).1]
    simp
  obtain ⟨externalId, rest, rfl, hid⟩ := List.eq_append_cons_of_mem htab
  have hsplit : encode (externalId ++ '\t' :: rest) = encode externalId ++ tab :: encode rest := by
    rw [encode_append, encode_cons]
    rfl
  rw [hsplit, parseLine_tab (mt tab_mem_encode.mp hid)] at hparse
  cases hparse
  exact ⟨(externalId, rest), rfl⟩

/-- No character of the document ends its field or its line early; a lone
carriage return in the text is allowed. -/
structure WellFormed (d : Text × Text) : Prop where
  idTab : '\t' ∉ d.1
  idNewline : '\n' ∉ d.1
  idReturn : '\r' ∉ d.1
  textTab : '\t' ∉ d.2
  textNewline : '\n' ∉ d.2

theorem documents_tsvLine {d : Text × Text} (h : WellFormed d) :
    documents (encode (tsvLine d)) = [encodeDocument d] ∧ Terminated (encode (tsvLine d)) := by
  have hline : encode (tsvLine d) = encode d.1 ++ tab :: encode d.2 ++ [newline] := by
    rw [tsvLine, encode_append, encode_append, encode_cons]
    rfl
  rw [hline]
  constructor
  · apply documents_line (mt tab_mem_encode.mp h.idTab)
    rw [List.mem_append, List.mem_cons]
    rintro (hn | hn | hn)
    · exact h.idNewline (newline_mem_encode.mp hn)
    · exact absurd hn (by decide)
    · exact h.textNewline (newline_mem_encode.mp hn)
  · exact terminated_concat _

theorem flushTsv_spec {buffer : List (Text × Text)} (h : ∀ d ∈ buffer, WellFormed d) :
    documents (flushTsv buffer) = buffer.map encodeDocument ∧ Terminated (flushTsv buffer) := by
  induction buffer with
  | nil => exact ⟨rfl, terminated_nil⟩
  | cons d buffer ih =>
    obtain ⟨hd, hdTerm⟩ := documents_tsvLine (h d List.mem_cons_self)
    obtain ⟨hrest, hrestTerm⟩ := ih fun e he => h e (List.mem_cons_of_mem _ he)
    have hcons : flushTsv (d :: buffer) = encode (tsvLine d) ++ flushTsv buffer := by
      rw [flushTsv, writeText, List.flatMap_cons, encode_append]
      rfl
    rw [hcons]
    constructor
    · rw [documents_append hdTerm, hd, hrest]
      rfl
    · exact hdTerm.append hrestTerm

theorem noReturns_encodeDocument {d : Text × Text} :
    NoReturns (encodeDocument d) ↔ '\r' ∉ d.1 ∧ '\r' ∉ d.2 := by
  rw [NoReturns, encodeDocument, carriageReturn_mem_encode, carriageReturn_mem_encode]

theorem mergeTsv_encode (texts : List Text) :
    mergeTsv (texts.map encode) = some (encode (texts.map universalNewlines).flatten) := by
  have hread : (texts.map encode).mapM readText = some (texts.map universalNewlines) := by
    induction texts with
    | nil => rfl
    | cons text texts ih =>
      rw [List.map_cons, List.mapM_cons, readText_encode, ih]
      rfl
  rw [mergeTsv, hread]
  rfl

/-- What was read in text mode holds no carriage return any more. -/
theorem noReturns_of_merged {texts : List Text} {d : Document}
    (h : d ∈ documents (encode (texts.map universalNewlines).flatten)) : NoReturns d := by
  have hline := mem_of_mem_documents h
  have hbytes : carriageReturn ∉ d.externalId ++ tab :: d.text := by
    intro hr
    obtain ⟨text, htext, hr⟩ := List.mem_flatten.mp (carriageReturn_mem_encode.mp (mem_getlines hline hr).1)
    obtain ⟨source, -, rfl⟩ := List.mem_map.mp htext
    exact notMem_universalNewlines source hr
  rw [List.mem_append, List.mem_cons] at hbytes
  exact ⟨fun hr => hbytes (Or.inl hr), fun hr => hbytes (Or.inr (Or.inr hr))⟩

/-- The merged segment holds the documents of the chosen ones, in order, exactly
when none of their texts holds a carriage return. -/
theorem merge_keeps_iff_noReturn (buffers : List (List (Text × Text)))
    (hwf : ∀ buffer ∈ buffers, ∀ d ∈ buffer, WellFormed d) :
    (∃ merged, mergeTsv (buffers.map flushTsv) = some merged ∧
        documents merged = buffers.flatMap fun buffer => documents (flushTsv buffer)) ↔
      ∀ buffer ∈ buffers, ∀ d ∈ buffer, '\r' ∉ d.2 := by
  have hsources : buffers.map flushTsv = (buffers.map (·.flatMap tsvLine)).map encode := by
    rw [List.map_map]
    rfl
  constructor
  · rintro ⟨merged, hmerge, hdocs⟩ buffer hbuffer d hd
    rw [hsources, mergeTsv_encode] at hmerge
    cases hmerge
    have hmem : encodeDocument d ∈ buffers.flatMap fun buffer => documents (flushTsv buffer) := by
      rw [List.mem_flatMap]
      refine ⟨buffer, hbuffer, ?_⟩
      rw [(flushTsv_spec (hwf buffer hbuffer)).1]
      exact List.mem_map_of_mem hd
    rw [← hdocs] at hmem
    exact (noReturns_encodeDocument.mp (noReturns_of_merged hmem)).2
  · intro hret
    have hmerge := mergeTsv_encode (buffers.map (·.flatMap tsvLine))
    rw [← hsources] at hmerge
    refine ⟨_, hmerge, ?_⟩
    have hspec := mergeTsv_spec hmerge
    rw [List.forall_mem_map, List.forall_mem_map, List.flatMap_map] at hspec
    refine (hspec (fun buffer hbuffer => (flushTsv_spec (hwf buffer hbuffer)).2) ?_).1
    intro buffer hbuffer d hd
    rw [(flushTsv_spec (hwf buffer hbuffer)).1] at hd
    obtain ⟨e, he, rfl⟩ := List.mem_map.mp hd
    exact noReturns_encodeDocument.mpr ⟨(hwf buffer hbuffer e he).idReturn, hret buffer hbuffer e he⟩

theorem merge_keeps_iff_noReturn_plain :
    ∃ merged, mergeTsv ([[(['a'], ['x'])], [(['b'], ['y'])]].map flushTsv) = some merged ∧
      documents merged = [⟨[0x61], [0x78]⟩, ⟨[0x62], [0x79]⟩] :=
  (merge_keeps_iff_noReturn [[(['a'], ['x'])], [(['b'], ['y'])]] (by
    simp only [List.forall_mem_cons, List.not_mem_nil, false_imp_iff, implies_true, and_true]
    constructor <;> constructor <;> decide)).mpr (by decide)

/-- The text `x\ry` of a single flushed document is cut to `x` by the merge. -/
theorem merge_cuts_at_return :
    WellFormed (['a'], ['x', '\r', 'y']) ∧
    documents (flushTsv [(['a'], ['x', '\r', 'y'])]) = [⟨[0x61], [0x78, 0x0D, 0x79]⟩] ∧
    (mergeTsv [flushTsv [(['a'], ['x', '\r', 'y'])]]).map documents = some [⟨[0x61], [0x78]⟩] := by
  constructor
  · constructor <;> decide
  · constructor
    · decide
    · have hmerge := mergeTsv_encode [tsvLine (['a'], ['x', '\r', 'y'])]
      have hdocs : documents (encode ([tsvLine (['a'], ['x', '\r', 'y'])].map universalNewlines).flatten) =
          [⟨[0x61], [0x78]⟩] := by decide
      rw [← hdocs]
      exact congrArg (Option.map documents) hmerge

end CascadeSearch.Nrt.Tsv
