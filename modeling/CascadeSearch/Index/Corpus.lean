import CascadeSearch.Index.Format

/-!
# Reading a corpus (`builder.cc`, line parsing loop)

`std::getline` splits the bytes at `\n` only; an unterminated last line counts
if it is not empty. A line is accepted if it has a tab: the external id is what
stands before the first one, the text what follows it.
-/
namespace CascadeSearch.Index.Corpus

open Format

def newline : Byte := 0x0A
def tab : Byte := 0x09

structure Document where
  externalId : Str
  text : Str
deriving DecidableEq

/-- `std::getline` until it fails; `line` is what it has extracted so far. -/
def getlinesFrom : (line file : Str) → List Str
  | line, [] => if line = [] then [] else [line]
  | line, c :: file =>
      if c = newline then line :: getlinesFrom [] file else getlinesFrom (line ++ [c]) file

def getlines (file : Str) : List Str := getlinesFrom [] file

/-- `line.find('\t')` and the two substrings around it. -/
def parseLine (line : Str) : Option Document :=
  let pos := line.idxOf tab
  if pos = line.length then none else some ⟨line.take pos, line.drop (pos + 1)⟩

/-- The documents of a corpus file, in docid order. -/
def documents (file : Str) : List Document := (getlines file).filterMap parseLine

/-- Every line of the file ends with a newline. -/
def Terminated (file : Str) : Prop := ∀ c ∈ file.getLast?, c = newline

theorem mem_getlinesFrom {l : Str} (file : Str) :
    ∀ line, l ∈ getlinesFrom line file → ∀ c ∈ l, c ∈ line ∨ (c ∈ file ∧ c ≠ newline) := by
  induction file with
  | nil =>
    intro line hl c hc
    rw [getlinesFrom] at hl
    split at hl
    · cases hl
    · rw [List.mem_singleton.mp hl] at hc
      exact Or.inl hc
  | cons x file ih =>
    intro line hl c hc
    rw [getlinesFrom] at hl
    split at hl
    · rcases List.mem_cons.mp hl with rfl | hl
      · exact Or.inl hc
      · rcases ih [] hl c hc with h | ⟨h, hne⟩
        · cases h
        · exact Or.inr ⟨List.mem_cons_of_mem _ h, hne⟩
    · rename_i hx
      rcases ih _ hl c hc with h | ⟨h, hne⟩
      · rcases List.mem_append.mp h with h | h
        · exact Or.inl h
        · rw [List.mem_singleton.mp h]
          exact Or.inr ⟨List.mem_cons_self, hx⟩
      · exact Or.inr ⟨List.mem_cons_of_mem _ h, hne⟩

theorem mem_getlines {file l : Str} (hl : l ∈ getlines file) {c : Byte} (hc : c ∈ l) :
    c ∈ file ∧ c ≠ newline := by
  rcases mem_getlinesFrom file [] hl c hc with h | h
  · cases h
  · exact h

theorem getlinesFrom_append {file : Str} (h : Terminated file) (rest : Str) :
    ∀ line, (file = [] → line = []) →
      getlinesFrom line (file ++ rest) = getlinesFrom line file ++ getlines rest := by
  induction file with
  | nil =>
    intro line hline
    rw [hline rfl]
    rfl
  | cons c file ih =>
    intro line _
    have htail : Terminated file := by
      intro x hx
      apply h x
      cases file with
      | nil => cases hx
      | cons y file => exact hx
    rw [List.cons_append, getlinesFrom, getlinesFrom]
    split
    · rw [ih htail [] fun _ => rfl, List.cons_append]
    · rename_i hc
      apply ih htail
      intro hnil
      rw [hnil] at h
      exact absurd (h c rfl) hc

/-- The lines of a terminated file stay apart from those of what follows it. -/
theorem getlines_append {file : Str} (h : Terminated file) (rest : Str) :
    getlines (file ++ rest) = getlines file ++ getlines rest :=
  getlinesFrom_append h rest [] fun _ => rfl

theorem documents_append {file : Str} (h : Terminated file) (rest : Str) :
    documents (file ++ rest) = documents file ++ documents rest := by
  rw [documents, getlines_append h, List.filterMap_append]
  rfl

theorem terminated_nil : Terminated [] := fun _ h => by cases h

theorem terminated_concat (line : Str) : Terminated (line ++ [newline]) := fun c h => by
  rw [List.getLast?_concat] at h
  exact (Option.some.inj h).symm

theorem Terminated.append {file file' : Str} (h : Terminated file) (h' : Terminated file') :
    Terminated (file ++ file') := by
  intro c hc
  rw [List.getLast?_append] at hc
  cases hlast : file'.getLast? with
  | none =>
    rw [hlast, Option.none_or] at hc
    exact h c hc
  | some last =>
    rw [hlast, Option.some_or] at hc
    cases hc
    exact h' _ hlast

theorem terminated_flatten {files : List Str} (h : ∀ file ∈ files, Terminated file) :
    Terminated files.flatten := by
  induction files with
  | nil => exact terminated_nil
  | cons file files ih =>
    rw [List.flatten_cons]
    exact (h file List.mem_cons_self).append (ih fun f hf => h f (List.mem_cons_of_mem _ hf))

theorem documents_flatten {files : List Str} (h : ∀ file ∈ files, Terminated file) :
    documents files.flatten = files.flatMap documents := by
  induction files with
  | nil => rfl
  | cons file files ih =>
    rw [List.flatten_cons, documents_append (h file List.mem_cons_self),
      ih fun f hf => h f (List.mem_cons_of_mem _ hf), List.flatMap_cons]

theorem getlinesFrom_line {l : Str} (h : newline ∉ l) :
    ∀ line, getlinesFrom line l = if line ++ l = [] then [] else [line ++ l] := by
  induction l with
  | nil =>
    intro line
    rw [getlinesFrom, List.append_nil]
  | cons c l ih =>
    intro line
    obtain ⟨hc, hl⟩ := not_or.mp (mt List.mem_cons.mpr h)
    rw [getlinesFrom, if_neg (Ne.symm hc), ih hl, List.append_assoc]
    rfl

theorem getlines_line {l : Str} (h : newline ∉ l) (hne : l ≠ []) : getlines l = [l] := by
  rw [getlines, getlinesFrom_line h, List.nil_append, if_neg hne]

theorem getlinesFrom_concat {l : Str} (h : newline ∉ l) :
    ∀ line, getlinesFrom line (l ++ [newline]) = [line ++ l] := by
  induction l with
  | nil =>
    intro line
    rw [List.nil_append, getlinesFrom, if_pos rfl, List.append_nil]
    rfl
  | cons c l ih =>
    intro line
    obtain ⟨hc, hl⟩ := not_or.mp (mt List.mem_cons.mpr h)
    rw [List.cons_append, getlinesFrom, if_neg (Ne.symm hc), ih hl, List.append_assoc]
    rfl

theorem getlines_concat {l : Str} (h : newline ∉ l) : getlines (l ++ [newline]) = [l] :=
  getlinesFrom_concat h []

theorem parseLine_of_notMem {line : Str} (h : tab ∉ line) : parseLine line = none := by
  rw [parseLine, List.idxOf_eq_length h]
  exact if_pos rfl

theorem parseLine_tab {externalId : Str} (h : tab ∉ externalId) (text : Str) :
    parseLine (externalId ++ tab :: text) = some ⟨externalId, text⟩ := by
  have hpos : (externalId ++ tab :: text).idxOf tab = externalId.length := by
    rw [List.idxOf_append_of_notMem h, List.idxOf_cons_self, Nat.add_zero]
  have hne : externalId.length ≠ (externalId ++ tab :: text).length := by simp
  rw [parseLine, hpos]
  simp only [if_neg hne, List.take_left' rfl, ← List.drop_drop, List.drop_left' rfl]
  rfl

/-- An accepted line is its document, joined by the first tab. -/
theorem parseLine_eq_some {line : Str} {d : Document} (h : parseLine line = some d) :
    line = d.externalId ++ tab :: d.text ∧ tab ∉ d.externalId := by
  by_cases htab : tab ∈ line
  · obtain ⟨externalId, text, rfl, hid⟩ := List.eq_append_cons_of_mem htab
    rw [parseLine_tab hid] at h
    cases h
    exact ⟨rfl, hid⟩
  · rw [parseLine_of_notMem htab] at h
    cases h

/-- Lines without a tab leave no document. -/
theorem documents_of_notMem {file : Str} (h : tab ∉ file) : documents file = [] := by
  rw [documents, List.filterMap_eq_nil_iff]
  intro line hline
  exact parseLine_of_notMem fun htab => h (mem_getlines hline htab).1

theorem documents_line {externalId text : Str} (hid : tab ∉ externalId)
    (hline : newline ∉ externalId ++ tab :: text) :
    documents (externalId ++ tab :: text ++ [newline]) = [⟨externalId, text⟩] := by
  rw [documents, getlines_concat hline, List.filterMap_cons, parseLine_tab hid, List.filterMap_nil]

/-- A document holds only bytes of the file, and no newline. -/
theorem mem_of_mem_documents {file : Str} {d : Document} (h : d ∈ documents file) :
    d.externalId ++ tab :: d.text ∈ getlines file := by
  obtain ⟨line, hline, hd⟩ := List.mem_filterMap.mp h
  rw [← (parseLine_eq_some hd).1]
  exact hline

end CascadeSearch.Index.Corpus
