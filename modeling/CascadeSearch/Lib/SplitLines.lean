import CascadeSearch.Lib.TextFile

/-!
# `str.splitlines`

Python breaks a line at ten characters, of which a text file's reader knows
only `\n`. A line that holds other breaks comes apart into as many pieces more.
-/
namespace CascadeSearch.Lib.SplitLines

open Lib.TextFile

/-- The boundaries of `str.splitlines`. -/
def lineBreaks : Text :=
  ['\n', '\r', '\x0b', '\x0c', '\x1c', '\x1d', '\x1e', '\u0085', '\u2028', '\u2029']

def isLineBreak (c : Char) : Bool := c ∈ lineBreaks

/-- `splitlines(keepends=True)`; `line` is what stands before `text` on its line. -/
def splitlinesFrom : (line text : Text) → List Text
  | line, [] => if line = [] then [] else [line]
  | line, '\r' :: '\n' :: text => (line ++ ['\r', '\n']) :: splitlinesFrom [] text
  | line, c :: text =>
      if isLineBreak c then (line ++ [c]) :: splitlinesFrom [] text else splitlinesFrom (line ++ [c]) text

def splitlines (text : Text) : List Text := splitlinesFrom [] text

/-- One character that is not a carriage return. -/
theorem splitlinesFrom_cons {c : Char} (hc : c ≠ '\r') (line text : Text) :
    splitlinesFrom line (c :: text) =
      if isLineBreak c then (line ++ [c]) :: splitlinesFrom [] text else splitlinesFrom (line ++ [c]) text := by
  rw [splitlinesFrom]
  exact fun text' h _ => hc h

/-- The pieces put together are the text. -/
theorem flatten_splitlinesFrom (line text : Text) : (splitlinesFrom line text).flatten = line ++ text := by
  induction line, text using splitlinesFrom.induct with
  | case1 => rfl
  | case2 line hne => rw [splitlinesFrom, if_neg hne, List.flatten_singleton, List.append_nil]
  | case3 line text ih =>
    rw [splitlinesFrom, List.flatten_cons, ih, List.append_assoc]
    rfl
  | case4 line c text _ hbreak ih =>
    rw [splitlinesFrom, if_pos hbreak, List.flatten_cons, ih, List.append_assoc]
    · rfl
    · assumption
  | case5 line c text _ hbreak ih =>
    rw [splitlinesFrom, if_neg hbreak, ih, List.append_assoc]
    · rfl
    · assumption

theorem flatten_splitlines (text : Text) : (splitlines text).flatten = text := flatten_splitlinesFrom [] text

theorem ne_nil_of_mem_splitlinesFrom (line text : Text) : ∀ piece ∈ splitlinesFrom line text, piece ≠ [] := by
  induction line, text using splitlinesFrom.induct with
  | case1 => exact fun piece hpiece => absurd hpiece List.not_mem_nil
  | case2 line hne =>
    rw [splitlinesFrom, if_neg hne]
    exact List.forall_mem_singleton.mpr hne
  | case3 line text ih =>
    rw [splitlinesFrom]
    exact List.forall_mem_cons.mpr ⟨by simp, ih⟩
  | case4 line c text _ hbreak ih =>
    rw [splitlinesFrom, if_pos hbreak]
    · exact List.forall_mem_cons.mpr ⟨by simp, ih⟩
    · assumption
  | case5 line c text _ hbreak ih =>
    rw [splitlinesFrom, if_neg hbreak]
    · exact ih
    · assumption

/-- What follows a newline starts a piece of its own. -/
theorem splitlinesFrom_newline {text : Text} (hreturn : '\r' ∉ text) (rest : Text) :
    ∀ line, splitlinesFrom line (text ++ '\n' :: rest) = splitlinesFrom line (text ++ ['\n']) ++ splitlines rest := by
  induction text with
  | nil =>
    intro line
    rw [List.nil_append, List.nil_append, splitlinesFrom_cons (by decide), splitlinesFrom_cons (by decide)]
    rfl
  | cons c text ih =>
    intro line
    obtain ⟨hc, htext⟩ := not_or.mp (mt List.mem_cons.mpr hreturn)
    rw [List.cons_append, List.cons_append, splitlinesFrom_cons (Ne.symm hc), splitlinesFrom_cons (Ne.symm hc)]
    split
    · rw [ih htext, List.cons_append]
    · exact ih htext _

/-- The pieces a line of a file comes apart into, its newline included. -/
def pieces (line : Text) : List Text := splitlines (line ++ ['\n'])

/-- The number of pieces of a line. -/
def weight (line : Text) : Nat := line.countP isLineBreak + 1

theorem flatten_pieces (line : Text) : (pieces line).flatten = line ++ ['\n'] := flatten_splitlines _

/-- Only the last piece has the newline. -/
theorem pieces_shape {line : Text} (hreturn : '\r' ∉ line) (hnewline : '\n' ∉ line) :
    ∃ init last, pieces line = init ++ [last ++ ['\n']] ∧ init.length = line.countP isLineBreak ∧
      ∀ piece ∈ init, '\n' ∉ piece := by
  have hfrom : ∀ front : Text, '\n' ∉ front → ∃ init last,
      splitlinesFrom front (line ++ ['\n']) = init ++ [last ++ ['\n']] ∧
        init.length = line.countP isLineBreak ∧ ∀ piece ∈ init, '\n' ∉ piece := by
    induction line with
    | nil =>
      intro front _
      exact ⟨[], front, by rw [List.nil_append, splitlinesFrom_cons (by decide)]; rfl, rfl,
        fun piece hpiece => absurd hpiece List.not_mem_nil⟩
    | cons c line ih =>
      intro front hfront
      obtain ⟨hr, hreturn⟩ := not_or.mp (mt List.mem_cons.mpr hreturn)
      obtain ⟨hn, hnewline⟩ := not_or.mp (mt List.mem_cons.mpr hnewline)
      have hpiece : '\n' ∉ front ++ [c] := by
        rw [List.mem_append, List.mem_singleton]
        exact not_or.mpr ⟨hfront, hn⟩
      rw [List.cons_append, splitlinesFrom_cons (Ne.symm hr)]
      by_cases hbreak : isLineBreak c = true
      · obtain ⟨init, last, heq, hlen, hinit⟩ := ih hreturn hnewline [] List.not_mem_nil
        refine ⟨(front ++ [c]) :: init, last, ?_, ?_, ?_⟩
        · rw [if_pos hbreak, heq, List.cons_append]
        · rw [List.length_cons, hlen, List.countP_cons_of_pos hbreak]
        · intro piece hmem
          rcases List.mem_cons.mp hmem with rfl | hmem
          · exact hpiece
          · exact hinit piece hmem
      · obtain ⟨init, last, heq, hlen, hinit⟩ := ih hreturn hnewline (front ++ [c]) hpiece
        refine ⟨init, last, ?_, ?_, hinit⟩
        · rw [if_neg hbreak, heq]
        · rw [hlen, List.countP_cons_of_neg hbreak]
  exact hfrom [] List.not_mem_nil

theorem length_pieces {line : Text} (hreturn : '\r' ∉ line) (hnewline : '\n' ∉ line) :
    (pieces line).length = weight line := by
  obtain ⟨init, last, heq, hlen, -⟩ := pieces_shape hreturn hnewline
  rw [heq, List.length_append, hlen]
  rfl

/-- The text of a file of lines. -/
def unlines (lines : List Text) : Text := lines.flatMap (· ++ ['\n'])

theorem unlines_append (lines lines' : List Text) : unlines (lines ++ lines') = unlines lines ++ unlines lines' :=
  List.flatMap_append

theorem flatten_flatMap_pieces (lines : List Text) : (lines.flatMap pieces).flatten = unlines lines := by
  induction lines with
  | nil => rfl
  | cons line lines ih =>
    rw [List.flatMap_cons, List.flatten_append, flatten_pieces, ih]
    rfl

theorem length_flatMap_pieces {lines : List Text} (hreturn : ∀ line ∈ lines, '\r' ∉ line)
    (hnewline : ∀ line ∈ lines, '\n' ∉ line) : (lines.flatMap pieces).length = (lines.map weight).sum := by
  rw [List.length_flatMap]
  congr 1
  exact List.map_congr_left fun line hline => length_pieces (hreturn line hline) (hnewline line hline)

/-- A text that ends with a newline is made of lines. -/
theorem exists_unlines (text : Text) :
    ∃ lines, (∀ line ∈ lines, '\n' ∉ line) ∧ unlines lines = text ++ ['\n'] := by
  induction text with
  | nil => exact ⟨[[]], by simp, rfl⟩
  | cons c text ih =>
    obtain ⟨lines, hlines, heq⟩ := ih
    cases lines with
    | nil => exact absurd heq.symm (by simp [unlines])
    | cons line lines =>
      by_cases hc : c = '\n'
      · refine ⟨[] :: line :: lines, List.forall_mem_cons.mpr ⟨List.not_mem_nil, hlines⟩, ?_⟩
        rw [hc, List.cons_append, ← heq]
        rfl
      · refine ⟨(c :: line) :: lines, List.forall_mem_cons.mpr ⟨?_, fun l hl => hlines l (List.mem_cons_of_mem _ hl)⟩, ?_⟩
        · exact List.not_mem_cons_of_ne_of_not_mem (Ne.symm hc) (hlines line List.mem_cons_self)
        · rw [List.cons_append, ← heq]
          rfl

theorem splitlines_unlines {lines : List Text} (hreturn : ∀ line ∈ lines, '\r' ∉ line) :
    splitlines (unlines lines) = lines.flatMap pieces := by
  induction lines with
  | nil => rfl
  | cons line lines ih =>
    have hunlines : unlines (line :: lines) = line ++ '\n' :: unlines lines := by
      rw [unlines, List.flatMap_cons, List.append_assoc]
      rfl
    rw [hunlines, splitlines, splitlinesFrom_newline (hreturn line List.mem_cons_self),
      ih fun l hl => hreturn l (List.mem_cons_of_mem _ hl), List.flatMap_cons]
    rfl

/-- A piece that ends with a newline ends a line: cutting the pieces behind such
a one cuts the lines. -/
theorem cut_pieces {lines : List Text} (hreturn : ∀ line ∈ lines, '\r' ∉ line)
    (hnewline : ∀ line ∈ lines, '\n' ∉ line) :
    ∀ {group rest : List Text}, group ++ rest = lines.flatMap pieces →
      (∀ piece ∈ group.getLast?, '\n' ∈ piece) →
      ∃ front back, lines = front ++ back ∧ group = front.flatMap pieces ∧ rest = back.flatMap pieces := by
  induction lines with
  | nil =>
    intro group rest heq _
    obtain ⟨rfl, rfl⟩ := List.append_eq_nil_iff.mp heq
    exact ⟨[], [], rfl, rfl, rfl⟩
  | cons line lines ih =>
    intro group rest heq hlast
    rw [List.flatMap_cons] at heq
    obtain ⟨init, last, hpieces, -, hinit⟩ :=
      pieces_shape (hreturn line List.mem_cons_self) (hnewline line List.mem_cons_self)
    rcases List.append_eq_append_iff.mp heq with ⟨more, hline, hrest⟩ | ⟨more, hgroup, htail⟩
    · -- The cut is inside this line, so it is in front of it or behind it.
      rcases List.eq_nil_or_concat group with rfl | ⟨front, piece, rfl⟩
      · refine ⟨[], line :: lines, rfl, rfl, ?_⟩
        rw [List.flatMap_cons, hrest, hline]
        rfl
      · have hpiece : '\n' ∈ piece := hlast piece (by rw [List.concat_eq_append, List.getLast?_concat]; rfl)
        rcases List.eq_nil_or_concat more with rfl | ⟨more, end', rfl⟩
        · refine ⟨[line], lines, rfl, ?_, hrest⟩
          rw [List.flatMap_singleton, hline, List.append_nil]
        · rw [hpieces, List.concat_eq_append, List.concat_eq_append, ← List.append_assoc] at hline
          have hmem : piece ∈ init := by
            rw [(List.append_inj_left' hline rfl), List.append_assoc]
            exact List.mem_append_right _ List.mem_cons_self
          exact absurd hpiece (hinit piece hmem)
    · obtain ⟨front, back, rfl, hfront, hback⟩ := ih (fun l hl => hreturn l (List.mem_cons_of_mem _ hl))
        (fun l hl => hnewline l (List.mem_cons_of_mem _ hl)) htail.symm (by
          intro piece hpiece
          apply hlast piece
          rw [hgroup, List.getLast?_append, hpiece]
          rfl)
      refine ⟨line :: front, back, rfl, ?_, hback⟩
      rw [List.flatMap_cons, ← hfront, hgroup]

/-- The same for a cut into any number of groups. -/
theorem cut_groups {groups : List (List Text)} :
    ∀ {lines : List Text}, (∀ line ∈ lines, '\r' ∉ line) → (∀ line ∈ lines, '\n' ∉ line) →
      groups.flatten = lines.flatMap pieces → (∀ group ∈ groups, ∀ piece ∈ group.getLast?, '\n' ∈ piece) →
      ∃ shares : List (List Text), shares.flatten = lines ∧ groups = shares.map (List.flatMap pieces) := by
  induction groups with
  | nil =>
    intro lines _ _ heq _
    cases lines with
    | nil => exact ⟨[], rfl, rfl⟩
    | cons line lines =>
      have hnil := congrArg List.flatten heq
      rw [List.flatMap_cons, List.flatten_append, flatten_pieces] at hnil
      exact absurd hnil (by simp)
  | cons group groups ih =>
    intro lines hreturn hnewline heq hlast
    obtain ⟨front, back, rfl, hfront, hback⟩ := cut_pieces hreturn hnewline heq (hlast group List.mem_cons_self)
    obtain ⟨shares, hshares, hgroups⟩ := ih (fun l hl => hreturn l (List.mem_append_right _ hl))
      (fun l hl => hnewline l (List.mem_append_right _ hl)) hback fun g hg => hlast g (List.mem_cons_of_mem _ hg)
    exact ⟨front :: shares, by rw [List.flatten_cons, hshares], by rw [List.map_cons, ← hfront, hgroups]⟩

end CascadeSearch.Lib.SplitLines
