import CascadeSearch.Dense.Subset
import CascadeSearch.Lib.LastWriter

/-!
# Encoding the passages (`encode.py`)

The rows are written chunk by chunk to a staged file, which is then renamed; the
docids are saved after it, in place. An attempt can stop, or be stopped, between
any two writes.
-/
namespace CascadeSearch.Dense.Encode

open Lib.TextFile Lib.LastWriter
open Nrt.MergePolicy (sliceTo)

variable {V : Type}

/-- `memmap[start:end] = rows`. -/
def assignRows (array : List V) (start : Nat) (rows : List V) : List V :=
  array.take start ++ (rows ++ array.drop (start + rows.length))

/-- A file that `np.save` overwrites in place. -/
inductive Saved (α : Type) where
  | torn
  | whole (rows : List α)
deriving DecidableEq

structure Disk (V : Type) where
  staged : Option (List V)
  embeddings : Option (List V)
  docids : Option (Saved Nat)

/-- `stage` is `open_memmap`, and `replace` the rename; `np.save` opens the file
before it writes to it. -/
inductive Write (V : Type) where
  | stage (count : Nat)
  | assign (start : Nat) (rows : List V)
  | replace
  | openDocids
  | saveDocids (docids : List Nat)

/-- What a file holds where nothing has been written is `zero`. -/
def Write.apply (zero : V) (disk : Disk V) : Write V → Disk V
  | .stage count => { disk with staged := some (List.replicate count zero) }
  | .assign start rows => { disk with staged := disk.staged.map fun array => assignRows array start rows }
  | .replace => { disk with staged := none, embeddings := disk.staged }
  | .openDocids => { disk with docids := some .torn }
  | .saveDocids docids => { disk with docids := some (.whole docids) }

/-- `range(0, total, chunkSize)`. -/
def chunkStarts (total chunkSize : Nat) : List Nat :=
  (List.range ((total + chunkSize - 1) / chunkSize)).map (· * chunkSize)

/-- The writes of `encode_passages_to_file` before the rename, where `model.encode`
gives each text its row. -/
def stagedWrites (embed : Text → V) (chunkSize : Nat) (texts : List Text) : List (Write V) :=
  .stage texts.length :: (chunkStarts texts.length chunkSize).map fun start =>
    .assign start (((texts.drop start).take chunkSize).map embed)

/-- A run of `main` as far as the passages: what `load_subset_texts` returned,
`args.limit`, and the number of writes that were done. -/
structure Attempt where
  loadedTexts : List Text
  loadedDocids : List Nat
  aligned : loadedTexts.length = loadedDocids.length
  limit : Option Int
  done : Nat

/-- `rows[: args.limit]`. -/
def limited {α : Type} (limit : Option Int) (rows : List α) : List α :=
  match limit with
  | none => rows
  | some limit => sliceTo rows limit

def Attempt.texts (a : Attempt) : List Text := limited a.limit a.loadedTexts

def Attempt.docids (a : Attempt) : List Nat := limited a.limit a.loadedDocids

/-- The writes of an attempt that runs to its end. -/
def Attempt.writes (embed : Text → V) (chunkSize : Nat) (a : Attempt) : List (Write V) :=
  stagedWrites embed chunkSize a.texts ++ [.replace, .openDocids, .saveDocids a.docids]

def attempt (embed : Text → V) (zero : V) (chunkSize : Nat) (disk : Disk V) (a : Attempt) : Disk V :=
  ((a.writes embed chunkSize).take a.done).foldl (Write.apply zero) disk

def emptyDisk : Disk V := ⟨none, none, none⟩

/-- One attempt after the other. -/
def attempts (embed : Text → V) (zero : V) (chunkSize : Nat) (disk : Disk V) (as : List Attempt) : Disk V :=
  as.foldl (attempt embed zero chunkSize) disk

/-- What `ground_truth.py` loads and asserts; `none` if it raises. -/
def loadPair (subsetSize : Nat) (disk : Disk V) : Option (List V × List Nat) :=
  match disk.embeddings, disk.docids with
  | some embeddings, some (.whole docids) =>
      if embeddings.length = subsetSize ∧ docids.length = embeddings.length then some (embeddings, docids) else none
  | _, _ => none

theorem assignRows_append (done rest rows : List V) :
    assignRows (done ++ rest) done.length rows = (done ++ rows) ++ rest.drop rows.length := by
  rw [assignRows, List.take_left, List.drop_append, List.drop_eq_nil_of_le (Nat.le_add_right _ _),
    Nat.add_sub_cancel_left, List.nil_append, List.append_assoc]

/-- After some chunks the rows of the texts so far are in place. -/
theorem assigned_chunks (embed : Text → V) (zero : V) (chunkSize : Nat) (texts : List Text) (disk : Disk V)
    (hstaged : disk.staged = some (List.replicate texts.length zero)) (m : Nat) (hm : m * chunkSize ≤ texts.length + chunkSize) :
    (((List.range m).map (· * chunkSize)).map fun start =>
        Write.assign start (((texts.drop start).take chunkSize).map embed)).foldl (Write.apply zero) disk =
      { disk with staged := some ((texts.take (m * chunkSize)).map embed ++
          List.replicate (texts.length - m * chunkSize) zero) } := by
  induction m with
  | zero => simp [← hstaged]
  | succ m ih =>
    rw [Nat.succ_mul] at hm
    have hlength : ((texts.take (m * chunkSize)).map embed).length = m * chunkSize := by
      rw [List.length_map, List.length_take]
      omega
    have hrows : (((texts.drop (m * chunkSize)).take chunkSize).map embed).length =
        min chunkSize (texts.length - m * chunkSize) := by
      rw [List.length_map, List.length_take, List.length_drop]
    rw [List.range_succ, List.map_append, List.map_append, List.foldl_append, ih (by omega)]
    simp only [List.map_cons, List.map_nil, List.foldl_cons, List.foldl_nil, Write.apply, Option.map_some]
    congr 2
    have hassign := assignRows_append ((texts.take (m * chunkSize)).map embed)
      (List.replicate (texts.length - m * chunkSize) zero) (((texts.drop (m * chunkSize)).take chunkSize).map embed)
    rw [hlength] at hassign
    rw [hassign, ← List.map_append, ← List.take_add, Nat.succ_mul, List.drop_replicate, hrows]
    congr 2
    omega

theorem length_chunkStarts (total chunkSize : Nat) :
    (chunkStarts total chunkSize).length = (total + chunkSize - 1) / chunkSize := by
  rw [chunkStarts, List.length_map, List.length_range]

/-- Before the rename the staged file holds every row. -/
theorem foldl_stagedWrites (embed : Text → V) (zero : V) {chunkSize : Nat} (hchunk : 0 < chunkSize) (texts : List Text)
    (disk : Disk V) : (stagedWrites embed chunkSize texts).foldl (Write.apply zero) disk =
      { disk with staged := some (texts.map embed) } := by
  have hdiv := Nat.div_add_mod (texts.length + chunkSize - 1) chunkSize
  have hmod := Nat.mod_lt (texts.length + chunkSize - 1) hchunk
  rw [Nat.mul_comm] at hdiv
  have hassigned := assigned_chunks embed zero chunkSize texts
    { disk with staged := some (List.replicate texts.length zero) } rfl
    ((texts.length + chunkSize - 1) / chunkSize) (by omega)
  have hall : texts.length ≤ (texts.length + chunkSize - 1) / chunkSize * chunkSize := by omega
  rw [List.take_of_length_le hall, Nat.sub_eq_zero_of_le hall, List.replicate_zero, List.append_nil] at hassigned
  exact hassigned

/-- The writes before the rename touch neither of the other files. -/
theorem foldl_staged_prefix (embed : Text → V) (zero : V) (chunkSize : Nat) (texts : List Text) (k : Nat) (disk : Disk V) :
    (((stagedWrites embed chunkSize texts).take k).foldl (Write.apply zero) disk).embeddings = disk.embeddings ∧
    (((stagedWrites embed chunkSize texts).take k).foldl (Write.apply zero) disk).docids = disk.docids := by
  have hquiet : ∀ write ∈ stagedWrites embed chunkSize texts, ∀ disk : Disk V,
      (write.apply zero disk).embeddings = disk.embeddings ∧ (write.apply zero disk).docids = disk.docids := by
    intro write hwrite disk
    rcases List.mem_cons.mp hwrite with rfl | hwrite
    · exact ⟨rfl, rfl⟩
    · obtain ⟨start, -, rfl⟩ := List.mem_map.mp hwrite
      exact ⟨rfl, rfl⟩
  generalize hfront : (stagedWrites embed chunkSize texts).take k = front
  have hmem : ∀ write ∈ front, write ∈ stagedWrites embed chunkSize texts := by
    rw [← hfront]
    exact fun write hwrite => List.mem_of_mem_take hwrite
  clear hfront
  induction front generalizing disk with
  | nil => exact ⟨rfl, rfl⟩
  | cons write front ih =>
    obtain ⟨hwrite, hfront⟩ := List.forall_mem_cons.mp hmem
    obtain ⟨hembeddings, hdocids⟩ := ih (write.apply zero disk) hfront
    obtain ⟨hembeddings', hdocids'⟩ := hquiet write hwrite disk
    exact ⟨hembeddings.trans hembeddings', hdocids.trans hdocids'⟩

/-- The writes before the rename. -/
def Attempt.front (chunkSize : Nat) (a : Attempt) : Nat := (a.texts.length + chunkSize - 1) / chunkSize + 1

theorem length_stagedWrites (embed : Text → V) (chunkSize : Nat) (a : Attempt) :
    (stagedWrites embed chunkSize a.texts).length = a.front chunkSize := by
  rw [stagedWrites, List.length_cons, List.length_map, length_chunkStarts]
  rfl

/-- Not renamed yet. -/
def Attempt.Unpublished (chunkSize : Nat) (a : Attempt) : Prop := a.done ≤ a.front chunkSize

/-- Renamed, and the docids not touched yet. -/
def Attempt.Between (chunkSize : Nat) (a : Attempt) : Prop := a.done = a.front chunkSize + 1

/-- The docids opened and not saved. -/
def Attempt.Torn (chunkSize : Nat) (a : Attempt) : Prop := a.done = a.front chunkSize + 2

def Attempt.Finished (chunkSize : Nat) (a : Attempt) : Prop := a.front chunkSize + 3 ≤ a.done

theorem Attempt.stopped (chunkSize : Nat) (a : Attempt) :
    a.Unpublished chunkSize ∨ a.Between chunkSize ∨ a.Torn chunkSize ∨ a.Finished chunkSize := by
  simp only [Unpublished, Between, Torn, Finished]
  omega

/-- The two files that others read. -/
def Disk.pair (disk : Disk V) : Option (List V) × Option (Saved Nat) := (disk.embeddings, disk.docids)

section Outcomes

variable (embed : Text → V) (zero : V) {chunkSize : Nat} (disk : Disk V) {a : Attempt}

theorem attempt_unpublished (h : a.Unpublished chunkSize) : (attempt embed zero chunkSize disk a).pair = disk.pair := by
  rw [attempt, Attempt.writes, List.take_append_of_le_length (by rw [length_stagedWrites]; exact h)]
  obtain ⟨hembeddings, hdocids⟩ := foldl_staged_prefix embed zero chunkSize a.texts a.done disk
  exact Prod.ext hembeddings hdocids

/-- After the rename only the docids are left to do. -/
theorem attempt_published (hchunk : 0 < chunkSize) (k : Nat) (h : a.done = a.front chunkSize + (k + 1)) :
    attempt embed zero chunkSize disk a =
      (([.openDocids, .saveDocids a.docids] : List (Write V)).take k).foldl (Write.apply zero)
        ⟨none, some (a.texts.map embed), disk.docids⟩ := by
  rw [attempt, Attempt.writes, h, ← length_stagedWrites embed, List.take_length_add_append, List.take_succ_cons,
    List.foldl_append, foldl_stagedWrites embed zero hchunk]
  rfl

theorem attempt_between (hchunk : 0 < chunkSize) (h : a.Between chunkSize) :
    (attempt embed zero chunkSize disk a).pair = (some (a.texts.map embed), disk.docids) := by
  rw [attempt_published embed zero disk hchunk 0 h]
  rfl

theorem attempt_torn (hchunk : 0 < chunkSize) (h : a.Torn chunkSize) :
    (attempt embed zero chunkSize disk a).pair = (some (a.texts.map embed), some .torn) := by
  rw [attempt_published embed zero disk hchunk 1 h]
  rfl

theorem attempt_finished (hchunk : 0 < chunkSize) (h : a.Finished chunkSize) :
    (attempt embed zero chunkSize disk a).pair = (some (a.texts.map embed), some (.whole a.docids)) := by
  obtain ⟨k, hk⟩ := Nat.exists_eq_add_of_le h
  rw [attempt_published embed zero disk hchunk (k + 2) (by omega), List.take_of_length_le (Nat.le_add_left 2 k)]
  rfl

end Outcomes

/-- Renamed its file, and none after it did. -/
def RenamedBy (chunkSize : Nat) : List Attempt → List Attempt → Attempt → Prop :=
  LastOf (¬ ·.Unpublished chunkSize) (·.Unpublished chunkSize)

/-- Saved the docids, and none after it opened their file. -/
def SavedBy (chunkSize : Nat) : List Attempt → List Attempt → Attempt → Prop :=
  LastOf (·.Finished chunkSize) fun c => c.Unpublished chunkSize ∨ c.Between chunkSize

theorem finished_not_kept {chunkSize : Nat} (a : Attempt) (h : a.Finished chunkSize) :
    ¬ (a.Unpublished chunkSize ∨ a.Between chunkSize) := by
  simp only [Attempt.Finished, Attempt.Unpublished, Attempt.Between] at *
  omega

theorem Attempt.torn_iff {chunkSize : Nat} {a : Attempt} :
    a.Torn chunkSize ↔ ¬ a.Finished chunkSize ∧ ¬ (a.Unpublished chunkSize ∨ a.Between chunkSize) := by
  simp only [Torn, Finished, Unpublished, Between]
  omega

/-- The docids, if they were saved to the end. -/
def savedDocids (disk : Disk V) : Option (List Nat) :=
  match disk.docids with
  | some (.whole docids) => some docids
  | _ => none

theorem loadPair_eq_some_iff {subsetSize : Nat} {disk : Disk V} {rows : List V} {docids : List Nat} :
    loadPair subsetSize disk = some (rows, docids) ↔
      (disk.embeddings = some rows ∧ savedDocids disk = some docids) ∧ rows.length = subsetSize ∧
        docids.length = subsetSize := by
  obtain ⟨staged, embeddings, saved⟩ := disk
  rcases embeddings with _ | rows'
  · simp [loadPair]
  · rcases saved with _ | _ | docids'
    · simp [loadPair, savedDocids]
    · simp [loadPair, savedDocids]
    · simp only [loadPair, savedDocids, Option.some.injEq, Option.ite_none_right_eq_some, Prod.mk.injEq]
      constructor
      · rintro ⟨⟨hsize, hsame⟩, rfl, rfl⟩
        exact ⟨⟨rfl, rfl⟩, hsize, hsame.trans hsize⟩
      · rintro ⟨⟨rfl, rfl⟩, hsize, hdocids⟩
        exact ⟨⟨hsize, hdocids.trans hsize.symm⟩, rfl, rfl⟩

section Runs

variable (embed : Text → V) (zero : V) {chunkSize : Nat} (hchunk : 0 < chunkSize) (as : List Attempt)

include hchunk

theorem embeddings_attempts (rows : List V) :
    (attempts embed zero chunkSize emptyDisk as).embeddings = some rows ↔
      ∃ before a, RenamedBy chunkSize as before a ∧ rows = a.texts.map embed := by
  refine read_foldl Disk.embeddings (fun a ha => ha) ?_ ?_ (fun _ _ ha hk => absurd hk ha) rfl as rows
  · intro disk a ha
    rcases a.stopped chunkSize with h | h | h | h
    · exact absurd h ha
    · exact congrArg Prod.fst (attempt_between embed zero disk hchunk h)
    · exact congrArg Prod.fst (attempt_torn embed zero disk hchunk h)
    · exact congrArg Prod.fst (attempt_finished embed zero disk hchunk h)
  · exact fun disk a ha => congrArg Prod.fst (attempt_unpublished embed zero disk ha)

theorem savedDocids_attempts (docids : List Nat) :
    savedDocids (attempts embed zero chunkSize emptyDisk as) = some docids ↔
      ∃ before a, SavedBy chunkSize as before a ∧ docids = a.docids := by
  have hsaved : ∀ {disk disk' : Disk V}, disk.docids = disk'.docids → savedDocids disk = savedDocids disk' := by
    intro disk disk' h
    rw [savedDocids, h]
    rfl
  refine read_foldl savedDocids finished_not_kept ?_ ?_ ?_ rfl as docids
  · intro disk a ha
    rw [savedDocids, show (attempt embed zero chunkSize disk a).docids = _ from
      congrArg Prod.snd (attempt_finished embed zero disk hchunk ha)]
  · intro disk a ha
    rcases ha with ha | ha
    · exact hsaved (congrArg Prod.snd (attempt_unpublished embed zero disk ha))
    · exact hsaved (congrArg Prod.snd (attempt_between embed zero disk hchunk ha))
  · intro disk a hfinished hkept
    rw [savedDocids, show (attempt embed zero chunkSize disk a).docids = _ from
      congrArg Prod.snd (attempt_torn embed zero disk hchunk (Attempt.torn_iff.mpr ⟨hfinished, hkept⟩))]

end Runs

theorem RenamedBy.mem {chunkSize : Nat} {as before : List Attempt} {a : Attempt} (h : RenamedBy chunkSize as before a) :
    a ∈ as := by
  obtain ⟨after, rfl, -, -⟩ := h
  exact List.mem_append_right _ List.mem_cons_self

/-- The docids next to what this attempt renamed. -/
theorem RenamedBy.savedBy_iff {chunkSize : Nat} {as before : List Attempt} {a : Attempt} (h : RenamedBy chunkSize as before a)
    (docids : List Nat) : (∃ earlier b, SavedBy chunkSize as earlier b ∧ docids = b.docids) ↔
      a.Finished chunkSize ∧ docids = a.docids ∨
        a.Between chunkSize ∧ ∃ earlier b, SavedBy chunkSize before earlier b ∧ docids = b.docids := by
  obtain ⟨after, rfl, hpublished, hafter⟩ := h
  have hkept : ∀ c ∈ after, c.Unpublished chunkSize ∨ c.Between chunkSize := fun c hc => Or.inl (hafter c hc)
  have hsplit : ∀ earlier b, SavedBy chunkSize (before ++ a :: after) earlier b ↔
      SavedBy chunkSize (before ++ [a]) earlier b := by
    intro earlier b
    rw [← List.singleton_append, ← List.append_assoc]
    exact lastOf_append_keeps finished_not_kept hkept
  simp only [hsplit]
  rcases a.stopped chunkSize with hstop | hstop | hstop | hstop
  · exact absurd hstop hpublished
  · have hbefore : ∀ earlier b, SavedBy chunkSize (before ++ [a]) earlier b ↔ SavedBy chunkSize before earlier b :=
      fun earlier b => lastOf_concat_keeps finished_not_kept (Or.inr hstop)
    simp only [hbefore]
    refine ⟨fun hsaved => Or.inr ⟨hstop, hsaved⟩, ?_⟩
    rintro (⟨hfinished, -⟩ | ⟨-, hsaved⟩)
    · exact absurd (Or.inr hstop) (finished_not_kept a hfinished)
    · exact hsaved
  · obtain ⟨hfinished, hlost⟩ := Attempt.torn_iff.mp hstop
    refine ⟨fun ⟨earlier, b, hsaved, _⟩ => absurd hsaved (not_lastOf_concat hfinished hlost), ?_⟩
    rintro (⟨h, -⟩ | ⟨h, -⟩)
    · exact absurd h hfinished
    · exact absurd (Or.inr h) hlost
  · have hself : ∀ earlier b, SavedBy chunkSize (before ++ [a]) earlier b ↔ earlier = before ∧ b = a :=
      fun earlier b => lastOf_concat_sets finished_not_kept hstop
    simp only [hself]
    constructor
    · rintro ⟨_, _, ⟨rfl, rfl⟩, hdocids⟩
      exact Or.inl ⟨hstop, hdocids⟩
    · rintro (⟨-, hdocids⟩ | ⟨hbetween, -⟩)
      · exact ⟨before, a, ⟨rfl, rfl⟩, hdocids⟩
      · exact absurd (Or.inr hbetween) (finished_not_kept a hstop)

/-- What loads is of one attempt, or the docids are older: the embeddings are of an
attempt stopped right after its rename, and as many passages were encoded before. -/
theorem loaded_pair_in_sync (embed : Text → V) (zero : V) {chunkSize : Nat} (hchunk : 0 < chunkSize) (as : List Attempt)
    (subsetSize : Nat) :
    (∀ rows docids, loadPair subsetSize (attempts embed zero chunkSize emptyDisk as) = some (rows, docids) ↔
      rows.length = subsetSize ∧ docids.length = subsetSize ∧
      ∃ before a, RenamedBy chunkSize as before a ∧ rows = a.texts.map embed ∧
        (a.Finished chunkSize ∧ docids = a.docids ∨
          a.Between chunkSize ∧ ∃ earlier b, SavedBy chunkSize before earlier b ∧ docids = b.docids)) ∧
    (∀ rows, (attempts embed zero chunkSize emptyDisk as).embeddings = some rows → ∃ a ∈ as, rows = a.texts.map embed) ∧
    ((∀ a ∈ as, ¬ a.Between chunkSize) → ∀ rows docids,
      loadPair subsetSize (attempts embed zero chunkSize emptyDisk as) = some (rows, docids) →
        ∃ a ∈ as, rows = a.texts.map embed ∧ docids = a.docids) := by
  have hloads : ∀ rows docids, loadPair subsetSize (attempts embed zero chunkSize emptyDisk as) = some (rows, docids) ↔
      rows.length = subsetSize ∧ docids.length = subsetSize ∧
      ∃ before a, RenamedBy chunkSize as before a ∧ rows = a.texts.map embed ∧
        (a.Finished chunkSize ∧ docids = a.docids ∨
          a.Between chunkSize ∧ ∃ earlier b, SavedBy chunkSize before earlier b ∧ docids = b.docids) := by
    intro rows docids
    rw [loadPair_eq_some_iff, embeddings_attempts embed zero hchunk, savedDocids_attempts embed zero hchunk]
    constructor
    · rintro ⟨⟨⟨before, a, hrenamed, hrows⟩, hsaved⟩, hlength, hcount⟩
      exact ⟨hlength, hcount, before, a, hrenamed, hrows, (hrenamed.savedBy_iff docids).mp hsaved⟩
    · rintro ⟨hlength, hcount, before, a, hrenamed, hrows, hsaved⟩
      exact ⟨⟨⟨before, a, hrenamed, hrows⟩, (hrenamed.savedBy_iff docids).mpr hsaved⟩, hlength, hcount⟩
  refine ⟨hloads, fun rows hrows => ?_, fun hnone rows docids hload => ?_⟩
  · obtain ⟨before, a, hrenamed, heq⟩ := (embeddings_attempts embed zero hchunk as rows).mp hrows
    exact ⟨a, hrenamed.mem, heq⟩
  · obtain ⟨-, -, before, a, hrenamed, hrows, hcases⟩ := (hloads rows docids).mp hload
    rcases hcases with ⟨-, hdocids⟩ | ⟨hbetween, -⟩
    · exact ⟨a, hrenamed.mem, hrows, hdocids⟩
    · exact absurd hbetween (hnone a hrenamed.mem)

/-- Runs to its end. -/
def finishedAttempt : Attempt := ⟨[['a']], [0], rfl, none, 5⟩

/-- Another subset of the same size, stopped right after the rename. -/
def stoppedAttempt : Attempt := ⟨[['b']], [1], rfl, none, 3⟩

theorem loaded_pair_in_sync_two :
    0 < 2 ∧ loadPair 1 (attempts id [] 2 emptyDisk [finishedAttempt, stoppedAttempt]) = some ([['b']], [0]) := by
  refine ⟨by decide, ((loaded_pair_in_sync id [] (by decide) [finishedAttempt, stoppedAttempt] 1).1 [['b']] [0]).mpr ?_⟩
  have hsaved : SavedBy 2 [finishedAttempt] [] finishedAttempt := ⟨[], rfl, by unfold Attempt.Finished; decide, nofun⟩
  refine ⟨rfl, rfl, [finishedAttempt], stoppedAttempt, ⟨[], rfl, by unfold Attempt.Unpublished; decide, nofun⟩, rfl, ?_⟩
  exact Or.inr ⟨rfl, [], finishedAttempt, hsaved, rfl⟩

end CascadeSearch.Dense.Encode
