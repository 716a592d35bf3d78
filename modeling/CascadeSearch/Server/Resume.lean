import CascadeSearch.Index.MergePass
import CascadeSearch.Lib.FileSteps
import CascadeSearch.Server.Partition

/-!
# Interrupted sharding (`partition_corpus.py`, `build_shards.py`, `builder.cc`)

`partition` skips its work when all shard files exist, `build_shards` skips a
shard that has an `index.terms`. Both files exist from their creation on, and
are filled afterwards. How contents are divided into calls of `write` is left
open.
-/
namespace CascadeSearch.Server.Resume

open Lib.Memory Lib.FileSteps
open Index.Format Index.Corpus Index.Builder Index.Segment Index.MergePass

/-- The TSV of a shard, and the files of its index directory. -/
inductive ShardFile where
  | tsv (i : Nat)
  | segment (i j : Nat)
  | docs (i : Nat)
  | docids (i : Nat)
  | post (i : Nat)
  | terms (i : Nat)
deriving DecidableEq

/-- The TSV and the four index files, but not the segments. -/
def ShardFile.Kept : ShardFile → Prop
  | .segment _ _ => False
  | _ => True

/-- A file of this shard's index directory. -/
def ShardFile.Belongs (i : Nat) : ShardFile → Prop
  | .tsv _ => False
  | .segment k _ | .docs k | .docids k | .post k | .terms k => k = i

theorem belongs_unique {p : ShardFile} {i j : Nat} (hi : p.Belongs i) (hj : p.Belongs j) : i = j := by
  cases p with
  | tsv k => exact hi.elim
  | segment k l => exact hi.symm.trans hj
  | docs k => exact hi.symm.trans hj
  | docids k => exact hi.symm.trans hj
  | post k => exact hi.symm.trans hj
  | terms k => exact hi.symm.trans hj

variable {S : Type}

abbrev Disk (S : Type) := Store ShardFile (Cell S)

abbrev DiskStep (S : Type) := FileStep ShardFile (Cell S)

/-- The contents of each file, call by call. -/
structure Division (S : Type) where
  divide : ShardFile → List (Cell S) → List (List (Cell S))
  flatten : ∀ p content, (divide p content).flatten = content

def writeOut (dv : Division S) (p : ShardFile) (content : List (Cell S)) : List (DiskStep S) :=
  writeFile p (dv.divide p content)

theorem within_writeOut (allowed : ShardFile → Prop) {p : ShardFile} (hp : allowed p) (dv : Division S)
    (content : List (Cell S)) : Within allowed (writeOut dv p content) := within_writeFile hp _

def emptyDisk : Disk S := fun _ => none

/-- The loop of `partition` from shard `i` on. -/
def writeShards (dv : Division S) : (i : Nat) → List Str → List (DiskStep S)
  | _, [] => []
  | i, file :: files => writeOut dv (.tsv i) (putBytes file) ++ writeShards dv (i + 1) files

/-- `partition`; `none` if the corpus is not UTF-8. -/
def partitionSteps (dv : Division S) (corpus : Str) (n : Nat) (disk : Disk S) : Option (List (DiskStep S)) :=
  if ∀ i ∈ List.range n, (disk (.tsv i)).isSome then some []
  else (Partition.partition corpus n).map (writeShards dv 0)

theorem writeShards_concat (dv : Division S) (file : Str) :
    ∀ (i : Nat) (files : List Str),
      writeShards dv i (files ++ [file]) =
        writeShards dv i files ++ writeOut dv (.tsv (i + files.length)) (putBytes file) := by
  intro i files
  induction files generalizing i with
  | nil => simp [writeShards]
  | cons file' files ih =>
    rw [List.cons_append, writeShards, writeShards, ih, List.append_assoc, List.length_cons, Nat.add_right_comm,
      Nat.add_assoc]

theorem writeShards_within (dv : Division S) (i : Nat) (files : List Str) :
    Within (fun p => ∃ j < i + files.length, p = .tsv j) (writeShards dv i files) := by
  induction files generalizing i with
  | nil => exact fun step hstep => absurd hstep List.not_mem_nil
  | cons file files ih =>
    have hhead : Within (fun p => ∃ j < i + (file :: files).length, p = .tsv j)
        (writeOut dv (.tsv i) (putBytes file)) :=
      within_writeOut (fun p => ∃ j < i + (file :: files).length, p = .tsv j) ⟨i, by simp, rfl⟩ dv _
    refine hhead.append ((ih (i + 1)).imp fun p hp => ?_)
    obtain ⟨j, hj, rfl⟩ := hp
    refine ⟨j, ?_, rfl⟩
    rw [List.length_cons]
    omega

theorem create_mem_writeShards (dv : Division S) {files : List Str} :
    ∀ {i j : Nat}, i ≤ j → j < i + files.length → .create (.tsv j) ∈ writeShards dv i files := by
  induction files with
  | nil => intro i j hij hj; exact absurd hj (Nat.not_lt.mpr hij)
  | cons file files ih =>
    intro i j hij hj
    rw [List.length_cons] at hj
    rcases Nat.eq_or_lt_of_le hij with rfl | hlt
    · exact List.mem_append_left _ List.mem_cons_self
    · exact List.mem_append_right _ (ih hlt (by omega))

/-- The shard files before the last one, and the last one. -/
structure Partitions (n : Nat) (steps front : List (DiskStep S)) (writes : List (List (Cell S))) : Prop where
  split : steps = front ++ writeFile (.tsv (n - 1)) writes
  before : Within (fun p => ∃ j < n - 1, p = .tsv j) front
  created : ∀ i < n - 1, .create (.tsv i) ∈ front

theorem writeShards_partitions (dv : Division S) {files : List Str} (hfiles : files ≠ []) :
    ∃ front writes, Partitions files.length (writeShards dv 0 files) front writes := by
  obtain ⟨init, last, rfl⟩ := (List.eq_nil_or_concat' files).resolve_left hfiles
  have hlast : (init ++ [last]).length - 1 = init.length := by simp
  refine ⟨writeShards dv 0 init, dv.divide (.tsv init.length) (putBytes last), ⟨?_, ?_, ?_⟩⟩
  · rw [hlast, writeShards_concat, Nat.zero_add]
    rfl
  · rw [hlast]
    simpa using writeShards_within dv 0 init
  · intro i hi
    rw [hlast] at hi
    exact create_mem_writeShards dv i.zero_le (by rwa [Nat.zero_add])

theorem remove_notMem_writeShards (dv : Division S) (p : ShardFile) (i : Nat) (files : List Str) :
    .remove p ∉ writeShards dv i files := by
  induction files generalizing i with
  | nil => exact List.not_mem_nil
  | cons file files ih =>
    intro hmem
    rcases List.mem_append.mp hmem with hmem | hmem
    · simp [writeOut, writeFile] at hmem
    · exact ih (i + 1) hmem

/-- A segment file as the disk keeps it. -/
def segmentCells (file : SegmentFile) : List (Cell S) := putBytes (file.map Cell.toByte)

def flushSteps (dv : Division S) (i : Nat) (segments : List SegmentFile) : List (DiskStep S) :=
  segments.zipIdx.flatMap fun (file, j) => writeOut dv (.segment i j) (segmentCells file)

/-- What a build that succeeds does: the other files first, then `index.terms`,
then only removals of segments. -/
structure Builds (i : Nat) (steps pre : List (DiskStep S)) (writes : List (List (Cell S)))
    (post : List (DiskStep S)) : Prop where
  split : steps = pre ++ (writeFile (.terms i) writes ++ post)
  filled : ∃ data ∈ writes, data ≠ []
  before : Within (fun p => p.Belongs i ∧ p ≠ .terms i) pre
  after : Within (fun p => ∃ j, p = .segment i j) post

theorem Builds.remove_notMem {i : Nat} {steps pre : List (DiskStep S)} {writes : List (List (Cell S))}
    {post : List (DiskStep S)} (h : Builds i steps pre writes post) : .remove (.terms i) ∉ steps := by
  rw [h.split]
  intro hmem
  rcases List.mem_append.mp hmem with hmem | hmem
  · exact (h.before _ hmem).2 rfl
  rcases List.mem_append.mp hmem with hmem | hmem
  · simp [writeFile] at hmem
  · obtain ⟨j, hj⟩ := h.after _ hmem
    cases hj

theorem Builds.create_mem {i : Nat} {steps pre : List (DiskStep S)} {writes : List (List (Cell S))}
    {post : List (DiskStep S)} (h : Builds i steps pre writes post) : .create (.terms i) ∈ steps := by
  rw [h.split, writeFile]
  exact List.mem_append_right _ List.mem_cons_self

theorem within_flushSteps (dv : Division S) (i : Nat) (segments : List SegmentFile) :
    Within (fun p => ∃ j, p = .segment i j) (flushSteps dv i segments) := by
  intro step hstep
  obtain ⟨⟨file, j⟩, -, hmem⟩ := List.mem_flatMap.mp hstep
  exact within_writeOut (fun p => ∃ j, p = .segment i j) ⟨j, rfl⟩ dv _ step hmem

def isBuilt (disk : Disk S) (i : Nat) : Bool := (disk (.terms i)).isSome

def readTsv (disk : Disk S) (i : Nat) : Option Str := (disk (.tsv i)).map (List.map Cell.toByte)

/-- The builds one after the other, up to the first that fails. -/
def runAll (build : Nat → List (DiskStep S) × Bool) : List Nat → List (DiskStep S)
  | [] => []
  | i :: shards => if (build i).2 then (build i).1 ++ runAll build shards else (build i).1

/-- None of these shards counts as built, and their TSVs are these. -/
structure Fresh (tsv : Nat → Str) (shards : List Nat) (disk : Disk S) : Prop where
  unbuilt : ∀ i ∈ shards, isBuilt disk i = false
  present : ∀ i ∈ shards, readTsv disk i = some (tsv i)

theorem Fresh.of_cons {tsv : Nat → Str} {i : Nat} {shards : List Nat} {disk : Disk S}
    (h : Fresh tsv (i :: shards) disk) : Fresh tsv shards disk :=
  ⟨fun j hj => h.unbuilt j (List.mem_cons_of_mem i hj), fun j hj => h.present j (List.mem_cons_of_mem i hj)⟩

/-- The steps of another shard's build leave these as they are. -/
theorem Fresh.exec {tsv : Nat → Str} {i : Nat} {shards : List Nat} {disk : Disk S} (h : Fresh tsv shards disk)
    (hi : i ∉ shards) {steps : List (DiskStep S)} (hsteps : Within (ShardFile.Belongs i) steps) :
    Fresh tsv shards (exec steps disk) where
  unbuilt := by
    intro j hj
    have hother : ¬ (ShardFile.terms j).Belongs i := fun hji => hi ((show j = i from hji) ▸ hj)
    rw [isBuilt, exec_of_within hsteps hother]
    exact h.unbuilt j hj
  present := by
    intro j hj
    have hother : ¬ (ShardFile.tsv j).Belongs i := fun hji => hji
    rw [readTsv, exec_of_within hsteps hother]
    exact h.present j hj

/-- The TSV of a shard, as the builder reads it. -/
def tsvOf (dv : Division S) (files : List Str) (i : Nat) : Str :=
  (readTsv (exec (writeShards dv 0 files) emptyDisk) i).getD []

/-- Writing the TSVs leaves everything to build. -/
theorem fresh_writeShards {dv : Division S} {files : List Str} {disk : Disk S}
    (hdisk : ∀ i < files.length, isBuilt disk i = false) :
    Fresh (tsvOf dv files) (List.range files.length) (exec (writeShards dv 0 files) disk) where
  unbuilt := by
    intro i hi
    rw [isBuilt, exec_of_within (writeShards_within dv 0 files) (by simp)]
    exact hdisk i (List.mem_range.mp hi)
  present := by
    intro i hi
    have hcreate : .create (.tsv i) ∈ writeShards dv 0 files :=
      create_mem_writeShards dv i.zero_le (by rw [Nat.zero_add]; exact List.mem_range.mp hi)
    have hsome := exec_isSome (remove_notMem_writeShards dv (.tsv i) 0 files) (s := emptyDisk) (Or.inr hcreate)
    rw [tsvOf, readTsv, readTsv, exec_of_create hcreate disk emptyDisk]
    obtain ⟨content, hcontent⟩ := Option.isSome_iff_exists.mp hsome
    rw [hcontent]
    rfl

variable [LinearOrder S] [Zero S]

/-- `build_index` on the TSV of shard `i`, and whether it exits with status 0. -/
def buildIndexSteps (dv : Division S) (bm25 : Bm25 S) (i : Nat) (tsv : Str) : List (DiskStep S) × Bool :=
  let segments := (pass1 kSegmentDocs 0 (documents tsv)).segments
  let flushed := flushSteps dv i segments
  match buildIndex bm25 kSegmentDocs 0 tsv with
  | .error _ => (flushed, false)
  | .ok files =>
      let pre := flushed ++ writeOut dv (.docs i) files.docs ++ writeOut dv (.docids i) files.docids ++
        writeOut dv (.post i) files.post
      let removed := (List.range segments.length).map fun j => .remove (.segment i j)
      (pre ++ (writeOut dv (.terms i) files.terms ++ removed), true)

/-- The loop of `build_shards`: a failing build raises. -/
def buildShards (dv : Division S) (bm25 : Bm25 S) : List Nat → Disk S → List (DiskStep S)
  | [], _ => []
  | i :: shards, disk =>
      if isBuilt disk i then buildShards dv bm25 shards disk
      else
        match readTsv disk i with
        | none => []
        | some tsv =>
            let (steps, built) := buildIndexSteps dv bm25 i tsv
            if built then steps ++ buildShards dv bm25 shards (exec steps disk) else steps

/-- `partition` and then `build_shards`, on what the disk holds. -/
def program (dv : Division S) (bm25 : Bm25 S) (corpus : Str) (n : Nat) (disk : Disk S) : List (DiskStep S) :=
  match partitionSteps dv corpus n disk with
  | none => []
  | some steps => steps ++ buildShards dv bm25 (List.range n) (exec steps disk)

/-- What an uninterrupted run leaves. -/
def uninterrupted (dv : Division S) (bm25 : Bm25 S) (corpus : Str) (n : Nat) : Disk S :=
  exec (program dv bm25 corpus n emptyDisk) emptyDisk

/-- What the disk holds when the process is killed after `k` steps. -/
def killed (dv : Division S) (bm25 : Bm25 S) (corpus : Str) (n k : Nat) : Disk S :=
  exec ((program dv bm25 corpus n emptyDisk).take k) emptyDisk

/-- What a second run makes of that. -/
def resumed (dv : Division S) (bm25 : Bm25 S) (corpus : Str) (n k : Nat) : Disk S :=
  exec (program dv bm25 corpus n (killed dv bm25 corpus n k)) (killed dv bm25 corpus n k)

variable {dv : Division S} {bm25 : Bm25 S} {i : Nat} {tsv : Str}

theorem buildIndexSteps_failed (h : (buildIndexSteps dv bm25 i tsv).2 = false) :
    Within (fun p => ∃ j, p = .segment i j) (buildIndexSteps dv bm25 i tsv).1 := by
  rw [buildIndexSteps] at h ⊢
  cases hbuild : buildIndex bm25 kSegmentDocs 0 tsv with
  | error e => exact within_flushSteps dv i _
  | ok files =>
    rw [hbuild] at h
    cases h

/-- Every `index.terms` begins with the number of terms. -/
theorem terms_ne_nil {files : IndexFiles S} (h : buildIndex bm25 kSegmentDocs 0 tsv = .ok files) :
    files.terms ≠ [] := by
  rw [buildIndex] at h
  dsimp only at h
  split at h
  · cases h
  · cases h
    simp [writeFiles, putInt]

theorem buildIndexSteps_built (h : (buildIndexSteps dv bm25 i tsv).2 = true) :
    ∃ pre writes post, Builds i (buildIndexSteps dv bm25 i tsv).1 pre writes post := by
  rw [buildIndexSteps] at h ⊢
  cases hbuild : buildIndex bm25 kSegmentDocs 0 tsv with
  | error e =>
    rw [hbuild] at h
    cases h
  | ok files =>
    refine ⟨_, _, _, ⟨rfl, ?_, ?_, ?_⟩⟩
    · have hterms : (dv.divide (.terms i) files.terms).flatten ≠ [] := by
        rw [dv.flatten]
        exact terms_ne_nil hbuild
      simpa [List.flatten_eq_nil_iff] using hterms
    · have hfile : ∀ (p : ShardFile) content, p.Belongs i ∧ p ≠ .terms i →
          Within (fun p : ShardFile => p.Belongs i ∧ p ≠ .terms i) (writeOut dv p content) :=
        fun p content hp => within_writeOut (fun p => p.Belongs i ∧ p ≠ .terms i) hp dv content
      refine ((Within.append ?_ (hfile (.docs i) _ ?_)).append (hfile (.docids i) _ ?_)).append
        (hfile (.post i) _ ?_)
      · exact (within_flushSteps dv i _).imp fun p ⟨j, hp⟩ => by simp [hp, ShardFile.Belongs]
      · simp [ShardFile.Belongs]
      · simp [ShardFile.Belongs]
      · simp [ShardFile.Belongs]
    · intro step hstep
      obtain ⟨j, -, rfl⟩ := List.mem_map.mp hstep
      exact ⟨j, rfl⟩

theorem buildIndexSteps_within (dv : Division S) (bm25 : Bm25 S) (i : Nat) (tsv : Str) :
    Within (fun p => p.Belongs i) (buildIndexSteps dv bm25 i tsv).1 := by
  have hsegment : ∀ p : ShardFile, (∃ j, p = .segment i j) → p.Belongs i := by
    intro p hp
    obtain ⟨j, rfl⟩ := hp
    rfl
  cases hbuilt : (buildIndexSteps dv bm25 i tsv).2 with
  | false => exact (buildIndexSteps_failed hbuilt).imp hsegment
  | true =>
    obtain ⟨pre, writes, post, hbuilds⟩ := buildIndexSteps_built hbuilt
    rw [hbuilds.split]
    have hbelongs : (ShardFile.terms i).Belongs i := rfl
    have hterms : Within (ShardFile.Belongs i) (writeFile (.terms i) writes) := within_writeFile hbelongs writes
    exact (hbuilds.before.imp fun p hp => hp.1).append (hterms.append (hbuilds.after.imp hsegment))

variable {tsv : Nat → Str} {shards : List Nat} {disk : Disk S}

/-- Where no shard counts as built, `build_shards` builds every one. -/
theorem buildShards_fresh (hnodup : shards.Nodup) (h : Fresh tsv shards disk) :
    buildShards dv bm25 shards disk = runAll (fun i => buildIndexSteps dv bm25 i (tsv i)) shards := by
  induction shards generalizing disk with
  | nil => rfl
  | cons i shards ih =>
    obtain ⟨hi, hnodup⟩ := List.nodup_cons.mp hnodup
    rw [buildShards, h.unbuilt i List.mem_cons_self, h.present i List.mem_cons_self, runAll]
    simp only [Bool.false_eq_true, if_false]
    rw [ih hnodup (h.of_cons.exec hi (buildIndexSteps_within dv bm25 i (tsv i)))]

/-- A shard that counts as built is left as it is. -/
theorem buildShards_within (shards : List Nat) (disk : Disk S) :
    Within (fun p => (∃ j ∈ shards, p.Belongs j) ∧ ∀ i, isBuilt disk i = true → p ≠ .terms i)
      (buildShards dv bm25 shards disk) := by
  induction shards generalizing disk with
  | nil => exact fun step hstep => absurd hstep List.not_mem_nil
  | cons j shards ih =>
    have hlater : ∀ p : ShardFile, (∃ k ∈ shards, p.Belongs k) → ∃ k ∈ j :: shards, p.Belongs k :=
      fun p hp => hp.imp fun k hk => ⟨List.mem_cons_of_mem j hk.1, hk.2⟩
    rw [buildShards]
    split
    · exact (ih disk).imp fun p hp => ⟨hlater p hp.1, hp.2⟩
    · rename_i hbuilt
      have hne : ∀ i, isBuilt disk i = true → ¬ (ShardFile.terms i).Belongs j := by
        intro i hi heq
        have hij : i = j := heq
        exact hbuilt (hij ▸ hi)
      cases htsv : readTsv disk j with
      | none => exact fun step hstep => absurd hstep List.not_mem_nil
      | some tsv =>
        have hhead : Within (fun p => (∃ k ∈ j :: shards, p.Belongs k) ∧ ∀ i, isBuilt disk i = true → p ≠ .terms i)
            (buildIndexSteps dv bm25 j tsv).1 :=
          (buildIndexSteps_within dv bm25 j tsv).imp fun p hp =>
            ⟨⟨j, List.mem_cons_self, hp⟩, fun i hi heq => hne i hi (heq ▸ hp)⟩
        have hkept : ∀ i, isBuilt disk i = true → isBuilt (exec (buildIndexSteps dv bm25 j tsv).1 disk) i = true := by
          intro i hi
          rw [isBuilt, exec_of_within (buildIndexSteps_within dv bm25 j tsv) (hne i hi)]
          exact hi
        dsimp only
        split
        · exact hhead.append ((ih _).imp fun p hp => ⟨hlater p hp.1, fun i hi => hp.2 i (hkept i hi)⟩)
        · exact hhead

theorem runAll_within (tsv : Nat → Str) (shards : List Nat) :
    Within (fun p => ∃ j ∈ shards, p.Belongs j) (runAll (fun i => buildIndexSteps dv bm25 i (tsv i)) shards) := by
  induction shards with
  | nil => exact fun step hstep => absurd hstep List.not_mem_nil
  | cons i shards ih =>
    have hhead : Within (fun p => ∃ j ∈ i :: shards, p.Belongs j) (buildIndexSteps dv bm25 i (tsv i)).1 :=
      (buildIndexSteps_within dv bm25 i (tsv i)).imp fun p hp => ⟨i, List.mem_cons_self, hp⟩
    rw [runAll]
    split
    · exact hhead.append (ih.imp fun p hp => hp.imp fun k hk => ⟨List.mem_cons_of_mem i hk.1, hk.2⟩)
    · exact hhead

/-- A build killed outside of `index.terms` is repeated or was finished. -/
theorem resume_build (hnodup : (i :: shards).Nodup) (h : Fresh tsv (i :: shards) disk)
    (hempty : ∀ p : ShardFile, p.Belongs i → disk p = none) {m : Nat}
    (hinside : ¬ Inside (.terms i) (buildIndexSteps dv bm25 i (tsv i)).1 m)
    (hbuilt : (buildIndexSteps dv bm25 i (tsv i)).2 = true) {p : ShardFile} (hp : p.Kept) {s : Disk S}
    (hs : s = exec ((buildIndexSteps dv bm25 i (tsv i)).1.take m) disk) :
    exec (buildShards dv bm25 (i :: shards) s) s p =
      exec (runAll (fun i => buildIndexSteps dv bm25 i (tsv i)) (i :: shards)) disk p := by
  obtain ⟨hi, hnodup'⟩ := List.nodup_cons.mp hnodup
  obtain ⟨pre, writes, post, hbuilds⟩ := buildIndexSteps_built hbuilt
  have hwithin := buildIndexSteps_within dv bm25 i (tsv i)
  have htake := hwithin.take m
  have hothers : Fresh tsv shards s := hs ▸ h.of_cons.exec hi htake
  have hall : runAll (fun i => buildIndexSteps dv bm25 i (tsv i)) (i :: shards) =
      (buildIndexSteps dv bm25 i (tsv i)).1 ++ runAll (fun i => buildIndexSteps dv bm25 i (tsv i)) shards := by
    rw [runAll, if_pos hbuilt]
  by_cases hcreated : .create (.terms i) ∈ (buildIndexSteps dv bm25 i (tsv i)).1.take m
  · have hremove : .remove (.terms i) ∉ (buildIndexSteps dv bm25 i (tsv i)).1.take m := fun hmem =>
      hbuilds.remove_notMem (List.mem_of_mem_take hmem)
    have hskip : isBuilt s i = true := hs ▸ exec_isSome hremove (Or.inr hcreated)
    rw [buildShards, if_pos hskip, buildShards_fresh hnodup' hothers, hall, exec_append]
    apply exec_congr
    rw [hs]
    rw [hbuilds.split] at hcreated hinside ⊢
    refine exec_take_of_not_inside (fun hmem => (hbuilds.before _ hmem).2 rfl) ?_ hcreated hinside disk
    refine hbuilds.after.imp fun q hq heq => ?_
    obtain ⟨j, hj⟩ := hq
    rw [← heq, hj] at hp
    exact hp
  · have hunbuilt : isBuilt s i = false := by
      have hbelongs : (ShardFile.terms i).Belongs i := rfl
      rw [hs, isBuilt, exec_isNone hcreated (hempty _ hbelongs)]
      rfl
    have hread : readTsv s i = some (tsv i) := by
      have hother : ¬ (ShardFile.tsv i).Belongs i := fun hi => hi
      rw [hs, readTsv, exec_of_within htake hother]
      exact h.present i List.mem_cons_self
    have hagain : Fresh tsv (i :: shards) s :=
      ⟨List.forall_mem_cons.mpr ⟨hunbuilt, hothers.unbuilt⟩, List.forall_mem_cons.mpr ⟨hread, hothers.present⟩⟩
    rw [buildShards_fresh hnodup hagain, hall, exec_append, exec_append]
    apply exec_congr
    by_cases hbelongs : p.Belongs i
    · rw [hs]
      exact exec_again (hempty p hbelongs) _ m
    · apply exec_congr
      rw [hs]
      exact exec_of_within htake hbelongs disk

theorem resume_builds (hnodup : shards.Nodup) (h : Fresh tsv shards disk)
    (hempty : ∀ i ∈ shards, ∀ p : ShardFile, p.Belongs i → disk p = none) {m : Nat}
    (hinside : ∀ i ∈ shards, ¬ Inside (.terms i) (runAll (fun i => buildIndexSteps dv bm25 i (tsv i)) shards) m)
    {p : ShardFile} (hp : p.Kept) {s : Disk S}
    (hs : s = exec ((runAll (fun i => buildIndexSteps dv bm25 i (tsv i)) shards).take m) disk) :
    exec (buildShards dv bm25 shards s) s p =
      exec (runAll (fun i => buildIndexSteps dv bm25 i (tsv i)) shards) disk p := by
  induction shards generalizing disk m with
  | nil =>
    rw [hs, runAll, List.take_nil]
    rfl
  | cons i shards ih =>
    obtain ⟨hi, hnodup'⟩ := List.nodup_cons.mp hnodup
    have hwithin := buildIndexSteps_within dv bm25 i (tsv i)
    have hfreshNext := h.of_cons.exec hi hwithin
    cases hbuilt : (buildIndexSteps dv bm25 i (tsv i)).2 with
    | false =>
      have hsegments : Within (fun q => ¬ q.Kept) (buildIndexSteps dv bm25 i (tsv i)).1 :=
        (buildIndexSteps_failed hbuilt).imp fun q hq => by
          obtain ⟨j, rfl⟩ := hq
          exact fun hkept => hkept
      have hsame : ∀ q : ShardFile, q.Kept → s q = disk q := fun q hq => by
        rw [hs, runAll, hbuilt]
        exact exec_of_within (hsegments.take m) (not_not.mpr hq) disk
      have hunbuilt : isBuilt s i = false := by
        rw [isBuilt, hsame (.terms i) trivial]
        exact h.unbuilt i List.mem_cons_self
      have hread : readTsv s i = some (tsv i) := by
        rw [readTsv, hsame (.tsv i) trivial]
        exact h.present i List.mem_cons_self
      -- the build fails in the second run as well
      rw [buildShards, hunbuilt, hread, runAll, hbuilt]
      dsimp only
      rw [hbuilt]
      exact exec_congr (hsame p hp) _
    | true =>
      have hall : runAll (fun i => buildIndexSteps dv bm25 i (tsv i)) (i :: shards) =
          (buildIndexSteps dv bm25 i (tsv i)).1 ++ runAll (fun i => buildIndexSteps dv bm25 i (tsv i)) shards := by
        rw [runAll, if_pos hbuilt]
      rw [hall] at hinside hs
      rcases Nat.le_total m (buildIndexSteps dv bm25 i (tsv i)).1.length with hm | hm
      · rw [List.take_append_of_le_length hm] at hs
        exact resume_build hnodup h (hempty i List.mem_cons_self)
          (fun hin => hinside i List.mem_cons_self (hin.append_right _)) hbuilt hp hs
      · obtain ⟨m, rfl⟩ := Nat.exists_eq_add_of_le hm
        rw [List.take_length_add_append, exec_append] at hs
        have hskip : isBuilt s i = true := by
          obtain ⟨pre, writes, post, hbuilds⟩ := buildIndexSteps_built hbuilt
          have hothers : ¬ ∃ j ∈ shards, (ShardFile.terms i).Belongs j := by
            intro hex
            obtain ⟨j, hj, hij⟩ := hex
            have heq : i = j := hij
            exact hi (heq ▸ hj)
          rw [hs, isBuilt, exec_of_within ((runAll_within tsv shards).take m) hothers]
          exact exec_isSome hbuilds.remove_notMem (Or.inr hbuilds.create_mem)
        rw [hall, exec_append, buildShards, if_pos hskip]
        refine ih hnodup' hfreshNext ?_ ?_ hs
        · intro j hj p hp
          have hother : ¬ p.Belongs i := fun hpi => hi (belongs_unique hpi hp ▸ hj)
          rw [exec_of_within hwithin hother]
          exact hempty j (List.mem_cons_of_mem i hj) p hp
        · exact fun j hj hin => hinside j (List.mem_cons_of_mem i hj) (hin.append_left _)

def buildSteps (dv : Division S) (bm25 : Bm25 S) (files : List Str) : List (DiskStep S) :=
  runAll (fun i => buildIndexSteps dv bm25 i (tsvOf dv files i)) (List.range files.length)

variable {files : List Str}

theorem program_of_missing {corpus : Str} {n : Nat} (hfiles : Partition.partition corpus n = some files)
    (hmissing : ∃ i < n, disk (.tsv i) = none) (hdisk : ∀ i < n, isBuilt disk i = false) :
    program dv bm25 corpus n disk = writeShards dv 0 files ++ buildSteps dv bm25 files := by
  have hlength := Partition.length_partition hfiles
  have hnot : ¬ ∀ i ∈ List.range n, (disk (.tsv i)).isSome := by
    intro hall
    obtain ⟨i, hi, hnone⟩ := hmissing
    simpa [hnone] using hall i (List.mem_range.mpr hi)
  rw [program, partitionSteps, if_neg hnot, hfiles]
  dsimp only [Option.map_some]
  rw [← hlength] at hdisk ⊢
  rw [buildShards_fresh List.nodup_range (fresh_writeShards hdisk)]
  rfl

theorem program_of_present {corpus : Str} {n : Nat} (hpresent : ∀ i < n, (disk (.tsv i)).isSome) :
    program dv bm25 corpus n disk = buildShards dv bm25 (List.range n) disk := by
  rw [program, partitionSteps, if_pos fun i hi => hpresent i (List.mem_range.mp hi)]
  rfl

variable {corpus : Str} {n k : Nat}

theorem program_emptyDisk (hn : 0 < n) (hfiles : Partition.partition corpus n = some files) :
    program dv bm25 corpus n emptyDisk = writeShards dv 0 files ++ buildSteps dv bm25 files :=
  program_of_missing hfiles ⟨0, hn, rfl⟩ fun _ _ => rfl

theorem buildSteps_within (dv : Division S) (bm25 : Bm25 S) (files : List Str) :
    Within (fun p => ∃ i < files.length, p.Belongs i) (buildSteps dv bm25 files) :=
  (runAll_within (tsvOf dv files) (List.range files.length)).imp fun p hp => by simpa using hp

theorem remove_tsv_notMem_program (hn : 0 < n) (hfiles : Partition.partition corpus n = some files) (i : Nat) :
    .remove (.tsv i) ∉ program dv bm25 corpus n emptyDisk := by
  rw [program_emptyDisk hn hfiles]
  intro hmem
  rcases List.mem_append.mp hmem with hmem | hmem
  · exact remove_notMem_writeShards dv _ 0 files hmem
  · obtain ⟨j, -, hj⟩ := buildSteps_within dv bm25 files _ hmem
    exact hj

/-- Killed before the last TSV is there, everything is done again. -/
theorem resumed_of_missing (hn : 0 < n) (hfiles : Partition.partition corpus n = some files)
    (hmissing : .create (.tsv (n - 1)) ∉ (program dv bm25 corpus n emptyDisk).take k) :
    resumed dv bm25 corpus n k = uninterrupted dv bm25 corpus n := by
  have hlength := Partition.length_partition hfiles
  have hlast : .create (.tsv (n - 1)) ∈ writeShards dv 0 files :=
    create_mem_writeShards dv (n - 1).zero_le (by omega)
  have hnone : killed dv bm25 corpus n k (.tsv (n - 1)) = none := exec_isNone hmissing rfl
  have hunbuilt : ∀ i < n, isBuilt (killed dv bm25 corpus n k) i = false := by
    intro i hi
    rw [program_emptyDisk hn hfiles] at hmissing
    have hk : k ≤ (writeShards dv 0 files).length := by
      by_contra hlt
      rw [List.take_append, List.take_of_length_le (Nat.le_of_not_le hlt)] at hmissing
      exact hmissing (List.mem_append_left _ hlast)
    rw [killed, isBuilt, program_emptyDisk hn hfiles, List.take_append_of_le_length hk,
      exec_of_within ((writeShards_within dv 0 files).take k) (by simp)]
    rfl
  rw [resumed, program_of_missing hfiles ⟨n - 1, Nat.sub_lt hn Nat.one_pos, hnone⟩ hunbuilt,
    ← program_emptyDisk hn hfiles]
  funext p
  exact exec_again rfl _ k

/-- Once the last TSV is there, all of them are. -/
theorem killed_tsv_isSome (hn : 0 < n) (hfiles : Partition.partition corpus n = some files)
    (hcreated : .create (.tsv (n - 1)) ∈ (program dv bm25 corpus n emptyDisk).take k) :
    ∀ i < n, (killed dv bm25 corpus n k (.tsv i)).isSome := by
  intro i hi
  have hremove : .remove (.tsv i) ∉ (program dv bm25 corpus n emptyDisk).take k := fun hmem =>
    remove_tsv_notMem_program hn hfiles i (List.mem_of_mem_take hmem)
  refine exec_isSome hremove (Or.inr ?_)
  have hlength := Partition.length_partition hfiles
  have hnonempty : files ≠ [] := List.ne_nil_of_length_pos (by omega)
  obtain ⟨front, writes, hfront⟩ := writeShards_partitions dv hnonempty
  rw [hlength] at hfront
  rw [program_emptyDisk hn hfiles, hfront.split, List.append_assoc] at hcreated ⊢
  rcases Nat.eq_or_lt_of_le (Nat.le_sub_one_of_lt hi) with rfl | hlt
  · exact hcreated
  have hk : front.length ≤ k := by
    by_contra hlt
    rw [List.take_append_of_le_length (Nat.le_of_not_le hlt)] at hcreated
    obtain ⟨j, hj, heq⟩ := hfront.before _ (List.mem_of_mem_take hcreated)
    cases heq
    exact hj.false
  rw [List.take_append, List.take_of_length_le hk]
  exact List.mem_append_left _ (hfront.created i hlt)

/-- Killed outside of the last TSV, the TSVs are as they will be. -/
theorem killed_of_created (hn : 0 < n) (hfiles : Partition.partition corpus n = some files)
    (hcreated : .create (.tsv (n - 1)) ∈ (program dv bm25 corpus n emptyDisk).take k)
    (hinside : ¬ Inside (.tsv (n - 1)) (program dv bm25 corpus n emptyDisk) k) :
    killed dv bm25 corpus n k =
      exec ((buildSteps dv bm25 files).take (k - (writeShards dv 0 files).length))
        (exec (writeShards dv 0 files) emptyDisk) := by
  rw [killed]
  rw [program_emptyDisk hn hfiles] at hcreated hinside ⊢
  rcases Nat.le_total k (writeShards dv 0 files).length with hk | hk
  · have hlength := Partition.length_partition hfiles
    have hnonempty : files ≠ [] := List.ne_nil_of_length_pos (by omega)
    obtain ⟨front, writes, hfront⟩ := writeShards_partitions dv hnonempty
    have hsplit : writeShards dv 0 files = front ++ (writeFile (.tsv (n - 1)) writes ++ []) := by
      rw [List.append_nil, ← hlength]
      exact hfront.split
    rw [List.take_append_of_le_length hk] at hcreated ⊢
    rw [Nat.sub_eq_zero_of_le hk, List.take_zero]
    have hfinished := fun hin => hinside (Inside.append_right hin (buildSteps dv bm25 files))
    rw [hsplit] at hcreated hfinished ⊢
    funext p
    refine exec_take_of_not_inside (fun hmem => ?_) (fun step hstep => absurd hstep List.not_mem_nil) hcreated
      hfinished _
    obtain ⟨j, hj, heq⟩ := hfront.before _ hmem
    rw [hlength] at hj
    cases heq
    exact hj.false
  · rw [List.take_append, List.take_of_length_le hk, exec_append]

theorem resumed_of_outside (hn : 0 < n) (hfiles : Partition.partition corpus n = some files)
    (htsv : ¬ Inside (.tsv (n - 1)) (program dv bm25 corpus n emptyDisk) k)
    (hterms : ∀ i < n, ¬ Inside (.terms i) (program dv bm25 corpus n emptyDisk) k) {p : ShardFile} (hp : p.Kept) :
    resumed dv bm25 corpus n k p = uninterrupted dv bm25 corpus n p := by
  by_cases hcreated : .create (.tsv (n - 1)) ∈ (program dv bm25 corpus n emptyDisk).take k
  · have hkilled := killed_of_created hn hfiles hcreated htsv
    have hlength := Partition.length_partition hfiles
    rw [resumed, program_of_present (killed_tsv_isSome hn hfiles hcreated), uninterrupted,
      program_emptyDisk hn hfiles, exec_append, ← hlength]
    refine resume_builds List.nodup_range (fresh_writeShards fun _ _ => rfl) ?_ ?_ hp (hlength ▸ hkilled)
    · intro i _ q hq
      refine (exec_of_within (writeShards_within dv 0 files) ?_ _).trans rfl
      intro htsv
      obtain ⟨j, -, rfl⟩ := htsv
      exact hq
    · intro i hi hin
      refine hterms i (hlength ▸ List.mem_range.mp hi) ?_
      rw [program_emptyDisk hn hfiles]
      rcases Nat.le_total (writeShards dv 0 files).length k with hk | hk
      · have hall := hin.append_left (writeShards dv 0 files)
        rw [Nat.add_sub_cancel' hk] at hall
        exact hall
      · rw [Nat.sub_eq_zero_of_le hk] at hin
        exact absurd hin.1 List.not_mem_nil
  · rw [resumed_of_missing hn hfiles hcreated]

/-- A file in the making that the second run skips stays cut off. -/
theorem resumed_ne {p : ShardFile} (honce : CreatesOnce p (program dv bm25 corpus n emptyDisk))
    (hremove : .remove p ∉ program dv bm25 corpus n emptyDisk)
    (hinside : Inside p (program dv bm25 corpus n emptyDisk) k)
    (hskipped : resumed dv bm25 corpus n k p = killed dv bm25 corpus n k p) :
    resumed dv bm25 corpus n k p ≠ uninterrupted dv bm25 corpus n p := by
  rw [hskipped]
  exact inside_ne honce hremove hinside emptyDisk

theorem createsOnce_tsv (hn : 0 < n) (hfiles : Partition.partition corpus n = some files) :
    CreatesOnce (.tsv (n - 1)) (program dv bm25 corpus n emptyDisk) := by
  have hlength := Partition.length_partition hfiles
  obtain ⟨front, writes, hfront⟩ := writeShards_partitions dv (List.ne_nil_of_length_pos (hlength ▸ hn))
  rw [hlength] at hfront
  have hbefore : .create (.tsv (n - 1)) ∉ front := by
    intro hmem
    obtain ⟨j, hj, heq⟩ := hfront.before _ hmem
    cases heq
    exact hj.false
  have hbuild : .create (.tsv (n - 1)) ∉ buildSteps dv bm25 files := by
    intro hmem
    obtain ⟨j, -, hj⟩ := buildSteps_within dv bm25 files _ hmem
    exact hj
  rw [program_emptyDisk hn hfiles, hfront.split]
  have hwrite := createsOnce_append (createsOnce_of_notMem hbefore) (createsOnce_writeFile _ writes) (Or.inl hbefore)
  exact createsOnce_append hwrite (createsOnce_of_notMem hbuild) (Or.inr hbuild)

theorem createsOnce_terms_build (tsv : Str) : CreatesOnce (.terms i) (buildIndexSteps dv bm25 i tsv).1 := by
  cases hbuilt : (buildIndexSteps dv bm25 i tsv).2 with
  | false =>
    refine createsOnce_of_notMem fun hmem => ?_
    obtain ⟨j, hj⟩ := buildIndexSteps_failed hbuilt _ hmem
    cases hj
  | true =>
    obtain ⟨pre, writes, post, hbuilds⟩ := buildIndexSteps_built hbuilt
    rw [hbuilds.split]
    have hbefore : FileStep.create (ShardFile.terms i) ∉ pre := fun hmem => (hbuilds.before _ hmem).2 rfl
    have hafter : FileStep.create (ShardFile.terms i) ∉ post := by
      intro hmem
      obtain ⟨j, hj⟩ := hbuilds.after _ hmem
      cases hj
    have hwrite := createsOnce_append (createsOnce_writeFile (ShardFile.terms i) writes) (createsOnce_of_notMem hafter)
      (Or.inr hafter)
    exact createsOnce_append (createsOnce_of_notMem hbefore) hwrite (Or.inl hbefore)

theorem createsOnce_terms_runAll (hnodup : shards.Nodup) :
    CreatesOnce (.terms i) (runAll (fun i => buildIndexSteps dv bm25 i (tsv i)) shards) := by
  induction shards with
  | nil => exact List.Pairwise.nil
  | cons j shards ih =>
    obtain ⟨hj, hnodup⟩ := List.nodup_cons.mp hnodup
    have hhead : CreatesOnce (.terms i) (buildIndexSteps dv bm25 j (tsv j)).1 := by
      by_cases hij : i = j
      · rw [hij]
        exact createsOnce_terms_build (tsv j)
      · exact createsOnce_of_notMem fun hmem => hij (buildIndexSteps_within dv bm25 j (tsv j) _ hmem)
    rw [runAll]
    split
    · refine createsOnce_append hhead (ih hnodup) ?_
      by_cases hij : i = j
      · refine Or.inr fun hmem => ?_
        obtain ⟨k, hk, hik⟩ := runAll_within tsv shards _ hmem
        have hik' : i = k := hik
        exact hj (hij ▸ hik' ▸ hk)
      · exact Or.inl fun hmem => hij (buildIndexSteps_within dv bm25 j (tsv j) _ hmem)
    · exact hhead

theorem remove_terms_notMem_runAll (shards : List Nat) :
    .remove (.terms i) ∉ runAll (fun i => buildIndexSteps dv bm25 i (tsv i)) shards := by
  have hbuild : ∀ j, .remove (.terms i) ∉ (buildIndexSteps dv bm25 j (tsv j)).1 := by
    intro j hmem
    have hij : i = j := buildIndexSteps_within dv bm25 j (tsv j) _ hmem
    subst hij
    cases hbuilt : (buildIndexSteps dv bm25 i (tsv i)).2 with
    | false =>
      obtain ⟨j, hj⟩ := buildIndexSteps_failed hbuilt _ hmem
      cases hj
    | true =>
      obtain ⟨pre, writes, post, hbuilds⟩ := buildIndexSteps_built hbuilt
      exact hbuilds.remove_notMem hmem
  induction shards with
  | nil => exact List.not_mem_nil
  | cons j shards ih =>
    rw [runAll]
    split
    · exact fun hmem => (List.mem_append.mp hmem).elim (hbuild j) ih
    · exact hbuild j

/-- Killed while the last TSV is written, the second run takes it as it is. -/
theorem not_inside_tsv (hn : 0 < n) (hfiles : Partition.partition corpus n = some files)
    (h : resumed dv bm25 corpus n k (.tsv (n - 1)) = uninterrupted dv bm25 corpus n (.tsv (n - 1))) :
    ¬ Inside (.tsv (n - 1)) (program dv bm25 corpus n emptyDisk) k := by
  intro hinside
  refine resumed_ne (createsOnce_tsv hn hfiles) (remove_tsv_notMem_program hn hfiles _) hinside ?_ h
  rw [resumed, program_of_present (killed_tsv_isSome hn hfiles hinside.1)]
  refine exec_of_within (buildShards_within _ _) (fun hp => ?_) _
  obtain ⟨j, -, hj⟩ := hp.1
  exact hj

/-- Killed while an `index.terms` is written, the second run takes the index as it is. -/
theorem not_inside_terms (hn : 0 < n) (hfiles : Partition.partition corpus n = some files)
    (h : resumed dv bm25 corpus n k (.terms i) = uninterrupted dv bm25 corpus n (.terms i)) :
    ¬ Inside (.terms i) (program dv bm25 corpus n emptyDisk) k := by
  intro hinside
  have hsplit : program dv bm25 corpus n emptyDisk = writeShards dv 0 files ++ buildSteps dv bm25 files :=
    program_emptyDisk hn hfiles
  have hcreate : .create (.terms i) ∉ writeShards dv 0 files := by
    intro hmem
    obtain ⟨j, -, hj⟩ := writeShards_within dv 0 files _ hmem
    cases hj
  have honce : CreatesOnce (.terms i) (program dv bm25 corpus n emptyDisk) := by
    rw [hsplit]
    exact createsOnce_append (createsOnce_of_notMem hcreate) (createsOnce_terms_runAll List.nodup_range)
      (Or.inl hcreate)
  have hremove : .remove (.terms i) ∉ program dv bm25 corpus n emptyDisk := by
    rw [hsplit]
    exact fun hmem => (List.mem_append.mp hmem).elim (remove_notMem_writeShards dv _ 0 files)
      (remove_terms_notMem_runAll _)
  have hbuilt : isBuilt (killed dv bm25 corpus n k) i = true :=
    exec_isSome (fun hmem => hremove (List.mem_of_mem_take hmem)) (Or.inr hinside.1)
  have hcreated : .create (.tsv (n - 1)) ∈ (program dv bm25 corpus n emptyDisk).take k := by
    have hmem := hinside.1
    rw [hsplit] at hmem ⊢
    have hk : (writeShards dv 0 files).length ≤ k := by
      by_contra hlt
      rw [List.take_append_of_le_length (Nat.le_of_not_le hlt)] at hmem
      exact hcreate (List.mem_of_mem_take hmem)
    have hlength := Partition.length_partition hfiles
    rw [List.take_append, List.take_of_length_le hk]
    exact List.mem_append_left _ (create_mem_writeShards dv (n - 1).zero_le (by omega))
  refine resumed_ne honce hremove hinside ?_ h
  rw [resumed, program_of_present (killed_tsv_isSome hn hfiles hcreated)]
  exact exec_of_within (buildShards_within _ _) (fun hp => hp.2 i hbuilt rfl) _

/-- Rerunning makes up for an interruption, except within the last TSV and
within an `index.terms`. -/
theorem resumed_eq_uninterrupted_iff (dv : Division S) (bm25 : Bm25 S) (corpus : Str) (n k : Nat) (hn : 0 < n) :
    (∀ p : ShardFile, p.Kept → resumed dv bm25 corpus n k p = uninterrupted dv bm25 corpus n p) ↔
      ¬ Inside (.tsv (n - 1)) (program dv bm25 corpus n emptyDisk) k ∧
        ∀ i < n, ¬ Inside (.terms i) (program dv bm25 corpus n emptyDisk) k := by
  cases hfiles : Partition.partition corpus n with
  | none =>
    have hprogram : program dv bm25 corpus n emptyDisk = [] := by
      have hnot : ¬ ∀ i ∈ List.range n, (emptyDisk (S := S) (.tsv i)).isSome := fun hall => by
        simpa [emptyDisk] using hall 0 (List.mem_range.mpr hn)
      rw [program, partitionSteps, if_neg hnot, hfiles]
      rfl
    have hkilled : killed dv bm25 corpus n k = emptyDisk := by
      rw [killed, hprogram, List.take_nil]
      rfl
    have hresumed : resumed dv bm25 corpus n k = uninterrupted dv bm25 corpus n := by
      rw [resumed, uninterrupted, hkilled]
    have houtside : ∀ p : ShardFile, ¬ Inside p (program dv bm25 corpus n emptyDisk) k := by
      intro p hin
      rw [hprogram] at hin
      exact absurd (List.mem_of_mem_take hin.1) List.not_mem_nil
    exact iff_of_true (fun p _ => by rw [hresumed]) ⟨houtside _, fun i _ => houtside _⟩
  | some files =>
    constructor
    · intro h
      exact ⟨not_inside_tsv hn hfiles (h (.tsv (n - 1)) trivial), fun i _ => not_inside_terms hn hfiles (h (.terms i) trivial)⟩
    · intro h p hp
      exact resumed_of_outside hn hfiles h.1 h.2 hp

/-- Every first run whose first shard builds passes through a point where its
`index.terms` is there without its contents. -/
theorem exists_terms_ne (hn : 0 < n) (hfiles : Partition.partition corpus n = some files)
    (hbuilt : (buildIndexSteps dv bm25 0 (tsvOf dv files 0)).2 = true) :
    ∃ k, resumed dv bm25 corpus n k (.terms 0) ≠ uninterrupted dv bm25 corpus n (.terms 0) := by
  obtain ⟨pre, writes, post, hbuilds⟩ := buildIndexSteps_built hbuilt
  obtain ⟨data, hmem, hdata⟩ := hbuilds.filled
  have hinside : Inside (ShardFile.terms 0) (writeFile (.terms 0) writes) 1 := by
    refine ⟨List.mem_cons_self, data, hdata, ?_⟩
    exact List.mem_append_left _ (List.mem_map_of_mem hmem)
  have hbuild : Inside (.terms 0) (buildIndexSteps dv bm25 0 (tsvOf dv files 0)).1 (pre.length + 1) := by
    rw [hbuilds.split]
    exact (hinside.append_right post).append_left pre
  have hall : ∃ rest, buildSteps dv bm25 files = (buildIndexSteps dv bm25 0 (tsvOf dv files 0)).1 ++ rest := by
    obtain ⟨m, hm⟩ := Nat.exists_eq_add_of_lt (Partition.length_partition hfiles ▸ hn)
    rw [buildSteps, hm, Nat.zero_add, List.range_succ_eq_map, runAll, if_pos hbuilt]
    exact ⟨_, rfl⟩
  obtain ⟨rest, hrest⟩ := hall
  refine ⟨(writeShards dv 0 files).length + (pre.length + 1), fun heq => not_inside_terms hn hfiles heq ?_⟩
  rw [program_emptyDisk hn hfiles, hrest]
  exact (hbuild.append_right rest).append_left _

/-- One call of `write` for each file. -/
def wholeFiles (S : Type) : Division S where
  divide _ content := [content]
  flatten _ content := by simp

/-- One document, `cat` under the id `a`. -/
def oneDocument : Str := Lib.TextFile.encode ['a', '\t', 'c', 'a', 't', '\n']

theorem partition_oneDocument : Partition.partition oneDocument 1 = some [oneDocument] := by
  rw [Partition.partition, oneDocument, Lib.TextFile.readText_encode]
  decide

def exactBm25 : Bm25 ℚ := Bm25.exact id BM25Params.default

theorem program_oneDocument :
    program (wholeFiles ℚ) exactBm25 oneDocument 1 emptyDisk =
      writeOut (wholeFiles ℚ) (.tsv 0) (putBytes oneDocument) ++
        buildSteps (wholeFiles ℚ) exactBm25 [oneDocument] := by
  rw [program_emptyDisk Nat.one_pos partition_oneDocument, writeShards, writeShards, List.append_nil]

/-- Killed between the TSV and the build, the run is made up for. -/
theorem resumed_oneDocument :
    resumed (wholeFiles ℚ) exactBm25 oneDocument 1 3 (.terms 0) =
      uninterrupted (wholeFiles ℚ) exactBm25 oneDocument 1 (.terms 0) := by
  refine (resumed_eq_uninterrupted_iff (wholeFiles ℚ) exactBm25 oneDocument 1 3 Nat.one_pos).mpr ⟨?_, ?_⟩
    (.terms 0) trivial
  · intro hin
    obtain ⟨data, -, hwrite⟩ := hin.2
    rw [program_oneDocument] at hwrite
    obtain ⟨i, -, hi⟩ := buildSteps_within (wholeFiles ℚ) exactBm25 [oneDocument] _ hwrite
    exact hi
  · intro i _ hin
    have hmem := hin.1
    rw [program_oneDocument] at hmem
    simp [writeOut, writeFile, wholeFiles] at hmem

/-- Killed right after it has created the TSV, or `index.terms`, the run leaves
a file that is never completed. -/
theorem cut_off_files :
    resumed (wholeFiles ℚ) exactBm25 oneDocument 1 1 (.tsv 0) ≠
        uninterrupted (wholeFiles ℚ) exactBm25 oneDocument 1 (.tsv 0) ∧
      ∃ k, resumed (wholeFiles ℚ) exactBm25 oneDocument 1 k (.terms 0) ≠
        uninterrupted (wholeFiles ℚ) exactBm25 oneDocument 1 (.terms 0) := by
  constructor
  · intro heq
    refine not_inside_tsv Nat.one_pos partition_oneDocument heq ?_
    rw [program_oneDocument]
    refine Inside.append_right ⟨List.mem_cons_self, putBytes oneDocument, by decide, ?_⟩ _
    exact List.mem_cons_self
  · apply exists_terms_ne Nat.one_pos partition_oneDocument
    have htsv : tsvOf (wholeFiles ℚ) [oneDocument] 0 = oneDocument := by decide
    rw [htsv, buildIndexSteps]
    cases hbuild : buildIndex exactBm25 kSegmentDocs 0 oneDocument with
    | error e =>
      cases e
      rw [noDocuments_iff exactBm25 (by decide)] at hbuild
      exact absurd hbuild (by decide)
    | ok files => rfl

end CascadeSearch.Server.Resume
