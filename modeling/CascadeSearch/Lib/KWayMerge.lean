import Mathlib.Data.List.Sort
import Mathlib.Tactic

/-!
# Merging sorted tables

A table gives each of its keys a list of values and ascends by key. A round
takes the smallest key at the head of any table, concatenates the values the
tables have for it, and moves them past it.
-/
namespace CascadeSearch.Lib.KWayMerge

abbrev Table (κ α : Type*) := List (κ × List α)

variable {κ α : Type*} [LinearOrder κ]

def valuesAt (key : κ) (table : Table κ α) : List α :=
  table.flatMap fun e => if e.1 = key then e.2 else []

/-- Past the head, if it has this key. -/
def advance (key : κ) : Table κ α → Table κ α
  | [] => []
  | e :: table => if e.1 = key then table else e :: table

def headValues (key : κ) : Table κ α → List α
  | [] => []
  | e :: _ => if e.1 = key then e.2 else []

theorem valuesAt_of_notMem {key : κ} {table : Table κ α} (h : ∀ e ∈ table, e.1 ≠ key) :
    valuesAt key table = [] := by
  apply List.flatMap_eq_nil_iff.mpr
  intro e he
  rw [if_neg (h e he)]

theorem mem_valuesAt {key : κ} {table : Table κ α} {x : α} :
    x ∈ valuesAt key table ↔ ∃ values, (key, values) ∈ table ∧ x ∈ values := by
  rw [valuesAt, List.mem_flatMap]
  constructor
  · rintro ⟨⟨k, values⟩, he, hx⟩
    by_cases hk : k = key
    · rw [if_pos hk] at hx
      exact ⟨values, hk ▸ he, hx⟩
    · rw [if_neg hk] at hx
      cases hx
  · rintro ⟨values, he, hx⟩
    exact ⟨_, he, by rwa [if_pos rfl]⟩

def Ascending (table : Table κ α) : Prop := table.Pairwise fun a b => a.1 < b.1

variable {key : κ} {table table' : Table κ α} {tables : List (Table κ α)}

/-- A table is determined by its entries. -/
theorem Ascending.ext (h : Ascending table) (h' : Ascending table')
    (hmem : ∀ e, e ∈ table ↔ e ∈ table') : table = table' := by
  have : Std.Irrefl fun a b : κ × List α => a.1 < b.1 := ⟨fun a => lt_irrefl a.1⟩
  have : Std.Antisymm fun a b : κ × List α => a.1 < b.1 := ⟨fun a b hab hba => absurd hab hba.asymm⟩
  exact List.Pairwise.eq_of_mem_iff h h' hmem

theorem Ascending.tail {e : κ × List α} (h : Ascending (e :: table)) : Ascending table :=
  (List.pairwise_cons.mp h).2

theorem Ascending.valuesAt_eq (h : Ascending table) {values : List α} (he : (key, values) ∈ table) :
    valuesAt key table = values := by
  induction table with
  | nil => cases he
  | cons e table ih =>
    obtain ⟨hlt, hasc⟩ := List.pairwise_cons.mp h
    rw [valuesAt, List.flatMap_cons]
    change _ ++ valuesAt key table = _
    rcases List.mem_cons.mp he with rfl | he
    · have hrest : valuesAt key table = [] := valuesAt_of_notMem fun e he => (hlt e he).ne'
      rw [if_pos rfl, hrest, List.append_nil]
    · rw [if_neg (hlt _ he).ne, ih hasc he, List.nil_append]

/-- The smallest key at the head of any table. -/
def smallest (tables : List (Table κ α)) : Option κ :=
  (tables.filterMap fun table => table.head?.map Prod.fst).min?

/-- Each round moves at least one table, so their total length suffices. -/
def mergeRounds : (rounds : Nat) → List (Table κ α) → Table κ α
  | 0, _ => []
  | rounds + 1, tables =>
      match smallest tables with
      | none => []
      | some key => (key, tables.flatMap (headValues key)) :: mergeRounds rounds (tables.map (advance key))

def totalLength (tables : List (Table κ α)) : Nat := (tables.map List.length).sum

theorem smallest_none : smallest tables = none ↔ ∀ table ∈ tables, table = [] := by
  rw [smallest, List.min?_eq_none_iff, List.filterMap_eq_nil_iff]
  simp

theorem smallest_some (hasc : ∀ table ∈ tables, Ascending table) (h : smallest tables = some key) :
    (∃ table ∈ tables, ∃ e ∈ table.head?, e.1 = key) ∧ ∀ table ∈ tables, ∀ e ∈ table, key ≤ e.1 := by
  obtain ⟨hmem, hle⟩ := List.min?_eq_some_iff.mp h
  obtain ⟨table, htable, hhead⟩ := List.mem_filterMap.mp hmem
  obtain ⟨e, he, hkey⟩ := Option.map_eq_some_iff.mp hhead
  refine ⟨⟨table, htable, e, he, hkey⟩, ?_⟩
  intro table htable e he
  cases table with
  | nil => cases he
  | cons first table =>
    have hfirst : key ≤ first.1 := hle _ (List.mem_filterMap.mpr ⟨_, htable, rfl⟩)
    rcases List.mem_cons.mp he with rfl | he
    · exact hfirst
    · exact hfirst.trans ((List.pairwise_cons.mp (hasc _ htable)).1 e he).le

theorem Ascending.advance (h : Ascending table) : Ascending (advance key table) := by
  cases table with
  | nil => exact h
  | cons e table =>
    rw [KWayMerge.advance]
    split
    · exact h.tail
    · exact h

theorem mem_advance (h : Ascending table) (hle : ∀ e ∈ table, key ≤ e.1) {e : κ × List α} :
    e ∈ advance key table ↔ e ∈ table ∧ key < e.1 := by
  cases table with
  | nil => simp [advance]
  | cons first table =>
    have hlt := (List.pairwise_cons.mp h).1
    have hfirst := hle first List.mem_cons_self
    rw [advance]
    split
    · rename_i hkey
      constructor
      · intro he
        exact ⟨List.mem_cons_of_mem _ he, hkey ▸ hlt e he⟩
      · rintro ⟨he, hgt⟩
        rcases List.mem_cons.mp he with rfl | he
        · exact absurd hkey hgt.ne'
        · exact he
    · rename_i hkey
      have hgt : key < first.1 := lt_of_le_of_ne hfirst (Ne.symm hkey)
      refine ⟨fun he => ⟨he, ?_⟩, And.left⟩
      rcases List.mem_cons.mp he with rfl | he
      · exact hgt
      · exact hgt.trans (hlt e he)

theorem headValues_eq (h : Ascending table) (hle : ∀ e ∈ table, key ≤ e.1) :
    headValues key table = valuesAt key table := by
  cases table with
  | nil => rfl
  | cons first table =>
    have hlt := (List.pairwise_cons.mp h).1
    have hrest : valuesAt key table = [] :=
      valuesAt_of_notMem fun e he => ((hle first List.mem_cons_self).trans_lt (hlt e he)).ne'
    rw [headValues, valuesAt, List.flatMap_cons]
    change _ = _ ++ valuesAt key table
    rw [hrest, List.append_nil]

theorem valuesAt_advance {key' : κ} (hne : key ≠ key') :
    valuesAt key' (advance key table) = valuesAt key' table := by
  cases table with
  | nil => rfl
  | cons first table =>
    rw [advance]
    split
    · rename_i hkey
      rw [valuesAt, valuesAt, List.flatMap_cons, if_neg (hkey ▸ hne), List.nil_append]
    · rfl

theorem length_advance_le (key : κ) (table : Table κ α) : (advance key table).length ≤ table.length := by
  cases table with
  | nil => exact le_rfl
  | cons first table =>
    rw [advance]
    split
    · exact Nat.le_succ _
    · exact le_rfl

theorem totalLength_advance (h : ∃ table ∈ tables, ∃ e ∈ table.head?, e.1 = key) :
    totalLength (tables.map (advance key)) < totalLength tables := by
  obtain ⟨table, htable, e, he, hkey⟩ := h
  rw [totalLength, totalLength, List.map_map]
  apply List.sum_lt_sum
  · exact fun table _ => length_advance_le key table
  · refine ⟨table, htable, ?_⟩
    cases table with
    | nil => cases he
    | cons first table =>
      obtain rfl := Option.some.inj he
      rw [Function.comp_apply, advance, if_pos hkey]
      exact Nat.lt_succ_self _

/-- Behind the smallest key the tables hold what they held before. -/
theorem exists_key_advance {key' : κ} (hasc : ∀ table ∈ tables, Ascending table)
    (hle : ∀ table ∈ tables, ∀ e ∈ table, key ≤ e.1) :
    (∃ table ∈ tables.map (advance key), ∃ e ∈ table, e.1 = key') ↔
      (∃ table ∈ tables, ∃ e ∈ table, e.1 = key') ∧ key < key' := by
  constructor
  · rintro ⟨moved, hmoved, e, he, rfl⟩
    obtain ⟨table, htable, rfl⟩ := List.mem_map.mp hmoved
    obtain ⟨he, hlt⟩ := (mem_advance (hasc table htable) (hle table htable)).mp he
    exact ⟨⟨table, htable, e, he, rfl⟩, hlt⟩
  · rintro ⟨⟨table, htable, e, he, rfl⟩, hlt⟩
    have hmoved := (mem_advance (hasc table htable) (hle table htable)).mpr ⟨he, hlt⟩
    exact ⟨_, List.mem_map_of_mem htable, e, hmoved, rfl⟩

theorem flatMap_valuesAt_advance {key' : κ} (hlt : key < key') :
    (tables.map (advance key)).flatMap (valuesAt key') = tables.flatMap (valuesAt key') := by
  rw [List.flatMap_map]
  apply List.flatMap_congr
  exact fun table _ => valuesAt_advance hlt.ne

theorem flatMap_headValues (hasc : ∀ table ∈ tables, Ascending table)
    (hle : ∀ table ∈ tables, ∀ e ∈ table, key ≤ e.1) :
    tables.flatMap (headValues key) = tables.flatMap (valuesAt key) :=
  List.flatMap_congr fun table htable => headValues_eq (hasc table htable) (hle table htable)

/-- The result ascends and gives every key of the tables all their values, in
the order of the tables. -/
theorem mergeRounds_spec : ∀ {rounds : Nat} {tables : List (Table κ α)},
    (∀ table ∈ tables, Ascending table) → totalLength tables ≤ rounds →
    Ascending (mergeRounds rounds tables) ∧
      ∀ key values, (key, values) ∈ mergeRounds rounds tables ↔
        (∃ table ∈ tables, ∃ e ∈ table, e.1 = key) ∧ values = tables.flatMap (valuesAt key) := by
  intro rounds
  induction rounds with
  | zero =>
    intro tables hasc hlen
    refine ⟨List.Pairwise.nil, fun key values => ⟨fun h => (List.not_mem_nil h).elim, ?_⟩⟩
    rintro ⟨⟨table, htable, e, he, -⟩, -⟩
    have hle : table.length ≤ totalLength tables := List.single_le_sum (fun _ _ => Nat.zero_le _) _
      (List.mem_map_of_mem htable)
    have hpos := List.length_pos_of_mem he
    omega
  | succ rounds ih =>
    intro tables hasc hlen
    rw [mergeRounds]
    cases hsmall : smallest tables with
    | none =>
      have hempty := smallest_none.mp hsmall
      refine ⟨List.Pairwise.nil, fun key values => ⟨fun h => (List.not_mem_nil h).elim, ?_⟩⟩
      rintro ⟨⟨table, htable, e, he, -⟩, -⟩
      rw [hempty table htable] at he
      cases he
    | some key =>
      obtain ⟨hhead, hle⟩ := smallest_some hasc hsmall
      have hless := totalLength_advance hhead
      obtain ⟨hrest, hmem⟩ := @ih (tables.map (advance key)) (by
        intro moved hmoved
        obtain ⟨table, htable, rfl⟩ := List.mem_map.mp hmoved
        exact (hasc table htable).advance) (by omega)
      dsimp only
      constructor
      · apply List.pairwise_cons.mpr ⟨?_, hrest⟩
        rintro ⟨key', values⟩ he
        exact ((exists_key_advance hasc hle).mp ((hmem key' values).mp he).1).2
      · intro key' values
        rw [List.mem_cons, hmem, exists_key_advance hasc hle, flatMap_headValues hasc hle, Prod.mk.injEq]
        constructor
        · rintro (⟨rfl, rfl⟩ | ⟨⟨hkey, hlt⟩, rfl⟩)
          · obtain ⟨table, htable, e, he, hkey⟩ := hhead
            exact ⟨⟨table, htable, e, List.mem_of_mem_head? he, hkey⟩, rfl⟩
          · exact ⟨hkey, flatMap_valuesAt_advance hlt⟩
        · rintro ⟨⟨table, htable, e, he, rfl⟩, rfl⟩
          rcases (hle table htable e he).eq_or_lt with rfl | hlt
          · exact Or.inl ⟨rfl, rfl⟩
          · exact Or.inr ⟨⟨⟨table, htable, e, he, rfl⟩, hlt⟩, (flatMap_valuesAt_advance hlt).symm⟩

/-- A balanced tree ordered by its keys, with a list of values for each. -/
abbrev SortedMap (κ α : Type*) [LinearOrder κ] := Std.TreeMap κ (List α) fun a b => compare a b

namespace SortedMap

variable {m : SortedMap κ α}

def pushBack (m : SortedMap κ α) (key : κ) (value : α) : SortedMap κ α :=
  m.insert key (m.getD key [] ++ [value])

theorem toList_ascending (m : SortedMap κ α) : Ascending m.toList :=
  Std.TreeMap.ordered_keys_toList.imp compare_lt_iff_lt.mp

theorem mem_toList {values : List α} : (key, values) ∈ m.toList ↔ key ∈ m ∧ m.getD key [] = values := by
  rw [Std.TreeMap.mem_toList_iff_getElem?_eq_some, Std.TreeMap.mem_iff_isSome_getElem?,
    Std.TreeMap.getD_eq_getD_getElem?]
  cases m[key]? with
  | none => simp
  | some old => simp

theorem valuesAt_toList (m : SortedMap κ α) (key : κ) : valuesAt key m.toList = m.getD key [] := by
  by_cases hkey : key ∈ m
  · exact m.toList_ascending.valuesAt_eq (mem_toList.mpr ⟨hkey, rfl⟩)
  · rw [Std.TreeMap.getD_eq_fallback hkey]
    apply valuesAt_of_notMem
    rintro ⟨k, values⟩ he rfl
    exact hkey (mem_toList.mp he).1

theorem getD_pushBack (m : SortedMap κ α) (key key' : κ) (value : α) :
    (m.pushBack key value).getD key' [] = m.getD key' [] ++ if key = key' then [value] else [] := by
  rw [pushBack, Std.TreeMap.getD_insert]
  by_cases h : key = key'
  · rw [if_pos (compare_eq_iff_eq.mpr h), if_pos h, h]
  · rw [if_neg (mt compare_eq_iff_eq.mp h), if_neg h, List.append_nil]

theorem mem_pushBack {key key' : κ} {value : α} : key' ∈ m.pushBack key value ↔ key = key' ∨ key' ∈ m := by
  rw [pushBack, Std.TreeMap.mem_insert, compare_eq_iff_eq]

end SortedMap

end CascadeSearch.Lib.KWayMerge
