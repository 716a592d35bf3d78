import Mathlib.Data.List.Nodup
import Mathlib.Tactic.Common

/-!
# Dictionaries

A Python `dict`: its items in the order in which their keys were first inserted,
one for each key.
-/
namespace CascadeSearch.Lib.Mapping

structure Dict (K V : Type*) where
  items : List (K × V)
  nodup : (items.map Prod.fst).Nodup

namespace Dict

variable {K V : Type*}

@[ext] theorem ext {d d' : Dict K V} (h : d.items = d'.items) : d = d' := by
  cases d
  cases d'
  cases h
  rfl

def empty : Dict K V := ⟨[], List.nodup_nil⟩

def keys (d : Dict K V) : List K := d.items.map Prod.fst

def values (d : Dict K V) : List V := d.items.map Prod.snd

instance : Membership K (Dict K V) := ⟨fun d k => k ∈ d.keys⟩

theorem mem_iff {d : Dict K V} {k : K} : k ∈ d ↔ ∃ v, (k, v) ∈ d.items := by
  change k ∈ d.items.map Prod.fst ↔ _
  simp

/-- `{key: f(key, value) for key, value in d.items()}`. -/
def mapItems {W : Type*} (d : Dict K V) (f : K → V → W) : Dict K W where
  items := d.items.map fun item => (item.1, f item.1 item.2)
  nodup := by
    rw [List.map_map]
    exact d.nodup

theorem items_mapItems {W : Type*} (d : Dict K V) (f : K → V → W) :
    (d.mapItems f).items = d.items.map fun item => (item.1, f item.1 item.2) := rfl

variable [DecidableEq K]

instance (d : Dict K V) (k : K) : Decidable (k ∈ d) := inferInstanceAs (Decidable (k ∈ d.keys))

def get? (d : Dict K V) (k : K) : Option V := (d.items.find? (·.1 = k)).map Prod.snd

def getD (d : Dict K V) (k : K) (v : V) : V := (d.get? k).getD v

/-- An old key keeps its place, a new one goes to the end. -/
def setItems (k : K) (v : V) : List (K × V) → List (K × V)
  | [] => [(k, v)]
  | item :: items => if item.1 = k then (k, v) :: items else item :: setItems k v items

theorem keys_setItems (k : K) (v : V) (items : List (K × V)) :
    (setItems k v items).map Prod.fst =
      if k ∈ items.map Prod.fst then items.map Prod.fst else items.map Prod.fst ++ [k] := by
  induction items with
  | nil => rfl
  | cons item items ih =>
    rw [setItems, List.map_cons]
    by_cases hk : item.1 = k
    · rw [if_pos hk, if_pos (by rw [hk]; exact List.mem_cons_self), List.map_cons, hk]
    · rw [if_neg hk, List.map_cons, ih]
      by_cases hmem : k ∈ items.map Prod.fst
      · rw [if_pos hmem, if_pos (List.mem_cons_of_mem _ hmem)]
      · rw [if_neg hmem, if_neg (List.not_mem_cons_of_ne_of_not_mem (Ne.symm hk) hmem), List.cons_append]

theorem setItems_of_new {k : K} {v : V} {items : List (K × V)} (h : k ∉ items.map Prod.fst) :
    setItems k v items = items ++ [(k, v)] := by
  induction items with
  | nil => rfl
  | cons item items ih =>
    rw [List.map_cons, List.mem_cons, not_or] at h
    rw [setItems, if_neg (Ne.symm h.1), ih h.2, List.cons_append]

theorem setItems_setItems (k : K) (v v' : V) (items : List (K × V)) :
    setItems k v' (setItems k v items) = setItems k v' items := by
  induction items with
  | nil => exact if_pos rfl
  | cons item items ih =>
    rw [setItems, setItems]
    by_cases hk : item.1 = k
    · rw [if_pos hk, if_pos hk, setItems, if_pos rfl]
    · rw [if_neg hk, if_neg hk, setItems, if_neg hk, ih]

def set (d : Dict K V) (k : K) (v : V) : Dict K V where
  items := setItems k v d.items
  nodup := by
    rw [keys_setItems]
    split
    · exact d.nodup
    · rename_i hk
      exact List.nodup_append.mpr ⟨d.nodup, List.nodup_singleton k, fun x hx y hy hxy =>
        hk (List.mem_singleton.mp hy ▸ hxy ▸ hx)⟩

/-- `dict(items)`. -/
def ofList (items : List (K × V)) : Dict K V := items.foldl (fun d item => d.set item.1 item.2) empty

variable {d : Dict K V} {k k' : K} {v v' : V}

theorem get?_eq_some_iff : d.get? k = some v ↔ (k, v) ∈ d.items := by
  constructor
  · intro h
    obtain ⟨item, hfind, rfl⟩ := Option.map_eq_some_iff.mp h
    have hkey := List.find?_some hfind
    rw [decide_eq_true_iff] at hkey
    rw [← hkey]
    exact List.mem_of_find?_eq_some hfind
  · intro h
    cases hfind : d.items.find? (·.1 = k) with
    | none =>
      have hne := List.find?_eq_none.mp hfind (k, v) h
      exact absurd (decide_eq_true rfl) hne
    | some item =>
      have hkey : item.1 = k := by simpa using List.find?_some hfind
      have heq : item = (k, v) := List.inj_on_of_nodup_map d.nodup (List.mem_of_find?_eq_some hfind) h hkey
      rw [get?, hfind, heq]
      rfl

theorem get?_isSome_iff : (d.get? k).isSome ↔ k ∈ d := by
  rw [mem_iff, Option.isSome_iff_exists]
  exact exists_congr fun v => get?_eq_some_iff

theorem get?_eq_none_iff : d.get? k = none ↔ k ∉ d := by
  rw [← get?_isSome_iff, Option.not_isSome_iff_eq_none]

theorem getD_of_mem (h : (k, v) ∈ d.items) (v' : V) : d.getD k v' = v := by
  rw [getD, get?_eq_some_iff.mpr h]
  rfl

theorem get?_eq_some_getD (h : k ∈ d) (v : V) : d.get? k = some (d.getD k v) := by
  obtain ⟨w, hw⟩ := mem_iff.mp h
  rw [getD_of_mem hw, get?_eq_some_iff]
  exact hw

theorem getD_of_not_mem (h : k ∉ d) (v : V) : d.getD k v = v := by
  rw [getD, get?_eq_none_iff.mpr h]
  rfl

theorem get?_set_self : (d.set k v).get? k = some v := by
  rw [get?_eq_some_iff]
  change (k, v) ∈ setItems k v d.items
  induction d.items with
  | nil => exact List.mem_singleton_self _
  | cons item items ih =>
    rw [setItems]
    split
    · exact List.mem_cons_self
    · exact List.mem_cons_of_mem _ ih

theorem get?_set_of_ne (h : k' ≠ k) : (d.set k v).get? k' = d.get? k' := by
  change ((setItems k v d.items).find? (·.1 = k')).map Prod.snd = (d.items.find? (·.1 = k')).map Prod.snd
  induction d.items with
  | nil => simp [setItems, Ne.symm h]
  | cons item items ih =>
    rw [setItems]
    by_cases hk : item.1 = k
    · rw [if_pos hk, List.find?_cons_of_neg (by simpa using Ne.symm h),
        List.find?_cons_of_neg (by rw [hk]; simpa using Ne.symm h)]
    · rw [if_neg hk]
      by_cases hk' : item.1 = k'
      · rw [List.find?_cons_of_pos (by simpa using hk'), List.find?_cons_of_pos (by simpa using hk')]
      · rw [List.find?_cons_of_neg (by simpa using hk'), List.find?_cons_of_neg (by simpa using hk'), ih]

theorem getD_set_self (v' : V) : (d.set k v).getD k v' = v := by
  rw [getD, get?_set_self]
  rfl

theorem getD_set_of_ne (h : k' ≠ k) (v' : V) : (d.set k v).getD k' v' = d.getD k' v' := by
  rw [getD, get?_set_of_ne h]
  rfl

theorem mem_set : k' ∈ d.set k v ↔ k' ∈ d ∨ k' = k := by
  rw [← get?_isSome_iff, ← get?_isSome_iff]
  by_cases h : k' = k
  · simp [h, get?_set_self]
  · simp [h, get?_set_of_ne h]

theorem set_set : (d.set k v).set k v' = d.set k v' := ext (setItems_setItems k v v' d.items)

theorem items_set_of_new (h : k ∉ d) : (d.set k v).items = d.items ++ [(k, v)] := setItems_of_new h

omit [DecidableEq K] in
theorem notMem_of_nodup {ks : List K} (h : (d.keys ++ k :: ks).Nodup) : k ∉ d := fun hmem =>
  (List.nodup_cons.mp (List.nodup_middle.mp h)).1 (List.mem_append_left _ hmem)

theorem nodup_keys_set {ks : List K} (h : (d.keys ++ k :: ks).Nodup) (v : V) : ((d.set k v).keys ++ ks).Nodup := by
  rw [keys, items_set_of_new (notMem_of_nodup h), List.map_append, List.append_assoc]
  exact h

/-- Items with distinct keys become the items of the dictionary. -/
theorem items_foldl_set {items : List (K × V)} :
    ∀ {d : Dict K V}, (d.keys ++ items.map Prod.fst).Nodup →
      (items.foldl (fun d item => d.set item.1 item.2) d).items = d.items ++ items := by
  induction items with
  | nil =>
    intro d _
    rw [List.append_nil]
    rfl
  | cons item items ih =>
    intro d h
    rw [List.foldl_cons, ih (nodup_keys_set h item.2), items_set_of_new (notMem_of_nodup h), List.append_assoc]
    rfl

theorem items_ofList {items : List (K × V)} (h : (items.map Prod.fst).Nodup) : (ofList items).items = items :=
  items_foldl_set (d := empty) h

/-- A key whose items all have one value has that value. -/
theorem get?_foldl_set {items : List (K × V)} {k : K} {v : V} (hvalue : ∀ item ∈ items, item.1 = k → item.2 = v) :
    ∀ {d : Dict K V}, d.get? k = some v ∨ k ∈ items.map Prod.fst →
      (items.foldl (fun d item => d.set item.1 item.2) d).get? k = some v := by
  induction items with
  | nil => exact fun h => h.resolve_right List.not_mem_nil
  | cons item items ih =>
    intro d h
    refine ih (fun x hx => hvalue x (List.mem_cons_of_mem _ hx)) ?_
    dsimp only
    by_cases hkey : item.1 = k
    · rw [hkey, hvalue item List.mem_cons_self hkey]
      exact Or.inl get?_set_self
    · rw [get?_set_of_ne (Ne.symm hkey)]
      exact h.imp_right fun hmem => (List.mem_cons.mp hmem).resolve_left (Ne.symm hkey)

/-- `{**d, **d'}`. -/
def merged (d d' : Dict K V) : Dict K V := d'.items.foldl (fun d item => d.set item.1 item.2) d

theorem get?_foldl_set_of_notMem {items : List (K × V)} (h : k ∉ items.map Prod.fst) :
    ∀ {d : Dict K V}, (items.foldl (fun d item => d.set item.1 item.2) d).get? k = d.get? k := by
  induction items with
  | nil => exact rfl
  | cons item items ih =>
    intro d
    rw [List.map_cons, List.mem_cons, not_or] at h
    rw [List.foldl_cons, ih h.2, get?_set_of_ne h.1]

theorem get?_merged (d d' : Dict K V) (k : K) : (d.merged d').get? k = (d'.get? k).or (d.get? k) := by
  cases hget : d'.get? k with
  | none => exact get?_foldl_set_of_notMem (get?_eq_none_iff.mp hget)
  | some v =>
    have hmem := get?_eq_some_iff.mp hget
    refine get?_foldl_set (fun item hitem hkey => ?_) (Or.inr (List.mem_map_of_mem hmem))
    rw [List.inj_on_of_nodup_map d'.nodup hitem hmem hkey]

theorem get?_ofList_map {ks : List K} (h : ks.Nodup) (f : K → V) (k : K) :
    (ofList (ks.map fun k => (k, f k))).get? k = if k ∈ ks then some (f k) else none := by
  have hkeys : (ks.map fun k => (k, f k)).map Prod.fst = ks := by
    rw [List.map_map]
    exact List.map_id ks
  have hitems : (ofList (ks.map fun k => (k, f k))).items = ks.map fun k => (k, f k) :=
    items_ofList (by rw [hkeys]; exact h)
  split
  · rename_i hmem
    rw [get?_eq_some_iff, hitems]
    exact List.mem_map_of_mem (f := fun k => (k, f k)) hmem
  · rename_i hmem
    rw [get?_eq_none_iff]
    change k ∉ (ofList (ks.map fun k => (k, f k))).items.map Prod.fst
    rwa [hitems, hkeys]

end Dict

end CascadeSearch.Lib.Mapping
