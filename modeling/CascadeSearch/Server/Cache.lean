import CascadeSearch.Index.Format
import Mathlib.Data.List.AList

/-!
# The result cache (`lru_cache.h`)

A list of nodes, the most recently used first, and a hash map from a key to the
iterator of its node. `splice` moves a node without changing its identity, so an
iterator is the address the node was created at. Following an iterator that
points to no node is undefined behaviour (`none`).
-/
namespace CascadeSearch.Server.Cache

open Index.Format

structure Node (Value : Type) where
  addr : Nat
  key : Str
  value : Value

structure LruCache (Value : Type) where
  capacity : Nat
  entries : List (Node Value) := []
  index : AList (fun _ : Str => Nat) := ∅
  nextAddr : Nat := 0

variable {Value : Type}

namespace LruCache

/-- The node an iterator points to. -/
def deref (c : LruCache Value) (it : Nat) : Option (Node Value) :=
  c.entries.find? (·.addr == it)

/-- `splice(begin(), entries_, it)`, the node at `it` being `node` by now. -/
def spliceFront (c : LruCache Value) (it : Nat) (node : Node Value) : LruCache Value :=
  { c with entries := node :: c.entries.eraseP (·.addr == it) }

def get (c : LruCache Value) (key : Str) : Option (Option Value × LruCache Value) :=
  match c.index.lookup key with
  | none => some (none, c)
  | some it => (c.deref it).map fun node => (some node.value, c.spliceFront it node)

def size (c : LruCache Value) : Nat := c.index.entries.length

/-- `push_front` of a new node, and its iterator in the map. -/
def pushFront (c : LruCache Value) (key : Str) (value : Value) : LruCache Value :=
  { c with
    entries := ⟨c.nextAddr, key, value⟩ :: c.entries
    index := c.index.insert key c.nextAddr
    nextAddr := c.nextAddr + 1 }

/-- The least recently used entry goes, if the capacity is exceeded. -/
def evict (c : LruCache Value) : LruCache Value :=
  if c.capacity < c.size then
    match c.entries.getLast? with
    | none => c
    | some back =>
        { c with
          index := c.index.erase back.key
          entries := c.entries.dropLast }
  else c

def put (c : LruCache Value) (key : Str) (value : Value) : Option (LruCache Value) :=
  match c.index.lookup key with
  | some it => (c.deref it).map fun node => c.spliceFront it { node with value := value }
  | none => some (c.pushFront key value).evict

end LruCache

/-- The key becomes the most recent one; whatever no longer fits is dropped. -/
def touch (capacity : Nat) (key : Str) (value : Value) (recent : List (Str × Value)) :
    List (Str × Value) :=
  ((key, value) :: recent.filter (fun e => e.1 ≠ key)).take capacity

theorem mem_touch {capacity : Nat} {key key' : Str} {value value' : Value}
    {recent : List (Str × Value)} (h : (key', value') ∈ touch capacity key value recent) :
    (key' = key ∧ value' = value) ∨ (key', value') ∈ recent := by
  rcases List.mem_cons.mp (List.mem_of_mem_take h) with h | h
  · cases h
    exact Or.inl ⟨rfl, rfl⟩
  · exact Or.inr (List.mem_filter.mp h).1

theorem mem_of_lookup {key : Str} {value : Value} {recent : List (Str × Value)}
    (h : recent.lookup key = some value) : (key, value) ∈ recent := by
  obtain ⟨front, back, rfl, -⟩ := List.lookup_eq_some_iff.mp h
  exact List.mem_append_right _ List.mem_cons_self

namespace LruCache

/-- Keys and values, the most recently used first. -/
def contents (c : LruCache Value) : List (Str × Value) := c.entries.map fun n => (n.key, n.value)

/-- The map takes each listed key to its own node, and nothing else. -/
structure Linked (c : LruCache Value) : Prop where
  addrs : (c.entries.map (·.addr)).Nodup
  keys : (c.entries.map (·.key)).Nodup
  fresh : ∀ n ∈ c.entries, n.addr < c.nextAddr
  lookup_iff : ∀ key it, c.index.lookup key = some it ↔ ∃ n ∈ c.entries, n.key = key ∧ n.addr = it

structure Consistent (c : LruCache Value) : Prop extends Linked c where
  bounded : c.entries.length ≤ c.capacity

variable {c : LruCache Value} {key : Str} {value : Value} {it : Nat}

theorem consistent_empty (capacity : Nat) : Consistent ({ capacity := capacity } : LruCache Value) := by
  constructor
  · constructor
    · exact List.nodup_nil
    · exact List.nodup_nil
    · intro n hn
      cases hn
    · intro key it
      simp
  · exact Nat.zero_le _

namespace Linked

/-- The map has one key for each node. -/
theorem keys_perm (h : c.Linked) : c.index.keys.Perm (c.entries.map (·.key)) := by
  apply (List.perm_ext_iff_of_nodup c.index.keys_nodup h.keys).mpr
  intro key
  rw [← AList.mem_keys, ← AList.lookup_isSome, Option.isSome_iff_exists, List.mem_map]
  constructor
  · intro hkey
    obtain ⟨it, hit⟩ := hkey
    obtain ⟨n, hn, hkey, -⟩ := (h.lookup_iff key it).mp hit
    exact ⟨n, hn, hkey⟩
  · intro hn
    obtain ⟨n, hn, hkey⟩ := hn
    exact ⟨n.addr, (h.lookup_iff key n.addr).mpr ⟨n, hn, hkey, rfl⟩⟩

theorem size_eq (h : c.Linked) : c.size = c.entries.length := by
  have hlen := h.keys_perm.length_eq
  rw [List.length_map, AList.keys, List.keys, List.length_map] at hlen
  exact hlen

theorem lookup_none (h : c.Linked) : c.index.lookup key = none ↔ ∀ n ∈ c.entries, n.key ≠ key := by
  rw [← Option.not_isSome_iff_eq_none, Option.isSome_iff_exists]
  constructor
  · intro hno n hn heq
    exact hno ⟨n.addr, (h.lookup_iff key n.addr).mpr ⟨n, hn, heq, rfl⟩⟩
  · intro hno hsome
    obtain ⟨it, hit⟩ := hsome
    obtain ⟨n, hn, hkey, -⟩ := (h.lookup_iff key it).mp hit
    exact hno n hn hkey

/-- A found iterator points to the node of its key. -/
theorem deref_eq (h : c.Linked) (hit : c.index.lookup key = some it) :
    ∃ front node back, c.entries = front ++ node :: back ∧ node.key = key ∧
      c.deref it = some node ∧ c.entries.eraseP (·.addr == it) = front ++ back := by
  obtain ⟨node, hmem, hkey, haddr⟩ := (h.lookup_iff key it).mp hit
  obtain ⟨front, back, hsplit⟩ := List.append_of_mem hmem
  have hnd := h.addrs
  rw [hsplit, List.map_append, List.map_cons] at hnd
  have hfront : ∀ n ∈ front, ¬(n.addr == it) = true := by
    intro n hn
    rw [beq_iff_eq, ← haddr]
    exact (List.nodup_append.mp hnd).2.2 _ (List.mem_map_of_mem hn) _ List.mem_cons_self
  refine ⟨front, node, back, hsplit, hkey, ?_, ?_⟩
  · rw [deref, hsplit, List.find?_append, List.find?_eq_none.mpr hfront]
    simp [haddr]
  · rw [hsplit, List.eraseP_append_right _ hfront, List.eraseP_cons_of_pos (by simpa using haddr)]

theorem filter_ne_eq {front back : List (Node Value)} {node : Node Value}
    (hsplit : c.entries = front ++ node :: back) (h : c.Linked) :
    c.contents.filter (fun e => e.1 ≠ node.key) = (front ++ back).map fun n => (n.key, n.value) := by
  have hperm : (node :: (front ++ back)).Perm c.entries := by
    rw [hsplit]
    exact List.perm_middle.symm
  have hnd := (hperm.map (·.key)).nodup_iff.mpr h.keys
  have hne : ∀ n ∈ front ++ back, n.key ≠ node.key := fun n hn heq =>
    (List.nodup_cons.mp hnd).1 (List.mem_map.mpr ⟨n, hn, heq⟩)
  rw [contents, hsplit, List.map_append, List.map_cons, List.filter_append,
    List.filter_cons_of_neg (by simp), ← List.filter_append, ← List.map_append, List.filter_eq_self]
  intro e he
  obtain ⟨n, hn, rfl⟩ := List.mem_map.mp he
  simpa using hne n hn

theorem pushFront (h : c.Linked) (value : Value) (hno : c.index.lookup key = none) :
    (c.pushFront key value).Linked := by
  have hkeys := h.lookup_none.mp hno
  constructor
  · apply List.nodup_cons.mpr
    constructor
    · intro hmem
      obtain ⟨n, hn, haddr⟩ := List.mem_map.mp hmem
      exact (h.fresh n hn).ne haddr
    · exact h.addrs
  · apply List.nodup_cons.mpr
    constructor
    · intro hmem
      obtain ⟨n, hn, hkey⟩ := List.mem_map.mp hmem
      exact hkeys n hn hkey
    · exact h.keys
  · intro n hn
    change n.addr < c.nextAddr + 1
    rcases List.mem_cons.mp hn with rfl | hn
    · exact Nat.lt_succ_self _
    · exact (h.fresh n hn).trans (Nat.lt_succ_self _)
  · intro key' it'
    change (c.index.insert key c.nextAddr).lookup key' = some it' ↔
      ∃ n ∈ _ :: c.entries, n.key = key' ∧ n.addr = it'
    simp only [List.mem_cons, or_and_right, exists_or, exists_eq_left]
    by_cases heq : key' = key
    · rw [heq, AList.lookup_insert, Option.some.injEq]
      have hnone : ¬∃ n ∈ c.entries, n.key = key ∧ n.addr = it' := fun hn => by
        obtain ⟨n, hn, hkey, -⟩ := hn
        exact hkeys n hn hkey
      simp [hnone]
    · rw [AList.lookup_insert_ne heq, h.lookup_iff]
      simp [Ne.symm heq]

theorem evict_capacity (c : LruCache Value) : c.evict.capacity = c.capacity := by
  unfold LruCache.evict
  split
  · split <;> rfl
  · rfl

/-- Eviction brings back the bound that one more node may have broken. -/
theorem evict (h : c.Linked) (hlen : c.entries.length ≤ c.capacity + 1) :
    c.evict.Consistent ∧ c.evict.entries = c.entries.take c.capacity := by
  unfold LruCache.evict
  rw [h.size_eq]
  by_cases hfull : c.capacity < c.entries.length
  · rw [if_pos hfull]
    obtain ⟨front, back, hsplit⟩ : ∃ front back, c.entries = front ++ [back] := by
      cases hx : c.entries using List.reverseRecOn with
      | nil => rw [hx] at hfull; exact absurd hfull (Nat.not_lt_zero _)
      | append_singleton front back => exact ⟨front, back, rfl⟩
    have haddrs := h.addrs
    have hkeys := h.keys
    have hfresh := h.fresh
    have hlookup := h.lookup_iff
    rw [hsplit] at haddrs hkeys hfresh hlookup hlen hfull ⊢
    rw [List.length_append, List.length_singleton] at hlen hfull
    rw [List.getLast?_concat, List.dropLast_concat]
    rw [List.map_append, List.map_singleton] at haddrs hkeys
    have hback : ∀ n ∈ front, n.key ≠ back.key := fun n hn =>
      (List.nodup_append.mp hkeys).2.2 _ (List.mem_map_of_mem hn) _ (List.mem_singleton_self _)
    constructor
    · constructor
      · constructor
        · exact (List.nodup_append.mp haddrs).1
        · exact (List.nodup_append.mp hkeys).1
        · intro n hn
          exact hfresh n (List.mem_append_left _ hn)
        · intro key it
          change (c.index.erase back.key).lookup key = some it ↔ ∃ n ∈ front, n.key = key ∧ n.addr = it
          by_cases heq : key = back.key
          · rw [heq, AList.lookup_erase]
            constructor
            · intro hnone
              cases hnone
            · intro hn
              obtain ⟨n, hn, hkey, -⟩ := hn
              exact absurd hkey (hback n hn)
          · rw [AList.lookup_erase_ne heq, hlookup]
            simp only [List.mem_append, List.mem_singleton, or_and_right, exists_or, exists_eq_left,
              Ne.symm heq, false_and, or_false]
      · change front.length ≤ c.capacity
        omega
    · change front = (front ++ [back]).take c.capacity
      rw [List.take_left' (by omega)]
  · rw [if_neg hfull]
    exact ⟨⟨h, by omega⟩, (List.take_of_length_le (by omega)).symm⟩

end Linked

namespace Consistent

/-- Moving a node to the front, with another value if need be. -/
theorem spliceFront (h : c.Consistent) (hit : c.index.lookup key = some it)
    {node : Node Value} (node' : Node Value) (hd : c.deref it = some node) (haddr : node'.addr = node.addr)
    (hkey : node'.key = node.key) :
    (c.spliceFront it node').Consistent ∧
      (c.spliceFront it node').contents = touch c.capacity key node'.value c.contents := by
  obtain ⟨front, node₀, back, hsplit, hkey₀, hd₀, herase⟩ := h.deref_eq hit
  rw [hd] at hd₀
  cases hd₀
  have hperm : (node :: (front ++ back)).Perm c.entries := by
    rw [hsplit]
    exact List.perm_middle.symm
  have hentries : (c.spliceFront it node').entries = node' :: (front ++ back) := by
    rw [LruCache.spliceFront, herase]
  have hlen : (c.spliceFront it node').entries.length ≤ c.capacity := by
    rw [hentries, List.length_cons]
    have hl := hperm.length_eq
    rw [List.length_cons] at hl
    exact hl.trans_le h.bounded
  have hcontents : (c.spliceFront it node').contents =
      (key, node'.value) :: c.contents.filter (fun e => e.1 ≠ key) := by
    rw [← hkey₀, h.filter_ne_eq hsplit, ← hkey, LruCache.contents, hentries]
    rfl
  constructor
  · constructor
    · constructor
      · rw [hentries, List.map_cons, haddr]
        exact (hperm.map (·.addr)).nodup_iff.mpr h.addrs
      · rw [hentries, List.map_cons, hkey]
        exact (hperm.map (·.key)).nodup_iff.mpr h.keys
      · rw [hentries]
        intro n hn
        rcases List.mem_cons.mp hn with rfl | hn
        · rw [haddr]
          exact h.fresh _ (hperm.subset List.mem_cons_self)
        · exact h.fresh n (hperm.subset (List.mem_cons_of_mem _ hn))
      · intro key' it'
        rw [hentries]
        apply (h.lookup_iff key' it').trans
        have hmem : ∀ n, n ∈ c.entries ↔ n = node ∨ n ∈ front ++ back := fun n => by
          rw [← hperm.mem_iff, List.mem_cons]
        simp only [hmem, List.mem_cons, or_and_right, exists_or, exists_eq_left, haddr, hkey]
    · exact hlen
  · rw [hcontents, touch, List.take_of_length_le]
    rw [← hcontents, LruCache.contents, List.length_map]
    exact hlen

/-- A hit returns the value listed under the key and makes the key the most
recent one; a miss changes nothing. -/
theorem get_spec (h : c.Consistent) (key : Str) :
    ∃ c', c.get key = some (c.contents.lookup key, c') ∧ c'.Consistent ∧
      c'.capacity = c.capacity ∧
      c'.contents = match c.contents.lookup key with
        | none => c.contents
        | some value => touch c.capacity key value c.contents := by
  cases hit : c.index.lookup key with
  | none =>
    have hmiss : c.contents.lookup key = none := by
      rw [List.lookup_eq_none_iff]
      intro e he
      obtain ⟨n, hn, rfl⟩ := List.mem_map.mp he
      simpa using Ne.symm (h.lookup_none.mp hit n hn)
    rw [get, hit, hmiss]
    exact ⟨c, rfl, h, rfl, rfl⟩
  | some it =>
    obtain ⟨front, node, back, hsplit, hkey, hd, -⟩ := h.deref_eq hit
    obtain ⟨hcons, hcontents⟩ := h.spliceFront hit node hd rfl rfl
    have hhit : c.contents.lookup key = some node.value := by
      rw [List.lookup_eq_some_iff]
      refine ⟨front.map fun n => (n.key, n.value), back.map fun n => (n.key, n.value), ?_, ?_⟩
      · rw [contents, hsplit, List.map_append, List.map_cons, hkey]
      · intro e he
        obtain ⟨n, hn, rfl⟩ := List.mem_map.mp he
        have hnd := h.keys
        rw [hsplit, List.map_append, List.map_cons] at hnd
        have hne := (List.nodup_append.mp hnd).2.2 _ (List.mem_map_of_mem hn) _ List.mem_cons_self
        rw [hkey] at hne
        simpa using hne.symm
    rw [get, hit, hhit]
    dsimp only
    rw [hd]
    exact ⟨_, rfl, hcons, rfl, hcontents⟩

/-- A put makes the key the most recent one with its new value. -/
theorem put_spec (h : c.Consistent) (key : Str) (value : Value) :
    ∃ c', c.put key value = some c' ∧ c'.Consistent ∧ c'.capacity = c.capacity ∧
      c'.contents = touch c.capacity key value c.contents := by
  cases hit : c.index.lookup key with
  | some it =>
    obtain ⟨front, node, back, -, -, hd, -⟩ := h.deref_eq hit
    obtain ⟨hcons, hcontents⟩ := h.spliceFront hit { node with value := value } hd rfl rfl
    rw [put, hit]
    dsimp only
    rw [hd]
    exact ⟨_, rfl, hcons, rfl, hcontents⟩
  | none =>
    have hlinked := h.toLinked.pushFront value hit
    have hlen : (c.pushFront key value).entries.length ≤ c.capacity + 1 := Nat.succ_le_succ h.bounded
    obtain ⟨hcons, hentries⟩ := hlinked.evict hlen
    have hfilter : c.contents.filter (fun e => e.1 ≠ key) = c.contents := by
      rw [List.filter_eq_self]
      intro e he
      obtain ⟨n, hn, rfl⟩ := List.mem_map.mp he
      simpa using h.lookup_none.mp hit n hn
    rw [put, hit]
    refine ⟨_, rfl, hcons, Linked.evict_capacity _, ?_⟩
    rw [contents, hentries, List.map_take, touch, hfilter]
    rfl

end Consistent

end LruCache

end CascadeSearch.Server.Cache
