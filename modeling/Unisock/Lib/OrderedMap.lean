import Mathlib.Data.Finmap

/-! Finite maps that remember the order in which their keys were inserted, and their bindings as a
list in that order. -/

/-- A finite map, and its keys in the order of their insertion. -/
structure OrderedMap (κ β : Type*) where
  map : Finmap fun _ : κ => β
  order : List κ
  nodup : order.Nodup
  mem_order : ∀ k, k ∈ order ↔ k ∈ map

namespace OrderedMap

variable {κ β : Type*}

def empty : OrderedMap κ β := 
  ⟨∅, [], List.nodup_nil, fun _ => iff_of_false List.not_mem_nil Finmap.notMem_empty⟩

variable [DecidableEq κ]

/-- A binding of a key that has none. -/
def push (m : OrderedMap κ β) (k : κ) (b : β) (hk : k ∉ m.map) : OrderedMap κ β where
  map := m.map.insert k b
  order := m.order ++ [k]
  nodup := by
    have hfresh : k ∉ m.order := fun h => hk ((m.mem_order k).mp h)
    exact List.nodup_append.mpr ⟨m.nodup, List.nodup_singleton k, by
      rintro a ha b hb rfl
      exact hfresh (List.mem_singleton.mp hb ▸ ha)⟩
  mem_order a := by
    rw [List.mem_append, List.mem_singleton, Finmap.mem_insert, m.mem_order, or_comm]

def erase (m : OrderedMap κ β) (k : κ) : OrderedMap κ β where
  map := m.map.erase k
  order := m.order.erase k
  nodup := m.nodup.erase k
  mem_order a := by rw [m.nodup.mem_erase_iff, Finmap.mem_erase, m.mem_order]

/-- `f` is applied to the binding of a key, where it has one. -/
def adjust (m : OrderedMap κ β) (k : κ) (f : β → β) : OrderedMap κ β where
  map :=
    match m.map.lookup k with
    | none => m.map
    | some b => m.map.insert k (f b)
  order := m.order
  nodup := m.nodup
  mem_order a := by
    rw [m.mem_order]
    split
    · rfl
    · next b hb =>
      have hk := Finmap.mem_of_lookup_eq_some hb
      rw [Finmap.mem_insert]
      exact ⟨.inr, fun h => h.elim (fun heq => heq ▸ hk) id⟩

/-- The bindings in the order of the insertion of their keys. -/
def toList (m : OrderedMap κ β) : List (κ × β) :=
  m.order.filterMap fun k => (m.map.lookup k).map (Prod.mk k)

theorem map_fst_toList (m : OrderedMap κ β) : m.toList.map Prod.fst = m.order := by
  have hsome : ∀ k ∈ m.order, ((m.map.lookup k).map (Prod.mk k)).map Prod.fst = some k := by
    intro k hk
    obtain ⟨b, hb⟩ := Finmap.mem_iff.mp ((m.mem_order k).mp hk)
    simp [hb]
  rw [toList, List.map_filterMap, List.filterMap_congr hsome, List.filterMap_some]

theorem nodup_keys_toList (m : OrderedMap κ β) : (m.toList.map Prod.fst).Nodup := by
  rw [map_fst_toList]
  exact m.nodup

theorem length_toList (m : OrderedMap κ β) : m.toList.length = m.map.keys.card := by
  have hkeys : m.order.toFinset = m.map.keys := by
    ext k
    rw [List.mem_toFinset, Finmap.mem_keys, m.mem_order]
  rw [← hkeys, List.toFinset_card_of_nodup m.nodup, ← map_fst_toList, List.length_map]

@[simp] theorem toList_empty : (empty : OrderedMap κ β).toList = [] := rfl

theorem toList_push (m : OrderedMap κ β) {k : κ} (b : β) (hk : k ∉ m.map) :
    (m.push k b hk).toList = m.toList ++ [(k, b)] := by
  have hold : ∀ a ∈ m.order,
      ((m.map.insert k b).lookup a).map (Prod.mk a) = (m.map.lookup a).map (Prod.mk a) := by
    intro a ha
    have hne : a ≠ k := by
      rintro rfl
      exact hk ((m.mem_order a).mp ha)
    rw [Finmap.lookup_insert_of_ne _ hne]
  rw [toList, toList, push]
  simp only [List.filterMap_append, List.filterMap_congr hold]
  simp

theorem toList_erase (m : OrderedMap κ β) (k : κ) :
    (m.erase k).toList = m.toList.filter fun e => ¬ e.1 = k := by
  have hrest : ∀ a ∈ m.order.filter (· != k),
      ((m.map.erase k).lookup a).map (Prod.mk a) = (m.map.lookup a).map (Prod.mk a) := by
    intro a ha
    have hne : a ≠ k := by simpa using (List.mem_filter.mp ha).2
    rw [Finmap.lookup_erase_ne hne]
  rw [toList, toList, erase, List.filter_filterMap]
  simp only [m.nodup.erase_eq_filter, List.filterMap_congr hrest, List.filterMap_filter]
  refine List.filterMap_congr fun a _ => ?_
  by_cases ha : a = k <;> cases m.map.lookup a <;> simp [ha, Option.filter]

theorem toList_adjust (m : OrderedMap κ β) (k : κ) (f : β → β) :
    (m.adjust k f).toList = m.toList.map fun e => if e.1 = k then (e.1, f e.2) else e := by
  rw [toList, toList, List.map_filterMap]
  refine List.filterMap_congr fun a _ => ?_
  simp only [adjust]
  cases hk : m.map.lookup k with
  | none =>
    cases ha : m.map.lookup a with
    | none => rfl
    | some c =>
      have hne : a ≠ k := by
        rintro rfl
        simp [hk] at ha
      simp [hne]
  | some b =>
    by_cases hak : a = k
    · subst hak
      simp [hk]
    · rw [Finmap.lookup_insert_of_ne _ hak]
      cases m.map.lookup a <;> simp [hak]

end OrderedMap
