import Flowgraph.Names.Set

/-!
# Maps keyed by names

A finite map from names is held as an association list with strictly ascending
keys.  Lookups determine the map (`NameMap.ext`); inserting changes one lookup
(`find?_insert`), and laying a list of entries over a map lets the first entry of
each key win (`find?_overlay`).
-/

namespace Flowgraph

/-- A finite map from names to values. -/
structure NameMap (α : Type) where
  /-- The entries, keys ascending. -/
  toList : List (String × α)
  ascending : toList.Pairwise (·.1 < ·.1)
deriving DecidableEq

namespace NameMap

variable {α β : Type}

/-! ## Operations -/

def empty : NameMap α := ⟨[], List.Pairwise.nil⟩

instance : EmptyCollection (NameMap α) := ⟨empty⟩
instance : Inhabited (NameMap α) := ⟨empty⟩

def find? (m : NameMap α) (key : String) : Option α := m.toList.lookup key

def contains (m : NameMap α) (key : String) : Bool := (m.find? key).isSome

/-- Puts an entry in its place among ascending keys, replacing the one under the same key. -/
def place (key : String) (value : α) : List (String × α) → List (String × α)
  | [] => [(key, value)]
  | e :: l =>
    if key < e.1 then (key, value) :: e :: l
    else if key = e.1 then (key, value) :: l
    else e :: place key value l

theorem fst_of_mem_place {key : String} {value : α} {e : String × α} {l : List (String × α)}
    (h : e ∈ place key value l) : e = (key, value) ∨ e ∈ l := by
  induction l with
  | nil => simpa [place] using h
  | cons d l ih =>
    simp only [place] at h
    split at h
    · simpa using h
    split at h
    · rcases List.mem_cons.1 h with h | h
      · exact .inl h
      · exact .inr (List.mem_cons_of_mem _ h)
    · rcases List.mem_cons.1 h with rfl | h
      · exact .inr List.mem_cons_self
      · exact (ih h).imp id (List.mem_cons_of_mem _)

theorem place_ascending {key : String} {value : α} {l : List (String × α)}
    (h : l.Pairwise (·.1 < ·.1)) : (place key value l).Pairwise (·.1 < ·.1) := by
  induction l with
  | nil => simp [place]
  | cons d l ih =>
    obtain ⟨hd, hl⟩ := List.pairwise_cons.1 h
    simp only [place]
    split
    · rename_i hlt
      refine List.pairwise_cons.2 ⟨fun c hc => ?_, h⟩
      rcases List.mem_cons.1 hc with rfl | hc
      · exact hlt
      · exact String.lt_trans hlt (hd c hc)
    split
    · rename_i heq
      exact List.pairwise_cons.2 ⟨fun c hc => heq ▸ hd c hc, hl⟩
    · rename_i hlt hne
      refine List.pairwise_cons.2 ⟨fun c hc => ?_, ih hl⟩
      rcases fst_of_mem_place hc with rfl | hc
      · exact name_lt_of_not_lt hlt hne
      · exact hd c hc

def insert (m : NameMap α) (key : String) (value : α) : NameMap α :=
  ⟨place key value m.toList, place_ascending m.ascending⟩

def filter (p : String → α → Bool) (m : NameMap α) : NameMap α :=
  ⟨m.toList.filter fun e => p e.1 e.2, m.ascending.filter _⟩

def erase (m : NameMap α) (key : String) : NameMap α := m.filter fun k _ => k != key

/-- The map of a list of entries; of entries with one key the last one counts. -/
def ofList (entries : List (String × α)) : NameMap α :=
  entries.foldl (fun m e => m.insert e.1 e.2) ∅

/-- Lays entries over a map; of entries with one key the first one counts. -/
def overlay (m : NameMap α) (entries : List (String × α)) : NameMap α :=
  entries.foldr (fun e m => m.insert e.1 e.2) m

def map (f : String → α → β) (m : NameMap α) : NameMap β :=
  ⟨m.toList.map fun e => (e.1, f e.1 e.2), by
    rw [List.pairwise_map]; exact m.ascending⟩

def keys (m : NameMap α) : NameSet :=
  ⟨m.toList.map (·.1), by rw [List.pairwise_map]; exact m.ascending⟩

def values (m : NameMap α) : List α := m.toList.map (·.2)

def size (m : NameMap α) : Nat := m.toList.length

def isEmpty (m : NameMap α) : Bool := m.toList.isEmpty

/-! ## Lookups -/

@[simp] theorem find?_empty {key : String} : (∅ : NameMap α).find? key = none := rfl

theorem lookup_cons {k : String} {e : String × α} {l : List (String × α)} :
    (e :: l).lookup k = if k = e.1 then some e.2 else l.lookup k := by
  obtain ⟨key, value⟩ := e
  by_cases h : k = key
  · simp [h]
  · simp [List.lookup_cons, h, beq_eq_false_iff_ne.2 h]

theorem lookup_place {key k : String} {value : α} {l : List (String × α)} :
    (place key value l).lookup k = if k = key then some value else l.lookup k := by
  induction l with
  | nil => simp [place, lookup_cons]
  | cons d l ih =>
    simp only [place]
    split
    · rw [lookup_cons]
    split
    · rename_i heq
      rw [lookup_cons, lookup_cons]
      by_cases h : k = key <;> simp [h, ← heq]
    · rename_i hne
      rw [lookup_cons, ih, lookup_cons]
      by_cases h : k = key
      · simp [h, hne]
      · simp [h]

@[simp] theorem find?_insert {m : NameMap α} {key k : String} {value : α} :
    (m.insert key value).find? k = if k = key then some value else m.find? k := lookup_place

theorem lookup_of_mem {l : List (String × α)} (hl : l.Pairwise (·.1 < ·.1)) {e : String × α}
    (h : e ∈ l) : l.lookup e.1 = some e.2 := by
  induction l with
  | nil => cases h
  | cons d l ih =>
    obtain ⟨hd, hl⟩ := List.pairwise_cons.1 hl
    rw [lookup_cons]
    rcases List.mem_cons.1 h with rfl | h
    · simp
    · have hne : ¬ e.1 = d.1 := fun he => String.lt_irrefl d.1 (he ▸ hd e h)
      simp [hne, ih hl h]

theorem mem_of_lookup {l : List (String × α)} {key : String} {value : α}
    (h : l.lookup key = some value) : (key, value) ∈ l := by
  induction l with
  | nil => simp at h
  | cons d l ih =>
    rw [lookup_cons] at h
    split at h
    · rename_i hk
      have : (key, value) = d := by rw [hk, ← Option.some.inj h]
      exact this ▸ List.mem_cons_self
    · exact List.mem_cons_of_mem _ (ih h)

theorem find?_eq_some_iff {m : NameMap α} {key : String} {value : α} :
    m.find? key = some value ↔ (key, value) ∈ m.toList :=
  ⟨mem_of_lookup, fun h => lookup_of_mem m.ascending h⟩

theorem find?_filter_eq_some_iff {m : NameMap α} {p : String → α → Bool} {key : String} {value : α} :
    (m.filter p).find? key = some value ↔ m.find? key = some value ∧ p key value = true := by
  rw [find?_eq_some_iff, find?_eq_some_iff]
  exact List.mem_filter

theorem find?_erase {m : NameMap α} {key k : String} :
    (m.erase key).find? k = if k = key then none else m.find? k := by
  have hmem : ∀ v, (m.erase key).find? k = some v ↔ m.find? k = some v ∧ k ≠ key := by
    intro v
    rw [erase, find?_filter_eq_some_iff, bne_iff_ne]
  by_cases h : k = key
  · rw [if_pos h]
    cases hv : (m.erase key).find? k with
    | none => rfl
    | some v => exact absurd h ((hmem v).1 hv).2
  · rw [if_neg h]
    refine Option.ext fun v => ?_
    rw [hmem v]
    exact and_iff_left h

@[simp] theorem mem_keys {m : NameMap α} {key : String} : key ∈ m.keys ↔ ∃ v, m.find? key = some v := by
  simp only [find?_eq_some_iff, keys, ← NameSet.mem_toList, List.mem_map]
  constructor
  · rintro ⟨e, he, rfl⟩
    exact ⟨e.2, he⟩
  · rintro ⟨v, h⟩
    exact ⟨_, h, rfl⟩

@[simp] theorem find?_overlay {m : NameMap α} {entries : List (String × α)} {k : String} :
    (m.overlay entries).find? k = (entries.lookup k).or (m.find? k) := by
  induction entries with
  | nil => simp [overlay]
  | cons e l ih =>
    rw [overlay, List.foldr_cons, ← overlay, find?_insert, ih, lookup_cons]
    by_cases h : k = e.1 <;> simp [h]

theorem ofList_eq_overlay (entries : List (String × α)) :
    ofList entries = overlay ∅ entries.reverse := by
  rw [ofList, overlay, List.foldl_eq_foldr_reverse]

/-- The last entry of a key is the one that counts. -/
theorem find?_ofList (entries : List (String × α)) (k : String) :
    (ofList entries).find? k = entries.reverse.lookup k := by
  rw [ofList_eq_overlay, find?_overlay, find?_empty]
  cases entries.reverse.lookup k <;> rfl

theorem lookup_eq_head? (l : List (String × α)) (k : String) :
    l.lookup k = ((l.filter (·.1 == k)).head?).map (·.2) := by
  induction l with
  | nil => rfl
  | cons e l ih =>
    rw [lookup_cons, List.filter_cons]
    by_cases he : k = e.1
    · simp [he]
    · simp [he, Ne.symm he, ih]

/-- Of the entries of a list with one key the map has the last. -/
theorem find?_ofList_eq_getLast? (l : List (String × α)) (k : String) :
    (ofList l).find? k = ((l.filter (·.1 == k)).getLast?).map (·.2) := by
  rw [find?_ofList, lookup_eq_head?, List.filter_reverse, List.head?_reverse]

theorem mem_of_find?_ofList {entries : List (String × α)} {k : String} {v : α}
    (h : (ofList entries).find? k = some v) : (k, v) ∈ entries := by
  rw [find?_ofList] at h
  exact List.mem_reverse.1 (mem_of_lookup h)

theorem lookup_of_nodup {l : List (String × α)} (hl : (l.map (·.1)).Nodup) {e : String × α}
    (h : e ∈ l) : l.lookup e.1 = some e.2 := by
  induction l with
  | nil => cases h
  | cons d l ih =>
    rw [List.map_cons, List.nodup_cons] at hl
    rw [lookup_cons]
    rcases List.mem_cons.1 h with rfl | h
    · simp
    · have hne : ¬ e.1 = d.1 := fun he => hl.1 (he ▸ List.mem_map_of_mem h)
      rw [if_neg hne, ih hl.2 h]

/-- Where no key repeats, the entries are the lookups. -/
theorem find?_ofList_of_nodup {entries : List (String × α)} (hnd : (entries.map (·.1)).Nodup)
    {k : String} {v : α} : (ofList entries).find? k = some v ↔ (k, v) ∈ entries := by
  refine ⟨mem_of_find?_ofList, fun h => ?_⟩
  rw [find?_ofList]
  have hnd' : (entries.reverse.map (·.1)).Nodup := by
    rw [List.map_reverse]
    exact List.pairwise_reverse.2 (hnd.imp Ne.symm)
  exact lookup_of_nodup hnd' (List.mem_reverse.2 h)

theorem mem_values {m : NameMap α} {v : α} : v ∈ m.values ↔ ∃ k, m.find? k = some v := by
  simp only [values, List.mem_map, find?_eq_some_iff]
  constructor
  · rintro ⟨e, he, rfl⟩
    exact ⟨e.1, he⟩
  · rintro ⟨k, h⟩
    exact ⟨_, h, rfl⟩

@[simp] theorem contains_eq_true_iff {m : NameMap α} {k : String} :
    m.contains k = true ↔ ∃ v, m.find? k = some v := Option.isSome_iff_exists

/-- Maps with the same lookups are equal. -/
@[ext] theorem ext {m n : NameMap α} (h : ∀ k, m.find? k = n.find? k) : m = n := by
  have hmem : ∀ e, e ∈ m.toList ↔ e ∈ n.toList := fun e => by
    rw [← @find?_eq_some_iff _ m e.1 e.2, h, find?_eq_some_iff]
  cases m with
  | mk l hl =>
    cases n with
    | mk l' hl' =>
      simp only [mk.injEq]
      dsimp only at hmem
      clear h
      induction l generalizing l' with
      | nil =>
        cases l' with
        | nil => rfl
        | cons b l' => exact absurd ((hmem b).2 List.mem_cons_self) (by simp)
      | cons a l ih =>
        cases l' with
        | nil => exact absurd ((hmem a).1 List.mem_cons_self) (by simp)
        | cons b l' =>
          obtain ⟨hal, tl⟩ := List.pairwise_cons.1 hl
          obtain ⟨hbl, tl'⟩ := List.pairwise_cons.1 hl'
          have hab : a = b := by
            rcases List.mem_cons.1 ((hmem a).1 List.mem_cons_self) with hab | ha
            · exact hab
            rcases List.mem_cons.1 ((hmem b).2 List.mem_cons_self) with hba | hb
            · exact hba.symm
            · exact absurd (hal b hb) (String.lt_asymm (hbl a ha))
          subst hab
          congr 1
          refine ih tl l' tl' fun c => ⟨fun hc => ?_, fun hc => ?_⟩
          · rcases List.mem_cons.1 ((hmem c).1 (List.mem_cons_of_mem _ hc)) with rfl | hc'
            · exact absurd (hal c hc) (String.lt_irrefl _)
            · exact hc'
          · rcases List.mem_cons.1 ((hmem c).2 (List.mem_cons_of_mem _ hc)) with rfl | hc'
            · exact absurd (hbl c hc) (String.lt_irrefl _)
            · exact hc'

end NameMap

end Flowgraph
