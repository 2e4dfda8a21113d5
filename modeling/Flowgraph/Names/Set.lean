/-!
# Sets of names

Ids, handles and keys are names, ordered by their code points.  A finite set of
them is held as a strictly ascending list, so two sets with the same members are
the same value (`NameSet.ext`), and walking a set walks its members in order.
-/

namespace Flowgraph

theorem name_lt_of_not_lt {a b : String} (h : ¬ a < b) (hne : a ≠ b) : b < a :=
  String.not_le.1 fun hab => hne (String.le_antisymm hab (String.not_lt.1 h))

/-- The first of an ascending list is the least. -/
theorem head_le_of_ascending {a b : String} {l : List String} (h : (a :: l).Pairwise (· < ·))
    (hb : b ∈ a :: l) : a ≤ b := by
  rcases List.mem_cons.1 hb with rfl | hb
  · exact String.le_refl b
  · exact String.not_lt.1 (String.lt_asymm ((List.pairwise_cons.1 h).1 b hb))

/-- The first name of an ascending list that passes a test is the least that does. -/
theorem le_of_find? {p : String → Bool} {l : List String} {a b : String}
    (hl : l.Pairwise (· < ·)) (ha : l.find? p = some a) (hb : b ∈ l) (hp : p b = true) : a ≤ b := by
  obtain ⟨-, before, after, rfl, hbefore⟩ := List.find?_eq_some_iff_append.1 ha
  rcases List.mem_append.1 hb with hearlier | hlater
  · have hfails := hbefore b hearlier
    rw [hp] at hfails
    cases hfails
  · exact head_le_of_ascending (List.pairwise_append.1 hl).2.1 hlater

/-- Strictly ascending lists with the same members are equal. -/
theorem ascending_ext {l m : List String} (hl : l.Pairwise (· < ·)) (hm : m.Pairwise (· < ·))
    (h : ∀ a, a ∈ l ↔ a ∈ m) : l = m := by
  induction l generalizing m with
  | nil =>
    cases m with
    | nil => rfl
    | cons b m => exact absurd ((h b).2 List.mem_cons_self) (by simp)
  | cons a l ih =>
    cases m with
    | nil => exact absurd ((h a).1 List.mem_cons_self) (by simp)
    | cons b m =>
      obtain ⟨hal, hl'⟩ := List.pairwise_cons.1 hl
      obtain ⟨hbm, hm'⟩ := List.pairwise_cons.1 hm
      have hab : a = b := by
        rcases List.mem_cons.1 ((h a).1 List.mem_cons_self) with hab | ham
        · exact hab
        rcases List.mem_cons.1 ((h b).2 List.mem_cons_self) with hba | hbl
        · exact hba.symm
        · exact absurd (hal b hbl) (String.lt_asymm (hbm a ham))
      subst hab
      congr 1
      refine ih hl' hm' fun c => ⟨fun hc => ?_, fun hc => ?_⟩
      · rcases List.mem_cons.1 ((h c).1 (List.mem_cons_of_mem _ hc)) with rfl | hc'
        · exact absurd (hal c hc) (String.lt_irrefl c)
        · exact hc'
      · rcases List.mem_cons.1 ((h c).2 (List.mem_cons_of_mem _ hc)) with rfl | hc'
        · exact absurd (hbm c hc) (String.lt_irrefl c)
        · exact hc'

/-- A finite set of names. -/
structure NameSet where
  /-- The members in ascending order. -/
  toList : List String
  ascending : toList.Pairwise (· < ·)
deriving DecidableEq

namespace NameSet

/-! ## Building sets -/

def empty : NameSet := ⟨[], List.Pairwise.nil⟩

instance : EmptyCollection NameSet := ⟨empty⟩
instance : Inhabited NameSet := ⟨empty⟩

instance : Membership String NameSet := ⟨fun s a => a ∈ s.toList⟩

instance (a : String) (s : NameSet) : Decidable (a ∈ s) :=
  inferInstanceAs (Decidable (a ∈ s.toList))

/-- Puts a name in its place in an ascending list; a name already there stays. -/
def place (a : String) : List String → List String
  | [] => [a]
  | b :: l => if a < b then a :: b :: l else if a = b then b :: l else b :: place a l

theorem mem_place {a c : String} {l : List String} : c ∈ place a l ↔ c = a ∨ c ∈ l := by
  induction l with
  | nil => simp [place]
  | cons b l ih =>
    simp only [place]
    split
    · simp
    split
    · rename_i h; subst h; simp
    · simp only [List.mem_cons, ih]; grind

theorem place_ascending {a : String} {l : List String} (h : l.Pairwise (· < ·)) :
    (place a l).Pairwise (· < ·) := by
  induction l with
  | nil => simp [place]
  | cons b l ih =>
    obtain ⟨hb, hl⟩ := List.pairwise_cons.1 h
    simp only [place]
    split
    · rename_i hab
      refine List.pairwise_cons.2 ⟨fun c hc => ?_, h⟩
      rcases List.mem_cons.1 hc with rfl | hc
      · exact hab
      · exact String.lt_trans hab (hb c hc)
    split
    · exact h
    · rename_i hlt hne
      refine List.pairwise_cons.2 ⟨fun c hc => ?_, ih hl⟩
      rcases mem_place.1 hc with rfl | hc
      · exact name_lt_of_not_lt hlt hne
      · exact hb c hc

def insert (a : String) (s : NameSet) : NameSet :=
  ⟨place a s.toList, place_ascending s.ascending⟩

def singleton (a : String) : NameSet := insert a ∅

/-- The set of the names in a list, in whatever order and however often they occur there. -/
def ofList (l : List String) : NameSet := l.foldr insert ∅

def union (s t : NameSet) : NameSet := s.toList.foldr insert t

instance : Union NameSet := ⟨union⟩

def filter (p : String → Bool) (s : NameSet) : NameSet :=
  ⟨s.toList.filter p, s.ascending.filter p⟩

def erase (a : String) (s : NameSet) : NameSet := s.filter (· != a)

instance : HasSubset NameSet := ⟨fun s t => ∀ a, a ∈ s → a ∈ t⟩

instance (s t : NameSet) : Decidable (s ⊆ t) :=
  inferInstanceAs (Decidable (∀ a, a ∈ s.toList → a ∈ t.toList))

def isEmpty (s : NameSet) : Bool := s.toList.isEmpty

def size (s : NameSet) : Nat := s.toList.length

/-! ## Membership -/

@[ext] theorem ext {s t : NameSet} (h : ∀ a, a ∈ s ↔ a ∈ t) : s = t := by
  cases s; cases t
  simp only [mk.injEq]
  exact ascending_ext ‹_› ‹_› h

@[simp] theorem mem_toList {a : String} {s : NameSet} : a ∈ s.toList ↔ a ∈ s := Iff.rfl

@[simp] theorem not_mem_empty {a : String} : ¬ a ∈ (∅ : NameSet) := List.not_mem_nil

@[simp] theorem mem_insert {a b : String} {s : NameSet} : a ∈ s.insert b ↔ a = b ∨ a ∈ s := mem_place

@[simp] theorem mem_singleton {a b : String} : a ∈ singleton b ↔ a = b := by simp [singleton]

theorem mem_foldr_insert {a : String} {l : List String} {s : NameSet} :
    a ∈ l.foldr insert s ↔ a ∈ l ∨ a ∈ s := by
  induction l with
  | nil => simp
  | cons b l ih => simp [ih, or_assoc]

@[simp] theorem mem_ofList {a : String} {l : List String} : a ∈ ofList l ↔ a ∈ l := by
  simp [ofList, mem_foldr_insert]

@[simp] theorem mem_union {a : String} {s t : NameSet} : a ∈ s ∪ t ↔ a ∈ s ∨ a ∈ t :=
  mem_foldr_insert

@[simp] theorem mem_filter {a : String} {p : String → Bool} {s : NameSet} :
    a ∈ s.filter p ↔ a ∈ s ∧ p a := List.mem_filter

theorem nodup_toList (s : NameSet) : s.toList.Nodup := by
  refine List.Pairwise.imp ?_ s.ascending
  intro a b h he
  subst he
  exact String.lt_irrefl a h

theorem isEmpty_eq_true_iff {s : NameSet} : s.isEmpty = true ↔ s = ∅ := by
  rw [isEmpty, List.isEmpty_iff]
  refine ⟨fun h => ext fun a => ?_, fun h => h ▸ rfl⟩
  rw [← mem_toList, h]
  simp

/-- A set of at most one name has no two members. -/
theorem eq_of_mem_of_size_le {s : NameSet} (h : ¬ 1 < s.size) {a b : String} (ha : a ∈ s)
    (hb : b ∈ s) : a = b := by
  rw [← mem_toList] at ha hb
  rw [size] at h
  match hl : s.toList with
  | [] => rw [hl] at ha; cases ha
  | [c] =>
    rw [hl, List.mem_singleton] at ha hb
    rw [ha, hb]
  | c :: d :: l => rw [hl] at h; simp at h

/-- Two members make a set larger than one. -/
theorem one_lt_size_iff {s : NameSet} : 1 < s.size ↔ ∃ a b, a ≠ b ∧ a ∈ s ∧ b ∈ s := by
  constructor
  · intro h
    have hnodup := s.nodup_toList
    simp only [← mem_toList]
    rw [size] at h
    match hl : s.toList with
    | [] => simp [hl] at h
    | [a] => simp [hl] at h
    | a :: b :: l =>
      rw [hl] at hnodup
      have hab : a ≠ b := fun hab => (List.nodup_cons.1 hnodup).1 (hab ▸ List.mem_cons_self)
      exact ⟨a, b, hab, List.mem_cons_self, List.mem_cons_of_mem _ List.mem_cons_self⟩
  · rintro ⟨a, b, hab, ha, hb⟩
    exact Decidable.byContradiction fun hsize => hab (eq_of_mem_of_size_le hsize ha hb)

end NameSet

end Flowgraph
