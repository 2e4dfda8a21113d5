import Flowgraph.Json.Compact
import Flowgraph.Proofs.Json.Numbers

/-!
# Values that are written and read

The compact text of a value is read exactly if no more arrays and objects stand inside one another
than the reader allows (`Json.depth`).  What is read is the value with its numbers as their texts
are read (`Json.reread`) and with the fields of its objects in their order (`Json.sorted`)

    ofString? v.compact = if v.depth ≤ depthLimit then some v.reread.sorted else none
                                                                      (ofString?_compact)

A value whose objects have their fields in ascending order is sorted (`sorted_of_ordered`), and
one whose doubles are read as themselves is read as itself (`reread_eq_self_iff`).
-/

namespace Flowgraph.Json

/-! ## Depth and order -/

mutual

/-- How many arrays and objects stand inside one another. -/
def depth : Json → Nat
  | .arr items => itemsDepth items + 1
  | .obj fields => fieldsDepth fields + 1
  | _ => 0

def itemsDepth : List Json → Nat
  | [] => 0
  | a :: l => max (depth a) (itemsDepth l)

def fieldsDepth : Fields → Nat
  | [] => 0
  | (_, a) :: l => max (depth a) (fieldsDepth l)

end

mutual

/-- The value with the fields of its objects in ascending order, of fields of one key the last. -/
def sorted : Json → Json
  | .arr items => .arr (sortedItems items)
  | .obj fields => object (sortedFields fields)
  | v => v

def sortedItems : List Json → List Json
  | [] => []
  | a :: l => sorted a :: sortedItems l

def sortedFields : Fields → Fields
  | [] => []
  | (k, a) :: l => (k, sorted a) :: sortedFields l

end

mutual

/-- The value with every number as its text is read. -/
def reread : Json → Json
  | .num n => .num n.reread
  | .arr items => .arr (rereadItems items)
  | .obj fields => .obj (rereadFields fields)
  | v => v

def rereadItems : List Json → List Json
  | [] => []
  | a :: l => reread a :: rereadItems l

def rereadFields : Fields → Fields
  | [] => []
  | (k, a) :: l => (k, reread a) :: rereadFields l

end

mutual

/-- The fields of all objects ascend by key. -/
def Ordered : Json → Prop
  | .arr items => OrderedItems items
  | .obj fields => fields.Pairwise (·.1 < ·.1) ∧ OrderedFields fields
  | _ => True

def OrderedItems : List Json → Prop
  | [] => True
  | a :: l => Ordered a ∧ OrderedItems l

def OrderedFields : Fields → Prop
  | [] => True
  | (_, a) :: l => Ordered a ∧ OrderedFields l

end

mutual

/-- Every double is read from its text as itself. -/
def Lossless : Json → Prop
  | .num (.real x _) => x.reread = x
  | .arr items => LosslessItems items
  | .obj fields => LosslessFields fields
  | _ => True

def LosslessItems : List Json → Prop
  | [] => True
  | a :: l => Lossless a ∧ LosslessItems l

def LosslessFields : Fields → Prop
  | [] => True
  | (_, a) :: l => Lossless a ∧ LosslessFields l

end

/-- The object of fields with different keys has the same fields in ascending order. -/
theorem object_of_mem_iff {fields ascending : Fields} (hnodup : (fields.map (·.1)).Nodup)
    (h : (ascending.map (·.1)).Pairwise (· < ·)) (hmem : ∀ f, f ∈ fields ↔ f ∈ ascending) :
    object fields = .obj ascending := by
  have hmap : NameMap.ofList fields = ⟨ascending, List.pairwise_map.1 h⟩ := by
    refine NameMap.ext fun k => Option.ext fun v => ?_
    rw [NameMap.find?_ofList_of_nodup hnodup, NameMap.find?_eq_some_iff]
    exact hmem (k, v)
  rw [object, hmap]

theorem object_of_ascending {fields : Fields} (h : fields.Pairwise (·.1 < ·.1)) :
    object fields = .obj fields := by
  have hkeys : (fields.map (·.1)).Pairwise (· < ·) := List.pairwise_map.2 h
  have hnodup : (fields.map (·.1)).Nodup := by
    refine hkeys.imp ?_
    intro j k hlt heq
    exact String.lt_irrefl k (heq ▸ hlt)
  exact object_of_mem_iff hnodup hkeys fun _ => Iff.rfl

mutual

theorem sorted_of_ordered : ∀ {v : Json}, v.Ordered → v.sorted = v
  | .null, _ => rfl
  | .bool _, _ => rfl
  | .num _, _ => rfl
  | .str _, _ => rfl
  | .arr l, h => by
    rw [sorted, sortedItems_of_ordered h]
  | .obj l, h => by
    rw [sorted, sortedFields_of_ordered h.2, object_of_ascending h.1]

theorem sortedItems_of_ordered : ∀ {l : List Json}, OrderedItems l → sortedItems l = l
  | [], _ => rfl
  | a :: l, h => by
    rw [sortedItems, sorted_of_ordered h.1, sortedItems_of_ordered h.2]

theorem sortedFields_of_ordered : ∀ {l : Fields}, OrderedFields l → sortedFields l = l
  | [], _ => rfl
  | (k, a) :: l, h => by
    rw [sortedFields, sorted_of_ordered h.1, sortedFields_of_ordered h.2]

end

theorem rereadFields_eq_map (l : Fields) : rereadFields l = l.map fun f => (f.1, f.2.reread) := by
  induction l with
  | nil => rfl
  | cons f l ih => rw [rereadFields, ih, List.map_cons]

-- What is read of the numbers leaves the keys as they are.
mutual

theorem Ordered.reread : ∀ {v : Json}, v.Ordered → v.reread.Ordered
  | .null, _ => trivial
  | .bool _, _ => trivial
  | .num _, _ => trivial
  | .str _, _ => trivial
  | .arr _, h => OrderedItems.reread h
  | .obj l, h => by
    refine ⟨?_, OrderedFields.reread h.2⟩
    rw [rereadFields_eq_map, List.pairwise_map]
    exact h.1

theorem OrderedItems.reread : ∀ {l : List Json}, OrderedItems l → OrderedItems (rereadItems l)
  | [], _ => trivial
  | _ :: _, h => ⟨Ordered.reread h.1, OrderedItems.reread h.2⟩

theorem OrderedFields.reread : ∀ {l : Fields}, OrderedFields l → OrderedFields (rereadFields l)
  | [], _ => trivial
  | _ :: _, h => ⟨Ordered.reread h.1, OrderedFields.reread h.2⟩

end

mutual

/-- What is read is the value itself exactly if all its doubles are read as themselves. -/
theorem reread_eq_self_iff : ∀ v : Json, v.reread = v ↔ v.Lossless
  | .null => iff_of_true rfl trivial
  | .bool _ => iff_of_true rfl trivial
  | .str _ => iff_of_true rfl trivial
  | .num (.whole _) => iff_of_true rfl trivial
  | .num (.real x _) => by
    rw [reread, Number.reread, Json.num.injEq, Number.real.injEq]
    rfl
  | .arr l => by
    rw [reread, Json.arr.injEq, rereadItems_eq_self_iff l]
    rfl
  | .obj l => by
    rw [reread, Json.obj.injEq, rereadFields_eq_self_iff l]
    rfl

theorem rereadItems_eq_self_iff : ∀ l : List Json, rereadItems l = l ↔ LosslessItems l
  | [] => iff_of_true rfl trivial
  | a :: l => by
    rw [rereadItems, List.cons.injEq, reread_eq_self_iff a, rereadItems_eq_self_iff l]
    rfl

theorem rereadFields_eq_self_iff : ∀ l : Fields, rereadFields l = l ↔ LosslessFields l
  | [] => iff_of_true rfl trivial
  | (k, a) :: l => by
    rw [rereadFields, List.cons.injEq, Prod.mk.injEq, reread_eq_self_iff a,
      rereadFields_eq_self_iff l, eq_self_iff_true, true_and]
    rfl

end

/-! ## Strings -/

theorem readParts_short {x c : Char} (hx : x ≠ 'u') (h : shortEscape? x = some c)
    (cs : List Char) :
    readParts ('\\' :: x :: cs) = (readParts cs).map fun r => (.char c :: r.1, r.2) := by
  rw [readParts]
  · rw [h]
    cases readParts cs <;> rfl
  · intro a b c d rest heq _
    exact hx heq

theorem readParts_unit {a b c d : Char} {u : Nat} (h : hexUnit? a b c d = some u)
    (cs : List Char) :
    readParts ('\\' :: 'u' :: a :: b :: c :: d :: cs) =
      (readParts cs).map fun r => (.unit u :: r.1, r.2) := by
  rw [readParts, h]
  cases readParts cs <;> rfl

theorem readParts_plain {c : Char} (hquote : c ≠ '"') (hslash : c ≠ '\\')
    (hcontrol : ¬ c.toNat < 0x20) (cs : List Char) :
    readParts (c :: cs) = (readParts cs).map fun r => (.char c :: r.1, r.2) := by
  rw [readParts]
  · rw [if_neg (by simp [hslash, hcontrol])]
    cases readParts cs <;> rfl
  · exact hquote
  · intro _ _ _ _ _ heq _
    exact hslash heq
  · intro _ _ heq _
    exact hslash heq

/-- A control is escaped by four digits that denote it. -/
theorem controlEscape_eq {c : Char} (h : c.toNat < 0x20) :
    ∃ x y z w, controlEscape c = ['\\', 'u', x, y, z, w] ∧ hexUnit? x y z w = some c.toNat := by
  have hdigits : ∀ n < 0x20, ∃ x y z w,
      List.replicate (4 - (Nat.toDigits 16 n).length) '0' ++ Nat.toDigits 16 n = [x, y, z, w] ∧
        hexUnit? x y z w = some n := by
    intro n hn
    refine ⟨'0', '0', if n < 16 then '0' else '1', Nat.digitChar (n % 16), ?_⟩
    revert n
    decide
  obtain ⟨x, y, z, w, htext, hunit⟩ := hdigits c.toNat h
  refine ⟨x, y, z, w, ?_, hunit⟩
  rw [controlEscape, htext]

/-- A character is escaped by one letter, or by its number, or stands as it is. -/
theorem escapeChar_cases (c : Char) :
    (∃ x, x ≠ 'u' ∧ shortEscape? x = some c ∧ escapeChar c = ['\\', x]) ∨
    (c.toNat < 0x20 ∧ escapeChar c = controlEscape c) ∨
    (c ≠ '"' ∧ c ≠ '\\' ∧ ¬ c.toNat < 0x20 ∧ escapeChar c = [c]) := by
  generalize htext : escapeChar c = text
  unfold escapeChar at htext
  split at htext
  · rename_i h
    exact .inl ⟨'"', by decide, by rw [h]; rfl, htext.symm⟩
  rename_i hquote
  split at htext
  · rename_i h
    exact .inl ⟨'\\', by decide, by rw [h]; rfl, htext.symm⟩
  rename_i hslash
  split at htext
  · rename_i h
    exact .inl ⟨'n', by decide, by rw [h]; rfl, htext.symm⟩
  split at htext
  · rename_i h
    exact .inl ⟨'r', by decide, by rw [h]; rfl, htext.symm⟩
  split at htext
  · rename_i h
    exact .inl ⟨'t', by decide, by rw [h]; rfl, htext.symm⟩
  split at htext
  · rename_i h
    exact .inl ⟨'b', by decide, by rw [h]; rfl, htext.symm⟩
  split at htext
  · rename_i h
    exact .inl ⟨'f', by decide, by rw [h]; rfl, htext.symm⟩
  split at htext
  · rename_i h
    exact .inr (.inl ⟨h, htext.symm⟩)
  · rename_i h
    exact .inr (.inr ⟨hquote, hslash, h, htext.symm⟩)

theorem joinParts_char (c : Char) (ps : List StringPart) :
    joinParts (.char c :: ps) = (joinParts ps).map (c :: ·) := by
  rw [joinParts]
  cases joinParts ps <;> rfl

/-- A control is no surrogate. -/
theorem joinParts_control {c : Char} (h : c.toNat < 0x20) (ps : List StringPart) :
    joinParts (.unit c.toNat :: ps) = (joinParts ps).map (c :: ·) := by
  have hhigh : isHighSurrogate c.toNat = false := by
    rw [isHighSurrogate, Bool.and_eq_false_iff, decide_eq_false_iff_not]
    omega
  have hlow : isLowSurrogate c.toNat = false := by
    rw [isLowSurrogate, Bool.and_eq_false_iff, decide_eq_false_iff_not]
    omega
  have hsome : joinParts (.unit c.toNat :: ps) =
      (do return Char.ofNat c.toNat :: (← joinParts ps)) := by
    rcases ps with _ | ⟨_ | u, ps⟩
    · simp only [joinParts, hhigh, hlow, Bool.false_eq_true, if_false]
    · simp only [joinParts, hhigh, hlow, Bool.false_eq_true, if_false]
    · simp only [joinParts, hhigh, hlow, Bool.false_eq_true, if_false]
  rw [hsome, Char.ofNat_toNat]
  cases joinParts ps <;> rfl

/-- A character inside a string is written as one part, which denotes it. -/
theorem readParts_escapeChar (c : Char) :
    ∃ p, (∀ cs, readParts (escapeChar c ++ cs) = (readParts cs).map fun r => (p :: r.1, r.2)) ∧
      ∀ ps, joinParts (p :: ps) = (joinParts ps).map (c :: ·) := by
  rcases escapeChar_cases c with ⟨x, hx, hshort, htext⟩ | ⟨hcontrol, htext⟩ |
    ⟨hquote, hslash, hcontrol, htext⟩
  · refine ⟨.char c, fun cs => ?_, joinParts_char c⟩
    rw [htext]
    exact readParts_short hx hshort cs
  · obtain ⟨x, y, z, w, hescape, hunit⟩ := controlEscape_eq hcontrol
    refine ⟨.unit c.toNat, fun cs => ?_, joinParts_control hcontrol⟩
    rw [htext, hescape]
    exact readParts_unit hunit cs
  · refine ⟨.char c, fun cs => ?_, joinParts_char c⟩
    rw [htext]
    exact readParts_plain hquote hslash hcontrol cs

/-- A string is read up to its closing quote. -/
theorem readString_escaped (s rest : List Char) :
    readString (s.flatMap escapeChar ++ '"' :: rest) = some (s, rest) := by
  have hparts : ∃ ps, readParts (s.flatMap escapeChar ++ '"' :: rest) = some (ps, rest) ∧
      joinParts ps = some s := by
    induction s with
    | nil => exact ⟨[], rfl, rfl⟩
    | cons c s ih =>
      obtain ⟨ps, hread, hjoin⟩ := ih
      obtain ⟨p, hp, hpjoin⟩ := readParts_escapeChar c
      refine ⟨p :: ps, ?_, ?_⟩
      · rw [List.flatMap_cons, List.append_assoc, hp, hread]
        rfl
      · rw [hpjoin, hjoin]
        rfl
  obtain ⟨ps, hread, hjoin⟩ := hparts
  rw [readString, hread]
  show (joinParts ps).bind _ = _
  rw [hjoin]
  rfl

/-! ## How texts open -/

theorem skipLayout_cons {c : Char} (h : isLayout c = false) (cs : List Char) :
    skipLayout (c :: cs) = c :: cs := List.dropWhile_cons_of_neg (by simp [h])

/-- What a numeral opens with is neither a mark nor a letter. -/
theorem ne_of_numeral {c d : Char} (hc : c = '-' ∨ c.isDigit = true) (hminus : d ≠ '-')
    (hdigit : d.isDigit = false) : c ≠ d := by
  rintro rfl
  rcases hc with hc | hc
  · exact hminus hc
  · rw [hdigit] at hc
    cases hc

theorem isLayout_of_numeral {c : Char} (hc : c = '-' ∨ c.isDigit = true) : isLayout c = false := by
  simp only [isLayout, Bool.or_eq_false_iff, beq_eq_false_iff_ne]
  exact ⟨⟨⟨ne_of_numeral hc (by decide) rfl, ne_of_numeral hc (by decide) rfl⟩,
    ne_of_numeral hc (by decide) rfl⟩, ne_of_numeral hc (by decide) rfl⟩

/-- A numeral opens with a minus sign or a digit. -/
theorem head_of_readNumber {cs : List Char} {r : Number × List Char}
    (h : readNumber cs = some r) : ∃ c cs', cs = c :: cs' ∧ (c = '-' ∨ c.isDigit = true) := by
  cases cs with
  | nil => exact absurd h nofun
  | cons c cs =>
    refine ⟨c, cs, rfl, ?_⟩
    by_cases hminus : c = '-'
    · exact .inl hminus
    · by_cases hdigit : c.isDigit = true
      · exact .inr hdigit
      · have hnone : readWhole (c :: cs) = none := by
          rw [readWhole, Decimal.spanDigits, List.takeWhile_cons_of_neg hdigit]
        unfold readNumber at h
        split at h
        rename_i neg cs' hsign
        split at hsign
        · rename_i heq
          exact absurd (List.cons.inj heq).1 hminus
        · cases hsign
          rw [hnone] at h
          cases h

theorem readScalar_of_readNumber {cs rest : List Char} {n : Number}
    (h : readNumber cs = some (n, rest)) : readScalar cs = some (.num n, rest) := by
  obtain ⟨c, cs, rfl, hc⟩ := head_of_readNumber h
  have hne : ∀ d : Char, d ≠ '-' → d.isDigit = false → c ≠ d := fun _ => ne_of_numeral hc
  unfold readScalar
  split
  · rename_i heq
    exact absurd (List.cons.inj heq).1 (hne 'n' (by decide) rfl)
  · rename_i heq
    exact absurd (List.cons.inj heq).1 (hne 't' (by decide) rfl)
  · rename_i heq
    exact absurd (List.cons.inj heq).1 (hne 'f' (by decide) rfl)
  · rename_i heq
    exact absurd (List.cons.inj heq).1 (hne '"' (by decide) rfl)
  · rw [h]
    rfl

/-- A text opens with no blank and closes nothing. -/
theorem text_head (v : Json) (rest : List Char) :
    ∃ c cs, v.text ++ rest = c :: cs ∧ isLayout c = false ∧ c ≠ ']' ∧ c ≠ '\x7d' := by
  cases v with
  | null => exact ⟨'n', _, rfl, rfl, by decide, by decide⟩
  | bool b =>
    cases b with
    | true => exact ⟨'t', _, rfl, rfl, by decide, by decide⟩
    | false => exact ⟨'f', _, rfl, rfl, by decide, by decide⟩
  | str s => exact ⟨'"', _, rfl, rfl, by decide, by decide⟩
  | arr l => exact ⟨'[', _, rfl, rfl, by decide, by decide⟩
  | obj l => exact ⟨'\x7b', _, rfl, rfl, by decide, by decide⟩
  | num n =>
    have hread : readNumber (n.text ++ []) = some (n.reread, []) := readNumber_text n nofun
    obtain ⟨c, cs, htext, hc⟩ := head_of_readNumber hread
    rw [List.append_nil] at htext
    exact ⟨c, cs ++ rest, by rw [text, htext]; rfl, isLayout_of_numeral hc,
      ne_of_numeral hc (by decide) rfl, ne_of_numeral hc (by decide) rfl⟩

theorem skipLayout_text (v : Json) (rest : List Char) :
    skipLayout (v.text ++ rest) = v.text ++ rest := by
  obtain ⟨c, cs, htext, hlayout, -, -⟩ := text_head v rest
  rw [htext, skipLayout_cons hlayout]

/-- What opens no array and no object is read as a scalar at any depth. -/
theorem readValue_scalar {c : Char} (hlayout : isLayout c = false) (hbracket : c ≠ '[')
    (hbrace : c ≠ '\x7b') (d : Nat) (cs : List Char) :
    readValue d (c :: cs) = readScalar (c :: cs) := by
  cases d with
  | zero =>
    rw [readValue, skipLayout_cons hlayout]
    split
    · rename_i heq
      exact absurd (List.cons.inj heq).1 hbracket
    · rename_i heq
      exact absurd (List.cons.inj heq).1 hbrace
    · rfl
  | succ d =>
    rw [readValue, skipLayout_cons hlayout]
    split
    · rename_i heq
      exact absurd (List.cons.inj heq).1 hbracket
    · rename_i heq
      exact absurd (List.cons.inj heq).1 hbrace
    · rfl

/-! ## Values -/

theorem endsNumeral_cons {c : Char} (h : c.isDigit = false ∧ c ≠ '.' ∧ c ≠ 'e' ∧ c ≠ 'E')
    (cs : List Char) : EndsNumeral (c :: cs) := by
  intro c' hc'
  cases hc'
  exact h

theorem endsNumeral_moreItemsText (l : List Json) (rest : List Char) :
    EndsNumeral (moreItemsText l ++ rest) := by
  cases l with
  | nil => exact endsNumeral_cons (by decide) _
  | cons a l => exact endsNumeral_cons (by decide) _

theorem endsNumeral_moreFieldsText (l : Fields) (rest : List Char) :
    EndsNumeral (moreFieldsText l ++ rest) := by
  cases l with
  | nil => exact endsNumeral_cons (by decide) _
  | cons a l => exact endsNumeral_cons (by decide) _

theorem length_moreItemsText (l : List Json) : l.length < (moreItemsText l).length := by
  induction l with
  | nil => exact Nat.one_pos
  | cons a l ih =>
    rw [moreItemsText, List.length_cons, List.length_cons, List.length_append]
    omega

theorem length_moreFieldsText (l : Fields) : l.length < (moreFieldsText l).length := by
  induction l with
  | nil => exact Nat.one_pos
  | cons f l ih =>
    obtain ⟨k, a⟩ := f
    rw [moreFieldsText, List.length_cons, List.length_cons, List.length_append, List.length_cons,
      List.length_append]
    omega

/-- At depth `d` the text of the value is read exactly if the value is no deeper. -/
def ReadsBack (d : Nat) (v : Json) : Prop :=
  ∀ rest, EndsNumeral rest →
    readValue d (v.text ++ rest) = if v.depth ≤ d then some (v.reread.sorted, rest) else none

def ItemsReadBack (d : Nat) (l : List Json) : Prop :=
  ∀ n rest, l.length < n →
    readItems (readValue d) n (moreItemsText l ++ rest) =
      if itemsDepth l ≤ d then some (sortedItems (rereadItems l), rest) else none

def FieldsReadBack (d : Nat) (l : Fields) : Prop :=
  ∀ n rest, l.length < n →
    readFields (readValue d) n (moreFieldsText l ++ rest) =
      if fieldsDepth l ≤ d then some (sortedFields (rereadFields l), rest) else none

section Steps

variable {d : Nat} {a : Json} {k : String}

theorem bind_ite {α β : Type} {p : Prop} [Decidable p] (x : α) (f : α → Option β) :
    (if p then some x else none).bind f = if p then f x else none := by
  split
  · rfl
  · rfl

/-- Two readings in turn succeed exactly if neither goes too deep. -/
theorem ite_max {α : Type} (m n : Nat) (x : Option α) :
    (if m ≤ d then if n ≤ d then x else none else none) = if max m n ≤ d then x else none := by
  simp only [Nat.max_le, ite_and]

theorem itemsReadBack_nil : ItemsReadBack d [] := by
  intro n rest hn
  obtain ⟨n, rfl⟩ := Nat.exists_eq_add_of_lt hn
  rfl

theorem itemsReadBack_cons {l : List Json} (ha : ReadsBack d a) (hl : ItemsReadBack d l) :
    ItemsReadBack d (a :: l) := by
  intro n rest hn
  obtain ⟨n, rfl⟩ := Nat.exists_eq_add_of_lt hn
  have hfuel : l.length < (a :: l).length + n := by
    rw [List.length_cons]
    omega
  have htext : moreItemsText (a :: l) ++ rest = ',' :: (a.text ++ (moreItemsText l ++ rest)) := by
    rw [moreItemsText, List.cons_append, List.append_assoc]
  rw [htext]
  show (readValue d (a.text ++ (moreItemsText l ++ rest))).bind (fun r =>
    (readItems (readValue d) ((a :: l).length + n) r.2).bind fun q => some (r.1 :: q.1, q.2)) = _
  rw [ha _ (endsNumeral_moreItemsText l rest), bind_ite, hl _ rest hfuel, bind_ite, ite_max]
  rfl

theorem fieldsReadBack_nil : FieldsReadBack d [] := by
  intro n rest hn
  obtain ⟨n, rfl⟩ := Nat.exists_eq_add_of_lt hn
  rfl

theorem readField_text (ha : ReadsBack d a) {rest : List Char} (hrest : EndsNumeral rest) :
    readField (readValue d) (stringText k.toList ++ ':' :: (a.text ++ rest)) =
      if a.depth ≤ d then some ((k, a.reread.sorted), rest) else none := by
  have htext : stringText k.toList ++ ':' :: (a.text ++ rest) =
      '"' :: (k.toList.flatMap escapeChar ++ '"' :: ':' :: (a.text ++ rest)) := by
    rw [stringText, List.cons_append, List.append_assoc]
    rfl
  rw [htext]
  show (readString (k.toList.flatMap escapeChar ++ '"' :: ':' :: (a.text ++ rest))).bind _ = _
  rw [readString_escaped, Option.bind_some]
  show (readValue d (a.text ++ rest)).bind _ = _
  rw [ha rest hrest, bind_ite, String.ofList_toList]
  rfl

theorem fieldsReadBack_cons {l : Fields} (ha : ReadsBack d a) (hl : FieldsReadBack d l) :
    FieldsReadBack d ((k, a) :: l) := by
  intro n rest hn
  obtain ⟨n, rfl⟩ := Nat.exists_eq_add_of_lt hn
  have hfuel : l.length < ((k, a) :: l).length + n := by
    rw [List.length_cons]
    omega
  have htext : moreFieldsText ((k, a) :: l) ++ rest =
      ',' :: (stringText k.toList ++ ':' :: (a.text ++ (moreFieldsText l ++ rest))) := by
    rw [moreFieldsText, List.cons_append, List.append_assoc, List.cons_append, List.append_assoc]
  rw [htext]
  show (readField (readValue d) (stringText k.toList ++
    ':' :: (a.text ++ (moreFieldsText l ++ rest)))).bind (fun r =>
      (readFields (readValue d) (((k, a) :: l).length + n) r.2).bind fun q =>
        some (r.1 :: q.1, q.2)) = _
  rw [readField_text ha (endsNumeral_moreFieldsText l rest), bind_ite, hl _ rest hfuel,
    bind_ite, ite_max]
  rfl

/-- An array is one level deeper than its items. -/
theorem readsBack_arr {l : List Json} (ha : ReadsBack d a) (hl : ItemsReadBack d l) :
    ReadsBack (d + 1) (.arr (a :: l)) := by
  intro rest _
  have htext : text (.arr (a :: l)) ++ rest = '[' :: (a.text ++ (moreItemsText l ++ rest)) := by
    rw [text, itemsText, List.cons_append, List.append_assoc]
  have hopen : readArray (readValue d) (a.text ++ (moreItemsText l ++ rest)) =
      (readValue d (a.text ++ (moreItemsText l ++ rest))).bind fun r =>
        (readItems (readValue d) (r.2.length + 1) r.2).bind fun q =>
          some (.arr (r.1 :: q.1), q.2) := by
    obtain ⟨c, cs, hc, -, hclose, -⟩ := text_head a (moreItemsText l ++ rest)
    unfold readArray
    rw [skipLayout_text]
    split
    · rename_i heq
      exact absurd (List.cons.inj (hc.symm.trans heq)).1 hclose
    · rfl
  -- The bound on the number of items is the length of the text they stand in.
  have hfuel : l.length < (moreItemsText l ++ rest).length + 1 := by
    have := length_moreItemsText l
    rw [List.length_append]
    omega
  rw [htext]
  show readArray (readValue d) (a.text ++ (moreItemsText l ++ rest)) = _
  rw [hopen, ha _ (endsNumeral_moreItemsText l rest), bind_ite, hl _ rest hfuel, bind_ite, ite_max,
    depth, itemsDepth]
  simp only [Nat.add_le_add_iff_right]
  rfl

/-- An object is one level deeper than its fields. -/
theorem readsBack_obj {l : Fields} (ha : ReadsBack d a) (hl : FieldsReadBack d l) :
    ReadsBack (d + 1) (.obj ((k, a) :: l)) := by
  intro rest _
  have htext : text (.obj ((k, a) :: l)) ++ rest =
      '\x7b' :: (stringText k.toList ++ ':' :: (a.text ++ (moreFieldsText l ++ rest))) := by
    rw [text, fieldsText, List.cons_append, List.append_assoc, List.cons_append, List.append_assoc]
  have hfuel : l.length < (moreFieldsText l ++ rest).length + 1 := by
    have := length_moreFieldsText l
    rw [List.length_append]
    omega
  rw [htext]
  show (readField (readValue d) (stringText k.toList ++
    ':' :: (a.text ++ (moreFieldsText l ++ rest)))).bind (fun r =>
      (readFields (readValue d) (r.2.length + 1) r.2).bind fun q =>
        some (object (r.1 :: q.1), q.2)) = _
  rw [readField_text ha (endsNumeral_moreFieldsText l rest), bind_ite, hl _ rest hfuel, bind_ite,
    ite_max, depth, fieldsDepth]
  simp only [Nat.add_le_add_iff_right]
  rfl

theorem readsBack_str (s : String) : ReadsBack d (.str s) := by
  intro rest _
  have htext : text (.str s) ++ rest = '"' :: (s.toList.flatMap escapeChar ++ '"' :: rest) := by
    rw [text, stringText, List.cons_append, List.append_assoc]
    rfl
  rw [htext, readValue_scalar rfl (by decide) (by decide)]
  show (readString (s.toList.flatMap escapeChar ++ '"' :: rest)).bind _ = _
  rw [readString_escaped, Option.bind_some]
  show some (Json.str (String.ofList s.toList), rest) = _
  rw [String.ofList_toList]
  rfl

theorem readsBack_num (n : Number) : ReadsBack d (.num n) := by
  intro rest hrest
  have hread := readNumber_text n hrest
  obtain ⟨c, cs, htext, hc⟩ := head_of_readNumber hread
  have hscalar : readValue d (c :: cs) = readScalar (c :: cs) :=
    readValue_scalar (isLayout_of_numeral hc) (ne_of_numeral hc (by decide) rfl)
      (ne_of_numeral hc (by decide) rfl) d cs
  show readValue d (n.text ++ rest) = _
  rw [htext, hscalar, ← htext, readScalar_of_readNumber hread]
  rfl

end Steps

-- By recursion on the value; the depth falls with every bracket and brace, and where none is left
-- an array and an object are refused at once.
mutual

/-- Every value is read back at a depth that is enough for it, and at no other. -/
theorem readsBack : ∀ (d : Nat) (v : Json), ReadsBack d v
  | d, .null => fun _ _ => readValue_scalar rfl (by decide) (by decide) d _
  | d, .bool true => fun _ _ => readValue_scalar rfl (by decide) (by decide) d _
  | d, .bool false => fun _ _ => readValue_scalar rfl (by decide) (by decide) d _
  | _, .num n => readsBack_num n
  | _, .str s => readsBack_str s
  | 0, .arr _ => fun _ _ => rfl
  | 0, .obj _ => fun _ _ => rfl
  | _ + 1, .arr [] => fun _ _ => rfl
  | d + 1, .arr (a :: l) => readsBack_arr (readsBack d a) (itemsReadBack d l)
  | _ + 1, .obj [] => fun _ _ => rfl
  | d + 1, .obj ((_, a) :: l) => readsBack_obj (readsBack d a) (fieldsReadBack d l)

theorem itemsReadBack : ∀ (d : Nat) (l : List Json), ItemsReadBack d l
  | _, [] => itemsReadBack_nil
  | d, a :: l => itemsReadBack_cons (readsBack d a) (itemsReadBack d l)

theorem fieldsReadBack : ∀ (d : Nat) (l : Fields), FieldsReadBack d l
  | _, [] => fieldsReadBack_nil
  | d, (_, a) :: l => fieldsReadBack_cons (readsBack d a) (fieldsReadBack d l)

end

/-- The compact text of a value is read exactly if the value is not too deep, and as the value
with its fields sorted. -/
theorem ofString?_compact (v : Json) :
    ofString? v.compact = if v.depth ≤ depthLimit then some v.reread.sorted else none := by
  have hread := readsBack depthLimit v [] nofun
  rw [List.append_nil] at hread
  rw [ofString?, compact, String.toList_ofList, ofText?, hread]
  show Option.bind _ _ = _
  rw [bind_ite]
  rfl

end Flowgraph.Json
