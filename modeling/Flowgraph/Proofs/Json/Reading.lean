import Flowgraph.Proofs.Json.Scalars

/-!
# What the reader takes of a text

Whatever the reader of values takes of a text is balanced

    readValue d cs = some (v, rest) → ∃ t, cs = t ++ rest ∧ Balanced t        (steady_readValue)

and more text behind it changes nothing, nor does more depth; only a numeral or a word at the end of a
text could go on (`readValue_append`).
-/

namespace Flowgraph.Json

/-! ## Fields, arrays and objects -/

section

variable {value value' : List Char → Option (Json × List Char)}

theorem steady_readField (hvalue : Steady Balanced value value') :
    Steady Balanced (readField value) (readField value') := by
  intro cs v rest h
  obtain ⟨layout, hcs, hlayout⟩ := exists_layout cs
  unfold readField at h
  split at h
  · rename_i tail hquote
    obtain ⟨⟨key, tail'⟩, hkey, h⟩ := Option.bind_eq_some_iff.1 h
    dsimp only at h
    split at h
    · rename_i tail'' hcolon
      obtain ⟨⟨u, rest'⟩, hu, heq⟩ := Option.bind_eq_some_iff.1 h
      cases heq
      obtain ⟨b, rfl, hb, hmore⟩ := closes_readString _ _ _ hkey
      obtain ⟨layout', htail', hlayout'⟩ := exists_layout tail'
      obtain ⟨t, rfl, ht, hmore'⟩ := hvalue _ _ _ hu
      refine ⟨layout ++ ('"' :: (b ++ '"' :: (layout' ++ (':' :: t)))), ?_, ?_, ?_⟩
      · rw [hcs, hquote, htail', hcolon]
        simp only [List.append_assoc, List.cons_append]
      · exact hlayout.append (.string hb (hlayout'.append (.plain (by decide) ht)))
      · intro more hguard
        unfold readField
        rw [skipLayout_append (by rw [hquote]; exact List.cons_ne_nil _ _), hquote]
        show ((readString (b ++ '"' :: tail' ++ more)).bind _) = _
        rw [hmore more, Option.bind_some]
        dsimp only
        rw [skipLayout_append (by rw [hcolon]; exact List.cons_ne_nil _ _), hcolon]
        show ((value' (t ++ rest' ++ more)).bind _) = _
        rw [hmore' more hguard]
        rfl
    · cases h
  · cases h

end

/-! ### Arrays and objects

Items and fields are rows of the same shape, so what is said of rows is said of both. -/

section

variable {α : Type}

/-- What follows the first part of a row, up to the character that closes it. -/
def readRow (close : Char) (part : List Char → Option (α × List Char)) :
    Nat → List Char → Option (List α × List Char)
  | 0, _ => none
  | n + 1, cs =>
    match skipLayout cs with
    | [] => none
    | c :: rest =>
      if c = close then some ([], rest)
      else if c = ',' then (part rest).bind fun r =>
        (readRow close part n r.2).bind fun s => some (r.1 :: s.1, s.2)
      else none

/-- What stands after an opening character. -/
def readGroup (close : Char) (part : List Char → Option (α × List Char)) (cs : List Char) :
    Option (List α × List Char) :=
  if (skipLayout cs).head? = some close then some ([], (skipLayout cs).tail)
  else (part cs).bind fun r =>
    (readRow close part (r.2.length + 1) r.2).bind fun s => some (r.1 :: s.1, s.2)

theorem closes_readRow {close : Char} {part part' : List Char → Option (α × List Char)}
    (hpart : Steady Balanced part part') {n n' : Nat} (hn : n ≤ n') :
    Closes Balanced close (readRow close part n) (readRow close part' n') := by
  induction n generalizing n' with
  | zero =>
    intro cs v rest h
    cases h
  | succ n ih =>
    intro cs v rest h
    obtain ⟨m, rfl⟩ : ∃ m, n' = m + 1 := ⟨n' - 1, by omega⟩
    obtain ⟨layout, hcs, hlayout⟩ := exists_layout cs
    unfold readRow at h
    cases hskip : skipLayout cs with
    | nil =>
      rw [hskip] at h
      cases h
    | cons c tail =>
      rw [hskip] at h hcs
      dsimp only at h
      have hmore : ∀ more, skipLayout (cs ++ more) = c :: (tail ++ more) := by
        intro more
        rw [skipLayout_append (by rw [hskip]; exact List.cons_ne_nil c tail), hskip]
        rfl
      by_cases hclose : c = close
      · rw [if_pos hclose] at h
        cases h
        subst hclose
        refine ⟨layout, hcs, hlayout, fun more => ?_⟩
        unfold readRow
        rw [hmore more]
        exact if_pos rfl
      · rw [if_neg hclose] at h
        by_cases hcomma : c = ','
        · rw [if_pos hcomma] at h
          subst hcomma
          obtain ⟨⟨a, mid⟩, ha, h⟩ := Option.bind_eq_some_iff.1 h
          obtain ⟨⟨as, tail'⟩, has, heq⟩ := Option.bind_eq_some_iff.1 h
          cases heq
          obtain ⟨t, rfl, ht, hpart'⟩ := hpart _ _ _ ha
          obtain ⟨b, rfl, hbal, hrow⟩ := ih (Nat.le_of_succ_le_succ hn) _ _ _ has
          refine ⟨layout ++ (',' :: (t ++ b)), ?_, ?_, fun more => ?_⟩
          · rw [hcs]
            simp only [List.append_assoc, List.cons_append]
          · exact hlayout.append (.plain (by decide) (ht.append hbal))
          · have hmid : b ++ close :: tail' = [] → more = [] := by
              intro hnil
              exact absurd (List.append_eq_nil_iff.1 hnil).2 (List.cons_ne_nil close tail')
            unfold readRow
            rw [hmore more]
            dsimp only
            rw [if_neg hclose, if_pos rfl, hpart' more hmid, Option.bind_some]
            dsimp only
            rw [hrow more]
            rfl
        · rw [if_neg hcomma] at h
          cases h

theorem closes_readGroup {close : Char} (hclose : isLayout close = false)
    {part part' : List Char → Option (α × List Char)} (hpart : Steady Balanced part part') :
    Closes Balanced close (readGroup close part) (readGroup close part') := by
  intro cs v rest h
  obtain ⟨layout, hcs, hlayout⟩ := exists_layout cs
  -- the text holds the closing character, so it is not all layout
  have hmore : close ∈ cs → ∀ more, skipLayout (cs ++ more) = skipLayout cs ++ more ∧
      (skipLayout (cs ++ more)).head? = (skipLayout cs).head? := by
    intro hmem more
    have hne : skipLayout cs ≠ [] := by
      intro hnil
      have hall := List.dropWhile_eq_nil_iff.1 hnil close hmem
      rw [hclose] at hall
      cases hall
    refine ⟨skipLayout_append hne more, ?_⟩
    rw [skipLayout_append hne more]
    exact List.head?_append_of_ne_nil _ hne
  unfold readGroup at h
  by_cases hempty : (skipLayout cs).head? = some close
  · rw [if_pos hempty] at h
    cases h
    obtain ⟨tail, htail⟩ := List.head?_eq_some_iff.1 hempty
    rw [htail] at hcs
    refine ⟨layout, ?_, hlayout, fun more => ?_⟩
    · rw [htail]
      exact hcs
    · have hmem : close ∈ cs := by
        rw [hcs]
        exact List.mem_append_right _ List.mem_cons_self
      unfold readGroup
      rw [(hmore hmem more).2, if_pos hempty, (hmore hmem more).1, htail]
      rfl
  · rw [if_neg hempty] at h
    obtain ⟨⟨a, mid⟩, ha, h⟩ := Option.bind_eq_some_iff.1 h
    obtain ⟨⟨as, tail⟩, has, heq⟩ := Option.bind_eq_some_iff.1 h
    cases heq
    obtain ⟨t, rfl, ht, hpart'⟩ := hpart _ _ _ ha
    have hrow : ∀ more, Closes Balanced close (readRow close part (mid.length + 1))
        (readRow close part' ((mid ++ more).length + 1)) := by
      intro more
      apply closes_readRow hpart
      rw [List.length_append]
      omega
    obtain ⟨b, rfl, hbal, -⟩ := hrow [] _ _ _ has
    refine ⟨t ++ b, (List.append_assoc t b _).symm, ht.append hbal, fun more => ?_⟩
    have hmem : close ∈ t ++ (b ++ close :: tail) := by
      simp
    have hmid : b ++ close :: tail = [] → more = [] := by
      intro hnil
      exact absurd (List.append_eq_nil_iff.1 hnil).2 (List.cons_ne_nil close tail)
    obtain ⟨-, -, -, hrow'⟩ := hrow more _ _ _ has
    unfold readGroup
    rw [(hmore hmem more).2, if_neg hempty, hpart' more hmid, Option.bind_some]
    dsimp only
    rw [hrow' more]
    rfl

end

section

variable {value value' : List Char → Option (Json × List Char)}

/-- A reader of rows, by what it does on the character that comes next. -/
theorem eq_readRow {α : Type} {close : Char} {part : List Char → Option (α × List Char)}
    {read : Nat → List Char → Option (List α × List Char)}
    (hzero : ∀ cs, read 0 cs = none)
    (hclose : ∀ n cs rest, skipLayout cs = close :: rest → read (n + 1) cs = some ([], rest))
    (hmore : ∀ n cs rest, skipLayout cs = ',' :: rest → read (n + 1) cs =
      (part rest).bind fun r => (read n r.2).bind fun s => some (r.1 :: s.1, s.2))
    (hother : ∀ n cs, (∀ rest, skipLayout cs ≠ close :: rest) →
      (∀ rest, skipLayout cs ≠ ',' :: rest) → read (n + 1) cs = none) (n : Nat) (cs : List Char) :
    read n cs = readRow close part n cs := by
  induction n generalizing cs with
  | zero => exact hzero cs
  | succ n ih =>
    unfold readRow
    cases hskip : skipLayout cs with
    | nil =>
      apply hother n cs
      · simp [hskip]
      · simp [hskip]
    | cons c rest =>
      dsimp only
      by_cases hc : c = close
      · rw [if_pos hc]
        exact hclose n cs rest (hc ▸ hskip)
      · rw [if_neg hc]
        by_cases hc' : c = ','
        · rw [if_pos hc', hmore n cs rest (hc' ▸ hskip)]
          simp only [ih]
        · rw [if_neg hc']
          apply hother n cs
          · intro tail htail
            exact hc (List.cons.inj (hskip.symm.trans htail)).1
          · intro tail htail
            exact hc' (List.cons.inj (hskip.symm.trans htail)).1

theorem readItems_eq_readRow (n : Nat) (cs : List Char) :
    readItems value n cs = readRow ']' value n cs := by
  apply eq_readRow (fun cs => rfl)
  · intro n cs rest hskip
    rw [readItems, hskip]
    rfl
  · intro n cs rest hskip
    rw [readItems, hskip]
    rfl
  · intro n cs hclose hcomma
    unfold readItems
    split
    · exact absurd ‹_› (hclose _)
    · exact absurd ‹_› (hcomma _)
    · rfl

theorem readFields_eq_readRow (n : Nat) (cs : List Char) :
    readFields value n cs = readRow '\x7d' (readField value) n cs := by
  apply eq_readRow (fun cs => rfl)
  · intro n cs rest hskip
    rw [readFields, hskip]
    rfl
  · intro n cs rest hskip
    rw [readFields, hskip]
    rfl
  · intro n cs hclose hcomma
    unfold readFields
    split
    · exact absurd ‹_› (hclose _)
    · exact absurd ‹_› (hcomma _)
    · rfl

/-- A reader of groups, by whether the group is empty. -/
theorem eq_readGroup {α : Type} {close : Char} {part : List Char → Option (α × List Char)}
    {make : List α → Json} {cs : List Char} {result : Option (Json × List Char)}
    (hempty : ∀ rest, skipLayout cs = close :: rest → result = some (make [], rest))
    (hfirst : (∀ rest, skipLayout cs ≠ close :: rest) → result = (part cs).bind fun r =>
      (readRow close part (r.2.length + 1) r.2).bind fun s => some (make (r.1 :: s.1), s.2)) :
    result = (readGroup close part cs).map fun r => (make r.1, r.2) := by
  unfold readGroup
  by_cases hhead : (skipLayout cs).head? = some close
  · obtain ⟨rest, hrest⟩ := List.head?_eq_some_iff.1 hhead
    rw [if_pos hhead, hempty rest hrest, hrest]
    rfl
  · rw [if_neg hhead, hfirst fun rest hrest => hhead (by rw [hrest]; rfl)]
    cases part cs with
    | none => rfl
    | some r =>
      dsimp only [Option.bind_some]
      cases readRow close part (r.2.length + 1) r.2 <;> rfl

theorem readArray_eq_readGroup (cs : List Char) :
    readArray value cs = (readGroup ']' value cs).map fun r => (.arr r.1, r.2) := by
  apply eq_readGroup
  · intro rest hskip
    rw [readArray, hskip]
    rfl
  · intro hclose
    unfold readArray
    split
    · exact absurd ‹_› (hclose _)
    · simp only [readItems_eq_readRow]
      rfl

theorem readObject_eq_readGroup (cs : List Char) :
    readObject value cs = (readGroup '\x7d' (readField value) cs).map fun r => (object r.1, r.2) := by
  apply eq_readGroup
  · intro rest hskip
    rw [readObject, hskip]
    rfl
  · intro hclose
    unfold readObject
    split
    · exact absurd ‹_› (hclose _)
    · simp only [readFields_eq_readRow]
      rfl

theorem Closes.map {α β : Type} {sort : List Char → Prop} {close : Char}
    {read read' : List Char → Option (α × List Char)} (h : Closes sort close read read') (f : α → β) :
    Closes sort close (fun cs => (read cs).map fun r => (f r.1, r.2))
      (fun cs => (read' cs).map fun r => (f r.1, r.2)) := by
  intro cs v rest hread
  obtain ⟨⟨a, tail⟩, ha, heq⟩ := Option.map_eq_some_iff.1 hread
  cases heq
  obtain ⟨b, hb, hsort, hmore⟩ := h _ _ _ ha
  refine ⟨b, hb, hsort, fun more => ?_⟩
  dsimp only
  rw [hmore more]
  rfl

theorem closes_readArray (hvalue : Steady Balanced value value') :
    Closes Balanced ']' (readArray value) (readArray value') := by
  have h : Closes Balanced ']' (readGroup ']' value) (readGroup ']' value') :=
    closes_readGroup rfl hvalue
  have harray := h.map Json.arr
  simp only [← readArray_eq_readGroup] at harray
  exact harray

theorem closes_readObject (hvalue : Steady Balanced value value') :
    Closes Balanced '\x7d' (readObject value) (readObject value') := by
  have h : Closes Balanced '\x7d' (readGroup '\x7d' (readField value))
      (readGroup '\x7d' (readField value')) := closes_readGroup rfl (steady_readField hvalue)
  have hobject := h.map object
  simp only [← readObject_eq_readGroup] at hobject
  exact hobject

end

/-! ## Values -/

theorem skipLayout_skipLayout (cs : List Char) : skipLayout (skipLayout cs) = skipLayout cs :=
  List.dropWhile_idempotent isLayout cs

theorem readValue_skipLayout (d : Nat) (cs : List Char) :
    readValue d (skipLayout cs) = readValue d cs := by
  cases d with
  | zero => rw [readValue, readValue, skipLayout_skipLayout]
  | succ d => rw [readValue, readValue, skipLayout_skipLayout]

/-- A character that opens a string, an array or an object, so that another one must close it. -/
def opens (c : Char) : Bool := c == '"' || c == '[' || c == '\x7b'

theorem opens_cases {c : Char} (h : opens c = true) : c = '"' ∨ c = '[' ∨ c = '\x7b' := by
  simpa only [opens, Bool.or_eq_true, beq_iff_eq, or_assoc] using h

/-- What is taken of a text that opens with no layout, if less depth is known to be steady. -/
theorem taken_of_readValue {d d' : Nat} (hd : d ≤ d')
    (hsteady : ∀ n m, n < d → n ≤ m → Steady Balanced (readValue n) (readValue m)) {c : Char}
    {cs rest : List Char} {v : Json} (hc : isLayout c = false)
    (h : readValue d (c :: cs) = some (v, rest)) :
    ∃ t, c :: cs = t ++ rest ∧ Balanced t ∧
      ∀ more, (opens c = true ∨ (rest = [] → more = [])) →
        readValue d' (c :: (cs ++ more)) = some (v, rest ++ more) := by
  by_cases hbracket : c = '['
  · subst hbracket
    cases d with
    | zero => cases h
    | succ n =>
      obtain ⟨m, rfl⟩ : ∃ m, d' = m + 1 := ⟨d' - 1, by omega⟩
      have hinner := hsteady n m (Nat.lt_succ_self n) (Nat.le_of_succ_le_succ hd)
      obtain ⟨b, rfl, hb, hmore⟩ := closes_readArray hinner _ _ _ h
      refine ⟨'[' :: (b ++ [']']), ?_, .array hb .nil, fun more _ => hmore more⟩
      rw [List.cons_append, List.append_assoc]
      rfl
  · by_cases hbrace : c = '\x7b'
    · subst hbrace
      cases d with
      | zero => cases h
      | succ n =>
        obtain ⟨m, rfl⟩ : ∃ m, d' = m + 1 := ⟨d' - 1, by omega⟩
        have hinner := hsteady n m (Nat.lt_succ_self n) (Nat.le_of_succ_le_succ hd)
        obtain ⟨b, rfl, hb, hmore⟩ := closes_readObject hinner _ _ _ h
        refine ⟨'\x7b' :: (b ++ ['\x7d']), ?_, .object hb .nil, fun more _ => hmore more⟩
        rw [List.cons_append, List.append_assoc]
        rfl
    · rw [readValue_scalar hc hbracket hbrace] at h
      rcases taken_of_readScalar h with ⟨b, hb, hbody, hmore⟩ | ⟨hquote, t, ht, hplain, hmore⟩
      · refine ⟨'"' :: (b ++ ['"']), ?_, .string hbody .nil, fun more _ => ?_⟩
        · rw [hb, List.cons_append, List.append_assoc]
          rfl
        · rw [readValue_scalar hc hbracket hbrace]
          exact hmore more
      · refine ⟨t, ht, .of_plain hplain, fun more hguard => ?_⟩
        rw [readValue_scalar hc hbracket hbrace]
        apply hmore more
        rcases hguard with hopens | hguard
        · have hne : c ≠ '"' := by
            rintro rfl
            exact hquote cs rfl
          simp [opens, hne, hbracket, hbrace] at hopens
        · exact hguard

theorem steady_readValue {d d' : Nat} (hd : d ≤ d') : Steady Balanced (readValue d) (readValue d') := by
  induction d using Nat.strong_induction_on generalizing d' with
  | h d ih =>
    intro cs v rest h
    rw [← readValue_skipLayout] at h
    obtain ⟨layout, hcs, hlayout⟩ := exists_layout cs
    cases hskip : skipLayout cs with
    | nil =>
      rw [hskip] at h
      cases d <;> cases h
    | cons c tail =>
      rw [hskip] at h hcs
      have hc : isLayout c = false := by
        have hne : cs.dropWhile isLayout ≠ [] := by
          intro hnil
          cases hskip.symm.trans hnil
        have hhead := List.head_dropWhile_not isLayout hne
        simp only [show cs.dropWhile isLayout = c :: tail from hskip, List.head_cons] at hhead
        exact hhead
      obtain ⟨t, ht, hbal, hmore⟩ := taken_of_readValue hd (fun n m hn hm => ih n hn hm) hc h
      refine ⟨layout ++ t, ?_, hlayout.append hbal, fun more hguard => ?_⟩
      · rw [hcs, ht, List.append_assoc]
      · rw [← readValue_skipLayout, skipLayout_append (by rw [hskip]; exact List.cons_ne_nil _ _),
          hskip]
        exact hmore more (.inr hguard)

/-- More text and more depth change nothing, unless a numeral or a word at the end goes on. -/
theorem readValue_append {d d' : Nat} (hd : d ≤ d') {c : Char} {cs rest : List Char} {v : Json}
    (hc : opens c = true) (h : readValue d (c :: cs) = some (v, rest)) (more : List Char) :
    readValue d' (c :: (cs ++ more)) = some (v, rest ++ more) := by
  have hlayout : isLayout c = false := by
    rcases opens_cases hc with rfl | rfl | rfl <;> rfl
  obtain ⟨t, -, -, hmore⟩ := taken_of_readValue hd (fun n m _ hm => steady_readValue hm) hlayout h
  exact hmore more (.inl hc)

/-- A value is the same at any depth that it can be read at. -/
theorem readValue_mono {d d' : Nat} (hd : d ≤ d') {cs rest : List Char} {v : Json}
    (h : readValue d cs = some (v, rest)) : readValue d' cs = some (v, rest) := by
  obtain ⟨t, -, -, hmore⟩ := steady_readValue hd _ _ _ h
  have hsame := hmore [] fun _ => rfl
  rw [List.append_nil, List.append_nil] at hsame
  exact hsame

/-- However deep a text is read, the value is the same and so is what is left. -/
theorem readValue_unique {d d' : Nat} {cs rest rest' : List Char} {v w : Json}
    (h : readValue d cs = some (v, rest)) (h' : readValue d' cs = some (w, rest')) :
    w = v ∧ rest' = rest := by
  have hleft := readValue_mono (Nat.le_max_left d d') h
  have hright := readValue_mono (Nat.le_max_right d d') h'
  rw [hleft] at hright
  cases hright
  exact ⟨rfl, rfl⟩

theorem ofText?_eq_some {cs : List Char} {v : Json} (h : ofText? cs = some v) :
    ∃ rest, readValue depthLimit cs = some (v, rest) ∧ skipLayout rest = [] := by
  unfold ofText? at h
  obtain ⟨⟨w, rest⟩, hw, h⟩ := Option.bind_eq_some_iff.1 h
  dsimp only at h
  split at h
  · rename_i hrest
    cases h
    exact ⟨rest, hw, hrest⟩
  · cases h

/-- A text that is read to its end is balanced. -/
theorem balanced_of_readValue {d : Nat} {cs : List Char} {v : Json}
    (h : readValue d cs = some (v, [])) : Balanced cs := by
  obtain ⟨t, ht, hbal, -⟩ := steady_readValue (Nat.le_refl d) _ _ _ h
  rw [List.append_nil] at ht
  rw [ht]
  exact hbal

/-- What opens nothing is plain, and it is read at any depth. -/
theorem plain_of_readValue {d : Nat} {c : Char} {cs : List Char} {v : Json}
    (hlayout : isLayout c = false) (hc : opens c = false) (h : readValue d (c :: cs) = some (v, [])) :
    Plain (c :: cs) ∧ ∀ d', readValue d' (c :: cs) = some (v, []) := by
  unfold opens at hc
  simp only [Bool.or_eq_false_iff, beq_eq_false_iff_ne] at hc
  obtain ⟨⟨hquote, hbracket⟩, hbrace⟩ := hc
  rw [readValue_scalar hlayout hbracket hbrace] at h
  constructor
  · rcases taken_of_readScalar h with ⟨b, hb, -⟩ | ⟨-, t, ht, hplain, -⟩
    · exact absurd (List.cons.inj hb).1 hquote
    · rw [ht, List.append_nil]
      exact hplain
  · intro d'
    rw [readValue_scalar hlayout hbracket hbrace]
    exact h

end Flowgraph.Json
