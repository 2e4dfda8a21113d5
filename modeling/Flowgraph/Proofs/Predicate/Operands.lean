import Flowgraph.Proofs.Predicate.Accessors
import Flowgraph.Proofs.Predicate.Scanning

/-!
# Operands and what they denote

The operands that predicates are written with, as terms: a dotted path, `state` with accessors, JSON
text, text between single quotes, and the words for truth values and null.  A term has a text and
denotes a value in a state.  What is read of a legible term has the value that the term denotes
(`operand?_text`), and nothing is read of one that is not legible (`operand?_of_not_legible`).

The search for a comparison goes over the text of a term and leaves nothing open, unless the term is
JSON text in which a quote is escaped (`passes_text`).
-/

namespace Flowgraph.Predicate

open Text (isWordChar isWordStart isBlank Trimmed)

/-! ## Terms -/

/-- An operand as it is written. -/
inductive Term where
  | path (head : List Char) (tail : List (List Char))
  | rooted (accessors : List Accessor)
  | json (cs : List Char)
  | quoted (cs : List Char)
  | word (cs : List Char)

namespace Term

def text : Term → List Char
  | path head tail => head ++ tail.flatMap ('.' :: ·)
  | rooted as => 's' :: 't' :: 'a' :: 't' :: 'e' :: as.flatMap Accessor.text
  | json cs => cs
  | quoted cs => '\'' :: (cs ++ ['\''])
  | word cs => cs

/-- A path opens with an identifier, goes on with words, and is neither one that starts at `state` nor
a literal; JSON text is read to its end at some depth. -/
def WellFormed : Term → Prop
  | path head tail =>
    (∃ c cs, head = c :: cs ∧ isWordStart c = true) ∧
    (∀ piece ∈ head :: tail, piece ≠ [] ∧ ∀ c ∈ piece, isWordChar c = true) ∧
    (head = "state".toList → tail = []) ∧
    (tail = [] → word? head = none ∧
      head ∉ ["null".toList, "true".toList, "false".toList])
  | rooted as => as ≠ [] ∧ ∀ a ∈ as, a.WellFormed
  | json cs => Trimmed cs ∧ ∃ d v, Json.readValue d cs = some (v, [])
  | quoted cs => '\'' ∉ cs
  | word cs => (word? cs).isSome = true

/-- The value of an operand in a state, where there is one. -/
def Denotes (s : State) : Term → Json → Prop
  | path head tail, v => (Operand.path ((head :: tail).map String.ofList)).resolve s = .ok v
  | rooted as, v => (Operand.path (as.map fun a => String.ofList a.segment)).resolve s = .ok v
  | json cs, v => ∃ d, Json.readValue d cs = some (v, [])
  | quoted cs, v => v = .str (String.ofList cs)
  | word cs, v => word? cs = some v

/-- No key holds a closing bracket, and JSON text does not nest deeper than is read. -/
def Legible : Term → Prop
  | rooted as => as.all Accessor.legible = true
  | json cs => ∃ v, Json.readValue Json.depthLimit cs = some (v, [])
  | _ => True

/-- No quote is escaped in JSON text. -/
def Unescaped : Term → Prop
  | json cs => escapesQuote cs = false
  | _ => True

end Term

/-! ### Words and JSON text -/

theorem ne_of_isWordStart {c d : Char} (hc : isWordStart c = true) (hd : isWordStart d = false) :
    c ≠ d := by
  rintro rfl
  rw [hc] at hd
  cases hd

theorem isWordChar_of_isWordStart {c : Char} (h : isWordStart c = true) : isWordChar c = true := by
  simp only [isWordStart, Bool.or_eq_true] at h
  simp only [isWordChar, Char.isAlphanum, Bool.or_eq_true]
  exact h.imp_left .inl

theorem isLayout_of_not_isBlank {c : Char} (h : isBlank c = false) : Json.isLayout c = false := by
  cases hlayout : Json.isLayout c with
  | false => rfl
  | true =>
    simp only [Json.isLayout, Bool.or_eq_true, beq_iff_eq] at hlayout
    rcases hlayout with ((rfl | rfl) | rfl) | rfl <;> cases h

theorem isDigit_of_isWordStart {c : Char} (h : isWordStart c = true) : c.isDigit = false := by
  cases hdigit : c.isDigit with
  | false => rfl
  | true =>
    have hnine : c.toNat ≤ 57 := of_decide_eq_true (Bool.and_eq_true_iff.1 hdigit).2
    simp only [isWordStart, Bool.or_eq_true, beq_iff_eq] at h
    rcases h with halpha | rfl
    · have hrange := Text.toNat_of_isAlpha halpha
      omega
    · exact absurd hnine (by decide)

/-- JSON text opens with a letter only where it opens with a word of its own. -/
theorem exists_word_of_readValue {d : Nat} {c : Char} {cs rest : List Char} {v : Json}
    (hc : isWordStart c = true) (h : Json.readValue d (c :: cs) = some (v, rest)) :
    ∃ w ∈ ["null".toList, "true".toList, "false".toList], c :: cs = w ++ rest := by
  have hlayout := isLayout_of_not_isBlank (Text.isBlank_of_isWordChar (isWordChar_of_isWordStart hc))
  rw [Json.readValue_scalar hlayout (ne_of_isWordStart hc rfl) (ne_of_isWordStart hc rfl)] at h
  unfold Json.readScalar at h
  split at h
  · rename_i heq
    cases h
    exact ⟨"null".toList, by simp, heq⟩
  · rename_i heq
    cases h
    exact ⟨"true".toList, by simp, heq⟩
  · rename_i heq
    cases h
    exact ⟨"false".toList, by simp, heq⟩
  · rename_i heq
    exact absurd (List.cons.inj heq).1 (ne_of_isWordStart hc rfl)
  · obtain ⟨⟨n, tail⟩, hn, -⟩ := Option.bind_eq_some_iff.1 h
    obtain ⟨c', cs', heq, hnumeral⟩ := Json.head_of_readNumber hn
    obtain ⟨rfl, rfl⟩ := List.cons.inj heq
    rcases hnumeral with hminus | hdigit
    · exact absurd hminus (ne_of_isWordStart hc rfl)
    · rw [isDigit_of_isWordStart hc] at hdigit
      cases hdigit

theorem singleQuoted?_of_ne {c : Char} (hc : c ≠ '\'') (cs : List Char) :
    singleQuoted? (c :: cs) = none := by
  unfold singleQuoted?
  split
  · rename_i heq
    exact absurd (List.cons.inj heq).1 hc
  · rfl

/-- Quoted text is read whatever stands between the quotes. -/
theorem singleQuoted?_eq_some_iff {cs a : List Char} :
    singleQuoted? cs = some a ↔ cs = (Term.quoted a).text := by
  constructor
  · intro h
    unfold singleQuoted? at h
    split at h
    · rename_i ds
      split at h
      · rename_i hlast
        rw [← Option.some.inj h, Term.text, List.dropLast_append_getLast? _ hlast]
      · cases h
    · cases h
  · rintro rfl
    show (if (a ++ ['\'']).getLast? = some '\'' then some (a ++ ['\'']).dropLast else none) = _
    rw [if_pos List.getLast?_concat, List.dropLast_concat]

theorem statePath?_of_ne {c : Char} (hc : c ≠ 's') (cs : List Char) : statePath? (c :: cs) = none := by
  unfold statePath?
  split
  · rename_i heq
    exact absurd (List.cons.inj heq).1 hc
  · rfl

theorem word?_cases {cs : List Char} {v : Json} (h : word? cs = some v) :
    cs = "True".toList ∨ cs = "False".toList ∨ cs = "None".toList := by
  unfold word? at h
  split at h
  · rename_i heq
    exact .inl heq
  · split at h
    · rename_i heq
      exact .inr (.inl heq)
    · split at h
      · rename_i heq
        exact .inr (.inr heq)
      · cases h

/-! ### Dotted paths -/

theorem splitAt_append {sep : Char} {head cs piece : List Char} {pieces : List (List Char)}
    (h : sep ∉ head) (hcs : Text.splitAt sep cs = piece :: pieces) :
    Text.splitAt sep (head ++ cs) = (head ++ piece) :: pieces := by
  induction head with
  | nil => exact hcs
  | cons c head ih =>
    obtain ⟨hne, hhead⟩ := not_or.1 (mt List.mem_cons.2 h)
    rw [List.cons_append, Text.splitAt, if_neg (Ne.symm hne), ih hhead]
    rfl

/-- Pieces that hold no separator are found again. -/
theorem splitAt_pieces {sep : Char} {head : List Char} {tail : List (List Char)}
    (h : ∀ piece ∈ head :: tail, sep ∉ piece) :
    Text.splitAt sep (head ++ tail.flatMap (sep :: ·)) = head :: tail := by
  induction tail generalizing head with
  | nil =>
    rw [List.flatMap_nil, splitAt_append (h head List.mem_cons_self) rfl, List.append_nil]
  | cons piece tail ih =>
    have hrest : Text.splitAt sep ((piece :: tail).flatMap (sep :: ·)) = [] :: piece :: tail := by
      rw [List.flatMap_cons, List.cons_append, Text.splitAt, if_pos rfl]
      rw [ih fun p hp => h p (List.mem_cons_of_mem head hp)]
    rw [splitAt_append (h head List.mem_cons_self) hrest, List.append_nil]

/-- Words between dots split at the dots. -/
theorem splitAt_words {head : List Char} {tail : List (List Char)}
    (h : ∀ piece ∈ head :: tail, ∀ c ∈ piece, isWordChar c = true) :
    Text.splitAt '.' (head ++ tail.flatMap ('.' :: ·)) = head :: tail := by
  apply splitAt_pieces
  intro piece hpiece hdot
  have hword := h piece hpiece '.' hdot
  cases hword

/-- An identifier and words behind it, with dots between them, are a dotted path. -/
theorem isDottedPath_pieces {head : List Char} {tail : List (List Char)}
    (hopens : ∃ c cs, head = c :: cs ∧ isWordStart c = true)
    (hwords : ∀ piece ∈ head :: tail, piece ≠ [] ∧ ∀ c ∈ piece, isWordChar c = true) :
    Text.isDottedPath (head ++ tail.flatMap ('.' :: ·)) = true := by
  have hsplit := splitAt_words fun piece hpiece => (hwords piece hpiece).2
  obtain ⟨c, cs, rfl, hc⟩ := hopens
  obtain ⟨hhead, htail⟩ := List.forall_mem_cons.1 hwords
  unfold Text.isDottedPath
  rw [hsplit]
  simp only [Bool.and_eq_true, List.all_eq_true, Bool.not_eq_true', List.isEmpty_eq_false_iff]
  exact ⟨⟨hc, fun d hd => hhead.2 d (List.mem_cons_of_mem c hd)⟩, htail⟩

theorem mem_splitAt {sep c : Char} {cs : List Char} (h : c ∈ cs) :
    c = sep ∨ ∃ piece ∈ Text.splitAt sep cs, c ∈ piece := by
  induction cs with
  | nil => cases h
  | cons d cs ih =>
    obtain ⟨piece, pieces, hpieces⟩ := List.exists_cons_of_ne_nil (Text.splitAt_ne_nil sep cs)
    rw [Text.splitAt]
    split
    · rename_i hsep
      rcases List.mem_cons.1 h with rfl | hmem
      · exact .inl hsep
      · apply (ih hmem).imp_right
        rintro ⟨p, hp, hc⟩
        exact ⟨p, List.mem_cons_of_mem _ hp, hc⟩
    · rw [hpieces] at ih ⊢
      rcases List.mem_cons.1 h with rfl | hmem
      · exact .inr ⟨c :: piece, List.mem_cons_self, List.mem_cons_self⟩
      · apply (ih hmem).imp_right
        rintro ⟨p, hp, hc⟩
        rcases List.mem_cons.1 hp with rfl | hp
        · exact ⟨d :: p, List.mem_cons_self, List.mem_cons_of_mem d hc⟩
        · exact ⟨p, List.mem_cons_of_mem _ hp, hc⟩

/-- A dotted path opens with a word and is made of word characters and dots. -/
theorem of_isDottedPath {c : Char} {cs : List Char} (h : Text.isDottedPath (c :: cs) = true) :
    isWordStart c = true ∧ ∀ d ∈ c :: cs, isWordChar d = true ∨ d = '.' := by
  unfold Text.isDottedPath at h
  split at h
  · rename_i first head rest hpieces
    simp only [Bool.and_eq_true, List.all_eq_true] at h
    obtain ⟨⟨hfirst, hhead⟩, hrest⟩ := h
    constructor
    · rw [Text.splitAt] at hpieces
      split at hpieces
      · cases hpieces
      · split at hpieces
        · cases hpieces
          exact hfirst
        · cases hpieces
          exact hfirst
    · intro d hd
      have hcase : d = '.' ∨ ∃ piece ∈ Text.splitAt '.' (c :: cs), d ∈ piece := mem_splitAt hd
      rcases hcase with rfl | ⟨piece, hpiece, hmem⟩
      · exact .inr rfl
      · left
        rw [hpieces] at hpiece
        rcases List.mem_cons.1 hpiece with rfl | hpiece
        · rcases List.mem_cons.1 hmem with rfl | hmem
          · exact isWordChar_of_isWordStart hfirst
          · exact hhead d hmem
        · exact (hrest piece hpiece).2 d hmem
  · cases h

theorem word?_of_ne {c : Char} (hc : c ≠ 'T' ∧ c ≠ 'F' ∧ c ≠ 'N') (cs : List Char) :
    word? (c :: cs) = none := by
  unfold word?
  rw [if_neg, if_neg, if_neg]
  · exact fun heq => hc.2.2 (List.cons.inj heq).1
  · exact fun heq => hc.2.1 (List.cons.inj heq).1
  · exact fun heq => hc.1 (List.cons.inj heq).1

/-- What opens as JSON text alone does is read as nothing else. -/
theorem operand?_of_opens {c : Char} (hc : Json.opens c = true) (cs : List Char) :
    operand? (c :: cs) = (Json.ofText? (c :: cs)).map .literal := by
  have hpath : Text.isDottedPath (c :: cs) = false := by
    cases hpath : Text.isDottedPath (c :: cs) with
    | false => rfl
    | true =>
      have hstart := (of_isDottedPath hpath).1
      rcases Json.opens_cases hc with rfl | rfl | rfl <;> cases hstart
  have hne : c ≠ '\'' ∧ (c ≠ 'T' ∧ c ≠ 'F' ∧ c ≠ 'N') ∧ c ≠ 's' := by
    rcases Json.opens_cases hc with rfl | rfl | rfl <;> decide
  unfold operand?
  rw [if_neg (List.cons_ne_nil c cs), singleQuoted?_of_ne hne.1, word?_of_ne hne.2.1, Option.none_or]
  dsimp only
  cases Json.ofText? (c :: cs) with
  | some v => rfl
  | none =>
    dsimp only
    rw [statePath?_of_ne hne.2.2, hpath]
    rfl

namespace Accessor

theorem exists_last {a : Accessor} (h : a.WellFormed) :
    ∃ cs c, a.text = cs ++ [c] ∧ isBlank c = false := by
  cases a with
  | name cs =>
    refine ⟨'.' :: cs.dropLast, cs.getLast h.1, ?_, ?_⟩
    · show '.' :: cs = '.' :: (cs.dropLast ++ [cs.getLast h.1])
      rw [List.dropLast_concat_getLast]
    · exact Text.isBlank_of_isWordChar (h.2 _ (List.getLast_mem h.1))
  | key quote cs => exact ⟨'[' :: (quote :: (cs ++ [quote])), ']', rfl, by decide⟩
  | index cs => exact ⟨'[' :: cs, ']', rfl, by decide⟩

end Accessor

namespace Term

variable {head cs : List Char} {tail : List (List Char)} {as : List Accessor}

/-! ### Texts of terms -/

theorem of_mem_path (h : (path head tail).WellFormed) {c : Char} (hc : c ∈ (path head tail).text) :
    isWordChar c = true ∨ c = '.' := by
  obtain ⟨-, hpieces, -⟩ := h
  rcases List.mem_append.1 hc with hhead | htail
  · exact .inl ((hpieces head List.mem_cons_self).2 c hhead)
  · obtain ⟨piece, hpiece, hmem⟩ := List.mem_flatMap.1 htail
    rcases List.mem_cons.1 hmem with hdot | hmem
    · exact .inr hdot
    · exact .inl ((hpieces piece (List.mem_cons_of_mem head hpiece)).2 c hmem)

/-- The text of a path is a word only where it is one identifier. -/
theorem path_eq_word {w : List Char} (hw : '.' ∉ w) (h : (path head tail).text = w) :
    tail = [] ∧ head = w := by
  cases tail with
  | nil => exact ⟨rfl, (List.append_nil head).symm.trans h⟩
  | cons piece tail =>
    refine absurd ?_ hw
    rw [← h]
    simp [text]

theorem trimmed_quoted (cs : List Char) : Trimmed (quoted cs).text :=
  ⟨⟨'\'', _, rfl, by decide⟩, ⟨'\'' :: cs, '\'', rfl, by decide⟩⟩

theorem trimmed_text {t : Term} (h : t.WellFormed) : Trimmed t.text := by
  cases t with
  | path head tail =>
    apply Trimmed.of_forall
    · obtain ⟨⟨c, cs, rfl, -⟩, -⟩ := h
      exact List.cons_ne_nil c _
    · intro c hc
      rcases of_mem_path h hc with hword | rfl
      · exact Text.isBlank_of_isWordChar hword
      · decide
  | rooted as =>
    obtain ⟨hne, has⟩ := h
    refine ⟨⟨'s', _, rfl, by decide⟩, ?_⟩
    obtain ⟨cs, c, hlast, hc⟩ := Accessor.exists_last (has _ (List.getLast_mem hne))
    refine ⟨"state".toList ++ (as.dropLast.flatMap Accessor.text ++ cs), c, ?_, hc⟩
    show "state".toList ++ as.flatMap Accessor.text = _
    rw [← List.dropLast_concat_getLast hne, List.flatMap_append, List.flatMap_singleton, hlast,
      List.dropLast_concat]
    simp only [List.append_assoc]
  | json cs => exact h.1
  | quoted cs => exact trimmed_quoted cs
  | word cs =>
    obtain ⟨v, hv⟩ := Option.isSome_iff_exists.1 h
    rcases word?_cases hv with rfl | rfl | rfl
    · exact ⟨⟨'T', _, rfl, by decide⟩, ⟨['T', 'r', 'u'], 'e', rfl, by decide⟩⟩
    · exact ⟨⟨'F', _, rfl, by decide⟩, ⟨['F', 'a', 'l', 's'], 'e', rfl, by decide⟩⟩
    · exact ⟨⟨'N', _, rfl, by decide⟩, ⟨['N', 'o', 'n'], 'e', rfl, by decide⟩⟩

/-! ### What is read of a term -/

/-- A path is no JSON text. -/
theorem ofText?_path (h : (path head tail).WellFormed) : Json.ofText? (path head tail).text = none := by
  cases hv : Json.ofText? (path head tail).text with
  | none => rfl
  | some v =>
    obtain ⟨rest, hread, hrest⟩ := Json.ofText?_eq_some hv
    obtain ⟨c, cs, hhead, hc⟩ := h.1
    have htext : (path head tail).text = c :: (cs ++ tail.flatMap ('.' :: ·)) := by
      rw [text, hhead]
      rfl
    rw [htext] at hread
    obtain ⟨w, hw, heq⟩ := exists_word_of_readValue hc hread
    rw [← htext] at heq
    -- no character of the path is layout, so nothing is left after the word
    have hnil : rest = [] := by
      cases rest with
      | nil => rfl
      | cons d rest =>
        have hd : Json.isLayout d = true := List.dropWhile_eq_nil_iff.1 hrest d List.mem_cons_self
        have hmem : d ∈ (path head tail).text := by
          rw [heq]
          exact List.mem_append_right w List.mem_cons_self
        rcases of_mem_path h hmem with hword | rfl
        · rw [isLayout_of_not_isBlank (Text.isBlank_of_isWordChar hword)] at hd
          cases hd
        · cases hd
    rw [hnil, List.append_nil] at heq
    have hdot : '.' ∉ w := by
      simp only [List.mem_cons, List.not_mem_nil, or_false] at hw
      rcases hw with rfl | rfl | rfl <;> decide
    obtain ⟨htail, rfl⟩ := path_eq_word hdot heq
    exact absurd hw (h.2.2.2 htail).2

theorem word?_path (h : (path head tail).WellFormed) : word? (path head tail).text = none := by
  cases hv : word? (path head tail).text with
  | none => rfl
  | some v =>
    have hdot : '.' ∉ (path head tail).text := by
      rcases word?_cases hv with heq | heq | heq <;> rw [heq] <;> decide
    obtain ⟨htail, hhead⟩ := path_eq_word hdot rfl
    rw [← hhead, (h.2.2.2 htail).1] at hv
    cases hv

/-- A path that opens with the letters of `state` has no accessor after them. -/
theorem statePath?_path (h : (path head tail).WellFormed) : statePath? (path head tail).text = none := by
  unfold statePath?
  split
  · rename_i cs heq
    have htake : head = "state".toList ++ cs.takeWhile isWordChar := by
      have hwords := (h.2.1 head List.mem_cons_self).2
      have hstop : ∀ d ds, tail.flatMap ('.' :: ·) = d :: ds → isWordChar d = false := by
        intro d ds hd
        cases tail with
        | nil => cases hd
        | cons piece tail =>
          cases hd
          rfl
      have htext := (takeWhile_append_stop hwords hstop).1
      rw [show head ++ tail.flatMap ('.' :: ·) = "state".toList ++ cs from heq] at htext
      rw [← htext, List.takeWhile_append_of_pos (List.all_eq_true.1 rfl)]
    cases cs with
    | nil => rfl
    | cons d cs =>
      by_cases hd : isWordChar d = true
      · rw [readAccessors_of_isWordChar hd]
      · rw [List.takeWhile_cons_of_neg hd, List.append_nil] at htake
        rw [text, htake, h.2.2.1 htake] at heq
        cases heq
  · rfl

theorem operand?_path (h : (path head tail).WellFormed) :
    operand? (path head tail).text = some (.path ((head :: tail).map String.ofList)) := by
  have hsplit : Text.splitAt '.' (path head tail).text = head :: tail :=
    splitAt_words fun piece hpiece => (h.2.1 piece hpiece).2
  have hpath : Text.isDottedPath (path head tail).text = true := isDottedPath_pieces h.1 h.2.1
  have hquoted : singleQuoted? (path head tail).text = none := by
    obtain ⟨c, cs, rfl, hc⟩ := h.1
    exact singleQuoted?_of_ne (ne_of_isWordStart hc rfl) _
  have hne : (path head tail).text ≠ [] := by
    obtain ⟨c, cs, rfl, hc⟩ := h.1
    exact List.cons_ne_nil c _
  unfold operand?
  rw [if_neg hne, hquoted, word?_path h, ofText?_path h, statePath?_path h, hpath, hsplit]
  rfl

theorem operand?_rooted (h : (rooted as).WellFormed) :
    operand? (rooted as).text = if as.all Accessor.legible = true
      then some (.path (as.map fun a => String.ofList a.segment)) else none := by
  obtain ⟨hne, has⟩ := h
  have hjson : Json.ofText? (rooted as).text = none := by
    cases hv : Json.ofText? (rooted as).text with
    | none => rfl
    | some v =>
      obtain ⟨rest, hread, -⟩ := Json.ofText?_eq_some hv
      obtain ⟨w, hw, heq⟩ := exists_word_of_readValue (show isWordStart 's' = true from rfl) hread
      simp only [List.mem_cons, List.not_mem_nil, or_false] at hw
      rcases hw with rfl | rfl | rfl <;> cases heq
  have hstate : statePath? (rooted as).text = if as.all Accessor.legible = true
      then some (as.map fun a => String.ofList a.segment) else none := by
    have hread := readAccessors_texts has (Accessor.length_le_flatMap_text as)
    obtain ⟨a, as', rfl⟩ := List.exists_cons_of_ne_nil hne
    by_cases hlegible : (a :: as').all Accessor.legible = true
    · rw [if_pos hlegible] at hread ⊢
      rw [text, statePath?, hread, List.map_cons]
      dsimp only
      rw [← List.map_cons, List.map_map]
      rfl
    · rw [if_neg hlegible] at hread ⊢
      rw [text, statePath?, hread]
  have hquoted : singleQuoted? (rooted as).text = none := singleQuoted?_of_ne (by decide) _
  have hword : word? (rooted as).text = none := word?_of_ne (by decide) _
  have hcons : (rooted as).text ≠ [] := List.cons_ne_nil 's' _
  unfold operand?
  rw [if_neg hcons, hquoted, hword, hjson, hstate]
  by_cases hlegible : as.all Accessor.legible = true
  · rw [if_pos hlegible, if_pos hlegible]
    rfl
  · rw [if_neg hlegible, if_neg hlegible]
    -- a key that cannot be read stands between brackets, as no path does
    have hpath : ¬ Text.isDottedPath (rooted as).text = true := by
      intro hpath
      obtain ⟨a, ha, hbad⟩ : ∃ a ∈ as, a.legible = false := by
        simpa only [List.all_eq_true, not_forall, Bool.not_eq_true, exists_prop] using hlegible
      have hmem : '[' ∈ "state".toList ++ as.flatMap Accessor.text :=
        List.mem_append_right _ (List.mem_flatMap.2 ⟨a, ha, Accessor.bracket_mem_text hbad⟩)
      rcases (of_isDottedPath hpath).2 '[' hmem with hword | hdot
      · cases hword
      · cases hdot
    dsimp only
    rw [if_neg hpath]
    rfl

theorem operand?_json {v : Json} {d : Nat} (hcs : Trimmed cs)
    (h : Json.readValue d cs = some (v, [])) (hlegible : (json cs).Legible) :
    operand? cs = some (.literal v) := by
  obtain ⟨w, hw⟩ := hlegible
  obtain ⟨rfl, -⟩ := Json.readValue_unique h hw
  obtain ⟨c, cs, rfl, hc⟩ := hcs.head
  have hquoted : c ≠ '\'' := by
    rintro rfl
    have hplain := (Json.plain_of_readValue rfl rfl hw).1 '\'' List.mem_cons_self
    cases hplain
  have hword : word? (c :: cs) = none := by
    cases hword : word? (c :: cs) with
    | none => rfl
    | some u =>
      have hcase := word?_cases hword
      have hstart : isWordStart c = true := by
        rcases hcase with heq | heq | heq <;> cases heq <;> rfl
      obtain ⟨word, hjson, heq⟩ := exists_word_of_readValue hstart hw
      simp only [List.mem_cons, List.not_mem_nil, or_false] at hjson
      rw [heq, List.append_nil] at hcase
      rcases hjson with rfl | rfl | rfl <;> simp at hcase
  have htext : Json.ofText? (c :: cs) = some w := by
    unfold Json.ofText?
    rw [hw]
    rfl
  unfold operand?
  rw [if_neg (List.cons_ne_nil c cs), singleQuoted?_of_ne hquoted, hword, htext]
  rfl

theorem operand?_json_of_not {v : Json} {d : Nat} (hcs : Trimmed cs)
    (h : Json.readValue d cs = some (v, [])) (hlegible : ¬ (json cs).Legible) :
    operand? cs = none := by
  obtain ⟨c, cs, rfl, hc⟩ := hcs.head
  have hopens : Json.opens c = true := by
    cases hopens : Json.opens c with
    | true => rfl
    | false =>
      have hplain := Json.plain_of_readValue (isLayout_of_not_isBlank hc) hopens h
      exact absurd ⟨v, hplain.2 Json.depthLimit⟩ hlegible
  rw [operand?_of_opens hopens]
  cases hv : Json.ofText? (c :: cs) with
  | none => rfl
  | some w =>
    obtain ⟨rest, hread, hrest⟩ := Json.ofText?_eq_some hv
    obtain ⟨rfl, rfl⟩ := Json.readValue_unique h hread
    exact absurd ⟨_, hread⟩ hlegible

/-- Nothing is read of an operand that is not legible. -/
theorem operand?_of_not_legible {t : Term} (h : t.WellFormed) (hlegible : ¬ t.Legible) :
    operand? t.text = none := by
  cases t with
  | path head tail => exact absurd trivial hlegible
  | rooted as => exact (operand?_rooted h).trans (if_neg hlegible)
  | json cs =>
    obtain ⟨hcs, d, v, hv⟩ := h
    exact operand?_json_of_not hcs hv hlegible
  | quoted cs => exact absurd trivial hlegible
  | word cs => exact absurd trivial hlegible

/-- What is read of a legible operand has the value that the operand denotes. -/
theorem operand?_text {s : State} {t : Term} {v : Json} (h : t.WellFormed) (hv : t.Denotes s v)
    (hlegible : t.Legible) : ∃ o, operand? t.text = some o ∧ o.resolve s = .ok v := by
  cases t with
  | path head tail => exact ⟨_, operand?_path h, hv⟩
  | rooted as => exact ⟨_, (operand?_rooted h).trans (if_pos hlegible), hv⟩
  | json cs =>
    obtain ⟨d, hd⟩ := hv
    exact ⟨_, operand?_json h.1 hd hlegible, rfl⟩
  | quoted cs =>
    have hquoted : singleQuoted? (quoted cs).text = some cs := singleQuoted?_eq_some_iff.2 rfl
    have hne : (quoted cs).text ≠ [] := List.cons_ne_nil '\'' _
    refine ⟨.literal (.str (String.ofList cs)), ?_, congrArg Except.ok (Eq.symm hv)⟩
    unfold operand?
    rw [if_neg hne, hquoted]
  | word cs =>
    have hquoted : singleQuoted? cs = none ∧ cs ≠ [] := by
      rcases word?_cases hv with rfl | rfl | rfl
      · exact ⟨rfl, List.cons_ne_nil _ _⟩
      · exact ⟨rfl, List.cons_ne_nil _ _⟩
      · exact ⟨rfl, List.cons_ne_nil _ _⟩
    refine ⟨.literal v, ?_, rfl⟩
    unfold operand?
    rw [text, if_neg hquoted.2, hquoted.1, show word? cs = some v from hv]
    rfl

theorem evaluateOperand_text {s : State} {t : Term} {v : Json} (h : t.WellFormed)
    (hv : t.Denotes s v) (hlegible : t.Legible) : evaluateOperand s t.text = .ok v := by
  obtain ⟨o, ho, hvalue⟩ := operand?_text h hv hlegible
  unfold evaluateOperand
  rw [(trimmed_text h).trim_eq]
  dsimp only
  rw [ho]
  exact hvalue

theorem evaluateOperand_of_not_legible (s : State) {t : Term} (h : t.WellFormed)
    (hlegible : ¬ t.Legible) :
    evaluateOperand s t.text = .error (.unsupported (String.ofList t.text)) := by
  unfold evaluateOperand
  rw [(trimmed_text h).trim_eq]
  dsimp only
  rw [operand?_of_not_legible h hlegible]

end Term

/-! ### The search in a term -/

theorem scan_words {t : List Char} (h : ∀ c ∈ t, isWordChar c = true ∨ c = '.') (depth : Nat) :
    scan (none, depth) t = some (none, depth) := by
  have hquiet : ∀ c ∈ t, isQuiet c = true ∧ opensOperator c = false := by
    intro c hc
    rcases h c hc with hword | rfl
    · exact quiet_of rfl hword
    · decide
  exact scan_of_quiet (fun c hc => (hquiet c hc).1) nofun (.inr fun c hc => (hquiet c hc).2)

/-- A quote stays open over a text that does not hold it. -/
theorem scan_inside {quote : Char} {cs : List Char} (hcs : quote ∉ cs) (depth : Nat) :
    scan (some quote, depth) cs = some (some quote, depth) := by
  induction cs with
  | nil => rfl
  | cons c cs ih =>
    obtain ⟨hne, hcs⟩ := not_or.1 (mt List.mem_cons.2 hcs)
    rw [scan_cons, scanChar, if_neg (Ne.symm hne)]
    exact ih hcs

/-- The search goes over quoted text to the quote that closes it. -/
theorem scan_quoted {quote : Char} (hquote : isQuote quote = true) {cs : List Char} (hcs : quote ∉ cs)
    (depth : Nat) : scan (none, depth) (quote :: (cs ++ [quote])) = some (none, depth) := by
  have hopen : scanChar (none, depth) quote = some (some quote, depth) := by
    rw [scanChar, if_pos hquote]
  have hclose : scanChar (some quote, depth) quote = some (none, depth) := by
    rw [scanChar, if_pos rfl]
  rw [scan_cons, hopen, Option.bind_some, scan_append, scan_inside hcs, Option.bind_some, scan_cons,
    hclose]
  rfl

theorem Accessor.passes {a : Accessor} (h : a.WellFormed) : Passes a.text := by
  cases a with
  | name cs =>
    apply scan_words
    intro c hc
    rcases List.mem_cons.1 hc with hdot | hmem
    · exact .inr hdot
    · exact .inl (h.2 c hmem)
  | key quote cs =>
    show scan (none, 1) (quote :: (cs ++ [quote]) ++ [']']) = some (none, 0)
    rw [scan_append, scan_quoted h.1 h.2]
    rfl
  | index cs =>
    show scan (none, 1) (cs ++ [']']) = some (none, 0)
    rw [scan_append, scan_words fun c hc => .inl (isWordChar_of_isDigit (h.2 c hc))]
    rfl

theorem Accessor.passes_texts {as : List Accessor} (h : ∀ a ∈ as, a.WellFormed) :
    Passes (as.flatMap Accessor.text) := by
  induction as with
  | nil => rfl
  | cons a as ih =>
    obtain ⟨ha, has⟩ := List.forall_mem_cons.1 h
    rw [List.flatMap_cons]
    exact (Accessor.passes ha).append (ih has)

namespace Term

/-- The search goes over an operand, unless it is JSON text with a quote escaped in it. -/
theorem passes_text {t : Term} (h : t.WellFormed) (hquotes : t.Unescaped) : Passes t.text := by
  cases t with
  | path head tail => exact scan_words (fun c hc => of_mem_path h hc) 0
  | rooted as =>
    have hroot : Passes "state".toList := rfl
    exact hroot.append (Accessor.passes_texts h.2)
  | json cs =>
    obtain ⟨-, d, v, hv⟩ := h
    exact passes_of_balanced (Json.balanced_of_readValue hv) hquotes
  | quoted cs => exact scan_quoted rfl h 0
  | word cs =>
    obtain ⟨v, hv⟩ := Option.isSome_iff_exists.1 h
    rcases word?_cases hv with rfl | rfl | rfl <;> rfl

/-- Only JSON text that opens a string, an array or an object leads the search astray. -/
theorem opens_of_not_passes {t : Term} (h : t.WellFormed) (ht : ¬ Passes t.text) :
    ∃ c cs d v, t.text = c :: cs ∧ Json.opens c = true ∧
      Json.readValue d (c :: cs) = some (v, []) := by
  cases t with
  | json cs =>
    obtain ⟨hcs, d, v, hv⟩ := h
    obtain ⟨c, cs, rfl, hc⟩ := hcs.head
    refine ⟨c, cs, d, v, rfl, ?_, hv⟩
    cases hopens : Json.opens c with
    | true => rfl
    | false =>
      have hplain := (Json.plain_of_readValue (isLayout_of_not_isBlank hc) hopens hv).1
      exact absurd (passes_of_quiet fun d hd => quiet_of_isPlain (hplain d hd)) ht
  | path head tail => exact absurd (passes_text h trivial) ht
  | rooted as => exact absurd (passes_text h trivial) ht
  | quoted cs => exact absurd (passes_text h trivial) ht
  | word cs => exact absurd (passes_text h trivial) ht

end Term

end Flowgraph.Predicate
