import Flowgraph.Predicate.Evaluate
import Flowgraph.Proofs.Text.Trimming

/-!
# Accessors

The steps of a path after `state`, as they are written, and how they are read.  A name ends where the
next accessor begins.  A key ends at the first closing bracket, also where its quotes are still open,
so that a key which holds one is not read.

    readAccessors n (as.flatMap text) = some (as.map segment)  if all are legible   (readAccessors_texts)
-/

namespace Flowgraph.Predicate

open Text (isWordChar isWordStart isBlank Trimmed)

/-! ## Accessors -/

/-- A step of a path after `state`. -/
inductive Accessor where
  | name (cs : List Char)
  | key (quote : Char) (cs : List Char)
  | index (cs : List Char)

namespace Accessor

def text : Accessor → List Char
  | name cs => '.' :: cs
  | key quote cs => '[' :: (quote :: (cs ++ [quote]) ++ [']'])
  | index cs => '[' :: (cs ++ [']'])

def segment : Accessor → List Char
  | name cs => cs
  | key _ cs => cs
  | index cs => cs

/-- Names are words, indices are digits, and a key stands between quotes that it does not hold. -/
def WellFormed : Accessor → Prop
  | name cs => cs ≠ [] ∧ ∀ c ∈ cs, isWordChar c = true
  | key quote cs => isQuote quote = true ∧ quote ∉ cs
  | index cs => cs ≠ [] ∧ ∀ c ∈ cs, c.isDigit = true

/-- The reader of accessors ends a key at the first closing bracket. -/
def legible : Accessor → Bool
  | key _ cs => !cs.contains ']'
  | _ => true

theorem length_le_flatMap_text (as : List Accessor) : as.length ≤ (as.flatMap text).length := by
  induction as with
  | nil => exact Nat.le_refl 0
  | cons a as ih =>
    have ha : 1 ≤ a.text.length := by
      cases a with
      | name cs => exact Nat.succ_pos _
      | key quote cs => exact Nat.succ_pos _
      | index cs => exact Nat.succ_pos _
    rw [List.flatMap_cons, List.length_append, List.length_cons]
    omega

/-- What cannot be read stands between brackets. -/
theorem bracket_mem_text {a : Accessor} (h : a.legible = false) : '[' ∈ a.text := by
  cases a with
  | name cs => cases h
  | key quote cs => exact List.mem_cons_self
  | index cs => cases h

/-- A name ends where the next accessor begins. -/
theorem not_isWordChar_flatMap_text (as : List Accessor) (c : Char) (cs : List Char)
    (h : as.flatMap text = c :: cs) : isWordChar c = false := by
  cases as with
  | nil => cases h
  | cons a as =>
    rw [List.flatMap_cons] at h
    cases a with
    | name ds => cases h; rfl
    | key quote ds => cases h; rfl
    | index ds => cases h; rfl

end Accessor

theorem isBlank_of_isQuote {c : Char} (h : isQuote c = true) : isBlank c = false := by
  simp only [isQuote, Bool.or_eq_true, beq_iff_eq] at h
  rcases h with rfl | rfl
  · decide
  · decide

theorem isDigit_of_isQuote {c : Char} (h : isQuote c = true) : c.isDigit = false := by
  simp only [isQuote, Bool.or_eq_true, beq_iff_eq] at h
  rcases h with rfl | rfl
  · decide
  · decide

theorem isQuote_of_isDigit {c : Char} (h : c.isDigit = true) : isQuote c = false := by
  cases hquote : isQuote c with
  | false => rfl
  | true =>
    rw [isDigit_of_isQuote hquote] at h
    cases h

theorem isWordChar_of_isDigit {c : Char} (h : c.isDigit = true) : isWordChar c = true := by
  simp only [isWordChar, Char.isAlphanum, h, Bool.or_true, Bool.true_or]

theorem bracketKey?_key {quote : Char} (hquote : isQuote quote = true) (cs : List Char) :
    bracketKey? (quote :: (cs ++ [quote])) = some cs := by
  have htrim : Text.trim (quote :: (cs ++ [quote])) = quote :: (cs ++ [quote]) := by
    apply Trimmed.trim_eq
    have hblank := isBlank_of_isQuote hquote
    exact ⟨⟨quote, _, rfl, hblank⟩, ⟨quote :: cs, quote, rfl, hblank⟩⟩
  unfold bracketKey?
  rw [htrim]
  dsimp only
  rw [if_pos ⟨hquote, List.getLast?_concat⟩, List.dropLast_concat]

theorem bracketKey?_index {cs : List Char} (hne : cs ≠ []) (hcs : ∀ c ∈ cs, c.isDigit = true) :
    bracketKey? cs = some cs := by
  have htrim : Text.trim cs = cs := by
    apply Trimmed.trim_eq
    apply Trimmed.of_forall hne
    exact fun c hc => Text.isBlank_of_isWordChar (isWordChar_of_isDigit (hcs c hc))
  obtain ⟨c, cs', rfl⟩ := List.exists_cons_of_ne_nil hne
  unfold bracketKey?
  rw [htrim]
  dsimp only
  rw [if_neg, if_pos]
  · exact List.all_eq_true.2 hcs
  · rintro ⟨hquote, -⟩
    rw [isQuote_of_isDigit (hcs c List.mem_cons_self)] at hquote
    cases hquote

/-- A quote that nothing closes opens no key. -/
theorem bracketKey?_cut {quote : Char} (hquote : isQuote quote = true) {cs : List Char}
    (hcs : quote ∉ cs) : bracketKey? (quote :: cs) = none := by
  have hblank := isBlank_of_isQuote hquote
  obtain ⟨gap, hgap, -⟩ := Text.exists_trimEnd (quote :: cs)
  obtain ⟨c, ds, hds⟩ :=
    List.exists_cons_of_ne_nil (List.ne_nil_of_mem (Text.mem_trimEnd hblank List.mem_cons_self))
  rw [hds] at hgap
  obtain ⟨rfl, rfl⟩ := List.cons.inj hgap
  unfold bracketKey? Text.trim
  rw [Text.trimStart_cons hblank, hds]
  dsimp only
  rw [if_neg, if_neg]
  · rw [List.all_cons, isDigit_of_isQuote hquote]
    exact Bool.false_ne_true
  · rintro ⟨-, hlast⟩
    exact hcs (List.mem_append_left gap (List.mem_of_getLast? hlast))

theorem takeWhile_append_stop {p : Char → Bool} {cs ds : List Char} (hcs : ∀ c ∈ cs, p c = true)
    (hds : ∀ d ds', ds = d :: ds' → p d = false) :
    (cs ++ ds).takeWhile p = cs ∧ (cs ++ ds).dropWhile p = ds := by
  rw [List.takeWhile_append_of_pos hcs, List.dropWhile_append_of_pos hcs]
  cases ds with
  | nil => exact ⟨List.append_nil cs, rfl⟩
  | cons d ds =>
    have hd : ¬ p d = true := by
      rw [hds d ds rfl]
      exact Bool.false_ne_true
    rw [List.takeWhile_cons_of_neg hd, List.dropWhile_cons_of_neg hd]
    exact ⟨List.append_nil cs, rfl⟩

/-- A bracket closes at the first closing bracket after it. -/
theorem readAccessors_bracket {inner : List Char} (h : ']' ∉ inner) (n : Nat) (rest : List Char) :
    readAccessors (n + 1) ('[' :: (inner ++ ']' :: rest)) =
      (bracketKey? inner).bind fun key => (readAccessors n rest).map (key :: ·) := by
  obtain ⟨htake, hdrop⟩ : (inner ++ ']' :: rest).takeWhile (· != ']') = inner ∧
      (inner ++ ']' :: rest).dropWhile (· != ']') = ']' :: rest := by
    apply takeWhile_append_stop
    · exact fun c hc => bne_iff_ne.2 fun heq => h (heq ▸ hc)
    · rintro d ds ⟨⟩
      rfl
  rw [readAccessors, hdrop, htake]
  cases bracketKey? inner with
  | none => rfl
  | some key =>
    cases hkeys : readAccessors n rest with
    | none => simp [hkeys]
    | some keys => simp [hkeys]

theorem readAccessors_of_isWordChar {c : Char} (hc : isWordChar c = true) (n : Nat) (cs : List Char) :
    readAccessors n (c :: cs) = none := by
  cases n with
  | zero => rfl
  | succ n =>
    rw [readAccessors]
    · exact nofun
    · rintro ds ⟨⟩
      cases hc
    · rintro ds ⟨⟩
      cases hc

theorem readAccessors_text {a : Accessor} (ha : a.WellFormed) {rest : List Char}
    (hrest : ∀ c cs, rest = c :: cs → isWordChar c = false) (n : Nat) :
    readAccessors (n + 1) (a.text ++ rest) =
      if a.legible = true then (readAccessors n rest).map (a.segment :: ·) else none := by
  cases a with
  | name cs =>
    obtain ⟨hne, hcs⟩ := ha
    obtain ⟨htake, hdrop⟩ := takeWhile_append_stop hcs hrest
    obtain ⟨c, cs', rfl⟩ := List.exists_cons_of_ne_nil hne
    show readAccessors (n + 1) ('.' :: (c :: cs' ++ rest)) = _
    rw [readAccessors, htake, hdrop]
    rfl
  | key quote cs =>
    obtain ⟨hquote, hcs⟩ := ha
    have hbracket : quote ≠ ']' := by
      rintro rfl
      cases hquote
    by_cases hclose : ']' ∈ cs
    · obtain ⟨before, after, rfl, hbefore⟩ := List.eq_append_cons_of_mem hclose
      have hinner : ']' ∉ quote :: before := by
        simp [hbefore, hbracket.symm]
      have htext : (Accessor.key quote (before ++ ']' :: after)).text ++ rest =
          '[' :: (quote :: before ++ ']' :: (after ++ (quote :: ']' :: rest))) := by
        simp only [Accessor.text, List.cons_append, List.append_assoc, List.nil_append]
      have hcut : bracketKey? (quote :: before) = none :=
        bracketKey?_cut hquote fun hmem => hcs (List.mem_append_left _ hmem)
      rw [htext, readAccessors_bracket hinner, hcut, Option.bind_none, if_neg]
      simp [Accessor.legible]
    · have hinner : ']' ∉ quote :: (cs ++ [quote]) := by
        simp [hclose, hbracket.symm]
      have htext : (Accessor.key quote cs).text ++ rest =
          '[' :: (quote :: (cs ++ [quote]) ++ ']' :: rest) := by
        simp only [Accessor.text, List.cons_append, List.append_assoc, List.nil_append]
      rw [htext, readAccessors_bracket hinner, bracketKey?_key hquote, Option.bind_some, if_pos]
      · rfl
      · simp [Accessor.legible, hclose]
  | index cs =>
    obtain ⟨hne, hcs⟩ := ha
    have hinner : ']' ∉ cs := by
      intro hmem
      have hdigit := hcs _ hmem
      cases hdigit
    have htext : (Accessor.index cs).text ++ rest = '[' :: (cs ++ ']' :: rest) := by
      simp only [Accessor.text, List.cons_append, List.append_assoc, List.nil_append]
    rw [htext, readAccessors_bracket hinner, bracketKey?_index hne hcs]
    rfl

theorem readAccessors_texts {as : List Accessor} (h : ∀ a ∈ as, a.WellFormed) {n : Nat}
    (hn : as.length ≤ n) :
    readAccessors n (as.flatMap Accessor.text) =
      if as.all Accessor.legible = true then some (as.map Accessor.segment) else none := by
  induction as generalizing n with
  | nil => rw [List.flatMap_nil, readAccessors]; rfl
  | cons a as ih =>
    obtain ⟨ha, has⟩ := List.forall_mem_cons.1 h
    obtain ⟨m, rfl⟩ : ∃ m, n = m + 1 := ⟨n - 1, by simp only [List.length_cons] at hn; omega⟩
    rw [List.flatMap_cons, List.all_cons, List.map_cons,
      readAccessors_text ha (Accessor.not_isWordChar_flatMap_text as), ih has (Nat.le_of_succ_le_succ hn)]
    cases a.legible with
    | false => rfl
    | true =>
      cases as.all Accessor.legible with
      | false => rfl
      | true => rfl

end Flowgraph.Predicate
