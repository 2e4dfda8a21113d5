import Flowgraph.Text.Blank
import Flowgraph.Text.Word
import Mathlib.Data.List.TakeWhile

/-!
# Trimming

No word character is a blank.  A text is trimmed if it neither opens nor ends with one, and trimming
finds it again among blanks (`Trimmed.trim_pad`).
-/

namespace Flowgraph.Text

theorem isBlank_of_range {c : Char} (h : 33 ≤ c.toNat ∧ c.toNat ≤ 126) : isBlank c = false := by
  simp only [isBlank, Bool.or_eq_false_iff, Bool.and_eq_false_iff, decide_eq_false_iff_not,
    beq_eq_false_iff_ne]
  omega

theorem isBlank_of_isDigit {c : Char} (h : c.isDigit = true) : isBlank c = false := by
  obtain ⟨hzero, hnine⟩ := Bool.and_eq_true_iff.1 h
  have hlow : 48 ≤ c.toNat := of_decide_eq_true hzero
  have hhigh : c.toNat ≤ 57 := of_decide_eq_true hnine
  exact isBlank_of_range ⟨by omega, by omega⟩

theorem toNat_of_isAlpha {c : Char} (h : c.isAlpha = true) :
    (65 ≤ c.toNat ∧ c.toNat ≤ 90) ∨ (97 ≤ c.toNat ∧ c.toNat ≤ 122) := by
  rcases Bool.or_eq_true_iff.1 h with hupper | hlower
  · exact .inl (of_decide_eq_true hupper)
  · obtain ⟨hfirst, hlast⟩ := Bool.and_eq_true_iff.1 hlower
    exact .inr ⟨of_decide_eq_true hfirst, of_decide_eq_true hlast⟩

theorem isBlank_of_isWordChar {c : Char} (h : isWordChar c = true) : isBlank c = false := by
  unfold isWordChar Char.isAlphanum at h
  simp only [Bool.or_eq_true, beq_iff_eq] at h
  rcases h with (halpha | hdigit) | rfl
  · have hrange := toNat_of_isAlpha halpha
    exact isBlank_of_range (by omega)
  · exact isBlank_of_isDigit hdigit
  · decide

/-- A text that is not empty and neither opens nor ends with a blank. -/
structure Trimmed (t : List Char) : Prop where
  head : ∃ c cs, t = c :: cs ∧ isBlank c = false
  last : ∃ cs c, t = cs ++ [c] ∧ isBlank c = false

theorem trimEnd_append_of_ne {t : List Char} (h : trimEnd t ≠ []) (s : List Char) :
    trimEnd (s ++ t) = s ++ trimEnd t := by
  unfold trimEnd at h ⊢
  have hne : t.reverse.dropWhile isBlank ≠ [] := mt List.reverse_eq_nil_iff.2 h
  rw [List.reverse_append, List.dropWhile_append, if_neg (mt List.isEmpty_iff.1 hne),
    List.reverse_append, List.reverse_reverse]

/-- What is trimmed off the end is blank. -/
theorem exists_trimEnd (t : List Char) : ∃ gap, t = trimEnd t ++ gap ∧ ∀ c ∈ gap, isBlank c = true := by
  refine ⟨(t.reverse.takeWhile isBlank).reverse, ?_, fun c hc => ?_⟩
  · unfold trimEnd
    rw [← List.reverse_append, List.takeWhile_append_dropWhile, List.reverse_reverse]
  · exact List.mem_takeWhile_imp (List.mem_reverse.1 hc)

theorem exists_concat_trimEnd {t : List Char} (h : trimEnd t ≠ []) :
    ∃ cs c, trimEnd t = cs ++ [c] ∧ isBlank c = false := by
  unfold trimEnd at h ⊢
  have hne : t.reverse.dropWhile isBlank ≠ [] := mt List.reverse_eq_nil_iff.2 h
  have hhead := List.head_dropWhile_not isBlank hne
  obtain ⟨c, cs, hcs⟩ := List.exists_cons_of_ne_nil hne
  simp only [hcs, List.head_cons] at hhead
  refine ⟨cs.reverse, c, ?_, hhead⟩
  rw [hcs, List.reverse_cons]

theorem mem_trimEnd {c : Char} {t : List Char} (hc : isBlank c = false) (h : c ∈ t) :
    c ∈ trimEnd t := by
  unfold trimEnd
  rw [List.mem_reverse]
  have hmem : c ∈ t.reverse.takeWhile isBlank ++ t.reverse.dropWhile isBlank := by
    rw [List.takeWhile_append_dropWhile, List.mem_reverse]
    exact h
  rcases List.mem_append.1 hmem with htake | hdrop
  · rw [List.mem_takeWhile_imp htake] at hc
    cases hc
  · exact hdrop

theorem trimEnd_concat {c : Char} (hc : isBlank c = false) (cs : List Char) :
    trimEnd (cs ++ [c]) = cs ++ [c] := by
  have hlast : trimEnd [c] = [c] := by
    unfold trimEnd
    rw [List.reverse_singleton, List.dropWhile_cons_of_neg (by simp [hc])]
    rfl
  rw [trimEnd_append_of_ne (by rw [hlast]; exact List.cons_ne_nil c []), hlast]

theorem trimStart_cons {c : Char} (hc : isBlank c = false) (cs : List Char) :
    trimStart (c :: cs) = c :: cs := List.dropWhile_cons_of_neg (by simp [hc])

theorem isBlank_of_trimStart {c : Char} {cs ds : List Char} (h : trimStart cs = c :: ds) :
    isBlank c = false := by
  have hhead := List.head?_dropWhile_not isBlank cs
  rw [show cs.dropWhile isBlank = c :: ds from h] at hhead
  simpa using hhead

namespace Trimmed

theorem of_forall {t : List Char} (hne : t ≠ []) (h : ∀ c ∈ t, isBlank c = false) : Trimmed t := by
  obtain ⟨c, cs, rfl⟩ := List.exists_cons_of_ne_nil hne
  refine ⟨⟨c, cs, rfl, h c List.mem_cons_self⟩, ?_⟩
  refine ⟨_, _, (List.dropLast_concat_getLast hne).symm, h _ (List.getLast_mem hne)⟩

theorem trim_pad {t : List Char} (h : Trimmed t) {gap gap' : List Char}
    (hgap : ∀ c ∈ gap, isBlank c = true) (hgap' : ∀ c ∈ gap', isBlank c = true) :
    trim (gap ++ (t ++ gap')) = t := by
  obtain ⟨c, cs, hcs, hc⟩ := h.head
  obtain ⟨ds, d, hds, hd⟩ := h.last
  have hstart : trimStart (gap ++ (t ++ gap')) = t ++ gap' := by
    unfold trimStart
    rw [List.dropWhile_append_of_pos hgap, hcs]
    exact trimStart_cons hc _
  have hend : trimEnd (t ++ gap') = t := by
    unfold trimEnd
    rw [List.reverse_append, List.dropWhile_append_of_pos fun c hc => hgap' c (List.mem_reverse.1 hc)]
    rw [hds]
    exact trimEnd_concat hd ds
  unfold trim
  rw [hstart, hend]

theorem trim_eq {t : List Char} (h : Trimmed t) : trim t = t := by
  have hpad := h.trim_pad (List.forall_mem_nil _) (List.forall_mem_nil _)
  rw [List.nil_append, List.append_nil] at hpad
  exact hpad

theorem append {l r : List Char} (hl : Trimmed l) (hr : Trimmed r) (m : List Char) :
    Trimmed (l ++ (m ++ r)) := by
  obtain ⟨c, cs, rfl, hc⟩ := hl.head
  obtain ⟨ds, d, rfl, hd⟩ := hr.last
  refine ⟨⟨c, cs ++ (m ++ (ds ++ [d])), rfl, hc⟩, ⟨c :: cs ++ (m ++ ds), d, ?_, hd⟩⟩
  simp only [List.append_assoc]

end Trimmed

/-- Trimming a text that opens with no blank takes a gap off its end. -/
theorem exists_trim_cons {c : Char} (hc : isBlank c = false) (cs : List Char) :
    ∃ ds gap, trim (c :: cs) = c :: ds ∧ cs = ds ++ gap ∧ (∀ x ∈ gap, isBlank x = true) ∧
      Trimmed (c :: ds) := by
  have htrim : trim (c :: cs) = trimEnd (c :: cs) := congrArg trimEnd (trimStart_cons hc cs)
  obtain ⟨gap, hgap, hblank⟩ := exists_trimEnd (c :: cs)
  have hne : trimEnd (c :: cs) ≠ [] := List.ne_nil_of_mem (mem_trimEnd hc List.mem_cons_self)
  obtain ⟨d, ds, hds⟩ := List.exists_cons_of_ne_nil hne
  obtain ⟨es, e, hes, he⟩ := exists_concat_trimEnd hne
  rw [hds] at hgap hes
  obtain ⟨rfl, hcs⟩ := List.cons.inj hgap
  exact ⟨ds, gap, htrim.trans hds, hcs, hblank, ⟨c, ds, rfl, hc⟩, ⟨es, e, hes, he⟩⟩

/-- Trimming a text that ends with no blank takes a gap off its start. -/
theorem exists_trim_concat {c : Char} (hc : isBlank c = false) (cs : List Char) :
    ∃ ds, trim (cs ++ [c]) = ds ++ [c] ∧ Trimmed (ds ++ [c]) := by
  have hstart : trimStart (cs ++ [c]) = trimStart cs ++ [c] := by
    unfold trimStart
    rw [List.dropWhile_append]
    split
    · rename_i hnil
      rw [List.isEmpty_iff.1 hnil]
      exact trimStart_cons hc []
    · rfl
  refine ⟨trimStart cs, ?_, ?_, ⟨_, c, rfl, hc⟩⟩
  · rw [trim, hstart, trimEnd_concat hc]
  · cases hcs : trimStart cs with
    | nil => exact ⟨c, [], rfl, hc⟩
    | cons d ds => exact ⟨d, ds ++ [c], rfl, isBlank_of_trimStart hcs⟩

/-- What is left of a text that is trimmed is empty or trimmed. -/
theorem trimmed_trim {cs : List Char} (h : trim cs ≠ []) : Trimmed (trim cs) := by
  cases hcs : trimStart cs with
  | nil =>
    rw [trim, hcs] at h
    exact absurd rfl h
  | cons c ds =>
    have hc := isBlank_of_trimStart hcs
    have htrim : trim cs = trim (c :: ds) := by
      rw [trim, hcs, trim, trimStart_cons hc]
    obtain ⟨es, -, hes, -, -, htrimmed⟩ := exists_trim_cons hc ds
    rw [htrim, hes]
    exact htrimmed

/-- Blanks are all that is trimmed off. -/
theorem exists_gaps (cs : List Char) : ∃ gap gap', cs = gap ++ (trim cs ++ gap') ∧
    (∀ c ∈ gap, isBlank c = true) ∧ ∀ c ∈ gap', isBlank c = true := by
  obtain ⟨gap', hgap', hblank⟩ := exists_trimEnd (trimStart cs)
  refine ⟨cs.takeWhile isBlank, gap', ?_, fun c hc => List.mem_takeWhile_imp hc, hblank⟩
  rw [trim, ← hgap', trimStart, List.takeWhile_append_dropWhile]

theorem trim_infix (cs : List Char) : trim cs <:+: cs := by
  obtain ⟨gap, gap', hcs, -⟩ := exists_gaps cs
  exact ⟨gap, gap', (List.append_assoc ..).trans hcs.symm⟩

/-- Nothing is left of blanks. -/
theorem trim_of_blank {cs : List Char} (h : ∀ c ∈ cs, isBlank c = true) : trim cs = [] := by
  have hstart : trimStart cs = [] := List.dropWhile_eq_nil_iff.2 h
  rw [trim, hstart]
  rfl

end Flowgraph.Text
