import Flowgraph.Predicate.Evaluate
import Flowgraph.Proofs.Json.Reading

/-!
# The search for a comparison

The search goes over a text character by character and keeps which quote and how many brackets are
open.  A text that it goes over without meeting a comparison, and that leaves nothing open, is passed:
the comparison after it is the one that is found.

    scan (none, 0) t = some st → splitFrom none 0 (t ++ cs) goes on from st    (splitFrom_of_scan)

Balanced texts pass unless a quote is escaped in them (`passes_of_balanced`); the search knows no
escapes.
-/

namespace Flowgraph.Predicate

open Json (Balanced Plain StringBody isPlain)

/-! ## What is open after a text -/

/-- The quote and the number of brackets that are open after one more character, or nothing where a
comparison may begin with it. -/
def scanChar : Option Char × Nat → Char → Option (Option Char × Nat)
  | (some q, depth), c => some (if c = q then none else some q, depth)
  | (none, depth), c =>
    if isQuote c then some (some c, depth)
    else if isOpening c then some (none, depth + 1)
    else if isClosing c then some (none, depth - 1)
    else if opensOperator c ∧ depth = 0 then none
    else some (none, depth)

/-- The quote and the number of brackets that are open after a text, or nothing where the search ends
in it. -/
def scan (st : Option Char × Nat) (cs : List Char) : Option (Option Char × Nat) :=
  cs.foldlM scanChar st

/-- The search goes over the text and leaves nothing open. -/
def Passes (t : List Char) : Prop := scan (none, 0) t = some (none, 0)

instance (t : List Char) : Decidable (Passes t) :=
  inferInstanceAs (Decidable (scan (none, 0) t = some (none, 0)))

theorem scan_append (st : Option Char × Nat) (s t : List Char) :
    scan st (s ++ t) = (scan st s).bind fun st => scan st t := List.foldlM_append

theorem scan_cons (st : Option Char × Nat) (c : Char) (cs : List Char) :
    scan st (c :: cs) = (scanChar st c).bind fun st => scan st cs := List.foldlM_cons

theorem Passes.append {s t : List Char} (hs : Passes s) (ht : Passes t) : Passes (s ++ t) := by
  unfold Passes at hs ht ⊢
  rw [scan_append, hs]
  exact ht

/-- The search, one character at a time. -/
theorem splitFrom_cons (st : Option Char × Nat) (c : Char) (cs : List Char) :
    splitFrom st.1 st.2 (c :: cs) = match scanChar st c with
      | some st => (splitFrom st.1 st.2 cs).map fun r => (c :: r.1, r.2)
      | none => (Operator.read? (c :: cs)).map fun r => ([], r.1, r.2) := by
  obtain ⟨quote, depth⟩ := st
  cases quote with
  | some q => rfl
  | none =>
    rw [splitFrom, scanChar]
    split
    · rfl
    · split
      · rfl
      · split
        · rfl
        · split
          · rfl
          · rfl

/-- What the search goes over stands before the comparison that it finds afterwards. -/
theorem splitFrom_of_scan {st st' : Option Char × Nat} {t : List Char} (h : scan st t = some st')
    (cs : List Char) :
    splitFrom st.1 st.2 (t ++ cs) = (splitFrom st'.1 st'.2 cs).map fun r => (t ++ r.1, r.2) := by
  induction t generalizing st with
  | nil =>
    cases h
    exact (congrFun Option.map_id _).symm
  | cons c t ih =>
    rw [scan_cons] at h
    obtain ⟨mid, hmid, hrest⟩ := Option.bind_eq_some_iff.1 h
    rw [List.cons_append, splitFrom_cons, hmid]
    dsimp only
    rw [ih hrest, Option.map_map]
    rfl

/-- The search ends only outside quotes and brackets. -/
theorem scanChar_eq_none {st : Option Char × Nat} {c : Char} (h : scanChar st c = none) :
    st = (none, 0) ∧ opensOperator c = true := by
  obtain ⟨quote, depth⟩ := st
  cases quote with
  | some q => cases h
  | none =>
    rw [scanChar] at h
    split at h
    · cases h
    · split at h
      · cases h
      · split at h
        · cases h
        · split at h
          · rename_i hoperator
            exact ⟨by rw [hoperator.2], hoperator.1⟩
          · cases h

/-- Where the search ends in a text, it ends at a character that opens an operator. -/
theorem splitFrom_of_scan_eq_none {st : Option Char × Nat} {t : List Char} (h : scan st t = none) :
    ∃ p c y, t = p ++ c :: y ∧ opensOperator c = true ∧ ∀ more, splitFrom st.1 st.2 (t ++ more) =
      (Operator.read? (c :: (y ++ more))).map fun r => (p, r.1, r.2) := by
  induction t generalizing st with
  | nil => cases h
  | cons c t ih =>
    rw [scan_cons] at h
    cases hc : scanChar st c with
    | none =>
      refine ⟨[], c, t, rfl, ?_, fun more => ?_⟩
      · exact (scanChar_eq_none hc).2
      · rw [List.cons_append, splitFrom_cons, hc]
    | some mid =>
      rw [hc] at h
      obtain ⟨p, d, y, rfl, hd, hsplit⟩ := ih h
      refine ⟨c :: p, d, y, rfl, hd, fun more => ?_⟩
      rw [List.cons_append, splitFrom_cons, hc]
      dsimp only
      rw [hsplit more, Option.map_map]
      rfl

/-! ## Characters that open and close nothing -/

/-- A character that is no quote and no bracket. -/
def isQuiet (c : Char) : Bool := !isQuote c && !isOpening c && !isClosing c

/-- The characters that the search minds. -/
def marks : List Char := ['\'', '"', '[', ']', '\x7b', '\x7d', '=', '!', '<', '>']

/-- Characters of a sort to which no mark belongs are quiet and open no operator. -/
theorem quiet_of {p : Char → Bool} (hp : marks.any p = false) {c : Char} (hc : p c = true) :
    isQuiet c = true ∧ opensOperator c = false := by
  have hne : ∀ d ∈ marks, (c == d) = false := by
    intro d hd
    apply beq_eq_false_iff_ne.2
    rintro rfl
    exact List.any_eq_false.1 hp c hd hc
  simp only [marks, List.mem_cons, List.not_mem_nil, or_false, forall_eq_or_imp, forall_eq] at hne
  simp [isQuiet, isQuote, isOpening, isClosing, opensOperator, hne]

/-- Only a quote is ever open as one. -/
theorem isQuote_of_scan {st st' : Option Char × Nat} {t : List Char} (h : scan st t = some st')
    (hst : ∀ q, st.1 = some q → isQuote q = true) : ∀ q, st'.1 = some q → isQuote q = true := by
  induction t generalizing st with
  | nil =>
    cases h
    exact hst
  | cons c t ih =>
    rw [scan_cons] at h
    obtain ⟨mid, hmid, hrest⟩ := Option.bind_eq_some_iff.1 h
    apply ih hrest
    obtain ⟨quote, depth⟩ := st
    cases quote with
    | some q =>
      cases hmid
      intro q' hq'
      by_cases hc : c = q
      · simp [hc] at hq'
      · simp only [hc, if_false] at hq'
        exact hst q' hq'
    | none =>
      rw [scanChar] at hmid
      split at hmid
      · rename_i hquote
        cases hmid
        rintro q' hq'
        cases hq'
        exact hquote
      · split at hmid
        · cases hmid
          exact nofun
        · split at hmid
          · cases hmid
            exact nofun
          · split at hmid
            · cases hmid
            · cases hmid
              exact nofun

/-- A quiet character changes nothing, if it opens no operator or something is open. -/
theorem scanChar_of_quiet {st : Option Char × Nat} {c : Char} (hc : isQuiet c = true)
    (hst : ∀ q, st.1 = some q → isQuote q = true)
    (hoperator : st ≠ (none, 0) ∨ opensOperator c = false) : scanChar st c = some st := by
  simp only [isQuiet, Bool.and_eq_true, Bool.not_eq_true'] at hc
  obtain ⟨⟨hquote, hopening⟩, hclosing⟩ := hc
  obtain ⟨quote, depth⟩ := st
  cases quote with
  | some q =>
    have hne : c ≠ q := by
      rintro rfl
      rw [hst c rfl] at hquote
      cases hquote
    rw [scanChar, if_neg hne]
  | none =>
    have hnot : ¬ (opensOperator c = true ∧ depth = 0) := by
      rintro ⟨hopens, rfl⟩
      rcases hoperator with hne | hnone
      · exact hne rfl
      · rw [hnone] at hopens
        cases hopens
    simp only [scanChar, hquote, hopening, hclosing, hnot, Bool.false_eq_true, if_false]

theorem scan_of_quiet {st : Option Char × Nat} {t : List Char} (ht : ∀ c ∈ t, isQuiet c = true)
    (hst : ∀ q, st.1 = some q → isQuote q = true)
    (hoperator : st ≠ (none, 0) ∨ ∀ c ∈ t, opensOperator c = false) : scan st t = some st := by
  induction t with
  | nil => rfl
  | cons c t ih =>
    obtain ⟨hc, ht⟩ := List.forall_mem_cons.1 ht
    rw [scan_cons, scanChar_of_quiet hc hst (hoperator.imp_right fun hnone => hnone c List.mem_cons_self)]
    apply ih ht
    apply hoperator.imp_right
    intro hnone d hd
    exact hnone d (List.mem_cons_of_mem c hd)

theorem passes_of_quiet {t : List Char} (ht : ∀ c ∈ t, isQuiet c = true ∧ opensOperator c = false) :
    Passes t :=
  scan_of_quiet (fun c hc => (ht c hc).1) nofun (.inr fun c hc => (ht c hc).2)

/-! ## Balanced texts -/

/-- A quote of the text stands after a backslash that escapes it. -/
def escapesQuote : List Char → Bool
  | [] => false
  | '\\' :: c :: cs => c == '"' || escapesQuote cs
  | _ :: cs => escapesQuote cs

theorem escapesQuote_cons {c : Char} (h : c ≠ '\\') (cs : List Char) :
    escapesQuote (c :: cs) = escapesQuote cs := by
  cases cs with
  | nil =>
    show escapesQuote [c] = false
    rw [escapesQuote]
    · rfl
    · exact fun _ _ hslash _ => h hslash
  | cons d cs =>
    rw [escapesQuote]
    exact fun _ _ hslash _ => h hslash

theorem escapesQuote_body {b : List Char} (h : StringBody b) (cs : List Char) :
    escapesQuote (b ++ cs) = (escapesQuote b || escapesQuote cs) := by
  induction h with
  | nil => rfl
  | char _ hslash _ ih =>
    rw [List.cons_append, escapesQuote_cons hslash, escapesQuote_cons hslash, ih]
  | escape c _ ih =>
    rw [List.cons_append, List.cons_append, escapesQuote, escapesQuote, ih, Bool.or_assoc]

theorem ne_of_isPlain {c d : Char} (hc : isPlain c = true) (hd : isPlain d = false) : c ≠ d := by
  rintro rfl
  rw [hc] at hd
  cases hd

theorem escapesQuote_balanced {t : List Char} (h : Balanced t) (cs : List Char) :
    escapesQuote (t ++ cs) = (escapesQuote t || escapesQuote cs) := by
  induction h generalizing cs with
  | nil => rfl
  | plain hc _ ih =>
    have hslash := ne_of_isPlain hc (show isPlain '\\' = false from rfl)
    rw [List.cons_append, escapesQuote_cons hslash, escapesQuote_cons hslash, ih]
  | string hb _ ih =>
    rw [List.cons_append, List.append_assoc, escapesQuote_cons (by decide), escapesQuote_body hb,
      List.cons_append, escapesQuote_cons (by decide), ih, escapesQuote_cons (by decide),
      escapesQuote_body hb, escapesQuote_cons (by decide), Bool.or_assoc]
  | array _ _ ihb ih =>
    rw [List.cons_append, List.append_assoc, escapesQuote_cons (by decide), ihb, List.cons_append,
      escapesQuote_cons (by decide), ih, escapesQuote_cons (by decide), ihb,
      escapesQuote_cons (by decide), Bool.or_assoc]
  | object _ _ ihb ih =>
    rw [List.cons_append, List.append_assoc, escapesQuote_cons (by decide), ihb, List.cons_append,
      escapesQuote_cons (by decide), ih, escapesQuote_cons (by decide), ihb,
      escapesQuote_cons (by decide), Bool.or_assoc]

/-- The search stays inside a string in which no quote is escaped. -/
theorem scan_body {b : List Char} (h : StringBody b) (hb : escapesQuote b = false) (depth : Nat) :
    scan (some '"', depth) b = some (some '"', depth) := by
  have hinside : ∀ c : Char, c ≠ '"' → scanChar (some '"', depth) c = some (some '"', depth) := by
    intro c hc
    rw [scanChar, if_neg hc]
  induction h with
  | nil => rfl
  | char hquote hslash _ ih =>
    rw [escapesQuote_cons hslash] at hb
    rw [scan_cons, hinside _ hquote]
    exact ih hb
  | escape c _ ih =>
    rw [escapesQuote, Bool.or_eq_false_iff, beq_eq_false_iff_ne] at hb
    rw [scan_cons, hinside _ (by decide), Option.bind_some, scan_cons, hinside _ hb.1]
    exact ih hb.2

/-- A plain character is quiet and opens no operator. -/
theorem quiet_of_isPlain {c : Char} (h : isPlain c = true) :
    isQuiet c = true ∧ opensOperator c = false := quiet_of rfl h

theorem scanChar_plain {c : Char} (h : isPlain c = true) (depth : Nat) :
    scanChar (none, depth) c = some (none, depth) :=
  scanChar_of_quiet (quiet_of_isPlain h).1 nofun (.inr (quiet_of_isPlain h).2)

/-- The search leaves nothing open in a balanced text in which no quote is escaped. -/
theorem scan_balanced {t : List Char} (h : Balanced t) (ht : escapesQuote t = false) (depth : Nat) :
    scan (none, depth) t = some (none, depth) := by
  induction h generalizing depth with
  | nil => rfl
  | plain hc _ ih =>
    rw [escapesQuote_cons (ne_of_isPlain hc rfl)] at ht
    rw [scan_cons, scanChar_plain hc]
    exact ih ht depth
  | string hb _ ih =>
    rw [escapesQuote_cons (by decide), escapesQuote_body hb, escapesQuote_cons (by decide),
      Bool.or_eq_false_iff] at ht
    rw [scan_cons]
    show scan (some '"', depth) _ = _
    rw [scan_append, scan_body hb ht.1, Option.bind_some, scan_cons]
    exact ih ht.2 depth
  | array _ _ ihb ih =>
    rename_i b t hb _
    rw [escapesQuote_cons (by decide), escapesQuote_balanced hb, escapesQuote_cons (by decide),
      Bool.or_eq_false_iff] at ht
    rw [scan_cons]
    show scan (none, depth + 1) _ = _
    rw [scan_append, ihb ht.1, Option.bind_some, scan_cons]
    exact ih ht.2 depth
  | object _ _ ihb ih =>
    rename_i b t hb _
    rw [escapesQuote_cons (by decide), escapesQuote_balanced hb, escapesQuote_cons (by decide),
      Bool.or_eq_false_iff] at ht
    rw [scan_cons]
    show scan (none, depth + 1) _ = _
    rw [scan_append, ihb ht.1, Option.bind_some, scan_cons]
    exact ih ht.2 depth

theorem passes_of_balanced {t : List Char} (h : Balanced t) (ht : escapesQuote t = false) : Passes t :=
  scan_balanced h ht 0

end Flowgraph.Predicate
