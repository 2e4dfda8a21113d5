import Flowgraph.Proofs.Template.Paths

/-!
# Substitution

A template as it is written: chunks of text with placeholders between them, each a dotted path between
double braces, with blanks around the path or none.  The parts of such a text are the characters of
the chunks and the paths of the placeholders, in their order (`Written.parts_text`).  So rendering puts
the value of each path in the place of its placeholder and leaves the chunks alone, and the names that
a template refers to are the roots of its paths:

    render s w.text = w.first ++ w.rest.flatMap fun p => p.1.shown s ++ p.2      (Written.render_text)
    roots w.text = NameSet.ofList (w.rest.map fun p => p.1.path.root)            (Written.roots_text)

A text in which no opening brace follows another has no placeholder at all (`render_of_unbraced`).
-/

namespace Flowgraph.Template

open Text (isBlank isWordChar isWordStart)

/-! ## Text without placeholders -/

/-- Two opening braces. -/
def opening : List Char := ['\x7b', '\x7b']

/-- No opening brace stands right behind another. -/
def Unbraced (cs : List Char) : Prop := ¬ opening <:+: cs

instance (cs : List Char) : Decidable (Unbraced cs) :=
  inferInstanceAs (Decidable (¬ opening <:+: cs))

theorem Unbraced.of_not_mem {cs : List Char} (h : '\x7b' ∉ cs) : Unbraced cs := by
  rintro ⟨before, after, rfl⟩
  simp [opening] at h

theorem unbraced_cons_iff {c : Char} {cs : List Char} :
    Unbraced (c :: cs) ↔ ¬ (c = '\x7b' ∧ cs.head? = some '\x7b') ∧ Unbraced cs := by
  have hopens : opening <+: c :: cs ↔ c = '\x7b' ∧ cs.head? = some '\x7b' := by
    cases cs with
    | nil => simp [opening]
    | cons d cs => simp [opening, eq_comm]
  rw [Unbraced, Unbraced, List.infix_cons_iff, not_or, hopens]

theorem Unbraced.of_infix {cs ds : List Char} (h : Unbraced ds) (hcs : cs <:+: ds) : Unbraced cs :=
  fun hopens => h (hopens.trans hcs)

/-- Two texts may be put together where no opening brace meets another. -/
theorem Unbraced.append {cs ds : List Char} (hcs : Unbraced cs) (hds : Unbraced ds)
    (hmeet : cs.getLast? = some '\x7b' → ds.head? ≠ some '\x7b') : Unbraced (cs ++ ds) := by
  induction cs with
  | nil => exact hds
  | cons c cs ih =>
    obtain ⟨hopens, hrest⟩ := unbraced_cons_iff.1 hcs
    cases cs with
    | nil => exact unbraced_cons_iff.2 ⟨fun heq => hmeet (congrArg some heq.1) heq.2, hds⟩
    | cons d cs =>
      rw [List.getLast?_cons_cons] at hmeet
      exact unbraced_cons_iff.2 ⟨hopens, ih hrest hmeet⟩

theorem placeholder?_eq_none {cs : List Char} (h : ¬ opening <+: cs) : placeholder? cs = none := by
  unfold placeholder?
  split
  · rename_i ds
    exact absurd ⟨ds, rfl⟩ h
  · rfl

theorem parts_cons {c : Char} {cs : List Char} (h : ¬ opening <+: c :: cs) :
    parts (c :: cs) = .char c :: parts cs := by
  rw [parts, partsFrom, placeholder?_eq_none h]
  rfl

/-- The characters of a chunk without opening braces stand for themselves, whatever follows. -/
theorem parts_chunk {cs : List Char} (h : '\x7b' ∉ cs) (more : List Char) :
    parts (cs ++ more) = cs.map .char ++ parts more := by
  induction cs with
  | nil => rfl
  | cons c cs ih =>
    obtain ⟨hc, hcs⟩ := not_or.1 (mt List.mem_cons.2 h)
    have hopens : ¬ opening <+: c :: (cs ++ more) := by
      intro hprefix
      exact hc (List.cons_prefix_cons.1 hprefix).1
    rw [List.cons_append, parts_cons hopens, ih hcs]
    rfl

theorem parts_of_unbraced {cs : List Char} (h : Unbraced cs) : parts cs = cs.map .char := by
  induction cs with
  | nil => rfl
  | cons c cs ih =>
    have hopens : ¬ opening <+: c :: cs := fun hprefix => h hprefix.isInfix
    rw [parts_cons hopens, ih (unbraced_cons_iff.1 h).2]
    rfl

theorem flatMap_renderPart_char (s : State) (cs : List Char) :
    (cs.map Part.char).flatMap (renderPart s) = cs := by
  rw [List.flatMap_map]
  exact List.flatMap_singleton' cs

/-- A text without placeholders stands as it is. -/
theorem render_of_unbraced (s : State) {cs : List Char} (h : Unbraced cs) : render s cs = cs := by
  rw [render, parts_of_unbraced h, flatMap_renderPart_char]

theorem renderString_of_unbraced (s : State) {t : String} (h : Unbraced t.toList) :
    renderString s t = t := by
  rw [renderString, render_of_unbraced s h, String.ofList_toList]

/-! ## Placeholders -/

/-- A placeholder as it is written. -/
structure Slot where
  before : List Char
  path : DottedPath
  after : List Char

namespace Slot

def text (p : Slot) : List Char :=
  opening ++ (p.before ++ (p.path.text ++ (p.after ++ ['\x7d', '\x7d'])))

/-- A dotted path with nothing but blanks around it. -/
structure WellFormed (p : Slot) : Prop where
  before : ∀ c ∈ p.before, isBlank c = true
  path : p.path.WellFormed
  after : ∀ c ∈ p.after, isBlank c = true

/-- What is put in the place of a placeholder: the display form of the value that its path denotes, or
nothing where there is none. -/
def shown (s : State) (p : Slot) : List Char := ((p.path.value? s).map Json.display).getD []

end Slot

theorem trimStart_gap {gap cs : List Char} (hgap : ∀ c ∈ gap, isBlank c = true)
    (hcs : ∀ d ds, cs = d :: ds → isBlank d = false) : Text.trimStart (gap ++ cs) = cs :=
  (Predicate.takeWhile_append_stop hgap hcs).2

/-- A path ends at a blank and at a closing brace. -/
theorem isPathChar_gap {gap : List Char} (hgap : ∀ c ∈ gap, isBlank c = true) (cs : List Char)
    (d : Char) (ds : List Char) (h : gap ++ '\x7d' :: cs = d :: ds) : isPathChar d = false := by
  cases gap with
  | nil =>
    cases h
    rfl
  | cons c gap =>
    cases h
    have hblank := hgap d List.mem_cons_self
    cases hpath : isPathChar d with
    | false => rfl
    | true =>
      rcases Bool.or_eq_true_iff.1 hpath with hword | hdot
      · rw [Text.isBlank_of_isWordChar hword] at hblank
        cases hblank
      · rw [beq_iff_eq.1 hdot] at hblank
        exact absurd hblank (by decide)

/-- A dotted path between double braces is read as a placeholder, and nothing behind it is looked
at. -/
theorem placeholder?_slot {p : Slot} (h : p.WellFormed) (cs : List Char) :
    placeholder? (p.text ++ cs) = some (p.path.text, cs) := by
  obtain ⟨c, ds, htext⟩ : ∃ c ds, p.path.text = c :: ds := by
    obtain ⟨c, ds, hhead, -⟩ := h.path.opens
    exact ⟨c, _, by rw [DottedPath.text, hhead]; rfl⟩
  have hdotted := h.path.isDottedPath_text
  obtain ⟨hstart, hchars⟩ := Predicate.of_isDottedPath (htext ▸ hdotted)
  have hpath : ∀ d ∈ p.path.text, isPathChar d = true := by
    intro d hd
    rcases hchars d (htext ▸ hd) with hword | rfl
    · rw [isPathChar, hword, Bool.true_or]
    · rfl
  have hopen : Text.trimStart
      (p.before ++ (p.path.text ++ (p.after ++ '\x7d' :: '\x7d' :: cs))) =
      p.path.text ++ (p.after ++ '\x7d' :: '\x7d' :: cs) := by
    apply trimStart_gap h.before
    intro d ds' hd
    rw [htext] at hd
    rw [← (List.cons.inj hd).1]
    exact Text.isBlank_of_isWordChar (Predicate.isWordChar_of_isWordStart hstart)
  have hclose : Text.trimStart (p.after ++ '\x7d' :: '\x7d' :: cs) = '\x7d' :: '\x7d' :: cs := by
    apply trimStart_gap h.after
    rintro d ds' ⟨⟩
    decide
  obtain ⟨htake, hdrop⟩ := Predicate.takeWhile_append_stop hpath (isPathChar_gap h.after ('\x7d' :: cs))
  have hslot : p.text ++ cs =
      '\x7b' :: '\x7b' :: (p.before ++ (p.path.text ++ (p.after ++ '\x7d' :: '\x7d' :: cs))) := by
    simp [Slot.text, opening]
  rw [hslot]
  simp only [placeholder?, hopen, htake, hdrop, hclose, hdotted]

/-- Only a dotted path between double braces is read as a placeholder. -/
theorem exists_slot_of_placeholder? {cs path rest : List Char}
    (h : placeholder? cs = some (path, rest)) :
    ∃ p : Slot, p.WellFormed ∧ cs = p.text ++ rest ∧ path = p.path.text := by
  unfold placeholder? at h
  split at h
  · rename_i cs
    dsimp only at h
    split at h
    · rename_i ds hdotted hclose
      obtain ⟨rfl, rfl⟩ := Prod.mk.inj (Option.some.inj h)
      obtain ⟨p, hp, htext⟩ := DottedPath.exists_text hdotted
      have hblanks : ∀ ds : List Char, ds.takeWhile isBlank ++ Text.trimStart ds = ds :=
        fun _ => List.takeWhile_append_dropWhile
      have hgap := hblanks ((Text.trimStart cs).dropWhile isPathChar)
      rw [hclose] at hgap
      refine ⟨⟨cs.takeWhile isBlank, p, ((Text.trimStart cs).dropWhile isPathChar).takeWhile isBlank⟩,
        ⟨fun c hc => List.mem_takeWhile_imp hc, hp, fun c hc => List.mem_takeWhile_imp hc⟩, ?_,
        htext.symm⟩
      simp only [Slot.text, List.append_assoc, List.cons_append, List.nil_append]
      rw [hgap, htext, List.takeWhile_append_dropWhile, hblanks]
      rfl
    · cases h
  · cases h

theorem parts_slot {p : Slot} (h : p.WellFormed) (cs : List Char) :
    parts (p.text ++ cs) = .placeholder p.path.text :: parts cs := by
  have hread := placeholder?_slot h cs
  obtain ⟨ds, htext⟩ : ∃ ds, p.text = '\x7b' :: ds := ⟨_, rfl⟩
  rw [htext, List.cons_append] at hread ⊢
  rw [parts, partsFrom, hread]
  dsimp only
  -- what is skipped is the rest of the placeholder
  rw [partsFrom_eq_parts_drop, List.length_append, Nat.add_sub_cancel, List.drop_left]

/-- A template opens with a placeholder or with a character. -/
theorem parts_cases (cs : List Char) : cs = [] ∨
    (∃ (p : Slot) (rest : List Char), p.WellFormed ∧ cs = p.text ++ rest ∧
      parts cs = .placeholder p.path.text :: parts rest) ∨
    ∃ c rest, cs = c :: rest ∧ parts cs = .char c :: parts rest := by
  cases cs with
  | nil => exact .inl rfl
  | cons c rest =>
    right
    cases hread : placeholder? (c :: rest) with
    | none =>
      right
      refine ⟨c, rest, rfl, ?_⟩
      rw [parts, partsFrom, hread]
      rfl
    | some found =>
      left
      obtain ⟨path, rest'⟩ := found
      obtain ⟨p, hp, hcs, -⟩ := exists_slot_of_placeholder? hread
      exact ⟨p, rest', hp, hcs, hcs ▸ parts_slot hp rest'⟩

theorem parts_eq_nil_iff {cs : List Char} : parts cs = [] ↔ cs = [] := by
  rcases parts_cases cs with rfl | ⟨p, rest, -, rfl, hparts⟩ | ⟨c, rest, rfl, hparts⟩
  · exact iff_of_true rfl rfl
  · refine iff_of_false (hparts ▸ List.cons_ne_nil _ _) ?_
    exact List.cons_ne_nil _ _
  · exact iff_of_false (hparts ▸ List.cons_ne_nil _ _) (List.cons_ne_nil _ _)

/-- What stands in a placeholder is a path. -/
theorem exists_path_of_mem_parts {cs path : List Char} (h : .placeholder path ∈ parts cs) :
    ∃ p : DottedPath, p.WellFormed ∧ p.text = path := by
  induction hn : cs.length using Nat.strong_induction_on generalizing cs with
  | _ n ih =>
    rcases parts_cases cs with rfl | ⟨p, rest, hp, rfl, hparts⟩ | ⟨c, rest, rfl, hparts⟩
    · cases h
    · rw [hparts] at h
      rcases List.mem_cons.1 h with heq | h
      · cases heq
        exact ⟨p.path, hp.path, rfl⟩
      · refine ih _ ?_ h rfl
        simp [← hn, Slot.text, opening]
        omega
    · rw [hparts] at h
      rcases List.mem_cons.1 h with heq | h
      · cases heq
      · refine ih _ ?_ h rfl
        simp [← hn]

/-- A text that is one placeholder, blanks around it aside. -/
theorem parts_of_parts_trim {cs path : List Char} (h : parts (Text.trim cs) = [.placeholder path]) :
    ∃ gap gap' : List Char,
      parts cs = gap.map .char ++ .placeholder path :: gap'.map .char := by
  obtain ⟨gap, gap', hcs, hgap, hgap'⟩ := Text.exists_gaps cs
  have hchunk : ∀ ds : List Char, (∀ c ∈ ds, isBlank c = true) → '\x7b' ∉ ds := by
    intro ds hds hmem
    have hbrace := hds _ hmem
    cases hbrace
  refine ⟨gap, gap', ?_⟩
  rcases parts_cases (Text.trim cs) with hnil | ⟨p, rest, hp, htrim, hparts⟩ | ⟨c, rest, -, hparts⟩
  · rw [hnil] at h
    cases h
  · obtain ⟨hpath, hrest⟩ := List.cons.inj (hparts.symm.trans h)
    rw [htrim, parts_eq_nil_iff.1 hrest, List.append_nil] at hcs
    rw [hcs, parts_chunk (hchunk gap hgap), parts_slot hp, hpath,
      parts_of_unbraced (.of_not_mem (hchunk gap' hgap'))]
  · rw [hparts] at h
    cases h

/-- The names that a template refers to are the roots of its paths. -/
theorem mem_roots {cs : List Char} {name : String} :
    name ∈ roots cs ↔ ∃ path, Part.placeholder path ∈ parts cs ∧ name = root path := by
  rw [roots, NameSet.mem_ofList, List.mem_filterMap]
  constructor
  · rintro ⟨part, hpart, hname⟩
    cases part with
    | char c => cases hname
    | placeholder path => exact ⟨path, hpart, (Option.some.inj hname).symm⟩
  · rintro ⟨path, hpart, rfl⟩
    exact ⟨_, hpart, rfl⟩

/-! ## Written templates -/

/-- A template as it is written: a chunk of text, and placeholders with the chunks behind them. -/
structure Written where
  first : List Char
  rest : List (Slot × List Char)

namespace Written

def text (w : Written) : List Char := w.first ++ w.rest.flatMap fun p => p.1.text ++ p.2

/-- The chunks hold no opening brace. -/
structure WellFormed (w : Written) : Prop where
  first : '\x7b' ∉ w.first
  slots : ∀ p ∈ w.rest, p.1.WellFormed
  chunks : ∀ p ∈ w.rest, '\x7b' ∉ p.2

/-- The parts of a template are those that it is written with. -/
theorem parts_text {w : Written} (h : w.WellFormed) :
    parts w.text = w.first.map .char ++
      w.rest.flatMap fun p => .placeholder p.1.path.text :: p.2.map .char := by
  obtain ⟨first, rest⟩ := w
  have hrest : parts (rest.flatMap fun p => p.1.text ++ p.2) =
      rest.flatMap fun p => .placeholder p.1.path.text :: p.2.map .char := by
    have hslots := h.slots
    have hchunks := h.chunks
    clear h
    induction rest with
    | nil => rfl
    | cons p rest ih =>
      obtain ⟨hslot, hslots⟩ := List.forall_mem_cons.1 hslots
      obtain ⟨hchunk, hchunks⟩ := List.forall_mem_cons.1 hchunks
      rw [List.flatMap_cons, List.flatMap_cons, List.append_assoc, parts_slot hslot,
        parts_chunk hchunk, ih hslots hchunks]
      rfl
  rw [text, parts_chunk h.first, hrest]

theorem render_text {w : Written} (h : w.WellFormed) (s : State) :
    render s w.text = w.first ++ w.rest.flatMap fun p => p.1.shown s ++ p.2 := by
  rw [render, parts_text h, List.flatMap_append, flatMap_renderPart_char, List.flatMap_assoc]
  apply congrArg (w.first ++ ·)
  apply List.flatMap_congr
  intro p hp
  rw [List.flatMap_cons, flatMap_renderPart_char, renderPart,
    DottedPath.lookup_text (h.slots p hp).path.wordy]
  rfl

theorem roots_text {w : Written} (h : w.WellFormed) :
    roots w.text = NameSet.ofList (w.rest.map fun p => p.1.path.root) := by
  have hpath : ∀ path, Part.placeholder path ∈ parts w.text ↔
      ∃ p ∈ w.rest, path = p.1.path.text := by
    intro path
    rw [parts_text h]
    simp
  have hroot : ∀ p ∈ w.rest, root p.1.path.text = p.1.path.root := fun p hp =>
    DottedPath.root_text (h.slots p hp).path.wordy
  ext name
  rw [mem_roots, NameSet.mem_ofList, List.mem_map]
  constructor
  · rintro ⟨path, hmem, rfl⟩
    obtain ⟨p, hp, rfl⟩ := (hpath path).1 hmem
    exact ⟨p, hp, (hroot p hp).symm⟩
  · rintro ⟨p, hp, rfl⟩
    exact ⟨p.1.path.text, (hpath _).2 ⟨p, hp, rfl⟩, (hroot p hp).symm⟩

/-- **Substitution.**  A written template is rendered in one pass: each placeholder gives way to the
display form of the value that its path denotes, or to nothing where there is none, and what is put in
is not looked at again.  The names that the template refers to are the roots of its paths. -/
theorem substituted {w : Written} (h : w.WellFormed) (s : State) :
    renderString s (String.ofList w.text) =
      String.ofList (w.first ++ w.rest.flatMap fun p => p.1.shown s ++ p.2) ∧
    roots (String.ofList w.text).toList = NameSet.ofList (w.rest.map fun p => p.1.path.root) := by
  constructor
  · rw [renderString, String.toList_ofList, render_text h]
  · rw [String.toList_ofList, roots_text h]

/-- A value that looks like a placeholder, an item of an array, and a path to nothing. -/
def greeting : Written where
  first := "Dear ".toList
  rest := [
    (⟨[' '], ⟨"user".toList, ["name".toList]⟩, ['\u2003', '\n']⟩, []),
    (⟨[], ⟨"state".toList, ["items".toList, "01".toList]⟩, [' ']⟩, "\x7d, ".toList),
    (⟨[], ⟨"y".toList, []⟩, []⟩, ['.'])]

theorem substituted_greeting :
    let s := State.ofFields [("items", .arr [.null, .bool true]), ("user", .obj [("name", .str
      "\x7b\x7b y \x7d\x7d")])]
    let t := "Dear \x7b\x7b user.name\u2003\n\x7d\x7d\x7b\x7bstate.items.01 \x7d\x7d\x7d, \x7b\x7by\x7d\x7d."
    greeting.WellFormed ∧ greeting.text = t.toList ∧
      Template.renderString s t = "Dear \x7b\x7b y \x7d\x7dtrue\x7d, ." ∧
      (Template.roots t.toList).toList = ["items", "user", "y"] := by
  intro s t
  have hslots : ∀ p ∈ greeting.rest, p.1.WellFormed := by
    refine List.forall_mem_cons.2 ⟨?_, List.forall_mem_cons.2 ⟨?_, List.forall_mem_singleton.2 ?_⟩⟩
    · exact ⟨List.all_eq_true.1 rfl, ⟨⟨'u', _, rfl, rfl⟩, by decide⟩, List.all_eq_true.1 rfl⟩
    · exact ⟨List.all_eq_true.1 rfl, ⟨⟨'s', _, rfl, rfl⟩, by decide⟩, List.all_eq_true.1 rfl⟩
    · exact ⟨List.all_eq_true.1 rfl, ⟨⟨'y', _, rfl, rfl⟩, by decide⟩, List.all_eq_true.1 rfl⟩
  have hgreeting : greeting.WellFormed := ⟨by decide, hslots, by decide⟩
  have htext : greeting.text = t.toList := by decide
  obtain ⟨hrender, hroots⟩ := substituted hgreeting s
  rw [htext, String.ofList_toList] at hrender hroots
  refine ⟨hgreeting, htext, hrender.trans (by decide +kernel), ?_⟩
  rw [hroots]
  decide +kernel

end Written

end Flowgraph.Template
