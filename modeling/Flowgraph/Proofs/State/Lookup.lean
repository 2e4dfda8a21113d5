import Flowgraph.Predicate.Evaluate
import Flowgraph.Proofs.Template.Substitution

/-!
# One path, one value

A dotted path is looked up by conditions, by templates, in the state and in the state as an object.  All
of them find what stands at the end of its segments, or find nothing there (`DottedPath.found_alike`):

    Predicate.evaluateOperand s p.text = .ok v ↔ Template.lookup s p.text = some v ↔
      s.atPath? path = some v ↔ s.toJson.atPath? path = some v ↔ s.toJson.Holds p.segments v

A condition reads a path only after everything else that an operand can be, so the words for truth values
and null are no paths to it, and a path that opens with `state` is another one.
-/

namespace Flowgraph

/-! ## Values at the end of a row of segments -/

namespace Json

/-- What stands at the end of a row of segments: a segment is the key of a field, or the place of an
item. -/
inductive Holds : Json → List String → Json → Prop
  | here {v : Json} : Holds v [] v
  | field {fields : Fields} {key : String} {keys : List String} {v w : Json} :
      fields.lookup key = some v → Holds v keys w → Holds (.obj fields) (key :: keys) w
  | item {items : List Json} {key : String} {keys : List String} {i : Nat} {v w : Json} :
      readWord key.toList = some i → items[i]? = some v → Holds v keys w →
      Holds (.arr items) (key :: keys) w

theorem follow?_cons (v : Json) (key : String) (keys : List String) :
    v.follow? (key :: keys) = (v.child? key).bind (follow? · keys) := rfl

/-- Following a row of segments finds what stands at its end. -/
theorem follow?_eq_some_iff {v w : Json} {keys : List String} :
    v.follow? keys = some w ↔ v.Holds keys w := by
  constructor
  · intro h
    induction keys generalizing v with
    | nil =>
      cases h
      exact .here
    | cons key keys ih =>
      rw [follow?_cons] at h
      obtain ⟨u, hchild, hrest⟩ := Option.bind_eq_some_iff.1 h
      cases v with
      | obj fields => exact .field hchild (ih hrest)
      | arr items =>
        obtain ⟨i, hi, hitem⟩ := Option.bind_eq_some_iff.1 hchild
        exact .item hi hitem (ih hrest)
      | null => cases hchild
      | bool b => cases hchild
      | num n => cases hchild
      | str t => cases hchild
  · intro h
    induction h with
    | here => rfl
    | field hfield _ ih =>
      rw [follow?_cons]
      exact Option.bind_eq_some_iff.2 ⟨_, hfield, ih⟩
    | item hplace hitem _ ih =>
      rw [follow?_cons]
      exact Option.bind_eq_some_iff.2 ⟨_, Option.bind_eq_some_iff.2 ⟨_, hplace, hitem⟩, ih⟩

end Json

namespace DottedPath

variable {p : DottedPath} {s : State}

def segments (p : DottedPath) : List String := (p.head :: p.tail).map String.ofList

theorem follow?_eq (p : DottedPath) (s : State) : p.follow? s = s.toJson.follow? p.segments := rfl

theorem intercalate_segments (p : DottedPath) : ".".intercalate p.segments = String.ofList p.text := by
  have hpieces : p.segments.map String.toList = p.head :: p.tail := by
    rw [segments, List.map_map]
    exact List.map_id'' (fun _ => String.toList_ofList) _
  rw [← String.toList_inj, String.toList_intercalate, hpieces, text_eq_intercalate]
  exact String.toList_ofList.symm

/-! ## The four ways -/

/-- The state as an object has at a path what the state has. -/
theorem atPath?_toJson (h : p.WellFormed) (s : State) :
    s.toJson.atPath? (String.ofList p.text) = p.follow? s := by
  have hne : String.ofList p.text ≠ "" := by
    obtain ⟨c, cs, hhead, -⟩ := h.opens
    intro hempty
    have htext : p.text = [] := String.ofList_inj.1 hempty
    rw [text, hhead] at htext
    cases htext
  have hpieces : Text.splitAt '.' p.text = p.head :: p.tail :=
    Predicate.splitAt_words fun piece hpiece => (h.wordy piece hpiece).2
  rw [Json.atPath?, if_neg hne, Text.segments, String.toList_ofList, hpieces]
  rfl

/-- An operand that is a path and no word has the value that the path leads to. -/
theorem evaluateOperand_text (h : p.WellFormed) (hstate : p.head ≠ "state".toList)
    (hword : p.text ∉ ["true", "false", "null", "True", "False", "None"].map String.toList)
    (s : State) : Predicate.evaluateOperand s p.text =
      match p.follow? s with
      | some v => .ok v
      | none => .error (.unknownVariable (String.ofList p.text)) := by
  have hterm : (Predicate.Term.path p.head p.tail).WellFormed := by
    refine ⟨h.opens, h.wordy, fun heq => absurd heq hstate, fun htail => ?_⟩
    have htext : p.text = p.head := by rw [text, htail, List.flatMap_nil, List.append_nil]
    rw [htext] at hword
    refine ⟨?_, fun hmem => hword ?_⟩
    · cases hv : Predicate.word? p.head with
      | none => rfl
      | some v =>
        refine absurd ?_ hword
        rcases Predicate.word?_cases hv with heq | heq | heq <;> rw [heq] <;> decide
    · simp only [List.mem_cons, List.not_mem_nil, or_false] at hmem
      rcases hmem with heq | heq | heq <;> rw [heq] <;> decide
  have htrim : Text.trim p.text = p.text := (Predicate.Term.trimmed_text hterm).trim_eq
  have hread : Predicate.operand? p.text = some (.path p.segments) :=
    Predicate.Term.operand?_path hterm
  unfold Predicate.evaluateOperand
  rw [htrim]
  dsimp only
  rw [hread]
  dsimp only
  rw [← intercalate_segments]
  rfl

end DottedPath

namespace Template.Slot

theorem trimmed_text (p : Slot) : Text.Trimmed p.text := by
  refine ⟨⟨'\x7b', _, rfl, by decide⟩, ?_⟩
  refine ⟨opening ++ (p.before ++ (p.path.text ++ (p.after ++ ['\x7d']))), '\x7d', ?_, by decide⟩
  simp [text]

theorem parts_text {p : Slot} (h : p.WellFormed) : parts p.text = [.placeholder p.path.text] := by
  have hslot := parts_slot h []
  rw [List.append_nil] at hslot
  exact hslot

/-- A placeholder alone is the value that its path denotes, or the empty text where there is none. -/
theorem renderLeaf_text {p : Slot} (h : p.WellFormed) (s : State) :
    renderLeaf s (String.ofList p.text) = (p.path.value? s).getD (.str "") := by
  have hlookup := DottedPath.lookup_text h.path.wordy s
  unfold renderLeaf renderString render
  rw [String.toList_ofList, p.trimmed_text.trim_eq, parts_text h]
  dsimp only
  rw [hlookup]
  cases hv : p.path.value? s with
  | some v => rfl
  | none =>
    have hnone : renderPart s (.placeholder p.path.text) = [] := by
      rw [renderPart, hlookup, hv]
      rfl
    rw [List.flatMap_singleton, hnone]
    rfl

end Template.Slot

/-- **One path, one value.**  A path that does not open with `state` and is no word for a truth value or
null finds the same as an operand of a condition, as a placeholder, in the state and in the state as an
object: what stands at the end of its segments, or nothing. -/
theorem DottedPath.found_alike {p : DottedPath} (h : p.WellFormed) (hstate : p.head ≠ "state".toList)
    (hword : p.text ∉ ["true", "false", "null", "True", "False", "None"].map String.toList)
    (s : State) :
    let path := String.ofList p.text
    let found := s.atPath? path
    (∀ v, found = some v ↔ s.toJson.Holds p.segments v) ∧
      s.toJson.atPath? path = found ∧
      Predicate.evaluateOperand s p.text = (match found with
        | some v => .ok v
        | none => .error (.unknownVariable path)) ∧
      Template.lookup s p.text = found ∧
      ∀ slot : Template.Slot, slot.WellFormed → slot.path = p →
        Template.parts slot.text = [.placeholder p.text] ∧
          Template.renderLeaf s (String.ofList slot.text) = found.getD (.str "") := by
  intro path found
  have hfound : found = p.follow? s := DottedPath.atPath?_text h.wordy s
  have hvalue : p.value? s = found := by
    rw [DottedPath.value?, DottedPath.behindState?_of_ne hstate, hfound]
    exact Option.or_none
  refine ⟨fun v => ?_, ?_, ?_, ?_, ?_⟩
  · rw [hfound, DottedPath.follow?_eq]
    exact Json.follow?_eq_some_iff
  · rw [hfound]
    exact DottedPath.atPath?_toJson h s
  · rw [hfound]
    exact DottedPath.evaluateOperand_text h hstate hword s
  · rw [DottedPath.lookup_text h.wordy, hvalue]
  · rintro slot hslot rfl
    rw [Template.Slot.renderLeaf_text hslot, hvalue]
    exact ⟨Template.Slot.parts_text hslot, rfl⟩

/-- An item of an array inside an object, at a place written with a zero before it, and a place behind
the last item. -/
theorem DottedPath.found_alike_items :
    let s := State.ofFields [("doc", .obj [("items", .arr [.null, .obj [("no", .ofWord 7)]])])]
    let p : DottedPath := ⟨"doc".toList, ["items".toList, "01".toList, "no".toList]⟩
    let q : DottedPath := ⟨"doc".toList, ["items".toList, "2".toList]⟩
    p.WellFormed ∧ p.head ≠ "state".toList ∧ p.text = "doc.items.01.no".toList ∧
      s.toJson.Holds p.segments (.ofWord 7) ∧
      s.toJson.atPath? "doc.items.01.no" = some (.ofWord 7) ∧
      Predicate.evaluateOperand s "doc.items.01.no".toList = .ok (.ofWord 7) ∧
      Template.renderLeaf s "\x7b\x7b doc.items.01.no \x7d\x7d" = .ofWord 7 ∧
      q.WellFormed ∧ q.text = "doc.items.2".toList ∧ s.toJson.atPath? "doc.items.2" = none ∧
      Predicate.evaluateOperand s "doc.items.2".toList = .error (.unknownVariable "doc.items.2") ∧
      Template.lookup s "doc.items.2".toList = none := by
  intro s p q
  have hp : p.WellFormed := ⟨⟨'d', _, rfl, rfl⟩, by decide⟩
  have hq : q.WellFormed := ⟨⟨'d', _, rfl, rfl⟩, by decide⟩
  have hstate : p.head ≠ "state".toList := by decide
  have hfound : s.atPath? (String.ofList p.text) = some (.ofWord 7) := by decide +kernel
  have hnone : s.atPath? (String.ofList q.text) = none := by decide +kernel
  obtain ⟨hholds, hobject, hoperand, -, hslots⟩ := p.found_alike hp hstate (by decide) s
  obtain ⟨-, hnothing, hmissing, hlookup, -⟩ := q.found_alike hq (by decide) (by decide) s
  have hslot : (⟨[' '], p, [' ']⟩ : Template.Slot).WellFormed :=
    ⟨List.all_eq_true.1 rfl, hp, List.all_eq_true.1 rfl⟩
  have hleaf := (hslots _ hslot rfl).2
  rw [hfound] at hobject hoperand hleaf
  rw [hnone] at hnothing hmissing hlookup
  exact ⟨hp, hstate, by decide, (hholds _).1 hfound, hobject, hoperand, hleaf, hq, by decide,
    hnothing, hmissing, hlookup⟩

end Flowgraph
