import Flowgraph.Proofs.Template.Substitution
import Flowgraph.Step.Ends
import Mathlib.Algebra.Order.BigOperators.Group.List

/-!
# What a template depends on

A template is scanned for the names that its paths refer to, a leading `state.` taken off.  A lookup
takes the two readings of such a path in the other order: first the one under the name `state` itself,
and only where there is none the one behind it.  So the names found determine the text of a template
unless one of its paths addresses the state explicitly while `state` is not among them, and then they do
not:

    (∀ s t, AgreeOn (roots cs) s t → render s cs = render t cs) ↔
      (Explicit cs → "state" ∈ roots cs)                                          (determined_iff)

The names found and `state` always do (`rendered_alike`), also for the outputs of an end step
(`rendered_congr`).
-/

namespace Flowgraph

/-- Under each of the names two states have the same value, or both have none. -/
def State.AgreeOn (names : NameSet) (s t : State) : Prop := ∀ name ∈ names, s.find? name = t.find? name

instance (names : NameSet) (s t : State) : Decidable (State.AgreeOn names s t) :=
  inferInstanceAs (Decidable (∀ name ∈ names.toList, s.find? name = t.find? name))

namespace Json

/-- Objects with the same fields are equal. -/
theorem object_eq_iff {fields fields' : Fields} : object fields = object fields' ↔
    ∀ key, (object fields).field? key = (object fields').field? key := by
  constructor
  · intro heq key
    rw [heq]
  · intro hall
    have hmap : NameMap.ofList fields = NameMap.ofList fields' := NameMap.ext hall
    rw [object, object, hmap]

/-- Objects of one field each, one inside the other, with a value inside the last. -/
def beneath (names : List String) (v : Json) : Json := names.foldr (fun name v => .obj [(name, v)]) v

theorem follow?_beneath (names : List String) (v : Json) : (beneath names v).follow? names = some v := by
  induction names with
  | nil => rfl
  | cons name names ih =>
    have hchild : (beneath (name :: names) v).child? name = some (beneath names v) :=
      List.lookup_cons_self
    show ((beneath (name :: names) v).child? name).bind (follow? · names) = some v
    rw [hchild]
    exact ih

end Json

namespace DottedPath

variable {p q : DottedPath} {s t : State}

theorem follow?_congr (h : s.find? (String.ofList p.head) = t.find? (String.ofList p.head)) :
    p.follow? s = p.follow? t := by
  unfold follow?
  rw [h]

theorem head_of_behindState? (h : p.behindState? = some q) : p.head = "state".toList := by
  unfold behindState? at h
  split at h
  · cases h
  · split at h
    · rename_i hstate
      exact hstate
    · cases h

/-- The value of a path depends on its root, and that of a path that opens with `state.` also on what
stands under the name `state`. -/
theorem value?_congr (hroot : s.find? p.root = t.find? p.root)
    (hstate : p.behindState?.isSome = true → s.find? "state" = t.find? "state") :
    p.value? s = p.value? t := by
  unfold root at hroot
  unfold value?
  cases hq : p.behindState? with
  | none =>
    rw [hq, Option.getD_none] at hroot
    rw [follow?_congr hroot]
    rfl
  | some q =>
    rw [hq, Option.getD_some] at hroot
    rw [hq] at hstate
    have hhead : s.find? (String.ofList p.head) = t.find? (String.ofList p.head) := by
      rw [head_of_behindState? hq]
      exact hstate rfl
    rw [follow?_congr hhead, Option.bind_some, Option.bind_some, follow?_congr hroot]

theorem value?_empty (p : DottedPath) : p.value? ∅ = none := by
  unfold value?
  cases p.behindState? with
  | none => rfl
  | some q => rfl

/-- A state whose one variable is `state`, with something at the path behind it. -/
def shadow (p : DottedPath) : State :=
  (∅ : State).insert "state" (.beneath (p.tail.map String.ofList) (.bool true))

theorem value?_shadow (h : p.behindState? = some q) : p.value? p.shadow = some (.bool true) := by
  have hfollow : p.follow? p.shadow = some (.bool true) := by
    unfold follow? shadow
    rw [head_of_behindState? h, String.ofList_toList, NameMap.find?_insert, if_pos rfl]
    exact Json.follow?_beneath _ _
  rw [value?, hfollow, Option.some_or]

/-- Away from `state` there is nothing in it. -/
theorem agreeOn_shadow {names : NameSet} (h : "state" ∉ names) (p : DottedPath) :
    State.AgreeOn names ∅ p.shadow := by
  intro name hname
  rw [shadow, NameMap.find?_insert, if_neg]
  rintro rfl
  exact h hname

end DottedPath

namespace Template

variable {cs : List Char} {path : List Char} {s t : State}

/-! ## What is looked up -/

/-- Some placeholder addresses the state explicitly: its path opens with `state.`. -/
def Explicit (cs : List Char) : Prop :=
  ∃ path, .placeholder path ∈ parts cs ∧ (afterState? path).isSome = true

/-- What the placeholders of a template look up depends on the names found in it, and on `state` where
one addresses the state explicitly. -/
theorem lookup_congr (hroots : State.AgreeOn (roots cs) s t)
    (hstate : Explicit cs → s.find? "state" = t.find? "state") (h : .placeholder path ∈ parts cs) :
    lookup s path = lookup t path := by
  obtain ⟨p, hp, rfl⟩ := exists_path_of_mem_parts h
  rw [DottedPath.lookup_text hp.wordy, DottedPath.lookup_text hp.wordy]
  apply DottedPath.value?_congr
  · rw [← DottedPath.root_text hp.wordy]
    exact hroots _ (mem_roots.2 ⟨_, h, rfl⟩)
  · intro hbehind
    refine hstate ⟨_, h, ?_⟩
    rw [DottedPath.afterState?_text hp.wordy, Option.isSome_map]
    exact hbehind

theorem lookup_empty (h : .placeholder path ∈ parts cs) : lookup ∅ path = none := by
  obtain ⟨p, hp, rfl⟩ := exists_path_of_mem_parts h
  rw [DottedPath.lookup_text hp.wordy, DottedPath.value?_empty]

/-- A path that opens with `state.` leads into the variable `state` where that has something there. -/
theorem exists_lookup_of_explicit (h : Explicit cs) :
    ∃ (p : DottedPath) (path : List Char), .placeholder path ∈ parts cs ∧
      lookup p.shadow path = some (.bool true) := by
  obtain ⟨path, hpath, hstate⟩ := h
  obtain ⟨p, hp, rfl⟩ := exists_path_of_mem_parts hpath
  rw [DottedPath.afterState?_text hp.wordy, Option.isSome_map] at hstate
  obtain ⟨q, hq⟩ := Option.isSome_iff_exists.1 hstate
  exact ⟨p, _, hpath, (DottedPath.lookup_text hp.wordy _).trans (DottedPath.value?_shadow hq)⟩

/-! ## Rendered alike -/

theorem renderValue_str (s : State) (text : String) :
    renderValue s (.str text) = renderLeaf s text := by
  rw [renderValue]

/-- The names found in a template and `state` determine its text. -/
theorem render_congr (hroots : State.AgreeOn (roots cs) s t)
    (hstate : Explicit cs → s.find? "state" = t.find? "state") : render s cs = render t cs := by
  apply List.flatMap_congr
  intro part hpart
  cases part with
  | char c => rfl
  | placeholder path => rw [renderPart, renderPart, lookup_congr hroots hstate hpart]

theorem renderString_congr {text : String} (hroots : State.AgreeOn (roots text.toList) s t)
    (hstate : Explicit text.toList → s.find? "state" = t.find? "state") :
    renderString s text = renderString t text :=
  congrArg String.ofList (render_congr hroots hstate)

theorem renderLeaf_congr {text : String} (hroots : State.AgreeOn (roots text.toList) s t)
    (hstate : Explicit text.toList → s.find? "state" = t.find? "state") :
    renderLeaf s text = renderLeaf t text := by
  unfold renderLeaf
  rw [renderString_congr hroots hstate]
  split
  · rename_i path hparts
    obtain ⟨gap, gap', hshape⟩ := parts_of_parts_trim hparts
    have hmem : .placeholder path ∈ parts text.toList := by
      rw [hshape]
      exact List.mem_append_right _ List.mem_cons_self
    rw [lookup_congr hroots hstate hmem]
  · rfl

/-- A template has one text and one value in states that agree on what it refers to. -/
theorem rendered_alike {text : String} (hroots : State.AgreeOn (roots text.toList) s t)
    (hstate : Explicit text.toList → s.find? "state" = t.find? "state") :
    renderString s text = renderString t text ∧
      renderValue s (.str text) = renderValue t (.str text) := by
  rw [renderValue_str, renderValue_str]
  exact ⟨renderString_congr hroots hstate, renderLeaf_congr hroots hstate⟩

/-! ## Rendered apart -/

/-- Where nothing is found nothing is put in; so each value that is found makes a text longer. -/
theorem render_empty_ne {v : Json} (h : .placeholder path ∈ parts cs) (hv : lookup s path = some v)
    (hshown : v.display ≠ []) : render ∅ cs ≠ render s cs := by
  intro heq
  have hlength := congrArg List.length heq
  rw [render, render, List.length_flatMap, List.length_flatMap] at hlength
  refine Nat.ne_of_lt (List.sum_lt_sum _ _ ?_ ⟨_, h, ?_⟩) hlength
  · intro part hpart
    cases part with
    | char c => exact Nat.le_refl _
    | placeholder path =>
      rw [renderPart, lookup_empty hpart]
      exact Nat.zero_le _
  · rw [renderPart, lookup_empty h, renderPart, hv]
    exact List.length_pos_iff.2 hshown

theorem renderLeaf_empty_ne {text : String} (h : .placeholder path ∈ parts text.toList)
    (hv : lookup s path = some (.bool true)) : renderLeaf ∅ text ≠ renderLeaf s text := by
  have hne : renderString ∅ text ≠ renderString s text := fun heq =>
    render_empty_ne h hv (by decide) (String.ofList_inj.1 heq)
  unfold renderLeaf
  split
  · rename_i found hparts
    obtain ⟨gap, gap', hshape⟩ := parts_of_parts_trim hparts
    -- the one placeholder of the text is the one that is looked at
    have hfound : path = found := by
      rw [hshape] at h
      simpa using h
    subst hfound
    rw [lookup_empty h, hv]
    exact Json.noConfusion
  · exact fun heq => hne (Json.str.inj heq)

theorem exists_shadow_of_explicit {text : String} (h : Explicit text.toList) :
    ∃ p : DottedPath, renderLeaf ∅ text ≠ renderLeaf p.shadow text := by
  obtain ⟨p, path, hpath, hlookup⟩ := exists_lookup_of_explicit h
  exact ⟨p, renderLeaf_empty_ne hpath hlookup⟩

end Template

/-! ## Outputs -/

namespace EndConfig

open Template

/-- The output that counts for a name: the last one declared under it. -/
def output? (c : EndConfig) (name : String) : Option OutputVariable :=
  (c.outputs.filter (·.name == name)).getLast?

theorem output?_eq_some {c : EndConfig} {name : String} {o : OutputVariable}
    (h : c.output? name = some o) : o ∈ c.outputs := (List.mem_filter.1 (List.mem_of_getLast? h)).1

theorem mem_requiredVariables {c : EndConfig} {name : String} :
    name ∈ c.requiredVariables ↔ ∃ o ∈ c.outputs, name ∈ roots o.value.toList := by
  unfold requiredVariables
  induction c.outputs with
  | nil => simp
  | cons o outputs ih => rw [List.foldr_cons, NameSet.mem_union, ih, List.exists_mem_cons_iff]

theorem field?_rendered (c : EndConfig) (s : State) (name : String) :
    (c.rendered s).field? name = (c.output? name).map fun o => renderLeaf s o.value := by
  show (NameMap.ofList (c.outputs.map _)).find? name = _
  rw [NameMap.find?_ofList_eq_getLast?, List.filter_map, List.getLast?_map, Option.map_map]
  rfl

/-- Outputs are the same in two states exactly if each that counts is. -/
theorem rendered_eq_iff {c : EndConfig} {s t : State} : c.rendered s = c.rendered t ↔
    ∀ name o, c.output? name = some o → renderLeaf s o.value = renderLeaf t o.value := by
  refine Json.object_eq_iff.trans (forall_congr' fun name => ?_)
  show (c.rendered s).field? name = (c.rendered t).field? name ↔ _
  rw [field?_rendered, field?_rendered]
  cases c.output? name with
  | none => exact iff_of_true rfl nofun
  | some o => simp

/-- Some output that counts addresses the state explicitly. -/
def Explicit (c : EndConfig) : Prop :=
  ∃ name o, c.output? name = some o ∧ Template.Explicit o.value.toList

theorem rendered_congr {c : EndConfig} {s t : State} (hagree : State.AgreeOn c.requiredVariables s t)
    (hstate : c.Explicit → s.find? "state" = t.find? "state") : c.rendered s = c.rendered t := by
  refine rendered_eq_iff.2 fun name o ho => renderLeaf_congr (fun root hroot => ?_) fun h => ?_
  · exact hagree root (mem_requiredVariables.2 ⟨o, output?_eq_some ho, hroot⟩)
  · exact hstate ⟨name, o, ho, h⟩

end EndConfig

/-- **What outputs depend on.**  The names found in a template determine its text and its value exactly
if no placeholder addresses the state explicitly or `state` is among the names; those that an end step
requires determine its outputs exactly if no output that counts does so or `state` is among them.
Together with `state` they always do. -/
theorem EndConfig.determined_iff (text : String) (c : EndConfig) :
    ((∀ s t : State, State.AgreeOn (Template.roots text.toList) s t →
        Template.renderString s text = Template.renderString t text ∧
          Template.renderValue s (.str text) = Template.renderValue t (.str text)) ↔
      (Template.Explicit text.toList → "state" ∈ Template.roots text.toList)) ∧
    (∀ s t : State, State.AgreeOn (Template.roots text.toList) s t →
      s.find? "state" = t.find? "state" →
        Template.renderString s text = Template.renderString t text ∧
          Template.renderValue s (.str text) = Template.renderValue t (.str text)) ∧
    ((∀ s t : State, State.AgreeOn c.requiredVariables s t → c.rendered s = c.rendered t) ↔
      (c.Explicit → "state" ∈ c.requiredVariables)) ∧
    ∀ s t : State, State.AgreeOn c.requiredVariables s t → s.find? "state" = t.find? "state" →
      c.rendered s = c.rendered t := by
  refine ⟨⟨?_, ?_⟩, ?_, ⟨?_, ?_⟩, ?_⟩
  · intro hall hexplicit
    by_contra hstate
    obtain ⟨p, hne⟩ := Template.exists_shadow_of_explicit hexplicit
    rw [← Template.renderValue_str, ← Template.renderValue_str] at hne
    exact hne (hall ∅ p.shadow (p.agreeOn_shadow hstate)).2
  · exact fun hstate s t hagree => Template.rendered_alike hagree fun h => hagree _ (hstate h)
  · exact fun s t hagree hstate => Template.rendered_alike hagree fun _ => hstate
  · rintro hall ⟨name, o, ho, hexplicit⟩
    by_contra hstate
    obtain ⟨p, hne⟩ := Template.exists_shadow_of_explicit hexplicit
    exact hne (rendered_eq_iff.1 (hall ∅ p.shadow (p.agreeOn_shadow hstate)) name o ho)
  · exact fun hstate s t hagree => rendered_congr hagree fun h => hagree _ (hstate h)
  · exact fun s t hagree hstate => rendered_congr hagree fun _ => hstate

/-- A variable `state` stands before the variable that `state.x` addresses, and is not among the names
found. -/
theorem EndConfig.not_determined_shadowed :
    let text := "\x7b\x7b state.x \x7d\x7d"
    let c : EndConfig := ⟨[⟨"out", text⟩]⟩
    let s := State.ofFields [("x", .ofWord 1)]
    let t := State.ofFields [("state", .obj [("x", .ofWord 2)]), ("x", .ofWord 1)]
    State.AgreeOn (Template.roots text.toList) s t ∧ State.AgreeOn c.requiredVariables s t ∧
      Template.renderString s text = "1" ∧ Template.renderString t text = "2" ∧
      c.rendered s = .obj [("out", .ofWord 1)] ∧ c.rendered t = .obj [("out", .ofWord 2)] := by
  decide +kernel

end Flowgraph
