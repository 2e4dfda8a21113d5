import Flowgraph.Proofs.Run.Lineage
import Flowgraph.Proofs.Step.Keys

/-!
# The approval gate

A `History` is any sequence of calls on a run id whose resumes find a checkpoint that a
call before them gave to its store, or find none.  In every history of a workflow in
which nobody but the approval step of a node touches the decision and the input of that
node, the node is left through `approval` only after an answer to its own request that
approves                                                        (answered_of_approval)

What carries the proof is that all that a state has as the node's input was answered to
it, and that an approval in it is the record of such an answer (`Guarded`).
-/

namespace Flowgraph

open ApprovalConfig

variable {σ τ : Type}

/-! ## Histories -/

/-- A call, with the checkpoint and the input that it resumed if it did. -/
structure Visit (σ τ : Type) where
  answer : Option (Checkpoint × Json)
  call : Call σ τ

/-- Calls on a run id, the last one last. -/
inductive History (w : Workflow σ) (id : String) (fresh : State → Prop) :
    List (Visit σ τ) → Prop
  | nil : History w id fresh []
  | run {visits : List (Visit σ τ)} (r : Runner τ) (initial : State) (memory : σ) (content : τ) :
      History w id fresh visits → fresh initial →
      History w id fresh (visits ++ [⟨none, r.run w id initial memory content⟩])
  | resume {visits : List (Visit σ τ)} {v : Visit σ τ} {c : Checkpoint} (r : Runner τ)
      (input : Json) (memory : σ) (content : τ) :
      History w id fresh visits → v ∈ visits → v.call.checkpoint? = some c →
      (r.store.load id content).1 = .ok (some c) →
      History w id fresh (visits ++ [⟨some (c, input), r.resume w id input memory content⟩])
  | missed {visits : List (Visit σ τ)} (r : Runner τ) (input : Json) (memory : σ) (content : τ) :
      History w id fresh visits → (∀ c, (r.store.load id content).1 ≠ .ok (some c)) →
      History w id fresh (visits ++ [⟨none, r.resume w id input memory content⟩])

/-- An input that was given to a node which asked for it. -/
def Answered (visits : List (Visit σ τ)) (node : String) (input : Json) : Prop :=
  ∃ v ∈ visits, ∃ c, v.answer = some (c, input) ∧ c.pending = node

theorem Answered.mono {visits : List (Visit σ τ)} {node : String} {input : Json}
    (h : Answered visits node input) (more : List (Visit σ τ)) :
    Answered (visits ++ more) node input := by
  obtain ⟨v, hv, hanswer⟩ := h
  exact ⟨v, List.mem_append_left _ hv, hanswer⟩

/-- A node ran in a round and was left through a handle. -/
def Workflow.LeftThrough (w : Workflow σ) (r : Round) (node handle : String) : Prop :=
  node ∈ r.executions.ran ∧ ∃ memory, w.decisionOf r.after.state memory node = handle

/-! ## Guarded states -/

/-- A state in which a node's input was answered to it, and in which an approval is the record of
such an answer. -/
structure Guarded (c : ApprovalConfig) (node : String) (answered : Json → Prop) (s : State) :
    Prop where
  input : ∀ v, s.find? (inputKey node) = some v → answered v
  decision : s.find? (decisionKey node) = some (.str approved) → ∃ v, answered v ∧ c.Approves v

theorem Guarded.mono {c : ApprovalConfig} {node : String} {answered answered' : Json → Prop}
    {s : State} (h : Guarded c node answered s) (hsub : ∀ v, answered v → answered' v) :
    Guarded c node answered' s := by
  refine ⟨fun v hv => hsub v (h.input v hv), fun hd => ?_⟩
  obtain ⟨v, hv, happroves⟩ := h.decision hd
  exact ⟨v, hsub v hv, happroves⟩

theorem Guarded.insert {c : ApprovalConfig} {node key : String} {answered : Json → Prop}
    {s : State} {input : Json} (h : Guarded c node answered s) (hdecision : key ≠ decisionKey node)
    (hinput : key = inputKey node → answered input) :
    Guarded c node answered (s.insert key input) := by
  refine ⟨fun v hv => ?_, fun hd => ?_⟩
  · rw [NameMap.find?_insert] at hv
    split at hv
    · rename_i heq
      cases hv
      exact hinput heq.symm
    · exact h.input v hv
  · rw [NameMap.find?_insert, if_neg (Ne.symm hdecision)] at hd
    exact h.decision hd

/-- An approval node that no other node meddles with. -/
structure Gate (w : Workflow σ) (c : ApprovalConfig) (node : String) : Prop where
  step : w.steps.find? node = some (c.step node)
  others : ∀ id step, w.steps.find? id = some step → id ≠ node →
    step.Keeps id (decisionKey node) ∧ step.Keeps id (inputKey node)

namespace Gate

variable {w : Workflow σ} {c : ApprovalConfig} {node run : String} {answered : Json → Prop}
  {p : Progress} {frontier : NameSet} {r : Round}

/-- What the state has as input and decision after a round it had before, or the decision is the
record of the input. -/
theorem found_after (hg : Gate w c node) (hr : w.Follows run p frontier r) {key : String} {v : Json}
    (hkey : key = inputKey node ∨ key = decisionKey node)
    (hv : r.after.state.find? key = some v) :
    p.state.find? key = some v ∨ key = decisionKey node ∧
      ∃ input, p.state.find? (inputKey node) = some input ∧ v = .str (c.recorded input) := by
  obtain ⟨due, now, memory, -, rfl⟩ := hr
  rcases w.find?_state_after run now p due memory hv with
    hbefore | ⟨id, step, ctx, m, fields, hstep, hnode, hdone, hmem⟩
  · exact .inl hbefore
  · by_cases hid : id = node
    · rw [hid, hg.step] at hstep
      cases hstep
      rcases written_cases hdone hmem with ⟨rfl, hagain | hrecord⟩ | hnote
      · exact .inl hagain
      · exact .inr ⟨rfl, hrecord⟩
      · rcases hkey with rfl | rfl
        · exact absurd hnote (inputKey_not_mem_noteKeys node node)
        · exact absurd hnote (decisionKey_not_mem_noteKeys node node)
    · obtain ⟨hdecision, hinput⟩ := hg.others id step hstep hid
      rcases hkey with rfl | rfl
      · exact .inl ((hinput ctx _ m hnode).1 fields v hdone hmem)
      · exact .inl ((hdecision ctx _ m hnode).1 fields v hdone hmem)

/-- A round keeps a state guarded. -/
theorem guarded_round (hg : Gate w c node) (hs : Guarded c node answered p.state)
    (hr : w.Follows run p frontier r) : Guarded c node answered r.after.state := by
  refine ⟨fun v hv => ?_, fun hd => ?_⟩
  · rcases hg.found_after hr (.inl rfl) hv with hbefore | ⟨hkey, -⟩
    · exact hs.input v hbefore
    · exact absurd hkey (inputKey_ne_decisionKey node node)
  · rcases hg.found_after hr (.inr rfl) hd with hbefore | ⟨-, input, hinput, hrecord⟩
    · exact hs.decision hbefore
    · exact ⟨input, hs.input input hinput, recorded_eq_iff.1 (Json.str.inj hrecord).symm⟩

/-- A checkpoint waits for no decision, and for the node's input only if the node asked for it. -/
theorem awaited (hg : Gate w c node) (hr : w.Follows run p frontier r) {cp : Checkpoint}
    (hv : r.verdict = .suspended cp) :
    r.after.state = cp.state ∧ cp.inputKey ≠ decisionKey node ∧
      (cp.inputKey = inputKey node → cp.pending = node) := by
  obtain ⟨due, now, memory, -, rfl⟩ := hr
  obtain ⟨hafter, payload, hmem⟩ := w.checkpoint_of_round run now p due memory hv
  obtain ⟨step, ctx, m, hstep, hnode, hdone⟩ := w.suspended_by run now p due memory hmem
  refine ⟨by rw [hafter], ?_⟩
  by_cases hid : cp.pending = node
  · rw [hid, hg.step] at hstep
    cases hstep
    refine ⟨?_, fun _ => hid⟩
    rw [awaited_eq hdone]
    exact inputKey_ne_decisionKey node node
  · obtain ⟨hdecision, hinput⟩ := hg.others _ step hstep hid
    refine ⟨fun heq => ?_, fun heq => ?_⟩
    · rw [heq] at hdone
      exact absurd hdone ((hdecision ctx _ m hnode).2 payload)
    · rw [heq] at hdone
      exact absurd hdone ((hinput ctx _ m hnode).2 payload)

/-- A call that starts from a guarded state is guarded before every round. -/
theorem guarded_callOf (hg : Gate w c node) (runner : Runner τ) (resumed : Bool) (startData : Json)
    (memory : σ) (content : τ) (hs : Guarded c node answered p.state) :
    ∀ r ∈ (runner.callOf w run resumed startData p frontier memory content).rounds,
      ∃ q f, Guarded c node answered q.state ∧ w.Follows run q f r := by
  intro r hr
  have hkeep : ∀ (past : List Round) q f r next, Guarded c node answered q.state →
      w.Follows run q f r → r.verdict = .ready next → Guarded c node answered r.after.state :=
    fun past q f r next hq hfollows _ => hg.guarded_round hq hfollows
  have halong : Along w run (fun _ q _ => Guarded c node answered q.state) []
      (runner.callOf w run resumed startData p frontier memory content).rounds :=
    (runner.along_callOf hkeep resumed startData memory content hs).1
  obtain ⟨before, after, hrounds⟩ := List.append_of_mem hr
  rw [hrounds] at halong
  exact halong.before

/-- In a history every round starts from a state that the answers up to then guard. -/
theorem guarded_history (hg : Gate w c node) {fresh : State → Prop}
    (hfresh : ∀ s, fresh s → s.find? (decisionKey node) = none ∧ s.find? (inputKey node) = none)
    {visits : List (Visit σ τ)} (hh : History w run fresh visits) :
    ∀ before v after, visits = before ++ v :: after → ∀ r ∈ v.call.rounds,
      ∃ p frontier, Guarded c node (Answered (before ++ [v]) node) p.state ∧
        w.Follows run p frontier r := by
  induction hh with
  | nil =>
    intro before v after heq
    simp at heq
  | @run visits r initial memory content hvisits hinitial ih =>
    intro before v after heq r' hr'
    rcases last_or_earlier heq with ⟨rfl, rfl⟩ | ⟨after', hafter⟩
    · obtain ⟨hdecision, hinput⟩ := hfresh initial hinitial
      refine hg.guarded_callOf (p := { state := initial }) r false _ memory content ?_ r' hr'
      refine ⟨fun v hv => ?_, fun hd => ?_⟩
      · rw [hinput] at hv
        cases hv
      · rw [hdecision] at hd
        cases hd
    · exact ih before v after' hafter r' hr'
  | @resume visits u cp r input memory content hvisits hu hcp hload ih =>
    intro before v after heq r' hr'
    rcases last_or_earlier heq with ⟨rfl, rfl⟩ | ⟨after', hafter⟩
    · rw [r.resume_eq hload] at hr'
      refine hg.guarded_callOf r true _ memory _ ?_ r' hr'
      obtain ⟨earlier, later, hsplit⟩ := List.append_of_mem hu
      obtain ⟨rounds, last, hrounds, hv⟩ := Call.checkpoint?_eq_some_iff.1 hcp
      obtain ⟨p, frontier, hp, hfollows⟩ :=
        ih earlier u later hsplit last (by rw [hrounds]; exact List.mem_concat_self)
      obtain ⟨hstate, hdecision, hinput⟩ := hg.awaited hfollows hv
      have hsaved := hg.guarded_round hp hfollows
      rw [hstate] at hsaved
      refine (hsaved.mono fun a ha => ?_).insert hdecision fun hkey => ?_
      · rw [hsplit, List.append_assoc]
        have := ha.mono (later ++ [⟨some (cp, input), r.resume w run input memory content⟩])
        simpa using this
      · exact ⟨_, List.mem_concat_self, cp, rfl, hinput hkey⟩
    · exact ih before v after' hafter r' hr'
  | @missed visits r input memory content hvisits hload ih =>
    intro before v after heq r' hr'
    rcases last_or_earlier heq with ⟨rfl, rfl⟩ | ⟨after', hafter⟩
    · rw [r.rounds_resume_eq_nil hload] at hr'
      cases hr'
    · exact ih before v after' hafter r' hr'

end Gate

/-! ## The gate -/

/-- A node is backed by a built-in step. -/
def Workflow.IsBuiltin (w : Workflow σ) (n : Node) : Prop :=
  ∃ ev step, (Registry.builtin ev).create n = .ok step ∧ w.steps.find? n.id = some step

/-- A state without a decision and an input of an approval node. -/
def Fresh (node : String) (s : State) : Prop :=
  s.find? (decisionKey node) = none ∧ s.find? (inputKey node) = none

section

variable {g : Graph} {reg : Registry σ} {w : Workflow σ} {n : Node} {c : ApprovalConfig}

/-- An approval node guards its keys if all other steps are built in, or do not touch them. -/
theorem gate_of_compile (hc : g.compile reg = .ok w) (ht : n.type = .approval)
    (hconfig : Step.config decode n = .ok c) (hbuiltin : w.IsBuiltin n)
    (hothers : ∀ m ∈ g.nodes, m.id ≠ n.id → w.IsBuiltin m ∨
      ∃ step, w.steps.find? m.id = some step ∧ step.Avoids m.id (decisionKey n.id) ∧
        step.Avoids m.id (inputKey n.id)) : Gate w c n.id := by
  refine ⟨?_, fun id step hstep hid => ?_⟩
  · obtain ⟨ev, step, hcreate, hfind⟩ := hbuiltin
    obtain ⟨c', hconfig', rfl⟩ := create_builtin_approval hcreate ht
    rw [hconfig] at hconfig'
    cases Except.ok.inj hconfig'
    exact hfind
  · have hids : id ∈ g.ids := by
      rw [(Graph.compile_eq_ok hc).2.2.1] at hstep
      exact Graph.mem_ids_of_makeSteps hstep
    obtain ⟨m, hm, rfl⟩ := List.mem_map.1 hids
    rcases hothers m hm hid with ⟨ev, step', hcreate, hfind⟩ | ⟨step', hfind, hdec, hin⟩
    · rw [hstep] at hfind
      cases Option.some.inj hfind
      obtain ⟨hdecision, hinput⟩ := approval_keys_not_mem (Ne.symm hid)
      exact ⟨keeps_of_create_builtin hcreate hdecision, keeps_of_create_builtin hcreate hinput⟩
    · rw [hstep] at hfind
      cases Option.some.inj hfind
      exact ⟨hdec.keeps, hin.keeps⟩

/-- The gate cannot be passed by: an approval node that is left through `approval` in a call has
been answered in that call or before, by an input to its own request that approves. -/
theorem answered_of_approval (hc : g.compile reg = .ok w) (ht : n.type = .approval)
    (hconfig : Step.config decode n = .ok c) (hbuiltin : w.IsBuiltin n)
    (hothers : ∀ m ∈ g.nodes, m.id ≠ n.id → w.IsBuiltin m ∨
      ∃ step, w.steps.find? m.id = some step ∧ step.Avoids m.id (decisionKey n.id) ∧
        step.Avoids m.id (inputKey n.id))
    {run : String} {visits before after : List (Visit σ τ)} {v : Visit σ τ}
    (hh : History w run (Fresh n.id) visits) (hv : visits = before ++ v :: after) {r : Round}
    (hr : r ∈ v.call.rounds) (hleft : w.LeftThrough r n.id "approval") :
    ∃ u ∈ before ++ [v], ∃ cp input,
      u.answer = some (cp, input) ∧ cp.pending = n.id ∧ c.Approves input := by
  have hg := gate_of_compile hc ht hconfig hbuiltin hothers
  obtain ⟨p, frontier, hp, hfollows⟩ := hg.guarded_history (fun s hs => hs) hh before v after hv r hr
  have hafter := hg.guarded_round hp hfollows
  obtain ⟨-, memory, hdecision⟩ := hleft
  unfold Workflow.decisionOf at hdecision
  rw [hg.step] at hdecision
  obtain ⟨input, ⟨u, hu, cp, hanswer, hpending⟩, happroves⟩ :=
    hafter.decision (decision_eq_approval_iff.1 hdecision)
  exact ⟨u, hu, cp, input, hanswer, hpending, happroves⟩

end

/-- Where all steps are built in, every node is backed by one. -/
theorem isBuiltin_of_compile {g : Graph} {ev : Evaluator} {w : Workflow σ}
    (hc : g.compile (.builtin ev) = .ok w) {n : Node} (hn : n ∈ g.nodes) : w.IsBuiltin n := by
  obtain ⟨-, -, hsteps, hmade⟩ := Graph.compile_eq_ok hc
  obtain ⟨step, hstep⟩ := hmade n hn
  refine ⟨ev, step, hstep, ?_⟩
  rw [hsteps, Graph.find?_makeSteps hn hstep]

/-! ## A review -/

def reviewNode : Node :=
  { id := "review", type := .approval, config := [("require_comment", .bool true)] }

/-- A review, after which the run ends in any case. -/
def review : Graph where
  nodes := [{ id := "start", type := .start }, reviewNode, { id := "end", type := .finish }]
  edges := [.between "start" "review", (Edge.between "review" "end").through "approval",
    (Edge.between "review" "end").through "rejection"]
  distinct := by decide
  closed := by decide

/-- The built-in steps, with branches that take no condition. -/
def Registry.unconditional : Registry Unit := .builtin fun _ _ => .ok false

def reviewWorkflow : Workflow Unit :=
  ⟨review, review.planFrom ⟨"start", "end", ["start", "review", "end"]⟩,
    review.makeSteps .unconditional⟩

theorem review_compile : review.compile .unconditional = .ok reviewWorkflow :=
  Graph.compile_of_plan (by decide +kernel) rfl

def reviewInput : Json := .obj [("comment", .str "fine"), ("decision", .str "approved")]

/-- The resume of a plain run with an approval. -/
def reviewResume : Call Unit (NameMap Checkpoint) :=
  Runner.tenRounds.resume reviewWorkflow "run" reviewInput () reviewWorkflow.plainRun.content

def reviewCheckpoint : Checkpoint :=
  reviewWorkflow.plainRun.checkpoint?.get (by decide +kernel)

theorem review_history :
    History reviewWorkflow "run" (Fresh "review")
      ([⟨none, reviewWorkflow.plainRun⟩] ++ [⟨some (reviewCheckpoint, reviewInput), reviewResume⟩]) := by
  have hrun : History reviewWorkflow "run" (Fresh "review")
      [⟨none, reviewWorkflow.plainRun⟩] :=
    .run Runner.tenRounds ∅ () ∅ .nil ⟨rfl, rfl⟩
  refine .resume Runner.tenRounds reviewInput () _ hrun List.mem_cons_self
    (Option.some_get _).symm ?_
  decide +kernel

theorem review_leftThrough :
    reviewWorkflow.LeftThrough (reviewResume.rounds.get ⟨0, by decide +kernel⟩) "review"
      "approval" :=
  ⟨by decide +kernel, (), by decide +kernel⟩

/-- A review that is left through `approval` after it has been answered. -/
theorem answered_of_approval_review :
    reviewWorkflow.LeftThrough (reviewResume.rounds.get ⟨0, by decide +kernel⟩) "review"
      "approval" ∧
    ∃ u ∈ [⟨none, reviewWorkflow.plainRun⟩] ++
        [(⟨some (reviewCheckpoint, reviewInput), reviewResume⟩ : Visit Unit (NameMap Checkpoint))],
      ∃ cp input, u.answer = some (cp, input) ∧ cp.pending = "review" ∧
        ({ requireComment := true } : ApprovalConfig).Approves input := by
  refine ⟨review_leftThrough, ?_⟩
  have hnode : reviewNode ∈ review.nodes := by decide
  have hconfig : Step.config decode reviewNode = .ok { requireComment := true } := by
    decide +kernel
  exact answered_of_approval (n := reviewNode) review_compile rfl hconfig
    (isBuiltin_of_compile review_compile hnode)
    (fun m hm _ => .inl (isBuiltin_of_compile review_compile hm))
    review_history rfl (List.get_mem _ _) review_leftThrough

end Flowgraph
