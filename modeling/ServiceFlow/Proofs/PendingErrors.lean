import ServiceFlow.Proofs.FinallyBlocks

/-!
# Pending errors are not stale

Control gets into a try block only from the state that clears the slot, so an error that the end of
the finally block finds there was written after control last entered the try block. This needs a try
block at which control does not stop itself.
-/

namespace ServiceFlow.Machine

open Forest List

/-- What a state does to a slot. -/
inductive Effect where
  | keeps
  | clears
  | sets
deriving DecidableEq, Repr

/-- Whether a variable may hold a value after a step, if it does or does not before. -/
def Effect.Allows : Effect → Bool → Bool → Prop
  | .keeps, before, after => after = before
  | .clears, _, after => after = false
  | .sets, _, _ => True

instance (effect : Effect) (before after : Bool) : Decidable (effect.Allows before after) :=
  match effect with
  | .keeps => inferInstanceAs (Decidable (after = before))
  | .clears => inferInstanceAs (Decidable (after = false))
  | .sets => inferInstanceAs (Decidable True)

def Path.reaches (path : Path) (slot : String) : Bool :=
  path.origin = .document || path.origin = .variable slot

/-- The effect of a result. Without a path it is the new document. -/
def writeEffect (slot : String) (isNull : Bool) : Option ResultPath → Effect
  | some (.path path) =>
    if isNull && path = .ofVariable slot then .clears
    else if path.reaches slot then .sets else .keeps
  | some .discard => .keeps
  | none => .sets

/-- A state without a result of its own hands on the document. -/
def Pass.effect (slot : String) (p : Pass) : Effect :=
  if p.outputPath.isSome then .sets
  else if p.result.isNone && p.parameters.isNone && p.inputPath.isNone && p.resultPath.isNone then
    .keeps
  else writeEffect slot (p.result matches some .null) p.resultPath

def State.effect (slot : String) : State → Effect
  | .pass p => p.effect slot
  | .task t => if t.outputPath.isSome then .sets else writeEffect slot false t.resultPath
  | .map header _ => writeEffect slot false header.resultPath
  | .parallel header _ => writeEffect slot false header.resultPath
  | .choice _ | .wait .. | .succeed | .fail .. => .keeps

def Catcher.effect (slot : String) (c : Catcher) : Effect :=
  writeEffect slot false (some c.resultPath)

/-- A step of a machine, with whether a variable holds a value before and after it. -/
inductive Step (machine : Machine) (slot : String) : String × Bool → String × Bool → Prop where
  | work {name s e before after} (hs : (name, s) ∈ machine.states) (he : e ∈ s.exits)
    (heffect : (s.effect slot).Allows before after) : Step machine slot (name, before) (e, after)
  | error {name s c before after} (hs : (name, s) ∈ machine.states) (hc : c ∈ s.catchers)
    (heffect : (c.effect slot).Allows before after) :
    Step machine slot (name, before) (c.next, after)

/-- One state leads to another. -/
def Joins (machine : Machine) (a b : String) : Prop :=
  ∃ s, (a, s) ∈ machine.states ∧ b ∈ s.exits ++ s.catchers.map Catcher.next

/-- A step of the machine that writes an error to the slot. -/
inductive Writes (machine : Machine) (slot : String) (a b : String) : Prop where
  | work {s} (hs : (a, s) ∈ machine.states) (hb : b ∈ s.exits) (heffect : s.effect slot = .sets)
  | error {s c} (hs : (a, s) ∈ machine.states) (hc : c ∈ s.catchers) (hb : c.next = b)
    (heffect : c.effect slot = .sets)

/-- A walk of a machine from its start, where a variable has no value yet. -/
structure Walk (machine : Machine) (slot : String) where
  length : Nat
  name : Nat → String
  isSet : Nat → Bool
  start : name 0 = machine.startAt
  unset : isSet 0 = false
  step : ∀ i < length, Step machine slot (name i, isSet i) (name (i + 1), isSet (i + 1))

section Walk

variable {machine : Machine} {slot a b : String} {before after : Bool}

lemma Step.joins (h : Step machine slot (a, before) (b, after)) : Joins machine a b := by
  cases h with
  | work hs he => exact ⟨_, hs, mem_append_left _ he⟩
  | error hs hc => exact ⟨_, hs, mem_append_right _ (mem_map_of_mem hc)⟩

lemma Effect.eq_sets {effect : Effect} (h : effect.Allows false true) : effect = .sets := by
  cases effect with
  | sets => rfl
  | keeps => cases h
  | clears => cases h

lemma Step.writes (h : Step machine slot (a, false) (b, true)) : Writes machine slot a b := by
  cases h with
  | work hs he heffect => exact .work hs he (Effect.eq_sets heffect)
  | error hs hc heffect => exact .error hs hc rfl (Effect.eq_sets heffect)

lemma Walk.exists_write (w : Walk machine slot) {k : Nat} (hk : k ≤ w.length)
    (hset : w.isSet k = true) : ∃ j < k, Writes machine slot (w.name j) (w.name (j + 1)) ∧
      ∀ i, j < i → i ≤ k → w.isSet i = true := by
  induction k with
  | zero =>
    rw [w.unset] at hset
    cases hset
  | succ k ih =>
    have hstep := w.step k hk
    rw [hset] at hstep
    cases hbefore : w.isSet k with
    | false =>
      rw [hbefore] at hstep
      refine ⟨k, Nat.lt_succ_self k, hstep.writes, fun i hlt hle => ?_⟩
      have hi : i = k + 1 := by omega
      rw [hi, hset]
    | true =>
      obtain ⟨j, hj, hwrites, hsince⟩ := ih (by omega) hbefore
      refine ⟨j, by omega, hwrites, fun i hlt hle => ?_⟩
      by_cases hi : i = k + 1
      · rw [hi, hset]
      · exact hsince i hlt (by omega)

end Walk

/-- Control gets into a try block only from the state that clears the slot of the finally block,
and an error that is pending was written after control last entered the try block. -/
structure Making.ClearsOnEntry {program : Program} {machine : Machine} (m : Making program machine)
    (tryBlock : Nat) (reset : String) (parts : FinallyLabels) : Prop where
  clears : ∃ transition, (reset, assignment (.ofVariable parts.slot)
    { result := some .null, transition }) ∈ machine.states
  tests : ∃ raise otherwise,
    (parts.rethrow, .choice ⟨isPending parts.slot, raise, otherwise⟩) ∈ machine.states
  entries : ∀ {a b}, Joins machine a b → ¬ m.LeadsInto tryBlock a → m.LeadsInto tryBlock b →
    a = reset
  fresh : ∀ (w : Walk machine parts.slot) {k}, k ≤ w.length → w.isSet k = true → ∃ j < k,
    Writes machine parts.slot (w.name j) (w.name (j + 1)) ∧
    (∀ i, j < i → i ≤ k → w.isSet i = true) ∧
    ∀ i < k, ¬ m.LeadsInto tryBlock (w.name i) → m.LeadsInto tryBlock (w.name (i + 1)) → i < j

namespace Making

variable {program : Program} {low : Nat → Nat} {machine : Machine} {m : Making program machine}
  (hm : m.Sound low) {parts : FinallyLabels} {reset b : String} {transition : Transition}
include hm

lemma eq_of_mem_states {name : String} {s s' : State} (hs : (name, s) ∈ machine.states)
    (hs' : (name, s') ∈ machine.states) : s = s' := by
  rw [m.states] at hs hs'
  exact congrArg Prod.snd (inj_on_of_nodup_map hm.finished.ready.nodup hs hs' rfl)

section Try

variable {owner tryBlock finalizer : Nat} {handler : Option Nat}
  (hn : program.forest.node? owner = some (.tryStmt tryBlock handler (some finalizer)))
  (hw : program.forest.Within m.body.tag owner)
include hn hw

lemma choice_of_rethrow (hparts : m.first.labels.finallies.lookup finalizer = some parts) :
    ∃ raise otherwise,
      (parts.rethrow, .choice ⟨isPending parts.slot, raise, otherwise⟩) ∈ machine.states := by
  have hwithin : program.forest.Within m.body.tag finalizer :=
    .child (hm.inOrder.parent_finalizer hn) (isFunction_of_try hn) hw
  obtain ⟨t, ht, rfl, s, -, hem⟩ :=
    emitted_of_mem_namesOf hm hwithin (Labels.rethrow_mem_namesOf hparts)
  have hsome : (m.first.labels.partsOf t.tag).rethrow = some parts := hparts
  obtain ⟨hrethrow, ⟨statements, isFinally, hblock⟩, owner', howner⟩ :=
    (hm.suit t ht).eq_rethrow hsome
  obtain ⟨d, d', hrun, hs, hnew, hready⟩ := hm.finished.made hem
  have hnode : ∃ inner flag, t.node = .block inner flag := by
    have heq := (hm.inOrder.node?_of_shows (hm.collects.shows t ht)).symm.trans hblock
    cases hnode : t.node <;> rw [hnode] at heq <;> cases heq
    exact ⟨_, _, rfl⟩
  obtain ⟨inner, flag, hnode⟩ := hnode
  have hrun' : (emitRethrow program.forest t).run d = .ok ((), d') := by
    rw [emit, hnode] at hrun
    exact hrun
  have hnames : m.plan.labels.namesOf t.tag = [parts.rethrow] := by
    rw [Labels.namesOf]
    exact congrArg Parts.names hrethrow
  rw [hnames] at hready
  have hkind : t.kind = .block := by rw [Tree.kind, hnode]; rfl
  obtain ⟨_, _, hemission, rfl, raise, otherwise, hchoice⟩ :=
    Plan.does_emitRethrow hm.plan hwithin hkind howner hrethrow hready () d' hrun'
  refine ⟨raise, otherwise, ?_⟩
  rw [← inj_on_of_nodup_map hemission.ready.nodup hs hchoice rfl]
  exact mem_of_emitted hm hem

lemma eq_reset_of_joins (hstops : ¬ program.forest.Works tryBlock)
    (hreset : m.first.labels.resets.lookup owner = some reset) {a : String}
    (hab : Joins machine a b) (ha : ¬ m.LeadsInto tryBlock a) (hb : m.LeadsInto tryBlock b) :
    a = reset := by
  have h := hm.inOrder
  obtain ⟨s, hs, hnext⟩ := hab
  obtain ⟨u, hu, hin, s', hs', hub⟩ := hb
  -- a move from outside the try block would lead to a state outside it
  have houtside : ∀ {source dest}, program.forest.Within m.body.tag source →
      m.plan.Lands dest → source ≠ owner → ¬ program.forest.Inside source tryBlock →
      m.first.labels.target? program.forest source dest ≠ some b := by
    intro source dest hsource hdest hne hout htarget
    obtain ⟨id, hid, hout', hname⟩ := Labels.target?_outside h hm.plan.isBody hsource
      (fun d hd => (hdest d hd).1) hn hw (by simp [hreset])
      (fun d hd heq => hstops (heq ▸ (hdest d hd).2)) hne hout htarget
    obtain ⟨v, -, rfl, _, -, hv⟩ := emitted_of_mem_namesOf hm hid hname
    obtain rfl := hm.finished.unique hv hub
    exact hout' hin
  have hparent : program.forest.parent? tryBlock = some owner :=
    h.parent_eq_some hn (by simp [Node.children])
  have horigin := (covers hm).origin hs
  rcases horigin with ⟨t, hem⟩ | ⟨-, hfirst⟩
  · have ht := (hm.finished.emitted hem).1
    by_cases htag : t.tag = owner
    · have hname := (eq_reset_of_emitted hm hn hw htag hem).1
      exact Option.mem_unique hname hreset
    · have hout : ¬ program.forest.Inside t.tag tryBlock := by
        intro hin
        refine ha ⟨t, ht, hin, s, ?_, hem⟩
        cases s <;> first | rfl | cases hnext
      rcases goes_of_next hm hem hnext with ⟨_, -, hown⟩ | ⟨dest, hd, hg⟩
      · obtain rfl := hm.finished.unique hown hub
        exact absurd hin hout
      · exact absurd (target?_of_goes hm hub hs' hg)
          (houtside (hm.collects.within t ht) (lands_of_mem hm ht hd) htag hout)
  · obtain ⟨-, hexits, -, hcatchers, -⟩ := hm.start hfirst
    rw [hexits, hcatchers, map_nil, append_nil, Option.mem_toList] at hnext
    have hblock := hm.block hfirst (by rw [hexits, hnext]; simp)
    refine absurd hnext (houtside .self (lands_begin hm) ?_ ?_)
    · rintro rfl
      have hnode := (h.node?_of_shows hm.shows).symm.trans hn
      have hkind := congrArg Node.kind (Option.some.inj hnode)
      rw [Node.kind_map] at hkind
      cases hblock.symm.trans hkind
    · intro hbody
      have hle := h.le_of_inside (h.inside_of_within hw)
      have hle' := h.le_of_inside hbody
      have hlt := h.lt_parent hparent
      omega

end Try

lemma unset_of_clears {slot : String} {before after : Bool}
    (hs : (reset, assignment (.ofVariable slot) { result := some .null, transition }) ∈
      machine.states) (hstep : Step machine slot (reset, before) (b, after)) : after = false := by
  cases hstep with
  | work hs' _ heffect =>
    rw [← eq_of_mem_states hm hs hs'] at heffect
    simpa [assignment, State.effect, Pass.effect, writeEffect, Effect.Allows] using heffect
  | error hs' hc _ =>
    rw [← eq_of_mem_states hm hs hs'] at hc
    cases hc

lemma clearsOnEntry {tryBlock : Nat}
    (hs : (reset, assignment (.ofVariable parts.slot) { result := some .null, transition }) ∈
      machine.states)
    (htests : ∃ raise otherwise,
      (parts.rethrow, .choice ⟨isPending parts.slot, raise, otherwise⟩) ∈ machine.states)
    (hentries : ∀ {a b}, Joins machine a b → ¬ m.LeadsInto tryBlock a → m.LeadsInto tryBlock b →
      a = reset) : m.ClearsOnEntry tryBlock reset parts := by
  refine ⟨⟨transition, hs⟩, htests, hentries, ?_⟩
  intro w k hk hset
  obtain ⟨j, hj, hwrites, hsince⟩ := w.exists_write hk hset
  refine ⟨j, hj, hwrites, hsince, ?_⟩
  intro i hi hout hin
  by_contra hlate
  have hstep := w.step i (by omega)
  rw [hentries hstep.joins hout hin] at hstep
  have hunset := unset_of_clears hm hs hstep
  rw [hsince (i + 1) (by omega) (by omega)] at hunset
  cases hunset

end Making

/-- In a compiled machine and all machines inside it, control gets into the try block of a try
statement with a finally block only from the state that clears the slot, so no pending error is
older than the last entry into the try block. -/
theorem compile_clears_on_entry {tree : SyntaxTree} {root : NodeId} {program : Program}
    (hf : Forest.ofTree tree = .ok (root, program.forest)) {before after : Namespace}
    {workflow : Workflow} (hc : (compile program).run.run before = (.ok workflow, after))
    {machine : Machine} (hh : Holds workflow.definition machine) :
    ∃ m : Making program machine, m.Covers ∧ ∀ {owner tryBlock finalizer : NodeId} {handler},
      program.forest.node? owner = some (.tryStmt tryBlock handler (some finalizer)) →
      program.forest.Within m.body.tag owner → ¬ program.forest.Works tryBlock →
      ∃ reset parts, m.first.labels.resets.lookup owner = some reset ∧
        m.first.labels.finallies.lookup finalizer = some parts ∧
        m.ClearsOnEntry tryBlock reset parts := by
  obtain ⟨low, hmade⟩ := exists_making_of_compile hf hc
  obtain ⟨m, hm⟩ := exists_making_of_holds hmade hh
  refine ⟨m, Making.covers hm, ?_⟩
  intro owner tryBlock finalizer handler hn hw hstops
  obtain ⟨reset, parts, transition, hreset, hparts, hs⟩ := Making.exists_reset hm hn hw
  exact ⟨reset, parts, hreset, hparts, Making.clearsOnEntry hm hs
    (Making.choice_of_rethrow hm hn hw hparts)
    fun hab ha hb => Making.eq_reset_of_joins hm hn hw hstops hreset hab ha hb⟩

/-- A loop round a try statement, whose finally block can go on with the next round. -/
def retried (tryBlock : SyntaxTree → SyntaxTree) : SyntaxTree :=
  let thrown : SyntaxTree := .raise (.mk () (.newExpr (.ident "Lost") []))
  let again : SyntaxTree := .branch (.ident "more") (.mk () .continueStmt)
  let guarded : SyntaxTree :=
    .mk () (.tryStmt (tryBlock (.branch (.ident "bad") thrown)) none (some (.block [again])))
  .function [] [.loop (.ident "more") (.block [guarded, .copy "rounds" "more"])]

/-- The try statement is node 11, its try block node 6, with statement 5, and the finally block
node 10. -/
theorem compile_clears_on_entry_retried : ∃ root f workflow after,
    Forest.ofTree (retried fun t => .mk () (.block [t] false)) = .ok (root, f) ∧
    (compile (programOf f root)).run.run .empty = (.ok workflow, after) ∧
    f.node? 11 = some (.tryStmt 6 none (some 10)) ∧
    ∃ m : Making (programOf f root) workflow.definition, f.Within m.body.tag 11 ∧ ¬ f.Works 6 ∧
      ∃ reset parts, m.first.labels.resets.lookup 11 = some reset ∧
        m.first.labels.finallies.lookup 10 = some parts ∧ m.ClearsOnEntry 6 reset parts ∧
        ∃ b, m.LeadsInto 6 b := by
  obtain ⟨root, f, workflow, after, hf, hc, heval⟩ :=
    exists_compiled compile programOf (retried fun t => .mk () (.block [t] false))
      (fun program _ => let f := program.forest
        f.node? 11 = some (.tryStmt 6 none (some 10)) ∧ f.node? 6 = some (.block [5] false) ∧
        f.node? 5 = some (.ifStmt 1 4 none) ∧ (16, 15) ∈ f.enclosing 11 ∧
        (16, 15) ∈ f.enclosing 5 ∧ 6 ∈ f.ancestors 5 ∧
        (List.range f.size).all fun id => !(f.parent? id).any f.isFunction || id == 16)
      (by decide +kernel)
  obtain ⟨hnode, hblock, hif, hpart, hpart', hin, hbody⟩ := heval
  obtain ⟨low, h⟩ := Forest.inOrder_ofTree hf
  obtain ⟨m, hcovers, hclears⟩ := compile_clears_on_entry hf hc (.self _)
  have htag := body_eq_of_covers h hcovers hbody
  have hwithin : ∀ {id}, (16, 15) ∈ f.enclosing id → f.Within m.body.tag id := by
    intro id hm
    obtain ⟨hp, hfun, hw⟩ := h.mem_enclosing_iff.mp hm
    rw [htag]
    exact within_of_child hp hfun hw
  have hidle : ¬ f.Works 6 := by
    rintro ⟨node, hn, hworks⟩
    cases hblock.symm.trans hn
    cases hworks
  obtain ⟨reset, parts, hreset, hparts, hcleared⟩ := hclears hnode (hwithin hpart) hidle
  obtain ⟨t, ht, htag', b, hb⟩ := hcovers.works (hwithin hpart') ⟨_, hif, rfl⟩
  exact ⟨root, f, workflow, after, hf, hc, hnode, m, hwithin hpart, hidle, reset, parts, hreset,
    hparts, hcleared, b, t, ht, .inr (htag' ▸ hin), hb⟩

/-- Rounds of the loop in which the first one fails and the second one does not. The error of the
first round is found by the second one. -/
def staleRounds (i : Nat) : String × Bool :=
  [("Initialize", false), ("while (more)", false), ("if(bad)", false), ("throw new Lost()", false),
    ("if(more)", true), ("continue", true), ("while (more)", true), ("if(bad)", true),
    ("if(more)", true), ("finally", true)][i]?.getD ("", false)

/-- Control that stops at the try block itself gets there past the state that clears the slot: the
walk enters the try block with its step 6, and the error that is pending at its end is older. -/
theorem stale_error_of_working_tryBlock : ∃ root f workflow after,
    ofTree (retried id) = .ok (root, f) ∧
    (compile (programOf f root)).run.run .empty = (.ok workflow, after) ∧
    f.node? 10 = some (.tryStmt 5 none (some 9)) ∧ f.Works 5 ∧
    ∃ w : Walk workflow.definition "__fnl0", w.length = 9 ∧
      w.name 6 = "while (more)" ∧ w.name 7 = "if(bad)" ∧
      w.name 9 = "finally" ∧ w.isSet 9 = true ∧
      ∀ j, 6 ≤ j → j < 9 → ¬ Writes workflow.definition "__fnl0" (w.name j) (w.name (j + 1)) := by
  obtain ⟨root, f, workflow, after, hf, hc, heval⟩ :=
    exists_compiled compile programOf (retried id)
      (fun program workflow => program.forest.node? 10 = some (.tryStmt 5 none (some 9)) ∧
        program.forest.node? 5 = some (.ifStmt 1 4 none) ∧
        (staleRounds 0).1 = workflow.definition.startAt ∧
        (∀ i < 9, workflow.definition.states.any fun entry => entry.1 = (staleRounds i).1 ∧
          (staleRounds (i + 1)).1 ∈ entry.2.exits ∧
          (entry.2.effect "__fnl0").Allows (staleRounds i).2 (staleRounds (i + 1)).2) ∧
        ∀ entry ∈ workflow.definition.states, entry.1 ∈ [6, 7, 8].map (staleRounds · |>.1) →
          entry.2.effect "__fnl0" ≠ .sets ∧ entry.2.catchers = [])
      (by decide +kernel)
  simp only [any_eq_true, decide_eq_true_eq] at heval
  obtain ⟨hnode, hif, hstart, hsteps, hquiet⟩ := heval
  have hstep : ∀ i < 9, Step workflow.definition "__fnl0" (staleRounds i) (staleRounds (i + 1)) := by
    intro i hi
    obtain ⟨⟨name, s⟩, hs, rfl, hexit, heffect⟩ := hsteps i hi
    exact .work hs hexit heffect
  let w : Walk workflow.definition "__fnl0" :=
    ⟨9, fun i => (staleRounds i).1, fun i => (staleRounds i).2, hstart, rfl, hstep⟩
  refine ⟨root, f, workflow, after, hf, hc, hnode, ⟨_, hif, rfl⟩, w, rfl, rfl, rfl, rfl, rfl, ?_⟩
  intro j hj hlt hwrites
  have hmem : w.name j ∈ [6, 7, 8].map (staleRounds · |>.1) := mem_map_of_mem (by simp; omega)
  cases hwrites with
  | work hs _ heffect => exact (hquiet _ hs hmem).1 heffect
  | error hs hc _ _ =>
    rw [(hquiet _ hs hmem).2] at hc
    cases hc

end ServiceFlow.Machine
