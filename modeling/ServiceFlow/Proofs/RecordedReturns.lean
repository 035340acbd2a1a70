import ServiceFlow.Proofs.WrittenStatements

/-!
# Recorded returns

A return before the last call puts the returned value into the stash, so that the templates that
come later can see it and stop. A local whose name is changed to the name of the flag breaks this.
-/

namespace ServiceFlow.Pipeline

open ServiceFlow.Tree ServiceFlow.Template List

/-- Each line that ends the template follows lines at the same depth that record a value. -/
def YieldsRecorded (returned : String → Prop) (lines : List Line) : Prop :=
  ∀ before l after value, lines = before ++ l :: after → l.directive = .yield value →
    value = slot returnValue ∧ ∃ earlier result, returned result ∧
      before = earlier ++
        [⟨l.depth, .stash returnFlag "true"⟩, ⟨l.depth, .stash returnValue result⟩]

/-- The flag is only set to true, and the value is set in the next line. -/
def FlagsPaired (lines : List Line) : Prop :=
  ∀ before l after value, lines = before ++ l :: after → l.directive = .stash returnFlag value →
    value = "true" ∧ ∃ result later, after = ⟨l.depth, .stash returnValue result⟩ :: later

/-- Lines in which returns are recorded, by the values that are returned and the slots that may be
set besides; `direct` allows returns that are not recorded. -/
inductive Records (returned slots : String → Prop) (direct : Bool) : List Line → Prop
  | nil : Records returned slots direct []
  | append {lines more : List Line} (h : Records returned slots direct lines)
      (h' : Records returned slots direct more) : Records returned slots direct (lines ++ more)
  | nest {lines : List Line} (h : Records returned slots direct lines) :
      Records returned slots direct (nest lines)
  | other {l : Line} (hyield : ∀ value, l.directive ≠ .yield value)
      (hslot : ∀ slot value, l.directive = .stash slot value → slots slot) :
      Records returned slots direct [l]
  | yield (hdirect : direct = true) (value : String) :
      Records returned slots direct [line (.yield value)]
  | kept (value : String) : Records returned slots direct (recordReturn value)
  | recorded {value : String} (h : returned value) :
      Records returned slots direct (recordReturn value ++ [line (.yield (slot returnValue))])

section Positions

variable {lines more before after : List Line} {l : Line}

lemma append_eq_cases (h : lines ++ more = before ++ l :: after) :
    (∃ rest, lines = before ++ l :: rest ∧ after = rest ++ more) ∨
      ∃ rest, before = lines ++ rest ∧ more = rest ++ l :: after := by
  rcases append_eq_append_iff.mp h with ⟨rest, hbefore, hmore⟩ | ⟨rest, hlines, hafter⟩
  · exact .inr ⟨rest, hbefore, hmore⟩
  · cases rest with
    | nil => exact .inr ⟨[], by simpa using hlines.symm, hafter.symm⟩
    | cons l' rest =>
      obtain ⟨rfl, rfl⟩ := cons.inj hafter
      exact .inl ⟨rest, hlines, rfl⟩

lemma cons_eq_cases {first : Line} (h : first :: lines = before ++ l :: after) :
    (before = [] ∧ l = first ∧ after = lines) ∨
      ∃ rest, before = first :: rest ∧ lines = rest ++ l :: after := by
  cases before with
  | nil =>
    obtain ⟨rfl, rfl⟩ := cons.inj h
    exact .inl ⟨rfl, rfl, rfl⟩
  | cons first' rest =>
    obtain ⟨rfl, hrest⟩ := cons.inj h
    exact .inr ⟨rest, rfl, hrest⟩

lemma recordReturn_eq_cases {result : String}
    (h : recordReturn result ++ lines = before ++ l :: after) :
    (l = line (.stash returnFlag "true") ∧ after = line (.stash returnValue result) :: lines) ∨
      l = line (.stash returnValue result) ∨
      ∃ rest, before = recordReturn result ++ rest ∧ lines = rest ++ l :: after := by
  rcases cons_eq_cases h with ⟨-, hl, hafter⟩ | ⟨rest, rfl, hrest⟩
  · exact .inl ⟨hl, hafter⟩
  · rcases cons_eq_cases hrest with ⟨-, hl, -⟩ | ⟨rest', rfl, hrest'⟩
    · exact .inr (.inl hl)
    · exact .inr (.inr ⟨rest', rfl, hrest'⟩)

lemma nest_eq_cases (h : nest lines = before ++ l :: after) :
    ∃ before' l' after', lines = before' ++ l' :: after' ∧ before = nest before' ∧
      l = ⟨l'.depth + 1, l'.directive⟩ ∧ after = nest after' := by
  obtain ⟨before', rest, rfl, rfl, hrest⟩ := map_eq_append_iff.mp h
  obtain ⟨l', after', rfl, rfl, rfl⟩ := map_eq_cons_iff.mp hrest
  exact ⟨before', l', after', rfl, rfl, rfl, rfl⟩

end Positions

namespace Records

variable {returned slots : String → Prop} {direct : Bool} {lines : List Line}

lemma of_forall (h : ∀ l ∈ lines, (∀ value, l.directive ≠ .yield value) ∧
    ∀ slot value, l.directive = .stash slot value → slots slot) :
    Records returned slots direct lines := by
  induction lines with
  | nil => exact .nil
  | cons l lines ih =>
    obtain ⟨⟨hyield, hslot⟩, hrest⟩ := forall_mem_cons.mp h
    exact .append (.other hyield hslot) (ih hrest)

lemma yieldsRecorded (h : Records returned slots false lines) : YieldsRecorded returned lines := by
  intro before l after value hlines hyield
  induction h generalizing before l after value with
  | nil => simp at hlines
  | append h h' ih ih' =>
    rcases append_eq_cases hlines with ⟨rest, hfirst, -⟩ | ⟨rest, rfl, hsecond⟩
    · exact ih before l rest value hfirst hyield
    · obtain ⟨hvalue, earlier, result, hresult, rfl⟩ := ih' rest l after value hsecond hyield
      exact ⟨hvalue, _ ++ earlier, result, hresult, (append_assoc ..).symm⟩
  | nest h ih =>
    obtain ⟨before, l, after, hhigher, rfl, rfl, rfl⟩ := nest_eq_cases hlines
    obtain ⟨hvalue, earlier, result, hresult, rfl⟩ := ih before l after value hhigher hyield
    exact ⟨hvalue, Template.nest earlier, result, hresult, map_append⟩
  | other hother =>
    rcases cons_eq_cases hlines with ⟨-, rfl, -⟩ | ⟨rest, -, hrest⟩
    · exact absurd hyield (hother value)
    · simp at hrest
  | yield hdirect => cases hdirect
  | kept result =>
    rw [← append_nil (recordReturn result)] at hlines
    rcases recordReturn_eq_cases hlines with ⟨rfl, -⟩ | rfl | ⟨rest, -, hrest⟩
    · cases hyield
    · cases hyield
    · simp at hrest
  | recorded h =>
    rcases recordReturn_eq_cases hlines with ⟨rfl, -⟩ | rfl | ⟨rest, rfl, hrest⟩
    · cases hyield
    · cases hyield
    · rcases cons_eq_cases hrest with ⟨rfl, rfl, -⟩ | ⟨rest', -, hrest'⟩
      · cases hyield
        exact ⟨rfl, [], _, h, append_nil _⟩
      · simp at hrest'

lemma flagsPaired (h : Records returned (· ≠ returnFlag) direct lines) : FlagsPaired lines := by
  intro before l after value hlines hflag
  induction h generalizing before l after value with
  | nil => simp at hlines
  | append h h' ih ih' =>
    rcases append_eq_cases hlines with ⟨rest, hfirst, rfl⟩ | ⟨rest, rfl, hsecond⟩
    · obtain ⟨hvalue, result, later, rfl⟩ := ih before l rest value hfirst hflag
      exact ⟨hvalue, result, later ++ _, rfl⟩
    · exact ih' rest l after value hsecond hflag
  | nest h ih =>
    obtain ⟨before, l, after, hhigher, rfl, rfl, rfl⟩ := nest_eq_cases hlines
    obtain ⟨hvalue, result, later, rfl⟩ := ih before l after value hhigher hflag
    exact ⟨hvalue, result, Template.nest later, rfl⟩
  | other hyield hslot =>
    rcases cons_eq_cases hlines with ⟨-, rfl, -⟩ | ⟨rest, -, hrest⟩
    · exact absurd rfl (hslot _ _ hflag)
    · simp at hrest
  | yield hdirect =>
    rcases cons_eq_cases hlines with ⟨-, rfl, -⟩ | ⟨rest, -, hrest⟩
    · cases hflag
    · simp at hrest
  | kept result =>
    rw [← append_nil (recordReturn result)] at hlines
    rcases recordReturn_eq_cases hlines with ⟨rfl, rfl⟩ | rfl | ⟨rest, -, hrest⟩
    · cases hflag
      exact ⟨rfl, result, [], rfl⟩
    · simp [line, returnFlag, returnValue] at hflag
    · simp at hrest
  | @recorded result h =>
    rcases recordReturn_eq_cases hlines with ⟨rfl, rfl⟩ | rfl | ⟨rest, -, hrest⟩
    · cases hflag
      exact ⟨rfl, result, _, rfl⟩
    · simp [line, returnFlag, returnValue] at hflag
    · rcases cons_eq_cases hrest with ⟨-, rfl, -⟩ | ⟨rest', -, hrest'⟩
      · cases hflag
      · simp at hrest'

end Records

/-- A value that a return statement at or below a node gives, inside some loops. -/
def Returned (env : Env) (t : Term) (value : String) : Prop :=
  ∃ id e names c c' code, Tree.mk id (.returnStmt e) ∈ t.subtrees ∧
    (expressionOrNull { env with loopVariables := names } e).run c = .ok (code, c') ∧
    code.value = value

section Performs

variable {returned slots : String → Prop} {direct : Bool} {lines : List Line} {uses : List Mention}

lemma records_of_allComputing (h : AllLines (Computing uses) lines) :
    Records returned slots direct lines := by
  apply Records.of_forall
  intro l hl
  have hcomputing := h l hl
  generalize l.directive = directive at hcomputing ⊢
  cases hcomputing <;> simp

lemma records_of_allText (h : AllLines IsText lines) : Records returned slots direct lines := by
  apply Records.of_forall
  intro l hl
  obtain ⟨text, htext⟩ := h l hl
  simp [htext]

lemma records_line {directive : Directive} (hyield : ∀ value, directive ≠ .yield value := by simp)
    (hslot : ∀ slot value, directive ≠ .stash slot value := by simp) :
    Records returned slots direct [line directive] :=
  .other hyield fun slot value h => absurd h (hslot slot value)

variable {env : Env} {t : Term}

lemma Performs.records {branches : Bool} (h : Performs env branches t lines uses) {base : Env}
    {root : Term} {names : List String}
    (hlocals : ∀ name ∈ root.declared, slots (variableName name))
    (henv : env = { base with loopVariables := names }) (ht : t ∈ root.subtrees) :
    Records (Returned base root) slots base.returnsDirectly lines := by
  induction h generalizing names with
  | nil => exact .nil
  | append _ _ ih ih' => exact .append (ih henv ht) (ih' henv ht)
  | within hs _ ih => exact ih henv (subtrees_subset ht hs)
  | evaluate h => exact records_of_allComputing h.allComputing
  | @assign env id name initializer lines value uses h =>
    refine .append (records_of_allComputing h.allComputing) ?_
    unfold Env.assign
    split_ifs
    · exact records_line
    · refine .other (by simp [line]) fun slot value' hslot => ?_
      cases hslot
      exact hlocals name (mem_declared ht)
  | run h | shown _ h =>
    exact .append (records_of_allComputing h.allComputing) records_line
  | yield hdirect h =>
    subst henv
    exact .append (records_of_allComputing h.allComputing) (.yield hdirect _)
  | record h => exact .append (records_of_allComputing h.allComputing) (.kept _)
  | @recorded _ id e code c c' uses hrun h =>
    subst henv
    rw [append_assoc]
    refine .append (records_of_allComputing h.allComputing) (.recorded ?_)
    exact ⟨id, e, names, c, c', code, ht, hrun, rfl⟩
  | plain _ | leave => exact records_line
  | branch h _ _ ih ih' =>
    refine .append (.append (.append (records_of_allComputing h.allComputing) ?_)
      (ih' henv ht)) records_line
    exact .append records_line (.nest (ih henv ht))
  | noBranch => exact .nil
  | elseIf _ _ _ ih ih' =>
    exact .append (.append records_line (.nest (ih henv ht))) (ih' henv ht)
  | otherwise _ ih => exact .append records_line (.nest (ih henv ht))
  | loop counter _ ih =>
    exact .append (.append records_line (.nest (ih henv ht))) records_line
  | forEach _ _ h _ ih =>
    subst henv
    refine .append (.append (records_of_allComputing h.allComputing) ?_) records_line
    exact .append records_line (.nest (ih rfl ht))
  | request _ _ h =>
    exact .append (records_of_allComputing h.allComputing)
      (records_of_allText (allText_braced (allText_separated _) _ _))
  | execution sync _ h =>
    exact .append (records_of_allComputing h.allComputing)
      (records_of_allText (allText_executionDocument _ _ _ _))
  | check op =>
    refine Records.of_forall ?_
    cases op <;> simp [responseCheck, ifBlock, nest, line, textLine]

end Performs

/-- The request of a stage begins with the guard, and the returns after it are recorded; the
response records the result of a call that is returned. -/
structure RecordsStage (env : Env) (t : Term) (call : StageCall) (stage : StageLayout) : Prop where
  request : ∃ rest, stage.request = returnGuard ++ rest ∧ YieldsRecorded (Returned env t) rest
  response : call.use = .returned → RecordsResult env call stage.response

/-- Returns are flagged, and flags are looked at by later templates. -/
structure RecordsReturns (env : Env) (t : Term) (calls : List StageCall) (layout : Layout) :
    Prop where
  stages : List.Forall₂ (RecordsStage env t) calls layout.stages
  response : ∃ rest, layout.response = returnGuard ++ rest
  flags : (∀ name ∈ t.declared, variableName name ≠ returnFlag) →
    ∀ lines ∈ layout.templates, FlagsPaired lines

lemma WritesStages.recordsStages {calls : List StageCall} {stages : List StageLayout}
    {table : List (List Mention)} (hrecorded : env.returnsDirectly = false)
    (h : WritesStages env t calls stages table) : Forall₂ (RecordsStage env t) calls stages := by
  induction h with
  | nil => exact .nil
  | cons hrequest hresponse hreturned rest ih =>
    refine .cons ⟨⟨_, rfl, ?_⟩, hreturned⟩ ih
    have hrecords : Records (Returned env t) (fun _ => True) env.returnsDirectly _ :=
      hrequest.records (fun _ _ => trivial) rfl (self_mem_subtrees t)
    rw [hrecorded] at hrecords
    exact hrecords.yieldsRecorded

lemma WritesTemplate.flagsPaired {lines : List Line} {uses : List Mention}
    (h : WritesTemplate env t lines uses)
    (hlocals : ∀ name ∈ t.declared, variableName name ≠ returnFlag) : FlagsPaired lines := by
  cases h with
  | whole hmode h => exact (h.records hlocals rfl (self_mem_subtrees t)).flagsPaired
  | guarded hmode h =>
    have hguard : ∀ l ∈ returnGuard, ∀ value, l.directive ≠ .stash returnFlag value := by
      simp [returnGuard, ifBlock, nest, line]
    intro before l after value hlines hflag
    rcases append_eq_cases hlines with ⟨rest, hfirst, -⟩ | ⟨rest, -, hsecond⟩
    · exact absurd hflag (hguard l (hfirst ▸ by simp) value)
    · exact (h.records hlocals rfl (self_mem_subtrees t)).flagsPaired _ _ _ _ hsecond hflag

/-- In a function with calls every return before the last call is recorded, whatever it is nested
in: the lines before it put true into the flag and the returned value into its slot. All requests
and the response of the pipeline begin with the guard, and a call that is returned has its result
recorded by the response of its stage. If no local is renamed to the flag, the flag is only ever
set together with the value. -/
theorem compile_records_returns {program : Program} {ns ns' : Namespace} {pipeline : Pipeline}
    (h : (compile program).run.run ns = (.ok pipeline, ns')) :
    ∃ t parameters block body layout, program.term = .ok t ∧
      t.functionParts = .ok (parameters, block, body) ∧ layoutOf program = .ok layout ∧
      layout.Renders pipeline ∧ (body.filterMap (callOf? program.registry) ≠ [] →
        RecordsReturns (envOf program parameters) t
          (body.filterMap (callOf? program.registry)) layout) := by
  obtain ⟨layout, hlayout, hrenders⟩ := exists_layout h
  obtain ⟨t, parameters, block, body, table, count, hterm, hparts, hwrites, -⟩ :=
    exists_writesLayout hlayout
  refine ⟨t, parameters, block, body, layout, hterm, hparts, hlayout, hrenders, fun hne => ?_⟩
  have hflags : (∀ name ∈ t.declared, variableName name ≠ returnFlag) →
      ∀ lines ∈ layout.templates, FlagsPaired lines := by
    intro hlocals lines hlines
    obtain ⟨uses, -, htemplate⟩ := hwrites.exists_writesTemplate lines hlines
    exact htemplate.flagsPaired hlocals
  generalize body.filterMap (callOf? program.registry) = calls at hwrites hne ⊢
  cases hwrites with
  | single h => exact absurd rfl hne
  | staged hcalls hstages hlast => exact ⟨hstages.recordsStages rfl, ⟨_, rfl⟩, hflags⟩

def searching : SyntaxTree :=
  let found : SyntaxTree :=
    .mk () (.binaryExpr (.member (.ident "item") "id") .eq (.ident "wanted"))
  .function [.param "context"] [.set "wanted" (.member (.ident "context") "id"),
    .each "item" (.member (.ident "context") "items") (.branch found (.give (.ident "item"))),
    .give (.call (.ref "charge") [.ident "wanted"])]

theorem compile_records_returns_searching : ∃ root f pipeline ns t parameters block body layout,
    Forest.ofTree searching = .ok (root, f) ∧
    (compile (auditedProgram f root)).run.run .empty = (.ok pipeline, ns) ∧
    (auditedProgram f root).term = .ok t ∧ t.functionParts = .ok (parameters, block, body) ∧
    layout.Renders pipeline ∧ (body.filterMap (callOf? (auditedProgram f root).registry)).length = 1 ∧
    RecordsReturns (envOf (auditedProgram f root) parameters) t
      (body.filterMap (callOf? (auditedProgram f root).registry)) layout ∧
    ∀ lines ∈ layout.templates, FlagsPaired lines := by
  obtain ⟨root, f, pipeline, ns, hf, hcompile, hchecked⟩ :=
    exists_compiled compile auditedProgram searching (fun program _ =>
      program.term.toOption.any fun t =>
        t.declared.all (fun name => variableName name != returnFlag) &&
        t.functionParts.toOption.any fun parts =>
          (parts.2.2.filterMap (callOf? program.registry)).length == 1) (by decide +kernel)
  obtain ⟨t, parameters, block, body, layout, hterm, hparts, hlayout, hrenders, hrecords⟩ :=
    compile_records_returns hcompile
  simp only [hterm, hparts, Except.toOption, Option.any_some, Bool.and_eq_true, all_eq_true,
    bne_iff_ne, beq_iff_eq] at hchecked
  have hrecords := hrecords fun hnil => by simp [hnil] at hchecked
  exact ⟨root, f, pipeline, ns, t, parameters, block, body, layout, hf, hcompile, hterm, hparts,
    hrenders, hchecked.2, hrecords, hrecords.flags hchecked.1⟩

def flagging : SyntaxTree :=
  .function [.param "context"] [.set "return$_flag" (.member (.ident "context") "ready"),
    .give (.call (.ref "charge") [])]

/-- A local that is renamed to the flag sets it without a value to return. -/
theorem flag_set_by_renamed_local : ∃ root f pipeline ns t layout lines,
    Forest.ofTree flagging = .ok (root, f) ∧
    (compile (auditedProgram f root)).run.run .empty = (.ok pipeline, ns) ∧
    (auditedProgram f root).term = .ok t ∧ returnFlag ∉ t.declared ∧
    returnValue ∉ t.declared ∧ layoutOf (auditedProgram f root) = .ok layout ∧
    layout.Renders pipeline ∧ lines ∈ layout.templates ∧ ¬ FlagsPaired lines := by
  obtain ⟨root, f, pipeline, ns, hf, hcompile, hchecked⟩ :=
    exists_compiled compile auditedProgram flagging (fun program _ =>
      program.term.toOption.any (fun t : Term =>
        decide (returnFlag ∉ t.declared ∧ returnValue ∉ t.declared)) &&
      (layoutOf program).toOption.any fun layout => layout.templates.any fun lines =>
        lines.any fun l => l.directive == .stash returnFlag "$context.ready") (by decide +kernel)
  obtain ⟨layout, hlayout, hrenders⟩ := exists_layout hcompile
  obtain ⟨t, parameters, block, body, table, count, hterm, -⟩ := exists_writesLayout hlayout
  simp only [hterm, hlayout, Except.toOption, Option.any_some, Bool.and_eq_true, decide_eq_true_eq,
    any_eq_true, beq_iff_eq] at hchecked
  obtain ⟨⟨hflag, hvalue⟩, lines, hlines, l, hl, hset⟩ := hchecked
  refine ⟨root, f, pipeline, ns, t, layout, lines, hf, hcompile, hterm, hflag, hvalue, hlayout,
    hrenders, hlines, fun hpaired => ?_⟩
  obtain ⟨before, after, hsplit⟩ := append_of_mem hl
  have htrue := (hpaired before l after _ hsplit hset).1
  revert htrue
  decide

end ServiceFlow.Pipeline
