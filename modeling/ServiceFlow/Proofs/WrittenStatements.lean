import ServiceFlow.Proofs.PipelineCalls
import ServiceFlow.Proofs.TemplateLayouts

/-!
# How templates are written

`Performs` lists the ways in which the lines of statements, requests and responses are put together
from the code of expressions.
-/

namespace ServiceFlow

open ServiceFlow.Tree List

attribute [local simp] Tree.node Node.children

/-- The name that a binder binds. -/
def Tree.binds? (t : Term) : Option String :=
  match t.node with
  | .variableStmt name _ | .identifier name | .parameterDecl name => some name
  | _ => none

/-- The variable of a loop. -/
def Tree.loopVariable? (t : Term) : Option String :=
  match t.node with
  | .forOfStmt binder _ _ | .forInStmt binder _ _ => binder.binds?
  | _ => none

/-- The names that are declared. -/
def Tree.declared (t : Term) : List String :=
  t.subtrees.filterMap fun s =>
    match s.node with
    | .variableStmt name _ => some name
    | _ => none

/-- The variables of loops. -/
def Tree.looped (t : Term) : List String := t.subtrees.filterMap Tree.loopVariable?

/-- The local names of a function. -/
def Tree.locals (t : Term) : List String := t.declared ++ t.looped

variable {t : Term}

lemma Tree.mem_declared {id : NodeId} {name : String} {initializer : Option Term}
    (h : .mk id (.variableStmt name initializer) ∈ t.subtrees) : name ∈ t.declared :=
  mem_filterMap.mpr ⟨_, h, rfl⟩

/-- The key of a property. -/
def Tree.fieldKey? : Term → Option String
  | .mk _ (.propertyAssignment name _) => name.staticKey?
  | _ => none

namespace ServiceCall

/-- The keys of the object that a call of a table passes. They become fields of the request. -/
def fieldKeys (call : ServiceCall) : List String :=
  match call.arguments with
  | .mk _ (.objectLiteral properties) :: _ => properties.filterMap Tree.fieldKey?
  | _ => []

end ServiceCall

namespace Pipeline

open ServiceFlow.Template

/-- The operations of requests. -/
def operations : List String := "Invoke" :: KeyValueOp.all.map KeyValueOp.operation

/-- A line of plain text. -/
def IsText (directive : Directive) : Prop := ∃ text, directive = .text text

lemma allText_separated (texts : List String) : AllLines IsText (separated texts) := by
  fun_induction separated texts with
  | case1 => exact .nil
  | case2 last => exact .line ⟨_, rfl⟩
  | case3 text rest hne ih => exact .cons ⟨_, rfl⟩ ih

variable {body : List Line} {binder thenStmt : Term} {elseStmt : Option Term} {registry : Registry}
  {value : String}

lemma allText_braced (h : AllLines IsText body) (opening closing : String) :
    AllLines IsText (braced opening body closing) :=
  .cons ⟨_, rfl⟩ (.append h.nest (.line ⟨_, rfl⟩))

lemma allText_executionDocument (version target machine input : String) :
    AllLines IsText (executionDocument version target machine input) := by
  refine allText_braced (.cons ⟨_, rfl⟩ (.cons ⟨_, rfl⟩ (.cons ⟨_, rfl⟩ ?_))) _ _
  exact allText_braced (.append (allText_braced (allText_separated _) _ _)
    (allText_braced (allText_separated _) _ _)) _ _

/-- Lines and fields that store values under the keys of a call. -/
inductive Fills (env : Env) (t : Term) (call : ServiceCall) :
    List Line → List String → List Mention → Prop
  | nil : Fills env t call [] [] []
  | cons {lines more key value fields uses others} (hkey : key ∈ "payload" :: call.fieldKeys)
      (h : Computes env false t lines value uses) (rest : Fills env t call more fields others) :
      Fills env t call (lines ++ more) (keyValueField key value :: fields) (uses ++ others)

/-- Lines that are written for a node. The flag tells whether they are the branches of an if block
after the first one. -/
inductive Performs : Env → Bool → Term → List Line → List Mention → Prop
  | nil {env t} : Performs env false t [] []
  | append {env t lines more uses others}
      (h : Performs env false t lines uses) (h' : Performs env false t more others) :
      Performs env false t (lines ++ more) (uses ++ others)
  | within {env branches t s lines uses}
      (hs : s ∈ t.subtrees) (h : Performs env branches s lines uses) :
      Performs env branches t lines uses
  | evaluate {env t lines value uses}
      (h : Computes env false t lines value uses) : Performs env false t lines uses
  | assign {env id name initializer lines value uses}
      (h : Computes env false (.mk id (.variableStmt name initializer)) lines value uses) :
      Performs env false (.mk id (.variableStmt name initializer))
        (lines ++ [env.assign name value]) (uses ++ [.named name (env.place name)])
  | run {env t lines value uses} (h : Computes env false t lines value uses) :
      Performs env false t (lines ++ [line (.run value)]) uses
  | yield {env t lines value uses}
      (hdirect : env.returnsDirectly = true) (h : Computes env false t lines value uses) :
      Performs env false t (lines ++ [line (.yield value)]) uses
  | record {env t lines value uses} (h : Computes env false t lines value uses) :
      Performs env false t (lines ++ recordReturn value) uses
  | recorded {env id e code c c' uses} (hrun : (expressionOrNull env e).run c = .ok (code, c'))
      (h : Computes env false (.mk id (.returnStmt e)) code.lines code.value uses) :
      Performs env false (.mk id (.returnStmt e))
        (code.lines ++ recordReturn code.value ++ [line (.yield (slot returnValue))]) uses
  | shown {env t lines value function uses}
      (hfunction : function ∈ ["$util.toJson(", "$util.error("])
      (h : Computes env false t lines value uses) :
      Performs env false t (lines ++ [textLine (function ++ value ++ ")")]) uses
  | plain {env t text} (h : text ∈ ["\x7b\x7d", localRequest env.settings.templateVersion]) :
      Performs env false t [textLine text] []
  | leave {env t} : Performs env false t [line .leave] []
  | branch {env t lines body rest value uses bodyUses restUses}
      (h : Computes env false t lines value uses)
      (hbody : Performs env false t body bodyUses) (hrest : Performs env true t rest restUses) :
      Performs env false t (lines ++ line (.openIf value) :: nest body ++ rest ++ [line .close])
        (uses ++ bodyUses ++ restUses)
  | noBranch {env t} : Performs env true t [] []
  | elseIf {env t body rest value uses bodyUses restUses} (h : Computes env false t [] value uses)
      (hbody : Performs env false t body bodyUses) (hrest : Performs env true t rest restUses) :
      Performs env true t (line (.elseIf value) :: nest body ++ rest) (uses ++ bodyUses ++ restUses)
  | otherwise {env t body uses} (h : Performs env false t body uses) :
      Performs env true t (line .openElse :: nest body) uses
  | loop {env t body uses} (counter : Nat) (h : Performs env false t body uses) :
      Performs env false t (line (.forEach ("$__loop" ++ toString counter)
        ("[0.." ++ toString (env.settings.maxLoopIterations - 1) ++ "]")) :: nest body ++
        [line .close]) uses
  | forEach {env t lines body name value last uses bodyUses} (hname : t.loopVariable? = some name)
      (hlast : last ∈ ["", ".keySet()"]) (h : Computes env false t lines value uses)
      (hbody : Performs (env.inLoop name) false t body bodyUses) : Performs env false t
        (lines ++ line (.forEach ("$" ++ variableName name) (value ++ last)) :: nest body ++
          [line .close]) (uses ++ .named name (.template (variableName name)) :: bodyUses)
  | request {env t call lines fields operation uses}
      (hcall : call ∈ t.calls env.registry) (hoperation : operation ∈ operations)
      (h : Fills env t call lines fields uses) : Performs env false t (lines ++ document (separated
        (versionField env.settings.templateVersion ::
          field "operation" (Json.quote operation) :: fields))) uses
  | execution {env t call lines value uses} (sync : Bool) (hcall : call ∈ t.calls env.registry)
      (h : Computes env false t lines value uses) :
      Performs env false t (lines ++ executionDocument env.settings.templateVersion
        (executionTarget sync) call.resource.identifier value) uses
  | check {env t} (op : ServiceOp) : Performs env false t (responseCheck op) []

variable {lines : List Line} {uses : List Mention} {id : NodeId} {e condition : Term}
  {c c' : Counters} {call : StageCall} {use : Use} {layout : Layout} {calls : List StageCall}
  {table : List (List Mention)}

lemma Fills.allComputing {env : Env} {call : ServiceCall} {fields : List String}
    (h : Fills env t call lines fields uses) : AllLines (Computing uses) lines := by
  induction h with
  | nil => exact .nil
  | cons hkey h rest ih =>
    exact (h.allComputing.mono (subset_append_left ..)).append (ih.mono (subset_append_right ..))

abbrev Does (env : Env) (branches : Bool) (t : Term) (x : Compose (List Line)) : Prop :=
  Yields x fun lines uses => Performs env branches t lines uses

variable {env : Env} {t : Term} {branches : Bool} {x y : Compose (List Line)}
  {stages : List StageLayout}

lemma Does.within {s : Term} (hs : s ∈ t.subtrees) (h : Does env branches s x) :
    Does env branches t x := h.mono fun hlines => .within hs hlines

lemma Does.append (h : Does env false t x) (h' : Does env false t y) :
    Does env false t (do pure ((← x) ++ (← y))) :=
  h.bind fun hlines => h'.map fun hmore => .append hlines hmore

lemma Does.looped (h : Does env false t x) (h' : Does env false t y) :
    Does env false t (do
      let header ← boundedLoop env
      let first ← x
      let second ← y
      pure (header :: nest (first ++ second) ++ [line .close])) := by
  refine ⟨fun {c c' lines} hrun => ?_⟩
  obtain ⟨header, c₁, hheader, hrun⟩ := run_bind_eq_ok hrun
  cases hheader
  have hloop : Does env false t _ := h.bind fun hlines => h'.map fun hmore =>
    .loop c.loops (.append hlines hmore)
  obtain ⟨uses, hlines, hgives⟩ := hloop.yields hrun
  exact ⟨uses, hlines, hgives⟩

lemma writes_test (t : Term) : Writes env false t (test env t) :=
  (translates_condition translates_expression t).mono And.left

lemma writes_expressionOrNull {e : Option Term} (h : ∀ s, e = some s → s ∈ t.subtrees) :
    Writes env false t (expressionOrNull env e) := by
  cases e with
  | none => exact .pure (.fixed (by decide))
  | some s => exact .within (h s rfl) (writes_expression s)

lemma does_returnStmt {e : Option Term} :
    Does env false (.mk id (.returnStmt e)) (returnLines env e) := by
  have hmem : ∀ s, e = some s → s ∈ (Tree.mk id (.returnStmt e)).subtrees := fun s hs =>
    child_mem_subtrees (by simp [hs])
  refine ⟨fun {c c' lines} hrun => ?_⟩
  obtain ⟨code, c₁, hcode, hrun⟩ := run_bind_eq_ok hrun
  obtain ⟨uses, hvalue, hgives⟩ := (writes_expressionOrNull hmem).yields hcode
  split_ifs at hrun with hdirect
  · cases hrun
    exact ⟨uses, .yield hdirect hvalue, hgives⟩
  · cases hrun
    exact ⟨uses, .recorded hcode hvalue, hgives⟩

lemma performs_errorLines {code : Code} (type : Option String)
    (h : Computes env false t code.lines code.value uses) :
    Performs env false t (errorLines code type) uses := by
  cases type with
  | none => exact .shown (by decide) h
  | some type =>
    have htyped := Computes.pair h (.mark (show ", " ∈ marks by decide)) (.quoted type)
    have herror : "$util.error(" ∈ ["$util.toJson(", "$util.error("] := by decide
    rw [append_nil, append_nil] at htyped
    simpa only [errorLines, String.append_assoc] using Performs.shown herror htyped

lemma does_throwLines (h : e ∈ t.subtrees) : Does env false t (throwLines env e) := by
  have hother : Does env false t (do pure (errorLines (← expression env e) none)) :=
    (Writes.within h (writes_expression e)).map (performs_errorLines none)
  obtain ⟨id, n⟩ := e
  cases n with
  | newExpr callee arguments =>
    have harguments : ∀ a ∈ arguments, a ∈ t.subtrees := fun a ha =>
      subtrees_subset h (child_mem_subtrees (mem_cons_of_mem callee ha))
    have hwrites : Writes env false t (firstArgument (expression env) (quoted "") arguments) := by
      cases arguments with
      | nil => exact .pure (.quoted "")
      | cons a rest => exact .within (harguments a mem_cons_self) (writes_expression a)
    exact hwrites.map (performs_errorLines _)
  | _ => exact hother

lemma does_loopCheck (h : condition ∈ t.subtrees) : Does env false t (loopCheck env condition) := by
  have htested : Does env false t (do
      let code ← test env condition
      pure (code.lines ++ ifBlock ("!(" ++ code.value ++ ")") [line .leave])) := by
    refine (Writes.within h (writes_test condition)).map fun hcode => ?_
    have hvalue := Computes.before (.mark (show "!" ∈ marks by decide)) hcode.parenthesized
    have hbranch := Performs.branch hvalue .leave .noBranch
    simp only [append_nil, append_assoc, ← String.append_assoc] at hbranch
    exact hbranch
  unfold loopCheck
  split
  · exact .pure .nil
  · exact htested

lemma yields_loopVariable (binder : Term) :
    Yields (loopVariable binder) fun name uses => binder.binds? = some name ∧ uses = [] := by
  obtain ⟨id, n⟩ := binder
  cases n with
  | variableStmt | identifier | parameterDecl => exact .pure ⟨rfl, rfl⟩
  | _ => exact .throw _

lemma does_statements {body : List Term} (hmem : ∀ s ∈ body, s ∈ t.subtrees)
    (h : ∀ s ∈ body, Does env false s (statement env s)) :
    Does env false t (statements env body) := by
  induction body with
  | nil => exact .pure .nil
  | cons s body ih =>
    have hrest := ih (fun s hs => hmem s (mem_cons_of_mem _ hs))
      (fun s hs => h s (mem_cons_of_mem _ hs))
    exact .append (.within (hmem s mem_cons_self) (h s mem_cons_self)) hrest

section Branches

variable (hthen : Does env false thenStmt (statement env thenStmt))
  (helse : Does env true (.mk id (.ifStmt condition thenStmt elseStmt))
    (elseLines env elseStmt))
include hthen helse

lemma does_ifStmt :
    Does env false (.mk id (.ifStmt condition thenStmt elseStmt))
      (statement env (.mk id (.ifStmt condition thenStmt elseStmt))) := by
  refine (writes_test condition).bind fun hcode => hthen.bind fun hbody => helse.map fun hrest => ?_
  rw [← append_assoc]
  refine .branch (.within ?_ hcode) (.within ?_ hbody) hrest
  · exact child_mem_subtrees
  · exact child_mem_subtrees

lemma does_elseLines_ifStmt :
    Does env true (.mk id (.ifStmt condition thenStmt elseStmt))
      (elseLines env (some (.mk id (.ifStmt condition thenStmt elseStmt)))) := by
  refine ⟨fun {c c' lines} hrun => ?_⟩
  obtain ⟨start, c₀, hstart, hrun⟩ := run_bind_eq_ok hrun
  cases hstart
  obtain ⟨code, c₁, hcode, hrun⟩ := run_bind_eq_ok hrun
  split_ifs at hrun with hempty
  · obtain ⟨body, c₂, hbody, hrun⟩ := run_bind_eq_ok hrun
    obtain ⟨rest, c₃, hrest, hrun⟩ := run_bind_eq_ok hrun
    cases hrun
    obtain ⟨uses, hcode, hgives⟩ := (writes_test condition).yields hcode
    obtain ⟨bodyUses, hbody, hgivesBody⟩ := hthen.yields hbody
    obtain ⟨restUses, hrest, hgivesRest⟩ := helse.yields hrest
    rw [isEmpty_iff.mp hempty] at hcode
    refine ⟨_, .elseIf (.within ?_ hcode) (.within ?_ hbody) hrest,
      (hgives.append hgivesBody).append hgivesRest⟩
    · exact child_mem_subtrees
    · exact child_mem_subtrees
  · obtain ⟨released, c₂, hrelease, hrun⟩ := run_bind_eq_ok hrun
    cases hrelease
    have hotherwise : Does env true _ _ := (does_ifStmt hthen helse).map .otherwise
    obtain ⟨uses, hlines, hgives⟩ := hotherwise.yields hrun
    exact ⟨uses, hlines, hgives⟩

end Branches

lemma does_forEach {iterable body : Term} {last : String}
    (hbinder : t.loopVariable? = binder.binds?)
    (hmem : ∀ s ∈ [binder, iterable, body], s ∈ t.subtrees) (hlast : last ∈ ["", ".keySet()"])
    (hbody : ∀ env, Does env false body (statement env body)) : Does env false t (do
      let name ← loopVariable binder
      let code ← expression env iterable
      let body ← statement (env.inLoop name) body
      pure (code.lines ++ line (.forEach ("$" ++ variableName name) (code.value ++ last)) ::
        nest body ++ [line .close])) := by
  refine (yields_loopVariable binder).bind fun {name _} hname => ?_
  obtain ⟨hbinds, rfl⟩ := hname
  exact (writes_expression iterable).bind fun hcode =>
    .named name (.template (variableName name)) ((hbody _).map fun hlines =>
      .forEach (hbinder.trans hbinds) hlast (.within (hmem iterable (by simp)) hcode)
        (.within (hmem body (by simp)) hlines))

/-- A statement that is written performs its term. -/
theorem does_statement (t : Term) : ∀ env, Does env false t (statement env t) ∧
    Does env true t (elseLines env (some t)) := by
  induction t using children_induction with
  | step id n ih =>
    intro env
    have hchild : ∀ s ∈ n.children, s ∈ (Tree.mk id n).subtrees := fun s hs =>
      child_mem_subtrees hs
    have hother : Does env false (.mk id n) (statement env (.mk id n)) →
        Does env false (.mk id n) (statement env (.mk id n)) ∧
          Does env true (.mk id n) (do
            pure (line .openElse :: nest (← statement env (.mk id n)))) := fun h =>
      ⟨h, h.map .otherwise⟩
    cases n with
    | ifStmt condition thenStmt elseStmt =>
      have hthen := (ih thenStmt (by simp) env).1
      have helse : Does env true (.mk id (.ifStmt condition thenStmt elseStmt))
          (elseLines env elseStmt) := by
        cases elseStmt with
        | none => exact .pure .noBranch
        | some s =>
          exact .within (hchild s (by simp)) (ih s (by simp) env).2
      exact ⟨does_ifStmt hthen helse, does_elseLines_ifStmt hthen helse⟩
    | block body isFinally =>
      exact hother (does_statements hchild fun s hs => (ih s hs env).1)
    | variableStmt name initializer =>
      exact hother ((writes_expressionOrNull fun s hs => hchild s (by simp [hs])).bind
        fun hcode => .named name (env.place name) (.pure (.assign hcode)))
    | exprStmt e =>
      exact hother ((Writes.within (hchild e (by simp)) (writes_expression e)).map .run)
    | returnStmt e => exact hother does_returnStmt
    | throwStmt e => exact hother (does_throwLines (hchild e (by simp)))
    | whileStmt condition body =>
      exact hother (.looped (does_loopCheck (hchild condition (by simp)))
        (.within (hchild body (by simp)) (ih body (by simp) env).1))
    | doStmt body condition =>
      exact hother (.looped (.within (hchild body (by simp)) (ih body (by simp) env).1)
        (does_loopCheck (hchild condition (by simp))))
    | forOfStmt binder iterable body =>
      have hbody := fun env => (ih body (by simp) env).1
      have hempty : "" ∈ ["", ".keySet()"] := by decide
      have hloop : Does env false _ _ := does_forEach rfl hchild hempty hbody
      simp only [String.append_empty] at hloop
      exact hother hloop
    | forInStmt binder iterable body =>
      have hbody := fun env => (ih body (by simp) env).1
      exact hother (does_forEach rfl hchild (by decide) hbody)
    | breakStmt => exact hother (.pure .leave)
    | emptyStmt => exact hother (.pure .nil)
    | _ => exact hother (.throw _)

section Request

variable {call : ServiceCall} (hcall : call ∈ t.calls env.registry)

lemma arguments_mem_subtrees (h : call ∈ t.calls registry) :
    ∀ a ∈ call.arguments, a ∈ t.subtrees := by
  intro a ha
  obtain ⟨s, hs, hcall⟩ := mem_filterMap.mp h
  obtain ⟨callee, rfl⟩ := exists_callee_of_call? hcall
  exact subtrees_subset hs (child_mem_subtrees (mem_cons_of_mem callee ha))

variable {op : KeyValueOp}

lemma yields_keyValueFields {properties : List Term} (hmem : ∀ p ∈ properties, p ∈ t.subtrees)
    (hkeys : properties.filterMap fieldKey? ⊆ call.fieldKeys) :
    Yields (keyValueFields env op properties) fun r uses => Fills env t call r.1 r.2 uses := by
  induction properties with
  | nil => exact .pure .nil
  | cons p properties ih =>
    obtain ⟨id, n⟩ := p
    cases n with
    | propertyAssignment name value =>
      unfold keyValueFields
      cases hkey : name.staticKey? with
      | none => exact .throw _
      | some key =>
        have hfield : fieldKey? (.mk id (.propertyAssignment name value)) = some key := hkey
        rw [filterMap_cons_some hfield] at hkeys
        have hvalue : value ∈ t.subtrees := subtrees_subset (hmem _ mem_cons_self)
          child_mem_subtrees
        have hrest := ih (fun p hp => hmem p (mem_cons_of_mem _ hp))
          (Subset.trans (subset_cons_self ..) hkeys)
        exact (writes_expression value).bind fun hcode => hrest.map fun hfills =>
          .cons (mem_cons_of_mem _ (hkeys mem_cons_self)) (.within hvalue hcode) hfills
    | _ => exact .throw _

include hcall

lemma yields_keyValueArgument :
    Yields (keyValueArgument env op call.arguments) fun r uses =>
      Fills env t call r.1 r.2 uses := by
  have hmem := arguments_mem_subtrees hcall
  cases harguments : call.arguments with
  | nil => exact .pure .nil
  | cons a rest =>
    rw [harguments] at hmem
    obtain ⟨id, n⟩ := a
    cases n with
    | objectLiteral properties =>
      refine yields_keyValueFields (fun p hp => ?_) (fun key hkey => ?_)
      · exact subtrees_subset (hmem _ mem_cons_self) (child_mem_subtrees hp)
      · rw [ServiceCall.fieldKeys, harguments]
        exact hkey
    | _ => exact .throw _

lemma does_request : Does env false t (request env call) := by
  have harguments := arguments_mem_subtrees hcall
  have hfirst : ∀ {missing : String}, missing ∈ fixedValues →
      Writes env false t (firstArgument (expression env) missing call.arguments) :=
    fun hmissing => (yields_firstArgument translates_expression hmissing harguments).mono And.left
  unfold request
  cases hop : call.op with
  | keyValue op =>
    have hoperation : op.operation ∈ operations := by cases op <;> decide
    exact (yields_keyValueArgument hcall).map (.request hcall hoperation)
  | invoke =>
    refine (hfirst (by decide)).map fun hcode => ?_
    have hpayload : "payload" ∈ "payload" :: call.fieldKeys := mem_cons_self
    have hfills := Fills.cons hpayload hcode .nil
    rw [append_nil, append_nil] at hfills
    exact .request hcall (by decide) hfills
  | startExecution sync => exact (hfirst (by decide)).map (.execution sync hcall)

end Request

lemma yields_accessors {accesses : List Term} (hmem : ∀ a ∈ accesses, a ∈ t.subtrees)
    (hvalue : Computes env false t lines value uses) : Yields (accessors env accesses)
      fun code others =>
        Computes env false t (lines ++ code.lines) (value ++ code.value) (uses ++ others) := by
  induction accesses generalizing lines value uses with
  | nil => exact .pure (by rwa [append_nil, append_nil, String.append_empty])
  | cons a accesses ih =>
    have hfirst : Yields (accessor env a) fun code others =>
        Computes env false t (lines ++ code.lines) (value ++ code.value) (uses ++ others) := by
      have ha := hmem a mem_cons_self
      obtain ⟨id, n⟩ := a
      cases n with
      | propertyAccess expression name chained =>
        refine .pure ?_
        rw [append_nil, append_nil]
        exact .after hvalue (.member name)
      | elementAccess receiver element chained =>
        have hchild : element ∈ t.subtrees := subtrees_subset ha child_mem_subtrees
        refine (writes_expression element).map fun hkey => ?_
        simpa only [String.append_assoc] using Computes.after
          (.pair hvalue (.mark (show ".get(" ∈ marks by decide)) (.within hchild hkey))
          (.mark (show ")" ∈ marks by decide))
      | _ => exact .throw _
    refine hfirst.bind fun hcode =>
      (ih (fun a ha => hmem a (mem_cons_of_mem _ ha)) hcode).map fun hmore => ?_
    simpa only [append_assoc, String.append_assoc] using hmore

lemma accessors_mem_subtrees (t : Term) :
    ∀ accesses, ∀ a ∈ (t.stripAccessors accesses).1, a ∈ accesses ∨ a ∈ t.subtrees := by
  induction t using children_induction with
  | step id n ih =>
    intro accesses a ha
    have hbelow : ∀ {s : Term}, s ∈ n.children → ∀ {rest : List Term},
        (a ∈ rest → a ∈ accesses ∨ a = .mk id n) → a ∈ (s.stripAccessors rest).1 →
        a ∈ accesses ∨ a ∈ (Tree.mk id n).subtrees := by
      intro s hs rest hrest ha
      rcases ih s hs rest a ha with hmem | hmem
      · rcases hrest hmem with hmem | rfl
        · exact .inl hmem
        · exact .inr (self_mem_subtrees _)
      · exact .inr (mem_subtrees_of_child hs hmem)
    cases n with
    | awaitExpr expression =>
      exact hbelow (s := expression) (by simp) .inl ha
    | propertyAccess expression name chained | elementAccess expression element chained =>
      refine hbelow (s := expression) (by simp) (fun hmem => ?_) ha
      exact (mem_cons.mp hmem).symm
    | _ => exact .inl ha

lemma performs_keepResult (hused : t.usedExpression? = some (e, use))
    (h : Computes env false t lines value uses) :
    ∃ others, Performs env false t (lines ++ keepResult env value use) (uses ++ others) ∧
      ∀ count, Gives count others count := by
  cases Machine.usesValue_of_usedExpression? hused with
  | discarded id =>
    refine ⟨[], ?_, Nat.le_refl⟩
    rw [keepResult, append_nil, append_nil]
    exact .evaluate h
  | bound id name => exact ⟨_, .assign h, Nat.le_refl⟩
  | returned id =>
    refine ⟨[], ?_, Nat.le_refl⟩
    rw [append_nil]
    exact .record h

lemma resultRoot_mem_fixedValues (op : ServiceOp) : resultRoot op ∈ fixedValues := by
  have hresult : "$context.result" ∈ fixedValues := by decide
  cases op with
  | startExecution sync => cases sync <;> decide
  | _ => exact hresult

lemma does_response (hsite : siteOf? registry t = .ok (some call)) :
    Does env false t (response env call) := by
  obtain ⟨e, hused, hsite, -⟩ := siteOf?_eq_ok hsite
  have haccessors := (callSite?_eq_ok hsite).2
  refine ⟨fun {c c' lines} hrun => ?_⟩
  obtain ⟨code, c₁, hcode, hrun⟩ := run_bind_eq_ok hrun
  cases hrun
  have hmem : ∀ a ∈ call.site.accessors, a ∈ t.subtrees := by
    intro a ha
    rw [haccessors] at ha
    refine subtrees_subset (child_mem_subtrees (Machine.mem_children_of_usedExpression? hused)) ?_
    exact (accessors_mem_subtrees e [] a ha).resolve_left not_mem_nil
  obtain ⟨uses, hvalue, hgives⟩ :=
    (yields_accessors hmem (.fixed (resultRoot_mem_fixedValues _))).yields hcode
  obtain ⟨others, hkeep, hnone⟩ := performs_keepResult hused hvalue
  refine ⟨uses ++ others, ?_, hgives.append (hnone _)⟩
  have hend : Performs env false t [textLine "\x7b\x7d"] [] := .plain mem_cons_self
  have hlines := Performs.append (.append (.check call.site.call.op) hkeep) hend
  simpa only [nil_append, append_nil, append_assoc] using hlines

lemma performs_output (h : Computes env false t lines value uses) :
    Performs env false t (lines ++ [output value]) uses :=
  .shown (show "$util.toJson(" ∈ ["$util.toJson(", "$util.error("] by decide) h

lemma does_finish {fallback : String} {ts : List Term} (hfallback : fallback ∈ fixedValues)
    (hmem : ∀ s ∈ ts, s ∈ t.subtrees) : Does env false t (finish env fallback ts) := by
  fun_induction finish env fallback ts with
  | case1 =>
    exact .pure (performs_output (.fixed hfallback))
  | case2 id e =>
    refine (writes_expressionOrNull fun s hs => ?_).map performs_output
    exact subtrees_subset (hmem _ mem_cons_self) (child_mem_subtrees (by simp [hs]))
  | case3 last hne =>
    refine (Does.within (hmem last mem_cons_self) (does_statement last env).1).map
      fun {lines uses} hlines => ?_
    have houtput : Performs env false t [output null] [] := performs_output (.fixed (by decide))
    split_ifs
    · exact hlines
    · exact append_nil uses ▸ .append hlines houtput
  | case4 s rest hne hne' ih =>
    exact .append (.within (hmem s mem_cons_self) (does_statement s env).1)
      (ih fun s hs => hmem s (mem_cons_of_mem _ hs))

/-- The response of a call records the result, with the member that is read off it. -/
def RecordsResult (env : Env) (call : StageCall) (response : List Line) : Prop :=
  ∃ (c c' : Counters) (code : Code), (accessors env call.site.accessors).run c = .ok (code, c') ∧
    response = responseCheck call.site.call.op ++ code.lines ++
      recordReturn (resultRoot call.site.call.op ++ code.value) ++ [textLine "\x7b\x7d"]

/-- The stages of calls, written for a node: each begins with the guard, and records the result of
a call that is returned. -/
inductive WritesStages (env : Env) (t : Term) :
    List StageCall → List StageLayout → List (List Mention) → Prop
  | nil : WritesStages env t [] [] []
  | cons {call : StageCall} {calls : List StageCall} {request response : List Line}
      {stages : List StageLayout} {uses others : List Mention} {table : List (List Mention)}
      (hrequest : Performs env false t request uses)
      (hresponse : Performs env false t response others)
      (hreturned : call.use = .returned → RecordsResult env call response)
      (rest : WritesStages env t calls stages table) :
      WritesStages env t (call :: calls) (⟨returnGuard ++ request, response⟩ :: stages)
        (uses :: others :: table)

lemma recordsResult_of_response (h : (response env call).run c = .ok (lines, c'))
    (huse : call.use = .returned) : RecordsResult env call lines := by
  obtain ⟨code, c₁, hcode, h⟩ := run_bind_eq_ok h
  cases h
  rw [huse]
  exact ⟨c, c', code, hcode, rfl⟩

lemma writesStages_of_callLayouts {calls : List (Term × Option StageCall)} {low : Nat}
    {before : List Line}
    (hcalls : ∀ entry ∈ calls, entry.1 ∈ t.subtrees ∧ siteOf? env.registry entry.1 = .ok entry.2)
    (hbefore : Performs env false t before uses) (hgives : Gives low uses c.temporaries)
    (hrun : (callLayouts env before calls).run c = .ok (stages, c')) :
    ∃ table, WritesStages env t (calls.filterMap Prod.snd) stages table ∧
      Gives low table.flatten c'.temporaries := by
  induction calls generalizing low c before uses stages with
  | nil =>
    cases hrun
    exact ⟨[], .nil, hgives.le⟩
  | cons entry calls ih =>
    obtain ⟨s, call⟩ := entry
    obtain ⟨⟨hs, hsite⟩, hrest⟩ := forall_mem_cons.mp hcalls
    cases call with
    | none =>
      obtain ⟨lines, c₁, hlines, hrun⟩ := run_bind_eq_ok hrun
      obtain ⟨others, hlines, hgives'⟩ := (does_statement s env).1.yields hlines
      exact ih hrest (.append hbefore (.within hs hlines)) (hgives.append hgives') hrun
    | some call =>
      obtain ⟨first, c₁, hfirst, hrun⟩ := run_bind_eq_ok hrun
      obtain ⟨requestLines, c₂, hrequest, hfirst⟩ := run_bind_eq_ok hfirst
      obtain ⟨responseLines, c₃, hresponse, hfirst⟩ := run_bind_eq_ok hfirst
      cases hfirst
      obtain ⟨others, c₄, hothers, hrun⟩ := run_bind_eq_ok hrun
      cases hrun
      have hcall : call.site.call ∈ s.calls env.registry := by
        rw [calls_of_siteOf? hsite]
        exact mem_cons_self
      obtain ⟨requestUses, hlines, hgivesRequest⟩ := (does_request hcall).yields hrequest
      obtain ⟨responseUses, hlines', hgivesResponse⟩ := (does_response hsite).yields hresponse
      obtain ⟨table, hstages, hgivesRest⟩ := ih hrest .nil (Nat.le_refl _) hothers
      refine ⟨(uses ++ requestUses) :: responseUses :: table, ?_, ?_⟩
      · rw [append_assoc]
        exact .cons (.append hbefore (.within hs hlines)) (.within hs hlines')
          (recordsResult_of_response hresponse) hstages
      · exact (hgives.append hgivesRequest).append (hgivesResponse.append hgivesRest)

/-- The layout of a function with the given calls. -/
inductive WritesLayout (env : Env) (t : Term) :
    List StageCall → Layout → List (List Mention) → Prop
  | single {lines : List Line} {uses : List Mention} (h : Performs env.direct false t lines uses) :
      WritesLayout env t []
        ⟨[⟨[textLine (localRequest env.settings.templateVersion)], lines⟩],
          [output "$context.result"]⟩ [[], uses, []]
  | staged {calls : List StageCall} {stages : List StageLayout} {lines : List Line}
      {table : List (List Mention)} {uses : List Mention} (hne : calls ≠ [])
      (hstages : WritesStages env t calls stages table)
      (hlast : Performs env.last false t lines uses) :
      WritesLayout env t calls ⟨stages, returnGuard ++ lines⟩ (table ++ [uses])

lemma filterMap_snd_entries (segments : List Segment) :
    (segments.flatMap Segment.entries).filterMap Prod.snd = segments.map Segment.call := by
  induction segments with
  | nil => rfl
  | cons s segments ih =>
    rw [flatMap_cons, filterMap_append, ih, Segment.entries, filterMap_append, filterMap_map]
    simp

lemma exists_run_of_run' {α : Type} {x : Compose α} {a : α} (h : x.run' c = .ok a) :
    ∃ c', x.run c = .ok (a, c') := by
  rw [StateT.run'_eq] at h
  cases hx : x.run c with
  | error e =>
    rw [hx] at h
    cases h
  | ok result =>
    rw [hx] at h
    cases h
    exact ⟨result.2, rfl⟩

/-- Every layout is written for the function, with ever greater numbers for its temporaries. -/
theorem exists_writesLayout {program : Program} (h : layoutOf program = .ok layout) :
    ∃ t parameters block body table count, program.term = .ok t ∧
      t.functionParts = .ok (parameters, block, body) ∧
      WritesLayout (envOf program parameters) t (body.filterMap (callOf? program.registry)) layout
        table ∧
      Gives 0 table.flatten count := by
  obtain ⟨⟨context, calls⟩, hanalyse, -⟩ := bind_eq_ok h
  rw [layoutOf_eq hanalyse] at h
  obtain ⟨t, hterm, hanalyse⟩ := bind_eq_ok hanalyse
  obtain ⟨⟨parameters, block, body⟩, hparts, hanalyse⟩ := bind_eq_ok hanalyse
  obtain ⟨calls, hcalls, hanalyse⟩ := bind_eq_ok hanalyse
  cases hanalyse
  obtain ⟨hbody, hsites⟩ := classifyAll_eq_ok hcalls
  obtain ⟨-, hchild, isFinally, hblock⟩ := functionParts_cases hparts
  have hmem : ∀ s ∈ body, s ∈ t.subtrees := fun s hs =>
    subtrees_subset (child_mem_subtrees hchild) (child_mem_subtrees (by rwa [hblock]))
  obtain ⟨segments, after, rfl⟩ := exists_segments calls
  have hcallsOf := (divides_of_classifyAll hcalls).calls
  rw [splitAtLastCall_segments] at h
  rw [map_append, map_map] at hbody
  have hafter : ∀ s ∈ after, s ∈ t.subtrees := by
    intro s hs
    refine hmem s (hbody ▸ mem_append_right _ ?_)
    exact mem_map.mpr ⟨s, hs, rfl⟩
  obtain ⟨c', hrun⟩ := exists_run_of_run' h
  dsimp only at hrun
  cases segments with
  | nil =>
    obtain ⟨lines, c₁, hlines, hrun⟩ := run_bind_eq_ok hrun
    cases hrun
    obtain ⟨uses, hlines, hgives⟩ := (does_finish (by decide) hafter).yields hlines
    refine ⟨t, parameters, block, body, [[], uses, []], c'.temporaries, hterm, hparts, ?_, ?_⟩
    · rw [hcallsOf]
      exact .single hlines
    · simpa using hgives
  | cons s segments =>
    rw [if_neg (by simp [Segment.entries])] at hrun
    obtain ⟨stages, c₁, hstages, hrun⟩ := run_bind_eq_ok hrun
    obtain ⟨lines, c₂, hlines, hrun⟩ := run_bind_eq_ok hrun
    cases hrun
    have hfallback : (if returnsResult ((s :: segments).flatMap Segment.entries)
        then slot returnValue else null) ∈ fixedValues := by
      split_ifs <;> decide
    obtain ⟨uses, hlines, hgives⟩ := (does_finish hfallback hafter).yields hlines
    have hentries : ∀ entry ∈ (s :: segments).flatMap Segment.entries, entry.1 ∈ t.subtrees ∧
        siteOf? (envOf program parameters).registry entry.1 = .ok entry.2 := by
      intro entry hentry
      refine ⟨hmem _ (hbody ▸ mem_append_left _ ?_), hsites entry ?_⟩
      · exact mem_map_of_mem hentry
      · exact mem_append_left _ hentry
    have hstart : Gives 0 [] (⟨0, 0⟩ : Counters).temporaries := Nat.le_refl 0
    obtain ⟨table, hstages, hgives'⟩ := writesStages_of_callLayouts hentries .nil hstart hstages
    rw [filterMap_snd_entries, ← hcallsOf] at hstages
    refine ⟨t, parameters, block, body, _, c'.temporaries, hterm, hparts,
      .staged ?_ hstages hlines, ?_⟩
    · rw [hcallsOf]
      exact cons_ne_nil _ _
    · rw [flatten_append, flatten_singleton]
      exact hgives'.append hgives

/-- A template of a function, alone or after the guard of returns. -/
inductive WritesTemplate (env : Env) (t : Term) : List Line → List Mention → Prop
  | whole {mode : Env} {lines : List Line} {uses : List Mention}
      (hmode : mode ∈ [env, env.direct, env.last]) (h : Performs mode false t lines uses) :
      WritesTemplate env t lines uses
  | guarded {mode : Env} {lines : List Line} {uses : List Mention}
      (hmode : mode ∈ [env, env.direct, env.last]) (h : Performs mode false t lines uses) :
      WritesTemplate env t (returnGuard ++ lines) uses

lemma WritesStages.templates (h : WritesStages env t calls stages table) :
    Forall₂ (WritesTemplate env t)
      (stages.flatMap fun stage => [stage.request, stage.response]) table := by
  induction h with
  | nil => exact .nil
  | cons hrequest hresponse hreturned rest ih =>
    exact .cons (.guarded mem_cons_self hrequest) (.cons (.whole mem_cons_self hresponse) ih)

lemma WritesLayout.templates (h : WritesLayout env t calls layout table) :
    Forall₂ (WritesTemplate env t) layout.templates table := by
  cases h with
  | single h =>
    have hdirect : env.direct ∈ [env, env.direct, env.last] := by simp
    have hresult : Performs env.direct false t [output "$context.result"] [] :=
      performs_output (.fixed (by decide))
    exact .cons (.whole hdirect (.plain (by simp [Env.direct]))) (.cons (.whole hdirect h)
      (.cons (.whole hdirect hresult) .nil))
  | staged hne hstages hlast =>
    exact rel_append hstages.templates (.cons (.guarded (by simp) hlast) .nil)

lemma WritesLayout.exists_writesTemplate (h : WritesLayout env t calls layout table) :
    ∀ lines ∈ layout.templates, ∃ uses ∈ table, WritesTemplate env t lines uses := by
  have htemplates := h.templates
  clear h
  generalize layout.templates = templates at htemplates ⊢
  induction htemplates with
  | nil => simp
  | cons hfirst rest ih =>
    refine forall_mem_cons.mpr ⟨⟨_, mem_cons_self, hfirst⟩, fun lines hlines => ?_⟩
    obtain ⟨uses, huses, hlines⟩ := ih lines hlines
    exact ⟨uses, mem_cons_of_mem _ huses, hlines⟩

end Pipeline

end ServiceFlow
