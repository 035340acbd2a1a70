import ServiceFlow.Proofs.PipelineStages

/-!
# Layouts of pipelines

The templates of a pipeline as lists of lines, before the lines are joined.
-/

namespace ServiceFlow

namespace Template

def Env.direct (env : Env) : Env := { env with stashed := false, returnsDirectly := true }

def Env.last (env : Env) : Env := { env with returnsDirectly := true }

end Template

namespace Pipeline

open ServiceFlow.Template

/-- The lines of the two templates of a stage. -/
structure StageLayout where
  request : List Line
  response : List Line

/-- The lines of all templates of a pipeline. -/
structure Layout where
  stages : List StageLayout
  response : List Line

def Layout.templates (layout : Layout) : List (List Line) :=
  layout.stages.flatMap (fun stage => [stage.request, stage.response]) ++ [layout.response]

/-- The templates of a pipeline are the texts of a layout. -/
structure Layout.Renders (layout : Layout) (pipeline : Pipeline) : Prop where
  stages : pipeline.stages.map (fun stage => (stage.requestTemplate, stage.responseTemplate)) =
    layout.stages.map fun stage => (render stage.request, render stage.response)
  response : pipeline.responseTemplate = render layout.response

/-- The templates of one stage. -/
def stageLayout (env : Env) (before : List Line) (call : StageCall) : Compose StageLayout := do
  let requestLines ← request env call.site.call
  let responseLines ← response env call
  pure ⟨returnGuard ++ before ++ requestLines, responseLines⟩

/-- The templates of all stages. -/
def callLayouts (env : Env) :
    List Line → List (Term × Option StageCall) → Compose (List StageLayout)
  | _, [] => pure []
  | before, (t, none) :: rest => do
    let lines ← statement env t
    callLayouts env (before ++ lines) rest
  | before, (_, some call) :: rest => do
    let first ← stageLayout env before call
    let others ← callLayouts env [] rest
    pure (first :: others)

def singleLayout (env : Env) (body : List Term) : Compose Layout := do
  let lines ← finish env.direct null body
  pure ⟨[⟨[textLine (localRequest env.settings.templateVersion)], lines⟩],
    [output "$context.result"]⟩

/-- The layout of a function with calls. -/
def stagedLayout (env : Env) (calls : List (Term × Option StageCall)) (after : List Term) :
    Compose Layout := do
  let stages ← callLayouts env [] calls
  let fallback := if returnsResult calls then slot returnValue else null
  let lines ← finish env.last fallback after
  pure ⟨stages, returnGuard ++ lines⟩

/-- The layout that a program is compiled to. -/
def layoutOf (program : Program) : Except CompileError Layout := do
  let (context, calls) ← analyse program
  let env : Env :=
    ⟨program.registry, program.references, program.settings, context, true, false, []⟩
  let (before, after) := splitAtLastCall calls
  let compose := if before.isEmpty then singleLayout env after else stagedLayout env before after
  compose.run' ⟨0, 0⟩

variable {α : Type} {env : Env} {name : String} {c c' : Counters} {ns ns' : Namespace}
  {pipeline : Pipeline} {before : List Line}

lemma render_singleton (text : String) : render [textLine text] = text := by
  simp [render, textLine, line, Line.render, Directive.render]

lemma run_bind_of_eq {β : Type} {x : Compose α} {k : α → Compose β} {a : α} {c₁ : Counters}
    (h : x.run c = .ok (a, c₁)) : (x >>= k).run c = (k a).run c₁ := by
  rw [StateT.run_bind, h]
  rfl

lemma Draft.Makes.stageLayout {call : StageCall} {made : Stage}
    (h : Makes (stage env name before call) c ns made c' ns') :
    ∃ layout, (stageLayout env before call).run c = .ok (layout, c') ∧
      (made.requestTemplate, made.responseTemplate) =
        (render layout.request, render layout.response) := by
  obtain ⟨requestLines, c₁, hrequest, h⟩ := h.of_compose
  obtain ⟨responseLines, c₂, hresponse, h⟩ := h.of_compose
  obtain ⟨source, ns₁, -, h⟩ := h.of_modifyGet
  obtain ⟨stageName, ns₂, -, h⟩ := h.of_modifyGet
  obtain ⟨rfl, rfl, rfl⟩ := h.of_pure
  refine ⟨⟨returnGuard ++ before ++ requestLines, responseLines⟩, ?_, rfl⟩
  rw [stageLayout, run_bind_of_eq hrequest, run_bind_of_eq hresponse]
  rfl

variable {calls : List (Term × Option StageCall)} {program : Program} {context : Option String}

lemma Draft.Makes.callLayouts {stages : List Stage}
    (h : Makes (callStages env name before calls) c ns stages c' ns') :
    ∃ layouts, (callLayouts env before calls).run c = .ok (layouts, c') ∧
      stages.map (fun stage => (stage.requestTemplate, stage.responseTemplate)) =
        layouts.map fun layout => (render layout.request, render layout.response) := by
  induction calls generalizing before c ns stages with
  | nil =>
    obtain ⟨rfl, rfl, rfl⟩ := h.of_pure
    exact ⟨[], rfl, rfl⟩
  | cons entry calls ih =>
    obtain ⟨t, call⟩ := entry
    cases call with
    | none =>
      obtain ⟨lines, c₁, hlines, h⟩ := h.of_compose
      obtain ⟨layouts, hlayouts, hrender⟩ := ih h
      refine ⟨layouts, ?_, hrender⟩
      rw [callLayouts, run_bind_of_eq hlines]
      exact hlayouts
    | some call =>
      obtain ⟨first, c₁, ns₁, hfirst, h⟩ := h.of_bind
      obtain ⟨others, c₂, ns₂, hothers, h⟩ := h.of_bind
      obtain ⟨rfl, rfl, rfl⟩ := h.of_pure
      obtain ⟨layout, hlayout, hstage⟩ := hfirst.stageLayout
      obtain ⟨layouts, hlayouts, hrender⟩ := ih hothers
      refine ⟨layout :: layouts, ?_, by rw [List.map_cons, List.map_cons, hrender, hstage]⟩
      rw [callLayouts, run_bind_of_eq hlayout, run_bind_of_eq hlayouts]
      rfl

lemma Draft.Makes.singleLayout {body : List Term}
    (h : Makes (single env name body) c ns pipeline c' ns') :
    ∃ layout, (singleLayout env body).run c = .ok (layout, c') ∧ layout.Renders pipeline := by
  obtain ⟨lines, c₁, hlines, h⟩ := h.of_compose
  obtain ⟨stageName, ns₁, -, h⟩ := h.of_modifyGet
  obtain ⟨rfl, rfl, rfl⟩ := h.of_pure
  refine ⟨_, run_bind_of_eq hlines, ⟨?_, (render_singleton _).symm⟩⟩
  simp only [List.map_cons, List.map_nil, render_singleton]

lemma Draft.Makes.stagedLayout {after : List Term}
    (h : Makes (staged env name calls after) c ns pipeline c' ns') :
    ∃ layout, (stagedLayout env calls after).run c = .ok (layout, c') ∧
      layout.Renders pipeline := by
  obtain ⟨stages, c₁, ns₁, hstages, h⟩ := h.of_bind
  obtain ⟨lines, c₂, hlines, h⟩ := h.of_compose
  obtain ⟨rfl, rfl, rfl⟩ := h.of_pure
  obtain ⟨layouts, hlayouts, hrender⟩ := hstages.callLayouts
  refine ⟨⟨layouts, returnGuard ++ lines⟩, ?_, ⟨hrender, rfl⟩⟩
  rw [stagedLayout, run_bind_of_eq hlayouts]
  exact run_bind_of_eq hlines

def startEnv (program : Program) (context : Option String) : Env :=
  ⟨program.registry, program.references, program.settings, context, true, false, []⟩

lemma layoutOf_eq (h : analyse program = .ok (context, calls)) :
    layoutOf program = StateT.run' (if (splitAtLastCall calls).1.isEmpty
      then singleLayout (startEnv program context) (splitAtLastCall calls).2
      else stagedLayout (startEnv program context) (splitAtLastCall calls).1
        (splitAtLastCall calls).2) ⟨0, 0⟩ := by
  unfold layoutOf
  rw [h]
  rfl

lemma compile_eq (h : analyse program = .ok (context, calls)) :
    compile program = StateT.run' (if (splitAtLastCall calls).1.isEmpty
      then single (startEnv program context) program.name (splitAtLastCall calls).2
      else staged (startEnv program context) program.name (splitAtLastCall calls).1
        (splitAtLastCall calls).2) ⟨0, 0⟩ := by
  unfold compile
  rw [h, Allocate.ofExcept, pure_bind]
  rfl

lemma exists_layout (h : (compile program).run.run ns = (.ok pipeline, ns')) :
    ∃ layout, layoutOf program = .ok layout ∧ layout.Renders pipeline := by
  obtain ⟨⟨context, calls⟩, ns₁, hread, -⟩ := Allocate.run_bind_eq_ok h
  obtain ⟨hanalyse, -⟩ := Allocate.run_ofExcept_eq_ok hread
  rw [compile_eq hanalyse] at h
  rw [layoutOf_eq hanalyse]
  obtain ⟨c', h⟩ := Draft.exists_makes h
  have hrun : ∀ {compose : Compose Layout} {layout : Layout},
      compose.run ⟨0, 0⟩ = .ok (layout, c') → compose.run' ⟨0, 0⟩ = .ok layout := by
    intro compose layout hlayout
    rw [StateT.run'_eq, hlayout]
    rfl
  split_ifs at h ⊢ with hempty
  · obtain ⟨layout, hlayout, hrenders⟩ := h.singleLayout
    exact ⟨layout, hrun hlayout, hrenders⟩
  · obtain ⟨layout, hlayout, hrenders⟩ := h.stagedLayout
    exact ⟨layout, hrun hlayout, hrenders⟩

end Pipeline

end ServiceFlow
