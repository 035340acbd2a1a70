import ServiceFlow.Flow.Basic
import ServiceFlow.Pipeline.Basic
import ServiceFlow.Pipeline.Request
import ServiceFlow.Program

/-!
# Functions as pipelines

Each top-level call of a backend makes a stage, with the statements before it in its request. The
statements after the last call become the response of the pipeline.
-/

namespace ServiceFlow.Pipeline

open ServiceFlow.Template

structure StageCall where
  site : CallSite
  use : Use

def siteOf? (registry : Registry) (t : Term) : Except CompileError (Option StageCall) :=
  match t.usedExpression? with
  | none => .ok none
  | some (e, use) => do
    match ← e.callSite? registry with
    | none => pure none
    | some site =>
      Tree.checkArguments registry .nestedInCall site.call.arguments
      pure (some ⟨site, use⟩)

/-- Read a statement as a call; refuse calls anywhere else in it. -/
def classify (registry : Registry) (t : Term) : Except CompileError (Option StageCall) := do
  match ← siteOf? registry t with
  | some call => pure (some call)
  | none =>
    match ← t.findServiceCall? registry with
    | some nested => throw (.callPosition nested (.insideStatement t.kind))
    | none => pure none

abbrev Draft := StateT Counters Allocate

def Draft.compose {α : Type} (x : Compose α) : Draft α :=
  fun counters => Allocate.ofExcept (x counters)

def accessors (env : Env) : List Term → Compose Code
  | [] => pure ⟨[], ""⟩
  | t :: rest => do
    let first ← accessor env t
    let others ← accessors env rest
    pure ⟨first.lines ++ others.lines, first.value ++ others.value⟩

def keepResult (env : Env) (value : String) : Use → List Line
  | .discard => []
  | .bind name => [env.assign name value]
  | .returned => recordReturn value

def response (env : Env) (call : StageCall) : Compose (List Line) := do
  let code ← accessors env call.site.accessors
  let op := call.site.call.op
  pure (responseCheck op ++ code.lines ++ keepResult env (resultRoot op ++ code.value) call.use ++
    [textLine "\x7b\x7d"])

def stage (env : Env) (name : String) (before : List Line) (call : StageCall) : Draft Stage := do
  let service := call.site.call
  let requestLines ← Draft.compose (request env service)
  let responseLines ← Draft.compose (response env call)
  let source ← liftM (Allocate.dataSource service.reference service.resource)
  let stageName ← liftM (Allocate.uniqueName (name ++ "_" ++ service.reference))
  pure ⟨stageName, some source.name, render (returnGuard ++ before ++ requestLines),
    render responseLines⟩

def callStages (env : Env) (name : String) :
    List Line → List (Term × Option StageCall) → Draft (List Stage)
  | _, [] => pure []
  | before, (t, none) :: rest => do
    let lines ← Draft.compose (statement env t)
    callStages env name (before ++ lines) rest
  | before, (_, some call) :: rest => do
    let first ← stage env name before call
    let others ← callStages env name [] rest
    pure (first :: others)

def output (value : String) : Line := textLine (asJson value)

/-- The lines of the last statements of a body, which end in the output of the template. -/
def finish (env : Env) (fallback : String) : List Term → Compose (List Line)
  | [] => pure [output fallback]
  | [.mk _ (.returnStmt e)] => do
    let code ← expressionOrNull env e
    pure (code.lines ++ [output code.value])
  | [last] => do
    let lines ← statement env last
    pure (if last.isTerminal then lines else lines ++ [output null])
  | t :: rest => do
    let lines ← statement env t
    let others ← finish env fallback rest
    pure (lines ++ others)

def localRequest (version : String) : String :=
  "\x7b\"version\":\"" ++ version ++ "\",\"payload\":null\x7d"

def entry : String := "\x7b\x7d"

def single (env : Env) (name : String) (body : List Term) : Draft Pipeline := do
  let env := { env with stashed := false, returnsDirectly := true }
  let lines ← Draft.compose (finish env null body)
  let stageName ← liftM (Allocate.uniqueName name)
  pure ⟨name, entry, asJson "$context.result",
    [⟨stageName, none, localRequest env.settings.templateVersion, render lines⟩]⟩

def returnsResult (calls : List (Term × Option StageCall)) : Bool :=
  match calls.getLast? with
  | some (_, some call) => call.use == .returned
  | _ => false

/-- A pipeline with a stage per call; `calls` ends with the last call of the function. -/
def staged (env : Env) (name : String) (calls : List (Term × Option StageCall))
    (after : List Term) : Draft Pipeline := do
  let parts ← callStages env name [] calls
  let fallback := if returnsResult calls then slot returnValue else null
  let lines ← Draft.compose (finish { env with returnsDirectly := true } fallback after)
  pure ⟨name, entry, render (returnGuard ++ lines), parts⟩

def splitAtLastCall (calls : List (Term × Option StageCall)) :
    List (Term × Option StageCall) × List Term :=
  let after := calls.reverse.takeWhile fun c => c.2.isNone
  (calls.take (calls.length - after.length), after.reverse.map (·.1))

def classifyAll (registry : Registry) (body : List Term) :
    Except CompileError (List (Term × Option StageCall)) :=
  body.mapM fun t => do pure (t, ← classify registry t)

def analyse (program : Program) :
    Except CompileError (Option String × List (Term × Option StageCall)) := do
  let (parameters, _, body) ← (← program.term).functionParts
  pure (parameters.head?.bind Tree.parameterName?, ← classifyAll program.registry body)

def compile (program : Program) : Allocate Pipeline := do
  let (context, calls) ← Allocate.ofExcept (analyse program)
  let env : Env :=
    ⟨program.registry, program.references, program.settings, context, true, false, []⟩
  let (before, after) := splitAtLastCall calls
  let draft := if before.isEmpty then single env program.name after
    else staged env program.name before after
  draft.run' ⟨0, 0⟩

end ServiceFlow.Pipeline
