import ServiceFlow.Template.Expression

/-!
# Statements in templates

A statement becomes lines. Loops run over a bounded range of numbers, since a template has no other
loop. A return is recorded in the stash, so that later stages can see it.
-/

namespace ServiceFlow.Template

def returnFlag : String := "return__flag"

def returnValue : String := "return__val"

def slot (name : String) : String := "$context.stash." ++ name

def returnGuard : List Line := ifBlock (slot returnFlag) [line (.yield (slot returnValue))]

def recordReturn (value : String) : List Line :=
  [line (.stash returnFlag "true"), line (.stash returnValue value)]

def expressionOrNull (env : Env) : Option Term → Compose Code
  | some t => expression env t
  | none => pure ⟨[], null⟩

def returnLines (env : Env) (t : Option Term) : Compose (List Line) := do
  let code ← expressionOrNull env t
  if env.returnsDirectly then
    pure (code.lines ++ [line (.yield code.value)])
  else
    pure (code.lines ++ recordReturn code.value ++ [line (.yield (slot returnValue))])

def errorType? : Term → Option String
  | .mk _ (.identifier name) => if name = "Error" then none else some name
  | _ => none

def errorLines (code : Code) : Option String → List Line
  | some type =>
    code.lines ++ [textLine ("$util.error(" ++ code.value ++ ", " ++ quoted type ++ ")")]
  | none => code.lines ++ [textLine ("$util.error(" ++ code.value ++ ")")]

def throwLines (env : Env) : Term → Compose (List Line)
  | .mk _ (.newExpr callee arguments) => do
    let message ← firstArgument (expression env) (quoted "") arguments
    pure (errorLines message (errorType? callee))
  | t => do pure (errorLines (← expression env t) none)

/-- Lines that leave a loop unless its condition holds; none for a condition that always does. -/
def loopCheck (env : Env) (t : Term) : Compose (List Line) :=
  match (t.constant? env.references).map Constant.isTruthy with
  | some true => pure []
  | _ => do
    let code ← test env t
    pure (code.lines ++ ifBlock ("!(" ++ code.value ++ ")") [line .leave])

def boundedLoop (env : Env) : Compose Line :=
  modifyGet fun c =>
    (line (.forEach ("$__loop" ++ toString c.loops)
      ("[0.." ++ toString (env.settings.maxLoopIterations - 1) ++ "]")),
      { c with loops := c.loops + 1 })

def loopVariable (t : Term) : Compose String :=
  match t.node with
  | .variableStmt name _ | .identifier name | .parameterDecl name => pure name
  | _ => unsupported t .loopVariableName

def Env.inLoop (env : Env) (name : String) : Env :=
  { env with loopVariables := name :: env.loopVariables }

mutual

def statement (env : Env) : Term → Compose (List Line)
  | .mk _ (.block body _) => statements env body
  | .mk _ (.variableStmt name initializer) => do
    let code ← expressionOrNull env initializer
    pure (code.lines ++ [env.assign name code.value])
  | .mk _ (.exprStmt e) => do
    let code ← expression env e
    pure (code.lines ++ [line (.run code.value)])
  | .mk _ (.returnStmt e) => returnLines env e
  | .mk _ (.throwStmt e) => throwLines env e
  | .mk _ (.ifStmt condition thenStmt elseStmt) => do
    let code ← test env condition
    let body ← statement env thenStmt
    let rest ← elseLines env elseStmt
    pure (code.lines ++ line (.openIf code.value) :: nest body ++ rest ++ [line .close])
  | .mk _ (.whileStmt condition body) => do
    let header ← boundedLoop env
    let check ← loopCheck env condition
    let body ← statement env body
    pure (header :: nest (check ++ body) ++ [line .close])
  | .mk _ (.doStmt body condition) => do
    let header ← boundedLoop env
    let body ← statement env body
    let check ← loopCheck env condition
    pure (header :: nest (body ++ check) ++ [line .close])
  | .mk _ (.forOfStmt binder iterable body) => do
    let name ← loopVariable binder
    let code ← expression env iterable
    let body ← statement (env.inLoop name) body
    pure (code.lines ++ line (.forEach ("$" ++ variableName name) code.value) ::
      nest body ++ [line .close])
  | .mk _ (.forInStmt binder iterable body) => do
    let name ← loopVariable binder
    let code ← expression env iterable
    let body ← statement (env.inLoop name) body
    pure (code.lines ++ line (.forEach ("$" ++ variableName name) (code.value ++ ".keySet()")) ::
      nest body ++ [line .close])
  | .mk _ .breakStmt => pure [line .leave]
  | .mk _ .emptyStmt => pure []
  | .mk id .continueStmt => unsupported (.mk id .continueStmt) .continueInTemplate
  | .mk id (.tryStmt b h f) => unsupported (.mk id (.tryStmt b h f)) .tryInTemplate
  | .mk id (.functionDecl n p b) => unsupported (.mk id (.functionDecl n p b)) .nestedFunction
  | .mk id (.syntaxError message) => unsupported (.mk id (.syntaxError message)) (.unparsed message)
  | t => unsupported t .notStatement
termination_by structural t => t

def statements (env : Env) : List Term → Compose (List Line)
  | [] => pure []
  | t :: rest => do
    let lines ← statement env t
    let others ← statements env rest
    pure (lines ++ others)
termination_by structural ts => ts

/-- The lines of an else branch. A condition that needs no lines of its own continues the chain. -/
def elseLines (env : Env) : Option Term → Compose (List Line)
  | none => pure []
  | some (.mk id (.ifStmt condition thenStmt elseStmt)) => do
    let mark := (← get).temporaries
    let code ← test env condition
    if code.lines.isEmpty then
      let body ← statement env thenStmt
      let rest ← elseLines env elseStmt
      pure (line (.elseIf code.value) :: nest body ++ rest)
    else
      releaseTo mark
      let body ← statement env (.mk id (.ifStmt condition thenStmt elseStmt))
      pure (line .openElse :: nest body)
  | some t => do
    let body ← statement env t
    pure (line .openElse :: nest body)
termination_by structural t => t

end

end ServiceFlow.Template
