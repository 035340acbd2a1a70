import ServiceFlow.Flatten.Member
import ServiceFlow.Service.Call
import ServiceFlow.Settings
import ServiceFlow.Template.Line
import ServiceFlow.Template.Literal

/-!
# Expressions in templates

An expression becomes the text of a template expression, after lines that compute the intermediate
values it needs. Intermediate values are held in numbered temporaries.
-/

namespace ServiceFlow.Template

structure Env where
  registry : Registry
  references : References
  settings : Settings
  context : Option String
  /-- Whether locals live in the stash, where later stages can read them. -/
  stashed : Bool
  /-- Whether a return ends the pipeline, and need not be recorded for later stages. -/
  returnsDirectly : Bool
  loopVariables : List String

structure Counters where
  temporaries : Nat
  loops : Nat
deriving DecidableEq, Repr

abbrev Compose := StateT Counters (Except CompileError)

structure Code where
  lines : List Line
  value : String
deriving DecidableEq, Repr

def unsupported {α : Type} (t : Term) (fault : Unsupported) : Compose α :=
  throw (.unsupported t.tag t.kind fault)

def temporary : Compose String :=
  modifyGet fun c =>
    ("$v" ++ toString c.temporaries, { c with temporaries := c.temporaries + 1 })

/-- Forget the temporaries given out since the count was `mark`. -/
def releaseTo (mark : Nat) : Compose Unit := modify fun c => { c with temporaries := mark }

def Env.isTemplateVariable (env : Env) (name : String) : Bool :=
  !env.stashed || env.loopVariables.contains name

def Env.local (env : Env) (name : String) : String :=
  if env.isTemplateVariable name then "$" ++ variableName name
  else "$context.stash." ++ variableName name

def Env.assign (env : Env) (name value : String) : Line :=
  if env.isTemplateVariable name then line (.assign ("$" ++ variableName name) value)
  else line (.stash (variableName name) value)

def identifier (env : Env) (t : Term) (name : String) : Compose String :=
  if name = intrinsicsName then throw (.contextMismatch t.tag intrinsicsName .workflow)
  else if name = utilName then pure utilName
  else if env.context = some name then pure "$context"
  else if name = "undefined" then pure null
  else pure (env.local name)

def codes (go : Term → Compose Code) : List Term → Compose (List Line × List String)
  | [] => pure ([], [])
  | t :: rest => do
    let code ← go t
    let (lines, values) ← codes go rest
    pure (code.lines ++ lines, code.value :: values)

def isStringy (env : Env) : Term → Bool
  | .mk _ (.stringLiteral _) => true
  | .mk _ (.templateExpr _ _) => true
  | .mk id (.binaryExpr left op right) =>
    if op = .add then isStringy env left || isStringy env right
    else
      match (Tree.mk id (.binaryExpr left op right)).constant? env.references with
      | some (.string _) => true
      | _ => false
  | t =>
    match t.constant? env.references with
    | some (.string _) => true
    | _ => false
termination_by structural t => t

inductive Part where
  | text (content : String)
  | term (t : Term)

def concatParts : Term → List Part
  | .mk id (.binaryExpr left op right) =>
    if op = .add then concatParts left ++ concatParts right
    else [.term (.mk id (.binaryExpr left op right))]
  | t => [.term t]
termination_by structural t => t

def spanParts (spans : List (Span Term)) : List Part :=
  spans.flatMap fun s => [.term s.expression, .text s.literal]

/-- Text inside double quotes. What cannot stand there goes through a temporary. -/
def fragment (text : String) : Compose Code :=
  if text.isEmpty then pure ⟨[], ""⟩
  else if isSafeFragment text then pure ⟨[], text⟩
  else do
    let temp ← temporary
    pure ⟨[line (.assign temp (quoted text))], formal temp⟩

def part (env : Env) (go : Term → Compose Code) : Part → Compose Code
  | .text text => fragment text
  | .term t =>
    match t.constant? env.references with
    | some constant => fragment constant.text
    | none => do
      let code ← go t
      if isReferenceChain code.value then pure ⟨code.lines, formal code.value⟩
      else
        let temp ← temporary
        pure ⟨code.lines ++ [line (.assign temp code.value)], formal temp⟩

def joined (env : Env) (go : Term → Compose Code) : List Part → Compose Code
  | [] => pure ⟨[], ""⟩
  | p :: rest => do
    let first ← part env go p
    let others ← joined env go rest
    pure ⟨first.lines ++ others.lines, first.value ++ others.value⟩

def interpolate (env : Env) (go : Term → Compose Code) (parts : List Part) :
    Compose Code := do
  let code ← joined env go parts
  pure { code with value := "\"" ++ code.value ++ "\"" }

/-- A temporary that starts as one value and takes another under a test of it. -/
def override (go : Term → Compose Code) (test : String → String) (left right : Term) :
    Compose Code := do
  let left ← go left
  let temp ← temporary
  let right ← go right
  pure ⟨left.lines ++ line (.assign temp left.value) ::
    ifBlock (test temp) (right.lines ++ [line (.assign temp right.value)]), temp⟩

/-- An expression tested for truth. The template's own operators are used for `&&` and `||` unless
the right operand needs lines of its own. -/
def condition (env : Env) (go : Term → Compose Code) : Term → Compose Code
  | .mk id (.binaryExpr left op right) => do
    let t := Tree.mk id (.binaryExpr left op right)
    if (op = .and || op = .or) && (t.constant? env.references).isNone then
      let mark := (← get).temporaries
      let l ← condition env go left
      let r ← condition env go right
      if r.lines.isEmpty then
        pure ⟨l.lines, "(" ++ l.value ++ " " ++ op.symbol ++ " " ++ r.value ++ ")"⟩
      else
        releaseTo mark
        go t
    else
      go t
  | t => go t
termination_by structural t => t

def operatorText : BinaryOp → String
  | .eq | .strictEq => "=="
  | .notEq | .strictNotEq => "!="
  | op => op.symbol

def binary (env : Env) (go : Term → Compose Code) (left : Term) (op : BinaryOp) (right : Term) :
    Compose Code :=
  match op with
  | .coalesce => override go (fun temp => "$util.isNull(" ++ temp ++ ")") left right
  | .and => override go (fun temp => temp) left right
  | .or => override go (fun temp => "!" ++ temp) left right
  | op =>
    if op = .add && (isStringy env left || isStringy env right) then
      interpolate env go (concatParts left ++ concatParts right)
    else do
      let l ← go left
      let r ← go right
      pure ⟨l.lines ++ r.lines, "(" ++ l.value ++ " " ++ operatorText op ++ " " ++ r.value ++ ")"⟩

def conditional (env : Env) (go : Term → Compose Code) (test whenTrue whenFalse : Term) :
    Compose Code := do
  let test ← condition env go test
  let temp ← temporary
  let yes ← go whenTrue
  let no ← go whenFalse
  pure ⟨test.lines ++ line (.openIf test.value) ::
    nest (yes.lines ++ [line (.assign temp yes.value)]) ++ line .openElse ::
    nest (no.lines ++ [line (.assign temp no.value)]) ++ [line .close], temp⟩

def isSpread : Term → Bool
  | .mk _ (.spreadElement _) => true
  | _ => false

def elementLines (go : Term → Compose Code) (temp : String) : List Term → Compose (List Line)
  | [] => pure []
  | .mk _ (.spreadElement expression) :: rest => do
    let code ← go expression
    let lines ← elementLines go temp rest
    pure (code.lines ++ line (.run (temp ++ ".addAll(" ++ code.value ++ ")")) :: lines)
  | t :: rest => do
    let code ← go t
    let lines ← elementLines go temp rest
    pure (code.lines ++ line (.run (temp ++ ".add(" ++ code.value ++ ")")) :: lines)

def array (go : Term → Compose Code) (elements : List Term) : Compose Code := do
  if elements.any isSpread then
    let temp ← temporary
    let lines ← elementLines go temp elements
    pure ⟨line (.assign temp "[]") :: lines, temp⟩
  else
    let (lines, values) ← codes go elements
    pure ⟨lines, "[" ++ String.intercalate ", " values ++ "]"⟩

def staticEntry? : Term → Option (String × Term)
  | .mk _ (.propertyAssignment name value) => name.staticKey?.map (·, value)
  | _ => none

def propertyKey (go : Term → Compose Code) (name : Term) : Compose Code :=
  match name.staticKey?, name with
  | some key, _ => pure ⟨[], quoted key⟩
  | none, .mk _ (.computedPropertyName expression) => go expression
  | none, name => go name

def propertyLines (go : Term → Compose Code) (temp : String) : List Term → Compose (List Line)
  | [] => pure []
  | .mk _ (.propertyAssignment name value) :: rest => do
    let key ← propertyKey go name
    let code ← go value
    let lines ← propertyLines go temp rest
    pure (key.lines ++ code.lines ++
      line (.run (temp ++ ".put(" ++ key.value ++ ", " ++ code.value ++ ")")) :: lines)
  | .mk _ (.spreadAssignment expression) :: rest => do
    let code ← go expression
    let lines ← propertyLines go temp rest
    pure (code.lines ++ line (.run (temp ++ ".putAll(" ++ code.value ++ ")")) :: lines)
  | t :: _ => unsupported t .notProperty

def object (go : Term → Compose Code) (properties : List Term) : Compose Code := do
  match properties.mapM staticEntry? with
  | some entries =>
    let (lines, values) ← codes go (entries.map (·.2))
    let texts := (entries.zip values).map fun (entry, value) => quoted entry.1 ++ ": " ++ value
    pure ⟨lines, "\x7b" ++ String.intercalate ", " texts ++ "\x7d"⟩
  | none =>
    let temp ← temporary
    let lines ← propertyLines go temp properties
    pure ⟨line (.assign temp "\x7b\x7d") :: lines, temp⟩

def methodName (name : String) : String :=
  if name = "push" then "add" else if name = "includes" then "contains" else name

def jsonFunction (t : Term) (name : String) : Compose String :=
  if name = "stringify" then pure "$util.toJson"
  else if name = "parse" then pure "$util.parseJson"
  else unsupported t (.jsonFunction name)

def firstArgument (go : Term → Compose Code) (missing : String) : List Term → Compose Code
  | [] => pure ⟨[], missing⟩
  | t :: _ => go t

def methodCall (go : Term → Compose Code) (receiver : Term) (name : String)
    (arguments : List Term) : Compose Code := do
  let base ← go receiver
  let (lines, values) ← codes go arguments
  pure ⟨base.lines ++ lines,
    base.value ++ "." ++ methodName name ++ "(" ++ String.intercalate ", " values ++ ")"⟩

/-- A call. Calls of a backend are refused here: they make stages of their own. -/
def call (env : Env) (go : Term → Compose Code) (t callee : Term) (arguments : List Term) :
    Compose Code := do
  if (← t.serviceCall? env.registry).isSome then throw (.callPosition t.tag .notTopLevel)
  match callee with
  | .mk _ (.propertyAccess receiver name _) =>
    if receiver.isIdentifier intrinsicsName then
      throw (.contextMismatch t.tag (intrinsicsName ++ "." ++ name) .workflow)
    else if receiver.isIdentifier "JSON" then
      let function ← jsonFunction t name
      let argument ← firstArgument go null arguments
      pure { argument with value := function ++ "(" ++ argument.value ++ ")" }
    else
      methodCall go receiver name arguments
  | _ => unsupported t .notMethodCall

def node (env : Env) (go : Term → Compose Code) (t : Term) : Compose Code := do
  match t.constant? env.references with
  | some constant => pure ⟨[], literal constant⟩
  | none =>
    match t.node with
    | .identifier name => do pure ⟨[], ← identifier env t name⟩
    | .referenceExpr name => throw (.unknownResource t.tag name)
    | .awaitExpr expression => go expression
    | .propertyAccess expression name _ => do
      let base ← go expression
      pure { base with value := base.value ++ member name }
    | .elementAccess expression element _ => do
      let base ← go expression
      let key ← go element
      pure ⟨base.lines ++ key.lines, base.value ++ ".get(" ++ key.value ++ ")"⟩
    | .callExpr callee arguments => call env go t callee arguments
    | .unaryExpr operator operand => do
      let code ← go operand
      pure { code with value := match operator with
        | .not => "!" ++ parenthesize code.value
        | .neg => "(0 - " ++ code.value ++ ")"
        | .plus => code.value }
    | .binaryExpr left operator right => binary env go left operator right
    | .conditionalExpr test whenTrue whenFalse => conditional env go test whenTrue whenFalse
    | .templateExpr head spans => interpolate env go (.text head :: spanParts spans)
    | .arrayLiteral elements => array go elements
    | .objectLiteral properties => object go properties
    | .arrowFunction .. | .functionDecl .. => unsupported t .functionValue
    | .syntaxError message => unsupported t (.unparsed message)
    | _ => unsupported t .noTemplateForm

def expressionWithin (env : Env) : Nat → Term → Compose Code
  | 0, t => throw (.node (.unknownNode t.tag))
  | fuel + 1, t => node env (expressionWithin env fuel) t

def expression (env : Env) (t : Term) : Compose Code := expressionWithin env t.size t

def test (env : Env) (t : Term) : Compose Code := condition env (expression env) t

def accessor (env : Env) : Term → Compose Code
  | .mk _ (.propertyAccess _ name _) => pure ⟨[], member name⟩
  | .mk _ (.elementAccess _ element _) => do
    let code ← expression env element
    pure { code with value := ".get(" ++ code.value ++ ")" }
  | t => unsupported t .memberExpected

end ServiceFlow.Template
