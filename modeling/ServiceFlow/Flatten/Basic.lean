import ServiceFlow.Flatten.Member

/-!
# Flattening

Flattening puts the values of known names into an expression and folds what becomes constant. All
nodes of the result are new.
-/

namespace ServiceFlow

namespace Flatten

abbrev Scope := Ordered NodeId

inductive Entry where
  | named (key : String) (value : NodeId)
  | computed (name value : NodeId)
  | verbatim (node : NodeId)
deriving DecidableEq, Repr

/-- Set the value of a named property. The first occurrence fixes the position. -/
def putEntry (key : String) (value : NodeId) : List Entry → List Entry
  | [] => [.named key value]
  | .named k v :: rest =>
    if k = key then .named key value :: rest else .named k v :: putEntry key value rest
  | entry :: rest => entry :: putEntry key value rest

def addProperty (key : String) (value : NodeId) : Build NodeId := do
  let name ← Build.add (Constant.keyNode key)
  Build.add (.propertyAssignment name value)

def addEntry : Entry → Build NodeId
  | .named key value => addProperty key value
  | .computed name value => Build.add (.propertyAssignment name value)
  | .verbatim node => pure node

def element (go : Term → Build NodeId) : Term → Build (List NodeId)
  | .mk id (.spreadElement expression) => do
    match ← Build.view (← go expression) with
    | .mk _ (.arrayLiteral items) => items.mapM Build.insert
    | _ => throw (.unsupportedSpread id .array)
  | t => do pure [← go t]

def array (go : Term → Build NodeId) (elements : List Term) : Build NodeId := do
  let parts ← elements.mapM (element go)
  Build.add (.arrayLiteral parts.flatten)

def spliced (entries : List Entry) : Term → Build (List Entry)
  | .mk _ (.propertyAssignment name value) => do
    let value ← Build.insert value
    match name.staticKey? with
    | some key => pure (putEntry key value entries)
    | none => do pure (entries ++ [.computed (← Build.insert name) value])
  | t => do pure (entries ++ [.verbatim (← Build.insert t)])

def propertyName (go : Term → Build NodeId) : Term → Build NodeId
  | .mk _ (.computedPropertyName expression) => go expression
  | t => pure t.tag

def property (go : Term → Build NodeId) (entries : List Entry) : Term → Build (List Entry)
  | .mk _ (.propertyAssignment name value) => do
    let value ← go value
    let name ← propertyName go name
    match (← Build.view name).staticKey? with
    | some key => pure (putEntry key value entries)
    | none => do pure (entries ++ [.computed (← Build.add (.computedPropertyName name)) value])
  | .mk id (.spreadAssignment expression) => do
    match ← Build.view (← go expression) with
    | .mk _ (.objectLiteral properties) => properties.foldlM spliced entries
    | _ => throw (.unsupportedSpread id .object)
  | t => do pure (entries ++ [.verbatim (← Build.insert t)])

def object (go : Term → Build NodeId) (properties : List Term) : Build NodeId := do
  let entries ← properties.foldlM (property go) []
  Build.add (.objectLiteral (← entries.mapM addEntry))

/-- Text of a template under construction: what comes before the first span, and the spans so far,
the last one first. -/
structure TemplateText where
  head : String
  spans : List (Span NodeId)

def TemplateText.append (t : TemplateText) (text : String) : TemplateText :=
  match t.spans with
  | [] => { t with head := t.head ++ text }
  | last :: rest => { t with spans := { last with literal := last.literal ++ text } :: rest }

def span (go : Term → Build NodeId) (t : TemplateText) (s : Span Term) : Build TemplateText := do
  let part ← go s.expression
  match (← Build.view part).constant? noReferences with
  | some value => pure (t.append (value.text ++ s.literal))
  | none => pure { t with spans := ⟨part, s.literal⟩ :: t.spans }

def template (go : Term → Build NodeId) (head : String) (spans : List (Span Term)) :
    Build NodeId := do
  let t ← spans.foldlM (span go) ⟨head, []⟩
  if t.spans.isEmpty then Build.add (.stringLiteral t.head)
  else Build.add (.templateExpr t.head t.spans.reverse)

/-- The callee of a call. A method keeps its name, only the receiver is flattened. -/
def callee (go : Term → Build NodeId) : Term → Build NodeId
  | .mk _ (.propertyAccess expression name chained) => do
    Build.add (.propertyAccess (← go expression) name chained)
  | t => go t

def node (scope : Scope) (go : Term → Build NodeId) (t : Term) : Build NodeId := do
  match t.node with
  | .identifier name =>
    match scope.get? name with
    | some bound => Build.copy bound
    | none => Build.insert t
  | .propertyAccess expression name chained =>
    let base ← go expression
    match ← member? t.tag base (.name name) with
    | some found => pure found
    | none => Build.add (.propertyAccess base name chained)
  | .elementAccess expression key chained =>
    let base ← go expression
    let key ← go key
    let found ← match MemberKey.of? (← Build.view key) with
      | some memberKey => member? t.tag base memberKey
      | none => pure none
    match found with
    | some found => pure found
    | none => Build.add (.elementAccess base key chained)
  | .arrayLiteral elements => array go elements
  | .objectLiteral properties => object go properties
  | .templateExpr head spans => template go head spans
  | .unaryExpr operator operand =>
    let operand ← go operand
    match operator, ← Build.node operand with
    | .neg, .numberLiteral value => Build.add (.numberLiteral (-value))
    | operator, _ => Build.add (.unaryExpr operator operand)
  | .callExpr function arguments =>
    let function ← callee go function
    Build.add (.callExpr function (← arguments.mapM go))
  | .arrowFunction .. | .functionDecl .. => Build.insert t
  | other => Build.add (← other.mapM go)

def term (scope : Scope) : Nat → Term → Build NodeId
  | 0, t => throw (.unknownNode t.tag)
  | fuel + 1, t => node scope (term scope fuel) t

def expression (scope : Scope) (id : NodeId) : Build NodeId := do
  let t ← Build.view id
  term scope t.size t

def declaration (scope : Scope) (id : NodeId) : Build Scope := do
  match ← Build.node id with
  | .variableStmt name (some initializer) =>
    pure (scope.put name (← expression scope initializer))
  | .variableStmt name none => do pure (scope.put name (← Build.add .undefinedLiteral))
  | other => throw (.unsupportedStatement id other.kind)

def declarations (statements : List NodeId) : Build Scope := statements.foldlM declaration []

def returned (block : NodeId) : Build NodeId := do
  match ← Build.node block with
  | .block statements _ =>
    match statements.getLast? with
    | none => throw (.missingReturn block)
    | some last =>
      match ← Build.node last with
      | .returnStmt (some value) => do
        expression (← declarations statements.dropLast) value
      | _ => throw (.missingReturn last)
  | other => throw (.typeMismatch block .block other.kind)

end Flatten

end ServiceFlow
