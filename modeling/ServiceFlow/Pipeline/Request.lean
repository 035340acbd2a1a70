import ServiceFlow.Json.Writer
import ServiceFlow.Template.Statement

/-!
# Requests to backends

The document that a stage sends to its backend, and how the answer is read.
-/

namespace ServiceFlow.Pipeline

open ServiceFlow.Template

def braced (opening : String) (body : List Line) (closing : String) : List Line :=
  textLine opening :: nest body ++ [textLine closing]

def document (body : List Line) : List Line := braced "\x7b" body "\x7d"

def separated : List String → List Line
  | [] => []
  | [last] => [textLine last]
  | text :: rest => textLine (text ++ ",") :: separated rest

def field (key value : String) : String := Json.quote key ++ ": " ++ value

def versionField (version : String) : String := field "version" (Json.quote version)

def asJson (value : String) : String := "$util.toJson(" ++ value ++ ")"

def isAttributeMap (key : String) : Bool := key = "key" || key = "attributeValues"

def keyValueField (key value : String) : String :=
  field key (if isAttributeMap key then "$util.dynamodb.toMapValuesJson(" ++ value ++ ")"
    else asJson value)

def keyValueFields (env : Env) (op : KeyValueOp) :
    List Term → Compose (List Line × List String)
  | [] => pure ([], [])
  | .mk _ (.propertyAssignment name value) :: rest =>
    match name.staticKey? with
    | none => throw (.serviceCall name.tag (.staticKeys op.name))
    | some key => do
      let code ← expression env value
      let (lines, fields) ← keyValueFields env op rest
      pure (code.lines ++ lines, keyValueField key code.value :: fields)
  | t :: _ => throw (.serviceCall t.tag (.spreadArgument op.name))

def keyValueArgument (env : Env) (op : KeyValueOp) :
    List Term → Compose (List Line × List String)
  | [] => pure ([], [])
  | .mk _ (.objectLiteral properties) :: _ => keyValueFields env op properties
  | t :: _ => throw (.serviceCall t.tag (.objectExpected op.name))

def executionTarget (sync : Bool) : String :=
  if sync then "AWSStepFunctions.StartSyncExecution" else "AWSStepFunctions.StartExecution"

def executionDocument (version target machine input : String) : List Line :=
  document (
    [textLine (versionField version ++ ","),
      textLine (field "method" (Json.quote "POST") ++ ","),
      textLine (field "resourcePath" (Json.quote "/") ++ ",")] ++
    braced (field "params" "\x7b")
      (braced (field "headers" "\x7b")
        (separated [field "content-type" (Json.quote "application/x-amz-json-1.0"),
          field "x-amz-target" (Json.quote target)])
        "\x7d," ++
      braced (field "body" "\x7b")
        (separated [field "stateMachineArn" (Json.quote machine),
          field "input" (asJson (asJson input))])
        "\x7d")
      "\x7d")

def request (env : Env) (call : ServiceCall) : Compose (List Line) := do
  let version := env.settings.templateVersion
  match call.op with
  | .keyValue op =>
    let (lines, fields) ← keyValueArgument env op call.arguments
    pure (lines ++ document (separated
      (versionField version :: field "operation" (Json.quote op.operation) :: fields)))
  | .invoke =>
    let payload ← firstArgument (expression env) null call.arguments
    pure (payload.lines ++ document (separated
      [versionField version, field "operation" (Json.quote "Invoke"),
        field "payload" (asJson payload.value)]))
  | .startExecution sync =>
    let input ← firstArgument (expression env) "\x7b\x7d" call.arguments
    pure (input.lines ++
      executionDocument version (executionTarget sync) call.resource.identifier input.value)

def responseCheck : ServiceOp → List Line
  | .startExecution _ =>
    [line (.openIf "$context.result.statusCode == 200")] ++
    nest [line (.assign "$__result" "$util.parseJson($context.result.body)")] ++
    [line .openElse] ++
    nest [textLine "$util.error($context.result.body, \"StepFunctionsError\")"] ++
    [line .close]
  | .keyValue _ | .invoke =>
    ifBlock "$context.error"
      [textLine "$util.error($context.error.message, $context.error.type)"]

def resultRoot : ServiceOp → String
  | .startExecution true => "$util.parseJson($__result.output)"
  | .startExecution false => "$__result"
  | .keyValue _ | .invoke => "$context.result"

end ServiceFlow.Pipeline
