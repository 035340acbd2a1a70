import ServiceFlow.Machine.Condition
import ServiceFlow.Machine.Data
import ServiceFlow.Ordered

/-!
# State machines

A machine is a graph of named states. Map and parallel states hold machines of their own.
-/

namespace ServiceFlow

namespace Machine

inductive Transition where
  | next (name : String)
  | finish
deriving DecidableEq, Repr

inductive ResultPath where
  | path (path : Path)
  | discard
deriving DecidableEq, Repr

structure Catcher where
  next : String
  resultPath : ResultPath
deriving DecidableEq, Repr

structure Pass where
  result : Option Json := none
  parameters : Option Data := none
  inputPath : Option Path := none
  resultPath : Option ResultPath := none
  outputPath : Option Path := none
  transition : Transition

structure Task where
  resource : String
  parameters : Option Data := none
  inputPath : Option Path := none
  resultPath : Option ResultPath := none
  outputPath : Option Path := none
  catchers : List Catcher := []
  transition : Transition := .finish

structure Choice where
  condition : Condition
  next : String
  otherwise : String

inductive Delay where
  | seconds (n : Nat)
  | secondsAt (path : Path)
  | timestamp (text : String)
  | timestampAt (path : Path)
deriving DecidableEq, Repr

inductive FailureText where
  | given (text : String)
  | computed (operand : Operand)

structure MapHeader where
  itemsPath : Path
  parameters : Data
  maxConcurrency : Option Nat
  resultPath : Option ResultPath
  catchers : List Catcher
  transition : Transition

structure ParallelHeader where
  resultPath : Option ResultPath
  catchers : List Catcher
  transition : Transition

structure Graph (S : Type) where
  startAt : String
  states : List (String × S)

inductive State where
  | pass (pass : Pass)
  | task (task : Task)
  | choice (choice : Choice)
  | wait (delay : Delay) (transition : Transition)
  | map (header : MapHeader) (iterator : Graph State)
  | parallel (header : ParallelHeader) (branches : List (Graph State))
  | succeed
  | fail (error cause : FailureText)

end Machine

abbrev Machine := Machine.Graph Machine.State

namespace Machine

def Transition.ofOption : Option String → Transition
  | some name => .next name
  | none => .finish

def Transition.next? : Transition → Option String
  | .next name => some name
  | .finish => none

def State.next? : State → Option String
  | .pass p => p.transition.next?
  | .task t => t.transition.next?
  | .wait _ transition => transition.next?
  | .map header _ => header.transition.next?
  | .parallel header _ => header.transition.next?
  | .choice _ | .succeed | .fail .. => none

def Graph.start? (machine : Machine) : Option State := Ordered.get? machine.startAt machine.states

/-! The JSON form. Absent fields are left out. -/

def Transition.toFields : Transition → List (String × Json)
  | .next name => [("Next", .string name)]
  | .finish => [("End", .bool true)]

def ResultPath.toJson : ResultPath → Json
  | .path p => .string p.text
  | .discard => .null

def Catcher.toJson (catcher : Catcher) : Json :=
  .object [("ErrorEquals", .array [.string "States.ALL"]), ("Next", .string catcher.next),
    ("ResultPath", catcher.resultPath.toJson)]

def optionalField {α : Type} (name : String) (toJson : α → Json) : Option α → List (String × Json)
  | some a => [(name, toJson a)]
  | none => []

def pathField (name : String) : Option Path → List (String × Json) :=
  optionalField name fun path => .string path.text

def resultField : Option ResultPath → List (String × Json) :=
  optionalField "ResultPath" ResultPath.toJson

def catchField (catchers : List Catcher) : List (String × Json) :=
  if catchers.isEmpty then [] else [("Catch", .array (catchers.map Catcher.toJson))]

def typeField (name : String) : List (String × Json) := [("Type", .string name)]

def Pass.toFields (pass : Pass) : List (String × Json) :=
  optionalField "Result" id pass.result ++ optionalField "Parameters" Data.toJson pass.parameters ++
  pathField "InputPath" pass.inputPath ++ resultField pass.resultPath ++
  pathField "OutputPath" pass.outputPath ++ pass.transition.toFields

def Task.toFields (task : Task) : List (String × Json) :=
  [("Resource", .string task.resource)] ++
  optionalField "Parameters" Data.toJson task.parameters ++
  pathField "InputPath" task.inputPath ++ resultField task.resultPath ++
  pathField "OutputPath" task.outputPath ++ catchField task.catchers ++ task.transition.toFields

def Choice.toFields (choice : Choice) : List (String × Json) :=
  [("Choices", .array [.object (choice.condition.toFields ++ [("Next", .string choice.next)])]),
    ("Default", .string choice.otherwise)]

def Delay.toField : Delay → String × Json
  | .seconds n => ("Seconds", .nat n)
  | .secondsAt path => ("SecondsPath", .string path.text)
  | .timestamp text => ("Timestamp", .string text)
  | .timestampAt path => ("TimestampPath", .string path.text)

def FailureText.given? : FailureText → Option String
  | .given text => some text
  | .computed _ => none

def FailureText.computed? : FailureText → Option Operand
  | .given _ => none
  | .computed operand => some operand

def failureFields (error cause : FailureText) : List (String × Json) :=
  optionalField "Error" Json.string error.given? ++
  optionalField "Cause" Json.string cause.given? ++
  optionalField "ErrorPath" (fun o => .string o.render) error.computed? ++
  optionalField "CausePath" (fun o => .string o.render) cause.computed?

mutual

def State.toJson : State → Json
  | .pass p => .object (typeField "Pass" ++ p.toFields)
  | .task t => .object (typeField "Task" ++ t.toFields)
  | .choice c => .object (typeField "Choice" ++ c.toFields)
  | .wait delay transition =>
    .object (typeField "Wait" ++ delay.toField :: transition.toFields)
  | .map header iterator =>
    .object (typeField "Map" ++ [("ItemsPath", .string header.itemsPath.text),
      ("Parameters", header.parameters.toJson), ("Iterator", Graph.toJson iterator)] ++
      optionalField "MaxConcurrency" .nat header.maxConcurrency ++
      resultField header.resultPath ++ catchField header.catchers ++ header.transition.toFields)
  | .parallel header branches =>
    .object (typeField "Parallel" ++ [("Branches", .array (Graph.toJsonAll branches))] ++
      resultField header.resultPath ++ catchField header.catchers ++ header.transition.toFields)
  | .succeed => .object (typeField "Succeed")
  | .fail error cause => .object (typeField "Fail" ++ failureFields error cause)
termination_by structural s => s

def Graph.toJson : Graph State → Json
  | ⟨startAt, states⟩ =>
    .object [("StartAt", .string startAt), ("States", .object (State.entriesToJson states))]
termination_by structural g => g

def Graph.toJsonAll : List (Graph State) → List Json
  | [] => []
  | g :: rest => Graph.toJson g :: Graph.toJsonAll rest
termination_by structural gs => gs

def State.entriesToJson : List (String × State) → List (String × Json)
  | [] => []
  | (name, s) :: rest => (name, State.toJson s) :: State.entriesToJson rest
termination_by structural ss => ss

end

end Machine

end ServiceFlow
