import ServiceFlow.Json.Value

/-!
# Pipelines

A pipeline runs stages in order, each a request and a response template around a call of a backend,
and ends in a response template of its own.
-/

namespace ServiceFlow

structure Stage where
  name : String
  dataSource : Option String
  requestTemplate : String
  responseTemplate : String
deriving DecidableEq, Repr

structure Pipeline where
  name : String
  requestTemplate : String
  responseTemplate : String
  stages : List Stage
deriving DecidableEq, Repr

def Stage.toJson (stage : Stage) : Json :=
  .object [("name", .string stage.name),
    ("dataSource", match stage.dataSource with
      | some name => .string name
      | none => .null),
    ("requestTemplate", .string stage.requestTemplate),
    ("responseTemplate", .string stage.responseTemplate)]

def Pipeline.toJson (pipeline : Pipeline) : Json :=
  .object [("name", .string pipeline.name),
    ("requestTemplate", .string pipeline.requestTemplate),
    ("responseTemplate", .string pipeline.responseTemplate),
    ("stages", .array (pipeline.stages.map Stage.toJson))]

end ServiceFlow
