import ServiceFlow.Json.Reader
import ServiceFlow.Machine.Compile
import ServiceFlow.Pipeline.Compile
import ServiceFlow.Syntax.Decode

/-!
# Documents

The resolvers and workflows of one interface. All are compiled against one namespace, resolvers
first, in the order of the document.
-/

namespace ServiceFlow

structure Document where
  registry : Registry
  resolvers : Ordered SyntaxTree
  workflows : Ordered SyntaxTree

structure Bundle where
  dataSources : List DataSource
  resolvers : List Pipeline
  workflows : List Workflow

def Bundle.toJson (bundle : Bundle) : Json :=
  .object [("dataSources", .array (bundle.dataSources.map DataSource.toJson)),
    ("resolvers", .array (bundle.resolvers.map Pipeline.toJson)),
    ("workflows", .array (bundle.workflows.map Workflow.toJson))]

def Bundle.text (bundle : Bundle) (pretty : Bool) : String :=
  if pretty then bundle.toJson.pretty else bundle.toJson.compact

namespace Document

def maxDepth : Nat := 127

def ofJson? : Json → Option Document
  | .object entries => do
    let registry ← Json.registry? Json.innerWord? entries
    let trees := Json.defaulted [] (Json.ordered? Tree.ofJson?)
    let resolvers ← trees (← Json.field? entries "resolvers")
    let workflows ← trees (← Json.field? entries "workflows")
    pure ⟨registry, resolvers, workflows⟩
  | _ => none

def ofText? (text : String) : Option Document :=
  (Json.parse text).bind fun json => if json.depth ≤ maxDepth then ofJson? json else none

def program (document : Document) (settings : Settings) (name : String) (tree : SyntaxTree) :
    Except CompileError Program :=
  match Forest.ofTree tree with
  | .error e => .error (.node e)
  | .ok (root, forest) =>
    .ok ⟨name, forest, root, document.registry, document.registry.references, settings⟩

def compileEach {α : Type} (document : Document) (settings : Settings)
    (compile : Program → Allocate α) : Ordered SyntaxTree → Allocate (List α)
  | [] => pure []
  | (name, tree) :: rest => do
    let program ← Allocate.ofExcept (document.program settings name tree)
    let first ← compile program
    let others ← compileEach document settings compile rest
    pure (first :: others)

def compileAll (document : Document) (settings : Settings) : Allocate Bundle := do
  let resolvers ← document.compileEach settings Pipeline.compile document.resolvers
  let workflows ← document.compileEach settings Machine.compile document.workflows
  pure ⟨(← get).dataSources, resolvers, workflows⟩

def compile (document : Document) (settings : Settings) : Except CompileError Bundle :=
  ((document.compileAll settings).run.run .empty).1

end Document

end ServiceFlow
