import ServiceFlow.Constant.Basic
import ServiceFlow.Forest.Basic

/-!
# Constants as nodes

The literal form of a value, added to a forest. In an object, a value is added before its key.
-/

namespace ServiceFlow.Constant

def insert : Constant → Build NodeId
  | .undefined => Build.add .undefinedLiteral
  | .null => Build.add .nullLiteral
  | .bool b => Build.add (.booleanLiteral b)
  | .number n => Build.add (.numberLiteral n)
  | .string s | .handle s => Build.add (.stringLiteral s)
  | .array items => do Build.add (.arrayLiteral (← insertItems items))
  | .object entries => do Build.add (.objectLiteral (← insertEntries entries))
where
  insertItems : List Constant → Build (List NodeId)
    | [] => pure []
    | item :: items => do
      let id ← insert item
      pure (id :: (← insertItems items))
  insertEntries : List (String × Constant) → Build (List NodeId)
    | [] => pure []
    | (key, value) :: entries => do
      let value ← insert value
      let name ← Build.add (keyNode key)
      let property ← Build.add (.propertyAssignment name value)
      pure (property :: (← insertEntries entries))

end ServiceFlow.Constant
