import ServiceFlow.Constant.Basic

/-!
# Texts of template expressions

Literals, names and references as they stand in a template.
-/

namespace ServiceFlow.Template

/-- A string in single quotes; a quote inside is doubled. -/
def quoted (value : String) : String :=
  "'" ++ String.ofList (value.toList.flatMap fun c => if c = '\'' then ['\'', '\''] else [c]) ++ "'"

def variableName (name : String) : String :=
  String.ofList (name.toList.map fun c => if c = '$' then '_' else c)

def null : String := "$null"

def literal : Constant → String
  | .undefined | .null => null
  | .bool b => if b then "true" else "false"
  | .number n => n.text
  | .string s | .handle s => quoted s
  | .array items => "[" ++ String.intercalate ", " (itemLiterals items) ++ "]"
  | .object entries => "\x7b" ++ String.intercalate ", " (entryLiterals entries) ++ "\x7d"
where
  itemLiterals : List Constant → List String
    | [] => []
    | item :: items => literal item :: itemLiterals items
  entryLiterals : List (String × Constant) → List String
    | [] => []
    | (key, value) :: entries => (quoted key ++ ": " ++ literal value) :: entryLiterals entries

def member (name : String) : String :=
  if name = "length" then ".size()"
  else if isIdentifierName name && !name.toList.contains '$' then "." ++ name
  else ".get(" ++ quoted name ++ ")"

/-- Text such as `$a.b.c`, without calls. -/
def isReferenceChain (text : String) : Bool :=
  match text.toList with
  | '$' :: rest => !rest.isEmpty && rest.all fun c => c.isAlphanum || c = '_' || c = '.'
  | _ => false

def parenthesize (text : String) : String :=
  if isReferenceChain text || text.toList.head? = some '(' then text else "(" ++ text ++ ")"

def formal (reference : String) : String :=
  "$\x7b" ++ String.ofList (reference.toList.drop 1) ++ "\x7d"

def isSafeFragment (text : String) : Bool :=
  text.toList.all fun c => c ≠ '"' && c ≠ '$' && c ≠ '#' && c ≠ '\\'

end ServiceFlow.Template
