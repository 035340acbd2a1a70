/-!
# Lines of a mapping template

A template is a list of lines. Directives that open a block are closed by an end line, and the lines
between are nested one level deeper.
-/

namespace ServiceFlow.Template

inductive Directive where
  | openIf (condition : String)
  | elseIf (condition : String)
  | openElse
  | forEach (binder source : String)
  | close
  | assign (binder value : String)
  | stash (slot value : String)
  | yield (value : String)
  | leave
  | run (value : String)
  | text (content : String)
deriving DecidableEq, Repr

def runText (value : String) : String := "$util.qr(" ++ value ++ ")"

def Directive.render : Directive → String
  | .openIf condition => "#if(" ++ condition ++ ")"
  | .elseIf condition => "#elseif(" ++ condition ++ ")"
  | .openElse => "#else"
  | .forEach binder source => "#foreach(" ++ binder ++ " in " ++ source ++ ")"
  | .close => "#end"
  | .assign binder value => "#set(" ++ binder ++ " = " ++ value ++ ")"
  | .stash slot value => runText ("$context.stash.put('" ++ slot ++ "', " ++ value ++ ")")
  | .yield value => "#return(" ++ value ++ ")"
  | .leave => "#break"
  | .run value => runText value
  | .text content => content

structure Line where
  depth : Nat
  directive : Directive
deriving DecidableEq, Repr

def line (directive : Directive) : Line := ⟨0, directive⟩

def textLine (text : String) : Line := line (.text text)

def nest (lines : List Line) : List Line := lines.map fun l => { l with depth := l.depth + 1 }

def Line.render (l : Line) : String :=
  String.ofList (List.replicate (2 * l.depth) ' ') ++ l.directive.render

def render (lines : List Line) : String := String.intercalate "\n" (lines.map Line.render)

def ifBlock (condition : String) (body : List Line) : List Line :=
  line (.openIf condition) :: nest body ++ [line .close]

end ServiceFlow.Template
