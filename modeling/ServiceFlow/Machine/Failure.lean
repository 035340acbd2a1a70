import ServiceFlow.Machine.Emit

/-!
# Errors

A thrown error goes to the handler that control flow finds for it, or fails the machine. A finally
block keeps the error that made it run in a slot, and raises it again at its end.
-/

namespace ServiceFlow.Machine

/-- An error that is raised: the one of a throw statement, or the pending one of a finally block. -/
inductive Raised where
  | thrown (error : String) (cause : Data)
  | pending (slot : Path)

def thrownError (program : Program) (t : Term) : Except CompileError Raised := do
  match t.awaited with
  | .mk _ (.newExpr callee arguments) =>
    let error := match callee.node with
      | .identifier name => name
      | _ => "Error"
    match arguments with
    | [] => pure (.thrown error (.literal (.string "")))
    | message :: _ => pure (.thrown error (← data program message))
  | expression => pure (.thrown "Error" (← data program expression))

def failureText (t : Term) : Data → Except CompileError FailureText
  | .literal (.string s) => .ok (.given s)
  | .literal (.number n) => .ok (.given n.text)
  | .literal (.bool b) => .ok (.given (if b then "true" else "false"))
  | .literal .null => .ok (.given "null")
  | .path path => .ok (.computed (.path path))
  | .call function arguments => .ok (.computed (.call function arguments))
  | .literal (.array _) | .literal (.object _) | .object _ => refuse t .thrownValue

def failure (t : Term) : Raised → Except CompileError State
  | .thrown error cause => do pure (.fail (.given error) (← failureText t cause))
  | .pending slot =>
    .ok (.fail (.computed (.path (slot.field "Error"))) (.computed (.path (slot.field "Cause"))))

def handOn (path : Option Path) (raised : Raised) (transition : Transition) : State :=
  match path, raised with
  | none, _ => .pass { transition }
  | some path, .pending slot => assignment path { inputPath := some slot, transition }
  | some path, .thrown error cause =>
    let document := cause.insertInto "Cause" ((Data.literal (.string error)).insertInto "Error" [])
    assignment path { parameters := some (.object document), transition }

/-- Make the state that hands an error raised at a node to its handler, or fails the machine if
there is none. A pending error that is handed on is cleared from its slot. -/
def deliver (f : Forest) (name : String) (t : Term) (handler : Option NodeId) (raised : Raised) :
    Emit Unit := do
  match handler with
  | none => Emit.put name (← failure t raised)
  | some handler =>
    let path ← Emit.errorPath f handler
    let next ← Emit.require f t.tag (f.step? handler)
    match raised with
    | .thrown .. => Emit.put name (handOn path raised (.next next))
    | .pending slot =>
      let reset ← Emit.fresh (name ++ " reset")
      Emit.put reset (assignment slot { result := some .null, transition := .next next })
      Emit.put name (handOn path raised (.next reset))

def emitThrow (program : Program) (t expression : Term) : Emit Unit := do
  let f := program.forest
  let raised ← thrownError program expression
  let name ← Emit.entry t
  deliver f name t (f.raise? t.tag) raised

/-- The states at the end of a finally block: a choice that goes on if no error is pending, and the
state that raises the error again. -/
def emitRethrow (f : Forest) (t : Term) : Emit Unit := do
  match (← get).labels.finallies.lookup t.tag, finallyOwner? f t.tag with
  | some parts, some owner =>
    let slot := Path.ofVariable parts.slot
    let otherwise ← Emit.require f t.tag (f.exit? owner)
    let raise ← Emit.fresh (parts.rethrow ++ " raise")
    let condition := Condition.and [.test slot (.isPresent true), .test slot (.isNull false)]
    Emit.put parts.rethrow (.choice ⟨condition, raise, otherwise⟩)
    deliver f raise t (f.raise? t.tag) (.pending slot)
  | _, _ => pure ()

def emitReset (f : Forest) (t finalizer : Term) : Emit Unit := do
  match (← get).labels.resets.lookup t.tag with
  | none => pure ()
  | some reset =>
    let slot ← Emit.pendingSlot f finalizer.tag
    let transition ← Emit.moveTo f t.tag (f.step? t.tag)
    Emit.put reset (assignment slot { result := some .null, transition })

end ServiceFlow.Machine
