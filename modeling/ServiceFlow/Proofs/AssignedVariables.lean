import ServiceFlow.Proofs.StateForms
import ServiceFlow.Proofs.StateSteps

/-!
# States of assignments

The states that are made for the declaration of a variable change no other variable.
-/

namespace ServiceFlow.Machine

section Assignment

variable {name : String}

lemma writesOnly_succeed (name : String) : State.succeed.WritesOnly name := by
  intro builtins order d next d' hcompletes key _
  cases hcompletes
  rfl

lemma writesOnly_wait (delay : Delay) (transition : Transition) :
    (State.wait delay transition).WritesOnly name := by
  intro builtins order d next d' hcompletes key _
  cases hcompletes
  rfl

lemma PlacesAt.select? {resultPath : Option ResultPath} (h : PlacesAt name resultPath)
    {document output d : Json} (hsettle : settle? resultPath none document output = some d)
    {key : String} (hne : key ≠ name) : select? (.key key) d = select? (.key key) document := by
  refine select?_of_settle? ?_ ?_ hsettle hne
  · intro path hpath
    rcases h with rfl | rfl
    · cases hpath
    · cases hpath
      rfl
  · rcases h with rfl | rfl <;> simp

lemma writesOnly_task {task : Task} (hresult : PlacesAt name task.resultPath)
    (houtput : task.outputPath = none) : (State.task task).WritesOnly name := by
  intro builtins order d next d' hcompletes key hne
  cases hcompletes with
  | task output h => exact hresult.select? (houtput ▸ h) hne

lemma writesOnly_map {header : MapHeader} (hresult : PlacesAt name header.resultPath)
    (iterator : Machine) : (State.map header iterator).WritesOnly name := by
  intro builtins order d next d' hcompletes key hne
  cases hcompletes with
  | map output h => exact hresult.select? h hne

lemma writesOnly_parallel {header : ParallelHeader} (hresult : PlacesAt name header.resultPath)
    (branches : List Machine) : (State.parallel header branches).WritesOnly name := by
  intro builtins order d next d' hcompletes key hne
  cases hcompletes with
  | parallel output h => exact hresult.select? h hne

lemma outputPath_passOf (transition : Transition) (data : Data) :
    (passOf transition data).outputPath = none := by
  cases data <;> rfl

/-- The states of a value that is assigned to a variable write only that variable. -/
theorem ValueForm.writesOnly {program : Program} {nested : Nested} {t expression : Term}
    {labels : Labels} {s : State}
    (h : ValueForm program nested t expression (.bind name) labels s) : s.WritesOnly name := by
  cases h with
  | succeed => exact writesOnly_succeed name
  | discarded huse | returned hvalue huse => cases huse
  | bound hvalue huse =>
    cases huse
    exact writesOnly_assignment rfl (outputPath_passOf ..)
  | member huse =>
    cases huse
    exact writesOnly_assignment rfl rfl
  | task hsite hbase hrequest hplace =>
    obtain ⟨hresult, houtput⟩ := hplace name rfl
    have hbare := congrArg Task.outputPath (taskOf_eq_ok hbase).1
    exact writesOnly_task hresult (houtput.trans hbare.symm)
  | wait => exact writesOnly_wait _ _
  | map hi hintrinsic harguments hitems hfunction hnames hlength hmachine hparameters hplace =>
    exact writesOnly_map (hplace name rfl) _
  | parallel hplace => exact writesOnly_parallel (hplace name rfl) _

end Assignment

end ServiceFlow.Machine
