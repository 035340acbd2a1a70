import ServiceFlow.Machine.Emit
import ServiceFlow.Proofs.StateDocuments

/-!
# What states do

A state that completes takes a document to another one and tells which state is next. What tasks,
maps and parallel states give back is left open.
-/

namespace ServiceFlow.Machine

section Writing

variable {value d d' : Json} {key name : String} {segments : List Segment}

/-- An entry set in an object. -/
def setEntry (key : String) (value : Json) (entries : List (String × Json)) :
    List (String × Json) :=
  entries.filter (fun entry => entry.1 != key) ++ [(key, value)]

/-- Put a value where segments lead to. Objects that are missing on the way are made. -/
def replace? (value : Json) : List Segment → Option Json → Option Json
  | [], _ => some value
  | .key name :: rest, none =>
    (replace? value rest none).map fun inner => .object [(name, inner)]
  | .key name :: rest, some (.object entries) =>
    (replace? value rest (Json.lookup? name entries)).map fun inner =>
      .object (setEntry name inner entries)
  | .index n :: rest, some (.array items) =>
    items[n]?.bind fun item =>
      (replace? value rest (some item)).map fun inner => .array (items.set n inner)
  | _, _ => none

/-- The document with a value at a path. -/
def Path.write? (document : Json) (path : Path) (value : Json) : Option Json :=
  if path.rest then none
  else
    match path.origin with
    | .document => replace? value path.segments (some document)
    | .variable name => replace? value (.key name :: path.segments) (some document)
    | .item | .itemIndex => none

lemma lookup?_setEntry (key name : String) (value : Json) (entries : List (String × Json)) :
    Json.lookup? key (setEntry name value entries) =
      if name = key then some value else Json.lookup? key entries := by
  simp only [Json.lookup?, setEntry, List.foldl_append, List.foldl_cons, List.foldl_nil]
  split_ifs with hname
  · rfl
  · rw [List.foldl_filter]
    refine congrArg (fun f => List.foldl f none entries) ?_
    funext found entry
    by_cases hentry : entry.1 = name
    · simp [hentry, hname]
    · simp [hentry]

lemma replace?_key_eq_some (h : replace? value (.key name :: segments) (some d) = some d') :
    ∃ entries inner, d = .object entries ∧
      replace? value segments (Json.lookup? name entries) = some inner ∧
      d' = .object (setEntry name inner entries) := by
  cases d with
  | object entries =>
    obtain ⟨inner, hinner, rfl⟩ := Option.map_eq_some_iff.mp h
    exact ⟨entries, inner, rfl, hinner, rfl⟩
  | _ => cases h

lemma follow?_of_replace? {target : Option Json} (h : replace? value segments target = some d') :
    follow? segments d' = some value := by
  induction segments generalizing target d' with
  | nil =>
    cases h
    rfl
  | cons segment rest ih =>
    cases segment with
    | key name =>
      cases target with
      | none =>
        obtain ⟨inner, hinner, rfl⟩ := Option.map_eq_some_iff.mp h
        simpa [follow?, select?, Json.lookup?] using ih hinner
      | some d =>
        obtain ⟨entries, inner, rfl, hinner, rfl⟩ := replace?_key_eq_some h
        simpa [follow?, select?, lookup?_setEntry] using ih hinner
    | index n =>
      rcases target with - | d
      · cases h
      · cases d with
        | array items =>
          obtain ⟨item, hitem, h⟩ := Option.bind_eq_some_iff.mp h
          obtain ⟨inner, hinner, rfl⟩ := Option.map_eq_some_iff.mp h
          obtain ⟨hn, -⟩ := List.getElem?_eq_some_iff.mp hitem
          simpa [follow?, select?, hn] using ih hinner
        | _ => cases h

lemma exists_replace? {old : Json} (value : Json) (h : follow? segments d = some old) :
    ∃ d', replace? value segments (some d) = some d' := by
  induction segments generalizing d with
  | nil => exact ⟨value, rfl⟩
  | cons segment rest ih =>
    obtain ⟨inner, hinner, h⟩ := Option.bind_eq_some_iff.mp h
    obtain ⟨d', hd'⟩ := ih h
    cases segment with
    | key name =>
      cases d with
      | object entries =>
        have hlookup : Json.lookup? name entries = some inner := hinner
        exact ⟨.object (setEntry name d' entries), by simp [replace?, hlookup, hd']⟩
      | _ => cases hinner
    | index n =>
      cases d with
      | array items =>
        have hitem : items[n]? = some inner := hinner
        exact ⟨.array (items.set n d'), by simp [replace?, hitem, hd']⟩
      | _ => cases hinner

lemma select?_of_replace? (h : replace? value (.key name :: segments) (some d) = some d')
    (hne : key ≠ name) : select? (.key key) d' = select? (.key key) d := by
  obtain ⟨entries, inner, rfl, -, rfl⟩ := replace?_key_eq_some h
  simp only [select?, lookup?_setEntry]
  exact if_neg (Ne.symm hne)

end Writing

/-- The functions that states call. All but the one that makes a list are left open. -/
structure Builtins where
  result? : Function → List Json → Option Json
  array : ∀ items, result? .array items = some (.array items)

def Builtins.lists : Builtins where
  result? function items := if function = .array then some (.array items) else none
  array := fun _ => rfl

section Values

variable (builtins : Builtins) (document : Json)

mutual

def Operand.value? : Operand → Option Json
  | .text content => some (.string content)
  | .number n => some (.number n)
  | .bool b => some (.bool b)
  | .null => some .null
  | .path p => p.read? document
  | .call function arguments => (Operand.values? arguments).bind (builtins.result? function)
termination_by structural o => o

def Operand.values? : List Operand → Option (List Json)
  | [] => some []
  | o :: rest => (Operand.value? o).bind fun value => (Operand.values? rest).map (value :: ·)
termination_by structural os => os

end

def Data.fieldName (key : String) : Data → String
  | .literal _ | .object _ => key
  | .path _ | .call .. => String.ofList key.toList.dropLast.dropLast

lemma Data.fieldName_writtenKey (key : String) (data : Data) :
    data.fieldName (data.writtenKey key) = key := by
  cases data <;> simp [fieldName, writtenKey]

mutual

/-- The value of data in a document. -/
def Data.value? : Data → Option Json
  | .literal value => some value
  | .path p => p.read? document
  | .object fields => (Data.fields? fields).map .object
  | .call function arguments =>
    (Operand.values? builtins document arguments).bind (builtins.result? function)
termination_by structural d => d

def Data.fields? : List (String × Data) → Option (List (String × Json))
  | [] => some []
  | (key, data) :: rest =>
    (Data.value? data).bind fun value =>
      (Data.fields? rest).map ((data.fieldName key, value) :: ·)
termination_by structural fields => fields

end

lemma Data.value?_single (key : String) (data : Data) :
    (Data.single key data).value? builtins document =
      (data.value? builtins document).map fun value => .object [(key, value)] := by
  rw [Data.single, Data.insertInto, Sorted.insert, Data.value?, Data.fields?, Data.fields?,
    Data.fieldName_writtenKey]
  cases data.value? builtins document <;> rfl

end Values

/-- Put the output of a state into its document, and select from it. Without a place for the output
it replaces the document. -/
def settle? (resultPath : Option ResultPath) (outputPath : Option Path) (document output : Json) :
    Option Json :=
  let placed := match resultPath with
    | none => some output
    | some .discard => some document
    | some (.path path) => path.write? document output
  match outputPath with
  | none => placed
  | some path => placed.bind fun d => path.read? d

/-- The output of a pass state. -/
def Pass.output? (builtins : Builtins) (document : Json) (pass : Pass) : Option Json :=
  let input := match pass.inputPath with
    | none => some document
    | some path => path.read? document
  let computed := match pass.result, pass.parameters with
    | some value, _ => some value
    | none, some data => input.bind fun d => data.value? builtins d
    | none, none => input
  computed.bind (settle? pass.resultPath pass.outputPath document)

/-- A state that completes without an error, the document it is given and the one it gives on. -/
inductive State.Completes (builtins : Builtins) (order : TextOrder) (document : Json) :
    State → Option String → Json → Prop where
  | pass {pass d} (h : pass.output? builtins document = some d) :
    Completes builtins order document (.pass pass) pass.transition.next? d
  | choice {choice holds} (h : choice.condition.eval? order document = some holds) :
    Completes builtins order document (.choice choice)
      (some (if holds then choice.next else choice.otherwise)) document
  | task {task d} (output : Json)
    (h : settle? task.resultPath task.outputPath document output = some d) :
    Completes builtins order document (.task task) task.transition.next? d
  | wait {delay transition} :
    Completes builtins order document (.wait delay transition) transition.next? document
  | map {header iterator d} (output : Json)
    (h : settle? header.resultPath none document output = some d) :
    Completes builtins order document (.map header iterator) header.transition.next? d
  | parallel {header branches d} (output : Json)
    (h : settle? header.resultPath none document output = some d) :
    Completes builtins order document (.parallel header branches) header.transition.next? d
  | succeed : Completes builtins order document .succeed none document

/-- A step of the machine. -/
def Graph.Steps (machine : Machine) (builtins : Builtins) (order : TextOrder) (name : String)
    (d : Json) (next : Option String) (d' : Json) : Prop :=
  ∃ s, (name, s) ∈ machine.states ∧ s.Completes builtins order d next d'

def State.WritesOnly (name : String) (s : State) : Prop :=
  ∀ builtins order d next d', s.Completes builtins order d next d' → ∀ key, key ≠ name →
    select? (.key key) d' = select? (.key key) d

section WritesOnly

variable {name : String}

lemma select?_of_settle? {resultPath : Option ResultPath} {document output d : Json}
    (hresult : ∀ path, resultPath = some (.path path) → path.origin = .variable name)
    (hplace : resultPath ≠ none) (h : settle? resultPath none document output = some d)
    {key : String} (hne : key ≠ name) : select? (.key key) d = select? (.key key) document := by
  rcases resultPath with - | path | -
  · exact absurd rfl hplace
  · have hwrite : path.write? document output = some d := h
    rw [Path.write?, hresult path rfl] at hwrite
    split_ifs at hwrite
    exact select?_of_replace? hwrite hne
  · cases h
    rfl

lemma writesOnly_assignment {path : Path} (hpath : path.origin = .variable name) {pass : Pass}
    (houtput : pass.outputPath = none) : (assignment path pass).WritesOnly name := by
  intro builtins order d next d' hcompletes key hne
  cases hcompletes with
  | pass h =>
    obtain ⟨output, -, hsettle⟩ := Option.bind_eq_some_iff.mp h
    rw [houtput] at hsettle
    refine select?_of_settle? ?_ (by simp) hsettle hne
    intro path' heq
    cases heq
    exact hpath

lemma writesOnly_choice (name : String) (choice : Choice) :
    (State.choice choice).WritesOnly name := by
  intro builtins order d next d' hcompletes key _
  cases hcompletes
  rfl

end WritesOnly

end ServiceFlow.Machine
