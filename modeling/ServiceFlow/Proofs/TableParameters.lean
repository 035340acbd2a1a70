import ServiceFlow.Proofs.CallAccounting

/-!
# Parameters of table calls

The task of a call on a table keeps its parameters apart exactly if no argument is written to the
name of the table and no two keys are written to one parameter.
-/

namespace ServiceFlow.Machine

open List

open Ordered (get? keys)

def argumentProperties (call : ServiceCall) : List Term :=
  match call.arguments with
  | .mk _ (.objectLiteral properties) :: _ => properties
  | _ => []

/-- The table of a call. -/
def callTable (call : ServiceCall) : Data := .literal (.string call.resource.identifier)

/-- A field as a parameter of the task. -/
def parameter (field : String × Data) : String × Data := (capitalize field.1, field.2)

def parameterName (program : Program) (a : String × Term) : String :=
  capitalize (if computed program a.2 then a.1 ++ ".$" else a.1)

def lastArgument? (program : Program) (properties : List Term) (name : String) :
    Option (String × Term) :=
  (assignments properties).reverse.find? fun a => parameterName program a = name

/-- What the fields of an argument are written to a parameter as. The fields are written in the
order of their keys, and the last one stays. -/
def given? (name : String) (fields : Sorted Data) : Option Data :=
  get? name (fields.map parameter).reverse

/-- A task addresses the table of its call, and each other parameter is that of one key of the
argument, with the last value of the key. -/
structure OwnTable (program : Program) (call : ServiceCall) (parameters : Sorted Data) : Prop where
  table : get? "TableName" parameters = some (callTable call)
  unmarked : get? "TableName.$" parameters = none
  owner : ∀ name d, get? name parameters = some d → name ≠ "TableName" →
    ∃ a, lastArgument? program (argumentProperties call) name = some a ∧
      data program a.2 = .ok d ∧
      ∀ b ∈ assignments (argumentProperties call), parameterName program b = name → b.1 = a.1

section Parameters

variable {program : Program} {call : ServiceCall} {properties : List Term} {fields : Sorted Data}
  {value : Term → Data}

lemma get?_eq_find? {β : Type} (key : String) (m : Ordered β) :
    get? key m = (m.find? fun entry => entry.1 = key).map Prod.snd := by
  induction m with
  | nil => rfl
  | cons entry m ih =>
    rw [get?, find?_cons]
    by_cases h : entry.1 = key
    · simp [h]
    · simp [h, ih]

lemma capitalize_mark_ne (key : String) : capitalize (key ++ ".$") ≠ capitalize key := by
  intro h
  have hlist := congrArg String.toList h
  rw [capitalize, capitalize, String.toList_append] at hlist
  cases hkey : key.toList with
  | nil =>
    rw [hkey] at hlist
    simp at hlist
  | cons c rest =>
    rw [hkey] at hlist
    have := congrArg length hlist
    simp at this

variable (hdata : ∀ a ∈ assignments properties, data program a.2 = .ok (value a.2))
  {a : String × Term} {name : String} {d : Data}

include hdata

lemma parameterName_eq (ha : a ∈ assignments properties) :
    parameterName program a = capitalize ((value a.2).writtenKey a.1) := by
  rw [parameterName, computed_of_data (hdata a ha)]
  cases hform : (value a.2).isComputed with
  | true => rw [writtenKey_of_isComputed hform, if_pos rfl]
  | false => rw [writtenKey_of_not_isComputed hform, if_neg Bool.false_ne_true]

lemma exists_given?_of_mem (ha : a ∈ assignments properties) :
    ∃ d, given? (parameterName program a)
      (Sorted.ofEntries ((lowered value properties).map written)) = some d := by
  apply Ordered.exists_get?_of_mem_keys
  have hmem : (a.1, value a.2) ∈ lowered value properties := mem_map_of_mem ha
  have hkey :
      (written (a.1, value a.2)).1 ∈ keys ((lowered value properties).reverse.map written) :=
    mem_map_of_mem (mem_map_of_mem (mem_reverse.mpr hmem))
  obtain ⟨d, hd⟩ := Ordered.exists_get?_of_mem_keys hkey
  rw [← get?_fields] at hd
  refine mem_map.mpr ⟨parameter (_, d), mem_reverse.mpr
    (mem_map_of_mem (Ordered.mem_of_get? hd)), ?_⟩
  rw [parameterName_eq hdata ha]
  rfl

lemma exists_find?_of_given?
    (h : given? name (Sorted.ofEntries ((lowered value properties).map written)) = some d) :
    ∃ a ∈ assignments properties, value a.2 = d ∧ parameterName program a = name ∧
      (assignments properties).reverse.find? (fun b => decide ((value b.2).writtenKey b.1 =
        (value a.2).writtenKey a.1)) = some a := by
  obtain ⟨field, hfield, heq⟩ := mem_map.mp (mem_reverse.mp (Ordered.mem_of_get? h))
  have hget := (Ordered.get?_eq_some_iff (Sorted.strict_ofEntries _).nodup_keys).mpr hfield
  rw [get?_fields, lowered, ← map_reverse, map_map, get?_eq_find?, find?_map,
    Option.map_map] at hget
  obtain ⟨a, hfind, hvalue⟩ := Option.map_eq_some_iff.mp hget
  have ha : a ∈ assignments properties := mem_reverse.mp (mem_of_find?_eq_some hfind)
  have hfound := find?_some hfind
  have hkey : (value a.2).writtenKey a.1 = field.1 := of_decide_eq_true hfound
  cases heq
  refine ⟨a, ha, hvalue, by rw [parameterName_eq hdata ha, hkey], ?_⟩
  rw [hkey]
  exact hfind

lemma exists_lastArgument?
    (h : given? name (Sorted.ofEntries ((lowered value properties).map written)) = some d)
    (hkeys : ∀ a ∈ assignments properties, ∀ b ∈ assignments properties,
      parameterName program a = name → parameterName program b = name → a.1 = b.1) :
    ∃ a, lastArgument? program properties name = some a ∧ data program a.2 = .ok d ∧
      ∀ b ∈ assignments properties, parameterName program b = name → b.1 = a.1 := by
  obtain ⟨a, ha, rfl, rfl, hfind⟩ := exists_find?_of_given? hdata h
  -- the assignments to the parameter are those to the field, as they have one key
  have hsame : ∀ b ∈ assignments properties, parameterName program b = parameterName program a ↔
      (value b.2).writtenKey b.1 = (value a.2).writtenKey a.1 := by
    intro b hb
    refine ⟨fun hb' => ?_, fun hb' => by
      rw [parameterName_eq hdata hb, parameterName_eq hdata ha, hb']⟩
    have hone := hkeys b hb a ha hb' rfl
    rw [parameterName_eq hdata hb, parameterName_eq hdata ha, hone] at hb'
    rw [hone]
    cases hform : (value a.2).isComputed <;> cases hform' : (value b.2).isComputed
    · rw [writtenKey_of_not_isComputed hform, writtenKey_of_not_isComputed hform']
    · rw [writtenKey_of_not_isComputed hform, writtenKey_of_isComputed hform'] at hb'
      exact absurd hb' (capitalize_mark_ne _)
    · rw [writtenKey_of_isComputed hform, writtenKey_of_not_isComputed hform'] at hb'
      exact absurd hb'.symm (capitalize_mark_ne _)
    · rw [writtenKey_of_isComputed hform, writtenKey_of_isComputed hform']
  refine ⟨a, ?_, hdata a ha, fun b hb hb' => hkeys b hb a ha hb' rfl⟩
  rw [lastArgument?, ← hfind, ← head?_filter, ← head?_filter]
  refine congrArg head? (filter_congr fun b hb => ?_)
  exact decide_eq_decide.mpr (hsame b (mem_reverse.mp hb))

end Parameters

section Tasks

variable {program : Program} {call : ServiceCall} {fields : Sorted Data}

/-- The parameters of a task on a table. -/
def tableParameters (call : ServiceCall) (fields : Sorted Data) : Sorted Data :=
  Sorted.insertAll ((callTable call).insertInto "TableName" []) (fields.map parameter)

lemma get?_tableParameters (call : ServiceCall) (fields : Sorted Data) (name : String) :
    get? name (tableParameters call fields) =
      (given? name fields).or (if "TableName" = name then some (callTable call) else none) :=
  Sorted.get?_insertAll ..

lemma keyValueTask_eq_ok {op : KeyValueOp} {task : Task}
    (h : keyValueTask program call op = .ok task) :
    ∃ fields, fieldsData program [] (argumentProperties call) = .ok fields ∧
      task.parameters = some (.object (tableParameters call fields)) := by
  obtain ⟨fields, hfields, h⟩ := bind_eq_ok h
  cases h
  refine ⟨fields, ?_, rfl⟩
  unfold keyValueData at hfields
  rw [argumentProperties]
  split at hfields
  · rename_i harguments
    rw [harguments]
    exact hfields
  · rename_i harguments
    rw [harguments]
    exact hfields
  · cases hfields

/-- No argument is written to the name of the table, with a mark or with another value, and no two
keys are written to one parameter. -/
structure Apart (program : Program) (call : ServiceCall) (fields : Sorted Data) : Prop where
  table : ∀ d, given? "TableName" fields = some d → d = callTable call
  unmarked : ∀ a ∈ assignments (argumentProperties call), parameterName program a ≠ "TableName.$"
  keys : ∀ a ∈ assignments (argumentProperties call), ∀ b ∈ assignments (argumentProperties call),
    parameterName program a = parameterName program b → parameterName program a ≠ "TableName" →
    a.1 = b.1

lemma ownTable_iff (h : fieldsData program [] (argumentProperties call) = .ok fields) :
    OwnTable program call (tableParameters call fields) ↔ Apart program call fields := by
  obtain ⟨value, hdata, rfl⟩ := exists_lowered h
  constructor
  · intro hown
    have hget : ∀ a ∈ assignments (argumentProperties call), ∃ d, get? (parameterName program a)
        (tableParameters call (Sorted.ofEntries
          ((lowered value (argumentProperties call)).map written))) = some d := by
      intro a ha
      obtain ⟨d, hd⟩ := exists_given?_of_mem hdata ha
      exact ⟨d, by rw [get?_tableParameters, hd, Option.some_or]⟩
    refine ⟨fun d hd => ?_, fun a ha hname => ?_, fun a ha b hb hname hne => ?_⟩
    · have htable := hown.table
      rw [get?_tableParameters, hd, Option.some_or] at htable
      exact Option.some.inj htable
    · obtain ⟨d, hd⟩ := hget a ha
      rw [hname, hown.unmarked] at hd
      cases hd
    · obtain ⟨d, hd⟩ := hget a ha
      obtain ⟨c, -, -, hc⟩ := hown.owner _ d hd hne
      rw [hc a ha rfl, hc b hb hname.symm]
  · intro hapart
    refine ⟨?_, ?_, fun name d hd hne => ?_⟩
    · rw [get?_tableParameters]
      cases hgiven : given? "TableName" (Sorted.ofEntries
          ((lowered value (argumentProperties call)).map written)) with
      | none => rfl
      | some d => rw [Option.some_or, hapart.table d hgiven]
    · rw [get?_tableParameters, if_neg (by decide), Option.or_none]
      refine Option.eq_none_iff_forall_ne_some.mpr fun d hd => ?_
      obtain ⟨a, ha, -, hname, -⟩ := exists_find?_of_given? hdata hd
      exact hapart.unmarked a ha hname
    · rw [get?_tableParameters, if_neg (Ne.symm hne), Option.or_none] at hd
      refine exists_lastArgument? hdata hd fun a ha b hb hname hname' => ?_
      exact hapart.keys a ha b hb (hname.trans hname'.symm) (hname ▸ hne)

def possibleNames (key : String) : List String := [capitalize key, capitalize (key ++ ".$")]

lemma apart_of_possibleNames (h : fieldsData program [] (argumentProperties call) = .ok fields)
    (hnames : ∀ a ∈ assignments (argumentProperties call), ∀ name ∈ possibleNames a.1,
      name ≠ "TableName" ∧ name ≠ "TableName.$")
    (hkeys : ∀ a ∈ assignments (argumentProperties call),
      ∀ b ∈ assignments (argumentProperties call), ∀ name ∈ possibleNames a.1,
        name ∈ possibleNames b.1 → a.1 = b.1) : Apart program call fields := by
  have hpossible : ∀ a : String × Term, parameterName program a ∈ possibleNames a.1 := fun a => by
    rw [parameterName, possibleNames]
    split_ifs <;> simp
  obtain ⟨value, hdata, rfl⟩ := exists_lowered h
  refine ⟨fun d hd => ?_, fun a ha => (hnames a ha _ (hpossible a)).2, fun a ha b hb hname _ => ?_⟩
  · obtain ⟨a, ha, -, hname, -⟩ := exists_find?_of_given? hdata hd
    exact absurd hname (hnames a ha _ (hpossible a)).1
  · exact hkeys a ha b hb _ (hpossible a) (hname ▸ hpossible b)

end Tasks

/-- Every task of a compiled machine is that of a call in the body of the function. If the call is
one on a table, then the task addresses this table and keeps the arguments apart exactly if no
argument is written to the name of the table and no two keys are written to one parameter. -/
theorem table_tasks_own_table {tree : SyntaxTree} {root : NodeId} {program : Program}
    (hf : Forest.ofTree tree = .ok (root, program.forest)) {before after : Namespace}
    {workflow : Workflow} (hc : (compile program).run.run before = (.ok workflow, after)) :
    ∃ t parameters body inner, program.term = .ok t ∧
      t.functionParts = .ok (parameters, body, inner) ∧
      ∀ task ∈ workflow.definition.tasks, ∃ call ∈ body.calls program.registry,
        taskOf program call = .ok task.request ∧ ∀ op, call.op = .keyValue op →
          ∃ fields parameters, fieldsData program [] (argumentProperties call) = .ok fields ∧
            task.parameters = some (.object parameters) ∧
            (OwnTable program call parameters ↔ Apart program call fields) := by
  obtain ⟨low, h⟩ := Forest.inOrder_ofTree hf
  obtain ⟨t, parameters, body, inner, hterm, hparts, -, m, hm, hb⟩ :=
    ofProgram_begins h (ofProgram_of_compile hc)
  obtain ⟨made, lost, hperm, hmade, -, -⟩ :=
    Making.accounts hm hb (accounted_nestedMachine h body.size)
  refine ⟨t, parameters, body, inner, hterm, hparts, fun task htask => ?_⟩
  have hrequest : Except.ok task.request ∈ made.map (taskOf program) := hmade ▸ mem_map_of_mem htask
  obtain ⟨call, hcall, htaskOf⟩ := mem_map.mp hrequest
  refine ⟨call, hperm.mem_iff.mpr (mem_append_left _ hcall), htaskOf, fun op hop => ?_⟩
  rw [taskOf, hop] at htaskOf
  obtain ⟨fields, hfields, hparameters⟩ := keyValueTask_eq_ok htaskOf
  exact ⟨fields, tableParameters call fields, hfields, hparameters, ownTable_iff hfields⟩

/-- `return table.getItem({ key: id, consistentRead: true })`. -/
def fetchRow : SyntaxTree :=
  .function [.ident "id"] [.give (.call (.member (.ref "table") "getItem")
    [.record [.entry (.identifier "key") (.ident "id"),
      .entry (.identifier "consistentRead") (.mk () (.booleanLiteral true))]])]

/-- The keys of the arguments of calls on a table, which are apart. -/
def fetches (call : ServiceCall) : Bool :=
  decide (call.op = .keyValue .getItem) &&
    decide ((assignments (argumentProperties call)).map Prod.fst = ["key", "consistentRead"])

theorem table_tasks_own_table_fetchRow : ∃ root f workflow after task call parameters,
    Forest.ofTree fetchRow = .ok (root, f) ∧
    (compile (notifier f root)).run.run .empty = (.ok workflow, after) ∧
    task ∈ workflow.definition.tasks ∧ taskOf (notifier f root) call = .ok task.request ∧
    task.parameters = some (.object parameters) ∧ OwnTable (notifier f root) call parameters := by
  obtain ⟨root, f, workflow, after, hforest, hc, hcheck⟩ :=
    exists_compiled compile notifier fetchRow (fun program workflow =>
      workflow.definition.tasks.length == 1 &&
      program.term.toOption.any fun t => t.functionParts.toOption.any fun parts =>
        (parts.2.1.calls program.registry).all fetches) (by decide +kernel)
  have hf : Forest.ofTree fetchRow = .ok (root, (notifier f root).forest) := hforest
  obtain ⟨t, parameters, body, inner, hterm, hparts, hall⟩ := table_tasks_own_table hf hc
  simp only [hterm, hparts, Except.toOption, Option.any_some, Bool.and_eq_true, beq_iff_eq,
    all_eq_true] at hcheck
  obtain ⟨htasks, hcalls⟩ := hcheck
  obtain ⟨task, htask⟩ := exists_mem_of_length_pos (Nat.lt_of_lt_of_eq Nat.one_pos htasks.symm)
  obtain ⟨call, hcall, htaskOf, htable⟩ := hall task htask
  have hfetches := hcalls call hcall
  rw [fetches, Bool.and_eq_true, decide_eq_true_iff, decide_eq_true_iff] at hfetches
  obtain ⟨hop, hkeys⟩ := hfetches
  obtain ⟨fields, parameters, hfields, hparameters, hiff⟩ := htable _ hop
  have hmem : ∀ a ∈ assignments (argumentProperties call), a.1 ∈ ["key", "consistentRead"] :=
    fun a ha => hkeys ▸ mem_map_of_mem ha
  refine ⟨root, f, workflow, after, task, call, parameters, hforest, hc, htask, htaskOf,
    hparameters, hiff.mpr (apart_of_possibleNames hfields (fun a ha => ?_) fun a ha b hb => ?_)⟩
  · have hnames : ∀ key ∈ ["key", "consistentRead"], ∀ name ∈ possibleNames key,
        name ≠ "TableName" ∧ name ≠ "TableName.$" := by decide +kernel
    exact hnames a.1 (hmem a ha)
  · have hapart : ∀ key ∈ ["key", "consistentRead"], ∀ key' ∈ ["key", "consistentRead"],
        ∀ name ∈ possibleNames key, name ∈ possibleNames key' → key = key' := by decide +kernel
    exact hapart a.1 (hmem a ha) b.1 (hmem b hb)

/-- What a call on the table of rows is written as, from the keys and the values of its argument. -/
def rowRequest (entries : List (String × Node Term)) : Option Json :=
  let properties := entries.map fun entry =>
    Tree.mk 1 (.propertyAssignment (.mk 2 (.stringLiteral entry.1)) (.mk 3 entry.2))
  (keyValueTask (notifier .empty 0) ⟨0, "table", ⟨.keyValueStore, "rows", false⟩,
    .keyValue .getItem, [.mk 4 (.objectLiteral properties)]⟩ .getItem).toOption.bind
      fun task => task.parameters.map Data.toJson

/-- An argument replaces the table, stands beside it, or replaces another argument. -/
theorem arguments_replace_parameters :
    rowRequest [("tableName", .stringLiteral "users")] =
      some (.object [("TableName", .string "users")]) ∧
    rowRequest [("tableName", .identifier "id")] =
      some (.object [("TableName", .string "rows"), ("TableName.$", .string "$.id")]) ∧
    rowRequest [("key", .stringLiteral "a"), ("Key", .stringLiteral "b")] =
      some (.object [("Key", .string "a"), ("TableName", .string "rows")]) :=
  ⟨rfl, rfl, rfl⟩

end ServiceFlow.Machine
