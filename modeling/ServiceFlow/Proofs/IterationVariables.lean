import ServiceFlow.Proofs.CallAccounting
import ServiceFlow.Proofs.StateReads

/-!
# Variables of iterations

Every variable that the states of an iteration read is assigned there, is a parameter, or is handed
over if it is in scope where the map is called.
-/

namespace ServiceFlow

open List

lemma Forest.Linked.mem_subtrees_of_inside {f : Forest} (h : f.Linked) {s t : Term} (hs : f.Shows s)
    (ht : f.Shows t) (hin : f.Inside s.tag t.tag) : s ∈ t.subtrees := by
  induction t using Tree.children_induction with
  | step tag n ih =>
    rcases hin with heq | hbelow
    · have hview : some s = some (.mk tag n) := hs.symm.trans (heq ▸ ht)
      exact Option.some.inj hview ▸ Tree.self_mem_subtrees _
    · obtain ⟨id, hparent, hin⟩ := h.inside_child_of_below hbelow
      obtain ⟨node, hn, hid⟩ := h.parent_iff.mp hparent
      cases (h.node?_of_shows ht).symm.trans hn
      rw [Node.children_map] at hid
      obtain ⟨c, hc, rfl⟩ := mem_map.mp hid
      exact Tree.mem_subtrees_of_child hc (ih c hc (h.shows_child ht hc).1 hin)

namespace Machine

open Forest
open Ordered (get? keys)

section Fields

variable {names parameters : List String} {items : Path} {x : String} {d : Data}

lemma get?_variableFields (x : String) (sources : List (String × Path)) :
    get? (x ++ ".$") (sources.map variableField) = (get? x sources).map Data.path := by
  induction sources with
  | nil => rfl
  | cons source sources ih =>
    rw [map_cons, get?, get?, ih, variableField]
    by_cases hx : source.1 = x
    · rw [if_pos hx, if_pos (by rw [hx]), Option.map_some]
    · rw [if_neg hx, if_neg fun heq => hx ((String.append_left_inj _).mp heq)]

lemma exists_name_of_mem_iterationFields {field : String × Data}
    (h : field ∈ iterationFields names parameters items) : ∃ x, field.1 = x ++ ".$" := by
  rw [iterationFields_eq] at h
  rcases Sorted.mem_insertAll h with hold | hfield
  · cases hold
  · obtain ⟨source, -, rfl⟩ := mem_map.mp hfield
    exact ⟨source.1, rfl⟩

lemma mem_iterationFields_iff :
    (x ++ ".$", d) ∈ iterationFields names parameters items ↔
      (get? x (iterationSources names parameters items).reverse).map Data.path = some d := by
  rw [iterationFields_eq,
    ← Ordered.get?_eq_some_iff (Sorted.strict_ofEntries _).nodup_keys, Sorted.get?_ofEntries,
    ← map_reverse, get?_variableFields]

lemma parameter_iterationFields (hlength : parameters.length ≤ 3) (hx : x ∈ parameters) :
    ∃ (i : Nat) (path : Path), parameters[i]? = some x ∧
      [Path.item, Path.itemIndex, items][i]? = some path ∧
      ∀ d, (x ++ ".$", d) ∈ iterationFields names parameters items ↔ d = .path path := by
  have hkey : x ∈ keys (parameters.zip [Path.item, Path.itemIndex, items]).reverse := by
    rw [Ordered.keys, map_reverse, mem_reverse, map_fst_zip (by simpa using hlength)]
    exact hx
  obtain ⟨path, hpath⟩ := Ordered.exists_get?_of_mem_keys hkey
  obtain ⟨i, hi⟩ := mem_iff_getElem?.mp (mem_reverse.mp (Ordered.mem_of_get? hpath))
  obtain ⟨hparameter, hsource⟩ := getElem?_zip_eq_some.mp hi
  refine ⟨i, path, hparameter, hsource, fun d => ?_⟩
  rw [mem_iterationFields_iff, iterationSources, reverse_append,
    Ordered.get?_append_some hpath, Option.map_some, Option.some.injEq, eq_comm]

lemma get?_captures (x : String) (names : List String) :
    get? x (names.map fun name => (name, Path.ofVariable name)) =
      if x ∈ names then some (.ofVariable x) else none := by
  induction names with
  | nil => rfl
  | cons name names ih =>
    rw [map_cons, get?, ih]
    by_cases hx : name = x
    · simp [hx]
    · simp [hx, Ne.symm hx]

lemma captured_iterationFields (hx : x ∉ parameters) :
    (x ++ ".$", d) ∈ iterationFields names parameters items ↔
      x ∈ names ∧ d = .path (.ofVariable x) := by
  have hnone : get? x (parameters.zip [Path.item, Path.itemIndex, items]).reverse = none := by
    refine Option.eq_none_iff_forall_ne_some.mpr fun path hget => hx ?_
    exact (of_mem_zip (mem_reverse.mp (Ordered.mem_of_get? hget))).1
  rw [mem_iterationFields_iff, iterationSources, reverse_append,
    Ordered.get?_append_none hnone, ← map_reverse, get?_captures]
  by_cases hname : x ∈ names
  · simp [hname, eq_comm]
  · simp [hname]

end Fields

/-- A map over items whose body has the parameters. -/
def Iterates (program : Program) (t : Term) (items : Path) (parameters : List String)
    (body : Term) : Prop :=
  ∃ expression use intrinsic node arguments source options function declared,
    t.usedExpression? = some (expression, use) ∧
    expression.intrinsic? = .ok (some (intrinsic, node, arguments)) ∧
    (intrinsic = .map ∨ intrinsic = .forEach) ∧
    mapArguments intrinsic node arguments = .ok (source, options, function) ∧
    data program source = .ok (.path items) ∧
    inlineFunction? function = some (declared, body) ∧ parameterNames declared = .ok parameters

variable {program : Program} {t : Term} {nested : Nested} {d d' : Draft} {body : Term}
  {items : Path} {parameters : List String} {name : String} {header : MapHeader}
  {iterator : Machine}

lemma Iterates.innerBody (h : Iterates program t items parameters body) (hl : program.forest.Linked)
    (ht : program.forest.Shows t) : InnerBody program.forest t.tag body := by
  obtain ⟨expression, use, intrinsic, node, arguments, source, options, function, declared, huse,
    hi, -, harguments, -, hfunction, -⟩ := h
  refine innerBody_of_mem_inlineBodies hl ht ?_
  rw [inlineBodies_of_intrinsic? huse hi]
  exact mem_filterMap.mpr
    ⟨function, by simp [arguments_of_mapArguments harguments], by rw [hfunction]; rfl⟩

lemma map_of_emit (hrun : (emit program nested t).run d = .ok ((), d'))
    (hs : (name, .map header iterator) ∈ d'.states) (hnew : name ∉ d.states.map Prod.fst) :
    ∃ parameters body labels, Iterates program t header.itemsPath parameters body ∧
      parameters.length ≤ 3 ∧ nested body d.labels = .ok (iterator, labels) ∧
      header.parameters = .object (iterationFields
        (captured program.forest t.tag body parameters) parameters header.itemsPath) := by
  have hold : (name, .map header iterator) ∉ d.states := fun hold =>
    hnew (mem_map_of_mem hold)
  cases huse : t.usedExpression? with
  | none =>
    cases ((forms_of_emit huse hrun _ hs).resolve_left hold).isPlain
  | some used =>
    obtain ⟨expression, use⟩ := used
    rw [emit_of_usedExpression? _ _ huse] at hrun
    cases (forms_of_emitValue hrun _ hs).resolve_left hold with
    | map hi hintrinsic harguments hitems hfunction hnames hlength hmachine hparameters =>
      exact ⟨_, _, _, ⟨expression, use, _, _, _, _, _, _, _, huse, hi, hintrinsic, harguments,
        hitems, hfunction, hnames⟩, hlength, hmachine, hparameters⟩

section Inner

variable {program : Program} {low : Nat → Nat} {machine : Machine} {depth : Nat} {body : Term}
  {labels : Labels} {labels' : Labels}

lemma Making.Begins.reads_first {m : Making program machine} (hb : m.Begins depth body labels)
    {entry : String × State} (hentry : entry ∈ m.first.states) : entry.2.reads = [] := by
  obtain ⟨pass, hpass⟩ := hb.passes entry hentry
  obtain ⟨hinput, hparameters⟩ := hb.inputs entry hentry pass hpass
  rw [hpass, State.reads, hinput]
  cases hvalue : pass.parameters with
  | none => rfl
  | some value =>
    obtain ⟨declared, fields, hfields, rfl⟩ := hparameters value hvalue
    unfold startFields at hfields
    split at hfields
    · cases hfields
      rfl
    · split at hfields <;> cases hfields
      rfl

lemma reads_of_holds (h : program.forest.InOrder low) {graph : Machine} (hh : Holds machine graph)
    (hbody : program.forest.Shows body) (hisBody : program.forest.IsBody body.tag)
    (hs : labels.Sane program.forest)
    (hrun : nestedMachine program depth body labels = .ok (machine, labels')) :
    ∀ entry ∈ graph.states, ∀ x ∈ entry.2.reads, x ∈ graph.assigned ∨ body.Mentions x := by
  intro entry hentry x hx
  induction hh generalizing depth body labels labels' with
  | self machine =>
    obtain ⟨_, m, -, hm, hb, -⟩ := nestedMachine_making h hbody hisBody hs hrun
    obtain rfl := hb.body
    rw [m.states] at hentry
    rcases hm.finished.origin hentry with hstart | ⟨t, hem⟩
    · rw [hb.reads_first hstart] at hx
      cases hx
    · rcases Making.reads_of_emitted hm hem hx with hmentions | hassigned
      · have ht := (hm.finished.emitted hem).1
        exact .inr (hmentions.of_mem_subtrees (h.mem_subtrees_of_inside (hm.collects.shows t ht)
          hbody (h.inside_of_within (hm.collects.within t ht))))
      · exact .inl hassigned
  | inner hs' hg _ ih =>
    obtain ⟨_, m, -, hm, hb, -⟩ := nestedMachine_making h hbody hisBody hs hrun
    obtain rfl := hb.body
    rw [m.states] at hs'
    rcases hm.finished.origin hs' with hstart | ⟨t, hem⟩
    · obtain ⟨-, -, -, -, hgraphs⟩ := hm.start hstart
      rw [hgraphs] at hg
      cases hg
    · obtain ⟨ht, -, fresh, hwired, -⟩ := hm.finished.emitted hem
      obtain ⟨inner, labels₁, labels₂, hinner, hsane, hmade⟩ := hwired.graphs _ hg
      refine (ih hinner.shows hinner.isBody hsane hmade hentry).imp_right fun hx => ?_
      have hinside := h.below_of_below_of_inside hinner.below
        (h.inside_of_within (hm.collects.within t ht))
      exact hx.of_mem_subtrees (h.mem_subtrees_of_inside hinner.shows hbody (.inr hinside))

end Inner

/-- The iterations of a map state receive the variables that they use, given the names in scope
where the map is called and the parameters and the body of the inline function. -/
structure Supplies (scope parameters : List String) (body : Term) (items : Path)
    (fields : Sorted Data) (iterator : Machine) : Prop where
  /-- A variable that is read is assigned by its machine, is a parameter, or is handed over. -/
  received : ∀ {graph : Machine}, Holds iterator graph → ∀ entry ∈ graph.states,
    ∀ x ∈ entry.2.reads, x ∈ graph.assigned ∨ x ∈ parameters ∨
      (x ∈ scope → (x ++ ".$", .path (.ofVariable x)) ∈ fields)
  /-- The field of a parameter carries the item, its position or the list of items. -/
  own : ∀ x ∈ parameters, ∃ (i : Nat) (path : Path), parameters[i]? = some x ∧
    [Path.item, Path.itemIndex, items][i]? = some path ∧
    ∀ d, (x ++ ".$", d) ∈ fields ↔ d = .path path
  /-- Every field carries a variable. -/
  named : ∀ field ∈ fields, ∃ x, field.1 = x ++ ".$"
  /-- The other fields are variables in scope that the body mentions. -/
  captured : ∀ x, x ∉ parameters → ∀ d, (x ++ ".$", d) ∈ fields ↔
    x ∈ scope ∧ body.Mentions x ∧ d = .path (.ofVariable x)

namespace Making

variable {program : Program} {low : Nat → Nat} {machine : Machine}

/-- A state was made for a statement that iterates, and its iterations receive the variables that
they use. -/
def RunsIterations (m : Making program machine) (t : Term) (name : String) (header : MapHeader)
    (iterator : Machine) : Prop :=
  ∃ parameters body fields, m.Emitted t name (.map header iterator) ∧
    Iterates program t header.itemsPath parameters body ∧ header.parameters = .object fields ∧
    Supplies ((program.forest.scope t.tag).map (·.1)) parameters body header.itemsPath fields
      iterator

variable {m : Making program machine} (hm : m.Sound low) {t : Term}
include hm

lemma runsIterations_of_emitted (hem : m.Emitted t name (.map header iterator)) :
    m.RunsIterations t name header iterator := by
  have hshows := hm.collects.shows t (hm.finished.emitted hem).1
  obtain ⟨d, d', hrun, hs, hnew, hready⟩ := hm.finished.made hem
  obtain ⟨parameters, body, labels, hiterates, hlength, hmachine, hparameters⟩ :=
    map_of_emit hrun hs hnew
  have hinner := hiterates.innerBody hm.inOrder.toLinked hshows
  have hcaptured : ∀ x, x ∉ parameters → ∀ d, (x ++ ".$", d) ∈ iterationFields
      (captured program.forest t.tag body parameters) parameters header.itemsPath ↔
      x ∈ (program.forest.scope t.tag).map (·.1) ∧ body.Mentions x ∧ d = .path (.ofVariable x) := by
    intro x hx d
    rw [captured_iterationFields hx, mem_captured]
    tauto
  refine ⟨parameters, body, _, hem, hiterates, hparameters, ?_,
    fun x hx => parameter_iterationFields hlength hx,
    fun field hfield => exists_name_of_mem_iterationFields hfield, hcaptured⟩
  intro graph hholds entry hentry x hx
  rcases reads_of_holds hm.inOrder hholds hinner.shows hinner.isBody hready.sane hmachine entry
    hentry x hx with hassigned | hmentions
  · exact .inl hassigned
  · by_cases hparameter : x ∈ parameters
    · exact .inr (.inl hparameter)
    · exact .inr (.inr fun hscope => (hcaptured x hparameter _).mpr ⟨hscope, hmentions, rfl⟩)

lemma exists_emitted_of_iterates (ht : t ∈ m.statements)
    (h : Iterates program t items parameters body) :
    ∃ name header iterator, m.Emitted t name (.map header iterator) := by
  have hinner := h.innerBody hm.inOrder.toLinked (hm.collects.shows t ht)
  obtain ⟨expression, use, intrinsic, node, arguments, source, options, function, declared, huse,
    hi, hintrinsic, harguments, -, hfunction, -⟩ := h
  obtain ⟨d, d', hrun, hready, hkept⟩ := hm.finished.kept t ht
  have hmap : (emitMap program m.plan.nested t intrinsic node arguments use).run d =
      .ok ((), d') := by
    rw [emit_of_usedExpression? _ _ huse] at hrun
    obtain ⟨found, hfound, hvalue⟩ := run_bind_lift_eq_ok hrun
    cases hi.symm.trans hfound
    rcases hintrinsic with rfl | rfl <;> exact hvalue
  obtain ⟨_, _, _, _, _, path, limit, names, iterator, labels, harguments', hfunction', -, -, -, -,
    hmachine, hholder⟩ := emitMap_eq_ok hmap
  cases harguments.symm.trans harguments'
  cases hfunction.symm.trans hfunction'
  obtain ⟨name, catchers, result, hspeaks, hname⟩ := speaks_of_emitHolder hholder
  -- The name of the map state is one that the statement owed, and it was paid once.
  have hready' := (Plan.Ready.madeInTurn hm.plan (hm.collects.within t ht)
    (fun b hb => mem_singleton.mp hb ▸ hinner) (.cons hmachine (.nil _)) hready).1
  obtain ⟨s, -, hem⟩ := hm.finished.paid t ht name
    (hready'.entry_mem (hm.collects.within t ht) hname)
  have hs : s = _ := eq_of_mem_states hm (m.states ▸ (hm.finished.emitted hem).2.1)
    (m.states ▸ hkept _ hspeaks.made)
  exact ⟨name, _, iterator, hs ▸ hem⟩

end Making

/-- In a compiled machine, every statement that iterates has a map state and every map state is that
of such a statement. Its iterations receive the variables that their states read, and a parameter is
never replaced by a captured variable of its name. -/
theorem iterations_receive_variables {tree : SyntaxTree} {root : NodeId} {program : Program}
    (hf : Forest.ofTree tree = .ok (root, program.forest)) {before after : Namespace}
    {workflow : Workflow} (hc : (compile program).run.run before = (.ok workflow, after))
    {machine : Machine} (hh : Holds workflow.definition machine) :
    ∃ m : Making program machine, m.Covers ∧
      (∀ t ∈ m.statements, (∃ items parameters body, Iterates program t items parameters body) →
        ∃ name header iterator, m.RunsIterations t name header iterator) ∧
      ∀ {name header iterator}, (name, .map header iterator) ∈ machine.states →
        ∃ t ∈ m.statements, m.RunsIterations t name header iterator := by
  obtain ⟨low, hmade⟩ := exists_making_of_compile hf hc
  obtain ⟨m, hm⟩ := exists_making_of_holds hmade hh
  refine ⟨m, Making.covers hm, ?_, ?_⟩
  · rintro t ht ⟨items, parameters, body, hiterates⟩
    obtain ⟨name, header, iterator, hem⟩ := Making.exists_emitted_of_iterates hm ht hiterates
    exact ⟨name, header, iterator, Making.runsIterations_of_emitted hm hem⟩
  · intro name header iterator hs
    rcases hm.finished.origin (m.states ▸ hs) with hstart | ⟨t, hem⟩
    · obtain ⟨-, -, -, -, hgraphs⟩ := hm.start hstart
      cases hgraphs
    · exact ⟨t, (hm.finished.emitted hem).1, Making.runsIterations_of_emitted hm hem⟩

/-- A function that maps the items after some statements. -/
def mapped (function : SyntaxTree) (before : List SyntaxTree) : SyntaxTree :=
  .function [.param "items"] (before ++
    [.eval (.call (.member (.ident intrinsicsName) "map") [.ident "items", function])])

/-- The function given to a map reads a variable from outside, and has a parameter of the name of
another one. -/
def shadowedItem : SyntaxTree :=
  mapped (.arrow [.param "item"] [.copy "seen" "item", .give (.ident "limit")])
    [.copy "item" "items", .copy "limit" "items"]

theorem iterations_receive_variables_shadowedItem :
    ∃ root f workflow after name header iterator,
    Forest.ofTree shadowedItem = .ok (root, f) ∧
    (compile (programOf f root)).run.run .empty = (.ok workflow, after) ∧
    (name, .map header iterator) ∈ workflow.definition.states ∧
    (∃ entry ∈ iterator.states, "limit" ∈ entry.2.reads) ∧ "limit" ∉ iterator.assigned ∧
    "limit" ∈ (State.map header iterator).reads ∧ "item" ∉ (State.map header iterator).reads ∧
    ∃ m : Making (programOf f root) workflow.definition, m.Covers ∧
      ∃ t ∈ m.statements, m.RunsIterations t name header iterator := by
  obtain ⟨root, f, workflow, after, hf, hc, hcheck⟩ :=
    exists_compiled compile programOf shadowedItem (fun _ workflow =>
      ∃ entry ∈ workflow.definition.states, "limit" ∈ entry.2.reads ∧ "item" ∉ entry.2.reads ∧
        entry.2.graphs ≠ [] ∧ ∀ iterator ∈ entry.2.graphs, "limit" ∉ iterator.assigned ∧
          ∃ inner ∈ iterator.states, "limit" ∈ inner.2.reads) (by decide +kernel)
  obtain ⟨⟨name, s⟩, hs, hlimit, hitem, hgraphs, hinner⟩ := hcheck
  cases s with
  | map header iterator =>
    obtain ⟨hassigned, hreads⟩ := hinner iterator mem_cons_self
    obtain ⟨m, hcovers, -, hmaps⟩ := iterations_receive_variables hf hc (.self _)
    exact ⟨root, f, workflow, after, name, header, iterator, hf, hc, hs, hreads, hassigned, hlimit,
      hitem, m, hcovers, hmaps hs⟩
  | parallel => cases hlimit
  | _ => exact absurd rfl hgraphs

/-- The function given to a map returns a text under a key that makes it a path. -/
def textualRead : SyntaxTree :=
  mapped (.arrow [.param "item"] [.give (.record [.entry (.stringLiteral "of") (.ident "item"),
    .entry (.stringLiteral "in.$") (.text "$.items")])]) []

/-- The parameters of a state, as text. -/
def State.parameterText? : State → Option String
  | .pass p => p.parameters.map (·.toJson.compact)
  | .map header _ => some header.parameters.toJson.compact
  | _ => none

/-- A text that reads as the path of a variable is no use of the variable, so the iteration does not
receive it. -/
theorem textual_reads_are_not_received : ∃ root f workflow after name header iterator inner pass,
    ofTree textualRead = .ok (root, f) ∧
    (compile (programOf f root)).run.run .empty = (.ok workflow, after) ∧
    (name, .map header iterator) ∈ workflow.definition.states ∧
    (inner, .pass pass) ∈ iterator.states ∧
    pass.parameters.map (·.toJson.compact) =
      some "\x7b\"in.$\":\"$.items\",\"of.$\":\"$.item\"\x7d" ∧
    (Path.ofVariable "items").text = "$.items" ∧ "items" ∉ iterator.assigned ∧
    header.parameters.toJson.compact = "\x7b\"item.$\":\"$$.Map.Item.Value\"\x7d" ∧
    ∃ id, f.kind? id = some .exprStmt ∧ "items" ∈ (f.scope id).map (·.1) := by
  obtain ⟨root, f, workflow, after, hf, hc, hcheck⟩ :=
    exists_compiled compile programOf textualRead (fun program workflow =>
      (range program.forest.size).any (fun id =>
        program.forest.kind? id == some .exprStmt &&
          decide ("items" ∈ (program.forest.scope id).map (·.1))) &&
      workflow.definition.states.any fun entry =>
        entry.2.parameterText? == some "\x7b\"item.$\":\"$$.Map.Item.Value\"\x7d" &&
          !entry.2.graphs.isEmpty && entry.2.graphs.all fun iterator =>
            decide ("items" ∉ iterator.assigned) && iterator.states.any fun inner =>
              inner.2.graphs.isEmpty && inner.2.parameterText? ==
                some "\x7b\"in.$\":\"$.items\",\"of.$\":\"$.item\"\x7d") (by decide +kernel)
  simp only [Bool.and_eq_true, decide_eq_true_eq, all_eq_true, any_eq_true, beq_iff_eq] at hcheck
  obtain ⟨⟨id, -, hid⟩, ⟨name, s⟩, hs, ⟨htext, hgraphs⟩, hinner⟩ := hcheck
  cases s with
  | map header iterator =>
    obtain ⟨hassigned, ⟨inner, s⟩, hs', hbare, htext'⟩ := hinner iterator mem_cons_self
    cases s with
    | pass p =>
      exact ⟨root, f, workflow, after, name, header, iterator, inner, p, hf, hc, hs, hs', htext',
        rfl, hassigned, Option.some.inj htext, id, hid⟩
    | map other _ => cases hbare
    | _ => cases htext'
  | pass p => cases hgraphs
  | _ => cases htext

end Machine

end ServiceFlow
