import ServiceFlow.Proofs.ObjectFields
import ServiceFlow.Proofs.RecognisedCalls
import ServiceFlow.Proofs.StateEmission

/-!
# Variables that states read

Whatever data or condition an expression becomes, the variables that are read in it are names that
the expression mentions.
-/

namespace ServiceFlow

open ServiceFlow.Tree List

attribute [local simp] Node.children

namespace Tree

variable {α : Type} {s t : Tree α} {name : String}

/-- A term with the name in it. -/
def Mentions (t : Tree α) (name : String) : Prop := ∃ s ∈ t.subtrees, s.node = .identifier name

lemma Mentions.of_mem_subtrees (h : s.Mentions name) (hs : s ∈ t.subtrees) : t.Mentions name := by
  obtain ⟨u, hu, hnode⟩ := h
  exact ⟨u, subtrees_subset hs hu, hnode⟩

lemma Mentions.of_child (h : s.Mentions name) (hs : s ∈ t.node.children) : t.Mentions name :=
  h.of_mem_subtrees (child_mem_subtrees hs)

lemma isIdentifier_iff : isIdentifier name t = true ↔ t.node = .identifier name := by
  obtain ⟨tag, n⟩ := t
  cases n with
  | identifier other | _ => simp [isIdentifier, node]

lemma isSome_findIdentifier? {t : Term} : (t.findIdentifier? name).isSome ↔ t.Mentions name := by
  rw [findIdentifier?, Option.isSome_map, find?_isSome]
  simp only [isIdentifier_iff, Mentions]

end Tree

namespace Machine

/-- The variable that a path is in. -/
def Path.root? (path : Path) : Option String :=
  match path.origin, path.segments with
  | .variable name, _ => some name
  | .document, .key name :: _ => some name
  | _, _ => none

mutual

/-- The variables that an operand reads. -/
def Operand.reads : Operand → List String
  | .path p => p.root?.toList
  | .call _ arguments => Operand.readsAll arguments
  | .text _ | .number _ | .bool _ | .null => []
termination_by structural o => o

def Operand.readsAll : List Operand → List String
  | [] => []
  | o :: rest => o.reads ++ Operand.readsAll rest
termination_by structural os => os

end

mutual

/-- The variables that data reads. -/
def Data.reads : Data → List String
  | .literal _ => []
  | .path p => p.root?.toList
  | .object fields => Data.fieldReads fields
  | .call _ arguments => Operand.readsAll arguments
termination_by structural d => d

def Data.fieldReads : List (String × Data) → List String
  | [] => []
  | (_, d) :: rest => d.reads ++ Data.fieldReads rest
termination_by structural fields => fields

end

def Test.reads : Test → List String
  | .stringPath _ path | .numericPath _ path | .booleanPath path => path.root?.toList
  | _ => []

mutual

def Condition.reads : Condition → List String
  | .and conditions | .or conditions => Condition.readsAll conditions
  | .not condition => condition.reads
  | .test p t => p.root?.toList ++ t.reads
termination_by structural c => c

def Condition.readsAll : List Condition → List String
  | [] => []
  | c :: rest => c.reads ++ Condition.readsAll rest
termination_by structural cs => cs

end

def Decision.reads : Decision → List String
  | .known _ => []
  | .rule condition => condition.reads

def Delay.reads : Delay → List String
  | .secondsAt path | .timestampAt path => path.root?.toList
  | .seconds _ | .timestamp _ => []

def FailureText.reads : FailureText → List String
  | .given _ => []
  | .computed operand => operand.reads

/-- The variables that an input reads. -/
def inputReads (inputPath : Option Path) (parameters : Option Data) : List String :=
  (inputPath.bind Path.root?).toList ++ (parameters.map Data.reads).getD []

/-- The variables that the paths of a state start at. A text is no path, also under a key that makes
it one when it is written, and the states of a machine that it holds have documents of their own. -/
def State.reads : State → List String
  | .pass p => inputReads p.inputPath p.parameters
  | .task t => inputReads t.inputPath t.parameters
  | .choice c => c.condition.reads
  | .wait delay _ => delay.reads
  | .map header _ => inputReads (some header.itemsPath) (some header.parameters)
  | .fail error cause => error.reads ++ cause.reads
  | .parallel .. | .succeed => []

def ResultPath.root? : ResultPath → Option String
  | .path p => p.root?
  | .discard => none

/-- Where a state puts its result. -/
def State.result? : State → Option ResultPath
  | .pass p => p.resultPath
  | .task t => t.resultPath
  | .map header _ => header.resultPath
  | .parallel header _ => header.resultPath
  | .choice _ | .wait .. | .succeed | .fail .. => none

/-- The variables that a state sets. -/
def State.assigned (s : State) : List String :=
  (s.result?.bind ResultPath.root?).toList ++ s.catchers.filterMap (·.resultPath.root?)

/-- The variables that a machine sets. -/
def Graph.assigned (machine : Machine) : List String :=
  machine.states.flatMap fun entry => entry.2.assigned

section Members

variable {x : String} {name : String}

lemma Path.root?_of_origin {path : Path} (h : path.origin = .variable name) :
    path.root? = some name := by
  rw [root?, h]

lemma Operand.readsAll_append (os others : List Operand) :
    readsAll (os ++ others) = readsAll os ++ readsAll others := by
  induction os with
  | nil => rfl
  | cons o os ih => rw [cons_append, readsAll, readsAll, ih, append_assoc]

lemma Data.mem_reads_object {fields : List (String × Data)} :
    x ∈ (Data.object fields).reads ↔ ∃ field ∈ fields, x ∈ field.2.reads := by
  rw [Data.reads]
  induction fields with
  | nil => simp [fieldReads]
  | cons field fields ih => simp [fieldReads, ih]

lemma mem_inputReads {inputPath : Option Path} {parameters : Option Data} :
    x ∈ inputReads inputPath parameters ↔
      (∃ path, inputPath = some path ∧ path.root? = some x) ∨
        ∃ d, parameters = some d ∧ x ∈ d.reads := by
  cases inputPath <;> cases parameters <;> simp [inputReads]

lemma Data.mem_reads_insertInto {d : Data} {key : String} {fields : Sorted Data}
    (h : x ∈ (Data.object (d.insertInto key fields)).reads) :
    x ∈ d.reads ∨ x ∈ (Data.object fields).reads := by
  obtain ⟨field, hfield, hx⟩ := Data.mem_reads_object.mp h
  rcases Sorted.mem_insert hfield with rfl | hfield
  · exact .inl hx
  · exact .inr (Data.mem_reads_object.mpr ⟨field, hfield, hx⟩)

end Members

section Data

/-- A term without calls that mentions all variables read. -/
structure Lowered (registry : Registry) (t : Term) (reads : List String) : Prop where
  uncalled : t.Uncalled registry
  mentions : ∀ x ∈ reads, t.Mentions x

variable {registry : Registry} {t c l r : Term} {reads first second : List String}

namespace Lowered

lemma of_children (hcall : t.call? registry = none)
    (hc : ∀ c ∈ t.node.children, c.Uncalled registry)
    (hx : ∀ x ∈ reads, ∃ c ∈ t.node.children, c.Mentions x) : Lowered registry t reads := by
  refine ⟨uncalled_of_children hcall hc, fun x hmem => ?_⟩
  obtain ⟨c, hc, hx⟩ := hx x hmem
  exact hx.of_child hc

lemma of_pair (hkind : t.kind ≠ .callExpr) (hc : t.node.children = [l, r])
    (hl : Lowered registry l first) (hr : Lowered registry r second)
    (hx : ∀ x ∈ reads, x ∈ first ∨ x ∈ second) : Lowered registry t reads := by
  refine .of_children (call?_of_ne registry hkind) ?_ fun x hmem => ?_
  · rw [hc]
    simpa using ⟨hl.uncalled, hr.uncalled⟩
  · rw [hc]
    simpa using (hx x hmem).imp (hl.mentions x) (hr.mentions x)

lemma of_only (h : Lowered registry c reads) (hkind : t.kind ≠ .callExpr)
    (hc : t.node.children = [c]) : Lowered registry t reads := by
  refine .of_children (call?_of_ne registry hkind) ?_ fun x hmem => ?_
  · rw [hc]
    simpa using h.uncalled
  · rw [hc]
    simpa using h.mentions x hmem

end Lowered

lemma lowered_of_reference (registry : Registry) (t : Term) : ∀ reference,
    ReferencePath.of? t = some reference → Lowered registry t [reference.identity] := by
  induction t using children_induction with
  | step tag n ih =>
    intro reference h
    cases n with
    | identifier name =>
      cases h
      refine ⟨uncalled_leaf nofun rfl, fun x hx => ?_⟩
      cases mem_singleton.mp hx
      exact ⟨_, self_mem_subtrees _, rfl⟩
    | propertyAccess expression name chained =>
      obtain ⟨inner, hinner, h⟩ := Option.bind_eq_some_iff.mp h
      cases h
      exact (ih expression (by simp) inner hinner).of_only nofun rfl
    | elementAccess expression element chained =>
      obtain ⟨segment, hsegment, h⟩ := Option.bind_eq_some_iff.mp h
      obtain ⟨inner, hinner, h⟩ := Option.bind_eq_some_iff.mp h
      cases h
      have hkey : Lowered registry element [] :=
        ⟨ReferencePath.uncalled_of_segment? registry hsegment, nofun⟩
      exact .of_pair nofun rfl (ih expression (by simp) inner hinner) hkey fun x => .inl
    | _ => cases h

variable {program : Program} {x : String} {d : Data}

lemma nameData_cases {node : NodeId} (h : nameData node name = .ok d) :
    d = .literal .null ∨ d = .path (.ofVariable name) := by
  rw [nameData] at h
  split_ifs at h <;> cases h
  · exact .inl rfl
  · exact .inr rfl

lemma lowered_of_referenceData {reference : ReferencePath}
    (hof : ReferencePath.of? t = some reference) (h : referenceData t reference = .ok d) :
    Lowered registry t d.reads := by
  obtain ⟨huncalled, hmentions⟩ := lowered_of_reference registry t reference hof
  refine ⟨huncalled, fun x hx => hmentions x ?_⟩
  obtain ⟨root, hroot, h⟩ := bind_eq_ok h
  rcases nameData_cases hroot with rfl | rfl
  · cases h
  · dsimp only at h
    split_ifs at h <;> cases h <;>
      simpa [Data.reads, Operand.readsAll, Operand.reads, Path.root?, Path.append,
        Path.ofVariable] using hx

lemma reads_of_operand {o : Operand} (h : operand t d = .ok o) : o.reads = d.reads := by
  unfold operand at h
  split at h <;> cases h <;> simp [Operand.reads, Data.reads]

lemma mem_of_spanPiece {r : Piece × List Operand} (h : spanPiece t d = .ok r)
    (hx : x ∈ Operand.readsAll r.2) : x ∈ d.reads := by
  unfold spanPiece at h
  split at h
  · cases h
    cases hx
  · cases h
    cases hx
  · cases h
    cases hx
  · cases h
    cases hx
  · obtain ⟨o, ho, h⟩ := bind_eq_ok h
    cases h
    simpa [Operand.readsAll, reads_of_operand ho] using hx

lemma mem_of_operatorData {left right : Term} {op : BinaryOp} {l r : Data}
    (h : operatorData t left op right l r = .ok d) (hx : x ∈ d.reads) :
    x ∈ l.reads ∨ x ∈ r.reads := by
  unfold operatorData at h
  split at h
  · obtain ⟨a, ha, h⟩ := bind_eq_ok h
    obtain ⟨b, hb, h⟩ := bind_eq_ok h
    cases h
    simpa [Data.reads, Operand.readsAll, reads_of_operand ha, reads_of_operand hb] using hx
  · split at h
    · obtain ⟨a, ha, h⟩ := bind_eq_ok h
      cases h
      rw [Data.reads, Operand.readsAll, Operand.readsAll, Operand.readsAll,
        reads_of_operand ha, append_nil, mem_append] at hx
      rcases hx with hx | hx
      · exact .inl hx
      · unfold numberOperand at hx
        split at hx <;> cases hx
    · cases h
  · cases h
  · cases h
  · cases h
  · split_ifs at h <;> cases h

/-- Terms with data, which reads the given variables. -/
structure PartsRead (program : Program) (ts : List Term) (reads : List String) : Prop where
  data : ∀ t ∈ ts, ∃ d, data program t = .ok d
  reads : ∀ x ∈ reads, ∃ t ∈ ts, ∃ d, Machine.data program t = .ok d ∧ x ∈ d.reads

namespace PartsRead

variable {ts : List Term}

lemma cons (hd : Machine.data program t = .ok d) (hfirst : ∀ x ∈ first, x ∈ d.reads)
    (h : PartsRead program ts reads) : PartsRead program (t :: ts) (first ++ reads) := by
  refine ⟨forall_mem_cons.mpr ⟨⟨d, hd⟩, h.data⟩, fun x hx => ?_⟩
  rcases mem_append.mp hx with hx | hx
  · exact ⟨t, mem_cons_self, d, hd, hfirst x hx⟩
  · obtain ⟨u, hu, hrest⟩ := h.reads x hx
    exact ⟨u, mem_cons_of_mem _ hu, hrest⟩

lemma lowered (h : PartsRead program ts reads)
    (hts : ∀ t ∈ ts, ∀ d, Machine.data program t = .ok d → Lowered registry t d.reads) :
    (∀ t ∈ ts, t.Uncalled registry) ∧ ∀ x ∈ reads, ∃ t ∈ ts, t.Mentions x := by
  refine ⟨fun t ht => ?_, fun x hx => ?_⟩
  · obtain ⟨d, hd⟩ := h.data t ht
    exact (hts t ht d hd).uncalled
  · obtain ⟨t, ht, d, hd, hx⟩ := h.reads x hx
    exact ⟨t, ht, (hts t ht d hd).mentions x hx⟩

end PartsRead

lemma partsRead_of_operands {ts : List Term} {os : List Operand}
    (h : operands program ts = .ok os) : PartsRead program ts (Operand.readsAll os) := by
  induction ts generalizing os with
  | nil =>
    cases h
    exact ⟨nofun, nofun⟩
  | cons t ts ih =>
    rw [operands] at h
    obtain ⟨d, hd, h⟩ := bind_eq_ok h
    obtain ⟨o, ho, h⟩ := bind_eq_ok h
    obtain ⟨others, hothers, h⟩ := bind_eq_ok h
    cases h
    exact (ih hothers).cons hd (by simp [reads_of_operand ho])

lemma partsRead_of_spansMade {spans : List (Span Term)} {pieces : List Piece}
    {arguments : List Operand} (h : SpansMade program spans pieces arguments) :
    PartsRead program (spans.map Span.expression) (Operand.readsAll arguments) := by
  induction h with
  | nil => exact ⟨nofun, nofun⟩
  | cons hd hpiece _ ih =>
    rw [Operand.readsAll_append]
    exact ih.cons hd fun x => mem_of_spanPiece hpiece

variable {p v : Term} {key : String} {properties : List Term} {fields : Sorted Data}

lemma node_of_assignment? (h : assignment? p = some (key, v)) :
    ∃ name, p.node = .propertyAssignment name v ∧ name.staticKey? = some key := by
  unfold assignment? at h
  split at h
  · rename_i name value hnode
    obtain ⟨key, hkey, h⟩ := Option.map_eq_some_iff.mp h
    cases h
    exact ⟨name, hnode, hkey⟩
  · cases h

lemma lowered_of_assignment? (h : assignment? p = some (key, v)) (hv : Lowered registry v reads) :
    Lowered registry p reads := by
  obtain ⟨name, hnode, hkey⟩ := node_of_assignment? h
  have hname : Lowered registry name [] := ⟨uncalled_of_staticKey? registry hkey, nofun⟩
  exact .of_pair (by simp [kind, hnode, Node.kind]) (by simp [hnode]) hname hv fun x => .inr

lemma exists_of_fieldsData (h : fieldsData program [] properties = .ok fields) :
    ∀ p ∈ properties, ∃ key v d, assignment? p = some (key, v) ∧ data program v = .ok d := by
  obtain ⟨value, hassigns, hvalue, -⟩ := fieldsData_eq_ok h
  intro p hp
  obtain ⟨⟨key, v⟩, ha⟩ := Option.isSome_iff_exists.mp (hassigns p hp)
  exact ⟨key, v, _, ha, hvalue (key, v) (mem_filterMap.mpr ⟨p, hp, ha⟩)⟩

lemma exists_of_mem_fieldsData (h : fieldsData program [] properties = .ok fields)
    (hx : x ∈ (Data.object fields).reads) : ∃ p ∈ properties, ∃ key v d,
      assignment? p = some (key, v) ∧ data program v = .ok d ∧ x ∈ d.reads := by
  obtain ⟨value, hvalue, rfl⟩ := exists_lowered h
  obtain ⟨field, hfield, hx⟩ := Data.mem_reads_object.mp hx
  rcases Sorted.mem_insertAll hfield with hold | hwritten
  · cases hold
  · obtain ⟨entry, hentry, rfl⟩ := mem_map.mp hwritten
    obtain ⟨a, ha, rfl⟩ := mem_map.mp hentry
    obtain ⟨p, hp, hassigns⟩ := mem_filterMap.mp ha
    exact ⟨p, hp, a.1, a.2, _, hassigns, hvalue a ha, hx⟩

lemma lowered_of_data (program : Program) (t : Term) :
    ∀ d, data program t = .ok d → Lowered program.registry t d.reads := by
  induction t using descendants_induction with
  | step t ih =>
    intro d h
    cases hc : t.constant? program.references with
    | some c =>
      rw [data_of_constant? hc] at h
      cases h
      exact ⟨uncalled_of_constant? _ _ t c hc, nofun⟩
    | none =>
      obtain ⟨tag, n⟩ := t
      have hchild : ∀ c ∈ n.children, ∀ d, data program c = .ok d →
          Lowered program.registry c d.reads := fun c hc => ih c (child_mem_descendants hc)
      rw [data.eq_def, hc] at h
      cases n with
      | awaitExpr expression =>
        exact (hchild expression (by simp) d h).of_only Kind.noConfusion rfl
      | identifier name =>
        refine ⟨uncalled_leaf Kind.noConfusion rfl, fun x hx => ?_⟩
        rcases nameData_cases h with rfl | rfl
        · cases hx
        · obtain rfl : x = name := by simpa [Data.reads, Path.root?, Path.ofVariable] using hx
          exact ⟨_, self_mem_subtrees _, rfl⟩
      | propertyAccess expression name chained =>
        dsimp only at h
        cases hof : ReferencePath.of? (.mk tag (.propertyAccess expression name chained)) with
        | some reference => exact lowered_of_referenceData hof (by rwa [hof] at h)
        | none =>
          rw [hof] at h
          obtain ⟨base, hbase, h⟩ := bind_eq_ok h
          cases h
      | elementAccess expression element chained =>
        dsimp only at h
        cases hof : ReferencePath.of? (.mk tag (.elementAccess expression element chained)) with
        | some reference => exact lowered_of_referenceData hof (by rwa [hof] at h)
        | none =>
          rw [hof] at h
          obtain ⟨base, hbase, h⟩ := bind_eq_ok h
          obtain ⟨first, hfirst, h⟩ := bind_eq_ok h
          obtain ⟨index, hindex, h⟩ := bind_eq_ok h
          obtain ⟨second, hsecond, h⟩ := bind_eq_ok h
          cases h
          refine .of_pair Kind.noConfusion rfl (hchild expression (by simp) base hbase)
            (hchild element (by simp) index hindex) fun x hx => ?_
          simpa [Data.reads, Operand.readsAll, reads_of_operand hfirst,
            reads_of_operand hsecond] using hx
      | templateExpr head spans =>
        obtain ⟨r, hr, h⟩ := bind_eq_ok h
        cases h
        obtain ⟨hparts, hreads⟩ := (partsRead_of_spansMade (spansMade_of_spansData hr)).lowered hchild
        refine .of_children (call?_of_ne _ Kind.noConfusion) hparts fun x hx => ?_
        rw [formatData] at hx
        split_ifs at hx
        · cases hx
        · exact hreads x hx
      | binaryExpr left op right =>
        obtain ⟨l, hl, h⟩ := bind_eq_ok h
        obtain ⟨r, hr, h⟩ := bind_eq_ok h
        exact .of_pair Kind.noConfusion rfl (hchild left (by simp) l hl) (hchild right (by simp) r hr)
          fun x => mem_of_operatorData h
      | objectLiteral properties =>
        obtain ⟨fields, hfields, h⟩ := bind_eq_ok h
        cases h
        have hproperty : ∀ p ∈ properties, ∀ key v d, assignment? p = some (key, v) →
            data program v = .ok d → Lowered program.registry p d.reads := by
          intro p hp key v d ha hd
          obtain ⟨name, hnode, -⟩ := node_of_assignment? ha
          exact lowered_of_assignment? ha (ih v (mem_descendants_of_child hp
            (child_mem_subtrees (by simp [hnode]))) d hd)
        refine .of_children (call?_of_ne _ Kind.noConfusion) (fun p hp => ?_) fun x hx => ?_
        · obtain ⟨key, v, d, ha, hd⟩ := exists_of_fieldsData hfields p hp
          exact (hproperty p hp key v d ha hd).uncalled
        · obtain ⟨p, hp, key, v, d, ha, hd, hx⟩ := exists_of_mem_fieldsData hfields hx
          exact ⟨p, hp, (hproperty p hp key v d ha hd).mentions x hx⟩
      | arrayLiteral elements =>
        obtain ⟨os, hos, h⟩ := bind_eq_ok h
        cases h
        obtain ⟨hparts, hreads⟩ := (partsRead_of_operands hos).lowered hchild
        exact .of_children (call?_of_ne _ Kind.noConfusion) hparts hreads
      | callExpr callee arguments =>
        dsimp only at h
        obtain ⟨function, hfunction, h⟩ := bind_eq_ok h
        obtain ⟨hcall, hcallee⟩ := uncalled_of_calledFunction hfunction
        split_ifs at h
        · obtain ⟨os, hos, h⟩ := bind_eq_ok h
          cases h
          obtain ⟨hparts, hreads⟩ := (partsRead_of_operands hos).lowered fun a ha =>
            hchild a (mem_cons_of_mem callee ha)
          refine .of_children hcall (forall_mem_cons.mpr ⟨hcallee, hparts⟩) fun x hx => ?_
          obtain ⟨a, ha, hx⟩ := hreads x hx
          exact ⟨a, mem_cons_of_mem callee ha, hx⟩
        · cases h
      | referenceExpr name =>
        dsimp only at h
        split_ifs at h
        cases h
      | _ => cases h

end Data

section Decision

variable {program : Program} {t : Term} {x : String}

lemma Condition.reads_negate (c : Condition) : c.negate.reads = c.reads := by
  cases c <;> simp [negate, reads]

lemma Decision.reads_negate (d : Decision) : d.negate.reads = d.reads := by
  cases d with
  | known value => rfl
  | rule c => exact c.reads_negate

variable {l r : Decision} {path : Path} {relation : Relation} {d : Decision}

lemma Decision.mem_reads_and (h : x ∈ (l.and r).reads) : x ∈ l.reads ∨ x ∈ r.reads := by
  unfold Decision.and at h
  split at h
  · cases h
  · cases h
  · exact .inr h
  · exact .inl h
  · simpa [reads, Condition.reads, Condition.readsAll] using h

lemma Decision.mem_reads_or (h : x ∈ (l.or r).reads) : x ∈ l.reads ∨ x ∈ r.reads := by
  unfold Decision.or at h
  split at h
  · cases h
  · cases h
  · exact .inr h
  · exact .inl h
  · simpa [reads, Condition.reads, Condition.readsAll] using h

lemma eq_of_mem_truthy (h : x ∈ (truthy path).reads) : path.root? = some x := by
  simpa [truthy, bothTests, Condition.negate, Condition.reads, Condition.readsAll,
    Test.reads] using h

lemma mem_of_pathTest {l r : Path} (h : x ∈ (pathTest relation l r).reads) :
    l.root? = some x ∨ r.root? = some x := by
  unfold pathTest at h
  split_ifs at h <;>
    simp only [bothTests, Condition.reads, Condition.readsAll, Test.reads, cons_append,
      nil_append, append_nil, append_assoc, mem_append,
      Option.mem_toList] at h <;>
    tauto

lemma eq_of_mem_literalTest {value : Json} {c : Condition}
    (h : literalTest t relation path value = .ok c) (hx : x ∈ c.reads) : path.root? = some x := by
  unfold literalTest at h
  split at h
  case h_3 =>
    split_ifs at h <;> cases h
    simpa [Condition.reads, Condition.readsAll, Test.reads] using hx
  case h_4 =>
    split_ifs at h <;> cases h
    simpa [Condition.reads, Test.reads] using hx
  all_goals
    cases h <;> simpa [Condition.reads, Test.reads] using hx

lemma mem_of_comparison {l r : Data} (h : comparison t relation l r = .ok d) (hx : x ∈ d.reads) :
    x ∈ l.reads ∨ x ∈ r.reads := by
  unfold comparison at h
  split at h
  · cases h
    cases hx
  · obtain ⟨c, hc, h⟩ := bind_eq_ok h
    cases h
    exact .inl (by simpa [Data.reads] using eq_of_mem_literalTest hc hx)
  · obtain ⟨c, hc, h⟩ := bind_eq_ok h
    cases h
    exact .inr (by simpa [Data.reads] using eq_of_mem_literalTest hc hx)
  · cases h
    simpa [Data.reads] using mem_of_pathTest hx
  · cases h

lemma lowered_of_truthDecision (h : (data program t >>= truthDecision t) = .ok d) :
    Lowered program.registry t d.reads := by
  obtain ⟨value, hvalue, h⟩ := bind_eq_ok h
  obtain ⟨huncalled, hmentions⟩ := lowered_of_data program t value hvalue
  unfold truthDecision at h
  split at h
  · cases h
    exact ⟨huncalled, fun x hx => hmentions x (by simpa [Data.reads] using eq_of_mem_truthy hx)⟩
  · cases h

lemma lowered_of_decision (program : Program) (t : Term) :
    ∀ d, decision program t = .ok d → Lowered program.registry t d.reads := by
  induction t using children_induction with
  | step tag n ih =>
    intro d h
    cases hc : constant? program.references (.mk tag n) with
    | some c =>
      rw [decision.eq_def, hc] at h
      cases h
      exact ⟨uncalled_of_constant? _ _ _ c hc, nofun⟩
    | none =>
      rw [decision.eq_def, hc] at h
      cases n with
      | awaitExpr expression =>
        exact (ih expression (by simp) d h).of_only nofun rfl
      | unaryExpr operator operand =>
        dsimp only at h
        split_ifs at h with hnot
        · obtain ⟨inner, hinner, h⟩ := bind_eq_ok h
          cases h
          rw [Decision.reads_negate]
          exact (ih operand (by simp) inner hinner).of_only nofun rfl
        · exact lowered_of_truthDecision h
      | binaryExpr left op right =>
        dsimp only at h
        have hleft := ih left (by simp)
        have hright := ih right (by simp)
        split_ifs at h
        · obtain ⟨l, hl, h⟩ := bind_eq_ok h
          obtain ⟨r, hr, h⟩ := bind_eq_ok h
          cases h
          exact .of_pair nofun rfl (hleft l hl) (hright r hr) fun x => Decision.mem_reads_and
        · obtain ⟨l, hl, h⟩ := bind_eq_ok h
          obtain ⟨r, hr, h⟩ := bind_eq_ok h
          cases h
          exact .of_pair nofun rfl (hleft l hl) (hright r hr) fun x => Decision.mem_reads_or
        · cases hrelation : Relation.of? op with
          | none =>
            rw [hrelation] at h
            exact lowered_of_truthDecision h
          | some relation =>
            rw [hrelation] at h
            obtain ⟨l, hl, h⟩ := bind_eq_ok h
            obtain ⟨r, hr, h⟩ := bind_eq_ok h
            obtain ⟨result, hresult, h⟩ := bind_eq_ok h
            cases h
            refine .of_pair nofun rfl (lowered_of_data program left l hl)
              (lowered_of_data program right r hr) fun x hx => mem_of_comparison hresult ?_
            split_ifs at hx
            · rwa [Decision.reads_negate] at hx
            · exact hx
      | _ => exact lowered_of_truthDecision h

end Decision

end Machine

end ServiceFlow
