import ServiceFlow.Proofs.RecordForms
import ServiceFlow.Proofs.TreeFold
import ServiceFlow.Syntax.Decode

/-!
# Documents of trees

`Tree.Written` says which objects are documents of a tree: absent children may be missing or null,
empty lists and texts and flags that are off may be missing, and other entries may be added. All of
them are read as the tree, and what is written for it is one of them.
-/

namespace ServiceFlow

open List Json

def Span.map {C D : Type} (f : C → D) (span : Span C) : Span D := ⟨f span.expression, span.literal⟩

/-- The documents of a span. -/
def Span.Holds (span : Span (Json → Prop)) : Json → Prop :=
  Record [("expression", Required span.expression),
    ("literal", Defaulted (span.literal = "") (· = .string span.literal))]

namespace Slot

variable {C D : Type}

/-- A slot with other children. -/
def map (f : C → D) : Slot C → Slot D
  | .text value => .text value
  | .nullableText value => .nullableText value
  | .defaultedText value => .defaultedText value
  | .truth value => .truth value
  | .flag on => .flag on
  | .number value => .number value
  | .unaryOp operator => .unaryOp operator
  | .binaryOp operator => .binaryOp operator
  | .child value => .child (f value)
  | .nullableChild value => .nullableChild (value.map f)
  | .children values => .children (values.map f)
  | .spans values => .spans (values.map (Span.map f))

/-- The children in a slot. -/
def subtrees : Slot C → List C
  | .child value => [value]
  | .nullableChild value => value.toList
  | .children values => values
  | .spans values => values.map (·.expression)
  | _ => []

/-- What may stand in the field. A child stands for its own forms. -/
def Holds : Slot (Json → Prop) → Option Json → Prop
  | .text value => Required (· = .string value)
  | .nullableText value => Nullable (value.map fun text => (· = .string text))
  | .defaultedText value => Defaulted (value = "") (· = .string value)
  | .truth value => Required (· = .bool value)
  | .flag on => Defaulted (on = false) (· = .bool on)
  | .number value => Required fun json => ∃ n, json = .number n ∧ n.toDouble = value
  | .unaryOp operator => Required (· = .string operator.symbol)
  | .binaryOp operator => Required (· = .string operator.symbol)
  | .child value => Required value
  | .nullableChild value => Nullable value
  | .children values => Defaulted (values = []) (Listed values)
  | .spans values => Defaulted (values = []) (Listed (values.map Span.Holds))

/-- A field that is read as the slot. -/
def Read (child : Json → Option C) (field : Option Json) : Slot C → Prop
  | .text value => required string? field = some value
  | .nullableText value => nullable string? field = some value
  | .defaultedText value => defaulted "" string? field = some value
  | .truth value => required bool? field = some value
  | .flag on => defaulted false bool? field = some on
  | .number value => required double? field = some value
  | .unaryOp operator => required Node.unaryOp? field = some operator
  | .binaryOp operator => required Node.binaryOp? field = some operator
  | .child value => required child field = some value
  | .nullableChild value => nullable child field = some value
  | .children values => defaulted [] (list? child) field = some values
  | .spans values => defaulted [] (list? (Node.span? child)) field = some values

end Slot

namespace Node

variable {C D : Type}

lemma slots_map (f : C → D) (n : Node C) :
    (n.map f).slots = n.slots.map fun slot => (slot.1, slot.2.map f) := by
  cases n <;> rfl

lemma fields_kind (n : Node C) : n.kind.fields = n.slots.map Prod.fst := by cases n <;> rfl

lemma children_eq_subtrees (n : Node C) : n.children = n.slots.flatMap (·.2.subtrees) := by
  cases n <;> simp [children, slots, Slot.subtrees]

variable {name : String} {json : Json}

lemma eq_numberLiteral_of_slot {n : Node C} {d : Double} (h : (name, .number d) ∈ n.slots) :
    n = .numberLiteral d := by
  cases n <;> simp [slots] at h
  rw [h.2]

lemma ofFields?_of_read {child : Json → Option C} {n : Node C} {fields : List (Option Json)}
    (h : Forall₂ (fun slot field => slot.2.Read child field) n.slots fields) :
    ofFields? child n.kind fields = some n := by
  cases n <;> simp only [slots, forall₂_cons_left_iff, forall₂_nil_left_iff, Slot.Read] at h
  case functionDecl | ifStmt | forOfStmt | forInStmt | tryStmt | propertyAccess | elementAccess
      | binaryExpr | conditionalExpr =>
    obtain ⟨_, _, h₁, ⟨_, _, h₂, ⟨_, _, h₃, rfl, rfl⟩, rfl⟩, rfl⟩ := h
    simp [kind, ofFields?, h₁, h₂, h₃]
  case block | variableStmt | whileStmt | doStmt | catchClause | templateExpr | propertyAssignment
      | callExpr | newExpr | unaryExpr | arrowFunction =>
    obtain ⟨_, _, h₁, ⟨_, _, h₂, rfl, rfl⟩, rfl⟩ := h
    simp [kind, ofFields?, h₁, h₂]
  case breakStmt | continueStmt | emptyStmt | nullLiteral | undefinedLiteral =>
    cases h
    rfl
  all_goals
    obtain ⟨_, _, h₁, rfl, rfl⟩ := h
    simp [kind, ofFields?, h₁]

/-- The documents of a node. -/
def Written (node : Node (Json → Prop)) : Json → Prop :=
  Record (("kind", Required (· = .string node.kind.name)) ::
    node.slots.map fun slot => (slot.1, slot.2.Holds))

end Node

/-- The documents of a tree. -/
def Tree.Written (tree : SyntaxTree) : Json → Prop := tree.fold fun _ node => node.Written

lemma Kind.ofName?_name (kind : Kind) : ofName? kind.name = some kind := by cases kind <;> decide

lemma Kind.nodup_fields (kind : Kind) : ("kind" :: kind.fields).Nodup := by cases kind <;> decide

lemma UnaryOp.ofSymbol?_symbol (operator : UnaryOp) :
    ofSymbol? operator.symbol = some operator := by cases operator <;> decide

lemma BinaryOp.ofSymbol?_symbol (operator : BinaryOp) :
    ofSymbol? operator.symbol = some operator := by cases operator <;> decide

section Reading

variable {C : Type} {W : C → Json → Prop} {child : Json → Option C} {bound : Nat}

lemma Span.read_eq {span : Span C} (h : (span.map W).Holds json) (hdepth : json.depth < bound)
    (hread : ∀ json : Json, json.depth < bound → W span.expression json →
      child json = some span.expression) : Node.span? child json = some span := by
  obtain ⟨values, hvalues, hforms⟩ := Record.fields?_eq h
  obtain ⟨e, _, ⟨he, hinside⟩, ⟨l, _, ⟨hl, -⟩, ⟨⟩, rfl⟩, rfl⟩ := by
    simpa only [forall₂_cons_left_iff, forall₂_nil_left_iff] using hforms
  have hexpression : required child e = some span.expression :=
    he.read_eq fun json hjson => hread json (Nat.lt_trans (hinside json hjson) hdepth)
  have hliteral : defaulted "" string? l = some span.literal :=
    hl.read_eq id fun json _ hjson => by rw [hjson]; rfl
  rw [Node.span?]
  simp only [Span.map, map_cons, map_nil] at hvalues
  simp [hvalues, hexpression, hliteral]

lemma Slot.read_of_holds {slot : Slot C} {field : Option Json} (h : (slot.map W).Holds field)
    (hdepth : ∀ json ∈ field, json.depth < bound) (hnull : child .null = none)
    (hread : ∀ c ∈ slot.subtrees, ∀ json : Json, json.depth < bound → W c json →
      child json = some c) : slot.Read child field := by
  cases slot with
  | text value => exact Required.read_eq h fun json _ hjson => by rw [hjson]; rfl
  | nullableText value => exact Nullable.read_eq h rfl fun _ _ json _ hjson => by rw [hjson]; rfl
  | defaultedText value => exact Defaulted.read_eq h id fun json _ hjson => by rw [hjson]; rfl
  | truth value => exact Required.read_eq h fun json _ hjson => by rw [hjson]; rfl
  | flag on => exact Defaulted.read_eq h id fun json _ hjson => by rw [hjson]; rfl
  | number value =>
    refine Required.read_eq h fun json _ hjson => ?_
    obtain ⟨n, rfl, rfl⟩ := hjson
    rfl
  | unaryOp operator =>
    refine Required.read_eq h fun json _ hjson => ?_
    rw [hjson]
    exact operator.ofSymbol?_symbol
  | binaryOp operator =>
    refine Required.read_eq h fun json _ hjson => ?_
    rw [hjson]
    exact operator.ofSymbol?_symbol
  | child value =>
    exact Required.read_eq h fun json hjson => hread value mem_cons_self json (hdepth json hjson)
  | nullableChild value =>
    refine Nullable.read_eq h hnull fun c hc json hjson => ?_
    exact hread c (Option.mem_toList.mpr hc) json (hdepth json hjson)
  | children values =>
    refine Defaulted.read_eq h map_eq_nil_iff.mp fun json hjson hlisted => ?_
    refine Listed.read_eq hlisted fun c hc item hitem => hread c hc item ?_
    exact Nat.lt_trans hitem (hdepth json hjson)
  | spans values =>
    refine Defaulted.read_eq h map_eq_nil_iff.mp fun json hjson hlisted => ?_
    rw [map_map] at hlisted
    refine Listed.read_eq hlisted fun span hspan item hitem hholds => ?_
    refine Span.read_eq hholds (Nat.lt_trans hitem (hdepth json hjson)) ?_
    exact hread span.expression (mem_map_of_mem hspan)

lemma Node.read_of_written {n : Node C} (h : (n.map W).Written json) (numbered : Bool)
    (hnull : child .null = none)
    (hread : ∀ c ∈ n.children, ∀ inner : Json, inner.depth < json.depth → W c inner →
      child inner = some c) : Node.ofJson? numbered child json = some n := by
  obtain ⟨entries, rfl, hfields⟩ := h
  obtain ⟨_, ⟨_, rfl, rfl⟩, hkind⟩ := hfields _ mem_cons_self
  have hrecord : Record (n.slots.map fun slot => (slot.1, (slot.2.map W).Holds))
      (.object entries) := by
    refine ⟨entries, rfl, fun field hfield => hfields field (mem_cons_of_mem _ ?_)⟩
    rwa [slots_map, map_map]
  obtain ⟨values, hvalues, hforms⟩ := hrecord.fields?_eq
  have hslots : Forall₂ (fun slot value => slot.2.Read child value) n.slots values := by
    obtain ⟨hlength, hzip⟩ := forall₂_iff_zip.mp (forall₂_map_left_iff.mp hforms)
    refine forall₂_iff_zip.mpr ⟨hlength, fun {slot value} hmem => ?_⟩
    obtain ⟨hholds, hdepth⟩ := hzip hmem
    refine Slot.read_of_holds hholds hdepth hnull fun c hc => hread c ?_
    rw [children_eq_subtrees]
    exact mem_flatMap.mpr ⟨slot, (of_mem_zip hmem).1, hc⟩
  have hnames : fields? n.kind.fields (.object entries) = some values := by
    rw [fields_kind]
    rw [map_map] at hvalues
    exact hvalues
  have hname : kind? numbered (.string n.kind.name) = some n.kind := n.kind.ofName?_name
  simp [ofJson?, has_iff_field?.mp hkind, hname, hnames, ofFields?_of_read hslots]

end Reading

namespace Tree

lemma written_mk (tag : Unit) (n : Node SyntaxTree) :
    Written (.mk tag n) = (n.map Written).Written := fold_mk ..

lemma ofJsonWithin?_null (fuel : Nat) (numbered : Bool) :
    ofJsonWithin? fuel numbered .null = none := by cases fuel <;> rfl

lemma ofJsonWithin?_of_written {tree : SyntaxTree} (h : tree.Written json) {fuel : Nat}
    (hfuel : json.depth < fuel) (numbered : Bool) :
    ofJsonWithin? fuel numbered json = some tree := by
  induction tree using children_induction generalizing json fuel numbered with
  | step tag n ih =>
    cases fuel with
    | zero => cases hfuel
    | succ fuel =>
      rw [written_mk] at h
      have hnode := Node.read_of_written h numbered (ofJsonWithin?_null fuel true)
        fun c hc inner hinner hwritten => ih c hc hwritten (by omega) true
      rw [ofJsonWithin?, hnode]
      rfl

end Tree

section Writing

variable {C : Type} {W : C → Json → Prop} {write : C → Json} {number : Double → Json}

lemma Span.holds_spanJson {span : Span C} (h : W span.expression (write span.expression)) :
    (span.map W).Holds (spanJson (span.map write)) := by
  refine @record_of_present [("expression", Required (W span.expression),
    some (write span.expression)), ("literal", Defaulted (span.literal = "")
      (· = .string span.literal), some (.string span.literal))] (by simp) ?_
  intro field hfield
  rcases mem_pair.mp hfield with rfl | rfl
  · exact ⟨_, rfl, h⟩
  · exact .inr ⟨_, rfl, rfl⟩

lemma Slot.holds_json? {slot : Slot C} (h : ∀ c ∈ slot.subtrees, W c (write c))
    (hnumber : ∀ d, slot = .number d → ∃ n, number d = .number n ∧ n.toDouble = d) :
    (slot.map W).Holds ((slot.map write).json? number) := by
  cases slot with
  | text value | truth value | unaryOp value | binaryOp value => exact ⟨_, rfl, rfl⟩
  | nullableText value =>
    cases value with
    | none => exact .inl rfl
    | some value => exact ⟨_, rfl, rfl⟩
  | defaultedText value => exact .inr ⟨_, rfl, rfl⟩
  | flag on =>
    cases on with
    | false => exact .inl ⟨rfl, rfl⟩
    | true => exact .inr ⟨_, rfl, rfl⟩
  | number value => exact ⟨_, rfl, hnumber value rfl⟩
  | child value => exact ⟨_, rfl, h value mem_cons_self⟩
  | nullableChild value =>
    cases value with
    | none => exact .inl rfl
    | some value => exact ⟨_, rfl, h value mem_cons_self⟩
  | children values =>
    refine .inr ⟨_, rfl, _, rfl, ?_⟩
    rw [forall₂_map_left_iff, forall₂_map_right_iff, forall₂_same]
    exact h
  | spans values =>
    refine .inr ⟨_, rfl, _, rfl, ?_⟩
    simp only [map_map, forall₂_map_left_iff, forall₂_map_right_iff, forall₂_same]
    exact fun span hspan => Span.holds_spanJson (h _ (mem_map_of_mem hspan))

lemma Node.written_toJson {n : Node C} (h : ∀ c ∈ n.children, W c (write c))
    (hnumber : ∀ d, n = .numberLiteral d → ∃ m, number d = .number m ∧ m.toDouble = d) :
    (n.map W).Written ((n.map write).toJson number) := by
  have hrecord := @record_of_present
    (("kind", Required (· = .string n.kind.name), some (.string n.kind.name)) ::
      n.slots.map fun slot => (slot.1, (slot.2.map W).Holds, (slot.2.map write).json? number))
  simp only [map_cons, map_map, flatMap_cons, flatMap_map] at hrecord
  rw [Written, toJson, fieldsJson, slots_map, slots_map, kind_map, kind_map, map_map,
    flatMap_map]
  refine hrecord ?_ ?_
  · have hnames := n.kind.nodup_fields
    rwa [fields_kind] at hnames
  · intro field hfield
    rcases mem_cons.mp hfield with rfl | hfield
    · exact ⟨_, rfl, rfl⟩
    · obtain ⟨slot, hslot, rfl⟩ := mem_map.mp hfield
      refine Slot.holds_json? (fun c hc => h c ?_) fun d hd => hnumber d ?_
      · rw [children_eq_subtrees]
        exact mem_flatMap.mpr ⟨slot, hslot, hc⟩
      · obtain ⟨name, content⟩ := slot
        obtain rfl : content = .number d := hd
        exact eq_numberLiteral_of_slot hslot

end Writing

namespace Tree

variable {number : Double → Json} {tree : SyntaxTree}

lemma written_toJson (hnumber : ∀ s ∈ tree.subtrees, ∀ d, s.node = .numberLiteral d →
    ∃ n, number d = .number n ∧ n.toDouble = d) : tree.Written (tree.toJson number) := by
  induction tree using children_induction with
  | step tag n ih =>
    rw [written_mk, toJson, fold_mk]
    refine Node.written_toJson (fun c hc => ih c hc fun s hs => ?_) ?_
    · exact hnumber s (mem_subtrees_of_child hc hs)
    · exact hnumber _ (self_mem_subtrees _)

lemma written_insert_iff {before after : List (String × Json)} {value : Json}
    (hname : name ∉ "kind" :: tree.kind.fields) :
    tree.Written (.object (before ++ (name, value) :: after)) ↔
      tree.Written (.object (before ++ after)) := by
  obtain ⟨tag, n⟩ := tree
  rw [written_mk]
  refine record_insert_iff ?_
  have hfields : ((n.map Written).slots.map fun slot => (slot.1, slot.2.Holds)).map Prod.fst =
      n.kind.fields := by
    rw [map_map, ← n.kind_map Written, Node.fields_kind]
    rfl
  rwa [map_cons, hfields]

/-- What is written for a tree is read back as the tree, and so is every other document of it.
Fields that the node does not have may be added anywhere. -/
theorem documents_read_back
    (hnumber : ∀ d : Double, d.isFinite → ∃ n, number d = .number n ∧ n.toDouble = d)
    (hfinite : ∀ s ∈ tree.subtrees, ∀ d, s.node = .numberLiteral d → d.isFinite) :
    tree.Written (tree.toJson number) ∧ ofJson? (tree.toJson number) = some tree ∧
    (∀ json, tree.Written json → ofJson? json = some tree) ∧
    ∀ before after name value, name ∉ "kind" :: tree.kind.fields →
      (tree.Written (.object (before ++ (name, value) :: after)) ↔
        tree.Written (.object (before ++ after))) := by
  have hwritten : tree.Written (tree.toJson number) :=
    written_toJson fun s hs d hd => hnumber d (hfinite s hs d hd)
  have hread (json : Json) (h : tree.Written json) : ofJson? json = some tree :=
    ofJsonWithin?_of_written h (Nat.lt_succ_self _) false
  exact ⟨hwritten, hread _ hwritten, hread, fun _ _ _ _ => written_insert_iff⟩

/-- A function without a name that returns nothing and has a template of negative zero. -/
def bareFunction : SyntaxTree :=
  let zero : SyntaxTree := .mk () (.numberLiteral (.zero true))
  let template : SyntaxTree := .mk () (.templateExpr "" [⟨zero, ""⟩])
  .mk () (.functionDecl none []
    (.mk () (.block [.mk () (.returnStmt none), .mk () (.exprStmt template)] false)))

/-- The function with everything left out that may be, absent parts as null and a note. -/
def bareDocument : Json :=
  let zero : Json := .object [("value", .number (.double (.zero true))),
    ("kind", .string "NumberLiteral")]
  let template : Json := .object [("kind", .string "TemplateExpr"),
    ("spans", .array [.object [("expression", zero)]])]
  .object [("note", .array [.null]), ("name", .null), ("kind", .string "FunctionDecl"),
    ("body", .object [("kind", .string "Block"), ("statements", .array [
      .object [("expression", .null), ("kind", .string "ReturnStmt")],
      .object [("expression", template), ("kind", .string "ExprStmt")]])])]

lemma written_bareDocument : bareFunction.Written bareDocument := by
  simp [bareFunction, bareDocument, written_mk, Node.Written, Node.map, Node.slots, Node.kind,
    Kind.name, record_object_iff, has_iff_field?, field?, Slot.Holds, Required, Nullable, Defaulted,
    Listed, Span.Holds, JsonNumber.toDouble]

theorem documents_read_back_bareFunction :
    (∀ s ∈ bareFunction.subtrees, ∀ d, s.node = .numberLiteral d → d.isFinite) ∧
      ofJson? (bareFunction.toJson fun d => .number (.double d)) = some bareFunction ∧
      ofJson? bareDocument = some bareFunction := by
  have hfinite : ∀ s ∈ bareFunction.subtrees, ∀ d, s.node = .numberLiteral d → d.isFinite := by
    have hzero : (Double.zero true).isFinite = true := by decide
    simp [bareFunction, subtrees_eq, descendants, children, node, Node.children, hzero]
  have hnumber : ∀ d : Double, d.isFinite →
      ∃ n, (fun d => .number (.double d) : Double → Json) d = .number n ∧ n.toDouble = d :=
    fun d _ => ⟨.double d, rfl, rfl⟩
  obtain ⟨-, hwritten, hread, -⟩ := documents_read_back hnumber hfinite
  exact ⟨hfinite, hwritten, hread _ written_bareDocument⟩

end Tree

end ServiceFlow
