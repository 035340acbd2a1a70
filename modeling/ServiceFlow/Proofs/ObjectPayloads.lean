import ServiceFlow.Proofs.ObjectFields

/-!
# Payload templates of object literals

The template of an object literal has the last value of each key exactly if no key is assigned both
computed and plain values, as long as no plain value has a key that reads as marked.
-/

namespace ServiceFlow.Machine

open List

open Ordered (get? keys)
open Sorted (Strict)

mutual

/-- The value of an expression: that of its literal, path or function call, and for an object
literal the object with the last value of each key. -/
def sourceValue? (program : Program) (resolve : String → Option Json) (t : Term) : Option Json :=
  match data program t with
  | .error _ => none
  | .ok (.literal value) => some value
  | .ok (.path p) => resolve p.text
  | .ok (.call function arguments) => resolve (Operand.call function arguments).render
  | .ok (.object _) =>
    match t with
    | .mk _ (.awaitExpr expression) => sourceValue? program resolve expression
    | .mk _ (.objectLiteral properties) => gather? (propertyValues program resolve properties)
    | _ => none
termination_by structural t

def propertyValues (program : Program) (resolve : String → Option Json) :
    List Term → List (String × Option Json)
  | [] => []
  | .mk _ (.propertyAssignment name value) :: rest =>
    match name.staticKey? with
    | some key => (key, sourceValue? program resolve value) :: propertyValues program resolve rest
    | none => propertyValues program resolve rest
  | _ :: rest => propertyValues program resolve rest
termination_by structural ts => ts

end

/-- The properties of an object literal. -/
def properties? : Term → Option (List Term)
  | .mk _ (.awaitExpr expression) => properties? expression
  | .mk _ (.objectLiteral properties) => some properties
  | _ => none

/-- The second properties are the first ones, or those of an object literal that stands in them as
the last value of a key, at any depth. -/
inductive Inner (program : Program) : List Term → List Term → Prop
  | here (properties : List Term) : Inner program properties properties
  | value {properties inner innermost : List Term} {key : String} {v : Term}
      {fields : Sorted Data} : lastValue? key properties = some v →
      data program v = .ok (.object fields) → properties? v = some inner →
      Inner program inner innermost → Inner program properties innermost

/-- No key is assigned both computed and plain values. -/
def OneForm (program : Program) (properties : List Term) : Prop :=
  ∀ inner, Inner program properties inner → ∀ a ∈ assignments inner, ∀ b ∈ assignments inner,
    a.1 = b.1 → computed program a.2 = computed program b.2

/-- No fixed key looks computed, at any depth. -/
def PlainKeys (program : Program) (properties : List Term) : Prop :=
  ∀ inner, Inner program properties inner → ∀ a ∈ assignments inner,
    computed program a.2 = false → markedName? a.1 = none ∧
      ∀ value, data program a.2 = .ok (.literal value) → Unmarked value

/-- A template gives each field once, and its value in every document is that of the literal. -/
structure Denotes (program : Program) (properties : List Term) (template : Json) : Prop where
  unambiguous : Unambiguous template
  evaluates : ∀ resolve, evaluate? resolve template =
    gather? (propertyValues program resolve properties)

section Lowering

variable {program : Program} {t : Term}

lemma strict_of_literal {value : Json} (h : data program t = .ok (.literal value)) :
    value.Throughout Strict := by
  induction t using Tree.children_induction with
  | step id n ih =>
    obtain ⟨c, -, hd⟩ | ⟨id, expression, ht, hexpression⟩ | ⟨id, properties, fields, -, -, hd⟩ |
      hd | hd | ⟨text, hd⟩ := data_cases h
    · cases hd
      exact c.strict_toJson
    · cases ht
      exact ih expression (by simp [Node.children]) hexpression
    · cases hd
    · cases hd
    · cases hd
      exact Json.throughout_of_parts_nil rfl (by simp)
    · cases hd
      exact Json.throughout_of_parts_nil rfl (by simp)

lemma exists_properties_of_object {fields : Sorted Data}
    (h : data program t = .ok (.object fields)) :
    ∃ properties, properties? t = some properties ∧
      fieldsData program [] properties = .ok fields ∧ sizeOf properties < sizeOf t ∧
      ∀ resolve, sourceValue? program resolve t =
        gather? (propertyValues program resolve properties) := by
  induction t using Tree.children_induction with
  | step id n ih =>
    obtain ⟨c, -, hd⟩ | ⟨id, expression, ht, hexpression⟩ |
      ⟨id, properties, fields, ht, hfields, hd⟩ | hd | hd | ⟨text, hd⟩ := data_cases h
    · cases hd
    · cases ht
      obtain ⟨properties, hproperties, hfields, hsize, hvalue⟩ :=
        ih expression (by simp [Node.children]) hexpression
      refine ⟨properties, by rw [properties?, hproperties], hfields, ?_, fun resolve => ?_⟩
      · simp only [Tree.mk.sizeOf_spec, Node.awaitExpr.sizeOf_spec]
        omega
      · rw [sourceValue?.eq_def, h]
        exact hvalue resolve
    · cases ht
      cases hd
      refine ⟨properties, rfl, hfields, ?_, fun resolve => ?_⟩
      · simp only [Tree.mk.sizeOf_spec, Node.objectLiteral.sizeOf_spec]
        omega
      · rw [sourceValue?.eq_def, h]
    · cases hd
    · cases hd
    · cases hd

lemma propertyValues_eq (program : Program) (resolve : String → Option Json)
    (properties : List Term) : propertyValues program resolve properties =
      (assignments properties).map fun a => (a.1, sourceValue? program resolve a.2) := by
  induction properties with
  | nil => rfl
  | cons property properties ih =>
    obtain ⟨id, n⟩ := property
    rw [assignments, filterMap_cons, propertyValues.eq_def]
    cases n with
    | propertyAssignment name value =>
      dsimp only [assignment?, Tree.node]
      cases name.staticKey? with
      | none => exact ih
      | some key => rw [ih]; rfl
    | _ => exact ih

end Lowering

section Objects

variable {program : Program} {properties : List Term} {fields : Sorted Data}

lemma forall_inner_iff {P : List Term → Prop} :
    (∀ inner, Inner program properties inner → P inner) ↔
      P properties ∧ ∀ key v fields inner, lastValue? key properties = some v →
        data program v = .ok (.object fields) → properties? v = some inner →
        ∀ innermost, Inner program inner innermost → P innermost := by
  refine ⟨fun h => ⟨h _ (.here _), fun key v fields inner hlast hd hinner innermost hin =>
    h _ (.value hlast hd hinner hin)⟩, fun ⟨hhere, hvalues⟩ inner hin => ?_⟩
  cases hin with
  | here => exact hhere
  | value hlast hd hinner hin => exact hvalues _ _ _ _ hlast hd hinner _ hin

lemma fieldsToJson_eq (fields : List (String × Data)) :
    Data.fieldsToJson fields = fields.map fun field => (field.1, field.2.toJson) := by
  induction fields with
  | nil => rfl
  | cons field fields ih => rw [Data.fieldsToJson, ih, map_cons]

lemma unambiguous_object : Unambiguous (Data.object fields).toJson ↔
    (fields.map fun field => templateName field.1).Nodup ∧
      ∀ field ∈ fields, Unambiguous field.2.toJson := by
  rw [Data.toJson, fieldsToJson_eq, Unambiguous, Json.throughout_object, map_map, forall_mem_map]
  rfl

section Values

variable {value : Term → Data}

lemma get?_propertyValues (resolve : String → Option Json) (key : String) :
    get? key (propertyValues program resolve properties).reverse =
      (lastValue? key properties).map (sourceValue? program resolve) := by
  rw [propertyValues_eq, ← map_reverse, Ordered.get?_map, lastValue?]

variable (hdata : ∀ a ∈ assignments properties, data program a.2 = .ok (value a.2))

include hdata

lemma legible_lowered (hplain : PlainKeys program properties) :
    ∀ a ∈ lowered value properties, Legible a := by
  rw [lowered, forall_mem_map]
  intro a ha hform
  rw [← computed_of_data (hdata a ha)] at hform
  exact (hplain _ (.here _) a ha hform).1

lemma uniform_lowered_iff : (∀ a ∈ lowered value properties, ∀ b ∈ lowered value properties,
      a.1 = b.1 → a.2.isComputed = b.2.isComputed) ↔
    ∀ a ∈ assignments properties, ∀ b ∈ assignments properties, a.1 = b.1 →
      computed program a.2 = computed program b.2 := by
  simp only [lowered, forall_mem_map]
  refine forall₂_congr fun a ha => forall₂_congr fun b hb => ?_
  rw [computed_of_data (hdata a ha), computed_of_data (hdata b hb)]

end Values

/-- A template gives each field once exactly if no key is assigned values of both forms. -/
lemma unambiguous_iff_oneForm (h : fieldsData program [] properties = .ok fields)
    (hplain : PlainKeys program properties) :
    Unambiguous (Data.object fields).toJson ↔ OneForm program properties := by
  induction hsize : sizeOf properties using Nat.strongRecOn generalizing properties fields with
  | _ size ih =>
    subst hsize
    obtain ⟨value, hdata, rfl⟩ := exists_lowered h
    have hlegible := legible_lowered hdata hplain
    -- a value that is an object has a template of its own
    have hobject : ∀ key v fields inner, lastValue? key properties = some v →
        data program v = .ok (.object fields) → properties? v = some inner →
        (Unambiguous (value v).toJson ↔ OneForm program inner) := by
      intro key v fields inner hlast hd hinner
      have hmem := mem_of_lastValue? hlast
      obtain ⟨inner', hinner', hfields, hlt, -⟩ := exists_properties_of_object hd
      obtain rfl : inner' = inner := Option.mem_unique hinner' hinner
      have hv : value v = .object fields := Except.ok.inj ((hdata _ hmem).symm.trans hd)
      rw [hv]
      exact ih _ (hlt.trans (sizeOf_lt_of_mem_assignments hmem)) hfields
        (fun innermost hin => hplain _ (.value hlast hd hinner hin)) rfl
    have hone : OneForm program properties ↔ _ := forall_inner_iff
    rw [hone, unambiguous_object, ← uniform_lowered_iff hdata]
    constructor
    · rintro ⟨hnames, hvalues⟩
      refine ⟨isComputed_eq_of_nodup_names hlegible hnames,
        fun key v fields inner hlast hd hinner => ?_⟩
      have hget : get? key (lowered value properties).reverse = some (value v) := by
        rw [get?_lowered, hlast, Option.map_some]
      exact (hobject key v fields inner hlast hd hinner).mp
        (hvalues _ (mem_fields_of_get? hlegible hget))
    · rintro ⟨huniform, hvalues⟩
      refine ⟨nodup_names hlegible huniform, fun field hfield => ?_⟩
      obtain ⟨key, hget, -, -⟩ := exists_last_of_mem_fields hlegible huniform hfield
      rw [get?_lowered] at hget
      obtain ⟨v, hlast, hv⟩ := Option.map_eq_some_iff.mp hget
      have hd := hdata _ (mem_of_lastValue? hlast)
      rw [← hv]
      cases hvalue : value v with
      | literal json =>
        rw [hvalue] at hd
        have hform : computed program v = false := computed_of_data hd
        exact unambiguous_of_unmarked (strict_of_literal hd)
          ((hplain _ (.here _) _ (mem_of_lastValue? hlast) hform).2 json hd)
      | object inner =>
        rw [hvalue] at hd
        obtain ⟨inner, hinner, -⟩ := exists_properties_of_object hd
        rw [← hvalue]
        exact (hobject key v _ inner hlast hd hinner).mpr (hvalues key v _ inner hlast hd hinner)
      | path p | call function arguments =>
        exact Json.throughout_of_parts_nil rfl (by simp [Data.toJson])

variable {key : String} {v : Term} {d : Data}

lemma fieldValue_written (resolve : String → Option Json) (hd : data program v = .ok d)
    (hplain : d.isComputed = false → markedName? key = none ∧
      ∀ json, data program v = .ok (.literal json) → Unmarked json)
    (hobject : ∀ fields, d = .object fields →
      evaluate? resolve d.toJson = sourceValue? program resolve v) :
    fieldValue resolve (d.writtenKey key, d.toJson) = (key, sourceValue? program resolve v) := by
  cases d with
  | literal json =>
    obtain ⟨hkey, hunmarked⟩ := hplain rfl
    rw [Data.writtenKey, fieldValue_of_unmarked (key, _) hkey, Data.toJson,
      evaluate?_of_unmarked resolve json (strict_of_literal hd) (hunmarked json hd),
      sourceValue?.eq_def, hd]
  | object fields =>
    rw [Data.writtenKey, fieldValue_of_unmarked (key, _) (hplain rfl).1, hobject fields rfl]
  | path p | call function arguments =>
    rw [Data.writtenKey, fieldValue, markedName?_mark, sourceValue?.eq_def, hd]
    rfl

lemma evaluate?_of_oneForm (h : fieldsData program [] properties = .ok fields)
    (hplain : PlainKeys program properties) (hone : OneForm program properties)
    (resolve : String → Option Json) : evaluate? resolve (Data.object fields).toJson =
      gather? (propertyValues program resolve properties) := by
  induction hsize : sizeOf properties using Nat.strongRecOn generalizing properties fields with
  | _ size ih =>
    subst hsize
    obtain ⟨value, hdata, rfl⟩ := exists_lowered h
    have hlegible := legible_lowered hdata hplain
    have huniform := (uniform_lowered_iff hdata).mpr (hone _ (.here _))
    have hfield : ∀ key v, lastValue? key properties = some v →
        fieldValue resolve ((value v).writtenKey key, (value v).toJson) =
          (key, sourceValue? program resolve v) := by
      intro key v hlast
      have hmem := mem_of_lastValue? hlast
      have hd := hdata _ hmem
      refine fieldValue_written resolve hd (fun hform =>
        hplain _ (.here _) _ hmem ((computed_of_data hd).trans hform)) fun fields hfields => ?_
      rw [hfields] at hd
      obtain ⟨inner, hinner, hlowered, hlt, hsource⟩ := exists_properties_of_object hd
      rw [hsource, hfields]
      exact ih _ (hlt.trans (sizeOf_lt_of_mem_assignments hmem)) hlowered
        (fun innermost hin => hplain _ (.value hlast hd hinner hin))
        (fun innermost hin => hone _ (.value hlast hd hinner hin)) rfl
    rw [Data.toJson, fieldsToJson_eq, evaluate?, fieldValues_eq, map_map]
    refine gather?_congr fun name => Option.ext fun x => ?_
    -- the names of the fields differ, so a name leads to each value that one of its fields has
    have hnames : ∀ fields : Sorted Data, (fields.map fun field => templateName field.1).Nodup →
        (keys (fields.map (fieldValue resolve ∘ fun field =>
          (field.1, field.2.toJson))).reverse).Nodup := fun fields hnodup => by
      rw [Ordered.keys, map_reverse, nodup_reverse, map_map]
      exact (map_congr_left fun field _ => fst_fieldValue ..) ▸ hnodup
    rw [Ordered.get?_eq_some_iff (hnames _ (nodup_names hlegible huniform)), mem_reverse,
      mem_map, get?_propertyValues]
    constructor
    · rintro ⟨field, hmem, hx⟩
      obtain ⟨key, hget, hname, -⟩ := exists_last_of_mem_fields hlegible huniform hmem
      rw [get?_lowered] at hget
      obtain ⟨v, hlast, hv⟩ := Option.map_eq_some_iff.mp hget
      rw [Function.comp_apply, hname, ← hv, hfield key v hlast] at hx
      cases hx
      rw [hlast, Option.map_some]
    · intro hx
      obtain ⟨v, hlast, rfl⟩ := Option.map_eq_some_iff.mp hx
      have hget : get? name (lowered value properties).reverse = some (value v) := by
        rw [get?_lowered, hlast, Option.map_some]
      exact ⟨_, mem_fields_of_get? hlegible hget, hfield name v hlast⟩

lemma exists_sourceValue? {t : Term} (h : data program t = .ok d) (j : Json) :
    ∃ x, sourceValue? program (fun _ => some j) t = some x := by
  induction hsize : sizeOf t using Nat.strongRecOn generalizing t d with
  | _ size ih =>
    subst hsize
    cases d with
    | object fields =>
      obtain ⟨inner, -, hfields, hlt, hsource⟩ := exists_properties_of_object h
      obtain ⟨value, hdata, -⟩ := exists_lowered hfields
      rw [hsource, propertyValues_eq]
      refine exists_gather? (forall_mem_map.mpr fun a ha => ?_)
      exact ih _ ((sizeOf_lt_of_mem_assignments ha).trans hlt) (hdata a ha) rfl
    | _ =>
      rw [sourceValue?.eq_def, h]
      exact ⟨_, rfl⟩

lemma exists_textValue?_of_marked {resolve : String → Option Json} {x : Option Json}
    {entries : List (String × Json)} (h : (key, x) ∈ entries.map (fieldValue resolve))
    (hkey : markedName? key ≠ none) : ∃ value, x = textValue? resolve value := by
  obtain ⟨field, -, hfield⟩ := mem_map.mp h
  rw [fieldValue] at hfield
  cases hname : markedName? field.1 with
  | none =>
    rw [hname] at hfield
    cases hfield
    exact absurd hname hkey
  | some name =>
    rw [hname] at hfield
    exact ⟨field.2, (Prod.mk.inj hfield).2.symm⟩

variable (h : fieldsData program [] properties = .ok fields)
  (heval : ∀ resolve, evaluate? resolve (Data.object fields).toJson =
    gather? (propertyValues program resolve properties))
  (hlast : lastValue? key properties = some v)
include h heval hlast

lemma sourceValue?_of_marked (hkey : markedName? key ≠ none) (j : Json) :
    sourceValue? program (fun _ => some j) v = some j := by
  obtain ⟨value, hdata, -⟩ := exists_lowered h
  obtain ⟨object, hobject⟩ : ∃ x, gather? (propertyValues program (fun _ => some j) properties) =
      some x := by
    rw [propertyValues_eq]
    exact exists_gather? (forall_mem_map.mpr fun a ha => exists_sourceValue? (hdata a ha) j)
  have htemplate := (heval _).trans hobject
  rw [Data.toJson, evaluate?, fieldValues_eq] at htemplate
  obtain ⟨entries, rfl, hfields⟩ := get?_of_gather? htemplate
  obtain ⟨entries', heq, hentries⟩ := get?_of_gather? hobject
  cases heq
  have hget := (hfields key).symm.trans (hentries key)
  rw [get?_propertyValues, hlast, Option.map_some] at hget
  obtain ⟨text, htext⟩ := exists_textValue?_of_marked
    (mem_reverse.mp (Ordered.mem_of_get? hget)) hkey
  obtain ⟨x, hx⟩ := exists_sourceValue? (hdata _ (mem_of_lastValue? hlast)) j
  rw [hx] at htext ⊢
  cases text with
  | string text => exact htext
  | _ => cases htext

lemma markedName?_of_evaluates (hform : computed program v = false) : markedName? key = none := by
  by_contra hkey
  obtain ⟨value, hdata, -⟩ := exists_lowered h
  have hvalue := sourceValue?_of_marked h heval hlast hkey
  have hd := hdata _ (mem_of_lastValue? hlast)
  cases hv : value v with
  | literal json =>
    rw [hv] at hd
    have hnull := hvalue .null
    have htrue := hvalue (.bool true)
    rw [sourceValue?.eq_def, hd] at hnull htrue
    exact Json.noConfusion (Option.mem_unique hnull htrue)
  | object inner =>
    rw [hv] at hd
    obtain ⟨inner, -, -, -, hsource⟩ := exists_properties_of_object hd
    obtain ⟨entries, heq, -⟩ := get?_of_gather? ((hsource _).symm.trans (hvalue .null))
    cases heq
  | path p | call function arguments =>
    rw [computed_of_data hd, hv] at hform
    cases hform

end Objects

/-- The template of an object literal has, in every document, the last value of each key of the
literal and no other field, exactly if no key is assigned values of both forms; it never has the
plain value of a key that reads as marked. -/
theorem object_payload_denotes {program : Program} {properties : List Term} {fields : Sorted Data}
    (h : fieldsData program [] properties = .ok fields) :
    (PlainKeys program properties →
      (Denotes program properties (Data.object fields).toJson ↔ OneForm program properties)) ∧
    (Denotes program properties (Data.object fields).toJson →
      ∀ key v, lastValue? key properties = some v → computed program v = false →
        markedName? key = none) := by
  refine ⟨fun hplain => ⟨fun hdenotes => ?_, fun hone => ?_⟩, fun hdenotes key v hlast hform => ?_⟩
  · exact (unambiguous_iff_oneForm h hplain).mp hdenotes.unambiguous
  · exact ⟨(unambiguous_iff_oneForm h hplain).mpr hone, evaluate?_of_oneForm h hplain hone⟩
  · exact markedName?_of_evaluates h hdenotes.evaluates hlast hform

section Parcel

def assign (id : NodeId) (key : String) (value : Term) : Term :=
  .mk id (.propertyAssignment (.mk (id + 1) (.stringLiteral key)) value)

/-- The properties of `{ kind: 'box', of: order.customer }`. -/
def label : List Term := [assign 10 "kind" (.mk 12 (.stringLiteral "box")), assign 13 "of" customer]

/-- The properties of `{ count: 1, label: { .. }, count: 2 }`. -/
def parcel : List Term :=
  [assign 20 "count" (.mk 22 (.numberLiteral (.ofInt 1))),
    assign 23 "label" (.mk 25 (.objectLiteral label)),
    assign 26 "count" (.mk 28 (.numberLiteral (.ofInt 2)))]

lemma forall_inner_parcel {P : List Term → Prop} (hparcel : P parcel) (hlabel : P label) :
    ∀ inner, Inner lineProgram parcel inner → P inner := by
  have hleaf : ∀ a ∈ assignments label, ∀ fields, data lineProgram a.2 ≠ .ok (.object fields) := by
    rintro a ha fields hd
    rcases mem_cons.mp ha with rfl | ha
    · cases hd
    · obtain rfl := mem_singleton.mp ha
      cases hd
  refine forall_inner_iff.mpr ⟨hparcel, fun key v fields inner hlast hd hinner => ?_⟩
  rcases mem_cons.mp (mem_of_lastValue? hlast) with h | h
  · cases h
    cases hd
  · rcases mem_cons.mp h with h | h
    · cases h
      cases hinner
      exact forall_inner_iff.mpr ⟨hlabel, fun key v fields inner hlast hd _ =>
        absurd hd (hleaf _ (mem_of_lastValue? hlast) fields)⟩
    · cases mem_singleton.mp h
      cases hd

theorem object_payload_denotes_parcel : ∃ fields,
    fieldsData lineProgram [] parcel = .ok fields ∧ PlainKeys lineProgram parcel ∧
    OneForm lineProgram parcel ∧ Denotes lineProgram parcel (Data.object fields).toJson := by
  have h : fieldsData lineProgram [] parcel = .ok [("count", .literal (.number (.int 2))),
      ("label", .object [("kind", .literal (.string "box")),
        ("of.$", .path (.field (.ofVariable "order") "customer"))])] := rfl
  have hkeys : ∀ inner, Inner lineProgram parcel inner → ∀ a ∈ assignments inner,
      markedName? a.1 = none :=
    forall_inner_parcel (by decide +kernel) (by decide +kernel)
  have hvalues : ∀ inner, Inner lineProgram parcel inner → ∀ a ∈ assignments inner, ∀ value,
      data lineProgram a.2 = .ok (.literal value) → Unmarked value := by
    refine forall_inner_parcel (fun a ha value hd => ?_) fun a ha value hd => ?_
    · rcases mem_cons.mp ha with rfl | ha
      · cases hd
        exact Json.throughout_of_parts_nil rfl fun _ h => Json.noConfusion h
      · rcases mem_cons.mp ha with rfl | ha
        · cases hd
        · cases mem_singleton.mp ha
          cases hd
          exact Json.throughout_of_parts_nil rfl fun _ h => Json.noConfusion h
    · rcases mem_cons.mp ha with rfl | ha
      · cases hd
        exact Json.throughout_of_parts_nil rfl fun _ h => Json.noConfusion h
      · cases mem_singleton.mp ha
        cases hd
  have hplain : PlainKeys lineProgram parcel := fun inner hin a ha _ =>
    ⟨hkeys inner hin a ha, hvalues inner hin a ha⟩
  have hone : OneForm lineProgram parcel :=
    forall_inner_parcel (by decide +kernel) (by decide +kernel)
  exact ⟨_, h, hplain, hone, ((object_payload_denotes h).1 hplain).mpr hone⟩

/-- `{ of: order.customer, of: 1 }` has a template that gives one field twice, and
`{ "of.$": "x" }` has one that gives a field with another name. -/
theorem fields_take_other_names :
    (∃ fields, fieldsData lineProgram []
        [assign 10 "of" customer, assign 13 "of" (.mk 15 (.numberLiteral (.ofInt 1)))] =
          .ok fields ∧ keys fields = ["of", "of.$"] ∧
        ¬ Unambiguous (Data.object fields).toJson) ∧
    ∃ fields, fieldsData lineProgram [] [assign 10 "of.$" (.mk 12 (.stringLiteral "x"))] =
        .ok fields ∧ keys fields = ["of.$"] ∧
      ∀ resolve x, resolve "x" = some x →
        evaluate? resolve (Data.object fields).toJson = some (.object [("of", x)]) := by
  refine ⟨⟨_, rfl, rfl, fun h => ?_⟩, _, rfl, rfl, fun resolve x hx => ?_⟩
  · exact absurd (h _ (.here _)) (by decide +kernel)
  · change gather? [("of", resolve "x")] = _
    rw [hx]
    rfl

end Parcel

end ServiceFlow.Machine
