import ServiceFlow.Proofs.FormattedTexts
import ServiceFlow.Proofs.PayloadTemplates

/-!
# Fields of object literals

An object literal is lowered to fields, written with a mark if the value is computed. They have the
last values of the keys, as long as the values of a key are all computed or all plain and no key of
a plain value reads as marked.
-/

namespace ServiceFlow.Machine

open List

open Ordered (get? keys)

/-- The key and the value of a property. -/
def assignment? (property : Term) : Option (String × Term) :=
  match property.node with
  | .propertyAssignment name value => name.staticKey?.map (·, value)
  | _ => none

/-- The keys and values of properties. -/
def assignments (properties : List Term) : List (String × Term) := properties.filterMap assignment?

/-- The last value under a key. -/
def lastValue? (key : String) (properties : List Term) : Option Term :=
  get? key (assignments properties).reverse

def computed (program : Program) (t : Term) : Bool :=
  match data program t with
  | .ok d => d.isComputed
  | .error _ => false

section Lowering

variable {program : Program} {t : Term} {d : Data}

lemma computed_of_data (h : data program t = .ok d) : computed program t = d.isComputed := by
  rw [computed, h]

lemma data_cases (h : data program t = .ok d) :
    (∃ c, t.constant? program.references = some c ∧ d = .literal c.toJson) ∨
    (∃ id expression, t = .mk id (.awaitExpr expression) ∧ data program expression = .ok d) ∨
    (∃ id properties fields, t = .mk id (.objectLiteral properties) ∧
      fieldsData program [] properties = .ok fields ∧ d = .object fields) ∨
    d.isComputed = true ∨ d = .literal .null ∨ ∃ text, d = .literal (.string text) := by
  cases hc : t.constant? program.references with
  | some c =>
    rw [data_of_constant? hc] at h
    cases h
    exact .inl ⟨c, rfl, rfl⟩
  | none =>
    refine .inr ?_
    obtain ⟨id, n⟩ := t
    cases n with
    | awaitExpr expression =>
      rw [data_await] at h
      exact .inl ⟨id, expression, rfl, h⟩
    | identifier name =>
      rw [data_name, nameData] at h
      split_ifs at h <;> cases h
      · exact .inr (.inr (.inr (.inl rfl)))
      · exact .inr (.inr (.inl rfl))
    | templateExpr head spans =>
      rw [data_of_spans hc] at h
      obtain ⟨r, -, h⟩ := bind_eq_ok h
      cases h
      rw [formatData]
      split_ifs
      · exact .inr (.inr (.inr (.inr ⟨_, rfl⟩)))
      · exact .inr (.inr (.inl rfl))
    | objectLiteral properties =>
      obtain ⟨fields, hfields, rfl⟩ := data_object hc h
      exact .inr (.inl ⟨id, properties, fields, rfl, hfields, rfl⟩)
    | _ => exact .inr (.inr (.inl (isComputed_of_ne (by simp [Node.kind]) (by simp [Node.kind])
        (by simp [Node.kind]) (by simp [Node.kind]) hc h)))

def written (a : String × Data) : String × Data := (a.2.writtenKey a.1, a.2)

/-- The fields of properties, in order. -/
def lowered (value : Term → Data) (properties : List Term) : List (String × Data) :=
  (assignments properties).map fun a => (a.1, value a.2)

variable {properties : List Term} {key : String} {fields : Sorted Data}

lemma assignments_cons {id : NodeId} {name value : Term} (hkey : name.staticKey? = some key) :
    assignments (.mk id (.propertyAssignment name value) :: properties) =
      (key, value) :: assignments properties := by
  refine filterMap_cons_some ?_
  rw [assignment?]
  exact congrArg (Option.map (·, value)) hkey

lemma fieldsData_eq_ok {fields' : Sorted Data}
    (h : fieldsData program fields properties = .ok fields') :
    ∃ value : Term → Data, (∀ p ∈ properties, (assignment? p).isSome) ∧
      (∀ a ∈ assignments properties, data program a.2 = .ok (value a.2)) ∧
      fields' = fields.insertAll ((lowered value properties).map written) := by
  obtain ⟨value, hvalue⟩ : ∃ value : Term → Data, ∀ t d, data program t = .ok d → value t = d :=
    ⟨fun t => (data program t).toOption.getD (.literal .null), fun t d h => by
      simp [h, Except.toOption]⟩
  refine ⟨value, ?_⟩
  induction properties generalizing fields with
  | nil =>
    cases h
    exact ⟨by simp, by simp [assignments], rfl⟩
  | cons property properties ih =>
    obtain ⟨id, n⟩ := property
    cases n with
    | propertyAssignment name t =>
      rw [fieldsData] at h
      cases hkey : name.staticKey? with
      | none =>
        rw [hkey] at h
        cases h
      | some key =>
        rw [hkey] at h
        obtain ⟨d, hd, h⟩ := bind_eq_ok h
        obtain ⟨hassigns, hdata, hfields⟩ := ih h
        rw [lowered, assignments_cons hkey]
        refine ⟨forall_mem_cons.mpr ⟨by simp [assignment?, Tree.node, hkey], hassigns⟩,
          forall_mem_cons.mpr ⟨by rw [hd, hvalue _ _ hd], hdata⟩, ?_⟩
        rw [hfields, map_cons, map_cons, hvalue _ _ hd]
        rfl
    | _ =>
      rw [fieldsData] at h
      · cases h
      · simp

lemma exists_lowered (h : fieldsData program [] properties = .ok fields) :
    ∃ value : Term → Data, (∀ a ∈ assignments properties, data program a.2 = .ok (value a.2)) ∧
      fields = Sorted.ofEntries ((lowered value properties).map written) :=
  (fieldsData_eq_ok h).imp fun _ h => h.2

lemma sizeOf_lt_of_mem_assignments {a : String × Term} (h : a ∈ assignments properties) :
    sizeOf a.2 < sizeOf properties := by
  obtain ⟨⟨id, n⟩, hmem, ha⟩ := mem_filterMap.mp h
  have := sizeOf_lt_of_mem hmem
  cases n with
  | propertyAssignment name value =>
    obtain ⟨key, -, rfl⟩ := Option.map_eq_some_iff.mp ha
    simp only [Tree.mk.sizeOf_spec, Node.propertyAssignment.sizeOf_spec] at this
    dsimp only
    omega
  | _ => cases ha

lemma get?_lowered (value : Term → Data) (properties : List Term) (key : String) :
    get? key (lowered value properties).reverse = (lastValue? key properties).map value := by
  rw [lowered, ← map_reverse, Ordered.get?_map, lastValue?]

lemma mem_of_lastValue? {v : Term} (h : lastValue? key properties = some v) :
    (key, v) ∈ assignments properties :=
  mem_reverse.mp (Ordered.mem_of_get? h)

end Lowering

section Fields

variable {entries : List (String × Data)} {k k' : String} {d d' : Data}

lemma writtenKey_of_isComputed (h : d.isComputed = true) (k : String) :
    d.writtenKey k = k ++ ".$" := by
  cases d with
  | path p => rfl
  | call function arguments => rfl
  | _ => cases h

lemma writtenKey_of_not_isComputed (h : d.isComputed = false) (k : String) :
    d.writtenKey k = k := by
  cases d with
  | literal value => rfl
  | object fields => rfl
  | _ => cases h

lemma mark_ne (k : String) : k ++ ".$" ≠ k := by
  intro h
  have := congrArg String.length h
  simp at this

def Legible (a : String × Data) : Prop := a.2.isComputed = false → markedName? a.1 = none

lemma templateName_writtenKey (h : Legible (k, d)) : templateName (d.writtenKey k) = k := by
  rw [templateName]
  cases hd : d.isComputed with
  | true => rw [writtenKey_of_isComputed hd, markedName?_mark, Option.getD_some]
  | false => rw [writtenKey_of_not_isComputed hd, h hd, Option.getD_none]

lemma templateName_written {a : String × Data} (h : Legible a) :
    templateName (written a).1 = a.1 := by
  rw [written, templateName_writtenKey h]

lemma get?_written_of_get? (hlegible : ∀ a ∈ entries, Legible a) (h : get? k entries = some d) :
    get? (d.writtenKey k) (entries.map written) = some d := by
  have hmem := Ordered.mem_of_get? h
  induction entries with
  | nil => cases h
  | cons a entries ih =>
    rw [get?] at h
    rw [map_cons, get?]
    by_cases hk : a.1 = k
    · rw [if_pos hk] at h
      cases h
      rw [if_pos (by rw [written, hk]), written]
    · rw [if_neg hk] at h
      have hrest := Ordered.mem_of_get? h
      -- the names of the two fields are the two keys
      have hne : (written a).1 ≠ d.writtenKey k := fun heq => hk <| by
        rw [← templateName_written (hlegible a mem_cons_self), heq]
        exact templateName_writtenKey (hlegible (k, d) hmem)
      rw [if_neg hne]
      exact ih (fun b hb => hlegible b (mem_cons_of_mem _ hb)) h hrest

lemma exists_of_get?_written {name : String} (huniform : ∀ a ∈ entries, ∀ b ∈ entries,
    a.1 = b.1 → a.2.isComputed = b.2.isComputed)
    (h : get? name (entries.map written) = some d) :
    ∃ k, get? k entries = some d ∧ name = d.writtenKey k := by
  induction entries with
  | nil => cases h
  | cons a entries ih =>
    rw [map_cons, get?] at h
    by_cases hname : (written a).1 = name
    · rw [if_pos hname] at h
      cases h
      exact ⟨a.1, by rw [get?, if_pos rfl]; rfl, hname.symm⟩
    · rw [if_neg hname] at h
      obtain ⟨k, hk, rfl⟩ := ih (fun a ha b hb => huniform a (mem_cons_of_mem _ ha) b
        (mem_cons_of_mem _ hb)) h
      refine ⟨k, ?_, rfl⟩
      -- an assignment of the same key in the same form would have written the same field
      have hne : a.1 ≠ k := by
        rintro rfl
        have hform := huniform a mem_cons_self (a.1, d)
          (mem_cons_of_mem _ (Ordered.mem_of_get? hk)) rfl
        apply hname
        rw [written]
        cases hd : d.isComputed with
        | true => rw [writtenKey_of_isComputed hd, writtenKey_of_isComputed (hform.trans hd)]
        | false =>
          rw [writtenKey_of_not_isComputed hd, writtenKey_of_not_isComputed (hform.trans hd)]
      rwa [get?, if_neg hne]

lemma get?_fields (lowered : List (String × Data)) (name : String) :
    get? name (Sorted.ofEntries (lowered.map written)) =
      get? name (lowered.reverse.map written) := by
  rw [Sorted.get?_ofEntries, map_reverse]

section Level

variable {lowered : List (String × Data)} (hlegible : ∀ a ∈ lowered, Legible a)

include hlegible

lemma mem_fields_of_get? (h : get? k lowered.reverse = some d) :
    (d.writtenKey k, d) ∈ Sorted.ofEntries (lowered.map written) := by
  apply Ordered.mem_of_get?
  rw [get?_fields]
  exact get?_written_of_get? (fun a ha => hlegible a (mem_reverse.mp ha)) h

lemma exists_last_of_mem_fields {field : String × Data}
    (huniform : ∀ a ∈ lowered, ∀ b ∈ lowered, a.1 = b.1 → a.2.isComputed = b.2.isComputed)
    (h : field ∈ Sorted.ofEntries (lowered.map written)) : ∃ k,
      get? k lowered.reverse = some field.2 ∧ field.1 = field.2.writtenKey k ∧
      templateName field.1 = k := by
  have hget := (Ordered.get?_eq_some_iff (Sorted.strict_ofEntries _).nodup_keys).mpr h
  rw [get?_fields] at hget
  obtain ⟨k, hk, hname⟩ := exists_of_get?_written (fun a ha b hb =>
    huniform a (mem_reverse.mp ha) b (mem_reverse.mp hb)) hget
  refine ⟨k, hk, hname, ?_⟩
  rw [hname]
  exact templateName_writtenKey (hlegible (k, field.2) (mem_reverse.mp (Ordered.mem_of_get? hk)))

lemma isComputed_eq_of_nodup_names
    (hnames : ((Sorted.ofEntries (lowered.map written)).map fun field =>
      templateName field.1).Nodup) :
    ∀ a ∈ lowered, ∀ b ∈ lowered, a.1 = b.1 → a.2.isComputed = b.2.isComputed := by
  intro a ha b hb hkey
  have hfield : ∀ c ∈ lowered, ∃ d, ((written c).1, d) ∈
      Sorted.ofEntries (lowered.map written) := fun c hc => by
    have hkeys : (written c).1 ∈ keys (lowered.reverse.map written) :=
      mem_map_of_mem (mem_map_of_mem (mem_reverse.mpr hc))
    obtain ⟨d, hd⟩ := Ordered.exists_get?_of_mem_keys hkeys
    rw [← get?_fields] at hd
    exact ⟨d, Ordered.mem_of_get? hd⟩
  obtain ⟨d, hd⟩ := hfield a ha
  obtain ⟨d', hd'⟩ := hfield b hb
  have heq : ((written a).1, d) = ((written b).1, d') :=
    inj_on_of_nodup_map hnames hd hd' <| by
      rw [templateName_written (hlegible a ha), templateName_written (hlegible b hb), hkey]
  have hwritten : a.2.writtenKey a.1 = b.2.writtenKey b.1 := (Prod.mk.inj heq).1
  rw [hkey] at hwritten
  cases hform : a.2.isComputed <;> cases hform' : b.2.isComputed
  · rfl
  · rw [writtenKey_of_not_isComputed hform, writtenKey_of_isComputed hform'] at hwritten
    exact absurd hwritten.symm (mark_ne _)
  · rw [writtenKey_of_isComputed hform, writtenKey_of_not_isComputed hform'] at hwritten
    exact absurd hwritten (mark_ne _)
  · rfl

lemma nodup_names
    (huniform : ∀ a ∈ lowered, ∀ b ∈ lowered, a.1 = b.1 → a.2.isComputed = b.2.isComputed) :
    ((Sorted.ofEntries (lowered.map written)).map fun field => templateName field.1).Nodup := by
  refine Nodup.map_on (fun field hfield field' hfield' heq => ?_)
    (Sorted.strict_ofEntries _).nodup_keys.of_map
  obtain ⟨k, hk, hname, rfl⟩ := exists_last_of_mem_fields hlegible huniform hfield
  obtain ⟨k', hk', hname', rfl⟩ := exists_last_of_mem_fields hlegible huniform hfield'
  rw [heq, hk'] at hk
  have hdata : field.2 = field'.2 := (Option.some.inj hk).symm
  exact Prod.ext (by rw [hname, hname', heq, hdata]) hdata

end Level

end Fields

end ServiceFlow.Machine
