import Mathlib.Data.List.Forall2
import Mathlib.Data.List.Nodup
import ServiceFlow.Json.Fields
import ServiceFlow.Syntax.Encode

/-!
# Forms of records

What may stand in a field of a record, by the rule under which it may be left out. Other entries are
passed over, and the order of the entries makes no difference.
-/

namespace ServiceFlow.Json

open List

variable {α : Type} {P : Json → Prop} {read : Json → Option α} {field : Option Json} {json : Json}

/-- The field is there. -/
def Required (P : Json → Prop) (field : Option Json) : Prop := ∃ json, field = some json ∧ P json

/-- A value whose field is left out or null where it is absent. -/
def Nullable (P : Option (Json → Prop)) (field : Option Json) : Prop :=
  match P with
  | some P => Required P field
  | none => field = none ∨ field = some .null

/-- A value whose field may be left out if it is the default. -/
def Defaulted (isDefault : Prop) (P : Json → Prop) (field : Option Json) : Prop :=
  isDefault ∧ field = none ∨ Required P field

/-- A list with one item of each form. -/
def Listed (forms : List (Json → Prop)) (json : Json) : Prop :=
  ∃ items, json = .array items ∧ Forall₂ (fun form item => form item) forms items

/-- The entries with a name are its value, or there are none. -/
def Has (entries : List (String × Json)) (name : String) (value : Option Json) : Prop :=
  entries.filter (fun entry => entry.1 == name) = value.toList.map (name, ·)

/-- An object in which each of some fields has one of its forms and is not repeated. Nothing is said
about other entries. -/
def Record (fields : List (String × (Option Json → Prop))) (json : Json) : Prop :=
  ∃ entries, json = .object entries ∧
    ∀ field ∈ fields, ∃ value, field.2 value ∧ Has entries field.1 value

variable {entries before after : List (String × Json)} {key name : String} {value : Option Json}
  {fields : List (String × (Option Json → Prop))} {a : α} {form : α → Json → Prop}

lemma record_object_iff : Record fields (.object entries) ↔
    ∀ field ∈ fields, ∃ value, field.2 value ∧ Has entries field.1 value := by
  simp [Record]

lemma has_insert_iff (h : key ≠ name) :
    Has (before ++ (key, json) :: after) name value ↔ Has (before ++ after) name value := by
  simp [Has, h]

lemma record_insert_iff (h : key ∉ fields.map Prod.fst) :
    Record fields (.object (before ++ (key, json) :: after)) ↔
      Record fields (.object (before ++ after)) := by
  rw [record_object_iff, record_object_iff]
  refine forall₂_congr fun field hfield => exists_congr fun value => and_congr_right fun _ => ?_
  refine has_insert_iff ?_
  rintro rfl
  exact h (mem_map.mpr ⟨field, hfield, rfl⟩)

/-! ## Reading -/

lemma depth_le_of_mem_items {items : List Json} (h : json ∈ items) :
    json.depth ≤ depthItems items := by
  induction items with
  | nil => cases h
  | cons item items ih =>
    rw [depthItems]
    rcases mem_cons.mp h with rfl | h
    · exact Nat.le_max_left _ _
    · exact Nat.le_trans (ih h) (Nat.le_max_right _ _)

lemma depth_le_of_mem_entries (h : (name, json) ∈ entries) : json.depth ≤ depthEntries entries := by
  induction entries with
  | nil => cases h
  | cons entry entries ih =>
    obtain ⟨key, value⟩ := entry
    rw [depthEntries]
    rcases mem_cons.mp h with h | h
    · cases h
      exact Nat.le_max_left _ _
    · exact Nat.le_trans (ih h) (Nat.le_max_right _ _)

lemma Required.read_eq (h : Required P field)
    (hread : ∀ json ∈ field, P json → read json = some a) : required read field = some a := by
  obtain ⟨json, rfl, hP⟩ := h
  exact hread json rfl hP

lemma Nullable.read_eq {a : Option α} (h : Nullable (a.map form) field) (hnull : read .null = none)
    (hread : ∀ b ∈ a, ∀ json ∈ field, form b json → read json = some b) :
    nullable read field = some a := by
  cases a with
  | none => rcases h with rfl | rfl <;> rfl
  | some b =>
    obtain ⟨json, rfl, hform⟩ := h
    have hjson := hread b rfl json rfl hform
    have hne : json ≠ .null := by
      rintro rfl
      cases hnull.symm.trans hjson
    cases json <;> simp_all [nullable]

lemma Defaulted.read_eq {isDefault : Prop} {default : α} (h : Defaulted isDefault P field)
    (hdefault : isDefault → a = default) (hread : ∀ json ∈ field, P json → read json = some a) :
    defaulted default read field = some a := by
  rcases h with ⟨ha, rfl⟩ | ⟨json, rfl, hP⟩
  · rw [hdefault ha]
    rfl
  · exact hread json rfl hP

lemma Listed.read_eq {as : List α} (h : Listed (as.map form) json)
    (hread : ∀ a ∈ as, ∀ item : Json, item.depth < json.depth → form a item → read item = some a) :
    list? read json = some as := by
  obtain ⟨items, rfl, hitems⟩ := h
  have hdepth : ∀ item ∈ items, item.depth < (array items).depth := fun item hitem =>
    Nat.lt_succ_of_le (depth_le_of_mem_items hitem)
  generalize (array items).depth = bound at hread hdepth
  rw [list?]
  induction as generalizing items with
  | nil =>
    cases hitems
    rfl
  | cons a as ih =>
    obtain ⟨item, rest, hitem, hrest, rfl⟩ := forall₂_cons_left_iff.mp hitems
    have hfirst := hread a mem_cons_self item (hdepth item mem_cons_self) hitem
    have hothers := ih rest hrest (fun a ha => hread a (mem_cons_of_mem _ ha))
      fun item hitem => hdepth item (mem_cons_of_mem _ hitem)
    simp [hfirst, hothers]

lemma has_iff_field? : Has entries name value ↔ field? entries name = some value := by
  rw [Has, field?]
  rcases hfilter : entries.filter fun entry => entry.1 == name with
    _ | ⟨⟨key, json⟩, _ | ⟨_, _⟩⟩ <;> rw [hfilter]
  · cases value <;> simp
  · have hmem : (key, json) ∈ entries.filter fun entry => entry.1 == name := by
      rw [hfilter]
      exact mem_cons_self
    have hkey : key = name := by simpa using (mem_filter.mp hmem).2
    cases value <;> simp [hkey]
  · cases value <;> simp

lemma Has.mem (h : Has entries name (some json)) : (name, json) ∈ entries := by
  have hmem : (name, json) ∈ entries.filter fun entry => entry.1 == name := by
    rw [h]
    exact mem_cons_self
  exact mem_of_mem_filter hmem

lemma Record.fields?_eq (h : Record fields json) :
    ∃ values, json.fields? (fields.map Prod.fst) = some values ∧
      Forall₂ (fun field value => field.2 value ∧ ∀ v ∈ value, v.depth < json.depth)
        fields values := by
  obtain ⟨entries, rfl, hfields⟩ := h
  induction fields with
  | nil => exact ⟨[], rfl, .nil⟩
  | cons field fields ih =>
    obtain ⟨value, hform, hhas⟩ := hfields field mem_cons_self
    obtain ⟨values, hread, hvalues⟩ :=
      ih fun field hfield => hfields field (mem_cons_of_mem _ hfield)
    refine ⟨value :: values, ?_, .cons ⟨hform, ?_⟩ hvalues⟩
    · rw [fields?] at hread ⊢
      simp [has_iff_field?.mp hhas, hread]
    · rintro v ⟨⟩
      exact Nat.lt_succ_of_le (depth_le_of_mem_entries hhas.mem)

/-! ## Writing -/

lemma filter_present :
    (Node.present key value).filter (fun entry => entry.1 == name) =
      if key = name then value.toList.map (name, ·) else [] := by
  by_cases h : key = name <;> cases value <;> simp [Node.present, h]

lemma has_flatMap_present {fields : List (String × Option Json)}
    (hnames : (fields.map Prod.fst).Nodup) (h : (name, value) ∈ fields) :
    Has (fields.flatMap fun field => Node.present field.1 field.2) name value := by
  rw [Has, filter_flatMap]
  simp only [filter_present]
  induction fields with
  | nil => cases h
  | cons field fields ih =>
    obtain ⟨hnew, hnames⟩ := nodup_cons.mp hnames
    rw [flatMap_cons]
    rcases mem_cons.mp h with rfl | h
    · have hrest : (fields.flatMap fun field =>
          if field.1 = name then field.2.toList.map (name, ·) else []) = [] := by
        refine flatMap_eq_nil_iff.mpr fun field hfield => if_neg ?_
        rintro rfl
        exact hnew (mem_map.mpr ⟨field, hfield, rfl⟩)
      rw [if_pos rfl, hrest, append_nil]
    · have hne : field.1 ≠ name := by
        rintro rfl
        exact hnew (mem_map.mpr ⟨_, h, rfl⟩)
      rw [if_neg hne, nil_append, ih hnames h]

lemma record_of_present {fields : List (String × (Option Json → Prop) × Option Json)}
    (hnames : (fields.map Prod.fst).Nodup) (hforms : ∀ field ∈ fields, field.2.1 field.2.2) :
    Record (fields.map fun field => (field.1, field.2.1))
      (.object (fields.flatMap fun field => Node.present field.1 field.2.2)) := by
  refine ⟨_, rfl, fun field hfield => ?_⟩
  obtain ⟨⟨name, form, value⟩, hmem, rfl⟩ := mem_map.mp hfield
  refine ⟨value, hforms _ hmem, ?_⟩
  have hhas : Has ((fields.map fun field => (field.1, field.2.2)).flatMap fun field =>
      Node.present field.1 field.2) name value :=
    has_flatMap_present (by rwa [map_map]) (mem_map.mpr ⟨_, hmem, rfl⟩)
  rwa [flatMap_map] at hhas

end ServiceFlow.Json
