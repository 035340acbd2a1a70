import ServiceFlow.Proofs.ConstantForms
import ServiceFlow.Proofs.SortedMaps

/-!
# Payload templates

A payload template is a JSON value in which a field `k.$` stands for a field `k` with the value of
the path or the function call that is its text. A value without such fields stands for itself.
-/

namespace ServiceFlow

open List

open Ordered (get? keys)
open Sorted (Strict)

namespace Json

def parts : Json → List Json
  | .array items => items
  | .object entries => entries.map Prod.snd
  | _ => []

variable {v : Json} {P : List (String × Json) → Prop}

lemma sizeOf_lt_of_mem_parts {x : Json} (h : x ∈ v.parts) : sizeOf x < sizeOf v := by
  cases v with
  | array items =>
    have hmem : x ∈ items := h
    have := sizeOf_lt_of_mem hmem
    simp only [array.sizeOf_spec]
    omega
  | object entries =>
    obtain ⟨⟨key, y⟩, hmem, rfl⟩ := mem_map.mp h
    have := sizeOf_lt_of_mem hmem
    simp only [object.sizeOf_spec, Prod.mk.sizeOf_spec] at this ⊢
    omega
  | _ => cases h

lemma parts_induction {P : Json → Prop} (step : ∀ v, (∀ x ∈ v.parts, P x) → P v) (v : Json) :
    P v := by
  induction h : sizeOf v using Nat.strongRecOn generalizing v with
  | _ k ih => exact step v fun x hx => ih _ (h ▸ sizeOf_lt_of_mem_parts hx) x rfl

/-- A value that is a part of another one, at any depth. -/
inductive Within : Json → Json → Prop
  | here (v : Json) : Within v v
  | part {v x w : Json} : x ∈ v.parts → Within x w → Within v w

def Throughout (P : List (String × Json) → Prop) (v : Json) : Prop :=
  ∀ entries, Within v (.object entries) → P entries

variable {entries : List (String × Json)} {items : List Json}

lemma throughout_object :
    Throughout P (.object entries) ↔ P entries ∧ ∀ entry ∈ entries, Throughout P entry.2 := by
  refine ⟨fun h => ⟨h _ (.here _), fun entry hentry inner hin =>
    h _ (.part (mem_map_of_mem hentry) hin)⟩, fun ⟨hhere, hparts⟩ inner hin => ?_⟩
  cases hin with
  | here => exact hhere
  | part hx hin =>
    obtain ⟨entry, hentry, rfl⟩ := mem_map.mp hx
    exact hparts entry hentry _ hin

lemma throughout_array : Throughout P (.array items) ↔ ∀ item ∈ items, Throughout P item := by
  refine ⟨fun h item hitem inner hin => h _ (.part hitem hin), fun h inner hin => ?_⟩
  cases hin with
  | part hx hin => exact h _ hx _ hin

lemma throughout_of_parts_nil (hparts : v.parts = []) (hobject : ∀ entries, v ≠ .object entries) :
    Throughout P v := by
  intro inner hin
  cases hin with
  | here => exact absurd rfl (hobject _)
  | part hx _ =>
    rw [hparts] at hx
    cases hx

end Json

namespace Constant

lemma strict_toJson (c : Constant) : c.toJson.Throughout Strict := by
  induction c using parts_induction with
  | step c ih =>
    cases c with
    | array items =>
      rw [toJson_array, Json.throughout_array, forall_mem_map]
      exact ih
    | object entries =>
      rw [toJson_object, Json.throughout_object]
      refine ⟨Sorted.strict_ofEntries _, fun entry hentry => ?_⟩
      obtain hentry | hentry := Sorted.mem_insertAll hentry
      · cases hentry
      · obtain ⟨source, hmem, rfl⟩ := mem_map.mp hentry
        exact ih _ (mem_map_of_mem hmem)
    | number n =>
      rw [toJson, Json.ofDouble]
      cases JsonNumber.ofDouble? n <;> exact Json.throughout_of_parts_nil rfl (by simp)
    | _ => exact Json.throughout_of_parts_nil rfl (by simp [toJson])

end Constant

namespace Machine

def markedName? (key : String) : Option String :=
  match key.toList.reverse with
  | '$' :: '.' :: rest => some (String.ofList rest.reverse)
  | _ => none

/-- The name of a field. -/
def templateName (key : String) : String := (markedName? key).getD key

lemma markedName?_mark (key : String) : markedName? (key ++ ".$") = some key := by
  simp [markedName?]

/-- A field that has a value. -/
def namedValue? (entry : String × Option Json) : Option (String × Json) := entry.2.map (entry.1, ·)

/-- An object whose fields have the last values of their names. -/
def gather? (values : List (String × Option Json)) : Option Json :=
  ((Sorted.ofEntries values).mapM namedValue?).map .object

variable {values : List (String × Option Json)} {value : Json} {resolve : String → Option Json}

lemma gather?_congr {values' : List (String × Option Json)}
    (h : ∀ name, get? name values.reverse = get? name values'.reverse) :
    gather? values = gather? values' := by
  have heq : Sorted.ofEntries values = Sorted.ofEntries values' :=
    (Sorted.strict_ofEntries _).ext (Sorted.strict_ofEntries _) fun name => by
      rw [Sorted.get?_ofEntries, Sorted.get?_ofEntries, h]
  rw [gather?, gather?, heq]

lemma get?_of_mapM {m : List (String × Option Json)} (h : m.mapM namedValue? = some entries)
    (name : String) : (get? name entries).map some = get? name m := by
  induction m generalizing entries with
  | nil =>
    cases h
    rfl
  | cons entry m ih =>
    obtain ⟨k, value⟩ := entry
    rw [mapM_cons] at h
    obtain ⟨first, hfirst, h⟩ := Option.bind_eq_some_iff.mp h
    obtain ⟨rest, hrest, h⟩ := Option.bind_eq_some_iff.mp h
    cases h
    obtain ⟨x, hx, rfl⟩ := Option.map_eq_some_iff.mp hfirst
    cases hx
    rw [get?, get?, ← ih hrest]
    split_ifs <;> rfl

lemma get?_of_gather? (h : gather? values = some value) : ∃ entries, value = .object entries ∧
      ∀ name, (get? name entries).map some = get? name values.reverse := by
  obtain ⟨entries, hentries, rfl⟩ := Option.map_eq_some_iff.mp h
  refine ⟨entries, rfl, fun name => ?_⟩
  rw [get?_of_mapM hentries, Sorted.get?_ofEntries]

lemma exists_gather? (h : ∀ entry ∈ values, ∃ x, entry.2 = some x) :
    ∃ value, gather? values = some value := by
  have hmapM : ∀ m : List (String × Option Json), (∀ entry ∈ m, ∃ x, entry.2 = some x) →
      ∃ entries, m.mapM namedValue? = some entries := by
    intro m hm
    induction m with
    | nil => exact ⟨[], rfl⟩
    | cons entry m ih =>
      rw [forall_mem_cons] at hm
      obtain ⟨x, hx⟩ := hm.1
      obtain ⟨entries, hentries⟩ := ih hm.2
      rw [mapM_cons, namedValue?, hx, hentries]
      exact ⟨_, rfl⟩
  obtain ⟨entries, hentries⟩ := hmapM (Sorted.ofEntries values) fun entry hentry =>
    (Sorted.mem_insertAll hentry).elim (fun hnil => by cases hnil) (h entry)
  exact ⟨.object entries, by rw [gather?, hentries, Option.map_some]⟩

section Evaluation

/- What the text of a path or of a function call stands for in a document. -/
variable (resolve : String → Option Json)

def textValue? : Json → Option Json
  | .string text => resolve text
  | _ => none

mutual

/-- The value of a payload template. -/
def evaluate? : Json → Option Json
  | .array items => (evaluateItems? items).map .array
  | .object entries => gather? (fieldValues entries)
  | value => some value
termination_by structural value => value

def evaluateItems? : List Json → Option (List Json)
  | [] => some []
  | item :: items => do pure ((← evaluate? item) :: (← evaluateItems? items))
termination_by structural items => items

def fieldValues : List (String × Json) → List (String × Option Json)
  | [] => []
  | (key, value) :: rest =>
    (match markedName? key with
      | some name => (name, textValue? resolve value)
      | none => (key, evaluate? value)) :: fieldValues rest
termination_by structural entries => entries

end

end Evaluation

/-- No object in a template gives one field twice. -/
def Unambiguous (template : Json) : Prop :=
  template.Throughout fun entries => (entries.map fun entry => templateName entry.1).Nodup

/-- No key is marked as computed. -/
def Unmarked (value : Json) : Prop :=
  value.Throughout fun entries => ∀ entry ∈ entries, markedName? entry.1 = none

lemma evaluateItems?_of_forall (h : ∀ item ∈ items, evaluate? resolve item = some item) :
    evaluateItems? resolve items = some items := by
  induction items with
  | nil => rfl
  | cons item items ih =>
    rw [forall_mem_cons] at h
    rw [evaluateItems?, h.1, ih h.2]
    rfl

/-- The name and the value of one field. -/
def fieldValue (resolve : String → Option Json) (entry : String × Json) : String × Option Json :=
  match markedName? entry.1 with
  | some name => (name, textValue? resolve entry.2)
  | none => (entry.1, evaluate? resolve entry.2)

lemma fieldValues_eq (resolve : String → Option Json) (entries : List (String × Json)) :
    fieldValues resolve entries = entries.map (fieldValue resolve) := by
  induction entries with
  | nil => rfl
  | cons entry entries ih => rw [fieldValues, ih, map_cons, fieldValue]

lemma fst_fieldValue (resolve : String → Option Json) (entry : String × Json) :
    (fieldValue resolve entry).1 = templateName entry.1 := by
  rw [fieldValue, templateName]
  cases markedName? entry.1 <;> rfl

lemma fieldValue_of_unmarked (entry : String × Json) (h : markedName? entry.1 = none) :
    fieldValue resolve entry = (entry.1, evaluate? resolve entry.2) := by
  rw [fieldValue, h]

lemma strict_map {β γ : Type} {m : Sorted β} (h : Strict m) (f : β → γ) :
    Strict (m.map fun entry => (entry.1, f entry.2)) :=
  pairwise_map.mpr h

lemma evaluate?_of_unmarked (resolve : String → Option Json) (value : Json)
    (hstrict : value.Throughout Strict) (hunmarked : Unmarked value) :
    evaluate? resolve value = some value := by
  induction value using Json.parts_induction with
  | step value ih =>
    cases value with
    | array items =>
      rw [Json.throughout_array] at hstrict
      rw [Unmarked, Json.throughout_array] at hunmarked
      have hitems : ∀ item ∈ items, evaluate? resolve item = some item := fun item hitem =>
        ih item hitem (hstrict item hitem) (hunmarked item hitem)
      rw [evaluate?, evaluateItems?_of_forall hitems, Option.map_some]
    | object entries =>
      obtain ⟨hstrict, hinner⟩ := Json.throughout_object.mp hstrict
      obtain ⟨hkeys, hunmarked⟩ := Json.throughout_object.mp hunmarked
      have hfields : entries.map (fieldValue resolve) =
          entries.map fun entry => (entry.1, some entry.2) := by
        refine map_congr_left fun entry hentry => ?_
        rw [fieldValue_of_unmarked entry (hkeys entry hentry), ih entry.2
          (mem_map_of_mem hentry) (hinner entry hentry) (hunmarked entry hentry)]
      have hnamed : (entries.map fun entry => (entry.1, some entry.2)).mapM namedValue? =
          some entries := by
        rw [mapM_map]
        exact mapM_pure.trans (congrArg some (map_id _))
      rw [evaluate?, fieldValues_eq, hfields, gather?, (strict_map hstrict some).ofEntries_eq,
        hnamed, Option.map_some]
    | _ => rfl

lemma unambiguous_of_unmarked (hstrict : value.Throughout Strict) (hunmarked : Unmarked value) :
    Unambiguous value := by
  intro entries hin
  have hnames : (entries.map fun entry => templateName entry.1) = keys entries :=
    map_congr_left fun entry hentry => by
      rw [templateName, hunmarked _ hin entry hentry, Option.getD_none]
  rw [hnames]
  exact (hstrict _ hin).nodup_keys

end Machine

end ServiceFlow
