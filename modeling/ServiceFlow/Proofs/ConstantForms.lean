import ServiceFlow.Constant.Basic
import ServiceFlow.Proofs.OrderedMaps

/-!
# Values made of values

Arrays and objects are made of other values. A property of a value is shown from that of its parts.
-/

namespace ServiceFlow.Constant

open List

def parts : Constant → List Constant
  | .array items => items
  | .object entries => entries.map Prod.snd
  | _ => []

lemma parts_induction {P : Constant → Prop} (step : ∀ c, (∀ x ∈ c.parts, P x) → P c)
    (c : Constant) : P c := by
  induction h : sizeOf c using Nat.strongRecOn generalizing c with
  | _ k ih =>
    refine step c fun x hx => ih _ ?_ x rfl
    subst h
    cases c with
    | array items =>
      have hlt := sizeOf_lt_of_mem (show x ∈ items from hx)
      simp only [array.sizeOf_spec]
      omega
    | object entries =>
      obtain ⟨⟨key, y⟩, hmem, rfl⟩ := mem_map.mp hx
      have hlt := sizeOf_lt_of_mem hmem
      simp only [object.sizeOf_spec, Prod.mk.sizeOf_spec] at hlt ⊢
      omega
    | _ => cases hx

/-- A property of a constant and of all its parts. -/
inductive Throughout (P : Constant → Prop) : Constant → Prop
  | mk {c : Constant} (here : P c) (parts : ∀ x ∈ c.parts, Throughout P x) : Throughout P c

lemma Throughout.leaf {P : Constant → Prop} {c : Constant} (here : P c) (h : c.parts = []) :
    Throughout P c := .mk here (by simp [h])

/-- No object has a key twice. -/
def DistinctKeys : Constant → Prop :=
  Throughout fun c => ∀ entries, c = .object entries → (Ordered.keys entries).Nodup

/-- Handles replaced by their names. -/
def spelled : Constant → Constant
  | .handle name => .string name
  | .array items => .array (spelledItems items)
  | .object entries => .object (spelledEntries entries)
  | c => c
where
  spelledItems : List Constant → List Constant
    | [] => []
    | item :: items => spelled item :: spelledItems items
  spelledEntries : List (String × Constant) → List (String × Constant)
    | [] => []
    | (key, value) :: entries => (key, spelled value) :: spelledEntries entries

lemma eq_map_of_cons {α β : Type} {f : α → β} {g : List α → List β} (nil : g [] = [])
    (cons : ∀ x xs, g (x :: xs) = f x :: g xs) (xs : List α) : g xs = xs.map f := by
  induction xs with
  | nil => exact nil
  | cons x xs ih => rw [cons, ih, map_cons]

variable (items : List Constant) (entries : List (String × Constant))

lemma spelled_array : (array items).spelled = .array (items.map spelled) :=
  congrArg array (eq_map_of_cons rfl (fun _ _ => rfl) items)

lemma spelled_object :
    (object entries).spelled = .object (entries.map fun entry => (entry.1, entry.2.spelled)) :=
  congrArg object (eq_map_of_cons rfl (fun _ _ => rfl) entries)

lemma toJson_array : (array items).toJson = .array (items.map toJson) :=
  congrArg Json.array (eq_map_of_cons rfl (fun _ _ => rfl) items)

lemma toJson_object : (object entries).toJson =
    .object (Sorted.ofEntries (entries.map fun entry => (entry.1, entry.2.toJson))) :=
  congrArg (Json.object ∘ Sorted.ofEntries) (eq_map_of_cons rfl (fun _ _ => rfl) entries)

lemma toJson_spelled (c : Constant) : c.spelled.toJson = c.toJson := by
  induction c using parts_induction with
  | step c ih =>
    cases c with
    | array items =>
      rw [spelled_array, toJson_array, toJson_array, map_map]
      exact congrArg Json.array (map_congr_left ih)
    | object entries =>
      rw [spelled_object, toJson_object, toJson_object, map_map]
      have hvalues : ∀ entry ∈ entries, (entry.1, entry.2.spelled.toJson) =
          (entry.1, entry.2.toJson) := fun entry hentry => by
        rw [ih entry.2 (mem_map_of_mem hentry)]
      exact congrArg (fun m => Json.object (Sorted.ofEntries m)) (map_congr_left hvalues)
    | _ => rfl

end ServiceFlow.Constant
