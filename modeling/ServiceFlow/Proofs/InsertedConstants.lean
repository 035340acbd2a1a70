import ServiceFlow.Constant.Insert
import ServiceFlow.Proofs.InsertedTrees
import ServiceFlow.Proofs.LiteralForms

/-!
# Values that are added as nodes

A value is added to a forest as the nodes of its literal form. Evaluating these gives the value
back, with its handles spelled.
-/

namespace ServiceFlow

open ServiceFlow.Tree List

namespace Forest

variable {f f' : Forest}

lemma Appended.swap {a b : Nat} {s t : SyntaxTree} (h : f.Appended [a, b] [s, t] f') :
    f.Appended [b, a] [t, s] f' := by
  refine ⟨?_, h.entries_eq, ?_, fun id hid => h.fresh id ?_, ?_⟩
  · simpa [Nat.add_comm] using h.size_eq
  · simpa [and_comm] using h.reads
  · simpa [or_comm] using hid
  · simpa [eq_comm] using h.nodup

end Forest

namespace Build

open Forest

variable {β : Type} {g : β → Build NodeId} {tree : β → SyntaxTree} {xs : List β}

lemma appends_leaf {node : Node NodeId} (h : node.children = []) :
    (add node).Appends (.mk () (node.refill .leaf [])) := by
  intro f
  obtain ⟨hadd, hplanted⟩ := (h ▸ Appended.nil f).planted
  exact ⟨_, _, run_add hadd, hplanted⟩

lemma appends_list (h : ∀ x ∈ xs, (g x).Appends (tree x)) {node : List NodeId → Node NodeId}
    (hnode : ∀ ids, (node ids).children = ids) {t : SyntaxTree}
    (ht : ∀ ids, .mk () ((node ids).refill .leaf (xs.map tree)) = t) :
    (xs.mapM g >>= fun ids => add (node ids)).Appends t := by
  intro f
  obtain ⟨ids, f', hrun, happended⟩ := appended_mapM h f
  rw [← hnode ids] at happended
  obtain ⟨hadd, hplanted⟩ := happended.planted
  rw [ht] at hplanted
  exact ⟨_, _, (run_bind_ok hrun).trans (run_add hadd), hplanted⟩

end Build

namespace Constant

open Build

/-- The nodes of one property. -/
def insertEntry (entry : String × Constant) : Build NodeId := do
  let value ← insert entry.2
  let name ← Build.add (keyNode entry.1)
  Build.add (.propertyAssignment name value)

/-- The tree of one property. -/
def entryTree (entry : String × Constant) : SyntaxTree :=
  .mk () (.propertyAssignment (.mk () (keyNode entry.1)) entry.2.toTree)

lemma insert_array (items : List Constant) :
    (array items).insert = items.mapM insert >>= fun ids => add (.arrayLiteral ids) := by
  have hitems : insert.insertItems items = items.mapM insert := by
    induction items with
    | nil => rfl
    | cons item items ih => rw [insert.insertItems, ih, mapM_cons]
  rw [insert, hitems]

lemma insert_object (entries : List (String × Constant)) :
    (object entries).insert = entries.mapM insertEntry >>= fun ids => add (.objectLiteral ids) := by
  have hentries : insert.insertEntries entries = entries.mapM insertEntry := by
    induction entries with
    | nil => rfl
    | cons entry entries ih =>
      rw [insert.insertEntries, ih, mapM_cons]
      simp only [insertEntry, bind_assoc]
  rw [insert, hentries]

lemma appends_insertEntry {entry : String × Constant} (h : entry.2.insert.Appends entry.2.toTree) :
    (insertEntry entry).Appends (entryTree entry) := by
  have hkey : (add (keyNode entry.1)).Appends (.mk () (keyNode entry.1)) := by
    unfold keyNode
    split_ifs <;> exact appends_leaf rfl
  intro f
  obtain ⟨value, f₁, hrun₁, happended₁⟩ := h f
  obtain ⟨name, f₂, hrun₂, happended₂⟩ := hkey f₁
  -- The value was added first, but the key is the first child.
  have hboth : f.Appended (Node.propertyAssignment name value).children
      [.mk () (keyNode entry.1), entry.2.toTree] f₂ := (happended₁.cons happended₂).swap
  obtain ⟨hadd, hplanted⟩ := hboth.planted
  refine ⟨_, _, ?_, hplanted⟩
  rw [insertEntry, run_bind_ok hrun₁, run_bind_ok hrun₂]
  exact run_add hadd

lemma appends_insert (c : Constant) : c.insert.Appends c.toTree := by
  induction c using parts_induction with
  | step c ih =>
    cases c with
    | array items =>
      rw [insert_array, toTree_array]
      exact appends_list ih (fun _ => rfl) fun _ => rfl
    | object entries =>
      rw [insert_object, toTree_object, map_map]
      exact appends_list (fun entry hentry => appends_insertEntry (ih _ (mem_map_of_mem hentry)))
        (fun _ => rfl) fun _ => rfl
    | _ => exact appends_leaf rfl

lemma toTree_spelled (c : Constant) : c.spelled.toTree = c.toTree := by
  induction c using parts_induction with
  | step c ih =>
    cases c with
    | array items =>
      rw [spelled_array, toTree_array, toTree_array, map_map]
      exact congrArg (mk () ∘ Node.arrayLiteral) (map_congr_left ih)
    | object entries =>
      rw [spelled_object, toTree_object, toTree_object]
      simp only [map_map]
      refine congrArg (mk () ∘ Node.objectLiteral) (map_congr_left fun entry hentry => ?_)
      simp only [Function.comp_apply, entryPiece, ih _ (mem_map_of_mem hentry)]
    | _ => rfl

lemma literal_spelled {c : Constant} (h : c.DistinctKeys) : c.spelled.Literal := by
  induction h with
  | @mk c here parts ih =>
    cases c with
    | array items =>
      rw [spelled_array]
      exact .array (forall_mem_map.mpr ih)
    | object entries =>
      rw [spelled_object]
      refine .object ?_ (forall_mem_map.mpr fun entry hentry => ih _ (mem_map_of_mem hentry))
      rw [Ordered.keys, map_map]
      exact here entries rfl
    | undefined => exact .undefined
    | null => exact .null
    | bool b => exact .bool b
    | number n => exact .number n
    | string s | handle s => exact .string s

/-- A value can be added to every forest, and no node that was there changes. The new node evaluates
to the value with its handles spelled, which has the same JSON form. -/
theorem insert_evaluates {c : Constant} (h : c.DistinctKeys) (f : Forest) (refs : References) :
    ∃ id f', c.insert.run f = (.ok id, f') ∧
      (∀ i < f.size, f'.entries[i]? = f.entries[i]?) ∧
      (f'.view? id).bind (·.constant? refs) = some c.spelled ∧
      c.spelled.toJson = c.toJson := by
  obtain ⟨id, f', hrun, happended⟩ := appends_insert c f
  obtain ⟨hreads, -⟩ := forall₂_cons.mp happended.reads
  obtain ⟨v, hview, htree⟩ := hreads (id + 1) (Nat.lt_succ_self id)
  have hvalue : v.constant? refs = some c.spelled := by
    rw [← constant?_untag, htree, ← toTree_spelled]
    exact constant?_toTree refs (literal_spelled h)
  refine ⟨id, f', hrun, happended.entries_eq, ?_, toJson_spelled c⟩
  rw [Forest.view?, hview, Option.bind_some, hvalue]

/-- An object with a handle, keys that are no names, a negative zero and a missing value. -/
def shipment : Constant :=
  .object [("queue", .handle "jobs"), ("it's", .array [.number (.zero true), .undefined]),
    ("0", .object [("done", .bool true)])]

theorem insert_evaluates_shipment : shipment.DistinctKeys ∧ ∃ f id f',
    null.insert.run .empty = (.ok 0, f) ∧ shipment.insert.run f = (.ok id, f') ∧
    f'.entries[0]? = f.entries[0]? ∧
    (f'.view? id).bind (·.constant? noReferences) = some (.object [("queue", .string "jobs"),
      ("it's", .array [.number (.zero true), .undefined]), ("0", .object [("done", .bool true)])]) ∧
    shipment.spelled.toJson = shipment.toJson := by
  have hkeys : shipment.DistinctKeys := by
    refine .mk (by simp [shipment, Ordered.keys]) ?_
    simp only [shipment, parts, map_cons, map_nil, forall_mem_cons]
    refine ⟨.leaf (by simp) rfl, .mk (by simp) ?_, .mk (by simp [Ordered.keys]) ?_, by simp⟩
    · simp only [parts, forall_mem_cons]
      exact ⟨.leaf (by simp) rfl, .leaf (by simp) rfl, by simp⟩
    · simp only [parts, map_cons, map_nil, forall_mem_cons]
      exact ⟨.leaf (by simp) rfl, by simp⟩
  obtain ⟨id, f', hrun, hentries, hvalue, hjson⟩ :=
    insert_evaluates hkeys (null.insert.run .empty).2 noReferences
  exact ⟨hkeys, _, id, f', rfl, hrun, hentries 0 (by decide), hvalue, hjson⟩

end Constant

end ServiceFlow
