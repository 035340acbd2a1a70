import ServiceFlow.Proofs.BodyFlow
import ServiceFlow.Proofs.ForestGrowth

/-!
# Control flow comes to an end

`Forest.step?` and `Forest.exit?` call each other as a walk enters and leaves nodes. In the forest
of a tree no chain of these calls is endless.
-/

namespace ServiceFlow.Forest

variable {f : Forest} {low : Nat → Nat} {id part : Nat}

/-- The call that a call makes. Entering a node and leaving it are the calls of `step?` and of
`exit?`, and each makes at most one. -/
inductive Calls (f : Forest) : Move → Move → Prop where
  | step (id : NodeId) : Calls f (f.entering id) (.enter id)
  | exit (id : NodeId) : Calls f (f.leaving id) (.leave id)

/-- The nearest function around a node. -/
def functionAround? (f : Forest) (id : NodeId) : Option NodeId :=
  (f.ancestors id).find? f.isFunction

namespace Linked

variable (h : f.Linked)
include h

lemma functionAround?_of_within (hw : f.Within part id) :
    f.functionAround? id = f.functionAround? part := by
  induction hw with
  | self => rfl
  | child hp hfun _ ih =>
    unfold functionAround? at ih ⊢
    rw [h.ancestors_of_parent hp, List.find?_cons, hfun]
    exact ih

lemma exists_within_top (id : Nat) :
    ∃ part, f.Within part id ∧ ∀ p, f.parent? part = some p → f.isFunction p = true := by
  induction id using h.parent_induction with
  | top id hout => exact ⟨id, .self, hout⟩
  | child id p hp hfun ih =>
    obtain ⟨part, hw, hout⟩ := ih
    exact ⟨part, .child hp hfun hw, hout⟩

end Linked

namespace InOrder

variable (h : f.InOrder low)
include h

/-- Each call comes later in the traversal of the tree, so the calls end. -/
lemma wellFounded_calls : WellFounded f.Calls := by
  constructor
  intro m
  induction m using h.move_induction with
  | stop dest =>
    constructor
    intro m hm
    cases hm
  | enter id ih | leave id ih =>
    constructor
    intro m hm
    cases hm
    exact ih

lemma works_of_follow {m : Move} {dest : NodeId} (hm : f.MoveWithin part m)
    (hout : ∀ p, f.parent? part = some p → f.isFunction p = true) (hd : f.follow m = some dest) :
    f.Works dest ∧ f.functionAround? dest = f.functionAround? part := by
  rcases h.arrives_follow m hm with ⟨d, hd', hw, hworks⟩ | hleft
  · obtain rfl := Option.mem_unique hd hd'
    exact ⟨hworks, h.functionAround?_of_within hw⟩
  · rw [hleft, h.exit?_of_function hout] at hd
    cases hd

end InOrder

/-- In the forest of any tree the calls of `step?` and `exit?` end, and the two give what the calls
lead to. Where that is a node, it is a statement other than a block, a try statement, a catch clause
and a declaration without a value, and the innermost function around it is the one around the node
that was asked about. -/
theorem step_exit_terminate {tree : SyntaxTree} {root : NodeId} {f : Forest}
    (hf : ofTree tree = .ok (root, f)) :
    WellFounded f.Calls ∧
      (∀ id, f.step? id = f.follow (f.entering id) ∧ f.exit? id = f.follow (f.leaving id)) ∧
      ∀ id dest, f.step? id = some dest ∨ f.exit? id = some dest →
        f.Works dest ∧ f.functionAround? dest = f.functionAround? id := by
  obtain ⟨low, h⟩ := inOrder_ofTree hf
  refine ⟨h.wellFounded_calls, fun id => ⟨h.step?_eq id, h.exit?_eq id⟩, ?_⟩
  intro id dest hd
  obtain ⟨part, hw, hout⟩ := h.exists_within_top id
  rw [h.functionAround?_of_within hw]
  rcases hd with hd | hd
  · have hnode : f.node? id ≠ none := by
      intro hn
      rw [h.step?_eq, entering, hn] at hd
      cases hd
    exact h.works_of_follow (m := .enter id) ⟨hw, hnode⟩ hout hd
  · exact h.works_of_follow (m := .leave id) hw hout hd

/-- Parts stand where they do not belong: names for the body of a loop and for a finally block, a
catch clause for a try block, and a function that is declared between statements. -/
def misplacedParts : SyntaxTree :=
  let clause : SyntaxTree := .mk () (.catchClause (some (.declare "e")) (.block []))
  let inner : SyntaxTree := .mk () (.functionDecl (some "g") [] (.block [.mk () .emptyStmt]))
  .function [] [.mk () (.tryStmt clause none (some (.ident "c"))), inner,
    .mk () (.doStmt (.ident "a") (.ident "b"))]

theorem step_exit_terminate_misplacedParts : ∃ root f, ofTree misplacedParts = .ok (root, f) ∧
    WellFounded f.Calls ∧
    (f.step? 4 = some 10 ∧ f.Works 10 ∧ f.functionAround? 10 = f.functionAround? 4) ∧
    (f.exit? 8 = some 10 ∧ f.functionAround? 10 = f.functionAround? 8) ∧
    (f.step? 6 = some 5 ∧ f.Works 5 ∧ f.functionAround? 5 = f.functionAround? 6) ∧
    f.functionAround? 10 = some 12 ∧ f.functionAround? 5 = some 7 := by
  obtain ⟨root, f, hf, heval⟩ := exists_ofTree_of_any misplacedParts
    (fun f => f.step? 4 == some 10 && f.exit? 8 == some 10 && f.step? 6 == some 5 &&
      f.functionAround? 10 == some 12 && f.functionAround? 5 == some 7) (by decide +kernel)
  simp only [Bool.and_eq_true, beq_iff_eq] at heval
  obtain ⟨⟨⟨⟨htry, hpart⟩, hinner⟩, houter⟩, hnested⟩ := heval
  obtain ⟨hends, -, hlands⟩ := step_exit_terminate hf
  obtain ⟨hloop, hsame⟩ := hlands 4 10 (.inl htry)
  obtain ⟨hempty, hown⟩ := hlands 6 5 (.inl hinner)
  exact ⟨root, f, hf, hends, ⟨htry, hloop, hsame⟩, ⟨hpart, (hlands 8 10 (.inr hpart)).2⟩,
    ⟨hinner, hempty, hown⟩, houter, hnested⟩

end ServiceFlow.Forest
