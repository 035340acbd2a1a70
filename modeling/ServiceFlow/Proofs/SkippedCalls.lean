import ServiceFlow.Proofs.StatementParts
import ServiceFlow.Proofs.VariableReads

/-!
# Calls that are passed over

A few parts of a body are never looked at, and calls in them are passed over.
-/

namespace ServiceFlow.Tree

open List

variable {registry : Registry} {t : Term}

/-- The calls in what a thrown error is made with, beside its message. -/
def errorCalls (registry : Registry) (t : Term) : List ServiceCall :=
  match t.awaited.node with
  | .newExpr callee arguments => (callee :: arguments.drop 1).flatMap (looseCalls registry)
  | _ => []

/-- The calls in the parts of a node that are never looked at: what an error is made with beside its
message, expressions in the place of statements, and the parameters of inline functions. -/
def skippedCalls (registry : Registry) (t : Term) : List ServiceCall :=
  match t.node with
  | .throwStmt expression => expression.errorCalls registry
  | .ifStmt _ thenStmt elseStmt => (thenStmt :: elseStmt.toList).flatMap (looseCalls registry)
  | .whileStmt _ body | .doStmt body _ | .forOfStmt _ _ body => body.looseCalls registry
  | .block .. | .tryStmt .. | .catchClause .. => t.ownCalls registry
  | .arrowFunction parameters body =>
    parameters.flatMap (calls registry) ++ body.looseCalls registry
  | _ => []

def skippedIn (registry : Registry) (t : Term) : List ServiceCall :=
  t.subtrees.flatMap (skippedCalls registry)

def looseSkipped (registry : Registry) (t : Term) : List ServiceCall :=
  t.loose.flatMap (skippedCalls registry)

def ownSkipped (registry : Registry) (t : Term) : List ServiceCall :=
  t.skippedCalls registry ++ t.node.children.flatMap (looseSkipped registry)

lemma calls_subset (registry : Registry) {s : Term} (h : s ∈ t.subtrees) :
    s.calls registry ⊆ t.calls registry := filterMap_subset _ (subtrees_subset h)

lemma looseCalls_subset (registry : Registry) (t : Term) :
    t.looseCalls registry ⊆ t.calls registry := filterMap_subset _ (loose_subset t)

lemma looseCalls_subset_ownCalls (registry : Registry) {c : Term} (hc : c ∈ t.node.children) :
    c.looseCalls registry ⊆ t.ownCalls registry :=
  fun _ h => mem_flatMap.mpr ⟨c, hc, h⟩

lemma ownCalls_subset (registry : Registry) (t : Term) :
    t.ownCalls registry ⊆ t.calls registry := by
  intro call h
  obtain ⟨c, hc, h⟩ := mem_flatMap.mp h
  exact calls_subset registry (child_mem_subtrees hc) (looseCalls_subset registry c h)

lemma skippedCalls_of_expression (h : t.kind.category ≠ .statement)
    (hf : t.kind.isFunction = false) : t.skippedCalls registry = [] := by
  obtain ⟨tag, n⟩ := t
  cases n
  all_goals first
    | rfl
    | exact absurd rfl h
    | cases hf

lemma errorCalls_subset (registry : Registry) (t : Term) :
    t.errorCalls registry ⊆ t.looseCalls registry := by
  intro call hcall
  rw [(looseCalls_awaited registry t).mem_iff]
  unfold errorCalls at hcall
  split at hcall
  · rename_i callee arguments hnew
    obtain ⟨c, hc, hcall⟩ := mem_flatMap.mp hcall
    have hchild : c ∈ t.awaited.node.children := by
      rw [hnew]
      rcases mem_cons.mp hc with rfl | hc
      · exact mem_cons_self
      · exact mem_cons_of_mem _ (mem_of_mem_drop hc)
    rw [looseCalls_of_expression (by rw [kind, hnew]; exact Category.noConfusion)
      (by rw [kind, hnew]; rfl)]
    exact mem_append_right _ (mem_flatMap.mpr ⟨c, hchild, hcall⟩)
  · cases hcall

lemma looseCalls_of_thrownError {program : Program} {raised : Machine.Raised}
    (h : Machine.thrownError program t = .ok raised) :
    t.looseCalls program.registry ⊆ t.errorCalls program.registry := by
  intro call hcall
  rw [(looseCalls_awaited program.registry t).mem_iff] at hcall
  unfold Machine.thrownError at h
  split at h
  · rename_i tag callee arguments hnew
    have hnode : t.awaited.node = .newExpr callee arguments := by
      rw [hnew]
      rfl
    rw [looseCalls_of_expression (by rw [kind, hnode]; exact Category.noConfusion)
      (by rw [kind, hnode]; rfl), call?_of_ne _ (by simp [kind, hnode, Node.kind]),
      hnode] at hcall
    unfold errorCalls
    rw [hnode]
    cases arguments with
    | nil => exact hcall
    | cons message arguments =>
      obtain ⟨value, hvalue, -⟩ := bind_eq_ok h
      have hmessage : message.looseCalls program.registry = [] :=
        looseCalls_of_uncalled (Machine.lowered_of_data _ _ _ hvalue).uncalled
      simpa [Node.children, hmessage] using hcall
  · obtain ⟨value, hvalue, -⟩ := bind_eq_ok h
    rw [looseCalls_of_uncalled (Machine.lowered_of_data _ _ _ hvalue).uncalled] at hcall
    cases hcall

lemma skippedCalls_subset_ownCalls (h : t.kind.category = .statement) :
    t.skippedCalls registry ⊆ t.ownCalls registry := by
  obtain ⟨tag, n⟩ := t
  cases n with
  | throwStmt expression =>
    exact fun _ hcall => looseCalls_subset_ownCalls registry (t := .mk tag (.throwStmt expression))
      (by simp [node, Node.children]) (errorCalls_subset registry expression hcall)
  | ifStmt condition thenStmt elseStmt =>
    intro call hcall
    obtain ⟨c, hc, hcall⟩ := mem_flatMap.mp hcall
    exact looseCalls_subset_ownCalls registry (t := .mk tag (.ifStmt condition thenStmt elseStmt))
      (mem_cons_of_mem _ hc) hcall
  | whileStmt condition body =>
    exact looseCalls_subset_ownCalls registry (t := .mk tag (.whileStmt condition body))
      (by simp [node, Node.children])
  | doStmt body condition =>
    exact looseCalls_subset_ownCalls registry (t := .mk tag (.doStmt body condition))
      (by simp [node, Node.children])
  | forOfStmt binder expression body =>
    exact looseCalls_subset_ownCalls registry (t := .mk tag (.forOfStmt binder expression body))
      (by simp [node, Node.children])
  | block statements isFinally | tryStmt tryBlock handler finalizer | catchClause binder body =>
    exact Subset.refl _
  | arrowFunction parameters body => cases h
  | _ => exact nil_subset _

lemma skippedCalls_subset_calls (registry : Registry) (t : Term) :
    t.skippedCalls registry ⊆ t.calls registry := by
  by_cases h : t.kind.category = .statement
  · exact fun _ hcall => ownCalls_subset registry t (skippedCalls_subset_ownCalls h hcall)
  · by_cases hf : t.kind.isFunction = true
    · obtain ⟨tag, n⟩ := t
      cases n with
      | functionDecl name parameters body => exact nil_subset _
      | arrowFunction parameters body =>
        have hchild : ∀ {c : Term}, c ∈ parameters ++ [body] →
            c.calls registry ⊆ calls registry (.mk tag (.arrowFunction parameters body)) :=
          fun hc => calls_subset registry (child_mem_subtrees hc)
        intro call hcall
        rcases mem_append.mp hcall with hcall | hcall
        · obtain ⟨c, hc, hcall⟩ := mem_flatMap.mp hcall
          exact hchild (mem_append_left _ hc) hcall
        · exact hchild (by simp) (looseCalls_subset registry body hcall)
      | _ => cases hf
    · rw [skippedCalls_of_expression h (Bool.eq_false_iff.mpr hf)]
      exact nil_subset _

lemma skippedCalls_subset_looseCalls {s : Term} (hs : s ∈ t.loose) :
    s.skippedCalls registry ⊆ t.looseCalls registry := by
  induction t using children_induction with
  | step tag n ih =>
    by_cases h : n.kind.category = .statement
    · rw [loose_of_statement (t := .mk tag n) h] at hs
      cases hs
    · by_cases hf : n.kind.isFunction = true
      · rw [loose_of_function (t := .mk tag n) hf] at hs
        rw [looseCalls_of_function (t := .mk tag n) hf]
        exact fun _ hcall =>
          calls_subset registry hs (skippedCalls_subset_calls registry s hcall)
      · rw [Bool.not_eq_true] at hf
        rw [loose_of_expression (t := .mk tag n) h hf] at hs
        rw [looseCalls_of_expression (t := .mk tag n) h hf]
        rcases mem_cons.mp hs with rfl | hs
        · rw [skippedCalls_of_expression (t := .mk tag n) h hf]
          exact nil_subset _
        · obtain ⟨c, hc, hs⟩ := mem_flatMap.mp hs
          intro call hcall
          exact mem_append_right _ (mem_flatMap.mpr ⟨c, hc, ih c hc hs hcall⟩)

lemma looseSkipped_subset (registry : Registry) (t : Term) :
    t.looseSkipped registry ⊆ t.looseCalls registry := by
  intro call hcall
  obtain ⟨s, hs, hcall⟩ := mem_flatMap.mp hcall
  exact skippedCalls_subset_looseCalls hs hcall

lemma ownSkipped_subset (h : t.kind.category = .statement) :
    t.ownSkipped registry ⊆ t.ownCalls registry := by
  intro call hcall
  rcases mem_append.mp hcall with hcall | hcall
  · exact skippedCalls_subset_ownCalls h hcall
  · obtain ⟨c, hc, hcall⟩ := mem_flatMap.mp hcall
    exact looseCalls_subset_ownCalls registry hc (looseSkipped_subset registry c hcall)

lemma skippedIn_subset (registry : Registry) (t : Term) :
    t.skippedIn registry ⊆ t.calls registry := by
  intro call hcall
  obtain ⟨s, hs, hcall⟩ := mem_flatMap.mp hcall
  exact calls_subset registry hs (skippedCalls_subset_calls registry s hcall)

lemma skippedIn_eq (registry : Registry) (t : Term) : t.skippedIn registry =
    t.skippedCalls registry ++ t.node.children.flatMap (skippedIn registry) := by
  rw [skippedIn, subtrees_eq, flatMap_cons, descendants, flatMap_assoc]
  rfl

lemma looseSkipped_of_function (h : t.kind.isFunction = true) :
    t.looseSkipped registry = t.skippedIn registry := by
  rw [looseSkipped, loose_of_function h, skippedIn]

lemma own_of_usedExpression? (registry : Registry) {expression : Term} {use : Use}
    (h : t.usedExpression? = some (expression, use)) :
    t.ownCalls registry = expression.looseCalls registry ∧
      t.ownSkipped registry = expression.looseSkipped registry := by
  have hparts : t.node.children = [expression] ∧ t.skippedCalls registry = [] := by
    cases Machine.usesValue_of_usedExpression? h <;> exact ⟨rfl, rfl⟩
  rw [ownCalls, ownSkipped, hparts.1, hparts.2]
  simp

lemma Carries.looseSkipped_perm {us : List Term} (h : t.Carries registry us) :
    (t.looseSkipped registry).Perm (us.flatMap (skippedCalls registry)) := by
  obtain ⟨plain, hplain, hperm⟩ := h
  have hnone : plain.flatMap (skippedCalls registry) = [] := by
    apply flatMap_eq_nil_iff.mpr
    intro s hs
    rcases hplain s hs with hs | ⟨-, hcategory, hf⟩
    · have hcalls : s.calls registry = [] := filterMap_eq_nil_iff.mpr hs
      exact subset_nil.mp (hcalls ▸ skippedCalls_subset_calls registry s)
    · exact skippedCalls_of_expression hcategory hf
  have hskipped := hperm.flatMap_right (skippedCalls registry)
  rwa [flatMap_append, hnone] at hskipped

lemma skippedIn_perm (t : Term) : (t.skippedIn registry).Perm
    (t.looseSkipped registry ++ t.statements.flatMap (ownSkipped registry)) := by
  have hperm := (subtrees_perm t).flatMap_right (skippedCalls registry)
  rw [flatMap_append, flatMap_assoc] at hperm
  have hown : (fun s => (s :: s.own).flatMap (skippedCalls registry)) = ownSkipped registry := by
    funext s
    rw [flatMap_cons, own, flatMap_assoc]
    rfl
  rwa [hown] at hperm

end ServiceFlow.Tree
