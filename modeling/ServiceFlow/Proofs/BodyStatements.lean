import Mathlib.Data.List.Flatten
import ServiceFlow.Machine.Label
import ServiceFlow.Proofs.BodyFlow
import ServiceFlow.Proofs.SuccessfulRuns

/-!
# Statements of a body

The statements that are collected from a body are the statements within it, each once.
-/

namespace ServiceFlow

open List

namespace Tree

def statements (t : Term) : List Term :=
  t.fold fun t parts =>
    if t.kind.isFunction then []
    else (if t.kind.category = .statement then [t] else []) ++ parts.children.flatten

lemma statements_mk (tag : NodeId) (n : Node Term) :
    statements (.mk tag n) = if n.kind.isFunction then []
      else (if n.kind.category = .statement then [.mk tag n] else []) ++
        n.children.flatMap statements := by
  rw [statements, fold_mk, Node.children_map]
  rfl

lemma mem_statements_mk {tag : NodeId} {n : Node Term} {s : Term} :
    s ∈ statements (.mk tag n) ↔ n.kind.isFunction = false ∧
      (n.kind.category = .statement ∧ s = .mk tag n ∨ ∃ c ∈ n.children, s ∈ c.statements) := by
  rw [statements_mk]
  split_ifs <;> simp_all

lemma statements_sublist (t : Term) : t.statements <+ t.subtrees := by
  induction t using children_induction with
  | step tag n ih =>
    rw [statements_mk, subtrees_eq]
    split_ifs
    · exact nil_sublist _
    · exact (Sublist.refl [.mk tag n]).append (.flatMap_right _ ih)
    · exact (nil_sublist [.mk tag n]).append (.flatMap_right _ ih)

lemma category_of_mem_statements {s t : Term} (h : s ∈ t.statements) :
    s.kind.category = .statement := by
  induction t using children_induction with
  | step tag n ih =>
    obtain ⟨-, ⟨hcat, rfl⟩ | ⟨c, hc, hs⟩⟩ := mem_statements_mk.mp h
    · exact hcat
    · exact ih c hc hs

end Tree

namespace Machine

open Forest

variable {f : Forest} {low : Nat → Nat}

lemma statementsOf_mk (tag : NodeId) (n : Node Term) :
    statementsOf (.mk tag n) = (match n with
      | .syntaxError message => refuse (.mk tag n) (.unparsed message)
      | .functionDecl .. => refuse (.mk tag n) .nestedFunctionInWorkflow
      | .arrowFunction .. => .ok []
      | _ => do
        let nested := (← (n.map statementsOf).children.mapM id).flatten
        pure (if n.kind.category = .statement then .mk tag n :: nested else nested)) :=
  Tree.fold_mk ..

lemma eq_statements (t : Term) : ∀ {ss}, statementsOf t = .ok ss → ss = t.statements := by
  induction t using Tree.children_induction with
  | step tag n ih =>
    intro ss hs
    rw [statementsOf_mk] at hs
    rw [Tree.statements_mk]
    split at hs
    · cases hs
    · cases hs
    · cases hs
      rfl
    · rename_i hfun harrow
      have hkind : n.kind.isFunction = false := by
        cases n <;> first | rfl | exact absurd rfl (hfun _ _ _) | exact absurd rfl (harrow _ _)
      obtain ⟨parts, hm, hs⟩ := bind_eq_ok hs
      cases hs
      have hparts := mapM_eq_ok_iff.mp hm
      rw [Node.children_map, forall₂_map_left_iff] at hparts
      have hall := (forall₂_and_left _ _).mpr ⟨fun c hc => hc, hparts⟩
      have heq := forall₂_map_left_iff.mpr (hall.imp fun c part h => (ih c h.1 h.2).symm)
      rw [forall₂_eq_eq_eq] at heq
      rw [hkind, if_neg Bool.false_ne_true, flatMap, heq]
      split_ifs <;> rfl

/-- The statements of a body, each of them once. -/
structure Collects (f : Forest) (body : Nat) (ss : List Term) : Prop where
  shows : ∀ t ∈ ss, f.Shows t
  statement : ∀ t ∈ ss, t.kind.category = .statement
  within : ∀ t ∈ ss, f.Within body t.tag
  complete : ∀ {id : Nat} {node : Node NodeId}, f.Within body id → f.node? id = some node →
    node.kind.category = .statement → ∃ t ∈ ss, t.tag = id
  nodup : (ss.map Tree.tag).Nodup

lemma within_of_mem_statements (h : f.Linked) {body t : Term} (hbody : f.Shows body)
    (ht : t ∈ body.statements) : f.Within body.tag t.tag := by
  induction body using Tree.children_induction with
  | step tag n ih =>
    obtain ⟨hfun, ⟨-, rfl⟩ | ⟨c, hc, ht⟩⟩ := Tree.mem_statements_mk.mp ht
    · exact .self
    · obtain ⟨hshows, hparent⟩ := h.shows_child hbody hc
      refine within_of_child hparent ?_ (ih c hc hshows ht)
      rw [isFunction_eq (h.node?_of_shows hbody), Node.kind_map]
      exact hfun

lemma exists_mem_statements (h : f.Linked) {body : Term} {id : Nat} {node : Node NodeId}
    (hbody : f.Shows body) (hw : f.Within body.tag id) (hnode : f.node? id = some node)
    (hcat : node.kind.category = .statement) : ∃ t ∈ body.statements, t.tag = id := by
  induction body using Tree.children_induction with
  | step tag n ih =>
    have hn := h.node?_of_shows hbody
    rcases within_cases hw with rfl | ⟨hfun, c, hc, hw⟩
    · obtain rfl := Option.mem_unique hn hnode
      rw [Node.kind_map] at hcat
      refine ⟨.mk _ n, Tree.mem_statements_mk.mpr ⟨?_, .inl ⟨hcat, rfl⟩⟩, rfl⟩
      cases n <;> first | rfl | cases hcat
    · rw [isFunction_eq hn, Node.kind_map] at hfun
      obtain ⟨node', hn', hc'⟩ := h.parent_iff.mp hc
      obtain rfl := Option.mem_unique hn hn'
      rw [Node.children_map] at hc'
      obtain ⟨c, hcn, rfl⟩ := mem_map.mp hc'
      obtain ⟨t, ht, htag⟩ := ih c hcn (h.shows_child hbody hcn).1 hw
      exact ⟨t, Tree.mem_statements_mk.mpr ⟨hfun, .inr ⟨c, hcn, ht⟩⟩, htag⟩

lemma collects_statementsOf (h : f.InOrder low) (body : Term) (ss : List Term)
    (hbody : f.Shows body) (hss : statementsOf body = .ok ss) : Collects f body.tag ss := by
  obtain rfl := eq_statements body hss
  have hsub := body.statements_sublist
  exact ⟨fun t ht => h.shows_of_mem_subtrees hbody (hsub.subset ht),
    fun t ht => Tree.category_of_mem_statements ht,
    fun t ht => within_of_mem_statements h.toLinked hbody ht,
    fun hw hnode hcat => exists_mem_statements h.toLinked hbody hw hnode hcat,
    (h.nodup_tags body hbody).1.sublist (hsub.map _)⟩

end Machine

end ServiceFlow
