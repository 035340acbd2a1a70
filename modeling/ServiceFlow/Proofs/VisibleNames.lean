import ServiceFlow.Flow.Scope
import ServiceFlow.Proofs.FlowQueries
import ServiceFlow.Proofs.ForestGrowth
import ServiceFlow.Proofs.OrderedMaps

/-!
# Visible names

`Forest.scope` is built from the outside in. `Forest.Finds` looks for one name from the inside out,
and finds what the scope holds for it.
-/

namespace ServiceFlow.Forest

open List

/-- The declaration of a name by a node. Variables and parameters are declared with the kind that
their place gives them. -/
def declared? (f : Forest) (kind : BindingKind) (x : String) (id : NodeId) : Option Binding :=
  match f.node? id with
  | some (.variableStmt name _) | some (.parameterDecl name) =>
    if name = x then some ⟨id, kind⟩ else none
  | some (.functionDecl (some name) _ _) => if name = x then some ⟨id, .function⟩ else none
  | _ => none

/-- The declaration of a name by the parent of a node, for its body: the last parameter of that
name, or the variable of a loop. -/
def headerDeclared? (f : Forest) (x : String) (parent child : NodeId) : Option Binding :=
  match f.node? parent with
  | some (.functionDecl _ parameters body) | some (.arrowFunction parameters body) =>
    if body = child then parameters.reverse.findSome? (f.declared? .parameter x) else none
  | some (.forOfStmt binder _ body) | some (.forInStmt binder _ body) =>
    if body = child then f.declared? .loopVariable x binder else none
  | _ => none

def siblingKind (f : Forest) (parent : NodeId) : BindingKind :=
  if f.kind? parent = some .catchClause then .catchVariable else .variable

/-- The search for a name among the statements chained before a node, from the nearest on. -/
inductive FindsBefore (f : Forest) (kind : BindingKind) (x : String) :
    NodeId → Option Binding → Prop where
  | first {id} (hs : f.prev? id = none) : FindsBefore f kind x id none
  | here {id s b} (hs : f.prev? id = some s) (hd : f.declared? kind x s = some b) :
      FindsBefore f kind x id (some b)
  | farther {id s found} (hs : f.prev? id = some s) (hd : f.declared? kind x s = none)
      (rest : FindsBefore f kind x s found) : FindsBefore f kind x id found

/-- The search for a name outward from a node. At each level it looks at the statements chained
before the node, then at what the parent declares for its body, and then goes on from the parent. -/
inductive Finds (f : Forest) (x : String) : NodeId → Option Binding → Prop where
  | root {id} (hp : f.parent? id = none) : Finds f x id none
  | sibling {id p b} (hp : f.parent? id = some p)
      (hs : f.FindsBefore (f.siblingKind p) x id (some b)) : Finds f x id (some b)
  | header {id p b} (hp : f.parent? id = some p) (hs : f.FindsBefore (f.siblingKind p) x id none)
      (hh : f.headerDeclared? x p id = some b) : Finds f x id (some b)
  | outer {id p found} (hp : f.parent? id = some p)
      (hs : f.FindsBefore (f.siblingKind p) x id none) (hh : f.headerDeclared? x p id = none)
      (rest : Finds f x p found) : Finds f x id found

variable {f : Forest} {low : Nat → Nat} {id p : Nat} {x : String} {kind : BindingKind}
  {found found' : Option Binding} {rest : List Nat} {s : Nat}

lemma FindsBefore.unique (hb : f.FindsBefore kind x id found)
    (hb' : f.FindsBefore kind x id found') : found = found' := by
  induction hb with
  | first hs | here hs hd | farther hs hd rest ih => cases hb' <;> simp_all

lemma Finds.unique (hx : f.Finds x id found) (hx' : f.Finds x id found') : found = found' := by
  induction hx with
  | root hp => cases hx' <;> simp_all
  | sibling hp hs | header hp hs hh =>
    cases hx' with
    | root hp' => simp [hp] at hp'
    | sibling hp' hs' | header hp' hs' hh' | outer hp' hs' hh' rest' =>
      obtain rfl := Option.mem_unique hp hp'
      have heq := hs.unique hs'
      simp_all
  | outer hp hs hh rest ih =>
    cases hx' with
    | root hp' => simp [hp] at hp'
    | sibling hp' hs' | header hp' hs' hh' =>
      obtain rfl := Option.mem_unique hp hp'
      have heq := hs.unique hs'
      simp_all
    | outer hp' hs' hh' rest' =>
      obtain rfl := Option.mem_unique hp hp'
      exact ih rest'

lemma get?_bind (kind : BindingKind) (scope : Ordered Binding) (x : String) (id : NodeId) :
    (f.bind kind scope id).get? x = (f.declared? kind x id).or (scope.get? x) := by
  unfold bind declared?
  rcases f.node? id with _ | node
  · rfl
  · cases node
    case variableStmt | parameterDecl =>
      simp only [Ordered.get?_put]
      split_ifs <;> rfl
    case functionDecl name _ _ =>
      cases name with
      | none => rfl
      | some name =>
        simp only [Ordered.get?_put]
        split_ifs <;> rfl
    all_goals rfl

lemma get?_foldl_bind (kind : BindingKind) (ids : List NodeId) (scope : Ordered Binding)
    (x : String) :
    (ids.foldl (f.bind kind) scope).get? x =
      (ids.reverse.findSome? (f.declared? kind x)).or (scope.get? x) := by
  induction ids generalizing scope with
  | nil => rfl
  | cons id ids ih =>
    rw [foldl_cons, ih, get?_bind, reverse_cons, findSome?_append, Option.or_assoc]
    simp

lemma get?_bindHeader (parent child : NodeId) (scope : Ordered Binding) (x : String) :
    (f.bindHeader parent child scope).get? x =
      (f.headerDeclared? x parent child).or (scope.get? x) := by
  unfold bindHeader headerDeclared?
  rcases f.node? parent with _ | node
  · rfl
  · cases node
    case functionDecl | arrowFunction =>
      dsimp only
      split_ifs
      · exact get?_foldl_bind ..
      · rfl
    case forOfStmt | forInStmt =>
      dsimp only
      split_ifs
      · exact get?_bind ..
      · rfl
    all_goals rfl

section Chains

lemma before?_of_not_mem {a : Nat} (hid : id ∉ rest) : before? id (a :: rest) = none := by
  induction rest generalizing a with
  | nil => rfl
  | cons b rest ih =>
    obtain ⟨hb, hid⟩ := ne_and_not_mem_of_not_mem_cons hid
    rw [before?, if_neg (Ne.symm hb), ih hid]

lemma before?_append {before : List Nat} (hs : s ≠ id) (hid : id ∉ before) :
    before? id (before ++ s :: id :: rest) = some s := by
  induction before with
  | nil => rw [nil_append, before?, if_pos rfl]
  | cons a before ih =>
    have hbefore := (ne_and_not_mem_of_not_mem_cons hid).2
    cases before with
    | nil => simp [before?, hs]
    | cons b before =>
      have hb := (ne_and_not_mem_of_not_mem_cons hbefore).1
      simpa [before?, Ne.symm hb] using ih hbefore

end Chains

namespace Linked

variable (h : f.Linked)
include h

lemma chain_of_mem (hs : s ∈ f.chain id) : f.chain s = f.chain id := by
  obtain ⟨p, node, hp, hn, hchildren, -⟩ := chain_eq_children (ne_nil_of_mem hs)
  rw [hchildren] at hs
  have hps : f.parent? s = some p := h.parent_eq_some hn hs
  unfold chain
  rw [hp, hps]

lemma mem_chain (hne : f.chain id ≠ []) : id ∈ f.chain id := by
  obtain ⟨p, node, hp, hn, hchildren, -⟩ := chain_eq_children hne
  obtain ⟨node', hn', hc⟩ := h.parent_iff.mp hp
  obtain rfl := Option.mem_unique hn hn'
  rwa [hchildren]

lemma scopeWithin_eq {fuel fuel' : Nat} (hfuel : (f.ancestors id).length < fuel)
    (hfuel' : (f.ancestors id).length < fuel') :
    f.scopeWithin fuel id = f.scopeWithin fuel' id := by
  induction fuel generalizing id fuel' with
  | zero => omega
  | succ fuel ih =>
    cases fuel' with
    | zero => omega
    | succ fuel' =>
      rw [scopeWithin, scopeWithin]
      cases hp : f.parent? id with
      | none => rfl
      | some p =>
        have hlen := h.length_ancestors hp
        have hparent : f.scopeWithin fuel p = f.scopeWithin fuel' p := ih (by omega) (by omega)
        dsimp only
        rw [hparent]

lemma scope_of_parent (hp : f.parent? id = some p) :
    f.scope id =
      (f.preceding id).foldl (f.bind (f.siblingKind p)) (f.bindHeader p id (f.scope p)) := by
  have hid : id < f.size := Nat.lt_trans (h.lt_parent hp) (h.parent_lt_size hp)
  have hlen := h.length_ancestors hp
  have hsize := h.length_ancestors_lt hid
  have hscope : f.scope id = f.scopeWithin (f.size + 1) id := h.scopeWithin_eq (by omega) (by omega)
  rw [hscope, scopeWithin, hp]
  rfl

end Linked

lemma scope_of_root (hp : f.parent? id = none) : f.scope id = [] := by
  unfold scope
  cases f.size with
  | zero => rfl
  | succ fuel => rw [scopeWithin, hp]

namespace InOrder

variable (h : f.InOrder low)
include h

lemma nodup_chain (id : Nat) : (f.chain id).Nodup := by
  by_cases hne : f.chain id = []
  · rw [hne]
    exact nodup_nil
  · obtain ⟨p, node, -, hn, hchildren, -⟩ := chain_eq_children hne
    rw [hchildren]
    exact h.nodup_children hn

lemma findsBefore_of_chain {nearest : List Nat}
    (hchain : f.chain id = nearest.reverse ++ id :: rest) :
    f.FindsBefore kind x id (nearest.findSome? (f.declared? kind x)) := by
  have hnodup := h.nodup_chain id
  induction nearest generalizing id rest with
  | nil =>
    rw [hchain, reverse_nil, nil_append] at hnodup
    apply FindsBefore.first
    rw [prev?, hchain]
    exact before?_of_not_mem (nodup_cons.mp hnodup).1
  | cons s nearest ih =>
    rw [reverse_cons, append_assoc, singleton_append] at hchain
    have hs : f.prev? id = some s := by
      rw [hchain, nodup_append] at hnodup
      obtain ⟨-, hrest, hdisjoint⟩ := hnodup
      rw [prev?, hchain]
      apply before?_append
      · exact (ne_and_not_mem_of_not_mem_cons (nodup_cons.mp hrest).1).1
      · exact fun hm => hdisjoint id hm id (by simp) rfl
    -- The nearest statement has the same chain, with one statement less before it.
    have hchain' : f.chain s = nearest.reverse ++ s :: id :: rest := by
      rw [← hchain]
      exact h.chain_of_mem (by simp [hchain])
    have hrest := ih hchain' (h.nodup_chain s)
    rw [findSome?_cons]
    cases hd : f.declared? kind x s with
    | none => exact .farther hs hd hrest
    | some b => exact .here hs hd

lemma findsBefore_preceding (kind : BindingKind) (x : String) (id : Nat) :
    f.FindsBefore kind x id ((f.preceding id).reverse.findSome? (f.declared? kind x)) := by
  by_cases hne : f.chain id = []
  · have hs : f.prev? id = none := by rw [prev?, hne]; rfl
    rw [preceding, hne]
    exact .first hs
  · have hmem := h.mem_chain hne
    obtain ⟨before, rest, hchain, hid⟩ := eq_append_cons_of_mem hmem
    have hbefore : f.preceding id = before := by
      rw [preceding, if_pos hmem, hchain, takeWhile_append_of_pos]
      · simp
      · intro s hs
        exact decide_eq_true fun heq => hid (heq ▸ hs)
    rw [hbefore]
    exact h.findsBefore_of_chain (by rw [reverse_reverse, hchain])

lemma finds_scope (x : String) (id : Nat) : f.Finds x id ((f.scope id).get? x) := by
  induction hk : f.size - id using Nat.strongRecOn generalizing id with
  | _ k ih =>
    cases hp : f.parent? id with
    | none =>
      rw [scope_of_root hp]
      exact .root hp
    | some p =>
      have hlt := h.lt_parent hp
      have hsize := h.parent_lt_size hp
      have hrest := ih (f.size - p) (by omega) p rfl
      have hs := h.findsBefore_preceding (f.siblingKind p) x id
      rw [h.scope_of_parent hp, get?_foldl_bind, get?_bindHeader]
      cases hfound : (f.preceding id).reverse.findSome? (f.declared? (f.siblingKind p) x) with
      | some b =>
        rw [hfound] at hs
        exact .sibling hp hs
      | none =>
        rw [hfound] at hs
        cases hh : f.headerDeclared? x p id with
        | some b => exact .header hp hs hh
        | none => exact .outer hp hs hh hrest

end InOrder

/-- A name is visible at a node exactly when the search outward from the node finds a declaration of
it, and the scope holds the first declaration that is found. -/
theorem scope_get_iff_finds {tree : SyntaxTree} {root : NodeId} {f : Forest}
    (hf : ofTree tree = .ok (root, f)) (id : NodeId) (x : String) (found : Option Binding) :
    (f.scope id).get? x = found ↔ f.Finds x id found := by
  obtain ⟨low, h⟩ := inOrder_ofTree hf
  have hfinds := h.finds_scope x id
  constructor
  · rintro rfl
    exact hfinds
  · exact hfinds.unique

def shadowedNames : SyntaxTree :=
  let inner : SyntaxTree := .mk () (.functionDecl (some "g") [] (.block []))
  let clause : SyntaxTree := .mk () (.catchClause (some (.declare "e")) (.block [.leave]))
  let guarded : SyntaxTree := .mk () (.tryStmt (.block []) (some clause) none)
  .function [.param "a", .param "b", .param "a"] [.declare "x", inner,
    .each "x" (.ident "a") (.block [.declare "b", guarded])]

theorem scope_get_iff_finds_shadowedNames : ∃ root f, ofTree shadowedNames = .ok (root, f) ∧
    f.Finds "a" 11 (some ⟨2, .parameter⟩) ∧ f.Finds "b" 11 (some ⟨8, .variable⟩) ∧
    f.Finds "x" 11 (some ⟨6, .loopVariable⟩) ∧ f.Finds "g" 11 (some ⟨5, .function⟩) ∧
    f.Finds "e" 11 (some ⟨10, .catchVariable⟩) ∧ f.Finds "y" 11 none := by
  obtain ⟨root, f, hf, heval⟩ := exists_ofTree_of_any shadowedNames
    (fun f => f.scope 11 == [("a", ⟨2, .parameter⟩), ("b", ⟨8, .variable⟩),
      ("x", ⟨6, .loopVariable⟩), ("g", ⟨5, .function⟩), ("e", ⟨10, .catchVariable⟩)])
    (by decide +kernel)
  have hscope := beq_iff_eq.mp heval
  have hfinds := fun x found => (scope_get_iff_finds hf 11 x found).mp
  refine ⟨root, f, hf, hfinds _ _ ?_, hfinds _ _ ?_, hfinds _ _ ?_, hfinds _ _ ?_, hfinds _ _ ?_,
    hfinds _ _ ?_⟩
  all_goals
    rw [hscope]
    decide

end ServiceFlow.Forest
