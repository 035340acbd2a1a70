import ServiceFlow.Machine.Compile
import ServiceFlow.Proofs.ConstantParts
import ServiceFlow.Proofs.SuccessfulRuns

/-!
# Recognised calls

The calls of backends in an expression. A constant has none; in an expression of a template, they
stand only in arguments of a function of `JSON` after the first.
-/

namespace ServiceFlow

open ServiceFlow.Tree List

attribute [local simp] Tree.node Node.children

namespace Tree

/-- The service call that a node is. -/
def call? (registry : Registry) (t : Term) : Option ServiceCall :=
  if t.kind = .callExpr then
    match t.serviceCall? registry with
    | .ok call => call
    | .error _ => none
  else none

/-- A term without service calls. -/
def Uncalled (registry : Registry) (t : Term) : Prop := ∀ s ∈ t.subtrees, s.call? registry = none

variable {registry : Registry} {refs : References} {t : Term}

lemma call?_of_ne (registry : Registry) (h : t.kind ≠ .callExpr) : t.call? registry = none :=
  if_neg h

lemma call?_of_serviceCall? (h : t.serviceCall? registry = .ok none) : t.call? registry = none := by
  unfold call?
  split_ifs
  · rw [h]
  · rfl

lemma uncalled_of_children (h : t.call? registry = none)
    (hc : ∀ c ∈ t.node.children, c.Uncalled registry) : t.Uncalled registry := by
  intro s hs
  rw [subtrees_eq, mem_cons] at hs
  rcases hs with rfl | hs
  · exact h
  · obtain ⟨c, hmem, hs⟩ := mem_flatMap.mp hs
    exact hc c hmem s hs

lemma uncalled_of_ne (hkind : t.kind ≠ .callExpr)
    (hc : ∀ c ∈ t.node.children, c.Uncalled registry) : t.Uncalled registry :=
  uncalled_of_children (call?_of_ne registry hkind) hc

lemma uncalled_leaf (hkind : t.kind ≠ .callExpr) (hc : t.node.children = []) :
    t.Uncalled registry := uncalled_of_ne hkind (hc ▸ by simp)

section Constants

variable (h : ∀ s ∈ t.subtrees, ∀ c, s.constant? refs = some c → s.Uncalled registry)
include h

lemma uncalled_of_items? {items : List Constant} (hitems : t.items? refs = some items) :
    t.Uncalled registry := by
  obtain ⟨tag, expression, rfl⟩ | hkind := spreadElement_cases t
  · obtain ⟨c, hc, -⟩ := Option.bind_eq_some_iff.mp hitems
    have he := h expression child_mem_subtrees c hc
    exact uncalled_of_ne nofun (by simpa using he)
  · rw [items?_of_ne hkind] at hitems
    obtain ⟨c, hc, -⟩ := Option.map_eq_some_iff.mp hitems
    exact h t t.self_mem_subtrees c hc

lemma uncalled_of_nameKey? {key : String} (hkey : t.nameKey? refs = some key) :
    t.Uncalled registry := by
  obtain ⟨tag, name, rfl⟩ | hname := identifier_cases t
  · exact uncalled_leaf nofun rfl
  · obtain ⟨tag, expression, rfl⟩ | hkind := computedPropertyName_cases t
    · obtain ⟨c, hc, -⟩ := Option.bind_eq_some_iff.mp hkey
      have he := h expression child_mem_subtrees c hc
      exact uncalled_of_ne nofun (by simpa using he)
    · rw [nameKey?_of_ne hname hkind] at hkey
      obtain ⟨c, hc, -⟩ := Option.bind_eq_some_iff.mp hkey
      exact h t t.self_mem_subtrees c hc

lemma uncalled_of_writes? {w : List (String × Constant)} (hw : t.writes? refs = some w) :
    t.Uncalled registry := by
  obtain ⟨tag, n⟩ := t
  cases n with
  | propertyAssignment name value =>
    obtain ⟨key, hkey, hw⟩ := Option.bind_eq_some_iff.mp hw
    obtain ⟨c, hc, -⟩ := Option.bind_eq_some_iff.mp hw
    have hname := uncalled_of_nameKey? (fun s hs => h s (mem_subtrees_of_child
      (c := name) (by simp) hs)) hkey
    have hvalue := h value child_mem_subtrees c hc
    exact uncalled_of_ne nofun (by simpa using ⟨hname, hvalue⟩)
  | spreadAssignment expression =>
    obtain ⟨c, hc, -⟩ := Option.bind_eq_some_iff.mp hw
    have he := h expression child_mem_subtrees c hc
    exact uncalled_of_ne nofun (by simpa using he)
  | _ => cases hw

end Constants

lemma exists_of_mapM_some {α β : Type} {g : α → Option β} {xs : List α} {ys : List β}
    (h : xs.mapM g = some ys) : ∀ x ∈ xs, ∃ y, g x = some y := by
  rw [Node.mapM_list_eq_some_iff] at h
  induction h with
  | nil => simp
  | cons hx _ ih => simpa using ⟨⟨_, hx⟩, ih⟩

lemma uncalled_of_constant? (registry : Registry) (refs : References) (t : Term) :
    ∀ c, t.constant? refs = some c → t.Uncalled registry := by
  induction t using descendants_induction with
  | step t ih =>
    have hparts : ∀ e ∈ t.node.children, ∀ s ∈ e.subtrees, ∀ c, s.constant? refs = some c →
        s.Uncalled registry := fun e he s hs => ih s (mem_descendants_of_child he hs)
    obtain ⟨tag, n⟩ := t
    intro c hc
    cases n with
    | stringLiteral value | numberLiteral value | booleanLiteral value | nullLiteral
    | undefinedLiteral | referenceExpr name => exact uncalled_leaf nofun rfl
    | unaryExpr operator operand =>
      obtain ⟨v, hv, -⟩ : ∃ v, operand.constant? refs = some v ∧ _ := Option.bind_eq_some_iff.mp hc
      have ho := ih operand child_mem_descendants v hv
      exact uncalled_of_ne nofun (by simpa using ho)
    | arrayLiteral elements =>
      obtain ⟨parts, hmap, -⟩ := constant?_array.mp hc
      refine uncalled_of_ne nofun fun e he => ?_
      obtain ⟨items, hitems⟩ := exists_of_mapM_some hmap e he
      exact uncalled_of_items? (hparts e he) hitems
    | objectLiteral properties =>
      obtain ⟨parts, hmap, -⟩ := constant?_object.mp hc
      refine uncalled_of_ne nofun fun e he => ?_
      obtain ⟨w, hw⟩ := exists_of_mapM_some hmap e he
      exact uncalled_of_writes? (hparts e he) hw
    | templateExpr head spans =>
      obtain ⟨parts, hmap, -⟩ := constant?_template.mp hc
      refine uncalled_of_ne nofun fun e he => ?_
      obtain ⟨s, hs, rfl⟩ := mem_map.mp he
      obtain ⟨text, htext⟩ := exists_of_mapM_some hmap s hs
      obtain ⟨v, hv, -⟩ := Option.map_eq_some_iff.mp htext
      exact ih s.expression (child_mem_descendants he) v hv
    | propertyAccess expression name chained =>
      obtain ⟨v, hv, -⟩ := constant?_propertyAccess.mp hc
      have he := ih expression child_mem_descendants v hv
      exact uncalled_of_ne nofun (by simpa using he)
    | elementAccess expression element chained =>
      obtain ⟨v, k, hv, hk, -⟩ := constant?_elementAccess.mp hc
      have he := ih expression child_mem_descendants v hv
      have hkey := ih element child_mem_descendants k hk
      exact uncalled_of_ne nofun (by simpa using ⟨he, hkey⟩)
    | _ => cases hc

lemma uncalled_of_staticKey? (registry : Registry) {key : String} (h : t.staticKey? = some key) :
    t.Uncalled registry := by
  obtain ⟨tag, n⟩ := t
  cases n with
  | identifier name | stringLiteral value | numberLiteral value => exact uncalled_leaf nofun rfl
  | computedPropertyName expression =>
    obtain ⟨tag', n⟩ := expression
    have hleaf : (mk tag' n : Term).Uncalled registry := by
      cases n with
      | stringLiteral value | numberLiteral value => exact uncalled_leaf nofun rfl
      | _ => cases h
    exact uncalled_of_ne nofun (by simpa using hleaf)
  | _ => cases h

/-- The arguments of a function of `JSON` that are not looked at. -/
def spareArguments (t : Term) : List Term :=
  match t.node with
  | .callExpr (.mk _ (.propertyAccess receiver _ _)) arguments =>
    if receiver.isIdentifier "JSON" then arguments.drop 1 else []
  | _ => []

/-- A term in an argument that a call does not use. -/
def Spares (t s : Term) : Prop := ∃ u ∈ t.subtrees, ∃ a ∈ u.spareArguments, s ∈ a.subtrees

/-- Calls of backends stand only in arguments that are not looked at. -/
def OnlySpared (registry : Registry) (t : Term) : Prop :=
  ∀ s ∈ t.subtrees, s.call? registry ≠ none → t.Spares s

lemma onlySpared_of_uncalled (h : t.Uncalled registry) : t.OnlySpared registry :=
  fun s hs hcall => absurd (h s hs) hcall

lemma onlySpared_of_children (hcall : t.call? registry = none)
    (h : ∀ c ∈ t.node.children, c.OnlySpared registry ∨ c ∈ t.spareArguments) :
    t.OnlySpared registry := by
  intro s hs hne
  rw [subtrees_eq, mem_cons] at hs
  rcases hs with rfl | hs
  · exact absurd hcall hne
  · obtain ⟨c, hc, hs⟩ := mem_flatMap.mp hs
    rcases h c hc with hc' | hspare
    · obtain ⟨u, hu, a, ha, hs⟩ := hc' s hs hne
      exact ⟨u, mem_subtrees_of_child hc hu, a, ha, hs⟩
    · exact ⟨t, t.self_mem_subtrees, c, hspare, hs⟩

lemma onlySpared_of_ne (hkind : t.kind ≠ .callExpr)
    (h : ∀ c ∈ t.node.children, c.OnlySpared registry) : t.OnlySpared registry :=
  onlySpared_of_children (call?_of_ne registry hkind) fun c hc => .inl (h c hc)

lemma onlySpared_pair {l r : Term} (hkind : t.kind ≠ .callExpr) (hc : t.node.children = [l, r])
    (hl : l.OnlySpared registry) (hr : r.OnlySpared registry) : t.OnlySpared registry :=
  onlySpared_of_ne hkind (hc ▸ by simpa using ⟨hl, hr⟩)

lemma onlySpared_only {c : Term} (hkind : t.kind ≠ .callExpr) (hc : t.node.children = [c])
    (h : c.OnlySpared registry) : t.OnlySpared registry :=
  onlySpared_of_ne hkind (hc ▸ by simpa using h)

lemma uncalled_of_isIdentifier {name : String} (h : t.isIdentifier name = true) :
    t.Uncalled registry := by
  obtain ⟨tag, n⟩ := t
  cases n with
  | identifier name => exact uncalled_leaf nofun rfl
  | _ => cases h

lemma OnlySpared.uncalled (h : t.OnlySpared registry)
    (hspare : ∀ u ∈ t.subtrees, ∀ a ∈ u.spareArguments, a.Uncalled registry) :
    t.Uncalled registry := by
  intro s hs
  by_contra hne
  obtain ⟨u, hu, a, ha, hs⟩ := h s hs hne
  exact hne (hspare u hu a ha s hs)

end Tree

lemma ReferencePath.uncalled_of_segment? (registry : Registry) {t : Term} {segment : Segment}
    (h : segment? t = some segment) : t.Uncalled registry := by
  obtain ⟨tag, n⟩ := t
  cases n with
  | stringLiteral value | numberLiteral value => exact uncalled_leaf nofun rfl
  | _ => cases h

namespace Machine

variable {program : Program} {t : Term}

variable {ts : List Term} {callee : Term} {function : Function} {registry : Registry}

lemma calleeNames_of_calledFunction (h : calledFunction program t callee = .ok function) :
    t.serviceCall? program.registry = .ok none ∧ (calleeNames callee).1 = "JSON" := by
  obtain ⟨call, hcall, h⟩ := bind_eq_ok h
  cases call with
  | some service => cases h
  | none =>
    refine ⟨hcall, ?_⟩
    obtain ⟨intrinsic, -, h⟩ := bind_eq_ok h
    by_contra hname
    cases intrinsic with
    | some i => cases h
    | none =>
      simp only [hname, decide_false, Bool.false_and, Option.isSome_none, Bool.false_eq_true,
        if_false] at h
      split_ifs at h
      cases h

lemma uncalled_of_calledFunction (h : calledFunction program t callee = .ok function) :
    t.call? program.registry = none ∧ callee.Uncalled program.registry := by
  obtain ⟨hcall, hname⟩ := calleeNames_of_calledFunction h
  refine ⟨call?_of_serviceCall? hcall, ?_⟩
  obtain ⟨tag, n⟩ := callee
  cases n with
  | propertyAccess expression method chained =>
    obtain ⟨tag', n⟩ := expression
    cases n with
    | identifier name =>
      have hleaf : (mk tag' (.identifier name) : Term).Uncalled program.registry :=
        uncalled_leaf nofun rfl
      exact uncalled_of_ne nofun (by simpa using hleaf)
    | _ => exact absurd (show "" = "JSON" from hname) (by decide)
  | _ => exact absurd (show "" = "JSON" from hname) (by decide)

lemma serviceCall?_of_firstServiceCall? (h : firstServiceCall? registry ts = .ok none) :
    ∀ t ∈ ts, t.serviceCall? registry = .ok none := by
  induction ts with
  | nil => simp
  | cons t ts ih =>
    obtain ⟨call, hcall, h⟩ := bind_eq_ok h
    cases call with
    | some call => cases h
    | none => exact forall_mem_cons.mpr ⟨hcall, ih h⟩

lemma uncalled_of_findServiceCall? (h : t.findServiceCall? registry = .ok none) :
    t.Uncalled registry := by
  have hall := serviceCall?_of_firstServiceCall? h
  intro s hs
  rw [subtrees_eq, mem_cons] at hs
  rcases hs with rfl | hs
  · exact call?_of_serviceCall? (hall s mem_cons_self)
  · by_cases hkind : s.kind = .callExpr
    · have hmem : s ∈ t.descendants.filter fun d => d.kind == .callExpr :=
        mem_filter.mpr ⟨hs, by simp [hkind]⟩
      exact call?_of_serviceCall? (hall s (mem_cons_of_mem t hmem))
    · exact call?_of_ne registry hkind

-- A variable is no backend, whatever its name.
example : ((mk 0 (.callExpr (.mk 1 (.identifier "f")) []) : Term).call?
    ⟨[("f", ⟨.computeFunction, "f", false⟩)], []⟩).isNone := by decide +kernel

lemma uncalled_of_checkArguments {fault : PositionFault} {arguments : List Term}
    (h : checkArguments registry fault arguments = .ok ()) :
    ∀ t ∈ arguments, t.Uncalled registry := by
  induction arguments with
  | nil => simp
  | cons t arguments ih =>
    obtain ⟨found, hfound, h⟩ := bind_eq_ok h
    cases found with
    | some nested => cases h
    | none => exact forall_mem_cons.mpr ⟨uncalled_of_findServiceCall? hfound, ih h⟩

lemma uncalled_of_maxConcurrency {n : Nat} (h : maxConcurrency t = .ok n) :
    t.Uncalled registry := by
  unfold maxConcurrency at h
  split at h
  · rename_i tag name value hnode
    split_ifs at h with hkey
    split at h
    · rename_i number hvalue
      have hname : name.Uncalled registry := uncalled_of_staticKey? registry hkey
      have hleaf : value.Uncalled registry :=
        uncalled_leaf (by simp [kind, hvalue, Node.kind, -node]) (by rw [hvalue]; rfl)
      have hproperty : (mk tag (.propertyAssignment name value) : Term).Uncalled registry :=
        uncalled_of_ne Kind.noConfusion (by simpa using ⟨hname, hleaf⟩)
      refine uncalled_of_ne (by simp [kind, hnode, Node.kind, -node]) ?_
      rw [hnode]
      simpa using hproperty
    · cases h
  · cases h
  · cases h

end Machine

end ServiceFlow
