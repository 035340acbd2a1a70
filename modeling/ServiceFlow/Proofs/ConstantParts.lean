import ServiceFlow.Proofs.ForestView
import ServiceFlow.Proofs.OrderedMaps

/-!
# Constants part by part

The items of an array, the entries of an object and the text of a template are evaluated part by
part. Tags play no role in this.
-/

namespace ServiceFlow

open List

attribute [local simp] Tree.node Node.children

namespace Constant

/-- The items of a constant array. -/
def items? : Constant → Option (List Constant)
  | .array items => some items
  | _ => none

/-- The entries of a constant object. -/
def entries? : Constant → Option (Ordered Constant)
  | .object entries => some entries
  | _ => none

end Constant

namespace Tree

variable {α : Type}

def items? (refs : References) (t : Tree α) : Option (List Constant) :=
  match t.node with
  | .spreadElement expression => (expression.constant? refs).bind Constant.items?
  | _ => (t.constant? refs).map ([·])

def nameKey? (refs : References) (name : Tree α) : Option String :=
  match name.node with
  | .identifier key => some key
  | .computedPropertyName expression => (expression.constant? refs).bind Constant.key?
  | _ => (name.constant? refs).bind Constant.key?

def writes? (refs : References) (t : Tree α) : Option (List (String × Constant)) :=
  match t.node with
  | .propertyAssignment name value => do pure [(← name.nameKey? refs, ← value.constant? refs)]
  | .spreadAssignment expression => (expression.constant? refs).bind Constant.entries?
  | _ => none

/-- The text of a span with a constant. -/
def spanText? (refs : References) (s : Span (Tree α)) : Option String :=
  (s.expression.constant? refs).map fun value => value.text ++ s.literal

variable {t : Tree α}

lemma items?_of_ne (h : t.kind ≠ .spreadElement) (refs : References) :
    t.items? refs = (t.constant? refs).map ([·]) := by
  obtain ⟨tag, n⟩ := t
  cases n with
  | spreadElement expression => exact absurd rfl h
  | _ => rfl

lemma nameKey?_of_ne (hname : t.kind ≠ .identifier) (hcomputed : t.kind ≠ .computedPropertyName)
    (refs : References) : t.nameKey? refs = (t.constant? refs).bind Constant.key? := by
  obtain ⟨tag, n⟩ := t
  cases n with
  | identifier key => exact absurd rfl hname
  | computedPropertyName expression => exact absurd rfl hcomputed
  | _ => rfl

lemma spreadElement_cases (t : Tree α) :
    (∃ tag expression, t = .mk tag (.spreadElement expression)) ∨ t.kind ≠ .spreadElement := by
  obtain ⟨tag, n⟩ := t
  cases n with
  | spreadElement expression => exact .inl ⟨tag, expression, rfl⟩
  | _ => exact .inr nofun

lemma identifier_cases (t : Tree α) :
    (∃ tag name, t = .mk tag (.identifier name)) ∨ t.kind ≠ .identifier := by
  obtain ⟨tag, n⟩ := t
  cases n with
  | identifier name => exact .inl ⟨tag, name, rfl⟩
  | _ => exact .inr nofun

lemma computedPropertyName_cases (t : Tree α) :
    (∃ tag expression, t = .mk tag (.computedPropertyName expression)) ∨ t.kind ≠ .computedPropertyName := by
  obtain ⟨tag, n⟩ := t
  cases n with
  | computedPropertyName expression => exact .inl ⟨tag, expression, rfl⟩
  | _ => exact .inr nofun

lemma computedName_mem_subtrees (tag tag' : α) (expression value : Tree α) :
    expression ∈ (mk tag (.propertyAssignment
      (.mk tag' (.computedPropertyName expression)) value)).subtrees :=
  mem_subtrees_of_child (c := .mk tag' (.computedPropertyName expression))
    (by simp) child_mem_subtrees

lemma constantItems?_eq (refs : References) (ts : List (Tree α)) :
    constantItems? refs ts = (ts.mapM (items? refs)).map flatten := by
  induction ts with
  | nil => rfl
  | cons t ts ih =>
    rw [mapM_cons]
    obtain ⟨tag, expression, rfl⟩ | hkind := spreadElement_cases t
    · rw [constantItems?, ih]
      simp only [items?, node]
      cases expression.constant? refs with
      | none => rfl
      | some c => cases c <;> cases ts.mapM (items? refs) <;> rfl
    · rw [constantItems?, ih, items?_of_ne hkind]
      · cases t.constant? refs <;> cases ts.mapM (items? refs) <;> simp
      · rintro _ _ rfl
        exact hkind rfl

-- A spread item gives the items of its array.
example : (constantItems? noReferences [.mk () (.spreadElement (.mk () (.arrayLiteral
    [.mk () .nullLiteral])))]).map (·.map Constant.text) = some ["null"] := by decide +kernel

lemma bind_key?_put (name value : Option Constant) (entries : Ordered Constant)
    (rest : Ordered Constant → Option (Ordered Constant)) :
    (do
      let key ← (← name).key?
      rest (entries.put key (← value))) =
    (do pure [(← name.bind Constant.key?, ← value)] : Option (List (String × Constant))).bind
      fun w => rest (entries.putAll w) := by
  cases name with
  | none => rfl
  | some c => cases hkey : c.key? <;> cases value <;> simp [hkey, Ordered.putAll]

lemma constantEntries?_cons (refs : References) (entries : Ordered Constant) (t : Tree α)
    (ts : List (Tree α)) :
    constantEntries? refs entries (t :: ts) =
      (t.writes? refs).bind fun w => constantEntries? refs (entries.putAll w) ts := by
  obtain ⟨tag, n⟩ := t
  cases n with
  | propertyAssignment name value =>
    obtain ⟨tag', key, rfl⟩ | hname := identifier_cases name
    · rw [constantEntries?]
      simp only [writes?, node, nameKey?]
      cases value.constant? refs <;> rfl
    · obtain ⟨tag', expression, rfl⟩ | hkind := computedPropertyName_cases name
      · rw [constantEntries?]
        exact bind_key?_put _ _ entries fun e => constantEntries? refs e ts
      · rw [constantEntries?]
        · simp only [writes?, node, nameKey?_of_ne hname hkind]
          exact bind_key?_put _ _ entries fun e => constantEntries? refs e ts
        · rintro _ _ rfl
          exact hname rfl
        · rintro _ _ rfl
          exact hkind rfl
  | spreadAssignment expression =>
    rw [constantEntries?]
    simp only [writes?, node]
    cases expression.constant? refs with
    | none => rfl
    | some c => cases c <;> rfl
  | _ =>
    rw [constantEntries?]
    · rfl
    all_goals simp

lemma constantEntries?_eq (refs : References) (entries : Ordered Constant) (ts : List (Tree α)) :
    constantEntries? refs entries ts =
      (ts.mapM (writes? refs)).map fun w => entries.putAll w.flatten := by
  induction ts generalizing entries with
  | nil => rfl
  | cons t ts ih =>
    rw [constantEntries?_cons, mapM_cons]
    cases t.writes? refs with
    | none => rfl
    | some w =>
      simp only [Option.bind_some, ih]
      cases ts.mapM (writes? refs) with
      | none => rfl
      | some ws => simp [Ordered.putAll_append]

lemma constantSpans?_eq (refs : References) (spans : List (Span (Tree α))) :
    constantSpans? refs spans = (spans.mapM (spanText? refs)).map (foldr (· ++ ·) "") := by
  induction spans with
  | nil => rfl
  | cons s spans ih =>
    obtain ⟨expression, literal⟩ := s
    rw [constantSpans?, ih, mapM_cons, spanText?]
    cases expression.constant? refs <;> cases spans.mapM (spanText? refs) <;> simp

section Literals

variable {refs : References} {tag : α} {c : Constant}

lemma constant?_array {elements : List (Tree α)} :
    constant? refs (.mk tag (.arrayLiteral elements)) = some c ↔
      ∃ parts, elements.mapM (items? refs) = some parts ∧ c = .array parts.flatten := by
  change (constantItems? refs elements).bind (fun items => some (.array items)) = some c ↔ _
  rw [constantItems?_eq]
  cases elements.mapM (items? refs) <;> simp [eq_comm]

lemma constant?_object {properties : List (Tree α)} :
    constant? refs (.mk tag (.objectLiteral properties)) = some c ↔
      ∃ parts, properties.mapM (writes? refs) = some parts ∧
        c = .object (Ordered.ofEntries parts.flatten) := by
  change (constantEntries? refs [] properties).bind (fun e => some (.object e)) = some c ↔ _
  rw [constantEntries?_eq]
  cases properties.mapM (writes? refs) <;> simp [eq_comm, Ordered.ofEntries]

lemma constant?_template {head : String} {spans : List (Span (Tree α))} :
    constant? refs (.mk tag (.templateExpr head spans)) = some c ↔
      ∃ parts, spans.mapM (spanText? refs) = some parts ∧
        c = .string (head ++ parts.foldr (· ++ ·) "") := by
  change (constantSpans? refs spans).bind (fun text => some (.string (head ++ text))) = some c ↔ _
  rw [constantSpans?_eq]
  cases spans.mapM (spanText? refs) <;> simp [eq_comm]

example : (constant? noReferences (.mk () (.templateExpr "a" [⟨.mk () .nullLiteral, "b"⟩]))).map
    Constant.text = some "anullb" := by decide +kernel

variable {expression : Tree α} {chained : Bool}

lemma constant?_propertyAccess {name : String} :
    constant? refs (.mk tag (.propertyAccess expression name chained)) = some c ↔
      ∃ v, expression.constant? refs = some v ∧ v.member? (.string name) = some c :=
  Option.bind_eq_some_iff

lemma constant?_elementAccess {element : Tree α} :
    constant? refs (.mk tag (.elementAccess expression element chained)) = some c ↔
      ∃ v k, expression.constant? refs = some v ∧ element.constant? refs = some k ∧
        v.member? k = some c := by
  change (expression.constant? refs).bind (fun v => (element.constant? refs).bind v.member?) =
    some c ↔ _
  cases expression.constant? refs <;> cases element.constant? refs <;> simp

end Literals

section Untag

variable {refs : References} {t : Tree α}
  (h : ∀ s ∈ t.subtrees, s.untag.constant? refs = s.constant? refs)
include h

lemma items?_untag : t.untag.items? refs = t.items? refs := by
  obtain ⟨tag, expression, rfl⟩ | hkind := spreadElement_cases t
  · have he := h expression child_mem_subtrees
    rw [untag_mk]
    simp only [items?, node, Node.map, he]
  · rw [items?_of_ne (by rwa [kind_untag]), items?_of_ne hkind, h t t.self_mem_subtrees]

lemma nameKey?_untag : t.untag.nameKey? refs = t.nameKey? refs := by
  obtain ⟨tag, name, rfl⟩ | hname := identifier_cases t
  · rfl
  · obtain ⟨tag, expression, rfl⟩ | hkind := computedPropertyName_cases t
    · have he := h expression child_mem_subtrees
      rw [untag_mk]
      simp only [nameKey?, node, Node.map, he]
    · rw [nameKey?_of_ne (by rwa [kind_untag]) (by rwa [kind_untag]),
        nameKey?_of_ne hname hkind, h t t.self_mem_subtrees]

lemma writes?_untag : t.untag.writes? refs = t.writes? refs := by
  obtain ⟨tag, n⟩ := t
  rw [untag_mk]
  cases n with
  | propertyAssignment name value =>
    have hname := nameKey?_untag fun s hs =>
      h s (mem_subtrees_of_child (c := name) (by simp) hs)
    have hvalue := h value child_mem_subtrees
    simp only [writes?, node, Node.map, hname, hvalue]
  | spreadAssignment expression =>
    have he := h expression child_mem_subtrees
    simp only [writes?, node, Node.map, he]
  | _ => rfl

end Untag

lemma constant?_untag (refs : References) (t : Tree α) :
    t.untag.constant? refs = t.constant? refs := by
  induction t using descendants_induction with
  | step t ih =>
    obtain ⟨tag, n⟩ := t
    rw [untag_mk]
    cases n with
    | unaryExpr operator operand =>
      have hoperand := ih operand child_mem_descendants
      simp only [Node.map, constant?, hoperand]
    | arrayLiteral elements =>
      have hitems : (elements.map untag).mapM (items? refs) = elements.mapM (items? refs) := by
        rw [mapM_map]
        exact Node.mapM_list_congr fun t ht => items?_untag fun s hs =>
          ih s (mem_descendants_of_child ht hs)
      simp only [Node.map, constant?, constantItems?_eq, hitems]
    | objectLiteral properties =>
      have hwrites :
          (properties.map untag).mapM (writes? refs) = properties.mapM (writes? refs) := by
        rw [mapM_map]
        exact Node.mapM_list_congr fun t ht => writes?_untag fun s hs =>
          ih s (mem_descendants_of_child ht hs)
      simp only [Node.map, constant?, constantEntries?_eq, hwrites]
    | templateExpr head spans =>
      have hspans : (spans.map fun s => (⟨s.expression.untag, s.literal⟩ : Span SyntaxTree)).mapM
          (spanText? refs) = spans.mapM (spanText? refs) := by
        rw [mapM_map]
        refine Node.mapM_list_congr fun s hs => ?_
        have he := ih s.expression (child_mem_descendants (mem_map_of_mem hs))
        simp only [Function.comp_apply, spanText?, he]
      simp only [Node.map, constant?, constantSpans?_eq, hspans]
    | propertyAccess expression name chained =>
      have he := ih expression child_mem_descendants
      simp only [Node.map, constant?, he]
    | elementAccess expression element chained =>
      have he := ih expression child_mem_descendants
      have hk := ih element child_mem_descendants
      simp only [Node.map, constant?, he, hk]
    | _ => rfl

example : ((mk 7 .nullLiteral).untag.constant? noReferences).isSome := by decide +kernel

lemma mapM_some_of_forall {β γ : Type} {g h : β → Option γ} {xs : List β} {ys : List γ}
    (hgh : ∀ x ∈ xs, ∀ y, g x = some y → h x = some y) (hg : xs.mapM g = some ys) :
    xs.mapM h = some ys := by
  induction xs generalizing ys with
  | nil => exact hg
  | cons x xs ih =>
    rw [Node.mapM_list_eq_some_iff, forall₂_cons_left_iff] at hg ⊢
    obtain ⟨y, ys, hx, hxs, rfl⟩ := hg
    have hrest := ih (fun z hz => hgh z (mem_cons_of_mem _ hz)) (Node.mapM_list_eq_some_iff.mpr hxs)
    exact ⟨y, ys, hgh x mem_cons_self y hx, Node.mapM_list_eq_some_iff.mp hrest, rfl⟩

section Mono

variable {refs : References} {t : Tree α}

/-- Where the tree and all trees below it are constant without references, they have the same
values with them. -/
def Stable (refs : References) (t : Tree α) : Prop :=
  ∀ s ∈ t.subtrees, ∀ c, s.constant? noReferences = some c → s.constant? refs = some c

lemma Stable.items? (h : t.Stable refs) (parts : List Constant)
    (ht : t.items? noReferences = some parts) : t.items? refs = some parts := by
  obtain ⟨tag, expression, rfl⟩ | hkind := spreadElement_cases t
  · obtain ⟨c, hc, hitems⟩ := Option.bind_eq_some_iff.mp ht
    have he := h expression child_mem_subtrees c hc
    exact Option.bind_eq_some_iff.mpr ⟨c, he, hitems⟩
  · rw [items?_of_ne hkind, Option.map_eq_some_iff] at ht ⊢
    obtain ⟨c, hc, hparts⟩ := ht
    exact ⟨c, h t t.self_mem_subtrees c hc, hparts⟩

lemma Stable.nameKey? (h : t.Stable refs) (key : String)
    (ht : t.nameKey? noReferences = some key) : t.nameKey? refs = some key := by
  obtain ⟨tag, name, rfl⟩ | hname := identifier_cases t
  · exact ht
  · obtain ⟨tag, expression, rfl⟩ | hkind := computedPropertyName_cases t
    · obtain ⟨c, hc, hkey⟩ := Option.bind_eq_some_iff.mp ht
      have he := h expression child_mem_subtrees c hc
      exact Option.bind_eq_some_iff.mpr ⟨c, he, hkey⟩
    · rw [nameKey?_of_ne hname hkind, Option.bind_eq_some_iff] at ht ⊢
      obtain ⟨c, hc, hkey⟩ := ht
      exact ⟨c, h t t.self_mem_subtrees c hc, hkey⟩

lemma Stable.writes? (h : t.Stable refs) (w : List (String × Constant))
    (ht : t.writes? noReferences = some w) : t.writes? refs = some w := by
  obtain ⟨tag, n⟩ := t
  cases n with
  | propertyAssignment name value =>
    obtain ⟨key, hkey, ht⟩ := Option.bind_eq_some_iff.mp ht
    obtain ⟨c, hc, hw⟩ := Option.bind_eq_some_iff.mp ht
    have hname := Stable.nameKey? (fun s hs => h s (mem_subtrees_of_child (by simp) hs)) key hkey
    have hvalue := h value child_mem_subtrees c hc
    exact Option.bind_eq_some_iff.mpr ⟨key, hname, Option.bind_eq_some_iff.mpr ⟨c, hvalue, hw⟩⟩
  | spreadAssignment expression =>
    obtain ⟨c, hc, hw⟩ := Option.bind_eq_some_iff.mp ht
    have he := h expression child_mem_subtrees c hc
    exact Option.bind_eq_some_iff.mpr ⟨c, he, hw⟩
  | _ => cases ht

end Mono

lemma constant?_of_noReferences (refs : References) (t : Tree α) :
    ∀ c, t.constant? noReferences = some c → t.constant? refs = some c := by
  induction t using descendants_induction with
  | step t ih =>
    have hchild : ∀ s ∈ t.node.children, s.Stable refs := fun s hs d hd =>
      ih d (mem_descendants_of_child hs hd)
    obtain ⟨tag, n⟩ := t
    intro c hc
    cases n with
    | unaryExpr operator operand =>
      simp only [constant?] at hc ⊢
      obtain ⟨v, hv, hc⟩ := Option.bind_eq_some_iff.mp hc
      have hoperand := ih operand child_mem_descendants v hv
      exact Option.bind_eq_some_iff.mpr ⟨v, hoperand, hc⟩
    | arrayLiteral elements =>
      obtain ⟨parts, hparts, rfl⟩ := constant?_array.mp hc
      exact constant?_array.mpr
        ⟨parts, mapM_some_of_forall (fun t ht => (hchild t ht).items?) hparts, rfl⟩
    | objectLiteral properties =>
      obtain ⟨parts, hparts, rfl⟩ := constant?_object.mp hc
      exact constant?_object.mpr
        ⟨parts, mapM_some_of_forall (fun t ht => (hchild t ht).writes?) hparts, rfl⟩
    | templateExpr head spans =>
      obtain ⟨parts, hparts, rfl⟩ := constant?_template.mp hc
      refine constant?_template.mpr
        ⟨parts, mapM_some_of_forall (fun s hs text htext => ?_) hparts, rfl⟩
      obtain ⟨v, hv, rfl⟩ := Option.map_eq_some_iff.mp htext
      have he := ih s.expression (child_mem_descendants (mem_map_of_mem hs)) v hv
      exact Option.map_eq_some_iff.mpr ⟨v, he, rfl⟩
    | propertyAccess expression name chained =>
      obtain ⟨v, hv, hmember⟩ := constant?_propertyAccess.mp hc
      have he := ih expression child_mem_descendants v hv
      exact constant?_propertyAccess.mpr ⟨v, he, hmember⟩
    | elementAccess expression element chained =>
      obtain ⟨v, k, hv, hk, hmember⟩ := constant?_elementAccess.mp hc
      have he := ih expression child_mem_descendants v hv
      have hkey := ih element child_mem_descendants k hk
      exact constant?_elementAccess.mpr ⟨v, k, he, hkey, hmember⟩
    | referenceExpr name => cases hc
    | _ => exact hc

end Tree

end ServiceFlow
