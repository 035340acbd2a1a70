import ServiceFlow.Proofs.BodyStatements
import ServiceFlow.Proofs.EmittedStates
import ServiceFlow.Proofs.RecognisedCalls

/-!
# What belongs to a statement

Each node of a body belongs to the innermost statement around it, where the inside of an inline
function belongs to the statement around the function.
-/

namespace ServiceFlow

open List

namespace Tree

section Loose

variable {α : Type} {t : Tree α}

/-- The subtrees that are in no statement. Those of a function are its own. -/
def loose (t : Tree α) : List (Tree α) :=
  t.fold fun t parts =>
    if t.kind.category = .statement then []
    else if t.kind.isFunction then t.subtrees
    else t :: parts.children.flatten

lemma loose_eq (t : Tree α) :
    t.loose = if t.kind.category = .statement then []
      else if t.kind.isFunction then t.subtrees else t :: t.node.children.flatMap loose := by
  obtain ⟨tag, n⟩ := t
  rw [loose, fold_mk, Node.children_map]
  rfl

lemma loose_of_statement (h : t.kind.category = .statement) : t.loose = [] := by
  rw [loose_eq, if_pos h]

lemma loose_of_function (h : t.kind.isFunction = true) : t.loose = t.subtrees := by
  rw [loose_eq, if_neg, if_pos h]
  intro hstatement
  cases hkind : t.kind <;> rw [hkind] at h hstatement <;> cases h <;> cases hstatement

lemma loose_of_expression (h : t.kind.category ≠ .statement) (hf : t.kind.isFunction = false) :
    t.loose = t :: t.node.children.flatMap loose := by
  rw [loose_eq, if_neg h, hf, if_neg Bool.false_ne_true]

lemma loose_subset (t : Tree α) : t.loose ⊆ t.subtrees := by
  induction t using children_induction with
  | step tag n ih =>
    rw [loose_eq]
    split_ifs
    · exact nil_subset _
    · exact Subset.refl _
    · intro s hs
      rcases mem_cons.mp hs with rfl | hs
      · exact self_mem_subtrees _
      · obtain ⟨c, hc, hs⟩ := mem_flatMap.mp hs
        exact mem_subtrees_of_child hc (ih c hc hs)

/-- The parts of a statement itself. -/
def own (t : Tree α) : List (Tree α) := t.node.children.flatMap loose

end Loose

lemma perm_exchange {α : Type} (a b c d : List α) :
    (a ++ b ++ (c ++ d)).Perm (a ++ c ++ (b ++ d)) := by
  rw [append_assoc, append_assoc, ← append_assoc b, ← append_assoc c]
  exact (perm_append_comm.append_right d).append_left a

lemma flatMap_subtrees_perm {cs : List Term}
    (h : ∀ c ∈ cs, c.subtrees.Perm (c.loose ++ c.statements.flatMap fun s => s :: s.own)) :
    (cs.flatMap subtrees).Perm
      (cs.flatMap loose ++ (cs.flatMap statements).flatMap fun s => s :: s.own) := by
  induction cs with
  | nil => exact .nil
  | cons c cs ih =>
    obtain ⟨hc, hcs⟩ := forall_mem_cons.mp h
    simp only [flatMap_cons, flatMap_append]
    exact (hc.append (ih hcs)).trans (perm_exchange ..)

/-- Every node is loose, a statement that was collected, or belongs to one of them. -/
theorem subtrees_perm (t : Term) :
    t.subtrees.Perm (t.loose ++ t.statements.flatMap fun s => s :: s.own) := by
  induction t using children_induction with
  | step tag n ih =>
    have hchildren := flatMap_subtrees_perm ih
    rw [statements_mk]
    split_ifs with hfun hstatement
    · rw [loose_of_function (t := .mk tag n) hfun, flatMap_nil, append_nil]
    · rw [subtrees_eq, loose_of_statement (t := .mk tag n) hstatement, nil_append,
        singleton_append, flatMap_cons, cons_append]
      exact hchildren.cons _
    · rw [subtrees_eq, loose_of_expression (t := .mk tag n) hstatement (eq_false_of_ne_true hfun),
        nil_append, cons_append]
      exact hchildren.cons _

variable {registry : Registry} {t : Term}

/-- The calls of a term. -/
def calls (registry : Registry) (t : Term) : List ServiceCall :=
  t.subtrees.filterMap (call? registry)

lemma calls_eq (registry : Registry) (t : Term) :
    t.calls registry = (t.call? registry).toList ++ t.node.children.flatMap (calls registry) := by
  rw [calls, subtrees_eq, filterMap_cons, descendants, filterMap_flatMap]
  cases t.call? registry <;> rfl

def looseCalls (registry : Registry) (t : Term) : List ServiceCall :=
  t.loose.filterMap (call? registry)

/-- The calls of a statement itself. -/
def ownCalls (registry : Registry) (t : Term) : List ServiceCall :=
  t.node.children.flatMap (looseCalls registry)

lemma ownCalls_eq (registry : Registry) (t : Term) :
    t.ownCalls registry = t.own.filterMap (call? registry) := by
  rw [ownCalls, own, filterMap_flatMap]
  rfl

lemma calls_perm (t : Term) : (t.calls registry).Perm
    (t.looseCalls registry ++ t.statements.flatMap (ownCalls registry)) := by
  have hperm := (subtrees_perm t).filterMap (call? registry)
  rw [filterMap_append, filterMap_flatMap] at hperm
  have hown : (t.statements.flatMap fun s => (s :: s.own).filterMap (call? registry)) =
      t.statements.flatMap (ownCalls registry) := by
    apply flatMap_congr
    intro s hs
    have hcall : s.call? registry = none := by
      apply call?_of_ne
      intro hkind
      have := category_of_mem_statements hs
      rw [hkind] at this
      cases this
    rw [filterMap_cons_none hcall, ownCalls_eq]
  rwa [hown] at hperm

lemma looseCalls_of_uncalled (h : t.Uncalled registry) : t.looseCalls registry = [] :=
  filterMap_eq_nil_iff.mpr fun s hs => h s (loose_subset t hs)

lemma looseCalls_of_statement (h : t.kind.category = .statement) : t.looseCalls registry = [] := by
  rw [looseCalls, loose_of_statement h, filterMap_nil]

lemma looseCalls_of_function (h : t.kind.isFunction = true) :
    t.looseCalls registry = t.calls registry := by
  rw [looseCalls, loose_of_function h, calls]

lemma looseCalls_of_expression (h : t.kind.category ≠ .statement) (hf : t.kind.isFunction = false) :
    t.looseCalls registry =
      (t.call? registry).toList ++ t.node.children.flatMap (looseCalls registry) := by
  rw [looseCalls, loose_of_expression h hf, filterMap_cons, filterMap_flatMap]
  cases t.call? registry <;> rfl

/-- A node that is no call and holds none, or has its calls in its children. -/
def Plain (registry : Registry) (t : Term) : Prop :=
  t.Uncalled registry ∨
    t.call? registry = none ∧ t.kind.category ≠ .statement ∧ t.kind.isFunction = false

lemma Plain.call? (h : t.Plain registry) : t.call? registry = none := by
  rcases h with h | h
  · exact h t t.self_mem_subtrees
  · exact h.1

/-- What is loose in an expression are plain nodes around some others. -/
def Carries (registry : Registry) (t : Term) (us : List Term) : Prop :=
  ∃ plain, (∀ s ∈ plain, s.Plain registry) ∧ t.loose.Perm (plain ++ us)

section Carries

variable {us : List Term}

lemma Carries.refl (registry : Registry) (t : Term) : t.Carries registry t.loose :=
  ⟨[], nofun, .refl _⟩

lemma plain_of_loose (h : t.Uncalled registry) : ∀ s ∈ t.loose, s.Plain registry :=
  fun _ hs => .inl fun u hu => h u (subtrees_subset (loose_subset t hs) hu)

lemma carries_of_uncalled (h : t.Uncalled registry) : t.Carries registry [] :=
  ⟨t.loose, plain_of_loose h, by rw [append_nil]⟩

lemma Carries.looseCalls_perm (h : t.Carries registry us) :
    (t.looseCalls registry).Perm (us.filterMap (call? registry)) := by
  obtain ⟨plain, hplain, hperm⟩ := h
  have hnone : plain.filterMap (call? registry) = [] :=
    filterMap_eq_nil_iff.mpr fun s hs => (hplain s hs).call?
  have hcalls := hperm.filterMap (call? registry)
  rwa [filterMap_append, hnone] at hcalls

variable {parts : List (List Term)}

lemma Carries.flatMap {cs : List Term} (h : Forall₂ (Carries registry) cs parts) :
    ∃ plain, (∀ s ∈ plain, s.Plain registry) ∧
      (cs.flatMap loose).Perm (plain ++ parts.flatten) := by
  induction h with
  | nil => exact ⟨[], nofun, .nil⟩
  | cons hc _ ih =>
    obtain ⟨plain, hplain, hperm⟩ := hc
    obtain ⟨plain', hplain', hperm'⟩ := ih
    refine ⟨plain ++ plain', forall_mem_append.mpr ⟨hplain, hplain'⟩, ?_⟩
    rw [flatMap_cons, flatten_cons]
    exact (hperm.append hperm').trans (perm_exchange ..)

lemma carries_of_children (hcall : t.call? registry = none) (h : t.kind.category ≠ .statement)
    (hf : t.kind.isFunction = false)
    (hparts : Forall₂ (Carries registry) t.node.children parts) :
    t.Carries registry parts.flatten := by
  obtain ⟨plain, hplain, hperm⟩ := Carries.flatMap hparts
  refine ⟨t :: plain, forall_mem_cons.mpr ⟨.inr ⟨hcall, h, hf⟩, hplain⟩, ?_⟩
  rw [loose_of_expression h hf]
  exact hperm.cons t

lemma carries_awaitExpr {tag : NodeId} {inner : Term} (h : inner.Carries registry us) :
    Carries registry (.mk tag (.awaitExpr inner)) us := by
  have hcarries := carries_of_children (t := .mk tag (.awaitExpr inner))
    (call?_of_ne registry nofun) nofun rfl (.cons h .nil)
  simpa using hcarries

lemma carries_of_awaited (h : t.awaited.Carries registry us) : t.Carries registry us := by
  fun_induction awaited t with
  | case1 tag inner ih => exact carries_awaitExpr (ih h)
  | case2 t => exact h

lemma looseCalls_awaited (registry : Registry) (t : Term) :
    (t.looseCalls registry).Perm (t.awaited.looseCalls registry) :=
  (carries_of_awaited (.refl registry _)).looseCalls_perm

lemma subset_stripAccessors (accessors : List Term) (t : Term) :
    accessors ⊆ (stripAccessors accessors t).1 := by
  fun_induction stripAccessors accessors t with
  | case1 accessors tag inner ih => exact ih
  | case2 accessors id inner name chained ih | case3 accessors id inner element chained ih =>
    exact fun a ha => ih (mem_cons_of_mem _ ha)
  | case4 accessors t => exact Subset.refl _

lemma carries_of_stripAccessors (accessors : List Term) (t : Term)
    (h : ∀ a ∈ (stripAccessors accessors t).1, ∀ expression element chained,
      a.node = .elementAccess expression element chained → element.Uncalled registry)
    (hinner : (stripAccessors accessors t).2.Carries registry us) : t.Carries registry us := by
  fun_induction stripAccessors accessors t with
  | case1 accessors tag inner ih => exact carries_awaitExpr (ih h hinner)
  | case2 accessors id inner name chained ih =>
    have hcarries := carries_of_children (t := .mk id (.propertyAccess inner name chained))
      (call?_of_ne registry nofun) nofun rfl (.cons (ih h hinner) .nil)
    simpa using hcarries
  | case3 accessors id inner element chained ih =>
    have helement : element.Uncalled registry :=
      h _ (subset_stripAccessors _ inner mem_cons_self) inner element chained rfl
    have hcarries := carries_of_children (t := .mk id (.elementAccess inner element chained))
      (call?_of_ne registry nofun) nofun rfl
      (.cons (ih h hinner) (.cons (carries_of_uncalled helement) .nil))
    simpa using hcarries
  | case4 accessors t => exact hinner

end Carries

section Calls

lemma awaited_awaited {α : Type} (t : Tree α) : t.awaited.awaited = t.awaited := by
  fun_induction awaited t with
  | case1 tag inner ih => exact ih
  | case2 t h =>
    rw [awaited]
    exact h

lemma serviceCall?_awaited (registry : Registry) (t : Term) :
    t.awaited.serviceCall? registry = t.serviceCall? registry := by
  rw [serviceCall?, serviceCall?, awaited_awaited]

lemma uncalled_of_reference? {r : String × Option String} (h : t.reference? = some r) :
    t.Uncalled registry := by
  obtain ⟨tag, n⟩ := t
  cases n with
  | referenceExpr name => exact uncalled_leaf nofun rfl
  | propertyAccess expression method chained =>
    obtain ⟨tag', n⟩ := expression
    cases n with
    | referenceExpr name =>
      have hleaf : (mk tag' (.referenceExpr name) : Term).Uncalled registry :=
        uncalled_leaf nofun rfl
      exact uncalled_of_ne nofun (by simpa [node, Node.children] using hleaf)
    | _ => cases h
  | _ => cases h

variable {call : ServiceCall} {references : References}

lemma awaited_of_serviceCall? (h : t.serviceCall? registry = .ok (some call)) :
    ∃ callee, t.awaited = .mk call.node (.callExpr callee call.arguments) ∧
      callee.Uncalled registry ∧ t.awaited.call? registry = some call := by
  have hcall : t.awaited.call? registry =
      if t.awaited.kind = .callExpr then some call else none := by
    rw [call?, serviceCall?_awaited, h]
  unfold serviceCall? at h
  split at h
  · rename_i id callee arguments hawaited
    split at h
    · cases h
    · rename_i reference method hreference
      split at h
      · cases h
      · obtain ⟨op, -, h⟩ := bind_eq_ok h
        cases h
        exact ⟨callee, hawaited, uncalled_of_reference? hreference, by rw [hcall, hawaited]; rfl⟩
  · cases h

lemma carries_of_serviceCall? (h : t.serviceCall? registry = .ok (some call))
    (harguments : ∀ a ∈ call.arguments, a.Uncalled registry) :
    t.awaited.call? registry = some call ∧ t.Carries registry [t.awaited] := by
  obtain ⟨callee, hawaited, hcallee, hcall⟩ := awaited_of_serviceCall? h
  have hparts : ∀ c ∈ t.awaited.node.children, c.Uncalled registry := by
    rw [hawaited]
    exact forall_mem_cons.mpr ⟨hcallee, harguments⟩
  refine ⟨hcall, carries_of_awaited ⟨t.awaited.node.children.flatMap loose, ?_, ?_⟩⟩
  · intro s hs
    obtain ⟨c, hc, hs⟩ := mem_flatMap.mp hs
    exact plain_of_loose (hparts c hc) s hs
  · rw [loose_of_expression (by rw [hawaited]; nofun) (by rw [hawaited]; rfl)]
    exact (perm_append_singleton ..).symm

lemma uncalled_of_resultSegment {segment : Segment}
    (h : Machine.resultSegment references t = .ok segment) {expression element : Term}
    {chained : Bool} (hnode : t.node = .elementAccess expression element chained) :
    element.Uncalled registry := by
  unfold Machine.resultSegment at h
  rw [hnode] at h
  cases hc : element.constant? references with
  | none =>
    simp only [hc] at h
    cases h
  | some c => exact uncalled_of_constant? registry references element c hc

lemma carries_of_callSite? {site : CallSite} (h : t.callSite? registry = .ok (some site))
    (harguments : ∀ a ∈ site.call.arguments, a.Uncalled registry) {segments : List Segment}
    (hsegments : Machine.resultSegments references site.accessors = .ok segments) :
    ∃ u, u.call? registry = some site.call ∧ t.Carries registry [u] := by
  obtain ⟨hcall, haccessors⟩ := callSite?_eq_ok h
  have helements : ∀ a ∈ (stripAccessors [] t).1, ∀ expression element chained,
      a.node = .elementAccess expression element chained → element.Uncalled registry := by
    intro a ha expression element chained hnode
    obtain ⟨segment, hsegment⟩ := exists_of_mapM_ok hsegments a (haccessors ▸ ha)
    exact uncalled_of_resultSegment hsegment hnode
  obtain ⟨hsome, hcarries⟩ := carries_of_serviceCall? hcall harguments
  exact ⟨_, hsome, carries_of_stripAccessors [] t helements hcarries⟩

lemma carries_of_intrinsic? {intrinsic : Intrinsic} {id : NodeId} {arguments : List Term}
    (h : t.intrinsic? = .ok (some (intrinsic, id, arguments))) :
    t.Carries registry (arguments.flatMap loose) := by
  apply carries_of_awaited
  unfold intrinsic? at h
  split at h
  · rename_i tag tag' tag'' object method chained args hawaited
    split_ifs at h
    · split at h
      · cases h
        have hname : (mk tag'' (.identifier object) : Term).Uncalled registry :=
          uncalled_leaf nofun rfl
        have hcallee : (mk tag' (.propertyAccess (.mk tag'' (.identifier object)) method
            chained) : Term).Uncalled registry :=
          uncalled_of_ne nofun (by simpa [node, Node.children] using hname)
        have hcall : t.awaited.call? registry = none := by
          apply call?_of_serviceCall?
          rw [hawaited]
          rfl
        have hparts : Forall₂ (Carries registry) t.awaited.node.children
            ([] :: arguments.map loose) := by
          rw [hawaited]
          refine .cons (carries_of_uncalled hcallee) (forall₂_map_right_iff.mpr ?_)
          exact forall₂_same.mpr fun a _ => .refl registry a
        have hcarries :=
          carries_of_children hcall (by rw [hawaited]; exact Category.noConfusion)
            (by rw [hawaited]; rfl) hparts
        rwa [flatten_cons, nil_append, ← flatMap_def] at hcarries
      · cases h
    · cases h
  · cases h

end Calls

end Tree

end ServiceFlow
