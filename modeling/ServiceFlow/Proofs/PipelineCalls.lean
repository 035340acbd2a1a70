import ServiceFlow.Proofs.ForestGrowth
import ServiceFlow.Proofs.PipelineStages
import ServiceFlow.Proofs.StatementParts
import ServiceFlow.Proofs.WrittenExpressions

/-!
# Calls and stages

Each call of a backend is the call of a top-level statement, which has a stage, or it stands in an
element that is read off the result of such a call.
-/

namespace ServiceFlow

open ServiceFlow.Tree List

namespace Tree

variable {registry : Registry} {t : Term} {call : ServiceCall}

lemma calls_of_uncalled (h : t.Uncalled registry) : t.calls registry = [] :=
  filterMap_eq_nil_iff.mpr h

lemma calls_of_ne (registry : Registry) (hkind : t.kind ≠ .callExpr) :
    t.calls registry = t.node.children.flatMap (calls registry) := by
  rw [calls_eq, call?_of_ne registry hkind, Option.toList_none, nil_append]

lemma calls_awaited (registry : Registry) (t : Term) :
    t.awaited.calls registry = t.calls registry := by
  fun_induction awaited t with
  | case1 tag inner ih =>
    rw [ih, calls_of_ne registry (t := .mk tag (.awaitExpr inner)) Kind.noConfusion]
    simp [node, Node.children]
  | case2 t h => rfl

lemma calls_of_serviceCall? (h : t.serviceCall? registry = .ok (some call))
    (harguments : ∀ a ∈ call.arguments, a.Uncalled registry) : t.calls registry = [call] := by
  obtain ⟨callee, hawaited, hcallee, hcall⟩ := awaited_of_serviceCall? h
  have hparts : t.awaited.node.children.flatMap (calls registry) = [] := by
    rw [hawaited, flatMap_eq_nil_iff]
    intro c hc
    rcases mem_cons.mp hc with rfl | hc
    · exact calls_of_uncalled hcallee
    · exact calls_of_uncalled (harguments c hc)
  rw [← calls_awaited, calls_eq, hcall, hparts]
  rfl

lemma calls_of_usedExpression? (registry : Registry) {e : Term} {use : Use}
    (h : t.usedExpression? = some (e, use)) : t.calls registry = e.calls registry := by
  have hparts : t.kind ≠ .callExpr ∧ t.node.children = [e] := by
    cases Machine.usesValue_of_usedExpression? h <;> exact ⟨nofun, rfl⟩
  rw [calls_of_ne registry hparts.1, hparts.2, flatMap_singleton]

/-- The index of an element access. -/
def index? (t : Term) : Option Term :=
  match t.node with
  | .elementAccess _ element _ => some element
  | _ => none

def indexCalls (registry : Registry) (accessors : List Term) : List ServiceCall :=
  (accessors.filterMap index?).flatMap (calls registry)

lemma calls_stripAccessors (registry : Registry) (accessors : List Term) (t : Term) :
    t.calls registry ++ indexCalls registry accessors =
      (stripAccessors accessors t).2.calls registry ++
        indexCalls registry (stripAccessors accessors t).1 := by
  fun_induction stripAccessors accessors t with
  | case1 accessors tag inner ih =>
    rw [← ih, calls_of_ne registry (t := .mk tag (.awaitExpr inner)) Kind.noConfusion]
    simp [node, Node.children]
  | case2 accessors id inner name chained ih =>
    rw [← ih, calls_of_ne registry (t := .mk id (.propertyAccess inner name chained))
      Kind.noConfusion]
    simp [node, Node.children, indexCalls, index?, filterMap_cons]
  | case3 accessors id inner element chained ih =>
    rw [← ih, calls_of_ne registry (t := .mk id (.elementAccess inner element chained))
      Kind.noConfusion]
    simp [node, Node.children, indexCalls, index?]
  | case4 accessors t => rfl

lemma exists_callee_of_call? (h : t.call? registry = some call) :
    ∃ callee, t = .mk call.node (.callExpr callee call.arguments) := by
  unfold call? at h
  split_ifs at h with hkind
  have hself : t.awaited = t := by
    obtain ⟨tag, n⟩ := t
    cases n <;> first | rfl | cases hkind
  cases hservice : t.serviceCall? registry with
  | error e => simp [hservice] at h
  | ok found =>
    simp only [hservice] at h
    subst h
    obtain ⟨callee, hawaited, -⟩ := awaited_of_serviceCall? hservice
    exact ⟨callee, hself.symm.trans hawaited⟩

lemma node_of_call? (h : t.call? registry = some call) : call.node = t.tag := by
  obtain ⟨callee, rfl⟩ := exists_callee_of_call? h
  rfl

lemma map_node_calls_sublist (registry : Registry) (t : Term) :
    ((t.calls registry).map (·.node)).Sublist (t.subtrees.map tag) := by
  unfold calls
  induction t.subtrees with
  | nil => exact .slnil
  | cons s ss ih =>
    cases hs : s.call? registry with
    | none =>
      rw [filterMap_cons_none hs]
      exact ih.cons _
    | some call =>
      rw [filterMap_cons_some hs, map_cons, map_cons, node_of_call? hs]
      exact ih.cons_cons _

lemma spareArguments_subset (t : Term) : t.spareArguments ⊆ t.node.children := by
  unfold spareArguments
  split
  · rename_i hnode
    rw [hnode]
    split_ifs
    · exact fun a ha => mem_cons_of_mem _ (mem_of_mem_drop ha)
    · exact nil_subset _
  · exact nil_subset _

lemma OnlySpared.calls_eq_nil_iff (h : t.OnlySpared registry) : t.calls registry = [] ↔
    ∀ u ∈ t.subtrees, ∀ a ∈ u.spareArguments, a.Uncalled registry := by
  constructor
  · intro hnone u hu a ha x hx
    apply filterMap_eq_nil_iff.mp hnone x
    apply subtrees_subset hu
    exact mem_subtrees_of_child (spareArguments_subset u ha) hx
  · intro huncalled
    exact calls_of_uncalled (h.uncalled huncalled)

end Tree

namespace Pipeline

open ServiceFlow.Template

variable {registry : Registry} {t : Term} {program : Program} {ns ns' : Namespace}
  {pipeline : Pipeline} {body : List Term} {env : Env}

def StageCall.indices (call : StageCall) : List Term := call.site.accessors.filterMap Tree.index?

lemma calls_of_siteOf? {call : StageCall} (h : siteOf? registry t = .ok (some call)) :
    t.calls registry = call.site.call :: call.indices.flatMap (calls registry) := by
  obtain ⟨e, hused, hsite, harguments⟩ := siteOf?_eq_ok h
  obtain ⟨hservice, haccessors⟩ := callSite?_eq_ok hsite
  have hexpression := calls_stripAccessors registry [] e
  rw [calls_of_serviceCall? hservice (Machine.uncalled_of_checkArguments harguments), ← haccessors]
    at hexpression
  rw [calls_of_usedExpression? registry hused]
  simpa [indexCalls, StageCall.indices] using hexpression

lemma calls_of_classify {call : Option StageCall} (h : classify registry t = .ok call) :
    t.calls registry = call.toList.flatMap fun call =>
      call.site.call :: call.indices.flatMap (calls registry) := by
  cases call with
  | some call =>
    rw [calls_of_siteOf? (siteOf?_of_classify h)]
    simp
  | none =>
    obtain ⟨site, hsite, h⟩ := bind_eq_ok h
    cases site with
    | some site => cases h
    | none =>
      obtain ⟨nested, hnested, h⟩ := bind_eq_ok h
      cases nested with
      | some nested => cases h
      | none => exact calls_of_uncalled (Machine.uncalled_of_findServiceCall? hnested)

lemma classify_of_compile {parameters : List Term} {block : Term}
    (h : (compile program).run.run ns = (.ok pipeline, ns')) (hterm : program.term = .ok t)
    (hparts : t.functionParts = .ok (parameters, block, body)) :
    ∀ s ∈ body, ∃ call, classify program.registry s = .ok call := by
  obtain ⟨read, ns₁, hread, -⟩ := Allocate.run_bind_eq_ok h
  obtain ⟨hanalyse, -⟩ := Allocate.run_ofExcept_eq_ok hread
  unfold analyse at hanalyse
  obtain ⟨t', hterm', hanalyse⟩ := bind_eq_ok hanalyse
  cases hterm.symm.trans hterm'
  obtain ⟨⟨parameters', block', body'⟩, hparts', hanalyse⟩ := bind_eq_ok hanalyse
  cases hparts.symm.trans hparts'
  obtain ⟨calls, hcalls, -⟩ := bind_eq_ok hanalyse
  intro s hs
  obtain ⟨entry, hentry⟩ := exists_of_mapM_ok hcalls s hs
  obtain ⟨call, hcall, -⟩ := bind_eq_ok hentry
  exact ⟨call, hcall⟩

lemma calls_of_body (h : ∀ s ∈ body, ∃ call, classify registry s = .ok call) :
    body.flatMap (calls registry) = (body.filterMap (callOf? registry)).flatMap fun call =>
      call.site.call :: call.indices.flatMap (calls registry) := by
  induction body with
  | nil => rfl
  | cons s body ih =>
    obtain ⟨⟨call, hcall⟩, hrest⟩ := forall_mem_cons.mp h
    rw [flatMap_cons, ih hrest, calls_of_classify hcall]
    cases call with
    | none => rw [filterMap_cons_none (callOf?_of_siteOf? (siteOf?_of_classify hcall))]; rfl
    | some call =>
      rw [filterMap_cons_some (callOf?_of_siteOf? (siteOf?_of_classify hcall))]
      simp

lemma onlySpared_of_accessors {accesses : List Term} : ∀ {c c' code},
    (accessors env accesses).run c = .ok (code, c') →
      ∀ index ∈ accesses.filterMap index?, index.OnlySpared env.registry := by
  induction accesses with
  | nil => simp
  | cons t accesses ih =>
    intro c c' code h index hmem
    rw [accessors] at h
    obtain ⟨text, c₁, hfirst, h⟩ := run_bind_eq_ok h
    obtain ⟨rest, c₂, hrest, -⟩ := run_bind_eq_ok h
    obtain ⟨a, ha, hindex⟩ := mem_filterMap.mp hmem
    rcases mem_cons.mp ha with heq | ha
    · obtain ⟨tag, n⟩ := t
      subst heq
      cases n with
      | elementAccess expression element chained =>
        obtain rfl := Option.some.inj hindex
        obtain ⟨key, c₃, hkey, -⟩ := run_bind_eq_ok hfirst
        obtain ⟨uses, ⟨-, honly⟩, -⟩ := (translates_expression element).yields hkey
        exact honly
      | _ => cases hindex
    · exact ih hrest index (mem_filterMap.mpr ⟨a, ha, hindex⟩)

lemma StagesOf.onlySpared {segments : List Segment} {stages : List Stage} {c c' : Counters}
    (h : StagesOf env ns c segments stages c') :
    ∀ s ∈ segments, ∀ index ∈ s.call.indices, index.OnlySpared env.registry := by
  induction h with
  | nil => simp
  | @cons c c₁ c₂ s segments stage stages first rest ih =>
    refine forall_mem_cons.mpr ⟨?_, ih⟩
    obtain ⟨lines, c₃, requestLines, c₄, responseLines, -, -, hresponse, -⟩ := first.templates
    obtain ⟨code, c₅, haccessors, -⟩ := run_bind_eq_ok hresponse
    exact onlySpared_of_accessors haccessors

lemma calls_perm_split (segments : List Segment) :
    ((segments.map Segment.call).flatMap fun call =>
      call.site.call :: call.indices.flatMap (calls registry)).Perm
      (segments.map (·.call.site.call) ++
        segments.flatMap fun s => s.call.indices.flatMap (calls registry)) := by
  induction segments with
  | nil => exact .nil
  | cons s segments ih =>
    simp only [map_cons, flatMap_cons, cons_append]
    apply Perm.cons
    exact (ih.append_left _).trans (perm_append_comm_assoc ..)

lemma exists_stagesOf (h : (compile program).run.run ns = (.ok pipeline, ns')) :
    ∃ t parameters block body segments after, program.term = .ok t ∧
      t.functionParts = .ok (parameters, block, body) ∧
      Divides program.registry body segments after ∧ (segments ≠ [] → ∃ c,
        StagesOf (envOf program parameters) ns' ⟨0, 0⟩ segments pipeline.stages c) := by
  obtain ⟨t, parameters, block, body, segments, after, c', hterm, hparts, hdivides, hdraft⟩ :=
    exists_draft h
  refine ⟨t, parameters, block, body, segments, after, hterm, hparts, hdivides, fun hne => ?_⟩
  have hempty : ¬ segments.isEmpty = true := by simpa using hne
  rw [if_neg hempty] at hdraft
  have hresource := fun s hs => resource?_of_siteOf? (hdivides.call s hs)
  obtain ⟨-, c, lines, hstages, -⟩ := hdraft.of_staged hresource
  exact ⟨c, hstages⟩

lemma perm_left_iff {α : Type} {xs own others : List α} (h : xs.Perm (own ++ others)) :
    xs.Perm own ↔ others = [] := by
  constructor
  · intro hown
    have hlength := hown.length_eq.symm.trans h.length_eq
    rwa [length_append, Nat.left_eq_add, length_eq_zero_iff] at hlength
  · rintro rfl
    rwa [append_nil] at h

/-- Every call in the body of a function that became a pipeline is the call of one of its stages,
or stands in an element that is read off the result of such a call. Calls of the second kind stand
in arguments that are not looked at; if nothing is called in those, the stages have all calls. -/
theorem stages_account_for_calls {tree : SyntaxTree} {root : NodeId}
    (hf : Forest.ofTree tree = .ok (root, program.forest))
    (h : (compile program).run.run ns = (.ok pipeline, ns')) :
    ∃ t parameters block body segments after, program.term = .ok t ∧
      t.functionParts = .ok (parameters, block, body) ∧
      Divides program.registry body segments after ∧
      (segments ≠ [] → ∃ c,
        StagesOf (envOf program parameters) ns' ⟨0, 0⟩ segments pipeline.stages c) ∧
      ((block.calls program.registry).map (·.node)).Nodup ∧
      (block.calls program.registry).Perm (segments.map (·.call.site.call) ++
        segments.flatMap fun s => s.call.indices.flatMap (Tree.calls program.registry)) ∧
      (∀ s ∈ segments, ∀ index ∈ s.call.indices, index.OnlySpared program.registry) ∧
      ((block.calls program.registry).Perm (segments.map (·.call.site.call)) ↔
        ∀ s ∈ segments, ∀ index ∈ s.call.indices, ∀ u ∈ index.subtrees,
          ∀ a ∈ u.spareArguments, a.Uncalled program.registry) := by
  obtain ⟨t, parameters, block, body, segments, after, hterm, hparts, hdivides, hstages⟩ :=
    exists_stagesOf h
  obtain ⟨low, horder⟩ := Forest.inOrder_ofTree hf
  have hspared : ∀ s ∈ segments, ∀ index ∈ s.call.indices, index.OnlySpared program.registry := by
    intro s hs
    obtain ⟨c, hstages⟩ := hstages (ne_nil_of_mem hs)
    exact hstages.onlySpared s hs
  obtain ⟨-, hchild, isFinally, hblock⟩ := functionParts_cases hparts
  have hbody : block.calls program.registry = body.flatMap (Tree.calls program.registry) := by
    rw [calls_of_ne _ (by simp [Tree.kind, hblock, Node.kind]), hblock]
    rfl
  have hperm : (block.calls program.registry).Perm (segments.map (·.call.site.call) ++
      segments.flatMap fun s => s.call.indices.flatMap (Tree.calls program.registry)) := by
    rw [hbody, calls_of_body (classify_of_compile h hterm hparts), hdivides.calls]
    exact calls_perm_split segments
  refine ⟨t, parameters, block, body, segments, after, hterm, hparts, hdivides, hstages, ?_, hperm,
    hspared, ?_⟩
  · have hshows := (horder.shows_child (horder.shows_of_term hterm) hchild).1
    exact (horder.nodup_tags block hshows).1.sublist (map_node_calls_sublist _ block)
  · rw [perm_left_iff hperm]
    simp only [flatMap_eq_nil_iff]
    exact forall₂_congr fun s hs => forall₂_congr fun index hindex =>
      (hspared s hs index hindex).calls_eq_nil_iff

/-- A call with another one in the element that is read off its result, behind the argument that is
written. -/
def indexed : SyntaxTree :=
  let element : SyntaxTree := .call (.member (.ident "JSON") "stringify")
    [.mk () (.booleanLiteral true), .call (.ref "record") []]
  .function [] [.eval (.mk () (.elementAccess (.call (.ref "charge") []) element false))]

/-- There is a stage for one of the two calls. The other one is neither made nor refused. -/
theorem stages_account_for_calls_indexed :
    ∃ root f pipeline ns t parameters block body segments after,
    Forest.ofTree indexed = .ok (root, f) ∧
    (compile (auditedProgram f root)).run.run .empty = (.ok pipeline, ns) ∧
    (auditedProgram f root).term = .ok t ∧ t.functionParts = .ok (parameters, block, body) ∧
    Divides (auditedProgram f root).registry body segments after ∧ pipeline.stages.length = 1 ∧
    (block.calls (auditedProgram f root).registry).map (·.reference) = ["charge", "record"] ∧
    (block.calls (auditedProgram f root).registry).Perm (segments.map (·.call.site.call) ++
      segments.flatMap fun s =>
        s.call.indices.flatMap (Tree.calls (auditedProgram f root).registry)) ∧
    ∀ s ∈ segments, ∀ index ∈ s.call.indices,
      index.OnlySpared (auditedProgram f root).registry := by
  obtain ⟨root, f, pipeline, ns, hf, hc, hcheck⟩ :=
    exists_compiled compile auditedProgram indexed (fun program pipeline =>
      pipeline.stages.length == 1 &&
      program.term.toOption.any fun t => t.functionParts.toOption.any fun parts =>
        (parts.2.1.calls program.registry).map (·.reference) == ["charge", "record"])
      (by decide +kernel)
  have hforest : Forest.ofTree indexed = .ok (root, (auditedProgram f root).forest) := hf
  obtain ⟨t, parameters, block, body, segments, after, hterm, hparts, hdivides, -, -, hperm, hspared,
    -⟩ := stages_account_for_calls hforest hc
  simp only [hterm, hparts, Except.toOption, Option.any_some, Bool.and_eq_true, beq_iff_eq] at hcheck
  exact ⟨root, f, pipeline, ns, t, parameters, block, body, segments, after, hf, hc, hterm, hparts,
    hdivides, hcheck.1, hcheck.2, hperm, hspared⟩

end Pipeline

end ServiceFlow
