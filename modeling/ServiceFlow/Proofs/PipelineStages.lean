import ServiceFlow.Pipeline.Compile
import ServiceFlow.Proofs.OrderedMaps
import ServiceFlow.Proofs.SuccessfulRuns

/-!
# Stages of a pipeline

The body of a function is cut after each of its top-level calls. Every segment is a stage, and what
is left is written into the response of the pipeline.
-/

namespace ServiceFlow

open List

/-- The data sources after some stages are made: those from before, and new ones for the resources
of their references. -/
structure Namespace.Serves (registry : Registry) (ns ns' : Namespace) : Prop where
  keeps : ∀ {reference source}, Ordered.get? reference ns.sources = some source →
    Ordered.get? reference ns'.sources = some source
  made : ∀ {reference source}, Ordered.get? reference ns'.sources = some source →
    Ordered.get? reference ns.sources = some source ∨
      registry.resource? reference = some source.resource

namespace Namespace.Serves

variable {registry : Registry} {ns ns₁ ns₂ : Namespace}

lemma of_sources_eq (h : ns₁.sources = ns.sources) : Serves registry ns ns₁ :=
  ⟨fun hs => by rwa [h], fun hs => .inl (by rwa [h] at hs)⟩

lemma trans (h₁ : Serves registry ns ns₁) (h₂ : Serves registry ns₁ ns₂) : Serves registry ns ns₂ :=
  ⟨fun hs => h₂.keeps (h₁.keeps hs), fun hs => (h₂.made hs).elim h₁.made .inr⟩

end Namespace.Serves

namespace Namespace

lemma sources_uniqueName (ns : Namespace) (name : String) :
    (ns.uniqueName name).2.sources = ns.sources := by
  unfold uniqueName
  by_cases h : sanitize name ∈ ns.allocated
  · simp only [if_pos h]
  · simp only [if_neg h]

variable {ns ns' : Namespace} {reference : String} {resource : Resource} {source : DataSource}

lemma dataSource_cases (h : ns.dataSource reference resource = (source, ns')) :
    (Ordered.get? reference ns.sources = some source ∧ ns' = ns) ∨
      (Ordered.get? reference ns.sources = none ∧ source.resource = resource ∧
        ns'.sources = ns.sources ++ [(reference, source)]) := by
  unfold dataSource at h
  split at h
  · rename_i hfound
    obtain ⟨rfl, rfl⟩ := Prod.mk.inj h
    exact .inl ⟨hfound, rfl⟩
  · rename_i hnone
    obtain ⟨rfl, rfl⟩ := Prod.mk.inj h
    exact .inr ⟨hnone, rfl, congrArg (· ++ _) (sources_uniqueName ..)⟩

lemma serves_dataSource {registry : Registry}
    (hresource : registry.resource? reference = some resource)
    (h : ns.dataSource reference resource = (source, ns')) :
    Serves registry ns ns' ∧ Ordered.get? reference ns'.sources = some source := by
  obtain ⟨hfound, rfl⟩ | ⟨hnone, rfl, hsources⟩ := dataSource_cases h
  · exact ⟨.of_sources_eq rfl, hfound⟩
  · have hnew : Ordered.get? reference ns'.sources = some source := by
      rw [hsources, Ordered.get?_append_none hnone, Ordered.get?, if_pos rfl]
    refine ⟨⟨fun hs => ?_, fun {key made} hs => ?_⟩, hnew⟩
    · rw [hsources]
      exact Ordered.get?_append_some hs
    · by_cases hkey : key = reference
      · subst hkey
        rw [hnew] at hs
        cases hs
        exact .inr hresource
      · left
        rw [hsources] at hs
        cases hold : Ordered.get? key ns.sources with
        | some old => rwa [Ordered.get?_append_some hold] at hs
        | none =>
          rw [Ordered.get?_append_none hold, Ordered.get?, if_neg (Ne.symm hkey)] at hs
          cases hs

end Namespace

namespace Allocate

variable {α : Type}

lemma run_bind_eq_ok {β : Type} {x : Allocate α} {k : α → Allocate β} {b : β}
    (h : (x >>= k).run.run ns = (.ok b, ns')) :
    ∃ a ns₁, x.run.run ns = (.ok a, ns₁) ∧ (k a).run.run ns₁ = (.ok b, ns') := by
  rw [ExceptT.run_bind, StateT.run_bind] at h
  cases hx : x.run.run ns with
  | mk result ns₁ =>
    rw [hx] at h
    cases result with
    | error e => cases h
    | ok a => exact ⟨a, ns₁, rfl, h⟩

lemma run_ofExcept_eq_ok {x : Except CompileError α} {a : α}
    (h : (ofExcept x).run.run ns = (.ok a, ns')) : x = .ok a ∧ ns' = ns := by
  cases x with
  | error e => cases h
  | ok b =>
    cases h
    exact ⟨rfl, rfl⟩

end Allocate

namespace Pipeline

open ServiceFlow.Template

variable {α β : Type} {x : Draft α} {call : Option StageCall} {stages : List Stage}
  {first : List Line} {s : Segment} {stage : Stage} {fallback : String}

def Draft.Makes (x : Draft α) (c : Counters) (ns : Namespace) (a : α) (c' : Counters)
    (ns' : Namespace) : Prop :=
  (x.run c).run.run ns = (.ok (a, c'), ns')

namespace Draft

variable {c c' : Counters} {ns ns' : Namespace} {a : α} {b : β}

variable {k : α → Draft β}

lemma Makes.of_bind (h : Makes (x >>= k) c ns b c' ns') :
    ∃ a c₁ ns₁, x.Makes c ns a c₁ ns₁ ∧ (k a).Makes c₁ ns₁ b c' ns' := by
  unfold Makes at *
  cases hx : (x.run c).run.run ns with
  | mk result ns₁ =>
    rw [StateT.run_bind, ExceptT.run_bind, StateT.run_bind, hx] at h
    cases result with
    | error e => cases h
    | ok p => exact ⟨p.1, p.2, ns₁, rfl, h⟩

lemma Makes.of_pure {a₀ : α} (h : Makes (pure a₀) c ns a c' ns') : a₀ = a ∧ c = c' ∧ ns = ns' := by
  cases h
  exact ⟨rfl, rfl, rfl⟩

lemma Makes.of_compose {x : Compose α} (h : Makes (compose x >>= k) c ns b c' ns') :
    ∃ a c₁, x.run c = .ok (a, c₁) ∧ (k a).Makes c₁ ns b c' ns' := by
  obtain ⟨a, c₁, ns₁, hx, hk⟩ := h.of_bind
  change Allocate.ofExcept (x c) ns = _ at hx
  cases hrun : x c with
  | error e =>
    rw [hrun] at hx
    cases hx
  | ok p =>
    rw [hrun] at hx
    cases hx
    exact ⟨a, c₁, hrun, hk⟩

lemma Makes.of_modifyGet {g : Namespace → α × Namespace}
    (h : Makes (liftM (modifyGet g : Allocate α) >>= k) c ns b c' ns') :
    ∃ a ns₁, g ns = (a, ns₁) ∧ (k a).Makes c ns₁ b c' ns' := by
  obtain ⟨a, c₁, ns₁, hx, hk⟩ := h.of_bind
  change (Except.ok ((g ns).1, c), (g ns).2) = _ at hx
  obtain ⟨hmade, rfl⟩ := Prod.mk.inj hx
  obtain ⟨rfl, rfl⟩ := Prod.mk.inj (Except.ok.inj hmade)
  exact ⟨_, _, rfl, hk⟩

end Draft

/-- A statement that calls a service, after the statements before it. -/
structure Segment where
  before : List Term
  statement : Term
  call : StageCall

namespace Segment

/-- The statements of a segment. -/
def statements (s : Segment) : List Term := s.before ++ [s.statement]

def entries (s : Segment) : List (Term × Option StageCall) :=
  s.before.map (·, none) ++ [(s.statement, some s.call)]

lemma map_fst_entries (segments : List Segment) :
    (segments.flatMap entries).map Prod.fst = segments.flatMap statements := by
  induction segments with
  | nil => rfl
  | cons s segments ih =>
    simp [entries, statements, flatMap_cons, ih, Function.comp_def]

end Segment

lemma exists_segments (calls : List (Term × Option StageCall)) :
    ∃ (segments : List Segment) (after : List Term),
      calls = segments.flatMap Segment.entries ++ after.map (·, none) := by
  induction calls with
  | nil => exact ⟨[], [], rfl⟩
  | cons first calls ih =>
    obtain ⟨segments, after, rfl⟩ := ih
    obtain ⟨t, call⟩ := first
    cases call with
    | some call => exact ⟨⟨[], t, call⟩ :: segments, after, by simp [Segment.entries]⟩
    | none =>
      cases segments with
      | nil => exact ⟨[], t :: after, by simp⟩
      | cons s segments =>
        refine ⟨{ s with before := t :: s.before } :: segments, after, ?_⟩
        simp [Segment.entries]

lemma splitAtLastCall_segments (segments : List Segment) (after : List Term) :
    splitAtLastCall (segments.flatMap Segment.entries ++ after.map (·, none)) =
      (segments.flatMap Segment.entries, after) := by
  have hstop : ((segments.flatMap Segment.entries).reverse.takeWhile fun c => c.2.isNone) = [] := by
    obtain rfl | ⟨init, s, rfl⟩ := eq_nil_or_concat segments
    · rfl
    · simp [Segment.entries]
  have hafter : ((segments.flatMap Segment.entries ++ after.map (·, none)).reverse.takeWhile
      fun c => c.2.isNone) = (after.map (·, none)).reverse := by
    rw [reverse_append, takeWhile_append_of_pos, hstop, append_nil]
    intro c hc
    obtain ⟨t, -, rfl⟩ := mem_map.mp (mem_reverse.mp hc)
    rfl
  unfold splitAtLastCall
  simp only [hafter, reverse_reverse, length_append, length_reverse]
  rw [Nat.add_sub_cancel, take_left, map_map]
  exact congrArg _ (map_id _)

/-- How the statements of a body are divided by the calls among them. -/
structure Divides (registry : Registry) (body : List Term) (segments : List Segment)
    (after : List Term) : Prop where
  body_eq : body = segments.flatMap Segment.statements ++ after
  call : ∀ s ∈ segments, siteOf? registry s.statement = .ok (some s.call)
  plain : ∀ t ∈ segments.flatMap Segment.before ++ after, siteOf? registry t = .ok none

/-- The call that a statement makes. -/
def callOf? (registry : Registry) (t : Term) : Option StageCall :=
  match siteOf? registry t with
  | .ok call => call
  | .error _ => none

variable {registry : Registry} {t : Term} {ts body after : List Term} {segments : List Segment}
  {env : Env} {ns ns' : Namespace} {c c' c₁ : Counters} {lines : List Line} {name : String}
  {pipeline : Pipeline}

lemma callOf?_of_siteOf? (h : siteOf? registry t = .ok call) : callOf? registry t = call := by
  rw [callOf?, h]

lemma filterMap_callOf?_plain (h : ∀ t ∈ ts, siteOf? registry t = .ok none) :
    ts.filterMap (callOf? registry) = [] := by
  rw [filterMap_eq_nil_iff]
  intro t ht
  exact callOf?_of_siteOf? (h t ht)

lemma Divides.calls (h : Divides registry body segments after) :
    body.filterMap (callOf? registry) = segments.map Segment.call := by
  obtain ⟨rfl, hcall, hplain⟩ := h
  induction segments with
  | nil => exact filterMap_callOf?_plain hplain
  | cons s segments ih =>
    have hbefore : s.before.filterMap (callOf? registry) = [] := by
      apply filterMap_callOf?_plain
      intro t ht
      apply hplain
      simp [ht]
    have hrest := ih (fun s' hs => hcall s' (mem_cons_of_mem _ hs)) fun t ht => by
      apply hplain
      rw [flatMap_cons, append_assoc]
      exact mem_append_right _ ht
    have hown : callOf? registry s.statement = some s.call :=
      callOf?_of_siteOf? (hcall s mem_cons_self)
    rw [flatMap_cons, append_assoc, filterMap_append, hrest, Segment.statements,
      filterMap_append, hbefore]
    simp [hown]

lemma siteOf?_of_classify (h : classify registry t = .ok call) : siteOf? registry t = .ok call := by
  obtain ⟨site, hsite, h⟩ := bind_eq_ok h
  cases site with
  | some site =>
    cases h
    exact hsite
  | none =>
    obtain ⟨nested, -, h⟩ := bind_eq_ok h
    cases nested with
    | some nested => cases h
    | none =>
      cases h
      exact hsite

lemma resource?_of_serviceCall? {call : ServiceCall}
    (h : t.serviceCall? registry = .ok (some call)) :
    registry.resource? call.reference = some call.resource := by
  unfold Tree.serviceCall? at h
  split at h
  · split at h
    · cases h
    · split at h
      · cases h
      · rename_i hresource
        obtain ⟨op, -, h⟩ := bind_eq_ok h
        cases h
        exact hresource
  · cases h

lemma siteOf?_eq_ok {call : StageCall} (h : siteOf? registry t = .ok (some call)) :
    ∃ e, t.usedExpression? = some (e, call.use) ∧ e.callSite? registry = .ok (some call.site) ∧
      Tree.checkArguments registry .nestedInCall call.site.call.arguments = .ok () := by
  unfold siteOf? at h
  split at h
  · cases h
  · rename_i e use hused
    obtain ⟨site, hsite, h⟩ := bind_eq_ok h
    cases site with
    | none => cases h
    | some site =>
      obtain ⟨⟨⟩, harguments, h⟩ := bind_eq_ok h
      cases h
      exact ⟨e, hused, hsite, harguments⟩

lemma resource?_of_siteOf? {call : StageCall} (h : siteOf? registry t = .ok (some call)) :
    registry.resource? call.site.call.reference = some call.site.call.resource := by
  obtain ⟨e, -, hsite, -⟩ := siteOf?_eq_ok h
  exact resource?_of_serviceCall? (Tree.callSite?_eq_ok hsite).1

lemma classifyAll_eq_ok {calls : List (Term × Option StageCall)}
    (h : classifyAll registry body = .ok calls) :
    calls.map Prod.fst = body ∧ ∀ c ∈ calls, siteOf? registry c.1 = .ok c.2 := by
  induction mapM_eq_ok_iff.mp h with
  | nil => exact ⟨rfl, fun c hc => absurd hc not_mem_nil⟩
  | @cons t c body calls hc hrest ih =>
    obtain ⟨hbody, hsites⟩ := ih (mapM_eq_ok_iff.mpr hrest)
    obtain ⟨call, hcall, hc⟩ := bind_eq_ok hc
    cases hc
    refine ⟨by rw [map_cons, hbody], fun c' hc' => ?_⟩
    obtain rfl | hc' := mem_cons.mp hc'
    · exact siteOf?_of_classify hcall
    · exact hsites c' hc'

lemma divides_of_classifyAll
    (h : classifyAll registry body = .ok (segments.flatMap Segment.entries ++ after.map (·, none))) :
    Divides registry body segments after := by
  obtain ⟨hbody, hsites⟩ := classifyAll_eq_ok h
  refine ⟨?_, fun s hs => ?_, fun t ht => ?_⟩
  · rw [← hbody, map_append, Segment.map_fst_entries, map_map]
    exact congrArg _ (map_id _)
  · apply hsites (s.statement, some s.call)
    apply mem_append_left
    exact mem_flatMap.mpr ⟨s, hs, mem_append_right _ mem_cons_self⟩
  · apply hsites (t, none)
    obtain ht | ht := mem_append.mp ht
    · obtain ⟨s, hs, ht⟩ := mem_flatMap.mp ht
      apply mem_append_left
      exact mem_flatMap.mpr ⟨s, hs, mem_append_left _ (mem_map_of_mem ht)⟩
    · exact mem_append_right _ (mem_map_of_mem ht)

/-- The stage of a segment, written with the counters `c`, which leaves `c'`. -/
structure StageOf (env : Env) (ns : Namespace) (s : Segment) (c c' : Counters) (stage : Stage) :
    Prop where
  source : ∃ source, Ordered.get? s.call.site.call.reference ns.sources = some source ∧
    stage.dataSource = some source.name
  templates : ∃ lines c₁ requestLines c₂ responseLines,
    (statements env s.before).run c = .ok (lines, c₁) ∧
    (request env s.call.site.call).run c₁ = .ok (requestLines, c₂) ∧
    (response env s.call).run c₂ = .ok (responseLines, c') ∧
    stage.requestTemplate = render (returnGuard ++ lines ++ requestLines) ∧
    stage.responseTemplate = render responseLines

/-- The stages of segments. Each starts from the counters that the one before leaves. -/
inductive StagesOf (env : Env) (ns : Namespace) :
    Counters → List Segment → List Stage → Counters → Prop
  | nil (c : Counters) : StagesOf env ns c [] [] c
  | cons {c c₁ c₂ s segments stage stages} (first : StageOf env ns s c c₁ stage)
      (rest : StagesOf env ns c₁ segments stages c₂) :
      StagesOf env ns c (s :: segments) (stage :: stages) c₂

lemma StagesOf.length_eq (h : StagesOf env ns c segments stages c') :
    stages.length = segments.length := by
  induction h with
  | nil c => rfl
  | cons first rest ih => rw [length_cons, length_cons, ih]

lemma statements_cons {c₂ : Counters} (hfirst : (statement env t).run c = .ok (first, c₁))
    (h : (statements env ts).run c₁ = .ok (lines, c₂)) :
    (statements env (t :: ts)).run c = .ok (first ++ lines, c₂) := by
  change ((statement env t).run c >>= fun p => (statements env ts).run p.2 >>= fun q =>
    pure (p.1 ++ q.1, q.2)) = _
  rw [hfirst]
  change ((statements env ts).run c₁ >>= fun q => pure (first ++ q.1, q.2)) = _
  rw [h]
  rfl

lemma Draft.Makes.callStages_before {before : List Term} {calls : List (Term × Option StageCall)}
    (h : Makes (callStages env name lines (before.map (·, none) ++ calls)) c ns stages c' ns') :
    ∃ more c₁, (statements env before).run c = .ok (more, c₁) ∧
      Makes (callStages env name (lines ++ more) calls) c₁ ns stages c' ns' := by
  induction before generalizing c lines with
  | nil => exact ⟨[], c, rfl, by rwa [append_nil]⟩
  | cons t before ih =>
    obtain ⟨first, c₁, hfirst, h⟩ := h.of_compose
    obtain ⟨more, c₂, hmore, h⟩ := ih h
    exact ⟨first ++ more, c₂, statements_cons hfirst hmore, by rwa [← append_assoc]⟩

lemma Draft.Makes.stageOf
    (hresource : registry.resource? s.call.site.call.reference = some s.call.site.call.resource)
    (hlines : (statements env s.before).run c = .ok (lines, c₁))
    (h : Makes (Pipeline.stage env name lines s.call) c₁ ns stage c' ns') :
    StageOf env ns' s c c' stage ∧ ns.Serves registry ns' := by
  obtain ⟨requestLines, c₂, hrequest, h⟩ := h.of_compose
  obtain ⟨responseLines, c₃, hresponse, h⟩ := h.of_compose
  obtain ⟨source, ns₁, hsource, h⟩ := h.of_modifyGet
  obtain ⟨stageName, ns₂, hname, h⟩ := h.of_modifyGet
  obtain ⟨rfl, rfl, rfl⟩ := h.of_pure
  obtain ⟨hserves, hfound⟩ := Namespace.serves_dataSource hresource hsource
  have hsources : ns₂.sources = ns₁.sources := by
    rw [← ns₁.sources_uniqueName (name ++ "_" ++ s.call.site.call.reference), hname]
  refine ⟨⟨⟨source, by rwa [hsources], rfl⟩, ?_⟩, hserves.trans (.of_sources_eq hsources)⟩
  exact ⟨lines, c₁, requestLines, c₂, responseLines, hlines, hrequest, hresponse, rfl, rfl⟩

lemma StageOf.mono (h : StageOf env ns s c c' stage) (hs : ns.Serves registry ns') :
    StageOf env ns' s c c' stage := by
  obtain ⟨source, hfound, hname⟩ := h.source
  exact ⟨⟨source, hs.keeps hfound, hname⟩, h.templates⟩

lemma Draft.Makes.stagesOf
    (hresource : ∀ s ∈ segments,
      registry.resource? s.call.site.call.reference = some s.call.site.call.resource)
    (h : Makes (callStages env name [] (segments.flatMap Segment.entries)) c ns stages c' ns') :
    StagesOf env ns' c segments stages c' ∧ ns.Serves registry ns' := by
  induction segments generalizing c ns stages with
  | nil =>
    obtain ⟨rfl, rfl, rfl⟩ := h.of_pure
    exact ⟨.nil _, .of_sources_eq rfl⟩
  | cons s segments ih =>
    rw [flatMap_cons, Segment.entries, append_assoc] at h
    obtain ⟨lines, c₁, hlines, h⟩ := h.callStages_before
    rw [nil_append] at h
    obtain ⟨first, c₂, ns₂, hfirst, h⟩ := h.of_bind
    obtain ⟨others, c₃, ns₃, hothers, h⟩ := h.of_bind
    obtain ⟨rfl, rfl, rfl⟩ := h.of_pure
    obtain ⟨hstage, hserves⟩ := hfirst.stageOf (hresource s mem_cons_self) hlines
    obtain ⟨hstages, hserves'⟩ := ih (fun s' hs' => hresource s' (mem_cons_of_mem _ hs')) hothers
    exact ⟨.cons (hstage.mono hserves') hstages, hserves.trans hserves'⟩

/-- The lines of a last statement. -/
def closing (env : Env) : Term → Compose (List Line)
  | .mk _ (.returnStmt e) => do
    let code ← expressionOrNull env e
    pure (code.lines ++ [output code.value])
  | last => do
    let lines ← statement env last
    pure (if last.isTerminal then lines else lines ++ [output null])

/-- The lines of the last statements of a body: all but the last are written as they are, the last
one so that it ends in the output of the template. -/
inductive Closes (env : Env) (fallback : String) (c : Counters) : List Term → List Line → Prop
  | nil : Closes env fallback c [] [output fallback]
  | concat {init : List Term} {last : Term} {lines ending : List Line} {c₁ c₂ : Counters}
      (init_eq : (statements env init).run c = .ok (lines, c₁))
      (last_eq : (closing env last).run c₁ = .ok (ending, c₂)) :
      Closes env fallback c (init ++ [last]) (lines ++ ending)

lemma Closes.cons (hne : ts ≠ []) (hfirst : (statement env t).run c = .ok (first, c₁))
    (h : Closes env fallback c₁ ts lines) : Closes env fallback c (t :: ts) (first ++ lines) := by
  cases h with
  | nil => exact absurd rfl hne
  | @concat init last lines ending c₂ c₃ hinit hlast =>
    rw [← cons_append, ← append_assoc]
    exact .concat (statements_cons hfirst hinit) hlast

lemma closes_of_finish (h : (finish env fallback ts).run c = .ok (lines, c')) :
    Closes env fallback c ts lines := by
  fun_induction finish env fallback ts generalizing c c' lines with
  | case1 =>
    cases h
    exact .nil
  | case2 tag e => exact .concat (rfl : (statements env []).run c = .ok ([], c)) h
  | case3 last hreturn =>
    apply Closes.concat (rfl : (statements env []).run c = .ok ([], c))
    rw [closing]
    · exact h
    · exact hreturn
  | case4 t rest hreturn hlast ih =>
    obtain ⟨first, c₁, hfirst, h⟩ := run_bind_eq_ok h
    obtain ⟨others, c₂, hothers, h⟩ := run_bind_eq_ok h
    cases h
    exact Closes.cons hlast hfirst (ih hothers)

def envOf (program : Program) (parameters : List Term) : Env :=
  ⟨program.registry, program.references, program.settings,
    parameters.head?.bind Tree.parameterName?, true, false, []⟩

/-- What the pipeline yields if no statement is left after the last call. -/
def fallbackOf (segments : List Segment) : String :=
  if segments.getLast?.any fun s => s.call.use == .returned then slot returnValue else null

lemma returnsResult_entries (segments : List Segment) :
    returnsResult (segments.flatMap Segment.entries) =
      segments.getLast?.any fun s => s.call.use == .returned := by
  obtain rfl | ⟨init, s, rfl⟩ := eq_nil_or_concat segments
  · rfl
  · simp [returnsResult, Segment.entries]

lemma Draft.Makes.of_single (h : Makes (single env name body) c ns pipeline c' ns') :
    ∃ stage lines, pipeline.stages = [stage] ∧ stage.dataSource = none ∧
      Closes { env with stashed := false, returnsDirectly := true } null c body lines ∧
      stage.responseTemplate = render lines ∧ ns'.sources = ns.sources := by
  obtain ⟨lines, c₁, hlines, h⟩ := h.of_compose
  obtain ⟨stageName, ns₁, hname, h⟩ := h.of_modifyGet
  obtain ⟨rfl, rfl, rfl⟩ := h.of_pure
  refine ⟨_, lines, rfl, rfl, closes_of_finish hlines, rfl, ?_⟩
  rw [← ns.sources_uniqueName name, hname]

lemma Draft.Makes.of_staged (hresource : ∀ s ∈ segments,
      registry.resource? s.call.site.call.reference = some s.call.site.call.resource)
    (h : Makes (staged env name (segments.flatMap Segment.entries) after) c ns pipeline c' ns') :
    ns.Serves registry ns' ∧ ∃ c₁ lines, StagesOf env ns' c segments pipeline.stages c₁ ∧
      Closes { env with returnsDirectly := true } (fallbackOf segments) c₁ after lines ∧
      pipeline.responseTemplate = render (returnGuard ++ lines) := by
  obtain ⟨stages, c₁, ns₁, hstages, h⟩ := h.of_bind
  obtain ⟨lines, c₂, hlines, h⟩ := h.of_compose
  obtain ⟨rfl, rfl, rfl⟩ := h.of_pure
  rw [returnsResult_entries] at hlines
  obtain ⟨hstages, hserves⟩ := hstages.stagesOf hresource
  exact ⟨hserves, c₁, lines, hstages, closes_of_finish hlines, rfl⟩

lemma Draft.exists_makes {a : α} (h : (x.run' c).run.run ns = (.ok a, ns')) :
    ∃ c', x.Makes c ns a c' ns' := by
  unfold Makes
  cases hx : (x.run c).run.run ns with
  | mk result ns₁ =>
    have hrun : (x.run' c).run.run ns = (result.map Prod.fst, ns₁) := by
      rw [StateT.run'_eq, ExceptT.run_map, StateT.run_map, hx]
      rfl
    rw [hrun] at h
    cases result with
    | error e => cases h
    | ok p =>
      cases h
      exact ⟨p.2, rfl⟩

lemma exists_draft {program : Program} (h : (compile program).run.run ns = (.ok pipeline, ns')) :
    ∃ t parameters block body segments after c', program.term = .ok t ∧
      t.functionParts = .ok (parameters, block, body) ∧
      Divides program.registry body segments after ∧
      Draft.Makes (if segments.isEmpty then single (envOf program parameters) program.name after
        else staged (envOf program parameters) program.name (segments.flatMap Segment.entries) after)
        ⟨0, 0⟩ ns pipeline c' ns' := by
  cases hanalyse : analyse program with
  | error e =>
    have herror : (compile program).run.run ns = (.error e, ns) := by
      unfold compile
      rw [hanalyse]
      rfl
    rw [herror] at h
    cases h
  | ok read =>
    obtain ⟨t, hterm, hread⟩ := bind_eq_ok hanalyse
    obtain ⟨⟨parameters, block, body⟩, hparts, hread⟩ := bind_eq_ok hread
    obtain ⟨calls, hcalls, hread⟩ := bind_eq_ok hread
    cases hread
    obtain ⟨segments, after, rfl⟩ := exists_segments calls
    have hempty : (segments.flatMap Segment.entries).isEmpty = segments.isEmpty := by
      cases segments <;> simp [Segment.entries]
    have hrun : compile program = (if segments.isEmpty
        then single (envOf program parameters) program.name after
        else staged (envOf program parameters) program.name
          (segments.flatMap Segment.entries) after).run' ⟨0, 0⟩ := by
      unfold compile
      rw [hanalyse, Allocate.ofExcept, pure_bind]
      simp only [splitAtLastCall_segments, hempty]
      rfl
    rw [hrun] at h
    obtain ⟨c', h⟩ := Draft.exists_makes h
    exact ⟨t, parameters, block, body, segments, after, c', hterm, hparts,
      divides_of_classifyAll hcalls, h⟩

/-- A pipeline has a stage for each top-level call of the function, in their order, and one stage
without a data source if there is none. The statements of a segment are in the request of its
stage, and those after the last call in the response of the pipeline. -/
theorem compile_stages {program : Program} {ns ns' : Namespace} {pipeline : Pipeline}
    (h : (compile program).run.run ns = (.ok pipeline, ns')) :
    ∃ t parameters block body segments after, program.term = .ok t ∧
      t.functionParts = .ok (parameters, block, body) ∧
      Divides program.registry body segments after ∧
      segments.map Segment.call = body.filterMap (callOf? program.registry) ∧
      pipeline.stages.length = max 1 (body.filterMap (callOf? program.registry)).length ∧
      ns.Serves program.registry ns' ∧
      (segments = [] → ∃ stage lines, pipeline.stages = [stage] ∧ stage.dataSource = none ∧
        Closes { envOf program parameters with stashed := false, returnsDirectly := true } null
          ⟨0, 0⟩ body lines ∧
        stage.responseTemplate = render lines) ∧
      (segments ≠ [] → ∃ c lines,
        StagesOf (envOf program parameters) ns' ⟨0, 0⟩ segments pipeline.stages c ∧
        Closes { envOf program parameters with returnsDirectly := true } (fallbackOf segments)
          c after lines ∧
        pipeline.responseTemplate = render (returnGuard ++ lines)) := by
  obtain ⟨t, parameters, block, body, segments, after, c', hterm, hparts, hdivides, h⟩ :=
    exists_draft h
  refine ⟨t, parameters, block, body, segments, after, hterm, hparts, hdivides,
    hdivides.calls.symm, ?_⟩
  rw [hdivides.calls, length_map]
  cases segments with
  | nil =>
    obtain ⟨stage, lines, hstages, hsource, hlines, hresponse, hsources⟩ := Draft.Makes.of_single h
    have hbody : body = after := hdivides.body_eq
    rw [hstages]
    refine ⟨rfl, .of_sources_eq hsources, fun _ => ?_, fun hne => absurd rfl hne⟩
    exact ⟨stage, lines, rfl, hsource, hbody ▸ hlines, hresponse⟩
  | cons s segments =>
    have hresource := fun s hs => resource?_of_siteOf? (hdivides.call s hs)
    obtain ⟨hserves, c, lines, hstages, hlines, hresponse⟩ := Draft.Makes.of_staged hresource h
    refine ⟨?_, hserves, nofun, fun _ => ⟨c, lines, hstages, hlines, hresponse⟩⟩
    rw [hstages.length_eq, length_cons]
    omega

/-- A function that calls two backends, with statements before, between and after the calls. -/
def audited : SyntaxTree :=
  .function [.param "context"]
    [.copy "order" "context", .set "receipt" (.call (.ref "charge") [.ident "order"]),
      .copy "entry" "receipt", .eval (.call (.ref "record") [.ident "entry"]),
      .give (.ident "receipt")]

def auditedProgram (forest : Forest) (function : NodeId) : Program :=
  ⟨"order", forest, function,
    ⟨[("charge", ⟨.computeFunction, "charge", false⟩),
      ("record", ⟨.computeFunction, "record", false⟩)], []⟩, fun _ => none, .default⟩

theorem compile_stages_audited : ∃ root f pipeline ns, Forest.ofTree audited = .ok (root, f) ∧
    (compile (auditedProgram f root)).run.run .empty = (.ok pipeline, ns) ∧
    pipeline.stages.length = 2 ∧ ∃ parameters segments after c lines,
      segments.length = 2 ∧
      StagesOf (envOf (auditedProgram f root) parameters) ns ⟨0, 0⟩ segments pipeline.stages c ∧
      Closes { envOf (auditedProgram f root) parameters with returnsDirectly := true }
        (fallbackOf segments) c after lines ∧
      pipeline.responseTemplate = render (returnGuard ++ lines) := by
  obtain ⟨root, f, pipeline, ns, hf, hrun, hlength⟩ :=
    exists_compiled compile auditedProgram audited
      (fun _ pipeline => pipeline.stages.length == 2) (by decide +kernel)
  rw [beq_iff_eq] at hlength
  obtain ⟨t, parameters, block, body, segments, after, -, -, -, hcalls, hcount, -, -, hstages⟩ :=
    compile_stages hrun
  rw [hlength, ← hcalls, length_map] at hcount
  have hsegments : segments.length = 2 := by omega
  obtain ⟨c, lines, hstages⟩ := hstages (by
    rintro rfl
    cases hsegments)
  exact ⟨root, f, pipeline, ns, hf, hrun, hlength, parameters, segments, after, c, lines, hsegments,
    hstages⟩

end Pipeline

end ServiceFlow
