import Mathlib.Algebra.Order.Group.Multiset
import Mathlib.Tactic.Abel
import ServiceFlow.Document
import ServiceFlow.Proofs.NameAllocation
import ServiceFlow.Proofs.PipelineStages

/-!
# Names and data sources of a document

Everything that is compiled for a document takes its names from one namespace. `Namespace.Issues`
says what a step of the compilation takes from it.
-/

namespace ServiceFlow

open List

namespace Namespace

variable {ns ns₁ ns₂ ns' : Namespace}

/-- A name of safe characters only. -/
def Safe (name : String) : Prop := name ≠ "" ∧ ∀ c ∈ name.toList, isSafe c = true

lemma safe_sanitize (name : String) : Safe (sanitize name) := by
  unfold sanitize
  by_cases hname : name.isEmpty = true
  · rw [if_pos hname]
    exact ⟨by decide, by simp [isSafe]⟩
  · rw [if_neg hname]
    constructor
    · intro h
      apply hname
      simpa using congrArg String.toList h
    · intro c hc
      rw [String.toList_ofList] at hc
      obtain ⟨d, -, rfl⟩ := mem_map.mp hc
      by_cases hd : isSafe d = true
      · rwa [if_pos hd]
      · rw [if_neg hd]
        rfl

lemma safe_numbered {base : String} (h : Safe base) (n : Nat) : Safe (numbered base n) := by
  constructor
  · intro hempty
    apply h.1
    have hlist := congrArg String.toList hempty
    simp [numbered] at hlist
  · intro c hc
    simp only [numbered, String.toList_append, mem_append] at hc
    rcases hc with (hc | hc) | hc
    · exact h.2 c hc
    · obtain rfl : c = '_' := by simpa using hc
      rfl
    · have hdigit : c.isDigit = true :=
        Nat.isDigit_of_mem_toDigits (by omega) (by omega) (Nat.toList_repr ▸ hc)
      simp [isSafe, Char.isAlphanum, hdigit]

lemma numbered_injective (base : String) : Function.Injective (numbered base) := by
  intro n m h
  apply toList_toString_injective
  exact congrArg String.toList ((String.append_right_inj _).mp h)

variable {name given : String}

lemma uniqueName_cases (h : ns.uniqueName name = (given, ns')) :
    given ∉ ns.allocated ∧ Safe given ∧ ns'.allocated = given :: ns.allocated := by
  unfold uniqueName at h
  by_cases hbase : sanitize name ∈ ns.allocated
  · simp only [if_pos hbase, Prod.mk.injEq] at h
    obtain ⟨rfl, rfl⟩ := h
    refine ⟨?_, safe_numbered (safe_sanitize name) _, rfl⟩
    refine search_not_taken (fun fuel n => numbered _ (freeNumber _ _ fuel n))
      (numbered_injective (sanitize name)) (fun _ => rfl) (fun fuel n => ?_) (Nat.le_succ _)
    rw [freeNumber]
    split_ifs <;> rfl
  · simp only [if_neg hbase, Prod.mk.injEq] at h
    obtain ⟨rfl, rfl⟩ := h
    exact ⟨hbase, safe_sanitize name, rfl⟩

/-- The names given out differ and are safe, and a reference has one data source. -/
structure Sound (ns : Namespace) : Prop where
  nodup : ns.allocated.Nodup
  safe : ∀ name ∈ ns.allocated, Safe name
  references : (Ordered.keys ns.sources).Nodup

/-- What a step takes from a namespace: the names, and further data sources, whose names are among
those that it uses. -/
structure Issues (ns : Namespace) (names used : List String) (ns' : Namespace) : Prop where
  sound : ns.Sound → ns'.Sound
  made : ∃ made : Ordered DataSource, ns'.sources = ns.sources ++ made ∧
    ns'.allocated.Perm (names ++ made.map (·.2.name) ++ ns.allocated) ∧
    ∀ entry ∈ made, entry.2.name ∈ used

namespace Issues

variable {names names₁ names₂ used used₁ used₂ : List String}

lemma refl (ns : Namespace) : Issues ns [] [] ns := ⟨id, [], by simp, by simp, by simp⟩

lemma trans (h₁ : Issues ns names₁ used₁ ns₁) (h₂ : Issues ns₁ names₂ used₂ ns₂) :
    Issues ns (names₁ ++ names₂) (used₁ ++ used₂) ns₂ := by
  obtain ⟨made₁, hsources₁, hperm₁, hused₁⟩ := h₁.made
  obtain ⟨made₂, hsources₂, hperm₂, hused₂⟩ := h₂.made
  refine ⟨fun h => h₂.sound (h₁.sound h), made₁ ++ made₂, ?_, ?_, ?_⟩
  · rw [hsources₂, hsources₁, append_assoc]
  · apply Multiset.coe_eq_coe.mp
    have hm₁ := Multiset.coe_eq_coe.mpr hperm₁
    have hm₂ := Multiset.coe_eq_coe.mpr hperm₂
    simp only [map_append, ← Multiset.coe_add] at hm₁ hm₂ ⊢
    rw [hm₂, hm₁]
    abel
  · intro entry hentry
    rcases mem_append.mp hentry with h | h
    · exact mem_append_left _ (hused₁ entry h)
    · exact mem_append_right _ (hused₂ entry h)

end Issues

lemma issues_uniqueName (h : ns.uniqueName name = (given, ns')) : Issues ns [given] [] ns' := by
  obtain ⟨hfresh, hsafe, hallocated⟩ := uniqueName_cases h
  have hsources : ns'.sources = ns.sources := by rw [← ns.sources_uniqueName name, h]
  refine ⟨fun hs => ⟨?_, ?_, hsources ▸ hs.references⟩, [], by simp [hsources], ?_, by simp⟩
  · rw [hallocated]
    exact nodup_cons.mpr ⟨hfresh, hs.nodup⟩
  · rw [hallocated]
    exact forall_mem_cons.mpr ⟨hsafe, hs.safe⟩
  · simp [hallocated]

lemma issues_dataSource {reference : String} {resource : Resource} {source : DataSource}
    (h : ns.dataSource reference resource = (source, ns')) : Issues ns [] [source.name] ns' := by
  unfold dataSource at h
  cases hfound : Ordered.get? reference ns.sources with
  | some old =>
    simp only [hfound, Prod.mk.injEq] at h
    obtain ⟨rfl, rfl⟩ := h
    exact ⟨id, [], by simp, by simp, by simp⟩
  | none =>
    cases hname : ns.uniqueName (reference ++ "_" ++ resource.kind.name) with
    | mk name ns₁ =>
      simp only [hfound, hname, Prod.mk.injEq] at h
      obtain ⟨rfl, rfl⟩ := h
      have hissues := issues_uniqueName hname
      have hallocated := (uniqueName_cases hname).2.2
      have hsources : ns₁.sources = ns.sources := by rw [← ns.sources_uniqueName, hname]
      refine ⟨fun hs => ⟨(hissues.sound hs).nodup, (hissues.sound hs).safe, ?_⟩,
        [(reference, ⟨name, resource.kind, resource⟩)], by simp [hsources], by simp [hallocated],
        by simp⟩
      rw [Ordered.keys, hsources, map_append, nodup_append_comm]
      exact nodup_cons.mpr ⟨Ordered.not_mem_keys_of_get? hfound, hs.references⟩

end Namespace

namespace Pipeline

variable {ns ns' : Namespace}

abbrev IssuesStages (ns : Namespace) (stages : List Stage) (ns' : Namespace) : Prop :=
  ns.Issues (stages.map (·.name)) (stages.filterMap (·.dataSource)) ns'

variable {env : Template.Env} {name : String} {c c' : Template.Counters} {program : Program}
  {pipeline : Pipeline} {before : List Template.Line} {stages : List Stage}

lemma Draft.Makes.issues_stage {call : StageCall} {made : Stage}
    (h : Makes (stage env name before call) c ns made c' ns') : IssuesStages ns [made] ns' := by
  obtain ⟨requestLines, c₁, -, h⟩ := h.of_compose
  obtain ⟨responseLines, c₂, -, h⟩ := h.of_compose
  obtain ⟨source, ns₁, hsource, h⟩ := h.of_modifyGet
  obtain ⟨stageName, ns₂, hname, h⟩ := h.of_modifyGet
  obtain ⟨rfl, rfl, rfl⟩ := h.of_pure
  exact (Namespace.issues_dataSource hsource).trans (Namespace.issues_uniqueName hname)

lemma Draft.Makes.issues_callStages {calls : List (Term × Option StageCall)}
    (h : Makes (callStages env name before calls) c ns stages c' ns') :
    IssuesStages ns stages ns' := by
  induction calls generalizing before c ns stages with
  | nil =>
    obtain ⟨rfl, rfl, rfl⟩ := h.of_pure
    exact .refl ns
  | cons first calls ih =>
    obtain ⟨t, call⟩ := first
    cases call with
    | none =>
      obtain ⟨lines, c₁, -, h⟩ := h.of_compose
      exact ih h
    | some call =>
      obtain ⟨made, c₁, ns₁, hmade, h⟩ := h.of_bind
      obtain ⟨others, c₂, ns₂, hothers, h⟩ := h.of_bind
      obtain ⟨rfl, rfl, rfl⟩ := h.of_pure
      have hissues := hmade.issues_stage.trans (ih hothers)
      rwa [← map_append, ← filterMap_append] at hissues

lemma issues_compile (h : (compile program).run.run ns = (.ok pipeline, ns')) :
    IssuesStages ns pipeline.stages ns' := by
  obtain ⟨t, parameters, block, body, segments, after, c', -, -, -, h⟩ := exists_draft h
  by_cases hsegments : segments.isEmpty = true
  · rw [if_pos hsegments] at h
    obtain ⟨lines, c₁, -, h⟩ := h.of_compose
    obtain ⟨stageName, ns₁, hname, h⟩ := h.of_modifyGet
    obtain ⟨rfl, rfl, rfl⟩ := h.of_pure
    exact Namespace.issues_uniqueName hname
  · rw [if_neg hsegments] at h
    obtain ⟨stages, c₁, ns₁, hstages, h⟩ := h.of_bind
    obtain ⟨lines, c₂, -, h⟩ := h.of_compose
    obtain ⟨rfl, rfl, rfl⟩ := h.of_pure
    exact hstages.issues_callStages

/-- The references that the stages of a function call, in their order. The one stage of a function
without calls has none. -/
def stageReferences (registry : Registry) (t : Term) : List (Option String) :=
  match t.functionParts with
  | .error _ => []
  | .ok (_, _, body) =>
    match body.filterMap (callOf? registry) with
    | [] => [none]
    | calls => calls.map fun call => some call.site.call.reference

def Calls (ns : Namespace) (reference : Option String) (stage : Stage) : Prop :=
  match reference with
  | none => stage.dataSource = none
  | some reference => ∃ source, Ordered.get? reference ns.sources = some source ∧
      stage.dataSource = some source.name

variable {stage : Stage}

lemma Calls.mono {registry : Registry} {reference : Option String} (h : Calls ns reference stage)
    (hs : ns.Serves registry ns') : Calls ns' reference stage := by
  cases reference with
  | none => exact h
  | some reference =>
    obtain ⟨source, hfound, hname⟩ := h
    exact ⟨source, hs.keeps hfound, hname⟩

lemma StagesOf.calls {segments : List Segment} (h : StagesOf env ns c segments stages c') :
    Forall₂ (Calls ns) (segments.map fun s => some s.call.site.call.reference) stages := by
  induction h with
  | nil => exact .nil
  | cons first rest ih => exact .cons first.source ih

lemma calls_compile (h : (compile program).run.run ns = (.ok pipeline, ns')) :
    ns.Serves program.registry ns' ∧ ∃ t, program.term = .ok t ∧
      Forall₂ (Calls ns') (stageReferences program.registry t) pipeline.stages := by
  obtain ⟨t, parameters, block, body, segments, after, c', hterm, hparts, hdivides, h⟩ :=
    exists_draft h
  unfold stageReferences
  cases segments with
  | nil =>
    obtain ⟨stage, lines, hstages, hsource, -, -, hsources⟩ := Draft.Makes.of_single h
    refine ⟨.of_sources_eq hsources, t, hterm, ?_⟩
    simp only [hparts, hdivides.calls, hstages]
    exact .cons hsource .nil
  | cons s segments =>
    have hresource := fun s hs => resource?_of_siteOf? (hdivides.call s hs)
    obtain ⟨hserves, c, lines, hstages, -⟩ := Draft.Makes.of_staged hresource h
    refine ⟨hserves, t, hterm, ?_⟩
    simp only [hparts, hdivides.calls, map_cons, map_map]
    exact hstages.calls

end Pipeline

namespace Machine

lemma issues_compile {program : Program} {workflow : Workflow} {ns ns' : Namespace}
    (h : (compile program).run.run ns = (.ok workflow, ns')) :
    ns.Issues [workflow.name] [] ns' := by
  unfold compile at h
  cases hp : ofProgram program with
  | error e =>
    rw [hp] at h
    cases h
  | ok definition =>
    rw [hp] at h
    obtain ⟨hworkflow, rfl⟩ := Prod.mk.inj h
    cases hworkflow
    exact Namespace.issues_uniqueName rfl

end Machine

namespace Document

variable {document : Document} {settings : Settings} {α : Type} {compile : Program → Allocate α}
  {ns ns' : Namespace}

lemma program_eq_ok {name : String} {tree : SyntaxTree} {program : Program}
    (h : document.program settings name tree = .ok program) :
    Forest.ofTree tree = .ok (program.function, program.forest) ∧
      program.registry = document.registry := by
  unfold Document.program at h
  cases htree : Forest.ofTree tree with
  | error e =>
    rw [htree] at h
    cases h
  | ok made =>
    rw [htree] at h
    cases h
    exact ⟨rfl, rfl⟩

/-- Functions are compiled one after the other, each with the namespace that the one before left. -/
inductive CompilesEach (document : Document) (settings : Settings)
    (compile : Program → Allocate α) :
    Namespace → Ordered SyntaxTree → List α → Namespace → Prop
  | nil (ns : Namespace) : CompilesEach document settings compile ns [] [] ns
  | cons {ns ns₁ ns₂ name tree trees program a as}
      (program_eq : document.program settings name tree = .ok program)
      (first : (compile program).run.run ns = (.ok a, ns₁))
      (rest : CompilesEach document settings compile ns₁ trees as ns₂) :
      CompilesEach document settings compile ns ((name, tree) :: trees) (a :: as) ns₂

variable {trees : Ordered SyntaxTree} {as : List α}

lemma compilesEach_of_run
    (h : (document.compileEach settings compile trees).run.run ns = (.ok as, ns')) :
    CompilesEach document settings compile ns trees as ns' := by
  induction trees generalizing ns as with
  | nil =>
    cases h
    exact .nil _
  | cons entry trees ih =>
    obtain ⟨name, tree⟩ := entry
    rw [compileEach] at h
    obtain ⟨program, ns₁, hread, hcompile⟩ := Allocate.run_bind_eq_ok h
    obtain ⟨a, ns₂, hfirst, hothers⟩ := Allocate.run_bind_eq_ok hcompile
    obtain ⟨others, ns₃, hrest, hpure⟩ := Allocate.run_bind_eq_ok hothers
    obtain ⟨hprogram, rfl⟩ := Allocate.run_ofExcept_eq_ok hread
    cases hpure
    exact .cons hprogram hfirst (ih hrest)

lemma CompilesEach.issues (names used : α → List String)
    (hstep : ∀ {program : Program} {a : α} {ns ns' : Namespace},
      (compile program).run.run ns = (.ok a, ns') → ns.Issues (names a) (used a) ns')
    (h : CompilesEach document settings compile ns trees as ns') :
    ns.Issues (as.flatMap names) (as.flatMap used) ns' := by
  induction h with
  | nil ns => exact .refl ns
  | cons program_eq first rest ih => exact (hstep first).trans ih

def stageReferences (document : Document) (tree : SyntaxTree) : List (Option String) :=
  match Forest.ofTree tree with
  | .error _ => []
  | .ok (root, forest) =>
    match forest.view? root with
    | none => []
    | some t => Pipeline.stageReferences document.registry t

/-- All stages of a document, with what they call. -/
def stageCalls (document : Document) (bundle : Bundle) : List (Option String × Stage) :=
  (document.resolvers.zip bundle.resolvers).flatMap fun (entry, pipeline) =>
    (document.stageReferences entry.2).zip pipeline.stages

lemma CompilesEach.calls {pipelines : List Pipeline}
    (h : CompilesEach document settings Pipeline.compile ns trees pipelines ns') :
    ns.Serves document.registry ns' ∧
      Forall₂ (fun entry pipeline =>
        Forall₂ (Pipeline.Calls ns') (document.stageReferences entry.2) pipeline.stages)
        trees pipelines := by
  induction h with
  | nil ns => exact ⟨.of_sources_eq rfl, .nil⟩
  | @cons ns ns₁ ns₂ name tree trees program a as program_eq first rest ih =>
    obtain ⟨htree, hregistry⟩ := program_eq_ok program_eq
    obtain ⟨hserves, t, hterm, hcalls⟩ := Pipeline.calls_compile first
    rw [hregistry] at hserves hcalls
    have hreferences : document.stageReferences tree =
        Pipeline.stageReferences document.registry t := by
      unfold Program.term at hterm
      unfold stageReferences
      cases hview : program.forest.view? program.function with
      | none =>
        rw [hview] at hterm
        cases hterm
      | some t' =>
        rw [hview] at hterm
        cases hterm
        simp only [htree, hview]
    refine ⟨hserves.trans ih.1, .cons ?_ ih.2⟩
    rw [hreferences]
    exact hcalls.imp fun r s hcall => hcall.mono ih.1

end Document

/-- The stages of all resolvers. -/
def Bundle.stages (bundle : Bundle) : List Stage := bundle.resolvers.flatMap (·.stages)

/-- All names that a bundle gives out. -/
def Bundle.names (bundle : Bundle) : List String :=
  bundle.stages.map (·.name) ++ bundle.dataSources.map (·.name) ++ bundle.workflows.map (·.name)

namespace Document

variable {document : Document} {settings : Settings} {bundle : Bundle} {ns : Namespace}

lemma exists_of_compile (h : document.compile settings = .ok bundle) :
    ∃ ns ns', CompilesEach document settings Pipeline.compile .empty document.resolvers
        bundle.resolvers ns ∧
      CompilesEach document settings Machine.compile ns document.workflows bundle.workflows ns' ∧
      bundle.dataSources = ns'.dataSources := by
  unfold compile at h
  cases hrun : (document.compileAll settings).run.run .empty with
  | mk result final =>
    rw [hrun] at h
    obtain rfl : result = .ok bundle := h
    unfold compileAll at hrun
    obtain ⟨resolvers, ns, hresolvers, hrun⟩ := Allocate.run_bind_eq_ok hrun
    obtain ⟨workflows, ns', hworkflows, hrun⟩ := Allocate.run_bind_eq_ok hrun
    cases hrun
    exact ⟨ns, _, compilesEach_of_run hresolvers, compilesEach_of_run hworkflows, rfl⟩

/-- The namespace that a compilation leaves: what it gave out is what the bundle has. -/
structure Fills (document : Document) (bundle : Bundle) (ns : Namespace) : Prop where
  sound : ns.Sound
  sources : bundle.dataSources = ns.dataSources
  names : bundle.names.Perm ns.allocated
  used : ∀ source ∈ bundle.dataSources, source.name ∈ bundle.stages.filterMap (·.dataSource)
  resource : ∀ {reference source}, Ordered.get? reference ns.sources = some source →
    document.registry.resource? reference = some source.resource
  calls : List.Forall₂ (fun entry pipeline =>
    List.Forall₂ (Pipeline.Calls ns) (document.stageReferences entry.2) pipeline.stages)
    document.resolvers bundle.resolvers

lemma exists_fills (h : document.compile settings = .ok bundle) :
    ∃ ns, document.Fills bundle ns := by
  obtain ⟨ns₁, ns, hresolvers, hworkflows, hsources⟩ := exists_of_compile h
  have hstages := hresolvers.issues (fun pipeline => pipeline.stages.map (·.name))
    (fun pipeline => pipeline.stages.filterMap (·.dataSource)) Pipeline.issues_compile
  have hnamed := hworkflows.issues (fun workflow => [workflow.name]) (fun _ => [])
    Machine.issues_compile
  obtain ⟨hserves, hcalls⟩ := hresolvers.calls
  -- Workflows have no data sources.
  obtain ⟨made, hmade, -, hnone⟩ := hnamed.made
  obtain rfl : made = [] := by
    apply eq_nil_iff_forall_not_mem.mpr
    intro entry hentry
    simpa using hnone entry hentry
  have hkept : ns.sources = ns₁.sources := by simpa using hmade
  have hserved : ns₁.Serves document.registry ns := .of_sources_eq hkept
  obtain ⟨made, hmade, hperm, hused⟩ := (hstages.trans hnamed).made
  have hmade : ns.sources = made := by simpa [Namespace.empty] using hmade
  subst hmade
  refine ⟨ns, (hstages.trans hnamed).sound ⟨.nil, by simp [Namespace.empty], .nil⟩, hsources, ?_, ?_, ?_, ?_⟩
  · apply Multiset.coe_eq_coe.mp
    have hm := Multiset.coe_eq_coe.mpr hperm
    simp only [Namespace.empty, append_nil, ← Multiset.coe_add] at hm
    simp only [Bundle.names, Bundle.stages, hsources, Namespace.dataSources, map_flatMap,
      map_map, ← Multiset.coe_add]
    rw [hm, ← map_eq_flatMap]
    simp only [Function.comp_def]
    abel
  · intro source hsource
    rw [hsources] at hsource
    obtain ⟨entry, hentry, rfl⟩ := mem_map.mp hsource
    have hmem := hused entry hentry
    rw [Bundle.stages, filterMap_flatMap]
    simpa using hmem
  · intro reference source hfound
    rw [hkept] at hfound
    rcases hserves.made hfound with hold | hresource
    · cases hold
    · exact hresource
  · apply hcalls.imp
    intro entry pipeline hpipeline
    exact hpipeline.imp fun r s hcall => hcall.mono hserved

lemma stageCalls_eq {resolvers : Ordered SyntaxTree} {pipelines : List Pipeline}
    (h : Forall₂ (fun entry pipeline =>
      Forall₂ (Pipeline.Calls ns) (document.stageReferences entry.2) pipeline.stages)
      resolvers pipelines) :
    let calls := (resolvers.zip pipelines).flatMap fun (entry, pipeline) =>
      (document.stageReferences entry.2).zip pipeline.stages
    calls.map Prod.fst = resolvers.flatMap (fun entry => document.stageReferences entry.2) ∧
      calls.map Prod.snd = pipelines.flatMap (·.stages) ∧
      ∀ call ∈ calls, Pipeline.Calls ns call.1 call.2 := by
  dsimp only
  induction h with
  | nil => simp
  | @cons entry pipeline resolvers pipelines first rest ih =>
    obtain ⟨hfst, hsnd, hcalls⟩ := ih
    obtain ⟨hlength, hzip⟩ := forall₂_iff_zip.mp first
    rw [zip_cons_cons, flatMap_cons, map_append, map_append, hfst, hsnd,
      map_fst_zip hlength.le, map_snd_zip hlength.ge]
    refine ⟨rfl, rfl, fun call hcall => ?_⟩
    rcases mem_append.mp hcall with hcall | hcall
    · exact hzip hcall
    · exact hcalls call hcall

namespace Fills

variable {source : DataSource}

lemma reference_eq (h : document.Fills bundle ns) {r r' : String} {source' : DataSource}
    (hr : Ordered.get? r ns.sources = some source)
    (hr' : Ordered.get? r' ns.sources = some source') (hname : source.name = source'.name) :
    r = r' := by
  have hnodup : (ns.sources.map (·.2.name)).Nodup := by
    have hall := h.names.nodup_iff.mpr h.sound.nodup
    have hsources : (bundle.dataSources.map (·.name)).Nodup :=
      (nodup_append.mp (nodup_append.mp hall).1).2.1
    rwa [h.sources, Namespace.dataSources, map_map] at hsources
  have hentry := inj_on_of_nodup_map hnodup (Ordered.mem_of_get? hr) (Ordered.mem_of_get? hr') hname
  exact congrArg Prod.fst hentry

lemma dataSource_eq_iff (h : document.Fills bundle ns) {r r' : Option String} {stage' : Stage}
    (hcall : Pipeline.Calls ns r stage) (hcall' : Pipeline.Calls ns r' stage') :
    stage.dataSource = stage'.dataSource ↔ r = r' := by
  cases r with
  | none =>
    cases r' with
    | none =>
      simp [show stage.dataSource = none from hcall, show stage'.dataSource = none from hcall']
    | some r' =>
      obtain ⟨source', -, hname'⟩ := hcall'
      simp [show stage.dataSource = none from hcall, hname']
  | some r =>
    obtain ⟨source, hfound, hname⟩ := hcall
    cases r' with
    | none => simp [show stage'.dataSource = none from hcall', hname]
    | some r' =>
      obtain ⟨source', hfound', hname'⟩ := hcall'
      rw [hname, hname', Option.some.injEq, Option.some.injEq]
      constructor
      · exact h.reference_eq hfound hfound'
      · rintro rfl
        rw [hfound] at hfound'
        rw [Option.some.inj hfound']

end Fills

/-- The names of a compiled document differ and are made of letters, digits and underscores. Its
data sources are those that its stages call, one for each reference, with the resource of the
reference; `stageCalls` lists all stages, each with the reference that it calls. -/
theorem compile_names_and_sources (h : document.compile settings = .ok bundle) :
    bundle.names.Nodup ∧
    (∀ name ∈ bundle.names, name ≠ "" ∧ ∀ c ∈ name.toList, c.isAlphanum = true ∨ c = '_') ∧
    (document.stageCalls bundle).map Prod.snd = bundle.stages ∧
    (document.stageCalls bundle).map Prod.fst =
      document.resolvers.flatMap (fun entry => document.stageReferences entry.2) ∧
    (∀ stage, (none, stage) ∈ document.stageCalls bundle → stage.dataSource = none) ∧
    (∀ reference stage, (some reference, stage) ∈ document.stageCalls bundle →
      ∃ source ∈ bundle.dataSources, stage.dataSource = some source.name ∧
        document.registry.resource? reference = some source.resource) ∧
    (∀ source ∈ bundle.dataSources, ∃ stage ∈ bundle.stages, stage.dataSource = some source.name) ∧
    (∀ call ∈ document.stageCalls bundle, ∀ call' ∈ document.stageCalls bundle,
      call.2.dataSource = call'.2.dataSource ↔ call.1 = call'.1) := by
  obtain ⟨ns, hfills⟩ := exists_fills h
  obtain ⟨hfst, hsnd, hcalls⟩ := stageCalls_eq hfills.calls
  refine ⟨hfills.names.nodup_iff.mpr hfills.sound.nodup, ?_, hsnd, hfst, ?_, ?_, ?_, ?_⟩
  · intro name hname
    obtain ⟨hne, hsafe⟩ := hfills.sound.safe name (hfills.names.mem_iff.mp hname)
    refine ⟨hne, fun c hc => ?_⟩
    simpa [Namespace.isSafe] using hsafe c hc
  · intro stage hcall
    exact hcalls _ hcall
  · intro reference stage hcall
    obtain ⟨source, hfound, hname⟩ := hcalls _ hcall
    have hmem := mem_map_of_mem (f := Prod.snd) (Ordered.mem_of_get? hfound)
    exact ⟨source, hfills.sources ▸ hmem, hname, hfills.resource hfound⟩
  · intro source hsource
    obtain ⟨stage, hstage, hname⟩ := mem_filterMap.mp (hfills.used source hsource)
    exact ⟨stage, hstage, hname⟩
  · intro call hcall call' hcall'
    exact hfills.dataSource_eq_iff (hcalls call hcall) (hcalls call' hcall')

/-- Two resolvers that call the same backends, and a workflow with the name of one of the stages. -/
def sharing : Document where
  registry := ⟨[("charge", ⟨.computeFunction, "charge", false⟩),
    ("record", ⟨.computeFunction, "record", false⟩)], []⟩
  resolvers := [("order", Pipeline.audited), ("order again", Pipeline.audited)]
  workflows := [("order_charge", .function [] [.leave])]

theorem compile_names_and_sources_sharing : ∃ bundle, sharing.compile .default = .ok bundle ∧
    bundle.stages.length = 4 ∧ bundle.dataSources.length = 2 ∧
    bundle.workflows.map (·.name) = ["order_charge_0"] ∧ bundle.names.Nodup ∧
    ∀ call ∈ sharing.stageCalls bundle, ∀ call' ∈ sharing.stageCalls bundle,
      call.2.dataSource = call'.2.dataSource ↔ call.1 = call'.1 := by
  have heval : (match sharing.compile .default with
      | .ok bundle => decide (bundle.stages.length = 4 ∧ bundle.dataSources.length = 2 ∧
          bundle.workflows.map (·.name) = ["order_charge_0"])
      | .error _ => false) = true := by decide +kernel
  cases hc : sharing.compile .default with
  | error e =>
    rw [hc] at heval
    cases heval
  | ok bundle =>
    rw [hc] at heval
    obtain ⟨hstages, hsources, hworkflows⟩ := of_decide_eq_true heval
    obtain ⟨hnodup, -, -, -, -, -, -, hsame⟩ := compile_names_and_sources hc
    exact ⟨bundle, rfl, hstages, hsources, hworkflows, hnodup, hsame⟩

end Document

end ServiceFlow
