import ServiceFlow.Machine.Compile
import ServiceFlow.Pipeline.Compile
import ServiceFlow.Proofs.ForestGrowth

/-!
# Compilation whatever the namespace holds

Nothing that is written depends on the names that a namespace gives. So two runs that start from
different namespaces write the same lines, and fail at the same place or not at all.
-/

namespace ServiceFlow

variable {α β γ δ : Type} {a : α} {b : β}

/-- Two outcomes go together: both are the same error, or both are results that are related. -/
inductive Alike (R : α → β → Prop) : Except CompileError α → Except CompileError β → Prop where
  | ok {a : α} {b : β} (h : R a b) : Alike R (.ok a) (.ok b)
  | error (e : CompileError) : Alike R (.error e) (.error e)

lemma Alike.imp {R S : α → β → Prop} {x : Except CompileError α} {y : Except CompileError β}
    (h : Alike R x y) (hRS : ∀ a b, R a b → S a b) : Alike S x y := by
  cases h with
  | ok h => exact .ok (hRS _ _ h)
  | error e => exact .error e

namespace Allocate

/-- Two runs go together, whatever namespaces they start from. -/
def InStep (R : α → β → Prop) (x : Allocate α) (y : Allocate β) : Prop :=
  ∀ ns₁ ns₂ : Namespace, Alike R (x.run.run ns₁).1 (y.run.run ns₂).1

namespace InStep

variable {R : α → β → Prop} {S : γ → δ → Prop}

lemma pure (h : R a b) : InStep R (Pure.pure a) (Pure.pure b) := fun _ _ => .ok h

lemma bind {x : Allocate α} {y : Allocate β} {k : α → Allocate γ} {l : β → Allocate δ}
    (hxy : InStep R x y) (hkl : ∀ a b, R a b → InStep S (k a) (l b)) :
    InStep S (x >>= k) (y >>= l) := by
  intro ns₁ ns₂
  have hstep := hxy ns₁ ns₂
  rw [ExceptT.run_bind, StateT.run_bind, ExceptT.run_bind, StateT.run_bind]
  cases hx : x.run.run ns₁ with
  | mk result₁ ns₁' =>
    cases hy : y.run.run ns₂ with
    | mk result₂ ns₂' =>
      rw [hx, hy] at hstep
      cases hstep with
      | ok h => exact hkl _ _ h ns₁' ns₂'
      | error e => exact .error e

lemma ofExcept (x : Except CompileError α) : InStep Eq (ofExcept x) (ofExcept x) := by
  intro ns₁ ns₂
  cases x with
  | error e => exact .error e
  | ok a => exact .ok rfl

end InStep

end Allocate

namespace Pipeline

open ServiceFlow.Template

/-- Two drafts go together and leave the same counters. -/
def Draft.InStep (R : α → β → Prop) (x : Draft α) (y : Draft β) : Prop :=
  ∀ c : Counters, Allocate.InStep (fun p q => R p.1 q.1 ∧ p.2 = q.2) (x.run c) (y.run c)

namespace Draft.InStep

variable {R : α → β → Prop} {S : γ → δ → Prop} {k : α → Draft γ}

lemma pure (h : R a b) : InStep R (Pure.pure a) (Pure.pure b) :=
  fun _ => .pure ⟨h, rfl⟩

lemma bind {x : Draft α} {y : Draft β} {l : β → Draft δ} (hxy : InStep R x y)
    (hkl : ∀ a b, R a b → InStep S (k a) (l b)) : InStep S (x >>= k) (y >>= l) := by
  intro c
  rw [StateT.run_bind, StateT.run_bind]
  refine (hxy c).bind ?_
  rintro ⟨a, c₁⟩ ⟨b, c₂⟩ ⟨h, rfl⟩
  exact hkl a b h c₁

lemma compose {x : Compose α} {l : α → Draft δ} (hkl : ∀ a, InStep S (k a) (l a)) :
    InStep S (Draft.compose x >>= k) (Draft.compose x >>= l) := by
  have hx : InStep Eq (Draft.compose x) (Draft.compose x) := by
    intro c ns₁ ns₂
    refine (Allocate.InStep.ofExcept (x c) ns₁ ns₂).imp ?_
    rintro p q rfl
    exact ⟨rfl, rfl⟩
  refine hx.bind ?_
  rintro a b rfl
  exact hkl a

lemma allocate {g : Namespace → α × Namespace} {l : α → Draft γ} {S : γ → γ → Prop}
    (hkl : ∀ a b, InStep S (k a) (l b)) :
    InStep S (liftM (modifyGet g : Allocate α) >>= k) (liftM (modifyGet g : Allocate α) >>= l) := by
  have hx : InStep (fun _ _ => True) (liftM (modifyGet g : Allocate α) : Draft α)
      (liftM (modifyGet g : Allocate α)) := fun _ _ _ => .ok ⟨trivial, rfl⟩
  exact hx.bind fun a b _ => hkl a b

end Draft.InStep

end Pipeline

/-- A stage without its names. -/
def Stage.unnamed (stage : Stage) : Stage :=
  { stage with name := "", dataSource := stage.dataSource.map fun _ => "" }

/-- A pipeline without the names of its stages and of the data sources they call. -/
def Pipeline.unnamed (pipeline : Pipeline) : Pipeline :=
  { pipeline with stages := pipeline.stages.map Stage.unnamed }

namespace Pipeline

open ServiceFlow.Template

lemma inStep_stage (env : Env) (name : String) (before : List Line) (call : StageCall) :
    Draft.InStep (fun a b => a.unnamed = b.unnamed) (stage env name before call)
      (stage env name before call) := by
  refine .compose fun requestLines => .compose fun responseLines => ?_
  exact .allocate fun source₁ source₂ => .allocate fun name₁ name₂ => .pure rfl

lemma inStep_callStages (env : Env) (name : String) (before : List Line)
    (calls : List (Term × Option StageCall)) :
    Draft.InStep (fun a b => a.map Stage.unnamed = b.map Stage.unnamed)
      (callStages env name before calls) (callStages env name before calls) := by
  induction calls generalizing before with
  | nil => exact .pure rfl
  | cons first rest ih =>
    obtain ⟨t, call⟩ := first
    cases call with
    | none => exact .compose fun lines => ih (before ++ lines)
    | some call =>
      refine .bind (inStep_stage env name before call) fun first₁ first₂ hfirst => ?_
      refine .bind (ih []) fun others₁ others₂ hothers => .pure ?_
      rw [List.map_cons, List.map_cons, hfirst, hothers]

lemma inStep_staged (env : Env) (name : String) (calls : List (Term × Option StageCall))
    (after : List Term) :
    Draft.InStep (fun a b => a.unnamed = b.unnamed) (staged env name calls after)
      (staged env name calls after) := by
  refine .bind (inStep_callStages env name [] calls) fun parts₁ parts₂ hparts => ?_
  refine .compose fun lines => .pure ?_
  rw [unnamed, unnamed, hparts]

lemma inStep_compile (program : Program) :
    Allocate.InStep (fun a b => a.unnamed = b.unnamed) (compile program) (compile program) := by
  refine (Allocate.InStep.ofExcept (analyse program)).bind ?_
  rintro ⟨context, calls⟩ _ rfl
  dsimp only
  generalize splitAtLastCall calls = parts
  obtain ⟨before, after⟩ := parts
  have hrun : ∀ {x : Draft Pipeline}, Draft.InStep (fun a b => a.unnamed = b.unnamed) x x →
      Allocate.InStep (fun a b => a.unnamed = b.unnamed) (x.run' ⟨0, 0⟩) (x.run' ⟨0, 0⟩) := by
    intro x hx
    rw [StateT.run'_eq, map_eq_pure_bind]
    exact (hx ⟨0, 0⟩).bind fun p q h => .pure h.1
  dsimp only
  split_ifs
  · exact hrun (.compose fun _ => .allocate fun _ _ => .pure rfl)
  · exact hrun (inStep_staged _ _ _ _)

end Pipeline

namespace Machine

lemma run_compile (program : Program) (ns : Namespace) :
    (compile program).run.run ns = match ofProgram program with
      | .error e => (.error e, ns)
      | .ok definition => (.ok ⟨(ns.uniqueName program.name).1, definition⟩,
          (ns.uniqueName program.name).2) := by
  unfold compile
  cases ofProgram program <;> rfl

end Machine

/-- What a compilation makes does not depend on what the namespace holds. From any two namespaces a
function compiles to the same pipeline up to the names of stages and data sources, and to the same
machine, or fails with the same error; and a machine that cannot be made leaves the namespace as it
was. -/
theorem Namespace.compile_independent (program : Program) (ns₁ ns₂ : Namespace) :
    Alike (fun p q => p.unnamed = q.unnamed) ((Pipeline.compile program).run.run ns₁).1
      ((Pipeline.compile program).run.run ns₂).1 ∧
    Alike (fun v w => v.definition = w.definition) ((Machine.compile program).run.run ns₁).1
      ((Machine.compile program).run.run ns₂).1 ∧
    ∀ e ns', (Machine.compile program).run.run ns₁ = (.error e, ns') → ns' = ns₁ := by
  refine ⟨Pipeline.inStep_compile program ns₁ ns₂, ?_, ?_⟩
  · rw [Machine.run_compile, Machine.run_compile]
    cases Machine.ofProgram program with
    | error e => exact .error e
    | ok definition => exact .ok rfl
  · intro e ns' hrun
    rw [Machine.run_compile] at hrun
    cases hmade : Machine.ofProgram program <;> rw [hmade] at hrun <;> cases hrun
    rfl

def listed : SyntaxTree :=
  .function [.param "context"] [.eval (.call (.ref "charge") [.ident "context"]),
    .mk () (.forInStmt (.ident "key") (.ident "context") (.block []))]

def listedProgram (forest : Forest) (function : NodeId) : Program :=
  ⟨"order", forest, function, ⟨[("charge", ⟨.computeFunction, "charge", false⟩)], []⟩,
    fun _ => none, .default⟩

/-- Compiled twice for one namespace, the function gets two pipelines that differ in their names. -/
theorem Namespace.compile_independent_listed : ∃ root f p q ns ns',
    Forest.ofTree listed = .ok (root, f) ∧
    (Pipeline.compile (listedProgram f root)).run.run .empty = (.ok p, ns) ∧
    (Pipeline.compile (listedProgram f root)).run.run ns = (.ok q, ns') ∧ p ≠ q ∧
    p.unnamed = q.unnamed ∧
    ∃ e, (Machine.compile (listedProgram f root)).run.run ns = (.error e, ns) := by
  have heval : ((Forest.ofTree listed).toOption.any fun r =>
      match (Pipeline.compile (listedProgram r.2 r.1)).run.run .empty with
      | (.ok p, ns) =>
        (match ((Pipeline.compile (listedProgram r.2 r.1)).run.run ns).1 with
          | .ok q => decide (p ≠ q)
          | .error _ => false) &&
        match ((Machine.compile (listedProgram r.2 r.1)).run.run ns).1 with
          | .ok _ => false
          | .error _ => true
      | (.error _, _) => false) = true := by decide +kernel
  obtain ⟨root, f, low, hf, -⟩ := Forest.exists_ofTree listed
  rw [hf] at heval
  dsimp only [Except.toOption, Option.any_some] at heval
  cases hp : (Pipeline.compile (listedProgram f root)).run.run .empty with
  | mk first ns =>
    cases hq : (Pipeline.compile (listedProgram f root)).run.run ns with
    | mk second ns' =>
      cases hw : (Machine.compile (listedProgram f root)).run.run ns with
      | mk workflow ns'' =>
        obtain ⟨hpipelines, -, -⟩ := compile_independent (listedProgram f root) .empty ns
        obtain ⟨-, -, hkept⟩ := compile_independent (listedProgram f root) ns ns
        rw [hp, hq] at hpipelines
        rw [hp] at heval
        cases hpipelines with
        | error e => cases heval
        | @ok p q hpq =>
          simp only [hq, hw, Bool.and_eq_true, decide_eq_true_eq] at heval
          cases workflow with
          | ok made => cases heval.2
          | error e =>
            obtain rfl := hkept e ns'' hw
            exact ⟨root, f, p, q, ns'', ns', hf, hp, hq, heval.1, hpq, e, hw⟩

end ServiceFlow
