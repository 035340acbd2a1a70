import Mathlib.Data.List.Forall2
import Mathlib.Tactic.Common
import ServiceFlow.Program
import ServiceFlow.Proofs.ShortTrees

/-!
# Successful runs

A computation that gives a result is taken apart: each of its steps gave one too.
-/

namespace ServiceFlow

variable {ε σ α β : Type} {x : Except ε α} {b : β} {s s' : σ} {k : α → StateT σ (Except ε) β}
  {g : α → Except ε β} {xs : List α} {ys : List β}

lemma bind_eq_ok {k : α → Except ε β} (h : x >>= k = .ok b) : ∃ a, x = .ok a ∧ k a = .ok b := by
  cases x with
  | error e => cases h
  | ok a => exact ⟨a, rfl, h⟩

lemma run_bind_eq_ok {x : StateT σ (Except ε) α} (h : (x >>= k).run s = .ok (b, s')) :
    ∃ a s₁, x.run s = .ok (a, s₁) ∧ (k a).run s₁ = .ok (b, s') := by
  obtain ⟨⟨a, s₁⟩, hx, hk⟩ := bind_eq_ok h
  exact ⟨a, s₁, hx, hk⟩

lemma run_lift_eq_ok {a : α} (h : (liftM x : StateT σ (Except ε) α).run s = .ok (a, s')) :
    x = .ok a ∧ s' = s := by
  cases x with
  | error e => cases h
  | ok b =>
    cases h
    exact ⟨rfl, rfl⟩

lemma run_bind_lift_eq_ok (h : ((liftM x : StateT σ (Except ε) α) >>= k).run s = .ok (b, s')) :
    ∃ a, x = .ok a ∧ (k a).run s = .ok (b, s') := by
  obtain ⟨a, s₁, hrun, hk⟩ := run_bind_eq_ok h
  obtain ⟨hx, rfl⟩ := run_lift_eq_ok hrun
  exact ⟨a, hx, hk⟩

lemma mapM_eq_ok_iff : xs.mapM g = .ok ys ↔ List.Forall₂ (fun x y => g x = .ok y) xs ys := by
  induction xs generalizing ys with
  | nil => simp [pure, Except.pure, eq_comm]
  | cons x xs ih =>
    rw [List.mapM_cons, List.forall₂_cons_left_iff]
    simp only [← ih]
    cases g x <;> cases xs.mapM g <;> simp [Bind.bind, Except.bind, pure, Except.pure, eq_comm]

lemma exists_of_mapM_ok (h : xs.mapM g = .ok ys) : ∀ x ∈ xs, ∃ y, g x = .ok y := by
  rw [mapM_eq_ok_iff] at h
  induction h with
  | nil => simp
  | cons hx _ ih => simpa using ⟨⟨_, hx⟩, ih⟩

lemma Tree.callSite?_eq_ok {registry : Registry} {t : Term} {site : CallSite}
    (h : t.callSite? registry = .ok (some site)) :
    (stripAccessors [] t).2.serviceCall? registry = .ok (some site.call) ∧
      site.accessors = (stripAccessors [] t).1 := by
  obtain ⟨call, hcall, h⟩ := bind_eq_ok h
  cases call with
  | none => cases h
  | some call =>
    cases h
    exact ⟨hcall, rfl⟩

/-- Evaluation of a compiled function shows that it compiles, and what its result is like. -/
lemma exists_compiled (compile : Program → Allocate α) (make : Forest → NodeId → Program)
    (tree : SyntaxTree) (P : Program → α → Prop) [∀ program a, Decidable (P program a)]
    (h : (Forest.ofTree tree).toOption.any (fun built =>
      ((compile (make built.2 built.1)).run.run .empty).1.toOption.any
        fun a => P (make built.2 built.1) a) = true) :
    ∃ root f a after, Forest.ofTree tree = .ok (root, f) ∧
      (compile (make f root)).run.run .empty = (.ok a, after) ∧ P (make f root) a := by
  cases hf : Forest.ofTree tree with
  | error e =>
    rw [hf] at h
    cases h
  | ok built =>
    obtain ⟨root, f⟩ := built
    rw [hf] at h
    cases hcompile : ((compile (make f root)).run.run .empty).1 with
    | error e => simp [Except.toOption, hcompile] at h
    | ok a =>
      simp only [Except.toOption, hcompile, Option.any_some, decide_eq_true_eq] at h
      exact ⟨root, f, a, _, rfl, Prod.ext hcompile rfl, h⟩

end ServiceFlow
