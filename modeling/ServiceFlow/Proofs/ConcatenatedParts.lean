import ServiceFlow.Proofs.ComposedExpressions

/-!
# Parts of concatenations

An addition with a text among its operands joins texts. The interpolated string takes sums apart, so
it has the summands as its parts exactly if none is a sum.
-/

namespace ServiceFlow.Template

open List

variable {env : Env} {t : Term}

/-- A sum. -/
def isAddition : Term → Bool
  | .mk _ (.binaryExpr _ .add _) => true
  | _ => false

/-- What a concatenation joins. An addition that joins no texts is one summand. -/
def summands (env : Env) : Term → List Term
  | .mk id (.binaryExpr left op right) =>
    if op = .add && (isStringy env left || isStringy env right) then
      summands env left ++ summands env right
    else [.mk id (.binaryExpr left op right)]
  | t => [t]
termination_by structural t => t

section Summands

lemma concatParts_of_isAddition_eq_false (h : isAddition t = false) :
    concatParts t = [.term t] := by
  fun_cases concatParts t with
  | case1 id left right => cases h
  | case2 | case3 => rfl

lemma concatParts_ne_nil (t : Term) : concatParts t ≠ [] := by
  fun_induction concatParts t with
  | case1 id left right hleft hright => exact append_ne_nil_of_left_ne_nil hleft _
  | case2 | case3 => exact cons_ne_nil _ _

lemma exists_of_isAddition (h : isAddition t = true) :
    ∃ id left right, t = .mk id (.binaryExpr left .add right) := by
  obtain ⟨id, n⟩ := t
  cases n with
  | binaryExpr left op right =>
    cases op with
    | add => exact ⟨id, left, right, rfl⟩
    | _ => cases h
  | _ => cases h

lemma two_le_length_concatParts (h : isAddition t = true) : 2 ≤ (concatParts t).length := by
  obtain ⟨id, left, right, rfl⟩ := exists_of_isAddition h
  have hleft := length_pos_iff.mpr (concatParts_ne_nil left)
  have hright := length_pos_iff.mpr (concatParts_ne_nil right)
  rw [concatParts, if_pos rfl, length_append]
  omega

lemma flatMap_concatParts_summands (env : Env) (t : Term) :
    (summands env t).flatMap concatParts = concatParts t := by
  fun_induction summands env t with
  | case1 id left op right hstringy hleft hright =>
    obtain ⟨hop, -⟩ := Bool.and_eq_true_iff.mp hstringy
    obtain rfl := of_decide_eq_true hop
    rw [flatMap_append, hleft, hright, concatParts, if_pos rfl]
  | case2 | case3 => rw [flatMap_singleton]

lemma isStringy_of_mem_summands {s : Term} (hs : s ∈ summands env t) (h : isAddition s = true) :
    isStringy env s = false := by
  fun_induction summands env t with
  | case1 id left op right hstringy hleft hright =>
    rcases mem_append.mp hs with hs | hs
    · exact hleft hs
    · exact hright hs
  | case2 id left op right hnot =>
    obtain rfl := mem_singleton.mp hs
    obtain ⟨id', left', right', heq⟩ := exists_of_isAddition h
    cases heq
    simpa [isStringy] using hnot
  | case3 t hne =>
    obtain rfl := mem_singleton.mp hs
    obtain ⟨id, left, right, rfl⟩ := exists_of_isAddition h
    exact absurd rfl (hne id left .add right)

lemma length_le_flatMap_concatParts (ts : List Term) :
    ts.length ≤ (ts.flatMap concatParts).length := by
  induction ts with
  | nil => exact Nat.le_refl 0
  | cons s ts ih =>
    have hpos := length_pos_iff.mpr (concatParts_ne_nil s)
    rw [flatMap_cons, length_append, length_cons]
    omega

lemma flatMap_concatParts_eq_iff (ts : List Term) :
    ts.flatMap concatParts = ts.map .term ↔ ∀ s ∈ ts, isAddition s = false := by
  induction ts with
  | nil => simp
  | cons s ts ih =>
    rw [flatMap_cons, map_cons, forall_mem_cons]
    cases hs : isAddition s with
    | false =>
      rw [concatParts_of_isAddition_eq_false hs, singleton_append, cons.injEq]
      simp [ih]
    | true =>
      -- There would be a part more than there are summands.
      have htwo := two_le_length_concatParts hs
      have hrest := length_le_flatMap_concatParts ts
      refine iff_of_false (fun heq => ?_) (by simp)
      have hlength := congrArg length heq
      rw [length_append, length_cons, length_map] at hlength
      omega

end Summands

lemma expression_concatenation {id : NodeId} {left right : Term}
    (h : (isStringy env left || isStringy env right) = true) :
    expression env (.mk id (.binaryExpr left .add right)) =
      interpolate env (expression env) (concatParts (.mk id (.binaryExpr left .add right))) := by
  have hconstant : Tree.constant? env.references
      (.mk id (.binaryExpr left .add right) : Term) = none := rfl
  rw [expression_eq, node, hconstant, concatParts, if_pos rfl]
  simp only [Tree.node, binary, h, decide_true, Bool.true_and, if_true]

/-- A concatenation interpolates the parts of its summands, in order. A summand that is not an
addition is one part. A sum is split into at least two, so the parts are the summands exactly if
there is no sum among them. -/
theorem concatenation_splits_sums (env : Env) (id : NodeId) {left right : Term}
    (h : (isStringy env left || isStringy env right) = true) :
    let t : Term := .mk id (.binaryExpr left .add right)
    expression env t = interpolate env (expression env) ((summands env t).flatMap concatParts) ∧
    (∀ s ∈ summands env t, isAddition s = false → concatParts s = [.term s]) ∧
    (∀ s ∈ summands env t, isAddition s = true →
      isStringy env s = false ∧ 2 ≤ (concatParts s).length) ∧
    ((summands env t).flatMap concatParts = (summands env t).map .term ↔
      ∀ s ∈ summands env t, isAddition s = false) := by
  intro t
  refine ⟨?_, ?_, ?_, flatMap_concatParts_eq_iff _⟩
  · rw [flatMap_concatParts_summands]
    exact expression_concatenation h
  · intro s _ hs
    exact concatParts_of_isAddition_eq_false hs
  · intro s hmem hs
    exact ⟨isStringy_of_mem_summands hmem hs, two_le_length_concatParts hs⟩

section Runs

/-- An environment without services. -/
def plainEnv : Env where
  registry := .empty
  references := noReferences
  settings := .default
  context := some "ctx"
  stashed := false
  returnsDirectly := true
  loopVariables := []

def contextField (id : NodeId) (name : String) : Term :=
  .mk id (.propertyAccess (.mk id (.identifier "ctx")) name false)

def fieldSum : Term := .mk 0 (.binaryExpr (contextField 1 "a") .add (contextField 2 "b"))

def markText : Term := .mk 3 (.stringLiteral "x")

/-- In a text, the sum of two fields becomes their two texts; in a template it stays a sum. -/
theorem sum_split_before_text :
    ((expression plainEnv (.mk 4 (.binaryExpr fieldSum .add markText))).run ⟨0, 0⟩ =
      .ok (⟨[], "\"$\x7bcontext.a\x7d$\x7bcontext.b\x7dx\""⟩, ⟨0, 0⟩)) ∧
    ((expression plainEnv (.mk 4 (.templateExpr "" [⟨fieldSum, "x"⟩]))).run ⟨0, 0⟩ =
      .ok (⟨[line (.assign "$v0" "($context.a + $context.b)")], "\"$\x7bv0\x7dx\""⟩, ⟨1, 0⟩)) := by
  decide +kernel

theorem concatenation_splits_sums_fieldSum :
    (isStringy plainEnv fieldSum || isStringy plainEnv markText) = true ∧
    (summands plainEnv (.mk 4 (.binaryExpr fieldSum .add markText))) = [fieldSum, markText] ∧
    2 ≤ (concatParts fieldSum).length ∧
    (summands plainEnv (.mk 4 (.binaryExpr fieldSum .add markText))).flatMap concatParts ≠
      (summands plainEnv (.mk 4 (.binaryExpr fieldSum .add markText))).map .term := by
  have hstringy : (isStringy plainEnv fieldSum || isStringy plainEnv markText) = true := by decide
  have hsummands : summands plainEnv (.mk 4 (.binaryExpr fieldSum .add markText)) =
      [fieldSum, markText] := rfl
  obtain ⟨-, -, hsum, hiff⟩ := concatenation_splits_sums plainEnv 4 hstringy
  have hmem : fieldSum ∈ summands plainEnv (.mk 4 (.binaryExpr fieldSum .add markText)) := by
    rw [hsummands]
    exact mem_cons_self
  refine ⟨hstringy, hsummands, (hsum fieldSum hmem rfl).2, fun heq => ?_⟩
  have hnot := hiff.mp heq fieldSum hmem
  cases hnot

end Runs

end ServiceFlow.Template
