import ServiceFlow.Proofs.ConstantParts
import ServiceFlow.Proofs.StateDocuments
import ServiceFlow.Proofs.SuccessfulRuns
import ServiceFlow.Proofs.WholeNumbers

/-!
# Conditions say what expressions mean

Whenever an expression becomes the decision of a choice, the decision has the truth of the
expression on every document.
-/

namespace ServiceFlow.Machine

attribute [local simp] Node.children

section Meaning

variable (order : TextOrder) (document : Json)

/-- The value of a variable or of a member of it, undefined where it is absent. `none` if the
expression is not of this form. -/
def pathValue? : Term → Option (Option Json)
  | .mk _ (.identifier name) =>
    if name = "undefined" then none else some (select? (.key name) document)
  | .mk _ (.propertyAccess expression name _) =>
    (pathValue? expression).map fun value => value.bind (select? (.key name))
  | .mk _ (.elementAccess expression element _) =>
    (pathValue? expression).bind fun value =>
      match element.node with
      | .stringLiteral key => some (value.bind (select? (.key key)))
      | .numberLiteral n => n.index?.map fun i => value.bind (select? (.index i))
      | _ => none
  | _ => none
termination_by structural t => t

def literalValue? : Term → Option (Option Json)
  | .mk _ (.stringLiteral text) => some (some (.string text))
  | .mk _ (.numberLiteral n) => if n.isFinite then some (some (.number (.double n))) else none
  | .mk _ (.unaryExpr operator (.mk _ (.numberLiteral n))) =>
    if operator = .neg && (-n).isFinite then some (some (.number (.double (-n)))) else none
  | .mk _ (.booleanLiteral b) => some (some (.bool b))
  | .mk _ .nullLiteral => some (some .null)
  | .mk _ .undefinedLiteral => some none
  | _ => none

/-- The truth of a value. A number is false if it is zero; no JSON number is NaN. -/
def isTruthy : Option Json → Bool
  | none | some .null => false
  | some (.bool b) => b
  | some (.number n) => !n.toDouble.isZero
  | some (.string s) => !s.isEmpty
  | some (.array _) | some (.object _) => true

/-- The values `null` and `undefined`. -/
def isNullish : Option Json → Bool
  | none | some .null => true
  | _ => false

/-- Whether an operator accepts operands that compare in a way. Operands that are not ordered are
different. -/
def accepts : BinaryOp → Option Ordering → Bool
  | .eq, o | .strictEq, o => o == some .eq
  | .notEq, o | .strictNotEq, o => o != some .eq
  | .lt, o => o == some .lt
  | .ltEq, o => o == some .lt || o == some .eq
  | .gt, o => o == some .gt
  | .gtEq, o => o == some .gt || o == some .eq
  | _, _ => false

def testsEquality (op : BinaryOp) : Bool :=
  op = .eq || op = .notEq || op = .strictEq || op = .strictNotEq

/-- The comparison of values of one kind. -/
def compareValues? (op : BinaryOp) : Option Json → Option Json → Option Bool
  | some (.string a), some (.string b) => some (accepts op (some (order.compare a b)))
  | some (.number a), some (.number b) => some (accepts op (a.toDouble.compare? b.toDouble))
  | some (.bool a), some (.bool b) =>
    if testsEquality op then some (accepts op (if a = b then some .eq else none)) else none
  | _, _ => none

/-- Compare a value with null. Only null and undefined equal it, and only loosely. -/
def compareNull? (op : BinaryOp) (value : Option Json) : Option Bool :=
  if op = .eq then some (isNullish value)
  else if op = .notEq then some !isNullish value
  else none

def compared? (op : BinaryOp) (left right : Term) : Option Bool :=
  if op.isComparison then
    match pathValue? document left, literalValue? right with
    | some value, some literal =>
      if isNullish literal then compareNull? op value else compareValues? order op value literal
    | _, _ =>
      match literalValue? left, pathValue? document right with
      | some literal, some value =>
        if isNullish literal then compareNull? op value else compareValues? order op literal value
      | _, _ => none
  else none

/-- The truth of a condition in a document. -/
def truth? : Term → Option Bool
  | .mk _ (.booleanLiteral b) => some b
  | .mk _ (.unaryExpr operator operand) =>
    if operator = .not then (truth? operand).map (!·) else none
  | .mk _ (.binaryExpr left op right) =>
    if op = .and then (truth? left).bind fun l => if l then truth? right else some false
    else if op = .or then (truth? left).bind fun l => if l then some true else truth? right
    else compared? order document op left right
  | t => (pathValue? document t).map isTruthy
termination_by structural t => t

end Meaning

section Tests

variable {order : TextOrder} {document : Json}

@[simp] lemma eval?_test (path : Path) (test : Test) :
    (Condition.test path test).eval? order document =
      test.eval? order document (path.read? document) := by
  rw [Condition.eval?]

@[simp] lemma eval?_not (condition : Condition) :
    (Condition.not condition).eval? order document = (condition.eval? order document).map (!·) := by
  rw [Condition.eval?]

@[simp] lemma eval?_and (conditions : List Condition) :
    (Condition.and conditions).eval? order document = Condition.all? order document conditions := by
  rw [Condition.eval?]

@[simp] lemma eval?_or (conditions : List Condition) :
    (Condition.or conditions).eval? order document = Condition.any? order document conditions := by
  rw [Condition.eval?]

lemma eval?_negate (condition : Condition) :
    condition.negate.eval? order document = (condition.eval? order document).map (!·) := by
  cases condition with
  | not inner =>
    cases hinner : inner.eval? order document <;> simp [Condition.negate, hinner]
  | _ => simp [Condition.negate]

lemma value?_negate (d : Decision) :
    d.negate.value? order document = (d.value? order document).map (!·) := by
  cases d with
  | known value => rfl
  | rule condition => exact eval?_negate condition

variable {l r : Decision} {a b : Bool}

lemma value?_and (hl : l.value? order document = some a)
    (hr : a = true → r.value? order document = some b) :
    (l.and r).value? order document = some (a && b) := by
  cases l with
  | known value =>
    obtain rfl : value = a := Option.some.inj hl
    cases value with
    | false => rfl
    | true =>
      have hr := hr rfl
      cases r with
      | known value => cases value <;> exact hr
      | rule condition => exact hr
  | rule left =>
    have hl : left.eval? order document = some a := hl
    cases r with
    | known value =>
      cases a with
      | false => cases value <;> first | rfl | exact hl
      | true =>
        obtain rfl : value = b := Option.some.inj (hr rfl)
        cases value <;> first | rfl | exact hl
    | rule right =>
      cases a with
      | false => simp [Decision.and, Decision.value?, Condition.all?, hl]
      | true =>
        have hr : right.eval? order document = some b := hr rfl
        cases b <;> simp [Decision.and, Decision.value?, Condition.all?, hl, hr]

lemma value?_or (hl : l.value? order document = some a)
    (hr : a = false → r.value? order document = some b) :
    (l.or r).value? order document = some (a || b) := by
  cases l with
  | known value =>
    obtain rfl : value = a := Option.some.inj hl
    cases value with
    | true => rfl
    | false =>
      have hr := hr rfl
      cases r with
      | known value => cases value <;> exact hr
      | rule condition => exact hr
  | rule left =>
    have hl : left.eval? order document = some a := hl
    cases r with
    | known value =>
      cases a with
      | true => cases value <;> first | rfl | exact hl
      | false =>
        obtain rfl : value = b := Option.some.inj (hr rfl)
        cases value <;> first | rfl | exact hl
    | rule right =>
      cases a with
      | true => simp [Decision.or, Decision.value?, Condition.any?, hl]
      | false =>
        have hr : right.eval? order document = some b := hr rfl
        cases b <;> simp [Decision.or, Decision.value?, Condition.any?, hl, hr]

end Tests

section Operands

variable {order : TextOrder} {document : Json} {program : Program} {t : Term} {v : Option Json}

lemma follow?_push (reference : ReferencePath) (segment : Segment) :
    (select? (.key (reference.push segment).identity) document).bind
        (follow? (reference.push segment).path) =
      ((select? (.key reference.identity) document).bind (follow? reference.path)).bind
        (select? segment) := by
  simp only [ReferencePath.push]
  cases select? (.key reference.identity) document with
  | none => rfl
  | some value =>
    simp only [Option.bind_some, follow?_append]
    refine congrArg _ (funext fun value => ?_)
    cases hs : select? segment value <;> simp [follow?, hs]

lemma of?_of_pathValue? (h : pathValue? document t = some v) : ∃ reference,
    ReferencePath.of? t = some reference ∧ reference.identity ≠ "undefined" ∧
      (select? (.key reference.identity) document).bind (follow? reference.path) = v := by
  induction t using Tree.children_induction generalizing v with
  | step tag n ih =>
    cases n with
    | identifier name =>
      rw [pathValue?] at h
      split_ifs at h with hname
      cases h
      refine ⟨⟨name, tag, []⟩, rfl, hname, ?_⟩
      cases select? (.key name) document <;> rfl
    | propertyAccess expression name chained =>
      obtain ⟨base, hbase, rfl⟩ := Option.map_eq_some_iff.mp h
      obtain ⟨reference, hof, hname, rfl⟩ := ih expression (by simp) hbase
      refine ⟨reference.push (.key name), by simp [ReferencePath.of?, hof], hname, ?_⟩
      exact follow?_push _ _
    | elementAccess expression element chained =>
      obtain ⟨base, hbase, h⟩ := Option.bind_eq_some_iff.mp h
      obtain ⟨reference, hof, hname, rfl⟩ := ih expression (by simp) hbase
      obtain ⟨tag', key⟩ := element
      -- a key in brackets is a text or a position
      have hpush : ∀ segment, ReferencePath.segment? (.mk tag' key : Term) = some segment →
          ((select? (.key reference.identity) document).bind (follow? reference.path)).bind
            (select? segment) = v → ∃ reference', ReferencePath.of?
              (.mk tag (.elementAccess expression (.mk tag' key) chained)) = some reference' ∧
            reference'.identity ≠ "undefined" ∧ (select? (.key reference'.identity) document).bind
              (follow? reference'.path) = v := by
        intro segment hsegment hv
        refine ⟨reference.push segment, by simp [ReferencePath.of?, hof, hsegment], hname, ?_⟩
        exact (follow?_push _ _).trans hv
      cases key with
      | stringLiteral text =>
        cases h
        exact hpush _ rfl rfl
      | numberLiteral n =>
        obtain ⟨i, hi, rfl⟩ := Option.map_eq_some_iff.mp h
        exact hpush (.index i) (by simp [ReferencePath.segment?, hi]) rfl
      | _ => cases h
    | _ => cases h

lemma constant?_of_of? (references : References) {reference : ReferencePath}
    (h : ReferencePath.of? t = some reference) : t.constant? references = none := by
  induction t using Tree.children_induction generalizing reference with
  | step tag n ih =>
    cases n with
    | identifier name => simp only [Tree.constant?]
    | propertyAccess expression name chained =>
      obtain ⟨base, hbase, -⟩ := Option.bind_eq_some_iff.mp h
      rw [Tree.constant?, ih expression (by simp) hbase]
      rfl
    | elementAccess expression element chained =>
      obtain ⟨segment, -, h⟩ := Option.bind_eq_some_iff.mp h
      obtain ⟨base, hbase, -⟩ := Option.bind_eq_some_iff.mp h
      rw [Tree.constant?, ih expression (by simp) hbase]
      rfl
    | _ => cases h

lemma constant?_not (references : References) (tag : NodeId) (operand : Term) :
    Tree.constant? references (.mk tag (.unaryExpr .not operand)) = none := by
  rw [Tree.constant?]
  cases Tree.constant? references operand <;> rfl

variable {d : Data}

lemma nameData_eq_ok {id : NodeId} {name : String} (h : nameData id name = .ok d)
    (hname : name ≠ "undefined") : d = .path (.ofVariable name) := by
  unfold nameData at h
  split_ifs at h
  cases h
  rfl

lemma data_of_pathValue? (h : pathValue? document t = some v) (hd : data program t = .ok d) :
    (∃ path : Path, d = .path path ∧ path.read? document = v) ∨
      ∃ arguments, d = .call .arrayLength arguments := by
  obtain ⟨reference, hof, hname, hread⟩ := of?_of_pathValue? h
  have hc := constant?_of_of? program.references hof
  have hreference : ∀ {t : Term}, referenceData t reference = .ok d →
      (∃ path : Path, d = .path path ∧ path.read? document = v) ∨
        ∃ arguments, d = .call .arrayLength arguments := by
    intro t hd
    obtain ⟨root, hroot, hd⟩ := bind_eq_ok hd
    obtain rfl := nameData_eq_ok hroot hname
    dsimp only at hd
    split_ifs at hd
    · cases hd
      exact .inr ⟨_, rfl⟩
    · cases hd
      refine .inl ⟨_, rfl, ?_⟩
      rwa [read?_append _ _ _ rfl, read?_ofVariable]
  obtain ⟨tag, n⟩ := t
  cases n with
  | identifier name =>
    cases hof
    simp only [data, hc] at hd
    obtain rfl := nameData_eq_ok hd hname
    refine .inl ⟨_, rfl, ?_⟩
    rw [read?_ofVariable, ← hread]
    cases select? (.key name) document <;> rfl
  | propertyAccess expression name chained | elementAccess expression element chained =>
    simp only [data, hc, hof] at hd
    exact hreference hd
  | _ => cases hof

/-- The JSON value that a literal is compared as. -/
inductive Stands : Option Json → Json → Prop where
  | undefined : Stands none .null
  | null : Stands (some .null) .null
  | bool (b : Bool) : Stands (some (.bool b)) (.bool b)
  | string (text : String) : Stands (some (.string text)) (.string text)
  | number {d : Double} {n : JsonNumber} (h : ∀ x : Double, x.compare? n.toDouble = x.compare? d) :
    Stands (some (.number (.double d))) (.number n)

lemma stands_number {d : Double} (h : d.isFinite = true) :
    Stands (some (.number (.double d))) (Json.ofDouble d) := by
  obtain ⟨n, hn, hcompare⟩ := exists_ofDouble h
  rw [hn]
  exact .number hcompare

lemma data_of_literalValue? (program : Program) (h : literalValue? t = some v) :
    ∃ json, data program t = .ok (.literal json) ∧ Stands v json := by
  have hdata : ∀ {c}, t.constant? program.references = some c → Stands v c.toJson →
      ∃ json, data program t = .ok (.literal json) ∧ Stands v json := by
    intro c hc hstands
    refine ⟨c.toJson, ?_, hstands⟩
    unfold data
    rw [hc]
  unfold literalValue? at h
  split at h
  · cases h
    exact hdata rfl (.string _)
  · split_ifs at h with hfinite
    cases h
    exact hdata rfl (stands_number hfinite)
  · rename_i n
    split_ifs at h with hfinite
    cases h
    rw [Bool.and_eq_true, decide_eq_true_eq] at hfinite
    obtain ⟨rfl, hfinite⟩ := hfinite
    exact hdata (c := .number (-n)) rfl (stands_number hfinite)
  · cases h
    exact hdata rfl (.bool _)
  · cases h
    exact hdata rfl .null
  · cases h
    exact hdata rfl .undefined
  · cases h

end Operands

section Comparisons

variable {order : TextOrder} {document : Json} {op : BinaryOp} {relation : Relation}
  {negated b : Bool} {t : Term} {path : Path} {literal : Option Json} {json : Json}
  {condition : Condition}

def mirror : BinaryOp → BinaryOp
  | .lt => .gt
  | .ltEq => .gtEq
  | .gt => .lt
  | .gtEq => .ltEq
  | op => op

lemma exists_relation (h : op.isComparison = true) :
    ∃ relation negated, Relation.of? op = some (relation, negated) := by
  cases op <;> first | exact ⟨_, _, rfl⟩ | cases h

variable {left right : Term} {relation : Relation} {negated : Bool}

lemma isComparison_of_compared? (h : compared? order document op left right = some b) :
    op.isComparison = true := by
  by_contra hop
  rw [compared?, if_neg hop] at h
  cases h

lemma of?_mirror (h : Relation.of? op = some (relation, negated)) :
    Relation.of? (mirror op) = some (relation.flip, negated) := by
  cases op <;> cases h <;> rfl

lemma accepts_mirror (op : BinaryOp) (o : Option Ordering) :
    accepts (mirror op) (o.map Ordering.swap) = accepts op o := by
  rcases o with - | o
  · cases op <;> rfl
  · cases op <;> cases o <;> rfl

lemma compareNull?_mirror (op : BinaryOp) (value : Option Json) :
    compareNull? (mirror op) value = compareNull? op value := by
  cases op <;> rfl

lemma compareValues?_mirror (op : BinaryOp) (l r : Option Json) :
    compareValues? order (mirror op) r l = compareValues? order op l r := by
  have hequality : testsEquality (mirror op) = testsEquality op := by cases op <;> rfl
  rcases l with - | l
  · rcases r with - | r
    · rfl
    · cases r <;> rfl
  · rcases r with - | r
    · cases l <;> rfl
    · cases l with
      | string a =>
        cases r with
        | string b =>
          have hswap := accepts_mirror op (some (order.compare a b))
          rw [Option.map_some, ← order.swap] at hswap
          simp only [compareValues?, hswap]
        | _ => rfl
      | number a =>
        cases r with
        | number b =>
          simp only [compareValues?, Double.compare?_swap a.toDouble b.toDouble, accepts_mirror]
        | _ => rfl
      | bool a =>
        cases r with
        | bool b =>
          have hswap := accepts_mirror op (if a = b then some .eq else none)
          have hcompare : (if a = b then some Ordering.eq else none).map Ordering.swap =
              if b = a then some Ordering.eq else none := by
            cases a <;> cases b <;> rfl
          rw [hcompare] at hswap
          simp only [compareValues?, hequality, hswap]
        | _ => rfl
      | _ => cases r <;> rfl

lemma accepts_eq (h : Relation.of? op = some (relation, negated)) (o : Option Ordering) :
    accepts op o = (o.any relation.holds != negated) := by
  rcases o with - | o
  · cases op <;> cases h <;> rfl
  · cases op <;> cases h <;> cases o <;> rfl

lemma eval?_literalTest_null (order : TextOrder) (document : Json)
    (hstands : Stands literal json) (hnull : isNullish literal = true)
    (h : literalTest t relation path json = .ok condition) :
    relation = .equal ∧
      condition.eval? order document = some (isNullish (path.read? document)) := by
  obtain rfl : json = .null := by
    cases hstands with
    | undefined | null => rfl
    | _ => cases hnull
  by_cases hequal : relation = .equal
  · subst hequal
    cases h
    refine ⟨rfl, ?_⟩
    simp only [eval?_or, Condition.any?, eval?_test]
    cases path.read? document with
    | none => rfl
    | some value => cases value <;> rfl
  · simp [literalTest, hequal, refuse] at h

lemma eval?_literalTest (hop : Relation.of? op = some (relation, negated))
    (hstands : Stands literal json)
    (hvalues : compareValues? order op (path.read? document) literal = some b)
    (h : literalTest t relation path json = .ok condition) :
    (condition.eval? order document).map (· != negated) = some b := by
  unfold compareValues? at hvalues
  split at hvalues
  · rename_i hread
    cases hstands
    cases h
    cases hvalues
    rw [eval?_test, hread, accepts_eq hop]
    rfl
  · rename_i hread
    cases hstands with
    | @number d n hcompare =>
      have hdouble : (JsonNumber.double d).toDouble = d := rfl
      cases h
      cases hvalues
      rw [eval?_test, hread, accepts_eq hop]
      simp [Test.eval?, Test.ofValue?, relatesNumber, hcompare, hdouble]
  · rename_i a c hread
    cases hstands
    rw [accepts_eq hop] at hvalues
    by_cases hequal : relation = .equal
    · subst hequal
      cases h
      have hequality : testsEquality op = true := by
        by_contra hne
        rw [if_neg hne] at hvalues
        cases hvalues
      rw [if_pos hequality] at hvalues
      rw [eval?_test, hread, ← hvalues]
      cases a <;> cases c <;> rfl
    · simp [literalTest, hequal, refuse] at h
  · cases hvalues

lemma compareNull?_eq {value : Option Json} (hop : Relation.of? op = some (.equal, negated))
    (h : compareNull? op value = some b) : (isNullish value != negated) = b := by
  cases op <;> cases hop <;> simp [compareNull?] at h <;> simp [← h]

lemma value?_of_literalTest (hop : Relation.of? op = some (relation, negated))
    (hstands : Stands literal json)
    (htruth : (if isNullish literal then compareNull? op (path.read? document)
      else compareValues? order op (path.read? document) literal) = some b)
    (h : literalTest t relation path json = .ok condition) :
    (if negated then (Decision.rule condition).negate else .rule condition).value? order document =
      some b := by
  have heval : (condition.eval? order document).map (· != negated) = some b := by
    cases hnull : isNullish literal with
    | true =>
      rw [hnull, if_pos rfl] at htruth
      obtain ⟨rfl, heval⟩ := eval?_literalTest_null order document hstands hnull h
      rw [heval, Option.map_some, compareNull?_eq hop htruth]
    | false =>
      rw [hnull, if_neg Bool.false_ne_true] at htruth
      exact eval?_literalTest hop hstands htruth h
  cases negated with
  | true =>
    rw [if_pos rfl, value?_negate]
    simpa [Decision.value?] using heval
  | false => simpa [Decision.value?] using heval

end Comparisons

section Truth

variable {order : TextOrder} {document : Json}

lemma eval?_truthy (path : Path) :
    (truthy path).eval? order document = some (isTruthy (path.read? document)) := by
  simp only [truthy, bothTests, eval?_and, Condition.all?, eval?_test, eval?_negate, eval?_or,
    Condition.any?]
  cases path.read? document with
  | none => rfl
  | some value =>
    cases value with
    | null => rfl
    | bool b => cases b <;> rfl
    | string s =>
      have hempty : (order.compare s "" == .eq) = s.isEmpty := by
        rw [Bool.eq_iff_iff, beq_iff_eq, order.eq_iff, String.isEmpty_iff]
      have hrelates : relatesText order .equal (.string s) (.string "") = s.isEmpty := hempty
      cases hs : s.isEmpty <;>
        simp [Test.eval?, Test.ofValue?, hrelates, isTruthy, hs, relatesNumber, sameTruth]
    | number n =>
      have hrelates : relatesNumber .equal (.number n) (.number (.int 0)) = n.toDouble.isZero :=
        Double.compare?_ofInt_zero n.toDouble
      cases hn : n.toDouble.isZero <;>
        simp [Test.eval?, Test.ofValue?, hrelates, isTruthy, hn, relatesText, sameTruth]
    | array items => rfl
    | object entries => rfl

variable {program : Program} {t : Term} {b : Bool} {d : Decision}

lemma value?_of_compared? {op : BinaryOp} (htruth : compared? order document op left right = some b)
    (hop : Relation.of? op = some (relation, negated)) {l r : Data} (hl : data program left = .ok l)
    (hr : data program right = .ok r) (hd : comparison t relation l r = .ok d) :
    (if negated then d.negate else d).value? order document = some b := by
  unfold compared? at htruth
  split_ifs at htruth
  split at htruth
  · rename_i value literal hvalue hliteral
    obtain ⟨json, hjson, hstands⟩ := data_of_literalValue? program hliteral
    cases hr.symm.trans hjson
    rcases data_of_pathValue? hvalue hl with ⟨path, rfl, rfl⟩ | ⟨arguments, rfl⟩
    · obtain ⟨condition, hc, hd⟩ := bind_eq_ok hd
      cases hd
      exact value?_of_literalTest hop hstands htruth hc
    · cases hd
  · split at htruth
    · rename_i literal value hliteral hvalue
      obtain ⟨json, hjson, hstands⟩ := data_of_literalValue? program hliteral
      cases hl.symm.trans hjson
      rcases data_of_pathValue? hvalue hr with ⟨path, rfl, rfl⟩ | ⟨arguments, rfl⟩
      · obtain ⟨condition, hc, hd⟩ := bind_eq_ok hd
        cases hd
        rw [← compareNull?_mirror, ← compareValues?_mirror] at htruth
        exact value?_of_literalTest (of?_mirror hop) hstands htruth hc
      · cases hd
    · cases htruth

lemma value?_of_pathValue? {v : Option Json} (hv : pathValue? document t = some v)
    (hd : decision program t = .ok d) : d.value? order document = some (isTruthy v) := by
  obtain ⟨reference, hof, -⟩ := of?_of_pathValue? hv
  have hc := constant?_of_of? program.references hof
  have hrun : (data program t >>= truthDecision t) = .ok d := by
    obtain ⟨tag, n⟩ := t
    cases n with
    | identifier | propertyAccess | elementAccess =>
      simp only [decision, hc] at hd
      exact hd
    | _ => cases hof
  obtain ⟨value, hvalue, hrun⟩ := bind_eq_ok hrun
  rcases data_of_pathValue? hv hvalue with ⟨path, rfl, rfl⟩ | ⟨arguments, rfl⟩
  · cases hrun
    exact eval?_truthy path
  · cases hrun

lemma value?_of_truth? (htruth : truth? order document t = some b)
    (hd : decision program t = .ok d) : d.value? order document = some b := by
  induction t using Tree.children_induction generalizing b d with
  | step tag n ih =>
    cases n with
    | booleanLiteral value =>
      cases htruth
      cases hd
      rfl
    | unaryExpr operator operand =>
      rw [truth?] at htruth
      split_ifs at htruth with hnot
      subst hnot
      obtain ⟨inner, hinner, rfl⟩ := Option.map_eq_some_iff.mp htruth
      simp only [decision, constant?_not, if_true] at hd
      obtain ⟨operandDecision, hoperand, hd⟩ := bind_eq_ok hd
      cases hd
      rw [value?_negate, ih operand (by simp) hinner hoperand]
      rfl
    | binaryExpr left op right =>
      have hc : Tree.constant? program.references (.mk tag (.binaryExpr left op right)) = none := by
        simp only [Tree.constant?]
      have hleft := @ih left (by simp)
      have hright := @ih right (by simp)
      simp only [decision, hc] at hd
      rw [truth?] at htruth
      split_ifs at htruth hd with hand hor
      · obtain ⟨l, hl, hd⟩ := bind_eq_ok hd
        obtain ⟨r, hr, hd⟩ := bind_eq_ok hd
        cases hd
        obtain ⟨a, ha, htruth⟩ := Option.bind_eq_some_iff.mp htruth
        cases a with
        | true => exact value?_and (hleft ha hl) fun _ => hright htruth hr
        | false =>
          cases htruth
          exact value?_and (b := false) (hleft ha hl) Bool.noConfusion
      · obtain ⟨l, hl, hd⟩ := bind_eq_ok hd
        obtain ⟨r, hr, hd⟩ := bind_eq_ok hd
        cases hd
        obtain ⟨a, ha, htruth⟩ := Option.bind_eq_some_iff.mp htruth
        cases a with
        | false => exact value?_or (hleft ha hl) fun _ => hright htruth hr
        | true =>
          cases htruth
          exact value?_or (b := true) (hleft ha hl) Bool.noConfusion
      · obtain ⟨relation, negated, hop⟩ := exists_relation (isComparison_of_compared? htruth)
        rw [hop] at hd
        obtain ⟨l, hl, hd⟩ := bind_eq_ok hd
        obtain ⟨r, hr, hd⟩ := bind_eq_ok hd
        obtain ⟨result, hresult, hd⟩ := bind_eq_ok hd
        cases hd
        exact value?_of_compared? htruth hop hl hr hresult
    | identifier | propertyAccess | elementAccess =>
      obtain ⟨v, hv, rfl⟩ := Option.map_eq_some_iff.mp htruth
      exact value?_of_pathValue? hv hd
    | _ => cases htruth

end Truth

section Success

variable {program : Program} {t : Term}

/-- A path that is read as it is. -/
def isPlainPath (t : Term) : Bool :=
  (ReferencePath.of? t).any fun reference =>
    reference.identity != utilName && reference.identity != intrinsicsName &&
    reference.identity != "undefined" && reference.path.getLast? != some (.key "length")

/-- A literal that can stand in a comparison: only texts and numbers are ordered. -/
def fitsLiteral (op : BinaryOp) : Option Json → Bool
  | some (.string _) | some (.number _) => op.isComparison
  | _ => testsEquality op

def isTestable : Term → Bool
  | .mk _ (.booleanLiteral _) => true
  | .mk _ (.unaryExpr operator operand) => operator = .not && isTestable operand
  | .mk _ (.binaryExpr left op right) =>
    if op = .and || op = .or then isTestable left && isTestable right
    else isPlainPath left && (literalValue? right).any (fitsLiteral op) ||
      (literalValue? left).any (fitsLiteral op) && isPlainPath right
  | t => isPlainPath t
termination_by structural t => t

lemma data_of_isPlainPath (program : Program) (h : isPlainPath t = true) :
    t.constant? program.references = none ∧ ∃ path, data program t = .ok (.path path) := by
  obtain ⟨reference, hof, hplain⟩ := (Option.any_eq_true _ _).mp h
  simp only [Bool.and_eq_true, bne_iff_ne] at hplain
  obtain ⟨⟨⟨hutil, hintrinsics⟩, hundefined⟩, hlength⟩ := hplain
  have hc := constant?_of_of? program.references hof
  have hname : ∀ id, nameData id reference.identity =
      .ok (.path (.ofVariable reference.identity)) := by
    intro id
    rw [nameData, if_neg hutil, if_neg hintrinsics, if_neg hundefined]
  have hreference : ∀ t : Term, ∃ path, referenceData t reference = .ok (.path path) := by
    intro t
    refine ⟨(Path.ofVariable reference.identity).append reference.path, ?_⟩
    rw [referenceData, hname]
    exact if_neg hlength
  refine ⟨hc, ?_⟩
  obtain ⟨tag, n⟩ := t
  cases n with
  | identifier name =>
    cases hof
    simp only [data, hc]
    exact ⟨_, hname tag⟩
  | propertyAccess | elementAccess =>
    simp only [data, hc, hof]
    exact hreference _
  | _ => cases hof

lemma fitsLiteral_mirror (op : BinaryOp) (literal : Option Json) :
    fitsLiteral (mirror op) literal = fitsLiteral op literal := by
  have hcomparison : (mirror op).isComparison = op.isComparison := by cases op <;> rfl
  have hequality : testsEquality (mirror op) = testsEquality op := by cases op <;> rfl
  unfold fitsLiteral
  rw [hcomparison, hequality]

variable {op : BinaryOp} {literal : Option Json}

lemma literalTest_of_fitsLiteral (t : Term) (hop : Relation.of? op = some (relation, negated))
    {json : Json} (hstands : Stands literal json) (hfits : fitsLiteral op literal = true)
    (path : Path) : ∃ condition, literalTest t relation path json = .ok condition := by
  have hequal : testsEquality op = true → relation = .equal := by
    intro hequality
    cases op <;> first | (cases hop; rfl) | cases hequality
  cases hstands with
  | string | number => exact ⟨_, rfl⟩
  | _ =>
    obtain rfl := hequal hfits
    exact ⟨_, rfl⟩

lemma isComparison_of_fitsLiteral (h : fitsLiteral op literal = true) : op.isComparison = true := by
  have hequality : testsEquality op = true → op.isComparison = true := by
    cases op <;> first | exact fun _ => rfl | exact Bool.noConfusion
  unfold fitsLiteral at h
  split at h
  · exact h
  · exact h
  · exact hequality h

lemma exists_comparison (program : Program) (t : Term)
    (h : (isPlainPath left && (literalValue? right).any (fitsLiteral op) ||
      (literalValue? left).any (fitsLiteral op) && isPlainPath right) = true) :
    ∃ relation negated l r result, Relation.of? op = some (relation, negated) ∧
      data program left = .ok l ∧ data program right = .ok r ∧
      comparison t relation l r = .ok result := by
  simp only [Bool.or_eq_true, Bool.and_eq_true] at h
  rcases h with ⟨hpath, hliteral⟩ | ⟨hliteral, hpath⟩
  · obtain ⟨literal, hvalue, hfits⟩ := (Option.any_eq_true _ _).mp hliteral
    obtain ⟨-, path, hpath⟩ := data_of_isPlainPath program hpath
    obtain ⟨json, hjson, hstands⟩ := data_of_literalValue? program hvalue
    obtain ⟨relation, negated, hop⟩ := exists_relation (isComparison_of_fitsLiteral hfits)
    obtain ⟨condition, hcondition⟩ := literalTest_of_fitsLiteral t hop hstands hfits path
    refine ⟨relation, negated, _, _, .rule condition, hop, hpath, hjson, ?_⟩
    rw [comparison, hcondition]
    rfl
  · obtain ⟨literal, hvalue, hfits⟩ := (Option.any_eq_true _ _).mp hliteral
    obtain ⟨-, path, hpath⟩ := data_of_isPlainPath program hpath
    obtain ⟨json, hjson, hstands⟩ := data_of_literalValue? program hvalue
    obtain ⟨relation, negated, hop⟩ := exists_relation (isComparison_of_fitsLiteral hfits)
    rw [← fitsLiteral_mirror] at hfits
    obtain ⟨condition, hcondition⟩ :=
      literalTest_of_fitsLiteral t (of?_mirror hop) hstands hfits path
    refine ⟨relation, negated, _, _, .rule condition, hop, hjson, hpath, ?_⟩
    rw [comparison, hcondition]
    rfl

lemma exists_decision (program : Program) (h : isTestable t = true) :
    ∃ d, decision program t = .ok d := by
  induction t using Tree.children_induction with
  | step tag n ih =>
    cases n with
    | booleanLiteral value => exact ⟨_, rfl⟩
    | unaryExpr operator operand =>
      rw [isTestable, Bool.and_eq_true, decide_eq_true_eq] at h
      obtain ⟨rfl, hoperand⟩ := h
      obtain ⟨d, hd⟩ := ih operand (by simp) hoperand
      refine ⟨d.negate, ?_⟩
      simp only [decision, constant?_not, if_true, hd]
      rfl
    | binaryExpr left op right =>
      have hc : Tree.constant? program.references (.mk tag (.binaryExpr left op right)) = none := by
        simp only [Tree.constant?]
      rw [isTestable] at h
      split_ifs at h with hlogical
      · rw [Bool.and_eq_true] at h
        obtain ⟨l, hl⟩ := ih left (by simp) h.1
        obtain ⟨r, hr⟩ := ih right (by simp) h.2
        simp only [decision, hc, hl, hr]
        split_ifs with hand hor
        · exact ⟨_, rfl⟩
        · exact ⟨_, rfl⟩
        · simp [hand, hor] at hlogical
      · simp only [Bool.or_eq_true, decide_eq_true_eq, not_or] at hlogical
        simp only [decision, hc, if_neg hlogical.1, if_neg hlogical.2]
        obtain ⟨relation, negated, l, r, result, hop, hl, hr, hresult⟩ :=
          exists_comparison program (.mk tag (.binaryExpr left op right)) h
        rw [hop, hl, hr]
        refine ⟨if negated then result.negate else result, ?_⟩
        exact congrArg (· >>= fun d => pure (if negated then d.negate else d)) hresult
    | identifier | propertyAccess | elementAccess =>
      obtain ⟨hc, path, hpath⟩ := data_of_isPlainPath program h
      refine ⟨.rule (truthy path), ?_⟩
      simp only [decision, hc, hpath]
      rfl
    | _ => cases h

end Success

/-- Every testable expression becomes a decision, and the decision of an expression is, on every
document where the expression has a truth, that truth. -/
theorem decision_computes_truth (order : TextOrder) (program : Program) (document : Json)
    (t : Term) :
    (isTestable t = true → ∃ d, decision program t = .ok d) ∧
      ∀ b d, truth? order document t = some b → decision program t = .ok d →
        d.value? order document = some b :=
  ⟨exists_decision program, fun _ _ => value?_of_truth?⟩

section Discount

/-- `!(cart.total >= 2.5) && (note != null || "b" > cart["name"])` -/
def discountApplies : Term :=
  .mk 0 (.binaryExpr
    (.mk 1 (.unaryExpr .not (.mk 2 (.binaryExpr
      (.mk 3 (.propertyAccess (.mk 4 (.identifier "cart")) "total" false)) .gtEq
      (.mk 5 (.numberLiteral (Double.ofRatio false 5 2)))))))
    .and
    (.mk 6 (.binaryExpr
      (.mk 7 (.binaryExpr (.mk 8 (.identifier "note")) .notEq (.mk 9 .nullLiteral))) .or
      (.mk 10 (.binaryExpr (.mk 11 (.stringLiteral "b")) .gt
        (.mk 12 (.elementAccess (.mk 13 (.identifier "cart")) (.mk 14 (.stringLiteral "name"))
          false)))))))

def smallCart : Json :=
  .object [("cart", .object [("total", .number (.int 2)), ("name", .string "a")])]

theorem decision_computes_truth_discountApplies :
    isTestable discountApplies = true ∧
      truth? .byCharacters smallCart discountApplies = some true ∧
      ∃ d, decision ⟨"discount", .empty, 0, ⟨[], []⟩, fun _ => none, ⟨"", 0, 40, false⟩⟩
        discountApplies = .ok d ∧ d.value? .byCharacters smallCart = some true := by
  have htestable : isTestable discountApplies = true := by decide +kernel
  have htruth : truth? .byCharacters smallCart discountApplies = some true := by decide +kernel
  have hcomputes := decision_computes_truth .byCharacters
    ⟨"discount", .empty, 0, ⟨[], []⟩, fun _ => none, ⟨"", 0, 40, false⟩⟩ smallCart discountApplies
  obtain ⟨d, hd⟩ := hcomputes.1 htestable
  exact ⟨htestable, htruth, d, hd, hcomputes.2 true d htruth hd⟩

end Discount

end ServiceFlow.Machine
