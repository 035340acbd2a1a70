import ServiceFlow.Flatten.Basic
import ServiceFlow.Proofs.ConstantParts
import ServiceFlow.Proofs.ForestAdditions

/-!
# Flattening as a function on trees

`Folding.flat` flattens a term to a tree, without a forest. Flattening in a forest follows it.
-/

namespace ServiceFlow

open ServiceFlow.Tree List

attribute [local simp] Tree.node Node.children

namespace Tree

variable {α : Type}

lemma staticKey?_untag (t : Tree α) : t.untag.staticKey? = t.staticKey? := by
  obtain ⟨tag, n⟩ := t
  rw [untag_mk]
  cases n with
  | computedPropertyName expression =>
    obtain ⟨tag', n⟩ := expression
    rw [Node.map, untag_mk]
    cases n <;> rfl
  | _ => rfl

end Tree

namespace Flatten

variable {α β : Type}

lemma MemberKey.of?_untag (t : Tree α) : MemberKey.of? t.untag = MemberKey.of? t := by
  obtain ⟨tag, n⟩ := t
  rw [untag_mk]
  cases n <;> rfl

def Lookup.map (g : Tree α → Tree β) : Lookup α → Lookup β
  | .found value => .found (g value)
  | .count n => .count n
  | .unknown => .unknown
  | .missing name => .missing name
  | .fault reason => .fault reason

lemma property?_untag (name : String) (found : Option (Tree α)) (properties : List (Tree α)) :
    property? name (found.map untag) (properties.map untag) =
      (property? name found properties).map untag := by
  induction properties generalizing found with
  | nil => cases found <;> rfl
  | cons t rest ih =>
    obtain ⟨tag, n⟩ := t
    rw [map_cons, untag_mk]
    cases n with
    | propertyAssignment key value =>
      rw [Node.map, property?, property?, staticKey?_untag]
      cases key.staticKey? with
      | none => rfl
      | some k =>
        simp only
        rw [← ih]
        split_ifs <;> rfl
    | _ => rfl

lemma lookup_untag (base : Tree α) (key : MemberKey) :
    lookup base.untag key = (lookup base key).map untag := by
  obtain ⟨tag, n⟩ := base
  rw [untag_mk]
  cases n with
  | objectLiteral properties =>
    cases key with
    | name name => exact property?_untag name none properties
    | index n => rfl
  | arrayLiteral elements =>
    cases key with
    | name name =>
      simp only [Node.map, lookup, length_map]
      split_ifs <;> rfl
    | index n =>
      simp only [Node.map, lookup, getElem?_map]
      cases hindex : n.index? with
      | none => rfl
      | some i =>
        simp only [Option.bind_some]
        cases elements[i]? <;> rfl
  | stringLiteral value =>
    cases key with
    | name name =>
      simp only [Node.map, lookup]
      split_ifs <;> rfl
    | index n => rfl
  | _ => cases key <;> rfl

end Flatten

namespace Folding

open Flatten (MemberKey lookup)

abbrev Scope := String → Option SyntaxTree

/-- A property of an object that is being flattened. -/
inductive Piece where
  | named (key : String) (value : SyntaxTree)
  | computed (name value : SyntaxTree)
  | verbatim (tree : SyntaxTree)

def Piece.tree : Piece → SyntaxTree
  | .named key value => .mk () (.propertyAssignment (.mk () (Constant.keyNode key)) value)
  | .computed name value => .mk () (.propertyAssignment name value)
  | .verbatim tree => tree

def putPiece (key : String) (value : SyntaxTree) : List Piece → List Piece
  | [] => [.named key value]
  | .named k v :: rest =>
    if k = key then .named key value :: rest else .named k v :: putPiece key value rest
  | piece :: rest => piece :: putPiece key value rest

/-- One more piece. -/
def place (pieces : List Piece) : Piece → List Piece
  | .named key value => putPiece key value pieces
  | piece => pieces ++ [piece]

def merge (pieces : List Piece) : List Piece := pieces.foldl place []

def splice : SyntaxTree → Piece
  | .mk _ (.propertyAssignment name value) =>
    match name.staticKey? with
    | some key => .named key value
    | none => .computed name value
  | t => .verbatim t

def keyed (name value : SyntaxTree) : Piece :=
  match name.staticKey? with
  | some key => .named key value
  | none => .computed (.mk () (.computedPropertyName name)) value

section Go

variable (go : Term → Except NodeError SyntaxTree)

/-- The pieces that a property becomes. -/
def pieces : Term → Except NodeError (List Piece)
  | .mk _ (.propertyAssignment (.mk _ (.computedPropertyName expression)) value) => do
    let value ← go value
    let name ← go expression
    pure [keyed name value]
  | .mk id (.propertyAssignment name value) => do
    let value ← go value
    match name.staticKey? with
    | some key => pure [.named key value]
    | none => throw (.alreadyAttached name.tag id)
  | .mk id (.spreadAssignment expression) => do
    match ← go expression with
    | .mk _ (.objectLiteral properties) => pure (properties.map splice)
    | _ => throw (.unsupportedSpread id .object)
  | t => pure [.verbatim t.untag]

/-- An object, flattened. -/
def object (properties : List Term) : Except NodeError SyntaxTree := do
  let parts ← properties.mapM (pieces go)
  pure (.mk () (.objectLiteral ((merge parts.flatten).map Piece.tree)))

def element : Term → Except NodeError (List SyntaxTree)
  | .mk id (.spreadElement expression) => do
    match ← go expression with
    | .mk _ (.arrayLiteral items) => pure items
    | _ => throw (.unsupportedSpread id .array)
  | t => do pure [← go t]

/-- An array, flattened. -/
def array (elements : List Term) : Except NodeError SyntaxTree := do
  let parts ← elements.mapM (element go)
  pure (.mk () (.arrayLiteral parts.flatten))

/-- The text of a template that is being flattened. -/
structure Text where
  head : String
  spans : List (Span SyntaxTree)

/-- Text at the end. -/
def Text.append (t : Text) (text : String) : Text :=
  match t.spans with
  | [] => { t with head := t.head ++ text }
  | last :: rest => { t with spans := { last with literal := last.literal ++ text } :: rest }

/-- The literal or template of a text. -/
def Text.tree (t : Text) : SyntaxTree :=
  if t.spans.isEmpty then .mk () (.stringLiteral t.head)
  else .mk () (.templateExpr t.head t.spans.reverse)

def span (t : Text) (s : Span Term) : Except NodeError Text := do
  let part ← go s.expression
  match part.constant? noReferences with
  | some value => pure (t.append (value.text ++ s.literal))
  | none => pure { t with spans := ⟨part, s.literal⟩ :: t.spans }

/-- A template, flattened. -/
def template (head : String) (spans : List (Span Term)) : Except NodeError SyntaxTree := do
  pure (← spans.foldlM (span go) ⟨head, []⟩).tree

/-- What an access to a literal gives, `none` where the access stays. -/
def member? (access : NodeId) (base : SyntaxTree) (key : MemberKey) :
    Except NodeError (Option SyntaxTree) :=
  match lookup base key with
  | .found value => .ok (some value)
  | .count n => .ok (some (.mk () (.numberLiteral (Double.ofNat n))))
  | .unknown => .ok none
  | .missing property => .error (.propertyNotFound access property)
  | .fault fault => .error (.invalidAccess access fault)

def elementMember? (access : NodeId) (base key : SyntaxTree) :
    Except NodeError (Option SyntaxTree) :=
  match MemberKey.of? key with
  | some memberKey => member? access base memberKey
  | none => .ok none

/-- The function of a call, flattened. -/
def callee : Term → Except NodeError SyntaxTree
  | .mk _ (.propertyAccess expression name chained) => do
    pure (.mk () (.propertyAccess (← go expression) name chained))
  | t => go t

def signed (operator : UnaryOp) (operand : SyntaxTree) : SyntaxTree :=
  match operator, operand.node with
  | .neg, .numberLiteral value => .mk () (.numberLiteral (-value))
  | operator, _ => .mk () (.unaryExpr operator operand)

/-- One step of flattening. -/
def node (scope : Scope) (t : Term) : Except NodeError SyntaxTree := do
  match t.node with
  | .identifier name => pure ((scope name).getD t.untag)
  | .propertyAccess expression name chained =>
    let base ← go expression
    pure ((← member? t.tag base (.name name)).getD (.mk () (.propertyAccess base name chained)))
  | .elementAccess expression key chained =>
    let base ← go expression
    let key ← go key
    pure ((← elementMember? t.tag base key).getD (.mk () (.elementAccess base key chained)))
  | .arrayLiteral elements => array go elements
  | .objectLiteral properties => object go properties
  | .templateExpr head spans => template go head spans
  | .unaryExpr operator operand => do pure (signed operator (← go operand))
  | .callExpr function arguments =>
    let function ← callee go function
    pure (.mk () (.callExpr function (← arguments.mapM go)))
  | .arrowFunction .. | .functionDecl .. => pure t.untag
  | other => do pure (.mk () (← other.mapM go))

end Go

def term (scope : Scope) : Nat → Term → Except NodeError SyntaxTree
  | 0, t => .error (.unknownNode t.tag)
  | fuel + 1, t => node (term scope fuel) scope t

/-- Flattening on trees. -/
def flat (scope : Scope) (t : Term) : Except NodeError SyntaxTree := term scope t.size t

section Fuel

variable {go go' : Term → Except NodeError SyntaxTree} {t : Term}

lemma pieces_congr (h : ∀ s ∈ t.subtrees, go s = go' s) : pieces go t = pieces go' t := by
  obtain ⟨tag, n⟩ := t
  have hchild : ∀ s ∈ n.children, go s = go' s := fun s hs => h s (child_mem_subtrees hs)
  cases n with
  | propertyAssignment name value =>
    have hvalue := hchild value (by simp)
    obtain ⟨tag', n⟩ := name
    cases n with
    | computedPropertyName expression =>
      have he := h expression (computedName_mem_subtrees tag tag' expression value)
      simp only [pieces, hvalue, he]
    | _ => simp only [pieces, hvalue]
  | spreadAssignment expression =>
    simp only [pieces, hchild expression (by simp)]
  | _ => rfl

lemma element_congr (h : ∀ s ∈ t.subtrees, go s = go' s) : element go t = element go' t := by
  have hself := h t t.self_mem_subtrees
  obtain ⟨tag, expression, rfl⟩ | hkind := spreadElement_cases t
  · have he := h expression child_mem_subtrees
    simp only [element, he]
  · rw [element, element, hself]
    all_goals
      rintro tag expression rfl
      exact hkind rfl

lemma callee_congr (h : ∀ s ∈ t.subtrees, go s = go' s) : callee go t = callee go' t := by
  have hself := h t t.self_mem_subtrees
  obtain ⟨tag, n⟩ := t
  cases n with
  | propertyAccess expression name chained =>
    have he := h expression child_mem_subtrees
    simp only [callee, he]
  | _ => exact hself

lemma foldlM_congr {β : Type} {g g' : β → Span Term → Except NodeError β} {spans : List (Span Term)}
    (h : ∀ s ∈ spans, ∀ b, g b s = g' b s) (b : β) : spans.foldlM g b = spans.foldlM g' b := by
  induction spans generalizing b with
  | nil => rfl
  | cons s spans ih =>
    rw [foldlM_cons, foldlM_cons, h s mem_cons_self]
    congr 1
    funext b'
    exact ih (fun s hs => h s (mem_cons_of_mem _ hs)) b'

lemma node_congr {scope : Scope} (h : ∀ s ∈ t.descendants, go s = go' s) :
    node go scope t = node go' scope t := by
  obtain ⟨tag, n⟩ := t
  have hchild : ∀ s ∈ n.children, go s = go' s := fun s hs => h s (child_mem_descendants hs)
  have hbelow : ∀ c ∈ n.children, ∀ s ∈ c.subtrees, go s = go' s := fun c hc s hs =>
    h s (mem_descendants_of_child hc hs)
  cases n with
  | identifier name => rfl
  | propertyAccess expression name chained =>
    simp only [node, Tree.node, hchild expression (by simp)]
  | elementAccess expression key chained =>
    simp only [node, Tree.node, hchild expression (by simp), hchild key (by simp)]
  | arrayLiteral elements =>
    have hparts : elements.mapM (element go) = elements.mapM (element go') :=
      Node.mapM_list_congr fun t ht => element_congr (hbelow t ht)
    simp only [node, Tree.node, array, hparts]
  | objectLiteral properties =>
    have hparts : properties.mapM (pieces go) = properties.mapM (pieces go') :=
      Node.mapM_list_congr fun t ht => pieces_congr (hbelow t ht)
    simp only [node, Tree.node, object, hparts]
  | templateExpr head spans =>
    have hspan : ∀ s ∈ spans, ∀ t, span go t s = span go' t s := by
      intro s hs t
      simp only [span, hchild s.expression (mem_map_of_mem hs)]
    simp only [node, Tree.node, template, foldlM_congr hspan]
  | unaryExpr operator operand =>
    simp only [node, Tree.node, hchild operand (by simp)]
  | callExpr function arguments =>
    have hfunction := callee_congr (hbelow function (by simp))
    have harguments : arguments.mapM go = arguments.mapM go' :=
      Node.mapM_list_congr fun t ht => hchild t (mem_cons_of_mem function ht)
    simp only [node, Tree.node, hfunction, harguments]
  | arrowFunction parameters body => rfl
  | functionDecl name parameters body => rfl
  | _ => exact congrArg (· >>= _) (Node.mapM_congr .leaf hchild)

lemma flat_eq (scope : Scope) (t : Term) : flat scope t = node (flat scope) scope t :=
  within_eq (fun _ _ => rfl) node_congr t (Nat.le_refl _)

end Fuel

end Folding

end ServiceFlow
