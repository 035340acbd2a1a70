import ServiceFlow.Proofs.LiteralForms

/-!
# Faults of flattening

Where flattening fails, the node that is reported is one of the expression itself, also where the
literal came from a name in scope.
-/

namespace ServiceFlow

open ServiceFlow.Tree List

attribute [local simp] Node.children

section Failures

variable {ε α β : Type}

variable {e : ε} {g : α → Except ε β} {xs : List α}

lemma bind_eq_error {x : Except ε α} {k : α → Except ε β} (h : x >>= k = .error e) :
    x = .error e ∨ ∃ a, x = .ok a ∧ k a = .error e := by
  cases x with
  | error e' =>
    cases h
    exact .inl rfl
  | ok a => exact .inr ⟨a, rfl, h⟩

lemma exists_of_mapM_error (h : xs.mapM g = .error e) : ∃ x ∈ xs, g x = .error e := by
  induction xs with
  | nil => cases h
  | cons x xs ih =>
    rw [mapM_cons] at h
    rcases bind_eq_error h with hx | ⟨y, -, h⟩
    · exact ⟨x, mem_cons_self, hx⟩
    · rcases bind_eq_error h with hxs | ⟨ys, -, h⟩
      · obtain ⟨x', hx', hfails⟩ := ih hxs
        exact ⟨x', mem_cons_of_mem x hx', hfails⟩
      · cases h

lemma exists_of_foldlM_error {g : β → α → Except ε β} {b : β} (h : xs.foldlM g b = .error e) :
    ∃ x ∈ xs, ∃ b', g b' x = .error e := by
  induction xs generalizing b with
  | nil => cases h
  | cons x xs ih =>
    rw [foldlM_cons] at h
    rcases bind_eq_error h with hx | ⟨b', -, hxs⟩
    · exact ⟨x, mem_cons_self, b, hx⟩
    · obtain ⟨x', hx', hfails⟩ := ih hxs
      exact ⟨x', mem_cons_of_mem x hx', hfails⟩

lemma Node.exists_of_mapM_error (spare : β) {n : Node α} (h : n.mapM g = .error e) :
    ∃ c ∈ n.children, g c = .error e := by
  rw [Node.mapM_eq_refill spare] at h
  rcases bind_eq_error h with hchildren | ⟨ds, -, h⟩
  · exact ServiceFlow.exists_of_mapM_error hchildren
  · cases h

end Failures

/-- The errors of flattening, by the kind of the node that they are about. -/
def NodeError.Blames : NodeError → Kind → Prop
  | .propertyNotFound _ _, kind | .invalidAccess _ _, kind =>
    kind = .propertyAccess ∨ kind = .elementAccess
  | .unsupportedSpread _ .array, kind => kind = .spreadElement
  | .unsupportedSpread _ .object, kind => kind = .spreadAssignment
  | _, _ => False

def Tree.isKeyed {α : Type} : Tree α → Bool
  | .mk _ (.propertyAssignment name _) =>
    [Kind.identifier, .stringLiteral, .numberLiteral, .computedPropertyName].contains name.kind
  | _ => true

lemma Tree.exists_staticKey? {α : Type} {tag : α} {name value : Tree α}
    (h : (mk tag (.propertyAssignment name value)).isKeyed = true)
    (hkind : name.kind ≠ .computedPropertyName) : ∃ key, name.staticKey? = some key := by
  obtain ⟨tag', n⟩ := name
  cases n with
  | identifier name => exact ⟨name, rfl⟩
  | stringLiteral value => exact ⟨value, rfl⟩
  | numberLiteral value => exact ⟨value.text, rfl⟩
  | computedPropertyName expression => exact absurd rfl hkind
  | _ => cases h

namespace Folding

open Flatten (MemberKey lookup)

/-- The error names a node of the term, of a kind that can fail. -/
def BlamesIn (e : NodeError) (t : Term) : Prop := ∃ s ∈ t.subtrees, e.node = s.tag ∧ e.Blames s.kind

variable {e : NodeError} {c t : Term}

lemma BlamesIn.of_subtree (h : BlamesIn e c) (hc : c ∈ t.subtrees) : BlamesIn e t := by
  obtain ⟨s, hs, hblames⟩ := h
  exact ⟨s, subtrees_subset hc hs, hblames⟩

lemma BlamesIn.of_child (h : BlamesIn e c) (hc : c ∈ t.node.children) : BlamesIn e t :=
  h.of_subtree (child_mem_subtrees hc)

def FailsInside (go : Term → Except NodeError SyntaxTree) (t : Term) : Prop :=
  ∀ ⦃e⦄, go t = .error e → BlamesIn e t

variable {go : Term → Except NodeError SyntaxTree} {t : Term} {e : NodeError}

lemma blames_of_member? {access : NodeId} {base : SyntaxTree} {key : MemberKey}
    (h : member? access base key = .error e) :
    e.node = access ∧ ∀ kind, kind = .propertyAccess ∨ kind = .elementAccess → e.Blames kind := by
  unfold member? at h
  cases hlookup : lookup base key with
  | missing property | fault fault =>
    rw [hlookup] at h
    cases h
    exact ⟨rfl, fun _ hkind => hkind⟩
  | _ =>
    rw [hlookup] at h
    cases h

lemma element_fails (h : ∀ s ∈ t.subtrees, FailsInside go s) (hfails : element go t = .error e) :
    BlamesIn e t := by
  obtain ⟨tag, expression, rfl⟩ | hkind := spreadElement_cases t
  · have hc : expression ∈ (Node.spreadElement expression).children := by simp
    rcases bind_eq_error hfails with hfails | ⟨⟨⟨⟩, n⟩, -, hfails⟩
    · exact (h expression (child_mem_subtrees hc) hfails).of_child hc
    · cases n with
      | arrayLiteral items => cases hfails
      | _ =>
        cases hfails
        exact ⟨_, self_mem_subtrees _, rfl, rfl⟩
  · rw [element_of_ne hkind] at hfails
    rcases bind_eq_error hfails with hfails | ⟨t', -, hfails⟩
    · exact h t t.self_mem_subtrees hfails
    · cases hfails

lemma pieces_fails (h : ∀ s ∈ t.subtrees, FailsInside go s) (hkeyed : t.isKeyed = true)
    (hfails : pieces go t = .error e) : BlamesIn e t := by
  obtain ⟨tag, n⟩ := t
  have hchild : ∀ s ∈ n.children, go s = .error e → BlamesIn e (.mk tag n) := fun s hs hgo =>
    (h s (child_mem_subtrees hs) hgo).of_child hs
  cases n with
  | propertyAssignment name value =>
    obtain ⟨tag', expression, rfl⟩ | hkind := computedPropertyName_cases name
    · have hmem := computedName_mem_subtrees tag tag' expression value
      rcases bind_eq_error hfails with hfails | ⟨value', -, hfails⟩
      · exact hchild value (by simp) hfails
      · rcases bind_eq_error hfails with hfails | ⟨name', -, hfails⟩
        · exact (h expression hmem hfails).of_subtree hmem
        · cases hfails
    · rw [Flatten.pieces_of_ne hkind] at hfails
      rcases bind_eq_error hfails with hfails | ⟨value', -, hfails⟩
      · exact hchild value (by simp) hfails
      · obtain ⟨key, hkey⟩ := exists_staticKey? hkeyed hkind
        rw [hkey] at hfails
        cases hfails
  | spreadAssignment expression =>
    rcases bind_eq_error hfails with hfails | ⟨⟨⟨⟩, n⟩, -, hfails⟩
    · exact hchild expression (by simp) hfails
    · cases n with
      | objectLiteral properties => cases hfails
      | _ =>
        cases hfails
        exact ⟨_, self_mem_subtrees _, rfl, rfl⟩
  | _ => cases hfails

lemma callee_fails (h : ∀ s ∈ t.subtrees, FailsInside go s) (hfails : callee go t = .error e) :
    BlamesIn e t := by
  have hself := h t t.self_mem_subtrees
  obtain ⟨tag, n⟩ := t
  cases n with
  | propertyAccess expression name chained =>
    have hc : expression ∈ (Node.propertyAccess expression name chained).children := by
      simp
    rcases bind_eq_error hfails with hfails | ⟨base, -, hfails⟩
    · exact (h expression (child_mem_subtrees hc) hfails).of_child hc
    · cases hfails
  | _ => exact hself hfails

lemma template_fails {head : String} {spans : List (Span Term)}
    (hfails : template go head spans = .error e) : ∃ s ∈ spans, go s.expression = .error e := by
  rcases bind_eq_error hfails with hfails | ⟨x, -, hfails⟩
  · obtain ⟨s, hs, x, hfails⟩ := exists_of_foldlM_error hfails
    rcases bind_eq_error hfails with hfails | ⟨part, -, hfails⟩
    · exact ⟨s, hs, hfails⟩
    · cases hvalue : part.constant? noReferences with
      | none =>
        rw [hvalue] at hfails
        cases hfails
      | some value =>
        rw [hvalue] at hfails
        cases hfails
  · cases hfails

lemma flat_fails_inside (scope : Scope) (t : Term) : (∀ s ∈ t.subtrees, s.isKeyed = true) →
    FailsInside (flat scope) t := by
  refine subtrees_induction (P := FailsInside (flat scope))
    (fun tag n hkeyed hinside hparts => ?_) t
  intro e hfails
  rw [flat_eq] at hfails
  have hchild : ∀ s ∈ n.children, flat scope s = .error e → BlamesIn e (.mk tag n) :=
    fun s hs hgo => (hinside s hs hgo).of_child hs
  cases n with
  | identifier | arrowFunction | functionDecl => cases hfails
  | propertyAccess expression name chained =>
    rcases bind_eq_error hfails with hfails | ⟨base, -, hfails⟩
    · exact hchild expression (by simp) hfails
    · rcases bind_eq_error hfails with hfails | ⟨found, -, hfails⟩
      · obtain ⟨hnode, hblames⟩ := blames_of_member? hfails
        exact ⟨_, self_mem_subtrees _, hnode, hblames _ (.inl rfl)⟩
      · cases hfails
  | elementAccess expression key chained =>
    rcases bind_eq_error hfails with hfails | ⟨base, -, hfails⟩
    · exact hchild expression (by simp) hfails
    · rcases bind_eq_error hfails with hfails | ⟨key', -, hfails⟩
      · exact hchild key (by simp) hfails
      · rcases bind_eq_error hfails with hfails | ⟨found, -, hfails⟩
        · unfold elementMember? at hfails
          cases hmemberKey : MemberKey.of? key' with
          | none =>
            rw [hmemberKey] at hfails
            cases hfails
          | some memberKey =>
            rw [hmemberKey] at hfails
            obtain ⟨hnode, hblames⟩ := blames_of_member? hfails
            exact ⟨_, self_mem_subtrees _, hnode, hblames _ (.inr rfl)⟩
        · cases hfails
  | arrayLiteral elements =>
    rcases bind_eq_error hfails with hfails | ⟨parts, -, hfails⟩
    · obtain ⟨c, hc, hfails⟩ := exists_of_mapM_error hfails
      exact (element_fails (hparts c hc) hfails).of_child hc
    · cases hfails
  | objectLiteral properties =>
    rcases bind_eq_error hfails with hfails | ⟨parts, -, hfails⟩
    · obtain ⟨c, hc, hfails⟩ := exists_of_mapM_error hfails
      have hc' : c ∈ (mk tag (.objectLiteral properties) : Term).subtrees := child_mem_subtrees hc
      exact (pieces_fails (hparts c hc) (hkeyed c hc') hfails).of_child hc
    · cases hfails
  | templateExpr head spans =>
    obtain ⟨s, hs, hfails⟩ := template_fails hfails
    exact hchild s.expression (mem_map_of_mem hs) hfails
  | unaryExpr operator operand =>
    rcases bind_eq_error hfails with hfails | ⟨operand', -, hfails⟩
    · exact hchild operand (by simp) hfails
    · cases hfails
  | callExpr function arguments =>
    rcases bind_eq_error hfails with hfails | ⟨function', -, hfails⟩
    · have hc : function ∈ (Node.callExpr function arguments).children := by simp
      exact (callee_fails (hparts function hc) hfails).of_child hc
    · rcases bind_eq_error hfails with hfails | ⟨arguments', -, hfails⟩
      · obtain ⟨c, hc, hfails⟩ := exists_of_mapM_error hfails
        exact hchild c (mem_cons_of_mem function hc) hfails
      · cases hfails
  | _ =>
    rcases bind_eq_error hfails with hfails | ⟨n', -, hfails⟩
    · obtain ⟨c, hc, hfails⟩ := Node.exists_of_mapM_error (.mk () .emptyStmt) hfails
      exact hchild c hc hfails
    · cases hfails

end Folding

namespace Forest

variable {f : Forest}

lemma Linked.inside_total (h : f.Linked) {id a b : Nat} (ha : f.Inside id a)
    (hb : f.Inside id b) : f.Inside a b ∨ f.Inside b a := by
  rcases ha with rfl | ha
  · exact .inl hb
  rcases hb with rfl | hb
  · exact .inr (.inr ha)
  rcases h.below_total ha hb with rfl | hab | hba
  · exact .inl (.inl rfl)
  · exact .inl (.inr hab)
  · exact .inr (.inr hba)

end Forest

namespace Flatten

open Forest (Edit)

/-- Flattening fails only for a member that is not found, an access that is not valid or a spread
that is not supported. The error is about a node of the expression, which was there before. It is
no node of a binding, unless the binding and the expression are parts of each other. -/
theorem flattening_fails_inside {edits : List Edit} (hedits : ∀ edit ∈ edits, ¬ edit.Attaches)
    {f f' : Forest} (hf : Forest.empty.edited edits = f) {scope : Scope}
    (hscope : ∀ name (bound : Nat), scope.get? name = some bound → bound < f.size)
    {e : NodeId} {t : Term} (ht : f.view? e = some t)
    (hkeyed : ∀ s ∈ t.subtrees, s.isKeyed = true) {error : NodeError}
    (hrun : (expression scope e).run f = (.error error, f')) :
    ((∃ property, error = .propertyNotFound error.node property) ∨
      (∃ fault, error = .invalidAccess error.node fault) ∨
      ∃ collection, error = .unsupportedSpread error.node collection) ∧
    (∃ kind, f.kind? error.node = some kind ∧ error.Blames kind) ∧
    f.Inside error.node e ∧ error.node < f.size ∧
    ∀ name (bound : Nat), scope.get? name = some bound → ¬ f.Inside bound e →
      ¬ f.Inside e bound → ¬ f.Inside error.node bound := by
  have hlinked : f.Linked := hf ▸ Forest.linked_edited hedits
  have hshows := hlinked.shows_of_view? ht
  obtain ⟨-, ⟨_, _, ⟨⟩, -⟩ | ⟨_, ⟨⟩, hflat⟩⟩ :=
    expression_cases hlinked (scopeShows_of_bound hlinked hscope) ht hrun
  obtain ⟨s, hs, hnode, hblames⟩ := Folding.flat_fails_inside _ t hkeyed hflat
  have hinside : f.Inside error.node e := by
    rw [hnode, ← hlinked.tag_of_view? ht]
    exact hlinked.inside_of_mem_subtrees hshows hs
  have hkind : f.kind? error.node = some s.kind := by
    rw [hnode, Forest.kind?, hlinked.node?_of_shows (hlinked.shows_of_mem_subtrees hshows hs),
      Option.map_some, Node.kind_map]
    rfl
  refine ⟨?_, ⟨s.kind, hkind, hblames⟩, hinside, ?_, ?_⟩
  · cases error with
    | propertyNotFound node property => exact .inl ⟨property, rfl⟩
    | invalidAccess node fault => exact .inr (.inl ⟨fault, rfl⟩)
    | unsupportedSpread node collection => exact .inr (.inr ⟨collection, rfl⟩)
    | _ => exact hblames.elim
  · exact Nat.lt_of_le_of_lt (hlinked.le_of_inside hinside) (Forest.lt_size_of_view? ht)
  · intro name bound hbound houter hinner hin
    rcases hlinked.inside_total hin hinside with h | h
    · exact houter h
    · exact hinner h

/-- A record, and a list whose first element reads a property of `xs` and whose second one spreads
`xs`. -/
def faultyLists : List Edit :=
  [.insert (.record [.entry (.identifier "a") (.mk () .nullLiteral)]),
    .insert (.list [.member (.ident "xs") "b"]),
    .insert (.list [.mk () (.spreadElement (.ident "xs"))])]

theorem flattening_fails_inside_faultyLists :
    ∃ f f₁ f₂ t₁ t₂, Forest.empty.edited faultyLists = f ∧ f.size = 10 ∧
      f.view? 6 = some t₁ ∧ (∀ s ∈ t₁.subtrees, s.isKeyed = true) ∧
      (expression [("xs", 3)] 6).run f = (.error (.propertyNotFound 5 "b"), f₁) ∧
      f.Inside 5 6 ∧ ¬ f.Inside 5 3 ∧
      f.view? 9 = some t₂ ∧ (∀ s ∈ t₂.subtrees, s.isKeyed = true) ∧
      (expression [("xs", 3)] 9).run f = (.error (.unsupportedSpread 8 .array), f₂) ∧
      f.Inside 8 9 := by
  have hedits : ∀ edit ∈ faultyLists, ¬ edit.Attaches := by simp [faultyLists, Edit.Attaches]
  have hsize : (Forest.empty.edited faultyLists).size = 10 := by decide +kernel
  have hscope : ∀ name (bound : Nat), Ordered.get? name [("xs", 3)] = some bound →
      bound < (Forest.empty.edited faultyLists).size := by
    intro name bound h
    have hbound := Ordered.mem_of_get? h
    simp at hbound
    omega
  have hkeyed : [6, 9].all (fun e => ((Forest.empty.edited faultyLists).view? e).all fun t =>
      decide (∀ s ∈ t.subtrees, s.isKeyed = true)) = true := by decide +kernel
  have hmissing : ((expression [("xs", 3)] 6).run (Forest.empty.edited faultyLists)).1 =
      .error (.propertyNotFound 5 "b") := by decide +kernel
  have hspread : ((expression [("xs", 3)] 9).run (Forest.empty.edited faultyLists)).1 =
      .error (.unsupportedSpread 8 .array) := by decide +kernel
  have hapart : ¬ (Forest.empty.edited faultyLists).Inside 3 6 ∧
      ¬ (Forest.empty.edited faultyLists).Inside 6 3 := by
    unfold Forest.Inside Forest.Below
    decide +kernel
  generalize hf : Forest.empty.edited faultyLists = f at *
  have hlinked : f.Linked := hf ▸ Forest.linked_edited hedits
  obtain ⟨t₁, ht₁⟩ := hlinked.exists_view? (by omega : 6 < f.size)
  obtain ⟨t₂, ht₂⟩ := hlinked.exists_view? (by omega : 9 < f.size)
  obtain ⟨hkeyed₁, hkeyed₂⟩ : (∀ s ∈ t₁.subtrees, s.isKeyed = true) ∧
      ∀ s ∈ t₂.subtrees, s.isKeyed = true := by simpa [ht₁, ht₂] using hkeyed
  rcases hrun₁ : (expression [("xs", 3)] 6).run f with ⟨result₁, f₁⟩
  rcases hrun₂ : (expression [("xs", 3)] 9).run f with ⟨result₂, f₂⟩
  rw [hrun₁] at hmissing
  rw [hrun₂] at hspread
  obtain rfl : result₁ = .error (.propertyNotFound 5 "b") := hmissing
  obtain rfl : result₂ = .error (.unsupportedSpread 8 .array) := hspread
  obtain ⟨-, -, hinside₁, -, houtside⟩ := flattening_fails_inside hedits hf hscope ht₁ hkeyed₁ hrun₁
  obtain ⟨-, -, hinside₂, -, -⟩ := flattening_fails_inside hedits hf hscope ht₂ hkeyed₂ hrun₂
  exact ⟨f, f₁, f₂, t₁, t₂, rfl, hsize, ht₁, hkeyed₁, hrun₁, hinside₁,
    houtside "xs" 3 rfl hapart.1 hapart.2, ht₂, hkeyed₂, hrun₂, hinside₂⟩

end Flatten

end ServiceFlow
