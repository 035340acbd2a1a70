import ServiceFlow.Proofs.RecognisedCalls
import ServiceFlow.Template.Expression

/-!
# Code of composed expressions

The code of an expression is made from that of the expressions inside it, whatever number of nodes
the composition is limited to.
-/

namespace ServiceFlow.Template

open ServiceFlow.Tree List

attribute [local simp] Tree.node Node.children

variable {env : Env} {go go' : Term → Compose Code} {t : Term}

section Congruence

lemma codes_congr {ts : List Term} (h : ∀ t ∈ ts, go t = go' t) : codes go ts = codes go' ts := by
  induction ts with
  | nil => rfl
  | cons t ts ih =>
    rw [codes, codes, h t mem_cons_self, ih fun u hu => h u (mem_cons_of_mem t hu)]

lemma mem_subtrees_of_concatParts {u : Term} (h : .term u ∈ concatParts t) : u ∈ t.subtrees := by
  fun_induction concatParts t with
  | case1 id left right hleft hright =>
    rcases mem_append.mp h with h | h
    · exact mem_subtrees_of_child (by simp) (hleft h)
    · exact mem_subtrees_of_child (by simp) (hright h)
  | case2 | case3 =>
    cases mem_singleton.mp h
    exact self_mem_subtrees _

lemma part_congr {p : Part} (h : ∀ u, p = .term u → go u = go' u) :
    part env go p = part env go' p := by
  cases p with
  | text content => rfl
  | term u => rw [part, part, h u rfl]

lemma interpolate_congr {parts : List Part} (h : ∀ u, .term u ∈ parts → go u = go' u) :
    interpolate env go parts = interpolate env go' parts := by
  have hjoined : joined env go parts = joined env go' parts := by
    induction parts with
    | nil => rfl
    | cons p parts ih =>
      have hp : part env go p = part env go' p := part_congr fun u hu => h u (by simp [hu])
      rw [joined, joined, hp, ih fun u hu => h u (mem_cons_of_mem p hu)]
  rw [interpolate, interpolate, hjoined]

variable {left right : Term} {temp : String} {elements properties : List Term}

lemma override_congr {test : String → String} (hleft : go left = go' left)
    (hright : go right = go' right) :
    override go test left right = override go' test left right := by
  rw [override, override, hleft, hright]

lemma condition_congr (h : ∀ s ∈ t.subtrees, go s = go' s) :
    condition env go t = condition env go' t := by
  induction t using children_induction with
  | step tag n ih =>
    have hself := h _ (self_mem_subtrees _)
    cases n with
    | binaryExpr left op right =>
      have hl := ih left (by simp) fun s hs =>
        h s (mem_subtrees_of_child (by simp) hs)
      have hr := ih right (by simp) fun s hs =>
        h s (mem_subtrees_of_child (by simp) hs)
      rw [condition, condition, hl, hr, hself]
    | _ => exact hself

lemma binary_congr {op : BinaryOp} (hleft : ∀ s ∈ left.subtrees, go s = go' s)
    (hright : ∀ s ∈ right.subtrees, go s = go' s) :
    binary env go left op right = binary env go' left op right := by
  have hl := hleft left left.self_mem_subtrees
  have hr := hright right right.self_mem_subtrees
  have hparts : interpolate env go (concatParts left ++ concatParts right) =
      interpolate env go' (concatParts left ++ concatParts right) := by
    refine interpolate_congr fun u hu => ?_
    rcases mem_append.mp hu with hu | hu
    · exact hleft u (mem_subtrees_of_concatParts hu)
    · exact hright u (mem_subtrees_of_concatParts hu)
  unfold binary
  split
  any_goals exact override_congr hl hr
  rw [hparts, hl, hr]

-- Only sums are taken apart.
example : (concatParts (.mk 0 (.binaryExpr (.mk 1 .nullLiteral) .sub
    (.mk 2 .nullLiteral)))).length = 1 := by decide +kernel

lemma conditional_congr {test whenTrue whenFalse : Term}
    (htest : ∀ s ∈ test.subtrees, go s = go' s) (hyes : go whenTrue = go' whenTrue)
    (hno : go whenFalse = go' whenFalse) :
    conditional env go test whenTrue whenFalse = conditional env go' test whenTrue whenFalse := by
  rw [conditional, conditional, condition_congr htest, hyes, hno]

lemma elementLines_congr (h : ∀ e ∈ elements, ∀ s ∈ e.subtrees, go s = go' s) :
    elementLines go temp elements = elementLines go' temp elements := by
  fun_induction elementLines go temp elements with
  | case1 => rfl
  | case2 tag expression rest ih =>
    have he := h _ mem_cons_self expression child_mem_subtrees
    rw [elementLines, he, ih fun e he => h e (mem_cons_of_mem _ he)]
  | case3 e rest hne ih =>
    rw [elementLines, h e mem_cons_self e e.self_mem_subtrees,
      ih fun e he => h e (mem_cons_of_mem _ he)]
    exact hne

lemma array_congr (h : ∀ e ∈ elements, ∀ s ∈ e.subtrees, go s = go' s) :
    array go elements = array go' elements := by
  have hcodes : codes go elements = codes go' elements :=
    codes_congr fun e he => h e he e e.self_mem_subtrees
  have hlines : ∀ temp, elementLines go temp elements = elementLines go' temp elements :=
    fun temp => elementLines_congr h
  simp only [array, hcodes, hlines]

lemma propertyKey_congr {name : Term} (h : ∀ s ∈ name.subtrees, go s = go' s) :
    propertyKey go name = propertyKey go' name := by
  have hself := h name name.self_mem_subtrees
  unfold propertyKey
  split
  · rfl
  · exact h _ child_mem_subtrees
  · exact hself

lemma propertyLines_congr (h : ∀ p ∈ properties, ∀ s ∈ p.subtrees, go s = go' s) :
    propertyLines go temp properties = propertyLines go' temp properties := by
  fun_induction propertyLines go temp properties with
  | case1 => rfl
  | case2 tag name value rest ih =>
    have hfirst := h _ mem_cons_self
    have hname : ∀ s ∈ name.subtrees, go s = go' s := fun s hs =>
      hfirst s (mem_subtrees_of_child (by simp) hs)
    have hvalue := hfirst value child_mem_subtrees
    rw [propertyLines, propertyKey_congr hname, hvalue, ih fun p hp => h p (mem_cons_of_mem _ hp)]
  | case3 tag expression rest ih =>
    have he := h _ mem_cons_self expression child_mem_subtrees
    rw [propertyLines, he, ih fun p hp => h p (mem_cons_of_mem _ hp)]
  | case4 t rest hassigned hspread =>
    obtain ⟨tag, n⟩ := t
    cases n with
    | propertyAssignment name value => exact absurd rfl (hassigned tag name value)
    | spreadAssignment expression => exact absurd rfl (hspread tag expression)
    | _ => rfl

example : ((propertyLines (fun _ => pure ⟨[], ""⟩) "" []).run ⟨0, 0⟩).toOption.isSome := by
  decide +kernel

lemma mem_subtrees_of_staticEntries {entries : List (String × Term)}
    (h : properties.mapM staticEntry? = some entries) :
    ∀ entry ∈ entries, ∃ p ∈ properties, entry.2 ∈ p.subtrees := by
  induction properties generalizing entries with
  | nil =>
    cases h
    simp
  | cons p properties ih =>
    obtain ⟨first, rest, hfirst, hrest, rfl⟩ := forall₂_cons_left_iff.mp
      (Node.mapM_list_eq_some_iff.mp h)
    refine forall_mem_cons.mpr ⟨⟨p, mem_cons_self, ?_⟩, fun entry hentry => ?_⟩
    · obtain ⟨tag, n⟩ := p
      cases n with
      | propertyAssignment name value =>
        obtain ⟨key, -, rfl⟩ := Option.map_eq_some_iff.mp hfirst
        exact child_mem_subtrees
      | _ => cases hfirst
    · obtain ⟨q, hq, hmem⟩ := ih (Node.mapM_list_eq_some_iff.mpr hrest) entry hentry
      exact ⟨q, mem_cons_of_mem p hq, hmem⟩

lemma object_congr (h : ∀ p ∈ properties, ∀ s ∈ p.subtrees, go s = go' s) :
    object go properties = object go' properties := by
  have hlines : ∀ temp, propertyLines go temp properties = propertyLines go' temp properties :=
    fun temp => propertyLines_congr h
  unfold object
  cases hentries : properties.mapM staticEntry? with
  | none => simp only [hlines]
  | some entries =>
    have hcodes : codes go (entries.map (·.2)) = codes go' (entries.map (·.2)) := by
      refine codes_congr fun t ht => ?_
      obtain ⟨entry, hentry, rfl⟩ := mem_map.mp ht
      obtain ⟨p, hp, hmem⟩ := mem_subtrees_of_staticEntries hentries entry hentry
      exact h p hp entry.2 hmem
    simp only [hcodes]

lemma call_congr {callee : Term} {arguments : List Term}
    (hcallee : ∀ s ∈ callee.subtrees, go s = go' s) (harguments : ∀ a ∈ arguments, go a = go' a) :
    call env go t callee arguments = call env go' t callee arguments := by
  have hfirst : firstArgument go null arguments = firstArgument go' null arguments := by
    cases arguments with
    | nil => rfl
    | cons a rest => exact harguments a mem_cons_self
  obtain ⟨tag, n⟩ := callee
  cases n with
  | propertyAccess receiver name chained =>
    have hreceiver := hcallee receiver child_mem_subtrees
    have hmethod :
        methodCall go receiver name arguments = methodCall go' receiver name arguments := by
      rw [methodCall, methodCall, hreceiver, codes_congr harguments]
    simp only [call, hfirst, hmethod]
  | _ => rfl

lemma node_congr (h : ∀ s ∈ t.descendants, go s = go' s) : node env go t = node env go' t := by
  obtain ⟨tag, n⟩ := t
  have hchild : ∀ s ∈ n.children, go s = go' s := fun s hs => h s (child_mem_descendants hs)
  have hbelow : ∀ c ∈ n.children, ∀ s ∈ c.subtrees, go s = go' s := fun c hc s hs =>
    h s (mem_descendants_of_child hc hs)
  unfold node
  cases Tree.constant? env.references (.mk tag n) with
  | some constant => rfl
  | none =>
    cases n with
    | awaitExpr expression => exact hchild expression (by simp)
    | propertyAccess expression name chained =>
      simp only [Tree.node, hchild expression (by simp)]
    | elementAccess expression element chained =>
      simp only [Tree.node, hchild expression (by simp), hchild element (by simp)]
    | callExpr callee arguments =>
      exact call_congr (hbelow callee (by simp)) fun a ha =>
        hchild a (mem_cons_of_mem callee ha)
    | unaryExpr operator operand =>
      simp only [Tree.node, hchild operand (by simp)]
    | binaryExpr left operator right =>
      exact binary_congr (hbelow left (by simp)) (hbelow right (by simp))
    | conditionalExpr test whenTrue whenFalse =>
      exact conditional_congr (hbelow test (by simp))
        (hchild whenTrue (by simp)) (hchild whenFalse (by simp))
    | templateExpr head spans =>
      refine interpolate_congr fun u hu => hchild u ?_
      rcases mem_cons.mp hu with hu | hu
      · cases hu
      · obtain ⟨s, hs, hu⟩ := mem_flatMap.mp hu
        simp only [mem_cons, Part.term.injEq, reduceCtorEq, not_mem_nil, or_false] at hu
        exact hu ▸ mem_map_of_mem hs
    | arrayLiteral elements => exact array_congr hbelow
    | objectLiteral properties => exact object_congr hbelow
    | _ => rfl

end Congruence

lemma expression_eq (t : Term) : expression env t = node env (expression env) t :=
  within_eq (fun _ _ => rfl) node_congr t (Nat.le_refl _)

end ServiceFlow.Template
