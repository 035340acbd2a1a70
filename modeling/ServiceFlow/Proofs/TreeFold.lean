import Mathlib.Data.List.Basic
import Mathlib.Tactic.Common
import ServiceFlow.Proofs.ShortTrees

/-!
# Nodes as shapes with children

A node is determined by its shape and the list of its children. With `Node.refill` the 41 kinds of
nodes are taken apart only here.
-/

namespace ServiceFlow

open List

namespace Node

/-- Spans with other expressions. -/
def refillSpans {C D : Type} : List (Span C) → List D → List (Span D)
  | s :: spans, d :: ds => ⟨d, s.literal⟩ :: refillSpans spans ds
  | _, _ => []

/-- The node with other children. The spare child stands where the list is too short. -/
def refill {C D : Type} (spare : D) (n : Node C) (ds : List D) : Node D :=
  match n with
  | .functionDecl name _ _ => .functionDecl name ds.dropLast (ds.getLastD spare)
  | .block _ isFinally => .block ds isFinally
  | .variableStmt name _ => .variableStmt name ds.head?
  | .returnStmt _ => .returnStmt ds.head?
  | .ifStmt _ _ _ => .ifStmt (ds.headD spare) (ds.getD 1 spare) ds[2]?
  | .whileStmt _ _ => .whileStmt (ds.headD spare) (ds.getD 1 spare)
  | .doStmt _ _ => .doStmt (ds.headD spare) (ds.getD 1 spare)
  | .forOfStmt _ _ _ => .forOfStmt (ds.headD spare) (ds.getD 1 spare) (ds.getD 2 spare)
  | .forInStmt _ _ _ => .forInStmt (ds.headD spare) (ds.getD 1 spare) (ds.getD 2 spare)
  | .tryStmt _ handler _ =>
    .tryStmt (ds.headD spare) (handler.map fun _ => ds.getD 1 spare) ds[1 + handler.toList.length]?
  | .catchClause binder _ =>
    .catchClause (binder.map fun _ => ds.headD spare) (ds.getD binder.toList.length spare)
  | .templateExpr head spans => .templateExpr head (refillSpans spans ds)
  | .arrayLiteral _ => .arrayLiteral ds
  | .objectLiteral _ => .objectLiteral ds
  | .propertyAssignment _ _ => .propertyAssignment (ds.headD spare) (ds.getD 1 spare)
  | .elementAccess _ _ chained => .elementAccess (ds.headD spare) (ds.getD 1 spare) chained
  | .callExpr _ _ => .callExpr (ds.headD spare) ds.tail
  | .newExpr _ _ => .newExpr (ds.headD spare) ds.tail
  | .binaryExpr _ operator _ => .binaryExpr (ds.headD spare) operator (ds.getD 1 spare)
  | .conditionalExpr _ _ _ =>
    .conditionalExpr (ds.headD spare) (ds.getD 1 spare) (ds.getD 2 spare)
  | .arrowFunction _ _ => .arrowFunction ds.dropLast (ds.getLastD spare)
  -- All other nodes have one child at most.
  | n => n.map fun _ => ds.headD spare

variable {C D : Type}

lemma refillSpans_expressions (spans : List (Span C)) (ds : List D)
    (h : ds.length = spans.length) : (refillSpans spans ds).map (·.expression) = ds := by
  induction spans generalizing ds with
  | nil => simpa [refillSpans, eq_comm] using h
  | cons s spans ih =>
    cases ds with
    | nil => simp at h
    | cons d ds => simp [refillSpans, ih ds (by simpa using h)]

lemma map_eq_refillSpans (f : C → D) (spans : List (Span C)) :
    spans.map (fun s => (⟨f s.expression, s.literal⟩ : Span D)) =
      refillSpans spans (spans.map fun s => f s.expression) := by
  induction spans with
  | nil => rfl
  | cons s spans ih => simp [refillSpans, ih]

variable {E : Type} {m : Type → Type} {ds : List D} {f g : C → m D}

lemma refillSpans_refillSpans (spans : List (Span C)) (ds : List D) (es : List E)
    (hd : ds.length = spans.length) :
    refillSpans (refillSpans spans ds) es = refillSpans spans es := by
  induction spans generalizing ds es with
  | nil => simp [refillSpans]
  | cons s spans ih =>
    cases ds with
    | nil => simp at hd
    | cons d ds =>
      cases es with
      | nil => simp [refillSpans]
      | cons e es => simp [refillSpans, ih ds es (by simpa using hd)]

lemma mapM_eq_refillSpans [Monad m] [LawfulMonad m] (f : C → m D) (spans : List (Span C)) :
    (spans.mapM fun s => do pure (⟨← f s.expression, s.literal⟩ : Span D)) =
      (do pure (refillSpans spans (← (spans.map (·.expression)).mapM f))) := by
  induction spans with
  | nil => simp [refillSpans]
  | cons s spans ih =>
    rw [mapM_cons, ih]
    simp [refillSpans]

lemma headD_of_length_one (spare : D) (h : ds.length = 1) : [ds.headD spare] = ds := by
  obtain ⟨a, rfl⟩ := length_eq_one_iff.mp h
  rfl

lemma headD_getD_of_length_two (spare : D) (h : ds.length = 2) :
    [ds.headD spare, ds.getD 1 spare] = ds := by
  obtain ⟨a, b, rfl⟩ := length_eq_two.mp h
  rfl

lemma headD_getD_of_length_three (spare : D) (h : ds.length = 3) :
    [ds.headD spare, ds.getD 1 spare, ds.getD 2 spare] = ds := by
  obtain ⟨a, b, c, rfl⟩ := length_eq_three.mp h
  rfl

lemma children_refill (spare : D) (n : Node C) (ds : List D)
    (h : ds.length = n.children.length) : (n.refill spare ds).children = ds := by
  cases n <;> simp only [children, length_append, length_cons, length_nil,
    length_map, Nat.zero_add, Nat.reduceAdd] at h <;> simp only [refill, map, children]
  case functionDecl | arrowFunction =>
    rcases eq_nil_or_concat ds with rfl | ⟨ds, d, rfl⟩
    · simp at h
    · simp
  case variableStmt _ child | returnStmt child =>
    cases child with
    | none => simp [length_eq_zero_iff.mp h]
    | some _ =>
      obtain ⟨a, rfl⟩ := length_eq_one_iff.mp h
      rfl
  case ifStmt _ _ elseStmt =>
    cases elseStmt with
    | none =>
      obtain ⟨a, b, rfl⟩ := length_eq_two.mp h
      rfl
    | some _ =>
      obtain ⟨a, b, c, rfl⟩ := length_eq_three.mp h
      rfl
  case tryStmt _ handler finalizer =>
    cases handler <;> cases finalizer
    · obtain ⟨a, rfl⟩ := length_eq_one_iff.mp h
      rfl
    · obtain ⟨a, b, rfl⟩ := length_eq_two.mp h
      rfl
    · obtain ⟨a, b, rfl⟩ := length_eq_two.mp h
      rfl
    · obtain ⟨a, b, c, rfl⟩ := length_eq_three.mp h
      rfl
  case catchClause binder _ =>
    cases binder with
    | none =>
      obtain ⟨a, rfl⟩ := length_eq_one_iff.mp h
      rfl
    | some _ => exact headD_getD_of_length_two spare h
  case templateExpr _ spans => exact refillSpans_expressions spans ds h
  case callExpr | newExpr =>
    cases ds with
    | nil => simp [Nat.add_comm] at h
    | cons d ds => rfl
  case exprStmt | throwStmt | computedPropertyName | spreadAssignment | spreadElement
      | propertyAccess | unaryExpr | awaitExpr => exact headD_of_length_one spare h
  case whileStmt | doStmt | propertyAssignment | elementAccess | binaryExpr =>
    exact headD_getD_of_length_two spare h
  case forOfStmt | forInStmt | conditionalExpr => exact headD_getD_of_length_three spare h
  all_goals exact (length_eq_zero_iff.mp h).symm

lemma map_eq_refill (spare : D) (f : C → D) (n : Node C) :
    n.map f = n.refill spare (n.children.map f) := by
  cases n <;> simp [map, refill, children]
  case ifStmt _ _ elseStmt => cases elseStmt <;> rfl
  case tryStmt _ handler finalizer => cases handler <;> cases finalizer <;> simp
  case catchClause binder _ => cases binder <;> simp
  case templateExpr _ spans => exact map_eq_refillSpans f spans

lemma mapM_eq_refill [Monad m] [LawfulMonad m] (spare : D) (f : C → m D) (n : Node C) :
    n.mapM f = (do pure (n.refill spare (← n.children.mapM f))) := by
  cases n <;> simp [mapM, map, refill, children]
  case variableStmt _ child | returnStmt child => cases child <;> simp
  case ifStmt _ _ elseStmt => cases elseStmt <;> simp
  case tryStmt _ handler finalizer => cases handler <;> cases finalizer <;> simp
  case catchClause binder _ => cases binder <;> simp
  case templateExpr _ spans =>
    have h := mapM_eq_refillSpans f spans
    simp only [bind_pure_comp, mapM_map] at h
    rw [h, Functor.map_map]

lemma mapM_list_congr [Monad m] [LawfulMonad m] {cs : List C} (h : ∀ c ∈ cs, f c = g c) :
    cs.mapM f = cs.mapM g := by
  induction cs with
  | nil => rfl
  | cons c cs ih =>
    rw [mapM_cons, mapM_cons, h c (by simp), ih fun d hd => h d (by simp [hd])]

lemma mapM_congr [Monad m] [LawfulMonad m] (spare : D) {n : Node C}
    (h : ∀ c ∈ n.children, f c = g c) : n.mapM f = n.mapM g := by
  rw [mapM_eq_refill spare, mapM_eq_refill spare g, mapM_list_congr h]

lemma children_map (f : C → D) (n : Node C) : (n.map f).children = n.children.map f := by
  cases n <;> simp [map, children, Option.toList_map]

lemma mapM_pure [Monad m] [LawfulMonad m] (f : C → D) (n : Node C) :
    n.mapM (fun c => (pure (f c) : m D)) = pure (n.map f) := by
  have hoption : ∀ o : Option C, o.mapM (fun c => (pure (f c) : m D)) = pure (o.map f) := by
    rintro (_ | c) <;> simp
  cases n <;> simp [mapM, map, hoption]

@[simp] lemma kind_map (f : C → D) (n : Node C) : (n.map f).kind = n.kind := by cases n <;> rfl

lemma refill_refill (spare : D) (spare' : E) (n : Node C) (ds : List D) (es : List E)
    (h : ds.length = n.children.length) :
    (n.refill spare ds).refill spare' es = n.refill spare' es := by
  cases n <;> simp only [refill, map]
  case tryStmt _ handler _ => cases handler <;> rfl
  case catchClause binder _ => cases binder <;> rfl
  case templateExpr _ spans =>
    rw [refillSpans_refillSpans spans ds _ (by simpa [children] using h)]

lemma map_refill (spare : D) (f : D → E) (n : Node C) (ds : List D)
    (h : ds.length = n.children.length) :
    (n.refill spare ds).map f = n.refill (f spare) (ds.map f) := by
  rw [map_eq_refill (f spare), children_refill spare n ds h, refill_refill spare _ n ds _ h]

lemma refill_children (spare : C) (n : Node C) : n.refill spare n.children = n := by
  have h := map_eq_refill spare (fun c => c) n
  rw [map_id'] at h
  rw [← h]
  cases n <;> simp [map]

lemma mem_children_tryStmt {c tryBlock : C} {handler finalizer : Option C} :
    c ∈ (tryStmt tryBlock handler finalizer).children ↔
      c = tryBlock ∨ handler = some c ∨ finalizer = some c := by simp [children]

end Node

namespace Tree

variable {α : Type} {c s t : Tree α} {P : Tree α → Prop}

lemma sizeOf_lt_of_mem_children {t : α} {n : Node (Tree α)} (h : c ∈ n.children) :
    sizeOf c < sizeOf (mk t n) := by
  cases n <;> simp [Node.children] at h <;> simp
  case functionDecl | arrowFunction =>
    rcases h with h | rfl
    · have := sizeOf_lt_of_mem h
      omega
    · omega
  case callExpr | newExpr =>
    rcases h with rfl | h
    · omega
    · have := sizeOf_lt_of_mem h
      omega
  case block | arrayLiteral | objectLiteral =>
    have := sizeOf_lt_of_mem h
    omega
  case templateExpr _ spans =>
    obtain ⟨⟨expression, literal⟩, hs, rfl⟩ := h
    have hlt := sizeOf_lt_of_mem hs
    simp only [Span.mk.sizeOf_spec] at hlt ⊢
    omega
  all_goals grind [Option.some.sizeOf_spec]

lemma children_induction (step : ∀ t n, (∀ c ∈ n.children, P c) → P (.mk t n)) (t : Tree α) :
    P t := by
  induction h : sizeOf t using Nat.strongRecOn generalizing t with
  | _ k ih =>
    obtain ⟨t, n⟩ := t
    exact step t n fun c hc => ih _ (h ▸ sizeOf_lt_of_mem_children hc) c rfl

variable {m : Type → Type} [Monad m] [LawfulMonad m] {β : Type} (f : Tree α → Node β → m β)

lemma foldListM_eq (ts : List (Tree α)) : foldListM f ts = ts.mapM (foldM f) := by
  induction ts with
  | nil => simp [foldListM]
  | cons t ts ih => simp [foldListM, ih]

lemma foldOptionM_eq (o : Option (Tree α)) : foldOptionM f o = o.mapM (foldM f) := by
  cases o <;> simp [foldOptionM]

lemma foldSpansM_eq (spans : List (Span (Tree α))) :
    foldSpansM f spans = (spans.mapM fun s => do pure ⟨← foldM f s.expression, s.literal⟩) := by
  induction spans with
  | nil => simp [foldSpansM]
  | cons s spans ih => simp [foldSpansM, ih]

lemma foldM_mk (t : α) (n : Node (Tree α)) :
    foldM f (.mk t n) = n.mapM (foldM f) >>= f (.mk t n) := by
  cases n <;> simp [foldM, Node.mapM, foldListM_eq, foldOptionM_eq, foldSpansM_eq]

lemma fold_mk (g : Tree α → Node β → β) (t : α) (n : Node (Tree α)) :
    fold g (.mk t n) = g (.mk t n) (n.map (fold g)) := by
  have h := Node.mapM_pure (m := Id) (fold g) n
  unfold fold at h ⊢
  rw [foldM_mk]
  change Id.run (n.mapM (fun c => pure (Id.run (foldM _ c))) >>= _) = _
  rw [h]
  rfl

lemma untag_mk (tag : α) (n : Node (Tree α)) : (mk tag n).untag = .mk () (n.map untag) := fold_mk ..

@[simp] lemma kind_untag (t : Tree α) : t.untag.kind = t.kind := by
  obtain ⟨tag, n⟩ := t
  rw [untag_mk]
  exact Node.kind_map untag n

lemma subtrees_eq (t : Tree α) : t.subtrees = t :: t.descendants := by
  obtain ⟨tag, n⟩ := t
  rw [subtrees, fold_mk, Node.children_map, descendants, children, node, flatMap]
  rfl

lemma mem_descendants : s ∈ t.descendants ↔ ∃ c ∈ t.children, s = c ∨ s ∈ c.descendants := by
  rw [descendants, mem_flatMap]
  constructor
  · rintro ⟨c, hc, hs⟩
    rw [subtrees_eq, mem_cons] at hs
    exact ⟨c, hc, hs⟩
  · rintro ⟨c, hc, hs⟩
    rw [← mem_cons, ← subtrees_eq] at hs
    exact ⟨c, hc, hs⟩

lemma self_mem_subtrees (t : Tree α) : t ∈ t.subtrees := by
  rw [subtrees_eq]
  exact mem_cons_self

lemma mem_descendants_of_child (hc : c ∈ t.node.children) (hs : s ∈ c.subtrees) :
    s ∈ t.descendants := mem_flatMap.mpr ⟨c, hc, hs⟩

lemma mem_subtrees_of_child (hc : c ∈ t.node.children) (hs : s ∈ c.subtrees) : s ∈ t.subtrees := by
  rw [subtrees_eq]
  exact mem_cons_of_mem _ (mem_descendants_of_child hc hs)

lemma child_mem_subtrees (hc : c ∈ t.node.children := by simp [Tree.node, Node.children]) :
    c ∈ t.subtrees :=
  mem_subtrees_of_child hc c.self_mem_subtrees

lemma child_mem_descendants (hc : c ∈ t.node.children := by simp [Tree.node, Node.children]) :
    c ∈ t.descendants :=
  mem_descendants_of_child hc c.self_mem_subtrees

lemma mem_descendants_trans {d : Tree α} (hs : s ∈ d.subtrees) (hd : d ∈ t.descendants) :
    s ∈ t.descendants := by
  induction t using children_induction with
  | step tag n ih =>
    obtain ⟨c, hc, rfl | hd⟩ := mem_descendants.mp hd
    · exact mem_descendants_of_child hc hs
    · exact mem_descendants.mpr ⟨c, hc, .inr (ih c hc hd)⟩

lemma subtrees_subset (h : s ∈ t.subtrees) : s.subtrees ⊆ t.subtrees := by
  rw [subtrees_eq, mem_cons] at h
  rcases h with rfl | h
  · exact Subset.refl _
  · intro u hu
    rw [subtrees_eq t]
    exact mem_cons_of_mem _ (mem_descendants_trans hu h)

lemma size_mk (tag : α) (n : Node (Tree α)) :
    (mk tag n).size = (n.children.map size).foldl (· + ·) 1 := by
  rw [size, fold_mk, Node.children_map]
  rfl

lemma le_foldl_add {ns : List Nat} (k : Nat) :
    k ≤ ns.foldl (· + ·) k ∧ ∀ n ∈ ns, k + n ≤ ns.foldl (· + ·) k := by
  induction ns generalizing k with
  | nil => simp
  | cons n ns ih =>
    obtain ⟨hle, hall⟩ := ih (k + n)
    rw [foldl_cons]
    refine ⟨by omega, fun l hl => ?_⟩
    obtain rfl | hl := mem_cons.mp hl
    · exact hle
    · have := hall l hl
      omega

lemma size_pos (t : Tree α) : 0 < t.size := by
  obtain ⟨tag, n⟩ := t
  rw [size_mk]
  exact (le_foldl_add 1).1

lemma size_lt_of_mem_descendants (h : s ∈ t.descendants) : s.size < t.size := by
  induction t using children_induction with
  | step tag n ih =>
    obtain ⟨c, hc, hs⟩ := mem_descendants.mp h
    have hlt : 1 + c.size ≤ (mk tag n).size := by
      rw [size_mk]
      exact (le_foldl_add 1).2 c.size (mem_map_of_mem hc)
    obtain rfl | hs := hs
    · omega
    · have := ih c hc hs
      omega

lemma descendants_induction (step : ∀ t, (∀ s ∈ t.descendants, P s) → P t) (t : Tree α) :
    P t := by
  induction h : t.size using Nat.strongRecOn generalizing t with
  | _ k ih => exact step t fun s hs => ih _ (h ▸ size_lt_of_mem_descendants hs) s rfl

lemma subtrees_induction {A : Tree α → Prop}
    (step : ∀ tag n, (∀ s ∈ (mk tag n).subtrees, A s) → (∀ s ∈ n.children, P s) →
      (∀ e ∈ n.children, ∀ s ∈ e.subtrees, P s) → P (.mk tag n)) (t : Tree α) :
    (∀ s ∈ t.subtrees, A s) → P t := by
  induction t using descendants_induction with
  | step t ih =>
    intro h
    have hbelow : ∀ s ∈ t.descendants, P s := fun s hs =>
      ih s hs fun d hd => h d (subtrees_subset (by rw [subtrees_eq]; exact .tail _ hs) hd)
    obtain ⟨tag, n⟩ := t
    exact step tag n h (fun s hs => hbelow s (child_mem_descendants hs))
      fun e he s hs => hbelow s (mem_descendants_of_child he hs)

/-- A recursion that is limited to a number of nodes, where a node asks only for nodes below it:
which number covers the tree makes no difference. -/
lemma within_eq {step : (Tree α → β) → Tree α → β} {within : Nat → Tree α → β}
    (hsucc : ∀ fuel t, within (fuel + 1) t = step (within fuel) t)
    (hcongr : ∀ {go go' t}, (∀ s ∈ t.descendants, go s = go' s) → step go t = step go' t)
    (t : Tree α) : ∀ {fuel}, t.size ≤ fuel → within fuel t = step (fun s => within s.size s) t := by
  induction t using descendants_induction with
  | step t ih =>
    intro fuel hfuel
    have hpos := t.size_pos
    obtain ⟨fuel, rfl⟩ := Nat.exists_eq_succ_of_ne_zero (Nat.ne_of_gt (by omega : 0 < fuel))
    rw [hsucc]
    refine hcongr fun s hs => ?_
    have hlt := size_lt_of_mem_descendants hs
    rw [ih s hs (by omega), ih s hs (Nat.le_refl _)]

end Tree

end ServiceFlow
