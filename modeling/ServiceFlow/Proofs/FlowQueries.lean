import ServiceFlow.Proofs.FlowMoves

/-!
# Control flow at each kind of node

How the nodes around a node decide where control goes from it, and which loop, catch clause or
finally block is met first on the way up.
-/

namespace ServiceFlow.Forest

attribute [local simp] Node.children

variable {f : Forest} {low : Nat → Nat} {c id : Nat} {node : Node NodeId} {before rest : List Nat}

lemma after?_append (hc : c ∉ before) : after? c (before ++ c :: rest) = rest.head? := by
  induction before with
  | nil => cases rest <;> simp [after?]
  | cons a before ih =>
    obtain ⟨hca, hc⟩ := List.ne_and_not_mem_of_not_mem_cons hc
    cases before with
    | nil | cons b before => simpa [after?, Ne.symm hca] using ih hc

lemma InOrder.nodup_children (h : f.InOrder low) (hn : f.node? id = some node) :
    node.children.Nodup := by
  refine (h.spaced hn).imp fun {a b} hab => ?_
  exact Nat.ne_of_lt (Nat.lt_of_lt_of_le hab (h.low_le b))

def stepRest? (f : Forest) (block : NodeId) : List NodeId → Option NodeId
  | [] => f.exit? block
  | next :: _ => f.step? next

lemma exists_of_loopBody? {p : Nat} (hb : f.loopBody? p = some c) :
    ∃ node, f.node? p = some node ∧ c ∈ node.children ∧ node.kind.isLoop = true := by
  unfold loopBody? at hb
  split at hb
  case h_5 => cases hb
  all_goals
    rename_i hn
    cases hb
    exact ⟨_, hn, by simp, rfl⟩

namespace InOrder

variable (h : f.InOrder low)
include h

variable {p c body : Nat} {isFinally : Bool}

lemma step?_of_block {statements : List Nat} (hn : f.node? p = some (.block statements isFinally)) :
    f.step? p = f.stepRest? p statements := by
  rw [h.step?_eq, entering, hn]
  cases statements <;> rfl

lemma exit?_of_block (hn : f.node? p = some (.block (before ++ c :: rest) isFinally)) :
    f.exit? c = f.stepRest? p rest := by
  have hp : f.parent? c = some p := h.parent_eq_some hn (by simp)
  have hnodup : (before ++ c :: rest).Nodup := h.nodup_children hn
  have hc : c ∉ before := fun hm => (List.nodup_append.mp hnodup).2.2 c hm c (by simp) rfl
  have hnext : f.next? c = rest.head? := by
    simp only [next?, chain, hp, Option.bind_some, hn]
    exact after?_append hc
  rw [h.exit?_eq, leaving, hnext]
  cases rest with
  | nil => simp [hp, isFunction_eq hn, loopBody?, hn, Node.kind, Kind.isFunction, follow, stepRest?]
  | cons next rest => rfl

lemma exit?_of_if {condition thenStmt : Nat} {elseStmt : Option Nat}
    (hn : f.node? p = some (.ifStmt condition thenStmt elseStmt))
    (hc : c ∈ (Node.ifStmt condition thenStmt elseStmt).children) : f.exit? c = f.exit? p := by
  have hp : f.parent? c = some p := h.parent_eq_some hn hc
  have hnext : f.next? c = none := by simp [next?, chain, hp, hn, after?]
  rw [h.exit?_eq, leaving, hnext]
  simp [hp, isFunction_eq hn, loopBody?, hn, Node.kind, Kind.isFunction, follow]

lemma exit?_of_loopBody (hb : f.loopBody? p = some c) : f.exit? c = some p := by
  obtain ⟨node, hn, hc, hloop⟩ := exists_of_loopBody? hb
  have hp : f.parent? c = some p := h.parent_eq_some hn hc
  have hfun : node.kind.isFunction = false := by cases node <;> first | rfl | cases hloop
  have hnext : f.next? c = none := by
    simp only [next?, chain, hp, Option.bind_some, hn]
    cases node <;> first | rfl | cases hloop
  rw [h.exit?_eq, leaving, hnext]
  simp [hp, isFunction_eq hn, hfun, hb, follow]

lemma exit?_of_try {tryBlock : Nat} {handler finalizer : Option Nat}
    (hn : f.node? p = some (.tryStmt tryBlock handler finalizer))
    (hc : c ∈ (Node.tryStmt tryBlock handler finalizer).children) : f.exit? c =
      if finalizer = none ∨ finalizer = some c then f.exit? p else finalizer.bind f.step? := by
  have hp : f.parent? c = some p := h.parent_eq_some hn hc
  have hnext : f.next? c = none := by simp [next?, chain, hp, hn, after?]
  rw [h.exit?_eq, leaving, hnext]
  simp only [hp, isFunction_eq hn, loopBody?, hn, Node.kind, Kind.isFunction, Bool.false_eq_true,
    if_false, reduceCtorEq]
  cases finalizer with
  | none => rfl
  | some finalizer => by_cases hfin : finalizer = c <;> simp [hfin, follow]

lemma exit?_of_binder {binder : Nat} (hn : f.node? p = some (.catchClause (some binder) body)) :
    f.exit? binder = f.step? body := by
  have hp : f.parent? binder = some p := h.parent_eq_some hn (by simp)
  have hnext : f.next? binder = some body := by simp [next?, chain, hp, hn, after?]
  rw [h.exit?_eq, leaving, hnext]
  rfl

lemma exit?_of_catch {binder : Option Nat} (hn : f.node? p = some (.catchClause binder body)) :
    f.exit? body = f.exit? p := by
  have hp : f.parent? body = some p := h.parent_eq_some hn (by simp)
  have hnext : f.next? body = none := by
    cases binder with
    | none => simp [next?, chain, hp, hn, after?]
    | some binder =>
      have hne : binder ≠ body := by
        have hnodup := h.nodup_children hn
        simpa using hnodup
      simp [next?, chain, hp, hn, after?, hne]
  rw [h.exit?_eq, leaving, hnext]
  simp [hp, isFunction_eq hn, loopBody?, hn, Node.kind, Kind.isFunction, follow]

lemma exit?_of_function (hout : ∀ p, f.parent? c = some p → f.isFunction p = true) :
    f.exit? c = none := by
  have hm := h.leaves_leaving c
  have hnone : f.leaving c = .stop none := by
    generalize f.leaving c = m at hm
    have hne : ∀ q, f.parent? c = some q → f.isFunction q ≠ false := by
      intro q hq
      simp [hout q hq]
    cases hm with
    | out => rfl
    | sibling hq hqf | loop hq hqf | up hq hqf => exact absurd hqf (hne _ hq)
  rw [h.exit?_eq, hnone]
  rfl

end InOrder

lemma InOrder.step?_of_works (h : f.InOrder low) (hn : f.node? id = some node)
    (hw : node.works = true) (hdo : node.kind ≠ .doStmt) : f.step? id = some id := by
  rw [h.step?_eq, entering, hn]
  cases node
  case doStmt => exact absurd rfl hdo
  case variableStmt _ initializer =>
    cases initializer with
    | none => cases hw
    | some value => rfl
  all_goals first | rfl | cases hw

section Enclosing

variable {id p : Nat}

lemma Linked.enclosing_of_parent (h : f.Linked) (hp : f.parent? id = some p)
    (hfun : f.isFunction p = false) : f.enclosing id = (p, id) :: f.enclosing p := by
  simp [enclosing, h.ancestors_of_parent hp, hfun]

lemma Linked.enclosing_of_function (h : f.Linked) (hp : f.parent? id = some p)
    (hfun : f.isFunction p = true) : f.enclosing id = [] := by
  simp [enclosing, h.ancestors_of_parent hp, hfun]

variable (h : f.Linked) (hp : f.parent? id = some p) (hfun : f.isFunction p = false)
include h hp hfun

lemma enclosingLoop?_of_parent :
    f.enclosingLoop? id = if f.loopBody? p = some id then some p else f.enclosingLoop? p := by
  rw [enclosingLoop?, h.enclosing_of_parent hp hfun, List.findSome?_cons]
  dsimp only
  split_ifs <;> rfl

lemma catchClause?_of_parent :
    f.catchClause? id = match f.node? p with
      | some (.tryStmt tryBlock (some handler) _) =>
        if tryBlock = id then some handler else f.catchClause? p
      | _ => f.catchClause? p := by
  rw [catchClause?, h.enclosing_of_parent hp hfun, List.findSome?_cons]
  dsimp only
  rcases f.node? p with _ | node
  · rfl
  · cases node
    case tryStmt tryBlock handler _ =>
      cases handler with
      | none => rfl
      | some handler =>
        dsimp only
        split_ifs <;> rfl
    all_goals rfl

lemma interceptingFinally?_of_parent :
    f.interceptingFinally? id = match f.node? p with
      | some (.tryStmt _ _ (some finalizer)) =>
        if finalizer = id then f.interceptingFinally? p else some finalizer
      | _ => f.interceptingFinally? p := by
  rw [interceptingFinally?, h.enclosing_of_parent hp hfun, List.findSome?_cons]
  dsimp only
  rcases f.node? p with _ | node
  · rfl
  · cases node
    case tryStmt _ _ finalizer =>
      cases finalizer with
      | none => rfl
      | some finalizer =>
        dsimp only
        split_ifs <;> rfl
    all_goals rfl

end Enclosing

section Passing

variable {id p : Nat} {node : Node NodeId} (h : f.Linked) (hn : f.node? p = some node)
  (hc : id ∈ node.children) (hfun : node.kind.isFunction = false)
include h hn hc hfun

lemma enclosingLoop?_eq_of_parent (hloop : node.kind.isLoop = false) :
    f.enclosingLoop? id = f.enclosingLoop? p := by
  have hnone : f.loopBody? p = none := by
    rw [loopBody?, hn]
    cases node <;> first | rfl | cases hloop
  rw [enclosingLoop?_of_parent h (h.parent_eq_some hn hc) (isFunction_eq hn ▸ hfun), hnone]
  rfl

lemma catchClause?_eq_of_parent (htry : node.kind ≠ .tryStmt) :
    f.catchClause? id = f.catchClause? p := by
  rw [catchClause?_of_parent h (h.parent_eq_some hn hc) (isFunction_eq hn ▸ hfun), hn]
  cases node <;> first | rfl | exact absurd rfl htry

lemma interceptingFinally?_eq_of_parent (htry : node.kind ≠ .tryStmt) :
    f.interceptingFinally? id = f.interceptingFinally? p := by
  rw [interceptingFinally?_of_parent h (h.parent_eq_some hn hc) (isFunction_eq hn ▸ hfun), hn]
  cases node <;> first | rfl | exact absurd rfl htry

end Passing

section Try

variable {id p tryBlock : Nat} {handler finalizer : Option Nat}

lemma Linked.parent_handler (h : f.Linked)
    (hn : f.node? p = some (.tryStmt tryBlock (some id) finalizer)) : f.parent? id = some p :=
  h.parent_eq_some hn (by simp)

lemma Linked.parent_finalizer (h : f.Linked)
    (hn : f.node? p = some (.tryStmt tryBlock handler (some id))) : f.parent? id = some p :=
  h.parent_eq_some hn (by simp)

lemma InOrder.try_parts_ne (h : f.InOrder low)
    (hn : f.node? p = some (.tryStmt tryBlock handler finalizer)) :
    (∀ c, handler = some c → c ≠ tryBlock) ∧ (∀ c, finalizer = some c → c ≠ tryBlock) ∧
      ∀ c, finalizer = some c → handler ≠ some c := by
  have hnodup := h.nodup_children hn
  cases handler <;> cases finalizer <;> simp_all [Node.children, eq_comm]

lemma isFunction_of_try (hn : f.node? p = some (.tryStmt tryBlock handler finalizer)) :
    f.isFunction p = false := by
  rw [isFunction_eq hn]
  rfl

variable (h : f.Linked) (hn : f.node? p = some (.tryStmt tryBlock handler finalizer))
include h hn

lemma catchClause?_of_guarded (hid : tryBlock = id) (hc : handler = some c) :
    f.catchClause? id = some c := by
  have hp : f.parent? id = some p := h.parent_eq_some hn (by simp [hid])
  subst hc
  rw [catchClause?_of_parent h hp (isFunction_of_try hn), hn]
  exact if_pos hid

lemma catchClause?_of_unguarded (hid : id ∈ (Node.tryStmt tryBlock handler finalizer).children)
    (hne : handler = none ∨ tryBlock ≠ id) : f.catchClause? id = f.catchClause? p := by
  rw [catchClause?_of_parent h (h.parent_eq_some hn hid) (isFunction_of_try hn), hn]
  cases handler with
  | none => rfl
  | some handler => exact if_neg (hne.resolve_left (by simp))

lemma interceptingFinally?_of_try (hid : id ∈ (Node.tryStmt tryBlock handler finalizer).children) :
    f.interceptingFinally? id =
      if finalizer = none ∨ finalizer = some id then f.interceptingFinally? p else finalizer := by
  rw [interceptingFinally?_of_parent h (h.parent_eq_some hn hid) (isFunction_of_try hn), hn]
  cases finalizer with
  | none => rfl
  | some finalizer => by_cases hfin : finalizer = id <;> simp [hfin]

end Try

end ServiceFlow.Forest
