import ServiceFlow.Flow.Basic
import ServiceFlow.Proofs.ForestLinks

/-!
# Control flow, move by move

`Forest.step?` and `Forest.exit?` follow single moves of a walk to the end. In a forest in order a
walk never comes back, so their fuel is never used up.
-/

namespace ServiceFlow

open List

/-- What a walk through the statements does next. -/
inductive Move where
  | enter (id : NodeId)
  | leave (id : NodeId)
  | stop (dest : Option NodeId)
deriving DecidableEq, Repr

/-- Whether control stops at a statement. It passes through blocks, try statements, catch clauses and
declarations without a value. -/
def Node.works {C : Type} : Node C → Bool
  | .block .. | .tryStmt .. | .catchClause .. => false
  | .variableStmt _ initializer => initializer.isSome
  | node => node.kind.category = .statement

variable {C : Type}

@[simp] lemma Node.works_map {D : Type} (g : C → D) (node : Node C) :
    (node.map g).works = node.works := by
  cases node
  case variableStmt name initializer => cases initializer <;> rfl
  all_goals rfl

lemma Node.category_of_works {node : Node C} (hw : node.works = true) :
    node.kind.category = .statement := by
  cases node <;> first | rfl | cases hw

namespace Forest

variable {f : Forest} {low : Nat → Nat}

/-- The move at a node that is entered. -/
def entering (f : Forest) (id : NodeId) : Move :=
  match f.node? id with
  | none => .stop none
  | some (.tryStmt tryBlock _ _) => .enter tryBlock
  | some (.block (first :: _) _) => .enter first
  | some (.block [] _) => .leave id
  | some (.catchClause (some binder) _) => .enter binder
  | some (.catchClause none body) => .enter body
  | some (.variableStmt _ none) => .leave id
  | some (.doStmt body _) => .enter body
  | some node => if node.kind.category = .statement then .stop (some id) else .leave id

/-- The move at a node that is left. -/
def leaving (f : Forest) (id : NodeId) : Move :=
  match f.next? id with
  | some next => .enter next
  | none =>
    match f.parent? id with
    | none => .stop none
    | some parent =>
      if f.isFunction parent then .stop none
      else if f.loopBody? parent = some id then .stop (some parent)
      else
        match f.node? parent with
        | some (.tryStmt _ _ (some finalizer)) =>
          if finalizer = id then .leave parent else .enter finalizer
        | _ => .leave parent

def followWithin (f : Forest) (fuel : Nat) : Move → Option NodeId
  | .enter id => f.stepWithin fuel id
  | .leave id => f.exitWithin fuel id
  | .stop dest => dest

/-- Where a move leads in the end. -/
def follow (f : Forest) : Move → Option NodeId
  | .enter id => f.step? id
  | .leave id => f.exit? id
  | .stop dest => dest

lemma stepWithin_succ (fuel id : Nat) :
    f.stepWithin (fuel + 1) id = f.followWithin fuel (f.entering id) := by
  rw [stepWithin.eq_def, entering]
  dsimp only
  generalize f.node? id = node
  rcases node with _ | node
  · rfl
  · cases node
    case block statements _ => cases statements <;> rfl
    case variableStmt _ initializer => cases initializer <;> rfl
    case catchClause binder _ => cases binder <;> rfl
    all_goals rfl

lemma exitWithin_succ (fuel id : Nat) :
    f.exitWithin (fuel + 1) id = f.followWithin fuel (f.leaving id) := by
  rw [exitWithin.eq_def, leaving]
  dsimp only
  generalize f.next? id = next
  rcases next with _ | next
  · generalize f.parent? id = parent
    rcases parent with _ | parent
    · rfl
    · dsimp only
      split_ifs
      · rfl
      · rfl
      · generalize f.node? parent = node
        rcases node with _ | node
        · rfl
        · cases node
          case tryStmt _ _ finalizer =>
            cases finalizer
            · rfl
            · dsimp only
              split_ifs <;> rfl
          all_goals rfl
  · rfl

variable {id : Nat} {next p : Nat}

lemma after?_eq_some {ids : List Nat} (h : after? id ids = some next) :
    ∃ before rest, ids = before ++ id :: next :: rest := by
  induction ids with
  | nil => cases h
  | cons a ids ih =>
    cases ids with
    | nil => cases h
    | cons b rest =>
      rw [after?] at h
      split_ifs at h with ha
      · cases h
        exact ⟨[], rest, by rw [ha]; rfl⟩
      · obtain ⟨before, rest', hrest⟩ := ih h
        exact ⟨a :: before, rest', by rw [hrest]; rfl⟩

lemma chain_eq_children (h : f.chain id ≠ []) :
    ∃ p node, f.parent? id = some p ∧ f.node? p = some node ∧ f.chain id = node.children ∧
      node.kind.isFunction = false := by
  unfold chain at h ⊢
  cases hp : f.parent? id with
  | none => simp [hp] at h
  | some p =>
    cases hn : f.node? p with
    | none => simp [hp, hn] at h
    | some node =>
      have hbind : (some p).bind f.node? = some node := hn
      simp only [hp, hbind] at h ⊢
      refine ⟨p, node, rfl, hn, ?_⟩
      cases node
      case block => exact ⟨rfl, rfl⟩
      case catchClause binder body =>
        cases binder with
        | none => exact absurd rfl h
        | some binder => exact ⟨rfl, rfl⟩
      all_goals exact absurd rfl h

lemma isFunction_eq {node : Node NodeId} (hn : f.node? id = some node) :
    f.isFunction id = node.kind.isFunction := by simp [isFunction, kind?, hn]

/-- The moves that are possible when a node is entered. -/
inductive Enters (f : Forest) (id : Nat) : Move → Prop where
  | missing (hn : f.node? id = none) : Enters f id (.stop none)
  | child {node : Node NodeId} {c : Nat} (hn : f.node? id = some node)
    (hfun : node.kind.isFunction = false) (hc : c ∈ node.children) : Enters f id (.enter c)
  | pass {node : Node NodeId} (hn : f.node? id = some node) : Enters f id (.leave id)
  | work {node : Node NodeId} (hn : f.node? id = some node) (hw : node.works = true) :
    Enters f id (.stop (some id))

/-- The moves that are possible when a node is left. -/
inductive Leaves (f : Forest) (low : Nat → Nat) (id : Nat) : Move → Prop where
  | out (hp : ∀ p, f.parent? id = some p → f.isFunction p = true) : Leaves f low id (.stop none)
  | sibling {p c : Nat} (hp : f.parent? id = some p) (hfun : f.isFunction p = false)
    (hc : f.parent? c = some p) (hlt : id < low c) : Leaves f low id (.enter c)
  | loop {p : Nat} (hp : f.parent? id = some p) (hfun : f.isFunction p = false)
    (hbody : f.loopBody? p = some id) : Leaves f low id (.stop (some p))
  | up {p : Nat} (hp : f.parent? id = some p) (hfun : f.isFunction p = false) :
    Leaves f low id (.leave p)

lemma enters_entering (id : Nat) : f.Enters id (f.entering id) := by
  rw [entering]
  cases hn : f.node? id with
  | none => exact .missing hn
  | some node =>
    cases node
    case block statements _ =>
      cases statements with
      | nil => exact .pass hn
      | cons first rest => exact .child hn rfl (by simp [Node.children])
    case tryStmt | doStmt => exact .child hn rfl (by simp [Node.children])
    case catchClause binder _ => cases binder <;> exact .child hn rfl (by simp [Node.children])
    case variableStmt _ initializer =>
      cases initializer with
      | none => exact .pass hn
      | some value => exact .work hn rfl
    all_goals first | exact .work hn rfl | exact .pass hn

namespace InOrder

variable (h : f.InOrder low)
include h

variable {id : Nat}

lemma next?_spec (hn : f.next? id = some next) :
    ∃ p, f.parent? id = some p ∧ f.isFunction p = false ∧ f.parent? next = some p ∧
      id < low next := by
  obtain ⟨before, rest, hchain⟩ := after?_eq_some hn
  have hne : f.chain id ≠ [] := by simp [hchain]
  obtain ⟨p, node, hp, hnode, hchildren, hfun⟩ := chain_eq_children hne
  rw [hchildren] at hchain
  have hspaced := h.spaced hnode
  rw [hchain] at hspaced
  have hlt : id < low next := (pairwise_cons.mp (pairwise_append.mp hspaced).2.1).1 next (by simp)
  exact ⟨p, hp, isFunction_eq hnode ▸ hfun, h.parent_eq_some hnode (by simp [hchain]), hlt⟩

lemma lt_low_finalizer {tryBlock finalizer : Nat} {handler : Option Nat}
    (hp : f.parent? id = some p)
    (hnode : f.node? p = some (.tryStmt tryBlock handler (some finalizer))) (hne : finalizer ≠ id) :
    id < low finalizer := by
  obtain ⟨node, hnode', hid⟩ := h.parent_iff.mp hp
  obtain rfl := Option.mem_unique hnode hnode'
  have hspaced := h.spaced hnode
  simp only [Node.children, Option.toList_some] at hid hspaced
  rcases mem_append.mp hid with hid | hid
  · exact (pairwise_append.mp hspaced).2.2 id hid finalizer (by simp)
  · exact absurd (mem_singleton.mp hid).symm hne

lemma leaves_leaving (id : Nat) : f.Leaves low id (f.leaving id) := by
  rw [leaving]
  cases hn : f.next? id with
  | some next =>
    obtain ⟨p, hp, hfun, hc, hlt⟩ := h.next?_spec hn
    exact .sibling hp hfun hc hlt
  | none =>
    cases hp : f.parent? id with
    | none => exact .out (by simp [hp])
    | some p =>
      dsimp only
      split_ifs with hfun hloop
      · exact .out fun q hq => Option.mem_unique hp hq ▸ hfun
      · exact .loop hp (by simpa using hfun) hloop
      · split
        · rename_i tryBlock handler finalizer hnode
          split_ifs with hfin
          · exact .up hp (by simpa using hfun)
          · exact .sibling hp (by simpa using hfun) (h.parent_eq_some hnode (by simp [Node.children]))
              (h.lt_low_finalizer hp hnode hfin)
        · exact .up hp (by simpa using hfun)

end InOrder

/-- How many nodes a walk in the depth has entered and left before a move. A walk that stops is
given a time after all others. -/
def time (f : Forest) (low : Nat → Nat) : Move → Nat
  | .enter id => 2 * low id + (f.ancestors id).length
  | .leave id => 2 * id + 1 + (f.ancestors id).length
  | .stop _ => 2 * f.size + 1

lemma Linked.length_ancestors (h : f.Linked) (hp : f.parent? id = some p) :
    (f.ancestors id).length = (f.ancestors p).length + 1 := by
  rw [h.ancestors_of_parent hp, length_cons]

lemma Linked.length_ancestors_lt (h : f.Linked) (hid : id < f.size) :
    (f.ancestors id).length + id < f.size := by
  induction hk : f.size - id using Nat.strongRecOn generalizing id with
  | _ k ih =>
    cases hp : f.parent? id with
    | none =>
      rw [Linked.ancestors_of_root hp]
      simpa using hid
    | some p =>
      have hlt := h.lt_parent hp
      have hsize := h.parent_lt_size hp
      have hrec := ih (f.size - p) (by omega) hsize rfl
      rw [h.length_ancestors hp]
      omega

namespace InOrder

variable (h : f.InOrder low)
include h

variable {id d : Nat}

lemma time_enter_le (hid : id < f.size) : f.time low (.enter id) ≤ 2 * f.size := by
  have hlow := h.low_le id
  have hlen := h.length_ancestors_lt hid
  simp only [time]
  omega

lemma time_leave_le (hid : id < f.size) : f.time low (.leave id) ≤ 2 * f.size := by
  have hlen := h.length_ancestors_lt hid
  simp only [time]
  omega

lemma time_lt_entering (hid : id < f.size) :
    f.time low (.enter id) < f.time low (f.entering id) := by
  have hlow := h.low_le id
  have hle := h.time_enter_le hid
  have hm := f.enters_entering id
  generalize f.entering id = m at hm ⊢
  cases hm with
  | missing hn | work hn hw => exact Nat.lt_succ_of_le hle
  | child hn _ hc =>
    have hparent := h.length_ancestors (h.parent_eq_some hn hc)
    have hchild := h.low_child hn hc
    simp only [time]
    omega
  | pass hn =>
    simp only [time]
    omega

lemma time_lt_leaving (hid : id < f.size) : f.time low (.leave id) < f.time low (f.leaving id) := by
  have hle := h.time_leave_le hid
  have hm := h.leaves_leaving id
  generalize f.leaving id = m at hm ⊢
  cases hm with
  | out | loop hp hfun hbody => exact Nat.lt_succ_of_le hle
  | sibling hp hfun hc hlt =>
    have hparent := h.length_ancestors hp
    have hparent' := h.length_ancestors hc
    simp only [time]
    omega
  | up hp hfun =>
    have hlt := h.lt_parent hp
    have hparent := h.length_ancestors hp
    simp only [time]
    omega

omit h in
lemma entering_of_size_le (hid : f.size ≤ id) : f.entering id = .stop none := by
  rw [entering, node?_eq_none_of_size_le hid]

omit h in
lemma leaving_of_size_le (hid : f.size ≤ id) : f.leaving id = .stop none := by
  rw [leaving, next?, chain, parent?_eq_none_of_size_le hid]
  rfl

lemma move_induction {motive : Move → Prop} (stop : ∀ dest, motive (.stop dest))
    (enter : ∀ id, motive (f.entering id) → motive (.enter id))
    (leave : ∀ id, motive (f.leaving id) → motive (.leave id)) (m : Move) : motive m := by
  induction hk : 2 * f.size + 1 - f.time low m using Nat.strongRecOn generalizing m with
  | _ k ih =>
    cases m with
    | stop dest => exact stop dest
    | enter id =>
      refine enter id ?_
      by_cases hid : id < f.size
      · have hlt := h.time_lt_entering hid
        have hle := h.time_enter_le hid
        exact ih _ (by omega) _ rfl
      · rw [entering_of_size_le (Nat.le_of_not_lt hid)]
        exact stop none
    | leave id =>
      refine leave id ?_
      by_cases hid : id < f.size
      · have hlt := h.time_lt_leaving hid
        have hle := h.time_leave_le hid
        exact ih _ (by omega) _ rfl
      · rw [leaving_of_size_le (Nat.le_of_not_lt hid)]
        exact stop none

/-- Fuel beyond the time that is left changes nothing. -/
lemma followWithin_eq (m : Move) (n k : Nat) (hn : 2 * f.size < n + f.time low m)
    (hk : 2 * f.size < k + f.time low m) : f.followWithin n m = f.followWithin k m := by
  induction m using h.move_induction generalizing n k with
  | stop dest => rfl
  | enter id ih =>
    by_cases hid : id < f.size
    · have hlt := h.time_lt_entering hid
      have hle := h.time_enter_le hid
      obtain ⟨n, rfl⟩ : ∃ n', n = n' + 1 := Nat.exists_eq_add_one.mpr (by omega)
      obtain ⟨k, rfl⟩ : ∃ k', k = k' + 1 := Nat.exists_eq_add_one.mpr (by omega)
      simp only [followWithin, stepWithin_succ]
      exact ih n k (by omega) (by omega)
    · have hnone : ∀ n, f.stepWithin n id = none := by
        rintro (_ | n)
        · rfl
        · rw [stepWithin_succ, entering_of_size_le (Nat.le_of_not_lt hid)]
          rfl
      simp only [followWithin, hnone]
  | leave id ih =>
    by_cases hid : id < f.size
    · have hlt := h.time_lt_leaving hid
      have hle := h.time_leave_le hid
      obtain ⟨n, rfl⟩ : ∃ n', n = n' + 1 := Nat.exists_eq_add_one.mpr (by omega)
      obtain ⟨k, rfl⟩ : ∃ k', k = k' + 1 := Nat.exists_eq_add_one.mpr (by omega)
      simp only [followWithin, exitWithin_succ]
      exact ih n k (by omega) (by omega)
    · have hnone : ∀ n, f.exitWithin n id = none := by
        rintro (_ | n)
        · rfl
        · rw [exitWithin_succ, leaving_of_size_le (Nat.le_of_not_lt hid)]
          rfl
      simp only [followWithin, hnone]

lemma followWithin_eq_follow (m : Move) {n : Nat} (hn : 2 * f.size < n + f.time low m) :
    f.followWithin n m = f.follow m := by
  cases m with
  | stop dest => rfl
  | enter id => exact h.followWithin_eq (.enter id) n f.flowFuel hn (by unfold flowFuel; omega)
  | leave id => exact h.followWithin_eq (.leave id) n f.flowFuel hn (by unfold flowFuel; omega)

lemma step?_eq (id : Nat) : f.step? id = f.follow (f.entering id) := by
  rw [step?, flowFuel, stepWithin_succ]
  by_cases hid : id < f.size
  · have hlt := h.time_lt_entering hid
    exact h.followWithin_eq_follow _ (by omega)
  · rw [entering_of_size_le (by omega)]
    rfl

lemma exit?_eq (id : Nat) : f.exit? id = f.follow (f.leaving id) := by
  rw [exit?, flowFuel, exitWithin_succ]
  by_cases hid : id < f.size
  · have hlt := h.time_lt_leaving hid
    exact h.followWithin_eq_follow _ (by omega)
  · rw [leaving_of_size_le (by omega)]
    rfl

def earliest (low : Nat → Nat) : Move → Nat
  | .enter id => low id
  | .leave id => id + 1
  | .stop dest => dest.getD 0

lemma earliest_le (m : Move) (hd : f.follow m = some d) : earliest low m ≤ d := by
  induction m using h.move_induction with
  | stop dest =>
    cases dest with
    | none => cases hd
    | some dest => exact Nat.le_of_eq (Option.some.inj hd)
  | enter id ih =>
    rw [follow, h.step?_eq] at hd
    have hle := ih hd
    have hlow := h.low_le id
    have hm := f.enters_entering id
    generalize f.entering id = m at hm hle hd
    cases hm with
    | missing hn => cases hd
    | child hn _ hc => exact Nat.le_trans (h.low_child hn hc) hle
    | pass hn => exact Nat.le_trans hlow (Nat.le_of_succ_le hle)
    | work hn hw => exact Nat.le_trans hlow hle
  | leave id ih =>
    rw [follow, h.exit?_eq] at hd
    have hle := ih hd
    have hm := h.leaves_leaving id
    generalize f.leaving id = m at hm hle hd
    cases hm with
    | out => cases hd
    | sibling hp hfun hc hlt => exact Nat.le_trans hlt hle
    | loop hp hfun hbody => exact Nat.le_trans (h.lt_parent hp) hle
    | up hp hfun => exact Nat.le_trans (h.lt_parent hp) (Nat.le_of_succ_le hle)

lemma lt_of_exit? (hd : f.exit? id = some d) : id < d := h.earliest_le (.leave id) hd

end InOrder

end Forest

end ServiceFlow
