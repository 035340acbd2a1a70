import ServiceFlow.Machine.Compile
import ServiceFlow.Proofs.LabelTargets
import ServiceFlow.Proofs.SuccessfulRuns

/-!
# Making the states of a statement

While the states of a statement are made, some names are owed. `Plan.Emission` says how a draft grew
while some of the debt was paid, and `Plan.Does` is a triple for actions that make states.
-/

namespace ServiceFlow.Machine

open List

attribute [local simp] Tree.node Node.children

open Forest

def Transition.ends : Transition → Bool
  | .next _ => false
  | .finish => true

/-- The ways out of a state: the next state, or the two ways out of a test. -/
inductive Way where
  | next
  | rule
  | default
deriving DecidableEq

namespace State

def ends : State → Bool
  | .pass p => p.transition.ends
  | .task t => t.transition.ends
  | .wait _ transition => transition.ends
  | .map header _ => header.transition.ends
  | .parallel header _ => header.transition.ends
  | .choice _ | .succeed | .fail .. => false

def exits : State → List String
  | .choice c => [c.next, c.otherwise]
  | s => s.next?.toList

def ways : State → List (Way × String)
  | .choice c => [(.rule, c.next), (.default, c.otherwise)]
  | s => s.next?.toList.map (.next, ·)

lemma exists_way {s : State} {e : String} (he : e ∈ s.exits) : ∃ way, (way, e) ∈ s.ways := by
  cases s with
  | choice c =>
    rcases mem_cons.mp he with rfl | he
    · exact ⟨.rule, mem_cons_self⟩
    · cases mem_singleton.mp he
      exact ⟨.default, mem_cons_of_mem _ mem_cons_self⟩
  | _ => exact ⟨.next, mem_map_of_mem he⟩

/-- The catchers of a state. -/
def catchers : State → List Catcher
  | .task t => t.catchers
  | .map header _ => header.catchers
  | .parallel header _ => header.catchers
  | _ => []

def resultPath? : State → Option ResultPath
  | .pass p => p.resultPath
  | _ => none

def isSucceed : State → Bool
  | .succeed => true
  | _ => false

/-- The machines inside a state. -/
def graphs : State → List Machine
  | .map _ iterator => [iterator]
  | .parallel _ branches => branches
  | _ => []

end State

/-- The statements that control can move to from a statement that did its work. At the end of a
finally block it moves on from the try statement. -/
def successors (f : Forest) (t : Term) : List (Option NodeId) :=
  match t.node with
  | .block .. => (finallyOwner? f t.tag).toList.map f.exit?
  | .tryStmt .. => [f.step? t.tag]
  | .ifStmt _ thenStmt elseStmt =>
    [f.step? thenStmt.tag, match elseStmt with
      | some elseStmt => f.step? elseStmt.tag
      | none => f.exit? t.tag]
  | .whileStmt _ body | .doStmt body _ | .forOfStmt _ _ body => [f.step? body.tag, f.exit? t.tag]
  | .breakStmt => (f.enclosingLoop? t.tag).toList.map f.exit?
  | .continueStmt => (f.enclosingLoop? t.tag).toList.map some
  | .returnStmt _ | .throwStmt _ => []
  | _ => [f.exit? t.tag]

def handlers (f : Forest) (id : NodeId) : List (Option NodeId) := (f.raise? id).toList.map f.step?

variable {f : Forest} {α : Type} {k : String → Emit α} {t inner : Term} {id : Nat} {name : String}

lemma mem_handlers {id handler : NodeId} (hr : f.raise? id = some handler) :
    f.step? handler ∈ handlers f id := by
  simp [handlers, hr]

/-- The statement that control moves to if a state of a statement is followed by only one other: the
branch that is taken where a condition is known, and the body of a loop over items. -/
def onward (program : Program) (t : Term) : Option NodeId :=
  let f := program.forest
  match t.node with
  | .tryStmt .. => f.step? t.tag
  | .ifStmt condition thenStmt elseStmt =>
    match decision program condition, elseStmt with
    | .ok (.known true), _ => f.step? thenStmt.tag
    | _, some elseStmt => f.step? elseStmt.tag
    | _, none => f.exit? t.tag
  | .whileStmt condition body | .doStmt body condition =>
    match decision program condition with
    | .ok (.known true) => f.step? body.tag
    | _ => f.exit? t.tag
  | .forOfStmt _ _ body => f.step? body.tag
  | .breakStmt => (f.enclosingLoop? t.tag).bind f.exit?
  | .continueStmt => f.enclosingLoop? t.tag
  | _ => f.exit? t.tag

/-- The statement that each way out of a state of a statement leads to. If the test of a loop over
items or at the end of a finally block succeeds, control stays at the statement. -/
def destination (program : Program) (t : Term) : Way → Option NodeId
  | .next => onward program t
  | .rule =>
    match t.node with
    | .ifStmt _ part _ | .whileStmt _ part | .doStmt part _ => program.forest.step? part.tag
    | _ => some t.tag
  | .default =>
    match t.node with
    | .block .. => (finallyOwner? program.forest t.tag).bind program.forest.exit?
    | .ifStmt _ _ (some elseStmt) => program.forest.step? elseStmt.tag
    | _ => program.forest.exit? t.tag

def isPending (slot : String) : Condition :=
  .and [.test (.ofVariable slot) (.isPresent true), .test (.ofVariable slot) (.isNull false)]

lemma run_bind_entry_eq_ok {a : α} {d d' : Draft} (h : (Emit.entry t >>= k).run d = .ok (a, d')) :
    ∃ name, d.labels.entries.lookup t.tag = some name ∧ (k name).run d = .ok (a, d') := by
  obtain ⟨name, d₁, hrun, h⟩ := run_bind_eq_ok h
  obtain ⟨_, _, hget, hrun⟩ := run_bind_eq_ok hrun
  cases hget
  split at hrun
  · rename_i hentry
    cases hrun
    exact ⟨name, hentry, h⟩
  · cases hrun

section Onward

variable {program : Program} {t : Term} {P : Option NodeId → Prop}
  (hexit : P (program.forest.exit? t.tag)) (hstep : P (program.forest.step? t.tag))
  (hpart : t.kind.isFunction = false → ∀ c ∈ t.node.children, P (program.forest.step? c.tag))
  (hjump : t.kind = .breakStmt ∨ t.kind = .continueStmt →
    P (program.forest.enclosingLoop? t.tag) ∧
      P ((program.forest.enclosingLoop? t.tag).bind program.forest.exit?))
include hexit hstep hpart hjump

lemma forall_successors (hblock : ∀ owner, finallyOwner? program.forest t.tag = some owner →
      P (program.forest.exit? owner)) {dest : Option NodeId}
    (hd : dest ∈ successors program.forest t) : P dest := by
  obtain ⟨tag, node⟩ := t
  cases node
  case block =>
    obtain ⟨owner, ho, rfl⟩ := mem_map.mp hd
    exact hblock owner (Option.mem_toList.mp ho)
  case tryStmt =>
    cases mem_singleton.mp hd
    exact hstep
  case ifStmt condition thenStmt elseStmt =>
    rcases mem_cons.mp hd with rfl | hd
    · exact hpart rfl thenStmt (by simp)
    · cases mem_singleton.mp hd
      cases elseStmt with
      | none => exact hexit
      | some elseStmt => exact hpart rfl elseStmt (by simp)
  case whileStmt | doStmt | forOfStmt =>
    rcases mem_cons.mp hd with rfl | hd
    · exact hpart rfl _ (by simp)
    · cases mem_singleton.mp hd
      exact hexit
  case breakStmt =>
    obtain ⟨loop, hloop, rfl⟩ := mem_map.mp hd
    have hjump := (hjump (.inl rfl)).2
    rwa [Option.mem_toList.mp hloop] at hjump
  case continueStmt =>
    obtain ⟨loop, hloop, rfl⟩ := mem_map.mp hd
    have hjump := (hjump (.inr rfl)).1
    rwa [Option.mem_toList.mp hloop] at hjump
  case returnStmt | throwStmt => cases hd
  all_goals
    cases mem_singleton.mp hd
    exact hexit

lemma onward_of_forall : P (onward program t) := by
  obtain ⟨tag, node⟩ := t
  cases node
  case tryStmt => exact hstep
  case ifStmt condition thenStmt elseStmt =>
    simp only [onward, Tree.node]
    split
    · exact hpart rfl thenStmt (by simp)
    · exact hpart rfl _ (by simp)
    · exact hexit
  case whileStmt | doStmt =>
    simp only [onward, Tree.node]
    split
    · exact hpart rfl _ (by simp)
    · exact hexit
  case forOfStmt binder expression body => exact hpart rfl body (by simp)
  case breakStmt => exact (hjump (.inl rfl)).2
  case continueStmt => exact (hjump (.inr rfl)).1
  all_goals exact hexit

end Onward

/-- A body of a function below a node. -/
structure InnerBody (f : Forest) (id : NodeId) (inner : Term) : Prop where
  shows : f.Shows inner
  isBody : f.IsBody inner.tag
  below : f.Below inner.tag id

lemma InnerBody.not_inside (h : f.Linked) {body : Nat} {t : Nat} (hinner : InnerBody f t inner)
    (ht : f.Within body t) (hw : f.Within body id) : ¬ f.Inside id inner.tag := by
  induction hw with
  | self =>
    intro hin
    have hlt := h.below_lt hinner.below
    have hle := h.le_of_inside (h.inside_of_within ht)
    have hle' := h.le_of_inside hin
    omega
  | @child id p hp hfun hw ih =>
    rintro (rfl | hbelow)
    · rw [hinner.isBody.isFunction p hp] at hfun
      cases hfun
    · obtain ⟨p', hp', hin⟩ := h.below_iff.mp hbelow
      exact ih (Option.mem_unique hp' hp ▸ hin)

/-- Labels that changed inside one node only. -/
structure Labels.Extends (f : Forest) (inner : NodeId) (labels labels' : Labels) : Prop where
  sane : labels'.Sane f
  taken : labels.names.taken ⊆ labels'.names.taken
  outside : ∀ id, ¬ f.Inside id inner → labels'.partsOf id = labels.partsOf id

/-- Inner machines change labels inside their bodies only. -/
def KeepsLabels (f : Forest) (nested : Nested) : Prop :=
  ∀ {inner labels machine labels'}, f.Shows inner → f.IsBody inner.tag → labels.Sane f →
    nested inner labels = .ok (machine, labels') → labels.Extends f inner.tag labels'

def working (states : Ordered State) : List String :=
  (states.filter fun entry => !entry.2.isSucceed).map Prod.fst

lemma working_append (states states' : Ordered State) :
    working (states ++ states') = working states ++ working states' := by
  rw [working, filter_append, map_append]
  rfl

lemma mem_working {states : Ordered State} :
    name ∈ working states ↔ ∃ s, s.isSucceed = false ∧ (name, s) ∈ states := by
  simp [working, and_comm]

def Draft.madeFrom (d : Draft) (start : Nat) : List String := working (d.states.drop start)

/-- What the emission of a body has at hand. -/
structure Plan where
  program : Program
  nested : Nested
  body : NodeId
  labels : Labels

namespace Plan

abbrev forest (plan : Plan) : Forest := plan.program.forest

/-- The body is one of an ordered forest, and inner machines keep its labels. -/
structure Sound (plan : Plan) (low : Nat → Nat) : Prop where
  inOrder : plan.forest.InOrder low
  isBody : plan.forest.IsBody plan.body
  nested : KeepsLabels plan.forest plan.nested

/-- Control that arrives somewhere arrives at a working statement of the body. -/
def Lands (plan : Plan) (dest : Option Nat) : Prop :=
  ∀ n, dest = some n → plan.forest.Within plan.body n ∧ plan.forest.Works n

/-- A name is that of the state which a move leads to, or of the succeed state if control ends. -/
def Goes (plan : Plan) (done : Option String) (source : NodeId) (dest : Option NodeId)
    (name : String) : Prop :=
  (plan.labels.target? plan.forest source dest).or done = some name

/-- Whether a state of a statement raises an error: that of a throw statement, and those at the end
of a finally block that raise the pending error again. -/
def raises (plan : Plan) (t : Term) (name : String) : Bool :=
  t.kind = .throwStmt || t.kind = .block && name ∉ plan.labels.namesOf t.tag

lemma kind_ne_throw {plan : Plan} (h : plan.raises t name = false) : t.kind ≠ .throwStmt := by
  intro hkind
  simp [raises, hkind] at h

/-- The variable that receives an error: the one of a catch clause, if it has one, or the pending
error of a finally block. -/
def errorPath? (plan : Plan) (handler : NodeId) : Option Path :=
  match plan.forest.node? handler with
  | some (.catchClause binder _) =>
    match binder.bind plan.forest.node? with
    | some (.variableStmt name _) => some (.ofVariable name)
    | _ => none
  | _ => (plan.labels.finallies.lookup handler).map fun parts => .ofVariable parts.slot

/-- Errors of a statement that uses a value are given to the handler that control flow finds. -/
def Caught (plan : Plan) (t : Term) (done : Option String) (catchers : List Catcher) : Prop :=
  ∀ c ∈ catchers, t.usedExpression? ≠ none ∧ ∃ handler, plan.forest.raise? t.tag = some handler ∧
    plan.Goes done t.tag (plan.forest.step? handler) c.next ∧
    c.resultPath = (plan.errorPath? handler).elim .discard .path

/-- Where a way out of a state of a statement leads: to another state of the statement, where control
flow leads, or, if it raises an error, to the handler of the error. The pending error of a finally
block is cleared on the way. -/
inductive Leads (plan : Plan) (t : Term) (done : Option String) (fresh : List String)
    (name : String) (s : State) (way : Way) (e : String) : Prop where
  | own (hraises : plan.raises t name = false) (he : e ∈ plan.labels.namesOf t.tag ∨ e ∈ fresh)
  | moves (hraises : plan.raises t name = false)
    (hd : destination plan.program t way ∈ successors plan.forest t)
    (hg : plan.Goes done t.tag (destination plan.program t way) e)
  | clears {handler : NodeId} (hraises : plan.raises t name = true) (hkind : t.kind = .block)
    (hr : plan.forest.raise? t.tag = some handler) (he : e ∈ fresh)
    (hs : s.resultPath? = (plan.errorPath? handler).map .path)
  | hands {handler : NodeId} (hraises : plan.raises t name = true)
    (hr : plan.forest.raise? t.tag = some handler)
    (hg : plan.Goes done t.tag (plan.forest.step? handler) e)

def Inlined (plan : Plan) (t : Term) (machine : Machine) : Prop :=
  ∃ inner labels labels', InnerBody plan.forest t.tag inner ∧ labels.Sane plan.forest ∧
    plan.nested inner labels = .ok (machine, labels')

/-- The ways out of a state are those of its statement. -/
structure Wired (plan : Plan) (t : Term) (done : Option String) (fresh : List String)
    (name : String) (s : State) : Prop where
  exits : ∀ {way e}, (way, e) ∈ s.ways → plan.Leads t done fresh name s way e
  caught : plan.Caught t done s.catchers
  thrown : s.isSucceed = false → t.kind = .throwStmt →
    ∀ handler, plan.forest.raise? t.tag = some handler →
      s.exits ≠ [] ∧ s.resultPath? = (plan.errorPath? handler).map .path
  ends : s.ends = true → t.kind = .returnStmt ∨
    plan.labels.target? plan.forest t.tag (onward plan.program t) = none
  graphs : ∀ g ∈ s.graphs, plan.Inlined t g

/-- A draft of the body in which the states of some names are still to be made. The states from
`start` on are those of the statement at hand. -/
structure Ready (plan : Plan) (start : Nat) (d : Draft) (owed : List String) : Prop where
  start_le : start ≤ d.states.length
  sane : d.labels.Sane plan.forest
  same : ∀ id, plan.forest.Within plan.body id → d.labels.partsOf id = plan.labels.partsOf id
  outside : ∀ id, ¬ plan.forest.Inside id plan.body → d.labels.partsOf id = plan.labels.partsOf id
  owed_nodup : owed.Nodup
  owed_taken : ∀ name ∈ owed, name ∈ d.labels.names.taken
  owed_new : ∀ name ∈ owed, name ∉ d.states.map Prod.fst
  taken : ∀ name ∈ d.states.map Prod.fst, name ∈ d.labels.names.taken
  nodup : (d.states.map Prod.fst).Nodup
  done : ∀ name, d.done = some name → (name, State.succeed) ∈ d.states

/-- What the emission of one statement adds to a draft. -/
structure Emission (plan : Plan) (t : Term) (start : Nat) (d : Draft) (owed : List String)
    (d' : Draft) (owed' : List String) (new : List (String × State)) : Prop where
  ready : plan.Ready start d' owed'
  states : d'.states = d.states ++ new
  taken : d.labels.names.taken ⊆ d'.labels.names.taken
  done : ∀ name, d.done = some name → d'.done = some name
  origin : ∀ name ∈ new.map Prod.fst ++ owed', name ∈ owed ∨ name ∉ d.labels.names.taken
  paid : ∀ name ∈ owed, name ∈ working new ++ owed'
  wired : ∀ {name s}, (name, s) ∈ new → plan.Wired t d'.done (d'.madeFrom start ++ owed') name s

variable {plan : Plan} {low : Nat → Nat} {t : Term} {start : Nat} {d d' d'' : Draft}
  {owed owed' owed'' : List String} {new new' : List (String × State)} {name : String} {s : State}
  {done done' : Option String} {after : List String} {dest : Option Nat} {source : Nat}

lemma Goes.mono (hg : plan.Goes done source dest name)
    (hdone : ∀ n, done = some n → done' = some n) : plan.Goes done' source dest name := by
  unfold Goes at hg ⊢
  generalize plan.labels.target? plan.forest source dest = target at hg ⊢
  cases target with
  | some target => exact hg
  | none => exact hdone name hg

lemma Caught.mono {catchers : List Catcher} (hc : plan.Caught t done catchers)
    (hdone : ∀ n, done = some n → done' = some n) : plan.Caught t done' catchers := by
  intro c hm
  obtain ⟨huse, handler, hr, hg, hpath⟩ := hc c hm
  exact ⟨huse, handler, hr, hg.mono hdone, hpath⟩

lemma Wired.mono {fresh fresh' : List String} (hw : plan.Wired t done fresh name s)
    (hdone : ∀ n, done = some n → done' = some n) (hfresh : fresh ⊆ fresh') :
    plan.Wired t done' fresh' name s := by
  refine ⟨?_, hw.caught.mono hdone, hw.thrown, hw.ends, hw.graphs⟩
  intro way e he
  cases hw.exits he with
  | own hraises he => exact .own hraises (he.imp_right fun h => hfresh h)
  | moves hraises hd hg => exact .moves hraises hd (hg.mono hdone)
  | clears hraises hkind hr he hs => exact .clears hraises hkind hr (hfresh he) hs
  | hands hraises hr hg => exact .hands hraises hr (hg.mono hdone)

namespace Emission

lemma refl (hr : plan.Ready start d owed) : plan.Emission t start d owed d owed [] where
  ready := hr
  states := by simp
  taken := fun _ h => h
  done := fun _ h => h
  origin := fun _ h => .inl h
  paid := fun _ h => h
  wired := nofun

lemma madeFrom_eq (h : plan.Emission t start d owed d' owed' new) (hr : plan.Ready start d owed) :
    d'.madeFrom start = d.madeFrom start ++ working new := by
  rw [Draft.madeFrom, h.states, drop_append_of_le_length hr.start_le, working_append]
  rfl

lemma trans (h₁ : plan.Emission t start d owed d' owed' new)
    (h₂ : plan.Emission t start d' owed' d'' owed'' new') :
    plan.Emission t start d owed d'' owed'' (new ++ new') := by
  have hmade := h₂.madeFrom_eq h₁.ready
  refine ⟨h₂.ready, ?_, fun _ h => h₂.taken (h₁.taken h), fun n h => h₂.done n (h₁.done n h), ?_, ?_,
    ?_⟩
  · rw [h₂.states, h₁.states, append_assoc]
  · intro name hname
    rw [map_append, append_assoc] at hname
    rcases mem_append.mp hname with hname | hname
    · exact h₁.origin name (mem_append_left _ hname)
    · rcases h₂.origin name hname with howed | hfresh
      · exact h₁.origin name (mem_append_right _ howed)
      · exact .inr fun htaken => hfresh (h₁.taken htaken)
  · intro name hname
    rw [working_append, append_assoc]
    rcases mem_append.mp (h₁.paid name hname) with hnew | howed
    · exact mem_append_left _ hnew
    · exact mem_append_right _ (h₂.paid name howed)
  · intro name s hm
    rcases mem_append.mp hm with hm | hm
    · refine (h₁.wired hm).mono h₂.done fun n hn => ?_
      rw [hmade, append_assoc]
      rcases mem_append.mp hn with hn | hn
      · exact mem_append_left _ hn
      · exact mem_append_right _ (h₂.paid n hn)
    · exact h₂.wired hm

end Emission

/-- A triple: an action that succeeds makes states of the statement, and the result holds. -/
def Does {α : Type} (plan : Plan) (t : Term) (start : Nat) (x : Emit α) (d : Draft)
    (owed : List String) (post : α → Draft → List String → Prop) : Prop :=
  ∀ a d', x.run d = .ok (a, d') →
    ∃ owed' new, plan.Emission t start d owed d' owed' new ∧ post a d' owed'

abbrev Pays (plan : Plan) (t : Term) (start : Nat) (x : Emit Unit) (d : Draft)
    (owed : List String) : Prop :=
  plan.Does t start x d owed fun _ _ owed' => owed' = []

namespace Does

variable {α β : Type} {x : Emit α} {k : α → Emit β} {mid post : α → Draft → List String → Prop}
  {post' : β → Draft → List String → Prop}

protected lemma pure {a : α} (hr : plan.Ready start d owed) (hp : post a d owed) :
    plan.Does t start (pure a) d owed post := by
  intro a' d' hrun
  cases hrun
  exact ⟨owed, [], .refl hr, hp⟩

protected lemma throw (e : CompileError) : plan.Does t start (throw e : Emit α) d owed post := by
  intro a d' hrun
  cases hrun

lemma throw_bind (e : CompileError) :
    plan.Does t start ((throw e : Emit α) >>= k) d owed post' := by
  intro a d' hrun
  cases hrun

protected lemma bind (hx : plan.Does t start x d owed mid)
    (hk : ∀ a d' owed', plan.Ready start d' owed' → (∀ n, d.done = some n → d'.done = some n) →
      mid a d' owed' → plan.Does t start (k a) d' owed' post') :
    plan.Does t start (x >>= k) d owed post' := by
  intro b d'' hrun
  obtain ⟨a, d', hx', hrun⟩ := run_bind_eq_ok hrun
  obtain ⟨owed', new, hfirst, hmid⟩ := hx a d' hx'
  obtain ⟨owed'', new', hrest, hpost⟩ := hk a d' owed' hfirst.ready hfirst.done hmid b d'' hrun
  exact ⟨owed'', new ++ new', hfirst.trans hrest, hpost⟩

lemma bind_read {P : α → Prop}
    (hx : plan.Does t start x d owed fun a d' owed' => P a ∧ d' = d ∧ owed' = owed)
    (hk : ∀ a, P a → plan.Does t start (k a) d owed post') :
    plan.Does t start (x >>= k) d owed post' := by
  refine .bind hx ?_
  rintro a _ _ - - ⟨ha, rfl, rfl⟩
  exact hk a ha

protected lemma mono (hx : plan.Does t start x d owed mid)
    (hp : ∀ a d' owed', mid a d' owed' → post a d' owed') : plan.Does t start x d owed post := by
  intro a d' hrun
  obtain ⟨owed', new, hem, hmid⟩ := hx a d' hrun
  exact ⟨owed', new, hem, hp a d' owed' hmid⟩

lemma keeping (hx : plan.Does t start x d owed post) :
    plan.Does t start x d owed fun a d' owed' =>
      post a d' owed' ∧ ∀ entry ∈ d.states, entry ∈ d'.states := by
  intro a d' hrun
  obtain ⟨owed', new, hem, hpost⟩ := hx a d' hrun
  refine ⟨owed', new, hem, hpost, fun entry hentry => ?_⟩
  rw [hem.states]
  exact mem_append_left _ hentry

protected lemma lift {x : Except CompileError α} (hr : plan.Ready start d owed) :
    plan.Does t start (liftM x) d owed fun a d' owed' => x = .ok a ∧ d' = d ∧ owed' = owed := by
  intro a d' hrun
  obtain ⟨hx, rfl⟩ := run_lift_eq_ok hrun
  exact ⟨owed, [], .refl hr, hx, rfl, rfl⟩

protected lemma get (hr : plan.Ready start d owed) :
    plan.Does t start get d owed fun a d' owed' => a = d ∧ d' = d ∧ owed' = owed := by
  intro a d' hrun
  cases hrun
  exact ⟨owed, [], .refl hr, rfl, rfl, rfl⟩

end Does

lemma nodup_append_singleton {xs : List α} {x : α} (hxs : xs.Nodup) (hx : x ∉ xs) :
    (xs ++ [x]).Nodup := by
  refine nodup_append.mpr ⟨hxs, nodup_singleton _, ?_⟩
  intro a ha b hb hab
  rw [mem_singleton] at hb
  exact hx (hb ▸ hab ▸ ha)

lemma Ready.put {before : List String} (hr : plan.Ready start d (before ++ name :: after))
    (s : State) :
    plan.Ready start { d with states := d.states ++ [(name, s)] } (before ++ after) := by
  have hnodup := nodup_cons.mp (nodup_middle.mp hr.owed_nodup)
  have hsub : ∀ n ∈ before ++ after, n ∈ before ++ name :: after := by
    intro n hn
    rcases mem_append.mp hn with hn | hn <;> simp [hn]
  have hkeys : ∀ n, n ∈ (d.states ++ [(name, s)]).map Prod.fst ↔
      n ∈ d.states.map Prod.fst ∨ n = name := by simp
  have hle : start ≤ (d.states ++ [(name, s)]).length := Nat.le_trans hr.start_le (by simp)
  refine ⟨hle, hr.sane, hr.same, hr.outside, hnodup.2, fun n hn => hr.owed_taken n (hsub n hn), ?_,
    ?_, ?_, ?_⟩
  · intro n hn hkey
    rcases (hkeys n).mp hkey with hkey | rfl
    · exact hr.owed_new n (hsub n hn) hkey
    · exact hnodup.1 hn
  · intro n hkey
    rcases (hkeys n).mp hkey with hkey | rfl
    · exact hr.taken n hkey
    · exact hr.owed_taken n (by simp)
  · rw [map_append, map_singleton]
    exact nodup_append_singleton hr.nodup (hr.owed_new name (by simp))
  · exact fun n hn => mem_append_left _ (hr.done n hn)

lemma does_put (before : List String) (hs : s.isSucceed = false)
    (hr : plan.Ready start d (before ++ name :: after))
    (hw : plan.Wired t d.done (d.madeFrom start ++ before ++ name :: after) name s) :
    plan.Does t start (Emit.put name s) d (before ++ name :: after) fun _ d' owed' =>
      d'.states = d.states ++ [(name, s)] ∧ d'.done = d.done ∧ owed' = before ++ after := by
  intro a d' hrun
  cases hrun
  have hworking : working [(name, s)] = [name] := by simp [working, hs]
  refine ⟨before ++ after, [(name, s)], ⟨hr.put s, rfl, fun _ h => h, fun _ h => h, ?_, ?_, ?_⟩,
    rfl, rfl, rfl⟩
  · intro n hn
    left
    simp only [map_singleton, singleton_append, mem_cons, mem_append] at hn ⊢
    tauto
  · intro n hn
    rw [hworking]
    simp only [singleton_append, mem_cons, mem_append] at hn ⊢
    tauto
  · intro n s' hm
    cases mem_singleton.mp hm
    refine hw.mono (fun _ h => h) fun n hn => ?_
    rw [Draft.madeFrom, drop_append_of_le_length hr.start_le, working_append, hworking]
    simp only [Draft.madeFrom, mem_append, mem_cons] at hn
    simp only [mem_append, mem_singleton]
    tauto

lemma does_put_last (hs : s.isSucceed = false) (hr : plan.Ready start d [name])
    (hw : plan.Wired t d.done (d.madeFrom start ++ [name]) name s) :
    plan.Pays t start (Emit.put name s) d [name] := by
  refine .mono (does_put [] hs hr (by simpa using hw)) ?_
  rintro _ _ _ ⟨-, -, rfl⟩
  rfl

lemma Ready.take (hr : plan.Ready start d owed) (hname : name ∉ d.labels.names.taken) :
    plan.Ready start { d with labels := d.labels.take name } (owed ++ [name]) := by
  refine ⟨hr.start_le, hr.sane.take name, hr.same, hr.outside, ?_, ?_, ?_, ?_, hr.nodup, hr.done⟩
  · exact nodup_append_singleton hr.owed_nodup fun hn => hname (hr.owed_taken name hn)
  · intro n hn
    rcases mem_append.mp hn with hn | hn
    · exact mem_cons_of_mem _ (hr.owed_taken n hn)
    · exact mem_cons.mpr (.inl (mem_singleton.mp hn))
  · intro n hn hkey
    rcases mem_append.mp hn with hn | hn
    · exact hr.owed_new n hn hkey
    · exact hname (mem_singleton.mp hn ▸ hr.taken n hkey)
  · exact fun n hn => mem_cons_of_mem _ (hr.taken n hn)

lemma Ready.not_own (hr : plan.Ready start d owed) (hw : plan.forest.Within plan.body id)
    (hname : name ∉ d.labels.names.taken) : name ∉ plan.labels.namesOf id := by
  intro hown
  rw [Labels.namesOf, ← hr.same id hw] at hown
  exact hname (hr.sane.taken hown)

lemma exists_run_fresh (text : String) (d : Draft) : ∃ name, name ∉ d.labels.names.taken ∧
    (Emit.fresh text).run d = .ok (name, { d with labels := d.labels.take name }) := by
  obtain ⟨name, hname, halloc⟩ := d.labels.exists_allocate text
  refine ⟨name, hname, ?_⟩
  exact congrArg (fun r => Except.ok (r.1, { d with labels := r.2 })) halloc

lemma does_fresh (hr : plan.Ready start d owed) (text : String) :
    plan.Does t start (Emit.fresh text) d owed fun name d' owed' =>
      name ∉ d.labels.names.taken ∧ d'.done = d.done ∧ owed' = owed ++ [name] := by
  intro name d' hrun
  obtain ⟨name', hname, hfresh⟩ := exists_run_fresh text d
  cases hfresh.symm.trans hrun
  refine ⟨owed ++ [name], [], ⟨hr.take hname, by simp, fun n hn => mem_cons_of_mem _ hn,
    fun _ h => h, ?_, fun n hn => by simp [hn], nofun⟩, hname, rfl, rfl⟩
  intro n hn
  rw [map_nil, nil_append, mem_append, mem_singleton] at hn
  rcases hn with hn | rfl
  · exact .inl hn
  · exact .inr hname

lemma does_done (hr : plan.Ready start d owed) :
    plan.Does t start Emit.done d owed fun name d' owed' => d'.done = some name ∧ owed' = owed := by
  refine .bind_read (.get hr) ?_
  rintro d rfl
  split
  · rename_i name hdone
    exact .pure hr ⟨hdone, rfl⟩
  · rename_i hnone
    obtain ⟨name, hname, hfresh⟩ := exists_run_fresh "Done" d
    intro _ _ hrun
    rw [StateT.run_bind, hfresh] at hrun
    cases hrun
    have hready := (hr.take hname).put State.succeed
    rw [append_nil] at hready
    refine ⟨owed, [(name, .succeed)], ⟨⟨hready.start_le, hready.sane, hready.same, hready.outside,
      hready.owed_nodup, hready.owed_taken, hready.owed_new, hready.taken, hready.nodup, ?_⟩, rfl,
      fun n hn => mem_cons_of_mem _ hn, by simp [hnone], ?_,
      fun n hn => mem_append_right _ hn, ?_⟩, rfl, rfl⟩
    · rintro n ⟨⟩
      exact mem_append_right _ (mem_singleton.mpr rfl)
    · intro n hn
      rcases mem_cons.mp hn with rfl | hn
      · exact .inr hname
      · exact .inl hn
    · intro n s hm
      cases mem_singleton.mp hm
      exact ⟨nofun, nofun, nofun, nofun, nofun⟩

section Lands

variable (hp : plan.Sound low) {id : Nat} (hw : plan.forest.Within plan.body id)
include hp hw

lemma lands_step? : plan.Lands (plan.forest.step? id) :=
  fun _ hn => hp.inOrder.step?_within hp.isBody hw hn

lemma lands_exit? : plan.Lands (plan.forest.exit? id) :=
  fun _ hn => hp.inOrder.within_of_arrives hp.isBody (hp.inOrder.arrives_exit? hw) hn

lemma lands_handlers (hd : dest ∈ handlers plan.forest id) : plan.Lands dest := by
  obtain ⟨handler, hraise, rfl⟩ := mem_map.mp hd
  rw [Option.mem_toList] at hraise
  exact lands_step? hp (hp.inOrder.within_of_raise? hp.isBody hw hraise)

lemma lands_finallyOwner? {owner : Nat} (ho : finallyOwner? plan.forest id = some owner) :
    plan.Lands (plan.forest.exit? owner) := by
  obtain ⟨hparent, _, _, hn⟩ := finallyOwner?_eq_some ho
  exact lands_exit? hp (hp.isBody.within_parent hw hparent (isFunction_of_try hn))

lemma lands_enclosingLoop? : plan.Lands (plan.forest.enclosingLoop? id) ∧
    plan.Lands ((plan.forest.enclosingLoop? id).bind plan.forest.exit?) := by
  have hwithin : plan.Lands (plan.forest.enclosingLoop? id) :=
    fun _ hloop => hp.inOrder.within_of_enclosingLoop? hp.isBody hw hloop
  refine ⟨hwithin, fun n hn => ?_⟩
  obtain ⟨loop, hloop, hexit⟩ := Option.bind_eq_some_iff.mp hn
  exact lands_exit? hp (hwithin loop hloop).1 n hexit

end Lands

section Moves

variable (hp : plan.Sound low) (ht : plan.forest.Shows t) (hw : plan.forest.Within plan.body t.tag)
include hp ht hw

lemma lands_part (hfun : t.kind.isFunction = false) {c : Term} (hc : c ∈ t.node.children) :
    plan.Lands (plan.forest.step? c.tag) := by
  obtain ⟨-, hparent⟩ := hp.inOrder.shows_child ht hc
  refine lands_step? hp (.child hparent ?_ hw)
  rw [isFunction_eq (hp.inOrder.node?_of_shows ht), Node.kind_map]
  exact hfun

lemma lands_successors (hd : dest ∈ successors plan.forest t) : plan.Lands dest :=
  forall_successors (lands_exit? hp hw) (lands_step? hp hw)
    (fun hfun _ hc => lands_part hp ht hw hfun hc) (fun _ => lands_enclosingLoop? hp hw)
    (fun _ ho => lands_finallyOwner? hp hw ho) hd

end Moves

section Flow

variable (hp : plan.Sound low)
include hp

lemma Ready.target?_eq (hr : plan.Ready start d owed)
    (hsource : plan.forest.Within plan.body source) (hdest : plan.Lands dest) :
    d.labels.target? plan.forest source dest = plan.labels.target? plan.forest source dest :=
  Labels.target?_congr hp.inOrder hp.isBody hsource (fun n hn => (hdest n hn).1) hr.same

variable {source : Nat} {dest : Option Nat} (hsource : plan.forest.Within plan.body source)
  (hdest : plan.Lands dest) (hr : plan.Ready start d owed)
include hsource hdest hr

lemma does_moveTo :
    plan.Does t start (Emit.moveTo plan.forest source dest) d owed fun transition d' owed' =>
      transition = .ofOption (plan.labels.target? plan.forest source dest) ∧ d' = d ∧
        owed' = owed := by
  refine .bind_read (.get hr) ?_
  rintro _ rfl
  exact .pure hr ⟨congrArg _ (hr.target?_eq hp hsource hdest), rfl, rfl⟩

lemma does_require :
    plan.Does t start (Emit.require plan.forest source dest) d owed fun name d' owed' =>
      plan.Goes d'.done source dest name ∧ owed' = owed := by
  refine .bind_read (.get hr) ?_
  rintro _ rfl
  have htarget := hr.target?_eq hp hsource hdest
  split
  · rename_i name hname
    refine .pure hr ⟨?_, rfl⟩
    rw [Goes, ← htarget, hname]
    rfl
  · rename_i hnone
    refine (does_done hr).mono ?_
    rintro name d' owed' ⟨hdone, rfl⟩
    refine ⟨?_, rfl⟩
    rw [Goes, ← htarget, hnone]
    exact hdone

end Flow

lemma does_entry (hr : plan.Ready start d owed) (hw : plan.forest.Within plan.body t.tag) :
    plan.Does t start (Emit.entry t) d owed fun name d' owed' =>
      plan.labels.entries.lookup t.tag = some name ∧ d' = d ∧ owed' = owed := by
  refine .bind_read (.get hr) ?_
  rintro _ rfl
  split
  · rename_i name hname
    refine .pure hr ⟨?_, rfl, rfl⟩
    obtain ⟨hentry, -⟩ := Parts.mk.inj (hr.same t.tag hw)
    exact hentry ▸ hname
  · exact .throw _

lemma does_bind_entry {post : α → Draft → List String → Prop}
    (hw : plan.forest.Within plan.body t.tag)
    (hentry : plan.labels.entries.lookup t.tag = some name) (hr : plan.Ready start d owed)
    (hk : plan.Does t start (k name) d owed post) :
    plan.Does t start (Emit.entry t >>= k) d owed post := by
  refine .bind_read (does_entry hr hw) fun name' hname => ?_
  obtain rfl := Option.mem_unique hentry hname
  exact hk

lemma does_pendingSlot (hr : plan.Ready start d owed) (f : Forest) (finalizer : NodeId) :
    plan.Does t start (Emit.pendingSlot f finalizer) d owed fun path d' owed' =>
      some path = (d.labels.finallies.lookup finalizer).map (fun parts => .ofVariable parts.slot) ∧
        d' = d ∧ owed' = owed := by
  refine .bind_read (.get hr) ?_
  rintro d rfl
  split
  · rename_i parts hparts
    exact .pure hr ⟨by rw [hparts]; rfl, rfl, rfl⟩
  · exact .throw _

lemma does_errorPath (hr : plan.Ready start d owed) {handler : Nat}
    (hw : plan.forest.Within plan.body handler) :
    plan.Does t start (Emit.errorPath plan.forest handler) d owed fun path d' owed' =>
      path = plan.errorPath? handler ∧ d' = d ∧ owed' = owed := by
  obtain ⟨-, -, hsame, -⟩ := Parts.mk.inj (hr.same handler hw)
  unfold Emit.errorPath
  split
  · rename_i binder _ hn
    split
    · rename_i hbinder
      exact .pure hr ⟨by simp only [errorPath?, hn, hbinder], rfl, rfl⟩
    · exact .pure hr ⟨by simp only [errorPath?, hn], rfl, rfl⟩
  · rename_i hn
    refine .bind_read (does_pendingSlot hr plan.forest handler) fun path hpath => ?_
    refine .pure hr ⟨?_, rfl, rfl⟩
    rw [hpath, hsame, errorPath?]
    split
    · exact absurd (by assumption) (hn _ _)
    · rfl

section Raise

variable (hp : plan.Sound low) (hw : plan.forest.Within plan.body t.tag)
include hp hw

lemma does_catchers (hr : plan.Ready start d owed) (huse : t.usedExpression? ≠ none) :
    plan.Does t start (Emit.catchers plan.forest t) d owed fun catchers d' owed' =>
      plan.Caught t d'.done catchers ∧ owed' = owed := by
  unfold Emit.catchers
  split
  · exact .pure hr ⟨nofun, rfl⟩
  · rename_i handler hraise
    have hwithin := hp.inOrder.within_of_raise? hp.isBody hw hraise
    refine .bind_read (does_errorPath hr hwithin) ?_
    rintro path rfl
    refine .bind (does_require hp hw (lands_step? hp hwithin) hr) ?_
    rintro next d₁ _ hr₁ - ⟨hnext, rfl⟩
    refine .pure hr₁ ⟨?_, rfl⟩
    intro c hc
    cases mem_singleton.mp hc
    refine ⟨huse, handler, hraise, hnext, ?_⟩
    cases plan.errorPath? handler <;> rfl

lemma does_nested (hinner : InnerBody plan.forest t.tag inner) (hr : plan.Ready start d owed) :
    plan.Does t start (plan.nested.emit inner) d owed fun machine _ owed' =>
      plan.Inlined t machine ∧ owed' = owed := by
  intro machine d' hrun
  change (plan.nested inner d.labels >>= fun r => pure (r.1, { d with labels := r.2 })) = _ at hrun
  cases hn : plan.nested inner d.labels with
  | error e =>
    rw [hn] at hrun
    cases hrun
  | ok r =>
    obtain ⟨machine', labels⟩ := r
    rw [hn] at hrun
    cases hrun
    have hext := hp.nested hinner.shows hinner.isBody hr.sane hn
    refine ⟨owed, [], ⟨⟨hr.start_le, hext.sane, ?_, ?_, hr.owed_nodup,
      fun n hn => hext.taken (hr.owed_taken n hn), hr.owed_new,
      fun n hn => hext.taken (hr.taken n hn), hr.nodup, hr.done⟩, by simp, hext.taken, fun _ h => h,
      fun _ h => .inl h, fun _ h => h, nofun⟩, ⟨inner, d.labels, labels, hinner, hr.sane, hn⟩, rfl⟩
    · intro id hid
      rw [← hr.same id hid]
      exact hext.outside id (hinner.not_inside hp.inOrder.toLinked hw hid)
    · intro id hid
      rw [← hr.outside id hid]
      refine hext.outside id fun hin => hid ?_
      have hbelow := hp.inOrder.below_of_inside_of_below hin hinner.below
      exact hp.inOrder.inside_trans (.inr hbelow) (hp.inOrder.inside_of_within hw)

end Raise

end Plan

end ServiceFlow.Machine
