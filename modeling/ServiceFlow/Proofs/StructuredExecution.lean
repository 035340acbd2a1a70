import ServiceFlow.Proofs.FlowQueries
import ServiceFlow.Proofs.ForestGrowth
import ServiceFlow.Proofs.ForestView

/-!
# Control flow and structured execution

`Tree.exec` runs the body of a function by its structure, `Forest.walk` goes from statement to
statement by the control flow of the forest. Both visit the same statements in the same order.
Conditions are not evaluated: a run is given the outcome of every check.
-/

namespace ServiceFlow

open ServiceFlow.Tree List

attribute [local simp] Node.children Node.kind Node.map

/-- How a statement ends. A run is paused where it may visit no further statement. -/
inductive Completion where
  | normal
  | broke
  | continued
  | returned
  | threw
  | paused
deriving DecidableEq, Repr

/-- A run: the number of statements it may still visit, the outcomes of the branches and loop checks
to come, and the statements visited so far, the latest first. -/
structure Run where
  budget : Nat
  outcomes : Nat → Bool
  trace : List NodeId

namespace Run

def visiting (run : Run) (id : NodeId) (go : Run → Completion × Run) : Completion × Run :=
  match run.budget with
  | 0 => (.paused, run)
  | budget + 1 => go { run with budget, trace := id :: run.trace }

/-- The next outcome is used up. -/
def deciding (run : Run) (go : Bool → Run → Completion × Run) : Completion × Run :=
  go (run.outcomes 0) { run with outcomes := fun n => run.outcomes (n + 1) }

/-- Statements one after another. -/
def sequence : List (Run → Completion × Run) → Run → Completion × Run
  | [], run => (.normal, run)
  | first :: rest, run =>
    match first run with
    | (.normal, run) => sequence rest run
    | stopped => stopped

lemma sequence_singleton (statement : Run → Completion × Run) (run : Run) :
    sequence [statement] run = statement run := by
  rw [sequence]
  split
  · rename_i heq
    rw [heq]
    rfl
  · rfl

/-- What a loop does after a round. -/
def afterBody (ended : Completion × Run) (again : Run → Completion × Run) : Completion × Run :=
  match ended with
  | (.normal, run) | (.continued, run) => again run
  | (.broke, run) => (.normal, run)
  | stopped => stopped

/-- The rounds of a loop. -/
def loop (id : NodeId) (body : Run → Completion × Run) : Nat → Run → Completion × Run
  | 0, run => (.paused, run)
  | fuel + 1, run =>
    run.visiting id fun run =>
      run.deciding fun again run =>
        if again then afterBody (body run) (loop id body fuel) else (.normal, run)

def catching (ended : Completion × Run) (handler : Option (Run → Completion × Run)) :
    Completion × Run :=
  match ended, handler with
  | (.threw, run), some handler => handler run
  | ended, _ => ended

/-- Run a finally block. It ends the statement where it does not complete normally. -/
def finishing (ended : Completion × Run) (finalizer : Option (Run → Completion × Run)) :
    Completion × Run :=
  match ended, finalizer with
  | (.paused, run), _ => (.paused, run)
  | (completion, run), some finalizer =>
    match finalizer run with
    | (.normal, run) => (completion, run)
    | stopped => stopped
  | ended, none => ended

lemma catching_none (ended : Completion × Run) : catching ended none = ended := by
  unfold catching
  split
  · contradiction
  · rfl

lemma finishing_none (ended : Completion × Run) : finishing ended none = ended := by
  obtain ⟨c, run⟩ := ended
  cases c <;> rfl

lemma finishing_normal (finalizer : Run → Completion × Run) (run : Run) :
    finishing (.normal, run) (some finalizer) = finalizer run := by
  simp only [finishing]
  split
  · rename_i heq
    rw [heq]
  · rfl

lemma finishing_some {c : Completion} (hc : c ≠ .paused) (finalizer : Run → Completion × Run)
    (run : Run) :
    finishing (c, run) (some finalizer) =
      if (finalizer run).1 = .normal then (c, (finalizer run).2) else finalizer run := by
  rcases hlast : finalizer run with ⟨c', run'⟩
  cases c
  case paused => exact absurd rfl hc
  all_goals cases c' <;> simp [finishing, hlast]

end Run

namespace Node

def exec (id : NodeId) : Node (Run → Completion × Run) → Run → Completion × Run
  | .block statements _ => Run.sequence statements
  | .variableStmt _ (some _) | .exprStmt _ | .emptyStmt => fun run =>
    run.visiting id fun run => (.normal, run)
  | .ifStmt _ thenStmt elseStmt => fun run =>
    run.visiting id fun run =>
      run.deciding fun taken run =>
        if taken then thenStmt run else Run.sequence elseStmt.toList run
  | .whileStmt _ body | .forOfStmt _ _ body | .forInStmt _ _ body => fun run =>
    Run.loop id body run.budget run
  | .doStmt body _ => fun run =>
    Run.afterBody (body run) fun run => Run.loop id body run.budget run
  | .breakStmt => fun run => run.visiting id fun run => (.broke, run)
  | .continueStmt => fun run => run.visiting id fun run => (.continued, run)
  | .returnStmt _ => fun run => run.visiting id fun run => (.returned, run)
  | .throwStmt _ => fun run => run.visiting id fun run => (.threw, run)
  | .tryStmt tryBlock handler finalizer => fun run =>
    Run.finishing (Run.catching (tryBlock run) handler) finalizer
  | .catchClause _ body => body
  | _ => fun run => (.normal, run)

/-- Whether a jump leaves a statement, given whether it leaves its parts. -/
def jumps (jump : Completion) : Node Bool → Bool
  | .block statements _ => statements.any id
  | .ifStmt _ thenStmt elseStmt => thenStmt || elseStmt.any id
  | .whileStmt _ body | .doStmt body _ | .forOfStmt _ _ body | .forInStmt _ _ body =>
    body && jump ≠ .broke && jump ≠ .continued
  | .breakStmt => jump = .broke
  | .continueStmt => jump = .continued
  | .returnStmt _ => jump = .returned
  | .throwStmt _ => jump = .threw
  | .tryStmt tryBlock handler finalizer => tryBlock || handler.any id || finalizer.any id
  | .catchClause _ body => body
  | _ => false

/-- Whether a node is a statement of the kinds that are executed, given whether its parts are. -/
def structured : Node Bool → Bool
  | .block statements _ => statements.all id
  | .variableStmt .. | .exprStmt _ | .emptyStmt | .breakStmt | .continueStmt | .returnStmt _
  | .throwStmt _ => true
  | .ifStmt _ thenStmt elseStmt => thenStmt && elseStmt.all id
  | .whileStmt _ body | .doStmt body _ | .forOfStmt _ _ body | .forInStmt _ _ body => body
  | .tryStmt tryBlock handler finalizer => tryBlock && handler.all id && finalizer.all id
  | .catchClause _ body => body
  | _ => false

variable {C : Type}

/-- Whether a node holds no statement that runs with it and makes no jump. The body of a function
does not run where the function stands. -/
def isPlain : Node C → Bool
  | .block .. | .ifStmt .. | .whileStmt .. | .doStmt .. | .forOfStmt .. | .forInStmt ..
  | .tryStmt .. | .catchClause .. | .breakStmt | .continueStmt | .returnStmt _ | .throwStmt _ => false
  | _ => true

/-- Whether a node evaluates something of its own before any statement in it runs. -/
def evaluates : Node C → Bool
  | .block .. | .doStmt .. | .tryStmt .. | .breakStmt | .continueStmt => false
  | _ => true

/-- The body of a loop, and the loop that goes on after a turn. From the first turn on a do loop
checks its condition as a while loop does. -/
def turn? : Node C → Option (C × Node C)
  | .whileStmt condition body => some (body, .whileStmt condition body)
  | .doStmt body condition => some (body, .whileStmt condition body)
  | .forOfStmt binder expression body => some (body, .forOfStmt binder expression body)
  | .forInStmt binder expression body => some (body, .forInStmt binder expression body)
  | _ => none

lemma turn?_of_turn? {node again : Node C} {body : C} (hn : node.turn? = some (body, again)) :
    again.turn? = some (body, again) := by
  cases node <;> cases hn <;> rfl

end Node

namespace Tree

variable {α : Type}

/-- The structured execution of a term. -/
def exec (t : Term) : Run → Completion × Run := t.fold fun t n => n.exec t.tag

/-- Whether a statement holds a jump of a kind. A loop deals with the breaks and continues in it. -/
def jumps (jump : Completion) (t : Tree α) : Bool := t.fold fun _ n => n.jumps jump

def jumpFree (t : Tree α) : Bool :=
  !(t.jumps .broke || t.jumps .continued || t.jumps .returned || t.jumps .threw)

/-- What a statement asks of its parts: a finally block stands only where no jump leaves the try
block or the catch clause, and the variable of a catch clause has no value of its own. -/
def tidy (t : Tree α) : Bool :=
  match t.node with
  | .tryStmt tryBlock handler (some _) => tryBlock.jumpFree && handler.all jumpFree
  | .catchClause (some (.mk _ (.variableStmt _ none))) _ => true
  | .catchClause (some _) _ => false
  | _ => true

/-- A term that is tidy throughout. -/
def structured (t : Tree α) : Bool := t.fold fun t n => t.tidy && n.structured

lemma all_map_eq_true {o : Option (Tree α)} {p : Tree α → Bool} :
    (o.map p).all id = true ↔ ∀ t, o = some t → p t = true := by cases o <;> simp

lemma exec_mk (id : NodeId) (n : Node Term) : exec (.mk id n) = (n.map exec).exec id := fold_mk ..

lemma jumps_mk (jump : Completion) (t : α) (n : Node (Tree α)) :
    jumps jump (.mk t n) = (n.map (jumps jump)).jumps jump := fold_mk ..

lemma structured_mk (t : α) (n : Node (Tree α)) :
    structured (.mk t n) = (tidy (.mk t n) && (n.map structured).structured) := fold_mk ..

attribute [local simp] jumps_mk Node.jumps

/-- The ways in which a statement ends. `looped` says whether there is a loop around the statement
in its function: a break or continue without a loop does not run. Conditions are not evaluated, so
each branch may be taken, each loop may go on or stop, and whatever is evaluated may raise an
error. -/
inductive Ends : Bool → Tree α → Completion → Prop where
  | plain {looped tag node} (hn : node.isPlain = true) : Ends looped (.mk tag node) .normal
  | raises {looped tag node} (hn : node.evaluates = true) : Ends looped (.mk tag node) .threw
  | breaks {tag} : Ends true (.mk tag .breakStmt) .broke
  | continues {tag} : Ends true (.mk tag .continueStmt) .continued
  | returns {looped tag expression} : Ends looped (.mk tag (.returnStmt expression)) .returned
  | blockEnds {looped tag isFinally} : Ends looped (.mk tag (.block [] isFinally)) .normal
  | blockStops {looped tag isFinally first rest c} (hfirst : Ends looped first c)
      (hc : c ≠ .normal) : Ends looped (.mk tag (.block (first :: rest) isFinally)) c
  | blockGoesOn {looped tag isFinally first rest c} (hfirst : Ends looped first .normal)
      (hrest : Ends looped (.mk tag (.block rest isFinally)) c) :
      Ends looped (.mk tag (.block (first :: rest) isFinally)) c
  | ifThen {looped tag condition thenStmt elseStmt c} (hthen : Ends looped thenStmt c) :
      Ends looped (.mk tag (.ifStmt condition thenStmt elseStmt)) c
  | ifElse {looped tag condition thenStmt elseStmt c} (helse : Ends looped elseStmt c) :
      Ends looped (.mk tag (.ifStmt condition thenStmt (some elseStmt))) c
  | ifNot {looped tag condition thenStmt} :
      Ends looped (.mk tag (.ifStmt condition thenStmt none)) .normal
  -- Only a loop that goes on as itself is checked before its first turn.
  | loopDone {looped tag node body} (hn : node.turn? = some (body, node)) :
      Ends looped (.mk tag node) .normal
  | loopStops {looped tag node body again c} (hn : node.turn? = some (body, again))
      (hbody : Ends true body c) (hc : c = .returned ∨ c = .threw) : Ends looped (.mk tag node) c
  | loopBreaks {looped tag node body again} (hn : node.turn? = some (body, again))
      (hbody : Ends true body .broke) : Ends looped (.mk tag node) .normal
  | loopGoesOn {looped tag node body again c c'} (hn : node.turn? = some (body, again))
      (hbody : Ends true body c) (hc : c = .normal ∨ c = .continued)
      (hagain : Ends looped (.mk tag again) c') : Ends looped (.mk tag node) c'
  | tryEnds {looped tag tryBlock handler c} (htry : Ends looped tryBlock c)
      (hc : c ≠ .threw ∨ handler = none) : Ends looped (.mk tag (.tryStmt tryBlock handler none)) c
  | tryCatches {looped tag tryBlock handler c} (htry : Ends looped tryBlock .threw)
      (hcatch : Ends looped handler c) :
      Ends looped (.mk tag (.tryStmt tryBlock (some handler) none)) c
  -- Without its finally block, the statement ends as the rules above say.
  | finallyKeeps {looped tag tryBlock handler finalizer c}
      (htry : Ends looped (.mk tag (.tryStmt tryBlock handler none)) c)
      (hfinally : Ends looped finalizer .normal) :
      Ends looped (.mk tag (.tryStmt tryBlock handler (some finalizer))) c
  | finallyReplaces {looped tag tryBlock handler finalizer c c'}
      (htry : Ends looped (.mk tag (.tryStmt tryBlock handler none)) c)
      (hfinally : Ends looped finalizer c') (hc : c' ≠ .normal) :
      Ends looped (.mk tag (.tryStmt tryBlock handler (some finalizer))) c'
  | clause {looped tag binder body c} (hbody : Ends looped body c) :
      Ends looped (.mk tag (.catchClause binder body)) c

lemma jumps_of_turn? {c : Completion} {tag : α} {node again : Node (Tree α)} {body : Tree α}
    (hn : node.turn? = some (body, again)) :
    jumps c (.mk tag node) = (body.jumps c && c ≠ .broke && c ≠ .continued) := by
  rw [jumps_mk]
  cases node <;> cases hn <;> rfl

/-- A run of a statement gained no budget. Unless it was paused, it ended in one of the ways in
which the statement does, normally or by a jump that is found in it. -/
structure Runs (t : Term) (run : Run) (ended : Completion × Run) : Prop where
  budget : ended.2.budget ≤ run.budget
  ends : ended.1 ≠ .paused → t.Ends true ended.1
  jumps : ended.1 = .normal ∨ ended.1 = .paused ∨ t.jumps ended.1 = true

section Runs

variable {tag : NodeId} {node again : Node Term} {body s t : Term} {run run' : Run}
  {go next : Run → Completion × Run} {ended : Completion × Run}

lemma Runs.of_part (h : s.Runs run' ended) (hle : run'.budget ≤ run.budget)
    (hends : s.Ends true ended.1 → t.Ends true ended.1)
    (hjumps : s.jumps ended.1 = true → t.jumps ended.1 = true) : t.Runs run ended :=
  ⟨Nat.le_trans h.budget hle, fun hp => hends (h.ends hp), h.jumps.imp_right (.imp_right hjumps)⟩

lemma Runs.earlier (h : t.Runs run' ended) (hle : run'.budget ≤ run.budget) : t.Runs run ended :=
  h.of_part hle id id

lemma runs_paused (hle : run'.budget ≤ run.budget) : t.Runs run (.paused, run') :=
  ⟨hle, fun hp => absurd rfl hp, .inr (.inl rfl)⟩

lemma runs_normal (h : t.Ends true .normal) (hle : run'.budget ≤ run.budget) :
    t.Runs run (.normal, run') := ⟨hle, fun _ => h, .inl rfl⟩

lemma runs_visiting (id : NodeId) (run : Run) (h : ∀ run, t.Runs run (go run)) :
    t.Runs run (run.visiting id go) := by
  unfold Run.visiting
  split
  · exact runs_paused (Nat.le_refl _)
  · rename_i budget hb
    exact (h _).earlier (by simp [hb])

lemma runs_sequence {statements : List Term} (isFinally : Bool) (run : Run)
    (h : ∀ s ∈ statements, ∀ run, s.Runs run (s.exec run)) :
    Runs (.mk tag (.block statements isFinally)) run (Run.sequence (statements.map exec) run) := by
  induction statements generalizing run with
  | nil => exact runs_normal .blockEnds (Nat.le_refl _)
  | cons first rest ih =>
    obtain ⟨hfirst, hrest⟩ := forall_mem_cons.mp h
    have hends := hfirst run
    rw [map_cons, Run.sequence]
    split
    · rename_i run' hnormal
      rw [hnormal] at hends
      exact (ih run' hrest).of_part hends.budget
        (.blockGoesOn (hends.ends Completion.noConfusion))
        (by simp +contextual)
    · rename_i hstopped
      exact hends.of_part (Nat.le_refl _)
        (fun hfirst => .blockStops hfirst fun hc => hstopped _ (Prod.ext hc rfl))
        (by simp +contextual)

lemma runs_afterBody (hn : node.turn? = some (body, again)) (hbody : body.Runs run ended)
    (hagain : ∀ run, Runs (.mk tag again) run (next run)) :
    Runs (.mk tag node) run (Run.afterBody ended next) := by
  obtain ⟨c, run'⟩ := ended
  have hjumps : ∀ {c}, jumps c (.mk tag again) = true → jumps c (.mk tag node) = true := by
    intro c hj
    rwa [jumps_of_turn? (Node.turn?_of_turn? hn), ← jumps_of_turn? hn] at hj
  cases c with
  | normal =>
    exact (hagain run').of_part hbody.budget
      (.loopGoesOn hn (hbody.ends Completion.noConfusion) (.inl rfl)) hjumps
  | continued =>
    exact (hagain run').of_part hbody.budget
      (.loopGoesOn hn (hbody.ends Completion.noConfusion) (.inr rfl)) hjumps
  | broke => exact runs_normal (.loopBreaks hn (hbody.ends Completion.noConfusion)) hbody.budget
  | returned =>
    exact hbody.of_part (Nat.le_refl _) (.loopStops hn · (.inl rfl)) (by simp [jumps_of_turn? hn])
  | threw =>
    exact hbody.of_part (Nat.le_refl _) (.loopStops hn · (.inr rfl)) (by simp [jumps_of_turn? hn])
  | paused => exact runs_paused hbody.budget

lemma runs_loop (hn : node.turn? = some (body, node)) (hbody : ∀ run, body.Runs run (go run))
    (fuel : Nat) (run : Run) : Runs (.mk tag node) run (Run.loop tag go fuel run) := by
  induction fuel generalizing run with
  | zero => exact runs_paused (Nat.le_refl _)
  | succ fuel ih =>
    refine runs_visiting tag run fun run => ?_
    dsimp only [Run.deciding]
    split_ifs
    · exact (runs_afterBody hn (hbody _) ih).earlier (Nat.le_refl _)
    · exact runs_normal (.loopDone hn) (Nat.le_refl _)

variable {tryBlock : Term} {handler finalizer : Option Term}

lemma runs_catching (htry : tryBlock.Runs run ended)
    (hhandler : ∀ s, handler = some s → ∀ run, s.Runs run (s.exec run)) :
    Runs (.mk tag (.tryStmt tryBlock handler none)) run
      (Run.catching ended (handler.map exec)) := by
  have hpart : ∀ {c}, tryBlock.jumps c = true →
      jumps c (.mk tag (.tryStmt tryBlock handler none)) = true := by
    simp +contextual
  cases handler with
  | none =>
    rw [Option.map_none, Run.catching_none]
    exact htry.of_part (Nat.le_refl _) (.tryEnds · (.inr rfl)) hpart
  | some s =>
    obtain ⟨c, run'⟩ := ended
    by_cases hc : c = .threw
    · subst hc
      exact (hhandler s rfl run').of_part htry.budget
        (.tryCatches (htry.ends Completion.noConfusion))
        (by simp +contextual)
    · have hpass : Run.catching (c, run') (some s.exec) = (c, run') := by
        cases c <;> first | rfl | exact absurd rfl hc
      rw [Option.map_some, hpass]
      exact htry.of_part (Nat.le_refl _) (.tryEnds · (.inl hc)) hpart

lemma runs_finishing (htry : Runs (.mk tag (.tryStmt tryBlock handler none)) run ended)
    (hfinalizer : ∀ s, finalizer = some s → ∀ run, s.Runs run (s.exec run)) :
    Runs (.mk tag (.tryStmt tryBlock handler finalizer)) run
      (Run.finishing ended (finalizer.map exec)) := by
  cases finalizer with
  | none =>
    rw [Option.map_none, Run.finishing_none]
    exact htry
  | some s =>
    obtain ⟨c, run'⟩ := ended
    by_cases hpaused : c = .paused
    · subst hpaused
      exact runs_paused htry.budget
    · have hlast := hfinalizer s rfl run'
      rw [Option.map_some, Run.finishing_some hpaused]
      split_ifs with hnormal
      · have hends := hlast.ends (by simp [hnormal])
        rw [hnormal] at hends
        refine ⟨Nat.le_trans hlast.budget htry.budget,
          fun _ => .finallyKeeps (htry.ends hpaused) hends, htry.jumps.imp_right (.imp_right ?_)⟩
        simp +contextual
      · exact hlast.of_part htry.budget (.finallyReplaces (htry.ends hpaused) · hnormal)
          (by simp +contextual)

lemma runs_exec (t : Term) (run : Run) : t.Runs run (t.exec run) := by
  induction t using children_induction generalizing run with
  | step tag n ih =>
    rw [exec_mk]
    have hplain : ∀ {node : Node Term} {run : Run}, node.isPlain = true →
        Runs (.mk tag node) run (.normal, run) := fun hn => runs_normal (.plain hn) (Nat.le_refl _)
    have hjump : ∀ {node c} {run : Run}, Ends true (.mk tag node) c →
        jumps c (.mk tag node : Term) = true → Runs (.mk tag node) run (c, run) :=
      fun hends hj => ⟨Nat.le_refl _, fun _ => hends, .inr (.inr hj)⟩
    cases n
    case block statements isFinally => exact runs_sequence isFinally run ih
    case variableStmt name initializer =>
      cases initializer with
      | none => exact hplain rfl
      | some initializer => exact runs_visiting tag run fun _ => hplain rfl
    case exprStmt | emptyStmt => exact runs_visiting tag run fun _ => hplain rfl
    case breakStmt => exact runs_visiting tag run fun _ => hjump .breaks rfl
    case continueStmt => exact runs_visiting tag run fun _ => hjump .continues rfl
    case returnStmt => exact runs_visiting tag run fun _ => hjump .returns (jumps_mk ..)
    case throwStmt => exact runs_visiting tag run fun _ => hjump (.raises rfl) (jumps_mk ..)
    case ifStmt condition thenStmt elseStmt =>
      rw [Node.map, Node.exec]
      refine runs_visiting tag run fun run => ?_
      dsimp only [Run.deciding]
      split_ifs
      · exact (ih thenStmt (by simp) _).of_part (Nat.le_refl _) .ifThen (by simp +contextual)
      · cases elseStmt with
        | none => exact runs_normal .ifNot (Nat.le_refl _)
        | some elseStmt =>
          rw [Option.map_some, Option.toList_some, Run.sequence_singleton]
          exact (ih elseStmt (by simp) _).of_part (Nat.le_refl _) .ifElse (by simp +contextual)
    case whileStmt | forOfStmt | forInStmt => exact runs_loop rfl (ih _ (by simp)) _ run
    case doStmt body condition =>
      have hbody := ih body (by simp)
      exact runs_afterBody rfl (hbody run) fun run => runs_loop rfl hbody _ run
    case tryStmt tryBlock handler finalizer =>
      apply runs_finishing
      · apply runs_catching (ih tryBlock (Node.mem_children_tryStmt.mpr (.inl rfl)) run)
        exact fun s hs => ih s (Node.mem_children_tryStmt.mpr (.inr (.inl hs)))
      · exact fun s hs => ih s (Node.mem_children_tryStmt.mpr (.inr (.inr hs)))
    case catchClause binder body =>
      exact (ih body (by simp) run).of_part (Nat.le_refl _) .clause (by simp)
    all_goals exact hplain rfl

end Runs

lemma exec_of_jumpFree {t : Term} (hfree : t.jumpFree = true) (run : Run) :
    (t.exec run).1 = .normal ∨ (t.exec run).1 = .paused := by
  have hjumps : ∀ c, t.jumps c = true → c = .normal ∨ c = .paused := by
    intro c hc
    cases c <;> simp_all [jumpFree]
  rcases (t.runs_exec run).jumps with hc | hc | hc
  · exact .inl hc
  · exact .inr hc
  · exact hjumps _ hc

end Tree

namespace Forest

/-- The walk goes on from a node. -/
def turn (f : Forest) (id : NodeId) (run : Run) (go : Run → Option NodeId → Completion × Run) :
    Completion × Run :=
  match f.node? id with
  | some (.ifStmt _ thenStmt elseStmt) =>
    run.deciding fun taken run =>
      go run (if taken then f.step? thenStmt else (elseStmt.map f.step?).getD (f.exit? id))
  | some .breakStmt => go run ((f.enclosingLoop? id).bind f.exit?)
  | some .continueStmt => go run (f.enclosingLoop? id)
  | some (.returnStmt _) => (.returned, run)
  | some (.throwStmt _) =>
    match f.raise? id with
    | some handler => go run (f.step? handler)
    | none => (.threw, run)
  | _ =>
    match f.loopBody? id with
    | some body => run.deciding fun again run => go run (if again then f.step? body else f.exit? id)
    | none => go run (f.exit? id)

def walkWithin (f : Forest) : Nat → Run → Option NodeId → Completion × Run
  | _, run, none => (.normal, run)
  | 0, run, some _ => (.paused, run)
  | fuel + 1, run, some id => run.visiting id fun run => f.turn id run (walkWithin f fuel)

/-- The walk by `step?` and `exit?`, while the budget lasts. -/
def walk (f : Forest) (run : Run) (dest : Option NodeId) : Completion × Run :=
  f.walkWithin run.budget run dest

variable {f : Forest} {low : Nat → Nat} {run : Run} {id : NodeId}
  {go : Run → Option NodeId → Completion × Run} {c p : Nat} {ended : Completion × Run}
  {node : Node Term}

lemma turn_congr {go' : Run → Option NodeId → Completion × Run}
    (hgo : ∀ run' dest, run'.budget = run.budget → go run' dest = go' run' dest) :
    f.turn id run go = f.turn id run go' := by
  unfold turn
  split
  · exact hgo _ _ rfl
  · exact hgo _ _ rfl
  · exact hgo _ _ rfl
  · rfl
  · split
    · exact hgo _ _ rfl
    · rfl
  · split
    · exact hgo _ _ rfl
    · exact hgo _ _ rfl

lemma turn_of_loopBody {body : NodeId} (hb : f.loopBody? id = some body) : f.turn id run go =
      run.deciding fun again run => go run (if again then f.step? body else f.exit? id) := by
  obtain ⟨node, hn, -, hloop⟩ := exists_of_loopBody? hb
  rw [turn, hn, hb]
  cases node <;> first | rfl | cases hloop

lemma walk_some (id : NodeId) :
    f.walk run (some id) = run.visiting id fun run => f.turn id run f.walk := by
  unfold walk Run.visiting
  cases hb : run.budget with
  | zero => rfl
  | succ budget =>
    rw [walkWithin, Run.visiting, hb]
    exact turn_congr fun run' dest hb' => by rw [hb']

/-- The walk goes on where a statement ended. -/
def resume (f : Forest) (id : NodeId) (ended : Completion × Run) : Completion × Run :=
  match ended with
  | (.normal, run) => f.walk run (f.exit? id)
  | (.broke, run) => f.walk run ((f.enclosingLoop? id).bind f.exit?)
  | (.continued, run) => f.walk run (f.enclosingLoop? id)
  | (.returned, run) => (.returned, run)
  | (.threw, run) =>
    match f.catchClause? id with
    | some handler => f.walk run (f.step? handler)
    | none => (.threw, run)
  | (.paused, run) => (.paused, run)

lemma resume_jump (hloop : f.enclosingLoop? c = f.enclosingLoop? p)
    (hcatch : f.catchClause? c = f.catchClause? p) (hne : ended.1 ≠ .normal) :
    f.resume c ended = f.resume p ended := by
  obtain ⟨c, run⟩ := ended
  cases c <;> simp only [resume, hloop, hcatch]
  exact absurd rfl hne

lemma resume_congr (hexit : f.exit? c = f.exit? p)
    (hloop : f.enclosingLoop? c = f.enclosingLoop? p)
    (hcatch : f.catchClause? c = f.catchClause? p) : f.resume c = f.resume p := by
  funext ended
  by_cases hne : ended.1 = .normal
  · obtain ⟨c, run⟩ := ended
    cases hne
    simp only [resume, hexit]
  · exact resume_jump hloop hcatch hne

/-- The walk of a statement is its execution. -/
def Follows (f : Forest) (t : Term) : Prop :=
  ∀ run, f.walk run (f.step? t.tag) = f.resume t.tag (t.exec run)

namespace InOrder

variable (h : f.InOrder low)
include h

variable {p id : Nat} {isFinally : Bool} {condition body tryBlock : Term} {handler : Option Term}

lemma walk_sequence (before : List Nat) {ts : List Term}
    (hn : f.node? p = some (.block (before ++ ts.map tag) isFinally))
    (ih : ∀ t ∈ ts, f.Follows t) (run : Run) : f.walk run (f.stepRest? p (ts.map tag)) =
      f.resume p (Run.sequence (ts.map exec) run) := by
  induction ts generalizing before run with
  | nil => rfl
  | cons t ts ihts =>
    have hc : t.tag ∈ (Node.block (before ++ (t :: ts).map tag) isFinally).children := by
      simp
    have hloop := enclosingLoop?_eq_of_parent h.toLinked hn hc rfl rfl
    have hcatch := catchClause?_eq_of_parent h.toLinked hn hc rfl (by simp)
    have hexit : f.exit? t.tag = f.stepRest? p (ts.map tag) := h.exit?_of_block hn
    have hn' : f.node? p = some (.block ((before ++ [t.tag]) ++ ts.map tag) isFinally) := by
      rw [hn]
      simp
    have hrest := ihts (before ++ [t.tag]) hn' fun t ht => ih t (by simp [ht])
    rw [map_cons, stepRest?, ih t (by simp) run, map_cons, Run.sequence]
    generalize t.exec run = ended
    split
    · rename_i run'
      rw [← hrest run', resume, hexit]
    · rename_i hne
      exact resume_jump hloop hcatch fun hnormal => hne ended.2 (Prod.ext hnormal rfl)

lemma walk_works {node : Node NodeId} {go : Run → Completion × Run} (hn : f.node? id = some node)
    (hw : node.works = true) (hdo : node.kind ≠ .doStmt)
    (hgo : ∀ run, f.turn id run f.walk = f.resume id (go run)) (run : Run) :
    f.walk run (f.step? id) = f.resume id (run.visiting id go) := by
  rw [h.step?_of_works hn hw hdo, walk_some]
  unfold Run.visiting
  cases run.budget with
  | zero => rfl
  | succ budget => exact hgo _

lemma follows_if {thenStmt : Term} {elseStmt : Option Term}
    (hn : f.node? id = some (.ifStmt condition.tag thenStmt.tag (elseStmt.map tag)))
    (hthen : f.Follows thenStmt) (helse : ∀ t ∈ elseStmt, f.Follows t) :
    f.Follows (.mk id (.ifStmt condition thenStmt elseStmt)) := by
  have hcongr : ∀ c ∈ (Node.ifStmt condition.tag thenStmt.tag (elseStmt.map tag)).children,
      f.resume c = f.resume id := fun c hc => resume_congr (h.exit?_of_if hn hc)
    (enclosingLoop?_eq_of_parent h.toLinked hn hc rfl rfl)
    (catchClause?_eq_of_parent h.toLinked hn hc rfl (by simp))
  intro run
  simp only [exec_mk, tag, Node.map, Node.exec]
  refine h.walk_works hn rfl (by simp) (fun run => ?_) run
  rw [turn, hn]
  simp only [Run.deciding]
  split_ifs with htaken
  · rw [hthen, hcongr _ (by simp)]
  · cases elseStmt with
    | none => rfl
    | some t =>
      change f.walk _ (f.step? t.tag) = f.resume id (Run.sequence [t.exec] _)
      rw [helse t rfl, hcongr _ (by simp), Run.sequence_singleton]

lemma resume_afterBody {body : Nat} {again : Run → Completion × Run}
    (hb : f.loopBody? p = some body)
    (hagain : f.walk ended.2 (some p) = f.resume p (again ended.2)) :
    f.resume body ended = f.resume p (Run.afterBody ended again) := by
  obtain ⟨node, hn, hc, hkind⟩ := exists_of_loopBody? hb
  have hfun : node.kind.isFunction = false := by cases node <;> first | rfl | cases hkind
  have hloop : f.enclosingLoop? body = some p := by
    rw [enclosingLoop?_of_parent h.toLinked (h.parent_eq_some hn hc) (isFunction_eq hn ▸ hfun),
      if_pos hb]
  have hcatch : f.catchClause? body = f.catchClause? p :=
    catchClause?_eq_of_parent h.toLinked hn hc hfun (by intro hk; rw [hk] at hkind; cases hkind)
  obtain ⟨c, run⟩ := ended
  cases c with
  | normal =>
    rw [resume, h.exit?_of_loopBody hb]
    exact hagain
  | continued =>
    rw [resume, hloop]
    exact hagain
  | broke =>
    rw [resume, hloop]
    rfl
  | returned | paused => rfl
  | threw => simp only [resume, Run.afterBody, hcatch]

lemma walk_loop (hb : f.loopBody? p = some body.tag) (ih : f.Follows body) (fuel : Nat)
    (run : Run) (hfuel : run.budget ≤ fuel) :
    f.walk run (some p) = f.resume p (Run.loop p body.exec fuel run) := by
  induction fuel generalizing run with
  | zero =>
    rw [walk_some, Run.visiting, Nat.le_zero.mp hfuel]
    rfl
  | succ fuel ihf =>
    rw [walk_some, Run.loop, Run.visiting, Run.visiting]
    cases hbudget : run.budget with
    | zero => rfl
    | succ budget =>
      dsimp only
      rw [turn_of_loopBody hb, Run.deciding, Run.deciding]
      dsimp only
      split_ifs with hagain
      · rw [ih]
        refine h.resume_afterBody hb (ihf _ ?_)
        exact Nat.le_trans (body.runs_exec _).budget (by dsimp only; omega)
      · rfl

lemma follows_loop (hn : f.node? id = some (node.map tag)) (hw : node.works = true)
    (hdo : node.kind ≠ .doStmt) (hb : f.loopBody? id = some body.tag) (ih : f.Follows body)
    (hexec : (node.map exec).exec id = fun run => Run.loop id body.exec run.budget run) :
    f.Follows (.mk id node) := by
  intro run
  rw [exec_mk, hexec, tag,
    h.step?_of_works hn (by rw [Node.works_map, hw]) (by rwa [Node.kind_map])]
  exact h.walk_loop hb ih _ _ (Nat.le_refl _)

lemma follows_do (hn : f.node? id = some (.doStmt body.tag condition.tag)) (ih : f.Follows body) :
    f.Follows (.mk id (.doStmt body condition)) := by
  have hb : f.loopBody? id = some body.tag := by rw [loopBody?, hn]
  have hstep : f.step? id = f.step? body.tag := by rw [h.step?_eq, entering, hn]; rfl
  intro run
  rw [exec_mk, tag, hstep, ih]
  exact h.resume_afterBody hb (h.walk_loop hb ih _ _ (Nat.le_refl _))

lemma follows_catch {binder : Option Term}
    (hn : f.node? id = some (.catchClause (binder.map tag) body.tag))
    (htidy : tidy (.mk id (.catchClause binder body)) = true)
    (hbinder : ∀ t ∈ binder, f.Shows t) (ih : f.Follows body) :
    f.Follows (.mk id (.catchClause binder body)) := by
  have hstep : f.step? id = f.step? body.tag := by
    cases binder with
    | none =>
      rw [h.step?_eq, entering, hn]
      rfl
    | some binder =>
      -- The variable has no value of its own, so control passes over it.
      obtain ⟨tag, name, rfl⟩ : ∃ tag name, binder = .mk tag (.variableStmt name none) := by
        simp only [tidy, node] at htidy
        split at htidy <;> simp_all
      have hpass : f.step? tag = f.exit? tag := by
        rw [h.step?_eq, entering, (h.shows_parts (hbinder _ rfl)).1]
        rfl
      have henter : f.step? id = f.step? tag := by
        rw [h.step?_eq, entering, hn]
        rfl
      rw [henter, hpass]
      exact h.exit?_of_binder hn
  have hc : body.tag ∈ (Node.catchClause (binder.map tag) body.tag).children := by
    simp
  intro run
  rw [exec_mk, tag, hstep, ih]
  exact congrFun (resume_congr (h.exit?_of_catch hn)
    (enclosingLoop?_eq_of_parent h.toLinked hn hc rfl rfl)
    (catchClause?_eq_of_parent h.toLinked hn hc rfl (by simp))) _

lemma resume_of_try {handler finalizer : Option Nat}
    (hn : f.node? id = some (.tryStmt p handler finalizer))
    (hc : c ∈ (Node.tryStmt p handler finalizer).children)
    (hlast : finalizer = none ∨ finalizer = some c) (hne : handler = none ∨ p ≠ c) :
    f.resume c = f.resume id :=
  resume_congr ((h.exit?_of_try hn hc).trans (if_pos hlast))
    (enclosingLoop?_eq_of_parent h.toLinked hn hc rfl rfl)
    (catchClause?_of_unguarded h.toLinked hn hc hne)

lemma follows_try (hn : f.node? id = some (.tryStmt tryBlock.tag (handler.map tag) none))
    (htry : f.Follows tryBlock) (hhandler : ∀ t ∈ handler, f.Follows t) :
    f.Follows (.mk id (.tryStmt tryBlock handler none)) := by
  have hstep : f.step? id = f.step? tryBlock.tag := by rw [h.step?_eq, entering, hn]; rfl
  have hmem : tryBlock.tag ∈ (Node.tryStmt tryBlock.tag (handler.map tag) none).children := by simp
  have hexit := (h.exit?_of_try hn hmem).trans (if_pos (.inl rfl))
  have hloop := enclosingLoop?_eq_of_parent h.toLinked hn hmem rfl rfl
  intro run
  simp only [exec_mk, tag, Node.map, Node.exec, Option.map_none, Run.finishing_none]
  rw [hstep, htry]
  cases handler with
  | none =>
    rw [h.resume_of_try hn hmem (.inl rfl) (.inl rfl)]
    exact congrArg _ (Run.catching_none _).symm
  | some handler =>
    have hcatch := catchClause?_of_guarded h.toLinked hn rfl rfl
    rcases tryBlock.exec run with ⟨c, run'⟩
    cases c with
    | threw =>
      have hne : tryBlock.tag ≠ handler.tag := ((h.try_parts_ne hn).1 _ rfl).symm
      simp only [resume, hcatch]
      rw [hhandler handler rfl, h.resume_of_try hn (by simp) (.inl rfl) (.inr hne)]
      rfl
    | normal | broke | continued | returned | paused =>
      simp only [resume, hexit, hloop, Run.catching]

lemma follows_finally {finalizer : Term}
    (hn : f.node? id = some (.tryStmt tryBlock.tag (handler.map tag) (some finalizer.tag)))
    (hfree : tryBlock.jumpFree = true) (htry : f.Follows tryBlock)
    (hfinalizer : f.Follows finalizer) :
    f.Follows (.mk id (.tryStmt tryBlock handler (some finalizer))) := by
  have hstep : f.step? id = f.step? tryBlock.tag := by rw [h.step?_eq, entering, hn]; rfl
  have hne : finalizer.tag ≠ tryBlock.tag := (h.try_parts_ne hn).2.1 _ rfl
  have hexit : f.exit? tryBlock.tag = f.step? finalizer.tag :=
    (h.exit?_of_try hn (by simp)).trans (if_neg (by simpa using hne))
  have hresume : f.resume finalizer.tag = f.resume id :=
    h.resume_of_try hn (by simp) (.inr rfl) (.inr hne.symm)
  intro run
  simp only [exec_mk, tag, Node.map, Node.exec, Option.map_some]
  rw [hstep, htry]
  have hends := exec_of_jumpFree hfree run
  generalize tryBlock.exec run = ended at hends ⊢
  obtain ⟨c, run'⟩ := ended
  rcases hends with hc | hc
  · cases hc
    rw [resume, hexit, hfinalizer, hresume]
    exact congrArg _ (Run.finishing_normal _ _).symm
  · cases hc
    rfl

end InOrder

attribute [local simp] jumps_mk Node.jumps

def Uncut (f : Forest) (t : Term) : Prop :=
  t.jumps .threw = false ∨ f.interceptingFinally? t.tag = none

namespace InOrder

variable (h : f.InOrder low)
include h

variable {id : Nat}

lemma follows_leaf {c : Completion} (hn : f.node? id = some (node.map tag)) (hw : node.works = true)
    (hdo : node.kind ≠ .doStmt)
    (hexec : (node.map exec).exec id = fun run => run.visiting id fun run => (c, run))
    (hturn : ∀ run, f.turn id run f.walk = f.resume id (c, run)) : f.Follows (.mk id node) := by
  intro run
  rw [exec_mk, hexec, tag]
  exact h.walk_works hn (by rw [Node.works_map, hw]) (by rwa [Node.kind_map]) hturn run

omit h in
lemma raise?_eq_catchClause? (hu : f.interceptingFinally? id = none) :
    f.raise? id = f.catchClause? id := by
  rw [raise?, hu]
  cases f.catchClause? id <;> rfl

/-- A finally block cuts nothing off that the statements around it do not. -/
lemma uncut_try (hn : f.node? id = some ((Node.tryStmt tryBlock handler finalizer).map tag))
    (htidy : tidy (.mk id (.tryStmt tryBlock handler finalizer)) = true)
    (hu : f.Uncut (.mk id (.tryStmt tryBlock handler finalizer))) {t : Term}
    (ht : t ∈ (Node.tryStmt tryBlock handler finalizer).children) : f.Uncut t := by
  have hmem : t.tag ∈ ((Node.tryStmt tryBlock handler finalizer).map tag).children := by
    rw [Node.children_map]
    exact mem_map_of_mem ht
  have hcut := interceptingFinally?_of_try h.toLinked hn hmem
  have hjump : t.jumps .threw = true →
      jumps .threw (.mk id (.tryStmt tryBlock handler finalizer)) = true := by
    intro hj
    rcases Node.mem_children_tryStmt.mp ht with rfl | rfl | rfl <;> simp [hj]
  by_cases hpass : finalizer = none ∨ finalizer = some t
  · rw [if_pos (by rcases hpass with rfl | rfl <;> simp)] at hcut
    rcases hu with hu | hu
    · exact .inl (by rw [← Bool.not_eq_true]; exact fun hj => by simp [hjump hj] at hu)
    · exact .inr (hcut.trans hu)
  · -- The finally block runs in between, but then nothing is thrown here.
    obtain ⟨finalizer, rfl⟩ : ∃ c, finalizer = some c :=
      Option.ne_none_iff_exists'.mp fun hnone => hpass (.inl hnone)
    have hfree : tryBlock.jumpFree = true ∧ handler.all jumpFree = true := by
      simpa [tidy, node] using htidy
    refine .inl ?_
    rcases Node.mem_children_tryStmt.mp ht with rfl | rfl | hfin
    · simp_all [jumpFree]
    · simp_all [jumpFree]
    · exact absurd (.inr hfin) hpass

/-- The walk of every statement is its execution. -/
theorem follows (t : Term) (hs : f.Shows t) (hst : t.structured = true) (hu : f.Uncut t) :
    f.Follows t := by
  induction t using children_induction with
  | step id node ih =>
    obtain ⟨hn, hparts⟩ := h.shows_parts hs
    rw [structured_mk, Bool.and_eq_true] at hst
    obtain ⟨htidy, hst⟩ := hst
    have hchild : ∀ t ∈ node.children, t.structured = true → f.Uncut t → f.Follows t :=
      fun t ht hst hu => ih t ht (hparts t ht) hst hu
    have huncut : node.kind.isFunction = false → node.kind ≠ .tryStmt → ∀ t ∈ node.children,
        (t.jumps .threw = true → jumps .threw (.mk id node) = true) → f.Uncut t := by
      intro hfun hkind t ht hjump
      rcases hu with hu | hu
      · exact .inl (by rw [← Bool.not_eq_true]; exact fun hj => by simp [hjump hj] at hu)
      · refine .inr ?_
        rw [interceptingFinally?_eq_of_parent h.toLinked hn
          (by rw [Node.children_map]; exact mem_map_of_mem ht) (by rwa [Node.kind_map])
          (by rwa [Node.kind_map])]
        exact hu
    cases node
    case block statements _ =>
      intro run
      rw [exec_mk, tag, h.step?_of_block hn]
      refine h.walk_sequence [] hn (fun t ht => hchild t ht ?_ (huncut rfl (by simp) t ht ?_)) run
      · simpa [Node.structured] using (all_eq_true.mp hst) _ (mem_map_of_mem ht)
      · intro hj
        simpa using ⟨t, ht, hj⟩
    case variableStmt name initializer =>
      cases initializer with
      | none =>
        intro run
        rw [exec_mk, tag, h.step?_eq, entering, hn]
        rfl
      | some value =>
        refine h.follows_leaf hn rfl (by simp) rfl fun run => ?_
        simp [turn, loopBody?, hn, resume]
    case exprStmt | emptyStmt | breakStmt | continueStmt | returnStmt =>
      refine h.follows_leaf hn rfl (by simp) rfl fun run => ?_
      simp [turn, loopBody?, hn, resume]
    case throwStmt expression =>
      have hnone : f.interceptingFinally? id = none := hu.resolve_left (by simp)
      refine h.follows_leaf hn rfl (by simp) rfl fun run => ?_
      simp [turn, hn, resume, raise?_eq_catchClause? hnone]
    case ifStmt condition thenStmt elseStmt =>
      obtain ⟨hthen, helse⟩ : thenStmt.structured = true ∧ ∀ t, elseStmt = some t →
          t.structured = true := by
        simpa [Node.structured, all_map_eq_true] using hst
      refine h.follows_if hn (hchild thenStmt (by simp) hthen ?_) fun t ht =>
        hchild t (by simp_all) (helse t ht) ?_
      · exact huncut rfl (by simp) _ (by simp) fun hj => by simp [hj]
      · exact huncut rfl (by simp) _ (by simp_all) fun hj => by simp_all
    case whileStmt condition body | forOfStmt binder expression body
    | forInStmt binder expression body =>
      have hbody := hchild body (by simp) hst (huncut rfl (by simp) body (by simp) (by simp))
      exact h.follows_loop hn rfl (by simp) (by rw [loopBody?, hn]; rfl) hbody rfl
    case doStmt body condition =>
      exact h.follows_do hn (hchild body (by simp) hst (huncut rfl
        (by simp) body (by simp)
        (by simp)))
    case tryStmt tryBlock handler finalizer =>
      obtain ⟨⟨htry, hhandler⟩, hfinalizer⟩ : (tryBlock.structured = true ∧ ∀ t, handler = some t →
          t.structured = true) ∧ ∀ t, finalizer = some t → t.structured = true := by
        simpa [Node.structured, all_map_eq_true] using hst
      have hpart := fun t ht => h.uncut_try hn htidy hu (t := t) ht
      have htry' := hchild tryBlock (by simp) htry (hpart _ (by simp))
      cases finalizer with
      | none =>
        exact h.follows_try hn htry' fun t ht => hchild t (by simp_all)
          (hhandler t ht) (hpart t (by simp_all))
      | some finalizer =>
        have hfree : tryBlock.jumpFree = true := by
          simp only [tidy, node, Bool.and_eq_true] at htidy
          exact htidy.1
        exact h.follows_finally hn hfree htry' (hchild finalizer (by simp)
          (hfinalizer _ rfl) (hpart _ (by simp)))
    case catchClause binder body =>
      refine h.follows_catch hn htidy (fun t ht => hparts t (by simp_all))
        (hchild body (by simp) hst (huncut rfl (by simp) body (by simp) (by simp)))
    all_goals cases hst

end InOrder

/-- The walk through the body of a function is its structured execution: for every budget and every
stream of outcomes, both visit the same statements in the same order, take the same outcomes and
end in the same way. -/
theorem walk_eq_exec {tree : SyntaxTree} {root function : NodeId} {f : Forest} {body : Term}
    (hf : ofTree tree = .ok (root, f)) (hbody : f.Shows body)
    (hp : f.parent? body.tag = some function) (hfun : f.isFunction function = true)
    (hst : body.structured = true) (hbroke : body.jumps .broke = false)
    (hcontinued : body.jumps .continued = false) (run : Run) :
    f.walk run (f.step? body.tag) = body.exec run := by
  obtain ⟨low, h⟩ := inOrder_ofTree hf
  have hnone : f.enclosing body.tag = [] := h.enclosing_of_function hp hfun
  have hcut : f.interceptingFinally? body.tag = none := by rw [interceptingFinally?, hnone]; rfl
  rw [h.follows body hbody hst (.inr hcut) run]
  have hends := (body.runs_exec run).jumps
  generalize body.exec run = ended at hends ⊢
  obtain ⟨c, run'⟩ := ended
  cases c with
  | normal =>
    have hout : ∀ p, f.parent? body.tag = some p → f.isFunction p = true := by
      intro p hp'
      exact Option.mem_unique hp hp' ▸ hfun
    rw [resume, h.exit?_of_function hout, walk]
    cases run'.budget <;> rfl
  | broke => simp [hbroke] at hends
  | continued => simp [hcontinued] at hends
  | returned | paused => rfl
  | threw =>
    have hcatch : f.catchClause? body.tag = none := by rw [catchClause?, hnone]; rfl
    rw [resume, hcatch]

/-- A try statement whose finally block holds a loop that is left from a catch clause. -/
def retryLoop : SyntaxTree :=
  let more : SyntaxTree := .ref "more"
  let handler : SyntaxTree := .block [.branch more (.mk () .continueStmt), .mk () .breakStmt]
  let clause : SyntaxTree := .mk () (.catchClause (some (.declare "e")) handler)
  let loop : SyntaxTree := .loop more (.mk () (.tryStmt (.block [.raise more]) (some clause) none))
  .function [] [.closing [.mk () .emptyStmt] [loop], .leave]

theorem walk_eq_exec_retryLoop : ∃ root f body, ofTree retryLoop = .ok (root, f) ∧ f.Shows body ∧
    f.parent? body.tag = some root ∧ f.isFunction root = true ∧ body.structured = true ∧
    body.jumps .broke = false ∧ body.jumps .continued = false ∧
    ∀ run, f.walk run (f.step? body.tag) = body.exec run := by
  obtain ⟨root, f, low, hf, h⟩ := exists_ofTree retryLoop
  have heval : ((ofTree retryLoop).toOption.any fun r => (r.2.view? 18).any fun body =>
      r.2.parent? 18 = some r.1 && r.2.isFunction r.1 && body.structured && !body.jumps .broke &&
        !body.jumps .continued) = true := by decide +kernel
  rw [hf] at heval
  dsimp only [Except.toOption, Option.any_some] at heval
  obtain ⟨body, hview, hfacts⟩ := (Option.any_eq_true _ _).mp heval
  have hs := h.shows_of_view? hview
  obtain ⟨⟨⟨⟨hp, hfun⟩, hst⟩, hbroke⟩, hcontinued⟩ : (((f.parent? 18 = some root ∧
      f.isFunction root = true) ∧ body.structured = true) ∧ body.jumps .broke = false) ∧
      body.jumps .continued = false := by simpa using hfacts
  rw [← h.tag_of_view? hview] at hp
  exact ⟨root, f, body, hf, hs, hp, hfun, hst, hbroke, hcontinued,
    walk_eq_exec hf hs hp hfun hst hbroke hcontinued⟩

end Forest

end ServiceFlow
