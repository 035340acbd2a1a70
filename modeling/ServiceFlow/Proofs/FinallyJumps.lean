import ServiceFlow.Proofs.PendingErrors

/-!
# Jumps out of finally blocks

A jump in a finally block, to a loop around the try statement, drops the pending error. Only a
`continue` out of a try statement that comes last in the round goes where control that completes the
block goes.
-/

namespace ServiceFlow.Forest

variable {f : Forest} {low : Nat → Nat} {id loop c : Nat} {a : Nat}

lemma Linked.within_of_below (h : f.Linked) {part : Nat} (hw : f.Within part id) (hb : f.Below id a)
    (hout : ¬ f.Below part a) : f.Within part a := by
  induction hw with
  | self => exact absurd hb hout
  | child hp _ hw ih =>
    obtain ⟨q, hq, hin⟩ := h.below_iff.mp hb
    obtain rfl := Option.mem_unique hp hq
    rcases hin with rfl | hb
    · exact hw
    · exact ih hb

lemma not_loopBody?_of_try {owner tryBlock : Nat} {handler finalizer : Option Nat}
    (hn : f.node? owner = some (.tryStmt tryBlock handler finalizer)) :
    f.loopBody? owner = none := by
  simp [loopBody?, hn]

namespace InOrder

variable (h : f.InOrder low) (hbody : f.loopBody? loop = some c)
include h hbody

lemma parent?_of_loopBody? : f.parent? c = some loop := by
  obtain ⟨_, hn, hc, -⟩ := exists_of_loopBody? hbody
  exact h.parent_eq_some hn hc

lemma within_loopBody (hw : f.Within c id) (hb : f.Below id a) (ha : f.Below a loop) :
    f.Within c a := by
  refine h.within_of_below hw hb fun hout => ?_
  obtain ⟨p, hp, hin⟩ := h.below_iff.mp hout
  obtain rfl := Option.mem_unique hp (h.parent?_of_loopBody? hbody)
  have hle := h.le_of_inside hin
  have hlt := h.below_lt ha
  omega

lemma exit?_ne_of_within (hw : f.Within c id) : f.exit? id ≠ f.exit? loop := by
  intro heq
  have hlt : ∀ d, f.exit? loop = some d → loop < d := fun d hd => h.lt_of_exit? hd
  rcases h.arrives_exit? hw with ⟨d, hd, hwithin, -⟩ | hexit
  · have hle := h.le_of_inside (h.inside_of_within hwithin)
    have hc := h.lt_parent (h.parent?_of_loopBody? hbody)
    have hloop := hlt d (heq ▸ hd)
    omega
  · rw [hexit, h.exit?_of_loopBody hbody] at heq
    exact Nat.lt_irrefl _ (hlt loop heq.symm)

end InOrder

end ServiceFlow.Forest

namespace ServiceFlow.Machine

open Forest

/-- Control that completes a finally block goes to a statement. -/
def CompletesTo (f : Forest) (block : NodeId) (dest : Option NodeId) : Prop :=
  ∃ owner, finallyOwner? f block = some owner ∧ f.exit? owner = dest

namespace Labels

variable {f : Forest} {low : Nat → Nat} {labels : Labels} {loop c id block : Nat}
  {parts : FinallyLabels} {dest : Option Nat}

/-- The state in which a loop goes on with the next round. -/
inductive Reentry (labels : Labels) (f : Forest) (loop : NodeId) : String → Prop where
  | rest {binder items body parts} (hn : f.node? loop = some (.forOfStmt binder items body))
    (hloop : labels.loops.lookup loop = some parts) : Reentry labels f loop parts.rest
  | check {node name} (hn : f.node? loop = some node) (hkind : node.kind ≠ .forOfStmt)
    (hentry : labels.entries.lookup loop = some name) : Reentry labels f loop name

lemma Sane.lookup_loop (hs : labels.Sane f) (hbody : f.loopBody? loop = some c) :
    labels.finallies.lookup loop = none := by
  cases hparts : labels.finallies.lookup loop with
  | none => rfl
  | some parts =>
    obtain ⟨-, statements, isFinally, hn⟩ := hs.eq_rethrow hparts
    simp [loopBody?, hn] at hbody

lemma completesTo_of_target? (h : f.InOrder low) (hs : labels.Sane f) {source : Nat}
    (hparts : labels.finallies.lookup block = some parts)
    (ht : labels.target? f source dest = some parts.rethrow) :
    f.Below source block ∧ CompletesTo f block dest := by
  obtain ⟨hblock, -⟩ := hs.eq_rethrow hparts
  obtain ⟨hentries, hloops, -, hresets⟩ := Parts.mk.inj hblock
  have hmem := rethrow_mem_namesOf hparts
  generalize hname : parts.rethrow = name at ht hmem
  cases target_of_target? h ht with
  | rethrow hl =>
    obtain ⟨block', child, owner, hm, hparts', howner, hexit⟩ := leftFinally?_eq_some hl
    obtain rfl := hs.apart hmem (rethrow_mem_namesOf hparts')
    obtain ⟨hp, -, hw⟩ := h.mem_enclosing_iff.mp hm
    exact ⟨h.below_of_within hw hp, owner, howner, hexit⟩
  | reset _ _ hr =>
    obtain ⟨owner, _, -, hreset, -⟩ := enteredReset?_eq_some hr
    obtain rfl := hs.apart hmem (reset_mem_namesOf hreset)
    cases hreset.symm.trans hresets
  | again _ _ _ hloop =>
    obtain rfl := hs.apart hmem (rest_mem_namesOf hloop)
    cases hloop.symm.trans hloops
  | entry _ _ _ hentry =>
    obtain rfl := hs.apart hmem (entry_mem_namesOf hentry)
    cases hentry.symm.trans hentries

lemma leftFinally?_of_innermost (h : f.InOrder low) (hs : labels.Sane f)
    (hparts : labels.finallies.lookup block = some parts) (hcompletes : CompletesTo f block dest)
    (hw : f.Within block id) (hne : id ≠ block)
    (hinner : ∀ inner, f.Below id inner → f.Below inner block → ¬ CompletesTo f inner dest) :
    labels.leftFinally? f id dest = some parts := by
  obtain ⟨owner, howner, rfl⟩ := hcompletes
  obtain ⟨block', parts', hl, hwithin, hparts'⟩ :=
    leftFinally?_of_exit h.toLinked hparts howner hw hne
  have htarget := target?_of_leftFinally? hl
  obtain ⟨hbelow, hcompletes⟩ := completesTo_of_target? h hs hparts' htarget
  rcases h.inside_of_within hwithin with rfl | hin
  · rw [hl, ← hparts', hparts]
  · exact absurd hcompletes (hinner block' hbelow hin)

section Loop

variable (h : f.InOrder low) (hs : labels.Sane f) (hbody : f.loopBody? loop = some c)
  (hw : f.Within c id)
include h hbody hw

lemma enters_of_loopBody {owner d : Nat} (hlt : loop < d)
    (hleaf : ∀ tryBlock handler finalizer,
      f.node? id ≠ some (.tryStmt tryBlock handler finalizer)) :
    enters f owner id d = enters f owner loop d := by
  unfold enters
  split
  · rename_i tryBlock handler finalizer hn
    have hid : id ≠ owner := by
      rintro rfl
      exact hleaf _ _ _ hn
    have hloop : loop ≠ owner := by
      rintro rfl
      cases hbody.symm.trans (not_loopBody?_of_try hn)
    have hbelow : f.Below id loop := h.below_of_within hw (h.parent?_of_loopBody? hbody)
    by_cases hd : f.Below d tryBlock
    · -- the try block holds what is behind the loop, so it holds the loop if it holds the jump
      have hsame : f.Inside id tryBlock ↔ f.Inside loop tryBlock := by
        refine ⟨fun hin => ?_, fun hin => .inr (h.below_of_below_of_inside hbelow hin)⟩
        have hdt := h.below_lt hd
        rcases hin with rfl | hin
        · have hlt' := h.below_lt hbelow
          omega
        · rcases h.below_total hbelow hin with heq | hlt' | hlt'
          · exact .inl heq
          · exact .inr hlt'
          · have hlt'' := h.below_lt hlt'
            omega
      rw [Bool.eq_iff_iff]
      simp only [Bool.and_eq_true, bne_iff_ne, ne_eq, hid, hloop, not_false_eq_true, true_and,
        Bool.not_eq_true', ← Bool.not_eq_true, h.contains_iff, hd, and_true, ← not_or]
      exact not_congr hsame
    · have hcontains : f.contains tryBlock d .depthFirst = false := by
        rw [← Bool.not_eq_true, h.contains_iff]
        exact hd
      simp [hcontains]
  · rfl

include hs

lemma leftFinally?_break :
    labels.leftFinally? f id (f.exit? loop) = labels.leftFinally? f loop (f.exit? loop) := by
  have hp := h.parent?_of_loopBody? hbody
  obtain ⟨node, hn, -, hkind⟩ := exists_of_loopBody? hbody
  have hfun : f.isFunction loop = false := by
    rw [isFunction_eq hn]
    cases node <;> first | rfl | cases hkind
  -- the induction goes from the body of the loop down to the jump, one finally block at a time
  induction hw with
  | self =>
    rw [leftFinally?, h.enclosing_of_parent hp hfun, List.findSome?_cons]
    simp only [hs.lookup_loop hbody]
    rfl
  | @child id p hpid hpfun hwp ih =>
    rw [leftFinally?, h.enclosing_of_parent hpid hpfun, List.findSome?_cons]
    have hskip : ∀ parts owner, labels.finallies.lookup p = some parts →
        finallyOwner? f p = some owner → f.exit? owner ≠ f.exit? loop := by
      intro parts owner hparts howner
      obtain ⟨hparent, tryBlock, handler, htry⟩ := finallyOwner?_eq_some howner
      cases hwp with
      | self =>
        obtain rfl := Option.mem_unique hparent hp
        cases hbody.symm.trans (not_loopBody?_of_try htry)
      | child hq _ hwq =>
        obtain rfl := Option.mem_unique hparent hq
        exact h.exit?_ne_of_within hbody hwq
    dsimp only
    split
    · rename_i hfound
      split at hfound
      · rename_i parts owner hparts howner
        rw [if_neg (hskip parts owner hparts howner)] at hfound
        cases hfound
      · cases hfound
    · exact ih

lemma target?_break (hleaf : ∀ tryBlock handler finalizer,
      f.node? id ≠ some (.tryStmt tryBlock handler finalizer)) :
    labels.target? f id (f.exit? loop) = labels.target? f loop (f.exit? loop) := by
  unfold target?
  rw [leftFinally?_break h hs hbody hw]
  cases hl : labels.leftFinally? f loop (f.exit? loop) with
  | some parts => rfl
  | none =>
    cases hd : f.exit? loop with
    | none => rfl
    | some d =>
      have hlt := h.lt_of_exit? hd
      have hbelow : f.Below id loop := h.below_of_within hw (h.parent?_of_loopBody? hbody)
      have hidlt := h.below_lt hbelow
      have henters : labels.enteredReset? f id d = labels.enteredReset? f loop d := by
        simp only [enteredReset?, enters_of_loopBody h hbody hw hlt hleaf]
      have hsame : f.contains d id .depthFirst = f.contains d loop .depthFirst := by
        rw [Bool.eq_iff_iff, h.contains_iff, h.contains_iff]
        refine ⟨fun hin => ?_, fun hin => h.below_trans hbelow hin⟩
        rcases h.below_total hbelow hin with heq | hin | hin
        · omega
        · exact hin
        · have hlt' := h.below_lt hin
          omega
      have hne : d ≠ id := Nat.ne_of_gt (Nat.lt_trans hidlt hlt)
      have hne' : d ≠ loop := Nat.ne_of_gt hlt
      simp only [henters, hsame, hne, hne']

lemma leftFinally?_continue
    (hround : ∀ block, f.Below id block → f.Below block loop → ¬ CompletesTo f block (some loop)) :
    labels.leftFinally? f id (some loop) = none := by
  cases hl : labels.leftFinally? f id (some loop) with
  | none => rfl
  | some parts =>
    obtain ⟨block, child, owner, hm, hparts, howner, hexit⟩ := leftFinally?_eq_some hl
    obtain ⟨hp, hpfun, hwc⟩ := h.mem_enclosing_iff.mp hm
    have hbelow := h.below_of_within hwc hp
    have hjump : f.Below id loop := h.below_of_within hw (h.parent?_of_loopBody? hbody)
    rcases h.below_total hjump hbelow with rfl | hout | hin
    · cases hparts.symm.trans (hs.lookup_loop hbody)
    · have hlt := h.lt_of_exit? hexit
      have hlt' := h.lt_parent (finallyOwner?_eq_some howner).1
      have hlt'' := h.below_lt hout
      omega
    · exact absurd ⟨owner, howner, hexit⟩ (hround block hbelow hin)

lemma exists_reentry (hsuit : (labels.partsOf loop).Suit f loop)
    (hround : ∀ block, f.Below id block → f.Below block loop → ¬ CompletesTo f block (some loop)) :
    ∃ name, labels.Reentry f loop name ∧ labels.target? f id (some loop) = some name := by
  have hjump : f.Below id loop := h.below_of_within hw (h.parent?_of_loopBody? hbody)
  have hreset : labels.enteredReset? f id loop = none := by
    cases hr : labels.enteredReset? f id loop with
    | none => rfl
    | some name =>
      obtain ⟨owner, _, -, -, henters⟩ := enteredReset?_eq_some hr
      obtain ⟨tryBlock, -, hout, hbelow⟩ := below_of_enters h henters
      exact absurd (.inr (h.below_trans hjump hbelow)) hout
  have hback : (decide (loop = id) || f.contains loop id .depthFirst) = true := by
    rw [Bool.or_eq_true, h.contains_iff]
    exact .inr hjump
  have hnone := leftFinally?_continue h hs hbody hw hround
  obtain ⟨node, hn, -⟩ := exists_of_loopBody? hbody
  have hworks : node.works = true := by
    obtain ⟨node', hn', hworks⟩ := works_of_loopBody? hbody
    exact Option.mem_unique hn hn' ▸ hworks
  by_cases hkind : node.kind = .forOfStmt
  · cases node <;> cases hkind
    obtain ⟨parts, hparts⟩ : ∃ parts, labels.loops.lookup loop = some parts := by
      generalize hlabels : labels.partsOf loop = owned at hsuit
      obtain ⟨-, hloops, -, -⟩ := Parts.mk.inj hlabels
      cases hsuit with
      | loop _ _ parts => exact ⟨parts, hloops⟩
      | bare hn' hidle =>
        cases hn.symm.trans hn'
        cases hidle
      | entry hn' _ hne =>
        cases hn.symm.trans hn'
        exact absurd rfl hne
      | rethrow hn' | reset hn' => cases hn.symm.trans hn'
    refine ⟨parts.rest, .rest hn hparts, ?_⟩
    simp only [target?, hnone, hreset, hparts, hback, if_true]
  · obtain ⟨name, hlabels⟩ := hsuit.eq_entry hn hworks hkind
    obtain ⟨hentry, hloops, -, -⟩ := Parts.mk.inj hlabels
    refine ⟨name, .check hn hkind hentry, ?_⟩
    simp only [target?, hnone, hreset, hloops, hentry]

end Loop

variable {name : String}

lemma Reentry.ne_rethrow (hs : labels.Sane f) (hr : labels.Reentry f loop name)
    (hbody : f.loopBody? loop = some c) (hparts : labels.finallies.lookup block = some parts) :
    name ≠ parts.rethrow := by
  rintro rfl
  have hmem : parts.rethrow ∈ labels.namesOf loop := by
    generalize parts.rethrow = name at hr
    cases hr with
    | rest _ hloop => exact rest_mem_namesOf hloop
    | check _ _ hentry => exact entry_mem_namesOf hentry
  obtain rfl := hs.apart hmem (rethrow_mem_namesOf hparts)
  cases hparts.symm.trans (hs.lookup_loop hbody)

end Labels

def onlyMoves (target : Option String) : State := .pass { transition := .ofOption target }

@[simp] lemma next?_onlyMoves (target : Option String) : (onlyMoves target).next? = target := by
  cases target <;> rfl

lemma eq_of_emitJump {f : Forest} {t : Term} {dest : Option NodeId} {d d' : Draft} {s : State}
    (hrun : (emitJump f t dest).run d = .ok ((), d')) (hs : (name, s) ∈ d'.states)
    (hnew : name ∉ d.states.map Prod.fst) : s = onlyMoves (d.labels.target? f t.tag dest) := by
  obtain ⟨transition, _, hmove, hrun⟩ := run_bind_eq_ok hrun
  cases hmove
  obtain ⟨name', -, hrun⟩ := run_bind_entry_eq_ok hrun
  cases hrun
  rcases List.mem_append.mp hs with hs | hs
  · exact absurd (List.mem_map_of_mem hs) hnew
  · rw [List.mem_singleton, Prod.mk.injEq] at hs
    exact hs.2

/-- Where a jump to a loop goes from inside a finally block of the loop. A `break` leads where the
loop leads when it ends, and raises only errors of finally blocks around the loop. A `continue`
leads to the next round, unless a finally block that it leaves comes last in the round. -/
structure Making.LeavesFinally {program : Program} {machine : Machine} (m : Making program machine)
    (loop : NodeId) (parts : FinallyLabels) (t : Term) (s : State) : Prop where
  moves : s = onlyMoves s.next?
  breaks : t.kind = .breakStmt →
    s.next? = m.first.labels.target? program.forest loop (program.forest.exit? loop) ∧
    s.next? ≠ some parts.rethrow ∧ ∀ block parts',
      m.first.labels.finallies.lookup block = some parts' → s.next? = some parts'.rethrow →
      program.forest.Below loop block
  continues : t.kind = .continueStmt → (∀ block, program.forest.Below t.tag block →
    program.forest.Below block loop → ¬ CompletesTo program.forest block (some loop)) →
    (∃ name, m.first.labels.Reentry program.forest loop name ∧ s.next? = some name) ∧
    s.next? ≠ some parts.rethrow
  raises : t.kind = .continueStmt → ∀ block, program.forest.Below t.tag block →
    program.forest.Below block loop → CompletesTo program.forest block (some loop) →
    (∀ inner, program.forest.Below t.tag inner → program.forest.Below inner block →
      ¬ CompletesTo program.forest inner (some loop)) →
    ∃ parts', m.first.labels.finallies.lookup block = some parts' ∧ s.next? = some parts'.rethrow

namespace Making

variable {program : Program} {low : Nat → Nat} {machine : Machine} {m : Making program machine}
  (hm : m.Sound low) {t : Term} {name : String} {s : State} (hem : m.Emitted t name s) {loop : Nat}
  (hloop : program.forest.enclosingLoop? t.tag = some loop) {owner : Nat}
include hm hem hloop

lemma eq_of_jump (jump : String) {dest : NodeId → Option NodeId}
    (hemit : emit program (nestedMachine program m.depth) t = (do
      let loop ← liftM (jumpLoop program.forest t jump)
      emitJump program.forest t (dest loop))) (hdest : m.plan.Lands (dest loop)) :
    s = onlyMoves (m.first.labels.target? program.forest t.tag (dest loop)) := by
  have hw := hm.collects.within t (hm.finished.emitted hem).1
  obtain ⟨d, d', hrun, hs, hnew, hready⟩ := hm.finished.made hem
  obtain ⟨loop', d₁, hfound, hrun⟩ := run_bind_eq_ok (hemit ▸ hrun)
  obtain ⟨hfound', rfl⟩ := run_lift_eq_ok hfound
  obtain rfl := Option.mem_unique hloop (jumpLoop_eq_ok hfound').1
  rw [eq_of_emitJump hrun hs hnew]
  exact congrArg onlyMoves (hready.target?_eq hm.plan hw hdest)

lemma eq_of_break (hkind : t.kind = .breakStmt) : s = onlyMoves
    (m.first.labels.target? program.forest t.tag (program.forest.exit? loop)) := by
  have hw := hm.collects.within t (hm.finished.emitted hem).1
  refine eq_of_jump hm hem hloop "break" ?_ (Plan.lands_exit? hm.plan
    (hm.inOrder.within_of_enclosingLoop? hm.plan.isBody hw hloop).1)
  cases hnode : t.node <;> rw [Tree.kind, hnode] at hkind <;> cases hkind
  rw [emit, hnode]

lemma eq_of_continue (hkind : t.kind = .continueStmt) :
    s = onlyMoves (m.first.labels.target? program.forest t.tag (some loop)) := by
  have hw := hm.collects.within t (hm.finished.emitted hem).1
  have hdest : m.plan.Lands (some loop) := by
    rintro _ ⟨⟩
    exact hm.inOrder.within_of_enclosingLoop? hm.plan.isBody hw hloop
  refine eq_of_jump hm hem hloop "continue" ?_ hdest
  cases hnode : t.node <;> rw [Tree.kind, hnode] at hkind <;> cases hkind
  rw [emit, hnode]

lemma within_of_jump (hbelow : program.forest.Below t.tag owner)
    (howner : program.forest.Below owner loop) : program.forest.Within m.body.tag owner := by
  have h := hm.inOrder
  have hwithin := hm.collects.within t (hm.finished.emitted hem).1
  obtain ⟨c, hmem, hbody⟩ := enclosingLoop?_eq_some hloop
  have hwc := (h.within_of_mem_enclosing hm.plan.isBody hwithin hmem).2
  exact hwc.trans (h.within_loopBody hbody (h.mem_enclosing_iff.mp hmem).2.2 hbelow howner)

lemma leavesFinally (hkind : t.kind = .breakStmt ∨ t.kind = .continueStmt)
    {tryBlock finalizer : Nat} {handler : Option Nat}
    (hn : program.forest.node? owner = some (.tryStmt tryBlock handler (some finalizer)))
    (howner : program.forest.Below owner loop) {parts : FinallyLabels}
    (hparts : m.first.labels.finallies.lookup finalizer = some parts) :
    m.LeavesFinally loop parts t s := by
  have h := hm.inOrder
  have ht := (hm.finished.emitted hem).1
  have hwithin := hm.collects.within t ht
  obtain ⟨c, hmem, hbody⟩ := enclosingLoop?_eq_some hloop
  obtain ⟨-, -, hw⟩ := h.mem_enclosing_iff.mp hmem
  have hleaf : ∀ tryBlock handler finalizer,
      program.forest.node? t.tag ≠ some (.tryStmt tryBlock handler finalizer) := by
    intro tryBlock handler finalizer heq
    obtain ⟨_, _, _, hnode, -⟩ := h.node_of_try (hm.collects.shows t ht) heq
    rw [Tree.kind, hnode] at hkind
    rcases hkind with hkind | hkind <;> cases hkind
  have hinside : ¬ program.forest.Below loop finalizer := by
    intro hout
    have hlt := h.below_lt hout
    have hlt' := h.below_lt howner
    have hlt'' := h.lt_parent (h.parent_finalizer hn)
    omega
  obtain ⟨hwloop, _, hnloop, hworks⟩ := h.within_of_enclosingLoop? hm.plan.isBody hwithin hloop
  refine ⟨?_, ?_, ?_, ?_⟩
  · rcases hkind with hkind | hkind
    · rw [eq_of_break hm hem hloop hkind, next?_onlyMoves]
    · rw [eq_of_continue hm hem hloop hkind, next?_onlyMoves]
  · intro hkind
    have hnext := congrArg State.next? (eq_of_break hm hem hloop hkind)
    rw [next?_onlyMoves, Labels.target?_break h hm.sane hbody hw hleaf] at hnext
    have houter : ∀ block parts', m.first.labels.finallies.lookup block = some parts' →
        s.next? = some parts'.rethrow → program.forest.Below loop block := by
      intro block parts' hparts' hrethrow
      exact (Labels.completesTo_of_target? h hm.sane hparts' (hnext ▸ hrethrow)).1
    exact ⟨hnext, fun heq => hinside (houter finalizer parts hparts heq), houter⟩
  · intro hkind hround
    have hnext := congrArg State.next? (eq_of_continue hm hem hloop hkind)
    rw [next?_onlyMoves] at hnext
    obtain ⟨u, hu, hutag⟩ := hm.collects.complete hwloop hnloop (Node.category_of_works hworks)
    obtain ⟨name, hreentry, htarget⟩ :=
      Labels.exists_reentry h hm.sane hbody hw (hutag ▸ hm.suit u hu) hround
    refine ⟨⟨name, hreentry, hnext.trans htarget⟩, ?_⟩
    rw [hnext, htarget]
    exact fun heq => hreentry.ne_rethrow hm.sane hbody hparts (Option.some.inj heq)
  · intro hkind block hbelow hinloop hcompletes hinner
    have hnext := congrArg State.next? (eq_of_continue hm hem hloop hkind)
    rw [next?_onlyMoves] at hnext
    have hblock := within_of_jump hm hem hloop hbelow hinloop
    obtain ⟨owner', howner', -⟩ := id hcompletes
    obtain ⟨hparent, _, _, hn'⟩ := finallyOwner?_eq_some howner'
    have hwowner := hm.plan.isBody.within_parent hblock hparent (isFunction_of_try hn')
    obtain ⟨-, parts', -, -, hparts', -⟩ := exists_reset hm hn' hwowner
    refine ⟨parts', hparts', hnext.trans (Labels.target?_of_leftFinally? ?_)⟩
    refine Labels.leftFinally?_of_innermost h hm.sane hparts' hcompletes
      (h.within_of_inside hwithin hblock (.inr hbelow)) ?_ hinner
    exact Nat.ne_of_lt (h.below_lt hbelow)

end Making

/-- In a compiled machine and all machines inside it, a jump in a finally block, to a loop around
the try statement, drops the pending error of the block, unless it is a `continue` and the try
statement comes last in the round. -/
theorem compile_jumps_leave_finally {tree : SyntaxTree} {root : NodeId} {program : Program}
    (hf : Forest.ofTree tree = .ok (root, program.forest)) {before after : Namespace}
    {workflow : Workflow} (hc : (compile program).run.run before = (.ok workflow, after))
    {machine : Machine} (hh : Holds workflow.definition machine) :
    ∃ m : Making program machine, m.Covers ∧
      ∀ {t : Term} {name : String} {s : State} {loop owner tryBlock finalizer : NodeId} {handler},
        m.Emitted t name s → t.kind = .breakStmt ∨ t.kind = .continueStmt →
        program.forest.enclosingLoop? t.tag = some loop →
        program.forest.node? owner = some (.tryStmt tryBlock handler (some finalizer)) →
        program.forest.Below t.tag finalizer → program.forest.Below owner loop →
        ∃ parts, m.first.labels.finallies.lookup finalizer = some parts ∧
          m.LeavesFinally loop parts t s := by
  obtain ⟨low, hmade⟩ := exists_making_of_compile hf hc
  obtain ⟨m, hm⟩ := exists_making_of_holds hmade hh
  refine ⟨m, Making.covers hm, ?_⟩
  intro t name s loop owner tryBlock finalizer handler hem hkind hloop hn hbelow howner
  have h := hm.inOrder
  have habove := h.below_trans hbelow (h.below_of_parent (h.parent_finalizer hn))
  obtain ⟨-, parts, -, -, hparts, -⟩ :=
    Making.exists_reset hm hn (Making.within_of_jump hm hem hloop habove howner)
  exact ⟨parts, hparts, Making.leavesFinally hm hem hloop hkind hn howner hparts⟩

/-- A loop in a finally block, whose rounds end with a try statement that jumps in its own finally
block. -/
def lastInRound (jump : Node SyntaxTree) : SyntaxTree :=
  let round : SyntaxTree := .closing [.copy "sent" "item"] [.mk () jump]
  .function [] [.closing [.copy "opened" "items"] [.each "item" (.ident "items") (.block [round])]]

/-- The jump is node 8, its try statement node 10 with the finally block 9, and the loop node 12. -/
lemma exists_lastInRound {jump : Node SyntaxTree}
    (hjump : jump = .breakStmt ∨ jump = .continueStmt) : ∃ root f workflow after,
    ofTree (lastInRound jump) = .ok (root, f) ∧
    (compile (programOf f root)).run.run .empty = (.ok workflow, after) ∧
    f.node? 10 = some (.tryStmt 7 none (some 9)) ∧ f.enclosingLoop? 8 = some 12 ∧
    f.Below 8 9 ∧ f.Below 10 12 ∧ f.exit? 10 = some 12 ∧
    ∀ {machine} {m : Making (programOf f root) machine}, m.Covers →
      ∃ t name s, m.Emitted t name s ∧ t.tag = 8 ∧ t.kind = jump.kind := by
  obtain ⟨root, f, workflow, after, hf, hc, heval⟩ :=
    exists_compiled compile programOf (lastInRound jump)
      (fun program _ => let f := program.forest
        f.node? 10 = some (.tryStmt 7 none (some 9)) ∧ f.enclosingLoop? 8 = some 12 ∧
        9 ∈ f.ancestors 8 ∧ 12 ∈ f.ancestors 10 ∧ f.exit? 10 = some 12 ∧
        f.node? 8 = some (jump.map fun _ => 0) ∧ (15, 14) ∈ f.enclosing 8 ∧
        (List.range f.size).all fun id => !(f.parent? id).any f.isFunction || id == 15)
      (by rcases hjump with rfl | rfl <;> decide +kernel)
  obtain ⟨hn, hloop, hbelow, howner, hexit, hnode, htop, hbody⟩ := heval
  refine ⟨root, f, workflow, after, hf, hc, hn, hloop, hbelow, howner, hexit, ?_⟩
  intro machine m hcovers
  obtain ⟨low, h⟩ := inOrder_ofTree hf
  have hworks : (jump.map fun _ => (0 : NodeId)).works = true := by
    rcases hjump with rfl | rfl <;> rfl
  obtain ⟨t, -, htag, hkind, name, s, -, hem⟩ :=
    exists_statement_of_covers h hcovers hbody htop hnode hworks
  exact ⟨t, name, s, hem, htag, by simpa using hkind⟩

theorem compile_jumps_leave_finally_lastInRound : ∃ root f workflow after,
    Forest.ofTree (lastInRound .breakStmt) = .ok (root, f) ∧
    (compile (programOf f root)).run.run .empty = (.ok workflow, after) ∧
    f.node? 10 = some (.tryStmt 7 none (some 9)) ∧ f.Below 10 12 ∧
    ∃ m : Making (programOf f root) workflow.definition, ∃ t name s parts,
      m.Emitted t name s ∧ t.kind = .breakStmt ∧ f.enclosingLoop? t.tag = some 12 ∧
      f.Below t.tag 9 ∧ m.first.labels.finallies.lookup 9 = some parts ∧
      m.LeavesFinally 12 parts t s ∧ s.next? ≠ some parts.rethrow := by
  obtain ⟨root, f, workflow, after, hf, hc, hn, hloop, hbelow, howner, -, hemitted⟩ :=
    exists_lastInRound (.inl rfl)
  obtain ⟨m, hcovers, hleaves⟩ := compile_jumps_leave_finally hf hc (.self _)
  obtain ⟨t, name, s, hem, htag, hkind⟩ := hemitted hcovers
  rw [← htag] at hloop hbelow
  obtain ⟨parts, hparts, hleft⟩ := hleaves hem (.inl hkind) hloop hn hbelow howner
  exact ⟨root, f, workflow, after, hf, hc, hn, howner, m, t, name, s, parts, hem, hkind, hloop,
    hbelow, hparts, hleft, (hleft.breaks hkind).2.1⟩

/-- A `continue` in a finally block that comes last in the round raises the pending error: it leads
to the choice at the end of its own finally block. -/
theorem error_raised_by_continue : ∃ root f workflow after,
    ofTree (lastInRound .continueStmt) = .ok (root, f) ∧
    (compile (programOf f root)).run.run .empty = (.ok workflow, after) ∧
    f.node? 10 = some (.tryStmt 7 none (some 9)) ∧ f.Below 10 12 ∧
    ∃ m : Making (programOf f root) workflow.definition, ∃ t name s parts raise otherwise,
      m.Emitted t name s ∧ t.kind = .continueStmt ∧ f.enclosingLoop? t.tag = some 12 ∧
      f.Below t.tag 9 ∧ m.first.labels.finallies.lookup 9 = some parts ∧
      s.next? = some parts.rethrow ∧
      (parts.rethrow, .choice ⟨isPending parts.slot, raise, otherwise⟩) ∈
        workflow.definition.states := by
  obtain ⟨root, f, workflow, after, hf, hc, hn, hloop, hbelow, howner, hexit, hemitted⟩ :=
    exists_lastInRound (.inr rfl)
  have hforest : ofTree (lastInRound .continueStmt) = .ok (root, (programOf f root).forest) := hf
  obtain ⟨low, m, hm⟩ := exists_making_of_compile hforest hc
  obtain ⟨t, name, s, hem, htag, hkind⟩ := hemitted (Making.covers hm)
  have h : f.InOrder low := hm.inOrder
  rw [← htag] at hloop hbelow
  have hparent := h.below_of_parent (h.parent_finalizer hn)
  have hwithin := Making.within_of_jump hm hem hloop (h.below_trans hbelow hparent) howner
  obtain ⟨-, parts, -, -, hparts, -⟩ := Making.exists_reset hm hn hwithin
  have hleft := Making.leavesFinally hm hem hloop (.inr hkind) hn howner hparts
  have hcompletes : CompletesTo f 9 (some 12) := ⟨10, finallyOwner?_of_try h.toLinked hn, hexit⟩
  have hinner : ∀ inner, f.Below t.tag inner → f.Below inner 9 →
      ¬ CompletesTo f inner (some 12) := by
    intro inner hout hin
    have hlt := h.below_lt (htag ▸ hout)
    have hlt' := h.below_lt hin
    omega
  obtain ⟨parts', hparts', hnext⟩ :=
    hleft.raises hkind 9 hbelow (h.below_trans hparent howner) hcompletes hinner
  obtain rfl := Option.mem_unique hparts hparts'
  obtain ⟨raise, otherwise, hchoice⟩ := Making.choice_of_rethrow hm hn hwithin hparts
  exact ⟨root, f, workflow, after, hf, hc, hn, howner, m, t, name, s, parts, raise, otherwise, hem,
    hkind, hloop, hbelow, hparts, hnext, hchoice⟩

end ServiceFlow.Machine
