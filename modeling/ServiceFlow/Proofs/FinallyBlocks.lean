import Mathlib.Logic.Relation
import ServiceFlow.Proofs.ClosedMachines

/-!
# Finally blocks are run

The states of the try block and of the catch clause of a try statement lead to states of the same
statement, and an error that the finally block handles is kept until the block raises it again. A
block that control only passes through is not run, and a return leaves a try statement at once.
-/

namespace ServiceFlow.Machine

open Forest List

def Plan.errorExits (plan : Plan) (t : Term) (name : String) (s : State) : List String :=
  s.catchers.map Catcher.next ++ if plan.raises t name then s.exits else []

def Plan.plainExits (plan : Plan) (t : Term) (name : String) (s : State) : List String :=
  if plan.raises t name then [] else s.exits

/-- If a statement is a jump, it stays inside a node. -/
def JumpsInside (f : Forest) (t : Term) (id : Nat) : Prop :=
  t.kind = .breakStmt ∨ t.kind = .continueStmt →
    ∀ loop, f.enclosingLoop? t.tag = some loop → f.Inside loop id

section Arrives

variable {program : Program} {low : Nat → Nat} (h : program.forest.InOrder low) {t : Term}
  (ht : program.forest.Shows t) {part : Nat} (hw : program.forest.Within part t.tag)
  (hjump : t.kind = .breakStmt ∨ t.kind = .continueStmt →
    ∃ loop, program.forest.enclosingLoop? t.tag = some loop ∧ program.forest.Within part loop)
include h ht hw hjump

omit hjump in
lemma arrives_part (hfun : t.kind.isFunction = false) {c : Term} (hc : c ∈ t.node.children) :
    program.forest.Arrives part (program.forest.step? c.tag) := by
  obtain ⟨-, hparent⟩ := h.shows_child ht hc
  refine h.arrives_step? (.child hparent ?_ hw) (h.node?_ne_none_of_parent hparent)
  rw [isFunction_eq (h.node?_of_shows ht), Node.kind_map]
  exact hfun

omit ht hw in
lemma arrives_jump (hkind : t.kind = .breakStmt ∨ t.kind = .continueStmt) :
    program.forest.Arrives part (program.forest.enclosingLoop? t.tag) ∧
      program.forest.Arrives part
        ((program.forest.enclosingLoop? t.tag).bind program.forest.exit?) := by
  obtain ⟨loop, hloop, hwithin⟩ := hjump hkind
  obtain ⟨c, -, hbody⟩ := enclosingLoop?_eq_some hloop
  rw [hloop]
  exact ⟨.inl ⟨loop, rfl, hwithin, works_of_loopBody? hbody⟩, h.arrives_exit? hwithin⟩

lemma arrives_onward
    (howner : ∀ owner, finallyOwner? program.forest t.tag = some owner → t.tag ≠ part) :
    ∀ dest ∈ onward program t :: successors program.forest t, program.forest.Arrives part dest := by
  have hn := h.node?_of_shows ht
  have hexit := h.arrives_exit? hw
  have hstep := h.arrives_step? hw (by simp [hn])
  have hpart := fun hfun (c : Term) hc => arrives_part (c := c) h ht hw hfun hc
  have hjump := arrives_jump h hjump
  refine forall_mem_cons.mpr ⟨onward_of_forall (P := program.forest.Arrives part) hexit hstep
    hpart hjump, fun dest => forall_successors hexit hstep hpart hjump ?_⟩
  intro owner ho
  refine h.arrives_exit? ?_
  obtain ⟨hparent, -⟩ := finallyOwner?_eq_some ho
  cases hw with
  | self => exact absurd rfl (howner owner ho)
  | child hp _ hw => exact Option.mem_unique hp hparent ▸ hw

end Arrives

namespace Making

variable {program : Program} {low : Nat → Nat} {machine : Machine} {m : Making program machine}
  {dest : Option Nat} {t : Term} {name : String} {s : State}

/-- A name is that of a working state made for a statement inside a node. -/
def LeadsInto (m : Making program machine) (id : Nat) (e : String) : Prop :=
  ∃ u ∈ m.statements, program.forest.Inside u.tag id ∧ m.StateOf u e

/-- Every way onward from the statement leads into the part. -/
def StaysIn (m : Making program machine) (id : Nat) (t : Term) : Prop :=
  ∀ dest ∈ onward program t :: successors program.forest t, ∃ e,
    m.first.labels.target? program.forest t.tag dest = some e ∧ m.LeadsInto id e

/-- A try statement of the body with a finally block in which control stops. -/
structure HasFinally (m : Making program machine) (owner finalizer : Nat) : Prop where
  within : program.forest.Within m.body.tag owner
  node : ∃ tryBlock handler, program.forest.node? owner =
    some (.tryStmt tryBlock handler (some finalizer))
  stops : program.forest.StopsIn finalizer

section Inside

variable (hm : m.Sound low)
include hm

variable {e name : String} {part source d : Nat} {t : Term} {s : State} {id : Nat}

lemma LeadsInto.mono {a b : Nat} (hab : program.forest.Inside a b) (h : m.LeadsInto a e) :
    m.LeadsInto b e := by
  obtain ⟨u, hu, hin, he⟩ := h
  exact ⟨u, hu, hm.inOrder.inside_trans hin hab, he⟩

lemma leadsInto_of_mem_namesOf (hpart : program.forest.Within m.body.tag part)
    (hw : program.forest.Within part id) (he : e ∈ m.first.labels.namesOf id) :
    m.LeadsInto part e := by
  obtain ⟨u, hu, rfl, hs⟩ := emitted_of_mem_namesOf hm (hpart.trans hw) he
  exact ⟨u, hu, hm.inOrder.inside_of_within hw, hs⟩

omit hm in
lemma eq_of_goes {e' : String} (ht : m.first.labels.target? program.forest source dest = some e')
    (hg : m.plan.Goes m.last.done source dest e) : e = e' := by
  have ht' : m.plan.labels.target? m.plan.forest source dest = some e' := ht
  rw [Plan.Goes, ht'] at hg
  exact (Option.some.inj hg).symm

lemma exists_target? (source : Nat) (hd : program.forest.Within m.body.tag d)
    (hworks : program.forest.Works d) :
    ∃ e, m.first.labels.target? program.forest source (some d) = some e := by
  refine Option.ne_none_iff_exists'.mp fun hnone => ?_
  have hlands : m.plan.Lands (some d) := by
    rintro n ⟨⟩
    exact ⟨hd, hworks⟩
  cases eq_none_of_target? hm hlands hnone

lemma target?_of_part (hpart : program.forest.Within m.body.tag part)
    (hs : program.forest.Within part source) (hd : program.forest.Within part d)
    (hworks : program.forest.Works d) :
    ∃ e, m.first.labels.target? program.forest source (some d) = some e ∧ m.LeadsInto part e := by
  obtain ⟨e, ht⟩ := exists_target? hm source (hpart.trans hd) hworks
  obtain ⟨id, hw, he⟩ := Labels.target?_within hm.inOrder hs hd ht
  exact ⟨e, ht, leadsInto_of_mem_namesOf hm hpart hw he⟩

lemma plain_cases (hem : m.Emitted t name s) (he : e ∈ m.plan.plainExits t name s) :
    m.StateOf t e ∨ ∃ dest ∈ successors program.forest t, m.plan.Goes m.last.done t.tag dest e := by
  unfold Plan.plainExits at he
  split_ifs at he with hraises
  · cases he
  · obtain ⟨way, fresh, hleads, hown⟩ := leads_of_emitted hm hem he
    cases hleads with
    | own _ he => exact .inl (hown e he)
    | moves _ hd hg => exact .inr ⟨_, hd, hg⟩
    | clears hraises' | hands hraises' => exact absurd hraises' hraises

lemma StaysIn.plain (h : m.StaysIn id t) (hin : program.forest.Inside t.tag id)
    (hem : m.Emitted t name s) (he : e ∈ m.plan.plainExits t name s) : m.LeadsInto id e := by
  rcases plain_cases hm hem he with hs | ⟨dest, hd, hg⟩
  · exact ⟨t, (hm.finished.emitted hem).1, hin, hs⟩
  · obtain ⟨e', htarget, hinto⟩ := h dest (mem_cons_of_mem _ hd)
    exact eq_of_goes htarget hg ▸ hinto

lemma StaysIn.ends (h : m.StaysIn id t) (hem : m.Emitted t name s) (hkind : t.kind ≠ .returnStmt) :
    s.ends = false := by
  obtain ⟨-, -, fresh, hwired, -⟩ := hm.finished.emitted hem
  by_contra hends
  rcases hwired.ends (by simpa using hends) with hreturn | hnone
  · exact hkind hreturn
  · obtain ⟨e, htarget, -⟩ := h _ mem_cons_self
    cases hnone.symm.trans htarget

lemma error_cases (hem : m.Emitted t name s) (he : e ∈ m.plan.errorExits t name s) :
    t.kind ≠ .tryStmt ∧ ∃ handler, program.forest.raise? t.tag = some handler ∧
      (m.plan.Goes m.last.done t.tag (program.forest.step? handler) e ∨
        t.kind = .block ∧ m.StateOf t e ∧
          s.resultPath? = (m.plan.errorPath? handler).map .path) := by
  rcases mem_append.mp he with he | he
  · obtain ⟨c, hc, rfl⟩ := mem_map.mp he
    obtain ⟨-, -, fresh, hwired, -⟩ := hm.finished.emitted hem
    obtain ⟨huse, handler, hr, hg, -⟩ := hwired.caught c hc
    refine ⟨?_, handler, hr, .inl hg⟩
    obtain ⟨tag, node⟩ := t
    rintro hkind
    cases node <;> cases hkind
    exact huse rfl
  · split_ifs at he with hraises
    · have hkind : t.kind ≠ .tryStmt := by
        rintro hkind
        simp [Plan.raises, hkind] at hraises
      obtain ⟨way, fresh, hleads, hown⟩ := leads_of_emitted hm hem he
      cases hleads with
      | own hraises' | moves hraises' => exact absurd (hraises.symm.trans hraises') (by simp)
      | clears _ hblock hr he hs => exact ⟨hkind, _, hr, .inr ⟨hblock, hown e (.inr he), hs⟩⟩
      | hands _ hr hg => exact ⟨hkind, _, hr, .inl hg⟩
    · cases he

lemma mem_namesOf_of_exit {u : Term} (hem : m.Emitted t name s)
    (he : e ∈ m.plan.plainExits t name s ∨ e ∈ m.plan.errorExits t name s) (hu : m.StateOf u e)
    (hne : t ≠ u) : e ∈ m.first.labels.namesOf u.tag := by
  obtain ⟨s', hs', hu⟩ := hu
  have hown : ∀ {v}, m.StateOf v e → v = u := by
    rintro v ⟨s'', -, hv⟩
    exact hm.finished.unique hv hu
  have ht := (hm.finished.emitted hem).1
  have hnext : e ∈ s.exits ++ s.catchers.map Catcher.next := by
    simp only [Plan.plainExits, Plan.errorExits] at he
    split_ifs at he <;> simp at he ⊢ <;> tauto
  rcases goes_of_next hm hem hnext with hs | ⟨dest, hd, hg⟩
  · exact absurd (hown hs) hne
  · have hdest := lands_of_mem hm ht hd
    obtain ⟨id, hw, hname⟩ := Labels.target?_owner hm.inOrder hm.plan.isBody
      (hm.collects.within t ht) (fun n hn => (hdest n hn).1) (target?_of_goes hm hu hs' hg)
    obtain ⟨v, -, rfl, hv⟩ := emitted_of_mem_namesOf hm hw hname
    exact hown hv ▸ hname

end Inside

section Reset

variable (hm : m.Sound low) {owner tryBlock finalizer : Nat} {handler : Option Nat}
  (hn : program.forest.node? owner = some (.tryStmt tryBlock handler (some finalizer)))
  (hw : program.forest.Within m.body.tag owner)
include hm hn hw

lemma eq_reset_of_emitted (htag : t.tag = owner) (hem : m.Emitted t name s) :
    m.first.labels.resets.lookup owner = some name ∧
      ∃ parts transition, m.first.labels.finallies.lookup finalizer = some parts ∧
        s = assignment (.ofVariable parts.slot) { result := some .null, transition } := by
  subst htag
  have ht := (hm.finished.emitted hem).1
  obtain ⟨tryBlock', handler', finalizer', hnode, hblock⟩ :=
    hm.inOrder.node_of_try (hm.collects.shows t ht) hn
  obtain ⟨block, rfl, rfl⟩ := Option.map_eq_some_iff.mp hblock
  obtain ⟨reset, hreset⟩ := (hm.suit t ht).eq_reset hn
  obtain ⟨d, d', hrun, hs, hnew, hready⟩ := hm.finished.made hem
  have hrun' : (emitReset program.forest t block).run d = .ok ((), d') := by
    rw [emit, hnode] at hrun
    exact hrun
  have hnames : m.plan.labels.namesOf t.tag = [reset] := by
    rw [Labels.namesOf]
    exact congrArg Parts.names hreset
  rw [hnames] at hready
  have hkind : t.kind = .tryStmt := by rw [Tree.kind, hnode]; rfl
  obtain ⟨_, _, -, rfl, parts, transition, hlookup, hstates⟩ :=
    Plan.does_emitReset hm.plan hw hkind hreset hready () d' hrun'
  have hwithin : m.plan.forest.Within m.plan.body block.tag :=
    .child (hm.inOrder.parent_finalizer hn) (isFunction_of_try hn) hw
  obtain ⟨-, -, hsame, -⟩ := Parts.mk.inj (hready.same block.tag hwithin)
  rw [hstates, mem_append, mem_singleton] at hs
  rcases hs with hs | hs
  · exact absurd (mem_map_of_mem hs) hnew
  · cases hs
    obtain ⟨-, -, -, hlabel⟩ := Parts.mk.inj hreset
    exact ⟨hlabel, parts, transition, hsame ▸ hlookup, rfl⟩

lemma exists_reset : ∃ reset parts transition,
    m.first.labels.resets.lookup owner = some reset ∧
    m.first.labels.finallies.lookup finalizer = some parts ∧
    (reset, assignment (.ofVariable parts.slot) { result := some .null, transition }) ∈
      machine.states := by
  obtain ⟨t, ht, rfl⟩ := hm.collects.complete hw hn rfl
  obtain ⟨reset, hreset⟩ := (hm.suit t ht).eq_reset hn
  have hname : reset ∈ m.plan.labels.namesOf t.tag := by
    have hreset' : m.plan.labels.partsOf t.tag = ⟨none, none, none, some reset⟩ := hreset
    simp [Labels.namesOf, hreset', Parts.names]
  obtain ⟨s, -, hem⟩ := hm.finished.paid t ht reset hname
  obtain ⟨hlookup, parts, transition, hparts, rfl⟩ := eq_reset_of_emitted hm hn hw rfl hem
  exact ⟨reset, parts, transition, hlookup, hparts, mem_of_emitted hm hem⟩

end Reset

section Finally

variable (hm : m.Sound low) {owner finalizer : Nat} (hfin : m.HasFinally owner finalizer)
include hm hfin

lemma parent?_of_hasFinally : program.forest.parent? finalizer = some owner := by
  obtain ⟨tryBlock, handler, hn⟩ := hfin.node
  exact hm.inOrder.parent_finalizer hn

omit hm in
lemma isFunction_owner : program.forest.isFunction owner = false := by
  obtain ⟨tryBlock, handler, hn⟩ := hfin.node
  exact isFunction_of_try hn

lemma within_finalizer : program.forest.Within m.body.tag finalizer :=
  .child (parent?_of_hasFinally hm hfin) (isFunction_owner hfin) hfin.within

lemma exists_part (ht : t ∈ m.statements) (hbelow : program.forest.Below t.tag owner)
    (hout : ¬ program.forest.Inside t.tag finalizer) :
    ∃ part, program.forest.parent? part = some owner ∧ part ≠ finalizer ∧
      program.forest.Within part t.tag := by
  obtain ⟨part, hpart, hin⟩ := hm.inOrder.inside_child_of_below hbelow
  have hw : program.forest.Within m.body.tag part :=
    .child hpart (isFunction_owner hfin) hfin.within
  refine ⟨part, hpart, ?_, hm.inOrder.within_of_inside (hm.collects.within t ht) hw hin⟩
  rintro rfl
  exact hout hin

section Part

variable {part : Nat} (hpart : program.forest.parent? part = some owner)
  (hne : part ≠ finalizer) {t : Term} (ht : t ∈ m.statements)
  (hw : program.forest.Within part t.tag)
include hpart hne ht hw

lemma exists_loop_of_part (hkind : t.kind = .breakStmt ∨ t.kind = .continueStmt) :
    ∃ loop, program.forest.enclosingLoop? t.tag = some loop ∧ program.forest.Within part loop := by
  obtain ⟨tryBlock, handler, hn⟩ := hfin.node
  obtain ⟨d, d', hrun, -⟩ := hm.finished.kept t ht
  obtain ⟨loop, hloop, hskips⟩ := exists_loop_of_emit hrun hkind
  exact ⟨loop, hloop, within_of_skipsFinally hm.inOrder.toLinked hn hpart hne hw hloop hskips⟩

variable {dest : Option Nat} {e : String}

omit ht hw in
lemma stays_of_part (ha : program.forest.Arrives part dest) :
    ∃ n, dest = some n ∧ program.forest.Within owner n ∧ program.forest.Works n := by
  obtain ⟨tryBlock, handler, hn⟩ := hfin.node
  obtain ⟨d, hd, hb⟩ := hfin.stops
  exact hm.inOrder.stays_of_arrives hn hpart hne hd hb ha

omit ht in
lemma stays_handler {target : Nat} (hr : program.forest.raise? t.tag = some target)
    (hb : program.forest.Below target owner) :
    ∃ n, program.forest.step? target = some n ∧ program.forest.Within owner n ∧
      program.forest.Works n := by
  have h := hm.inOrder
  obtain ⟨_, _, -, hp, -⟩ := h.part_of_raise? hr
  have hnode := h.node?_ne_none_of_parent hp
  rcases h.part_of_handler hpart hw hr hb with hp | hwithin
  · by_cases hfinal : target = finalizer
    · subst hfinal
      obtain ⟨d, hd, hb⟩ := hfin.stops
      obtain ⟨hwd, hworks⟩ := h.within_of_step?_below hd hb
      exact ⟨d, hd, within_of_child hp (isFunction_owner hfin) hwd, hworks⟩
    · exact stays_of_part hm hfin hp hfinal (h.arrives_step? .self hnode)
  · exact stays_of_part hm hfin hpart hne (h.arrives_step? hwithin hnode)

omit hm hne ht in
lemma inside_statement : program.forest.Within owner t.tag :=
  within_of_child hpart (isFunction_owner hfin) hw

lemma staysIn_of_part : m.StaysIn owner t := by
  have howner : ∀ owner, finallyOwner? program.forest t.tag = some owner → t.tag ≠ part := by
    -- a part that is a finally block itself is the finally block of the statement
    rintro owner ho rfl
    obtain ⟨tryBlock, handler, hn⟩ := hfin.node
    obtain ⟨hparent, tryBlock', handler', hn'⟩ := finallyOwner?_eq_some ho
    obtain rfl := Option.mem_unique hpart hparent
    have heq := hn.symm.trans hn'
    simp only [Option.some.injEq, Node.tryStmt.injEq] at heq
    exact hne heq.2.2.symm
  intro dest hd
  obtain ⟨n, rfl, hn, hworks⟩ := stays_of_part hm hfin hpart hne (arrives_onward hm.inOrder
    (hm.collects.shows t ht) hw (exists_loop_of_part hm hfin hpart hne ht hw) howner dest hd)
  exact target?_of_part hm hfin.within (inside_statement hfin hpart hw) hn hworks

variable {name : String} {s : State}

lemma leadsInto_of_error {handler : Nat} (hr : program.forest.raise? t.tag = some handler)
    (hb : program.forest.Below handler owner) (hem : m.Emitted t name s)
    (he : e ∈ m.plan.errorExits t name s) : m.LeadsInto owner e := by
  have hin := inside_statement hfin hpart hw
  obtain ⟨-, target, hr', hgoes | ⟨-, hs, -⟩⟩ := error_cases hm hem he
  · obtain rfl := Option.mem_unique hr hr'
    obtain ⟨n, hstep, hn, hworks⟩ := stays_handler hm hfin hpart hne hw hr hb
    rw [hstep] at hgoes
    obtain ⟨e', ht, hinto⟩ := target?_of_part hm hfin.within hin hn hworks
    exact eq_of_goes ht hgoes ▸ hinto
  · exact ⟨t, ht, hm.inOrder.inside_of_within hin, hs⟩

end Part

lemma stays_step? : ∃ n, program.forest.step? owner = some n ∧ program.forest.Within owner n ∧
    program.forest.Works n := by
  have h := hm.inOrder
  obtain ⟨tryBlock, handler, hn⟩ := hfin.node
  have hstep : program.forest.step? owner = program.forest.step? tryBlock := by
    rw [h.step?_eq, entering, hn]
    rfl
  have hp : program.forest.parent? tryBlock = some owner :=
    h.parent_eq_some hn (by simp [Node.children])
  rw [hstep]
  exact stays_of_part hm hfin hp (Ne.symm ((h.try_parts_ne hn).2.1 _ rfl))
    (h.arrives_step? .self (h.node?_ne_none_of_parent hp))

section Reset

variable {t : Term} (ht : t ∈ m.statements) (htag : t.tag = owner)
include ht htag

lemma node_of_owner :
    ∃ tryBlock handler finalizer, t.node = .tryStmt tryBlock handler finalizer := by
  obtain ⟨_, _, hn⟩ := hfin.node
  obtain ⟨_, _, _, hnode, -⟩ := hm.inOrder.node_of_try (hm.collects.shows t ht) (htag ▸ hn)
  exact ⟨_, _, _, hnode⟩

lemma staysIn_of_owner : m.StaysIn owner t := by
  obtain ⟨_, _, _, hnode⟩ := node_of_owner hm hfin ht htag
  obtain ⟨n, hstep, hw, hworks⟩ := stays_step? hm hfin
  intro dest hd
  have hdest : dest = program.forest.step? owner := by
    simpa [onward, successors, hnode, htag] using hd
  rw [hdest, hstep, htag]
  exact target?_of_part hm hfin.within .self hw hworks

end Reset

lemma exists_slot : ∃ parts, m.first.labels.finallies.lookup finalizer = some parts ∧
    m.plan.errorPath? finalizer = some (.ofVariable parts.slot) ∧
    m.first.labels.namesOf finalizer = [parts.rethrow] := by
  obtain ⟨tryBlock, handler, hn⟩ := hfin.node
  obtain ⟨-, parts, -, -, hparts, -⟩ := exists_reset hm hn hfin.within
  obtain ⟨hnames, statements, isFinally, hblock⟩ := hm.sane.eq_rethrow hparts
  have hblock' : m.plan.forest.node? finalizer = some (.block statements isFinally) := hblock
  have hparts' : m.plan.labels.finallies.lookup finalizer = some parts := hparts
  refine ⟨parts, hparts, ?_, congrArg Parts.names hnames⟩
  simp only [Plan.errorPath?, hblock', hparts', Option.map_some]

section Block

variable {t : Term} (ht : t ∈ m.statements) (hw : program.forest.Within finalizer t.tag)
  (hne : t.tag ≠ finalizer)
include ht hw hne

omit ht in
lemma target?_of_arrives (ha : program.forest.Arrives finalizer dest) :
    ∃ e, m.first.labels.target? program.forest t.tag dest = some e ∧ m.LeadsInto finalizer e := by
  have hwithin := within_finalizer hm hfin
  rcases ha with ⟨n, rfl, hn, hworks⟩ | rfl
  · exact target?_of_part hm hwithin hw hn hworks
  · obtain ⟨tryBlock, handler, hn⟩ := hfin.node
    obtain ⟨parts, hparts, -, -⟩ := exists_slot hm hfin
    have howner := finallyOwner?_of_try hm.inOrder.toLinked hn
    have hexit : program.forest.exit? finalizer = program.forest.exit? owner := by
      rw [hm.inOrder.exit?_of_try hn (by simp [Node.children]), if_pos (.inr rfl)]
    obtain ⟨block, parts', hl, hblock, hlookup⟩ :=
      Labels.leftFinally?_of_exit hm.inOrder.toLinked hparts howner hw hne
    refine ⟨parts'.rethrow, hexit ▸ Labels.target?_of_leftFinally? hl, ?_⟩
    exact leadsInto_of_mem_namesOf hm hwithin hblock (Labels.rethrow_mem_namesOf hlookup)

lemma staysIn_of_block (hjump : JumpsInside program.forest t finalizer) :
    m.StaysIn finalizer t := by
  have hloop : t.kind = .breakStmt ∨ t.kind = .continueStmt → ∃ loop,
      program.forest.enclosingLoop? t.tag = some loop ∧ program.forest.Within finalizer loop := by
    intro hkind
    obtain ⟨d, d', hrun, -⟩ := hm.finished.kept t ht
    obtain ⟨loop, hloop, -⟩ := exists_loop_of_emit hrun hkind
    have hbody := hm.inOrder.within_of_enclosingLoop? hm.plan.isBody (hm.collects.within t ht) hloop
    exact ⟨loop, hloop, hm.inOrder.within_of_inside hbody.1 (within_finalizer hm hfin)
      (hjump hkind loop hloop)⟩
  exact fun dest hd => target?_of_arrives hm hfin hw hne
    (arrives_onward hm.inOrder (hm.collects.shows t ht) hw hloop (fun _ _ => hne) dest hd)

lemma leadsInto_finalizer_of_error
    (hin : ∀ handler, program.forest.raise? t.tag = some handler →
      program.forest.Inside handler finalizer) (hem : m.Emitted t name s) {e : String}
    (he : e ∈ m.plan.errorExits t name s) : m.LeadsInto finalizer e := by
  obtain ⟨-, handler, hr, hg | ⟨-, hs, -⟩⟩ := error_cases hm hem he
  · have hbody := hm.inOrder.within_of_raise? hm.plan.isBody (hm.collects.within t ht) hr
    have hwithin := hm.inOrder.within_of_inside hbody (within_finalizer hm hfin) (hin handler hr)
    obtain ⟨_, _, -, hp, -⟩ := hm.inOrder.part_of_raise? hr
    obtain ⟨e', htarget, hinto⟩ := target?_of_arrives hm hfin hw hne
      (hm.inOrder.arrives_step? hwithin (hm.inOrder.node?_ne_none_of_parent hp))
    exact eq_of_goes htarget hg ▸ hinto
  · exact ⟨t, ht, hm.inOrder.inside_of_within hw, hs⟩

end Block

end Finally

/-- A step on the way to the end of a finally block: it does not start at the end of the block, and
if it starts in the block it does not leave it by a jump or an error. -/
inductive Moves (m : Making program machine) (finalizer : Nat) (a b : String) : Prop where
  | plain {t : Term} {s : State} (hem : m.Emitted t a s) (hne : t.tag ≠ finalizer)
    (hb : b ∈ m.plan.plainExits t a s)
    (hstays : program.forest.Below t.tag finalizer → JumpsInside program.forest t finalizer)
  | error {t : Term} {s : State} (hem : m.Emitted t a s) (hne : t.tag ≠ finalizer)
    (hb : b ∈ m.plan.errorExits t a s)
    (hstays : program.forest.Below t.tag finalizer → ∀ handler,
      program.forest.raise? t.tag = some handler → program.forest.Inside handler finalizer)

/-- How an error gets to the finally block that handles it: the raise of a pending error clears its
slot first, an error at the end of another finally block completes that block first, and otherwise
the finally block is entered. -/
inductive Enters (m : Making program machine) (t : Term) (s : State) (finalizer : Nat) (slot : Path)
    (e : String) : Prop where
  | clears (hkind : t.kind = .block) (hs : s.resultPath? = some (.path slot)) (he : m.StateOf t e)
  | completes {u : Term} {owner : Nat} (hu : u ∈ m.statements) (he : m.StateOf u e)
    (ho : finallyOwner? program.forest u.tag = some owner)
    (hb : program.forest.Below t.tag u.tag)
    (hexit : program.forest.exit? owner = program.forest.step? finalizer)
  | enters {u : Term} (hu : u ∈ m.statements) (he : m.StateOf u e)
    (hin : program.forest.Inside u.tag finalizer)

/-- What holds while an error is pending: control is inside the try statement, gets to the end of
the finally block only at the state that raises the error again, and ends before that only in a
return or a jump out of the block. -/
structure Pending (m : Making program machine) (owner finalizer : Nat) (parts : FinallyLabels)
    (b : String) : Prop where
  inside : m.LeadsInto owner b
  completes : ∀ u, u.tag = finalizer → m.StateOf u b → b = parts.rethrow
  goesOn : ∀ {u s}, m.Emitted u b s → u.tag ≠ finalizer → u.kind ≠ .returnStmt →
    (program.forest.Below u.tag finalizer → JumpsInside program.forest u finalizer) → s.ends = false

/-- How a finally block keeps the errors that it handles: they are written to its slot, they lead to
the block, and they stay pending on every walk from there to the end of the block. -/
structure KeepsErrors (m : Making program machine) (owner finalizer : Nat) (parts : FinallyLabels)
    (t : Term) (name : String) (s : State) : Prop where
  caught : ∀ c ∈ s.catchers, c.resultPath = .path (.ofVariable parts.slot)
  thrown : s.isSucceed = false → t.kind = .throwStmt →
    s.exits ≠ [] ∧ s.resultPath? = some (.path (.ofVariable parts.slot))
  enters : ∀ e ∈ m.plan.errorExits t name s, m.Enters t s finalizer (.ofVariable parts.slot) e
  stays : ∀ e ∈ m.plan.errorExits t name s, ∀ b,
    Relation.ReflTransGen (m.Moves finalizer) e b → m.Pending owner finalizer parts b

/-- The states of a statement lead to states inside a node, unless an error is handled outside it,
and only a return ends the machine. -/
structure StaysInside (m : Making program machine) (owner : Nat) (t : Term) (name : String)
    (s : State) : Prop where
  ends : t.kind ≠ .returnStmt → s.ends = false
  plain : ∀ e ∈ m.plan.plainExits t name s, m.LeadsInto owner e
  error : ∀ {handler}, program.forest.raise? t.tag = some handler →
    program.forest.Below handler owner → ∀ e ∈ m.plan.errorExits t name s, m.LeadsInto owner e
  handled : ¬ program.forest.Guarded owner → ∃ handler,
    program.forest.raise? t.tag = some handler ∧ program.forest.Below handler owner

section Walk

variable (hm : m.Sound low) {owner finalizer : Nat} (hfin : m.HasFinally owner finalizer)
include hm hfin

variable {a b e name : String} {s : State} {t u : Term}

lemma staysIn_of_inside (ht : t ∈ m.statements) (hin : program.forest.Inside t.tag owner)
    (hne : t.tag ≠ finalizer)
    (hjump : program.forest.Below t.tag finalizer → JumpsInside program.forest t finalizer) :
    m.StaysIn owner t := by
  have h := hm.inOrder
  by_cases hblock : program.forest.Inside t.tag finalizer
  · have hw := h.within_of_inside (hm.collects.within t ht) (within_finalizer hm hfin) hblock
    intro dest hd
    obtain ⟨e, htarget, hinto⟩ :=
      staysIn_of_block hm hfin ht hw hne (hjump (hblock.resolve_left hne)) dest hd
    exact ⟨e, htarget, hinto.mono hm (.inr (h.below_of_parent (parent?_of_hasFinally hm hfin)))⟩
  · rcases hin with htag | hbelow
    · exact staysIn_of_owner hm hfin ht htag
    · obtain ⟨part, hpart, hne', hw⟩ := exists_part hm hfin ht hbelow hblock
      exact staysIn_of_part hm hfin hpart hne' ht hw

lemma leadsInto_of_moves (hg : ¬ program.forest.Guarded owner) (ha : m.LeadsInto owner a)
    (hmove : m.Moves finalizer a b) : m.LeadsInto owner b := by
  have h := hm.inOrder
  obtain ⟨u, hu, hin, s', -, hem'⟩ := ha
  cases hmove with
  | plain hem hne hb hstays =>
    obtain rfl := hm.finished.unique hem' hem
    exact (staysIn_of_inside hm hfin hu hin hne hstays).plain hm hin hem hb
  | error hem hne hb hstays =>
    obtain rfl := hm.finished.unique hem' hem
    by_cases hblock : program.forest.Inside u.tag finalizer
    · have hw := h.within_of_inside (hm.collects.within u hu) (within_finalizer hm hfin) hblock
      exact (leadsInto_finalizer_of_error hm hfin hu hw hne (hstays (hblock.resolve_left hne)) hem
        hb).mono hm (.inr (h.below_of_parent (parent?_of_hasFinally hm hfin)))
    · rcases hin with htag | hbelow
      · obtain ⟨_, _, _, hnode⟩ := node_of_owner hm hfin hu htag
        exact absurd (by simp [Tree.kind, hnode, Node.kind]) (error_cases hm hem hb).1
      · obtain ⟨part, hpart, hne', hw⟩ := exists_part hm hfin hu hbelow hblock
        obtain ⟨_, _, hn⟩ := hfin.node
        obtain ⟨handler, hr, hhandler⟩ := h.raise?_of_part hn hpart hne' hg hw
        exact leadsInto_of_error hm hfin hpart hne' hu hw hr hhandler hem hb

lemma leadsInto_of_walk (hg : ¬ program.forest.Guarded owner) (ha : m.LeadsInto owner a)
    (hwalk : Relation.ReflTransGen (m.Moves finalizer) a b) : m.LeadsInto owner b := by
  induction hwalk with
  | refl => exact ha
  | tail _ hmove ih => exact leadsInto_of_moves hm hfin hg ih hmove

lemma ends_eq_false_of_leadsInto (hinto : m.LeadsInto owner b) (hem : m.Emitted u b s)
    (hne : u.tag ≠ finalizer) (hkind : u.kind ≠ .returnStmt)
    (hjump : program.forest.Below u.tag finalizer → JumpsInside program.forest u finalizer) :
    s.ends = false := by
  obtain ⟨v, hv, hin, s', -, hem'⟩ := hinto
  obtain rfl := hm.finished.unique hem' hem
  exact (staysIn_of_inside hm hfin hv hin hne hjump).ends hm hem hkind

lemma enters_of_goes {slot : Path} (ht : program.forest.Within owner t.tag)
    (hg : m.plan.Goes m.last.done t.tag (program.forest.step? finalizer) e) :
    m.Enters t s finalizer slot e := by
  have h := hm.inOrder
  obtain ⟨tryBlock, handler, hn⟩ := hfin.node
  have hparent := parent?_of_hasFinally hm hfin
  have hbody := within_finalizer hm hfin
  obtain ⟨d, hd, hb⟩ := hfin.stops
  obtain ⟨hw, hworks⟩ := h.within_of_step?_below hd hb
  have hwd : program.forest.Within owner d := within_of_child hparent (isFunction_owner hfin) hw
  have hinside : ∀ {id}, program.forest.Within finalizer id → e ∈ m.first.labels.namesOf id →
      m.Enters t s finalizer slot e := by
    intro id hid he
    obtain ⟨u, hu, hin, hs⟩ := leadsInto_of_mem_namesOf hm hbody hid he
    exact .enters hu hs hin
  rw [hd] at hg
  obtain ⟨e', htarget⟩ := exists_target? hm t.tag (hbody.trans hw) hworks
  obtain rfl := eq_of_goes htarget hg
  cases Labels.target_of_target? h htarget with
  | rethrow hl =>
    obtain ⟨block, c, owner, hmem, hblock, hparts, howner, hexit⟩ :=
      Labels.leftFinally?_within h ht hwd hl
    obtain ⟨hp, -, hc⟩ := h.mem_enclosing_iff.mp hmem
    obtain ⟨u, hu, rfl, hs⟩ := emitted_of_mem_namesOf hm
      (hfin.within.trans hblock) (Labels.rethrow_mem_namesOf hparts)
    have hbelow := h.below_of_within hc hp
    exact .completes hu hs howner hbelow (hexit.trans hd.symm)
  | reset _ hd' hr =>
    cases hd'
    obtain ⟨owner, c, hmem, howner, hreset, henters⟩ := Labels.enteredReset?_within h ht hwd hr
    refine hinside ((h.within_or_of_mem_enclosing hw hmem).resolve_right fun hc => ?_)
      (Labels.reset_mem_namesOf hreset)
    -- the only try statement around the block and inside the statement is the statement itself
    obtain ⟨hp, -, hcd⟩ := h.mem_enclosing_iff.mp hmem
    have hle := h.le_of_inside (h.inside_of_within howner)
    have hlt := h.lt_parent hp
    cases hc with
    | self =>
      obtain rfl := Option.mem_unique hparent hp
      obtain ⟨tryBlock', ⟨htry, _, _, hn'⟩, -, hbelow⟩ := Labels.below_of_enters h henters
      have heq := hn.symm.trans hn'
      simp only [Option.some.injEq, Node.tryStmt.injEq] at heq
      obtain ⟨rfl, -, -⟩ := heq
      exact (h.try_parts_ne hn).2.1 _ rfl (h.eq_of_within_of_below hp htry hcd hbelow)
    | child hq _ hc =>
      obtain rfl := Option.mem_unique hparent hq
      have hle' := h.le_of_inside (h.inside_of_within hc)
      omega
  | again _ hd' _ hloop =>
    cases hd'
    exact hinside hw (Labels.rest_mem_namesOf hloop)
  | entry _ hd' _ hentry =>
    cases hd'
    exact hinside hw (Labels.entry_mem_namesOf hentry)

omit hfin in
lemma mem_namesOf_of_walk (hem : m.Emitted t name s) (hout : t.tag ≠ finalizer)
    (he : e ∈ m.plan.errorExits t name s) (hwalk : Relation.ReflTransGen (m.Moves finalizer) e b)
    (htag : u.tag = finalizer) (hu : m.StateOf u b) : b ∈ m.first.labels.namesOf u.tag := by
  cases hwalk with
  | refl => exact mem_namesOf_of_exit hm hem (.inr he) hu fun heq => hout (heq ▸ htag)
  | tail _ hmove =>
    cases hmove with
    | plain hem' hne hb _ =>
      exact mem_namesOf_of_exit hm hem' (.inl hb) hu fun heq => hne (heq ▸ htag)
    | error hem' hne hb _ =>
      exact mem_namesOf_of_exit hm hem' (.inr hb) hu fun heq => hne (heq ▸ htag)

lemma keepsErrors (hem : m.Emitted t name s) (hr : program.forest.raise? t.tag = some finalizer) :
    ∃ parts, m.first.labels.finallies.lookup finalizer = some parts ∧
      m.KeepsErrors owner finalizer parts t name s := by
  obtain ⟨tryBlock, handler, hn⟩ := hfin.node
  obtain ⟨hg, part, hpart, hne, hw⟩ := hm.inOrder.exists_part_of_raise? hn hr
  obtain ⟨parts, hparts, hpath, hnames⟩ := exists_slot hm hfin
  obtain ⟨ht, -, fresh, hwired, -⟩ := hm.finished.emitted hem
  refine ⟨parts, hparts, ?_, ?_, ?_, ?_⟩
  · intro c hc
    obtain ⟨-, target, hr', -, hresult⟩ := hwired.caught c hc
    obtain rfl := Option.mem_unique hr hr'
    rw [hresult, hpath]
    rfl
  · intro hs hkind
    obtain ⟨hexits, hresult⟩ := hwired.thrown hs hkind finalizer hr
    rw [hresult, hpath]
    exact ⟨hexits, rfl⟩
  · intro e he
    obtain ⟨-, target, hr', hcases⟩ := error_cases hm hem he
    obtain rfl := Option.mem_unique hr hr'
    rcases hcases with hgoes | ⟨hkind, hs, hresult⟩
    · exact enters_of_goes hm hfin (inside_statement hfin hpart hw) hgoes
    · refine .clears hkind ?_ hs
      rw [hresult, hpath]
      rfl
  · have hout : t.tag ≠ finalizer := by
      intro htag
      rcases htag ▸ hm.inOrder.inside_of_within hw with heq | hbelow
      · exact hne heq.symm
      · exact hm.inOrder.not_below_of_sibling (hm.inOrder.parent_finalizer hn) hpart hbelow
    intro e he b hwalk
    have hfirst := leadsInto_of_error hm hfin hpart hne ht hw hr
      (hm.inOrder.below_of_parent (hm.inOrder.parent_finalizer hn)) hem he
    have hinto := leadsInto_of_walk hm hfin hg hfirst hwalk
    refine ⟨hinto, ?_, ends_eq_false_of_leadsInto hm hfin hinto⟩
    rintro u rfl hu
    have hmem := mem_namesOf_of_walk hm hem hout he hwalk rfl hu
    rw [hnames] at hmem
    exact mem_singleton.mp hmem

end Walk

end Making

/-- A statement throws in a try statement with a finally block, inside one with a catch clause. -/
def rescue : SyntaxTree :=
  let set (target : String) : SyntaxTree := .set target (.mk () (.booleanLiteral true))
  let thrown : SyntaxTree := .raise (.mk () (.newExpr (.ident "Lost") []))
  let guarded : SyntaxTree := .closing [thrown] [.closing [set "closed"] [set "checked"]]
  let clause : SyntaxTree := .mk () (.catchClause none (.block [set "noted"]))
  .function [] [.mk () (.tryStmt (.block [guarded]) (some clause) none), set "after"]

/-- The throw statement is node 2, its try statement node 12 and the finally block node 11. -/
lemma exists_rescue : ∃ root f workflow after, ofTree rescue = .ok (root, f) ∧
    (compile (programOf f root)).run.run .empty = (.ok workflow, after) ∧
    f.node? 12 = some (.tryStmt 3 none (some 11)) ∧ f.StopsIn 11 ∧ f.raise? 2 = some 11 ∧
    (12, 3) ∈ f.enclosing 2 ∧ ¬ f.Guarded 12 ∧
    ∀ {machine} {m : Making (programOf f root) machine}, m.Covers →
      ∃ t ∈ m.statements, t.tag = 2 ∧ t.kind = .throwStmt ∧ ∃ name, m.StateOf t name := by
  obtain ⟨root, f, workflow, after, hf, hc, heval⟩ :=
    exists_compiled compile programOf rescue (fun program _ =>
      let f := program.forest
      f.node? 12 = some (.tryStmt 3 none (some 11)) ∧ f.step? 11 = some 5 ∧ 11 ∈ f.ancestors 5 ∧
        f.raise? 2 = some 11 ∧ (12, 3) ∈ f.enclosing 2 ∧ (21, 18) ∈ f.enclosing 2 ∧
        f.node? 2 = some (.throwStmt 1) ∧ f.node? 13 = some (.block [12] false) ∧
        f.parent? 12 = some 13 ∧
        (range f.size).all fun id => !(f.parent? id).any f.isFunction || id == 21)
      (by decide +kernel)
  obtain ⟨low, h⟩ := inOrder_ofTree hf
  obtain ⟨hnode, hstep, hbelow, hraise, hpart, htop, hthrow, hblock, hparent, hbody⟩ := heval
  refine ⟨root, f, workflow, _, hf, hc, hnode, ⟨5, hstep, hbelow⟩, hraise, hpart, ?_, ?_⟩
  · rintro ⟨p, clause, last, hp⟩
    have hp' : f.parent? 12 = some p := h.parent_eq_some hp (by simp [Node.children])
    obtain rfl := Option.mem_unique hparent hp'
    cases hblock.symm.trans hp
  · intro machine m hcovers
    exact exists_statement_of_covers h hcovers hbody htop hthrow rfl

/-- In a compiled machine and all machines inside it, a finally block in which control stops keeps
the errors that it handles. -/
theorem compile_keeps_errors {tree : SyntaxTree} {root : NodeId} {program : Program}
    (hf : Forest.ofTree tree = .ok (root, program.forest)) {before after : Namespace}
    {workflow : Workflow} (hc : (compile program).run.run before = (.ok workflow, after))
    {machine : Machine} (hh : Holds workflow.definition machine) :
    ∃ m : Making program machine, m.Covers ∧ ∀ {owner tryBlock finalizer : NodeId} {handler},
      program.forest.node? owner = some (.tryStmt tryBlock handler (some finalizer)) →
      program.forest.StopsIn finalizer → ∀ {t name s}, m.Emitted t name s →
      program.forest.raise? t.tag = some finalizer →
      ∃ parts, m.first.labels.finallies.lookup finalizer = some parts ∧
        m.KeepsErrors owner finalizer parts t name s := by
  obtain ⟨low, hmade⟩ := exists_making_of_compile hf hc
  obtain ⟨m, hm⟩ := exists_making_of_holds hmade hh
  refine ⟨m, Making.covers hm, ?_⟩
  intro owner tryBlock finalizer handler hn hstops t name s hem hr
  obtain ⟨-, part, hpart, -, hw⟩ := hm.inOrder.exists_part_of_raise? hn hr
  have hmem := hm.inOrder.mem_enclosing_iff.mpr ⟨hpart, isFunction_of_try hn, hw⟩
  have hbody := hm.collects.within t (hm.finished.emitted hem).1
  have hwithin := (hm.inOrder.within_of_mem_enclosing hm.plan.isBody hbody hmem).1
  exact Making.keepsErrors hm ⟨hwithin, ⟨tryBlock, handler, hn⟩, hstops⟩ hem hr

theorem compile_keeps_errors_rescue : ∃ root f workflow after,
    Forest.ofTree rescue = .ok (root, f) ∧
    (compile (programOf f root)).run.run .empty = (.ok workflow, after) ∧
    ∃ m : Making (programOf f root) workflow.definition, ∃ t name s e parts,
      m.Emitted t name s ∧ f.raise? t.tag = some 11 ∧ e ∈ m.plan.errorExits t name s ∧
      s.resultPath? = some (.path (.ofVariable parts.slot)) ∧
      m.Enters t s 11 (.ofVariable parts.slot) e ∧ m.KeepsErrors 12 11 parts t name s := by
  obtain ⟨root, f, workflow, after, hf, hc, hnode, hstops, hraise, -, -, hstate⟩ := exists_rescue
  obtain ⟨m, hcovers, hkeeps⟩ := compile_keeps_errors hf hc (.self _)
  obtain ⟨t, -, htag, hkind, name, s, hs, hem⟩ := hstate hcovers
  obtain ⟨parts, -, hkept⟩ := hkeeps hnode hstops hem (htag ▸ hraise)
  obtain ⟨hexits, hpath⟩ := hkept.thrown hs hkind
  obtain ⟨e, he⟩ := List.exists_mem_of_ne_nil _ hexits
  have herror : e ∈ m.plan.errorExits t name s := by
    simp [Plan.errorExits, Plan.raises, hkind, he]
  exact ⟨root, f, workflow, after, hf, hc, m, t, name, s, e, parts, hem, htag ▸ hraise, herror,
    hpath, hkept.enters e herror, hkept⟩

/-- A try statement with a finally block, and a statement after it. -/
def finished (tried : SyntaxTree) (last : List SyntaxTree) : SyntaxTree :=
  .function [] [.closing [tried] last, .copy "after" "input"]

/-- An error that an empty finally block handles is written to its slot, and then control leaves the
try statement. No state leads to the one that raises the error again. -/
theorem error_lost_in_empty_finally : ∃ root f workflow after,
    ofTree (finished (.raise (.mk () (.newExpr (.ident "Lost") []))) []) = .ok (root, f) ∧
    (compile (programOf f root)).run.run .empty = (.ok workflow, after) ∧
    f.node? 5 = some (.tryStmt 3 none (some 4)) ∧ f.raise? 2 = some 4 ∧
    (∃ entry ∈ workflow.definition.states, entry.1 = "throw new Lost()" ∧
      entry.2.resultPath? = some (.path (.ofVariable "__fnl0")) ∧
      entry.2.exits = ["after = input"]) ∧
    "finally" ∈ workflow.definition.states.map Prod.fst ∧
    ∀ entry ∈ workflow.definition.states, "finally" ∉ entry.2.exits := by
  obtain ⟨root, f, workflow, after, hf, hc, heval⟩ :=
    exists_compiled compile programOf
      (finished (.raise (.mk () (.newExpr (.ident "Lost") []))) []) (fun program workflow =>
      program.forest.node? 5 = some (.tryStmt 3 none (some 4)) ∧ program.forest.raise? 2 = some 4 ∧
      (∃ entry ∈ workflow.definition.states, entry.1 = "throw new Lost()" ∧
        entry.2.resultPath? = some (.path (.ofVariable "__fnl0")) ∧
        entry.2.exits = ["after = input"]) ∧
      "finally" ∈ workflow.definition.states.map Prod.fst ∧
      ∀ entry ∈ workflow.definition.states, "finally" ∉ entry.2.exits) (by decide +kernel)
  exact ⟨root, f, workflow, after, hf, hc, heval⟩

/-- In a compiled machine and all machines inside it, the states of the try block and of the catch
clause of a try statement stay inside it, if control stops in its finally block. -/
theorem compile_runs_finally {tree : SyntaxTree} {root : NodeId} {program : Program}
    (hf : Forest.ofTree tree = .ok (root, program.forest)) {before after : Namespace}
    {workflow : Workflow} (hc : (compile program).run.run before = (.ok workflow, after))
    {machine : Machine} (hh : Holds workflow.definition machine) :
    ∃ m : Making program machine, m.Covers ∧ ∀ {owner tryBlock finalizer : NodeId} {handler},
      program.forest.node? owner = some (.tryStmt tryBlock handler (some finalizer)) →
      program.forest.StopsIn finalizer → ∀ {t name s part}, m.Emitted t name s →
      (owner, part) ∈ program.forest.enclosing t.tag → part ≠ finalizer →
      m.StaysInside owner t name s := by
  obtain ⟨low, hmade⟩ := exists_making_of_compile hf hc
  obtain ⟨m, hm⟩ := exists_making_of_holds hmade hh
  refine ⟨m, Making.covers hm, ?_⟩
  intro owner tryBlock finalizer handler hn hstops t name s part hem hmem hne
  obtain ⟨hpart, -, hw⟩ := hm.inOrder.mem_enclosing_iff.mp hmem
  have ht := (hm.finished.emitted hem).1
  have hwithin :=
    (hm.inOrder.within_of_mem_enclosing hm.plan.isBody (hm.collects.within t ht) hmem).1
  have hfin : m.HasFinally owner finalizer := ⟨hwithin, ⟨tryBlock, handler, hn⟩, hstops⟩
  have hin := hm.inOrder.inside_of_within (Making.inside_statement hfin hpart hw)
  have hstays := Making.staysIn_of_part hm hfin hpart hne ht hw
  exact ⟨hstays.ends hm hem, fun e he => hstays.plain hm hin hem he,
    fun hr hb e he => Making.leadsInto_of_error hm hfin hpart hne ht hw hr hb hem he,
    fun hg => hm.inOrder.raise?_of_part hn hpart hne hg hw⟩

theorem compile_runs_finally_rescue : ∃ root f workflow after,
    Forest.ofTree rescue = .ok (root, f) ∧
    (compile (programOf f root)).run.run .empty = (.ok workflow, after) ∧
    ∃ m : Making (programOf f root) workflow.definition, ∃ t name s,
      m.Emitted t name s ∧ (12, 3) ∈ f.enclosing t.tag ∧ t.kind = .throwStmt ∧ ¬ f.Guarded 12 ∧
      m.StaysInside 12 t name s := by
  obtain ⟨root, f, workflow, after, hf, hc, hnode, hstops, -, hpart, hguard, hstate⟩ :=
    exists_rescue
  obtain ⟨m, hcovers, hruns⟩ := compile_runs_finally hf hc (.self _)
  obtain ⟨t, -, htag, hkind, name, s, -, hem⟩ := hstate hcovers
  exact ⟨root, f, workflow, after, hf, hc, m, t, name, s, hem, htag ▸ hpart, hkind, hguard,
    hruns hnode hstops hem (htag ▸ hpart) (by decide)⟩

/-- A return in a try statement ends the machine before the finally block runs. -/
theorem return_skips_finally : ∃ root f workflow after,
    ofTree (finished (.give (.ident "input")) [.copy "closed" "input"]) = .ok (root, f) ∧
    (compile (programOf f root)).run.run .empty = (.ok workflow, after) ∧
    f.node? 6 = some (.tryStmt 2 none (some 5)) ∧ f.step? 5 = some 4 ∧ (6, 2) ∈ f.enclosing 1 ∧
    ∃ entry ∈ workflow.definition.states, entry.1 = "return input" ∧ entry.2.ends = true := by
  obtain ⟨root, f, workflow, after, hf, hc, heval⟩ :=
    exists_compiled compile programOf
      (finished (.give (.ident "input")) [.copy "closed" "input"]) (fun program workflow =>
      let f := program.forest
      f.node? 6 = some (.tryStmt 2 none (some 5)) ∧ f.step? 5 = some 4 ∧ (6, 2) ∈ f.enclosing 1 ∧
      ∃ entry ∈ workflow.definition.states, entry.1 = "return input" ∧ entry.2.ends = true)
      (by decide +kernel)
  exact ⟨root, f, workflow, after, hf, hc, heval⟩

end ServiceFlow.Machine
