import ServiceFlow.Proofs.StateEmission

/-!
# The states of each statement

Every kind of statement makes a state for each name that it owes, and wires it as control flow says.
-/

namespace ServiceFlow

open List

namespace Tree

lemma awaited_mem_subtrees (t : Term) : t.awaited ∈ t.subtrees := by
  induction t using children_induction with
  | step tag n ih =>
    cases n with
    | awaitExpr expression =>
      exact mem_subtrees_of_child (by simp [node, Node.children])
        (ih expression (by simp [Node.children]))
    | _ => exact self_mem_subtrees _

variable {intrinsic : Intrinsic} {arguments : List Term}

lemma mem_subtrees_of_intrinsic? {t : Term} {id : NodeId}
    (h : t.intrinsic? = .ok (some (intrinsic, id, arguments))) :
    ∀ a ∈ arguments, a ∈ t.subtrees := by
  intro a ha
  refine subtrees_subset (awaited_mem_subtrees t) ?_
  unfold intrinsic? at h
  split at h
  · rename_i hawaited
    split_ifs at h
    · split at h <;> cases h
      rw [hawaited]
      exact child_mem_subtrees (mem_cons_of_mem _ ha)
    · cases h
  · cases h

end Tree

namespace Machine

open Forest

variable {body e : Term} {parameters : List Term} {use : Use}

lemma node_of_inlineFunction? {t : Term} (h : inlineFunction? t = some (parameters, body)) :
    t.node = .arrowFunction parameters body := by
  unfold inlineFunction? at h
  split at h <;> cases h
  assumption

lemma arguments_of_mapArguments {node : NodeId} {items function : Term} {options : Option Term}
    (h : mapArguments intrinsic node arguments = .ok (items, options, function)) :
    arguments = items :: (options.toList ++ [function]) := by
  unfold mapArguments at h
  split at h <;> cases h <;> rfl

lemma jumpLoop_eq_ok {f : Forest} {t : Term} {jump : String} {loop : Nat}
    (h : jumpLoop f t jump = .ok loop) :
    f.enclosingLoop? t.tag = some loop ∧ skipsFinally f t.tag loop = false := by
  unfold jumpLoop at h
  split at h
  · cases h
  · rename_i hloop
    split_ifs at h with hskips
    · cases h
    · cases h
      exact ⟨hloop, by simpa using hskips⟩

/-- A statement that uses the value of one expression. -/
inductive UsesValue : Term → Term → Use → Prop
  | discarded (id : NodeId) (e : Term) : UsesValue (.mk id (.exprStmt e)) e .discard
  | bound (id : NodeId) (name : String) (e : Term) :
    UsesValue (.mk id (.variableStmt name (some e))) e (.bind name)
  | returned (id : NodeId) (e : Term) : UsesValue (.mk id (.returnStmt (some e))) e .returned

lemma usesValue_of_usedExpression? {t : Term} (h : t.usedExpression? = some (e, use)) :
    UsesValue t e use := by
  obtain ⟨id, n⟩ := t
  cases n with
  | exprStmt expression =>
    cases h
    exact .discarded id _
  | variableStmt name initializer =>
    cases initializer <;> cases h
    exact .bound id name _
  | returnStmt expression =>
    cases expression <;> cases h
    exact .returned id _
  | _ => cases h

lemma mem_children_of_usedExpression? {t : Term} (h : t.usedExpression? = some (e, use)) :
    e ∈ t.node.children := by
  cases usesValue_of_usedExpression? h <;> exact mem_cons_self

/-- The state of a statement that holds machines, whatever its catchers, the place of its result and
what follows it. -/
inductive Holder : (List Catcher → Option ResultPath × Transition → State) → List Machine → Prop
  | map (items : Path) (parameters : Data) (maxConcurrency : Option Nat) (iterator : Machine) :
    Holder (fun catchers result =>
      .map ⟨items, parameters, maxConcurrency, result.1, catchers, result.2⟩ iterator) [iterator]
  | parallel (branches : List Machine) :
    Holder (fun catchers result => .parallel ⟨result.1, catchers, result.2⟩ branches) branches

def emitHolder (f : Forest) (t : Term) (discarded : Bool) (use : Use)
    (state : List Catcher → Option ResultPath × Transition → State) : Emit Unit := do
  let catchers ← Emit.catchers f t
  let result ← place f t discarded use
  Emit.put (← Emit.entry t) (state catchers result)

namespace Holder

variable {state : List Catcher → Option ResultPath × Transition → State} {machines : List Machine}
  (h : Holder state machines) (catchers : List Catcher) (result : Option ResultPath × Transition)
include h

lemma graphs : (state catchers result).graphs = machines := by cases h <;> rfl

end Holder

namespace Plan

variable {plan : Plan} {low : Nat → Nat} {t : Term} {start : Nat} {d : Draft} {owed : List String}
  {name : String}
  {s : State} {transition : Transition}

@[simp] lemma next?_ofOption (next : Option String) : (Transition.ofOption next).next? = next := by
  cases next <;> rfl

@[simp] lemma ends_ofOption (next : Option String) :
    (Transition.ofOption next).ends = next.isNone := by
  cases next <;> rfl

/-- The transition of a statement that is followed by one other, or returns. -/
inductive Ongoing (plan : Plan) (t : Term) : Transition → Prop where
  | returned (hkind : t.kind = .returnStmt) : Ongoing plan t .finish
  | moved (hraises : ∀ name, plan.raises t name = false)
    (honward : onward plan.program t ∈ successors plan.forest t) :
    Ongoing plan t (.ofOption (plan.labels.target? plan.forest t.tag (onward plan.program t)))

lemma Ongoing.not_raises (ht : plan.Ongoing t transition) : plan.raises t name = false := by
  cases ht with
  | returned hkind => simp [raises, hkind]
  | moved hraises _ => exact hraises name

section Wired

variable {done : Option String} {fresh : List String} (hcaught : plan.Caught t done s.catchers)
  (hgraphs : ∀ g ∈ s.graphs, plan.Inlined t g)
include hcaught hgraphs

lemma Ongoing.wired (ht : plan.Ongoing t transition)
    (hways : s.ways = transition.next?.toList.map (.next, ·)) (hends : s.ends = transition.ends) :
    plan.Wired t done fresh name s := by
  have hraises : plan.raises t name = false := ht.not_raises
  have hthrown := kind_ne_throw hraises
  cases ht with
  | returned hkind =>
    exact ⟨by simp [hways, Transition.next?], hcaught, fun _ h => absurd h hthrown,
      fun _ => .inl hkind, hgraphs⟩
  | moved hraises honward =>
    refine ⟨?_, hcaught, fun _ h => absurd h hthrown, ?_, hgraphs⟩
    · intro way e he
      rw [hways, next?_ofOption] at he
      obtain ⟨_, he, heq⟩ := mem_map.mp he
      cases heq
      refine .moves (hraises _) honward ?_
      rw [destination, Goes, Option.mem_toList.mp he]
      rfl
    · intro he
      rw [hends, ends_ofOption, Option.isNone_iff_eq_none] at he
      exact .inr he

lemma wired_own {next : String} (hraises : plan.raises t name = false)
    (hways : s.ways = [(.next, next)])
    (hnext : next ∈ plan.labels.namesOf t.tag ∨ next ∈ fresh) (hends : s.ends = false) :
    plan.Wired t done fresh name s := by
  refine ⟨?_, hcaught, fun _ h => absurd h (kind_ne_throw hraises), by simp [hends], hgraphs⟩
  intro way e he
  rw [hways] at he
  cases mem_singleton.mp he
  exact .own hraises hnext

end Wired

section Pass

variable {done : Option String} {fresh : List String} {pass : Pass}

lemma Ongoing.wired_pass (ht : plan.Ongoing t pass.transition) :
    plan.Wired t done fresh name (.pass pass) :=
  ht.wired nofun nofun rfl rfl

variable {next : String}

lemma wired_leads (hpass : pass.transition = .next next)
    (hleads : plan.Leads t done fresh name (.pass pass) .next next)
    (hthrown : t.kind = .throwStmt → ∀ handler, plan.forest.raise? t.tag = some handler →
      pass.resultPath = (plan.errorPath? handler).map .path) :
    plan.Wired t done fresh name (.pass pass) := by
  refine ⟨?_, nofun, fun _ hkind handler hr => ⟨?_, hthrown hkind handler hr⟩,
    by simp [State.ends, hpass, Transition.ends], nofun⟩
  swap
  · simp [State.exits, State.next?, hpass, Transition.next?]
  intro way e he
  simp only [State.ways, State.next?, hpass, Transition.next?, Option.toList_some, map_singleton,
    mem_singleton] at he
  cases he
  exact hleads

lemma wired_pass_own (hraises : plan.raises t name = false) (hpass : pass.transition = .next next)
    (hnext : next ∈ plan.labels.namesOf t.tag ∨ next ∈ fresh) :
    plan.Wired t done fresh name (.pass pass) :=
  wired_leads hpass (.own hraises hnext) fun h => absurd h (kind_ne_throw hraises)

end Pass

lemma wired_choice {done : Option String} {fresh : List String} {c : Choice}
    (hraises : plan.raises t name = false)
    (hnext : plan.Leads t done fresh name (.choice c) .rule c.next)
    (hotherwise : plan.Leads t done fresh name (.choice c) .default c.otherwise) :
    plan.Wired t done fresh name (.choice c) := by
  refine ⟨?_, ?_, fun _ h => absurd h (kind_ne_throw hraises), ?_, ?_⟩
  · intro way e he
    rcases mem_cons.mp he with heq | he
    · cases heq
      exact hnext
    · cases mem_singleton.mp he
      exact hotherwise
  · intro catcher hc
    cases hc
  · intro h
    cases h
  · intro g hg
    cases hg

@[simp] lemma passOf_transition (transition : Transition) (data : Data) :
    (passOf transition data).transition = transition := by
  cases data <;> rfl

lemma ongoing_of_usedExpression? {expression : Term}
    (h : t.usedExpression? = some (expression, use)) :
    plan.Ongoing t (if use = .returned then .finish else
      .ofOption (plan.labels.target? plan.forest t.tag (plan.forest.exit? t.tag))) := by
  cases usesValue_of_usedExpression? h with
  | discarded | bound => exact .moved (fun _ => rfl) (by simp [onward, successors, Tree.node])
  | returned => exact .returned rfl

variable {f : Forest} {id : Nat} {function e : Term} {intrinsic : Intrinsic} {node : NodeId}
  {arguments : List Term}

lemma innerBody_of_inlineFunction? (h : f.Linked) (hs : f.Shows function)
    (hb : f.Below function.tag id) (hf : inlineFunction? function = some (parameters, body)) :
    InnerBody f id body := by
  have hnode := node_of_inlineFunction? hf
  have hfun : f.isFunction function.tag = true := by
    rw [isFunction_eq (h.node?_of_shows hs), Node.kind_map, hnode]
    rfl
  have hchild : body ∈ function.node.children := by simp [hnode, Node.children]
  obtain ⟨hshows, hparent⟩ := h.shows_child hs hchild
  exact ⟨hshows, ⟨function.tag, hparent, hfun⟩, h.below_trans (h.below_of_parent hparent) hb⟩

lemma arguments_of_intrinsic? (h : f.Linked) (hs : f.Shows e) (hb : f.Below e.tag id)
    (hi : e.intrinsic? = .ok (some (intrinsic, node, arguments))) :
    ∀ a ∈ arguments, f.Shows a ∧ f.Below a.tag id := by
  intro a ha
  have hsub := Tree.mem_subtrees_of_intrinsic? hi a ha
  exact ⟨h.shows_of_mem_subtrees hs hsub,
    h.below_of_inside_of_below (h.inside_of_mem_subtrees hs hsub) hb⟩

section Value

variable (hp : plan.Sound low) (hw : plan.forest.Within plan.body t.tag)
include hp hw

lemma does_proceed (hr : plan.Ready start d owed) :
    plan.Does t start (Emit.proceed plan.forest t) d owed fun transition d' owed' =>
      transition = .ofOption (plan.labels.target? plan.forest t.tag (plan.forest.exit? t.tag)) ∧
        d' = d ∧ owed' = owed :=
  does_moveTo hp hw (lands_exit? hp hw) hr

variable {expression : Term} {use : Use} (huse : t.usedExpression? = some (expression, use))
  (hentry : plan.labels.entries.lookup t.tag = some name) (hr : plan.Ready start d [name])
include huse hentry hr

lemma does_emitData (data : Data) :
    plan.Pays t start (emitData plan.forest t data use) d [name] := by
  have hgoing : plan.Ongoing t _ := ongoing_of_usedExpression? huse
  refine does_bind_entry hw hentry hr ?_
  cases use with
  | returned =>
    refine does_put_last rfl hr (Ongoing.wired_pass ?_)
    split_ifs <;> simpa using hgoing
  | discard =>
    refine .bind_read (does_proceed hp hw hr) ?_
    rintro _ rfl
    exact does_put_last rfl hr (Ongoing.wired_pass hgoing)
  | bind target =>
    refine .bind_read (does_proceed hp hw hr) ?_
    rintro _ rfl
    split
    · refine .bind (does_fresh hr _) ?_
      rintro second d₁ _ hr₁ - ⟨-, -, rfl⟩
      have hnext : (passOf (.next second) data).transition = .next second := by simp
      refine .bind (does_put [] rfl hr₁ (wired_pass_own hgoing.not_raises hnext (by simp))) ?_
      rintro _ d₂ _ hr₂ - ⟨-, -, rfl⟩
      exact does_put_last rfl hr₂ (Ongoing.wired_pass hgoing)
    · refine does_put_last rfl hr (Ongoing.wired_pass ?_)
      simpa using hgoing

lemma does_emitTask (site : CallSite) :
    plan.Pays t start (emitTask plan.program t site use) d [name] := by
  have hgoing : plan.Ongoing t _ := ongoing_of_usedExpression? huse
  refine does_bind_entry hw hentry hr ?_
  refine .bind_read (.lift hr) fun task _ => ?_
  refine .bind (does_catchers hp hw hr (by simp [huse])) ?_
  rintro catchers d₁ _ hr₁ - ⟨hcaught, rfl⟩
  refine .bind_read (does_proceed hp hw hr₁) ?_
  rintro _ rfl
  refine .bind_read (.lift hr₁) fun selection _ => ?_
  cases use with
  | returned | discard => exact does_put_last rfl hr₁ (hgoing.wired hcaught nofun rfl rfl)
  | bind target =>
    split_ifs
    · exact does_put_last rfl hr₁ (hgoing.wired hcaught nofun rfl rfl)
    · refine .bind (does_fresh hr₁ _) ?_
      rintro second d₂ _ hr₂ hdone ⟨-, -, rfl⟩
      refine .bind (does_put [] rfl hr₂
        (wired_own (hcaught.mono hdone) nofun hgoing.not_raises rfl (by simp) rfl)) ?_
      rintro _ d₃ _ hr₃ - ⟨-, -, rfl⟩
      exact does_put_last rfl hr₃ (Ongoing.wired_pass hgoing)

lemma does_emitWait (intrinsic : Intrinsic) (node : NodeId) (arguments : List Term) :
    plan.Pays t start (emitWait plan.program t intrinsic node arguments use) d [name] := by
  have hgoing : plan.Ongoing t _ := ongoing_of_usedExpression? huse
  unfold emitWait
  split
  · rename_i argument
    have hrest : ∀ transition, plan.Ongoing t transition → plan.Pays t start (do
        let value ← data plan.program argument
        let delay ← delayOf intrinsic node value
        Emit.put (← Emit.entry t) (.wait delay transition)) d [name] := by
      intro transition hgoing
      refine .bind_read (.lift hr) fun value _ => ?_
      refine .bind_read (.lift hr) fun delay _ => ?_
      refine does_bind_entry hw hentry hr ?_
      exact does_put_last rfl hr (hgoing.wired nofun nofun rfl rfl)
    dsimp only
    split_ifs at hgoing ⊢
    · rw [pure_bind]
      exact hrest _ hgoing
    · refine .bind_read (does_proceed hp hw hr) ?_
      rintro _ rfl
      exact hrest _ hgoing
  · exact .throw _

omit hentry hr in
lemma does_place (discarded : Bool) (hr : plan.Ready start d owed) :
    plan.Does t start (place plan.forest t discarded use) d owed fun result d' owed' =>
      plan.Ongoing t result.2 ∧ d' = d ∧ owed' = owed := by
  have hgoing : plan.Ongoing t _ := ongoing_of_usedExpression? huse
  cases use with
  | returned => exact .pure hr ⟨hgoing, rfl, rfl⟩
  | bind target | discard =>
    refine .bind_read (does_proceed hp hw hr) ?_
    rintro _ rfl
    exact .pure hr ⟨hgoing, rfl, rfl⟩

lemma does_emitHolder {state : List Catcher → Option ResultPath × Transition → State}
    {machines : List Machine} (hstate : Holder state machines)
    (hmachines : ∀ g ∈ machines, plan.Inlined t g) (discarded : Bool) :
    plan.Pays t start (emitHolder plan.forest t discarded use state) d [name] := by
  refine .bind (does_catchers hp hw hr (by simp [huse])) ?_
  rintro catchers d₁ _ hr₁ - ⟨hcaught, rfl⟩
  refine .bind_read (does_place hp hw huse _ hr₁) fun result hgoing => ?_
  refine does_bind_entry hw hentry hr₁ ?_
  refine does_put_last (by cases hstate <;> rfl) hr₁
    (hgoing.wired ?_ ?_ (by cases hstate <;> rfl) (by cases hstate <;> rfl))
  · cases hstate <;> exact hcaught
  · rw [hstate.graphs]
    exact hmachines

variable {arguments : List Term}
  (harguments : ∀ a ∈ arguments, plan.forest.Shows a ∧ plan.forest.Below a.tag t.tag)
include harguments

lemma does_emitMap (intrinsic : Intrinsic) (node : NodeId) :
    plan.Pays t start (emitMap plan.program plan.nested t intrinsic node arguments use) d
      [name] := by
  refine .bind_read (.lift hr) fun ⟨items, options, function⟩ hargs => ?_
  obtain ⟨hshows, hbelow⟩ := harguments function (by simp [arguments_of_mapArguments hargs])
  dsimp only
  split
  · exact .throw _
  · rename_i parameters body hfunction
    have hinner := innerBody_of_inlineFunction? hp.inOrder.toLinked hshows hbelow hfunction
    refine .bind_read (.lift hr) fun value _ => ?_
    refine .bind_read (.lift hr) fun path _ => ?_
    refine .bind_read (.lift hr) fun maxConcurrency _ => ?_
    refine .bind_read (.lift hr) fun names _ => ?_
    split_ifs
    · exact .throw_bind _
    refine .bind (does_nested hp hw hinner hr) ?_
    rintro iterator d₁ _ hr₁ - ⟨hiterator, rfl⟩
    refine does_emitHolder hp hw huse hentry hr₁ (.map _ _ _ iterator) ?_ _
    intro g hg
    cases mem_singleton.mp hg
    exact hiterator

omit huse hentry hr in
lemma does_branchMachines (hr : plan.Ready start d owed) :
    plan.Does t start (branchMachines plan.nested arguments) d owed fun machines _ owed' =>
      (∀ g ∈ machines, plan.Inlined t g) ∧ owed' = owed := by
  induction arguments generalizing d with
  | nil => exact .pure hr ⟨nofun, rfl⟩
  | cons a rest ih =>
    obtain ⟨hshows, hbelow⟩ := harguments a (by simp)
    unfold branchMachines
    split
    · exact .throw _
    · rename_i parameters body hfunction
      have hinner := innerBody_of_inlineFunction? hp.inOrder.toLinked hshows hbelow hfunction
      refine .bind (does_nested hp hw hinner hr) ?_
      rintro first d₁ _ hr₁ - ⟨hfirst, rfl⟩
      refine .bind (ih (fun a ha => harguments a (by simp [ha])) hr₁) ?_
      rintro others d₂ _ hr₂ - ⟨hothers, rfl⟩
      refine .pure hr₂ ⟨?_, rfl⟩
      intro g hg
      rcases mem_cons.mp hg with rfl | hg
      · exact hfirst
      · exact hothers g hg

lemma does_emitParallel (node : NodeId) :
    plan.Pays t start (emitParallel plan.program plan.nested t node arguments use) d [name] := by
  unfold emitParallel
  dsimp only
  split_ifs
  · exact .throw_bind _
  refine .bind (does_branchMachines hp hw harguments hr) ?_
  rintro branches d₁ _ hr₁ - ⟨hbranches, rfl⟩
  exact does_emitHolder hp hw huse hentry hr₁ (.parallel branches) hbranches _

lemma does_emitIntrinsic (intrinsic : Intrinsic) (node : NodeId) :
    plan.Pays t start (emitIntrinsic plan.program plan.nested t intrinsic node arguments use) d
      [name] := by
  cases intrinsic with
  | waitFor | waitUntil => exact does_emitWait hp hw huse hentry hr _ node arguments
  | map | forEach => exact does_emitMap hp hw huse hentry hr harguments _ node
  | parallel => exact does_emitParallel hp hw huse hentry hr harguments node

omit harguments in
lemma does_emitValue (hs : plan.forest.Shows expression)
    (hb : plan.forest.Below expression.tag t.tag) :
    plan.Pays t start (emitValue plan.program plan.nested t expression use) d [name] := by
  refine .bind_read (.lift hr) fun intrinsic hintrinsic => ?_
  split
  · have harguments := arguments_of_intrinsic? hp.inOrder.toLinked hs hb hintrinsic
    exact does_emitIntrinsic hp hw huse hentry hr harguments _ _
  · refine .bind_read (.lift hr) fun site _ => ?_
    split
    · refine .bind_read (.lift hr) fun _ _ => ?_
      exact does_emitTask hp hw huse hentry hr _
    · refine .bind_read (.lift hr) fun value _ => ?_
      exact does_emitData hp hw huse hentry hr value

end Value

section Control

variable (hp : plan.Sound low) (hw : plan.forest.Within plan.body t.tag)
include hp hw

lemma does_emitBranch (ht : plan.forest.Shows t)
    (hentry : plan.labels.entries.lookup t.tag = some name) (hr : plan.Ready start d [name])
    {condition : Term} {yes no : Option Nat}
    (hraises : ∀ name, plan.raises t name = false)
    (hsuccessors : successors plan.forest t = [yes, no])
    (hrule : destination plan.program t .rule = yes)
    (hdefault : destination plan.program t .default = no)
    (honward : ∀ value, decision plan.program condition = .ok (.known value) →
      onward plan.program t = if value then yes else no) :
    plan.Pays t start (emitBranch plan.program t condition yes no) d [name] := by
  refine does_bind_entry hw hentry hr ?_
  refine .bind_read (.lift hr) fun decided hdecided => ?_
  have hstate : plan.Does t start (branchState plan.forest t decided yes no) d [name]
      fun s d' owed' => plan.Wired t d'.done [] name s ∧ s.isSucceed = false ∧ owed' = [name] := by
    cases decided with
    | known value =>
      have hdest : (if value then yes else no) ∈ successors plan.forest t := by
        rw [hsuccessors]
        cases value <;> simp
      refine .bind_read (does_moveTo hp hw (lands_successors hp ht hw hdest) hr) ?_
      rintro _ rfl
      refine .pure hr ⟨Ongoing.wired_pass ?_, rfl, rfl⟩
      rw [← honward value hdecided] at hdest ⊢
      exact .moved hraises hdest
    | rule rule =>
      have hyes : yes ∈ successors plan.forest t := by simp [hsuccessors]
      have hno : no ∈ successors plan.forest t := by simp [hsuccessors]
      refine .bind (does_require hp hw (lands_successors hp ht hw hyes) hr) ?_
      rintro next d₁ _ hr₁ - ⟨hnext, rfl⟩
      refine .bind (does_require hp hw (lands_successors hp ht hw hno) hr₁) ?_
      rintro otherwise d₂ _ hr₂ hdone ⟨hotherwise, rfl⟩
      subst hrule hdefault
      exact .pure hr₂ ⟨wired_choice (hraises _) (.moves (hraises _) hyes (hnext.mono hdone))
        (.moves (hraises _) hno hotherwise), rfl, rfl⟩
  refine .bind hstate ?_
  rintro s d₁ _ hr₁ - ⟨hwired, hs, rfl⟩
  exact does_put_last hs hr₁ (hwired.mono (fun _ h => h) (nil_subset _))

lemma does_emitJump (ht : plan.forest.Shows t)
    (hentry : plan.labels.entries.lookup t.tag = some name) (hr : plan.Ready start d [name])
    {dest : Option Nat} (hraises : ∀ name, plan.raises t name = false)
    (honward : onward plan.program t = dest) (hsuccessors : dest ∈ successors plan.forest t) :
    plan.Pays t start (emitJump plan.forest t dest) d [name] := by
  refine .bind_read (does_moveTo hp hw (lands_successors hp ht hw hsuccessors) hr) ?_
  rintro _ rfl
  refine does_bind_entry hw hentry hr ?_
  subst honward
  exact does_put_last rfl hr (Ongoing.wired_pass (.moved hraises hsuccessors))

variable {source expression : Term} {raised : Raised}

omit hp hw in
lemma loopItems_eq_ok {slot path : Path} {items : Data} {start : State}
    (h : loopItems source slot transition items = .ok (start, path)) :
    start = assignment slot (passOf transition items) ∧ path.origin = slot.origin ∧
      path.rest = slot.rest := by
  unfold loopItems at h
  dsimp only at h
  split at h <;> cases h <;> exact ⟨rfl, rfl, rfl⟩

lemma does_emitForOf {binder : Term} {parts : LoopLabels}
    (hnode : t.node = .forOfStmt binder expression body) (ht : plan.forest.Shows t)
    (hparts : plan.labels.partsOf t.tag = ⟨some name, some parts, none, none⟩)
    (hr : plan.Ready start d [name, parts.check, parts.item, parts.rest]) :
    plan.Pays t start (emitForOf plan.program t binder expression body) d
      [name, parts.check, parts.item, parts.rest] := by
  obtain ⟨hentry, hloop, -, -⟩ := Parts.mk.inj hparts
  have hraises : ∀ n, plan.raises t n = false := by
    intro n
    simp [raises, Tree.kind, hnode, Node.kind]
  have hsuccessors : successors plan.forest t =
      [plan.forest.step? body.tag, plan.forest.exit? t.tag] := by
    simp [successors, hnode]
  have honward : onward plan.program t = plan.forest.step? body.tag := by
    simp [onward, hnode]
  have hdefault : destination plan.program t .default = plan.forest.exit? t.tag := by
    simp [destination, hnode]
  have hown : plan.labels.namesOf t.tag = [name, parts.check, parts.item, parts.rest] := by
    simp [Labels.namesOf, hparts, Parts.names]
  refine does_bind_entry hw hentry hr ?_
  refine .bind_read (.get hr) ?_
  rintro _ rfl
  obtain ⟨-, hsame, -, -⟩ := Parts.mk.inj (hr.same t.tag hw)
  rw [hsame, hloop]
  split
  · contradiction
  · rename_i hparts' hbinder
    cases hparts'
    refine .bind_read (.lift hr) fun items _ => ?_
    refine .bind_read (.lift hr) ?_
    rintro ⟨start, path⟩ hstart
    obtain ⟨rfl, -⟩ := loopItems_eq_ok hstart
    refine .bind (does_require hp hw (lands_exit? hp hw) hr) ?_
    rintro exit d₁ _ hr₁ - ⟨hexit, rfl⟩
    have hstep : plan.Lands (plan.forest.step? body.tag) :=
      lands_successors hp ht hw (by simp [hsuccessors])
    refine .bind_read (does_moveTo hp hw hstep hr₁) ?_
    rintro _ rfl
    refine .bind (does_put [] rfl hr₁ (wired_pass_own (hraises _) (passOf_transition ..)
      (by simp [hown]))) ?_
    rintro _ d₂ _ hr₂ hdone₂ ⟨-, -, rfl⟩
    refine .bind (does_put [] rfl hr₂ (wired_choice (hraises _)
      (.own (hraises _) (by simp [hown]))
      (.moves (hraises _) (by simp [hsuccessors, hdefault]) (hdefault ▸ hexit.mono hdone₂)))) ?_
    rintro _ d₃ _ hr₃ - ⟨-, -, rfl⟩
    refine .bind (does_put [] rfl hr₃ (Ongoing.wired_pass ?_)) ?_
    · rw [← honward]
      exact .moved hraises (by simp [hsuccessors, honward])
    rintro _ d₄ _ hr₄ - ⟨-, -, rfl⟩
    exact does_put_last rfl hr₄ (wired_pass_own (hraises _) rfl (by simp [hown]))
  · exact .throw _

omit hp hw in
lemma failure_eq_ok (h : failure source raised = .ok s) : ∃ error cause, s = .fail error cause := by
  cases raised with
  | thrown error cause =>
    simp only [failure] at h
    cases htext : failureText source cause with
    | error e =>
      rw [htext] at h
      cases h
    | ok text =>
      rw [htext] at h
      cases h
      exact ⟨_, _, rfl⟩
  | pending slot =>
    cases h
    exact ⟨_, _, rfl⟩

omit hp hw in
lemma exists_handOn (path : Option Path) (raised : Raised) (transition : Transition) :
    ∃ pass, handOn path raised transition = .pass pass ∧ pass.transition = transition ∧
      pass.resultPath = path.map .path := by
  unfold handOn
  split <;> exact ⟨_, rfl, rfl, rfl⟩

lemma does_deliver (hr : plan.Ready start d [name]) (hname : plan.raises t name = true)
    (hraises : ∀ n, n ∉ plan.labels.namesOf t.tag → plan.raises t n = true)
    (hkind : ∀ slot, raised = .pending slot → t.kind = .block) :
    plan.Pays t start (deliver plan.forest name t (plan.forest.raise? t.tag) raised) d [name] := by
  unfold deliver
  split
  · refine .bind_read (.lift hr) fun s hs => ?_
    obtain ⟨error, cause, rfl⟩ := failure_eq_ok hs
    refine does_put_last rfl hr ⟨nofun, nofun, fun _ _ handler hr => ?_, nofun, nofun⟩
    rw [‹plan.forest.raise? t.tag = none›] at hr
    cases hr
  · rename_i handler hraise
    have hwithin := hp.inOrder.within_of_raise? hp.isBody hw hraise
    refine .bind_read (does_errorPath hr hwithin) ?_
    rintro _ rfl
    refine .bind (does_require hp hw (lands_step? hp hwithin) hr) ?_
    rintro next d₁ _ hr₁ - ⟨hnext, rfl⟩
    cases raised with
    | thrown error cause =>
      obtain ⟨pass, hpass, hnext', hpath⟩ :=
        exists_handOn (plan.errorPath? handler) (.thrown error cause) (.next next)
      rw [hpass]
      refine does_put_last rfl hr₁ (wired_leads hnext' (.hands hname hraise hnext) ?_)
      intro _ handler' hraise'
      obtain rfl := Option.mem_unique hraise hraise'
      exact hpath
    | pending slot =>
      have hblock := hkind slot rfl
      refine .bind (does_fresh hr₁ _) ?_
      rintro reset d₂ _ hr₂ hdone₂ ⟨hfresh, -, rfl⟩
      have hreset := hraises reset (hr₁.not_own hw hfresh)
      have hthrow : t.kind ≠ .throwStmt := by simp [hblock]
      refine .bind (does_put [name] rfl hr₂ (wired_leads rfl
        (.hands hreset hraise (hnext.mono hdone₂)) fun h => absurd h hthrow)) ?_
      rintro _ d₃ _ hr₃ - ⟨hd₃, -, rfl⟩
      obtain ⟨pass, hpass, hreset', hpath⟩ :=
        exists_handOn (plan.errorPath? handler) (.pending slot) (.next reset)
      rw [hpass]
      refine does_put_last rfl hr₃ (wired_leads hreset'
        (.clears hname hblock hraise (mem_append_left _ ?_) hpath) fun h => absurd h hthrow)
      rw [Draft.madeFrom, hd₃, drop_append_of_le_length hr₂.start_le, mem_working]
      exact ⟨_, rfl, mem_append_right _ (mem_singleton.mpr rfl)⟩

omit hp hw in
lemma thrownError_eq_ok (h : thrownError plan.program source = .ok raised) :
    ∃ error cause, raised = .thrown error cause := by
  unfold thrownError at h
  split at h
  · dsimp only at h
    split at h
    · cases h
      exact ⟨_, _, rfl⟩
    · obtain ⟨cause, -, h⟩ := bind_eq_ok h
      cases h
      exact ⟨_, _, rfl⟩
  · obtain ⟨cause, -, h⟩ := bind_eq_ok h
    cases h
    exact ⟨_, _, rfl⟩

lemma does_emitThrow (hnode : t.node = .throwStmt expression)
    (hentry : plan.labels.entries.lookup t.tag = some name) (hr : plan.Ready start d [name]) :
    plan.Pays t start (emitThrow plan.program t expression) d [name] := by
  have hraises : ∀ n, plan.raises t n = true := by
    intro n
    simp [raises, Tree.kind, hnode, Node.kind]
  refine .bind_read (.lift hr) fun raised hraised => ?_
  obtain ⟨error, cause, rfl⟩ := thrownError_eq_ok hraised
  refine does_bind_entry hw hentry hr ?_
  exact does_deliver hp hw hr (hraises _) (fun n _ => hraises n) fun slot h => by cases h

/-- The states at the end of a finally block. The block ends in a choice that tests its slot. -/
lemma does_emitRethrow {owner : Nat} {parts : FinallyLabels} (hkind : t.kind = .block)
    (howner : finallyOwner? plan.forest t.tag = some owner)
    (hparts : plan.labels.partsOf t.tag = ⟨none, none, some parts, none⟩)
    (hr : plan.Ready start d [parts.rethrow]) :
    plan.Does t start (emitRethrow plan.forest t) d [parts.rethrow] fun _ d' owed' =>
      owed' = [] ∧ ∃ raise otherwise,
        (parts.rethrow, .choice ⟨isPending parts.slot, raise, otherwise⟩) ∈ d'.states := by
  obtain ⟨-, -, hrethrow, -⟩ := Parts.mk.inj hparts
  have hown : plan.labels.namesOf t.tag = [parts.rethrow] := by
    simp [Labels.namesOf, hparts, Parts.names]
  have hraises : ∀ n, n ∉ plan.labels.namesOf t.tag → plan.raises t n = true := by
    intro n hn
    simp [raises, hkind, hn]
  have hstays : plan.raises t parts.rethrow = false := by
    simp [raises, hkind, hown]
  have hdefault : destination plan.program t .default = plan.forest.exit? owner ∧
      plan.forest.exit? owner ∈ successors plan.forest t := by
    obtain ⟨tag, node⟩ := t
    cases node <;> cases hkind
    simp [destination, successors, Tree.node, howner]
  refine .bind_read (.get hr) ?_
  rintro _ rfl
  obtain ⟨-, -, hsame, -⟩ := Parts.mk.inj (hr.same t.tag hw)
  rw [hsame, hrethrow, howner]
  refine .bind (does_require hp hw (lands_finallyOwner? hp hw howner) hr) ?_
  rintro otherwise d₁ _ hr₁ - ⟨hotherwise, rfl⟩
  refine .bind (does_fresh hr₁ _) ?_
  rintro raise d₂ _ hr₂ hdone₂ ⟨hfresh, -, rfl⟩
  refine .bind (does_put [] rfl hr₂ (wired_choice hstays (.own hstays (.inr (by simp)))
    (.moves hstays (hdefault.1 ▸ hdefault.2) (hdefault.1 ▸ hotherwise.mono hdone₂)))) ?_
  rintro _ d₃ _ hr₃ - ⟨hstates, -, rfl⟩
  refine .mono (.keeping
    (does_deliver hp hw hr₃ (hraises raise (hr₁.not_own hw hfresh)) hraises fun _ _ => hkind)) ?_
  rintro _ d₄ _ ⟨rfl, hkept⟩
  refine ⟨rfl, raise, otherwise, hkept _ ?_⟩
  rw [hstates]
  exact mem_append_right _ (mem_singleton.mpr rfl)

lemma does_emitReset {reset : String} {finalizer : Term} (hkind : t.kind = .tryStmt)
    (hparts : plan.labels.partsOf t.tag = ⟨none, none, none, some reset⟩)
    (hr : plan.Ready start d [reset]) :
    plan.Does t start (emitReset plan.forest t finalizer) d [reset] fun _ d' owed' =>
      owed' = [] ∧ ∃ parts transition, d.labels.finallies.lookup finalizer.tag = some parts ∧
        d'.states = d.states ++
          [(reset, assignment (.ofVariable parts.slot) { result := some .null, transition })] := by
  obtain ⟨-, -, -, hreset⟩ := Parts.mk.inj hparts
  refine .bind_read (.get hr) ?_
  rintro _ rfl
  obtain ⟨-, -, -, hsame⟩ := Parts.mk.inj (hr.same t.tag hw)
  rw [hsame, hreset]
  refine .bind_read (does_pendingSlot hr plan.forest finalizer.tag) fun slot hslot => ?_
  obtain ⟨parts, hlookup, rfl⟩ := Option.map_eq_some_iff.mp hslot.symm
  refine .bind_read (does_moveTo hp hw (lands_step? hp hw) hr) ?_
  rintro _ rfl
  have hgoing : plan.Ongoing t
      (.ofOption (plan.labels.target? plan.forest t.tag (plan.forest.step? t.tag))) := by
    obtain ⟨tag, node⟩ := t
    cases node <;> cases hkind
    exact .moved (fun _ => rfl) (by simp [onward, successors, Tree.node])
  refine .mono (does_put [] rfl hr (Ongoing.wired_pass hgoing)) ?_
  rintro _ _ _ ⟨hstates, -, rfl⟩
  exact ⟨rfl, parts, _, hlookup, hstates⟩

end Control

section Statement

variable (hp : plan.Sound low) (ht : plan.forest.Shows t) (hw : plan.forest.Within plan.body t.tag)
include hp ht hw

lemma does_emit_entry (hworks : t.node.works = true) (hloop : t.kind ≠ .forOfStmt)
    (hentry : plan.labels.entries.lookup t.tag = some name) (hr : plan.Ready start d [name]) :
    plan.Pays t start (emit plan.program plan.nested t) d [name] := by
  have hvalue : ∀ {expression use}, t.usedExpression? = some (expression, use) →
      expression ∈ t.node.children → plan.Pays t start
        (emitValue plan.program plan.nested t expression use) d [name] := by
    intro expression use huse hchild
    obtain ⟨hshows, hparent⟩ := hp.inOrder.shows_child ht hchild
    exact does_emitValue hp hw huse hentry hr hshows (hp.inOrder.below_of_parent hparent)
  obtain ⟨tag, node⟩ := t
  cases node
  case block => cases hworks
  case tryStmt => cases hworks
  case catchClause => cases hworks
  case forOfStmt => exact absurd rfl hloop
  case variableStmt target initializer =>
    cases initializer with
    | none => cases hworks
    | some expression => exact hvalue rfl (by simp [Tree.node, Node.children])
  case exprStmt expression => exact hvalue rfl (by simp [Tree.node, Node.children])
  case returnStmt expression =>
    cases expression with
    | some expression => exact hvalue rfl (by simp [Tree.node, Node.children])
    | none =>
      refine does_bind_entry hw hentry hr ?_
      exact does_put_last rfl hr (Ongoing.wired_pass (.returned rfl))
  case throwStmt expression => exact does_emitThrow hp hw rfl hentry hr
  case ifStmt condition thenStmt elseStmt =>
    cases elseStmt with
    | some elseStmt | none =>
      refine does_emitBranch hp hw ht hentry hr (fun _ => rfl) rfl rfl rfl ?_
      intro value hvalue
      cases value <;> simp [onward, Tree.node, hvalue]
  case whileStmt condition body | doStmt body condition =>
    refine does_emitBranch hp hw ht hentry hr (fun _ => rfl) rfl rfl rfl ?_
    intro value hvalue
    cases value <;> simp [onward, Tree.node, hvalue]
  case breakStmt | continueStmt =>
    refine .bind_read (.lift hr) fun loop hloop => ?_
    obtain ⟨hloop, -⟩ := jumpLoop_eq_ok hloop
    refine does_emitJump hp hw ht hentry hr (fun _ => rfl) ?_ ?_
    · simp [onward, Tree.node, hloop]
    · simp [successors, Tree.node, hloop]
  case emptyStmt =>
    exact does_emitJump hp hw ht hentry hr (fun _ => rfl) rfl (by simp [successors, Tree.node])
  all_goals
    intro a d' hrun
    cases hrun

/-- The states of a statement use the names it is owed and lead where control goes. -/
theorem does_emit (hsuit : (plan.labels.partsOf t.tag).Suit plan.forest t.tag)
    (hr : plan.Ready start d (plan.labels.namesOf t.tag)) :
    plan.Pays t start (emit plan.program plan.nested t) d (plan.labels.namesOf t.tag) := by
  have hn := hp.inOrder.node?_of_shows ht
  rw [Labels.namesOf] at hr ⊢
  generalize hparts : plan.labels.partsOf t.tag = parts at hr hsuit ⊢
  cases hsuit with
  | bare hn' hworks hblock htry =>
    obtain rfl := Option.mem_unique hn hn'
    obtain ⟨-, -, hrethrow, -⟩ := Parts.mk.inj hparts
    obtain ⟨-, -, hsame, -⟩ := Parts.mk.inj (hr.same t.tag hw)
    obtain ⟨tag, node⟩ := t
    cases node
    case block =>
      refine .bind_read (.get hr) ?_
      rintro _ rfl
      rw [hsame, hrethrow]
      exact .pure hr rfl
    case tryStmt tryBlock handler finalizer =>
      cases finalizer with
      | none => exact .pure hr rfl
      | some finalizer => exact absurd rfl (htry _ _ _)
    case catchClause => exact .pure hr rfl
    case variableStmt target initializer =>
      cases initializer with
      | none => exact .pure hr rfl
      | some initializer => cases hworks
    all_goals first
      | cases hworks; done
      | intro a d' hrun; cases hrun
  | entry hn' hworks hloop name =>
    obtain rfl := Option.mem_unique hn hn'
    obtain ⟨hentry, -, -, -⟩ := Parts.mk.inj hparts
    rw [Node.kind_map] at hloop
    rw [Node.works_map] at hworks
    exact does_emit_entry hp ht hw hworks hloop hentry hr
  | loop hn' name parts =>
    obtain ⟨tag, node⟩ := t
    cases node <;> cases Option.mem_unique hn hn'
    exact does_emitForOf hp hw rfl ht hparts hr
  | rethrow hn' howner parts =>
    obtain ⟨tag, node⟩ := t
    cases node <;> cases Option.mem_unique hn hn'
    exact .mono (does_emitRethrow hp hw rfl howner hparts hr) fun _ _ _ h => h.1
  | reset hn' name =>
    obtain ⟨tag, node⟩ := t
    cases node
    case tryStmt tryBlock handler finalizer =>
      cases finalizer with
      | none => cases Option.mem_unique hn hn'
      | some finalizer => exact .mono (does_emitReset hp hw rfl hparts hr) fun _ _ _ h => h.1
    all_goals cases Option.mem_unique hn hn'

end Statement

end Plan

section Success

variable {program : Program} {nested : Nested} {t : Term} {d d' : Draft}
  (hrun : (emit program nested t).run d = .ok ((), d'))
include hrun

lemma exists_loop_of_emit (hkind : t.kind = .breakStmt ∨ t.kind = .continueStmt) :
    ∃ loop, program.forest.enclosingLoop? t.tag = some loop ∧
      skipsFinally program.forest t.tag loop = false := by
  obtain ⟨tag, node⟩ := t
  cases node
  case breakStmt | continueStmt =>
    obtain ⟨loop, _, hloop, -⟩ := run_bind_eq_ok hrun
    exact ⟨loop, jumpLoop_eq_ok (run_lift_eq_ok hloop).1⟩
  all_goals exact absurd hkind (by simp [Tree.kind, Tree.node, Node.kind])

end Success

end Machine

end ServiceFlow
