import ServiceFlow.Proofs.TemplateReferences

/-!
# Temporaries are set before they are read

A walk through a template takes at most one branch of each block, and keeps what it has set, in a
loop for one round only. No walk reads a temporary that it has not set, unless texts of the function
that are written as they are refer to one.
-/

namespace ServiceFlow

open ServiceFlow.Tree List

namespace Template

/-- A block around a line: whether a walk reaches the block, whether it has taken a branch, and what
it had set before the round of a loop. -/
structure Frame where
  outer : Bool
  taken : Bool
  before : Option (List String)

/-- How far a walk has come: whether it reaches the line, what it has set, and the blocks. -/
structure Progress where
  active : Bool
  assigned : List String
  frames : List Frame

namespace Progress

/-- The next branch of the innermost block. -/
def turn (s : Progress) (choice : Bool) : Progress :=
  match s.frames with
  | [] => s
  | frame :: frames => ⟨frame.outer && !frame.taken && choice, s.assigned,
      { frame with taken := frame.taken || choice } :: frames⟩

/-- A walk goes past a line, with a choice at a branch or loop. -/
def step (s : Progress) (choice : Bool) : Directive → Progress
  | .openIf _ => turn { s with frames := ⟨s.active, false, none⟩ :: s.frames } choice
  | .elseIf _ => s.turn choice
  | .openElse => s.turn true
  | .forEach _ _ => ⟨s.active && choice, [], ⟨s.active, true, some s.assigned⟩ :: s.frames⟩
  | .close =>
    match s.frames with
    | [] => s
    | frame :: frames => ⟨frame.outer, frame.before.getD s.assigned, frames⟩
  | .assign binder _ => { s with assigned := if s.active then binder :: s.assigned else s.assigned }
  | _ => s

/-- Whether the walk evaluates what the line reads. -/
def reaches (s : Progress) : Directive → Bool
  | .elseIf _ => (s.turn true).active
  | _ => s.active

end Progress

/-- The text of a line that is read. -/
def Directive.reads : Directive → String
  | .assign _ value => value
  | .forEach _ source => source
  | directive => directive.render

/-- Every walk reads only temporaries that it has set, and ends as told. -/
def Runs : List Line → Progress → (Progress → Prop) → Prop
  | [], s, post => post s
  | l :: rest, s, post =>
    (s.reaches l.directive = true → Refers .plain s.assigned l.directive.reads) ∧
      ∀ choice, Runs rest (s.step choice l.directive) post

/-- Every walk through a template reads only what it has set. -/
def AssignedFirst (lines : List Line) : Prop := Runs lines ⟨true, [], []⟩ fun _ => True

/-- The same blocks are open, and the names are set if the lines were reached. -/
structure Extends (names : List String) (s s' : Progress) : Prop where
  active : s'.active = s.active
  frames : s'.frames = s.frames
  assigned : s.assigned ⊆ s'.assigned
  sets : s.active = true → names ⊆ s'.assigned

/-- Lines that set the names on every walk. -/
def Sets (names : List String) (lines : List Line) : Prop := ∀ s, Runs lines s (Extends names s)

def Branches (names : List String) (rest : List Line) : Prop :=
  ∀ s outer taken frames, s.frames = ⟨outer, taken, none⟩ :: frames →
    (outer = true → taken = true → names ⊆ s.assigned) →
    Runs rest s fun s' => (∃ taken', s'.frames = ⟨outer, taken', none⟩ :: frames) ∧
      s.assigned ⊆ s'.assigned ∧ (outer = true → names ⊆ s'.assigned)

/-- Lines that set what they read, where the flag tells whether they are branches of a block. -/
def SelfContained (branches : Bool) (lines : List Line) : Prop :=
  match branches with
  | true => Branches [] lines
  | false => Sets [] lines

/-- A directive without effect on a walk, which reads only the given temporaries. -/
structure Inert (names : List String) (directive : Directive) : Prop where
  step : ∀ s choice, Progress.step s choice directive = s
  reaches : ∀ s, Progress.reaches s directive = s.active
  reads : Refers .plain names directive.reads

section Walks

variable {lines more body rest : List Line} {s : Progress} {post post' : Progress → Prop}
  {names others : List String} {value condition : String}

lemma runs_line {directive : Directive} : Runs (line directive :: rest) s post ↔
    (s.reaches directive = true → Refers .plain s.assigned directive.reads) ∧
      ∀ choice, Runs rest (s.step choice directive) post := Iff.rfl

lemma runs_append : Runs (lines ++ more) s post ↔ Runs lines s fun s' => Runs more s' post := by
  induction lines generalizing s with
  | nil => rfl
  | cons l lines ih => simp only [cons_append, Runs, ih]

lemma runs_nest : Runs (nest lines) s post ↔ Runs lines s post := by
  induction lines generalizing s with
  | nil => rfl
  | cons l lines ih => exact and_congr_right fun _ => forall_congr' fun _ => ih

lemma Runs.imp (h : Runs lines s post) (hpost : ∀ s', post s' → post' s') : Runs lines s post' := by
  induction lines generalizing s with
  | nil => exact hpost s h
  | cons l lines ih => exact ⟨h.1, fun choice => ih (h.2 choice)⟩

namespace Sets

lemma nil : Sets [] [] := fun _ => ⟨rfl, rfl, fun _ => id, by simp⟩

lemma mono (h : Sets names lines) (hsub : others ⊆ names) : Sets others lines := fun s =>
  (h s).imp fun _ h' =>
    ⟨h'.active, h'.frames, h'.assigned, fun hs => Subset.trans hsub (h'.sets hs)⟩

lemma nest (h : Sets names lines) : Sets names (nest lines) := fun s => runs_nest.mpr (h s)

lemma append (h : Sets names lines) (h' : Sets others more) :
    Sets (names ++ others) (lines ++ more) := by
  refine fun s => runs_append.mpr ((h s).imp fun s₁ h₁ => (h' s₁).imp fun s₂ h₂ => ?_)
  refine ⟨h₂.active.trans h₁.active, h₂.frames.trans h₁.frames,
    Subset.trans h₁.assigned h₂.assigned, fun hs => append_subset.mpr ⟨?_, ?_⟩⟩
  · exact Subset.trans (h₁.sets hs) h₂.assigned
  · exact h₂.sets (h₁.active.trans hs)

lemma reads (hvalue : Refers .plain names value) {s₁ : Progress} (h : Extends names s s₁)
    (hs : s₁.active = true) : Refers .plain s₁.assigned value :=
  hvalue.mono (h.sets (h.active.symm.trans hs))

lemma inert (h : Sets names lines) (hmore : AllLines (Inert names) more) :
    Sets names (lines ++ more) := by
  refine fun s => runs_append.mpr ((h s).imp fun s₁ h₁ => ?_)
  induction more with
  | nil => exact h₁
  | cons l more ih =>
    obtain ⟨hl, hmore⟩ := forall_mem_cons.mp hmore
    refine ⟨fun hs => reads hl.reads h₁ (hl.reaches s₁ ▸ hs), fun choice => ?_⟩
    rw [hl.step]
    exact ih hmore

lemma assign (h : Sets names lines) (hvalue : Refers .plain names value) (binder : String) :
    Sets (binder :: names) (lines ++ [line (.assign binder value)]) := by
  refine fun s => runs_append.mpr ((h s).imp fun s₁ h₁ => runs_line.mpr ⟨reads hvalue h₁, ?_⟩)
  refine fun choice => ⟨h₁.active, h₁.frames, fun name hname => ?_, fun hs => ?_⟩
  · have hmem := h₁.assigned hname
    simp only [Progress.step]
    split_ifs
    · exact mem_cons_of_mem _ hmem
    · exact hmem
  · simp only [Progress.step, h₁.active.trans hs, if_true]
    exact cons_subset_cons _ (h₁.sets hs)

lemma loop {source : String} (h : Sets names lines) (hsource : Refers .plain names source)
    (hbody : Sets others body) (binder : String) :
    Sets names (lines ++ line (.forEach binder source) :: Template.nest body ++ [line .close]) := by
  intro s
  rw [append_assoc, cons_append]
  refine runs_append.mpr ((h s).imp fun s₁ h₁ => runs_line.mpr ⟨reads hsource h₁, fun choice => ?_⟩)
  refine runs_append.mpr ((hbody.nest _).imp fun s₂ h₂ => runs_line.mpr ⟨fun _ => ?_, fun _ => ?_⟩)
  · exact refers_of_given
  · have hstep : s₂.step choice .close = s₁ := by simp [Progress.step, h₂.frames]
    exact hstep ▸ h₁

end Sets

lemma runs_turn {outer taken : Bool} {frames : List Frame} (hbody : Sets names body)
    (hs : s.frames = ⟨outer, taken, none⟩ :: frames)
    (htaken : outer = true → taken = true → names ⊆ s.assigned) (choice : Bool) :
    Runs (nest body) (s.turn choice) fun s' =>
      s'.frames = ⟨outer, taken || choice, none⟩ :: frames ∧ s.assigned ⊆ s'.assigned ∧
        (outer = true → (taken || choice) = true → names ⊆ s'.assigned) := by
  have hturn : s.turn choice =
      ⟨outer && !taken && choice, s.assigned, ⟨outer, taken || choice, none⟩ :: frames⟩ := by
    simp [Progress.turn, hs]
  rw [hturn]
  refine (hbody.nest _).imp fun s' h => ⟨h.frames, h.assigned, fun houter hchosen => ?_⟩
  by_cases ht : taken = true
  · exact Subset.trans (htaken houter ht) h.assigned
  · exact h.sets (by simp_all)

namespace Branches

lemma nil : Branches [] [] := fun _ _ taken _ hs _ => ⟨⟨taken, hs⟩, fun _ => id, by simp⟩

lemma elseIf (hcondition : Refers .plain [] (Directive.elseIf condition).reads)
    (hbody : Sets names body) (hrest : Branches names rest) :
    Branches names (line (.elseIf condition) :: nest body ++ rest) := by
  refine fun s outer taken frames hs htaken =>
    runs_line.mpr ⟨fun _ => hcondition.mono (nil_subset _), fun choice => ?_⟩
  refine runs_append.mpr ((runs_turn hbody hs htaken choice).imp fun s₁ ⟨hframes, hsub, hnames⟩ =>
    (hrest s₁ _ _ _ hframes hnames).imp fun s₂ ⟨hframes', hsub', hend⟩ => ?_)
  exact ⟨hframes', Subset.trans hsub hsub', hend⟩

lemma otherwise (hbody : Sets names body) : Branches names (line .openElse :: nest body) :=
  fun _ _ _ _ hs htaken => runs_line.mpr ⟨fun _ => refers_of_given, fun _ =>
    (runs_turn hbody hs htaken true).imp fun _ ⟨hframes, hsub, hnames⟩ =>
      ⟨⟨_, hframes⟩, hsub, fun houter => hnames houter (Bool.or_true _)⟩⟩

end Branches

lemma Sets.branch (h : Sets names lines)
    (hcondition : Refers .plain names (Directive.openIf condition).reads) (hbody : Sets others body)
    (hrest : Branches others rest) : Sets (names ++ others)
      (lines ++ line (.openIf condition) :: Template.nest body ++ rest ++ [line .close]) := by
  intro s
  rw [append_assoc, append_assoc, cons_append]
  refine runs_append.mpr ((h s).imp fun s₁ h₁ =>
    runs_line.mpr ⟨Sets.reads hcondition h₁, fun choice => ?_⟩)
  have hbody := runs_turn (s := { s₁ with frames := ⟨s₁.active, false, none⟩ :: s₁.frames }) hbody
    rfl (by simp) choice
  refine runs_append.mpr (hbody.imp fun s₂ ⟨hframes, hsub, hnames⟩ => runs_append.mpr
    ((hrest s₂ _ _ _ hframes hnames).imp fun s₃ ⟨⟨taken, hframes'⟩, hsub', hend⟩ => runs_line.mpr
      ⟨fun _ => refers_of_given, fun choice => ?_⟩))
  have hstep : s₃.step choice .close = ⟨s₁.active, s₃.assigned, s₁.frames⟩ := by
    simp [Progress.step, hframes']
  have hkept : s₁.assigned ⊆ s₃.assigned := Subset.trans hsub hsub'
  rw [hstep]
  refine ⟨h₁.active, h₁.frames, Subset.trans h₁.assigned hkept, fun hs => ?_⟩
  exact append_subset.mpr ⟨Subset.trans (h₁.sets hs) hkept, hend (h₁.active.trans hs)⟩

end Walks

/-- The number of a temporary. -/
def Mention.number? : Mention → Option Nat
  | .temporary _ number => some number
  | .named _ _ => none

lemma Gives.nodup {low high : Nat} {uses : List Mention} (h : Gives low uses high) :
    (∀ number ∈ uses.filterMap Mention.number?, low ≤ number) ∧
      (uses.filterMap Mention.number?).Nodup := by
  induction uses generalizing low with
  | nil => simp
  | cons mention uses ih =>
    cases mention with
    | named name place => exact ih h
    | temporary owner number =>
      obtain ⟨hlow, hnodup⟩ := ih h.2
      have hle := h.1
      refine ⟨forall_mem_cons.mpr ⟨hle, fun n hn => ?_⟩, nodup_cons.mpr ⟨fun hmem => ?_, hnodup⟩⟩
      · have hn := hlow n hn
        omega
      · exact absurd (hlow number hmem) (Nat.not_succ_le_self number)

section Texts

variable {held : List String} {value : String}

def openings : List String :=
  ["#if(", "#elseif(", "#return(", "$util.qr(", "$util.toJson(", "$util.error(",
    "$util.dynamodb.toMapValuesJson("]

variable {opening : String}

lemma refers_around (hopening : opening ∈ openings) (h : Refers .plain held value) :
    Refers .plain held (opening ++ value ++ ")") := by
  have hall : ∀ text ∈ openings, (text.toList.foldl Quoting.next .plain = .plain ∧
      ∀ word ∈ references .plain text.toList, isTemporary word = false) ∧
      text.toList.getLast?.any (fun c => isBreak c && c != '$') = true := by
    decide
  obtain ⟨hgiven, hlast⟩ := hall opening hopening
  exact h.between (refers_of_given hgiven) refers_of_given (closed_of_getLast? hlast) rfl

lemma refers_interpolation (h : Refers .double held value) :
    Refers .plain held ("\"" ++ value ++ "\"") := by
  have hlist : ("\"" ++ value ++ "\"").toList = '"' :: (value.toList ++ ['"']) := by simp
  have hopens : Opens ['"'] := rfl
  constructor
  · rw [hlist, foldl_cons, foldl_append]
    exact congrArg (fun q => foldl Quoting.next q ['"']) h.quoting
  · have hwords : references .plain ("\"" ++ value ++ "\"").toList =
        references .double value.toList := by
      rw [hlist, references, if_neg (by simp)]
      exact (references_append_of_opens hopens .double).trans (by simp [h.quoting, references])
    rw [hwords]
    exact h.temporaries

-- A text in double quotes refers to what it names, one in single quotes does not.
example : references .plain "\"$v1\" == '$v2'".toList = ["v1".toList] := by decide +kernel

lemma quoted_of_plain {text : String} (h : Plain text) : quoted text = "'" ++ text ++ "'" := by
  have hsame : text.toList.flatMap (fun c => if c = '\'' then ['\'', '\''] else [c]) =
      text.toList.flatMap fun c => [c] := by
    refine flatMap_congr fun c hc => if_neg ?_
    rintro rfl
    exact h _ hc (by simp)
  rw [quoted, hsame]
  simp

lemma refers_stash {slot : String} (hslot : Plain slot) (h : Refers .plain held value) :
    Refers .plain held (Directive.stash slot value).reads := by
  have hput : Refers .plain held "$context.stash.put(" := refers_of_given
  have hcomma : Refers .plain held ", " := refers_of_given
  have hclose : Refers .plain held ")" := refers_of_given
  have htext := ((hput.append (refers_quoted slot) (.inl (closed_of_getLast? rfl))).append hcomma
    (.inr rfl)).append h (.inl (closed_append _ rfl))
  have hread := refers_around (show "$util.qr(" ∈ openings by decide)
    (htext.append hclose (.inr rfl))
  have hopen : "$context.stash.put('" = "$context.stash.put(" ++ "'" := rfl
  have hsplit : "', " = "'" ++ ", " := rfl
  change Refers .plain held (runText ("$context.stash.put('" ++ slot ++ "', " ++ value ++ ")"))
  rw [runText, hopen, hsplit]
  simpa only [quoted_of_plain hslot, String.append_assoc] using hread

lemma refers_quote {text : String} (h : Plain text) : Refers .plain held (Json.quote text) := by
  have hhex : ∀ n < 16, Json.hexDigit n ∉ ['$', '\'', '"'] := by decide
  have hinner : Plain (String.ofList (text.toList.flatMap Json.escapeChar)) := by
    intro c hc
    rw [String.toList_ofList] at hc
    obtain ⟨d, hd, hc⟩ := mem_flatMap.mp hc
    have hplain := h d hd
    unfold Json.escapeChar at hc
    split_ifs at hc <;> simp only [mem_cons, not_mem_nil, or_false] at hc
    all_goals grind
  have hquote : Refers .plain held _ := refers_interpolation hinner.refers
  simpa [Json.quote, String.append_assoc] using hquote

end Texts

end Template

def Tree.names (t : Term) : List String :=
  t.locals ++ t.subtrees.filterMap fun s =>
    match s.node with
    | .identifier name => some name
    | _ => none

/-- The texts of a function that become part of its templates as they are. -/
def Tree.pasted (registry : Registry) (t : Term) : List String :=
  t.subtrees.filterMap (fun s =>
    match s.node with
    | .callExpr (.mk _ (.propertyAccess _ name _)) _ => some (Template.methodName name)
    | _ => none) ++
  (t.calls registry).flatMap fun call => call.resource.identifier :: call.fieldKeys

namespace Template

/-- A place whose text refers to no temporary. -/
def Place.Tame : Place → Prop
  | .template name => Plain name ∧ isTemporary (leadingWord name.toList) = false
  | .stash name => Plain name

/-- No name is written as a temporary, and no text that is pasted refers to anything. -/
structure Tame (registry : Registry) (version : String) (t : Term) (uses : List Mention) :
    Prop where
  places : ∀ name ∈ t.names, ∀ place, .named name place ∈ uses → place.Tame
  texts : ∀ text ∈ version :: t.pasted registry, Plain text

namespace Tame

variable {registry : Registry} {version : String} {root t : Term} {uses others : List Mention}
  {mention : Mention}

lemma mono (h : Tame registry version root uses) (hsub : others ⊆ uses) :
    Tame registry version root others :=
  ⟨fun name hname place hmem => h.places name hname place (hsub hmem), h.texts⟩

lemma left (h : Tame registry version root (uses ++ others)) : Tame registry version root uses :=
  h.mono (subset_append_left ..)

lemma right (h : Tame registry version root (uses ++ others)) :
    Tame registry version root others := h.mono (subset_append_right ..)

lemma tail (h : Tame registry version root (mention :: uses)) :
    Tame registry version root uses := h.mono (subset_cons_self ..)

lemma plain_methodName (htame : Tame registry version root uses) (ht : t ∈ root.subtrees)
    {id : NodeId} {receiver : Term} {name : String} {chained : Bool} {arguments : List Term}
    (h : t.node = .callExpr (.mk id (.propertyAccess receiver name chained)) arguments) :
    Plain (methodName name) := by
  refine htame.texts _ (mem_cons_of_mem _ (mem_append_left _ ?_))
  exact mem_filterMap.mpr ⟨t, ht, by rw [h]⟩

end Tame

lemma Place.Tame.refers {held : List String} {place : Place} (h : place.Tame) :
    Refers .plain held place.text := by
  cases place with
  | template name => exact refers_variable h.1 fun htemporary => by simp [h.2] at htemporary
  | stash name =>
    have hslot : Refers .plain held "$context.stash." := refers_of_given
    exact hslot.append (Plain.refers h) (.inl (closed_of_getLast? rfl))

/-- What is known of a text that has been written after lines that set the names. -/
def Uses (inside : Bool) (names : List String) (value : String) : Prop :=
  match inside with
  | true => Refers .double names value ∧ Closed value.toList
  | false => Refers .plain names value

section Computes

variable {registry : Registry} {version : String} {root t : Term} {uses : List Mention} {env : Env}
  {lines : List Line} {value : String}

lemma Computes.sets {inside : Bool} (h : Computes env inside t lines value uses)
    (htame : Tame registry version root uses) (ht : t ∈ root.subtrees) :
    ∃ names, Sets names lines ∧ Uses inside names value := by
  induction h with
  | fixed h =>
    have hall : ∀ text ∈ fixedValues, text.toList.foldl Quoting.next .plain = .plain ∧
        ∀ word ∈ references .plain text.toList, isTemporary word = false := by
      decide
    exact ⟨[], .nil, refers_of_given (hall _ h)⟩
  | constant c => exact ⟨[], .nil, refers_literal c⟩
  | quoted text => exact ⟨[], .nil, refers_quoted text⟩
  | @named id name =>
    have hname : name ∈ root.names := mem_append_right _ (mem_filterMap.mpr ⟨_, ht, rfl⟩)
    exact ⟨[], .nil, (htame.places name hname _ mem_cons_self).refers⟩
  | within hs _ ih => exact ih htame (subtrees_subset ht hs)
  | before hj _ ih =>
    obtain ⟨names, hsets, hvalue⟩ := ih htame ht
    exact ⟨names, hsets, (hj.joins (htame.plain_methodName ht)).before hvalue⟩
  | after _ hj ih =>
    obtain ⟨names, hsets, hvalue⟩ := ih htame ht
    exact ⟨names, hsets, (hj.joins (htame.plain_methodName ht)).after hvalue⟩
  | pair _ hj _ ih ih' =>
    obtain ⟨names, hsets, hvalue⟩ := ih htame.left ht
    obtain ⟨others, hsets', hvalue'⟩ := ih' htame.right ht
    exact ⟨_, hsets.append hsets', (hj.joins (htame.plain_methodName ht)).between
      (hvalue.mono (subset_append_left ..)) (hvalue'.mono (subset_append_right ..))⟩
  | braced _ ih =>
    obtain ⟨names, hsets, hvalue⟩ := ih htame ht
    exact ⟨names, hsets, hvalue.between refers_of_given refers_of_given
      (Plain.closed (by decide)) rfl⟩
  | safe h => exact ⟨[], .nil, refers_of_isSafeFragment h⟩
  | append _ _ ih ih' =>
    obtain ⟨names, hsets, hvalue, hclosed⟩ := ih htame.left ht
    obtain ⟨others, hsets', hvalue', hclosed'⟩ := ih' htame.right ht
    refine ⟨_, hsets.append hsets', (hvalue.mono (subset_append_left ..)).append
      (hvalue'.mono (subset_append_right ..)) (.inl hclosed), ?_⟩
    rw [String.toList_append]
    exact hclosed.append hclosed'
  | chain hchain _ ih =>
    obtain ⟨names, hsets, hvalue⟩ := ih htame ht
    exact ⟨names, hsets, refers_formal hchain hvalue⟩
  | hold number _ ih =>
    obtain ⟨names, hsets, hvalue⟩ := ih htame.left ht
    exact ⟨_, hsets.assign hvalue _, refers_formal (isReferenceChain_temporaryVariable number)
      (refers_temporaryVariable mem_cons_self)⟩
  | interpolation _ ih =>
    obtain ⟨names, hsets, hvalue, -⟩ := ih htame ht
    exact ⟨names, hsets, refers_interpolation hvalue⟩
  | @override id left right _ _ _ _ _ test _ _ number htest _ _ ih ih' =>
    obtain ⟨names, hsets, hvalue⟩ := ih htame.left (subtrees_subset ht child_mem_subtrees)
    obtain ⟨others, hsets', hvalue'⟩ := ih' htame.right.tail (subtrees_subset ht child_mem_subtrees)
    have htemp : Refers .plain (temporaryVariable number :: names) (temporaryVariable number) :=
      refers_temporaryVariable mem_cons_self
    have hread : Refers .plain (temporaryVariable number :: names) test := by
      simp only [overrideTests, mem_cons, not_mem_nil, or_false] at htest
      rcases htest with rfl | rfl | rfl
      · exact htemp.between refers_of_given refers_of_given (closed_of_getLast? rfl) rfl
      · exact htemp
      · have hnot : Refers .plain (temporaryVariable number :: names) "!" :=
          refers_of_given
        exact hnot.append htemp (.inl (closed_of_getLast? rfl))
    have hblock := (hsets.assign hvalue (temporaryVariable number)).branch
      (refers_around (by decide) hread)
      ((hsets'.assign hvalue' (temporaryVariable number)).mono (nil_subset _)) .nil
    refine ⟨_, ?_, htemp⟩
    simpa only [ifBlock, append_nil, append_assoc, cons_append, nil_append] using hblock
  | conditional number _ _ _ ih ihYes ihNo =>
    have hrest := htame.right.tail
    obtain ⟨names, hsets, hvalue⟩ := ih htame.left (subtrees_subset ht child_mem_subtrees)
    obtain ⟨yes, hyes, hyesValue⟩ := ihYes hrest.left (subtrees_subset ht child_mem_subtrees)
    obtain ⟨no, hno, hnoValue⟩ := ihNo hrest.right (subtrees_subset ht child_mem_subtrees)
    have hone : ∀ {others : List String}, [temporaryVariable number] ⊆
        temporaryVariable number :: others := by simp
    refine ⟨_, hsets.branch (refers_around (by decide) hvalue) ((hyes.assign hyesValue _).mono hone)
      (.otherwise ((hno.assign hnoValue _).mono hone)), ?_⟩
    exact refers_temporaryVariable (mem_append_right _ mem_cons_self)
  | start number _ h =>
    have hall : ∀ text ∈ ["[]", "\x7b\x7d"], Plain text := by decide
    exact ⟨_, Sets.nil.assign (hall _ h).refers _, refers_temporaryVariable mem_cons_self⟩
  | @add _ _ _ value method _ _ number hmethod _ _ ih ih' =>
    obtain ⟨names, hsets, htemp⟩ := ih htame.left ht
    obtain ⟨others, hsets', hvalue⟩ := ih' htame.right ht
    have hall : ∀ text ∈ [".add(", ".addAll(", ".put(", ".putAll("], Plain text ∧
        text.toList.head?.any isBreak = true := by decide
    obtain ⟨hplain, hhead⟩ := hall _ hmethod
    have hjoins : Joins (names ++ others) method := joins_of_plain hplain hhead
    have hclose : Refers .plain (names ++ others) ")" := refers_of_given
    have hread := (hjoins.between (htemp.mono (subset_append_left ..))
      (hvalue.mono (subset_append_right ..))).append hclose (.inr rfl)
    refine ⟨_, (hsets.append hsets').inert (.line ⟨fun _ _ => rfl, fun _ => rfl,
      refers_around (by decide) hread⟩), htemp.mono (subset_append_left ..)⟩

lemma Computes.followed {more : List Line} (h : Computes env false t lines value uses)
    (htame : Tame registry version root uses) (ht : t ∈ root.subtrees)
    (hmore : ∀ {held}, Refers .plain held value → AllLines (Inert held) more) :
    Sets [] (lines ++ more) := by
  obtain ⟨names, hsets, hvalue⟩ := h.sets htame ht
  exact (hsets.inert (hmore hvalue)).mono (nil_subset _)

end Computes

end Template

namespace Pipeline

open ServiceFlow.Template

variable {held : List String} {lines : List Line} {uses : List Mention} {value : String}
  {version : String}

lemma inert_text {text : String} (h : Refers .plain held text) : Inert held (.text text) :=
  ⟨fun _ _ => rfl, fun _ => rfl, h⟩

lemma inert_stash {slot : String} (hslot : Plain slot) (h : Refers .plain held value) :
    Inert held (.stash slot value) :=
  ⟨fun _ _ => rfl, fun _ => rfl, refers_stash hslot h⟩

lemma inert_yield (h : Refers .plain held value) : Inert held (.yield value) :=
  ⟨fun _ _ => rfl, fun _ => rfl, refers_around (by decide) h⟩

lemma inert_recordReturn (h : Refers .plain held value) :
    AllLines (Inert held) (recordReturn value) :=
  .cons (inert_stash (by decide) refers_of_given) (.line (inert_stash (by decide) h))

lemma inert_separated {texts : List String} (h : ∀ text ∈ texts, Refers .plain held text) :
    AllLines (Inert held) (separated texts) := by
  have hcomma : Refers .plain held "," := refers_of_given
  fun_induction separated texts with
  | case1 => exact .nil
  | case2 last => exact .line (inert_text (h last mem_cons_self))
  | case3 text rest hne ih =>
    obtain ⟨htext, hrest⟩ := forall_mem_cons.mp h
    exact .cons (inert_text (htext.append hcomma (.inr rfl))) (ih hrest)

example : separated ["a", "b", "c"] = [textLine "a,", textLine "b,", textLine "c"] := by
  decide +kernel

lemma inert_braced {body : List Line} {closing : String} (h : AllLines (Inert held) body)
    (hopening : Refers .plain held opening) (hclosing : Refers .plain held closing) :
    AllLines (Inert held) (braced opening body closing) :=
  .cons (inert_text hopening) (.append h.nest (.line (inert_text hclosing)))

lemma refers_field {key : String} (hkey : Plain key) (h : Refers .plain held value) :
    Refers .plain held (field key value) := by
  have hcolon : Refers .plain held ": " := refers_of_given
  exact ((refers_quote hkey).append hcolon (.inr rfl)).append h (.inl (closed_append _ rfl))

lemma refers_asJson (h : Refers .plain held value) : Refers .plain held (asJson value) :=
  refers_around (by decide) h

lemma inert_executionDocument {target machine : String} (hversion : Plain version)
    (htarget : Plain target) (hmachine : Plain machine) (h : Refers .plain held value) :
    AllLines (Inert held) (executionDocument version target machine value) := by
  have hcomma : ∀ {text : String}, Refers .plain held text → Inert held (.text (text ++ ",")) :=
    fun htext => inert_text (htext.append refers_of_given (.inr rfl))
  have hbrace : Refers .plain held "\x7d" := refers_of_given
  have hopen : ∀ {key : String}, Plain key → Refers .plain held (field key "\x7b") := fun hkey =>
    refers_field hkey refers_of_given
  refine inert_braced (.append (.cons ?_ (.cons ?_ (.line ?_)))
    (inert_braced (.append ?_ ?_) ?_ hbrace)) refers_of_given hbrace
  · exact hcomma (refers_field (by decide) (refers_quote hversion))
  · exact hcomma (refers_field (by decide) (refers_quote (by decide)))
  · exact hcomma (refers_field (by decide) (refers_quote (by decide)))
  · refine inert_braced (inert_separated ?_) (hopen (by decide)) refers_of_given
    simpa using ⟨refers_field (by decide) (refers_quote (by decide)),
      refers_field (by decide) (refers_quote htarget)⟩
  · refine inert_braced (inert_separated ?_) (hopen (by decide)) hbrace
    simpa using ⟨refers_field (by decide) (refers_quote hmachine),
      refers_field (by decide) (refers_asJson (refers_asJson h))⟩
  · exact hopen (by decide)

lemma sets_responseCheck (op : ServiceOp) : Sets [] (responseCheck op) := by
  have hfault : Sets [] (ifBlock "$context.error"
      [textLine "$util.error($context.error.message, $context.error.type)"]) :=
    Sets.nil.branch refers_of_given (Sets.nil.inert (.line (inert_text refers_of_given))) .nil
  cases op with
  | startExecution sync =>
    exact Sets.nil.branch refers_of_given
      ((Sets.nil.assign refers_of_given _).mono (nil_subset _))
      (.otherwise (Sets.nil.inert (.line (inert_text refers_of_given))))
  | _ => exact hfault

section Statements

variable {env : Env} {root t : Term}
  (htame : Tame env.registry env.settings.templateVersion root uses) {call : ServiceCall}
include htame

lemma plain_of_call {text : String} (ht : t ∈ root.subtrees) (hcall : call ∈ t.calls env.registry)
    (h : text ∈ call.resource.identifier :: call.fieldKeys) : Plain text := by
  refine htame.texts _ (mem_cons_of_mem _ (mem_append_right _ ?_))
  obtain ⟨s, hs, hcall⟩ := mem_filterMap.mp hcall
  exact mem_flatMap.mpr ⟨call, mem_filterMap.mpr ⟨s, subtrees_subset ht hs, hcall⟩, h⟩

lemma Fills.sets {fields : List String} (h : Fills env t call lines fields uses)
    (ht : t ∈ root.subtrees) (hcall : call ∈ t.calls env.registry) :
    ∃ names, Sets names lines ∧ ∀ text ∈ fields, Refers .plain names text := by
  induction h with
  | nil => exact ⟨[], .nil, by simp⟩
  | @cons _ _ key _ _ _ _ hkey h rest ih =>
    obtain ⟨names, hsets, hvalue⟩ := h.sets htame.left ht
    obtain ⟨others, hsets', hfields⟩ := ih htame.right
    have hplain : Plain key := by
      rcases mem_cons.mp hkey with rfl | hkey
      · decide
      · exact plain_of_call htame ht hcall (mem_cons_of_mem _ hkey)
    refine ⟨_, hsets.append hsets', forall_mem_cons.mpr ⟨?_, fun text htext => ?_⟩⟩
    · have hvalue := hvalue.mono (subset_append_left names others)
      refine refers_field hplain ?_
      split_ifs
      · exact refers_around (by decide) hvalue
      · exact refers_asJson hvalue
    · exact (hfields text htext).mono (subset_append_right ..)

lemma Performs.sets {branches : Bool} (h : Performs env branches t lines uses)
    (ht : t ∈ root.subtrees) : SelfContained branches lines := by
  induction h with
  | nil => exact Sets.nil
  | noBranch => exact Branches.nil
  | append _ _ ih ih' => exact Sets.append (ih htame.left ht) (ih' htame.right ht)
  | within hs _ ih => exact ih htame (subtrees_subset ht hs)
  | evaluate h =>
    obtain ⟨names, hsets, -⟩ := h.sets htame ht
    exact hsets.mono (nil_subset _)
  | @assign _ _ name _ _ _ _ h =>
    obtain ⟨names, hsets, hvalue⟩ := h.sets htame.left ht
    unfold Env.assign
    split_ifs with hvariable
    · exact (hsets.assign hvalue _).mono (nil_subset _)
    · have hname : name ∈ root.names :=
        mem_append_left _ (mem_append_left _ (mem_declared ht))
      have hplain := htame.right.places name hname _ mem_cons_self
      rw [Env.place, if_neg hvariable] at hplain
      exact (hsets.inert (.line (inert_stash hplain hvalue))).mono (nil_subset _)
  | run h =>
    exact h.followed htame ht fun hvalue =>
      .line ⟨fun _ _ => rfl, fun _ => rfl, refers_around (by decide) hvalue⟩
  | yield _ h => exact h.followed htame ht fun hvalue => .line (inert_yield hvalue)
  | record h => exact h.followed htame ht inert_recordReturn
  | recorded _ h =>
    exact (h.followed htame ht inert_recordReturn).inert (.line (inert_yield refers_of_given))
  | shown hfunction h =>
    have hopening : ∀ text ∈ ["$util.toJson(", "$util.error("], text ∈ openings := by decide
    exact h.followed htame ht fun hvalue =>
      .line (inert_text (refers_around (hopening _ hfunction) hvalue))
  | @plain env _ _ h =>
    refine Sets.nil.inert (.line (inert_text ?_))
    simp only [mem_cons, not_mem_nil, or_false] at h
    rcases h with rfl | rfl
    · exact refers_of_given
    · have hversion : Plain env.settings.templateVersion := htame.texts _ mem_cons_self
      have hstart : Refers .plain [] "\x7b\"version\":" := refers_of_given
      have hend : Refers .plain [] ",\"payload\":null\x7d" := refers_of_given
      have hopen : "\x7b\"version\":\"" = "\x7b\"version\":" ++ "\"" := rfl
      have hsplit : "\",\"payload\":null\x7d" = "\"" ++ ",\"payload\":null\x7d" := rfl
      rw [localRequest, hopen, hsplit]
      simpa only [String.append_assoc] using (hstart.append (refers_interpolation hversion.refers)
        (.inl (closed_of_getLast? rfl))).append hend (.inr rfl)
  | leave =>
    exact Sets.nil.inert (.line ⟨fun _ _ => rfl, fun _ => rfl, refers_of_given⟩)
  | branch h _ _ ih ih' =>
    obtain ⟨names, hsets, hvalue⟩ := h.sets htame.left.left ht
    exact (hsets.branch (refers_around (by decide) hvalue) (ih htame.left.right ht)
      (ih' htame.right ht)).mono (nil_subset _)
  | elseIf h _ _ ih ih' =>
    obtain ⟨names, hsets, hvalue⟩ := h.sets htame.left.left ht
    -- No lines come before the condition, so it reads no temporaries.
    have hnone : names ⊆ [] := (hsets ⟨true, [], []⟩).sets rfl
    exact Branches.elseIf (refers_around (by decide) (hvalue.mono hnone)) (ih htame.left.right ht)
      (ih' htame.right ht)
  | otherwise _ ih => exact Branches.otherwise (ih htame ht)
  | loop counter _ ih =>
    have hrange : ∀ n : Nat, Plain ("[0.." ++ toString n ++ "]") := fun n =>
      plain_append (plain_append (by decide) (plain_digits n)) (by decide)
    exact Sets.nil.loop (hrange _).refers (ih htame ht) _
  | @forEach _ _ _ _ _ value _ _ _ _ hlast h _ ih =>
    obtain ⟨names, hsets, hvalue⟩ := h.sets htame.left ht
    refine (hsets.loop ?_ (ih htame.right.tail ht) _).mono (nil_subset _)
    simp only [mem_cons, not_mem_nil, or_false] at hlast
    rcases hlast with rfl | rfl
    · rwa [String.append_empty]
    · exact hvalue.append refers_of_given (.inr rfl)
  | request hcall hoperation h =>
    obtain ⟨names, hsets, hfields⟩ := h.sets htame ht hcall
    have hall : ∀ text ∈ operations, Plain text := by decide
    refine (hsets.inert (inert_braced (inert_separated ?_) refers_of_given
      refers_of_given)).mono (nil_subset _)
    have hversion := htame.texts _ mem_cons_self
    exact forall_mem_cons.mpr ⟨refers_field (by decide) (refers_quote hversion),
      forall_mem_cons.mpr ⟨refers_field (by decide) (refers_quote (hall _ hoperation)), hfields⟩⟩
  | execution sync hcall h =>
    have htarget : Plain (executionTarget sync) := by cases sync <;> decide
    exact h.followed htame ht (inert_executionDocument (htame.texts _ mem_cons_self) htarget
      (plain_of_call htame ht hcall mem_cons_self))
  | check op => exact sets_responseCheck op

lemma WritesTemplate.assignedFirst (h : WritesTemplate env root lines uses) :
    AssignedFirst lines := by
  have hsets : ∀ {mode : Env} {lines : List Line}, mode ∈ [env, env.direct, env.last] →
      Performs mode false root lines uses → Sets [] lines := by
    intro mode lines hmode hlines
    simp only [mem_cons, not_mem_nil, or_false] at hmode
    rcases hmode with rfl | rfl | rfl <;>
      exact Performs.sets (by exact htame) hlines (self_mem_subtrees root)
  suffices Sets [] lines from (this _).imp fun _ _ => trivial
  cases h with
  | whole hmode h => exact hsets hmode h
  | guarded hmode h =>
    have hread : Refers .plain [] (Directive.openIf (slot returnFlag)).reads := refers_of_given
    have hyield : Sets [] [line (.yield (slot returnValue))] :=
      Sets.nil.inert (.line (inert_yield refers_of_given))
    exact .append (Sets.nil.branch hread hyield .nil) (hsets hmode h)

end Statements

/-- A temporary is set only if it is recorded. -/
def Given (uses : List Mention) (directive : Directive) : Prop :=
  ∀ name value, directive = .assign ("$" ++ name) value → isTemporary name.toList = true →
    ∃ owner number, .temporary owner number ∈ uses ∧ name = "v" ++ toString number

lemma given_of_binds {registry : Registry} {t : Term} (h : AllLines (Binds t.locals uses) lines)
    (htame : Tame registry version t uses) : AllLines (Given uses) lines := by
  refine h.imp fun directive hbinds name value hdirective htemporary => ?_
  have hheld := hbinds (.template name) (hdirective ▸ target?_assign name value)
  generalize hplace : Place.template name = place at hheld
  cases hheld with
  | @named local' place hlocal hmem =>
    subst hplace
    have hfree := (htame.places local' (mem_append_left _ hlocal) _ hmem).2
    rw [leadingWord_of_isTemporary htemporary, htemporary] at hfree
    cases hfree
  | @temporary owner number h => exact ⟨owner, number, h, Place.template.inj hplace⟩
  | counter number =>
    rw [Place.template.inj hplace] at htemporary
    simp [isTemporary] at htemporary
  | result =>
    rw [Place.template.inj hplace] at htemporary
    exact absurd htemporary (by decide)
  | slot => cases hplace

/-- Temporaries are set before they are read, and are the recorded ones. -/
structure AssignsTemporaries (layout : Layout) (table : List (List Mention)) : Prop where
  assigned : ∀ lines ∈ layout.templates, AssignedFirst lines
  given : List.Forall₂ (fun lines uses => AllLines (Given uses) lines) layout.templates table

/-- In the templates of a pipeline, temporaries are given out once, set where they are given out,
and set before they are read, if no name of the function is that of a temporary and no text of it
refers to variables by itself. -/
theorem compile_assigns_temporaries {program : Program} {ns ns' : Namespace} {pipeline : Pipeline}
    (h : (compile program).run.run ns = (.ok pipeline, ns')) :
    ∃ t parameters block body layout table, program.term = .ok t ∧
      t.functionParts = .ok (parameters, block, body) ∧ layoutOf program = .ok layout ∧
      layout.Renders pipeline ∧
      WritesLayout (envOf program parameters) t (body.filterMap (callOf? program.registry)) layout
        table ∧
      (table.flatten.filterMap Mention.number?).Nodup ∧
      (Tame program.registry program.settings.templateVersion t table.flatten →
        AssignsTemporaries layout table) := by
  obtain ⟨layout, hlayout, hrenders⟩ := exists_layout h
  obtain ⟨t, parameters, block, body, table, count, hterm, hparts, hwrites, hgives⟩ :=
    exists_writesLayout hlayout
  refine ⟨t, parameters, block, body, layout, table, hterm, hparts, hlayout, hrenders, hwrites,
    hgives.nodup.2, fun htame => ?_⟩
  have hpart : ∀ uses ∈ table, Tame _ _ t uses := fun uses huses =>
    htame.mono (sublist_flatten_of_mem huses).subset
  refine ⟨fun lines hlines => ?_, ?_⟩
  · obtain ⟨uses, huses, hwritten⟩ := hwrites.exists_writesTemplate lines hlines
    exact hwritten.assignedFirst (hpart uses huses)
  · have hboth := (forall₂_and_left ..).mpr ⟨hpart, hwrites.templates.flip⟩
    exact hboth.flip.imp fun _ _ ⟨htame, h⟩ => given_of_binds h.binds htame

def composing : SyntaxTree :=
  let member := Tree.member (.ident "context")
  let choice : SyntaxTree := .choose (member "a") (member "b") (.ident "item")
  .function [.param "context"]
    [.mk () (.forOfStmt (.ident "item") (member "items") (.block
      [.set "kept" (.mk () (.binaryExpr choice .add (.text "$v0")))])),
      .give (.call (.ref "charge") [.mk () (.binaryExpr (.ident "kept") .coalesce (member "c"))])]

lemma tame_of_placed {name : String} {place : Place}
    (h : (Mention.named name place).Placed) (hplain : Plain (variableName name))
    (hfree : isTemporary (leadingWord (variableName name).toList) = false) : place.Tame := by
  rcases h with hkeeps | hfixed
  · cases place <;> rw [Place.Keeps, Place.name] at hkeeps <;> subst hkeeps
    · exact ⟨hplain, hfree⟩
    · exact hplain
  · simp only [mem_cons, not_mem_nil, or_false] at hfixed
    rcases hfixed with rfl | rfl | rfl <;> exact ⟨by decide, by decide⟩

theorem compile_assigns_temporaries_composing : ∃ root f pipeline ns layout table,
    Forest.ofTree composing = .ok (root, f) ∧
    (compile (auditedProgram f root)).run.run .empty = (.ok pipeline, ns) ∧
    layout.Renders pipeline ∧ (table.flatten.filterMap Mention.number?).Nodup ∧
    AssignsTemporaries layout table := by
  obtain ⟨root, f, pipeline, ns, hf, hcompile, hchecked⟩ :=
    exists_compiled compile auditedProgram composing (fun program _ =>
      program.term.toOption.any fun t => (∀ name ∈ t.names, Plain (variableName name) ∧
        isTemporary (leadingWord (variableName name).toList) = false) ∧
        ∀ text ∈ program.settings.templateVersion :: t.pasted program.registry, Plain text)
      (by decide +kernel)
  obtain ⟨t, parameters, block, body, layout, table, hterm, -, -, hrenders, hwrites, hnodup,
    hassigns⟩ := compile_assigns_temporaries hcompile
  simp only [hterm, Except.toOption, Option.any_some, decide_eq_true_eq] at hchecked
  have hplaces : ∀ name ∈ t.names, ∀ place, .named name place ∈ table.flatten → place.Tame :=
    fun name hname place hmem =>
      tame_of_placed (hwrites.placed _ hmem) (hchecked.1 name hname).1 (hchecked.1 name hname).2
  exact ⟨root, f, pipeline, ns, layout, table, hf, hcompile, hrenders, hnodup,
    hassigns ⟨hplaces, hchecked.2⟩⟩

/-- A function that reads a name `v0`, which it does not declare. -/
def freeName : SyntaxTree :=
  .function [.param "context"] [.copy "x" "v0", .give (.mk () (.binaryExpr (.ident "x") .add
    (.choose (.member (.ident "context") "b") (.number 1) (.number 2))))]

/-- The name is written as the variable of the first temporary, and read before that is set. -/
theorem temporary_read_by_free_name : ∃ root f pipeline ns layout lines rest,
    Forest.ofTree freeName = .ok (root, f) ∧
    (compile (auditedProgram f root)).run.run .empty = (.ok pipeline, ns) ∧
    layoutOf (auditedProgram f root) = .ok layout ∧ layout.Renders pipeline ∧
    lines ∈ layout.templates ∧ lines.map Line.directive = .assign "$x" "$v0" :: rest ∧
    .assign "$v0" "1" ∈ rest ∧ ¬ AssignedFirst lines := by
  obtain ⟨root, f, pipeline, ns, hf, hcompile, hchecked⟩ :=
    exists_compiled compile auditedProgram freeName (fun program _ =>
      (layoutOf program).toOption.any fun layout => layout.templates.any fun lines =>
        (lines.map Line.directive).head? = some (.assign "$x" "$v0") ∧
          .assign "$v0" "1" ∈ (lines.map Line.directive).tail) (by decide +kernel)
  obtain ⟨layout, hlayout, hrenders⟩ := exists_layout hcompile
  simp only [hlayout, Except.toOption, Option.any_some, any_eq_true, decide_eq_true_eq] at hchecked
  obtain ⟨_ | ⟨l, lines⟩, hlines, hfirst, hset⟩ := hchecked
  · cases hfirst
  have hl : l.directive = .assign "$x" "$v0" := Option.some.inj hfirst
  refine ⟨root, f, pipeline, ns, layout, _, _, hf, hcompile, hlayout, hrenders, hlines,
    congrArg (· :: _) hl, hset, fun h => ?_⟩
  have hread : Refers .plain [] "$v0" := by simpa [hl, Progress.reaches, Directive.reads] using h.1
  exact absurd (hread.temporaries "v0".toList (by decide) (by decide)) (by simp)

end Pipeline

end ServiceFlow
