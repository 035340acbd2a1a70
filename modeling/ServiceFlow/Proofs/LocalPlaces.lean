import ServiceFlow.Proofs.WrittenStatements

/-!
# Places of locals

Locals live in variables of a template or in slots of the stash, next to what a template uses for
itself. Dollar signs become underscores, so two names can become one. All places are apart if and
only if the names are.
-/

namespace ServiceFlow

open ServiceFlow.Tree List

namespace Template

/-- The variables that templates use for themselves. -/
inductive OwnVariable : String → Prop
  | temporary (number : Nat) : OwnVariable ("v" ++ toString number)
  | counter (number : Nat) : OwnVariable ("__loop" ++ toString number)
  | fixed {name : String} (h : name ∈ ["__result", "context", "util", "null"]) : OwnVariable name

namespace Place

/-- The name of a place. -/
def name : Place → String
  | .template name | .stash name => name

def rename : Place → String → Place
  | .template _, name => .template name
  | .stash _, name => .stash name

def Reserved : Place → Prop
  | .template name => OwnVariable name
  | .stash name => name ∈ [returnFlag, returnValue]

/-- A place that has the name of a local, as far as it can be written. -/
def Keeps (place : Place) (name : String) : Prop := place.name = variableName name

lemma rename_name (place : Place) : place.rename place.name = place := by cases place <;> rfl

lemma name_rename (place : Place) (name : String) : (place.rename name).name = name := by
  cases place <;> rfl

end Place

/-- Characters that are not told apart in the names of variables. -/
def AlikeChar (c d : Char) : Prop := c = d ∨ c ∈ ['$', '_'] ∧ d ∈ ['$', '_']

/-- Names that differ in dollar signs and underscores only. -/
def Alike (a b : String) : Prop := List.Forall₂ AlikeChar a.toList b.toList

/-- No local has one of the template's own places, and no two have the same place. -/
structure Hygienic (locals : List String) (uses : List Mention) : Prop where
  apart : ∀ name ∈ locals, ∀ place, .named name place ∈ uses → ¬ place.Reserved
  distinct : ∀ a ∈ locals, ∀ b ∈ locals, ∀ place, .named a place ∈ uses → .named b place ∈ uses →
    a = b

/-- Locals are read where they are set, and their names are apart from each other and from the
template's own names wherever they are kept in the same way. -/
structure Separated (locals : List String) (uses : List Mention) : Prop where
  kept : ∀ name ∈ locals, ∀ place, .named name place ∈ uses → place.Keeps name
  apart : ∀ name ∈ locals, ∀ place, .named name place ∈ uses →
    ∀ own, (place.rename own).Reserved → ¬ Alike name own
  distinct : ∀ a ∈ locals, ∀ b ∈ locals, ∀ place place', .named a place ∈ uses →
    .named b place' ∈ uses → place.rename place'.name = place' → Alike a b → a = b

lemma alikeChar_iff (c d : Char) :
    AlikeChar c d ↔ (if c = '$' then '_' else c) = (if d = '$' then '_' else d) := by
  unfold AlikeChar
  grind

lemma alike_iff (a b : String) : Alike a b ↔ variableName a = variableName b := by
  have hchar := funext₂ fun c d => propext (alikeChar_iff c d)
  rw [Alike, hchar, variableName, variableName, String.ofList_inj, ← forall₂_eq_eq_eq,
    forall₂_map_left_iff, forall₂_map_right_iff]

variable {name : String} {place : Place} {uses : List Mention}

lemma variableName_of_notMem (h : '$' ∉ name.toList) : variableName name = name := by
  rw [variableName, map_congr_left (g := id), map_id, String.ofList_toList]
  intro c hc
  rw [if_neg (ne_of_mem_of_not_mem hc h), id]

lemma dollar_notMem_digits (number : Nat) : '$' ∉ Nat.toDigits 10 number := fun h =>
  absurd (Nat.isDigit_of_mem_toDigits (by decide) (by decide) h) (by decide)

lemma Place.Reserved.dollar_notMem (h : place.Reserved) : '$' ∉ place.name.toList := by
  cases place with
  | stash name =>
    simp only [Place.Reserved, mem_cons, not_mem_nil, or_false] at h
    rcases h with rfl | rfl <;> decide
  | template name =>
    cases h with
    | temporary number | counter number => simp [Place.name, dollar_notMem_digits]
    | fixed h =>
      simp only [mem_cons, not_mem_nil, or_false] at h
      rcases h with rfl | rfl | rfl | rfl <;> decide

lemma Place.Reserved.alike_iff (h : place.Reserved) (name : String) :
    Alike name place.name ↔ place.Keeps name := by
  rw [Template.alike_iff, variableName_of_notMem h.dollar_notMem]
  exact eq_comm

/-- A name has a place of its own name, but for three names that are not read as locals. -/
def Mention.Placed : Mention → Prop
  | .temporary _ _ => True
  | .named name place =>
    place.Keeps name ∨ place ∈ [.template "util", .template "context", .template "null"]

lemma Mention.Placed.keeps (h : (Mention.named name place).Placed) (hreserved : ¬ place.Reserved) :
    place.Keeps name := by
  refine h.resolve_right fun hmem => hreserved ?_
  simp only [mem_cons, not_mem_nil, or_false] at hmem
  rcases hmem with rfl | rfl | rfl <;> exact .fixed (by decide)

lemma hygienic_iff_separated (h : ∀ mention ∈ uses, mention.Placed) (locals : List String) :
    Hygienic locals uses ↔ Separated locals uses := by
  constructor
  · intro hygienic
    have hkept : ∀ name ∈ locals, ∀ place, .named name place ∈ uses → place.Keeps name :=
      fun name hname place hmem => (h _ hmem).keeps (hygienic.apart name hname place hmem)
    refine ⟨hkept, fun name hname place hmem own hown halike => ?_, ?_⟩
    · have hkeeps := hown.alike_iff name
      rw [Place.name_rename] at hkeeps
      have hname' : place.name = own := by
        rw [hkept name hname place hmem, ← hkeeps.mp halike, Place.name_rename]
      rw [← hname', Place.rename_name] at hown
      exact hygienic.apart name hname place hmem hown
    · intro a ha b hb place place' hmem hmem' hsame halike
      refine hygienic.distinct a ha b hb place hmem ?_
      have hname : place'.name = place.name := by
        rw [hkept a ha place hmem, hkept b hb place' hmem', (alike_iff a b).mp halike]
      rw [hname, Place.rename_name] at hsame
      rwa [hsame]
  · intro separated
    refine ⟨fun name hname place hmem hreserved => ?_, ?_⟩
    · refine separated.apart name hname place hmem place.name ?_ ?_
      · rwa [Place.rename_name]
      · exact (hreserved.alike_iff name).mpr (separated.kept name hname place hmem)
    · intro a ha b hb place hmem hmem'
      refine separated.distinct a ha b hb place place hmem hmem' place.rename_name ?_
      rw [alike_iff, ← separated.kept a ha place hmem, separated.kept b hb place hmem']

lemma keeps_place (env : Env) (name : String) : (env.place name).Keeps name := by
  unfold Env.place
  split_ifs <;> rfl

lemma placed_source (env : Env) (name : String) :
    (Mention.named name (env.source name)).Placed := by
  unfold Env.source
  split_ifs
  · exact .inr (by decide)
  · exact .inr (by decide)
  · exact .inr (by decide)
  · exact .inl (keeps_place env name)

lemma Computes.placed {env : Env} {inside : Bool} {t : Term} {lines : List Line} {value : String}
    (h : Computes env inside t lines value uses) : ∀ mention ∈ uses, mention.Placed := by
  induction h with
  | named => exact forall_mem_singleton.mpr (placed_source env _)
  | _ => simp_all [or_imp, Mention.Placed]

/-- The place that a line sets. -/
def Directive.target? : Directive → Option Place
  | .assign binder _ | .forEach binder _ =>
    some (.template (String.ofList (binder.toList.drop 1)))
  | .stash name _ => some (.stash name)
  | _ => none

/-- What a template sets: a local in its place, or something of its own. -/
inductive Held (locals : List String) (uses : List Mention) : Place → Prop
  | named {name : String} {place : Place} (hname : name ∈ locals) (h : .named name place ∈ uses) :
      Held locals uses place
  | temporary {owner : NodeId} {number : Nat} (h : .temporary owner number ∈ uses) :
      Held locals uses (.template ("v" ++ toString number))
  | counter (number : Nat) : Held locals uses (.template ("__loop" ++ toString number))
  | result : Held locals uses (.template "__result")
  | slot {name : String} (h : name ∈ [returnFlag, returnValue]) : Held locals uses (.stash name)

/-- A line sets only places of locals that are made use of, and the template's own. -/
def Binds (locals : List String) (uses : List Mention) (directive : Directive) : Prop :=
  ∀ place, directive.target? = some place → Held locals uses place

section Binds

variable {locals : List String} {uses others : List Mention} {lines : List Line} {name : String}

variable {directive : Directive} {place : Place}

lemma binds_of_target?_none (h : directive.target? = none) : Binds locals uses directive :=
  fun place hplace => by simp [h] at hplace

lemma binds_of_target? (h : directive.target? = some place) (hplace : Held locals uses place) :
    Binds locals uses directive := fun place' hplace' => by
  rwa [← Option.mem_unique h hplace']

lemma target?_assign (name value : String) :
    (Directive.assign ("$" ++ name) value).target? = some (.template name) := by
  simp [Directive.target?]

lemma target?_forEach (name source : String) :
    (Directive.forEach ("$" ++ name) source).target? = some (.template name) := by
  simp [Directive.target?]

lemma Held.mono (h : Held locals uses place) (hsub : uses ⊆ others) : Held locals others place := by
  cases h with
  | named hname h => exact .named hname (hsub h)
  | temporary h => exact .temporary (hsub h)
  | counter number => exact .counter number
  | result => exact .result
  | slot h => exact .slot h

lemma AllLines.widen (h : AllLines (Binds locals uses) lines) (hsub : uses ⊆ others) :
    AllLines (Binds locals others) lines :=
  h.imp fun _ hbinds place hplace => (hbinds place hplace).mono hsub

lemma temporaryVariable_eq (number : Nat) :
    temporaryVariable number = "$" ++ ("v" ++ toString number) := by
  rw [temporaryVariable, ← String.append_assoc]
  rfl

lemma binds_of_computing (h : AllLines (Computing uses) lines) :
    AllLines (Binds locals uses) lines := by
  refine h.imp fun directive hcomputing => ?_
  cases hcomputing with
  | hold value h =>
    rw [temporaryVariable_eq]
    exact binds_of_target? (target?_assign _ _) (.temporary h)
  | _ => exact binds_of_target?_none rfl

end Binds

end Template

namespace Pipeline

open ServiceFlow.Template

variable {locals : List String} {uses : List Mention} {lines : List Line} {env : Env} {t : Term}

lemma binds_stash {name : String} (h : name ∈ [returnFlag, returnValue]) (value : String) :
    Binds locals uses (.stash name value) := binds_of_target? rfl (.slot h)

lemma binds_recordReturn (value : String) : AllLines (Binds locals uses) (recordReturn value) :=
  .cons (binds_stash (by simp) _) (.line (binds_stash (by simp) _))

lemma binds_responseCheck (op : ServiceOp) : AllLines (Binds locals uses) (responseCheck op) := by
  have hfault : AllLines (Binds locals uses) (ifBlock "$context.error"
      [textLine "$util.error($context.error.message, $context.error.type)"]) :=
    .cons (binds_of_target?_none rfl) (.append (.nest (.line (binds_of_target?_none rfl)))
      (.line (binds_of_target?_none rfl)))
  cases op with
  | startExecution sync =>
    have hresult : Binds locals uses
        (.assign "$__result" "$util.parseJson($context.result.body)") :=
      binds_of_target? (target?_assign "__result" _) .result
    exact .cons (binds_of_target?_none rfl) (.append (.append (.append (.nest (.line hresult))
      (.line (binds_of_target?_none rfl))) (.nest (.line (binds_of_target?_none rfl))))
      (.line (binds_of_target?_none rfl)))
  | _ => exact hfault

lemma binds_of_text (h : AllLines IsText lines) : AllLines (Binds locals uses) lines := by
  refine h.imp fun directive htext => ?_
  obtain ⟨text, rfl⟩ := htext
  exact binds_of_target?_none rfl

variable {branches : Bool}

lemma Performs.binds {root : Term} (h : Performs env branches t lines uses)
    (ht : t ∈ root.subtrees) : AllLines (Binds root.locals uses) lines := by
  induction h with
  | nil | noBranch => exact .nil
  | append _ _ ih ih' =>
    exact ((ih ht).widen (subset_append_left ..)).append ((ih' ht).widen (subset_append_right ..))
  | within hs _ ih => exact ih (subtrees_subset ht hs)
  | evaluate h => exact binds_of_computing h.allComputing
  | @assign env id name initializer lines value uses h =>
    refine .append (binds_of_computing (h.allComputing.mono (subset_append_left ..))) ?_
    have hlocal : name ∈ root.locals := mem_append_left _ (mem_declared ht)
    have hheld : Held root.locals (uses ++ [.named name (env.place name)]) (env.place name) :=
      .named hlocal (mem_append_right _ mem_cons_self)
    unfold Env.assign Env.place at *
    split_ifs at hheld ⊢
    · exact .line (binds_of_target? (target?_assign _ _) hheld)
    · exact .line (binds_of_target? rfl hheld)
  | run h | yield _ h | shown _ h =>
    exact .append (binds_of_computing h.allComputing) (.line (binds_of_target?_none rfl))
  | record h => exact .append (binds_of_computing h.allComputing) (binds_recordReturn _)
  | recorded hrun h =>
    exact .append (.append (binds_of_computing h.allComputing) (binds_recordReturn _))
      (.line (binds_of_target?_none rfl))
  | plain | leave => exact .line (binds_of_target?_none rfl)
  | branch h _ _ ih ih' =>
    refine .append (.append (.append ((binds_of_computing h.allComputing).widen ?_) ?_) ?_)
      (.line (binds_of_target?_none rfl))
    · simp
    · refine .cons (binds_of_target?_none rfl) (.nest ((ih ht).widen fun mention hmem => ?_))
      exact mem_append_left _ (mem_append_right _ hmem)
    · exact (ih' ht).widen (subset_append_right ..)
  | elseIf h _ _ ih ih' =>
    refine .append (.cons (binds_of_target?_none rfl) (.nest ((ih ht).widen fun mention hmem => ?_)))
      ((ih' ht).widen (subset_append_right ..))
    exact mem_append_left _ (mem_append_right _ hmem)
  | otherwise _ ih => exact .cons (binds_of_target?_none rfl) (ih ht).nest
  | loop counter _ ih =>
    have hname : "$__loop" ++ toString counter = "$" ++ ("__loop" ++ toString counter) := by
      rw [← String.append_assoc]
      rfl
    rw [hname]
    exact .append (.cons (binds_of_target? (target?_forEach _ _) (.counter counter))
      (ih ht).nest) (.line (binds_of_target?_none rfl))
  | @forEach _ t _ _ name _ _ _ _ hname _ h _ ih =>
    refine .append (.append ((binds_of_computing h.allComputing).widen
      (subset_append_left ..)) (.cons ?_ ?_))
      (.line (binds_of_target?_none rfl))
    · have hlocal : name ∈ root.locals :=
        mem_append_right _ (mem_filterMap.mpr ⟨t, ht, hname⟩)
      exact binds_of_target? (target?_forEach _ _)
        (.named hlocal (mem_append_right _ mem_cons_self))
    · exact ((ih ht).widen fun mention hmem =>
        mem_append_right _ (mem_cons_of_mem _ hmem)).nest
  | request hcall hoperation h =>
    exact .append (binds_of_computing h.allComputing)
      (binds_of_text (allText_braced (allText_separated _) _ _))
  | execution sync hcall h =>
    exact .append (binds_of_computing h.allComputing)
      (binds_of_text (allText_executionDocument _ _ _ _))
  | check op => exact binds_responseCheck op

lemma Fills.placed {call : ServiceCall} {fields : List String}
    (h : Fills env t call lines fields uses) : ∀ mention ∈ uses, mention.Placed := by
  induction h with
  | nil => simp
  | cons hkey h rest ih => exact forall_mem_append.mpr ⟨h.placed, ih⟩

lemma Performs.placed (h : Performs env branches t lines uses) :
    ∀ mention ∈ uses, mention.Placed := by
  induction h with
  | nil | plain | leave | noBranch | check => simp
  | append _ _ ih ih' => exact forall_mem_append.mpr ⟨ih, ih'⟩
  | within _ _ ih | otherwise _ ih | loop _ _ ih => exact ih
  | evaluate h | run h | yield _ h | record h | recorded _ h | shown _ h | execution _ _ h
  | request _ _ h =>
    exact h.placed
  | assign h =>
    refine forall_mem_append.mpr ⟨h.placed, forall_mem_singleton.mpr ?_⟩
    exact .inl (keeps_place _ _)
  | branch h _ _ ih ih' | elseIf h _ _ ih ih' =>
    exact forall_mem_append.mpr ⟨forall_mem_append.mpr ⟨h.placed, ih⟩, ih'⟩
  | forEach _ _ h _ ih =>
    exact forall_mem_append.mpr ⟨h.placed, forall_mem_cons.mpr ⟨.inl rfl, ih⟩⟩

lemma WritesTemplate.binds (h : WritesTemplate env t lines uses) :
    AllLines (Binds t.locals uses) lines := by
  cases h with
  | whole hmode h => exact h.binds (self_mem_subtrees t)
  | guarded hmode h =>
    refine .append (.cons ?_ (.append (.nest (.line ?_)) (.line ?_)))
      (h.binds (self_mem_subtrees t))
    all_goals exact binds_of_target?_none rfl

lemma WritesTemplate.placed (h : WritesTemplate env t lines uses) :
    ∀ mention ∈ uses, mention.Placed := by
  cases h with
  | whole hmode h | guarded hmode h => exact h.placed

lemma WritesLayout.placed {calls : List StageCall} {layout : Layout} {table : List (List Mention)}
    (h : WritesLayout env t calls layout table) : ∀ mention ∈ table.flatten, mention.Placed := by
  intro mention hmem
  obtain ⟨uses, huses, hmem⟩ := mem_flatten.mp hmem
  obtain ⟨i, hi, rfl⟩ := getElem_of_mem huses
  exact (h.templates.get (h.templates.length_eq ▸ hi) hi).placed mention hmem

/-- Locals are bound in their own places. -/
structure PlacesLocals (t : Term) (layout : Layout) (table : List (List Mention)) : Prop where
  binds : List.Forall₂ (fun lines uses => AllLines (Binds t.locals uses) lines)
    layout.templates table
  placed : ∀ mention ∈ table.flatten, mention.Placed
  hygienic : Hygienic t.locals table.flatten ↔ Separated t.locals table.flatten

/-- The templates of a pipeline set locals in places of their names, and places of their own. No
local has one of the latter, and no two locals have the same place, if and only if the names of the
locals are separated, with dollar signs and underscores not told apart. -/
theorem compile_places_locals {program : Program} {ns ns' : Namespace} {pipeline : Pipeline}
    (h : (compile program).run.run ns = (.ok pipeline, ns')) :
    ∃ t parameters block body layout table, program.term = .ok t ∧
      t.functionParts = .ok (parameters, block, body) ∧ layoutOf program = .ok layout ∧
      layout.Renders pipeline ∧
      WritesLayout (envOf program parameters) t (body.filterMap (callOf? program.registry)) layout
        table ∧
      PlacesLocals t layout table := by
  obtain ⟨layout, hlayout, hrenders⟩ := exists_layout h
  obtain ⟨t, parameters, block, body, table, count, hterm, hparts, hwrites, -⟩ :=
    exists_writesLayout hlayout
  exact ⟨t, parameters, block, body, layout, table, hterm, hparts, hlayout, hrenders, hwrites,
    hwrites.templates.imp fun _ _ => WritesTemplate.binds, hwrites.placed,
    hygienic_iff_separated hwrites.placed _⟩

/-- A function with a local that is named like a temporary, and two locals whose names become the
same. -/
def crowding : SyntaxTree :=
  let member := Tree.member (.ident "context")
  .function [.param "context"]
    [.set "v0" (member "a"), .set "a$b" (member "c"), .set "a_b" (member "d"),
      .give (.mk () (.binaryExpr (.ident "v0") .add
        (.choose (member "b") (.mk () .nullLiteral) (.ident "a$b"))))]

theorem compile_places_locals_crowding : ∃ root f pipeline ns t layout table,
    Forest.ofTree crowding = .ok (root, f) ∧
    (compile (auditedProgram f root)).run.run .empty = (.ok pipeline, ns) ∧
    (auditedProgram f root).term = .ok t ∧ t.locals = ["v0", "a$b", "a_b"] ∧
    layout.Renders pipeline ∧ PlacesLocals t layout table := by
  obtain ⟨root, f, pipeline, ns, hf, hcompile, hchecked⟩ :=
    exists_compiled compile auditedProgram crowding (fun program _ =>
      program.term.toOption.any fun t : Term => t.locals == ["v0", "a$b", "a_b"])
      (by decide +kernel)
  obtain ⟨t, parameters, block, body, layout, table, hterm, -, -, hrenders, -, hplaces⟩ :=
    compile_places_locals hcompile
  simp only [hterm, Except.toOption, Option.any_some, beq_iff_eq] at hchecked
  exact ⟨root, f, pipeline, ns, t, layout, table, hf, hcompile, hterm, hchecked, hrenders, hplaces⟩

/-- The local `v0` is lost when a temporary takes its variable, and two locals share one. -/
theorem variables_shared_by_locals : ∃ root f pipeline ns layout lines,
    Forest.ofTree crowding = .ok (root, f) ∧
    (compile (auditedProgram f root)).run.run .empty = (.ok pipeline, ns) ∧
    layoutOf (auditedProgram f root) = .ok layout ∧ layout.Renders pipeline ∧
    lines ∈ layout.templates ∧ (lines.map Line.directive).take 8 =
      [.assign "$v0" "$context.a", .assign "$a_b" "$context.c", .assign "$a_b" "$context.d",
        .openIf "$context.b", .assign "$v0" "$null", .openElse, .assign "$v0" "$a_b", .close] := by
  obtain ⟨root, f, pipeline, ns, hf, hcompile, hchecked⟩ :=
    exists_compiled compile auditedProgram crowding (fun program _ =>
      (layoutOf program).toOption.any fun layout => layout.templates.any fun lines =>
        (lines.map Line.directive).take 8 ==
          [.assign "$v0" "$context.a", .assign "$a_b" "$context.c", .assign "$a_b" "$context.d",
            .openIf "$context.b", .assign "$v0" "$null", .openElse, .assign "$v0" "$a_b", .close])
      (by decide +kernel)
  obtain ⟨layout, hlayout, hrenders⟩ := exists_layout hcompile
  simp only [hlayout, Except.toOption, Option.any_some, any_eq_true, beq_iff_eq] at hchecked
  obtain ⟨lines, hlines, htaken⟩ := hchecked
  exact ⟨root, f, pipeline, ns, layout, lines, hf, hcompile, hlayout, hrenders, hlines, htaken⟩

end Pipeline

end ServiceFlow
