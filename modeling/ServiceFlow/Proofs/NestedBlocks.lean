import ServiceFlow.Proofs.WrittenStatements

/-!
# Nested blocks

`Balanced` keeps the blocks that are open. What a line does is read off its text, so no value that
is written into a line can open or close a block.
-/

namespace ServiceFlow.Template

open List

/-- What a line does to the open blocks. -/
inductive Role where
  | openIf
  | elseIf
  | openElse
  | openLoop
  | close
  | openBrace
  | closeBrace
  | plain
deriving DecidableEq, Repr

/-- The text begins with the other one. -/
def begins (start text : String) : Bool := start.toList.isPrefixOf text.toList

/-- The role of a line, read off its text. -/
def Role.of (text : String) : Role :=
  if begins "#if" text then .openIf
  else if begins "#elseif" text then .elseIf
  else if begins "#else" text then .openElse
  else if begins "#foreach" text then .openLoop
  else if begins "#end" text then .close
  else if text.toList.getLast? = some '\x7b' then .openBrace
  else if begins "\x7d" text then .closeBrace
  else .plain

/-- A block that is open. -/
inductive Block where
  /-- An if block, in its else branch or before it. -/
  | branches (last : Bool)
  | loop
  | braces
deriving DecidableEq, Repr

/-- The blocks after a line, if it is indented by those around it. -/
def Line.inside (l : Line) (around next : List Block) : Option (List Block) :=
  if l.depth = around.length then some next else none

/-- The open blocks after a line of a role, innermost first; none if it cannot stand there. -/
def Line.move (l : Line) : Role → List Block → Option (List Block)
  | .openIf, around => l.inside around (.branches false :: around)
  | .elseIf, .branches false :: outer => l.inside outer (.branches false :: outer)
  | .openElse, .branches false :: outer => l.inside outer (.branches true :: outer)
  | .openLoop, around => l.inside around (.loop :: around)
  | .close, .branches _ :: outer => l.inside outer outer
  | .close, .loop :: outer => l.inside outer outer
  | .openBrace, around => l.inside around (.braces :: around)
  | .closeBrace, .braces :: outer => l.inside outer outer
  | .plain, around => l.inside around around
  | _, _ => none

/-- The blocks that are open after a line. -/
def Line.advance (around : List Block) (l : Line) : Option (List Block) :=
  l.move (Role.of l.directive.render) around

/-- All blocks that are opened are closed, and every line stands where it may. -/
def Balanced (lines : List Line) : Prop := lines.foldlM Line.advance [] = some []

instance (lines : List Line) : Decidable (Balanced lines) :=
  inferInstanceAs (Decidable (lines.foldlM Line.advance [] = some []))

section Roles

lemma role_openIf (condition : String) : Role.of (Directive.openIf condition).render = .openIf := by
  simp [Role.of, begins, Directive.render]

lemma role_elseIf (condition : String) : Role.of (Directive.elseIf condition).render = .elseIf := by
  simp [Role.of, begins, Directive.render, isPrefixOf]

lemma role_openElse : Role.of Directive.openElse.render = .openElse := by decide

lemma role_forEach (binder source : String) :
    Role.of (Directive.forEach binder source).render = .openLoop := by
  simp [Role.of, begins, Directive.render, isPrefixOf]

lemma role_close : Role.of Directive.close.render = .close := by decide

variable {c : Char}

lemma head?_toList_append {first : String} (h : first.toList.head? = some c) (text : String) :
    (first ++ text).toList.head? = some c := by
  rw [String.toList_append, head?_append, h, Option.some_or]

lemma getLast?_toList_append {last : String} (h : last.toList.getLast? = some c) (text : String) :
    (text ++ last).toList.getLast? = some c := by
  rw [String.toList_append, getLast?_append, h, Option.some_or]

lemma role_of_ends {text : String} {c' : Char} (hfirst : text.toList.head? = some c)
    (hlast : text.toList.getLast? = some c') (hc : c ∈ ['$', '"', '\x7b'])
    (hc' : c' ∈ [')', '"', ',', '\x7d']) : Role.of text = .plain := by
  obtain ⟨rest, htext⟩ := head?_eq_some_iff.mp hfirst
  have hbrace : c' ≠ '\x7b' := by
    rintro rfl
    revert hc'
    decide
  have hne : '#' ≠ c ∧ '\x7d' ≠ c := by
    constructor <;> · rintro rfl; revert hc; decide
  rw [Role.of, hlast]
  simp [begins, htext, isPrefixOf, hne, hbrace]

lemma role_assign (binder value : String) :
    Role.of (Directive.assign binder value).render = .plain := by
  have hlast := getLast?_toList_append (show ")".toList.getLast? = some ')' by rfl)
    ("#set(" ++ binder ++ " = " ++ value)
  rw [Role.of, Directive.render, hlast]
  simp [begins, isPrefixOf]

lemma role_yield (value : String) : Role.of (Directive.yield value).render = .plain := by
  have hlast := getLast?_toList_append (show ")".toList.getLast? = some ')' by rfl)
    ("#return(" ++ value)
  rw [Role.of, Directive.render, hlast]
  simp [begins, isPrefixOf]

lemma role_leave : Role.of Directive.leave.render = .plain := by decide

lemma role_run (value : String) : Role.of (Directive.run value).render = .plain :=
  role_of_ends (head?_toList_append (head?_toList_append rfl _) _) (getLast?_toList_append rfl _)
    (by decide) (by decide)

lemma role_stash (slot value : String) :
    Role.of (Directive.stash slot value).render = .plain := role_run _

end Roles

/-- Lines that form blocks. The flag tells whether they are the branches of an if block after the
first one. -/
inductive Nested : Bool → List Line → Prop
  | nil : Nested false []
  | append {lines more} (h : Nested false lines) (h' : Nested false more) :
      Nested false (lines ++ more)
  | plain {directive} (h : Role.of directive.render = .plain) : Nested false [line directive]
  | branches {body rest} (condition : String) (hbody : Nested false body)
      (hrest : Nested true rest) :
      Nested false (line (.openIf condition) :: nest body ++ rest ++ [line .close])
  | noBranch : Nested true []
  | elseIf {body rest} (condition : String) (hbody : Nested false body) (hrest : Nested true rest) :
      Nested true (line (.elseIf condition) :: nest body ++ rest)
  | otherwise {body} (h : Nested false body) : Nested true (line .openElse :: nest body)
  | loop {body} (binder source : String) (h : Nested false body) :
      Nested false (line (.forEach binder source) :: nest body ++ [line .close])
  | braces {opening closing body} (hopening : Role.of opening = .openBrace)
      (hclosing : Role.of closing = .closeBrace) (h : Nested false body) :
      Nested false (textLine opening :: nest body ++ [textLine closing])

variable {body lines : List Line} {around after : List Block}

lemma Nested.ifBlock (condition : String) (h : Nested false body) :
    Nested false (ifBlock condition body) := by
  have hblock := Nested.branches condition h .noBranch
  rwa [append_nil] at hblock

/-- Lines indented further. -/
def sink (levels : Nat) (lines : List Line) : List Line :=
  lines.map fun l => { l with depth := l.depth + levels }

lemma sink_zero (lines : List Line) : sink 0 lines = lines := by
  simp [sink]

lemma sink_append (levels : Nat) (lines more : List Line) :
    sink levels (lines ++ more) = sink levels lines ++ sink levels more := map_append

lemma sink_nest (levels : Nat) (lines : List Line) :
    sink levels (nest lines) = sink (levels + 1) lines := by
  simp only [sink, nest, map_map, Function.comp_def, Nat.add_assoc, Nat.add_comm 1]

lemma sink_cons (levels : Nat) (l : Line) (lines : List Line) :
    sink levels (l :: lines) = sink levels [l] ++ sink levels lines := rfl

/-- The blocks that are open after some lines. -/
def Reads (around : List Block) (lines : List Line) (after : List Block) : Prop :=
  lines.foldlM Line.advance around = some after

lemma Reads.append {between : List Block} {more : List Line} (h : Reads around lines between)
    (h' : Reads between more after) : Reads around (lines ++ more) after := by
  unfold Reads at *
  rw [foldlM_append, h]
  exact h'

lemma reads_line {outer : List Block} {directive : Directive} {role : Role}
    (hrole : Role.of directive.render = role)
    (h : ∀ l : Line, l.move role around = l.inside outer after) :
    Reads around (sink outer.length [line directive]) after := by
  have hread : Line.advance around ⟨outer.length, directive⟩ = some after := by
    rw [Line.advance, hrole, h, Line.inside, if_pos rfl]
  simp [Reads, sink, line, hread]

/-- Nested lines leave the open blocks as they were; branches leave an if block open. -/
def Fits : Bool → List Line → Prop
  | false, lines => ∀ outer : List Block, Reads outer (sink outer.length lines) outer
  | true, lines => ∀ outer : List Block, ∃ last,
    Reads (.branches false :: outer) (sink outer.length lines) (.branches last :: outer)

lemma Fits.nest (h : Fits false body) (block : Block) (outer : List Block) :
    Reads (block :: outer) (sink outer.length (nest body)) (block :: outer) := by
  rw [sink_nest]
  exact h (block :: outer)

lemma fits_block (block : Block) {opening closing : Directive} {start stop : Role}
    (hopening : Role.of opening.render = start) (hbody : Fits false body)
    (hclosing : Role.of closing.render = stop)
    (hstart : ∀ (l : Line) outer, l.move start outer = l.inside outer (block :: outer))
    (hstop : ∀ (l : Line) outer, l.move stop (block :: outer) = l.inside outer outer) :
    Fits false (line opening :: nest body ++ [line closing]) := by
  intro outer
  rw [sink_append, sink_cons]
  exact ((reads_line hopening fun l => hstart l outer).append (hbody.nest block outer)).append
    (reads_line hclosing fun l => hstop l outer)

lemma Nested.fits {branches : Bool} (h : Nested branches lines) : Fits branches lines := by
  induction h with
  | nil => exact fun outer => rfl
  | append h h' ih ih' =>
    intro outer
    rw [sink_append]
    exact (ih outer).append (ih' outer)
  | plain h => exact fun outer => reads_line h fun l => rfl
  | branches condition hbody hrest ih ih' =>
    intro outer
    obtain ⟨last, hread⟩ := ih' outer
    rw [sink_append, sink_append, sink_cons]
    exact (((reads_line (role_openIf condition) fun l => rfl).append
      (ih.nest (.branches false) outer)).append hread).append (reads_line role_close fun l => rfl)
  | noBranch => exact fun outer => ⟨false, rfl⟩
  | elseIf condition hbody hrest ih ih' =>
    intro outer
    obtain ⟨last, hread⟩ := ih' outer
    refine ⟨last, ?_⟩
    rw [sink_append, sink_cons]
    exact ((reads_line (role_elseIf condition) fun l => rfl).append
      (ih.nest (.branches false) outer)).append hread
  | otherwise h ih =>
    intro outer
    refine ⟨true, ?_⟩
    rw [sink_cons]
    exact (reads_line role_openElse fun l => rfl).append (ih.nest (.branches true) outer)
  | loop binder source h ih =>
    exact fits_block .loop (role_forEach binder source) ih role_close (fun _ _ => rfl)
      fun _ _ => rfl
  | braces hopening hclosing h ih =>
    exact fits_block .braces hopening ih hclosing (fun _ _ => rfl) fun _ _ => rfl

lemma Nested.balanced (h : Nested false lines) : Balanced lines := by
  have hread := h.fits []
  rwa [length_nil, sink_zero] at hread

lemma nested_assign (binder value : String) : Nested false [line (.assign binder value)] :=
  .plain (role_assign binder value)

lemma nested_run (value : String) : Nested false [line (.run value)] := .plain (role_run value)

lemma Computes.nested {env : Env} {inside : Bool} {t : Term} {value : String}
    {uses : List Mention} (h : Computes env inside t lines value uses) : Nested false lines := by
  induction h with
  | fixed | constant | quoted | named | safe => exact .nil
  | within _ _ ih | before _ _ ih | after _ _ ih | chain _ _ ih => exact ih
  | braced _ ih | interpolation _ ih => exact ih
  | pair _ _ _ ih ih' | append _ _ ih ih' => exact .append ih ih'
  | hold number _ ih => exact .append ih (nested_assign _ _)
  | override number _ _ _ ih ih' =>
    refine .append ih (.append (nested_assign _ _) (.ifBlock _ ?_))
    exact .append ih' (nested_assign _ _)
  | @conditional _ _ _ _ lines _ _ _ _ _ _ _ _ number _ _ _ ih ihYes ihNo =>
    rw [append_assoc lines, append_assoc lines]
    refine .append ih (.branches _ ?_ (.otherwise ?_))
    · exact .append ihYes (nested_assign _ _)
    · exact .append ihNo (nested_assign _ _)
  | start number _ _ => exact nested_assign _ _
  | add _ _ _ ih ih' => exact .append (.append ih ih') (nested_run _)

end ServiceFlow.Template

namespace ServiceFlow.Pipeline

open ServiceFlow.Template List

lemma nested_text {text : String} {c c' : Char} (hfirst : text.toList.head? = some c)
    (hlast : text.toList.getLast? = some c') (hc : c ∈ ['$', '"', '\x7b'])
    (hc' : c' ∈ [')', '"', ',', '\x7d']) : Nested false [textLine text] :=
  .plain (role_of_ends hfirst hlast hc hc')

lemma head?_field (key value : String) : (field key value).toList.head? = some '"' := by
  simp [field, Json.quote]

lemma getLast?_quote (text : String) : (Json.quote text).toList.getLast? = some '"' := by
  simp [Json.quote, getLast?_cons]

lemma getLast?_keyValueField (key value : String) :
    (keyValueField key value).toList.getLast? = some ')' := by
  refine getLast?_toList_append ?_ _
  split_ifs
  · exact getLast?_toList_append rfl _
  · exact getLast?_toList_append rfl _

lemma nested_separated {texts : List String} (h : ∀ text ∈ texts, text.toList.head? = some '"' ∧
    ∃ c ∈ [')', '"'], text.toList.getLast? = some c) : Nested false (separated texts) := by
  fun_induction separated texts with
  | case1 => exact .nil
  | case2 last =>
    obtain ⟨hfirst, c, hc, hlast⟩ := h last mem_cons_self
    exact nested_text hfirst hlast (by decide) (mem_append_left _ hc)
  | case3 text rest hne ih =>
    obtain ⟨hfirst, -⟩ := h text mem_cons_self
    have hline : Nested false [textLine (text ++ ",")] :=
      nested_text (head?_toList_append hfirst _) (getLast?_toList_append rfl _) (by decide)
        (by decide)
    exact hline.append (ih fun text ht => h text (mem_cons_of_mem _ ht))

lemma nested_fieldLine (key value : String) : Nested false [textLine (field key value ++ ",")] :=
  nested_text (head?_toList_append (head?_field key value) _) (getLast?_toList_append rfl _)
    (by decide) (by decide)

lemma nested_document {body : List Line} (h : Nested false body) : Nested false (document body) :=
  .braces (by decide) (by decide) h

variable {env : Env} {t : Term} {lines : List Line} {uses : List Mention}

lemma ends_of_fills {call : ServiceCall} {fields : List String}
    (h : Fills env t call lines fields uses) :
    Nested false lines ∧ ∀ text ∈ fields, text.toList.head? = some '"' ∧
      ∃ c ∈ [')', '"'], text.toList.getLast? = some c := by
  induction h with
  | nil => exact ⟨.nil, by simp⟩
  | cons hkey h rest ih =>
    refine ⟨.append h.nested ih.1, forall_mem_cons.mpr ⟨⟨head?_field _ _, ')', ?_⟩, ih.2⟩⟩
    exact ⟨by decide, getLast?_keyValueField _ _⟩

lemma ends_quotedField (key text : String) :
    (field key (Json.quote text)).toList.head? = some '"' ∧
      ∃ c ∈ [')', '"'], (field key (Json.quote text)).toList.getLast? = some c :=
  ⟨head?_field _ _, '"', by decide, getLast?_toList_append (getLast?_quote text) _⟩

lemma nested_executionDocument (version target machine input : String) :
    Nested false (executionDocument version target machine input) := by
  have hinput : (field "input" (asJson (asJson input))).toList.getLast? = some ')' :=
    getLast?_toList_append (getLast?_toList_append rfl _) _
  have hfields : Nested false
      [textLine (versionField version ++ ","),
        textLine (field "method" (Json.quote "POST") ++ ","),
        textLine (field "resourcePath" (Json.quote "/") ++ ",")] :=
    (nested_fieldLine _ _).append ((nested_fieldLine _ _).append (nested_fieldLine _ _))
  refine nested_document (hfields.append (.braces (by decide) (by decide)
    (.append (.braces (by decide) (by decide) ?_) (.braces (by decide) (by decide) ?_))))
  · refine nested_separated (forall_mem_cons.mpr ⟨ends_quotedField _ _, ?_⟩)
    exact forall_mem_singleton.mpr (ends_quotedField _ _)
  · refine nested_separated (forall_mem_cons.mpr ⟨ends_quotedField _ _, ?_⟩)
    exact forall_mem_singleton.mpr ⟨head?_field _ _, ')', by decide, hinput⟩

lemma nested_responseCheck (op : ServiceOp) : Nested false (responseCheck op) := by
  have hfault : Nested false (ifBlock "$context.error"
      [textLine "$util.error($context.error.message, $context.error.type)"]) :=
    .ifBlock _ (.plain (by decide))
  cases op with
  | startExecution sync =>
    exact .branches _ (nested_assign _ _) (.otherwise (.plain (by decide)))
  | _ => exact hfault

lemma nested_recordReturn (value : String) : Nested false (recordReturn value) :=
  .append (.plain (role_stash _ _)) (.plain (role_stash _ _))

lemma nested_returnGuard : Nested false returnGuard := .ifBlock _ (.plain (role_yield _))

lemma Performs.nested {branches : Bool} (h : Performs env branches t lines uses) :
    Nested branches lines := by
  induction h with
  | nil => exact .nil
  | append _ _ ih ih' => exact .append ih ih'
  | within _ _ ih => exact ih
  | evaluate h => exact h.nested
  | @assign env _ name _ lines value _ h =>
    refine .append h.nested ?_
    unfold Env.assign
    split_ifs
    · exact nested_assign _ _
    · exact .plain (role_stash _ _)
  | run h => exact .append h.nested (nested_run _)
  | yield _ h => exact .append h.nested (.plain (role_yield _))
  | record h => exact .append h.nested (nested_recordReturn _)
  | recorded hrun h =>
    exact .append (.append h.nested (nested_recordReturn _)) (.plain (role_yield _))
  | shown hfunction h =>
    refine .append h.nested ?_
    simp only [mem_cons, not_mem_nil, or_false] at hfunction
    rcases hfunction with rfl | rfl
    · exact nested_text (head?_toList_append (head?_toList_append rfl _) _)
        (getLast?_toList_append rfl _) (by decide) (by decide)
    · exact nested_text (head?_toList_append (head?_toList_append rfl _) _)
        (getLast?_toList_append rfl _) (by decide) (by decide)
  | plain h =>
    simp only [mem_cons, not_mem_nil, or_false] at h
    rcases h with rfl | rfl
    · exact .plain (by decide)
    · exact nested_text (head?_toList_append (head?_toList_append rfl _) _)
        (getLast?_toList_append rfl _) (by decide) (by decide)
  | leave => exact .plain role_leave
  | @branch _ _ lines _ _ _ _ _ _ h _ _ ih ih' =>
    rw [append_assoc lines, append_assoc lines]
    exact .append h.nested (.branches _ ih ih')
  | noBranch => exact .noBranch
  | elseIf h _ _ ih ih' => exact .elseIf _ ih ih'
  | otherwise _ ih => exact .otherwise ih
  | loop counter _ ih => exact .loop _ _ ih
  | @forEach _ _ lines _ _ _ _ _ _ _ _ h _ ih =>
    rw [append_assoc lines]
    exact .append h.nested (.loop _ _ ih)
  | request hcall hoperation h =>
    obtain ⟨hlines, hfields⟩ := ends_of_fills h
    refine .append hlines (nested_document (nested_separated ?_))
    exact forall_mem_cons.mpr ⟨ends_quotedField _ _,
      forall_mem_cons.mpr ⟨ends_quotedField _ _, hfields⟩⟩
  | execution sync hcall h => exact .append h.nested (nested_executionDocument _ _ _ _)
  | check op => exact nested_responseCheck op

lemma WritesTemplate.nested (h : WritesTemplate env t lines uses) : Nested false lines := by
  cases h with
  | whole hmode h => exact h.nested
  | guarded hmode h => exact nested_returnGuard.append h.nested

/-- In every template of a pipeline each block that is opened is closed again, inside the block
around it; the branches of an if block stand directly in it, with at most one else, the last of
them; and each line stands as deep as there are blocks around it. -/
theorem templates_balanced {program : Program} {ns ns' : Namespace} {pipeline : Pipeline}
    (h : (compile program).run.run ns = (.ok pipeline, ns')) :
    ∃ layout, layoutOf program = .ok layout ∧ layout.Renders pipeline ∧
      ∀ lines ∈ layout.templates, Balanced lines := by
  obtain ⟨layout, hlayout, hrenders⟩ := exists_layout h
  obtain ⟨t, parameters, block, body, table, count, -, -, hwrites, -⟩ := exists_writesLayout hlayout
  refine ⟨layout, hlayout, hrenders, fun lines hlines => ?_⟩
  obtain ⟨uses, -, htemplate⟩ := hwrites.exists_writesTemplate lines hlines
  exact htemplate.nested.balanced

def sorting : SyntaxTree :=
  let flag := Tree.member (.ident "item")
  let inner : SyntaxTree := .mk () (.ifStmt (flag "late") (.mk () .breakStmt) (some (.mk ()
    (.ifStmt (.mk () (.binaryExpr (flag "heavy") .coalesce (flag "large")))
      (.set "kept" (flag "weight")) (some (.set "kept" (.mk () .nullLiteral)))))))
  .function [.param "context"] [.each "item" (.member (.ident "context") "items") inner,
    .give (.call (.ref "charge") [.ident "kept"])]

theorem templates_balanced_sorting : ∃ root f pipeline ns layout,
    Forest.ofTree sorting = .ok (root, f) ∧
    (compile (auditedProgram f root)).run.run .empty = (.ok pipeline, ns) ∧
    pipeline.stages.length = 1 ∧ layoutOf (auditedProgram f root) = .ok layout ∧
    layout.Renders pipeline ∧ ∀ lines ∈ layout.templates, Balanced lines := by
  obtain ⟨root, f, pipeline, ns, hf, hcompile, hlength⟩ :=
    exists_compiled compile auditedProgram sorting (fun _ pipeline => pipeline.stages.length == 1)
      (by decide +kernel)
  obtain ⟨layout, hlayout, hrenders, hbalanced⟩ := templates_balanced hcompile
  exact ⟨root, f, pipeline, ns, layout, hf, hcompile, beq_iff_eq.mp hlength, hlayout, hrenders,
    hbalanced⟩

end ServiceFlow.Pipeline