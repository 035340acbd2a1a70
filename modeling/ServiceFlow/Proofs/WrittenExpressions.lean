import ServiceFlow.Proofs.ComposedExpressions

/-!
# How expressions are written

`Computes` lists the ways in which the code of an expression is put together, with the temporaries
that were given out, in order, and the locals that are read.
-/

namespace ServiceFlow.Template

open ServiceFlow.Tree List

attribute [local simp] Tree.node Node.children

/-- Where a local lives: in a variable of the template, or in a slot of the stash. -/
inductive Place where
  | template (name : String)
  | stash (name : String)
deriving DecidableEq, Repr

/-- The text of a place. -/
def Place.text : Place → String
  | .template name => "$" ++ name
  | .stash name => "$context.stash." ++ name

/-- Where a local is kept. -/
def Env.place (env : Env) (name : String) : Place :=
  if env.isTemplateVariable name then .template (variableName name) else .stash (variableName name)

/-- Where a name is read. -/
def Env.source (env : Env) (name : String) : Place :=
  if name = utilName then .template "util"
  else if env.context = some name then .template "context"
  else if name = "undefined" then .template "null"
  else env.place name

/-- What code makes use of: a temporary given out for a node, or a name and its place. -/
inductive Mention where
  | temporary (owner : NodeId) (number : Nat)
  | named (name : String) (place : Place)
deriving DecidableEq, Repr

/-- The temporaries have ever greater numbers, from one count up to another. -/
def Gives : Nat → List Mention → Nat → Prop
  | low, [], high => low ≤ high
  | low, .temporary _ number :: rest, high => low ≤ number ∧ Gives (number + 1) rest high
  | low, .named _ _ :: rest, high => Gives low rest high

namespace Gives

variable {low mid high : Nat} {uses more : List Mention}

lemma le (h : Gives low uses high) : low ≤ high := by
  induction uses generalizing low with
  | nil => exact h
  | cons mention uses ih =>
    cases mention with
    | temporary owner number =>
      have hle := ih h.2
      have hlow := h.1
      omega
    | named name place => exact ih h

lemma append (h : Gives low uses mid) (hmore : Gives mid more high) :
    Gives low (uses ++ more) high := by
  induction uses generalizing low with
  | nil =>
    have hle : low ≤ mid := h
    clear h
    induction more generalizing mid with
    | nil => exact Nat.le_trans hle hmore
    | cons mention more ih =>
      cases mention with
      | temporary owner number => exact ⟨Nat.le_trans hle hmore.1, hmore.2⟩
      | named name place => exact ih hmore hle
  | cons mention uses ih =>
    cases mention with
    | temporary owner number => exact ⟨h.1, ih h.2⟩
    | named name place =>
      have hrest : Gives low (uses ++ more) high := ih h
      exact hrest

end Gives

/-- The variable of a temporary. -/
def temporaryVariable (number : Nat) : String := "$v" ++ toString number

/-- The marks of expressions. -/
def marks : List String :=
  ["(", ")", "[", "]", ", ", "!", "(0 - ", ".get(", "$util.toJson(", "$util.parseJson("]

/-- The fixed texts between the parts of an expression. -/
inductive Joint (t : Term) : String → Prop
  | mark {text} (h : text ∈ marks) : Joint t text
  | operator (op : BinaryOp) : Joint t (" " ++ operatorText op ++ " ")
  | member (name : String) : Joint t (member name)
  | method {id receiver name chained arguments}
      (h : t.node = .callExpr (.mk id (.propertyAccess receiver name chained)) arguments) :
      Joint t ("." ++ methodName name ++ "(")
  | key (key : String) : Joint t (quoted key ++ ": ")

def fixedValues : List String :=
  ["", null, "\x7b\x7d", "$context.result", "$__result", "$util.parseJson($__result.output)",
    "$context.stash.return__val"]

/-- The tests under which a temporary takes its second value. -/
def overrideTests (temp : String) : List String :=
  ["$util.isNull(" ++ temp ++ ")", temp, "!" ++ temp]

/-- Code that computes a value for a node: lines, and the text of the value. The flag tells whether
the text stands inside double quotes. -/
inductive Computes (env : Env) : Bool → Term → List Line → String → List Mention → Prop
  | fixed {t text} (h : text ∈ fixedValues) : Computes env false t [] text []
  | constant {t} (value : Constant) : Computes env false t [] (literal value) []
  | quoted {t} (text : String) : Computes env false t [] (quoted text) []
  | named {id name} : Computes env false (.mk id (.identifier name)) [] (env.source name).text
        [.named name (env.source name)]
  | within {inside t s lines value uses}
      (hs : s ∈ t.subtrees) (h : Computes env inside s lines value uses) :
      Computes env inside t lines value uses
  | before {t joint lines value uses}
      (hj : Joint t joint) (h : Computes env false t lines value uses) :
      Computes env false t lines (joint ++ value) uses
  | after {t joint lines value uses}
      (h : Computes env false t lines value uses) (hj : Joint t joint) :
      Computes env false t lines (value ++ joint) uses
  | pair {t joint lines more value other uses others}
      (h : Computes env false t lines value uses) (hj : Joint t joint)
      (h' : Computes env false t more other others) :
      Computes env false t (lines ++ more) (value ++ joint ++ other) (uses ++ others)
  | braced {t lines value uses} (h : Computes env false t lines value uses) :
      Computes env false t lines ("\x7b" ++ value ++ "\x7d") uses
  | safe {t text} (h : isSafeFragment text = true) : Computes env true t [] text []
  | append {t lines more value other uses others}
      (h : Computes env true t lines value uses) (h' : Computes env true t more other others) :
      Computes env true t (lines ++ more) (value ++ other) (uses ++ others)
  | chain {t lines value uses}
      (hchain : isReferenceChain value = true) (h : Computes env false t lines value uses) :
      Computes env true t lines (formal value) uses
  | hold {t lines value uses} (number : Nat) (h : Computes env false t lines value uses) :
      Computes env true t (lines ++ [line (.assign (temporaryVariable number) value)])
        (formal (temporaryVariable number)) (uses ++ [.temporary t.tag number])
  | interpolation {t lines value uses} (h : Computes env true t lines value uses) :
      Computes env false t lines ("\"" ++ value ++ "\"") uses
  | override {id left right op lines more value other test uses others} (number : Nat)
      (htest : test ∈ overrideTests (temporaryVariable number))
      (h : Computes env false left lines value uses)
      (h' : Computes env false right more other others) :
      Computes env false (.mk id (.binaryExpr left op right))
        (lines ++ line (.assign (temporaryVariable number) value) ::
          ifBlock test (more ++ [line (.assign (temporaryVariable number) other)]))
        (temporaryVariable number) (uses ++ .temporary id number :: others)
  | conditional {id test whenTrue whenFalse lines yes no value yesValue noValue uses yesUses noUses}
      (number : Nat)
      (h : Computes env false test lines value uses)
      (hyes : Computes env false whenTrue yes yesValue yesUses)
      (hno : Computes env false whenFalse no noValue noUses) :
      Computes env false (.mk id (.conditionalExpr test whenTrue whenFalse))
        (lines ++ line (.openIf value) ::
          nest (yes ++ [line (.assign (temporaryVariable number) yesValue)]) ++ line .openElse ::
          nest (no ++ [line (.assign (temporaryVariable number) noValue)]) ++ [line .close])
        (temporaryVariable number) (uses ++ .temporary id number :: (yesUses ++ noUses))
  | start {t empty} (number : Nat) (ht : t.kind = .arrayLiteral ∨
      t.kind = .objectLiteral) (h : empty ∈ ["[]", "\x7b\x7d"]) :
      Computes env false t [line (.assign (temporaryVariable number) empty)]
        (temporaryVariable number) [.temporary t.tag number]
  | add {t lines more value method uses others number}
      (hmethod : method ∈ [".add(", ".addAll(", ".put(", ".putAll("])
      (h : Computes env false t lines (temporaryVariable number) uses)
      (h' : Computes env false t more value others) : Computes env false t (lines ++ more ++
        [line (.run (temporaryVariable number ++ method ++ value ++ ")"))])
        (temporaryVariable number) (uses ++ others)

variable {env : Env} {t : Term} {lines : List Line} {value : String} {uses others : List Mention}

lemma Computes.parenthesized (h : Computes env false t lines value uses) :
    Computes env false t lines ("(" ++ value ++ ")") uses :=
  .after (.before (.mark (by decide)) h) (.mark (by decide))

/-- Lines and values of several expressions, in turn. -/
inductive ComputesAll (env : Env) (t : Term) : List Line → List String → List Mention → Prop
  | nil : ComputesAll env t [] [] []
  | cons {lines more value values uses others} (h : Computes env false t lines value uses)
      (rest : ComputesAll env t more values others) :
      ComputesAll env t (lines ++ more) (value :: values) (uses ++ others)

variable {values : List String} {entries : List (String × Term)} {registry : Registry}

lemma ComputesAll.listed (h : ComputesAll env t lines values uses) :
    Computes env false t lines (String.intercalate ", " values) uses := by
  induction h with
  | nil => exact .fixed (by decide)
  | @cons lines more value values uses others h rest ih =>
    cases rest with
    | nil =>
      rw [String.intercalate_singleton, append_nil, append_nil]
      exact h
    | cons =>
      rw [String.intercalate_cons_cons]
      exact .pair h (.mark (by decide)) ih

lemma ComputesAll.keyed (h : ComputesAll env t lines values uses)
    (hlength : values.length = entries.length) : ComputesAll env t lines
      ((entries.zip values).map fun p => quoted p.1.1 ++ ": " ++ p.2) uses := by
  induction h generalizing entries with
  | nil =>
    rw [zip_nil_right]
    exact .nil
  | cons h rest ih =>
    cases entries with
    | nil => cases hlength
    | cons entry entries => exact .cons (.before (.key entry.1) h) (ih (Nat.succ.inj hlength))

/-- Lines that add values to a temporary. -/
inductive Adds (env : Env) (t : Term) (number : Nat) : List Line → List Mention → Prop
  | nil : Adds env t number [] []
  | cons {lines more value method uses others}
      (hmethod : method ∈ [".add(", ".addAll(", ".put(", ".putAll("])
      (h : Computes env false t lines value uses) (rest : Adds env t number more others) :
      Adds env t number (lines ++
        line (.run (temporaryVariable number ++ method ++ value ++ ")")) :: more) (uses ++ others)

lemma Computes.addAll {number : Nat} {more : List Line} (hadds : Adds env t number more others)
    (h : Computes env false t lines (temporaryVariable number) uses) :
    Computes env false t (lines ++ more) (temporaryVariable number) (uses ++ others) := by
  induction hadds generalizing lines uses with
  | nil => rwa [append_nil, append_nil]
  | cons hmethod hvalue rest ih =>
    simpa only [append_assoc, singleton_append] using ih (.add hmethod h hvalue)

/-- Whatever a composition gives is as `Q` says of it and the temporaries given out, which have
numbers in order. -/
structure Yields {α : Type} (x : Compose α) (Q : α → List Mention → Prop) : Prop where
  yields : ∀ {c c' : Counters} {a : α}, x.run c = .ok (a, c') →
    ∃ uses, Q a uses ∧ Gives c.temporaries uses c'.temporaries

namespace Yields

variable {α β : Type} {x : Compose α} {k : α → Compose β} {Q Q' : α → List Mention → Prop}
  {R : β → List Mention → Prop}

protected lemma pure {a : α} (h : Q a []) : Yields (pure a) Q :=
  ⟨fun hrun => by cases hrun; exact ⟨[], h, Nat.le_refl _⟩⟩

protected lemma throw (e : CompileError) : Yields (throw e) Q := ⟨fun hrun => by cases hrun⟩

lemma mono (h : Yields x Q) (hQ : ∀ {a uses}, Q a uses → Q' a uses) : Yields x Q' := by
  refine ⟨fun hrun => ?_⟩
  obtain ⟨uses, ha, hgives⟩ := h.yields hrun
  exact ⟨uses, hQ ha, hgives⟩

protected lemma bind (h : Yields x Q)
    (hk : ∀ {a uses}, Q a uses → Yields (k a) fun b more => R b (uses ++ more)) :
    Yields (x >>= k) R := by
  refine ⟨fun hrun => ?_⟩
  obtain ⟨a, c₁, hfirst, hrest⟩ := run_bind_eq_ok hrun
  obtain ⟨uses, ha, hgives⟩ := h.yields hfirst
  obtain ⟨more, hb, hgives'⟩ := (hk ha).yields hrest
  exact ⟨_, hb, hgives.append hgives'⟩

protected lemma map (h : Yields x Q) {f : α → β} (hf : ∀ {a uses}, Q a uses → R (f a) uses) :
    Yields (x >>= fun a => pure (f a)) R := by
  refine ⟨fun hrun => ?_⟩
  obtain ⟨a, c₁, hfirst, hrest⟩ := run_bind_eq_ok hrun
  cases hrest
  obtain ⟨uses, ha, hgives⟩ := h.yields hfirst
  exact ⟨uses, hf ha, hgives⟩

lemma bind_lift {x : Except CompileError α} (hk : ∀ a, x = .ok a → Yields (k a) R) :
    Yields (liftM x >>= k) R := by
  refine ⟨fun hrun => ?_⟩
  obtain ⟨a, ha, hrest⟩ := run_bind_lift_eq_ok hrun
  exact (hk a ha).yields hrest

lemma bind_temporary (owner : NodeId) {k : String → Compose β} (hk : ∀ number,
    Yields (k (temporaryVariable number)) fun b more => R b (.temporary owner number :: more)) :
    Yields (temporary >>= k) R := by
  refine ⟨fun {c c' b} hrun => ?_⟩
  obtain ⟨temp, c₁, htemp, hrest⟩ := run_bind_eq_ok hrun
  cases htemp
  obtain ⟨more, hb, hgives⟩ := (hk c.temporaries).yields hrest
  exact ⟨_, hb, Nat.le_refl _, hgives⟩

lemma named (name : String) (place : Place)
    (h : Yields x fun a uses => Q a (.named name place :: uses)) : Yields x Q := by
  refine ⟨fun hrun => ?_⟩
  obtain ⟨uses, ha, hgives⟩ := h.yields hrun
  exact ⟨_, ha, hgives⟩

end Yields

abbrev Writes (env : Env) (inside : Bool) (t : Term) (x : Compose Code) : Prop :=
  Yields x fun code uses => Computes env inside t code.lines code.value uses

variable {env : Env} {go : Term → Compose Code} {t : Term} {c c' : Counters} {inside : Bool}

lemma Writes.within {s : Term} {x : Compose Code} (hs : s ∈ t.subtrees)
    (h : Writes env inside s x) : Writes env inside t x := h.mono fun hcode => .within hs hcode

lemma writes_fragment (text : String) : Writes env true t (fragment text) := by
  have hvalue : Computes env false t [] (quoted text) [] := .quoted text
  unfold fragment
  split_ifs with hempty hsafe
  · exact .pure (.safe (by decide))
  · exact .pure (.safe hsafe)
  · exact .bind_temporary t.tag fun number => .pure (hvalue.hold number)

lemma writes_identifier {id : NodeId} {name : String} :
    Writes env false (.mk id (.identifier name))
      (do pure ⟨[], ← identifier env (.mk id (.identifier name)) name⟩) := by
  refine ⟨fun {c c' code} h => ?_⟩
  obtain ⟨text, c₁, htext, h⟩ := run_bind_eq_ok h
  cases h
  have hread : text = (env.source name).text ∧ c' = c := by
    unfold identifier at htext
    split at htext
    · cases htext
    unfold Env.source
    split_ifs at htext ⊢ with hutil hcontext hundefined
    · cases htext
      exact ⟨rfl, rfl⟩
    · cases htext
      exact ⟨rfl, rfl⟩
    · cases htext
      exact ⟨rfl, rfl⟩
    · cases htext
      refine ⟨?_, rfl⟩
      unfold Env.local Env.place
      split_ifs <;> rfl
  obtain ⟨rfl, rfl⟩ := hread
  exact ⟨_, .named, Nat.le_refl _⟩

lemma onlySpared_of_concatParts (h : ∀ u, .term u ∈ concatParts t → u.OnlySpared registry) :
    t.OnlySpared registry := by
  fun_induction concatParts t with
  | case1 id left right hleft hright =>
    exact onlySpared_pair Kind.noConfusion rfl (hleft fun u hu => h u (mem_append_left _ hu))
      (hright fun u hu => h u (mem_append_right _ hu))
  | case2 id left op right hop | case3 t hne => exact h _ mem_cons_self

example : ((fragment "a b").run ⟨0, 0⟩).toOption.map (·.1.value) = some "a b" := by decide +kernel

lemma onlySpared_of_staticEntries {properties : List Term}
    (hentries : properties.mapM staticEntry? = some entries)
    (hvalues : ∀ t ∈ entries.map (·.2), t.OnlySpared registry) :
    ∀ p ∈ properties, p.OnlySpared registry := by
  induction properties generalizing entries with
  | nil => simp
  | cons p properties ih =>
    obtain ⟨entry, rest, hentry, hrest, rfl⟩ := forall₂_cons_left_iff.mp
      (Node.mapM_list_eq_some_iff.mp hentries)
    obtain ⟨hvalue, hvalues⟩ := forall_mem_cons.mp hvalues
    refine forall_mem_cons.mpr ⟨?_, ih (Node.mapM_list_eq_some_iff.mpr hrest) hvalues⟩
    obtain ⟨tag, n⟩ := p
    cases n with
    | propertyAssignment name value =>
      obtain ⟨key, hkey, rfl⟩ := Option.map_eq_some_iff.mp hentry
      exact onlySpared_pair nofun rfl
        (onlySpared_of_uncalled (uncalled_of_staticKey? registry hkey)) hvalue
    | _ => cases hentry

/-- Whatever code comes out computes a value for the node, where calls are left out only in
arguments that are not looked at. -/
abbrev Translates (env : Env) (t : Term) (x : Compose Code) : Prop :=
  Yields x fun code uses =>
    Computes env false t code.lines code.value uses ∧ t.OnlySpared env.registry

section Node

-- What is below a node is translated by `go`.
variable (hgo : ∀ s, Translates env s (go s))
include hgo

lemma yields_part {p : Part} (hp : ∀ s, p = .term s → s ∈ t.subtrees) :
    Yields (part env go p) fun code uses => Computes env true t code.lines code.value uses ∧
      ∀ s, p = .term s → s.OnlySpared env.registry := by
  cases p with
  | text content => exact (writes_fragment content).mono fun hcode => ⟨hcode, nofun⟩
  | term s =>
    have honly : s.OnlySpared env.registry →
        ∀ u, Part.term s = .term u → u.OnlySpared env.registry := by
      rintro h _ ⟨⟩
      exact h
    rw [part]
    cases hc : s.constant? env.references with
    | some constant =>
      have hconstant := onlySpared_of_uncalled (uncalled_of_constant? env.registry _ s _ hc)
      exact (writes_fragment constant.text).mono fun hcode => ⟨hcode, honly hconstant⟩
    | none =>
      refine (hgo s).bind fun hcode => ?_
      split_ifs with hchain
      · refine .pure ⟨.within (hp s rfl) ?_, honly hcode.2⟩
        simpa using .chain hchain hcode.1
      · exact .bind_temporary s.tag fun number =>
          .pure ⟨.within (hp s rfl) (.hold number hcode.1), honly hcode.2⟩

variable {parts : List Part} {left right : Term} {op : BinaryOp}
  {elements properties arguments : List Term} {number : Nat}

lemma yields_joined (hparts : ∀ s, .term s ∈ parts → s ∈ t.subtrees) :
    Yields (joined env go parts) fun code uses => Computes env true t code.lines code.value uses ∧
      ∀ s, .term s ∈ parts → s.OnlySpared env.registry := by
  induction parts with
  | nil => exact .pure ⟨.safe (by decide), by simp⟩
  | cons p parts ih =>
    refine (yields_part hgo ?_).bind fun hfirst =>
      (ih fun s hs => hparts s (mem_cons_of_mem p hs)).map fun hrest =>
        ⟨.append hfirst.1 hrest.1, fun s hs => ?_⟩
    · rintro s rfl
      exact hparts s mem_cons_self
    · rcases mem_cons.mp hs with hs | hs
      · exact hfirst.2 s hs.symm
      · exact hrest.2 s hs

lemma translates_interpolate (hparts : ∀ s, .term s ∈ parts → s ∈ t.subtrees)
    (honly : (∀ s, .term s ∈ parts → s.OnlySpared env.registry) → t.OnlySpared env.registry) :
    Translates env t (interpolate env go parts) :=
  (yields_joined hgo hparts).map fun hcode => ⟨.interpolation hcode.1, honly hcode.2⟩

variable {id : NodeId}

lemma translates_override {test : String → String}
    (htest : ∀ temp, test temp ∈ overrideTests temp) :
    Translates env (.mk id (.binaryExpr left op right)) (override go test left right) :=
  (hgo left).bind fun hleft => .bind_temporary id fun number => (hgo right).map fun hright =>
    ⟨.override number (htest _) hleft.1 hright.1, onlySpared_pair nofun rfl hleft.2 hright.2⟩

lemma translates_condition (t : Term) : Translates env t (condition env go t) := by
  induction t using children_induction with
  | step tag n ih =>
    cases n with
    | binaryExpr left op right =>
      have hl := ih left (by simp)
      have hr := ih right (by simp)
      refine ⟨fun {c c' code} h => ?_⟩
      rw [condition] at h
      split_ifs at h with htest
      · obtain ⟨start, c₀, hstart, h⟩ := run_bind_eq_ok h
        cases hstart
        obtain ⟨l, c₁, hrun, h⟩ := run_bind_eq_ok h
        obtain ⟨r, c₂, hrun', h⟩ := run_bind_eq_ok h
        split_ifs at h with hempty
        · cases h
          obtain ⟨uses, ⟨hleft, hleftCalls⟩, hgives⟩ := hl.yields hrun
          obtain ⟨others, ⟨hright, hrightCalls⟩, hgives'⟩ := hr.yields hrun'
          have hop : operatorText op = op.symbol := by
            cases op <;> first | rfl | cases htest
          have hlines : l.lines = l.lines ++ r.lines := by
            rw [isEmpty_iff.mp hempty, append_nil]
          refine ⟨uses ++ others, ⟨?_, onlySpared_pair Kind.noConfusion rfl hleftCalls hrightCalls⟩,
            hgives.append hgives'⟩
          have hcode := Computes.parenthesized
            (.pair (.within (child_mem_subtrees (t := .mk tag (.binaryExpr left op right))) hleft)
              (.operator op) (.within child_mem_subtrees hright))
          rw [← hlines, hop] at hcode
          simpa only [String.append_assoc] using hcode
        · obtain ⟨released, c₃, hrelease, h⟩ := run_bind_eq_ok h
          cases hrelease
          obtain ⟨uses, hcode, hgives⟩ := (hgo _).yields h
          exact ⟨uses, hcode, hgives⟩
      · exact (hgo _).yields h
    | _ => exact hgo _

lemma translates_conditional {test whenTrue whenFalse : Term} :
    Translates env (.mk id (.conditionalExpr test whenTrue whenFalse))
      (conditional env go test whenTrue whenFalse) :=
  (translates_condition hgo test).bind fun hcode => .bind_temporary id fun number =>
    (hgo whenTrue).bind fun hyes => (hgo whenFalse).map fun hno =>
      ⟨.conditional number hcode.1 hyes.1 hno.1,
        onlySpared_of_ne nofun (by simpa using ⟨hcode.2, hyes.2, hno.2⟩)⟩

lemma translates_binary :
    Translates env (.mk id (.binaryExpr left op right)) (binary env go left op right) := by
  have hl : left ∈ (mk id (.binaryExpr left op right)).subtrees := child_mem_subtrees
  have hr : right ∈ (mk id (.binaryExpr left op right)).subtrees := child_mem_subtrees
  unfold binary
  split
  any_goals exact translates_override hgo fun temp => by simp [overrideTests]
  · split_ifs with hadd
    · refine translates_interpolate hgo (fun s hs => ?_) fun hparts => ?_
      · rcases mem_append.mp hs with hs | hs
        · exact subtrees_subset hl (mem_subtrees_of_concatParts hs)
        · exact subtrees_subset hr (mem_subtrees_of_concatParts hs)
      · exact onlySpared_pair nofun rfl
          (onlySpared_of_concatParts fun u hu => hparts u (mem_append_left _ hu))
          (onlySpared_of_concatParts fun u hu => hparts u (mem_append_right _ hu))
    · refine (hgo left).bind fun hleft => (hgo right).map fun hright =>
        ⟨?_, onlySpared_pair nofun rfl hleft.2 hright.2⟩
      have hcode := Computes.parenthesized
        (.pair (.within hl hleft.1) (.operator op) (.within hr hright.1))
      simpa only [String.append_assoc] using hcode

lemma yields_codes {ts : List Term} (hts : ∀ s ∈ ts, s ∈ t.subtrees) :
    Yields (codes go ts) fun r uses => (r.2.length = ts.length ∧ ComputesAll env t r.1 r.2 uses) ∧
      ∀ s ∈ ts, s.OnlySpared env.registry := by
  induction ts with
  | nil => exact .pure ⟨⟨rfl, .nil⟩, by simp⟩
  | cons s ts ih =>
    refine (hgo s).bind fun hfirst =>
      (ih fun s hs => hts s (mem_cons_of_mem _ hs)).map fun ⟨⟨hlength, hrest⟩, honly⟩ => ?_
    exact ⟨⟨congrArg Nat.succ hlength, .cons (.within (hts s mem_cons_self) hfirst.1) hrest⟩,
      forall_mem_cons.mpr ⟨hfirst.2, honly⟩⟩

lemma yields_elementLines (h : ∀ e ∈ elements, e ∈ t.subtrees) :
    Yields (elementLines go (temporaryVariable number) elements) fun lines uses =>
      Adds env t number lines uses ∧ ∀ e ∈ elements, e.OnlySpared env.registry := by
  fun_induction elementLines go (temporaryVariable number) elements with
  | case1 => exact .pure ⟨.nil, by simp⟩
  | case2 tag expression rest ih =>
    have he : expression ∈ t.subtrees := subtrees_subset (h _ mem_cons_self) child_mem_subtrees
    exact (hgo _).bind fun hcode => (ih fun e he => h e (mem_cons_of_mem _ he)).map
      fun hadds => ⟨.cons (by simp) (.within he hcode.1) hadds.1,
        forall_mem_cons.mpr ⟨onlySpared_only Kind.noConfusion rfl hcode.2, hadds.2⟩⟩
  | case3 e rest hne ih =>
    exact (hgo _).bind fun hcode => (ih fun e he => h e (mem_cons_of_mem _ he)).map
      fun hadds => ⟨.cons (by simp) (.within (h e mem_cons_self) hcode.1) hadds.1,
        forall_mem_cons.mpr ⟨hcode.2, hadds.2⟩⟩

lemma translates_array : Translates env (.mk id (.arrayLiteral elements)) (array go elements) := by
  have hmem : ∀ e ∈ elements, e ∈ (mk id (.arrayLiteral elements)).subtrees := fun e he =>
    child_mem_subtrees he
  unfold array
  split_ifs
  · exact .bind_temporary id fun number => (yields_elementLines hgo hmem).map fun hadds =>
      ⟨Computes.addAll hadds.1 (.start number (.inl rfl) (by simp)), onlySpared_of_ne nofun hadds.2⟩
  · exact (yields_codes hgo hmem).map fun hall =>
      ⟨.after (.before (.mark (by decide)) hall.1.2.listed) (.mark (by decide)),
        onlySpared_of_ne nofun hall.2⟩

lemma yields_propertyKey {name : Term} (h : name ∈ t.subtrees) :
    Yields (propertyKey go name) fun code uses =>
      Computes env false t code.lines code.value uses ∧ name.OnlySpared env.registry := by
  unfold propertyKey
  split
  · rename_i key hkey
    exact .pure ⟨.quoted key, onlySpared_of_uncalled (uncalled_of_staticKey? env.registry hkey)⟩
  · exact (hgo _).mono fun hcode => ⟨.within (subtrees_subset h child_mem_subtrees)
      hcode.1, onlySpared_only nofun rfl hcode.2⟩
  · exact (hgo _).mono fun hcode => ⟨.within h hcode.1, hcode.2⟩

lemma yields_propertyLines (h : ∀ p ∈ properties, p ∈ t.subtrees) :
    Yields (propertyLines go (temporaryVariable number) properties) fun lines uses =>
      Adds env t number lines uses ∧ ∀ p ∈ properties, p.OnlySpared env.registry := by
  fun_induction propertyLines go (temporaryVariable number) properties with
  | case1 => exact .pure ⟨.nil, by simp⟩
  | case2 tag name value rest ih =>
    have hchild : ∀ s ∈ [name, value], s ∈ t.subtrees := fun s hs =>
      subtrees_subset (h _ mem_cons_self) (child_mem_subtrees hs)
    refine (yields_propertyKey hgo (hchild name (by simp))).bind fun hkey =>
      (hgo _).bind fun hcode => (ih fun p hp => h p (mem_cons_of_mem _ hp)).map fun hadds =>
        ⟨?_, forall_mem_cons.mpr ⟨onlySpared_pair Kind.noConfusion rfl hkey.2 hcode.2, hadds.2⟩⟩
    have hpair := Computes.pair hkey.1 (.mark (show ", " ∈ marks by decide))
      (.within (hchild value (by simp)) hcode.1)
    have hput : ".put(" ∈ [".add(", ".addAll(", ".put(", ".putAll("] := by decide
    simpa only [String.append_assoc, append_assoc] using Adds.cons hput hpair hadds.1
  | case3 tag expression rest ih =>
    have he : expression ∈ t.subtrees := subtrees_subset (h _ mem_cons_self) child_mem_subtrees
    exact (hgo _).bind fun hcode => (ih fun p hp => h p (mem_cons_of_mem _ hp)).map
      fun hadds => ⟨.cons (by simp) (.within he hcode.1) hadds.1,
        forall_mem_cons.mpr ⟨onlySpared_only Kind.noConfusion rfl hcode.2, hadds.2⟩⟩
  | case4 => exact .throw _

lemma translates_object :
    Translates env (.mk id (.objectLiteral properties)) (object go properties) := by
  have hmem : ∀ p ∈ properties, p ∈ (mk id (.objectLiteral properties)).subtrees :=
    fun p hp => child_mem_subtrees hp
  unfold object
  cases hentries : properties.mapM staticEntry? with
  | none =>
    exact .bind_temporary id fun number => (yields_propertyLines hgo hmem).map fun hadds =>
      ⟨Computes.addAll hadds.1 (.start number (.inr rfl) (by simp)), onlySpared_of_ne nofun hadds.2⟩
  | some entries =>
    refine (yields_codes hgo fun s hs => ?_).map fun hall =>
      ⟨.braced (hall.1.2.keyed (hall.1.1.trans (length_map _))).listed,
        onlySpared_of_ne nofun (onlySpared_of_staticEntries hentries hall.2)⟩
    obtain ⟨entry, hentry, rfl⟩ := mem_map.mp hs
    obtain ⟨p, hp, hmem'⟩ := mem_subtrees_of_staticEntries hentries entry hentry
    exact subtrees_subset (hmem p hp) hmem'

lemma yields_firstArgument {missing : String} (hmissing : missing ∈ fixedValues)
    (h : ∀ a ∈ arguments, a ∈ t.subtrees) :
    Yields (firstArgument go missing arguments) fun code uses =>
      Computes env false t code.lines code.value uses ∧
        ∀ a ∈ arguments, a.OnlySpared env.registry ∨ a ∈ arguments.drop 1 := by
  cases arguments with
  | nil => exact .pure ⟨.fixed hmissing, by simp⟩
  | cons a rest =>
    refine (hgo a).mono fun hcode => ⟨.within (h a mem_cons_self) hcode.1, ?_⟩
    exact forall_mem_cons.mpr ⟨.inl hcode.2, fun a ha => .inr ha⟩

/-- A call that is written calls no backend. It is a method of `JSON`, of which the first argument
is written, or a method of a receiver that is written with all arguments. -/
lemma translates_call {callee : Term} : Translates env (.mk id (.callExpr callee arguments))
      (call env go (.mk id (.callExpr callee arguments)) callee arguments) := by
  have hmem : ∀ s ∈ callee :: arguments, s ∈ (mk id (.callExpr callee arguments)).subtrees :=
    fun s hs => child_mem_subtrees hs
  have harguments := fun a ha => hmem a (mem_cons_of_mem callee ha)
  refine .bind_lift fun service hservice => ?_
  cases service with
  | some service => exact .throw _
  | none =>
    have honly := onlySpared_of_children (call?_of_serviceCall? hservice)
    simp only [Option.isSome_none, Bool.false_eq_true, if_false]
    obtain ⟨tag', n⟩ := callee
    cases n with
    | propertyAccess receiver name chained =>
      dsimp only
      split_ifs with hintrinsic hjson
      · exact .throw _
      · have hcallee : (mk tag' (.propertyAccess receiver name chained) : Term).OnlySpared
            env.registry :=
          onlySpared_only nofun rfl (onlySpared_of_uncalled (uncalled_of_isIdentifier hjson))
        have hfunction : ∀ function ∈ ["$util.toJson", "$util.parseJson"],
            Translates env (.mk id (.callExpr (.mk tag' (.propertyAccess receiver name chained))
              arguments)) (do
                let argument ← firstArgument go null arguments
                pure { argument with value := function ++ "(" ++ argument.value ++ ")" }) := by
          intro function hfunction
          have hjoint : function ++ "(" ∈ marks := by
            revert function
            decide
          refine (yields_firstArgument hgo (by decide) harguments).map fun hcode =>
            ⟨.after (.before (.mark hjoint) hcode.1) (.mark (by decide)), honly ?_⟩
          refine forall_mem_cons.mpr ⟨.inl hcallee, fun a ha => (hcode.2 a ha).imp_right ?_⟩
          simp [spareArguments, hjson]
        unfold jsonFunction
        split_ifs
        · exact hfunction _ (by simp)
        · exact hfunction _ (by simp)
        · exact .throw _
      · have hreceiver := subtrees_subset (hmem _ mem_cons_self)
          (child_mem_subtrees (c := receiver) (by simp))
        refine (hgo receiver).bind fun hbase => (yields_codes hgo harguments).map
          fun hall => ⟨?_, honly (forall_mem_cons.mpr ⟨.inl (onlySpared_only nofun rfl hbase.2),
            fun a ha => .inl (hall.2 a ha)⟩)⟩
        have hcode := Computes.after (.pair (.within hreceiver hbase.1) (.method rfl)
          hall.1.2.listed) (.mark (show ")" ∈ marks by decide))
        simpa only [String.append_assoc] using hcode
    | _ => exact .throw _

lemma translates_node (t : Term) : Translates env t (node env go t) := by
  unfold node
  cases hc : t.constant? env.references with
  | some constant =>
    exact .pure ⟨.constant constant, onlySpared_of_uncalled (uncalled_of_constant? _ _ t _ hc)⟩
  | none =>
    obtain ⟨id, n⟩ := t
    have hchild : ∀ s ∈ n.children, s ∈ (mk id n).subtrees := fun s hs => child_mem_subtrees hs
    cases n with
    | identifier name =>
      exact writes_identifier.mono fun hcode =>
        ⟨hcode, onlySpared_of_uncalled (uncalled_leaf nofun rfl)⟩
    | awaitExpr expression =>
      exact (hgo _).mono fun hcode =>
        ⟨.within (hchild _ (by simp)) hcode.1, onlySpared_only nofun rfl hcode.2⟩
    | propertyAccess expression name chained =>
      exact (hgo _).map fun hcode => ⟨.after (.within (hchild _ (by simp)) hcode.1) (.member name),
        onlySpared_only nofun rfl hcode.2⟩
    | elementAccess expression element chained =>
      exact (hgo _).bind fun hbase => (hgo _).map fun hkey =>
        ⟨.after (.pair (.within (hchild _ (by simp)) hbase.1) (.mark (by decide))
          (.within (hchild _ (by simp)) hkey.1)) (.mark (by decide)),
          onlySpared_pair nofun rfl hbase.2 hkey.2⟩
    | callExpr callee arguments => exact translates_call hgo
    | unaryExpr operator operand =>
      refine (hgo _).map fun hcode => ⟨?_, onlySpared_only nofun rfl hcode.2⟩
      have hcode := Computes.within (hchild operand (by simp)) hcode.1
      cases operator with
      | not =>
        refine .before (.mark (by decide)) ?_
        unfold parenthesize
        split_ifs
        · exact hcode
        · exact hcode.parenthesized
      | neg => exact .after (.before (.mark (by decide)) hcode) (.mark (by decide))
      | plus => exact hcode
    | binaryExpr left operator right => exact translates_binary hgo
    | conditionalExpr test whenTrue whenFalse => exact translates_conditional hgo
    | templateExpr head spans =>
      refine translates_interpolate hgo (fun s hs => hchild s ?_) fun hparts => ?_
      · rcases mem_cons.mp hs with hs | hs
        · cases hs
        · obtain ⟨span, hspan, hs⟩ := mem_flatMap.mp hs
          simp only [mem_cons, Part.term.injEq, reduceCtorEq, not_mem_nil, or_false] at hs
          exact hs ▸ mem_map_of_mem hspan
      · refine onlySpared_of_ne nofun fun e he => hparts e (mem_cons_of_mem _ ?_)
        obtain ⟨s, hs, rfl⟩ := mem_map.mp he
        exact mem_flatMap.mpr ⟨s, hs, mem_cons_self⟩
    | arrayLiteral elements => exact translates_array hgo
    | objectLiteral properties => exact translates_object hgo
    | _ => exact .throw _

end Node

/-- An expression that is written computes the value of its term. -/
theorem translates_expression (t : Term) : Translates env t (expression env t) := by
  have hwithin : ∀ fuel s, Translates env s (expressionWithin env fuel s) := by
    intro fuel
    induction fuel with
    | zero => exact fun s => .throw _
    | succ fuel ih => exact fun s => translates_node ih s
  exact hwithin t.size t

lemma writes_expression (t : Term) : Writes env false t (expression env t) :=
  (translates_expression t).mono And.left

/-- What a line of an expression may say: it sets a temporary that was given out, evaluates
something, or belongs to an if block. -/
inductive Computing (uses : List Mention) : Directive → Prop
  | hold {owner : NodeId} {number : Nat} (value : String) (h : .temporary owner number ∈ uses) :
      Computing uses (.assign (temporaryVariable number) value)
  | run (value : String) : Computing uses (.run value)
  | openIf (condition : String) : Computing uses (.openIf condition)
  | openElse : Computing uses .openElse
  | close : Computing uses .close

lemma Computing.given (owner : NodeId) (number : Nat) (value : String) :
    Computing (uses ++ .temporary owner number :: others)
      (.assign (temporaryVariable number) value) :=
  .hold value (mem_append_right _ mem_cons_self)

lemma Computing.mono (hsub : uses ⊆ others) {directive : Directive} (h : Computing uses directive) :
    Computing others directive := by
  cases h with
  | hold value h => exact .hold value (hsub h)
  | run value => exact .run value
  | openIf condition => exact .openIf condition
  | openElse => exact .openElse
  | close => exact .close

/-- Whatever the lines say is of some kind. -/
def AllLines (kind : Directive → Prop) (lines : List Line) : Prop := ∀ l ∈ lines, kind l.directive

namespace AllLines

variable {kind other : Directive → Prop} {directive : Directive} {lines more : List Line}
  {uses others : List Mention}

lemma nil : AllLines kind [] := fun _ hl => absurd hl not_mem_nil

lemma append (h : AllLines kind lines) (h' : AllLines kind more) : AllLines kind (lines ++ more) :=
  forall_mem_append.mpr ⟨h, h'⟩

lemma cons (h : kind directive) (h' : AllLines kind lines) :
    AllLines kind (line directive :: lines) :=
  forall_mem_cons.mpr ⟨h, h'⟩

lemma line (h : kind directive) : AllLines kind [line directive] := .cons h .nil

lemma nest (h : AllLines kind lines) : AllLines kind (nest lines) := by
  intro l hl
  obtain ⟨l', hl', rfl⟩ := mem_map.mp hl
  exact h l' hl'

lemma imp (h : AllLines kind lines) (hkind : ∀ directive, kind directive → other directive) :
    AllLines other lines := fun l hl => hkind _ (h l hl)

lemma mono (h : AllLines (Computing uses) lines) (hsub : uses ⊆ others) :
    AllLines (Computing others) lines := h.imp fun _ => .mono hsub

end AllLines

lemma Computes.allComputing (h : Computes env inside t lines value uses) :
    AllLines (Computing uses) lines := by
  induction h with
  | fixed | constant | quoted | named | safe => exact .nil
  | within _ _ ih | before _ _ ih | after _ _ ih | chain _ _ ih => exact ih
  | braced _ ih | interpolation _ ih => exact ih
  | pair _ _ _ ih ih' | append _ _ ih ih' =>
    exact (ih.mono (subset_append_left ..)).append (ih'.mono (subset_append_right ..))
  | hold number _ ih =>
    exact (ih.mono (subset_append_left ..)).append (.line (.given _ _ _))
  | override number _ _ _ ih ih' =>
    refine (ih.mono (subset_append_left ..)).append (.cons (.given _ _ _) ?_)
    refine .cons (.openIf _) (.append (.nest (.append (ih'.mono ?_) (.line (.given _ _ _))))
      (.line .close))
    exact fun m hm => mem_append_right _ (mem_cons_of_mem _ hm)
  | conditional number _ _ _ ih ihYes ihNo =>
    refine .append (.append (.append (ih.mono (subset_append_left ..)) ?_) ?_) (.line .close)
    · refine .cons (.openIf _) (.nest (.append (ihYes.mono fun m hm => ?_) (.line (.given _ _ _))))
      simp [hm]
    · refine .cons .openElse (.nest (.append (ihNo.mono fun m hm => ?_) (.line (.given _ _ _))))
      simp [hm]
  | start number _ _ => exact .line (.hold _ mem_cons_self)
  | add _ _ _ ih ih' =>
    exact .append (.append (ih.mono (subset_append_left ..))
      (ih'.mono (subset_append_right ..))) (.line (.run _))

end ServiceFlow.Template
