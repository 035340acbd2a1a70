import ServiceFlow.Machine.Value
import ServiceFlow.Proofs.ConstantParts
import ServiceFlow.Proofs.NumberTexts
import ServiceFlow.Proofs.SuccessfulRuns

/-!
# Formatted texts

A template becomes a constant text or the pattern of a format call. A known value prints alike in
both unless it is `undefined` or a number with two texts.
-/

namespace ServiceFlow

open List

/-- Values with the same text in a constant template and in a pattern. -/
def Constant.PrintsAlike : Constant → Prop
  | .undefined => False
  | .number n => n.PrintsAlike
  | _ => True

namespace Machine

/-! ### Reading a pattern -/

/-- What a formatted text shows: a character, or the value of an argument. -/
inductive Mark where
  | char (c : Char)
  | hole
deriving DecidableEq, Repr

/-- The characters of a text. -/
def marks (text : String) : List Mark := text.toList.map .char

def Piece.marks : Piece → List Mark
  | .text content => Machine.marks content
  | .hole => [.hole]

/-- Read a pattern up to the quote that ends it, and what follows. A backslash stands before a
character that is meant as it is; other reserved characters are holes or errors. -/
def readQuoted? : List Char → Option (List Mark × List Char)
  | [] => none
  | '\'' :: rest => some ([], rest)
  | '\\' :: c :: rest => (readQuoted? rest).map fun r => (.char c :: r.1, r.2)
  | '\x7b' :: '\x7d' :: rest => (readQuoted? rest).map fun r => (.hole :: r.1, r.2)
  | c :: rest =>
    if isReserved c then none else (readQuoted? rest).map fun r => (.char c :: r.1, r.2)

/-- A text without characters to escape. -/
def Unreserved (text : String) : Prop := ∀ c ∈ text.toList, isReserved c = false

lemma marks_append (s t : String) : marks (s ++ t) = marks s ++ marks t := by
  simp [marks]

lemma marks_injective {s t : String} (h : marks s = marks t) : s = t := by
  have hlist := (map_injective_iff.mpr fun _ _ => Mark.char.inj) h
  exact String.toList_inj.mp hlist

lemma escapeText_append (s t : String) : escapeText (s ++ t) = escapeText s ++ escapeText t := by
  simp [escapeText]

lemma length_le_escapeText (cs : List Char) :
    cs.length ≤ (cs.flatMap fun c => if isReserved c then ['\\', c] else [c]).length := by
  induction cs with
  | nil => simp
  | cons c cs ih =>
    rw [flatMap_cons, length_append, length_cons]
    split_ifs <;> simp only [length_cons, length_nil] <;> omega

lemma escapeText_eq_self_iff (text : String) : escapeText text = text ↔ Unreserved text := by
  rw [escapeText, ← String.toList_inj, String.toList_ofList, Unreserved]
  induction text.toList with
  | nil => simp
  | cons c cs ih =>
    rw [flatMap_cons, forall_mem_cons]
    by_cases hc : isReserved c = true
    · -- the backslash makes the text longer
      refine iff_of_false (fun h => ?_) (by simp [hc])
      have hlength := congrArg length h
      have hle := length_le_escapeText cs
      rw [if_pos hc, length_append] at hlength
      simp only [length_cons, length_nil] at hlength
      omega
    · rw [if_neg hc, singleton_append, cons_inj_right, ih]
      simp [hc]

lemma readQuoted?_cons {c : Char} (hc : ¬ isReserved c = true) (rest : List Char) :
    readQuoted? (c :: rest) = (readQuoted? rest).map fun r => (.char c :: r.1, r.2) := by
  simp only [isReserved, Bool.or_eq_true, decide_eq_true_eq, not_or] at hc
  rw [readQuoted?]
  · simp [isReserved, hc]
  all_goals simp_all

lemma readQuoted?_escapeText (text : String) (rest : List Char) :
    readQuoted? ((escapeText text).toList ++ rest) =
      (readQuoted? rest).map fun r => (marks text ++ r.1, r.2) := by
  rw [escapeText, String.toList_ofList, marks]
  induction text.toList with
  | nil => simp
  | cons c cs ih =>
    by_cases hc : isReserved c = true
    · simp [hc, readQuoted?, ih, Function.comp_def]
    · simp [hc, readQuoted?_cons hc, ih, Function.comp_def]

lemma renderPattern_cons (p : Piece) (pattern : List Piece) :
    renderPattern (p :: pattern) = p.render ++ renderPattern pattern := by
  simp [renderPattern]

lemma readQuoted?_renderPattern (pattern : List Piece) (rest : List Char) :
    readQuoted? ((renderPattern pattern).toList ++ '\'' :: rest) =
      some (pattern.flatMap Piece.marks, rest) := by
  induction pattern with
  | nil => simp [renderPattern, readQuoted?]
  | cons p pattern ih =>
    rw [renderPattern_cons, String.toList_append, append_assoc, flatMap_cons]
    cases p with
    | text content => simp [Piece.render, readQuoted?_escapeText, ih, Piece.marks]
    | hole => simp [Piece.render, readQuoted?, ih, Piece.marks]

lemma exists_text_of_pieces {pattern : List Piece} (h : .hole ∉ pattern) : ∃ text,
    renderPattern pattern = escapeText text ∧ marks text = pattern.flatMap Piece.marks := by
  induction pattern with
  | nil => exact ⟨"", rfl, rfl⟩
  | cons p pattern ih =>
    rw [mem_cons, not_or] at h
    obtain ⟨text, hrender, hmarks⟩ := ih h.2
    cases p with
    | hole => exact absurd rfl h.1
    | text content =>
      refine ⟨content ++ text, ?_, ?_⟩
      · rw [renderPattern_cons, hrender, escapeText_append, Piece.render]
      · rw [marks_append, hmarks, flatMap_cons, Piece.marks]

/-! ### Known values -/

mutual

/-- The value that an expression has in every run: a constant, the value of the name `undefined`,
one of these awaited, or the text of a template of known values. -/
def known? (refs : References) (t : Term) : Option Constant :=
  match t.constant? refs with
  | some c => some c
  | none =>
    match t with
    | .mk _ (.awaitExpr expression) => known? refs expression
    | .mk _ (.identifier name) => if name = "undefined" then some .undefined else none
    | .mk _ (.templateExpr head spans) =>
      (knownSpans? refs spans).map fun text => .string (head ++ text)
    | _ => none
termination_by structural t

def knownSpans? (refs : References) : List (Span Term) → Option String
  | [] => some ""
  | ⟨expression, literal⟩ :: rest =>
    (known? refs expression).bind fun value =>
      (knownSpans? refs rest).map fun text => value.text ++ literal ++ text
termination_by structural spans => spans

end

/-- Expressions whose known value is shown in a pattern by its own text: constants that print alike,
one of these awaited, and templates of these, which must be without reserved characters since they
are shown escaped. -/
inductive PrintsValue (refs : References) : Term → Prop where
  | constant {t : Term} {c : Constant} (hc : t.constant? refs = some c) (halike : c.PrintsAlike) :
    PrintsValue refs t
  | await {id : NodeId} {expression : Term} (hprints : PrintsValue refs expression) :
    PrintsValue refs (.mk id (.awaitExpr expression))
  | template {id : NodeId} {head : String} {spans : List (Span Term)}
    (hc : (Tree.mk id (.templateExpr head spans)).constant? refs = none)
    (hprints : ∀ s ∈ spans, PrintsValue refs s.expression)
    (hunreserved : ∀ text, knownSpans? refs spans = some text → Unreserved (head ++ text)) :
    PrintsValue refs (.mk id (.templateExpr head spans))

/-- The text of a known value. -/
def knownText? (refs : References) (t : Term) : Option String := (known? refs t).map Constant.text

/-- The text that a literal is shown by. -/
def Data.shown? : Data → Option String
  | .literal (.string s) => some s
  | .literal (.number n) => some n.text
  | .literal (.bool b) => some (if b then "true" else "false")
  | .literal .null => some "null"
  | _ => none

def shown? (program : Program) (t : Term) : Option String :=
  (data program t).toOption.bind Data.shown?

def templateMarks (text? : Term → Option String) (head : String) (spans : List (Span Term)) :
    List Mark :=
  marks head ++ spans.flatMap fun s => (text? s.expression).elim [.hole] marks ++ marks s.literal

def templatePattern (program : Program) (head : String) (spans : List (Span Term)) : List Piece :=
  .text head :: spans.flatMap fun s =>
    [(shown? program s.expression).elim .hole .text, .text s.literal]

lemma marks_templatePattern (program : Program) (head : String) (spans : List (Span Term)) :
    (templatePattern program head spans).flatMap Piece.marks =
      templateMarks (shown? program) head spans := by
  rw [templatePattern, flatMap_cons, templateMarks, flatMap_assoc]
  refine congrArg (marks head ++ ·) (flatMap_congr fun s hs => ?_)
  cases shown? program s.expression <;> simp [Piece.marks]

section Values

variable {program : Program} {refs : References} {t : Term} {d : Data} {c : Constant}
variable {id : NodeId} {head text : String} {spans : List (Span Term)}

lemma data_of_constant? (h : t.constant? program.references = some c) :
    data program t = .ok (.literal c.toJson) := by
  rw [data.eq_def, h]

lemma known?_of_constant? (h : t.constant? refs = some c) : known? refs t = some c := by
  rw [known?.eq_def, h]

lemma data_await (expression : Term) :
    data program (.mk id (.awaitExpr expression)) = data program expression := rfl

lemma known?_await (expression : Term) :
    known? refs (.mk id (.awaitExpr expression)) = known? refs expression := rfl

lemma data_name (name : String) : data program (.mk id (.identifier name)) = nameData id name := rfl

lemma known?_name (name : String) : known? refs (.mk id (.identifier name)) =
    if name = "undefined" then some .undefined else none := rfl

lemma data_of_spans (hc : (Tree.mk id (.templateExpr head spans)).constant? program.references =
    none) : data program (.mk id (.templateExpr head spans)) = (spansData program spans >>=
      fun r => pure (formatData (.text head :: r.1) r.2)) := by
  rw [data.eq_def, hc]

lemma known?_template (hc : (Tree.mk id (.templateExpr head spans)).constant? refs = none) :
    known? refs (.mk id (.templateExpr head spans)) =
      (knownSpans? refs spans).map fun text => .string (head ++ text) := by
  rw [known?.eq_def, hc]

lemma shown?_of_data (h : data program t = .ok d) : shown? program t = d.shown? := by
  rw [shown?, h]
  rfl

lemma data_of_shown? (h : shown? program t = some text) :
    ∃ d, data program t = .ok d ∧ d.shown? = some text := by
  cases hd : data program t with
  | error e => simp [shown?, hd, Except.toOption] at h
  | ok d => exact ⟨d, rfl, (shown?_of_data hd).symm.trans h⟩

variable {arguments : List Operand} {n : Node Term} {pieces : List Piece}

lemma spanPiece_eq_ok {piece : Piece} (h : spanPiece t d = .ok (piece, arguments)) :
    piece = d.shown?.elim .hole .text ∧
      (arguments = [] ↔ d.shown?.isSome) ∧ (d.shown?.isSome ↔ ∃ v, d = .literal v) := by
  cases d with
  | literal value =>
    cases value with
    -- arrays and objects are refused as arguments
    | array items | object entries => cases h
    | _ =>
      cases h
      simp [Data.shown?]
  | object fields => cases h
  | path p | call function operands =>
    cases h
    simp [Data.shown?]

/-- The pieces and the arguments that the spans of a template are made into, span by span. -/
inductive SpansMade (program : Program) : List (Span Term) → List Piece → List Operand → Prop
  | nil : SpansMade program [] [] []
  | cons {s spans d piece own rest others} (hd : data program s.expression = .ok d)
      (hpiece : spanPiece s.expression d = .ok (piece, own))
      (hrest : SpansMade program spans rest others) :
      SpansMade program (s :: spans) (piece :: .text s.literal :: rest) (own ++ others)

lemma spansMade_of_spansData (h : spansData program spans = .ok (pieces, arguments)) :
    SpansMade program spans pieces arguments := by
  induction spans generalizing pieces arguments with
  | nil =>
    cases h
    exact .nil
  | cons s spans ih =>
    obtain ⟨d, hd, h⟩ := bind_eq_ok h
    obtain ⟨⟨piece, own⟩, hpiece, h⟩ := bind_eq_ok h
    obtain ⟨⟨rest, others⟩, hrest, h⟩ := bind_eq_ok h
    cases h
    exact .cons hd hpiece (ih hrest)

lemma spansData_eq_ok (h : spansData program spans = .ok (pieces, arguments)) :
    pieces = (spans.flatMap fun s =>
      [(shown? program s.expression).elim .hole .text, .text s.literal]) ∧
    (arguments = [] ↔ ∀ s ∈ spans, (shown? program s.expression).isSome) ∧
    ∀ s ∈ spans, ∃ d, data program s.expression = .ok d ∧
      ((shown? program s.expression).isSome ↔ ∃ v, d = .literal v) := by
  replace h := spansMade_of_spansData h
  induction h with
  | nil => simp
  | cons hd hpiece _ ih =>
    obtain ⟨rfl, hown, hliteral⟩ := spanPiece_eq_ok hpiece
    obtain ⟨rfl, hothers, hdata⟩ := ih
    refine ⟨?_, ?_, ?_⟩
    · rw [flatMap_cons, shown?_of_data hd]
      rfl
    · rw [append_eq_nil_iff, hown, hothers, forall_mem_cons, shown?_of_data hd]
    · exact forall_mem_cons.mpr ⟨⟨_, hd, by rwa [shown?_of_data hd]⟩, hdata⟩

lemma data_template
    (hc : (Tree.mk id (.templateExpr head spans)).constant? program.references = none)
    (h : data program (.mk id (.templateExpr head spans)) = .ok d) :
    ((∀ s ∈ spans, (shown? program s.expression).isSome) →
      d = .literal (.string (renderPattern (templatePattern program head spans)))) ∧
    ((¬ ∀ s ∈ spans, (shown? program s.expression).isSome) →
      ∃ arguments, d = .call (.format (templatePattern program head spans)) arguments) ∧
    ∀ s ∈ spans, ∃ d, data program s.expression = .ok d ∧
      ((shown? program s.expression).isSome ↔ ∃ v, d = .literal v) := by
  rw [data_of_spans hc] at h
  obtain ⟨⟨pieces, arguments⟩, hspans, h⟩ := bind_eq_ok h
  cases h
  obtain ⟨rfl, harguments, hdata⟩ := spansData_eq_ok hspans
  refine ⟨fun hall => ?_, fun hall => ⟨arguments, ?_⟩, hdata⟩
  · rw [formatData, harguments.mpr hall]
    rfl
  · rw [← harguments, ← List.isEmpty_iff] at hall
    exact if_neg hall

lemma isSome_knownSpans? (refs : References) (spans : List (Span Term)) :
    (knownSpans? refs spans).isSome = true ↔
      ∀ s ∈ spans, (known? refs s.expression).isSome = true := by
  induction spans with
  | nil => simp [knownSpans?]
  | cons s spans ih =>
    obtain ⟨expression, literal⟩ := s
    rw [knownSpans?, forall_mem_cons, ← ih]
    cases known? refs expression <;> simp

lemma marks_of_knownSpans? (h : knownSpans? refs spans = some text) (head : String) :
    marks (head ++ text) = templateMarks (knownText? refs) head spans := by
  rw [marks_append, templateMarks]
  refine congrArg (marks head ++ ·) ?_
  induction spans generalizing text with
  | nil =>
    cases h
    rfl
  | cons s spans ih =>
    obtain ⟨expression, literal⟩ := s
    obtain ⟨value, hvalue, h⟩ := Option.bind_eq_some_iff.mp h
    obtain ⟨rest, hrest, rfl⟩ := Option.map_eq_some_iff.mp h
    rw [marks_append, marks_append, ih hrest, flatMap_cons, knownText?, hvalue]
    rfl

lemma knownSpans?_of_constantSpans? (h : Tree.constantSpans? refs spans = some text) :
    knownSpans? refs spans = some text := by
  induction spans generalizing text with
  | nil => exact h
  | cons s spans ih =>
    obtain ⟨expression, literal⟩ := s
    obtain ⟨value, hvalue, h⟩ := Option.bind_eq_some_iff.mp h
    obtain ⟨rest, hrest, h⟩ := Option.bind_eq_some_iff.mp h
    rw [knownSpans?, known?_of_constant? hvalue, ih hrest]
    exact h

/-- Whether data is computed when the state runs, by a path or by a function. -/
def Data.isComputed : Data → Bool
  | .path _ | .call .. => true
  | .literal _ | .object _ => false

lemma isComputed_of_referenceData {reference : ReferencePath}
    (h : referenceData t reference = .ok d) : d.isComputed = true := by
  obtain ⟨root, -, h⟩ := bind_eq_ok h
  cases root with
  | path p =>
    dsimp only at h
    split_ifs at h
    all_goals
      cases h
      rfl
  | _ => cases h

lemma isComputed_of_operatorData {left right : Term} {op : BinaryOp} {l r : Data}
    (h : operatorData t left op right l r = .ok d) : d.isComputed = true := by
  unfold operatorData at h
  split at h
  · obtain ⟨a, -, h⟩ := bind_eq_ok h
    obtain ⟨b, -, h⟩ := bind_eq_ok h
    cases h
    rfl
  · split at h
    · obtain ⟨a, -, h⟩ := bind_eq_ok h
      cases h
      rfl
    · cases h
  · cases h
  · cases h
  · cases h
  · split_ifs at h <;> cases h

lemma isComputed_of_ne (hawait : n.kind ≠ .awaitExpr) (hname : n.kind ≠ .identifier)
    (htemplate : n.kind ≠ .templateExpr) (hobject : n.kind ≠ .objectLiteral)
    (hc : (Tree.mk id n).constant? program.references = none)
    (h : data program (.mk id n) = .ok d) : d.isComputed = true := by
  rw [data.eq_def, hc] at h
  cases n with
  | awaitExpr expression => exact absurd rfl hawait
  | identifier name => exact absurd rfl hname
  | templateExpr head spans => exact absurd rfl htemplate
  | objectLiteral properties => exact absurd rfl hobject
  | referenceExpr name =>
    dsimp only at h
    split_ifs at h
    cases h
  | propertyAccess expression name chained =>
    dsimp only at h
    split at h
    · exact isComputed_of_referenceData h
    · obtain ⟨base, -, h⟩ := bind_eq_ok h
      cases h
  | elementAccess expression element chained =>
    dsimp only at h
    split at h
    · exact isComputed_of_referenceData h
    · obtain ⟨base, -, h⟩ := bind_eq_ok h
      obtain ⟨first, -, h⟩ := bind_eq_ok h
      obtain ⟨index, -, h⟩ := bind_eq_ok h
      obtain ⟨second, -, h⟩ := bind_eq_ok h
      cases h
      rfl
  | binaryExpr left op right =>
    obtain ⟨l, -, h⟩ := bind_eq_ok h
    obtain ⟨r, -, h⟩ := bind_eq_ok h
    exact isComputed_of_operatorData h
  | arrayLiteral elements =>
    obtain ⟨operands, -, h⟩ := bind_eq_ok h
    cases h
    rfl
  | callExpr callee arguments =>
    dsimp only at h
    obtain ⟨function, -, h⟩ := bind_eq_ok h
    split_ifs at h
    · obtain ⟨operands, -, h⟩ := bind_eq_ok h
      cases h
      rfl
    · cases h
  | _ => cases h

lemma data_object {properties : List Term}
    (hc : (Tree.mk id (.objectLiteral properties)).constant? program.references = none)
    (h : data program (.mk id (.objectLiteral properties)) = .ok d) :
    ∃ fields, fieldsData program [] properties = .ok fields ∧ d = .object fields := by
  rw [data.eq_def, hc] at h
  obtain ⟨fields, hfields, h⟩ := bind_eq_ok h
  cases h
  exact ⟨fields, hfields, rfl⟩

lemma not_literal_of_ne (hawait : n.kind ≠ .awaitExpr) (hname : n.kind ≠ .identifier)
    (htemplate : n.kind ≠ .templateExpr) (hc : (Tree.mk id n).constant? program.references = none)
    (h : data program (.mk id n) = .ok d) : ∀ v, d ≠ .literal v := by
  rintro v rfl
  by_cases hobject : n.kind = .objectLiteral
  · cases n with
    | objectLiteral properties =>
      obtain ⟨fields, -, h⟩ := data_object hc h
      cases h
    | _ => exact Kind.noConfusion hobject
  · exact Bool.noConfusion (isComputed_of_ne hawait hname htemplate hobject hc h)

lemma known?_of_ne (hawait : n.kind ≠ .awaitExpr) (hname : n.kind ≠ .identifier)
    (htemplate : n.kind ≠ .templateExpr) (hc : (Tree.mk id n).constant? refs = none) :
    known? refs (.mk id n) = none := by
  cases n with
  | awaitExpr expression => exact absurd rfl hawait
  | identifier name => exact absurd rfl hname
  | templateExpr head spans => exact absurd rfl htemplate
  | _ => rw [known?.eq_def, hc]

lemma literal_iff_isSome_known? (h : data program t = .ok d) :
    (∃ v, d = .literal v) ↔ (known? program.references t).isSome = true := by
  induction t using Tree.children_induction generalizing d with
  | step id n ih =>
    cases hc : (Tree.mk id n).constant? program.references with
    | some c =>
      rw [data_of_constant? hc] at h
      cases h
      simp [known?_of_constant? hc]
    | none =>
      have hother : n.kind ≠ .awaitExpr → n.kind ≠ .identifier → n.kind ≠ .templateExpr →
          ((∃ v, d = .literal v) ↔ (known? program.references (.mk id n)).isSome = true) := by
        intro hawait hname htemplate
        have hliteral := not_literal_of_ne hawait hname htemplate hc h
        simp [known?_of_ne hawait hname htemplate hc, hliteral]
      cases n with
      | awaitExpr expression =>
        rw [data_await] at h
        rw [known?_await]
        exact ih expression (by simp [Node.children]) h
      | identifier name =>
        rw [data_name] at h
        rw [known?_name]
        unfold nameData at h
        split_ifs at h with hutil hintrinsics hundefined <;> cases h <;> simp [hundefined]
      | templateExpr head spans =>
        obtain ⟨hplain, hformat, hdata⟩ := data_template hc h
        have hspan : ∀ s ∈ spans, (shown? program s.expression).isSome = true ↔
            (known? program.references s.expression).isSome = true := by
          intro s hs
          obtain ⟨d', hd', hshown⟩ := hdata s hs
          exact hshown.trans (ih s.expression (mem_map_of_mem hs) hd')
        rw [known?_template hc, Option.isSome_map, isSome_knownSpans?, ← forall₂_congr hspan]
        by_cases hall : ∀ s ∈ spans, (shown? program s.expression).isSome = true
        · exact iff_of_true ⟨_, hplain hall⟩ hall
        · obtain ⟨arguments, rfl⟩ := hformat hall
          exact iff_of_false (by simp) hall
      | _ => exact hother Kind.noConfusion Kind.noConfusion Kind.noConfusion

lemma shown?_iff_known? (hc : (Tree.mk id (.templateExpr head spans)).constant? program.references =
    none) (h : data program (.mk id (.templateExpr head spans)) = .ok d) {s : Span Term}
    (hs : s ∈ spans) : (shown? program s.expression).isSome = true ↔
      (known? program.references s.expression).isSome = true := by
  obtain ⟨d', hd', hshown⟩ := (data_template hc h).2.2 s hs
  exact hshown.trans (literal_iff_isSome_known? hd')

lemma shown?_eq_knownText? (hiff : (shown? program t).isSome = true ↔
      (known? program.references t).isSome = true)
    (htext : ∀ {text c}, shown? program t = some text → known? program.references t = some c →
      text = c.text) : shown? program t = knownText? program.references t := by
  rw [knownText?]
  cases hshown : shown? program t with
  | none => simp_all
  | some text =>
    obtain ⟨c, hc⟩ := Option.isSome_iff_exists.mp (hiff.mp (by simp [hshown]))
    rw [hc, Option.map_some, htext hshown hc]

lemma exists_text_of_shown (head : String)
    (hall : ∀ s ∈ spans, (shown? program s.expression).isSome) :
    ∃ text, renderPattern (templatePattern program head spans) = escapeText text ∧
      marks text = templateMarks (shown? program) head spans := by
  rw [← marks_templatePattern]
  refine exists_text_of_pieces ?_
  simp only [templatePattern, mem_cons, mem_flatMap, not_or, not_exists, not_and]
  refine ⟨by simp, fun s hs => ?_⟩
  obtain ⟨text, htext⟩ := Option.isSome_iff_exists.mp (hall s hs)
  simp [htext]

lemma shown?_constant_iff (h : (Data.literal c.toJson).shown?.isSome) :
    (Data.literal c.toJson).shown? = some c.text ↔ c.PrintsAlike := by
  cases c with
  | undefined => simp [Constant.toJson, Data.shown?, Constant.text, Constant.PrintsAlike]
  | number n =>
    rw [Constant.toJson, Json.ofDouble, Constant.text, Constant.PrintsAlike]
    cases hn : JsonNumber.ofDouble? n with
    | some j => simpa [Data.shown?] using Double.text_eq_iff_printsAlike hn
    | none =>
      obtain ⟨htext, halike⟩ := Double.text_of_ofDouble?_none hn
      simpa [Data.shown?, halike, eq_comm] using htext
  | array items | object entries => cases h
  | _ => simp [Constant.toJson, Data.shown?, Constant.text, Constant.PrintsAlike]

lemma shown?_of_printsValue (hshown : shown? program t = some text)
    (hknown : known? program.references t = some c) (hprints : PrintsValue program.references t) :
    text = c.text := by
  induction hprints generalizing text c with
  | constant hc halike =>
    cases (known?_of_constant? hc).symm.trans hknown
    rw [shown?_of_data (data_of_constant? hc)] at hshown
    have hown := (shown?_constant_iff (by simp [hshown])).mpr halike
    exact Option.mem_unique hshown hown
  | await hprints ih =>
    rw [known?_await] at hknown
    rw [shown?, data_await] at hshown
    exact ih hshown hknown
  | @template id head spans hc hprints hunreserved ih =>
    rw [known?_template hc] at hknown
    obtain ⟨source, hsource, rfl⟩ := Option.map_eq_some_iff.mp hknown
    obtain ⟨d, hd, hdshown⟩ := data_of_shown? hshown
    -- all spans are known, so each is shown, and by its own text
    have hknown : ∀ s ∈ spans, (known? program.references s.expression).isSome = true :=
      (isSome_knownSpans? _ _).mp (by simp [hsource])
    have hall : ∀ s ∈ spans, (shown? program s.expression).isSome = true :=
      fun s hs => (shown?_iff_known? hc hd hs).mpr (hknown s hs)
    have htexts : ∀ s ∈ spans, shown? program s.expression =
        knownText? program.references s.expression :=
      fun s hs => shown?_eq_knownText? (shown?_iff_known? hc hd hs) (ih s hs)
    obtain ⟨whole, hrender, hmarks⟩ := exists_text_of_shown head hall
    have hwhole : whole = head ++ source := by
      refine marks_injective ?_
      rw [hmarks, marks_of_knownSpans? hsource]
      exact congrArg (marks head ++ ·) (flatMap_congr fun s hs => by rw [htexts s hs])
    rw [(data_template hc hd).1 hall, hrender, hwhole,
      (escapeText_eq_self_iff _).mpr (hunreserved source hsource)] at hdshown
    exact (Option.some.inj hdshown).symm

lemma shown?_iff_printsAlike (hshown : (shown? program t).isSome = true)
    (hknown : known? program.references t = some c) (hstring : ∀ text, c ≠ .string text) :
    shown? program t = some c.text ↔ c.PrintsAlike := by
  induction t using Tree.children_induction with
  | step id n ih =>
    cases hc : (Tree.mk id n).constant? program.references with
    | some c' =>
      rw [known?_of_constant? hc] at hknown
      cases hknown
      rw [shown?_of_data (data_of_constant? hc)] at hshown ⊢
      exact shown?_constant_iff hshown
    | none =>
      cases n with
      | awaitExpr expression =>
        rw [known?_await] at hknown
        rw [shown?, data_await] at hshown ⊢
        exact ih expression (by simp [Node.children]) hshown hknown
      | identifier name =>
        rw [known?_name] at hknown
        split_ifs at hknown with hname
        cases hknown
        subst hname
        have hdata : data program (.mk id (.identifier "undefined")) = .ok (.literal .null) :=
          data_name "undefined"
        rw [shown?_of_data hdata]
        simp [Data.shown?, Constant.text, Constant.PrintsAlike]
      | templateExpr head spans =>
        rw [known?_template hc] at hknown
        obtain ⟨text, -, rfl⟩ := Option.map_eq_some_iff.mp hknown
        exact absurd rfl (hstring _)
      | _ =>
        rw [known?_of_ne Kind.noConfusion Kind.noConfusion Kind.noConfusion hc] at hknown
        cases hknown

lemma toJson_format (pattern : List Piece) (arguments : List Operand) : ∃ after,
    (Data.call (.format pattern) arguments).toJson =
      .string ("States.Format('" ++ (renderPattern pattern ++ "'" ++ after)) := by
  obtain ⟨tail, htail⟩ : ∃ tail, String.intercalate ", " (("'" ++ renderPattern pattern ++ "'") ::
      Operand.renderAll arguments) = "'" ++ renderPattern pattern ++ "'" ++ tail := by
    cases Operand.renderAll arguments with
    | nil => exact ⟨"", by rw [String.intercalate_singleton, String.append_empty]⟩
    | cons first rest =>
      refine ⟨", " ++ String.intercalate ", " (first :: rest), ?_⟩
      rw [String.intercalate_cons_cons]
      simp only [String.append_assoc]
  have hname : "States.Format('" = "States.Format" ++ "(" ++ "'" := by decide
  refine ⟨tail ++ ")", ?_⟩
  rw [Data.toJson, Operand.render, Function.callText, Function.leading, singleton_append,
    htail, hname, Function.name]
  simp only [String.append_assoc]

lemma exists_spansData
    (h : ∀ s ∈ spans, ∃ d o, data program s.expression = .ok d ∧ operand s.expression d = .ok o) :
    ∃ r, spansData program spans = .ok r := by
  induction spans with
  | nil => exact ⟨([], []), rfl⟩
  | cons s spans ih =>
    obtain ⟨expression, literal⟩ := s
    obtain ⟨⟨d, o, hd, ho⟩, hrest⟩ := forall_mem_cons.mp h
    obtain ⟨r, hr⟩ := ih hrest
    have hpiece : ∃ q, spanPiece expression d = .ok q := by
      unfold spanPiece
      split
      · exact ⟨_, rfl⟩
      · exact ⟨_, rfl⟩
      · exact ⟨_, rfl⟩
      · exact ⟨_, rfl⟩
      · rw [ho]
        exact ⟨_, rfl⟩
    obtain ⟨q, hq⟩ := hpiece
    refine ⟨(q.1 :: .text literal :: r.1, q.2 ++ r.2), ?_⟩
    rw [spansData, hd]
    change (spanPiece expression d >>= _) = _
    rw [hq, hr]
    rfl

lemma exists_data_template (id : NodeId) (head : String)
    (h : ∀ s ∈ spans, ∃ d o, data program s.expression = .ok d ∧ operand s.expression d = .ok o) :
    ∃ d, data program (.mk id (.templateExpr head spans)) = .ok d := by
  cases hc : (Tree.mk id (.templateExpr head spans)).constant? program.references with
  | some c => exact ⟨_, data_of_constant? hc⟩
  | none =>
    obtain ⟨r, hr⟩ := exists_spansData h
    rw [data_of_spans hc, hr]
    exact ⟨_, rfl⟩

end Values

/-- The text of a template expression shows the values of its spans. -/
structure ShowsValues (program : Program) (head : String) (spans : List (Span Term)) (d : Data) :
    Prop where
  /-- Known values, and no others, are shown by texts. -/
  known : ∀ s ∈ spans, (shown? program s.expression).isSome = true ↔
    (known? program.references s.expression).isSome = true
  /-- A value that prints alike is shown by the text that it has in a constant template. -/
  prints : ∀ s ∈ spans, PrintsValue program.references s.expression →
    shown? program s.expression = knownText? program.references s.expression
  /-- Other values than texts are shown by these texts only if they print alike. -/
  value : ∀ s ∈ spans, ∀ c, known? program.references s.expression = some c →
    (∀ text, c ≠ .string text) → (shown? program s.expression = some c.text ↔ c.PrintsAlike)
  /-- With a value that is not known, the pattern of a format call shows the template. -/
  format : (∃ s ∈ spans, known? program.references s.expression = none) →
    ∃ written after, d.toJson = .string ("States.Format('" ++ written) ∧
      readQuoted? written.toList = some (templateMarks (shown? program) head spans, after)
  /-- Without one, the text of the template is escaped, which keeps it exactly if nothing in it is
  reserved. -/
  plain : (∀ s ∈ spans, (known? program.references s.expression).isSome = true) →
    ∃ text, marks text = templateMarks (shown? program) head spans ∧
      d = .literal (.string (escapeText text)) ∧
      (d = .literal (.string text) ↔ Unreserved text)

/-- A constant template is the text of its values, and every other template that is lowered shows
its values as `ShowsValues` says. -/
theorem template_shows_values (program : Program) (id : NodeId) (head : String)
    (spans : List (Span Term)) :
    ((∀ s ∈ spans, ∃ d o, data program s.expression = .ok d ∧ operand s.expression d = .ok o) →
      ∃ d, data program (.mk id (.templateExpr head spans)) = .ok d) ∧
    ∀ d, data program (.mk id (.templateExpr head spans)) = .ok d →
      (∀ c, (Tree.mk id (.templateExpr head spans)).constant? program.references = some c →
        ∃ text, c = .string text ∧ d = .literal (.string text) ∧
          marks text = templateMarks (knownText? program.references) head spans) ∧
      ((Tree.mk id (.templateExpr head spans)).constant? program.references = none →
        ShowsValues program head spans d) := by
  refine ⟨exists_data_template id head, fun d hd => ⟨fun c hc => ?_, fun hc => ?_⟩⟩
  · rw [data_of_constant? hc] at hd
    cases hd
    obtain ⟨text, htext, hc⟩ := Option.bind_eq_some_iff.mp hc
    cases hc
    exact ⟨_, rfl, rfl, marks_of_knownSpans? (knownSpans?_of_constantSpans? htext) head⟩
  · have hknown : ∀ s ∈ spans, (shown? program s.expression).isSome = true ↔
        (known? program.references s.expression).isSome = true :=
      fun s hs => shown?_iff_known? hc hd hs
    obtain ⟨hplain, hformat, -⟩ := data_template hc hd
    refine ⟨hknown, fun s hs hprints => ?_, fun s hs c hvalue hstring => ?_, ?_, fun hall => ?_⟩
    · exact shown?_eq_knownText? (hknown s hs) fun hshown hvalue =>
        shown?_of_printsValue hshown hvalue hprints
    · refine shown?_iff_printsAlike ?_ hvalue hstring
      simp [hknown s hs, hvalue]
    · rintro ⟨s, hs, hnone⟩
      obtain ⟨arguments, rfl⟩ := hformat fun hall => by
        simpa [hnone] using (hknown s hs).mp (hall s hs)
      obtain ⟨after, hafter⟩ := toJson_format (templatePattern program head spans) arguments
      refine ⟨_, after.toList, hafter, ?_⟩
      have hread := readQuoted?_renderPattern (templatePattern program head spans) after.toList
      rw [marks_templatePattern] at hread
      simpa using hread
    · have hshown : ∀ s ∈ spans, (shown? program s.expression).isSome = true :=
        fun s hs => (hknown s hs).mpr (hall s hs)
      obtain ⟨text, hrender, hmarks⟩ := exists_text_of_shown head hshown
      have hd' := hplain hshown
      rw [hrender] at hd'
      refine ⟨text, hmarks, hd', ?_⟩
      rw [hd', ← escapeText_eq_self_iff]
      simp

section OrderLine

def lineProgram : Program := ⟨"line", .empty, 0, .empty, noReferences, .default⟩

def customer : Term := .mk 1 (.propertyAccess (.mk 2 (.identifier "order")) "customer" false)

/-- The spans of a template with a constant, a value of the run and an awaited constant, and with
reserved characters between them. -/
def orderLine : List (Span Term) :=
  [⟨.mk 3 (.numberLiteral (.ofInt 12)), " of \x7b"⟩, ⟨customer, "\x7d \\ "⟩,
    ⟨.mk 4 (.awaitExpr (.mk 5 (.booleanLiteral true))), ""⟩]

theorem template_shows_values_orderLine :
    (Tree.mk 0 (.templateExpr "it's " orderLine) : Term).constant? noReferences = none ∧
    ∃ d, data lineProgram (.mk 0 (.templateExpr "it's " orderLine)) = .ok d ∧
      ∃ written after, d.toJson = .string ("States.Format('" ++ written) ∧
        readQuoted? written.toList =
          some (marks "it's 12 of \x7b" ++ .hole :: marks "\x7d \\ true", after) := by
  obtain ⟨hlowered, hshows⟩ := template_shows_values lineProgram 0 "it's " orderLine
  obtain ⟨d, hd⟩ := hlowered fun s hs => by
    simp only [orderLine, mem_cons, not_mem_nil, or_false] at hs
    obtain rfl | rfl | rfl := hs
    all_goals exact ⟨_, _, rfl, rfl⟩
  have hc : (Tree.mk 0 (.templateExpr "it's " orderLine) : Term).constant? noReferences = none :=
    rfl
  obtain ⟨written, after, hwritten, hread⟩ := ((hshows d hd).2 hc).format
    ⟨⟨customer, "\x7d \\ "⟩, by simp [orderLine], rfl⟩
  have hmarks : templateMarks (shown? lineProgram) "it's " orderLine =
      marks "it's 12 of \x7b" ++ .hole :: marks "\x7d \\ true" := by decide +kernel
  exact ⟨hc, d, hd, written, after, hwritten, hmarks ▸ hread⟩

def writtenNote (head : String) (first second : Term) : Option Json :=
  (data lineProgram (.mk 0 (.templateExpr head [⟨first, " "⟩, ⟨second, ""⟩]))).toOption.map
    Data.toJson

/-- `undefined` and large numbers have other texts beside a value of the run than beside a constant,
and a quote is written with a backslash beside an awaited constant. -/
theorem texts_differ_from_constants :
    writtenNote "x " (.mk 3 .undefinedLiteral) customer =
      some (.string "States.Format('x null \x7b\x7d', $.order.customer)") ∧
    writtenNote "x " (.mk 3 .undefinedLiteral) (.mk 4 (.stringLiteral "Ann")) =
      some (.string "x undefined Ann") ∧
    writtenNote "x " (.mk 3 (.numberLiteral (.ofInt 10000000000000000))) customer =
      some (.string "States.Format('x 1e+16 \x7b\x7d', $.order.customer)") ∧
    writtenNote "x " (.mk 3 (.numberLiteral (.ofInt 10000000000000000)))
      (.mk 4 (.stringLiteral "Ann")) = some (.string "x 10000000000000000 Ann") ∧
    writtenNote "it's " (.mk 3 (.awaitExpr (.mk 5 (.stringLiteral "x"))))
      (.mk 4 (.stringLiteral "Ann")) = some (.string "it\\'s x Ann") ∧
    writtenNote "it's " (.mk 3 (.stringLiteral "x")) (.mk 4 (.stringLiteral "Ann")) =
      some (.string "it's x Ann") :=
  ⟨rfl, rfl, rfl, rfl, rfl, rfl⟩

end OrderLine

end Machine

end ServiceFlow
