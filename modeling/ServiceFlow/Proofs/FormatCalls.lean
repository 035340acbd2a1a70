import ServiceFlow.Proofs.FormattedTexts
import ServiceFlow.Proofs.StateSteps

/-!
# Format calls

Whatever characters stand in a template, its pattern is closed by its own quote, has a pair of
braces for each argument and no other braces, and the filled pattern is the text of the template.
-/

namespace ServiceFlow

open List

/-- The text that a value is shown by: a text is shown as it is, another value as it is written. -/
def Json.display : Json → String
  | .string s => s
  | value => value.compact

namespace Machine

/-! ### Reading escapes -/

/-- The characters of a text, each with whether a backslash stands before it. -/
def readEscapes : List Char → List (Char × Bool)
  | [] => []
  | '\\' :: c :: rest => (c, true) :: readEscapes rest
  | c :: rest => (c, false) :: readEscapes rest

def placeholders : List (Char × Bool) → Nat
  | [] => 0
  | ('\x7b', false) :: ('\x7d', false) :: rest => placeholders rest + 1
  | _ :: rest => placeholders rest

def fill? : List (Char × Bool) → List String → Option String
  | [], [] => some ""
  | [], _ :: _ => none
  | ('\x7b', false) :: ('\x7d', false) :: _, [] => none
  | ('\x7b', false) :: ('\x7d', false) :: rest, value :: values =>
    (fill? rest values).map (value ++ ·)
  | (c, _) :: rest, values => (fill? rest values).map (String.singleton c ++ ·)

def Piece.read : Piece → List (Char × Bool)
  | .text content => content.toList.map fun c => (c, isReserved c)
  | .hole => [('\x7b', false), ('\x7d', false)]

variable {c x : Char} {token : Char × Bool}

lemma ne_false_of_isReserved (hx : isReserved x = true) : (c, isReserved c) ≠ (x, false) := by
  intro h
  obtain ⟨rfl, hc⟩ := Prod.mk.inj h
  rw [hx] at hc
  cases hc

lemma readEscapes_cons (hc : ¬ isReserved c = true) (rest : List Char) :
    readEscapes (c :: rest) = (c, false) :: readEscapes rest := by
  rw [readEscapes]
  rintro _ _ rfl
  exact absurd rfl hc

lemma readEscapes_escapeText (text : String) (rest : List Char) :
    readEscapes ((escapeText text).toList ++ rest) =
      (Piece.text text).read ++ readEscapes rest := by
  rw [escapeText, String.toList_ofList, Piece.read]
  induction text.toList with
  | nil => rfl
  | cons c cs ih =>
    rw [flatMap_cons, append_assoc, map_cons, cons_append, ← ih]
    by_cases hc : isReserved c = true
    · rw [if_pos hc, hc]
      rfl
    · rw [if_neg hc, singleton_append, readEscapes_cons hc, Bool.eq_false_iff.mpr hc]

lemma readEscapes_renderPattern (pattern : List Piece) :
    readEscapes (renderPattern pattern).toList = pattern.flatMap Piece.read := by
  induction pattern with
  | nil => rfl
  | cons p pattern ih =>
    rw [renderPattern_cons, String.toList_append, flatMap_cons, ← ih]
    cases p with
    | text content => exact readEscapes_escapeText content _
    | hole => simp [Piece.render, Piece.read, readEscapes]

lemma placeholders_cons (h : token ≠ ('\x7b', false)) (rest : List (Char × Bool)) :
    placeholders (token :: rest) = placeholders rest := by
  rw [placeholders]
  rintro _ rfl
  exact absurd rfl h

lemma placeholders_text (content : String) (rest : List (Char × Bool)) :
    placeholders ((Piece.text content).read ++ rest) = placeholders rest := by
  rw [Piece.read]
  induction content.toList with
  | nil => rfl
  | cons c cs ih =>
    rw [map_cons, cons_append, placeholders_cons (ne_false_of_isReserved rfl), ih]

lemma placeholders_pattern (pattern : List Piece) :
    placeholders (pattern.flatMap Piece.read) = pattern.count .hole := by
  induction pattern with
  | nil => rfl
  | cons p pattern ih =>
    rw [flatMap_cons]
    cases p with
    | text content => rw [placeholders_text, ih, count_cons_of_ne (by simp)]
    | hole => rw [count_cons_self, ← ih]; rfl

lemma count_read (hx : isReserved x = true) (pattern : List Piece) :
    (pattern.flatMap Piece.read).count (x, false) =
      if x = '\x7b' ∨ x = '\x7d' then pattern.count .hole else 0 := by
  induction pattern with
  | nil => simp
  | cons p pattern ih =>
    rw [flatMap_cons, count_append, ih]
    cases p with
    | text content =>
      have hnone : (Piece.text content).read.count (x, false) = 0 := by
        refine count_eq_zero.mpr fun hm => ?_
        obtain ⟨c, -, hc⟩ := mem_map.mp hm
        exact ne_false_of_isReserved hx hc
      rw [hnone, Nat.zero_add, count_cons_of_ne (by simp)]
    | hole =>
      rw [count_cons_self, Piece.read]
      by_cases hopen : x = '\x7b'
      · simp [hopen, Nat.add_comm]
      · by_cases hclose : x = '\x7d'
        · simp [hclose, Nat.add_comm]
        · simp [hopen, hclose, Ne.symm hopen, Ne.symm hclose]

lemma fill?_cons (h : token ≠ ('\x7b', false)) (rest : List (Char × Bool)) (values : List String) :
    fill? (token :: rest) values = (fill? rest values).map (String.singleton token.1 ++ ·) := by
  obtain ⟨c, escaped⟩ := token
  rw [fill?]
  · rintro _ - - rfl rfl
    exact h rfl
  · rintro _ _ _ - - rfl rfl
    exact h rfl

lemma fill?_hole (rest : List (Char × Bool)) (value : String) (values : List String) :
    fill? (Piece.hole.read ++ rest) (value :: values) = (fill? rest values).map (value ++ ·) := rfl

lemma fill?_text (content : String) (rest : List (Char × Bool)) (values : List String) :
    fill? ((Piece.text content).read ++ rest) values = (fill? rest values).map (content ++ ·) := by
  obtain ⟨cs, rfl⟩ : ∃ cs, content = String.ofList cs := ⟨content.toList, by simp⟩
  rw [Piece.read, String.toList_ofList]
  induction cs with
  | nil => simp
  | cons c cs ih =>
    rw [map_cons, cons_append, fill?_cons (ne_false_of_isReserved rfl), ih, Option.map_map]
    refine congrArg (Option.map · _) (funext fun text => ?_)
    simp [String.ofList_cons, String.append_assoc]

/-! ### Values of spans -/

/-- The text of spans, from the values of their expressions: the value and the literal of each, in
order. -/
def spansText? (value? : Term → Option Json) : List (Span Term) → Option String
  | [] => some ""
  | ⟨expression, literal⟩ :: rest =>
    (value? expression).bind fun value =>
      (spansText? value? rest).map fun text => value.display ++ literal ++ text

/-- The value of a term in a document. -/
def dataValue? (program : Program) (builtins : Builtins) (document : Json) (t : Term) :
    Option Json :=
  (data program t).toOption.bind (Data.value? builtins document)

section Spans

variable {program : Program} {builtins : Builtins} {document : Json} {t : Term} {d : Data}
variable {spans : List (Span Term)} {pieces : List Piece} {arguments : List Operand}

lemma dataValue?_of_data (h : data program t = .ok d) :
    dataValue? program builtins document t = d.value? builtins document := by
  rw [dataValue?, h]
  rfl

lemma spanPiece_cases {piece : Piece} (h : spanPiece t d = .ok (piece, arguments)) :
    (∃ value, d = .literal value ∧ piece = .text value.display ∧ arguments = []) ∨
    ∃ o, piece = .hole ∧ arguments = [o] ∧
      ∀ builtins document, o.value? builtins document = d.value? builtins document := by
  cases d with
  | literal value =>
    refine .inl ⟨value, rfl, ?_⟩
    cases value with
    | array items => cases h
    | object entries => cases h
    | _ =>
      cases h
      exact ⟨rfl, rfl⟩
  | object fields => cases h
  | path p | call function operands =>
    cases h
    exact .inr ⟨_, rfl, rfl, fun _ _ => rfl⟩

lemma count_hole_of_spansData (h : spansData program spans = .ok (pieces, arguments)) :
    pieces.count .hole = arguments.length := by
  replace h := spansMade_of_spansData h
  induction h with
  | nil => rfl
  | cons _ hpiece _ ih =>
    rcases spanPiece_cases hpiece with ⟨value, -, rfl, rfl⟩ | ⟨o, rfl, rfl, -⟩
    · simpa using ih
    · simpa using ih

lemma fill?_of_spansData (h : spansData program spans = .ok (pieces, arguments)) :
    ((Operand.values? builtins document arguments).bind fun values =>
      fill? (pieces.flatMap Piece.read) (values.map Json.display)) =
      spansText? (dataValue? program builtins document) spans := by
  replace h := spansMade_of_spansData h
  induction h with
  | nil => rfl
  | @cons s spans d _ _ _ _ hd hpiece _ ih =>
    rw [spansText?, dataValue?_of_data hd, ← ih]
    rcases spanPiece_cases hpiece with ⟨value, rfl, rfl, rfl⟩ | ⟨o, rfl, rfl, ho⟩
    · -- the value stands in the pattern
      rw [nil_append, Data.value?, Option.bind_some, Option.map_bind]
      refine congrArg (Option.bind _) (funext fun values => ?_)
      rw [flatMap_cons, flatMap_cons, fill?_text, fill?_text, Function.comp, Option.map_map]
      refine congrArg (Option.map · _) (funext fun text => ?_)
      rw [Function.comp, String.append_assoc]
    · -- the value is that of the first argument
      rw [singleton_append, Operand.values?, ho]
      cases d.value? builtins document with
      | none => rfl
      | some value =>
        rw [Option.bind_some, Option.bind_some, Option.bind_map, Option.map_bind]
        refine congrArg (Option.bind _) (funext fun values => ?_)
        rw [flatMap_cons, flatMap_cons, Function.comp, Function.comp, map_cons,
          fill?_hole, fill?_text, Option.map_map]
        refine congrArg (Option.map · _) (funext fun text => ?_)
        rw [Function.comp, String.append_assoc]

end Spans

lemma toJson_format_arguments (pattern : List Piece) {arguments : List Operand}
    (h : arguments ≠ []) : (Data.call (.format pattern) arguments).toJson =
      .string ("States.Format('" ++ renderPattern pattern ++ "', " ++
        String.intercalate ", " (Operand.renderAll arguments) ++ ")") := by
  cases arguments with
  | nil => exact absurd rfl h
  | cons first rest =>
    have hname : "States.Format('" = "States.Format" ++ "(" ++ "'" := by decide
    have hquote : "', " = "'" ++ ", " := by decide
    rw [Data.toJson, Operand.render, Function.callText, Function.leading, singleton_append,
      Operand.renderAll, String.intercalate_cons_cons, Function.name, hname, hquote]
    simp only [String.append_assoc]

/-- The text of a format call is read back as the template that it was made of. -/
structure ReadsBack (program : Program) (head : String) (spans : List (Span Term))
    (pattern : List Piece) (arguments : List Operand) : Prop where
  written : (Data.call (.format pattern) arguments).toJson =
    .string ("States.Format('" ++ renderPattern pattern ++ "', " ++
      String.intercalate ", " (Operand.renderAll arguments) ++ ")")
  /-- No quote ends the pattern before its own, and no backslash stands before that one. -/
  closed : ∀ c ∈ ['\'', '\\'], (c, false) ∉ readEscapes (renderPattern pattern).toList
  places : placeholders (readEscapes (renderPattern pattern).toList) = arguments.length
  /-- Every brace without a backslash belongs to a place for an argument. -/
  braces : ∀ c ∈ ['\x7b', '\x7d'],
    (readEscapes (renderPattern pattern).toList).count (c, false) = arguments.length
  filled : ∀ builtins document,
    ((Operand.values? builtins document arguments).bind fun values =>
      fill? (readEscapes (renderPattern pattern).toList) (values.map Json.display)) =
      (spansText? (dataValue? program builtins document) spans).map (head ++ ·)

/-- A template that becomes a format call is read back from the text of the call, whatever its
texts are and whatever values the arguments have. -/
theorem format_call_reads_back {program : Program} {id : NodeId} {head : String}
    {spans : List (Span Term)} {pattern : List Piece} {arguments : List Operand}
    (h : data program (.mk id (.templateExpr head spans)) =
      .ok (.call (.format pattern) arguments)) :
    ReadsBack program head spans pattern arguments := by
  have hc : (Tree.mk id (.templateExpr head spans)).constant? program.references = none := by
    refine Option.eq_none_iff_forall_ne_some.mpr fun c hc => ?_
    rw [data_of_constant? hc] at h
    cases h
  rw [data_of_spans hc] at h
  obtain ⟨⟨pieces, operands⟩, hspans, h⟩ := bind_eq_ok h
  have hformat : formatData (.text head :: pieces) operands = .call (.format pattern) arguments :=
    Except.ok.inj h
  rw [formatData] at hformat
  split_ifs at hformat with hempty
  cases hformat
  have hcount : List.count .hole (.text head :: pieces) = arguments.length := by
    rw [count_cons_of_ne (by simp), count_hole_of_spansData hspans]
  constructor
  case written =>
    exact toJson_format_arguments _ fun hnil => hempty (by simp [hnil])
  case closed =>
    intro c hc
    rw [readEscapes_renderPattern, ← count_eq_zero]
    rcases mem_cons.mp hc with rfl | hc
    · exact count_read rfl _
    · obtain rfl := mem_singleton.mp hc
      exact count_read rfl _
  case places => rw [readEscapes_renderPattern, placeholders_pattern, hcount]
  case braces =>
    intro c hc
    rw [readEscapes_renderPattern, ← hcount]
    rcases mem_cons.mp hc with rfl | hc
    · exact count_read rfl _
    · obtain rfl := mem_singleton.mp hc
      exact count_read rfl _
  case filled =>
    intro builtins document
    rw [readEscapes_renderPattern, ← fill?_of_spansData hspans, Option.map_bind]
    refine congrArg (Option.bind _) (funext fun values => ?_)
    rw [flatMap_cons, fill?_text]
    rfl

def orderDocument (customer : String) : Json :=
  .object [("order", .object [("customer", .string customer)])]

/-- Quotes, braces and backslashes stand in the template and in the value that fills it. -/
theorem format_call_reads_back_orderLine : ∃ pattern arguments,
    data lineProgram (.mk 0 (.templateExpr "it's " orderLine)) =
      .ok (.call (.format pattern) arguments) ∧
    ReadsBack lineProgram "it's " orderLine pattern arguments ∧
    renderPattern pattern = "it\\'s 12 of \\\x7b\x7b\x7d\\\x7d \\\\ true" ∧
    ((Operand.values? .lists (orderDocument "O'Neil \x7b\x7d") arguments).bind fun values =>
      fill? (readEscapes (renderPattern pattern).toList) (values.map Json.display)) =
      some "it's 12 of \x7bO'Neil \x7b\x7d\x7d \\ true" := by
  have h : data lineProgram (.mk 0 (.templateExpr "it's " orderLine)) =
      .ok (.call (.format [.text "it's ", .text "12", .text " of \x7b", .hole, .text "\x7d \\ ",
        .text "true", .text ""]) [.path (.field (.ofVariable "order") "customer")]) := rfl
  have hread := format_call_reads_back h
  refine ⟨_, _, h, hread, by decide +kernel, (hread.filled _ _).trans ?_⟩
  decide +kernel

end Machine

end ServiceFlow
