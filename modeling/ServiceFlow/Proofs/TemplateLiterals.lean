import ServiceFlow.Proofs.ConstantForms
import ServiceFlow.Proofs.NumberTexts
import ServiceFlow.Template.Literal

/-!
# Reading literals of templates

A scanner takes a literal apart into tokens, and values are read off the tokens by the grammar
`Denotes`. A literal has one reading, which is the value it was written for.
-/

namespace ServiceFlow.Template.Literal

open List

/-- What a literal stands for. A number is known by its token. -/
inductive Value where
  | null
  | bool (b : Bool)
  | number (token : String)
  | string (s : String)
  | list (items : List Value)
  | map (entries : List (String × Value))

namespace Value

def of : Constant → Value
  | .undefined | .null => .null
  | .bool b => .bool b
  | .number n => .number n.text
  | .string s | .handle s => .string s
  | .array items => .list (ofItems items)
  | .object entries => .map (ofEntries entries)
where
  ofItems : List Constant → List Value
    | [] => []
    | item :: items => of item :: ofItems items
  ofEntries : List (String × Constant) → List (String × Value)
    | [] => []
    | (key, value) :: entries => (key, of value) :: ofEntries entries

end Value

/-! ### Tokens -/

/-- A token of an expression in a template. -/
inductive Token where
  | mark (c : Char)
  /-- A text in quotes. -/
  | text (s : List Char)
  | word (w : List Char)
deriving DecidableEq

def isMark (c : Char) : Bool := ['[', ']', '\x7b', '\x7d', ',', ':'].contains c

def isWordChar (c : Char) : Bool := c.isAlphanum || ['$', '.', '+', '-'].contains c

/-- Where a scanner is. After a quote that may close a text, another quote may follow. -/
inductive Mode where
  | between
  | word (w : List Char)
  | quoted (s : List Char)
  | closed (s : List Char)

namespace Mode

/-- What a character does that is in no word and no text. -/
def start (c : Char) : Option (List Token × Mode) :=
  if c = ' ' then some ([], .between)
  else if isMark c then some ([.mark c], .between)
  else if c = '\'' then some ([], .quoted [])
  else if isWordChar c then some ([], .word [c])
  else none

/-- The tokens that end with a character. -/
def step : Mode → Char → Option (List Token × Mode)
  | .between, c => start c
  | .word w, c =>
    if isWordChar c then some ([], .word (w ++ [c]))
    else (start c).map fun r => (.word w :: r.1, r.2)
  | .quoted s, c => some ([], if c = '\'' then .closed s else .quoted (s ++ [c]))
  | .closed s, c =>
    if c = '\'' then some ([], .quoted (s ++ [c]))
    else (start c).map fun r => (.text s :: r.1, r.2)

def finish : Mode → Option (List Token)
  | .between => some []
  | .word w => some [.word w]
  | .quoted _ => none
  | .closed s => some [.text s]

/-- The tokens of the rest of a text. -/
def scan (m : Mode) : List Char → Option (List Token)
  | [] => m.finish
  | c :: cs => (m.step c).bind fun r => (scan r.2 cs).map (r.1 ++ ·)

end Mode

/-- The tokens of a text. -/
def tokens? (text : String) : Option (List Token) := Mode.between.scan text.toList

/-! ### Values -/

section Numbers

def isExponent : List Char → Bool
  | [] => true
  | 'e' :: sign :: cs => (sign = '+' || sign = '-') && !cs.isEmpty && cs.all Char.isDigit
  | _ => false

def isDigitsThen (next : List Char → Bool) (cs : List Char) : Bool :=
  !(cs.takeWhile Char.isDigit).isEmpty && next (cs.dropWhile Char.isDigit)

def isFraction : List Char → Bool
  | '.' :: cs => isDigitsThen isExponent cs
  | cs => isExponent cs

/-- A decimal number, as in `-12.5e+30`. -/
def isNumber : List Char → Bool
  | '-' :: cs => isDigitsThen isFraction cs
  | cs => isDigitsThen isFraction cs

end Numbers

/-- The value of a word. -/
def word? (w : List Char) : Option Value :=
  if isNumber w then some (.number (String.ofList w))
  else if w = null.toList then some .null
  else if w = "true".toList then some (.bool true)
  else if w = "false".toList then some (.bool false)
  else none

/-- The value that a list of tokens stands for. -/
inductive Denotes : List Token → Value → Prop
  | word {w : List Char} {v : Value} (h : word? w = some v) : Denotes [.word w] v
  | text (s : List Char) : Denotes [.text s] (.string (String.ofList s))
  | list (items : List (List Token × Value)) (h : ∀ p ∈ items, Denotes p.1 p.2) :
      Denotes (.mark '[' :: ([.mark ','].intercalate (items.map Prod.fst) ++ [.mark ']']))
        (.list (items.map Prod.snd))
  | map (entries : List (String × List Token × Value)) (h : ∀ p ∈ entries, Denotes p.2.1 p.2.2) :
      Denotes (.mark '\x7b' :: ([.mark ','].intercalate
          (entries.map fun p => .text p.1.toList :: .mark ':' :: p.2.1) ++ [.mark '\x7d']))
        (.map (entries.map fun p => (p.1, p.2.2)))

/-- A text that reads as the value. -/
def Reads (text : String) (v : Value) : Prop := ∃ ts, tokens? text = some ts ∧ Denotes ts v

/-! ### Reading -/

section Reader

variable {α : Type}

/-- Items up to a closing mark. -/
def several? (close : Char) (one : List Token → Option (α × List Token)) :
    Nat → List Token → Option (List α × List Token)
  | 0, _ => none
  | n + 1, ts => (one ts).bind fun r =>
    match r.2 with
    | .mark c :: rest =>
      if c = close then some ([r.1], rest)
      else if c = ',' then (several? close one n rest).map fun q => (r.1 :: q.1, q.2)
      else none
    | _ => none

/-- Items up to a closing mark, or none. -/
def listed? (close : Char) (one : List Token → Option (α × List Token)) (n : Nat)
    (ts : List Token) : Option (List α × List Token) :=
  if ts.head? = some (.mark close) then some ([], ts.tail) else several? close one n ts

/-- A key and a value. -/
def pair? (one : List Token → Option (Value × List Token)) :
    List Token → Option ((String × Value) × List Token)
  | .text key :: .mark ':' :: rest => (one rest).map fun r => ((String.ofList key, r.1), r.2)
  | _ => none

/-- A value and the tokens after it. -/
def value? : Nat → List Token → Option (Value × List Token)
  | _ + 1, .word w :: rest => (word? w).map (·, rest)
  | _ + 1, .text s :: rest => some (.string (String.ofList s), rest)
  | n + 1, .mark '[' :: rest => (listed? ']' (value? n) n rest).map fun r => (.list r.1, r.2)
  | n + 1, .mark '\x7b' :: rest =>
    (listed? '\x7d' (pair? (value? n)) n rest).map fun r => (.map r.1, r.2)
  | _, _ => none

/-- The value that a text reads as. -/
def read? (text : String) : Option Value :=
  (tokens? text).bind fun ts =>
    match value? ts.length ts with
    | some (v, []) => some v
    | _ => none

end Reader

section Reader

variable {α : Type} {one : List Token → Option (α × List Token)} {close : Char} {n : Nat}
  {items : List (List Token × α)} {v : Value} {ts : List Token}

lemma length_le_intercalate (tss : List (List Token)) :
    tss.length ≤ ([.mark ','].intercalate tss).length + 1 ∧
      ∀ ts ∈ tss, ts.length ≤ ([.mark ','].intercalate tss).length := by
  induction tss with
  | nil => simp
  | cons ts tss ih =>
    cases tss with
    | nil => simp
    | cons us tss =>
      rw [intercalate_cons_cons]
      simp only [length_cons, length_append, length_nil, forall_mem_cons] at ih ⊢
      refine ⟨by omega, by omega, by omega, fun ts hts => ?_⟩
      have := ih.2.2 ts hts
      omega

lemma several?_of_forall (hclose : close ≠ ',')
    (hone : ∀ p ∈ items, ∀ rest, one (p.1 ++ rest) = some (p.2, rest)) (hne : items ≠ [])
    (hn : items.length ≤ n) (rest : List Token) :
    several? close one n ([.mark ','].intercalate (items.map Prod.fst) ++ .mark close :: rest) =
      some (items.map Prod.snd, rest) := by
  induction items generalizing n with
  | nil => exact absurd rfl hne
  | cons p items ih =>
    obtain ⟨n, rfl⟩ := Nat.exists_eq_add_one.mpr (Nat.lt_of_lt_of_le (Nat.succ_pos _) hn)
    obtain ⟨hp, hitems⟩ := forall_mem_cons.mp hone
    cases items with
    | nil => simp [several?, hp]
    | cons q items =>
      have hrest := ih hitems (by simp) (by simpa using hn)
      rw [map_cons, map_cons, intercalate_cons_cons, append_assoc, append_assoc, several?, hp,
        Option.bind_some]
      simp only [singleton_append, if_neg (Ne.symm hclose)]
      rw [← map_cons, hrest]
      rfl

lemma listed?_of_forall (hclose : close ≠ ',')
    (hone : ∀ p ∈ items, p.1.length ≤ n → ∀ rest, one (p.1 ++ rest) = some (p.2, rest))
    (hstart : ∀ p ∈ items, ∀ rest, (p.1 ++ rest).head? ≠ some (.mark close))
    (hn : ([.mark ','].intercalate (items.map Prod.fst)).length < n) (rest : List Token) :
    listed? close one n ([.mark ','].intercalate (items.map Prod.fst) ++ .mark close :: rest) =
      some (items.map Prod.snd, rest) := by
  obtain ⟨hcount, hlength⟩ := length_le_intercalate (items.map Prod.fst)
  rw [length_map] at hcount
  cases items with
  | nil => simp [listed?]
  | cons p items =>
    have hhead : ([.mark ','].intercalate ((p :: items).map Prod.fst) ++
        .mark close :: rest).head? ≠ some (.mark close) := by
      cases items with
      | nil => simpa using hstart p mem_cons_self (.mark close :: rest)
      | cons q items =>
        rw [map_cons, map_cons, intercalate_cons_cons, append_assoc, append_assoc]
        exact hstart p mem_cons_self _
    rw [listed?, if_neg hhead]
    refine several?_of_forall hclose (fun q hq => hone q hq ?_) (by simp) (by omega) rest
    have := hlength q.1 (mem_map_of_mem hq)
    omega

lemma Denotes.head?_ne (h : Denotes ts v) (rest : List Token) :
    (ts ++ rest).head? ≠ some (.mark ']') := by
  cases h <;> simp

lemma Denotes.value? (h : Denotes ts v) :
    ∀ {n : Nat}, ts.length ≤ n → ∀ rest, Literal.value? n (ts ++ rest) = some (v, rest) := by
  induction h with
  | word h =>
    intro n hn rest
    obtain ⟨n, rfl⟩ := Nat.exists_eq_add_one.mpr hn
    simp [Literal.value?, h]
  | text s =>
    intro n hn rest
    obtain ⟨n, rfl⟩ := Nat.exists_eq_add_one.mpr hn
    rfl
  | list items h ih =>
    intro n hn rest
    obtain ⟨n, rfl⟩ := Nat.exists_eq_add_one.mpr (Nat.lt_of_lt_of_le (Nat.succ_pos _) hn)
    simp only [length_cons, length_append, length_nil] at hn
    have hread := listed?_of_forall (n := n) (show ']' ≠ ',' by decide)
      (fun p hp hlength => ih p hp hlength)
      (fun p hp => (h p hp).head?_ne) (by omega) rest
    rw [cons_append, append_assoc, singleton_append, Literal.value?, hread]
    rfl
  | map entries h ih =>
    intro n hn rest
    obtain ⟨n, rfl⟩ := Nat.exists_eq_add_one.mpr (Nat.lt_of_lt_of_le (Nat.succ_pos _) hn)
    simp only [length_cons, length_append, length_nil] at hn
    let items : List (List Token × (String × Value)) :=
      entries.map fun p => (.text p.1.toList :: .mark ':' :: p.2.1, (p.1, p.2.2))
    have htokens : items.map Prod.fst =
        entries.map fun p => .text p.1.toList :: .mark ':' :: p.2.1 := by simp [items]
    have hvalues : items.map Prod.snd = entries.map fun p => (p.1, p.2.2) := by simp [items]
    have hone : ∀ p ∈ items, p.1.length ≤ n → ∀ rest,
        pair? (Literal.value? n) (p.1 ++ rest) = some (p.2, rest) := by
      refine forall_mem_map.mpr fun p hp hlength rest => ?_
      simp only [length_cons] at hlength
      simp only [cons_append, pair?, ih p hp (n := n) (by omega) rest, Option.map_some,
        String.ofList_toList]
    rw [← htokens] at hn ⊢
    have hread := listed?_of_forall (show '\x7d' ≠ ',' by decide) hone
      (forall_mem_map.mpr fun p hp rest => by simp) (by omega) rest
    rw [cons_append, append_assoc, singleton_append, Literal.value?, hread, hvalues]
    rfl

variable {text : String}

lemma Reads.read?_eq (h : Reads text v) : read? text = some v := by
  obtain ⟨ts, htokens, hdenotes⟩ := h
  have hread := hdenotes.value? (Nat.le_refl _) []
  rw [append_nil] at hread
  rw [read?, htokens, Option.bind_some, hread]

end Reader

/-! ### Scanning -/

section Scanner

variable {m m' m'' : Mode} {w w' : List Char} {ts ts' p : List Token} {c : Char}

def Scans (m : Mode) (w : List Char) (ts : List Token) (m' : Mode) : Prop :=
  ∀ rest, m.scan (w ++ rest) = (m'.scan rest).map (ts ++ ·)

lemma scans_nil (m : Mode) : Scans m [] [] m := fun rest => by simp

lemma scans_singleton (h : m.step c = some (ts, m')) : Scans m [c] ts m' := fun rest => by
  rw [singleton_append, Mode.scan, h, Option.bind_some]

lemma Scans.append (h : Scans m w ts m') (h' : Scans m' w' ts' m'') :
    Scans m (w ++ w') (ts ++ ts') m'' := fun rest => by
  rw [append_assoc, h, h', Option.map_map]
  simp only [Function.comp_def, append_assoc]

/-- Between tokens, a text gives tokens, of which the last may still be open. -/
def Lexes (w : List Char) (ts : List Token) : Prop :=
  ∃ us m p, Scans .between w us m ∧ m.finish = some p ∧ us ++ p = ts

lemma Lexes.tokens? (h : Lexes text.toList ts) : tokens? text = some ts := by
  obtain ⟨us, m, p, hscan, hfinish, rfl⟩ := h
  have hall := hscan []
  rw [append_nil, Mode.scan, hfinish] at hall
  exact hall

lemma isWordChar_of_isMark (h : isMark c = true) : isWordChar c = false := by
  have hall : ['[', ']', '\x7b', '\x7d', ',', ':'].all (!isWordChar ·) = true := rfl
  simpa using all_eq_true.mp hall c (contains_iff_mem.mp h)

lemma step_of_isMark (hc : isMark c = true) (h : m.finish = some p) :
    m.step c = some (p ++ [.mark c], .between) := by
  have hspace : c ≠ ' ' := by
    rintro rfl
    cases hc
  have hquote : c ≠ '\'' := by
    rintro rfl
    cases hc
  have hstart : Mode.start c = some ([.mark c], .between) := by
    rw [Mode.start, if_neg hspace, if_pos hc]
  cases m with
  | between => cases h; exact hstart
  | word w =>
    cases h
    rw [Mode.step, if_neg (by rw [isWordChar_of_isMark hc]; decide), hstart]
    rfl
  | quoted s => cases h
  | closed s =>
    cases h
    rw [Mode.step, if_neg hquote, hstart]
    rfl

lemma Lexes.mark (h : Lexes w ts) (hc : isMark c = true) :
    Scans .between (w ++ [c]) (ts ++ [.mark c]) .between := by
  obtain ⟨us, m, p, hscan, hfinish, rfl⟩ := h
  rw [append_assoc]
  exact hscan.append (scans_singleton (step_of_isMark hc hfinish))

lemma Lexes.of_scans (h : Scans .between w ts .between) : Lexes w ts :=
  ⟨ts, .between, [], h, rfl, append_nil ts⟩

lemma Lexes.cons (hw : Scans .between w ts .between) (h : Lexes w' ts') :
    Lexes (w ++ w') (ts ++ ts') := by
  obtain ⟨us, m, p, hscan, hfinish, rfl⟩ := h
  exact ⟨_, m, p, hw.append hscan, hfinish, append_assoc ..⟩

lemma Scans.silent (h : Scans m w [] m') (h' : Scans m' w' [] m'') : Scans m (w ++ w') [] m'' :=
  h.append h'

lemma scans_quoted (s acc : List Char) :
    Scans (.quoted acc) (s.flatMap fun c => if c = '\'' then ['\'', '\''] else [c]) []
      (.quoted (acc ++ s)) := by
  induction s generalizing acc with
  | nil => simpa using scans_nil (.quoted acc)
  | cons c s ih =>
    rw [flatMap_cons, append_cons]
    refine Scans.silent ?_ (ih (acc ++ [c]))
    split_ifs with hc
    · subst hc
      exact (scans_singleton rfl).silent (scans_singleton (m := .closed acc) rfl)
    · exact scans_singleton (by rw [Mode.step, if_neg hc])

lemma lexes_quoted (s : String) : Lexes (quoted s).toList [.text s.toList] := by
  have htext : (quoted s).toList = ['\''] ++
      (s.toList.flatMap fun c => if c = '\'' then ['\'', '\''] else [c]) ++ ['\''] := by
    simp [quoted]
  have hopen : Scans .between ['\''] [] (.quoted []) := scans_singleton rfl
  have hclose : Scans (.quoted s.toList) ['\''] [] (.closed s.toList) := scans_singleton rfl
  rw [htext]
  exact ⟨_, _, _, (hopen.append (scans_quoted s.toList [])).append hclose, rfl, rfl⟩

lemma scans_word (hw : ∀ c ∈ w, isWordChar c = true) (acc : List Char) :
    Scans (.word acc) w [] (.word (acc ++ w)) := by
  induction w generalizing acc with
  | nil => simpa using scans_nil (.word acc)
  | cons c w ih =>
    obtain ⟨hc, hw⟩ := forall_mem_cons.mp hw
    rw [append_cons, ← singleton_append]
    exact (scans_singleton (by rw [Mode.step, if_pos hc])).silent (ih hw _)

lemma lexes_word (hw : ∀ c ∈ w, isWordChar c = true) (hne : w ≠ []) : Lexes w [.word w] := by
  obtain ⟨c, w, rfl⟩ := exists_cons_of_ne_nil hne
  obtain ⟨hc, hw⟩ := forall_mem_cons.mp hw
  have hstart : Mode.between.step c = some ([], .word [c]) := by
    have hspace : c ≠ ' ' := by
      rintro rfl
      cases hc
    have hquote : c ≠ '\'' := by
      rintro rfl
      cases hc
    have hmark : ¬ isMark c = true := fun hmark =>
      absurd hc (by rw [isWordChar_of_isMark hmark]; decide)
    rw [Mode.step, Mode.start, if_neg hspace, if_neg hmark, if_neg hquote, if_pos hc]
  exact ⟨_, _, _, (scans_singleton hstart).append (scans_word hw [c]), rfl, rfl⟩

lemma scans_intercalate {β : Type} {text : β → List Char} {tokens : β → List Token} {xs : List β}
    (h : ∀ x ∈ xs, Lexes (text x) (tokens x)) (hc : isMark c = true) :
    Scans .between ([',', ' '].intercalate (xs.map text) ++ [c])
      ([.mark ','].intercalate (xs.map tokens) ++ [.mark c]) .between := by
  induction xs with
  | nil => exact (Lexes.of_scans (scans_nil _)).mark hc
  | cons x xs ih =>
    obtain ⟨hx, hxs⟩ := forall_mem_cons.mp h
    cases xs with
    | nil => simpa using hx.mark hc
    | cons y xs =>
      have hcomma := (hx.mark (c := ',') rfl).append
        ((scans_singleton (m := .between) (c := ' ') rfl).append (ih hxs))
      simpa [intercalate_cons_cons] using hcomma

end Scanner

/-! ### Number tokens -/

section Numbers

variable {next : List Char → Bool} {ds rest : List Char} {d : Decimal}

lemma isDigitsThen_append (hds : ∀ c ∈ ds, c.isDigit = true) (hne : ds ≠ [])
    (hrest : rest.takeWhile Char.isDigit = []) : isDigitsThen next (ds ++ rest) = next rest := by
  obtain ⟨htake, hdrop⟩ := Decimal.span_digits hds hrest
  rw [isDigitsThen, htake, hdrop, isEmpty_eq_false_iff.mpr hne]
  rfl

lemma isExponent_ending (n : Decimal.Numeral) : isExponent n.ending = true := by
  unfold Decimal.Numeral.ending
  cases n.exponent with
  | none => rfl
  | some e =>
    have hdigits : (Nat.toDigits 10 e.natAbs).all Char.isDigit = true :=
      all_eq_true.mpr fun _ => Decimal.isDigit_of_mem
    have hempty : (Nat.toDigits 10 e.natAbs).isEmpty = false :=
      isEmpty_eq_false_iff.mpr Nat.toDigits_ne_nil
    simp only [Option.elim]
    split_ifs <;> simp [isExponent, hdigits, hempty]

lemma isDigitsThen_numeral {n : Decimal.Numeral} (h : n.Legible) :
    isDigitsThen isFraction n.text = true := by
  unfold Decimal.Numeral.text
  rw [append_assoc, isDigitsThen_append h.whole h.ne_nil]
  · split_ifs with hempty
    · rw [nil_append, isFraction]
      · exact isExponent_ending n
      · rintro cs hcs
        exact absurd (hcs ▸ mem_cons_self) (Decimal.Numeral.point_notMem_ending (n := n))
    · rw [cons_append, isFraction, isDigitsThen_append h.fraction (by simpa using hempty)
        n.takeWhile_ending]
      exact isExponent_ending n
  · split_ifs
    · exact n.takeWhile_ending
    · rfl

lemma isNumber_of_isDigitsThen {cs : List Char} (h : isDigitsThen isFraction cs = true) :
    isNumber cs = true := by
  unfold isNumber
  split
  · cases h
  · exact h

lemma isNumber_text {n : Double} (h : n.isFinite = true) :
    isNumber n.text.toList = true ∧ ∀ c ∈ n.text.toList, isWordChar c = true := by
  unfold Double.isFinite at h
  unfold Double.text
  split at h
  · rename_i negative mantissa exponent hread
    simp only [hread]
    obtain ⟨count, place, htext⟩ := Double.exists_layout mantissa exponent
    have hdigits : ∀ c ∈ (Decimal.ofCount count place).digits, c.isDigit = true := fun _ =>
      Decimal.isDigit_of_mem
    have hne : (Decimal.ofCount count place).digits ≠ [] := Nat.toDigits_ne_nil
    have hchars : ∀ c ∈ (Decimal.ofCount count place).layout Double.scriptStyle,
        isWordChar c = true := by
      intro c hc
      rcases Decimal.mem_layout hc with hdigit | hmark
      · simp [isWordChar, Char.isAlphanum, hdigit]
      · exact all_eq_true.mp (rfl : ['0', '.', 'e', '+', '-'].all isWordChar = true) c hmark
    have hnumber : isDigitsThen isFraction
        ((Decimal.ofCount count place).layout Double.scriptStyle) = true := by
      rw [Decimal.layout_eq_text _ hne]
      exact isDigitsThen_numeral (Decimal.legible_parts _ hdigits hne)
    split_ifs
    · exact ⟨rfl, all_eq_true.mp rfl⟩
    · rw [String.toList_append, htext]
      exact ⟨hnumber, forall_mem_cons.mpr ⟨by decide, hchars⟩⟩
    · rw [htext]
      exact ⟨isNumber_of_isDigitsThen hnumber, hchars⟩
  · cases h

end Numbers

/-! ### Literals of constants -/

section Constants

variable (items : List Constant) (entries : List (String × Constant))

open Constant (eq_map_of_cons)

lemma literal_array :
    literal (.array items) = "[" ++ String.intercalate ", " (items.map literal) ++ "]" :=
  congrArg (fun texts => "[" ++ String.intercalate ", " texts ++ "]")
    (eq_map_of_cons rfl (fun _ _ => rfl) items)

lemma literal_object :
    literal (.object entries) = "\x7b" ++ String.intercalate ", "
      (entries.map fun entry => quoted entry.1 ++ ": " ++ literal entry.2) ++ "\x7d" :=
  congrArg (fun texts => "\x7b" ++ String.intercalate ", " texts ++ "\x7d")
    (eq_map_of_cons rfl (fun _ _ => rfl) entries)

lemma Value.of_array : Value.of (.array items) = .list (items.map Value.of) :=
  congrArg Value.list (eq_map_of_cons rfl (fun _ _ => rfl) items)

lemma Value.of_object :
    Value.of (.object entries) = .map (entries.map fun entry => (entry.1, Value.of entry.2)) :=
  congrArg Value.map (eq_map_of_cons rfl (fun _ _ => rfl) entries)

end Constants

def FiniteNumbers : Constant → Prop :=
  Constant.Throughout fun c => ∀ n, c = .number n → n.isFinite = true

lemma lexes_literal {c : Constant} (h : FiniteNumbers c) :
    ∃ ts, Lexes (literal c).toList ts ∧ Denotes ts (.of c) := by
  induction h with
  | @mk c here parts ih =>
    cases c with
    | undefined | null => exact ⟨_, lexes_word (all_eq_true.mp rfl) (by decide), .word rfl⟩
    | bool b => cases b <;> exact ⟨_, lexes_word (all_eq_true.mp rfl) (by decide), .word rfl⟩
    | number n =>
      obtain ⟨hnumber, hchars⟩ := isNumber_text (here n rfl)
      refine ⟨[.word n.text.toList], lexes_word hchars ?_, .word ?_⟩
      · intro hnil
        rw [show n.text.toList = [] from hnil] at hnumber
        cases hnumber
      · rw [word?, if_pos hnumber, String.ofList_toList]
        rfl
    | string s | handle s =>
      have htext := Denotes.text s.toList
      rw [String.ofList_toList] at htext
      exact ⟨_, lexes_quoted s, htext⟩
    | array items =>
      choose! tokens hlexes hdenotes using ih
      have hscan := (scans_singleton (m := .between) (c := '[') rfl).append
        (scans_intercalate (show ∀ c ∈ items, _ from hlexes) (c := ']') rfl)
      have hlist := Denotes.list (items.map fun c => (tokens c, .of c))
        (forall_mem_map.mpr hdenotes)
      simp only [map_map, Function.comp_def] at hlist
      refine ⟨_, .of_scans ?_, Value.of_array items ▸ hlist⟩
      rw [literal_array]
      simpa [String.toList_intercalate, Function.comp_def] using hscan
    | object entries =>
      choose! tokens hlexes hdenotes using ih
      have hentry : ∀ entry ∈ entries, Lexes (quoted entry.1 ++ ": " ++ literal entry.2).toList
          (.text entry.1.toList :: .mark ':' :: tokens entry.2) := by
        intro entry hentry
        have hkey := ((lexes_quoted entry.1).mark (c := ':') rfl).append
          (scans_singleton (m := .between) (c := ' ') rfl)
        simpa using Lexes.cons hkey (hlexes entry.2 (mem_map_of_mem hentry))
      have hscan := (scans_singleton (m := .between) (c := '\x7b') rfl).append
        (scans_intercalate hentry (c := '\x7d') rfl)
      have hmap := Denotes.map (entries.map fun entry => (entry.1, tokens entry.2, .of entry.2))
        (forall_mem_map.mpr fun entry hentry => hdenotes entry.2 (mem_map_of_mem hentry))
      simp only [map_map, Function.comp_def] at hmap
      refine ⟨_, .of_scans ?_, Value.of_object entries ▸ hmap⟩
      rw [literal_object]
      simpa [String.toList_intercalate, Function.comp_def] using hscan

/-- The literal of a constant with finite numbers has one reading: the value it was written for. -/
theorem literal_reads_back {c : Constant} (h : FiniteNumbers c) :
    read? (literal c) = some (.of c) ∧ ∀ v, Reads (literal c) v ↔ v = .of c := by
  obtain ⟨ts, hlexes, hdenotes⟩ := lexes_literal h
  have hreads : Reads (literal c) (.of c) := ⟨ts, hlexes.tokens?, hdenotes⟩
  refine ⟨hreads.read?_eq, fun v => ⟨fun hv => ?_, fun hv => hv ▸ hreads⟩⟩
  exact Option.mem_unique hv.read?_eq hreads.read?_eq

/-- An object with quotes, a comma and a bracket in its texts, a number with an exponent and a
missing value. -/
def notice : Constant :=
  .object [("it's", .array [.number (-Double.ofNat (15 * 10 ^ 24)), .undefined]),
    ("to", .handle "', ]"), ("more", .object [])]

theorem literal_reads_back_notice : FiniteNumbers notice ∧
    literal notice = "\x7b'it''s': [-1.5e+25, $null], 'to': ''', ]', 'more': \x7b\x7d\x7d" ∧
    read? (literal notice) = some (.map [("it's", .list [.number "-1.5e+25", .null]),
      ("to", .string "', ]"), ("more", .map [])]) ∧
    ∀ v, Reads (literal notice) v → read? (literal notice) = some v := by
  have hnumber : (-Double.ofNat (15 * 10 ^ 24)).isFinite = true := by decide +kernel
  have htext : (-Double.ofNat (15 * 10 ^ 24)).text = "-1.5e+25" := by decide +kernel
  have hfinite : FiniteNumbers notice := by
    refine .mk (by simp [notice]) ?_
    simp only [notice, Constant.parts, map_cons, map_nil, forall_mem_cons]
    refine ⟨.mk (by simp) ?_, .leaf (by simp) rfl, .leaf (by simp) rfl, by simp⟩
    simp only [Constant.parts, forall_mem_cons]
    exact ⟨.leaf (fun n hn => Constant.number.inj hn ▸ hnumber) rfl, .leaf (by simp) rfl, by simp⟩
  obtain ⟨hread, hreads⟩ := literal_reads_back hfinite
  refine ⟨hfinite, by decide +kernel, ?_, fun v hv => ?_⟩
  · rw [hread]
    simp only [notice, Value.of, Value.of.ofItems, Value.of.ofEntries, htext]
  · rw [hread, (hreads v).mp hv]

end ServiceFlow.Template.Literal
