import Mathlib.Data.List.TakeWhile
import ServiceFlow.Proofs.LocalPlaces
import ServiceFlow.Proofs.NumberTexts

/-!
# References in templates

A text refers to a variable by a word behind a dollar sign, which may stand in braces; in single
quotes nothing is referred to. Texts that are put together refer to what their parts refer to, as
long as no word of one part goes on in the next.
-/

namespace ServiceFlow.Template

open List

/-- The quotes around a position of a text. -/
inductive Quoting where
  | plain
  | single
  | double
deriving DecidableEq, Repr

/-- The quotes after a character. -/
def Quoting.next : Quoting → Char → Quoting
  | .plain, '\'' => .single
  | .plain, '"' => .double
  | .single, '\'' => .plain
  | .double, '"' => .plain
  | q, _ => q

def isWordChar (c : Char) : Bool := c.isAlphanum || c = '_'

/-- The name after a dollar sign. -/
def leadingWord : List Char → List Char
  | '\x7b' :: rest => rest.takeWhile isWordChar
  | rest => rest.takeWhile isWordChar

/-- The names that a text refers to. -/
def references : Quoting → List Char → List (List Char)
  | _, [] => []
  | q, c :: rest =>
    (if c = '$' ∧ q ≠ .single then [leadingWord rest] else []) ++ references (q.next c) rest

/-- The name of a temporary. -/
def isTemporary : List Char → Bool
  | 'v' :: digits => !digits.isEmpty && digits.all Char.isDigit
  | _ => false

/-- A text that ends in what it began in, and refers to no other temporaries. -/
structure Refers (q : Quoting) (held : List String) (text : String) : Prop where
  quoting : text.toList.foldl Quoting.next q = q
  temporaries : ∀ word ∈ references q text.toList, isTemporary word = true →
    "$" ++ String.ofList word ∈ held

def Plain (text : String) : Prop := ∀ c ∈ text.toList, c ∉ ['$', '\'', '"']

instance (text : String) : Decidable (Plain text) :=
  List.decidableBAll (fun c => c ∉ ['$', '\'', '"']) text.toList

section Words

variable {a b : List Char}

/-- A character that ends a name. -/
def isBreak (c : Char) : Bool := !isWordChar c && c != '\x7b'

/-- A text that ends the name before it. -/
def Opens (b : List Char) : Prop := b.head?.any isBreak = true

/-- A text whose last word does not go on in the text after it. -/
def Closed (a : List Char) : Prop :=
  ∀ q b, references q (a ++ b) = references q a ++ references (a.foldl Quoting.next q) b

variable {c : Char} {name : String}

lemma isBreak_iff : isBreak c = true ↔ isWordChar c = false ∧ c ≠ '\x7b' := by
  simp [isBreak]

lemma takeWhile_append_of_stop {p : Char → Bool}
    (h : (∃ c ∈ a, p c = false) ∨ b.head?.any (fun c => !p c) = true) :
    (a ++ b).takeWhile p = a.takeWhile p := by
  induction a with
  | nil =>
    obtain ⟨c, hhead, hc⟩ := (Option.any_eq_true _ _).mp (h.resolve_left (by simp))
    obtain ⟨rest, rfl⟩ := head?_eq_some_iff.mp hhead
    simpa using hc
  | cons x a ih =>
    rw [cons_append, takeWhile_cons, takeWhile_cons]
    split_ifs with hx
    · rw [ih (h.imp_left fun ⟨c, hc, hstop⟩ => ⟨c, by grind, hstop⟩)]
    · rfl

lemma leadingWord_append (h : a.getLast?.any isBreak = true ∨ Opens b) :
    leadingWord (a ++ b) = leadingWord a := by
  cases a with
  | nil =>
    obtain ⟨c, hhead, hc⟩ := (Option.any_eq_true _ _).mp (h.resolve_left (by simp))
    obtain ⟨rest, rfl⟩ := head?_eq_some_iff.mp hhead
    simp [leadingWord, isBreak_iff.mp hc]
  | cons x a =>
    have hstop : ∀ {cs : List Char}, (∀ c ∈ x :: a, isBreak c = true → c ∈ cs) →
        (∃ c ∈ cs, isWordChar c = false) ∨ b.head?.any (fun c => !isWordChar c) = true := by
      intro cs hcs
      refine h.imp (fun hlast => ?_) fun hopens => ?_
      · obtain ⟨c, ha, hc⟩ := (Option.any_eq_true _ _).mp hlast
        exact ⟨c, hcs c (mem_of_getLast? ha) hc, (isBreak_iff.mp hc).1⟩
      · obtain ⟨c, hb, hc⟩ := (Option.any_eq_true _ _).mp hopens
        exact (Option.any_eq_true _ _).mpr ⟨c, hb, by simp [isBreak_iff.mp hc]⟩
    by_cases hx : x = '\x7b'
    · subst hx
      exact takeWhile_append_of_stop
        (hstop fun c hc hbreak => (mem_cons.mp hc).resolve_left (isBreak_iff.mp hbreak).2)
    · have hword : ∀ cs, leadingWord (x :: cs) = (x :: cs).takeWhile isWordChar := by
        simp [leadingWord, hx]
      rw [cons_append, hword, hword]
      exact takeWhile_append_of_stop (hstop fun c hc _ => hc)

lemma references_append_of_opens (h : Opens b) (q : Quoting) :
    references q (a ++ b) = references q a ++ references (a.foldl Quoting.next q) b := by
  induction a generalizing q with
  | nil => rfl
  | cons x a ih =>
    rw [cons_append, references, references, ih, leadingWord_append (.inr h),
      append_assoc, foldl_cons]

lemma closed_of_getLast? (h : a.getLast?.any (fun c => isBreak c && c != '$') = true) :
    Closed a := by
  obtain ⟨c, ha, hc⟩ := (Option.any_eq_true _ _).mp h
  obtain ⟨hbreak, hdollar⟩ := Bool.and_eq_true_iff.mp hc
  intro q b
  clear h
  induction a generalizing q with
  | nil => cases ha
  | cons x a ih =>
    rw [cons_append, references, references, foldl_cons, append_assoc]
    cases a with
    | nil =>
      obtain rfl : x = c := by simpa using ha
      simp [bne_iff_ne.mp hdollar, references]
    | cons y a =>
      have ha : (y :: a).getLast? = some c := by rwa [getLast?_cons_cons] at ha
      rw [ih ha, leadingWord_append (.inl (by simp [ha, hbreak]))]

lemma references_append_of_notMem (h : '$' ∉ a) (q : Quoting) :
    references q (a ++ b) = references (a.foldl Quoting.next q) b := by
  induction a generalizing q with
  | nil => rfl
  | cons x a ih =>
    obtain ⟨hx, ha⟩ := not_or.mp fun hmem => h (mem_cons.mpr hmem)
    rw [cons_append, references, if_neg fun hd => hx hd.1.symm, ih ha]
    rfl

lemma references_of_notMem (h : '$' ∉ a) (q : Quoting) : references q a = [] := by
  simpa [references] using references_append_of_notMem (b := []) h q

lemma closed_of_notMem (h : '$' ∉ a) : Closed a := fun q b => by
  rw [references_append_of_notMem h, references_of_notMem h, nil_append]

lemma Closed.append (ha : Closed a) (hb : Closed b) : Closed (a ++ b) := by
  intro q rest
  rw [append_assoc, ha, hb, ha, foldl_append, append_assoc]

end Words

section Texts

variable {q : Quoting} {held others : List String} {a b text : String} {cs : List Char}

namespace Refers

lemma mono (h : Refers q held text) (hsub : held ⊆ others) : Refers q others text :=
  ⟨h.quoting, fun word hword htemporary => hsub (h.temporaries word hword htemporary)⟩

lemma append (ha : Refers q held a) (hb : Refers q held b)
    (h : Closed a.toList ∨ Opens b.toList) : Refers q held (a ++ b) := by
  have hwords : references q (a ++ b).toList = references q a.toList ++ references q b.toList := by
    rw [String.toList_append]
    rcases h with h | h
    · rw [h, ha.quoting]
    · rw [references_append_of_opens h, ha.quoting]
  refine ⟨by rw [String.toList_append, foldl_append, ha.quoting, hb.quoting], ?_⟩
  rw [hwords]
  exact forall_mem_append.mpr ⟨ha.temporaries, hb.temporaries⟩

end Refers

lemma refers_of_given (h : text.toList.foldl Quoting.next .plain = .plain ∧
    ∀ word ∈ references .plain text.toList, isTemporary word = false := by decide) :
    Refers .plain held text :=
  ⟨h.1, fun word hword htemporary => by simp [h.2 word hword] at htemporary⟩

lemma foldl_next_of (h : ∀ c ∈ cs, q.next c = q) : cs.foldl Quoting.next q = q := by
  induction cs with
  | nil => rfl
  | cons c cs ih =>
    obtain ⟨hc, hcs⟩ := forall_mem_cons.mp h
    rw [foldl_cons, hc, ih hcs]

lemma references_of_plain (h : ∀ c ∈ cs, c ∉ ['$', '\'', '"']) (q : Quoting) :
    references q cs = [] ∧ cs.foldl Quoting.next q = q := by
  refine ⟨references_of_notMem (fun hmem => h _ hmem (by simp)) q, foldl_next_of fun c hc => ?_⟩
  have hplain := h c hc
  simp only [mem_cons, not_mem_nil, or_false, not_or] at hplain
  unfold Quoting.next
  split <;> simp_all

lemma Plain.refers (h : Plain text) : Refers q held text := by
  obtain ⟨hwords, hquoting⟩ := references_of_plain h q
  exact ⟨hquoting, by simp [hwords]⟩

lemma Plain.closed (h : Plain text) : Closed text.toList :=
  closed_of_notMem fun hmem => h _ hmem (by simp)

lemma refers_of_isSafeFragment (h : isSafeFragment text = true) :
    Refers .double held text ∧ Closed text.toList := by
  simp only [isSafeFragment, all_eq_true, Bool.and_eq_true, decide_eq_true_eq] at h
  have hdollar : '$' ∉ text.toList := fun hmem => (h _ hmem).1.1.2 rfl
  refine ⟨⟨foldl_next_of fun c hc => ?_, by simp [references_of_notMem hdollar]⟩,
    closed_of_notMem hdollar⟩
  have hquote := (h c hc).1.1.1
  unfold Quoting.next
  split <;> simp_all

lemma plain_append (ha : Plain a) (hb : Plain b) : Plain (a ++ b) := by
  rw [Plain, String.toList_append]
  exact forall_mem_append.mpr ⟨ha, hb⟩

lemma refers_quoted (text : String) : Refers .plain held (quoted text) := by
  have hinner : ∀ cs rest : List Char,
      references .single (cs.flatMap (fun c => if c = '\'' then ['\'', '\''] else [c]) ++ rest) =
        references .single rest ∧
      (cs.flatMap fun c => if c = '\'' then ['\'', '\''] else [c]).foldl Quoting.next .single =
        .single := by
    intro cs rest
    induction cs with
    | nil => exact ⟨rfl, rfl⟩
    | cons c cs ih =>
      rw [flatMap_cons, foldl_append, append_assoc]
      split_ifs with hc
      · exact ih
      · have hnext : Quoting.next .single c = .single := by
          unfold Quoting.next
          split <;> simp_all
        simpa [references, hnext] using ih
  obtain ⟨hwords, hquoting⟩ := hinner text.toList ['\'']
  have hlist : (quoted text).toList = '\'' :: (text.toList.flatMap
      (fun c => if c = '\'' then ['\'', '\''] else [c]) ++ ['\'']) := by
    simp [quoted]
  constructor
  · rw [hlist, foldl_cons, foldl_append]
    exact congrArg (fun q => foldl Quoting.next q ['\'']) hquoting
  · have hnone : references .plain (quoted text).toList = [] := by
      rw [hlist]
      simpa [references, Quoting.next] using hwords
    simp [hnone]

lemma closed_append (a : String)
    (h : b.toList.getLast?.any (fun c => isBreak c && c != '$') = true) :
    Closed (a ++ b).toList := by
  refine closed_of_getLast? ?_
  rw [String.toList_append, getLast?_append]
  exact Option.any_or_of_any_left h

lemma opens_append (b : String) (h : Opens a.toList) : Opens (a ++ b).toList := by
  rw [String.toList_append, Opens, head?_append]
  exact Option.any_or_of_any_left h

lemma refers_variable (h : Plain name)
    (htemporary : isTemporary (leadingWord name.toList) = true →
      "$" ++ String.ofList (leadingWord name.toList) ∈ held) :
    Refers .plain held ("$" ++ name) := by
  obtain ⟨hwords, hquoting⟩ := references_of_plain h .plain
  have hlist : ("$" ++ name).toList = '$' :: name.toList := by simp
  constructor
  · rw [hlist, foldl_cons]
    exact hquoting
  · have hone : references .plain ("$" ++ name).toList = [leadingWord name.toList] := by
      rw [hlist, references, if_pos ⟨rfl, by decide⟩]
      exact congrArg (_ :: ·) hwords
    rw [hone]
    exact forall_mem_singleton.mpr htemporary

lemma refers_intercalate {texts : List String} (h : ∀ text ∈ texts, Refers .plain held text) :
    Refers .plain held (String.intercalate ", " texts) := by
  induction texts with
  | nil => exact refers_of_given
  | cons text texts ih =>
    obtain ⟨htext, htexts⟩ := forall_mem_cons.mp h
    cases texts with
    | nil => rwa [String.intercalate_singleton]
    | cons next texts =>
      have hcomma : Refers .plain held ", " := refers_of_given
      rw [String.intercalate_cons_cons, String.append_assoc]
      exact htext.append (hcomma.append (ih htexts) (.inl (closed_of_getLast? rfl)))
        (.inr (opens_append _ rfl))

lemma Refers.between (h : Refers .plain held text) (ha : Refers .plain held a)
    (hb : Refers .plain held b) (hclosed : Closed a.toList) (hopens : Opens b.toList) :
    Refers .plain held (a ++ text ++ b) :=
  (ha.append h (.inl hclosed)).append hb (.inr hopens)

end Texts

section Constants

variable {held : List String}

lemma plain_of_isDigit (h : c.isDigit = true) : c ∉ ['$', '\'', '"'] := by
  intro hmem
  simp only [mem_cons, not_mem_nil, or_false] at hmem
  rcases hmem with rfl | rfl | rfl <;> exact absurd h (by decide)

lemma plain_digits (n : Nat) : Plain (toString n) := by
  simpa [Plain] using fun c hc => by
    simpa using plain_of_isDigit (Decimal.isDigit_of_mem hc)

lemma plain_text (n : Double) : Plain n.text := by
  have hmagnitude : ∀ mantissa exponent,
      Plain (Double.magnitudeText Double.scriptStyle mantissa exponent) := by
    intro mantissa exponent c hc
    obtain ⟨count, place, htext⟩ := Double.exists_layout mantissa exponent
    rw [htext] at hc
    rcases Decimal.mem_layout hc with hdigit | hmark
    · exact plain_of_isDigit hdigit
    · grind
  unfold Double.text
  split
  · decide
  · split_ifs <;> decide
  · split_ifs
    · decide
    · exact plain_append (by decide) (hmagnitude _ _)
    · exact hmagnitude _ _

mutual

lemma refers_literal : ∀ c : Constant, Refers .plain held (literal c)
  | .undefined | .null => refers_of_given
  | .bool true | .bool false => refers_of_given
  | .number n => (plain_text n).refers
  | .string s | .handle s => refers_quoted s
  | .array items => (refers_intercalate (refers_itemLiterals items)).between
      refers_of_given refers_of_given (closed_of_getLast? rfl) rfl
  | .object entries => (refers_intercalate (refers_entryLiterals entries)).between
      refers_of_given refers_of_given (Plain.closed (by decide)) rfl

lemma refers_itemLiterals : ∀ items : List Constant,
    ∀ text ∈ literal.itemLiterals items, Refers .plain held text
  | [] => by simp [literal.itemLiterals]
  | item :: items => forall_mem_cons.mpr ⟨refers_literal item, refers_itemLiterals items⟩

lemma refers_entryLiterals : ∀ entries : List (String × Constant),
    ∀ text ∈ literal.entryLiterals entries, Refers .plain held text
  | [] => by simp [literal.entryLiterals]
  | (key, value) :: entries => by
    refine forall_mem_cons.mpr ⟨?_, refers_entryLiterals entries⟩
    have hmark : Refers .plain held ": " := refers_of_given
    exact ((refers_quoted key).append hmark (.inr rfl)).append (refers_literal value)
      (.inl (closed_append _ rfl))

end

end Constants

section Joints

variable {held : List String} {t : Term} {joint value : String}

/-- A text that joins values: it reads no temporaries, and no word goes on over its ends. -/
structure Joins (held : List String) (joint : String) : Prop where
  refers : Refers .plain held joint
  closed : Closed joint.toList
  opens : Opens joint.toList

lemma joins_of_plain (h : Plain joint) (hopens : Opens joint.toList) : Joins held joint :=
  ⟨h.refers, h.closed, hopens⟩

lemma plain_of_isIdentifierName (h : isIdentifierName name = true) (hdollar : '$' ∉ name.toList) :
    Plain name := by
  unfold isIdentifierName at h
  have hpart : ∀ c, isNameStart c = true ∨ isNamePart c = true → c ∉ ['\'', '"'] := by
    intro c hc hmem
    simp only [mem_cons, not_mem_nil, or_false] at hmem
    rcases hmem with rfl | rfl <;> exact absurd hc (by decide)
  intro c hc hmem
  rcases mem_cons.mp hmem with rfl | hmem
  · exact hdollar hc
  · refine hpart c ?_ hmem
    split at h
    · cases h
    · grind

lemma joins_member (name : String) : Joins held (member name) := by
  unfold member
  split_ifs with hlength hname
  · exact joins_of_plain (by decide) rfl
  · simp only [Bool.and_eq_true, Bool.not_eq_true', contains_eq_mem, decide_eq_false_iff_not]
      at hname
    exact joins_of_plain (plain_append (by decide) (plain_of_isIdentifierName hname.1 hname.2))
      (opens_append _ rfl)
  · exact ⟨(refers_quoted name).between refers_of_given refers_of_given
      (closed_of_getLast? rfl) rfl, closed_append _ rfl, opens_append _ (opens_append _ rfl)⟩

lemma Joint.joins (h : Joint t joint) (hmethod : ∀ {id : NodeId} {receiver : Term} {name : String}
    {chained : Bool} {arguments : List Term},
    t.node = .callExpr (.mk id (.propertyAccess receiver name chained)) arguments →
    Plain (methodName name)) : Joins held joint := by
  cases h with
  | mark h =>
    have hmarks : ∀ text ∈ marks, (text.toList.foldl Quoting.next .plain = .plain ∧
        ∀ word ∈ references .plain text.toList, isTemporary word = false) ∧
        text.toList.getLast?.any (fun c => isBreak c && c != '$') = true ∧
        text.toList.head?.any isBreak = true := by
      decide
    obtain ⟨hgiven, hlast, hhead⟩ := hmarks joint h
    exact ⟨refers_of_given hgiven, closed_of_getLast? hlast, hhead⟩
  | operator op => cases op <;> exact joins_of_plain (by decide) rfl
  | member name => exact joins_member name
  | method h =>
    exact joins_of_plain (plain_append (plain_append (by decide) (hmethod h)) (by decide))
      (opens_append _ (opens_append _ rfl))
  | key key =>
    have hmark : Refers .plain held ": " := refers_of_given
    exact ⟨(refers_quoted key).append hmark (.inr rfl), closed_append _ rfl,
      opens_append _ (opens_append _ (opens_append _ rfl))⟩

lemma Joins.before (h : Joins held joint) (hvalue : Refers .plain held value) :
    Refers .plain held (joint ++ value) := h.refers.append hvalue (.inl h.closed)

lemma Joins.after (h : Joins held joint) (hvalue : Refers .plain held value) :
    Refers .plain held (value ++ joint) := hvalue.append h.refers (.inr h.opens)

lemma Joins.between {other : String} (h : Joins held joint) (hvalue : Refers .plain held value)
    (hother : Refers .plain held other) : Refers .plain held (value ++ joint ++ other) := by
  rw [String.append_assoc]
  exact hvalue.append (h.before hother) (.inr (opens_append _ h.opens))

lemma refers_formal (hchain : isReferenceChain value = true) (h : Refers .plain held value) :
    Refers .double held (formal value) ∧ Closed (formal value).toList := by
  refine ⟨?_, closed_append _ rfl⟩
  unfold isReferenceChain at hchain
  split at hchain
  · next rest hvalue =>
    simp only [Bool.and_eq_true, all_eq_true] at hchain
    have hplain : ∀ c ∈ rest, c ∉ ['$', '\'', '"'] ∧ c ≠ '\x7b' := by
      intro c hc
      have hword := hchain.2 c hc
      refine ⟨fun hmem => ?_, ?_⟩
      · simp only [mem_cons, not_mem_nil, or_false] at hmem
        rcases hmem with rfl | rfl | rfl <;> exact absurd hword (by decide)
      · rintro rfl
        exact absurd hword (by decide)
    have hlist : (formal value).toList = '$' :: '\x7b' :: (rest ++ ['\x7d']) := by
      simp [formal, hvalue]
    have htail : ∀ c ∈ '\x7b' :: (rest ++ ['\x7d']), c ∉ ['$', '\'', '"'] := by
      intro c hc
      simp only [mem_cons, mem_append, not_mem_nil, or_false] at hc
      rcases hc with rfl | hc | rfl
      · decide
      · exact (hplain c hc).1
      · decide
    obtain ⟨hwords, hquoting⟩ := references_of_plain htail .double
    have hleading : leadingWord ('\x7b' :: (rest ++ ['\x7d'])) = leadingWord rest := by
      have hrest : leadingWord rest = rest.takeWhile isWordChar := by
        cases rest with
        | nil => rfl
        | cons c rest => simp [leadingWord, (hplain c mem_cons_self).2]
      rw [hrest]
      exact takeWhile_append_of_stop (.inr rfl)
    constructor
    · rw [hlist, foldl_cons]
      exact hquoting
    · rw [hlist, references, if_pos ⟨rfl, by decide⟩, hleading]
      refine forall_mem_append.mpr ⟨forall_mem_singleton.mpr ?_, ?_⟩
      · refine h.temporaries _ ?_
        rw [hvalue, references, if_pos ⟨rfl, by decide⟩]
        exact mem_cons_self
      · have hnext : Quoting.next .double '$' = .double := rfl
        rw [hnext, hwords]
        simp
  · cases hchain

lemma toList_temporaryVariable (number : Nat) :
    (temporaryVariable number).toList = '$' :: 'v' :: Nat.toDigits 10 number := by
  simp [temporaryVariable]

lemma isReferenceChain_temporaryVariable (number : Nat) :
    isReferenceChain (temporaryVariable number) = true := by
  rw [isReferenceChain, toList_temporaryVariable]
  simp only [isEmpty_cons, Bool.not_false, Bool.true_and, all_cons, all_eq_true, Bool.and_eq_true]
  refine ⟨by decide, fun c hc => ?_⟩
  simp [Char.isAlphanum, Decimal.isDigit_of_mem hc]

lemma leadingWord_of_isTemporary {word : List Char} (h : isTemporary word = true) :
    leadingWord word = word := by
  unfold isTemporary at h
  split at h
  · next digits =>
    simp only [Bool.and_eq_true, all_eq_true] at h
    refine takeWhile_eq_self_iff.mpr fun c hc => ?_
    rcases mem_cons.mp hc with rfl | hc
    · decide
    · simp [isWordChar, Char.isAlphanum, h.2 c hc]
  · cases h

lemma isTemporary_digits (number : Nat) : isTemporary ("v" ++ toString number).toList = true := by
  have hlist : ("v" ++ toString number).toList = 'v' :: Nat.toDigits 10 number := by simp
  have hdigits : ∀ c ∈ Nat.toDigits 10 number, c.isDigit = true := fun _ => Decimal.isDigit_of_mem
  simpa [hlist, isTemporary] using hdigits

lemma refers_temporaryVariable {number : Nat} (h : temporaryVariable number ∈ held) :
    Refers .plain held (temporaryVariable number) := by
  rw [temporaryVariable_eq] at h ⊢
  refine refers_variable (plain_append (by decide) (plain_digits number)) fun _ => ?_
  rwa [leadingWord_of_isTemporary (isTemporary_digits number), String.ofList_toList]

end Joints

end ServiceFlow.Template
