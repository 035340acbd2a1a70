import ServiceFlow.Proofs.NumberTexts
import ServiceFlow.Reference.Path

/-!
# Texts of reference paths

A path can be told from its text. Where a key ends in a backslash the text can also be read on, as
that of a longer key. Two readings that part there never meet again: one is inside a key while the
other is between segments.
-/

namespace ServiceFlow

open List

namespace Segment

/-- A name with its quotes escaped. -/
def escaped (name : List Char) : List Char :=
  name.flatMap fun c => if c = '\'' then ['\\', '\''] else [c]

/-- The text of segments. -/
def texts (segments : List Segment) : List Char := segments.flatMap fun s => s.access.toList

lemma toList_appendSegments (base : String) (segments : List Segment) :
    (appendSegments base segments).toList = base.toList ++ texts segments := by
  induction segments generalizing base with
  | nil => simp [appendSegments, texts]
  | cons s segments ih =>
    have hstep : appendSegments base (s :: segments) = appendSegments (base ++ s.access) segments :=
      rfl
    rw [hstep, ih, texts, texts, flatMap_cons, String.toList_append, append_assoc]

variable {k k' r r' w : List Char} {c : Char}

lemma escaped_quote (k : List Char) : escaped ('\'' :: k) = '\\' :: '\'' :: escaped k := rfl

lemma escaped_cons (h : c ≠ '\'') (k : List Char) : escaped (c :: k) = c :: escaped k := by
  rw [escaped, flatMap_cons, if_neg h]
  rfl

lemma escaped_of_quote (h : '\'' :: r = escaped k ++ '\'' :: r') : k = [] ∧ r = r' := by
  cases k with
  | nil => simpa [escaped] using h
  | cons d k =>
    by_cases hd : d = '\''
    · subst hd
      simp [escaped_quote] at h
    · rw [escaped_cons hd, cons_append, cons.injEq] at h
      exact absurd h.1.symm hd

lemma escaped_of_cons (hquote : c ≠ '\'') (hslash : c ≠ '\\')
    (h : c :: r = escaped k ++ '\'' :: r') : ∃ k', k = c :: k' ∧ r = escaped k' ++ '\'' :: r' := by
  cases k with
  | nil =>
    rw [escaped, flatMap_nil, nil_append, cons.injEq] at h
    exact absurd h.1 hquote
  | cons d k =>
    by_cases hd : d = '\''
    · subst hd
      rw [escaped_quote, cons_append, cons.injEq] at h
      exact absurd h.1 hslash
    · rw [escaped_cons hd, cons_append, cons.injEq] at h
      exact ⟨k, by rw [h.1], h.2⟩

lemma escaped_of_append (hw : ∀ c ∈ w, c ≠ '\'' ∧ c ≠ '\\')
    (h : w ++ r = escaped k ++ '\'' :: r') : ∃ k', k = w ++ k' ∧ r = escaped k' ++ '\'' :: r' := by
  induction w generalizing k with
  | nil => exact ⟨k, rfl, h⟩
  | cons c w ih =>
    obtain ⟨⟨hquote, hslash⟩, hw⟩ := forall_mem_cons.mp hw
    obtain ⟨k₁, rfl, h₁⟩ := escaped_of_cons hquote hslash h
    obtain ⟨k₂, rfl, h₂⟩ := ih hw h₁
    exact ⟨k₂, rfl, h₂⟩

lemma isNamePart_of_mem {name : String} (h : isIdentifierName name = true) :
    ∀ c ∈ name.toList, isNamePart c = true := by
  unfold isIdentifierName at h
  split at h
  · cases h
  · rename_i c rest hname
    rw [Bool.and_eq_true, all_eq_true] at h
    rw [hname]
    refine forall_mem_cons.mpr ⟨?_, h.2⟩
    revert h
    simp only [isNameStart, isNamePart, Char.isAlphanum]
    grind

lemma access_cases (s : Segment) :
    (∃ name, s = .key name ∧ (∀ c ∈ name.toList, isNamePart c = true) ∧
      s.access.toList = '.' :: name.toList) ∨
    (∃ name, s = .key name ∧
      s.access.toList = '[' :: '\'' :: (escaped name.toList ++ ['\'', ']'])) ∨
    ∃ n, s = .index n ∧ s.access.toList = '[' :: (Nat.toDigits 10 n ++ [']']) := by
  cases s with
  | key name =>
    by_cases hname : isIdentifierName name = true
    · exact .inl ⟨name, rfl, isNamePart_of_mem hname, by simp [access, hname]⟩
    · exact .inr (.inl ⟨name, rfl, by simp [access, hname, quoted, escaped]⟩)
  | index n => exact .inr (.inr ⟨n, rfl, by simp [access]⟩)

lemma plain_or_quoted (s : Segment) :
    (∀ c ∈ s.access.toList, c ≠ '\'' ∧ c ≠ '\\') ∨
      ∃ name : String, s.access.toList = '[' :: '\'' :: (escaped name.toList ++ ['\'', ']']) := by
  have hpart : ∀ c, isNamePart c = true → c ≠ '\'' ∧ c ≠ '\\' := by
    intro c hc
    constructor <;> rintro rfl <;> revert hc <;> decide
  obtain ⟨name, -, hname, haccess⟩ | ⟨name, -, haccess⟩ | ⟨n, -, haccess⟩ := access_cases s
  · left
    rw [haccess]
    exact forall_mem_cons.mpr ⟨by decide, fun c hc => hpart c (hname c hc)⟩
  · exact .inr ⟨name, haccess⟩
  · left
    rw [haccess]
    refine forall_mem_cons.mpr ⟨by decide, forall_mem_append.mpr ⟨?_, by simp⟩⟩
    exact fun c hc => hpart c (by simp [isNamePart, Char.isAlphanum, Decimal.isDigit_of_mem hc])

variable {p q : List Segment}

lemma texts_ne_inside (p q : List Segment) (k : List Char) :
    texts p ≠ escaped k ++ '\'' :: ']' :: texts q := by
  -- The induction is on the segments that both readings have left: they change places at a quote.
  induction hn : p.length + q.length using Nat.strongRecOn generalizing p q k with
  | _ n ih =>
  intro h
  cases p with
  | nil => simp [texts] at h
  | cons s p =>
    rw [length_cons] at hn
    rw [texts, flatMap_cons] at h
    obtain hplain | ⟨name, hname⟩ := plain_or_quoted s
    · obtain ⟨k₁, -, h₁⟩ := escaped_of_append hplain h
      exact ih (p.length + q.length) (by omega) p q k₁ rfl h₁
    · rw [hname, cons_append, cons_append, append_assoc] at h
      obtain ⟨k₁, -, h₁⟩ := escaped_of_cons (by decide) (by decide) h
      obtain ⟨-, h₂⟩ := escaped_of_quote h₁
      obtain ⟨k₂, -, h₃⟩ := escaped_of_cons (by decide) (by decide) h₂.symm
      exact ih (q.length + p.length) (by omega) q p k₂ rfl h₃

lemma quote_ne_escaped :
    '\'' :: (escaped k ++ '\'' :: ']' :: texts p) ≠ escaped k' ++ '\'' :: ']' :: texts q := by
  intro h
  obtain ⟨-, h₁⟩ := escaped_of_quote h
  obtain ⟨k₁, -, h₂⟩ := escaped_of_cons (by decide) (by decide) h₁.symm
  exact texts_ne_inside q p k₁ h₂

lemma escaped_inj (h : escaped k ++ '\'' :: ']' :: texts p = escaped k' ++ '\'' :: ']' :: texts q) :
    k = k' ∧ texts p = texts q := by
  induction k generalizing k' with
  | nil =>
    obtain ⟨rfl, hrest⟩ := escaped_of_quote h
    exact ⟨rfl, (cons.inj hrest).2⟩
  | cons c k ih =>
    cases k' with
    | nil =>
      obtain ⟨hk, -⟩ := escaped_of_quote h.symm
      cases hk
    | cons d k' =>
      by_cases hc : c = '\'' <;> by_cases hd : d = '\''
      · subst hc hd
        rw [escaped_quote, escaped_quote] at h
        obtain ⟨rfl, hrest⟩ := ih (by simpa using h)
        exact ⟨rfl, hrest⟩
      · subst hc
        rw [escaped_quote, escaped_cons hd] at h
        exact absurd (cons.inj h).2 quote_ne_escaped
      · subst hd
        rw [escaped_quote, escaped_cons hc] at h
        exact absurd (cons.inj h).2.symm quote_ne_escaped
      · rw [escaped_cons hc, escaped_cons hd] at h
        obtain ⟨rfl, hrest⟩ := cons.inj h
        obtain ⟨rfl, htexts⟩ := ih hrest
        exact ⟨rfl, htexts⟩

lemma run_inj {P : Char → Bool} (hw : ∀ c ∈ w, P c = true) (hk : ∀ c ∈ k, P c = true)
    (hr : r.takeWhile P = []) (hr' : r'.takeWhile P = []) (h : w ++ r = k ++ r') :
    w = k ∧ r = r' := by
  have hrun : w = k := by
    have htake := congrArg (takeWhile P) h
    rwa [takeWhile_append_of_pos hw, takeWhile_append_of_pos hk, hr, hr', append_nil,
      append_nil] at htake
  exact ⟨hrun, append_cancel_left (hrun ▸ h)⟩

lemma takeWhile_texts (p : List Segment) : (texts p).takeWhile isNamePart = [] := by
  cases p with
  | nil => rfl
  | cons s p =>
    rw [texts, flatMap_cons]
    obtain ⟨name, -, -, haccess⟩ | ⟨name, -, haccess⟩ | ⟨n, -, haccess⟩ := access_cases s <;>
      rw [haccess] <;> rfl

lemma toDigits_ne_quote {n : Nat} : Nat.toDigits 10 n ++ r ≠ '\'' :: r' := by
  obtain ⟨d, ds, hdigits⟩ := exists_cons_of_ne_nil (Nat.toDigits_ne_nil (b := 10) (n := n))
  have hd : d.isDigit = true := Decimal.isDigit_of_mem (by rw [hdigits]; exact mem_cons_self)
  rw [hdigits, cons_append]
  rintro ⟨⟩
  revert hd
  decide

lemma access_append_inj {s t : Segment}
    (h : s.access.toList ++ texts p = t.access.toList ++ texts q) :
    s = t ∧ texts p = texts q := by
  obtain ⟨name, rfl, hname, hs⟩ | ⟨name, rfl, hs⟩ | ⟨n, rfl, hs⟩ := access_cases s <;>
  obtain ⟨name', rfl, hname', ht⟩ | ⟨name', rfl, ht⟩ | ⟨m, rfl, ht⟩ := access_cases t <;>
  rw [hs, ht] at h <;> obtain ⟨hfirst, hrest⟩ := cons.inj h
  case inl.inl =>
    obtain ⟨hnames, htexts⟩ := run_inj hname hname' (takeWhile_texts p) (takeWhile_texts q) hrest
    exact ⟨by rw [String.toList_inj.mp hnames], htexts⟩
  case inr.inl.inr.inl =>
    obtain ⟨hnames, htexts⟩ := escaped_inj (by simpa using hrest)
    exact ⟨by rw [String.toList_inj.mp hnames], htexts⟩
  case inr.inl.inr.inr => exact absurd (by simpa using hrest.symm) toDigits_ne_quote
  case inr.inr.inr.inl => exact absurd (by simpa using hrest) toDigits_ne_quote
  case inr.inr.inr.inr =>
    rw [append_eq, append_eq, append_assoc, append_assoc] at hrest
    obtain ⟨hdigits, htexts⟩ := run_inj (P := Char.isDigit) (fun _ => Decimal.isDigit_of_mem)
      (fun _ => Decimal.isDigit_of_mem) rfl rfl hrest
    exact ⟨by rw [Decimal.toDigits_injective hdigits], (cons.inj htexts).2⟩
  -- A point is not a bracket.
  all_goals exact absurd hfirst (by decide)

lemma texts_injective (h : texts p = texts q) : p = q := by
  have hne : ∀ (s : Segment) r, s.access.toList ++ r ≠ [] := by
    intro s r
    obtain ⟨name, -, -, haccess⟩ | ⟨name, -, haccess⟩ | ⟨n, -, haccess⟩ := access_cases s <;>
      simp [haccess]
  induction p generalizing q with
  | nil =>
    cases q with
    | nil => rfl
    | cons t q => exact absurd h.symm (hne t _)
  | cons s p ih =>
    cases q with
    | nil => exact absurd h (hne s _)
    | cons t q =>
      obtain ⟨rfl, hrest⟩ := access_append_inj h
      rw [ih hrest]

end Segment

/-- Two paths have the same text off the same base only if they have the same segments. -/
theorem ReferencePath.appendTo_eq_iff (base : String) (a b : ReferencePath) :
    a.appendTo base = b.appendTo base ↔ a.path = b.path := by
  refine ⟨fun h => ?_, fun h => by rw [appendTo, appendTo, h]⟩
  have htexts := congrArg String.toList h
  rw [appendTo, appendTo, Segment.toList_appendSegments, Segment.toList_appendSegments,
    append_cancel_left_eq] at htexts
  exact Segment.texts_injective htexts

end ServiceFlow
