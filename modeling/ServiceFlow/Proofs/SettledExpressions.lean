import ServiceFlow.Proofs.EqualTrees
import ServiceFlow.Proofs.LiteralForms
import ServiceFlow.Proofs.WholeNumbers

/-!
# Settled expressions

What flattening leaves of an expression that has a value is settled. Flattening a settled expression
again gives the same expression.
-/

namespace ServiceFlow

open ServiceFlow.Tree

open List hiding lookup

attribute [local simp] Tree.node Node.children

namespace Double

lemma isNaN_iff (x : Double) :
    x.isNaN = true ↔ 2047 * Nat.pow 2 52 < x.bits.toNat % Nat.pow 2 63 := by
  rw [isNaN, beq_iff_eq, read]
  simp only [pow_11, pow_52, pow_63]
  split_ifs with hexponent hfraction hzero
  · exact iff_of_false id (by omega)
  · exact iff_of_true rfl (by omega)
  · exact iff_of_false id (by omega)
  · exact iff_of_false id (by omega)

lemma isNaN_neg (x : Double) : (-x).isNaN = x.isNaN := by
  have hbits : (-x).bits.toNat = x.bits.toNat ^^^ Nat.pow 2 63 := UInt64.toNat_xor ..
  have hmod : (-x).bits.toNat % Nat.pow 2 63 = x.bits.toNat % Nat.pow 2 63 := by
    rw [hbits]
    refine Nat.xor_mod_two_pow.trans ?_
    rw [Nat.pow_eq, Nat.mod_self, Nat.xor_zero]
  rw [Bool.eq_iff_iff, isNaN_iff, isNaN_iff, hmod]

lemma isNaN_ofBits {negative : Bool} {n : Nat} (h : n ≤ 2047 * Nat.pow 2 52) :
    (ofBits negative n).isNaN = false := by
  rw [← Bool.not_eq_true, isNaN_iff, ofBits, pow_52, pow_63, Nat.toUInt64, UInt64.toNat_ofNat']
  rw [pow_52] at h
  split_ifs <;> omega

lemma isNaN_ofNat (n : Nat) : (ofNat n).isNaN = false := by
  unfold ofNat ofRatio
  split_ifs
  · exact isNaN_ofBits (Nat.zero_le _)
  · exact isNaN_ofBits (Nat.min_le_right _ _)

end Double

namespace Tree

variable {α : Type}

/-- The value of a number literal. -/
def number? : Tree α → Option Double
  | .mk _ (.numberLiteral value) => some value
  | _ => none

def AllNumbers (P : Double → Prop) (t : Tree α) : Prop := ∀ s ∈ t.subtrees, ∀ x ∈ s.number?, P x

instance (P : Double → Prop) [DecidablePred P] (t : Tree α) : Decidable (t.AllNumbers P) :=
  inferInstanceAs (Decidable (∀ s ∈ t.subtrees, ∀ x ∈ s.number?, P x))

variable {P : Double → Prop}

lemma allNumbers_mk {tag : α} {n : Node (Tree α)} (hself : ∀ x, n = .numberLiteral x → P x)
    (h : ∀ c ∈ n.children, c.AllNumbers P) : AllNumbers P (.mk tag n) := by
  intro s hs
  rw [subtrees_eq] at hs
  rcases mem_cons.mp hs with rfl | hs
  · intro x hx
    cases n with
    | numberLiteral value =>
      cases hx
      exact hself _ rfl
    | _ => cases hx
  · obtain ⟨c, hc, hsc⟩ := mem_descendants.mp hs
    exact h c hc s (by rw [subtrees_eq]; exact mem_cons.mpr hsc)

end Tree

namespace Folding

open Flatten (MemberKey lookup property?)

/-- The pieces of a settled object: a computed name does not fix its key. -/
def Piece.Kept : Piece → Prop
  | .named _ _ => True
  | .computed name _ => ∃ e, name = .mk () (.computedPropertyName e) ∧ e.staticKey? = none
  | .verbatim _ => False

/-- The trees of a piece. -/
def Piece.parts : Piece → List SyntaxTree
  | .named _ value => [value]
  | .computed name value => value :: name.children
  | .verbatim tree => [tree]

/-- A tree that flattening leaves as it is. All its numbers satisfy `P`. -/
inductive Settled (P : Double → Prop) : SyntaxTree → Prop
  | string (value : String) : Settled P (.mk () (.stringLiteral value))
  | number {value} (holds : P value) : Settled P (.mk () (.numberLiteral value))
  | boolean (value : Bool) : Settled P (.mk () (.booleanLiteral value))
  | null : Settled P (.mk () .nullLiteral)
  | undefined : Settled P (.mk () .undefinedLiteral)
  | sign {operator operand} (settled : Settled P operand)
      (stays : signed operator operand = .mk () (.unaryExpr operator operand)) :
      Settled P (.mk () (.unaryExpr operator operand))
  | array {elements} (settled : ∀ e ∈ elements, Settled P e) :
      Settled P (.mk () (.arrayLiteral elements))
  | object {ps} (nodup : (fixedKeys ps).Nodup) (kept : ∀ p ∈ ps, p.Kept)
      (settled : ∀ p ∈ ps, ∀ s ∈ p.parts, Settled P s) :
      Settled P (.mk () (.objectLiteral (ps.map Piece.tree)))
  | template {head spans} (nonempty : spans ≠ [])
      (unread : ∀ s ∈ spans, s.expression.constant? noReferences = none)
      (settled : ∀ s ∈ spans, Settled P s.expression) :
      Settled P (.mk () (.templateExpr head spans))
  | property {base name chained} (settled : Settled P base)
      (unknown : lookup base (.name name) = .unknown) :
      Settled P (.mk () (.propertyAccess base name chained))
  | element {base key chained} (settled : Settled P base) (settledKey : Settled P key)
      (unknown : ∀ memberKey, MemberKey.of? key = some memberKey →
        lookup base memberKey = .unknown) : Settled P (.mk () (.elementAccess base key chained))

variable {P : Double → Prop} {p : Piece} {name : String} {found : Option SyntaxTree}
  {operator : UnaryOp} {operand : SyntaxTree} {ts : List SyntaxTree} {ps : List Piece}
  {spans : List (Span Term)}

lemma Piece.allNumbers_tree (hkept : p.Kept) (h : ∀ s ∈ p.parts, s.AllNumbers P) :
    p.tree.AllNumbers P := by
  cases p with
  | named key value =>
    have hvalue := h value (by simp [Piece.parts])
    have hname : (mk () (Constant.keyNode key) : SyntaxTree).AllNumbers P := by
      unfold Constant.keyNode
      split_ifs <;> exact allNumbers_mk (by simp) (by simp)
    exact allNumbers_mk (by simp) (by simpa using ⟨hname, hvalue⟩)
  | computed name value =>
    obtain ⟨e, rfl, -⟩ := hkept
    have hvalue := h value (by simp [Piece.parts])
    have he := h e (by simp [Piece.parts, children])
    have hname : (mk () (.computedPropertyName e) : SyntaxTree).AllNumbers P :=
      allNumbers_mk (by simp) (by simpa using he)
    exact allNumbers_mk (by simp) (by simpa using ⟨hname, hvalue⟩)
  | verbatim t => exact hkept.elim

variable {t : SyntaxTree}

lemma Settled.allNumbers (h : Settled P t) : t.AllNumbers P := by
  induction h with
  | number holds => exact allNumbers_mk (by rintro _ ⟨⟩; exact holds) (by simp)
  | string | boolean | null | undefined =>
    exact allNumbers_mk (by simp) (by simp)
  | sign settled stays ih | property settled unknown ih =>
    exact allNumbers_mk (by simp) (by simpa using ih)
  | array settled ih => exact allNumbers_mk (by simp) ih
  | @object ps nodup kept settled ih =>
    refine allNumbers_mk (by simp) fun c hc => ?_
    obtain ⟨p, hp, rfl⟩ := mem_map.mp hc
    exact Piece.allNumbers_tree (kept p hp) (ih p hp)
  | template nonempty unread settled ih =>
    refine allNumbers_mk (by simp) fun c hc => ?_
    obtain ⟨s, hs, rfl⟩ := mem_map.mp hc
    exact ih s hs
  | element settled settledKey unknown ih ihKey =>
    exact allNumbers_mk (by simp) (by simpa using ⟨ih, ihKey⟩)

section Pieces

lemma splice_of_kept (h : p.Kept) : splice p.tree = p := by
  cases p with
  | named key value => exact splice_named key value
  | computed name value =>
    obtain ⟨e, rfl, hkey⟩ := h
    have hname : (mk () (.computedPropertyName e) : SyntaxTree).staticKey? = none := by
      obtain ⟨tag, n⟩ := e
      cases n with
      | stringLiteral | numberLiteral => cases hkey
      | _ => rfl
    rw [Piece.tree, splice, hname]
  | verbatim t => exact h.elim

variable {ps : List Piece}

lemma map_splice_tree (h : ∀ p ∈ ps, p.Kept) : (ps.map Piece.tree).map splice = ps := by
  calc
    (ps.map Piece.tree).map splice = ps.map id := by
      rw [map_map]
      exact map_congr_left fun p hp => splice_of_kept (h p hp)
    _ = ps := map_id ps

lemma merge_of_nodup (h : (fixedKeys ps).Nodup) : merge ps = ps := by
  induction ps using List.reverseRecOn with
  | nil => rfl
  | append_singleton ps p ih =>
    rw [fixedKeys_append] at h
    rw [merge_append_singleton, ih (nodup_append.mp h).1]
    cases p with
    | named key value =>
      rcases putPiece_cases key value ps with ⟨-, hput⟩ | ⟨a, old, b, rfl, -⟩
      · exact hput
      · have hmem : key ∈ fixedKeys (a ++ .named key old :: b) :=
          mem_filterMap.mpr ⟨.named key old, by simp, rfl⟩
        have hne := (nodup_append.mp h).2.2 key hmem key
        exact absurd rfl (hne (by simp [fixedKeys, Piece.key?]))
    | _ => rfl

lemma mem_parts_of_found {value : SyntaxTree} (hkept : ∀ p ∈ ps, p.Kept)
    (h : property? name found (ps.map Piece.tree) = .found value) :
    found = some value ∨ ∃ p ∈ ps, value ∈ p.parts := by
  induction ps generalizing found with
  | nil =>
    cases found with
    | none => cases h
    | some v =>
      cases h
      exact .inl rfl
  | cons p ps ih =>
    have hps : ∀ q ∈ ps, q.Kept := fun q hq => hkept q (mem_cons_of_mem p hq)
    have hp := hkept p mem_cons_self
    rw [map_cons] at h
    cases p with
    | named key v =>
      rw [Piece.tree, property?, staticKey?_keyNode] at h
      rcases ih hps h with hfound | ⟨q, hq, hvalue⟩
      · by_cases hkey : key = name
        · rw [if_pos hkey] at hfound
          cases hfound
          exact .inr ⟨_, mem_cons_self, by simp [Piece.parts]⟩
        · rw [if_neg hkey] at hfound
          exact .inl hfound
      · exact .inr ⟨q, mem_cons_of_mem _ hq, hvalue⟩
    | computed nm v =>
      obtain ⟨e, rfl, hkey⟩ := hp
      obtain ⟨tag, n⟩ := e
      cases n with
      | stringLiteral | numberLiteral => cases hkey
      | _ => cases h
    | verbatim t => exact hp.elim

end Pieces

section Leaves

/-- A property that negation keeps and that counts have. -/
structure Counted (P : Double → Prop) : Prop where
  neg : ∀ {x}, P x → P (-x)
  count : ∀ n, P (Double.ofNat n)

lemma signed_cases (operator : UnaryOp) (operand : SyntaxTree) :
    signed operator operand = .mk () (.unaryExpr operator operand) ∨
      ∃ x, operand = .mk () (.numberLiteral x) ∧
        signed operator operand = .mk () (.numberLiteral (-x)) := by
  obtain ⟨⟨⟩, n⟩ := operand
  cases operator with
  | neg =>
    cases n with
    | numberLiteral x => exact .inr ⟨x, rfl, rfl⟩
    | _ => exact .inl rfl
  | _ => exact .inl rfl

variable (hP : Counted P)
include hP

lemma settled_signed (h : Settled P operand) : Settled P (signed operator operand) := by
  rcases signed_cases operator operand with hstays | ⟨x, rfl, hsigned⟩
  · rw [hstays]
    exact .sign h hstays
  · rw [hsigned]
    cases h with
    | number holds => exact .number (hP.neg holds)

lemma settled_member? {access : NodeId} {base : SyntaxTree} {key : MemberKey} (h : Settled P base)
    (hfound : member? access base key = .ok found) :
    (∀ value, found = some value → Settled P value) ∧
      (found = none → lookup base key = .unknown) := by
  unfold member? at hfound
  generalize hlookup : lookup base key = looked at hfound ⊢
  cases looked with
  | unknown =>
    cases hfound
    exact ⟨by simp, fun _ => rfl⟩
  | missing name | fault reason => cases hfound
  | count n =>
    cases hfound
    refine ⟨?_, by simp⟩
    rintro _ ⟨⟩
    exact .number (hP.count n)
  | found value =>
    cases hfound
    refine ⟨?_, by simp⟩
    rintro _ ⟨⟩
    cases h with
    | object nodup kept settled =>
      cases key with
      | index n => cases hlookup
      | name name =>
        rcases mem_parts_of_found kept hlookup with hnone | ⟨p, hp, hvalue⟩
        · cases hnone
        · exact settled p hp value hvalue
    | @array elements settled =>
      cases key with
      | name name =>
        simp only [lookup] at hlookup
        split_ifs at hlookup
      | index n =>
        cases hitem : n.index?.bind (elements[·]?) with
        | none =>
          simp only [lookup, hitem] at hlookup
          cases hlookup
        | some item =>
          simp only [lookup, hitem] at hlookup
          cases hlookup
          obtain ⟨i, -, hi⟩ := Option.bind_eq_some_iff.mp hitem
          exact settled _ (mem_of_getElem? hi)
    | string s =>
      cases key with
      | name name =>
        simp only [lookup] at hlookup
        split_ifs at hlookup
      | index n => cases hlookup
    | _ => cases key <;> cases hlookup

end Leaves

section Flattened

def Settles (P : Double → Prop) (go : Term → Except NodeError SyntaxTree) (t : Term) : Prop :=
  ∀ ⦃c t'⦄, t.constant? noReferences = some c → go t = .ok t' → Settled P t'

variable {go : Term → Except NodeError SyntaxTree} {t : Term}

lemma element_settled (h : ∀ s ∈ t.subtrees, Settles P go s) {items : List Constant}
    (hts : element go t = .ok ts) (hitems : t.items? noReferences = some items) :
    ∀ t' ∈ ts, Settled P t' := by
  obtain hsettled | ⟨c, t', hsettled, rfl, rfl⟩ := element_cases h hts hitems
  · cases hsettled with
    | array settled => exact settled
  · simpa using hsettled

/-- A piece that is kept, with settled parts. -/
structure Piece.Ready (P : Double → Prop) (p : Piece) : Prop where
  kept : p.Kept
  settled : ∀ s ∈ p.parts, Settled P s

variable {value : SyntaxTree} {x : Text}

lemma Piece.ready_named {key : String} (h : Settled P value) : (Piece.named key value).Ready P :=
  ⟨trivial, by simpa [Piece.parts] using h⟩

lemma ready_keyed {name : SyntaxTree} (hname : Settled P name) (hvalue : Settled P value) :
    (keyed name value).Ready P := by
  unfold keyed
  cases hkey : name.staticKey? with
  | some key => exact Piece.ready_named hvalue
  | none =>
    refine ⟨⟨name, rfl, hkey⟩, ?_⟩
    have hchildren : (mk () (.computedPropertyName name) : SyntaxTree).children = [name] := rfl
    simp [Piece.parts, hchildren, hname, hvalue]

lemma pieces_ready (h : ∀ s ∈ t.subtrees, Settles P go s) {w : Ordered Constant}
    (hps : pieces go t = .ok ps) (hw : t.writes? noReferences = some w) : ∀ p ∈ ps, p.Ready P := by
  cases piecesOf_of_writes? h hps hw with
  | computed hname _ hvalue => simpa using ready_keyed hname hvalue
  | named key hvalue => simpa using Piece.ready_named hvalue
  | spread hsettled =>
    cases hsettled with
    | object nodup kept settled =>
      rw [map_splice_tree kept]
      exact fun p hp => ⟨kept p hp, settled p hp⟩

def Text.Ready (P : Double → Prop) (x : Text) : Prop :=
  ∀ s ∈ x.spans, Settled P s.expression ∧ s.expression.constant? noReferences = none

lemma Text.Ready.append (h : x.Ready P) (text : String) : (x.append text).Ready P := by
  obtain ⟨head, spans⟩ := x
  cases spans with
  | nil => exact h
  | cons last rest =>
    intro s hs
    rcases mem_cons.mp hs with rfl | hs
    · exact h last mem_cons_self
    · exact h s (mem_cons_of_mem last hs)

lemma Text.Ready.settled (h : x.Ready P) : Settled P x.tree := by
  unfold Text.tree
  split_ifs with hempty
  · exact .string x.head
  · refine .template ?_ (fun s hs => (h s (mem_reverse.mp hs)).2)
      fun s hs => (h s (mem_reverse.mp hs)).1
    simpa using hempty

lemma foldlM_span_ready (h : ∀ s ∈ spans, Settles P go s.expression) {x' : Text}
    {parts : List String} (hx : x.Ready P)
    (hparts : spans.mapM (spanText? noReferences) = some parts)
    (hx' : spans.foldlM (span go) x = .ok x') : x'.Ready P := by
  refine span_induction (Q := fun _ x => x.Ready P) (fun _ hx _ _ => hx.append _) ?_ h "" hx
    hparts hx'
  intro text x v t' literal hx hsettled hconst s hs
  rcases mem_cons.mp hs with rfl | hs
  · exact ⟨hsettled, hconst⟩
  · exact hx s hs

lemma flat_settled (hP : Counted P) (t : Term) : t.AllNumbers P →
    Settles P (flat fun _ => none) t := by
  refine subtrees_induction (P := Settles P (flat fun _ => none))
    (fun tag n hholds hchild hparts => ?_) t
  intro c t' hc ht'
  have hself := hholds _ (self_mem_subtrees _)
  rw [flat_eq] at ht'
  cases n with
  | numberLiteral x =>
    cases ht'
    exact .number (hself x rfl)
  | stringLiteral | booleanLiteral | nullLiteral | undefinedLiteral =>
    cases ht'
    constructor
  | unaryExpr operator operand =>
    obtain ⟨operand', hoperand', ht'⟩ := bind_eq_ok ht'
    cases ht'
    obtain ⟨v, hv, -⟩ := Option.bind_eq_some_iff.mp hc
    exact settled_signed hP (hchild operand (by simp) hv hoperand')
  | arrayLiteral elements =>
    obtain ⟨parts, hitems, rfl⟩ := constant?_array.mp hc
    obtain ⟨tss, htss, ht'⟩ := bind_eq_ok ht'
    cases ht'
    have hall : ∀ t' ∈ tss.flatten, Settled P t' :=
      flatten_induction (Q := fun ts _ => ∀ t' ∈ ts, Settled P t') (by simp)
        (fun h h' x hx => (mem_append.mp hx).elim (h x) (h' x))
        (fun e he _ _ hts hitems => element_settled (hparts e he) hts hitems) htss hitems
    exact .array hall
  | objectLiteral properties =>
    obtain ⟨parts, hwrites, rfl⟩ := constant?_object.mp hc
    obtain ⟨pss, hpss, ht'⟩ := bind_eq_ok ht'
    cases ht'
    have hall : ∀ p ∈ pss.flatten, p.Ready P :=
      flatten_induction (Q := fun ps (_ : Ordered Constant) => ∀ p ∈ ps, p.Ready P) (by simp)
        (fun h h' x hx => (mem_append.mp hx).elim (h x) (h' x))
        (fun e he _ _ hps hw => pieces_ready (hparts e he) hps hw) hpss hwrites
    exact .object (nodup_fixedKeys_merge _) (fun p hp => (hall p (mem_of_mem_merge hp)).kept)
      fun p hp => (hall p (mem_of_mem_merge hp)).settled
  | templateExpr head spans =>
    obtain ⟨parts, htexts, rfl⟩ := constant?_template.mp hc
    obtain ⟨x, hx, ht'⟩ := bind_eq_ok ht'
    cases ht'
    have hready : x.Ready P :=
      foldlM_span_ready (fun s hs => hchild s.expression (mem_map_of_mem hs))
        (by simp [Text.Ready]) htexts hx
    exact hready.settled
  | propertyAccess expression name chained =>
    obtain ⟨b, hb, -⟩ := constant?_propertyAccess.mp hc
    obtain ⟨base, hbase, ht'⟩ := bind_eq_ok ht'
    obtain ⟨found, hfound, ht'⟩ := bind_eq_ok ht'
    cases ht'
    have hsettled := hchild expression (by simp) hb hbase
    obtain ⟨hvalue, hunknown⟩ := settled_member? hP hsettled hfound
    cases found with
    | some value => exact hvalue value rfl
    | none => exact .property hsettled (hunknown rfl)
  | elementAccess expression element chained =>
    obtain ⟨b, k, hb, hk, -⟩ := constant?_elementAccess.mp hc
    obtain ⟨base, hbase, ht'⟩ := bind_eq_ok ht'
    obtain ⟨key, hkey, ht'⟩ := bind_eq_ok ht'
    obtain ⟨found, hfound, ht'⟩ := bind_eq_ok ht'
    cases ht'
    have hsettled := hchild expression (by simp) hb hbase
    have hsettledKey := hchild element (by simp) hk hkey
    unfold elementMember? at hfound
    cases hmemberKey : MemberKey.of? key with
    | none =>
      rw [hmemberKey] at hfound
      cases hfound
      exact .element hsettled hsettledKey (by simp [hmemberKey])
    | some memberKey =>
      rw [hmemberKey] at hfound
      obtain ⟨hvalue, hunknown⟩ := settled_member? hP hsettled hfound
      cases found with
      | some value => exact hvalue value rfl
      | none =>
        refine .element hsettled hsettledKey ?_
        rw [hmemberKey]
        rintro _ ⟨⟩
        exact hunknown rfl
  | _ => cases hc

end Flattened

section Again

variable {v : Term} {t base : SyntaxTree} {chained : Bool}

lemma exists_of_untag {n : Node SyntaxTree} (h : v.untag = .mk () n) :
    ∃ tag m, v = .mk tag m ∧ m.map untag = n := by
  obtain ⟨tag, m⟩ := v
  rw [untag_mk] at h
  exact ⟨tag, m, rfl, (mk.inj h).2⟩

def Fixed (t : SyntaxTree) : Prop := ∀ v : Term, v.untag = t → flat (fun _ => none) v = .ok t

lemma mapM_of_untag {β : Type} {g : Term → Except NodeError (List β)} {h : SyntaxTree → List β}
    {vs : List Term} (heq : vs.map untag = ts) (hg : ∀ v ∈ vs, g v = .ok (h v.untag)) :
    vs.mapM g = .ok (ts.map h) := by
  rw [mapM_eq_ok_iff, ← heq, map_map, forall₂_map_right_iff, forall₂_same]
  exact hg

lemma element_fixed (hkind : t.kind ≠ .spreadElement) (hfixed : Fixed t) (hv : v.untag = t) :
    element (flat fun _ => none) v = .ok [t] := by
  have hkind' : v.kind ≠ .spreadElement := by rwa [← kind_untag, hv]
  rw [element_of_ne hkind', hfixed v hv]
  rfl

lemma pieces_fixed (hkept : p.Kept) (hfixed : ∀ s ∈ p.parts, Fixed s) (hv : v.untag = p.tree) :
    pieces (flat fun _ => none) v = .ok [p] := by
  cases p with
  | named key value =>
    obtain ⟨tag, m, rfl, hm⟩ := exists_of_untag hv
    cases m with
    | propertyAssignment name value' =>
      obtain ⟨hname, hvalue⟩ := Node.propertyAssignment.inj hm
      have hkind : name.kind ≠ .computedPropertyName := by
        rw [← kind_untag, hname]
        unfold Constant.keyNode
        split_ifs <;> exact nofun
      have hkey : name.staticKey? = some key := by
        rw [← staticKey?_untag, hname, staticKey?_keyNode]
      rw [Flatten.pieces_of_ne hkind, hfixed value (by simp [Piece.parts]) value' hvalue, hkey]
      rfl
    | _ => cases hm
  | computed name value =>
    obtain ⟨e, rfl, hkey⟩ := hkept
    obtain ⟨tag, m, rfl, hm⟩ := exists_of_untag hv
    cases m with
    | propertyAssignment name' value' =>
      obtain ⟨hname, hvalue⟩ := Node.propertyAssignment.inj hm
      obtain ⟨tag', m', rfl, hm'⟩ := exists_of_untag hname
      cases m' with
      | computedPropertyName e' =>
        have he := Node.computedPropertyName.inj hm'
        have hvalue' := hfixed value (by simp [Piece.parts]) value' hvalue
        have he' := hfixed e (by simp [Piece.parts, children]) e' he
        rw [pieces, hvalue', he']
        have hkeyed : keyed e value = .computed (.mk () (.computedPropertyName e)) value := by
          rw [keyed, hkey]
        rw [← hkeyed]
        rfl
      | _ => cases hm'
    | _ => cases hm
  | verbatim t => exact hkept.elim

lemma foldlM_span_fixed {spans' : List (Span SyntaxTree)}
    (heq : spans.map (fun s => ⟨s.expression.untag, s.literal⟩) = spans')
    (hopen : ∀ s ∈ spans', s.expression.constant? noReferences = none)
    (hfixed : ∀ s ∈ spans', Fixed s.expression) (x : Text) :
    spans.foldlM (span (flat fun _ => none)) x =
      .ok { x with spans := spans'.reverse ++ x.spans } := by
  subst heq
  induction spans generalizing x with
  | nil => rfl
  | cons s spans ih =>
    have hs := hfixed ⟨s.expression.untag, s.literal⟩ (by simp) s.expression rfl
    have hnone := hopen ⟨s.expression.untag, s.literal⟩ (by simp)
    have hspan : span (flat fun _ => none) x s =
        .ok { x with spans := ⟨s.expression.untag, s.literal⟩ :: x.spans } := by
      simp only [span, hs, bind, Except.bind, hnone]
      rfl
    rw [foldlM_cons, hspan]
    have hrest := ih { x with spans := ⟨s.expression.untag, s.literal⟩ :: x.spans }
      (fun s hs => hopen s (mem_cons_of_mem _ hs))
      fun s hs => hfixed s (mem_cons_of_mem _ hs)
    simp only [bind, Except.bind, hrest, map_cons, reverse_cons, append_assoc, singleton_append]

lemma array_fixed {elements : List SyntaxTree} (hkind : ∀ e ∈ elements, e.kind ≠ .spreadElement)
    (hfixed : ∀ e ∈ elements, Fixed e) : Fixed (.mk () (.arrayLiteral elements)) := by
  intro v hv
  obtain ⟨tag, m, rfl, hm⟩ := exists_of_untag hv
  cases m with
  | arrayLiteral vs =>
    have heq := Node.arrayLiteral.inj hm
    have hparts : vs.mapM (element (flat fun _ => none)) = .ok (elements.map ([·])) := by
      refine mapM_of_untag heq fun v hv => ?_
      have hmem : v.untag ∈ elements := heq ▸ mem_map_of_mem hv
      exact element_fixed (hkind _ hmem) (hfixed _ hmem) rfl
    rw [flat_eq, node]
    simp only [Tree.node, array, hparts, bind, Except.bind, ← flatMap_def, flatMap_singleton']
    rfl
  | _ => cases hm

lemma object_fixed (hnodup : (fixedKeys ps).Nodup) (hkept : ∀ p ∈ ps, p.Kept)
    (hfixed : ∀ p ∈ ps, ∀ s ∈ p.parts, Fixed s) :
    Fixed (.mk () (.objectLiteral (ps.map Piece.tree))) := by
  intro v hv
  obtain ⟨tag, m, rfl, hm⟩ := exists_of_untag hv
  cases m with
  | objectLiteral vs =>
    have heq := Node.objectLiteral.inj hm
    have hparts : vs.mapM (pieces (flat fun _ => none)) =
        .ok ((ps.map Piece.tree).map ([splice ·])) := by
      refine mapM_of_untag heq fun v hv => ?_
      have hmem : v.untag ∈ ps.map Piece.tree := heq ▸ mem_map_of_mem hv
      obtain ⟨p, hp, hpv⟩ := mem_map.mp hmem
      rw [← hpv, splice_of_kept (hkept p hp)]
      exact pieces_fixed (hkept p hp) (hfixed p hp) hpv.symm
    have hall : ((ps.map Piece.tree).map ([splice ·])).flatten = ps := by
      rw [← flatMap_def, ← map_eq_flatMap, map_splice_tree hkept]
    rw [flat_eq, node]
    simp only [Tree.node, object, hparts, bind, Except.bind, hall, merge_of_nodup hnodup]
    rfl
  | _ => cases hm

lemma template_fixed {head : String} {spans : List (Span SyntaxTree)} (hnonempty : spans ≠ [])
    (hopen : ∀ s ∈ spans, s.expression.constant? noReferences = none)
    (hfixed : ∀ s ∈ spans, Fixed s.expression) : Fixed (.mk () (.templateExpr head spans)) := by
  intro v hv
  obtain ⟨tag, m, rfl, hm⟩ := exists_of_untag hv
  cases m with
  | templateExpr head' vs =>
    obtain ⟨rfl, heq⟩ := Node.templateExpr.inj hm
    rw [flat_eq, node]
    simp only [Tree.node, template, foldlM_span_fixed heq hopen hfixed, bind, Except.bind]
    simp [Text.tree, hnonempty, pure, Except.pure]
  | _ => cases hm

lemma sign_fixed (hfixed : Fixed operand)
    (hstays : signed operator operand = .mk () (.unaryExpr operator operand)) :
    Fixed (.mk () (.unaryExpr operator operand)) := by
  intro v hv
  obtain ⟨tag, m, rfl, hm⟩ := exists_of_untag hv
  cases m with
  | unaryExpr operator' operand' =>
    obtain ⟨rfl, hoperand⟩ := Node.unaryExpr.inj hm
    rw [flat_eq, node]
    simp only [Tree.node, hfixed operand' hoperand, bind, Except.bind, hstays]
    rfl
  | _ => cases hm

lemma property_fixed (hfixed : Fixed base) (hunknown : lookup base (.name name) = .unknown) :
    Fixed (.mk () (.propertyAccess base name chained)) := by
  intro v hv
  obtain ⟨tag, m, rfl, hm⟩ := exists_of_untag hv
  cases m with
  | propertyAccess expression name' chained' =>
    obtain ⟨hbase, rfl, rfl⟩ := Node.propertyAccess.inj hm
    rw [flat_eq, node]
    simp only [Tree.node, hfixed expression hbase, bind, Except.bind, member?, hunknown]
    rfl
  | _ => cases hm

lemma elementAccess_fixed {key : SyntaxTree} (hfixed : Fixed base) (hfixedKey : Fixed key)
    (hunknown : ∀ memberKey, MemberKey.of? key = some memberKey →
      lookup base memberKey = .unknown) : Fixed (.mk () (.elementAccess base key chained)) := by
  intro v hv
  obtain ⟨tag, m, rfl, hm⟩ := exists_of_untag hv
  cases m with
  | elementAccess expression element chained' =>
    obtain ⟨hbase, hkey, rfl⟩ := Node.elementAccess.inj hm
    have hmember : elementMember? tag base key = .ok none := by
      unfold elementMember?
      cases hmemberKey : MemberKey.of? key with
      | none => rfl
      | some memberKey => simp only [member?, hunknown memberKey hmemberKey]
    rw [flat_eq, node]
    simp only [Tree.node, hfixed expression hbase, hfixedKey element hkey, bind, Except.bind,
      Tree.tag, hmember]
    rfl
  | _ => cases hm

lemma fixed_of_settled (h : Settled P t) : Fixed t := by
  induction h with
  | string | number | boolean | null | undefined =>
    intro v hv
    obtain ⟨tag, m, rfl, hm⟩ := exists_of_untag hv
    rw [flat_eq]
    cases m <;> cases hm
    rfl
  | sign settled stays ih => exact sign_fixed ih stays
  | array settled ih => exact array_fixed (fun e he => by cases settled e he <;> exact nofun) ih
  | object nodup kept settled ih => exact object_fixed nodup kept ih
  | template nonempty unread settled ih => exact template_fixed nonempty unread ih
  | property settled unknown ih => exact property_fixed ih unknown
  | element settled settledKey unknown ih ihKey => exact elementAccess_fixed ih ihKey unknown

end Again

end Folding

lemma Tree.equal_self_iff {t : SyntaxTree} : t.Equal t ↔ t.AllNumbers (·.isNaN = false) := by
  induction t using children_induction with
  | step tag n ih =>
    rw [equal_iff, forall₂_same]
    constructor
    · rintro ⟨hshape, hchildren⟩ s hs
      rw [subtrees_eq] at hs
      rcases mem_cons.mp hs with rfl | hs
      · intro x hx
        cases n <;> cases hx
        have hequals := (Bool.and_eq_true_iff.mp hshape).1
        simpa using hequals
      · obtain ⟨c, hc, hs⟩ := mem_flatMap.mp hs
        exact (ih c hc).mp (hchildren c hc) s hs
    · intro h
      refine ⟨?_, fun c hc => (ih c hc).mpr fun s hs => h s (mem_subtrees_of_child hc hs)⟩
      by_cases hkind : n.kind = .numberLiteral
      · cases n <;> cases hkind
        rename_i x
        have hx := h _ (self_mem_subtrees _) x rfl
        simp [Node.sameShape, Double.equals, hx]
      · exact (Node.sameShape_of_ne hkind).mpr rfl

namespace Flatten

open Forest (Edit)
open Folding (Counted)

lemma counted_true : Counted fun _ => True := ⟨fun _ => trivial, fun _ => trivial⟩

lemma counted_isNaN : Counted (·.isNaN = false) :=
  ⟨fun {x} hx => (Double.isNaN_neg x).trans hx, Double.isNaN_ofNat⟩

lemma settled_of_run {P : Double → Prop} (hP : Counted P) {f f' : Forest} (hf : f.Linked)
    {e r : NodeId} {t : Term} (ht : f.view? e = some t) (hnumbers : t.AllNumbers P) {c : Constant}
    (hc : t.constant? noReferences = some c) (hrun : (expression [] e).run f = (.ok r, f')) :
    ∃ s, f'.tree? r = some s ∧ Folding.Settled P s := by
  obtain ⟨-, ⟨_, s, ⟨⟩, hflat, hroot⟩ | ⟨_, ⟨⟩, -⟩⟩ := expression_cases hf scopeShows_nil ht hrun
  exact ⟨s, hroot.tree, Folding.flat_settled hP t hnumbers hc hflat⟩

/-- Flattening what is left of an expression that has a value succeeds and gives the same tree once
more. The two are equal as nodes if and only if no number of that tree is NaN, which equals nothing,
and so if no number of the expression is. -/
theorem flattening_again_same {edits : List Edit} (hedits : ∀ edit ∈ edits, ¬ edit.Attaches)
    {f f' : Forest} (hf : Forest.empty.edited edits = f) {e r : NodeId} {t : Term}
    (ht : f.view? e = some t) {c : Constant} (hc : t.constant? noReferences = some c)
    (hrun : (expression [] e).run f = (.ok r, f')) :
    ∃ r' f'', (expression [] r).run f' = (.ok r', f'') ∧ f''.tree? r' = f'.tree? r ∧
      f''.tree? r = f'.tree? r ∧
      (f''.same r r' = true ↔ ∃ s, f'.tree? r = some s ∧ s.AllNumbers (·.isNaN = false)) ∧
      (t.AllNumbers (·.isNaN = false) → f''.same r r' = true) := by
  have hlinked : f.Linked := hf ▸ Forest.linked_edited hedits
  obtain ⟨hgrows, -⟩ := grows_of_run hlinked (by simp [Ordered.get?]) hrun
  obtain ⟨s, hs, hsettled⟩ :=
    settled_of_run counted_true hlinked ht (fun _ _ _ _ => trivial) hc hrun
  obtain ⟨v, hv, hvs⟩ := Option.map_eq_some_iff.mp hs
  obtain ⟨f'', hgrows', hplants⟩ := expression_plants hgrows.linked scopeShows_nil hv
  rw [Folding.fixed_of_settled hsettled v hvs] at hplants
  obtain ⟨r', hrun', hroot⟩ := hplants
  have hold : f''.tree? r = f'.tree? r :=
    hgrows'.tree?_eq hgrows.linked (Forest.lt_size_of_tree? hs)
  have hsame : f''.same r r' = true ↔
      ∃ s, f'.tree? r = some s ∧ s.AllNumbers (·.isNaN = false) := by
    rw [Forest.same_iff_equal hgrows'.linked (hold.trans hs) hroot.tree, equal_self_iff, hs]
    simp
  refine ⟨r', f'', hrun', hroot.tree.trans hs.symm, hold, hsame, fun hnumbers => hsame.mpr ?_⟩
  obtain ⟨s', hs', hsettled'⟩ := settled_of_run counted_isNaN hlinked ht hnumbers hc hrun
  exact ⟨s', hs', hsettled'.allNumbers⟩

/-- The second result is not equal to the first if a number is NaN, or if a node was attached below
the first in between. -/
theorem flattening_again_differs :
    (∃ f f' f'' t, Forest.empty.edited [.insert (.mk () (.numberLiteral .nan))] = f ∧
      f.view? 0 = some t ∧ t.constant? noReferences = some (.number .nan) ∧
      (expression [] 0).run f = (.ok 1, f') ∧ (expression [] 1).run f' = (.ok 2, f'') ∧
      f''.same 1 2 = false) ∧
    ∃ f f' f'' t, Forest.empty.edited [.insert (.number 1)] = f ∧
      f.view? 0 = some t ∧ t.constant? noReferences = some (.number (Double.ofNat 1)) ∧
      (expression [] 0).run f = (.ok 1, f') ∧
      (expression [] 1).run (f'.edited [.add (.identifier "x"), .attach 2 1]) = (.ok 3, f'') ∧
      f''.same 1 3 = false :=
  ⟨⟨_, _, _, _, rfl, rfl, rfl, rfl, rfl, rfl⟩, _, _, _, _, rfl, rfl, rfl, rfl, rfl, rfl⟩

/-- A record with a key `+1`, a list that is read from such a record, and a template of it. -/
def openRecord : SyntaxTree :=
  let plus (n : Nat) : SyntaxTree := .mk () (.unaryExpr .plus (.number n))
  let key : Node SyntaxTree := .computedPropertyName (plus 1)
  let base : SyntaxTree := .record [.entry key (.list [.number 4, .number 5])]
  let read : SyntaxTree :=
    .mk () (.elementAccess (.mk () (.elementAccess base (.text "1") false)) (.number 1) false)
  .record [.entry key (plus 2), .entry (.identifier "u") read,
    .entry (.identifier "t") (.mk () (.templateExpr "v" [⟨read, "!"⟩]))]

theorem flattening_again_same_openRecord : ∃ f f' f'' e r r' t,
    Forest.empty.edited [.insert openRecord] = f ∧ f.view? e = some t ∧
    t.constant? noReferences = some (.object [("1", .number (Double.ofNat 2)),
      ("u", .number (Double.ofNat 5)), ("t", .string "v5!")]) ∧
    t.AllNumbers (·.isNaN = false) ∧ (expression [] e).run f = (.ok r, f') ∧
    (expression [] r).run f' = (.ok r', f'') ∧ f''.tree? r' = f'.tree? r ∧
    f''.same r r' = true := by
  obtain ⟨f, f', e, r, t, hf, ht, hconstant, hall, hrun⟩ := exists_run_of_any
    openRecord (fun t => decide (t.AllNumbers (·.isNaN = false))) (by decide +kernel)
  have hnumbers := of_decide_eq_true hall
  have hc : t.constant? noReferences = some (.object [("1", .number (Double.ofNat 2)),
      ("u", .number (Double.ofNat 5)), ("t", .string "v5!")]) :=
    (hconstant noReferences).trans rfl
  obtain ⟨r', f'', hrun', htree, -, -, hsame⟩ :=
    flattening_again_same (by simp [Edit.Attaches]) hf ht hc hrun
  exact ⟨f, f', f'', e, r, r', t, hf, ht, hc, hnumbers, hrun, hrun', htree, hsame hnumbers⟩

end Flatten

end ServiceFlow
