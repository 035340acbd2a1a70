import ServiceFlow.Proofs.FlatteningInForests
import ServiceFlow.Proofs.MergedPieces
import ServiceFlow.Proofs.SuccessfulRuns

/-!
# Constants under flattening

An expression that has a value keeps it when it is flattened, as long as no object literal in it
shadows a computed name.
-/

namespace ServiceFlow

open ServiceFlow.Tree

open List hiding lookup

attribute [local simp] Tree.node Node.children

namespace Tree

variable {α : Type} {refs : References} {t : Tree α} {c : Constant} {key : String}

lemma nameKey?_of_staticKey? (refs : References) (h : t.staticKey? = some key) :
    t.nameKey? refs = some key := by
  obtain ⟨tag, n⟩ := t
  cases n with
  | computedPropertyName expression =>
    obtain ⟨tag', n⟩ := expression
    cases n with
    | stringLiteral value | numberLiteral value => exact h
    | _ => cases h
  | identifier name | stringLiteral value | numberLiteral value => exact h
  | _ => cases h

lemma nameKey?_of_constant? (h : t.constant? refs = some c) : t.nameKey? refs = c.key? := by
  obtain ⟨tag, n⟩ := t
  cases n with
  | identifier | computedPropertyName => cases h
  | _ => rw [nameKey?_of_ne, h, Option.bind_some] <;> nofun

lemma kind_ne_spreadElement_of_constant? (h : t.constant? refs = some c) :
    t.kind ≠ .spreadElement := by
  obtain ⟨tag, expression, rfl⟩ | hkind := spreadElement_cases t
  · cases h
  · exact hkind

end Tree

namespace Folding

open Ordered (putAll)
open Flatten (MemberKey lookup property?)

/-- A literal with nothing left to splice in, nor in the literals that are its members. -/
inductive Plain : SyntaxTree → Prop
  | array {items : List SyntaxTree} (unspread : ∀ t ∈ items, t.kind ≠ .spreadElement)
      (plain : ∀ t ∈ items, Plain t) : Plain (.mk () (.arrayLiteral items))
  | object {properties : List SyntaxTree}
      (assigned : ∀ t ∈ properties, t.kind = .propertyAssignment)
      (plain : ∀ name value, .mk () (.propertyAssignment name value) ∈ properties → Plain value) :
      Plain (.mk () (.objectLiteral properties))
  | other {t : SyntaxTree} (array : t.kind ≠ .arrayLiteral) (object : t.kind ≠ .objectLiteral) :
      Plain t

/-- A piece with a plain value. -/
def Piece.Plain : Piece → Prop
  | .named _ value | .computed _ value => Folding.Plain value
  | .verbatim _ => False

def Yields (refs : References) (go : Term → Except NodeError SyntaxTree)
    (R : Constant → SyntaxTree → Prop) (t : Term) : Prop :=
  ∀ ⦃c t'⦄, t.constant? refs = some c → go t = .ok t' → R c t'

/-- Flattening keeps the constant of a term. -/
def Keeps (refs : References) (go : Term → Except NodeError SyntaxTree) (t : Term) : Prop :=
  ∀ ⦃c t'⦄, t.constant? refs = some c → go t = .ok t' → t'.constant? refs = some c ∧ Plain t'

variable {refs : References} {go : Term → Except NodeError SyntaxTree} {t : Term}
  {R : Constant → SyntaxTree → Prop} {tag : NodeId} {c k : Constant} {t' : SyntaxTree}
  {properties : List SyntaxTree} {parts : List (List (String × Constant))}

lemma flatten_induction {α β γ : Type} {Q : List β → List γ → Prop}
    {g : α → Except NodeError (List β)} {h : α → Option (List γ)} (nil : Q [] [])
    (append : ∀ {bs cs bs' cs'}, Q bs cs → Q bs' cs' → Q (bs ++ bs') (cs ++ cs')) :
    ∀ {xs : List α}, (∀ x ∈ xs, ∀ {bs cs}, g x = .ok bs → h x = some cs → Q bs cs) →
      ∀ {parts values}, xs.mapM g = .ok parts → xs.mapM h = some values →
        Q parts.flatten values.flatten := by
  intro xs
  induction xs with
  | nil =>
    intro _ parts values hparts hvalues
    cases hparts
    cases hvalues
    exact nil
  | cons x xs ih =>
    intro hstep parts values hparts hvalues
    rw [mapM_eq_ok_iff, forall₂_cons_left_iff] at hparts
    rw [Node.mapM_list_eq_some_iff, forall₂_cons_left_iff] at hvalues
    obtain ⟨bs, parts, hbs, hparts, rfl⟩ := hparts
    obtain ⟨cs, values, hcs, hvalues, rfl⟩ := hvalues
    rw [flatten_cons, flatten_cons]
    refine append (hstep x mem_cons_self hbs hcs) ?_
    exact ih (fun y hy => hstep y (mem_cons_of_mem x hy)) (mapM_eq_ok_iff.mpr hparts)
      (Node.mapM_list_eq_some_iff.mpr hvalues)

section Arrays

/-- Flattened elements that give the items of an array. -/
structure Elements (refs : References) (ts : List SyntaxTree) (items : List Constant) : Prop where
  contribute : ∃ parts, ts.mapM (Tree.items? refs) = some parts ∧ parts.flatten = items
  unspread : ∀ t ∈ ts, t.kind ≠ .spreadElement
  plain : ∀ t ∈ ts, Plain t

lemma Elements.nil : Elements refs [] [] := ⟨⟨[], rfl, rfl⟩, by simp, by simp⟩

variable {ts : List SyntaxTree} {items : List Constant}

lemma Elements.append {ts' : List SyntaxTree} {items' : List Constant}
    (h : Elements refs ts items) (h' : Elements refs ts' items') :
    Elements refs (ts ++ ts') (items ++ items') := by
  obtain ⟨parts, hparts, rfl⟩ := h.contribute
  obtain ⟨parts', hparts', rfl⟩ := h'.contribute
  refine ⟨⟨parts ++ parts', by simp [mapM_append, hparts, hparts'], by simp⟩, ?_, ?_⟩
  · exact forall_mem_append.mpr ⟨h.unspread, h'.unspread⟩
  · exact forall_mem_append.mpr ⟨h.plain, h'.plain⟩

lemma element_of_ne (h : t.kind ≠ .spreadElement) : element go t = go t >>= fun t' => .ok [t'] := by
  rw [element]
  · rfl
  · rintro tag expression rfl
    exact h rfl

lemma element_cases (h : ∀ s ∈ t.subtrees, Yields refs go R s) (hts : element go t = .ok ts)
    (hitems : t.items? refs = some items) : R (.array items) (.mk () (.arrayLiteral ts)) ∨
      ∃ c t', R c t' ∧ items = [c] ∧ ts = [t'] := by
  obtain ⟨tag, expression, rfl⟩ | hkind := spreadElement_cases t
  · obtain ⟨c, hc, hitems⟩ := Option.bind_eq_some_iff.mp hitems
    obtain ⟨⟨⟨⟩, n⟩, ht', hts⟩ := bind_eq_ok hts
    have hvalue := h expression child_mem_subtrees hc ht'
    cases c with
    | array items' =>
      cases hitems
      cases n with
      | arrayLiteral elements =>
        cases hts
        exact .inl hvalue
      | _ => cases hts
    | _ => cases hitems
  · rw [items?_of_ne hkind] at hitems
    obtain ⟨c, hc, rfl⟩ := Option.map_eq_some_iff.mp hitems
    rw [element_of_ne hkind] at hts
    obtain ⟨t', ht', hts⟩ := bind_eq_ok hts
    cases hts
    exact .inr ⟨c, t', h t t.self_mem_subtrees hc ht', rfl, rfl⟩

lemma element_elements (h : ∀ s ∈ t.subtrees, Keeps refs go s) (hts : element go t = .ok ts)
    (hitems : t.items? refs = some items) : Elements refs ts items := by
  obtain ⟨hvalue, hplain⟩ | ⟨c, t', ⟨hvalue, hplain⟩, rfl, rfl⟩ := element_cases h hts hitems
  · obtain ⟨parts, hparts, hflatten⟩ := constant?_array.mp hvalue
    cases hflatten
    cases hplain with
    | array hunspread hplain => exact ⟨⟨parts, hparts, rfl⟩, hunspread, hplain⟩
    | other harray => exact absurd rfl harray
  · have hunspread := kind_ne_spreadElement_of_constant? hvalue
    refine ⟨⟨[[c]], ?_, rfl⟩, by simpa using hunspread, by simpa using hplain⟩
    simp [items?_of_ne hunspread, hvalue]

lemma array_keeps {elements : List Term} (h : ∀ e ∈ elements, ∀ s ∈ e.subtrees, Keeps refs go s)
    (hc : constant? refs (.mk tag (.arrayLiteral elements)) = some c)
    (ht' : array go elements = .ok t') : t'.constant? refs = some c ∧ Plain t' := by
  obtain ⟨parts, hparts, rfl⟩ := constant?_array.mp hc
  obtain ⟨tss, htss, ht'⟩ := bind_eq_ok ht'
  cases ht'
  have helements : Elements refs tss.flatten parts.flatten :=
    flatten_induction .nil .append (fun e he _ _ hts hitems => element_elements (h e he) hts hitems)
      htss hparts
  obtain ⟨parts', hparts', heq⟩ := helements.contribute
  exact ⟨constant?_array.mpr ⟨parts', hparts', by rw [heq]⟩,
    .array helements.unspread helements.plain⟩

end Arrays

section Objects

/-- Flattened pieces that write the entries of an object. -/
structure Contributes (refs : References) (ps : List Piece) (w : Ordered Constant) : Prop where
  writes : ∃ w', Writes refs ps w' ∧ ∀ m, putAll m w' = putAll m w
  plain : ∀ p ∈ ps, p.Plain

lemma Contributes.nil : Contributes refs [] [] := ⟨⟨[], .nil, fun _ => rfl⟩, by simp⟩

variable {ps : List Piece} {w : Ordered Constant} {p : Piece} {entry : String × Constant}
  {name value : SyntaxTree} {c : Constant}

lemma Contributes.append {ps' : List Piece} {w' : Ordered Constant} (h : Contributes refs ps w)
    (h' : Contributes refs ps' w') : Contributes refs (ps ++ ps') (w ++ w') := by
  obtain ⟨v, hv, hsame⟩ := h.writes
  obtain ⟨v', hv', hsame'⟩ := h'.writes
  refine ⟨⟨v ++ v', hv.append hv', fun m => ?_⟩, forall_mem_append.mpr ⟨h.plain, h'.plain⟩⟩
  rw [Ordered.putAll_append, Ordered.putAll_append, hsame, hsame']

lemma Contributes.singleton (h : p.write? refs = some entry) (hp : p.Plain) :
    Contributes refs [p] [entry] :=
  ⟨⟨[entry], .cons h .nil, fun _ => rfl⟩, by simpa using hp⟩

lemma write?_keyed {key : String} (hname : name.constant? refs = some k) (hkey : k.key? = some key)
    (hvalue : value.constant? refs = some c) : (keyed name value).write? refs = some (key, c) := by
  unfold keyed
  cases hstatic : name.staticKey? with
  | some key' =>
    have hkey' := nameKey?_of_staticKey? refs hstatic
    rw [nameKey?_of_constant? hname, hkey] at hkey'
    cases hkey'
    simp [Piece.write?, hvalue]
  | none => simp [Piece.write?, nameKey?, hname, hkey, hvalue]

lemma plain_keyed (name : SyntaxTree) (h : Plain value) : (keyed name value).Plain := by
  unfold keyed
  cases name.staticKey? <;> exact h

lemma write?_splice {w : List (String × Constant)}
    (h : writes? refs (.mk () (.propertyAssignment name value)) = some w) :
    ∃ entry, w = [entry] ∧
      (splice (.mk () (.propertyAssignment name value))).write? refs = some entry := by
  obtain ⟨key, hkey, h⟩ := Option.bind_eq_some_iff.mp h
  obtain ⟨c, hc, h⟩ := Option.bind_eq_some_iff.mp h
  cases h
  refine ⟨(key, c), rfl, ?_⟩
  rw [splice]
  cases hstatic : name.staticKey? with
  | some key' =>
    have hkey' := nameKey?_of_staticKey? refs hstatic
    rw [hkey] at hkey'
    cases hkey'
    simp [Piece.write?, hc]
  | none => simp [Piece.write?, hkey, hc]

lemma plain_splice (name : SyntaxTree) (h : Plain value) :
    (splice (.mk () (.propertyAssignment name value))).Plain := by
  rw [splice]
  cases name.staticKey? <;> exact h

lemma exists_of_propertyAssignment {t : SyntaxTree} (h : t.kind = .propertyAssignment) :
    ∃ name value, t = .mk () (.propertyAssignment name value) := by
  obtain ⟨⟨⟩, n⟩ := t
  cases n with
  | propertyAssignment name value => exact ⟨name, value, rfl⟩
  | _ => cases h

lemma splice_contributes (hparts : properties.mapM (writes? refs) = some parts)
    (hplain : Plain (.mk () (.objectLiteral properties))) :
    Contributes refs (properties.map splice) parts.flatten := by
  cases hplain with
  | other _ hobject => exact absurd rfl hobject
  | object hassigned hplain =>
    rw [Node.mapM_list_eq_some_iff] at hparts
    induction hparts with
    | nil => exact .nil
    | @cons t w properties parts hw _ ih =>
      obtain ⟨name, value, rfl⟩ := exists_of_propertyAssignment (hassigned t mem_cons_self)
      obtain ⟨entry, rfl, hentry⟩ := write?_splice hw
      have hvalue := plain_splice name (hplain name value mem_cons_self)
      exact (Contributes.singleton hentry hvalue).append
        (ih (fun t ht => hassigned t (mem_cons_of_mem _ ht))
          fun name value hmem => hplain name value (mem_cons_of_mem _ hmem))

/-- The pieces that a property of a constant object becomes. -/
inductive PiecesOf (R : Constant → SyntaxTree → Prop) : List Piece → Ordered Constant → Prop
  | computed {k c : Constant} {name value : SyntaxTree} {key : String} (hname : R k name)
      (hkey : k.key? = some key) (hvalue : R c value) : PiecesOf R [keyed name value] [(key, c)]
  | named {c : Constant} {value : SyntaxTree} (key : String) (hvalue : R c value) :
      PiecesOf R [.named key value] [(key, c)]
  | spread {properties : List SyntaxTree} {entries : Ordered Constant}
      (h : R (.object entries) (.mk () (.objectLiteral properties))) :
      PiecesOf R (properties.map splice) entries

lemma piecesOf_of_writes? (h : ∀ s ∈ t.subtrees, Yields refs go R s) (hps : pieces go t = .ok ps)
    (hw : t.writes? refs = some w) : PiecesOf R ps w := by
  obtain ⟨tag, n⟩ := t
  have hchild : ∀ s ∈ n.children, Yields refs go R s := fun s hs => h s (child_mem_subtrees hs)
  cases n with
  | propertyAssignment name value =>
    obtain ⟨key, hkey, hw⟩ := Option.bind_eq_some_iff.mp hw
    obtain ⟨c, hc, hw⟩ := Option.bind_eq_some_iff.mp hw
    cases hw
    have hvalue := hchild value (by simp)
    obtain ⟨tag', expression, rfl⟩ | hkind := computedPropertyName_cases name
    · have hname := h expression (computedName_mem_subtrees tag tag' expression value)
      obtain ⟨k, hk, hkey⟩ := Option.bind_eq_some_iff.mp hkey
      obtain ⟨value', hvalue', hps⟩ := bind_eq_ok hps
      obtain ⟨name', hname', hps⟩ := bind_eq_ok hps
      cases hps
      exact .computed (hname hk hname') hkey (hvalue hc hvalue')
    · rw [Flatten.pieces_of_ne hkind] at hps
      obtain ⟨value', hvalue', hps⟩ := bind_eq_ok hps
      cases hstatic : name.staticKey? with
      | none =>
        rw [hstatic] at hps
        cases hps
      | some key' =>
        rw [hstatic] at hps
        cases hps
        cases hkey.symm.trans (nameKey?_of_staticKey? refs hstatic)
        exact .named key (hvalue hc hvalue')
  | spreadAssignment expression =>
    obtain ⟨c, hc, hentries⟩ := Option.bind_eq_some_iff.mp hw
    obtain ⟨⟨⟨⟩, n⟩, ht', hps⟩ := bind_eq_ok hps
    have hvalue := hchild expression (by simp) hc ht'
    cases c with
    | object entries =>
      cases hentries
      cases n with
      | objectLiteral properties =>
        cases hps
        exact .spread hvalue
      | _ => cases hps
    | _ => cases hentries
  | _ => cases hw

lemma pieces_contribute (h : ∀ s ∈ t.subtrees, Keeps refs go s) (hps : pieces go t = .ok ps)
    (hw : t.writes? refs = some w) : Contributes refs ps w := by
  cases piecesOf_of_writes? h hps hw with
  | computed hname hkey hvalue =>
    exact .singleton (write?_keyed hname.1 hkey hvalue.1) (plain_keyed _ hvalue.2)
  | named key hvalue => exact .singleton (by simp [Piece.write?, hvalue.1]) hvalue.2
  | spread hobject =>
    obtain ⟨parts, hparts, hentries⟩ := constant?_object.mp hobject.1
    cases hentries
    have hsplice := splice_contributes hparts hobject.2
    obtain ⟨w', hw', hsame⟩ := hsplice.writes
    exact ⟨⟨w', hw', fun m => by rw [hsame, Ordered.putAll_ofEntries]⟩, hsplice.plain⟩

lemma writes?_tree (h : p.write? refs = some entry) : p.tree.writes? refs = some [entry] := by
  cases p with
  | named key value =>
    obtain ⟨c, hc, rfl⟩ := Option.map_eq_some_iff.mp h
    have hkey : nameKey? refs (.mk () (Constant.keyNode key) : SyntaxTree) = some key := by
      unfold Constant.keyNode
      split_ifs <;> rfl
    simp [Piece.tree, writes?, hkey, hc]
  | computed name value =>
    obtain ⟨key, hkey, h⟩ := Option.bind_eq_some_iff.mp h
    obtain ⟨c, hc, h⟩ := Option.bind_eq_some_iff.mp h
    cases h
    simp [Piece.tree, writes?, hkey, hc]
  | verbatim t => cases h

lemma mapM_writes?_tree (h : Writes refs ps w) :
    (ps.map Piece.tree).mapM (writes? refs) = some (w.map ([·])) := by
  rw [Node.mapM_list_eq_some_iff, forall₂_map_left_iff, forall₂_map_right_iff]
  exact h.imp fun _ _ => writes?_tree

lemma plain_object (h : ∀ p ∈ ps, p.Plain) :
    Plain (.mk () (.objectLiteral (ps.map Piece.tree))) := by
  constructor
  · intro t ht
    obtain ⟨p, hp, rfl⟩ := mem_map.mp ht
    cases p with
    | verbatim t => exact (h _ hp).elim
    | _ => rfl
  · intro name value hmem
    obtain ⟨p, hp, heq⟩ := mem_map.mp hmem
    have hplain := h p hp
    cases p with
    | verbatim t => exact hplain.elim
    | named key v | computed name v =>
      cases heq
      exact hplain

lemma object_keeps {properties : List Term}
    (h : ∀ e ∈ properties, ∀ s ∈ e.subtrees, Keeps refs go s)
    (hu : ∀ {parts}, properties.mapM (pieces go) = .ok parts →
      Unshadowed (marks refs parts.flatten))
    (hc : constant? refs (.mk tag (.objectLiteral properties)) = some c)
    (ht' : object go properties = .ok t') : t'.constant? refs = some c ∧ Plain t' := by
  obtain ⟨parts, hparts, rfl⟩ := constant?_object.mp hc
  obtain ⟨pss, hpss, ht'⟩ := bind_eq_ok ht'
  cases ht'
  have hall : Contributes refs pss.flatten parts.flatten :=
    flatten_induction .nil .append (fun e he _ _ hps hw => pieces_contribute (h e he) hps hw)
      hpss hparts
  obtain ⟨w, hw, hsame⟩ := hall.writes
  obtain ⟨w', hw', hmerged⟩ := merge_writes hw (hu hpss)
  refine ⟨constant?_object.mpr ⟨_, mapM_writes?_tree hw', ?_⟩, ?_⟩
  · have hflatten : (w'.map ([·])).flatten = w' := by
      rw [← flatMap_def, flatMap_singleton' w']
    rw [hflatten, Ordered.ofEntries, Ordered.ofEntries, hmerged, hsame]
  · exact plain_object fun p hp => hall.plain p (mem_of_mem_merge hp)

end Objects

section Templates

def Text.Reads (refs : References) (x : Text) (text : String) : Prop :=
  ∃ parts, x.spans.reverse.mapM (Tree.spanText? refs) = some parts ∧
    text = x.head ++ parts.foldr (· ++ ·) ""

lemma foldr_concat (parts : List String) (text : String) :
    (parts ++ [text]).foldr (· ++ ·) "" = parts.foldr (· ++ ·) "" ++ text := by
  induction parts with
  | nil => simp
  | cons part parts ih => rw [cons_append, foldr_cons, ih, foldr_cons, String.append_assoc]

variable {x : Text} {text part : String} {spans : List (Span Term)}

lemma Text.Reads.push (h : x.Reads refs text) {s : Span SyntaxTree}
    (hs : spanText? refs s = some part) :
    Text.Reads refs { x with spans := s :: x.spans } (text ++ part) := by
  obtain ⟨parts, hparts, rfl⟩ := h
  refine ⟨parts ++ [part], ?_, ?_⟩
  · simp [mapM_append, hparts, hs]
  · rw [foldr_concat, String.append_assoc]

lemma Text.Reads.append (h : x.Reads refs text) (more : String) :
    (x.append more).Reads refs (text ++ more) := by
  obtain ⟨head, spans⟩ := x
  cases spans with
  | nil =>
    obtain ⟨parts, hparts, rfl⟩ := h
    cases hparts
    exact ⟨[], rfl, by simp [Text.append]⟩
  | cons last rest =>
    -- The text goes after the literal of the last span.
    obtain ⟨parts, hparts, rfl⟩ := h
    rw [reverse_cons, mapM_append] at hparts
    obtain ⟨init, hinit, hparts⟩ := Option.bind_eq_some_iff.mp hparts
    obtain ⟨final, hfinal, hparts⟩ := Option.bind_eq_some_iff.mp hparts
    cases hparts
    rw [Node.mapM_list_eq_some_iff, forall₂_cons_left_iff] at hfinal
    obtain ⟨part, _, hpart, hnil, rfl⟩ := hfinal
    obtain rfl := forall₂_nil_left_iff.mp hnil
    obtain ⟨v, hv, rfl⟩ := Option.map_eq_some_iff.mp hpart
    have hrest : Text.Reads refs ⟨head, rest⟩ (head ++ init.foldr (· ++ ·) "") := ⟨init, hinit, rfl⟩
    have hlast : spanText? refs { last with literal := last.literal ++ more } =
        some (v.text ++ last.literal ++ more) := by
      rw [spanText?, hv, Option.map_some, String.append_assoc]
    have hpush := hrest.push hlast
    rw [foldr_concat]
    simpa only [String.append_assoc, Text.append] using hpush

lemma Text.Reads.constant?_tree (h : x.Reads refs text) :
    x.tree.constant? refs = some (.string text) := by
  obtain ⟨parts, hparts, rfl⟩ := h
  unfold Text.tree
  split_ifs with hempty
  · rw [List.isEmpty_iff] at hempty
    rw [hempty] at hparts
    cases hparts
    simp [constant?]
  · exact constant?_template.mpr ⟨parts, hparts, rfl⟩

lemma plain_text (x : Text) : Plain x.tree := by
  unfold Text.tree
  split_ifs <;> exact .other nofun nofun

lemma span_induction {Q : String → Text → Prop}
    (known : ∀ {text x v t' w} literal, Q text x → R v t' → t'.constant? noReferences = some w →
      Q (text ++ (v.text ++ literal)) (x.append (w.text ++ literal)))
    (unknown : ∀ {text x v t'} literal, Q text x → R v t' → t'.constant? noReferences = none →
      Q (text ++ (v.text ++ literal)) { x with spans := ⟨t', literal⟩ :: x.spans }) :
    ∀ {spans : List (Span Term)}, (∀ s ∈ spans, Yields refs go R s.expression) →
      ∀ {x x' : Text} (text : String) {parts : List String}, Q text x →
        spans.mapM (spanText? refs) = some parts → spans.foldlM (span go) x = .ok x' →
          Q (text ++ parts.foldr (· ++ ·) "") x' := by
  intro spans
  induction spans with
  | nil =>
    intro _ x x' text parts hx hparts hx'
    cases hparts
    cases hx'
    simpa using hx
  | cons s spans ih =>
    intro h x x' text parts hx hparts hx'
    rw [Node.mapM_list_eq_some_iff, forall₂_cons_left_iff] at hparts
    obtain ⟨part, parts, hs, hparts, rfl⟩ := hparts
    obtain ⟨v, hv, rfl⟩ := Option.map_eq_some_iff.mp hs
    obtain ⟨x₁, hx₁, hx'⟩ := bind_eq_ok hx'
    obtain ⟨t', ht', hx₁⟩ := bind_eq_ok hx₁
    have hvalue := h s mem_cons_self hv ht'
    rw [foldr_cons, ← String.append_assoc]
    refine ih (fun s hs => h s (mem_cons_of_mem _ hs)) _ ?_
      (Node.mapM_list_eq_some_iff.mpr hparts) hx'
    cases hconst : t'.constant? noReferences with
    | none =>
      rw [hconst] at hx₁
      cases hx₁
      exact unknown _ hx hvalue hconst
    | some w =>
      rw [hconst] at hx₁
      cases hx₁
      exact known _ hx hvalue hconst

lemma foldlM_span_reads (h : ∀ s ∈ spans, Keeps refs go s.expression) {x' : Text}
    {parts : List String} (hx : x.Reads refs text)
    (hparts : spans.mapM (spanText? refs) = some parts)
    (hx' : spans.foldlM (span go) x = .ok x') :
    x'.Reads refs (text ++ parts.foldr (· ++ ·) "") := by
  refine span_induction (Q := fun text x => x.Reads refs text) ?_ ?_ h _ hx hparts hx'
  · intro text x v t' w literal hx hvalue hconst
    cases hvalue.1.symm.trans (constant?_of_noReferences refs t' w hconst)
    exact hx.append _
  · intro text x v t' literal hx hvalue _
    exact hx.push (by rw [spanText?, hvalue.1, Option.map_some])

lemma template_keeps {head : String} (h : ∀ s ∈ spans, Keeps refs go s.expression)
    (hc : constant? refs (.mk tag (.templateExpr head spans)) = some c)
    (ht' : template go head spans = .ok t') : t'.constant? refs = some c ∧ Plain t' := by
  obtain ⟨parts, hparts, rfl⟩ := constant?_template.mp hc
  obtain ⟨x, hx, ht'⟩ := bind_eq_ok ht'
  cases ht'
  have hstart : Text.Reads refs ⟨head, []⟩ head := ⟨[], rfl, by simp⟩
  exact ⟨(foldlM_span_reads h hstart hparts hx).constant?_tree, plain_text x⟩

end Templates

section Members

/-- The constant of a key. -/
def keyValue : MemberKey → Constant
  | .name name => .string name
  | .index n => .number n

variable {key : MemberKey}

lemma keyValue_of? {t : SyntaxTree} (h : MemberKey.of? t = some key)
    (hk : t.constant? refs = some k) : keyValue key = k := by
  obtain ⟨⟨⟩, n⟩ := t
  cases n with
  | stringLiteral value | numberLiteral value =>
    cases h
    cases hk
    rfl
  | _ => cases h

lemma property?_keeps {name : String} {value : SyntaxTree} {found : Option SyntaxTree}
    {entries : Ordered Constant} (hassigned : ∀ t ∈ properties, t.kind = .propertyAssignment)
    (hfound : ∀ v, found = some v → v.constant? refs = Ordered.get? name entries)
    (hparts : properties.mapM (writes? refs) = some parts)
    (hvalue : property? name found properties = .found value) :
    value.constant? refs = Ordered.get? name (putAll entries parts.flatten) ∧
      (found = some value ∨ ∃ key, .mk () (.propertyAssignment key value) ∈ properties) := by
  induction properties generalizing found entries parts with
  | nil =>
    cases hparts
    cases found with
    | none => cases hvalue
    | some v =>
      cases hvalue
      exact ⟨hfound value rfl, .inl rfl⟩
  | cons t properties ih =>
    rw [Node.mapM_list_eq_some_iff, forall₂_cons_left_iff] at hparts
    obtain ⟨w, parts, hw, hparts, rfl⟩ := hparts
    obtain ⟨key, v, rfl⟩ := exists_of_propertyAssignment (hassigned t mem_cons_self)
    obtain ⟨k, hk, hw⟩ := Option.bind_eq_some_iff.mp hw
    obtain ⟨c, hc, hw⟩ := Option.bind_eq_some_iff.mp hw
    cases hw
    rw [property?] at hvalue
    cases hstatic : key.staticKey? with
    | none =>
      rw [hstatic] at hvalue
      cases hvalue
    | some k' =>
      have hk' := nameKey?_of_staticKey? refs hstatic
      rw [hk] at hk'
      cases hk'
      rw [hstatic] at hvalue
      have hnext : ∀ u, (if k = name then some v else found) = some u →
          u.constant? refs = Ordered.get? name (Ordered.put k c entries) := by
        intro u hu
        rw [Ordered.get?_put]
        by_cases hname : k = name
        · rw [if_pos hname] at hu ⊢
          cases hu
          exact hc
        · rw [if_neg hname] at hu ⊢
          exact hfound u hu
      obtain ⟨hlast, hmem⟩ := ih (fun t ht => hassigned t (mem_cons_of_mem _ ht)) hnext
        (Node.mapM_list_eq_some_iff.mpr hparts) hvalue
      refine ⟨hlast, ?_⟩
      rcases hmem with hmem | ⟨key', hmem⟩
      · by_cases hname : k = name
        · rw [if_pos hname] at hmem
          cases hmem
          exact .inr ⟨key, mem_cons_self⟩
        · rw [if_neg hname] at hmem
          exact .inl hmem
      · exact .inr ⟨key', mem_cons_of_mem _ hmem⟩

lemma property?_ne_count (name : String) (n : Nat) (properties : List SyntaxTree) (found) :
    property? name found properties ≠ .count n := by
  intro h
  induction properties generalizing found with
  | nil => cases found <;> cases h
  | cons t properties ih =>
    obtain ⟨⟨⟩, node⟩ := t
    cases node with
    | propertyAssignment key value =>
      rw [property?] at h
      cases hstatic : key.staticKey? with
      | none =>
        rw [hstatic] at h
        cases h
      | some k =>
        rw [hstatic] at h
        exact ih _ h
    | _ => cases h

lemma items_of_unspread {items : List SyntaxTree} {parts : List (List Constant)}
    (hunspread : ∀ t ∈ items, t.kind ≠ .spreadElement)
    (hparts : items.mapM (items? refs) = some parts) :
    List.Forall₂ (fun t c => t.constant? refs = some c) items parts.flatten := by
  rw [Node.mapM_list_eq_some_iff] at hparts
  induction hparts with
  | nil => exact .nil
  | @cons t part items parts hpart _ ih =>
    rw [items?_of_ne (hunspread t mem_cons_self)] at hpart
    obtain ⟨c, hc, rfl⟩ := Option.map_eq_some_iff.mp hpart
    exact .cons hc (ih fun t ht => hunspread t (mem_cons_of_mem _ ht))

lemma member?_keeps {access : NodeId} {base : SyntaxTree} {b : Constant} (hplain : Plain base)
    (hbase : base.constant? refs = some b) (hc : b.member? (keyValue key) = some c)
    (ht' : member? access base key = .ok (some t')) : t'.constant? refs = some c ∧ Plain t' := by
  obtain ⟨⟨⟩, n⟩ := base
  unfold member? at ht'
  cases n with
  | objectLiteral properties =>
    obtain ⟨parts, hparts, rfl⟩ := constant?_object.mp hbase
    cases key with
    | index n => cases ht'
    | name name =>
      cases hplain with
      | other _ hobject => exact absurd rfl hobject
      | object hassigned hplain =>
        simp only [lookup] at ht'
        cases hfound : property? name none properties with
        | found value =>
          rw [hfound] at ht'
          cases ht'
          have hnone : ∀ v : SyntaxTree, none = some v →
              v.constant? refs = Ordered.get? name [] := by simp
          obtain ⟨hvalue, hmem⟩ := property?_keeps hassigned hnone hparts hfound
          rcases hmem with hmem | ⟨key, hmem⟩
          · cases hmem
          · exact ⟨by rw [hvalue]; exact hc, hplain key _ hmem⟩
        | count n => exact absurd hfound (property?_ne_count name n properties none)
        | _ =>
          rw [hfound] at ht'
          cases ht'
  | arrayLiteral items =>
    obtain ⟨parts, hparts, rfl⟩ := constant?_array.mp hbase
    cases hplain with
    | other harray => exact absurd rfl harray
    | array hunspread hplain =>
      have hitems := items_of_unspread hunspread hparts
      cases key with
      | index n =>
        simp only [keyValue, Constant.member?, Option.bind_eq_some_iff] at hc
        obtain ⟨i, hi, hc⟩ := hc
        simp only [lookup, hi, Option.bind_some] at ht'
        cases hitem : items[i]? with
        | none =>
          rw [hitem] at ht'
          cases ht'
        | some item =>
          rw [hitem] at ht'
          cases ht'
          obtain ⟨hlt, rfl⟩ := List.getElem?_eq_some_iff.mp hitem
          obtain ⟨hlt', rfl⟩ := List.getElem?_eq_some_iff.mp hc
          exact ⟨hitems.get hlt hlt', hplain _ (getElem_mem hlt)⟩
      | name name =>
        simp only [keyValue, Constant.member?] at hc
        simp only [lookup] at ht'
        split_ifs at hc ht' with hname
        cases hc
        cases ht'
        rw [hitems.length_eq]
        exact ⟨rfl, .other Kind.noConfusion Kind.noConfusion⟩
  | stringLiteral value =>
    cases hbase
    cases key with
    | index n => cases ht'
    | name name =>
      simp only [keyValue, Constant.member?] at hc
      simp only [lookup] at ht'
      split_ifs at hc ht' with hname
      cases hc
      cases ht'
      exact ⟨rfl, .other Kind.noConfusion Kind.noConfusion⟩
  | _ => cases key <;> cases ht'

end Members

lemma signed_keeps {operator : UnaryOp} {operand : Term} {operand' : SyntaxTree}
    (hc : constant? refs (.mk tag (.unaryExpr operator operand)) = some c)
    (hoperand : operand'.constant? refs = operand.constant? refs) :
    (signed operator operand').constant? refs = some c ∧ Plain (signed operator operand') := by
  have hunary : constant? refs (.mk () (.unaryExpr operator operand') : SyntaxTree) = some c := by
    rw [constant?] at hc ⊢
    rwa [hoperand]
  obtain ⟨⟨⟩, n⟩ := operand'
  cases operator <;> cases n <;> exact ⟨hunary, .other Kind.noConfusion Kind.noConfusion⟩

/-- The keys that an object literal writes, its parts being flattened with no name known. -/
def objectMarks (refs : References) (t : Term) : List Mark :=
  match t.node with
  | .objectLiteral properties =>
    match properties.mapM (pieces (flat fun _ => none)) with
    | .ok parts => marks refs parts.flatten
    | .error _ => []
  | _ => []

/-- Flattening keeps the constant of every term. -/
theorem flat_keeps (refs : References) (t : Term) :
    (∀ s ∈ t.subtrees, Unshadowed (objectMarks refs s)) → Keeps refs (flat fun _ => none) t := by
  refine subtrees_induction (P := Keeps refs (flat fun _ => none))
    (fun tag n hu hchild hparts => ?_) t
  intro c t' hc ht'
  have hself := hu _ (self_mem_subtrees _)
  rw [flat_eq] at ht'
  cases n with
  | stringLiteral | numberLiteral | booleanLiteral | nullLiteral | undefinedLiteral
  | referenceExpr =>
    cases ht'
    exact ⟨hc, .other nofun nofun⟩
  | unaryExpr operator operand =>
    obtain ⟨operand', hoperand', ht'⟩ := bind_eq_ok ht'
    cases ht'
    obtain ⟨v, hv, -⟩ : ∃ v, operand.constant? refs = some v ∧ _ := Option.bind_eq_some_iff.mp hc
    obtain ⟨hvalue, -⟩ := hchild operand (by simp) hv hoperand'
    exact signed_keeps hc (hvalue.trans hv.symm)
  | arrayLiteral elements => exact array_keeps hparts hc ht'
  | objectLiteral properties =>
    have hunshadowed : ∀ {parts}, properties.mapM (pieces (flat fun _ => none)) = .ok parts →
        Unshadowed (marks refs parts.flatten) := by
      intro parts hpieces
      simpa only [objectMarks, Tree.node, hpieces] using hself
    exact object_keeps hparts hunshadowed hc ht'
  | templateExpr head spans =>
    exact template_keeps (fun s hs => hchild s.expression (mem_map_of_mem hs)) hc ht'
  | propertyAccess expression name chained =>
    obtain ⟨b, hb, hmember⟩ := constant?_propertyAccess.mp hc
    obtain ⟨base, hbase, ht'⟩ := bind_eq_ok ht'
    obtain ⟨found, hfound, ht'⟩ := bind_eq_ok ht'
    cases ht'
    obtain ⟨hvalue, hplain⟩ := hchild expression (by simp) hb hbase
    cases found with
    | some value =>
      have hkey : b.member? (keyValue (.name name)) = some c := hmember
      exact member?_keeps hplain hvalue hkey hfound
    | none =>
      exact ⟨constant?_propertyAccess.mpr ⟨b, hvalue, hmember⟩, .other nofun nofun⟩
  | elementAccess expression element chained =>
    obtain ⟨b, k, hb, hk, hmember⟩ := constant?_elementAccess.mp hc
    obtain ⟨base, hbase, ht'⟩ := bind_eq_ok ht'
    obtain ⟨key, hkey, ht'⟩ := bind_eq_ok ht'
    obtain ⟨found, hfound, ht'⟩ := bind_eq_ok ht'
    cases ht'
    obtain ⟨hvalue, hplain⟩ := hchild expression (by simp) hb hbase
    obtain ⟨hkeyvalue, -⟩ := hchild element (by simp) hk hkey
    cases found with
    | some value =>
      unfold elementMember? at hfound
      cases hmemberKey : MemberKey.of? key with
      | none =>
        rw [hmemberKey] at hfound
        cases hfound
      | some memberKey =>
        rw [hmemberKey] at hfound
        obtain rfl := keyValue_of? hmemberKey hkeyvalue
        exact member?_keeps hplain hvalue hmember hfound
    | none =>
      exact ⟨constant?_elementAccess.mpr ⟨b, k, hvalue, hkeyvalue, hmember⟩, .other nofun nofun⟩
  | _ => cases hc

end Folding

namespace Flatten

/-- No object literal of the expression, its parts being flattened, writes a fixed key again after
a computed name of the same key. -/
def KeysUnshadowed (refs : References) (t : Term) : Prop :=
  ∀ s ∈ t.subtrees, Folding.Unshadowed (Folding.objectMarks refs s)

instance (refs : References) (t : Term) : Decidable (KeysUnshadowed refs t) :=
  inferInstanceAs (Decidable (∀ s ∈ t.subtrees, Folding.Unshadowed (Folding.objectMarks refs s)))

/-- An expression that has a value is flattened to one that has the same value, with the keys of an
object in the same order. -/
theorem constant_kept_by_flattening (refs : References) {tree : SyntaxTree} {root e id : NodeId}
    {f f' : Forest} {t : Term} {c : Constant} (hf : Forest.ofTree tree = .ok (root, f))
    (ht : f.view? e = some t) (hu : KeysUnshadowed refs t) (hc : t.constant? refs = some c)
    (hid : (expression [] e).run f = (.ok id, f')) :
    ∃ t', f'.view? id = some t' ∧ t'.constant? refs = some c := by
  obtain ⟨low, hlinked⟩ := Forest.inOrder_ofTree hf
  obtain ⟨-, ⟨_, flat, ⟨⟩, hflat, hroot⟩ | ⟨_, ⟨⟩, -⟩⟩ :=
    expression_cases hlinked.toLinked scopeShows_nil ht hid
  obtain ⟨t', ht', rfl⟩ := exists_view?_of_root hroot
  obtain ⟨hvalue, -⟩ := Folding.flat_keeps refs t hu hc hflat
  exact ⟨t', ht', by rw [← constant?_untag, hvalue]⟩

lemma exists_view?_ofTree {tree : SyntaxTree} {root : NodeId} {f : Forest}
    (hf : Forest.ofTree tree = .ok (root, f)) :
    ∃ t, f.view? root = some t ∧ ∀ refs, t.constant? refs = tree.constant? refs := by
  obtain ⟨f₁, -, id, hrun, hroot⟩ := Build.plants_insert tree Forest.inOrder_empty.toLinked
  rw [Forest.ofTree, hrun] at hf
  cases hf
  obtain ⟨t, ht, huntag⟩ := exists_view?_of_root hroot
  exact ⟨t, ht, fun refs => by rw [← constant?_untag, huntag, constant?_untag]⟩

section Runs

/-- An object with `size` written three times, once by a spread object, and one name given by a
reference. -/
def overridden : SyntaxTree :=
  let items : SyntaxTree := .list [.mk () (.spreadElement (.list [.number 1, .number 2])), .number 3]
  let defaults : SyntaxTree :=
    .record [.entry (.stringLiteral "label") (.mk () (.templateExpr "n" [⟨.number 1, ""⟩])),
      .entry (.stringLiteral "size") (.number 2)]
  .record
    [.entry (.stringLiteral "size") (.member items "length"), .mk () (.spreadAssignment defaults),
      .entry (.computedPropertyName (.ref "topic")) (.text "x"),
      .entry (.stringLiteral "size")
        (.member (.record [.entry (.stringLiteral "depth") (.number 4)]) "depth")]

def topics : References := fun name => if name = "topic" then some (.string "news") else none

theorem constant_kept_by_flattening_overridden : ∃ root f id f' t t',
    Forest.ofTree overridden = .ok (root, f) ∧ f.view? root = some t ∧ KeysUnshadowed topics t ∧
    (expression [] root).run f = (.ok id, f') ∧ f'.view? id = some t' ∧
    t'.constant? topics = some (.object
      [("size", .number (Double.ofNat 4)), ("label", .string "n1"), ("news", .string "x")]) := by
  have heval : ((Forest.ofTree overridden).toOption.any fun r =>
      ((expression [] r.1).run r.2).1.toOption.isSome &&
        (r.2.view? r.1).all fun t => decide (KeysUnshadowed topics t)) = true := by decide +kernel
  obtain ⟨root, f, low, hf, -⟩ := Forest.exists_ofTree overridden
  rw [hf] at heval
  simp only [Except.toOption, Option.any_some, Bool.and_eq_true] at heval
  obtain ⟨t, ht, hconstant⟩ := exists_view?_ofTree hf
  have hu : KeysUnshadowed topics t := by simpa [ht] using heval.2
  cases hrun : ((expression [] root).run f).1 with
  | error e =>
    rw [hrun] at heval
    cases heval.1
  | ok id =>
    have hid : (expression [] root).run f = (.ok id, ((expression [] root).run f).2) :=
      Prod.ext hrun rfl
    obtain ⟨t', ht', hvalue⟩ :=
      constant_kept_by_flattening topics hf ht hu ((hconstant topics).trans rfl) hid
    exact ⟨root, f, id, _, t, t', hf, ht, hu, hid, ht', hvalue⟩

/-- A fixed key that is written again after a computed name of the same key. -/
def shadowed : SyntaxTree :=
  let one : SyntaxTree := .mk () (.unaryExpr .plus (.number 1))
  .record [.entry (.stringLiteral "1") (.text "first"),
    .entry (.computedPropertyName one) (.text "middle"),
    .entry (.stringLiteral "1") (.text "last")]

/-- The last value of the key goes to its first place, before the computed name. -/
theorem value_changed_by_shadowed_key : ∃ root f id f' t t',
    Forest.ofTree shadowed = .ok (root, f) ∧ f.view? root = some t ∧
    (expression [] root).run f = (.ok id, f') ∧ f'.view? id = some t' ∧
    t.constant? noReferences = some (.object [("1", .string "last")]) ∧
    t'.constant? noReferences ≠ t.constant? noReferences := by
  let reading (t : Term) : Option String :=
    ((t.constant? noReferences).bind (Constant.member? · (.string "1"))).map Constant.text
  have heval : ((Forest.ofTree shadowed).toOption.any fun r =>
      let run := (expression [] r.1).run r.2
      run.1.toOption.any fun id => (run.2.view? id).any fun t =>
        decide (reading t = some "middle")) = true := by decide +kernel
  obtain ⟨root, f, low, hf, -⟩ := Forest.exists_ofTree shadowed
  rw [hf] at heval
  obtain ⟨t, ht, hconstant⟩ := exists_view?_ofTree hf
  have hvalue : t.constant? noReferences = some (.object [("1", .string "last")]) :=
    (hconstant noReferences).trans rfl
  dsimp only [Except.toOption, Option.any_some] at heval
  cases hrun : (expression [] root).run f with
  | mk result f' =>
    rw [hrun] at heval
    cases result with
    | error e => cases heval
    | ok id =>
      obtain ⟨t', ht', hreading⟩ := (Option.any_eq_true _ (f'.view? id)).mp heval
      refine ⟨root, f, id, f', t, t', hf, ht, hrun, ht', hvalue, ?_⟩
      intro heq
      have hlast : reading t' = some "last" := by simp only [reading, heq, hvalue]; rfl
      exact absurd (hlast.symm.trans (of_decide_eq_true hreading)) (by decide)

end Runs

end Flatten

end ServiceFlow
