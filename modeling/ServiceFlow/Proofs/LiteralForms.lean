import ServiceFlow.Proofs.ConstantForms
import ServiceFlow.Proofs.FlattenedConstants
import ServiceFlow.Proofs.FlatteningFrame

/-!
# Literal forms

An expression that has a value is flattened to the literal form of it, unless it applies the sign
`+` or reads an element by a key that is neither a text nor a number.
-/

namespace ServiceFlow

open ServiceFlow.Tree

open List hiding lookup

attribute [local simp] Tree.node Node.children

namespace Constant

open Ordered (keys putAll ofEntries)

/-- A value that an expression can have: there is no handle in it, and no object has a key twice. -/
inductive Literal : Constant → Prop
  | undefined : Literal .undefined
  | null : Literal .null
  | bool (b : Bool) : Literal (.bool b)
  | number (n : Double) : Literal (.number n)
  | string (s : String) : Literal (.string s)
  | array {items : List Constant} (literal : ∀ c ∈ items, Literal c) : Literal (.array items)
  | object {entries : Ordered Constant} (nodup : (keys entries).Nodup)
      (literal : ∀ entry ∈ entries, Literal entry.2) : Literal (.object entries)

/-- The piece of a constant entry. -/
def entryPiece (entry : String × Constant) : Folding.Piece := .named entry.1 entry.2.toTree

lemma toTree_array (items : List Constant) :
    (array items).toTree = .mk () (.arrayLiteral (items.map toTree)) :=
  congrArg (mk () ∘ Node.arrayLiteral) (eq_map_of_cons rfl (fun _ _ => rfl) items)

lemma toTree_object (entries : Ordered Constant) :
    (object entries).toTree =
      .mk () (.objectLiteral ((entries.map entryPiece).map Folding.Piece.tree)) := by
  rw [map_map]
  exact congrArg (mk () ∘ Node.objectLiteral) (eq_map_of_cons rfl (fun _ _ => rfl) entries)

variable {c : Constant} {w : Ordered Constant}

lemma constant?_toTree (refs : References) (h : c.Literal) : c.toTree.constant? refs = some c := by
  induction h with
  | array literal ih =>
    rename_i items
    have hitems : (items.map toTree).mapM (Tree.items? refs) = some (items.map ([·])) := by
      rw [Node.mapM_list_eq_some_iff, forall₂_map_left_iff, forall₂_map_right_iff, forall₂_same]
      intro c hc
      rw [items?_of_ne (by cases c <;> exact nofun), ih c hc, Option.map_some]
    rw [toTree_array]
    exact constant?_array.mpr ⟨_, hitems, by rw [← flatMap_def, flatMap_singleton']⟩
  | object nodup literal ih =>
    rename_i entries
    have hwrites : Folding.Writes refs (entries.map entryPiece) entries := by
      rw [Folding.Writes, forall₂_map_left_iff, forall₂_same]
      intro entry hentry
      rw [entryPiece, Folding.Piece.write?, ih entry hentry, Option.map_some]
    rw [toTree_object]
    refine constant?_object.mpr ⟨_, Folding.mapM_writes?_tree hwrites, ?_⟩
    rw [← flatMap_def, flatMap_singleton', Ordered.ofEntries_of_nodup nodup]
  | _ => rfl

lemma Literal.member? {base key : Constant} (h : base.Literal) (hc : base.member? key = some c) :
    c.Literal := by
  cases h with
  | object nodup literal => exact literal _ (Ordered.mem_of_get? hc)
  | array literal =>
    cases key with
    | string name =>
      simp only [Constant.member?] at hc
      split_ifs at hc
      cases hc
      exact .number _
    | number n =>
      obtain ⟨i, -, hi⟩ := Option.bind_eq_some_iff.mp hc
      exact literal c (mem_of_getElem? hi)
    | _ => cases hc
  | string s =>
    cases key with
    | string name =>
      simp only [Constant.member?] at hc
      split_ifs at hc
      cases hc
      exact .number _
    | _ => cases hc
  | _ => cases hc

lemma literal_ofEntries (h : ∀ entry ∈ w, entry.2.Literal) : (object (ofEntries w)).Literal := by
  refine .object (Ordered.nodup_keys_putAll nodup_nil) fun entry hentry => ?_
  rcases Ordered.mem_putAll hentry with hnone | hw
  · cases hnone
  · exact h entry hw

end Constant

namespace Tree

variable {α : Type} {t : Tree α}

lemma exists_of_mem_flatten {β γ : Type} {g : β → Option (List γ)} {xs : List β}
    {parts : List (List γ)} (h : xs.mapM g = some parts) {c : γ} (hc : c ∈ parts.flatten) :
    ∃ x ∈ xs, ∃ part, g x = some part ∧ c ∈ part := by
  rw [Node.mapM_list_eq_some_iff] at h
  induction h with
  | nil => cases hc
  | @cons x part xs parts hx _ ih =>
    rcases mem_append.mp hc with hc | hc
    · exact ⟨x, mem_cons_self, part, hx, hc⟩
    · obtain ⟨y, hy, found⟩ := ih hc
      exact ⟨y, mem_cons_of_mem x hy, found⟩

lemma literal_of_constant? (t : Tree α) : ∀ {c}, t.constant? noReferences = some c → c.Literal := by
  induction t using descendants_induction with
  | step t ih =>
    intro c hc
    obtain ⟨tag, n⟩ := t
    have hchild : ∀ s ∈ n.children, ∀ {c}, s.constant? noReferences = some c → c.Literal :=
      fun s hs => ih s (child_mem_descendants hs)
    cases n with
    | stringLiteral | numberLiteral | booleanLiteral | nullLiteral | undefinedLiteral =>
      cases hc
      constructor
    | unaryExpr operator operand =>
      obtain ⟨v, -, hv⟩ := Option.bind_eq_some_iff.mp hc
      split at hv <;> cases hv <;> exact .number _
    | arrayLiteral elements =>
      obtain ⟨parts, hparts, rfl⟩ := constant?_array.mp hc
      refine .array fun c hmem => ?_
      obtain ⟨e, he, part, hpart, hmem⟩ := exists_of_mem_flatten hparts hmem
      obtain ⟨tag', expression, rfl⟩ | hkind := spreadElement_cases e
      · obtain ⟨v, hv, hitems⟩ := Option.bind_eq_some_iff.mp hpart
        have hliteral := ih expression (mem_descendants_of_child he child_mem_subtrees) hv
        cases hliteral with
        | array literal =>
          cases hitems
          exact literal c hmem
        | _ => cases hitems
      · rw [items?_of_ne hkind] at hpart
        obtain ⟨v, hv, rfl⟩ := Option.map_eq_some_iff.mp hpart
        obtain rfl := mem_singleton.mp hmem
        exact hchild e he hv
    | objectLiteral properties =>
      obtain ⟨parts, hparts, rfl⟩ := constant?_object.mp hc
      refine Constant.literal_ofEntries fun entry hmem => ?_
      obtain ⟨⟨tag', n⟩, he, part, hpart, hmem⟩ := exists_of_mem_flatten hparts hmem
      cases n with
      | propertyAssignment name value =>
        obtain ⟨key, hkey, hpart⟩ := Option.bind_eq_some_iff.mp hpart
        obtain ⟨v, hv, hpart⟩ := Option.bind_eq_some_iff.mp hpart
        cases hpart
        obtain rfl := mem_singleton.mp hmem
        exact ih value (mem_descendants_of_child he child_mem_subtrees) hv
      | spreadAssignment expression =>
        obtain ⟨v, hv, hentries⟩ := Option.bind_eq_some_iff.mp hpart
        have hliteral := ih expression (mem_descendants_of_child he child_mem_subtrees) hv
        cases hliteral with
        | object nodup literal =>
          cases hentries
          exact literal entry hmem
        | _ => cases hentries
      | _ => cases hpart
    | templateExpr head spans =>
      obtain ⟨parts, -, rfl⟩ := constant?_template.mp hc
      exact .string _
    | propertyAccess expression name chained =>
      obtain ⟨v, hv, hmember⟩ := constant?_propertyAccess.mp hc
      exact (hchild expression (by simp) hv).member? hmember
    | elementAccess expression element chained =>
      obtain ⟨v, k, hv, -, hmember⟩ := constant?_elementAccess.mp hc
      exact (hchild expression (by simp) hv).member? hmember
    | _ => cases hc

/-- An expression with a plus sign. -/
def isPlus : Tree α → Bool
  | .mk _ (.unaryExpr .plus _) => true
  | _ => false

/-- An element is read by a key that has no value, or one that is neither a text nor a number. -/
def readsOpenKey : Tree α → Bool
  | .mk _ (.elementAccess _ key _) => ((key.constant? noReferences).bind Constant.key?).isNone
  | _ => false

end Tree

namespace Folding

open Constant (entryPiece)
open Flatten (MemberKey lookup property?)
open Ordered (putAll ofEntries keys)

def Literalises (go : Term → Except NodeError SyntaxTree) (t : Term) : Prop :=
  ∀ ⦃c t'⦄, t.constant? noReferences = some c → go t = .ok t' → t' = c.toTree

variable {go : Term → Except NodeError SyntaxTree} {t : Term} {k : Constant} {key : String}

lemma element_literal (h : ∀ s ∈ t.subtrees, Literalises go s) {ts : List SyntaxTree}
    {items : List Constant} (hts : element go t = .ok ts)
    (hitems : t.items? noReferences = some items) : ts = items.map Constant.toTree := by
  obtain hvalue | ⟨c, t', rfl, rfl, rfl⟩ := element_cases h hts hitems
  · rw [Constant.toTree_array] at hvalue
    cases hvalue
    rfl
  · rfl

lemma staticKey?_keyNode (key : String) :
    (mk () (Constant.keyNode key) : SyntaxTree).staticKey? = some key := by
  unfold Constant.keyNode
  split_ifs <;> rfl

lemma splice_named (key : String) (value : SyntaxTree) :
    splice (Piece.named key value).tree = .named key value := by
  rw [Piece.tree, splice, staticKey?_keyNode]

lemma keyed_literal (hkey : k.key? = some key) (value : SyntaxTree) :
    keyed k.toTree value = .named key value := by
  cases k with
  | string s | number n =>
    cases hkey
    rfl
  | _ => cases hkey

lemma pieces_literal (h : ∀ s ∈ t.subtrees, Literalises go s) {ps : List Piece}
    (hps : pieces go t = .ok ps) (hw : t.writes? noReferences = some w) :
    ps = w.map entryPiece := by
  cases piecesOf_of_writes? h hps hw with
  | computed hname hkey hvalue =>
    rw [hname, hvalue, keyed_literal hkey]
    rfl
  | named key hvalue =>
    rw [hvalue]
    rfl
  | spread hvalue =>
    rw [Constant.toTree_object] at hvalue
    cases hvalue
    rw [map_map, map_congr_left (g := id), map_id]
    intro p hp
    obtain ⟨entry, -, rfl⟩ := mem_map.mp hp
    exact splice_named _ _

lemma putPiece_entryPiece (key : String) (c : Constant) (m : Ordered Constant) :
    putPiece key c.toTree (m.map entryPiece) = (m.put key c).map entryPiece := by
  induction m with
  | nil => rfl
  | cons entry m ih =>
    obtain ⟨k, v⟩ := entry
    rw [map_cons, entryPiece, putPiece, ih, Ordered.put]
    split_ifs with hk
    · rw [map_cons, entryPiece, hk]
    · rw [map_cons, entryPiece]

lemma merge_entryPiece (w : Ordered Constant) :
    merge (w.map entryPiece) = (ofEntries w).map entryPiece := by
  have hplace : ∀ m : Ordered Constant,
      (w.map entryPiece).foldl place (m.map entryPiece) = (m.putAll w).map entryPiece := by
    induction w with
    | nil => exact fun m => rfl
    | cons entry w ih =>
      intro m
      rw [map_cons, foldl_cons, entryPiece, place, putPiece_entryPiece, ih]
      rfl
  exact hplace []

lemma foldlM_span_literal {spans : List (Span Term)}
    (h : ∀ s ∈ spans, Yields noReferences go (fun c t' => c.Literal ∧ t' = c.toTree) s.expression)
    {head : String} {x : Text} {parts : List String}
    (hparts : spans.mapM (spanText? noReferences) = some parts)
    (hx : spans.foldlM (span go) ⟨head, []⟩ = .ok x) :
    x = ⟨head ++ parts.foldr (· ++ ·) "", []⟩ := by
  refine span_induction (Q := fun text x => x = ⟨text, []⟩) ?_ ?_ h _ rfl hparts hx
  · rintro text x v t' w literal rfl ⟨hv, rfl⟩ hconst
    cases (Constant.constant?_toTree noReferences hv).symm.trans hconst
    rfl
  · rintro text x v t' literal - ⟨hv, rfl⟩ hconst
    cases (Constant.constant?_toTree noReferences hv).symm.trans hconst

section Members

lemma property?_entryPiece {name : String} {entries : Ordered Constant}
    (hnodup : (keys entries).Nodup) (found : Option SyntaxTree) :
    property? name found ((entries.map entryPiece).map Piece.tree) =
      match ((Ordered.get? name entries).map Constant.toTree).or found with
      | some value => .found value
      | none => .missing name := by
  induction entries generalizing found with
  | nil => cases found <;> rfl
  | cons entry entries ih =>
    obtain ⟨key, c⟩ := entry
    obtain ⟨hnot, hnodup⟩ := nodup_cons.mp hnodup
    rw [map_cons, map_cons, entryPiece, Piece.tree, property?, staticKey?_keyNode, Ordered.get?]
    simp only [ih hnodup]
    by_cases hkey : key = name
    · subst hkey
      have hnone : Ordered.get? key entries = none := by
        cases hget : Ordered.get? key entries with
        | none => rfl
        | some v => exact absurd (mem_map_of_mem (Ordered.mem_of_get? hget)) hnot
      simp [hnone]
    · simp [hkey]

lemma member?_literal {access : NodeId} {key : MemberKey} {b : Constant} {found : Option SyntaxTree}
    (hb : b.Literal) (hc : b.member? (keyValue key) = some c)
    (hfound : member? access b.toTree key = .ok found) : found = some c.toTree := by
  unfold member? at hfound
  cases hb with
  | object nodup literal =>
    rw [Constant.toTree_object] at hfound
    cases key with
    | index n => cases hfound
    | name name =>
      have hget : Ordered.get? name _ = some c := hc
      rw [lookup, property?_entryPiece nodup, hget] at hfound
      cases hfound
      rfl
  | @array items literal =>
    rw [Constant.toTree_array] at hfound
    cases key with
    | index n =>
      obtain ⟨i, hi, hitem⟩ := Option.bind_eq_some_iff.mp hc
      simp only [lookup, hi, Option.bind_some, getElem?_map, hitem, Option.map_some] at hfound
      cases hfound
      rfl
    | name name =>
      simp only [keyValue, Constant.member?] at hc
      simp only [lookup, length_map] at hfound
      split_ifs at hc hfound
      cases hc
      cases hfound
      rfl
  | string s =>
    cases key with
    | index n => cases hc
    | name name =>
      simp only [keyValue, Constant.member?] at hc
      simp only [Constant.toTree, lookup] at hfound
      split_ifs at hc hfound
      cases hc
      cases hfound
      rfl
  | _ => cases key <;> cases hc

lemma of?_toTree (h : k.key? = some key) :
    ∃ memberKey, MemberKey.of? k.toTree = some memberKey ∧ keyValue memberKey = k := by
  cases k with
  | string s => exact ⟨.name s, rfl, rfl⟩
  | number n => exact ⟨.index n, rfl, rfl⟩
  | _ => cases h

end Members

lemma flat_literal (t : Term) : (∀ s ∈ t.subtrees, s.isPlus = false) →
    (∀ s ∈ t.subtrees, s.readsOpenKey = false) → Literalises (flat fun _ => none) t := by
  intro hplus hopen
  refine subtrees_induction (A := fun s => s.isPlus = false ∧ s.readsOpenKey = false)
    (P := Literalises (flat fun _ => none)) (fun tag n hall hchild hparts => ?_) t
    fun s hs => ⟨hplus s hs, hopen s hs⟩
  intro c t' hc ht'
  obtain ⟨hplus, hopen⟩ := hall _ (self_mem_subtrees _)
  rw [flat_eq] at ht'
  cases n with
  | stringLiteral | numberLiteral | booleanLiteral | nullLiteral | undefinedLiteral =>
    cases hc
    cases ht'
    rfl
  | unaryExpr operator operand =>
    obtain ⟨operand', hoperand', ht'⟩ := bind_eq_ok ht'
    cases ht'
    obtain ⟨v, hv, hc⟩ := Option.bind_eq_some_iff.mp hc
    obtain rfl := hchild operand (by simp) hv hoperand'
    split at hc
    · cases hc
      rfl
    · cases hplus
    · cases hc
  | arrayLiteral elements =>
    obtain ⟨parts, hitems, rfl⟩ := constant?_array.mp hc
    obtain ⟨tss, htss, ht'⟩ := bind_eq_ok ht'
    cases ht'
    have hall : tss.flatten = parts.flatten.map Constant.toTree :=
      flatten_induction (Q := fun ts items => ts = items.map Constant.toTree) rfl
        (fun h h' => by rw [h, h', map_append])
        (fun e he _ _ hts hitems => element_literal (hparts e he) hts hitems) htss hitems
    rw [hall, Constant.toTree_array]
  | objectLiteral properties =>
    obtain ⟨parts, hwrites, rfl⟩ := constant?_object.mp hc
    obtain ⟨pss, hpss, ht'⟩ := bind_eq_ok ht'
    cases ht'
    have hall : pss.flatten = parts.flatten.map entryPiece :=
      flatten_induction (Q := fun ps w => ps = w.map entryPiece) rfl
        (fun h h' => by rw [h, h', map_append])
        (fun e he _ _ hps hw => pieces_literal (hparts e he) hps hw) hpss hwrites
    rw [hall, merge_entryPiece, Constant.toTree_object]
  | templateExpr head spans =>
    obtain ⟨parts, htexts, rfl⟩ := constant?_template.mp hc
    obtain ⟨x, hx, ht'⟩ := bind_eq_ok ht'
    cases ht'
    have hspans : ∀ s ∈ spans, Yields noReferences (flat fun _ => none)
        (fun c t' => c.Literal ∧ t' = c.toTree) s.expression := fun s hs c t' hc ht' =>
      ⟨literal_of_constant? _ hc, hchild s.expression (mem_map_of_mem hs) hc ht'⟩
    rw [foldlM_span_literal hspans htexts hx]
    rfl
  | propertyAccess expression name chained =>
    obtain ⟨b, hb, hmember⟩ := constant?_propertyAccess.mp hc
    obtain ⟨base, hbase, ht'⟩ := bind_eq_ok ht'
    obtain ⟨found, hfound, ht'⟩ := bind_eq_ok ht'
    cases ht'
    obtain rfl := hchild expression (by simp) hb hbase
    have hkey : b.member? (keyValue (.name name)) = some c := hmember
    rw [member?_literal (literal_of_constant? _ hb) hkey hfound, Option.getD_some]
  | elementAccess expression element chained =>
    obtain ⟨b, k, hb, hk, hmember⟩ := constant?_elementAccess.mp hc
    obtain ⟨base, hbase, ht'⟩ := bind_eq_ok ht'
    obtain ⟨key, hkey, ht'⟩ := bind_eq_ok ht'
    obtain ⟨found, hfound, ht'⟩ := bind_eq_ok ht'
    cases ht'
    obtain rfl := hchild expression (by simp) hb hbase
    obtain rfl := hchild element (by simp) hk hkey
    obtain ⟨text, htext⟩ : ∃ text, k.key? = some text := by
      simpa [readsOpenKey, hk, Option.isSome_iff_exists] using hopen
    obtain ⟨memberKey, hmemberKey, rfl⟩ := of?_toTree htext
    rw [elementMember?, hmemberKey] at hfound
    rw [member?_literal (literal_of_constant? _ hb) hmember hfound, Option.getD_some]
  | _ => cases hc

end Folding

namespace Flatten

open Forest (Edit)

/-- An expression that has a value, without the sign `+` and with texts and numbers as element
keys, is flattened to the literal form of its value. -/
theorem flattened_to_literal_form {edits : List Edit} (hedits : ∀ edit ∈ edits, ¬ edit.Attaches)
    {f f' : Forest} (hf : Forest.empty.edited edits = f) {e r : NodeId} {t : Term}
    (ht : f.view? e = some t) (hplus : ∀ s ∈ t.subtrees, s.isPlus = false)
    (hkeys : ∀ s ∈ t.subtrees, s.readsOpenKey = false) {c : Constant}
    (hc : t.constant? noReferences = some c) (hrun : (expression [] e).run f = (.ok r, f')) :
    f'.tree? r = some c.toTree := by
  have hlinked : f.Linked := hf ▸ Forest.linked_edited hedits
  obtain ⟨-, ⟨_, s, ⟨⟩, hflat, hroot⟩ | ⟨_, ⟨⟩, -⟩⟩ :=
    expression_cases hlinked scopeShows_nil ht hrun
  rw [hroot.tree, Folding.flat_literal t hplus hkeys hc hflat]

section Runs

lemma exists_run_of_any (tree : SyntaxTree) (p : Term → Bool)
    (h : (Forest.ofTree tree).toOption.any (fun built =>
      ((expression [] built.1).run built.2).1.toOption.isSome &&
      (built.2.view? built.1).all p) = true) :
    ∃ f f' e r t, Forest.empty.edited [.insert tree] = f ∧ f.view? e = some t ∧
      (∀ refs, t.constant? refs = tree.constant? refs) ∧ p t = true ∧
      (expression [] e).run f = (.ok r, f') := by
  obtain ⟨root, f, low, hf, -⟩ := Forest.exists_ofTree tree
  obtain ⟨t, ht, hconstant⟩ := exists_view?_ofTree hf
  rw [hf] at h
  obtain ⟨hok, hall⟩ := Bool.and_eq_true_iff.mp h
  have hp : p t = true := by simpa [ht] using hall
  rcases hrun : (expression [] root).run f with ⟨result, f'⟩
  cases result with
  | error e =>
    simp only [hrun] at hok
    cases hok
  | ok r => exact ⟨f, f', root, r, t, Forest.edited_insert hf, ht, hconstant, hp, hrun⟩

/-- A record with a spread record and list, a key that is written again, a member of a list that is
a member of a record, the length of a text, and a template. -/
def mergedRecord : SyntaxTree :=
  let spread : SyntaxTree := .record [.entry (.stringLiteral "b-c") (.list
    [.mk () (.unaryExpr .neg (.number 2)), .mk () (.spreadElement (.list
      [.mk () (.templateExpr "n" [⟨.number 3, ""⟩])]))])]
  let points : SyntaxTree := .record [.entry (.identifier "x") (.list [.number 10, .number 20])]
  .record [.entry (.identifier "a") (.number 1), .mk () (.spreadAssignment spread),
    .entry (.computedPropertyName (.text "a"))
      (.mk () (.elementAccess (.member points "x") (.number 1) false)),
    .entry (.identifier "n") (.member (.text "abc") "length")]

def mergedValue : Constant :=
  .object [("a", .number (Double.ofNat 20)),
    ("b-c", .array [.number (Double.ofNat 2).neg, .string "n3"]),
    ("n", .number (Double.ofNat 3))]

theorem flattened_to_literal_form_mergedRecord : ∃ f f' e r t,
    Forest.empty.edited [.insert mergedRecord] = f ∧ f.view? e = some t ∧
    (∀ s ∈ t.subtrees, s.isPlus = false) ∧ (∀ s ∈ t.subtrees, s.readsOpenKey = false) ∧
    t.constant? noReferences = some mergedValue ∧ (expression [] e).run f = (.ok r, f') ∧
    f'.tree? r = some mergedValue.toTree := by
  obtain ⟨f, f', e, r, t, hf, ht, hconstant, hall, hrun⟩ := exists_run_of_any
    mergedRecord (fun t => decide ((∀ s ∈ t.subtrees, s.isPlus = false) ∧
      ∀ s ∈ t.subtrees, s.readsOpenKey = false)) (by decide +kernel)
  obtain ⟨hplus, hkeys⟩ := of_decide_eq_true hall
  have hc : t.constant? noReferences = some mergedValue := (hconstant noReferences).trans rfl
  exact ⟨f, f', e, r, t, hf, ht, hplus, hkeys, hc, hrun,
    flattened_to_literal_form (by simp [Edit.Attaches]) hf ht hplus hkeys hc hrun⟩

end Runs

end Flatten

end ServiceFlow
