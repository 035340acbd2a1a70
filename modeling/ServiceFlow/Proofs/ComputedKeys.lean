import ServiceFlow.Proofs.FlatteningInForests
import ServiceFlow.Proofs.MergedPieces
import ServiceFlow.Proofs.SuccessfulRuns

/-!
# Computed keys under flattening

A computed key is kept by flattening, in its order, unless it becomes a text or a number. A key that
is a name, as in `{[x]: 1}`, is taken for a fixed one.
-/

namespace ServiceFlow

open ServiceFlow.Tree List

namespace Tree

variable {α : Type}

/-- A text or a number, which as a key is known before the program runs. -/
def isKeyLiteral : Tree α → Bool
  | .mk _ (.stringLiteral _) | .mk _ (.numberLiteral _) => true
  | _ => false

/-- Reads as the name of a property, although no text and no number. -/
def namesKey : Tree α → Bool
  | .mk _ (.identifier _) => true
  | .mk _ (.computedPropertyName expression) => expression.isKeyLiteral
  | _ => false

lemma staticKey?_eq_none_iff (t : Tree α) :
    t.staticKey? = none ↔ t.isKeyLiteral = false ∧ t.namesKey = false := by
  obtain ⟨tag, n⟩ := t
  cases n with
  | computedPropertyName expression =>
    obtain ⟨tag', n⟩ := expression
    cases n <;> simp [staticKey?, isKeyLiteral, namesKey]
  | _ => simp [staticKey?, isKeyLiteral, namesKey]

/-- A property whose key is computed. -/
def openKeyed : Tree α → Bool
  | .mk _ (.propertyAssignment (.mk _ (.computedPropertyName key)) _) => !key.isKeyLiteral
  | _ => false

def fixedKey? : Tree α → Option String
  | .mk _ (.propertyAssignment name _) => name.staticKey?
  | _ => none

lemma openKeyed_of_fixedKey? {t : Tree α} {key : String} (h : t.fixedKey? = some key) :
    t.openKeyed = false := by
  obtain ⟨tag, n⟩ := t
  cases n with
  | propertyAssignment name value =>
    obtain ⟨tag', n⟩ := name
    cases n with
    | computedPropertyName expression =>
      obtain ⟨tag'', n⟩ := expression
      cases n with
      | stringLiteral | numberLiteral => rfl
      | _ => cases h
    | _ => rfl
  | _ => rfl

end Tree

namespace Folding

@[simp] lemma fixedKey?_named (key : String) (value : SyntaxTree) :
    (Piece.named key value).tree.fixedKey? = some key := by
  simp only [Piece.tree, fixedKey?, Constant.keyNode]
  split_ifs <;> rfl

@[simp] lemma openKeyed_named (key : String) (value : SyntaxTree) :
    (Piece.named key value).tree.openKeyed = false :=
  openKeyed_of_fixedKey? (fixedKey?_named key value)

lemma filter_openKeyed_merge (ps : List Piece) :
    ((merge ps).map Piece.tree).filter openKeyed = (ps.map Piece.tree).filter openKeyed := by
  induction ps using reverseRecOn with
  | nil => rfl
  | append_singleton ps p ih =>
    rw [merge_append_singleton, map_append, filter_append, ← ih]
    cases p with
    | named key value =>
      rcases putPiece_cases key value (merge ps) with ⟨-, hput⟩ | ⟨a, old, b, hps, hput⟩
      · simp [place, hput]
      · rw [place, hput, hps]
        simp
    | _ =>
      rw [place, map_append, filter_append]
      simp

lemma fixedKey?_merge (ps : List Piece) (key : String) :
    key ∈ ((merge ps).map Piece.tree).filterMap fixedKey? ↔
      key ∈ (ps.map Piece.tree).filterMap fixedKey? := by
  induction ps using reverseRecOn with
  | nil => rfl
  | append_singleton ps p ih =>
    rw [merge_append_singleton, map_append, filterMap_append, mem_append, ← ih]
    cases p with
    | named k value =>
      rcases putPiece_cases k value (merge ps) with ⟨-, hput⟩ | ⟨a, old, b, hps, hput⟩
      · simp [place, hput]
      · -- The key stands already where the new value goes.
        rw [place, hput, hps]
        simp only [map_append, map_cons, map_nil, filterMap_append,
          filterMap_cons, filterMap_nil, fixedKey?_named, mem_append,
          mem_cons, not_mem_nil, or_false]
        tauto
    | _ =>
      rw [place, map_append, filterMap_append, mem_append]
      simp

lemma fixedKey?_splice (t : SyntaxTree) : (splice t).tree.fixedKey? = t.fixedKey? := by
  obtain ⟨tag, n⟩ := t
  cases n with
  | propertyAssignment name value =>
    simp only [splice, fixedKey?]
    cases hkey : name.staticKey? with
    | some key => exact fixedKey?_named key value
    | none => exact hkey
  | _ => rfl

lemma tree_splice {t : SyntaxTree} (h : t.fixedKey? = none) : (splice t).tree = t := by
  obtain ⟨tag, n⟩ := t
  cases n with
  | propertyAssignment name value =>
    have hkey : name.staticKey? = none := h
    simp only [splice, hkey, Piece.tree]
  | _ => rfl

lemma filter_openKeyed_splice (ts : List SyntaxTree) :
    ((ts.map splice).map Piece.tree).filter openKeyed = ts.filter openKeyed := by
  induction ts with
  | nil => rfl
  | cons t ts ih =>
    rw [map_cons, map_cons, filter_cons, filter_cons, ih]
    cases hkey : t.fixedKey? with
    | none => rw [tree_splice hkey]
    | some key =>
      rw [openKeyed_of_fixedKey? hkey, openKeyed_of_fixedKey? ((fixedKey?_splice t).trans hkey)]
      rfl

lemma filterMap_fixedKey?_splice (ts : List SyntaxTree) :
    ((ts.map splice).map Piece.tree).filterMap fixedKey? = ts.filterMap fixedKey? := by
  rw [map_map, filterMap_map]
  exact congrArg (ts.filterMap ·) (funext fixedKey?_splice)

end Folding

namespace Flatten

variable {f f' : Forest} {scope : Scope}

def FlattensTo (f : Forest) (scope : Scope) (id : NodeId) (t : SyntaxTree) : Prop :=
  ∃ r f', (expression scope id).run f = (.ok r, f') ∧ f'.tree? r = some t

/-- What a property adds to an object: properties whose keys stay open, and fixed keys. -/
structure Addition where
  kept : List SyntaxTree
  keys : List String

def additionOf (ps : List Folding.Piece) : Addition where
  kept := (ps.map Folding.Piece.tree).filter Tree.openKeyed
  keys := (ps.map Folding.Piece.tree).filterMap Tree.fixedKey?

lemma additionOf_named (key : String) (value : SyntaxTree) :
    additionOf [.named key value] = ⟨[], [key]⟩ := by
  simp [additionOf]

/-- The property at a node adds this to a flattened object. -/
inductive Adds (f : Forest) (scope : Scope) (p : NodeId) : Addition → Prop
  /-- The key is no text, no number and no name: it stays computed. -/
  | computed {name value expression key v} : f.node? p = some (.propertyAssignment name value) →
    f.node? name = some (.computedPropertyName expression) →
    FlattensTo f scope expression key → FlattensTo f scope value v →
    key.isKeyLiteral = false → key.namesKey = false →
    Adds f scope p ⟨[.mk () (.propertyAssignment (.mk () (.computedPropertyName key)) v)], []⟩
  /-- The key is a text, a number or a name. -/
  | resolved {name value expression key v k} : f.node? p = some (.propertyAssignment name value) →
    f.node? name = some (.computedPropertyName expression) →
    FlattensTo f scope expression key → FlattensTo f scope value v → key.staticKey? = some k →
    Adds f scope p ⟨[], [k]⟩
  | named {name value t v k} :
    f.node? p = some (.propertyAssignment name value) → f.tree? name = some t →
    t.kind ≠ .computedPropertyName → FlattensTo f scope value v → t.staticKey? = some k →
    Adds f scope p ⟨[], [k]⟩
  /-- An object that is spread adds what it holds. -/
  | spread {expression properties} : f.node? p = some (.spreadAssignment expression) →
    FlattensTo f scope expression (.mk () (.objectLiteral properties)) →
    Adds f scope p ⟨properties.filter Tree.openKeyed, properties.filterMap Tree.fixedKey?⟩
  | verbatim {n} : f.node? p = some n → n.kind ≠ .propertyAssignment → n.kind ≠ .spreadAssignment →
    Adds f scope p ⟨[], []⟩

variable {trees : Folding.Scope} {t : Term}

lemma flattensTo_of_flat (hf : f.Linked) (hscope : ScopeShows f scope trees) {s : SyntaxTree}
    (ht : f.Shows t) (hflat : Folding.flat trees t = .ok s) : FlattensTo f scope t.tag s := by
  obtain ⟨f', -, hplants⟩ := expression_plants hf hscope ht
  rw [hflat] at hplants
  obtain ⟨r, hrun, hroot⟩ := hplants
  exact ⟨r, f', hrun, hroot.tree⟩

lemma scopeShows_of_bound (hf : f.Linked)
    (hscope : ∀ name (bound : Nat), scope.get? name = some bound → bound < f.size) :
    ScopeShows f scope fun name => (scope.get? name).bind f.tree? where
  bound {name id} hname := by
    obtain ⟨t, ht⟩ := hf.exists_view? (hscope name id hname)
    have htree : f.tree? id = some t.untag := by rw [Forest.tree?, ht, Option.map_some]
    exact ⟨t.untag, htree, by rw [hname, Option.bind_some, htree]⟩
  free hname := by rw [hname, Option.bind_none]

lemma adds_keyed {p name value expression : NodeId} {key v : SyntaxTree}
    (hp : f.node? p = some (.propertyAssignment name value))
    (hname : f.node? name = some (.computedPropertyName expression))
    (hkey : FlattensTo f scope expression key) (hv : FlattensTo f scope value v) :
    Adds f scope p (additionOf [Folding.keyed key v]) := by
  cases hstatic : key.staticKey? with
  | some k =>
    have hpiece : Folding.keyed key v = .named k v := by simp only [Folding.keyed, hstatic]
    rw [hpiece, additionOf_named]
    exact .resolved hp hname hkey hv hstatic
  | none =>
    obtain ⟨hliteral, hnames⟩ := key.staticKey?_eq_none_iff.mp hstatic
    have hadds := Adds.computed hp hname hkey hv hliteral hnames
    have hfixed : (mk () (.computedPropertyName key)).staticKey? = none := by
      rw [staticKey?_eq_none_iff]
      exact ⟨rfl, hliteral⟩
    simpa [additionOf, Folding.keyed, hstatic, Folding.Piece.tree, openKeyed, hliteral,
      fixedKey?, hfixed] using hadds

lemma adds_of_pieces (hf : f.Linked) (hscope : ScopeShows f scope trees) {ps : List Folding.Piece}
    (ht : f.Shows t) (hps : Folding.pieces (Folding.flat trees) t = .ok ps) :
    Adds f scope t.tag (additionOf ps) := by
  obtain ⟨tag, n⟩ := t
  obtain ⟨hn, hshows⟩ := hf.shows_parts ht
  cases n with
  | propertyAssignment name value =>
    have hname : f.Shows name := hshows name (by simp [Node.children])
    have hvalue : f.Shows value := hshows value (by simp [Node.children])
    obtain ⟨tag', expression, rfl⟩ | hkind := computedPropertyName_cases name
    · obtain ⟨hnode, hparts⟩ := hf.shows_parts hname
      obtain ⟨v, hv, hps⟩ := bind_eq_ok hps
      obtain ⟨key, hkey, hps⟩ := bind_eq_ok hps
      cases hps
      exact adds_keyed hn hnode
        (flattensTo_of_flat hf hscope (hparts expression (by simp [Node.children])) hkey)
        (flattensTo_of_flat hf hscope hvalue hv)
    · rw [pieces_of_ne hkind] at hps
      obtain ⟨v, hv, hps⟩ := bind_eq_ok hps
      cases hstatic : name.staticKey? with
      | none =>
        rw [hstatic] at hps
        cases hps
      | some k =>
        rw [hstatic] at hps
        cases hps
        have htree : f.tree? name.tag = some name.untag := by
          rw [Forest.tree?, show f.view? name.tag = some name from hname, Option.map_some]
        rw [additionOf_named]
        exact .named hn htree (by rwa [kind_untag])
          (flattensTo_of_flat hf hscope hvalue hv) (by rw [staticKey?_untag, hstatic])
  | spreadAssignment expression =>
    obtain ⟨target, htarget, hps⟩ := bind_eq_ok hps
    have hflat := flattensTo_of_flat hf hscope (hshows expression (by simp [Node.children])) htarget
    split at hps
    · cases hps
      rw [additionOf, Folding.filter_openKeyed_splice, Folding.filterMap_fixedKey?_splice]
      exact .spread hn hflat
    · cases hps
  | _ =>
    cases hps
    exact .verbatim hn Kind.noConfusion Kind.noConfusion

/-- In a forest that was built from a tree, or grown from such a one, an object that is flattened
keeps the properties with open keys, in their order, and has no other properties of this kind. Its
fixed keys are those that its properties fix. -/
theorem computed_keys_kept {id r : NodeId} {properties : List NodeId} (hf : f.Linked)
    (hscope : ∀ name (bound : Nat), scope.get? name = some bound → bound < f.size)
    (hn : f.node? id = some (.objectLiteral properties))
    (hrun : (expression scope id).run f = (.ok r, f')) :
    ∃ out parts, f'.tree? r = some (.mk () (.objectLiteral out)) ∧
      List.Forall₂ (Adds f scope) properties parts ∧
      out.filter Tree.openKeyed = parts.flatMap Addition.kept ∧
      ∀ key, key ∈ out.filterMap Tree.fixedKey? ↔ key ∈ parts.flatMap Addition.keys := by
  obtain ⟨t, ht⟩ := hf.exists_view? (Forest.lt_size_of_node? hn)
  have hshows : f.Shows t := hf.shows_of_view? ht
  obtain rfl := hf.tag_of_view? ht
  have hscope := scopeShows_of_bound hf hscope
  obtain ⟨-, ⟨_, s, ⟨⟩, hflat, hroot⟩ | ⟨_, ⟨⟩, -⟩⟩ := expression_cases hf hscope ht hrun
  obtain ⟨tag, n⟩ := t
  obtain ⟨hnode, hparts⟩ := hf.shows_parts hshows
  rw [Tree.tag, hnode] at hn
  cases n with
  | objectLiteral terms =>
    cases hn
    rw [Folding.flat_eq] at hflat
    obtain ⟨parts, hmap, hflat⟩ := bind_eq_ok hflat
    cases hflat
    rw [mapM_eq_ok_iff] at hmap
    refine ⟨_, parts.map additionOf, hroot.tree, ?_, ?_, fun key => ?_⟩
    · rw [forall₂_map_left_iff, forall₂_map_right_iff]
      exact ((forall₂_and_left _ _).mpr ⟨hparts, hmap⟩).imp fun t ps h =>
        adds_of_pieces hf hscope h.1 h.2
    · rw [Folding.filter_openKeyed_merge]
      simp [List.flatMap, additionOf, map_flatten, filter_flatten, Function.comp_def]
    · rw [Folding.fixedKey?_merge]
      simp [List.flatMap, additionOf, map_flatten, filterMap_flatten, Function.comp_def]
  | _ => cases hn

section Runs

private def flattenedRoot? (scope : Scope) (tree : SyntaxTree) : Option SyntaxTree :=
  match Forest.ofTree tree with
  | .ok (root, f) =>
    match (expression scope root).run f with
    | (.ok r, f') => f'.tree? r
    | (.error _, _) => none
  | .error _ => none

private lemma exists_of_flattenedRoot? {tree t : SyntaxTree}
    (h : flattenedRoot? scope tree = some t) : ∃ root f r f',
    Forest.ofTree tree = .ok (root, f) ∧ (expression scope root).run f = (.ok r, f') ∧
      f'.tree? r = some t := by
  unfold flattenedRoot? at h
  split at h
  · rename_i root f hf
    split at h
    · rename_i r f' hrun
      exact ⟨root, f, r, f', hf, hrun, h⟩
    · cases h
  · cases h

/-- An object with the computed keys `k`, `notify()` and, spread, `audit()`. -/
def tagged : SyntaxTree :=
  let called (function : String) : SyntaxTree := .call (.ident function) []
  .record [.entry (.identifier "label") (.text "title"),
    .entry (.computedPropertyName (called "notify")) (.number 1),
    .entry (.computedPropertyName (.ident "k")) (.number 2),
    .mk () (.spreadAssignment (.record [
      .entry (.computedPropertyName (called "audit")) (.number 3),
      .entry (.identifier "label") (.number 4)]))]

def keyFunction? : SyntaxTree → Option String
  | .mk _ (.propertyAssignment (.mk _ (.computedPropertyName (.mk _ (.callExpr function _)))) _) =>
    function.staticKey?
  | _ => none

theorem computed_keys_kept_tagged : ∃ root f r f' properties parts,
    Forest.ofTree tagged = .ok (root, f) ∧ f.node? root = some (.objectLiteral properties) ∧
    (expression [("k", 1)] root).run f = (.ok r, f') ∧
    List.Forall₂ (Adds f [("k", 1)]) properties parts ∧
    (parts.flatMap Addition.kept).map keyFunction? = [some "notify", some "audit"] ∧
    "title" ∈ parts.flatMap Addition.keys := by
  have hforest : (match Forest.ofTree tagged with
      | .ok (root, f) => decide (1 < f.size ∧ (f.node? root).map Node.kind = some .objectLiteral)
      | .error _ => false) = true := by decide +kernel
  have hflat : (flattenedRoot? [("k", 1)] tagged).any (fun t =>
      decide ((t.children.filter Tree.openKeyed).map keyFunction? = [some "notify", some "audit"] ∧
        t.children.filterMap Tree.fixedKey? = ["label", "title"])) = true := by decide +kernel
  cases hresult : flattenedRoot? [("k", 1)] tagged with
  | none =>
    rw [hresult] at hflat
    cases hflat
  | some t =>
    rw [hresult] at hflat
    obtain ⟨hcalls, hfixed⟩ := of_decide_eq_true hflat
    obtain ⟨root, f, r, f', hf, hrun, htree⟩ := exists_of_flattenedRoot? hresult
    rw [hf] at hforest
    obtain ⟨hsize, hkind⟩ := of_decide_eq_true hforest
    obtain ⟨n, hn, hkind⟩ := Option.map_eq_some_iff.mp hkind
    cases n with
    | objectLiteral properties =>
      have hscope : ∀ name (bound : Nat),
          Ordered.get? name [("k", 1)] = some bound → bound < f.size := by
        intro name bound h
        simp only [Ordered.get?] at h
        split at h <;> cases h
        exact hsize
      obtain ⟨low, hlinked⟩ := Forest.inOrder_ofTree hf
      obtain ⟨out, parts, hout, hparts, hkept, hkeys⟩ :=
        computed_keys_kept hlinked.toLinked hscope hn hrun
      rw [htree] at hout
      cases hout
      have htitle : "title" ∈ out.filterMap Tree.fixedKey? := by
        rw [show out.filterMap Tree.fixedKey? = ["label", "title"] from hfixed]
        decide
      exact ⟨root, f, r, f', properties, parts, hf, hn, hrun, hparts, hkept ▸ hcalls,
        (hkeys "title").mp htitle⟩
    | _ => cases hkind

/-- A key that is read from a name at run time becomes that name. -/
theorem open_key_fixed_by_name : ∃ root f r f',
    Forest.ofTree (.record [.entry (.computedPropertyName (.ident "x")) (.number 1)]) =
      .ok (root, f) ∧ (expression [] root).run f = (.ok r, f') ∧
    f'.tree? r = some (.record [.entry (.identifier "x") (.number 1)]) :=
  exists_of_flattenedRoot? rfl

end Runs

end Flatten

end ServiceFlow
