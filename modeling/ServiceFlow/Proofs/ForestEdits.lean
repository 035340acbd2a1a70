import ServiceFlow.Flatten.Basic
import ServiceFlow.Proofs.ForestAdditions

/-!
# Edits of a forest

`Forest.Matched` says that parents and attached nodes agree. Every edit keeps it, as all of them but
`attach` are runs of `add`.
-/

namespace ServiceFlow

open List

namespace Forest

variable {f f' : Forest}

/-- Attached nodes and parents agree. -/
structure Matched (f : Forest) : Prop where
  mem_iff : ∀ c p : Nat, c ∈ f.attached p ↔ f.parent? c = some p
  nodup : ∀ p : Nat, (f.attached p).Nodup

lemma free_of_attachFault? (parent : NodeId) (seen children : List NodeId)
    (h : f.attachFault? parent seen children = none) :
    (∀ c ∈ children, c < f.size ∧ f.parent? c = none) ∧ (∀ c ∈ children, c ∉ seen) ∧
      children.Nodup := by
  induction children generalizing seen with
  | nil => simp
  | cons c children ih =>
    unfold attachFault? at h
    cases he : f.entries[c]? with
    | none => simp [he] at h
    | some entry =>
      cases hp : entry.parent with
      | some existing => simp [he, hp] at h
      | none =>
        by_cases hseen : c ∈ seen
        · simp [he, hp, hseen] at h
        · simp only [he, hp, hseen, if_false] at h
          obtain ⟨hfree, hnew, hnodup⟩ := ih (c :: seen) h
          have hlt : c < f.size := (Array.getElem?_eq_some_iff.mp he).1
          have hparent : f.parent? c = none := by simp [parent?, he, hp]
          have hnot : c ∉ children := fun hc => hnew c hc mem_cons_self
          refine ⟨?_, ?_, nodup_cons.mpr ⟨hnot, hnodup⟩⟩
          · exact forall_mem_cons.mpr ⟨⟨hlt, hparent⟩, hfree⟩
          · intro d hd hs
            rcases mem_cons.mp hd with rfl | hd
            · exact hseen hs
            · exact hnew d hd (mem_cons_of_mem _ hs)

variable {node : Node NodeId} {id child parent : NodeId}

lemma add_cases (h : f.add node = .ok (id, f')) : id = f.size ∧ f' = f.planted node ∧
      (∀ c ∈ node.children, c < f.size ∧ f.parent? c = none) ∧ node.children.Nodup := by
  unfold add at h
  cases hfault : f.attachFault? f.size [] node.children with
  | some fault => simp [hfault] at h
  | none =>
    obtain ⟨hfree, -, hnodup⟩ := free_of_attachFault? _ _ _ hfault
    simp only [hfault, Except.ok.injEq, Prod.mk.injEq] at h
    exact ⟨h.1.symm, h.2.symm, hfree, hnodup⟩

def joined (f : Forest) (child parent : NodeId) : Forest :=
  ⟨(adopt f.entries parent [child]).modify parent fun e =>
    { e with attached := e.attached ++ [child] }⟩

lemma attach_cases (h : f.attach child parent = .ok f') :
    parent < f.size ∧ child < f.size ∧ f.parent? child = none ∧ f' = f.joined child parent := by
  unfold attach at h
  by_cases hp : parent < f.size
  · cases hfault : f.attachFault? parent [] [child] with
    | some fault => simp [hp, hfault] at h
    | none =>
      obtain ⟨hfree, -, -⟩ := free_of_attachFault? _ _ _ hfault
      obtain ⟨hlt, hparent⟩ := hfree child mem_cons_self
      simp only [hp, if_true, hfault, Except.ok.injEq] at h
      exact ⟨hp, hlt, hparent, h.symm⟩
  · simp [hp] at h

lemma parent?_joined (f : Forest) (parent i : NodeId) (hc : child < f.size) :
    (f.joined child parent).parent? i = if i = child then some parent else f.parent? i := by
  have hchild : f.entries[child]? = some f.entries[child] := Array.getElem?_eq_getElem hc
  unfold parent? joined
  rw [Array.getElem?_modify, getElem?_adopt]
  by_cases hi : i = child
  · subst hi
    by_cases hp : parent = i <;> simp [hp, hchild]
  · by_cases hp : parent = i
    · cases f.entries[i]? <;> simp [hp, hi]
    · simp [hp, hi]

lemma attached_joined (f : Forest) (child : NodeId) (i : NodeId) (hp : parent < f.size) :
    (f.joined child parent).attached i =
      if i = parent then f.attached i ++ [child] else f.attached i := by
  have hadopted : ∀ i : Nat, ((adopt f.entries parent [child])[i]?.map (·.attached)).getD [] =
      f.attached i := by
    intro i
    rw [getElem?_adopt]
    unfold attached
    split_ifs
    · cases f.entries[i]? <;> rfl
    · rfl
  unfold joined
  rw [attached, Array.getElem?_modify]
  by_cases hi : i = parent
  · subst hi
    have hsome : i < (adopt f.entries i [child]).size := by rwa [size_adopt]
    rw [if_pos rfl, if_pos rfl, ← hadopted i, Array.getElem?_eq_getElem hsome]
    rfl
  · rw [if_neg (Ne.symm hi), if_neg hi, hadopted i]

namespace Matched

lemma empty : Forest.empty.Matched := by
  have hattached : ∀ id : Nat, Forest.empty.attached id = [] :=
    fun id => attached_eq_nil_of_size_le (Nat.zero_le id)
  have hparent : ∀ id : Nat, Forest.empty.parent? id = none :=
    fun id => parent?_eq_none_of_size_le (Nat.zero_le id)
  constructor <;> simp [hattached, hparent]

lemma add (h : f.Matched) (hadd : f.add node = .ok (id, f')) : f'.Matched := by
  obtain ⟨-, rfl, hfree, hnodup⟩ := add_cases hadd
  have hparent := fun c => parent?_planted f node c fun c hc => (hfree c hc).1
  constructor
  · intro c p
    rw [attached_planted, hparent]
    by_cases hp : p = f.size
    · -- Nothing had the new number as its parent before.
      have hnone : f.parent? c ≠ some f.size := by
        intro hc
        have hmem := (h.mem_iff c f.size).mpr hc
        rw [attached_eq_nil_of_size_le (Nat.le_refl _)] at hmem
        cases hmem
      by_cases hc : c ∈ node.children <;> simp [hp, hc, hnone]
    · rw [if_neg hp, h.mem_iff]
      by_cases hc : c ∈ node.children
      · simp [hc, (hfree c hc).2, Ne.symm hp]
      · simp [hc]
  · intro p
    rw [attached_planted]
    split_ifs
    · exact hnodup
    · exact h.nodup p

lemma attach (h : f.Matched) (hattach : f.attach child parent = .ok f') : f'.Matched := by
  obtain ⟨hp, hc, hfree, rfl⟩ := attach_cases hattach
  have hnot : ∀ p : Nat, child ∉ f.attached p := by
    intro p hmem
    rw [h.mem_iff, hfree] at hmem
    cases hmem
  constructor
  · intro c p
    rw [attached_joined f child p hp, parent?_joined f parent c hc]
    by_cases hcc : c = child
    · by_cases hpp : p = parent
      · simp [hcc, hpp]
      · simp [hcc, hpp, hnot, Ne.symm hpp]
    · by_cases hpp : p = parent <;> simp [hcc, hpp, h.mem_iff]
  · intro p
    rw [attached_joined f child p hp]
    split_ifs
    · rw [nodup_append]
      refine ⟨h.nodup p, nodup_singleton child, fun a ha b hb hab => hnot p ?_⟩
      rwa [← mem_singleton.mp hb, ← hab]
    · exact h.nodup p

end Matched

lemma Linked.wellFounded_parent (h : f.Linked) :
    WellFounded fun p c : NodeId => f.parent? c = some p := by
  apply Subrelation.wf (r := fun p c : Nat => f.size - p < f.size - c)
  · intro p c hp
    have hlt := h.lt_parent hp
    have hsize := h.parent_lt_size hp
    omega
  · exact (measure fun id : Nat => f.size - id).wf

end Forest

namespace Build

variable {α β : Type} {P : Forest → Prop}

lemma run_attach_eq (child parent : NodeId) (f : Forest) : (attach child parent).run f =
    match f.attach child parent with
    | .ok f' => (.ok (), f')
    | .error e => (.error e, f) := by
  unfold attach
  rw [run_bind_get]
  cases f.attach child parent <;> rfl

/-- A property that adding a node keeps. -/
def KeptByAdd (P : Forest → Prop) : Prop :=
  ∀ (f : Forest) (node : Node NodeId) (id : NodeId) (f' : Forest), P f →
    f.add node = .ok (id, f') → P f'

/-- The forest an operation leaves has a property that the forest before had, whether or not the
operation fails. -/
structure Keeps (P : Forest → Prop) (x : Build α) : Prop where
  run : ∀ f, P f → P (x.run f).2

namespace Keeps

lemma pure (a : α) : Keeps P (Pure.pure a : Build α) := ⟨fun _ h => h⟩

lemma throw (e : NodeError) : Keeps P (MonadExcept.throw e : Build α) := ⟨fun _ h => h⟩

variable {x : Build α} {g : α → Build β} {xs : List α}

lemma bind (hx : Keeps P x) (hg : ∀ a, Keeps P (g a)) : Keeps P (x >>= g) := by
  constructor
  intro f hf
  have hx := hx.run f hf
  cases hr : x.run f with
  | mk r f₁ =>
    rw [hr] at hx
    cases r with
    | ok a =>
      rw [run_bind_ok hr]
      exact (hg a).run f₁ hx
    | error e =>
      rw [run_bind_error hr]
      exact hx

lemma map (g : α → β) (hx : Keeps P x) : Keeps P (g <$> x) := by
  rw [map_eq_pure_bind]
  exact bind hx fun a => pure (g a)

lemma mapM (hg : ∀ x ∈ xs, Keeps P (g x)) : Keeps P (xs.mapM g) := by
  induction xs with
  | nil => exact pure []
  | cons x xs ih =>
    rw [mapM_cons]
    apply bind (hg x mem_cons_self)
    intro y
    apply bind (ih fun x hx => hg x (mem_cons_of_mem _ hx))
    exact fun ys => pure (y :: ys)

lemma foldlM {g : β → α → Build β} (hg : ∀ b x, Keeps P (g b x)) (b : β) :
    Keeps P (xs.foldlM g b) := by
  induction xs generalizing b with
  | nil => exact pure b
  | cons x xs ih =>
    rw [foldlM_cons]
    exact bind (hg b x) ih

lemma node (id : NodeId) : Keeps P (node id) := by
  constructor
  intro f hf
  rw [run_node_eq]
  cases f.node? id <;> exact hf

lemma view (id : NodeId) : Keeps P (view id) := by
  constructor
  intro f hf
  rw [run_view_eq]
  cases f.view? id <;> exact hf

section

variable (hadd : KeptByAdd P)
include hadd

lemma add (node : Node NodeId) : Keeps P (add node) := by
  constructor
  intro f hf
  rw [run_add_eq]
  cases h : f.add node with
  | error e => exact hf
  | ok r => exact hadd f node r.1 r.2 hf h

lemma insert {τ : Type} (t : Tree τ) : Keeps P (Build.insert t) := by
  induction t using Tree.children_induction with
  | step tag node ih =>
    have hfold : Build.insert (.mk tag node) = node.mapM Build.insert >>= Build.add :=
      Tree.foldM_mk _ tag node
    rw [hfold, Node.mapM_eq_refill 0, bind_assoc]
    apply bind (mapM ih)
    exact fun ids => add hadd _

lemma copy (id : NodeId) : Keeps P (copy id) := bind (view id) fun t => insert hadd t

lemma member? (access base : NodeId) (key : Flatten.MemberKey) :
    Keeps P (Flatten.member? access base key) := by
  apply bind (view base)
  intro t
  split
  · exact map some (insert hadd _)
  · exact map some (add hadd _)
  · exact pure none
  · exact throw _
  · exact throw _

lemma foundOrAdd (found : Option NodeId) (node : Node NodeId) :
    Keeps P (match found with
      | some found => Pure.pure found
      | none => Build.add node : Build NodeId) := by
  cases found with
  | some id => exact pure id
  | none => exact add hadd node

lemma addEntry (entry : Flatten.Entry) : Keeps P (Flatten.addEntry entry) := by
  cases entry with
  | named key value => exact bind (add hadd _) fun name => add hadd _
  | computed name value => exact add hadd _
  | verbatim node => exact pure node

lemma spliced (entries : List Flatten.Entry) (t : Term) : Keeps P (Flatten.spliced entries t) := by
  unfold Flatten.spliced
  split
  · apply bind (insert hadd _)
    intro value
    split
    · exact pure _
    · exact bind (insert hadd _) fun name => pure _
  · exact bind (insert hadd _) fun id => pure _

variable {go : Term → Build NodeId} (hgo : ∀ t, Keeps P (go t))
include hgo

lemma element (t : Term) : Keeps P (Flatten.element go t) := by
  unfold Flatten.element
  split
  · apply bind (hgo _)
    intro id
    apply bind (view id)
    intro s
    split
    · exact mapM fun item _ => insert hadd item
    · exact throw _
  · exact bind (hgo t) fun id => pure [id]

lemma property (entries : List Flatten.Entry) (t : Term) :
    Keeps P (Flatten.property go entries t) := by
  have hname : ∀ name, Keeps P (Flatten.propertyName go name) := by
    intro name
    unfold Flatten.propertyName
    split
    · exact hgo _
    · exact pure _
  unfold Flatten.property
  split
  · apply bind (hgo _)
    intro value
    apply bind (hname _)
    intro name
    apply bind (view name)
    intro s
    split
    · exact pure _
    · exact bind (add hadd _) fun id => pure _
  · apply bind (hgo _)
    intro id
    apply bind (view id)
    intro s
    split
    · exact foldlM (spliced hadd) entries
    · exact throw _
  · exact bind (insert hadd _) fun id => pure _

lemma template (head : String) (spans : List (Span Term)) :
    Keeps P (Flatten.template go head spans) := by
  have hspan : ∀ text s, Keeps P (Flatten.span go text s) := by
    intro text s
    apply bind (hgo s.expression)
    intro part
    apply bind (view part)
    intro t
    split <;> exact pure _
  apply bind (foldlM hspan _)
  intro text
  split <;> exact add hadd _

lemma flattenNode (scope : Flatten.Scope) (t : Term) : Keeps P (Flatten.node scope go t) := by
  unfold Flatten.node
  split
  · split
    · exact copy hadd _
    · exact insert hadd t
  · apply bind (hgo _)
    intro base
    exact bind (member? hadd _ _ _) fun found => foundOrAdd hadd found _
  · apply bind (hgo _)
    intro base
    apply bind (hgo _)
    intro key
    apply bind (view key)
    intro k
    dsimp only
    split
    · exact bind (member? hadd _ _ _) fun found => foundOrAdd hadd found _
    · exact bind (pure none) fun found => foundOrAdd hadd found _
  · exact bind (mapM fun e _ => element hadd hgo e) fun parts => add hadd _
  · apply bind (foldlM (property hadd hgo) [])
    intro entries
    exact bind (mapM fun e _ => addEntry hadd e) fun ids => add hadd _
  · exact template hadd hgo _ _
  · apply bind (hgo _)
    intro operand
    apply bind (node operand)
    intro n
    split <;> exact add hadd _
  · apply bind
    · unfold Flatten.callee
      split
      · exact bind (hgo _) fun id => add hadd _
      · exact hgo _
    · intro function
      exact bind (mapM fun a _ => hgo a) fun ids => add hadd _
  · exact insert hadd t
  · exact insert hadd t
  · rw [Node.mapM_eq_refill 0, bind_assoc]
    exact bind (mapM fun c _ => hgo c) fun ids => add hadd _

omit hgo in
lemma flatten (scope : Flatten.Scope) (id : NodeId) : Keeps P (Flatten.expression scope id) := by
  have hterm : ∀ fuel t, Keeps P (Flatten.term scope fuel t) := by
    intro fuel
    induction fuel with
    | zero => exact fun t => throw _
    | succ fuel ih => exact flattenNode hadd ih scope
  exact bind (view id) fun t => hterm t.size t

end

end Keeps

end Build

namespace Forest

/-- The operations that change a forest. -/
inductive Edit where
  | add (node : Node NodeId)
  | insert (tree : SyntaxTree)
  | attach (child parent : NodeId)
  | copy (id : NodeId)
  | flatten (scope : Flatten.Scope) (id : NodeId)

def Edit.run : Edit → Build Unit
  | .add node => do let _ ← Build.add node
  | .insert tree => do let _ ← Build.insert tree
  | .attach child parent => Build.attach child parent
  | .copy id => do let _ ← Build.copy id
  | .flatten scope id => do let _ ← Flatten.expression scope id

/-- The forest that operations leave, one after the other. An operation that fails is passed over,
with what it added before it failed. -/
def edited (f : Forest) (edits : List Edit) : Forest :=
  edits.foldl (fun f edit => (edit.run.run f).2) f

/-- The edits that attach a node. -/
def Edit.Attaches (edit : Edit) : Prop := ∃ child parent, edit = .attach child parent

variable {P : Forest → Prop}

lemma Edit.keeps_of_add (hadd : Build.KeptByAdd P) {edit : Edit} (h : ¬ edit.Attaches) :
    Build.Keeps P edit.run := by
  cases edit with
  | add node => exact .bind (.add hadd node) fun _ => .pure ()
  | insert tree => exact .bind (.insert hadd tree) fun _ => .pure ()
  | attach child parent => exact absurd ⟨child, parent, rfl⟩ h
  | copy id => exact .bind (.copy hadd id) fun _ => .pure ()
  | flatten scope id => exact .bind (.flatten hadd scope id) fun _ => .pure ()

lemma Edit.keeps_matched (edit : Edit) : Build.Keeps Matched edit.run := by
  by_cases h : edit.Attaches
  · obtain ⟨child, parent, rfl⟩ := h
    constructor
    intro f hf
    change Matched ((Build.attach child parent).run f).2
    rw [Build.run_attach_eq]
    cases hattach : f.attach child parent with
    | error e => exact hf
    | ok f' => exact hf.attach hattach
  · exact keeps_of_add (fun _ _ _ _ hf hadd => hf.add hadd) h

lemma edited_induction {f : Forest} (hf : P f) {edits : List Edit}
    (h : ∀ edit ∈ edits, Build.Keeps P edit.run) : P (f.edited edits) := by
  induction edits generalizing f with
  | nil => exact hf
  | cons edit edits ih =>
    have hstep := (h edit mem_cons_self).run f hf
    exact ih hstep fun e he => h e (mem_cons_of_mem _ he)

lemma matched_edited (edits : List Edit) : (empty.edited edits).Matched :=
  edited_induction .empty fun edit _ => edit.keeps_matched

lemma linked_edited {edits : List Edit} (h : ∀ edit ∈ edits, ¬ edit.Attaches) :
    (empty.edited edits).Linked :=
  edited_induction inOrder_empty.toLinked fun edit he =>
    Edit.keeps_of_add (fun _ node _ _ hf hadd => by
      obtain ⟨-, rfl, hfree, -⟩ := add_cases hadd
      exact hf.planted node hfree) (h edit he)

/-- However a forest was edited, a node is attached to its parent alone, and once; a node that
cannot be added or attached leaves the forest as it was. Where nothing was attached directly, the
nodes attached to a node are those of its fields, all of them with smaller numbers, and every chain
of parents ends. -/
theorem links_after_edits (edits : List Edit) :
    (∀ c p : NodeId,
      (empty.edited edits |>.attached p).count c =
        if (empty.edited edits).parent? c = some p then 1 else 0) ∧
    (∀ node e f', (Build.add node).run (empty.edited edits) = (.error e, f') →
      f' = empty.edited edits) ∧
    (∀ child parent e f', (Build.attach child parent).run (empty.edited edits) = (.error e, f') →
      f' = empty.edited edits) ∧
    ((∀ edit ∈ edits, ¬ edit.Attaches) →
      (∀ p node, (empty.edited edits).node? p = some node →
        (empty.edited edits).attached p = node.children ∧ ∀ c ∈ node.children, c < p) ∧
      WellFounded fun p c : NodeId => (empty.edited edits).parent? c = some p) := by
  generalize hf : empty.edited edits = f
  have hmatched : f.Matched := hf ▸ matched_edited edits
  refine ⟨?_, ?_, ?_, ?_⟩
  · intro c p
    simp only [← hmatched.mem_iff]
    exact (hmatched.nodup p).count
  · intro node e f' h
    rw [Build.run_add_eq] at h
    cases hadd : f.add node <;> rw [hadd] at h <;> cases h
    rfl
  · intro child parent e f' h
    rw [Build.run_attach_eq] at h
    cases hattach : f.attach child parent <;> rw [hattach] at h <;> cases h
    rfl
  · intro h
    have hlinked : f.Linked := hf ▸ linked_edited h
    refine ⟨fun p node hn => ?_, hlinked.wellFounded_parent⟩
    exact ⟨hlinked.attached_eq hn, fun c hc => hlinked.child_lt hn hc⟩

/-- The negation of `x` is inserted, a list that names it twice is refused, the negation is
flattened with a value for `x`, and a node that is not there is copied. -/
def mixedEdits : List Edit :=
  [.insert (.mk () (.unaryExpr .neg (.mk () (.identifier "x")))), .add (.arrayLiteral [1, 1]),
    .flatten [("x", 0)] 1, .copy 9]

theorem links_after_mixedEdits :
    (∀ edit ∈ mixedEdits, ¬ edit.Attaches) ∧
      (empty.edited mixedEdits).node? 3 = some (.unaryExpr .neg 2) ∧
      (empty.edited mixedEdits).attached 3 = [2] ∧
      (Build.add (.arrayLiteral [1, 1])).run (empty.edited mixedEdits) =
        (.error (.alreadyAttached 1 4), empty.edited mixedEdits) := by
  have hnone : ∀ edit ∈ mixedEdits, ¬ edit.Attaches := by simp [mixedEdits, Edit.Attaches]
  have hnode : (empty.edited mixedEdits).node? 3 = some (.unaryExpr .neg 2) := by decide +kernel
  obtain ⟨-, hadd, -, hlinked⟩ := links_after_edits mixedEdits
  refine ⟨hnone, hnode, ((hlinked hnone).1 3 _ hnode).1, ?_⟩
  have hfault : ((Build.add (.arrayLiteral [1, 1])).run (empty.edited mixedEdits)).1 =
      .error (.alreadyAttached 1 4) := by decide +kernel
  exact Prod.ext hfault (hadd _ _ _ (Prod.ext hfault rfl))

end Forest

end ServiceFlow
