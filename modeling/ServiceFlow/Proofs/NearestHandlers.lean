import ServiceFlow.Proofs.ForestGrowth
import ServiceFlow.Proofs.TryParts

/-!
# The nearest handler of an error

An error goes outward to the first try statement that can take it. `Forest.Outward` is this walk;
the two searches that `Forest.raise?` compares find what the walk finds.
-/

namespace ServiceFlow.Forest

variable {f : Forest} {low : Nat → Nat} {id c p : Nat} {tryBlock : Nat}
  {handler finalizer : Option Nat}

instance (f : Forest) (id a : Nat) : Decidable (f.Inside id a) :=
  inferInstanceAs (Decidable (id = a ∨ a ∈ f.ancestors id))

/-- The part of a try statement that takes an error raised at a node. Its catch clause comes before
its finally block. -/
def interceptor? (f : Forest) (id t : NodeId) : Option NodeId :=
  match f.node? t with
  | some (.tryStmt tryBlock handler finalizer) =>
    if f.Inside id tryBlock then handler.or finalizer
    else if ∃ clause ∈ handler, f.Inside id clause then finalizer
    else none
  | _ => none

/-- Where the walk outward ends for an error raised at a node, once it has come to `c`. It stops at
the first try statement that takes the error, and with nothing at a function or at a root. -/
inductive Outward (f : Forest) (id : NodeId) : NodeId → Option NodeId → Prop where
  | root {c : NodeId} (hp : f.parent? c = none) : Outward f id c none
  | function {c p : NodeId} (hp : f.parent? c = some p) (hfun : f.isFunction p = true) :
    Outward f id c none
  | taken {c p target : NodeId} (hp : f.parent? c = some p) (hfun : f.isFunction p = false)
    (htaken : f.interceptor? id p = some target) : Outward f id c (some target)
  | passed {c p : NodeId} {dest : Option NodeId} (hp : f.parent? c = some p)
    (hfun : f.isFunction p = false) (hpassed : f.interceptor? id p = none)
    (rest : Outward f id p dest) : Outward f id c dest

/-- Every try statement tries a block. -/
def triesBlocks (f : Forest) : Bool :=
  f.ids.all fun id =>
    match f.node? id with
    | some (.tryStmt tryBlock _ _) => f.kind? tryBlock = some .block
    | _ => true

lemma triesBlocks_iff : f.triesBlocks = true ↔ ∀ {t tryBlock handler finalizer},
    f.node? t = some (.tryStmt tryBlock handler finalizer) → f.kind? tryBlock = some .block := by
  rw [triesBlocks, List.all_eq_true]
  constructor
  · intro h t tryBlock handler finalizer hn
    have ht := h t (List.mem_range.mpr (lt_size_of_node? hn))
    simpa [hn] using ht
  · intro h t _
    split
    · rename_i hn
      simpa using h hn
    · rfl

lemma not_guarded_of_triesBlocks (hblocks : f.triesBlocks = true)
    (hn : f.node? p = some (.tryStmt tryBlock handler finalizer)) : ¬ f.Guarded p := by
  rintro ⟨t, clause, last, ht⟩
  have hkind := triesBlocks_iff.mp hblocks ht
  simp [kind?, hn, Node.kind] at hkind

lemma raise?_of_enclosing_nil (h : f.enclosing id = []) : f.raise? id = none := by
  simp [raise?, catchClause?, interceptingFinally?, h]

lemma raise?_congr (hcatch : f.catchClause? id = f.catchClause? p)
    (hfinally : f.interceptingFinally? id = f.interceptingFinally? p) :
    f.raise? id = f.raise? p := by
  rw [raise?, hcatch, hfinally, raise?]

namespace Linked

variable (h : f.Linked)
include h

lemma inside_child_iff {b : Nat} (hc : f.parent? c = some p) (hb : f.parent? b = some p)
    (hw : f.Within c id) : f.Inside id b ↔ c = b := by
  constructor
  · rintro (rfl | hbelow)
    · rcases h.inside_of_within hw with heq | hbelow
      · exact heq.symm
      · exact absurd hbelow (h.not_below_of_sibling hb hc)
    · exact h.eq_of_within_of_below hc hb hw hbelow
  · rintro rfl
    exact h.inside_of_within hw

lemma interceptor?_of_part (hn : f.node? p = some (.tryStmt tryBlock handler finalizer))
    (hc : f.parent? c = some p) (hw : f.Within c id) :
    f.interceptor? id p = if c = tryBlock then handler.or finalizer
      else if handler = some c then finalizer else none := by
  have hinside : ∀ b : Nat, b ∈ (Node.tryStmt tryBlock handler finalizer).children →
      (f.Inside id b ↔ c = b) := fun b hb =>
    h.inside_child_iff hc (h.parent_eq_some hn hb) hw
  have hclause : (∃ clause ∈ handler, f.Inside id clause) ↔ handler = some c := by
    cases handler with
    | none => simp
    | some clause => simp [hinside clause (by simp [Node.children]), eq_comm]
  simp only [interceptor?, hn, hinside tryBlock (by simp [Node.children]), hclause]

lemma interceptor?_of_within (hc : f.parent? c = some p) (hw : f.Within c id) :
    f.interceptor? id p = f.interceptor? c p := by
  obtain ⟨node, hn, -⟩ := h.parent_iff.mp hc
  cases node
  case tryStmt => rw [h.interceptor?_of_part hn hc hw, h.interceptor?_of_part hn hc .self]
  all_goals simp only [interceptor?, hn]

end Linked

namespace InOrder

variable (h : f.InOrder low)
include h

variable {tryBlock : Nat} {finalizer handler : Option Nat}

lemma raise?_of_guarded {clause : Nat}
    (hn : f.node? p = some (.tryStmt tryBlock (some clause) finalizer)) :
    f.raise? tryBlock = some clause := by
  have hcatch := catchClause?_of_guarded h.toLinked hn rfl rfl
  cases hfinally : f.interceptingFinally? tryBlock with
  | none => simp only [raise?, hcatch, hfinally]
  | some nearest =>
    obtain ⟨t, part, _, _, hm, ht, -⟩ := interceptingFinally?_eq_some hfinally
    refine (h.raise?_of_both hcatch hn hfinally (h.parent_finalizer ht)).2 fun hbelow => ?_
    -- the statement of the finally block is around the try block, so not below it
    obtain ⟨hpart, -, hw⟩ := h.mem_enclosing_iff.mp hm
    have hle := h.le_of_inside (h.inside_of_within hw)
    have hlt := h.lt_parent hpart
    have hlt' := h.below_lt hbelow
    omega

lemma raise?_of_unguarded {finalizer : Nat}
    (hn : f.node? p = some (.tryStmt tryBlock handler (some finalizer)))
    (hc : c ∈ (Node.tryStmt tryBlock handler (some finalizer)).children)
    (hunguarded : handler = none ∨ tryBlock ≠ c) (hne : finalizer ≠ c) (hg : ¬ f.Guarded p) :
    f.raise? c = some finalizer := by
  have hcatch := catchClause?_of_unguarded h.toLinked hn hc hunguarded
  have hfinally : f.interceptingFinally? c = some finalizer := by
    rw [interceptingFinally?_of_try h.toLinked hn hc, if_neg (by simp [hne])]
  cases hclause : f.catchClause? p with
  | none => simp only [raise?, hcatch, hclause, hfinally]
  | some clause =>
    obtain ⟨t, guarded, last, hm, ht⟩ := catchClause?_eq_some hclause
    obtain ⟨-, -, hw⟩ := h.mem_enclosing_iff.mp hm
    refine (h.raise?_of_both (hcatch.trans hclause) ht hfinally (h.parent_finalizer hn)).1 ?_
    refine (h.inside_of_within hw).resolve_left ?_
    rintro rfl
    exact hg ⟨t, clause, last, ht⟩

/-- One step outward: a try statement takes the error of its part, or leaves it to what is around. -/
lemma raise?_of_tryPart (hn : f.node? p = some (.tryStmt tryBlock handler finalizer))
    (hc : c ∈ (Node.tryStmt tryBlock handler finalizer).children) (hg : ¬ f.Guarded p) :
    f.raise? c = (f.interceptor? c p).or (f.raise? p) := by
  obtain ⟨hclause, hfinally, hlast⟩ := h.try_parts_ne hn
  have hpass : handler = none ∨ tryBlock ≠ c → finalizer = none ∨ finalizer = some c →
      f.raise? c = f.raise? p := by
    intro hunguarded hpassed
    refine raise?_congr (catchClause?_of_unguarded h.toLinked hn hc hunguarded) ?_
    rw [interceptingFinally?_of_try h.toLinked hn hc, if_pos hpassed]
  rw [h.interceptor?_of_part hn (h.parent_eq_some hn hc) .self]
  rcases Node.mem_children_tryStmt.mp hc with rfl | rfl | rfl
  · rw [if_pos rfl]
    cases handler with
    | some clause => rw [h.raise?_of_guarded hn, Option.some_or, Option.some_or]
    | none =>
      cases finalizer with
      | none => exact hpass (.inl rfl) (.inl rfl)
      | some last => exact h.raise?_of_unguarded hn hc (.inl rfl) (hfinally last rfl) hg
  · have hne := (hclause c rfl).symm
    rw [if_neg (Ne.symm hne), if_pos rfl]
    cases finalizer with
    | none => exact hpass (.inr hne) (.inl rfl)
    | some last =>
      refine h.raise?_of_unguarded hn hc (.inr hne) ?_ hg
      rintro rfl
      exact hlast last rfl rfl
  · have hne := (hfinally c rfl).symm
    rw [if_neg (Ne.symm hne), if_neg (hlast c rfl)]
    exact hpass (.inr hne) (.inr rfl)

lemma raise?_of_parent (hblocks : f.triesBlocks = true) (hp : f.parent? c = some p)
    (hfun : f.isFunction p = false) : f.raise? c = (f.interceptor? c p).or (f.raise? p) := by
  obtain ⟨node, hn, hc⟩ := h.parent_iff.mp hp
  by_cases hkind : node.kind = .tryStmt
  · cases node <;> cases hkind
    exact h.raise?_of_tryPart hn hc (not_guarded_of_triesBlocks hblocks hn)
  · have hnode : f.interceptor? c p = none := by
      rw [interceptor?, hn]
      cases node <;> first | rfl | exact absurd rfl hkind
    have hfun' : node.kind.isFunction = false := isFunction_eq hn ▸ hfun
    rw [hnode, Option.none_or]
    exact raise?_congr (catchClause?_eq_of_parent h.toLinked hn hc hfun' hkind)
      (interceptingFinally?_eq_of_parent h.toLinked hn hc hfun' hkind)

lemma outward_raise? (hblocks : f.triesBlocks = true) (hw : f.Within c id) :
    f.Outward id c (f.raise? c) := by
  induction c using h.parent_induction with
  | top c hb =>
    rw [raise?_of_enclosing_nil (h.enclosing_of_top hb)]
    cases hp : f.parent? c with
    | none => exact .root hp
    | some p => exact .function hp (hb p hp)
  | child c p hp hfun ih =>
    rw [h.raise?_of_parent hblocks hp hfun, ← h.interceptor?_of_within hp hw]
    cases hi : f.interceptor? id p with
    | some target => exact .taken hp hfun hi
    | none => exact .passed hp hfun hi (ih (within_of_child hp hfun hw))

end InOrder

lemma Outward.unique {dest dest' : Option NodeId} (hd : f.Outward id c dest)
    (hd' : f.Outward id c dest') : dest = dest' := by
  induction hd with
  | root hp | function hp hfun | taken hp hfun htaken | passed hp hfun hpassed rest ih =>
    cases hd' <;> simp_all

/-- An error is handled by the nearest catch clause or finally block that can take it: the walk
outward from the node that raises it stops there, and leaves the function if there is none. -/
theorem raise_eq_iff_outward {tree : SyntaxTree} {root : NodeId} {f : Forest}
    (hf : ofTree tree = .ok (root, f)) (hblocks : f.triesBlocks = true) (id : NodeId)
    (dest : Option NodeId) : f.raise? id = dest ↔ f.Outward id id dest := by
  obtain ⟨low, h⟩ := inOrder_ofTree hf
  have hwalk : f.Outward id id (f.raise? id) := h.outward_raise? hblocks .self
  constructor
  · rintro rfl
    exact hwalk
  · exact hwalk.unique

def nestedTries : SyntaxTree :=
  let fail (name : String) : SyntaxTree := .raise (.ident name)
  let guarded (tried caught last : SyntaxTree) : SyntaxTree :=
    .mk () (.tryStmt (.block [tried]) (some (.mk () (.catchClause none (.block [caught]))))
      (some (.block [last])))
  let inner := guarded (fail "a") (fail "b") (fail "c")
  .function [] [guarded inner (fail "d") (fail "e")]

theorem raise_eq_iff_outward_nestedTries : ∃ root f, ofTree nestedTries = .ok (root, f) ∧
    f.triesBlocks = true ∧ f.Outward 1 1 (some 6) ∧ f.Outward 4 4 (some 9) ∧
    f.Outward 8 8 (some 15) ∧ f.Outward 13 13 (some 18) ∧ f.Outward 17 17 none := by
  obtain ⟨root, f, hf, heval⟩ := exists_ofTree_of_any nestedTries (fun f => f.triesBlocks &&
    f.raise? 1 == some 6 && f.raise? 4 == some 9 && f.raise? 8 == some 15 &&
    f.raise? 13 == some 18 && f.raise? 17 == none) (by decide +kernel)
  simp only [Bool.and_eq_true, beq_iff_eq] at heval
  obtain ⟨⟨⟨⟨⟨hblocks, hinner⟩, hclause⟩, hfinally⟩, houter⟩, hnone⟩ := heval
  have hwalk := fun id dest => (raise_eq_iff_outward hf hblocks id dest).mp
  exact ⟨root, f, hf, hblocks, hwalk _ _ hinner, hwalk _ _ hclause, hwalk _ _ hfinally,
    hwalk _ _ houter, hwalk _ _ hnone⟩

end ServiceFlow.Forest
