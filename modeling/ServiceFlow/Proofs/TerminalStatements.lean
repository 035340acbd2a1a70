import ServiceFlow.Proofs.BodyFlow
import ServiceFlow.Proofs.StructuredExecution

/-!
# Terminal statements

A terminal statement never completes normally, whatever the branches decide and wherever an error is
raised. Where no jump in it goes to a loop around it, it returns or throws.
-/

namespace ServiceFlow

open List

attribute [local simp] Node.children

namespace Tree

variable {α : Type} {looped : Bool} {t : Tree α} {c : Completion}

section Terminal

variable {tag : α} {node again : Node (Tree α)} {body : Tree α} {tryBlock : Tree α}
  {handler : Option (Tree α)}

lemma isTerminal_of_isPlain (hn : node.isPlain = true) : isTerminal (.mk tag node) = false := by
  cases node <;> first | rfl | cases hn

lemma isTerminal_of_turn? (hn : node.turn? = some (body, again)) :
    isTerminal (.mk tag node) = false := by
  cases node <;> first | rfl | cases hn

lemma isTerminal_block_cons {first : Tree α} {rest : List (Tree α)} {isFinally : Bool}
    (ht : isTerminal (.mk tag (.block (first :: rest) isFinally)) = true) :
    first.isTerminal = true ∨ isTerminal (.mk tag (.block rest isFinally)) = true := by
  cases rest with
  | nil => exact .inl ht
  | cons second rest => exact .inr ht

lemma isTerminal_if {condition thenStmt : Tree α} {elseStmt : Option (Tree α)}
    (ht : isTerminal (.mk tag (.ifStmt condition thenStmt elseStmt)) = true) :
    thenStmt.isTerminal = true ∧ ∃ s, elseStmt = some s ∧ s.isTerminal = true := by
  cases elseStmt with
  | none => cases ht
  | some elseStmt =>
    rw [isTerminal, Bool.and_eq_true] at ht
    exact ⟨ht.2, elseStmt, rfl, ht.1⟩

lemma isTerminal_try (ht : isTerminal (.mk tag (.tryStmt tryBlock handler none)) = true) :
    tryBlock.isTerminal = true ∧ ∀ s, handler = some s → s.isTerminal = true := by
  rw [isTerminal, isTerminalSome, Bool.false_or, Bool.and_eq_true] at ht
  refine ⟨ht.1, ?_⟩
  rintro s rfl
  exact ht.2

lemma isTerminal_finally {finalizer : Tree α} :
    isTerminal (.mk tag (.tryStmt tryBlock handler (some finalizer))) =
      (finalizer.isTerminal || isTerminal (.mk tag (.tryStmt tryBlock handler none))) := rfl

end Terminal

lemma Ends.ne_normal (h : t.Ends looped c) (ht : t.isTerminal = true) : c ≠ .normal := by
  induction h with
  | plain hn =>
    rw [isTerminal_of_isPlain hn] at ht
    cases ht
  | loopDone hn | loopStops hn | loopBreaks hn | loopGoesOn hn =>
    rw [isTerminal_of_turn? hn] at ht
    cases ht
  | raises | breaks | continues | returns => exact Completion.noConfusion
  | blockEnds | ifNot => cases ht
  | blockStops _ hc => exact hc
  | blockGoesOn _ _ ihfirst ihrest =>
    rcases isTerminal_block_cons ht with ht | ht
    · exact absurd rfl (ihfirst ht)
    · exact ihrest ht
  | ifThen _ ih => exact ih (isTerminal_if ht).1
  | ifElse _ ih =>
    obtain ⟨s, hs, ht⟩ := (isTerminal_if ht).2
    cases hs
    exact ih ht
  | tryEnds _ _ ih => exact ih (isTerminal_try ht).1
  | tryCatches _ _ _ ih => exact ih ((isTerminal_try ht).2 _ rfl)
  | finallyKeeps _ _ ihtry ihfinally =>
    rw [isTerminal_finally, Bool.or_eq_true] at ht
    rcases ht with ht | ht
    · exact absurd rfl (ihfinally ht)
    · exact ihtry ht
  | finallyReplaces _ _ hc => exact hc
  | clause _ ih => exact ih ht

section Jumps

lemma any_map_eq_true {o : Option (Tree α)} {p : Tree α → Bool} :
    (o.map p).any id = true ↔ ∃ t, o = some t ∧ p t = true := by cases o <;> simp

variable {tag : α} {node : Node (Tree α)} (hc : c = .broke ∨ c = .continued)
include hc

lemma exists_part_of_jumps (hj : jumps c (.mk tag node) = true) :
    (node.kind = .breakStmt ∨ node.kind = .continueStmt) ∨
      node.kind.isLoop = false ∧ node.kind.isFunction = false ∧
        ∃ s ∈ node.children, s.jumps c = true := by
  rw [jumps_mk] at hj
  cases node
  case breakStmt | continueStmt => simp [Node.kind]
  case block statements isFinally =>
    refine .inr ⟨rfl, rfl, ?_⟩
    simpa [Node.map, Node.jumps] using hj
  case ifStmt condition thenStmt elseStmt =>
    refine .inr ⟨rfl, rfl, ?_⟩
    simp only [Node.map, Node.jumps, Bool.or_eq_true, any_map_eq_true] at hj
    rcases hj with hj | ⟨s, hs, hj⟩
    · exact ⟨thenStmt, by simp, hj⟩
    · exact ⟨s, by simp [hs], hj⟩
  case tryStmt tryBlock handler finalizer =>
    refine .inr ⟨rfl, rfl, ?_⟩
    simp only [Node.map, Node.jumps, Bool.or_eq_true, any_map_eq_true] at hj
    rcases hj with (hj | ⟨s, hs, hj⟩) | ⟨s, hs, hj⟩
    · exact ⟨tryBlock, Node.mem_children_tryStmt.mpr (.inl rfl), hj⟩
    · exact ⟨s, Node.mem_children_tryStmt.mpr (.inr (.inl hs)), hj⟩
    · exact ⟨s, Node.mem_children_tryStmt.mpr (.inr (.inr hs)), hj⟩
  case catchClause binder body =>
    exact .inr ⟨rfl, rfl, body, by simp, hj⟩
  all_goals rcases hc with rfl | rfl <;> simp [Node.map, Node.jumps] at hj

end Jumps

lemma Ends.jumps (h : t.Ends looped c) :
    c ≠ .paused ∧ (c = .broke ∨ c = .continued → looped = true ∧ t.jumps c = true) := by
  induction h with
  | plain | raises | returns | blockEnds | ifNot | loopDone | loopBreaks => simp
  | breaks | continues => simp [jumps_mk, Node.map, Node.jumps]
  | loopStops _ _ hc => rcases hc with rfl | rfl <;> simp
  | loopGoesOn hn _ _ _ _ ih =>
    refine ⟨ih.1, fun hc => ?_⟩
    -- The loop that goes on deals with its breaks and continues.
    have hleft := (ih.2 hc).2
    rw [jumps_of_turn? (Node.turn?_of_turn? hn)] at hleft
    rcases hc with rfl | rfl <;> simp at hleft
  | blockStops _ _ ih | blockGoesOn _ _ _ ih | ifThen _ ih | ifElse _ ih | tryEnds _ _ ih
  | tryCatches _ _ _ ih | finallyKeeps _ _ ih | finallyReplaces _ _ _ _ ih | clause _ ih =>
    simp_all [jumps_mk, Node.map, Node.jumps]

lemma endsBy_exec (t : Term) (run : Run) :
    (t.exec run).1 ≠ .paused → t.Ends true (t.exec run).1 := (t.runs_exec run).ends

end Tree

namespace Forest

variable {f : Forest} {c : Completion}

lemma Linked.exists_jump (h : f.Linked) {t : Term} (hs : f.Shows t)
    (hc : c = .broke ∨ c = .continued) (hj : t.jumps c = true) :
    ∃ b node, f.Inside b t.tag ∧ f.node? b = some node ∧
      (node.kind = .breakStmt ∨ node.kind = .continueStmt) ∧
      f.enclosingLoop? b = f.enclosingLoop? t.tag := by
  induction t using Tree.children_induction with
  | step tag n ih =>
    have hn := (h.shows_parts hs).1
    rcases Tree.exists_part_of_jumps hc hj with hkind | ⟨hloop, hfun, s, hmem, hj⟩
    · exact ⟨tag, _, .inl rfl, hn, by rwa [Node.kind_map], rfl⟩
    · obtain ⟨hshown, hp⟩ := h.shows_child hs hmem
      obtain ⟨b, node, hb, hnode, hkind, heq⟩ := ih s hmem hshown hj
      have hchild : s.tag ∈ (n.map Tree.tag).children := by
        rw [Node.children_map]
        exact mem_map_of_mem hmem
      have hbelow := h.below_of_inside_of_below hb (h.below_of_parent hp)
      refine ⟨b, node, .inr hbelow, hnode, hkind, ?_⟩
      rw [heq]
      rw [← Node.kind_map Tree.tag] at hloop hfun
      exact enclosingLoop?_eq_of_parent h hn hchild hfun hloop

lemma Linked.lt_of_enclosingLoop? (h : f.Linked) {id loop : Nat}
    (hl : f.enclosingLoop? id = some loop) : id < loop := by
  obtain ⟨c, hm, -⟩ := enclosingLoop?_eq_some hl
  obtain ⟨hp, -, hw⟩ := h.mem_enclosing_iff.mp hm
  exact Nat.lt_of_le_of_lt (h.le_of_inside (h.inside_of_within hw)) (h.lt_parent hp)

/-- A terminal statement does not complete normally. If no break or continue in it goes to a loop
around it, it ends only by a return or a throw. -/
theorem returns_or_throws_of_isTerminal {tree : SyntaxTree} {root : NodeId} {f : Forest}
    (hf : ofTree tree = .ok (root, f)) {n : NodeId} (hn : n < f.size) :
    ∃ t, f.view? n = some t ∧ (t.isTerminal = true →
      (∀ looped, ¬ t.Ends looped .normal) ∧
      ((∀ b node loop, f.Inside b n → f.node? b = some node →
          node.kind = .breakStmt ∨ node.kind = .continueStmt →
          f.enclosingLoop? b = some loop → f.Inside loop n) →
        ∀ c, t.Ends (f.enclosingLoop? n).isSome c → c = .returned ∨ c = .threw)) := by
  obtain ⟨low, h⟩ := inOrder_ofTree hf
  obtain ⟨t, ht⟩ := h.exists_view? hn
  refine ⟨t, ht, fun hterminal => ⟨?_, ?_⟩⟩
  · intro looped hends
    exact hends.ne_normal hterminal rfl
  · intro hinside c hends
    have hnormal := hends.ne_normal hterminal
    obtain ⟨hpaused, hjump⟩ := hends.jumps
    by_cases hc : c = .broke ∨ c = .continued
    · obtain ⟨hloop, hj⟩ := hjump hc
      obtain ⟨loop, hloop⟩ := Option.isSome_iff_exists.mp hloop
      obtain ⟨b, node, hb, hnode, hkind, heq⟩ := h.exists_jump (h.shows_of_view? ht) hc hj
      rw [h.tag_of_view? ht] at hb heq
      have hin := h.le_of_inside (hinside b node loop hb hnode hkind (heq.trans hloop))
      have hout := h.lt_of_enclosingLoop? hloop
      omega
    · cases c <;> simp_all

/-- A try statement in a loop. Its parts throw or return, and its finally block holds a loop that is
left by a break. -/
def guardedReturn : SyntaxTree :=
  let branch : SyntaxTree := .mk () (.ifStmt (.ident "failed") (.raise (.ident "error")) (some .leave))
  let clause : SyntaxTree := .mk () (.catchClause none (.block [.leave]))
  let last : SyntaxTree := .loop (.ident "open") (.block [.mk () .breakStmt])
  .function [] [.loop (.ident "more")
    (.block [.mk () (.tryStmt (.block [branch]) (some clause) (some (.block [last])))])]

theorem returns_or_throws_of_isTerminal_guardedReturn :
    ∃ root f t, ofTree guardedReturn = .ok (root, f) ∧ f.view? 15 = some t ∧ t.isTerminal = true ∧
      f.enclosingLoop? 15 = some 17 ∧ t.Ends true .returned ∧
      ∀ c, t.Ends true c → c = .returned ∨ c = .threw := by
  obtain ⟨root, f, hf, heval⟩ := exists_ofTree_of_any guardedReturn
    (fun f => decide (15 < f.size) && (f.view? 15).any Tree.isTerminal &&
      f.enclosingLoop? 15 == some 17 && f.enclosingLoop? 11 == some 13 &&
      (f.ancestors 13).contains 15 && (List.range f.size).all (fun b =>
        b == 11 || f.kind? b != some .breakStmt && f.kind? b != some .continueStmt) &&
      (f.view? 15).any fun t => (Tree.exec t ⟨9, fun _ => true, []⟩).1 == .returned)
    (by decide +kernel)
  simp only [Bool.and_eq_true, decide_eq_true_eq, beq_iff_eq, contains_iff_mem] at heval
  obtain ⟨⟨⟨⟨⟨⟨hn, hterminal⟩, hloop⟩, hinner⟩, hbelow⟩, hjumps⟩, hrun⟩ := heval
  obtain ⟨t, ht, hends⟩ := returns_or_throws_of_isTerminal hf hn
  rw [ht, Option.any_some] at hterminal hrun
  have hreturned : (t.exec ⟨9, fun _ => true, []⟩).1 = .returned := beq_iff_eq.mp hrun
  refine ⟨root, f, t, hf, ht, hterminal, hloop, ?_, ?_⟩
  · rw [← hreturned]
    exact t.endsBy_exec _ (by simp [hreturned])
  · intro c hc
    apply (hends hterminal).2 _ c (by rwa [hloop])
    intro b node loop _ hnode hkind hb
    have hb' := all_eq_true.mp hjumps b (mem_range.mpr (lt_size_of_node? hnode))
    have hkind' : f.kind? b = some node.kind := by simp [kind?, hnode]
    have : b = 11 := by
      rcases hkind with hkind | hkind <;> simpa [hkind', hkind] using hb'
    subst this
    obtain rfl := Option.mem_unique hinner hb
    exact .inr hbelow

end Forest

end ServiceFlow
