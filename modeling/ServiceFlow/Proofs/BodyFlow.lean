import ServiceFlow.Proofs.FlowQueries
import ServiceFlow.Proofs.ForestView

/-!
# Control flow inside a body

A node lies within a part of the tree if no function comes between. Control flow that starts within
a part arrives at a working statement of the part, or goes where the part is left to.
-/

namespace ServiceFlow.Forest

open List

variable {f : Forest} {low : Nat → Nat} {body id p : Nat}

/-- A node of a body, functions inside the body left out. -/
inductive Within (f : Forest) (body : Nat) : Nat → Prop where
  | self : Within f body body
  | child {id p : Nat} (hp : f.parent? id = some p) (hfun : f.isFunction p = false)
    (hw : Within f body p) : Within f body id

lemma Linked.inside_of_within (h : f.Linked) (hw : f.Within body id) : f.Inside id body := by
  induction hw with
  | self => exact .inl rfl
  | child hp _ _ ih => exact .inr (h.below_of_below_of_inside (h.below_of_parent hp) ih)

lemma Linked.below_of_within (h : f.Linked) (hw : f.Within body id) (hp : f.parent? body = some p) :
    f.Below id p :=
  h.below_of_inside_of_below (h.inside_of_within hw) (h.below_of_parent hp)

lemma within_cases (hw : f.Within body id) :
    id = body ∨ f.isFunction body = false ∧ ∃ c, f.parent? c = some body ∧ f.Within c id := by
  induction hw with
  | self => exact .inl rfl
  | child hp hfun _ ih =>
    rcases ih with rfl | ⟨hbody, c, hc, hw⟩
    · exact .inr ⟨hfun, _, hp, .self⟩
    · exact .inr ⟨hbody, c, hc, .child hp hfun hw⟩

variable {c a part handler : Nat}

lemma within_of_child (hc : f.parent? c = some body) (hfun : f.isFunction body = false)
    (hw : f.Within c id) : f.Within body id := by
  induction hw with
  | self => exact .child hc hfun .self
  | child hp hp' _ ih => exact .child hp hp' ih

lemma Within.trans {b : Nat} (ha : f.Within a b) (hb : f.Within b id) : f.Within a id := by
  induction hb with
  | self => exact ha
  | child hp hfun _ ih => exact .child hp hfun ih

lemma Linked.within_of_inside (h : f.Linked) (hw : f.Within part id) (ha : f.Within part a)
    (hin : f.Inside id a) : f.Within a id := by
  induction hw with
  | self =>
    obtain rfl : part = a :=
      Nat.le_antisymm (h.le_of_inside hin) (h.le_of_inside (h.inside_of_within ha))
    exact .self
  | child hp hfun hw ih =>
    rcases hin with rfl | hbelow
    · exact .self
    · obtain ⟨q, hq, hin⟩ := h.below_iff.mp hbelow
      obtain rfl := Option.mem_unique hp hq
      exact .child hp hfun (ih hin)

/-- A node at which control stops. -/
def Works (f : Forest) (id : Nat) : Prop := ∃ node, f.node? id = some node ∧ node.works = true

lemma works_of_loopBody? (hb : f.loopBody? p = some c) : f.Works p := by
  obtain ⟨node, hn, -, hloop⟩ := exists_of_loopBody? hb
  exact ⟨node, hn, by cases node <;> first | rfl | cases hloop⟩

/-- The body of a function. -/
def IsBody (f : Forest) (body : Nat) : Prop :=
  ∃ function, f.parent? body = some function ∧ f.isFunction function = true

lemma IsBody.isFunction (hb : f.IsBody body) (p : Nat) (hp : f.parent? body = some p) :
    f.isFunction p = true := by
  obtain ⟨function, hp', hfun⟩ := hb
  exact Option.mem_unique hp hp' ▸ hfun

lemma IsBody.within_parent (hb : f.IsBody body) (hw : f.Within body id)
    (hp : f.parent? id = some p) (hfun : f.isFunction p = false) : f.Within body p := by
  cases hw with
  | self => rw [hb.isFunction p hp] at hfun; cases hfun
  | child hp' _ hw =>
    obtain rfl := Option.mem_unique hp hp'
    exact hw

/-- Control stops in a part, or leaves it. -/
def Arrives (f : Forest) (part : Nat) (dest : Option Nat) : Prop :=
  (∃ d, dest = some d ∧ f.Within part d ∧ f.Works d) ∨ dest = f.exit? part

/-- A move that starts in a part. -/
def MoveWithin (f : Forest) (part : Nat) : Move → Prop
  | .enter id => f.Within part id ∧ f.node? id ≠ none
  | .leave id => f.Within part id
  | .stop dest => f.Arrives part dest

lemma Linked.node?_ne_none_of_parent (h : f.Linked) (hp : f.parent? id = some p) :
    f.node? id ≠ none := by
  obtain ⟨t, ht⟩ := h.exists_view? (Nat.lt_trans (h.lt_parent hp) (h.parent_lt_size hp))
  have hn := h.node?_of_shows (h.shows_of_view? ht)
  rw [h.tag_of_view? ht] at hn
  simp [hn]

lemma moveWithin_entering (h : f.Linked) (hw : f.Within part id) (hid : f.node? id ≠ none) :
    f.MoveWithin part (f.entering id) := by
  have hm := f.enters_entering id
  generalize f.entering id = m at hm ⊢
  cases hm with
  | missing hn => exact absurd hn hid
  | child hn hfun hc =>
    have hp := h.parent_eq_some hn hc
    exact ⟨.child hp (isFunction_eq hn ▸ hfun) hw, h.node?_ne_none_of_parent hp⟩
  | pass hn => exact hw
  | work hn hworks => exact .inl ⟨_, rfl, hw, _, hn, hworks⟩

namespace InOrder

variable (h : f.InOrder low)
include h

variable {part d : Nat}

lemma moveWithin_leaving (hp : f.parent? id = some p) (hfun : f.isFunction p = false)
    (hw : f.Within part p) : f.MoveWithin part (f.leaving id) := by
  have hm := h.leaves_leaving id
  generalize f.leaving id = m at hm ⊢
  cases hm with
  | out hout =>
    rw [hout p hp] at hfun
    cases hfun
  | sibling hq _ hc _ =>
    cases hp.symm.trans hq
    exact ⟨.child hc hfun hw, h.node?_ne_none_of_parent hc⟩
  | loop hq _ hbody =>
    cases hp.symm.trans hq
    exact .inl ⟨_, rfl, hw, works_of_loopBody? hbody⟩
  | up hq _ =>
    cases hp.symm.trans hq
    exact hw

/-- A walk that starts within a part of the tree stops there, or goes where the part is left to. -/
lemma arrives_follow (m : Move) (hm : f.MoveWithin part m) : f.Arrives part (f.follow m) := by
  induction m using h.move_induction with
  | stop dest => exact hm
  | enter id ih =>
    rw [follow, h.step?_eq]
    exact ih (moveWithin_entering h.toLinked hm.1 hm.2)
  | leave id ih =>
    cases hm with
    | self => exact .inr rfl
    | child hp hfun hw =>
      rw [follow, h.exit?_eq]
      exact ih (h.moveWithin_leaving hp hfun hw)

lemma arrives_step? (hw : f.Within part id) (hid : f.node? id ≠ none) :
    f.Arrives part (f.step? id) :=
  h.arrives_follow (.enter id) ⟨hw, hid⟩

lemma arrives_exit? (hw : f.Within part id) : f.Arrives part (f.exit? id) :=
  h.arrives_follow (.leave id) hw

lemma within_of_arrives {dest : Option Nat} (hb : f.IsBody body) (ha : f.Arrives body dest)
    (hd : dest = some d) : f.Within body d ∧ f.Works d := by
  rcases ha with ⟨d', rfl, hw⟩ | rfl
  · exact Option.some.inj hd ▸ hw
  · rw [h.exit?_of_function hb.isFunction] at hd
    cases hd

lemma step?_within (hb : f.IsBody body) (hw : f.Within body id) (hd : f.step? id = some d) :
    f.Within body d ∧ f.Works d := by
  refine h.within_of_arrives hb (h.arrives_step? hw fun hn => ?_) hd
  rw [h.step?_eq, entering, hn] at hd
  cases hd

end InOrder

namespace Linked

variable (h : f.Linked)
include h

lemma parent_induction {motive : Nat → Prop}
    (top : ∀ id, (∀ p, f.parent? id = some p → f.isFunction p = true) → motive id)
    (child : ∀ id p, f.parent? id = some p → f.isFunction p = false → motive p → motive id)
    (id : Nat) : motive id := by
  induction hk : f.size - id using Nat.strongRecOn generalizing id with
  | _ k ih =>
    cases hp : f.parent? id with
    | none => exact top id (by simp [hp])
    | some p =>
      cases hfun : f.isFunction p with
      | true => exact top id fun q hq => Option.mem_unique hp hq ▸ hfun
      | false =>
        have hlt := h.lt_parent hp
        have hsize := h.parent_lt_size hp
        exact child id p hp hfun (ih (f.size - p) (by omega) p rfl)

lemma enclosing_of_top (hb : ∀ p, f.parent? id = some p → f.isFunction p = true) :
    f.enclosing id = [] := by
  cases hp : f.parent? id with
  | none => simp [enclosing, ancestors_of_root hp]
  | some p => exact h.enclosing_of_function hp (hb p hp)

variable {a c b : Nat}

lemma mem_enclosing_iff :
    (a, c) ∈ f.enclosing id ↔ f.parent? c = some a ∧ f.isFunction a = false ∧ f.Within c id := by
  induction id using h.parent_induction with
  | top id hb =>
    rw [h.enclosing_of_top hb]
    simp only [not_mem_nil, false_iff, not_and]
    intro hp hfun hw
    cases hw with
    | self => rw [hb a hp] at hfun; cases hfun
    | child hp' hfun' _ => rw [hb _ hp'] at hfun'; cases hfun'
  | child id p hp hfun ih =>
    rw [h.enclosing_of_parent hp hfun, mem_cons, ih, Prod.mk.injEq]
    constructor
    · rintro (⟨rfl, rfl⟩ | ⟨hc, ha, hw⟩)
      · exact ⟨hp, hfun, .self⟩
      · exact ⟨hc, ha, .child hp hfun hw⟩
    · rintro ⟨hc, ha, hw⟩
      cases hw with
      | self => exact .inl ⟨Option.mem_unique hc hp, rfl⟩
      | child hp' _ hw =>
        obtain rfl := Option.mem_unique hp hp'
        exact .inr ⟨hc, ha, hw⟩

lemma pairwise_enclosing (id : Nat) : (f.enclosing id).Pairwise fun a b => a.1 < b.1 := by
  induction id using h.parent_induction with
  | top id hb =>
    rw [h.enclosing_of_top hb]
    exact .nil
  | child id p hp hfun ih =>
    rw [h.enclosing_of_parent hp hfun]
    refine pairwise_cons.mpr ⟨?_, ih⟩
    intro ⟨a, c⟩ hm
    obtain ⟨hparent, -, hw⟩ := h.mem_enclosing_iff.mp hm
    exact Nat.lt_of_le_of_lt (h.le_of_inside (h.inside_of_within hw)) (h.lt_parent hparent)

lemma within_or_of_mem_enclosing (hw : f.Within part id) (hm : (a, c) ∈ f.enclosing id) :
    f.Within part a ∨ f.Within c part := by
  obtain ⟨hp, -, hc⟩ := h.mem_enclosing_iff.mp hm
  clear hm
  induction hw with
  | self => exact .inr hc
  | child hp' _ hw ih =>
    cases hc with
    | self => exact .inl (Option.mem_unique hp hp' ▸ hw)
    | child hp'' _ hc =>
      obtain rfl := Option.mem_unique hp' hp''
      exact ih hc

lemma not_below_of_sibling (ha : f.parent? a = some p) (hb : f.parent? b = some p) :
    ¬ f.Below a b := by
  intro hab
  obtain ⟨q, hq, hin⟩ := h.below_iff.mp hab
  obtain rfl := Option.mem_unique ha hq
  have hle := h.le_of_inside hin
  have hlt := h.lt_parent hb
  omega

lemma eq_of_within_of_below (ha : f.parent? a = some p) (hb : f.parent? b = some p)
    (hw : f.Within a id) (hbelow : f.Below id b) : a = b := by
  rcases h.inside_of_within hw with rfl | hw
  · exact absurd hbelow (h.not_below_of_sibling ha hb)
  · rcases h.below_total hw hbelow with heq | hab | hba
    · exact heq
    · exact absurd hab (h.not_below_of_sibling ha hb)
    · exact absurd hba (h.not_below_of_sibling hb ha)

lemma within_of_mem_enclosing (hb : f.IsBody body) (hw : f.Within body id)
    (hm : (a, c) ∈ f.enclosing id) : f.Within body a ∧ f.Within body c := by
  induction id using h.parent_induction with
  | top id hid => rw [h.enclosing_of_top hid] at hm; cases hm
  | child id p hp hfun ih =>
    have hwp := hb.within_parent hw hp hfun
    rw [h.enclosing_of_parent hp hfun, mem_cons, Prod.mk.injEq] at hm
    rcases hm with ⟨rfl, rfl⟩ | hm
    · exact ⟨hwp, hw⟩
    · exact ih hwp hm

end Linked

lemma catchClause?_eq_some (hc : f.catchClause? id = some handler) :
    ∃ t tryBlock finalizer, (t, tryBlock) ∈ f.enclosing id ∧
      f.node? t = some (.tryStmt tryBlock (some handler) finalizer) := by
  obtain ⟨⟨t, c⟩, hm, hfound⟩ := exists_of_findSome?_eq_some hc
  dsimp only at hfound
  split at hfound
  · rename_i tryBlock handler' finalizer hn
    split_ifs at hfound with hblock
    cases hfound
    exact ⟨t, c, finalizer, hm, hblock ▸ hn⟩
  · cases hfound

lemma interceptingFinally?_eq_some {finalizer : Nat}
    (hf : f.interceptingFinally? id = some finalizer) :
    ∃ t c tryBlock handler, (t, c) ∈ f.enclosing id ∧
      f.node? t = some (.tryStmt tryBlock handler (some finalizer)) ∧ finalizer ≠ c := by
  obtain ⟨⟨t, c⟩, hm, hfound⟩ := exists_of_findSome?_eq_some hf
  dsimp only at hfound
  split at hfound
  · rename_i tryBlock handler finalizer' hn
    split_ifs at hfound with hfin
    cases hfound
    exact ⟨t, c, tryBlock, handler, hm, hn, hfin⟩
  · cases hfound

lemma enclosingLoop?_eq_some {loop : Nat} (hl : f.enclosingLoop? id = some loop) :
    ∃ c, (loop, c) ∈ f.enclosing id ∧ f.loopBody? loop = some c := by
  obtain ⟨⟨a, c⟩, hm, hfound⟩ := exists_of_findSome?_eq_some hl
  dsimp only at hfound
  split_ifs at hfound with hbody
  cases hfound
  exact ⟨c, hm, hbody⟩

lemma raise?_eq_some (hr : f.raise? id = some handler) :
    f.catchClause? id = some handler ∨ f.interceptingFinally? id = some handler := by
  rw [raise?] at hr
  split at hr
  · split at hr
    · split_ifs at hr
      · exact .inr (hr ▸ by assumption)
      · exact .inl (hr ▸ by assumption)
    · exact .inl (hr ▸ by assumption)
  · exact .inr (hr ▸ by assumption)
  · exact .inl hr

namespace Linked

variable (h : f.Linked)
include h

variable {handler : Nat}

lemma part_of_raise? (hr : f.raise? id = some handler) :
    ∃ t c, (t, c) ∈ f.enclosing id ∧ f.parent? handler = some t ∧ f.isFunction t = false := by
  rcases raise?_eq_some hr with hc | hf
  · obtain ⟨t, tryBlock, finalizer, hm, hn⟩ := catchClause?_eq_some hc
    exact ⟨t, tryBlock, hm, h.parent_handler hn, isFunction_of_try hn⟩
  · obtain ⟨t, c, tryBlock, handler', hm, hn, -⟩ := interceptingFinally?_eq_some hf
    exact ⟨t, c, hm, h.parent_finalizer hn, isFunction_of_try hn⟩

variable (hb : f.IsBody body) (hw : f.Within body id)
include hb hw

lemma within_of_raise? (hr : f.raise? id = some handler) : f.Within body handler := by
  obtain ⟨t, c, hm, hp, hfun⟩ := h.part_of_raise? hr
  exact .child hp hfun (h.within_of_mem_enclosing hb hw hm).1

lemma within_of_enclosingLoop? {loop : Nat} (hl : f.enclosingLoop? id = some loop) :
    f.Within body loop ∧ f.Works loop := by
  obtain ⟨c, hm, hbody⟩ := enclosingLoop?_eq_some hl
  exact ⟨(h.within_of_mem_enclosing hb hw hm).1, works_of_loopBody? hbody⟩

end Linked

end ServiceFlow.Forest
