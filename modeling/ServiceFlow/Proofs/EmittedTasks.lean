import ServiceFlow.Proofs.GraphMaking
import ServiceFlow.Proofs.StateForms

/-!
# Tasks of a machine

Which statements make task states. All states but those of calls, and those that hold machines of
inline functions, are plain.
-/

namespace ServiceFlow.Machine

open List

mutual

def State.tasks : State → List Task
  | .task task => [task]
  | .map _ iterator => Graph.tasks iterator
  | .parallel _ branches => Graph.tasksAll branches
  | .pass _ | .choice _ | .wait .. | .succeed | .fail .. => []
termination_by structural s => s

def Graph.tasks : Graph State → List Task
  | ⟨_, states⟩ => State.entryTasks states
termination_by structural g => g

def Graph.tasksAll : List (Graph State) → List Task
  | [] => []
  | g :: rest => Graph.tasks g ++ Graph.tasksAll rest
termination_by structural gs => gs

def State.entryTasks : List (String × State) → List Task
  | [] => []
  | (_, s) :: rest => State.tasks s ++ State.entryTasks rest
termination_by structural ss => ss

end

/-- The tasks of some states. -/
def tasksOf (states : Ordered State) : List Task := states.flatMap fun entry => entry.2.tasks

lemma tasksOf_append (states states' : Ordered State) :
    tasksOf (states ++ states') = tasksOf states ++ tasksOf states' := flatMap_append

lemma Graph.tasksAll_eq (gs : List Machine) : Graph.tasksAll gs = gs.flatMap Graph.tasks := by
  induction gs with
  | nil => rfl
  | cons g gs ih => rw [Graph.tasksAll, ih, flatMap_cons]

lemma Graph.tasks_eq (machine : Machine) : machine.tasks = tasksOf machine.states := by
  obtain ⟨startAt, states⟩ := machine
  rw [Graph.tasks]
  induction states with
  | nil => rfl
  | cons entry states ih => rw [State.entryTasks, ih, tasksOf, tasksOf, flatMap_cons]

variable {s : State} {α : Type} {a : α} {expression : Term} {program : Program}
  {state : List Catcher → Option ResultPath × Transition → State} {f : Forest} {β : Type}

lemma State.tasks_of_isPlain (h : s.isPlain = true) : s.tasks = [] := by
  cases s <;> first | rfl | cases h

lemma State.graphs_of_isPlain (h : s.isPlain = true) : s.graphs = [] := by
  cases s <;> first | rfl | cases h

/-- All new states are without tasks. -/
def Silent (d d' : Draft) : Prop := ∀ entry ∈ d'.states, entry ∈ d.states ∨ entry.2.isPlain = true

lemma Silent.trans {d₁ d₂ d₃ : Draft} (h : Silent d₁ d₂) (h' : Silent d₂ d₃) : Silent d₁ d₃ := by
  intro entry hentry
  rcases h' entry hentry with hold | hplain
  · exact h entry hold
  · exact .inr hplain

lemma silent_of_emit {nested : Nested} {t : Term} {d d' : Draft} (huse : t.usedExpression? = none)
    (hrun : (emit program nested t).run d = .ok ((), d')) : Silent d d' :=
  fun entry hentry => (forms_of_emit huse hrun entry hentry).imp_right ControlForm.isPlain

lemma silent_of_emitData {t : Term} {use : Use} {d d' : Draft} {value : Data} (nested : Nested)
    (hvalue : data program expression = .ok value)
    (hrun : (emitData f t value use).run d = .ok ((), d')) : Silent d d' := fun entry hentry =>
  ((puts_emitData nested d.labels hvalue f t use).states hrun entry hentry).imp_right And.right

/-- One new state is named, and the others have no tasks. -/
structure Speaks (name : String) (s : State) (d d' : Draft) : Prop where
  made : (name, s) ∈ d'.states
  states : ∀ entry ∈ d'.states, entry ∈ d.states ∨ entry = (name, s) ∨ entry.2.isPlain = true

section Speaks

variable {name second : String} {s s' : State} {d d' : Draft} {labels : Labels}

lemma Silent.speaks (h : Silent d d') :
    Speaks name s d { d' with labels, states := d'.states ++ [(name, s)] } := by
  refine ⟨by simp, fun entry hentry => ?_⟩
  rcases mem_append.mp hentry with hold | hnew
  · exact (h entry hold).imp_right .inr
  · exact .inr (.inl (mem_singleton.mp hnew))

lemma Speaks.put (h : Speaks name s d d') (hs' : s'.isPlain = true) :
    Speaks name s d { d' with states := d'.states ++ [(second, s')] } := by
  refine ⟨mem_append_left _ h.made, fun entry hentry => ?_⟩
  rcases mem_append.mp hentry with hold | hnew
  · exact h.states entry hold
  · cases mem_singleton.mp hnew
    exact .inr (.inr hs')

end Speaks

/-- The tasks of the states that an emission adds. -/
inductive Told (d d' : Draft) : List Task → Prop where
  | silent (h : Silent d d') : Told d d' []
  | speaks {name : String} {s : State} (h : Speaks name s d d')
    (hnew : name ∉ d.states.map Prod.fst) : Told d d' s.tasks

lemma flatMap_eq_of_mem {f : α → List β} {xs : List α} (hn : xs.Nodup) (ha : a ∈ xs)
    (h : ∀ b ∈ xs, b = a ∨ f b = []) : xs.flatMap f = f a := by
  obtain ⟨before, after, rfl⟩ := append_of_mem ha
  have hnone : ∀ b ∈ before ++ after, f b = [] := by
    intro b hb
    rcases h b (by simpa [or_left_comm] using .inr (mem_append.mp hb)) with rfl | hb'
    · exact absurd hb (nodup_cons.mp (nodup_middle.mp hn)).1
    · exact hb'
  rw [flatMap_append, flatMap_cons,
    flatMap_eq_nil_iff.mpr fun b hb => hnone b (mem_append_left _ hb),
    flatMap_eq_nil_iff.mpr fun b hb => hnone b (mem_append_right _ hb)]
  simp

namespace Plan.Emission

variable {plan : Plan} {t : Term} {start : Nat} {d d' : Draft} {owed : List String}
  {new : Ordered State} (h : plan.Emission t start d owed d' [] new)
include h

variable {entry : String × State} {name : String} {s : State}

lemma isPlain_of_silent (hs : Silent d d') (hentry : entry ∈ new) : entry.2.isPlain = true := by
  obtain ⟨hmem, hnew⟩ := h.mem_new_iff.mp hentry
  exact (hs entry hmem).resolve_left fun hold => hnew (mem_map_of_mem hold)

lemma eq_of_speaks (hs : Speaks name s d d') (hentry : entry ∈ new) :
    entry = (name, s) ∨ entry.2.isPlain = true := by
  obtain ⟨hmem, hnew⟩ := h.mem_new_iff.mp hentry
  exact (hs.states entry hmem).resolve_left fun hold => hnew (mem_map_of_mem hold)

lemma flatMap_of_speaks {f : State → List β} (hf : ∀ {s : State}, s.isPlain = true → f s = [])
    (hs : Speaks name s d d') (hname : name ∉ d.states.map Prod.fst) :
    new.flatMap (fun entry => f entry.2) = f s := by
  have hkeys := h.ready.nodup
  rw [h.states, map_append] at hkeys
  have hnodup : new.Nodup := .of_map _ (nodup_append.mp hkeys).2.1
  refine flatMap_eq_of_mem hnodup (h.mem_new_iff.mpr ⟨hs.made, hname⟩) ?_
  exact fun entry hentry => (h.eq_of_speaks hs hentry).imp_right hf

lemma tasksOf_new {tasks : List Task} (ht : Told d d' tasks) : tasksOf new = tasks := by
  cases ht with
  | silent hsilent =>
    apply flatMap_eq_nil_iff.mpr
    exact fun entry hentry => State.tasks_of_isPlain (h.isPlain_of_silent hsilent hentry)
  | speaks hspeaks hnew => exact h.flatMap_of_speaks State.tasks_of_isPlain hspeaks hnew

end Plan.Emission

variable {t : Term} {d d' : Draft} {use : Use}

lemma Plan.Ready.entry_mem {plan : Plan} {start : Nat} {owed : List String} {name : String}
    (hr : plan.Ready start d owed) (hw : plan.forest.Within plan.body t.tag)
    (hname : d.labels.entries.lookup t.tag = some name) : name ∈ plan.labels.namesOf t.tag := by
  obtain ⟨hsame, -, -, -⟩ := Parts.mk.inj (hr.same t.tag hw)
  exact Labels.entry_mem_namesOf (hsame ▸ hname)

lemma speaks_of_emitTask {site : CallSite}
    (hrun : (emitTask program t site use).run d = .ok ((), d')) :
    ∃ name base task segments, Speaks name (.task task) d d' ∧
      d.labels.entries.lookup t.tag = some name ∧ taskOf program site.call = .ok base ∧
      task.request = base.request ∧
      resultSegments program.references site.accessors = .ok segments := by
  obtain ⟨name, hname, hrest⟩ := run_bind_entry_eq_ok hrun
  obtain ⟨base, hbase, hrest⟩ := run_bind_lift_eq_ok hrest
  obtain ⟨catchers, d₁, hcatchers, hrest⟩ := run_bind_eq_ok hrest
  obtain ⟨transition, d₂, hproceed, hrest⟩ := run_bind_eq_ok hrest
  obtain ⟨segments, hsegments, hrest⟩ := run_bind_lift_eq_ok hrest
  cases hproceed
  have hcaught := Puts.catchers (P := (·.isPlain = true)) rfl program.forest t
  have hsilent : Silent d d₁ := hcaught.states hcatchers
  cases use with
  | discard | returned =>
    cases hrest
    exact ⟨name, base, _, segments, hsilent.speaks, hname, hbase, rfl, hsegments⟩
  | bind target =>
    dsimp only at hrest
    split_ifs at hrest
    · cases hrest
      exact ⟨name, base, _, segments, hsilent.speaks, hname, hbase, rfl, hsegments⟩
    · obtain ⟨second, _, hfresh, hrest⟩ := run_bind_eq_ok hrest
      obtain ⟨second', -, hfresh'⟩ := Plan.exists_run_fresh (name ++ " result") d₁
      cases hfresh'.symm.trans hfresh
      cases hrest
      exact ⟨name, base, _, segments, hsilent.speaks.put rfl, hname, hbase, rfl, hsegments⟩

lemma speaks_of_emitHolder {discarded : Bool}
    (hrun : (emitHolder f t discarded use state).run d = .ok ((), d')) :
    ∃ name catchers result, Speaks name (state catchers result) d d' ∧
      d.labels.entries.lookup t.tag = some name := by
  obtain ⟨catchers, d₁, hcatchers, hrun⟩ := run_bind_eq_ok hrun
  obtain ⟨result, d₂, hplace, hrun⟩ := run_bind_eq_ok hrun
  have hcaught := Puts.catchers (P := (·.isPlain = true)) rfl f t
  have hplaced : Puts (·.isPlain = true) (place f t discarded use) := .place ..
  have hsilent : Silent d d₂ := .trans (hcaught.states hcatchers) (hplaced.states hplace)
  obtain ⟨name, hname, hrun⟩ := run_bind_entry_eq_ok hrun
  cases hrun
  exact ⟨name, catchers, result, hsilent.speaks,
    hcaught.entries hcatchers ▸ hplaced.entries hplace ▸ hname⟩

lemma Holder.tasks {machines : List Machine} (h : Holder state machines) (catchers : List Catcher)
    (result : Option ResultPath × Transition) :
    (state catchers result).tasks = machines.flatMap Graph.tasks := by
  cases h with
  | map _ _ _ iterator => rw [State.tasks, flatMap_singleton]
  | parallel branches => rw [State.tasks, Graph.tasksAll_eq]

end ServiceFlow.Machine
