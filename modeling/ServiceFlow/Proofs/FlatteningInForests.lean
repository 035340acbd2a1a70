import ServiceFlow.Proofs.FlattenedTrees

/-!
# Flattening in a forest

Flattening the expression at a node follows `Folding.flat` on the term below it. So it adds nodes
only, the result is a new root, and a failure has the cause that the trees give it.
-/

namespace ServiceFlow.Flatten

open ServiceFlow.Tree List

attribute [local simp] Tree.node Node.children

open Forest Build

variable {f f' : Forest} {m k : Nat} {go : Term → Build NodeId}
  {flat : Term → Except NodeError SyntaxTree}

/-- Flattening plants the flat tree, in every grown forest. -/
def Flattens (go : Term → Build NodeId) (flat : Term → Except NodeError SyntaxTree) (f : Forest)
    (t : Term) : Prop :=
  ∀ f', f.Grows f.size f' → (go t).Plants f' (flat t)

variable {t : Term} {e : Entry} {p : Folding.Piece} {scope : Scope} {trees : Folding.Scope}
  {i : Nat} {ts : List SyntaxTree}

lemma Flattens.grow (h : Flattens go flat f t) (hg : f.Grows f.size f') :
    Flattens go flat f' t := fun f'' hf'' => h f'' (hg.trans (hf''.mono hg.size_le))

lemma Flattens.plants (h : Flattens go flat f t) (hf : f.Linked) : (go t).Plants f (flat t) :=
  h f (.refl hf _)

lemma exists_view?_of_root {id : Nat} {t : SyntaxTree} (h : f.Root m id t) :
    ∃ v, f.view? id = some v ∧ v.untag = t := Option.map_eq_some_iff.mp h.tree

lemma mapM_insert {α : Type} (hf : f.Linked) (ts : List (Tree α)) :
    (ts.mapM insert).Follows f f.size (.ok (ts.map untag)) fun f' ids ss =>
      f'.Roots f.size ids ss := by
  have hpure : ts.mapM (fun t => (.ok t.untag : Except NodeError SyntaxTree)) =
      .ok (ts.map untag) := mapM_pure
  rw [← hpure]
  exact (Follows.mapM hf fun t _ f' hgrows => plants_insert t hgrows.linked).imp
    fun _ _ _ _ h => h.1

lemma element_follows (hf : f.Linked) (h : ∀ s ∈ t.subtrees, Flattens go flat f s) :
    (element go t).Follows f f.size (Folding.element flat t) fun f' ids ts =>
      f'.Roots f.size ids ts := by
  obtain ⟨tag, expression, rfl⟩ | hkind := spreadElement_cases t
  · have he := h expression child_mem_subtrees
    refine Follows.bind (he.plants hf) (Nat.le_refl _) ?_
    intro f₁ id s hgrows hroot
    obtain ⟨v, hview, rfl⟩ := exists_view?_of_root hroot
    refine .read (run_view hview) ?_
    obtain ⟨tag', n⟩ := v
    rw [untag_mk]
    cases n with
    | arrayLiteral items =>
      exact ((mapM_insert hgrows.linked items).mono hgrows.size_le).imp
        fun _ _ _ _ hroots => hroots.mono hgrows.size_le
    | _ => exact .throw hgrows.linked _
  · rw [element, Folding.element]
    · refine Follows.bind ((h t t.self_mem_subtrees).plants hf) (Nat.le_refl _) ?_
      intro f₁ id s hgrows hroot
      exact .pure hgrows.linked (.singleton hroot)
    all_goals
      rintro tag expression rfl
      exact hkind rfl

lemma array_plants (hf : f.Linked) {elements : List Term}
    (h : ∀ t ∈ elements, ∀ s ∈ t.subtrees, Flattens go flat f s) :
    (array go elements).Plants f (Folding.array flat elements) := by
  have hparts := Follows.mapM_flatten (g := element go) (p := Folding.element flat) hf
    fun t ht f' hgrows => element_follows hgrows.linked fun s hs => (h t ht s hs).grow hgrows
  refine Follows.bind hparts (Nat.le_refl _) ?_
  intro f₁ idss tss hgrows hroots
  exact .plant (.arrayLiteral idss.flatten) hgrows.linked hgrows.size_le hroots

/-- The nodes of an entry. -/
def Entry.ids : Entry → List NodeId
  | .named _ value => [value]
  | .computed name value => [name, value]
  | .verbatim node => [node]

/-- An entry of the forest shows a piece. -/
inductive EntryShows (f : Forest) (m : Nat) : Entry → Folding.Piece → Prop
  | named {key value t} (hvalue : f.Root m value t) :
    EntryShows f m (.named key value) (.named key t)
  | computed {name value n t} (hname : f.Root m name n)
    (hvalue : f.Root m value t) : EntryShows f m (.computed name value) (.computed n t)
  | verbatim {node t} (hnode : f.Root m node t) : EntryShows f m (.verbatim node) (.verbatim t)

/-- The entries show the pieces and share no nodes. -/
structure EntriesShow (f : Forest) (m : Nat) (entries : List Entry) (pieces : List Folding.Piece) :
    Prop where
  shows : List.Forall₂ (EntryShows f m) entries pieces
  nodup : (entries.flatMap Entry.ids).Nodup

lemma EntryShows.mono (h : EntryShows f k e p) (hm : m ≤ k) : EntryShows f m e p := by
  cases h with
  | named hvalue => exact .named (hvalue.mono hm)
  | computed hname hvalue => exact .computed (hname.mono hm) (hvalue.mono hm)
  | verbatim hnode => exact .verbatim (hnode.mono hm)

lemma EntryShows.of_roots (h : EntryShows f m e p)
    (hroots : ∀ i ∈ e.ids, ∀ t, f.Root m i t → f'.Root m i t) : EntryShows f' m e p := by
  cases h with
  | named hvalue => exact .named (hroots _ (by simp [Entry.ids]) _ hvalue)
  | computed hname hvalue =>
    exact .computed (hroots _ (by simp [Entry.ids]) _ hname)
      (hroots _ (by simp [Entry.ids]) _ hvalue)
  | verbatim hnode => exact .verbatim (hroots _ (by simp [Entry.ids]) _ hnode)

lemma EntryShows.exists_root (h : EntryShows f m e p) (hi : i ∈ e.ids) : ∃ t, f.Root m i t := by
  cases h with
  | named hvalue => exact ⟨_, mem_singleton.mp hi ▸ hvalue⟩
  | computed hname hvalue =>
    obtain rfl | hi := mem_cons.mp hi
    · exact ⟨_, hname⟩
    · exact ⟨_, mem_singleton.mp hi ▸ hvalue⟩
  | verbatim hnode => exact ⟨_, mem_singleton.mp hi ▸ hnode⟩

namespace EntriesShow

variable {entries : List Entry} {pieces : List Folding.Piece}

lemma nil (f : Forest) (m : Nat) : EntriesShow f m [] [] := ⟨.nil, .nil⟩

variable (h : EntriesShow f m entries pieces)
include h

lemma exists_root (hi : i ∈ entries.flatMap Entry.ids) : ∃ t, f.Root m i t := by
  have hshows := h.shows
  clear h
  induction hshows with
  | nil => cases hi
  | cons he hshows ih =>
    rw [flatMap_cons] at hi
    obtain hi | hi := mem_append.mp hi
    · exact he.exists_root hi
    · exact ih hi

lemma below : ∀ i ∈ entries.flatMap Entry.ids, i < f.size := by
  intro i hi
  obtain ⟨t, hroot⟩ := h.exists_root hi
  exact hroot.lt_size

lemma of_roots (hroots : ∀ i ∈ entries.flatMap Entry.ids, ∀ t, f.Root m i t → f'.Root m i t) :
    EntriesShow f' m entries pieces := by
  refine ⟨?_, h.nodup⟩
  have hshows := h.shows
  clear h
  induction hshows with
  | nil => exact .nil
  | cons he hshows ih =>
    refine .cons (he.of_roots fun i hi => hroots i ?_) (ih fun i hi => hroots i ?_)
    · exact mem_append_left _ hi
    · exact mem_append_right _ hi

lemma grow (hf : f.Linked) (hg : f.Grows f.size f') : EntriesShow f' m entries pieces :=
  h.of_roots fun _ _ _ hroot => hroot.grow hf hg

lemma snoc (hbelow : ∀ i ∈ entries.flatMap Entry.ids, i < k) (he : EntryShows f k e p)
    (hids : e.ids.Nodup) (hm : m ≤ k) : EntriesShow f m (entries ++ [e]) (pieces ++ [p]) := by
  refine ⟨rel_append h.shows (.cons (he.mono hm) .nil), ?_⟩
  rw [flatMap_append, nodup_append]
  refine ⟨h.nodup, by simpa using hids, fun a ha b hb => ?_⟩
  obtain ⟨t, hroot⟩ := he.exists_root (i := b) (by simpa using hb)
  exact Nat.ne_of_lt (Nat.lt_of_lt_of_le (hbelow a ha) hroot.le)

omit h

variable {key : String} {value : NodeId}

lemma shows_put {t : SyntaxTree} (h : Forall₂ (EntryShows f m) entries pieces)
    (hvalue : f.Root m value t) :
    Forall₂ (EntryShows f m) (putEntry key value entries) (Folding.putPiece key t pieces) := by
  induction h with
  | nil => exact .cons (.named hvalue) .nil
  | cons he hshows ih =>
    cases he with
    | @named k v s hv =>
      rw [putEntry, Folding.putPiece]
      by_cases hkey : k = key
      · rw [if_pos hkey, if_pos hkey]
        exact .cons (.named hvalue) hshows
      · rw [if_neg hkey, if_neg hkey]
        exact .cons (.named hv) ih
    | computed hn hv => exact .cons (.computed hn hv) ih
    | verbatim hn => exact .cons (.verbatim hn) ih

lemma ids_putEntry {i : NodeId} (hi : i ∈ (putEntry key value entries).flatMap Entry.ids) :
    i = value ∨ i ∈ entries.flatMap Entry.ids := by
  induction entries with
  | nil => exact .inl (by simpa [putEntry, Entry.ids] using hi)
  | cons e entries ih =>
    cases e with
    | named k v =>
      rw [putEntry] at hi
      split_ifs at hi with hkey <;> simp only [flatMap_cons, Entry.ids, mem_append,
        mem_singleton] at hi ⊢ <;> grind
    | _ =>
      simp only [putEntry, flatMap_cons, mem_append] at hi ⊢
      grind

lemma nodup_put (h : (entries.flatMap Entry.ids).Nodup)
    (hvalue : value ∉ entries.flatMap Entry.ids) :
    ((putEntry key value entries).flatMap Entry.ids).Nodup := by
  induction entries with
  | nil => simp [putEntry, Entry.ids]
  | cons e entries ih =>
    rw [flatMap_cons, nodup_append] at h
    rw [flatMap_cons, mem_append, not_or] at hvalue
    obtain ⟨hids, hrest, hdisjoint⟩ := h
    have hstay : (e.ids ++ (putEntry key value entries).flatMap Entry.ids).Nodup := by
      refine nodup_append.mpr ⟨hids, ih hrest hvalue.2, fun a ha b hb hab => ?_⟩
      obtain rfl | hb := ids_putEntry hb
      · exact hvalue.1 (hab ▸ ha)
      · exact hdisjoint a ha b hb hab
    cases e with
    | named k v =>
      rw [putEntry]
      split_ifs with hkey
      · exact nodup_cons.mpr ⟨hvalue.2, hrest⟩
      · exact hstay
    | _ => exact hstay

lemma put (h : EntriesShow f m entries pieces) {value : Nat} {t : SyntaxTree} (key : String)
    (hbelow : ∀ i ∈ entries.flatMap Entry.ids, i < k) (hvalue : f.Root k value t) (hm : m ≤ k) :
    EntriesShow f m (putEntry key value entries) (Folding.putPiece key t pieces) := by
  refine ⟨shows_put h.shows (hvalue.mono hm), nodup_put h.nodup fun hmem => ?_⟩
  exact Nat.lt_irrefl _ (Nat.lt_of_lt_of_le (hbelow value hmem) hvalue.le)

end EntriesShow

section Properties

variable {entries : List Entry} {pieces : List Folding.Piece} {name value : Term} {tag : NodeId}

lemma propertyName_of_ne (h : name.kind ≠ .computedPropertyName) :
    propertyName go name = pure name.tag := by
  obtain ⟨tag, n⟩ := name
  cases n with
  | computedPropertyName expression => exact absurd rfl h
  | _ => rfl

lemma pieces_of_ne (h : name.kind ≠ .computedPropertyName) :
    Folding.pieces flat (.mk tag (.propertyAssignment name value)) = (do
      let value ← flat value
      match name.staticKey? with
      | some key => pure [.named key value]
      | none => throw (.alreadyAttached name.tag tag)) := by
  obtain ⟨tag', n⟩ := name
  cases n with
  | computedPropertyName expression => exact absurd rfl h
  | _ => rfl

variable (hf : f.Linked) (hm : m ≤ f.size) (h : EntriesShow f m entries pieces)
include hf hm h

lemma verbatim_follows (t : Term) :
    (do pure (entries ++ [Entry.verbatim (← insert t)]) : Build _).Follows f f.size
      (.ok (pieces ++ [.verbatim t.untag]))
      fun f' entries pieces => EntriesShow f' m entries pieces := by
  refine (plants_insert t hf).step (Nat.le_refl _) ?_
  intro f₁ id hgrows hroot
  refine .pure hgrows.linked ?_
  exact (h.grow hf hgrows).snoc h.below (.verbatim hroot) (by simp [Entry.ids]) hm

lemma spliced_follows (t : Term) :
    (spliced entries t).Follows f f.size (.ok (Folding.place pieces (Folding.splice t.untag)))
      fun f' entries pieces => EntriesShow f' m entries pieces := by
  have hverbatim := verbatim_follows hf hm h t
  obtain ⟨tag, n⟩ := t
  cases n with
  | propertyAssignment name value =>
    refine (plants_insert value hf).step (Nat.le_refl _) ?_
    intro f₁ id hgrows hroot
    rw [untag_mk, Node.map, Folding.splice, staticKey?_untag]
    have hshow := h.grow hf hgrows
    cases name.staticKey? with
    | some key => exact .pure hgrows.linked (hshow.put key h.below hroot hm)
    | none =>
      refine (plants_insert name hgrows.linked).step hgrows.size_le ?_
      intro f₂ id' hgrows' hroot'
      have hne : id' ≠ id := Nat.ne_of_gt (Nat.lt_of_lt_of_le hroot.lt_size hroot'.le)
      refine .pure hgrows'.linked ?_
      exact (hshow.grow hgrows.linked hgrows').snoc h.below
        (.computed (hroot'.mono hgrows.size_le) (hroot.grow hgrows.linked hgrows'))
        (by simpa [Entry.ids] using hne) hm
  | _ =>
    rw [untag_mk] at hverbatim ⊢
    exact hverbatim

lemma foldlM_spliced_follows (properties : List Term) :
    (properties.foldlM spliced entries).Follows f f.size
      (.ok (((properties.map untag).map Folding.splice).foldl Folding.place pieces))
      fun f' entries pieces => EntriesShow f' m entries pieces := by
  have hpure : properties.foldlM
      (fun ps t => (.ok (Folding.place ps (Folding.splice t.untag)) : Except NodeError _)) pieces =
      .ok (((properties.map untag).map Folding.splice).foldl Folding.place pieces) := by
    rw [map_map, foldl_map]
    exact foldlM_pure
  rw [← hpure]
  apply Follows.foldlM hf h
  intro t _ f' entries pieces hgrows hshow
  exact spliced_follows hgrows.linked (Nat.le_trans hm hgrows.size_le) hshow t

lemma computed_follows {tag' : NodeId} {expression : Term}
    (hexpression : Flattens go flat f expression) (hvalue : Flattens go flat f value) :
    (property go entries (.mk tag (.propertyAssignment
      (.mk tag' (.computedPropertyName expression)) value))).Follows f f.size
      (Folding.pieces flat (.mk tag (.propertyAssignment
        (.mk tag' (.computedPropertyName expression)) value)) >>= fun ps =>
          .ok (ps.foldl Folding.place pieces))
      fun f' entries pieces => EntriesShow f' m entries pieces := by
  simp only [Folding.pieces, bind_assoc, pure_bind]
  refine Follows.bind (hvalue.plants hf) (Nat.le_refl _) ?_
  intro f₁ id t hgrows hroot
  refine Follows.bind ((hexpression.grow hgrows).plants hgrows.linked) hgrows.size_le ?_
  intro f₂ id' n hgrows' hroot'
  obtain ⟨v, hview, rfl⟩ := exists_view?_of_root hroot'
  refine .read (run_view hview) ?_
  have hshow := (h.grow hf hgrows).grow hgrows.linked hgrows'
  have hkeep := hroot.grow hgrows.linked hgrows'
  simp only [Folding.keyed, staticKey?_untag]
  cases v.staticKey? with
  | some key => exact .pure hgrows'.linked (hshow.put key h.below hkeep hm)
  | none =>
    -- The name is new since `f₁`, so the entries and the value are below what is attached.
    refine (Follows.plant (.computedPropertyName id') hgrows'.linked hgrows'.size_le
      (.singleton hroot')).step hgrows.size_le ?_
    intro f₃ name hgrows'' hname
    have hne : name ≠ id := Nat.ne_of_gt (Nat.lt_of_lt_of_le hroot.lt_size hname.le)
    refine .pure hgrows''.linked ?_
    refine (hshow.of_roots fun i hi t hi' => hi'.stay hgrows'.linked hgrows'' ?_).snoc h.below
      (.computed (hname.mono hgrows.size_le) (hkeep.stay hgrows'.linked hgrows'' hroot.lt_size))
      (by simpa [Entry.ids] using hne) hm
    exact Nat.lt_of_lt_of_le (h.below i hi) hgrows.size_le

lemma property_follows (ht : f.Shows t) (hgo : ∀ s ∈ t.subtrees, Flattens go flat f s) :
    (property go entries t).Follows f f.size
      (Folding.pieces flat t >>= fun ps => .ok (ps.foldl Folding.place pieces))
      fun f' entries pieces => EntriesShow f' m entries pieces := by
  have hverbatim := verbatim_follows hf hm h t
  obtain ⟨tag, n⟩ := t
  have hchild : ∀ s ∈ n.children, Flattens go flat f s := fun s hs =>
    hgo s (child_mem_subtrees hs)
  cases n with
  | propertyAssignment name value =>
    have hvalue := hchild value (by simp)
    obtain ⟨tag', expression, rfl⟩ | hkind := computedPropertyName_cases name
    · refine computed_follows hf hm h (hgo expression ?_) hvalue
      apply mem_subtrees_of_child (c := .mk tag' (.computedPropertyName expression))
      · simp
      · exact child_mem_subtrees
    · obtain ⟨hname, hparent⟩ := hf.shows_child ht (c := name) (by simp)
      rw [pieces_of_ne hkind, property, propertyName_of_ne hkind, bind_assoc]
      refine Follows.bind (hvalue.plants hf) (Nat.le_refl _) ?_
      intro f₁ id t hgrows hroot
      rw [pure_bind]
      refine .read (run_view (hgrows.shows hf hname)) ?_
      cases name.staticKey? with
      | some key => exact .pure hgrows.linked ((h.grow hf hgrows).put key h.below hroot hm)
      | none =>
        refine ⟨_, .refl hgrows.linked _, run_bind_error (run_add_of_attached rfl ?_)⟩
        rw [parent?, hgrows.entries_eq _ (lt_size_of_view? hname)]
        exact hparent
  | spreadAssignment expression =>
    rw [property, Folding.pieces, bind_assoc]
    refine Follows.bind ((hchild expression (by simp)).plants hf) (Nat.le_refl _) ?_
    intro f₁ id s hgrows hroot
    obtain ⟨v, hview, rfl⟩ := exists_view?_of_root hroot
    refine .read (run_view hview) ?_
    obtain ⟨tag', n⟩ := v
    rw [untag_mk]
    cases n with
    | objectLiteral properties =>
      exact (foldlM_spliced_follows hgrows.linked (Nat.le_trans hm hgrows.size_le)
        (h.grow hf hgrows) properties).mono hgrows.size_le
    | _ => exact .throw hgrows.linked _
  | _ => exact hverbatim

end Properties

lemma refill_keyNode (key : String) :
    (Constant.keyNode key : Node NodeId).refill leaf [] = Constant.keyNode key := by
  unfold Constant.keyNode
  split_ifs <;> rfl

variable {C : Type} {s : Folding.Text} {id : NodeId}

lemma children_keyNode (key : String) : (Constant.keyNode key : Node C).children = [] := by
  unfold Constant.keyNode
  split_ifs <;> rfl

lemma addEntry_follows (hf : f.Linked) (hm : m ≤ f.size) (h : EntryShows f m e p)
    (hids : e.ids.Nodup) : (addEntry e).Follows f m (.ok p.tree) fun f' id t =>
      (id ∈ e.ids ∨ f.size ≤ id) ∧ f'.Root m id t ∧
        ∀ {i s}, i ∉ e.ids → f.Root m i s → f'.Root m i s := by
  cases h with
  | @named key value t hvalue =>
    have hname := Follows.plant (Constant.keyNode key) hf (Nat.le_refl f.size)
      (by rw [children_keyNode]; exact .nil f f.size)
    rw [refill_keyNode] at hname
    refine hname.step hm ?_
    intro f₁ name hgrows hname
    have hkeep := hvalue.grow hf hgrows
    have hroots : f₁.Roots m [name, value] [.mk () (Constant.keyNode key), t] :=
      (Roots.singleton hkeep).cons (k := f.size) (by simpa using hvalue.lt_size) hname hm
    refine (Follows.add (.propertyAssignment name value) hgrows.linked
      (Nat.le_trans hm hgrows.size_le) hroots).imp ?_
    rintro f₂ id s hgrows' ⟨rfl, hroot, hkept⟩
    refine ⟨.inr hgrows.size_le, hroot, fun hi hs => hkept ?_ (hs.grow hf hgrows)⟩
    have hne : _ ≠ name := Nat.ne_of_lt (Nat.lt_of_lt_of_le hs.lt_size hname.le)
    simpa [hne, Entry.ids] using hi
  | @computed name value n t hname hvalue =>
    have hroots : f.Roots m [name, value] [n, t] := ⟨.cons hname (.cons hvalue .nil), hids⟩
    refine (Follows.add (.propertyAssignment name value) hf hm hroots).imp ?_
    rintro f₁ id s hgrows ⟨rfl, hroot, hkept⟩
    exact ⟨.inr (Nat.le_refl _), hroot, hkept⟩
  | @verbatim node t hnode =>
    exact .pure hf ⟨.inl (by simp [Entry.ids]), hnode, fun _ hs => hs⟩

lemma mapM_addEntry_follows {entries : List Entry} {pieces : List Folding.Piece} {ids : List NodeId}
    (hf : f.Linked) (hm : m ≤ f.size) (h : EntriesShow f m entries pieces)
    (hroots : f.Roots m ids ts) (hids : ∀ i ∈ ids, i ∉ entries.flatMap Entry.ids) :
    (entries.mapM addEntry).Follows f m (.ok (pieces.map Folding.Piece.tree))
      fun f' new ss => f'.Roots m (ids ++ new) (ts ++ ss) := by
  induction entries generalizing f pieces ids ts with
  | nil =>
    obtain ⟨⟨⟩, -⟩ := h
    exact .pure hf (by simpa using hroots)
  | cons e entries ih =>
    obtain ⟨hshows, hnodup⟩ := h
    cases hshows with
    | @cons _ p _ pieces he hrest =>
      rw [flatMap_cons, nodup_append] at hnodup
      obtain ⟨heids, hnodup, hdisjoint⟩ := hnodup
      rw [mapM_cons]
      refine (addEntry_follows hf hm he heids).step (Nat.le_refl _) ?_
      rintro f₁ id hgrows ⟨hid, hroot, hkept⟩
      have hentries : EntriesShow f m entries pieces := ⟨hrest, hnodup⟩
      have hother : ∀ i ∈ entries.flatMap Entry.ids, i ∉ e.ids := fun i hi hmem =>
        hdisjoint i hmem i hi rfl
      have hnew : id ∉ ids ∧ id ∉ entries.flatMap Entry.ids := by
        obtain hid | hle := hid
        · exact ⟨fun hmem => hids id hmem (mem_append_left _ hid), fun hmem => hother id hmem hid⟩
        · exact ⟨fun hmem => Nat.not_le_of_gt (hroots.below id hmem) hle,
            fun hmem => Nat.not_le_of_gt (hentries.below id hmem) hle⟩
      have hentries' := hentries.of_roots fun i hi t hi' => hkept (hother i hi) hi'
      have hids' : f₁.Roots m ids ts := hroots.of_roots fun i hi t hi' =>
        hkept (fun hmem => hids i hi (mem_append_left _ hmem)) hi'
      have hroots' : f₁.Roots m (ids ++ [id]) (ts ++ [p.tree]) := by
        refine ⟨rel_append hids'.roots (.cons hroot .nil), nodup_append.mpr ?_⟩
        refine ⟨hroots.nodup, by simp, fun a ha b hb hab => hnew.1 ?_⟩
        rwa [← mem_singleton.mp hb, ← hab]
      refine (ih hgrows.linked (Nat.le_trans hm hgrows.size_le) hentries' hroots' ?_).step
        (Nat.le_refl _) ?_
      · intro i hi hmem
        obtain hi | hi := mem_append.mp hi
        · exact hids i hi (mem_append_right _ hmem)
        · exact hnew.2 (mem_singleton.mp hi ▸ hmem)
      · intro f₂ new hgrows' hnew
        exact .pure hgrows'.linked (by simpa using hnew)

lemma foldlM_place (properties : List Term) (pieces : List Folding.Piece) :
    properties.foldlM (fun ps t => Folding.pieces flat t >>= fun new =>
      (.ok (new.foldl Folding.place ps) : Except NodeError _)) pieces =
      properties.mapM (Folding.pieces flat) >>= fun parts =>
        .ok (parts.flatten.foldl Folding.place pieces) := by
  induction properties generalizing pieces with
  | nil => rfl
  | cons t properties ih =>
    rw [foldlM_cons, mapM_cons]
    cases Folding.pieces flat t with
    | error e => rfl
    | ok new =>
      change foldlM _ (new.foldl Folding.place pieces) properties = _
      rw [ih]
      cases properties.mapM (Folding.pieces flat) with
      | error e => rfl
      | ok parts =>
        change Except.ok _ = Except.ok _
        rw [flatten_cons, foldl_append]

lemma object_plants (hf : f.Linked) {properties : List Term}
    (hshows : ∀ t ∈ properties, f.Shows t)
    (h : ∀ t ∈ properties, ∀ s ∈ t.subtrees, Flattens go flat f s) :
    (object go properties).Plants f (Folding.object flat properties) := by
  have hentries : (properties.foldlM (property go) []).Follows f f.size
      (properties.foldlM (fun ps t => Folding.pieces flat t >>= fun new =>
        .ok (new.foldl Folding.place ps)) [])
      fun f' entries pieces => EntriesShow f' f.size entries pieces := by
    apply Follows.foldlM hf (.nil f f.size)
    intro t ht f' entries pieces hgrows hshow
    exact property_follows hgrows.linked hgrows.size_le hshow (hgrows.shows hf (hshows t ht))
      fun s hs => (h t ht s hs).grow hgrows
  rw [foldlM_place] at hentries
  have hobject : Folding.object flat properties =
      (properties.mapM (Folding.pieces flat) >>= fun parts =>
        .ok (parts.flatten.foldl Folding.place [])) >>= fun pieces =>
          .ok (.mk () (.objectLiteral (pieces.map Folding.Piece.tree))) := by
    rw [bind_assoc]
    rfl
  rw [hobject]
  refine Follows.bind hentries (Nat.le_refl _) ?_
  intro f₁ entries pieces hgrows hshow
  refine (mapM_addEntry_follows hgrows.linked hgrows.size_le hshow (.nil f₁ f.size)
    (fun i hi => absurd hi not_mem_nil)).step (Nat.le_refl _) ?_
  intro f₂ ids hgrows' hroots
  exact .plant (.objectLiteral ids) hgrows'.linked
    (Nat.le_trans hgrows.size_le hgrows'.size_le) hroots

/-- Text under construction in a forest, and the same text on trees. -/
structure TextShows (f : Forest) (m : Nat) (t : TemplateText) (s : Folding.Text) : Prop where
  head : t.head = s.head
  literals : t.spans.map (·.literal) = s.spans.map (·.literal)
  roots : f.Roots m (t.spans.map (·.expression)) (s.spans.map (·.expression))

lemma TextShows.append {t : TemplateText} (h : TextShows f m t s) (text : String) :
    TextShows f m (t.append text) (s.append text) := by
  obtain ⟨head, spans⟩ := t
  obtain ⟨head', spans'⟩ := s
  obtain ⟨rfl, hliterals, hroots⟩ := h
  cases spans with
  | nil =>
    cases spans' with
    | nil => exact ⟨rfl, rfl, hroots⟩
    | cons s spans' => cases hliterals
  | cons t spans =>
    cases spans' with
    | nil => cases hliterals
    | cons s spans' =>
      rw [map_cons, map_cons, cons.injEq] at hliterals
      refine ⟨rfl, ?_, hroots⟩
      simp only [TemplateText.append, Folding.Text.append, map_cons, hliterals]

lemma span_follows (hf : f.Linked) (hm : m ≤ f.size) {t : TemplateText} (h : TextShows f m t s)
    {sp : Span Term} (hgo : Flattens go flat f sp.expression) :
    (span go t sp).Follows f f.size (Folding.span flat s sp) fun f' t s => TextShows f' m t s := by
  refine Follows.bind (hgo.plants hf) (Nat.le_refl _) ?_
  intro f₁ id part hgrows hroot
  obtain ⟨v, hview, rfl⟩ := exists_view?_of_root hroot
  refine .read (run_view hview) ?_
  have hshow : TextShows f₁ m t s := ⟨h.head, h.literals, h.roots.grow hf hgrows⟩
  rw [constant?_untag]
  cases v.constant? noReferences with
  | some value => exact .pure hgrows.linked (hshow.append _)
  | none =>
    refine .pure hgrows.linked ⟨h.head, ?_, ?_⟩
    · rw [map_cons, map_cons, h.literals]
    · exact hshow.roots.cons h.roots.below hroot hm

lemma refillSpans_of_literals {spans : List (Span C)} {spans' : List (Span SyntaxTree)}
    (h : spans.map (·.literal) = spans'.map (·.literal)) :
    Node.refillSpans spans (spans'.map (·.expression)) = spans' := by
  induction spans generalizing spans' with
  | nil =>
    cases spans' with
    | nil => rfl
    | cons s spans' => cases h
  | cons s spans ih =>
    cases spans' with
    | nil => cases h
    | cons s' spans' =>
      rw [map_cons, map_cons, cons.injEq] at h
      simp only [map_cons, Node.refillSpans, ih h.2, h.1]

lemma template_plants (hf : f.Linked) {head : String} {spans : List (Span Term)}
    (h : ∀ s ∈ spans, Flattens go flat f s.expression) :
    (template go head spans).Plants f (Folding.template flat head spans) := by
  have hstart : TextShows f f.size ⟨head, []⟩ ⟨head, []⟩ := ⟨rfl, rfl, .nil f f.size⟩
  have htext : (spans.foldlM (span go) ⟨head, []⟩).Follows f f.size
      (spans.foldlM (Folding.span flat) ⟨head, []⟩) fun f' t s => TextShows f' f.size t s := by
    apply Follows.foldlM hf hstart
    intro s hs f' t s' hgrows hshow
    exact span_follows hgrows.linked hgrows.size_le hshow ((h s hs).grow hgrows)
  refine Follows.bind htext (Nat.le_refl _) ?_
  rintro f₁ ⟨head', spans'⟩ ⟨head'', trees⟩ hgrows ⟨rfl, hliterals, hroots⟩
  have hempty : trees.isEmpty = spans'.isEmpty := by
    rw [← isEmpty_map (f := Span.literal), ← hliterals, isEmpty_map]
  simp only [Folding.Text.tree, hempty]
  split_ifs with hnil
  · exact .plant (.stringLiteral head') hgrows.linked hgrows.size_le (.nil f₁ f.size)
  · have hreverse : spans'.reverse.map (·.literal) = trees.reverse.map (·.literal) := by
      rw [map_reverse, hliterals, map_reverse]
    have hroots' := hroots.reverse
    rw [← map_reverse, ← map_reverse] at hroots'
    have hplant := Follows.plant (.templateExpr head' spans'.reverse) hgrows.linked
      hgrows.size_le hroots'
    rw [Node.refill, refillSpans_of_literals hreverse] at hplant
    exact hplant

/-- A member is found as a new root, or the forest stays as it is. -/
inductive Found (f f' : Forest) : Option NodeId → Option SyntaxTree → Prop
  | none (same : f' = f) : Found f f' none none
  | some {id : NodeId} {t : SyntaxTree} (root : f'.Root f.size id t) : Found f f' (some id) (some t)

lemma member?_follows (hf : f.Linked) {access base : NodeId} {t : SyntaxTree}
    (hroot : f.Root m base t) (key : MemberKey) :
    (member? access base key).Follows f f.size (Folding.member? access t key) (Found f) := by
  obtain ⟨v, hview, rfl⟩ := exists_view?_of_root hroot
  refine .read (run_view hview) ?_
  unfold Folding.member?
  rw [lookup_untag]
  cases lookup v key with
  | found value =>
    simp only [Lookup.map, map_eq_pure_bind]
    refine (plants_insert value hf).step (Nat.le_refl _) ?_
    intro f₁ id hgrows hroot
    exact .pure hgrows.linked (.some hroot)
  | count n =>
    simp only [Lookup.map, map_eq_pure_bind]
    refine (Follows.plant (.numberLiteral (Double.ofNat n)) hf (Nat.le_refl _)
      (.nil f f.size)).step (Nat.le_refl _) ?_
    intro f₁ id hgrows hroot
    exact .pure hgrows.linked (.some hroot)
  | unknown => exact .pure hf (.none rfl)
  | missing property | fault fault => exact .throw hf _

lemma access_follows {x : Build (Option NodeId)} {p : Except NodeError (Option SyntaxTree)}
    (hf : f.Linked) (hm : m ≤ f.size) (hx : x.Follows f f.size p (Found f)) (node : Node NodeId)
    (hnode : f.Roots m node.children ts) :
    (x >>= fun found => match found with
      | some found => pure found
      | none => add node).Follows f m
      (p >>= fun found => .ok (found.getD (.mk () (node.refill .leaf ts))))
      fun f' id t => f'.Root m id t := by
  refine Follows.bind hx hm ?_
  intro f₁ found t hgrows hfound
  cases hfound with
  | none same =>
    subst same
    exact .plant node hf hm hnode
  | some hroot => exact .pure hgrows.linked (hroot.mono hm)

lemma callee_plants (hf : f.Linked) (h : ∀ s ∈ t.subtrees, Flattens go flat f s) :
    (callee go t).Plants f (Folding.callee flat t) := by
  have hself := (h t t.self_mem_subtrees).plants hf
  obtain ⟨tag, n⟩ := t
  cases n with
  | propertyAccess expression name chained =>
    have he := h expression child_mem_subtrees
    refine Follows.bind (he.plants hf) (Nat.le_refl _) ?_
    intro f₁ id s hgrows hroot
    exact .plant (.propertyAccess id name chained) hgrows.linked hgrows.size_le (.singleton hroot)
  | _ => exact hself

lemma signed_plants (hf : f.Linked) (hm : m ≤ f.size) {t : SyntaxTree} (hroot : f.Root m id t)
    (operator : UnaryOp) : (Build.node id >>= fun n => match operator, n with
      | .neg, .numberLiteral value => Build.add (.numberLiteral (-value))
      | operator, _ => Build.add (.unaryExpr operator id)).Follows f m
      (.ok (Folding.signed operator t)) fun f' id t => f'.Root m id t := by
  obtain ⟨v, hview, rfl⟩ := exists_view?_of_root hroot
  have hnode := hf.node?_of_shows (hf.shows_of_view? hview)
  rw [hf.tag_of_view? hview] at hnode
  refine .read (by rw [run_node_eq, hnode]) ?_
  have hunary := Follows.plant (.unaryExpr operator id) hf hm (.singleton hroot)
  obtain ⟨tag, n⟩ := v
  rw [untag_mk] at hunary ⊢
  cases operator with
  | neg =>
    cases n with
    | numberLiteral value => exact .plant (.numberLiteral (-value)) hf hm (.nil f m)
    | _ => exact hunary
  | _ => exact hunary

/-- The nodes bound in a scope show the trees bound there. -/
structure ScopeShows (f : Forest) (scope : Scope) (trees : Folding.Scope) : Prop where
  bound : ∀ {name id}, scope.get? name = some id → ∃ t, f.tree? id = some t ∧ trees name = some t
  free : ∀ {name}, scope.get? name = none → trees name = none

lemma node_plants (hf : f.Linked) (hscope : ScopeShows f scope trees) (ht : f.Shows t)
    (h : ∀ s ∈ t.descendants, Flattens go flat f s) :
    (node scope go t).Plants f (Folding.node flat trees t) := by
  obtain ⟨tag, n⟩ := t
  have hchild : ∀ s ∈ n.children, Flattens go flat f s := fun s hs =>
    h s (child_mem_descendants hs)
  have hbelow : ∀ c ∈ n.children, ∀ s ∈ c.subtrees, Flattens go flat f s := fun c hc s hs =>
    h s (mem_descendants_of_child hc hs)
  have hinsert := plants_insert (.mk tag n) hf
  cases n with
  | identifier name =>
    simp only [node, Folding.node, Tree.node]
    cases hname : scope.get? name with
    | none =>
      rw [hscope.free hname]
      exact hinsert
    | some id =>
      obtain ⟨t, htree, htrees⟩ := hscope.bound hname
      obtain ⟨v, hview, rfl⟩ := Option.map_eq_some_iff.mp htree
      rw [htrees]
      exact .read (run_view hview) (plants_insert v hf)
  | propertyAccess expression name chained =>
    refine Follows.bind ((hchild expression (by simp)).plants hf) (Nat.le_refl _) ?_
    intro f₁ base t hgrows hroot
    exact access_follows hgrows.linked hgrows.size_le (member?_follows hgrows.linked hroot _)
      (.propertyAccess base name chained) (.singleton hroot)
  | elementAccess expression key chained =>
    refine Follows.bind ((hchild expression (by simp)).plants hf) (Nat.le_refl _) ?_
    intro f₁ base t hgrows hroot
    have hkey := (hchild key (by simp)).grow hgrows
    refine Follows.bind (hkey.plants hgrows.linked) hgrows.size_le ?_
    intro f₂ id s hgrows' hroot'
    obtain ⟨v, hview, rfl⟩ := exists_view?_of_root hroot'
    refine .read (run_view hview) ?_
    have hbase := hroot.grow hgrows.linked hgrows'
    have hle := Nat.le_trans hgrows.size_le hgrows'.size_le
    have hroots : f₂.Roots f.size [base, id] [t, v.untag] :=
      (Roots.singleton hbase).append (k := f₁.size) (by simpa using hroot.lt_size)
        (.singleton hroot') hgrows.size_le
    rw [Folding.elementMember?, MemberKey.of?_untag]
    cases MemberKey.of? v with
    | some memberKey =>
      exact access_follows hgrows'.linked hle (member?_follows hgrows'.linked hbase memberKey)
        (.elementAccess base id chained) hroots
    | none =>
      exact access_follows hgrows'.linked hle (.pure hgrows'.linked (.none rfl))
        (.elementAccess base id chained) hroots
  | arrayLiteral elements => exact array_plants hf hbelow
  | objectLiteral properties =>
    exact object_plants hf (fun t ht' => (hf.shows_child ht ht').1) hbelow
  | templateExpr head spans =>
    exact template_plants hf fun s hs => hchild s.expression (mem_map_of_mem hs)
  | unaryExpr operator operand =>
    refine Follows.bind ((hchild operand (by simp)).plants hf) (Nat.le_refl _) ?_
    intro f₁ id s hgrows hroot
    exact signed_plants hgrows.linked hgrows.size_le hroot operator
  | callExpr function arguments =>
    refine Follows.bind (callee_plants hf (hbelow function (by simp))) (Nat.le_refl _) ?_
    intro f₁ id s hgrows hroot
    have harguments := Follows.mapM (p := flat) hgrows.linked fun t ht f' hf' =>
      ((hchild t (mem_cons_of_mem function ht)).grow hgrows) f' hf'
    refine Follows.bind harguments hgrows.size_le ?_
    rintro f₂ ids ss hgrows' ⟨hroots, -⟩
    have hall := (Roots.singleton (hroot.grow hgrows.linked hgrows')).append (k := f₁.size)
      (by simpa using hroot.lt_size) hroots hgrows.size_le
    exact .plant (.callExpr id ids) hgrows'.linked
      (Nat.le_trans hgrows.size_le hgrows'.size_le) hall
  | arrowFunction parameters body | functionDecl name parameters body => exact hinsert
  | _ =>
    exact Follows.mapNode hf fun c hc f' hgrows =>
      ((hchild c hc).grow hgrows).plants hgrows.linked

lemma ScopeShows.grow (h : ScopeShows f scope trees) (hf : f.Linked) (hg : f.Grows m f') :
    ScopeShows f' scope trees := by
  refine ⟨fun hname => ?_, h.free⟩
  obtain ⟨t, htree, htrees⟩ := h.bound hname
  exact ⟨t, by rw [hg.tree?_eq hf (lt_size_of_tree? htree), htree], htrees⟩

lemma term_plants (fuel : Nat) (hf : f.Linked) (hscope : ScopeShows f scope trees)
    (ht : f.Shows t) : (term scope fuel t).Plants f (Folding.term trees fuel t) := by
  induction fuel generalizing f t with
  | zero => exact .throw hf _
  | succ fuel ih =>
    apply node_plants hf hscope ht
    intro s hs f' hgrows
    exact ih hgrows.linked (hscope.grow hf hgrows) (hgrows.shows hf (hf.shows_of_descendant ht hs))

/-- Flattening in a forest plants what flattening on trees gives. -/
theorem expression_plants (hf : f.Linked) (hscope : ScopeShows f scope trees)
    (ht : f.view? id = some t) : (expression scope id).Plants f (Folding.flat trees t) :=
  .read (run_view ht) (term_plants t.size hf hscope (hf.shows_of_view? ht))

lemma expression_cases {result : Except NodeError NodeId} (hf : f.Linked)
    (hscope : ScopeShows f scope trees) (ht : f.view? id = some t)
    (hrun : (expression scope id).run f = (result, f')) : f.Grows f.size f' ∧
      ((∃ r s, result = .ok r ∧ Folding.flat trees t = .ok s ∧ f'.Root f.size r s) ∨
        ∃ e, result = .error e ∧ Folding.flat trees t = .error e) := by
  obtain ⟨f₁, hgrows, hplants⟩ := expression_plants hf hscope ht
  generalize Folding.flat trees t = flat at hplants
  cases flat with
  | ok s =>
    obtain ⟨r, hrun', hroot⟩ := hplants
    obtain ⟨rfl, rfl⟩ := Prod.mk.inj (hrun.symm.trans hrun')
    exact ⟨hgrows, .inl ⟨r, s, rfl, rfl, hroot⟩⟩
  | error e =>
    obtain ⟨rfl, rfl⟩ := Prod.mk.inj (hrun.symm.trans hplants)
    exact ⟨hgrows, .inr ⟨e, rfl, rfl⟩⟩

lemma scopeShows_nil : ScopeShows f [] fun _ => none where
  bound h := by cases h
  free _ := rfl

end ServiceFlow.Flatten
