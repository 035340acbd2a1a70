import Mathlib.Data.List.Induction
import ServiceFlow.Proofs.FlattenedTrees

/-!
# Merging the pieces of an object

A name that is written again takes its new value at its first place. This keeps what the pieces
write, unless a computed name of the same key stands in between.
-/

namespace ServiceFlow.Folding

open List
open Ordered (keys putAll)

variable {refs : References} {ps a b : List Piece} {key : String} {value : SyntaxTree}
  {ms : List Mark} {q : Piece} {w : Ordered Constant}

def Piece.write? (refs : References) : Piece → Option (String × Constant)
  | .named key value => (value.constant? refs).map (key, ·)
  | .computed name value => do pure (← name.nameKey? refs, ← value.constant? refs)
  | .verbatim _ => none

/-- A key that a piece writes, and whether the key is fixed. -/
structure Mark where
  key : String
  fixed : Bool
deriving DecidableEq, Repr

/-- The key that a piece writes. -/
def Piece.mark? (refs : References) : Piece → Option Mark
  | .named key _ => some ⟨key, true⟩
  | .computed name _ => (name.nameKey? refs).map (⟨·, false⟩)
  | .verbatim _ => none

def marks (refs : References) (ps : List Piece) : List Mark := ps.filterMap (Piece.mark? refs)

/-- No computed name stands between two fixed ones of its key. -/
def Unshadowed (ms : List Mark) : Prop :=
  ∀ mark ∈ ms, ¬[⟨mark.key, true⟩, ⟨mark.key, false⟩, ⟨mark.key, true⟩] <+ ms

instance (ms : List Mark) : Decidable (Unshadowed ms) :=
  inferInstanceAs (Decidable (∀ mark ∈ ms, ¬[_, _, _] <+ ms))

lemma Unshadowed.not_sublist (h : Unshadowed ms) (key : String) :
    ¬[⟨key, true⟩, ⟨key, false⟩, ⟨key, true⟩] <+ ms :=
  fun hsub => h ⟨key, true⟩ (hsub.subset mem_cons_self) hsub

lemma Unshadowed.sublist {ms' : List Mark} (h : Unshadowed ms) (hsub : ms' <+ ms) :
    Unshadowed ms' :=
  fun mark hmark hshadow => h mark (hsub.subset hmark) (hshadow.trans hsub)

/-- The key of a piece, if it is fixed. -/
def Piece.key? : Piece → Option String
  | .named key _ => some key
  | _ => none

def fixedKeys (ps : List Piece) : List String := ps.filterMap Piece.key?

lemma fixedKeys_append (a b : List Piece) : fixedKeys (a ++ b) = fixedKeys a ++ fixedKeys b :=
  filterMap_append

lemma marks_append (refs : References) (a b : List Piece) :
    marks refs (a ++ b) = marks refs a ++ marks refs b := filterMap_append

lemma putPiece_cases (key : String) (value : SyntaxTree) (ps : List Piece) :
    (key ∉ fixedKeys ps ∧ putPiece key value ps = ps ++ [.named key value]) ∨
      ∃ a old b, ps = a ++ .named key old :: b ∧
        putPiece key value ps = a ++ .named key value :: b := by
  induction ps with
  | nil => exact .inl ⟨by simp [fixedKeys], rfl⟩
  | cons p ps ih =>
    have hother : p.key? ≠ some key →
        putPiece key value (p :: ps) = p :: putPiece key value ps := by
      intro hp
      cases p with
      | named k v => exact if_neg fun hk => hp (congrArg some hk)
      | _ => rfl
    by_cases hp : p.key? = some key
    · cases p with
      | named k v =>
        cases hp
        exact .inr ⟨[], v, ps, rfl, if_pos rfl⟩
      | _ => cases hp
    · rw [hother hp]
      rcases ih with ⟨hnot, hput⟩ | ⟨a, old, b, rfl, hput⟩
      · refine .inl ⟨?_, by rw [hput, cons_append]⟩
        rw [fixedKeys, mem_filterMap]
        rintro ⟨q, hq, hkey⟩
        rcases mem_cons.mp hq with rfl | hq
        · exact hp hkey
        · exact hnot (mem_filterMap.mpr ⟨q, hq, hkey⟩)
      · exact .inr ⟨p :: a, old, b, rfl, by rw [hput, cons_append]⟩

lemma merge_append_singleton (ps : List Piece) (p : Piece) :
    merge (ps ++ [p]) = place (merge ps) p := foldl_append

lemma mem_place {p : Piece} (h : q ∈ place ps p) : q ∈ ps ∨ q = p := by
  cases p with
  | named key value =>
    rcases putPiece_cases key value ps with ⟨-, hput⟩ | ⟨a, old, b, rfl, hput⟩ <;>
      rw [place, hput] at h <;> simp at h ⊢ <;> tauto
  | _ => simpa [place] using h

lemma mem_of_mem_merge (h : q ∈ merge ps) : q ∈ ps := by
  induction ps using reverseRecOn with
  | nil => exact h
  | append_singleton ps p ih =>
    rw [merge_append_singleton] at h
    rcases mem_place h with hq | rfl
    · exact mem_append_left _ (ih hq)
    · simp

lemma nodup_fixedKeys_merge (ps : List Piece) : (fixedKeys (merge ps)).Nodup := by
  induction ps using reverseRecOn with
  | nil => exact .nil
  | append_singleton ps p ih =>
    rw [merge_append_singleton]
    cases p with
    | named key value =>
      rcases putPiece_cases key value (merge ps) with ⟨hnot, hput⟩ | ⟨a, old, b, hps, hput⟩
      · rw [place, hput, fixedKeys_append]
        exact nodup_append.mpr ⟨ih, by simp [fixedKeys, Piece.key?], fun k hk k' hk' heq =>
          hnot (mem_singleton.mp hk' ▸ heq ▸ hk)⟩
      · rw [hps, fixedKeys_append] at ih
        rw [place, hput, fixedKeys_append]
        exact ih
    | _ => simpa [place, fixedKeys, filterMap_cons, Piece.key?] using ih

lemma marks_merge_sublist (refs : References) (ps : List Piece) :
    marks refs (merge ps) <+ marks refs ps := by
  induction ps using reverseRecOn with
  | nil => exact .refl _
  | append_singleton ps p ih =>
    rw [merge_append_singleton, marks_append]
    cases p with
    | named key value =>
      rcases putPiece_cases key value (merge ps) with ⟨-, hput⟩ | ⟨a, old, b, hps, hput⟩
      · rw [place, hput, marks_append]
        exact ih.append (.refl _)
      · rw [hps, marks_append] at ih
        rw [place, hput, marks_append]
        exact ih.trans (sublist_append_left _ _)
    | _ =>
      rw [place, marks_append]
      · exact ih.append (.refl _)
      · nofun

abbrev Writes (refs : References) (ps : List Piece) (w : Ordered Constant) : Prop :=
  List.Forall₂ (fun p entry => p.write? refs = some entry) ps w

lemma Writes.append {v : Ordered Constant} (ha : Writes refs a w) (hb : Writes refs b v) :
    Writes refs (a ++ b) (w ++ v) := rel_append ha hb

lemma Writes.exists_append (h : Writes refs (a ++ b) w) :
    ∃ u v, w = u ++ v ∧ Writes refs a u ∧ Writes refs b v := by
  induction a generalizing w with
  | nil => exact ⟨[], w, rfl, .nil, h⟩
  | cons p a ih =>
    cases h with
    | cons hp hrest =>
      obtain ⟨u, v, rfl, hu, hv⟩ := ih hrest
      exact ⟨_ :: u, v, rfl, .cons hp hu, hv⟩

lemma Writes.not_mem_keys (h : Writes refs ps w) (hfixed : key ∉ fixedKeys ps)
    (hmark : ⟨key, false⟩ ∉ marks refs ps) : key ∉ keys w := by
  induction h with
  | nil => exact not_mem_nil
  | @cons p entry ps w hp hrest ih =>
    rw [Ordered.keys_cons, mem_cons, not_or]
    rw [fixedKeys, filterMap_cons] at hfixed
    rw [marks, filterMap_cons] at hmark
    cases p with
    | named k v =>
      obtain ⟨c, hc, rfl⟩ := Option.map_eq_some_iff.mp hp
      simp only [Piece.key?, mem_cons, not_or] at hfixed
      simp only [Piece.mark?, mem_cons, not_or] at hmark
      exact ⟨hfixed.1, ih hfixed.2 hmark.2⟩
    | computed name v =>
      obtain ⟨k, hk, hp⟩ := Option.bind_eq_some_iff.mp hp
      obtain ⟨c, hc, hp⟩ := Option.bind_eq_some_iff.mp hp
      cases hp
      simp only [Piece.mark?, hk, Option.map_some, mem_cons, not_or] at hmark
      exact ⟨fun heq => hmark.1 (heq ▸ rfl), ih hfixed hmark.2⟩
    | verbatim t => cases hp

/-- Merged pieces write what the pieces write in turn. -/
theorem merge_writes (h : Writes refs ps w) (hu : Unshadowed (marks refs ps)) :
    ∃ w', Writes refs (merge ps) w' ∧ ∀ m, putAll m w' = putAll m w := by
  induction ps using reverseRecOn generalizing w with
  | nil => exact ⟨w, h, fun m => rfl⟩
  | append_singleton ps p ih =>
    obtain ⟨v, last, rfl, hv, hlast⟩ := h.exists_append
    have hsub : marks refs ps <+ marks refs (ps ++ [p]) := by
      rw [marks_append]
      exact sublist_append_left _ _
    obtain ⟨w', hw', hsame⟩ := ih hv (hu.sublist hsub)
    rw [merge_append_singleton]
    have happend : ∃ w', Writes refs (merge ps ++ [p]) w' ∧
        ∀ m, putAll m w' = putAll m (v ++ last) :=
      ⟨w' ++ last, hw'.append hlast, fun m => by
        rw [Ordered.putAll_append, Ordered.putAll_append, hsame]⟩
    cases p with
    | named key value =>
      rcases putPiece_cases key value (merge ps) with ⟨-, hput⟩ | ⟨a, old, b, hps, hput⟩
      · rw [place, hput]
        exact happend
      · -- The name stands before: it takes the new value there, and nothing after it writes its
        -- key.
        rw [hps] at hw'
        obtain ⟨wa, wb, rfl, ha, hb⟩ := hw'.exists_append
        obtain ⟨_, wb, hold, hrest, rfl⟩ := forall₂_cons_left_iff.mp hb
        obtain ⟨c, hc, rfl⟩ := Option.map_eq_some_iff.mp hold
        obtain ⟨_, _, hnew, hnil, rfl⟩ := forall₂_cons_left_iff.mp hlast
        obtain rfl := forall₂_nil_left_iff.mp hnil
        have hfixed : key ∉ fixedKeys b := by
          have hnodup := nodup_fixedKeys_merge ps
          rw [hps, fixedKeys_append] at hnodup
          exact (nodup_cons.mp (nodup_append.mp hnodup).2.1).1
        have hmark : (⟨key, false⟩ : Mark) ∉ marks refs b := by
          intro hmem
          have hmerge := marks_merge_sublist refs ps
          rw [hps, marks_append] at hmerge
          have hpair : [⟨key, true⟩, ⟨key, false⟩] <+ marks refs ps :=
            (sublist_append_of_sublist_right
              ((singleton_sublist.mpr hmem).cons_cons ⟨key, true⟩)).trans hmerge
          have hshadow := hpair.append (Sublist.refl [⟨key, true⟩])
          apply hu.not_sublist key
          rw [marks_append]
          exact hshadow
        obtain ⟨c', hc', rfl⟩ := Option.map_eq_some_iff.mp hnew
        rw [place, hput]
        refine ⟨wa ++ (key, c') :: wb, Writes.append ha (.cons hnew hrest), fun m => ?_⟩
        rw [Ordered.putAll_replace c c' (Writes.not_mem_keys hrest hfixed hmark),
          Ordered.putAll_append, hsame, ← Ordered.putAll_append]
    | _ => exact happend

end ServiceFlow.Folding
