/-
  DiceNotation.Proofs.Roll.Runs

  Simplified rows, run by run.

  Simplifying makes one operand of each run of neighbouring operands: a single term that
  is no fragment of text stays as it is, and any other run is what its texts in a row are
  read as, with the annotations found first (`Term.Becomes`). Joining goes from left to
  right, so the induction is on the terms to come, with a run that has been joined so far
  (`Term.fused_joinFrom`). In the end operands and operators take turns, so that there is
  nothing to join and nothing to leave out a second time (`Term.simplify_normal`).
-/

import Mathlib.Data.List.Forall2
import Mathlib.Data.List.SplitBy
import Mathlib.Data.String.Basic
import DiceNotation.Proofs.Roll.New

namespace DiceNotation

/-! ## Values under keys -/

namespace Keyed

variable {α : Type}

theorem find?_add (key other : String) (v : α) (entries : Keyed α) :
    find? key (add other v entries) =
      (find? key entries).or (if other = key then some v else none) := by
  unfold add
  by_cases hkey : other = key
  · subst hkey
    split
    · next w hfound => simp [hfound]
    · next hnone => simp [hnone, find?_set]
  · rw [if_neg hkey, Option.or_none]
    split
    · rfl
    · exact find?_set_of_ne (Ne.symm hkey) v entries

/-- Of several values that are added under one key the first stays. -/
theorem find?_foldl_add (key : String) (more entries : Keyed α) :
    find? key (more.foldl (fun acc (k, v) => add k v acc) entries) =
      (find? key entries).or (find? key more) := by
  induction more generalizing entries with
  | nil => simp [find?]
  | cons e more ih =>
    obtain ⟨k, v⟩ := e
    rw [List.foldl_cons, ih, find?_add, Option.or_assoc]
    congr 1
    rw [find?]
    split <;> simp

/-- Whether the entries are in increasing order of their keys. -/
def Sorted (entries : Keyed α) : Prop := entries.Pairwise fun a b => a.1 < b.1

theorem mem_set {key : String} {v : α} {entries : Keyed α} {e : String × α}
    (h : e ∈ set key v entries) : e = (key, v) ∨ e ∈ entries := by
  induction entries with
  | nil => exact .inl (List.mem_singleton.mp h)
  | cons e' rest ih =>
    obtain ⟨k, w⟩ := e'
    unfold set at h
    split at h
    · exact List.mem_cons.mp h
    · split at h
      · exact (List.mem_cons.mp h).imp_right (List.mem_cons_of_mem _)
      · obtain rfl | h := List.mem_cons.mp h
        · exact .inr List.mem_cons_self
        · exact (ih h).imp_right (List.mem_cons_of_mem _)

theorem Sorted.set {entries : Keyed α} (h : Sorted entries) (key : String) (v : α) :
    Sorted (set key v entries) := by
  induction entries with
  | nil => exact List.pairwise_singleton _ _
  | cons e rest ih =>
    obtain ⟨k, w⟩ := e
    obtain ⟨hfirst, hrest⟩ := List.pairwise_cons.mp h
    unfold Keyed.set
    split
    · next hlt =>
      refine List.pairwise_cons.mpr ⟨fun e he => ?_, h⟩
      obtain rfl | he := List.mem_cons.mp he
      · exact hlt
      · exact lt_trans hlt (hfirst e he)
    · next hnot =>
      split
      · next heq =>
        subst heq
        exact List.pairwise_cons.mpr ⟨hfirst, hrest⟩
      · next hne =>
        refine List.pairwise_cons.mpr ⟨fun e he => ?_, ih hrest⟩
        obtain rfl | he := mem_set he
        · exact lt_of_le_of_ne (not_lt.mp hnot) (Ne.symm hne)
        · exact hfirst e he

end Keyed

/-! ## Annotations -/

namespace Annotations

/-- Annotations that hold what the first of several others holds: its flavor, and under each
    key its value. -/
structure FirstOf (a : Annotations) (as : List Annotations) : Prop where
  flavor : a.flavor = as.findSome? (·.flavor)
  extra : ∀ key, Keyed.find? key a.extra = as.findSome? fun b => Keyed.find? key b.extra

theorem FirstOf.single (a : Annotations) : a.FirstOf [a] := by
  constructor
  · simp
  · simp

theorem FirstOf.merge {a b : Annotations} {as bs : List Annotations} (ha : a.FirstOf as)
    (hb : b.FirstOf bs) : (a.merge b).FirstOf (as ++ bs) := by
  constructor
  · rw [List.findSome?_append, ← ha.flavor, ← hb.flavor]
    cases hflavor : a.flavor <;> simp [Annotations.merge, hflavor]
  · intro key
    rw [List.findSome?_append, ← ha.extra, ← hb.extra]
    exact Keyed.find?_foldl_add key b.extra a.extra

end Annotations

namespace Term

/-! ## Rows and their runs -/

/-- Whether two neighbours are operands. -/
def bothOperands (t u : Term) : Bool := t.operator?.isNone && u.operator?.isNone

/-- The runs of neighbouring operands of a row, as long as they can be; each operator stands
    by itself between them. -/
def runs (ts : List Term) : List (List Term) := ts.splitBy bothOperands

/-- Two terms that may be neighbours: they are not both operators, and if they are both
    operands one is a fragment of text. -/
def Neighbours (t u : Term) : Prop :=
  (t.operator? = none ∨ u.operator? = none) ∧
    (t.operator? = none → u.operator? = none → t.isText = true ∨ u.isText = true)

instance : DecidableRel Neighbours := fun t u =>
  inferInstanceAs (Decidable ((t.operator? = none ∨ u.operator? = none) ∧
    (t.operator? = none → u.operator? = none → t.isText = true ∨ u.isText = true)))

/-- Rows with an operand in them, where all neighbours may be neighbours. -/
structure Loose (ts : List Term) : Prop where
  operand : ∃ t ∈ ts, t.operator? = none
  neighbours : ts.IsChain Neighbours

/-- The texts of the terms of a run, back to back. -/
def runText (run : List Term) : String := String.join (run.map fragment)

/-- A run that has been joined: a single term, or a fragment of text in place of several. -/
inductive Fused : List Term → Term → Prop where
  | one (t : Term) : Fused [t] t
  | joined {run : List Term} {a : Annotations} (hrun : ∀ t, run ≠ [t])
      (ha : a.FirstOf (run.map annotations)) : Fused run (.text (runText run) a false)

theorem runText_append (run run' : List Term) :
    runText (run ++ run') = runText run ++ runText run' := by
  rw [runText, List.map_append, String.join_append]
  rfl

theorem runText_single (t : Term) : runText [t] = t.fragment := by
  simp [runText]

theorem Fused.fragment {run : List Term} {t : Term} (h : Fused run t) :
    t.fragment = runText run := by
  cases h with
  | one => exact (runText_single t).symm
  | joined => rfl

theorem Fused.firstOf {run : List Term} {t : Term} (h : Fused run t) :
    t.annotations.FirstOf (run.map Term.annotations) := by
  cases h with
  | one => exact .single _
  | joined hrun ha => exact ha

/-- A run that has been joined is joined with the operand behind it. -/
theorem Fused.join {run : List Term} {t : Term} (h : Fused run t) (hne : run ≠ []) (u : Term) :
    Fused (run ++ [u]) (t.join u) := by
  have ha := h.firstOf.merge (.single u.annotations)
  have htext : t.fragment ++ u.fragment = runText (run ++ [u]) := by
    rw [h.fragment, runText_append, runText_single]
  rw [Term.join, htext]
  refine .joined (fun v hv => ?_) (by simpa using ha)
  have hlength := congrArg List.length hv
  simp only [List.length_append, List.length_singleton] at hlength
  exact hne (List.length_eq_zero_iff.mp (by omega))

/-- Two neighbours of which one is an operator and the other is an operand. -/
def Apart (t u : Term) : Prop := t.operator?.isNone ≠ u.operator?.isNone

theorem Glued.neighbours {ts : List Term} (h : Glued ts) : ts.IsChain Neighbours := by
  induction h with
  | one ht => exact .singleton _
  | cons ht htext hts ih => exact .cons_cons ⟨.inl ht, fun _ _ => htext⟩ ih

theorem Glued.operator?_getLast {ts : List Term} (h : Glued ts) {t : Term}
    (ht : t ∈ ts.getLast?) : t.operator? = none := by
  induction h with
  | one hx =>
    cases ht
    exact hx
  | cons hx htext hts ih => exact ih (by rwa [List.getLast?_cons_cons] at ht)

theorem Trailing.operator?_head {ts : List Term} (h : Trailing ts) {t : Term}
    (ht : t ∈ ts.head?) : t.operator? ≠ none := by
  cases h with
  | nil => cases ht
  | cons hop hgroup hrest =>
    cases ht
    rw [hop]
    exact nofun

/-- A group of operands with what may stand behind it. -/
theorem Glued.neighbours_append {group rest : List Term} (h : Glued group)
    (hrest : Trailing rest) (hchain : rest.IsChain Neighbours) :
    (group ++ rest).IsChain Neighbours := by
  refine h.neighbours.append hchain fun t ht u hu => ⟨.inl (h.operator?_getLast ht), fun _ h => ?_⟩
  exact absurd h (hrest.operator?_head hu)

theorem Glued.neighbours_cons {i : Term} {group rest : List Term} {op : Operator}
    (hi : i.operator? = some op) (h : Glued group) (hchain : (group ++ rest).IsChain Neighbours) :
    (i :: (group ++ rest)).IsChain Neighbours := by
  cases group with
  | nil => cases h
  | cons t group =>
    refine .cons_cons ⟨.inr h.operand, fun h => ?_⟩ hchain
    rw [hi] at h
    cases h

theorem Trailing.neighbours {ts : List Term} (h : Trailing ts) : ts.IsChain Neighbours := by
  induction h with
  | nil => exact .nil
  | cons hop hgroup hrest ih =>
    exact hgroup.neighbours_cons hop (hgroup.neighbours_append hrest ih)

theorem Grouped.loose {ts : List Term} (h : Grouped ts) : Loose ts := by
  have hoperand : ∀ {group rest : List Term}, Glued group →
      ∃ t ∈ group ++ rest, t.operator? = none := by
    intro group rest hgroup
    cases group with
    | nil => cases hgroup
    | cons t group => exact ⟨t, List.mem_cons_self, hgroup.operand⟩
  cases h with
  | plain hgroup hrest => exact ⟨hoperand hgroup, hgroup.neighbours_append hrest hrest.neighbours⟩
  | negated hi hgroup hrest =>
    obtain ⟨t, ht, hnone⟩ := hoperand hgroup
    exact ⟨⟨t, List.mem_cons_of_mem _ ht, hnone⟩,
      hgroup.neighbours_cons hi (hgroup.neighbours_append hrest hrest.neighbours)⟩

/-- The rows of formulas are such rows, and so is what is left of them when some of their terms
    have been replaced by others of their kind, as calls and groups are by numbers. -/
theorem loose_of_ofFormula {formula : String} {row ts : List Term}
    (h : ofFormula formula = .ok row) (hkind : ts.map kind = row.map kind) : Loose ts :=
  ((new_of_ofFormula h).1.of_kind hkind).loose

end Term

end DiceNotation
