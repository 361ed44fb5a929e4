/-
  DiceNotation.Proofs.Roll.Simplify

  What simplifying makes of a row.

  Where operands stand back to back only if one of them is a fragment of text, every
  group of them is joined into one operand, and operands and operators take turns
  from then on (`Term.Grouped.joinAll`). A row in which they do has no operators to
  leave out (`Term.trim_eq`), and one without fragments stays as it is
  (`Term.simplify_eq`).
-/

import DiceNotation.Proofs.Infix.Row
import DiceNotation.Roll.Simplify

namespace DiceNotation.Term

/-! ## Annotations -/

theorem operator?_setAnnotations (a : Annotations) (t : Term) :
    (t.setAnnotations a).operator? = t.operator? := by
  cases t <;> rfl

theorem isText_setAnnotations (a : Annotations) (t : Term) :
    (t.setAnnotations a).isText = t.isText := by
  cases t <;> rfl

/-! ## Grouped rows -/

/-- Operands back to back, one of any two neighbours a fragment of text. -/
inductive Glued : List Term → Prop where
  | one {t : Term} (ht : t.operator? = none) : Glued [t]
  | cons {t u : Term} {ts : List Term} (ht : t.operator? = none)
      (htext : t.isText = true ∨ u.isText = true) (hts : Glued (u :: ts)) : Glued (t :: u :: ts)

/-- Operators, each with a group of glued operands behind it. -/
inductive Trailing : List Term → Prop where
  | nil : Trailing []
  | cons {t : Term} {op : Operator} {group rest : List Term} (ht : t.operator? = some op)
      (hgroup : Glued group) (hrest : Trailing rest) : Trailing (t :: (group ++ rest))

/-- Groups of glued operands and operators in turns, with a minus sign before them at
    most. -/
inductive Grouped : List Term → Prop where
  | plain {group rest : List Term} (hgroup : Glued group) (hrest : Trailing rest) :
      Grouped (group ++ rest)
  | negated {t : Term} {group rest : List Term} (ht : t.operator? = some .sub)
      (hgroup : Glued group) (hrest : Trailing rest) : Grouped (t :: (group ++ rest))

theorem Glued.operand {t : Term} {ts : List Term} (h : Glued (t :: ts)) :
    t.operator? = none := by
  cases h with
  | one ht => exact ht
  | cons ht htext hts => exact ht

/-- A fragment may stand for the first operand of a group. -/
theorem Glued.setHead {t u : Term} {ts : List Term} (h : Glued (t :: ts))
    (hu : u.operator? = none) (htext : u.isText = true) : Glued (u :: ts) := by
  cases h with
  | one ht => exact .one hu
  | cons ht htext' hts => exact .cons hu (.inl htext) hts

theorem Glued.isEmpty {ts : List Term} (h : Glued ts) : ts.isEmpty = false := by
  cases h <;> rfl

/-- A grouped row of one term is an operand. -/
theorem Grouped.operand_of_single {t : Term} (h : Grouped [t]) : t.operator? = none := by
  generalize hts : [t] = ts at h
  cases h with
  | plain hgroup hrest =>
    cases hgroup with
    | one ht =>
      cases hts
      exact ht
    | cons ht htext hglued => cases hts
  | negated ht hgroup hrest => cases hgroup <;> cases hts

/-! ## Kinds -/

/-- What the grouping of a row depends on: which operator a term is, if it is one, and
    whether it is a fragment of text. -/
def kind (t : Term) : Option Operator × Bool := (t.operator?, t.isText)

theorem operator?_of_kind {t u : Term} (h : u.kind = t.kind) : u.operator? = t.operator? :=
  congrArg Prod.fst h

theorem isText_of_kind {t u : Term} (h : u.kind = t.kind) : u.isText = t.isText :=
  congrArg Prod.snd h

theorem Glued.of_kind {ts us : List Term} (h : Glued ts) (hkind : us.map kind = ts.map kind) :
    Glued us := by
  induction h generalizing us with
  | one ht =>
    obtain ⟨u, rest, rfl, hu, hrest⟩ := List.map_eq_cons_iff.mp hkind
    obtain rfl := List.map_eq_nil_iff.mp hrest
    exact .one ((operator?_of_kind hu).trans ht)
  | @cons t t' ts ht htext hts ih =>
    obtain ⟨u, rest, rfl, hu, hrest⟩ := List.map_eq_cons_iff.mp hkind
    have hglued := ih hrest
    obtain ⟨u', rest, rfl, hu', -⟩ := List.map_eq_cons_iff.mp hrest
    refine .cons ((operator?_of_kind hu).trans ht) ?_ hglued
    rw [isText_of_kind hu, isText_of_kind hu']
    exact htext

theorem Trailing.of_kind {ts us : List Term} (h : Trailing ts)
    (hkind : us.map kind = ts.map kind) : Trailing us := by
  induction h generalizing us with
  | nil =>
    obtain rfl := List.map_eq_nil_iff.mp hkind
    exact .nil
  | cons ht hgroup hrest ih =>
    obtain ⟨u, more, rfl, hu, hmore⟩ := List.map_eq_cons_iff.mp hkind
    rw [List.map_append] at hmore
    obtain ⟨group, rest, rfl, hg, hr⟩ := List.map_eq_append_iff.mp hmore
    exact .cons ((operator?_of_kind hu).trans ht) (hgroup.of_kind hg) (ih hr)

/-- A row whose terms are replaced by terms of their kind is grouped as before. -/
theorem Grouped.of_kind {ts us : List Term} (h : Grouped ts)
    (hkind : us.map kind = ts.map kind) : Grouped us := by
  cases h with
  | plain hgroup hrest =>
    rw [List.map_append] at hkind
    obtain ⟨group, rest, rfl, hg, hr⟩ := List.map_eq_append_iff.mp hkind
    exact .plain (hgroup.of_kind hg) (hrest.of_kind hr)
  | negated ht hgroup hrest =>
    obtain ⟨u, more, rfl, hu, hmore⟩ := List.map_eq_cons_iff.mp hkind
    rw [List.map_append] at hmore
    obtain ⟨group, rest, rfl, hg, hr⟩ := List.map_eq_append_iff.mp hmore
    exact .negated ((operator?_of_kind hu).trans ht) (hgroup.of_kind hg) (hrest.of_kind hr)

/-! ## Terms of simplified rows -/

/-- Joining brings nothing but fragments of text. -/
theorem mem_joinFrom {t u : Term} {ts : List Term} (h : u ∈ joinFrom t ts) :
    u ∈ t :: ts ∨ ∃ content a, u = .text content a false := by
  induction ts generalizing t with
  | nil => exact .inl h
  | cons next rest ih =>
    unfold joinFrom at h
    split at h
    · obtain hmem | htext := ih h
      · obtain rfl | hmem := List.mem_cons.mp hmem
        · exact .inr ⟨_, _, rfl⟩
        · exact .inl (List.mem_cons_of_mem _ (List.mem_cons_of_mem _ hmem))
      · exact .inr htext
    · obtain rfl | h := List.mem_cons.mp h
      · exact .inl List.mem_cons_self
      · exact (ih h).imp_left (List.mem_cons_of_mem _)

theorem mem_joinAll {u : Term} {ts : List Term} (h : u ∈ joinAll ts) :
    u ∈ ts ∨ ∃ content a, u = .text content a false := by
  cases ts with
  | nil => cases h
  | cons t rest => exact mem_joinFrom h

theorem mem_of_mem_dropLeading {t : Term} {ts : List Term} (h : t ∈ dropLeading ts) :
    t ∈ ts := by
  unfold dropLeading at h
  split at h
  · exact h
  · split at h
    · exact h
    · exact h
    · exact List.mem_cons_of_mem _ h

theorem mem_of_mem_dropTrailing {t : Term} {ts : List Term}
    (h : t ∈ dropTrailing ts) : t ∈ ts := by
  unfold dropTrailing at h
  split at h
  · split at h
    · exact (List.dropLast_sublist _).subset h
    · exact h
  · exact h

/-- Every term of a simplified row is read from one that stood there or from a fragment. -/
theorem mem_simplify {t : Term} {ts : List Term} (h : t ∈ simplify ts) :
    ∃ u, t = u.reclassify ∧ (u ∈ ts ∨ ∃ content a, u = .text content a false) := by
  obtain ⟨u, hu, rfl⟩ := List.mem_map.mp (mem_of_mem_dropLeading (mem_of_mem_dropTrailing h))
  exact ⟨u, rfl, mem_joinAll hu⟩

/-! ## Joined groups -/

theorem joins_of_operator {t u : Term} {op : Operator}
    (h : t.operator? = some op ∨ u.operator? = some op) : t.joins u = false := by
  obtain h | h := h <;> simp [joins, h]

/-- What stands before an operator is not joined with it. -/
theorem Trailing.joinFrom {t : Term} {rest : List Term} (h : Trailing rest) :
    Term.joinFrom t rest = t :: Term.joinAll rest := by
  cases h with
  | nil => rfl
  | cons hi hgroup hrest =>
    rw [Term.joinFrom, joins_of_operator (.inr hi)]
    rfl

/-- A group of glued operands is joined into one operand. -/
theorem Glued.joinAll {ts rest : List Term} (h : Glued ts) (hrest : Trailing rest) :
    ∃ u, u.operator? = none ∧ Term.joinAll (ts ++ rest) = u :: Term.joinAll rest := by
  obtain _ | ⟨t, ts⟩ := ts
  · cases h
  induction ts generalizing t with
  | nil => exact ⟨t, h.operand, hrest.joinFrom⟩
  | cons u ts ih =>
    cases h with
    | cons ht htext hts =>
      have hjoins : t.joins u = true := by simpa [joins, ht, hts.operand] using htext
      obtain ⟨v, hv, heq⟩ := ih (t.join u) (hts.setHead rfl rfl)
      refine ⟨v, hv, ?_⟩
      show Term.joinFrom t (u :: (ts ++ rest)) = _
      rw [Term.joinFrom, hjoins]
      exact heq

/-- An operator stays apart from the group behind it. -/
theorem Glued.joinAll_operator {t : Term} {op : Operator} {group rest : List Term}
    (ht : t.operator? = some op) (hgroup : Glued group) (hrest : Trailing rest) :
    ∃ u, u.operator? = none ∧
      Term.joinAll (t :: (group ++ rest)) = t :: u :: Term.joinAll rest := by
  obtain ⟨u, hu, heq⟩ := hgroup.joinAll hrest
  refine ⟨u, hu, ?_⟩
  rw [← heq]
  cases group with
  | nil => cases hgroup
  | cons first group =>
    show Term.joinFrom t (first :: (group ++ rest)) = _
    rw [Term.joinFrom, joins_of_operator (.inl ht)]
    rfl

theorem Trailing.joinAll {ts : List Term} (h : Trailing ts) :
    Infix.Alternates (Term.joinAll ts) := by
  induction h with
  | nil => exact .nil
  | cons ht hgroup hrest ih =>
    obtain ⟨u, hu, heq⟩ := hgroup.joinAll_operator ht hrest
    rw [heq]
    exact .cons ht hu ih

/-- In a grouped row that was joined operands and operators take turns. -/
theorem Grouped.joinAll {ts : List Term} (h : Grouped ts) : Infix.IsRow (Term.joinAll ts) := by
  cases h with
  | plain hgroup hrest =>
    obtain ⟨u, hu, heq⟩ := hgroup.joinAll hrest
    rw [heq]
    exact .plain hu hrest.joinAll
  | negated ht hgroup hrest =>
    obtain ⟨u, hu, heq⟩ := hgroup.joinAll_operator ht hrest
    rw [heq]
    exact .negated ht hu hrest.joinAll

/-! ## Rows that are simple already -/

theorem joinFrom_eq {t : Term} {ts : List Term} (ht : t.isText = false)
    (hts : ∀ t ∈ ts, t.isText = false) : joinFrom t ts = t :: ts := by
  induction ts generalizing t with
  | nil => rfl
  | cons next rest ih =>
    have hnext := hts next List.mem_cons_self
    have hjoins : t.joins next = false := by simp [joins, ht, hnext]
    rw [joinFrom, hjoins]
    simp only [Bool.false_eq_true, if_false]
    rw [ih hnext fun t h => hts t (List.mem_cons_of_mem _ h)]

theorem map_reclassify_eq {ts : List Term} (hts : ∀ t ∈ ts, t.isText = false) :
    ts.map reclassify = ts := by
  have heq : ∀ t ∈ ts, t.reclassify = t := by
    intro t ht
    cases t with
    | text content a evaluated => exact absurd (hts _ ht) (by simp [isText])
    | _ => rfl
  exact (List.map_congr_left heq).trans (List.map_id ts)

theorem dropTrailing_eq {ts : List Term}
    (h : ∀ t, ts.getLast? = some t → t.operator? = none) : dropTrailing ts = ts := by
  unfold dropTrailing
  cases hlast : ts.getLast? with
  | none => rfl
  | some t => simp [h t hlast]

theorem operator?_getLast_of_alternates {x : Term} {ts : List Term} (hx : x.operator? = none)
    (hts : Infix.Alternates ts) {t : Term} (ht : (x :: ts).getLast? = some t) :
    t.operator? = none := by
  induction hts generalizing x with
  | nil =>
    cases ht
    exact hx
  | @cons i y op rest hi hy hrest ih =>
    rw [List.getLast?_cons_cons, List.getLast?_cons_cons] at ht
    exact ih hy ht

/-- A row has no operators that have nothing to apply to. -/
theorem trim_eq {ts : List Term} (hrow : Infix.IsRow ts) :
    dropTrailing (dropLeading ts) = ts := by
  cases hrow with
  | @plain x rest hx hrest =>
    have hleading : dropLeading (x :: rest) = x :: rest := by
      rw [dropLeading, show x.operator? = none from hx]
    rw [hleading]
    exact dropTrailing_eq fun t ht => operator?_getLast_of_alternates hx hrest ht
  | @negated i x rest hi hx hrest =>
    have hleading : dropLeading (i :: x :: rest) = i :: x :: rest := by
      rw [dropLeading, show i.operator? = some .sub from hi]
    rw [hleading]
    refine dropTrailing_eq fun t ht => ?_
    rw [List.getLast?_cons_cons] at ht
    exact operator?_getLast_of_alternates hx hrest ht

/-- A row without fragments of text is simple already. -/
theorem simplify_eq {ts : List Term} (hrow : Infix.IsRow ts)
    (htext : ∀ t ∈ ts, t.isText = false) : simplify ts = ts := by
  have hjoin : joinAll ts = ts := by
    cases ts with
    | nil => rfl
    | cons t rest =>
      exact joinFrom_eq (htext t List.mem_cons_self) fun t h => htext t (List.mem_cons_of_mem _ h)
  rw [simplify, hjoin, map_reclassify_eq htext, trim_eq hrow]

end DiceNotation.Term
