/-
  DiceNotation.Proofs.Evaluation.Depth

  The depth of a roll is enough to evaluate it.

  The rolls that are evaluated inside a roll are less deep than the roll, those that are
  read out of its texts on the way included. So it makes no difference how rolls of its
  own depth would be evaluated (`Evaluation.rollWith_agree`), and running out of depth
  never happens: the evaluation of rolls meets its own recursion (`Evaluation.roll_eq`)
  and is the only one that does (`Evaluation.eq_roll_of_eq_rollWith`).
-/

import DiceNotation.Proofs.Evaluation.Outcome
import DiceNotation.Proofs.Roll.Nesting

namespace DiceNotation

variable {α β : Type}

/-- Plans go on in the same way after every outcome that they may have. -/
theorem Plan.Always.bind_congr {p : Plan α} {P : Nat → α → Prop} (h : p.Always P)
    {f g : α → Plan β} (hfg : ∀ n a, P n a → f a = g a) : p.bind f = p.bind g := by
  induction p generalizing P with
  | done a => exact hfg 0 a h
  | enter dice next ih => exact congrArg (Plan.enter dice) (funext fun r => ih r (h r) hfg)
  | draw d t next ih =>
    exact congrArg (Plan.draw d t) (funext fun r => ih r (h r) fun n => hfg (n + 1))
  | leave t next ih => exact congrArg (Plan.leave t) (ih h hfg)

theorem Roll.depth_eq (r : Roll) :
    r.depth = max (Term.depthOfAll r.terms) (Term.nestingOfAll true r.terms) + 1 := by
  cases r
  rfl

namespace Evaluation

theorem Spends.bind_congr {e : Evaluation α} {P : Nat → α → Prop} (h : Spends e P)
    {f g : α → Evaluation β} (hfg : ∀ n a, P n a → f a = g a) : e >>= f = e >>= g := by
  refine Plan.Always.bind_congr h fun n outcome hn => ?_
  cases outcome with
  | ok a => exact hfg n a (hn a rfl)
  | error e => rfl

/-! ## Agreement -/

/-- Two ways to evaluate rolls agree on those that are less deep. -/
def Agree (f g : Nested) (depth : Nat) : Prop := ∀ r, r.depth < depth → f r = g r

section

variable {s : Setting} {f g : Nested} {depth : Nat}

theorem items_agree (h : Agree f g depth) {rs : List Roll} (hrs : Roll.depthOfAll rs < depth) :
    items f rs = items g rs := by
  induction rs with
  | nil => rfl
  | cons r rest ih =>
    obtain ⟨hr, hrest⟩ := Nat.max_lt.mp hrs
    rw [items, items, h r hr, ih hrest]

theorem arguments_agree (h : Agree f g depth) {rs : List Roll}
    (hrs : Roll.depthOfAll rs < depth) : arguments f rs = arguments g rs := by
  induction rs with
  | nil => rfl
  | cons r rest ih =>
    obtain ⟨hr, hrest⟩ := Nat.max_lt.mp hrs
    rw [arguments, arguments, h r hr, ih hrest]

theorem term_agree (h : Agree f g depth) {t : Term} (ht : t.depth < depth) :
    term s f t = term s g t := by
  cases t with
  | pool p rolls => rw [term, term, items_agree h ht]
  | function name texts rolls result a => rw [term, term, arguments_agree h ht]
  | parenthetical text roll a => rw [term, term, h roll ht]
  | _ => rfl

theorem pendingTerm_agree (h : Agree f g depth) {t : Term} (ht : t.depth < depth) :
    pendingTerm s f t = pendingTerm s g t := by
  rw [pendingTerm, pendingTerm, term_agree h ht]

theorem terms_agree (h : Agree f g depth) {ts : List Term} (hts : ∀ t ∈ ts, t.depth < depth) :
    terms s f ts = terms s g ts := by
  induction ts with
  | nil => rfl
  | cons t rest ih =>
    obtain ⟨ht, hrest⟩ := List.forall_mem_cons.mp hts
    rw [terms, terms, pendingTerm_agree h ht, ih hrest]

theorem collapse_agree (h : Agree f g depth) {ts : List Term}
    (hts : ∀ t ∈ ts, t.depth < depth) : collapse s f ts = collapse s g ts := by
  induction ts with
  | nil => rfl
  | cons t rest ih =>
    obtain ⟨ht, hrest⟩ := List.forall_mem_cons.mp hts
    rw [collapse, collapse, pendingTerm_agree h ht, ih hrest]

theorem concludeRow_agree (h : Agree f g depth) (r : Roll) {row : List Term}
    (hrow : ∀ t ∈ row, t.depth < depth) (collapsed : List Dice) :
    concludeRow s f r row collapsed = concludeRow s g r row collapsed := by
  rw [concludeRow, concludeRow, terms_agree h hrow]

end

/-! ## Collapsed rows -/

/-- A row without function calls and parentheses that is no deeper than another and has no
    more levels. -/
structure Flatter (row ts : List Term) : Prop where
  plain : ∀ t ∈ row, t.isIntermediate = false
  depth : Term.depthOfAll row ≤ Term.depthOfAll ts
  levels : ∀ opened, Term.nestingOfAll opened row ≤ Term.nestingOfAll opened ts

theorem Flatter.cons {t u : Term} {row ts : List Term} (h : Flatter row ts)
    (hplain : u.isIntermediate = false) (hdepth : u.depth ≤ t.depth)
    (hlevels : ∀ opened, u.nesting opened ≤ t.nesting opened) :
    Flatter (u :: row) (t :: ts) where
  plain := List.forall_mem_cons.mpr ⟨hplain, h.plain⟩
  depth := max_le_max hdepth h.depth
  levels opened := Nat.add_le_add (hlevels opened) (h.levels false)

/-- The value of a function call or of parentheses brings a minus sign at most. -/
theorem nesting_numeric_le (opened : Bool) (value : Number) (a : Annotations) :
    (Term.numeric value a).nesting opened ≤ 1 := by
  have htext : value.text.toList = value.chars := String.toList_ofList
  show DiceNotation.nesting opened value.text.toList ≤ 1
  rw [htext]
  refine Nat.le_trans (value.nesting_chars_le opened) ?_
  split <;> decide

/-- Collapsing makes a row flatter. -/
theorem spends_collapse_flatter (s : Setting) (nested : Nested) (ts : List Term) :
    Spends (collapse s nested ts) fun _ c => Flatter c.1 ts := by
  induction ts with
  | nil => exact spends_pure ⟨nofun, Nat.le_refl 0, fun _ => Nat.le_refl 0⟩
  | cons t rest ih =>
    simp only [collapse]
    split
    · next ht =>
      refine (spends_true _).bind fun _ u _ => ?_
      split
      · exact spends_throw _
      · next total _ =>
        refine ih.bind fun _ c hc => spends_pure (hc.cons rfl (Nat.zero_le _) fun opened => ?_)
        have hlevels : t.nesting opened = 1 := by
          cases t <;> first | rfl | cases ht
        rw [hlevels]
        exact nesting_numeric_le opened total _
    · next ht =>
      exact ih.bind fun _ c hc =>
        spends_pure (hc.cons (Bool.eq_false_iff.mpr ht) (Nat.le_refl _) fun _ => Nat.le_refl _)

/-! ## Depth -/

/-- How rolls as deep as a roll or deeper would be evaluated makes no difference to it. -/
theorem rollWith_agree {s : Setting} {f g : Nested} {r : Roll} (h : Agree f g r.depth) :
    rollWith s f r = rollWith s g r := by
  have hbelow : ∀ t : Term,
      t.depth ≤ max (Term.depthOfAll r.terms) (Term.nestingOfAll true r.terms) →
        t.depth < r.depth := fun t ht => by
    rw [r.depth_eq]
    exact Nat.lt_succ_of_le ht
  have hterms : ∀ t ∈ r.terms, t.depth < r.depth := fun t ht =>
    hbelow t (Nat.le_trans (Term.depth_le_depthOfAll ht) (Nat.le_max_left _ _))
  have hrow : ∀ row, Flatter row r.terms → ∀ t ∈ Term.simplify row, t.depth < r.depth :=
    fun row hflatter t ht => hbelow t
      (Nat.le_trans (Term.depth_le_of_mem_simplify hflatter.plain ht)
        (max_le_max hflatter.depth (hflatter.levels true)))
  rw [rollWith_eq, rollWith_eq, collapse_agree h hterms]
  split
  · rfl
  · refine (spends_collapse_flatter s g r.terms).bind_congr fun _ c hc => ?_
    simp only [concludeRow_agree h r (hrow c.1 hc) c.2]

/-- Whatever the depth is that is left, a roll that is no deeper has the same evaluation. -/
theorem rollWithin_congr (s : Setting) {m n : Nat} {r : Roll} (hm : r.depth ≤ m)
    (hn : r.depth ≤ n) : rollWithin s m r = rollWithin s n r := by
  induction m generalizing n r with
  | zero =>
    rw [r.depth_eq] at hm
    exact absurd hm (Nat.not_succ_le_zero _)
  | succ m ih =>
    obtain _ | n := n
    · rw [r.depth_eq] at hn
      exact absurd hn (Nat.not_succ_le_zero _)
    exact rollWith_agree fun inner hinner =>
      ih (Nat.le_of_lt_succ (Nat.lt_of_lt_of_le hinner hm))
        (Nat.le_of_lt_succ (Nat.lt_of_lt_of_le hinner hn))

/-- The rolls inside a roll are evaluated like the roll itself: no depth is ever used up. -/
theorem roll_eq (s : Setting) (r : Roll) : roll s r = rollWith s (roll s) r := by
  rw [roll, r.depth_eq, rollWithin]
  refine rollWith_agree fun inner hinner => ?_
  rw [r.depth_eq] at hinner
  exact rollWithin_congr s (Nat.le_of_lt_succ hinner) (Nat.le_refl _)

/-- There is no other way to evaluate rolls that evaluates the rolls inside them alike. -/
theorem eq_roll_of_eq_rollWith {s : Setting} {f : Nested} (hf : ∀ r, f r = rollWith s f r) :
    f = roll s := by
  have hdepth : ∀ depth r, r.depth < depth → f r = roll s r := by
    intro depth
    induction depth with
    | zero => exact fun r hr => absurd hr (Nat.not_lt_zero _)
    | succ depth ih =>
      intro r hr
      rw [hf, roll_eq]
      exact rollWith_agree fun inner hinner =>
        ih inner (Nat.lt_of_lt_of_le hinner (Nat.le_of_lt_succ hr))
  exact funext fun r => hdepth (r.depth + 1) r (Nat.lt_succ_self _)

end Evaluation

end DiceNotation
