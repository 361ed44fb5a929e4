/-
  DiceNotation.Proofs.Evaluation.Pinned

  Evaluations in which every die is fixed.

  Where the options fix the value of every die and nothing limits their number, a
  plan has one outcome, whatever it runs on (`Plan.runNow_pinned`). The outcomes of
  the parts of an evaluation make up that of the whole: `Evaluation.value?` gives
  what an evaluation comes to, and the lemmas below give it for dice, for the terms
  of a row and for rolls (`value?_rollWith`).
-/

import DiceNotation.Evaluation.Session
import DiceNotation.Proofs.Evaluation.Composed
import DiceNotation.Proofs.Roll.Simplify

namespace DiceNotation

/-! ## Outcomes -/

namespace Plan

variable {α β σ : Type}

/-- The outcome of a plan when every die shows the value that the options fix. -/
def pinned (o : EvaluationOptions) : Plan α → α
  | done a => a
  | enter _ next => (next (.ok none)).pinned o
  | draw d _ next => (next (.ok ((o.pinnedValue? d).getD 0))).pinned o
  | leave _ next => next.pinned o

theorem pinned_bind (o : EvaluationOptions) (p : Plan α) (f : α → Plan β) :
    (p.bind f).pinned o = (f (p.pinned o)).pinned o := by
  induction p with
  | done a => rfl
  | enter d next ih => exact ih _
  | draw d ticket next ih => exact ih _
  | leave ticket next ih => exact ih

end Plan

namespace Evaluation

variable {α β : Type} {o : EvaluationOptions}

/-- What an evaluation comes to when every die shows the value that the options fix. -/
def value? (o : EvaluationOptions) (e : Evaluation α) : Option α := (e.run.pinned o).toOption

@[simp] theorem value?_pure (a : α) : value? o (pure a : Evaluation α) = some a := rfl

@[simp] theorem value?_throw (e : RollError) : value? o (throw e : Evaluation α) = none := rfl

@[simp] theorem value?_fail (e : EvaluationError) : value? o (fail e : Evaluation α) = none := rfl

theorem value?_bind (e : Evaluation α) (f : α → Evaluation β) :
    value? o (e >>= f) = (value? o e).bind fun a => value? o (f a) := by
  show Except.toOption (Plan.pinned o (Plan.bind e.run _)) = _
  rw [Plan.pinned_bind, value?]
  cases e.run.pinned o <;> rfl

theorem value?_liftExcept (x : Except RollError α) :
    value? o (rollWith.liftExcept x) = x.toOption := rfl

/-- What modifiers that draw no dice make of results. -/
def settled (d : Denomination) (ms : List Modifier) (rs : List DieResult) : List DieResult :=
  (ms.filter fun m => !m.effect.drawsDice).foldl
    (fun rs m => m.effect.apply d.least d.greatest rs) rs

end Evaluation

/-! ## Rows -/

namespace Evaluation

variable (s : Setting) (nested : Nested)

/-- The term that stands for a term in a row once function calls and parentheses are
    replaced by their values. -/
def collapsed? (t : Term) : Option Term :=
  if t.isIntermediate then
    (value? s.options (pendingTerm s nested t)).bind fun t =>
      t.total.map fun total => .numeric total t.annotations
  else some t

/-- The term that a term has become at the end. -/
def reached? (t : Term) : Option Term :=
  (collapsed? s nested t).bind fun t => value? s.options (pendingTerm s nested t)

theorem value?_collapse (ts : List Term) :
    (value? s.options (collapse s nested ts)).map Prod.fst = ts.mapM (collapsed? s nested) := by
  induction ts with
  | nil => rfl
  | cons t rest ih =>
    rw [List.mapM_cons, ← ih]
    simp only [collapse, collapsed?]
    split
    · rw [value?_bind]
      cases value? s.options (pendingTerm s nested t) with
      | none => rfl
      | some t' =>
        simp only [Option.bind_some]
        cases t'.total with
        | none => rfl
        | some total =>
          simp only [value?_bind]
          cases value? s.options (collapse s nested rest) <;> rfl
    · simp only [value?_bind]
      cases value? s.options (collapse s nested rest) <;> rfl

theorem value?_terms (ts : List Term) :
    value? s.options (terms s nested ts) =
      ts.mapM fun t => value? s.options (pendingTerm s nested t) := by
  induction ts with
  | nil => rfl
  | cons t rest ih =>
    rw [List.mapM_cons, ← ih, terms, value?_bind]
    simp only [value?_bind]
    rfl

theorem mapM_bind_mapM {α β γ : Type} (f : α → Option β) (g : β → Option γ) (as : List α) :
    ((as.mapM f).bind fun bs => bs.mapM g) = as.mapM fun a => (f a).bind g := by
  induction as with
  | nil => rfl
  | cons a rest ih =>
    rw [List.mapM_cons, List.mapM_cons, ← ih]
    cases f a with
    | none => rfl
    | some b =>
      cases rest.mapM f with
      | none =>
        show none = (g b).bind fun _ => none
        cases g b <;> rfl
      | some bs => exact List.mapM_cons

/-! ## Terms -/

theorem value?_term_pool (p : Pool) (rolls : List Roll) (hfresh : p.evaluated = false) :
    value? s.options (term s nested (.pool p rolls)) =
      (value? s.options (items nested rolls)).map fun es =>
        .pool { p with
          results := settle p.modifiers (p.results ++ es.map fun (_, v) => .fresh v)
          evaluated := true } (es.map Prod.fst) := by
  simp only [term, hfresh, Bool.false_eq_true, if_false, value?_bind]
  cases value? s.options (items nested rolls) <;> rfl

theorem value?_term_function (name : String) (texts : List String) (rolls : List Roll)
    (a : Annotations) :
    value? s.options (term s nested (.function name texts rolls none a)) =
      (value? s.options (arguments nested rolls)).bind fun es =>
        (s.functions.call name (es.map Prod.snd)).toOption.map fun result =>
          .function name texts (es.map Prod.fst) (some result) a := by
  simp only [term, Option.isSome_none, Bool.false_eq_true, if_false, value?_bind]
  cases value? s.options (arguments nested rolls) with
  | none => rfl
  | some es =>
    simp only [Option.bind_some]
    cases s.functions.call name (es.map Prod.snd) <;> rfl

theorem value?_term_parenthetical (text : String) (roll : Roll) (a : Annotations) :
    value? s.options (term s nested (.parenthetical text roll a)) =
      (value? s.options (nested roll)).map fun e => .parenthetical text e.1 a := by
  rw [term, value?_bind]
  cases value? s.options (nested roll) <;> rfl

variable {s nested}

theorem value?_pendingTerm_of_evaluated {t : Term} (h : t.isEvaluated = true) :
    value? s.options (pendingTerm s nested t) = some t := by
  rw [pendingTerm, if_pos h]
  rfl

theorem value?_pendingTerm_of_fresh {t : Term} (h : t.isEvaluated = false) :
    value? s.options (pendingTerm s nested t) = value? s.options (term s nested t) := by
  rw [pendingTerm, if_neg (by simp [h])]

/-- A term that is evaluated stays an operand or an operator, and a fragment or none. -/
theorem kind_of_term {t t' : Term} (h : value? s.options (term s nested t) = some t') :
    t'.operator? = t.operator? ∧ t'.isText = t.isText := by
  cases t with
  | numeric n a | operator op a =>
    cases h
    exact ⟨rfl, rfl⟩
  | dice d =>
    rw [term, value?_bind] at h
    obtain ⟨d', -, h⟩ := Option.bind_eq_some_iff.mp h
    cases h
    exact ⟨rfl, rfl⟩
  | pool p rolls =>
    cases hp : p.evaluated with
    | true =>
      simp only [term, hp, if_true] at h
      cases h
    | false =>
      rw [value?_term_pool s nested p rolls hp] at h
      obtain ⟨es, -, rfl⟩ := Option.map_eq_some_iff.mp h
      exact ⟨rfl, rfl⟩
  | function name texts rolls result a =>
    cases result with
    | some result =>
      simp only [term, Option.isSome_some, if_true] at h
      cases h
    | none =>
      rw [value?_term_function] at h
      obtain ⟨es, -, h⟩ := Option.bind_eq_some_iff.mp h
      obtain ⟨result, -, rfl⟩ := Option.map_eq_some_iff.mp h
      exact ⟨rfl, rfl⟩
  | parenthetical text roll a =>
    rw [value?_term_parenthetical] at h
    obtain ⟨e, -, rfl⟩ := Option.map_eq_some_iff.mp h
    exact ⟨rfl, rfl⟩
  | text content a evaluated =>
    simp only [term] at h
    split at h
    · cases h
      exact ⟨rfl, rfl⟩
    · cases h

theorem kind_of_pendingTerm {t t' : Term}
    (h : value? s.options (pendingTerm s nested t) = some t') :
    t'.operator? = t.operator? ∧ t'.isText = t.isText := by
  cases hevaluated : t.isEvaluated with
  | true =>
    rw [value?_pendingTerm_of_evaluated hevaluated] at h
    cases h
    exact ⟨rfl, rfl⟩
  | false =>
    rw [value?_pendingTerm_of_fresh hevaluated] at h
    exact kind_of_term h

theorem kind_of_collapsed? {t t' : Term} (h : collapsed? s nested t = some t') :
    t'.operator? = t.operator? ∧ (t.isText = false → t'.isText = false) := by
  unfold collapsed? at h
  split at h
  · next hintermediate =>
    obtain ⟨t₁, -, h⟩ := Option.bind_eq_some_iff.mp h
    obtain ⟨total, -, rfl⟩ := Option.map_eq_some_iff.mp h
    refine ⟨?_, fun _ => rfl⟩
    cases t with
    | operator op a => cases hintermediate
    | _ => rfl
  · cases h
    exact ⟨rfl, fun h => h⟩

theorem operator?_of_reached? {t t' : Term} (h : reached? s nested t = some t') :
    t'.operator? = t.operator? := by
  obtain ⟨t₁, hcollapsed, hpending⟩ := Option.bind_eq_some_iff.mp h
  exact (kind_of_pendingTerm hpending).1.trans (kind_of_collapsed? hcollapsed).1

theorem reached?_operator {t : Term} {op : Operator} (h : t.operator? = some op) :
    reached? s nested t = some t := by
  cases t with
  | operator op a => rfl
  | _ => cases h

/-- The value that a term has at the end. -/
def termValue? (s : Setting) (nested : Nested) (t : Term) : Option Number :=
  (reached? s nested t).bind Term.total

/-! ## Rolls -/

theorem totalOf_toOption (formula : String) {ts : List Term} (hrow : Infix.IsRow ts) :
    (Term.totalOf formula ts).toOption = Infix.Row.value? Term.total ts := by
  obtain ⟨tree, htree, hvalue⟩ := Infix.Tree.ofInfix_row hrow
  have htotal : (fun t : Term => t.valueOf.toOption) = Term.total := by
    funext t
    unfold Term.valueOf
    cases t.total <;> rfl
  simp only [Term.totalOf, htree]
  have := hvalue Term.valueOf .ofDivision
  rw [htotal] at this
  exact this

theorem isText_of_collapsed? {ts ts' : List Term} (hts : ∀ t ∈ ts, t.isText = false)
    (h : ts.mapM (collapsed? s nested) = some ts') : ∀ t ∈ ts', t.isText = false := by
  induction ts generalizing ts' with
  | nil =>
    cases h
    exact fun t ht => absurd ht List.not_mem_nil
  | cons t rest ih =>
    obtain ⟨t', rest', ht', hrest', rfl⟩ := Infix.mapM_cons_eq_some.mp h
    intro x hx
    obtain rfl | hx := List.mem_cons.mp hx
    · exact (kind_of_collapsed? ht').2 (hts t List.mem_cons_self)
    · exact ih (fun t ht => hts t (List.mem_cons_of_mem _ ht)) hrest' x hx

/-- A roll whose terms are a row without fragments of text comes to the total of the row. -/
theorem value?_rollWith (hpinned : s.options.isPinned = true) {r : Roll}
    (hfresh : r.evaluated = false) (hrow : Infix.IsRow r.terms)
    (htext : ∀ t ∈ r.terms, t.isText = false) :
    (value? s.options (rollWith s nested r)).map Prod.snd =
      Infix.Row.value? (termValue? s nested) r.terms := by
  have hconclude : ∀ row collapsed, Infix.IsRow row →
      (value? s.options (concludeRow s nested r row collapsed)).map Prod.snd =
        (row.mapM fun t => value? s.options (pendingTerm s nested t)).bind
          (Infix.Row.value? Term.total) := by
    intro row collapsed hrow'
    rw [concludeRow, value?_bind, value?_terms]
    cases hreached : row.mapM fun t => value? s.options (pendingTerm s nested t) with
    | none => rfl
    | some row' =>
      have hrow'' : Infix.IsRow row' :=
        hrow'.of_mapM (fun _ _ h => (kind_of_pendingTerm h).1) hreached
      simp only [Option.bind_some, value?_bind, value?_liftExcept]
      rw [totalOf_toOption r.formula hrow'']
      cases Infix.Row.value? Term.total row' <;> rfl
  have hrefuse : ∀ ts, refuseChance s.options ts = .ok () := by
    intro ts
    simp [refuseChance, hpinned]
  have hsync : ∀ c : List Term × List Dice, Infix.IsRow c.1 → Term.simplify c.1 = c.1 →
      (value? s.options (if s.synchronous then
          rollWith.liftExcept (refuseChance s.options (Term.simplify c.1)) >>= fun _ =>
            concludeRow s nested r (Term.simplify c.1) c.2
        else concludeRow s nested r (Term.simplify c.1) c.2)).map Prod.snd =
        (c.1.mapM fun t => value? s.options (pendingTerm s nested t)).bind
          (Infix.Row.value? Term.total) := by
    intro c hc hsimple
    rw [hsimple, hrefuse]
    split
    · exact hconclude c.1 c.2 hc
    · exact hconclude c.1 c.2 hc
  rw [rollWith_eq, hfresh]
  simp only [Bool.false_eq_true, if_false]
  have hreached : (r.terms.mapM (collapsed? s nested)).bind
      (fun row => (row.mapM fun t => value? s.options (pendingTerm s nested t)).bind
        (Infix.Row.value? Term.total)) = Infix.Row.value? (termValue? s nested) r.terms := by
    rw [← Option.bind_assoc, mapM_bind_mapM]
    exact Infix.Row.value?_mapM (fun _ _ h => operator?_of_reached? h)
      (fun _ _ h => reached?_operator h) Term.total hrow
  rw [← hreached, value?_bind, ← value?_collapse]
  cases hc : value? s.options (collapse s nested r.terms) with
  | none => rfl
  | some c =>
    have hmapM : r.terms.mapM (collapsed? s nested) = some c.1 := by
      rw [← value?_collapse, hc]
      rfl
    have hcrow : Infix.IsRow c.1 := hrow.of_mapM (fun _ _ h => (kind_of_collapsed? h).1) hmapM
    exact hsync c hcrow (Term.simplify_eq hcrow (isText_of_collapsed? htext hmapM))

/-- A roll that is evaluated holds its total. -/
theorem total_of_rollWith {r r' : Roll} {v : Number}
    (h : value? s.options (rollWith s nested r) = some (r', v)) : r'.total = some v := by
  have hconclude : ∀ row collapsed,
      value? s.options (concludeRow s nested r row collapsed) = some (r', v) →
        r'.total = some v := by
    intro row collapsed h
    rw [concludeRow, value?_bind] at h
    obtain ⟨row', -, h⟩ := Option.bind_eq_some_iff.mp h
    rw [value?_bind] at h
    obtain ⟨total, -, h⟩ := Option.bind_eq_some_iff.mp h
    cases h
    rfl
  rw [rollWith_eq] at h
  split at h
  · cases h
  · rw [value?_bind] at h
    obtain ⟨c, -, h⟩ := Option.bind_eq_some_iff.mp h
    split at h
    · rw [value?_bind] at h
      obtain ⟨-, -, h⟩ := Option.bind_eq_some_iff.mp h
      exact hconclude _ _ h
    · exact hconclude _ _ h

end Evaluation

end DiceNotation
