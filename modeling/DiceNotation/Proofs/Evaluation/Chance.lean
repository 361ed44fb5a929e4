/-
  DiceNotation.Proofs.Evaluation.Chance

  Evaluations that leave nothing to chance.

  An evaluation at once that is strict refuses a row before any of its terms are
  evaluated, also a row that has dice only since its fragments were joined, and so
  at every depth. What it does evaluate is `Plan.Quiet`: it draws nothing
  (`Evaluation.quiet_roll`). Where the options fix all dice, a plan asks neither a
  roller nor anybody outside (`Plan.Alike.advance_of_isPinned`). So neither kind of
  evaluation depends on the roller (`LiveRoll.indifferent`).
-/

import DiceNotation.Proofs.Evaluation.Agreement
import DiceNotation.Proofs.Evaluation.Outcome

namespace DiceNotation

variable {σ τ α β : Type} [Roller σ] [Roller τ]

/-! ## Plans that draw nothing -/

namespace Plan

/-- A plan that asks for no dice, and for leave only where nothing is left to chance, as
    long as it is given no tickets. -/
def Quiet : Plan α → Prop
  | done _ => True
  | enter dice next => dice.isDeterministic = true ∧ (next (.ok none)).Quiet
  | draw _ _ _ => False
  | leave _ next => next.Quiet

theorem Quiet.bind {p : Plan α} {f : α → Plan β} (h : p.Quiet) (hf : ∀ a, (f a).Quiet) :
    (p.bind f).Quiet := by
  induction p with
  | done a => exact hf a
  | enter dice next ih => exact ⟨h.1, ih _ h.2⟩
  | draw d ticket next => exact h.elim
  | leave ticket next ih => exact ih h

omit [Roller σ] in
/-- Nobody is asked for dice of which nothing is left to chance. -/
theorem interactiveMethod?_of_isDeterministic {d : Dice} (h : d.isDeterministic = true)
    (c : Context σ) (o : EvaluationOptions) : c.interactiveMethod? o d = none := by
  simp [Context.interactiveMethod?, h]

/-- A quiet plan comes to the same in every context and leaves the context as it was. -/
theorem Quiet.runNow {p : Plan α} (h : p.Quiet) (o : EvaluationOptions) (c : Context σ)
    (c' : Context τ) : ∃ a, p.runNow o c = (a, c) ∧ p.runNow o c' = (a, c') := by
  induction p with
  | done a => exact ⟨a, rfl, rfl⟩
  | draw d ticket next => exact h.elim
  | leave ticket next ih => exact ih h
  | enter dice next ih =>
    obtain ⟨a, ha, ha'⟩ := ih _ h.2
    refine ⟨a, ?_, ?_⟩
    · rw [Plan.runNow, interactiveMethod?_of_isDeterministic h.1]
      exact ha
    · rw [Plan.runNow, interactiveMethod?_of_isDeterministic h.1]
      exact ha'

end Plan

namespace Evaluation

/-! ## Dice of which nothing is left to chance -/

/-- Modifiers that bring no dice are carried out without any. -/
theorem modify_of_not_drawsDice {ms : List Modifier} (h : ms.any (·.effect.drawsDice) = false)
    (pinned : Bool) (d : Denomination) (one : Evaluation Int) (rs : List DieResult) :
    modify pinned d one ms rs =
      pure (ms.foldl (fun rs m => m.effect.apply d.least d.greatest rs) rs) := by
  induction ms generalizing rs with
  | nil => rfl
  | cons m rest ih =>
    rw [List.any_cons, Bool.or_eq_false_iff] at h
    have hpass : pass? d m.effect = none := by
      cases he : m.effect <;> simp_all [pass?, Modifier.Effect.drawsDice]
    have heffect : effect pinned d one m.effect rs =
        pure (m.effect.apply d.least d.greatest rs) := by
      simp only [effect, hpass]
    rw [modify, heffect, pure_bind]
    exact ih h.2 _

/-- Dice of which nothing is left to chance have their results without a draw. -/
theorem results_of_isDeterministic {d : Dice} (hd : d.isDeterministic = true)
    (hpending : d.evaluated = false) (pinned : Bool) (ticket : Option Ticket) :
    results pinned ticket d = pure (d.modifiers.foldl
      (fun rs m => m.effect.apply d.denomination.least d.denomination.greatest rs) d.results) := by
  obtain ⟨hnumber, hdraws⟩ : d.number ≤ d.results.length ∧ d.drawsDice = false := by
    simpa [Dice.isDeterministic, hpending] using hd
  have hnone : d.number - d.results.length = 0 := by omega
  have hdrawn : results pinned ticket d =
      drawMany (draw d.denomination ticket) (d.number - d.results.length) [] >>= fun drawn =>
        modify pinned d.denomination (draw d.denomination ticket) d.modifiers
          (d.results ++ drawn) := rfl
  rw [hdrawn, hnone, drawMany, pure_bind, List.reverse_nil, List.append_nil]
  exact modify_of_not_drawsDice hdraws _ _ _ _

/-! ## Evaluations that draw nothing -/

variable {s : Setting} {nested : Nested}

theorem quiet_bind {e : Evaluation α} {f : α → Evaluation β} (h : e.run.Quiet)
    (hf : ∀ a, (f a).run.Quiet) : (e >>= f).run.Quiet := by
  refine Plan.Quiet.bind h fun outcome => ?_
  cases outcome with
  | ok a => exact hf a
  | error e => exact trivial

theorem quiet_pure (a : α) : (pure a : Evaluation α).run.Quiet := trivial

theorem quiet_throw (e : RollError) : (throw e : Evaluation α).run.Quiet := trivial

/-- Dice of which nothing is left to chance are not drawn. -/
theorem quiet_dice {d : Dice} (hd : d.isDeterministic = true) (pinned : Bool) :
    (dice pinned d).run.Quiet := by
  rw [dice_eq]
  split
  · exact quiet_throw _
  · rename_i hpending
    refine ⟨hd, quiet_bind ?_ fun rs => quiet_pure _⟩
    rw [results_of_isDeterministic hd (Bool.eq_false_iff.mpr hpending)]
    exact trivial

theorem quiet_items (hnested : ∀ r, (nested r).run.Quiet) (rs : List Roll) :
    (items nested rs).run.Quiet := by
  induction rs with
  | nil => exact quiet_pure _
  | cons r rest ih =>
    refine quiet_bind (hnested r) fun evaluated => ?_
    obtain ⟨r, total⟩ := evaluated
    cases hw : total.whole? with
    | none => simpa only [hw, fail] using quiet_throw _
    | some value => simpa only [hw] using quiet_bind ih fun more => quiet_pure _

theorem quiet_arguments (hnested : ∀ r, (nested r).run.Quiet) (rs : List Roll) :
    (arguments nested rs).run.Quiet := by
  induction rs with
  | nil => exact quiet_pure _
  | cons r rest ih => exact quiet_bind (hnested r) fun _ => quiet_bind ih fun _ => quiet_pure _

/-- Calling a function draws nothing. -/
theorem quiet_call (name : String) (values : List Number) {f : Number → Evaluation Term}
    (hf : ∀ n, (f n).run.Quiet) :
    Plan.Quiet (ExceptT.run (match s.functions.call name values with
      | .ok result => f result
      | .error e => fail e)) := by
  split
  · exact hf _
  · exact quiet_throw _

/-- A term draws nothing unless it is a dice term that is left to chance: the rolls inside
    it refuse for themselves. -/
theorem quiet_term (hnested : ∀ r, (nested r).run.Quiet) {t : Term}
    (ht : ∀ d, t = .dice d → d.isDeterministic = true) : (term s nested t).run.Quiet := by
  cases t with
  | numeric n a => exact quiet_pure _
  | operator op a => exact quiet_pure _
  | dice d => exact quiet_bind (quiet_dice (ht d rfl) _) fun d => quiet_pure _
  | pool p rolls =>
    have hrest := quiet_bind (quiet_items hnested rolls) fun evaluated =>
      quiet_pure (Term.pool { p with
        results := settle p.modifiers (p.results ++ evaluated.map (.fresh ·.2))
        evaluated := true } (evaluated.map Prod.fst))
    simp only [term]
    split
    · exact quiet_bind (quiet_throw _) fun _ => hrest
    · exact hrest
  | function name texts rolls result a =>
    simp only [term]
    split
    · exact quiet_bind (quiet_throw _) fun _ => quiet_bind (quiet_arguments hnested rolls) fun _ =>
        quiet_call name _ fun _ => quiet_pure _
    · exact quiet_bind (quiet_arguments hnested rolls) fun _ =>
        quiet_call name _ fun _ => quiet_pure _
  | parenthetical text roll a => exact quiet_bind (hnested roll) fun _ => quiet_pure _
  | text content a evaluated =>
    simp only [term]
    split
    · exact quiet_pure _
    · exact quiet_throw _

theorem quiet_pendingTerm (hnested : ∀ r, (nested r).run.Quiet) {t : Term}
    (ht : ∀ d, t = .dice d → d.isDeterministic = true) : (pendingTerm s nested t).run.Quiet := by
  unfold pendingTerm
  split
  · exact quiet_pure t
  · exact quiet_term hnested ht

/-- A row draws nothing if nothing in it is left to chance. -/
theorem quiet_terms (hnested : ∀ r, (nested r).run.Quiet) {ts : List Term}
    (hts : ∀ t ∈ ts, t.isDeterministic = true) : (terms s nested ts).run.Quiet := by
  induction ts with
  | nil => exact quiet_pure _
  | cons t rest ih =>
    have ht : ∀ d, t = .dice d → d.isDeterministic = true := by
      rintro d rfl
      simpa only [Term.isDeterministic] using hts (.dice d) List.mem_cons_self
    have hrest := ih fun t ht => hts t (List.mem_cons_of_mem _ ht)
    exact quiet_bind (quiet_pendingTerm hnested ht) fun _ => quiet_bind hrest fun _ => quiet_pure _

/-- A row collapses without a draw: dice stay as they are. -/
theorem quiet_collapse (hnested : ∀ r, (nested r).run.Quiet) (ts : List Term) :
    (collapse s nested ts).run.Quiet := by
  induction ts with
  | nil => exact quiet_pure _
  | cons t rest ih =>
    simp only [collapse]
    split
    · rename_i hintermediate
      have ht : ∀ d, t = .dice d → d.isDeterministic = true := by
        rintro d rfl
        cases hintermediate
      refine quiet_bind (quiet_pendingTerm hnested ht) fun t => ?_
      split
      · exact quiet_throw _
      · exact quiet_bind ih fun _ => quiet_pure _
    · exact quiet_bind ih fun _ => quiet_pure _

theorem quiet_liftExcept (x : Except RollError α) : (rollWith.liftExcept x).run.Quiet := trivial

/-- A row that strict options do not refuse leaves nothing to chance. -/
theorem isDeterministic_of_refuseChance {o : EvaluationOptions} {row : List Term}
    (hstrict : o.strict = true) (hpin : o.isPinned = false)
    (h : refuseChance o row = .ok ()) : ∀ t ∈ row, t.isDeterministic = true := by
  simp only [refuseChance, hstrict, hpin, Bool.not_false, Bool.and_self, if_true] at h
  split at h
  · cases h
  · rename_i hnone
    intro t ht
    simpa using List.find?_eq_none.mp hnone t ht

/-- A strict evaluation at once draws nothing if the rolls inside draw nothing: the row is
    refused before any dice in it are drawn. -/
theorem quiet_rollWith (hnested : ∀ r, (nested r).run.Quiet) (hsync : s.synchronous = true)
    (hstrict : s.options.strict = true) (hpin : s.options.isPinned = false) (r : Roll) :
    (rollWith s nested r).run.Quiet := by
  rw [rollWith_eq]
  split
  · exact quiet_throw _
  · refine quiet_bind (quiet_collapse hnested r.terms) fun c => ?_
    cases hrefuse : refuseChance s.options (Term.simplify c.1) with
    | error e => exact quiet_throw e
    | ok u =>
      have hrow := isDeterministic_of_refuseChance hstrict hpin hrefuse
      refine quiet_bind (quiet_liftExcept _) fun _ => ?_
      exact quiet_bind (quiet_terms hnested hrow) fun _ =>
        quiet_bind (quiet_liftExcept _) fun _ => quiet_pure _

/-- A strict evaluation at once draws nothing, whatever rolls it comes across. -/
theorem quiet_roll (hsync : s.synchronous = true) (hstrict : s.options.strict = true)
    (hpin : s.options.isPinned = false) (r : Roll) : (roll s r).run.Quiet := by
  have hwithin : ∀ depth r, (rollWithin s depth r).run.Quiet := by
    intro depth
    induction depth with
    | zero => exact fun r => quiet_throw _
    | succ depth ih => exact quiet_rollWith ih hsync hstrict hpin
  exact hwithin r.depth r

end Evaluation

/-! ## Dice whose values are fixed -/

namespace Plan

variable {o : EvaluationOptions}

/-- Under options that fix all dice a plan comes to the same in all contexts with the same
    limit, and changes nothing but the number of dice drawn. -/
theorem runNow_of_isPinned (hpin : o.isPinned = true) (p : Plan α) (c : Context σ)
    (c' : Context τ) (hmax : c'.config.maxRolls = c.config.maxRolls) (hrolls : c'.rolls = c.rolls) :
    ∃ a n, p.runNow o c = (a, { c with rolls := n }) ∧
      p.runNow o c' = (a, { c' with rolls := n }) := by
  induction p generalizing c c' with
  | done a => exact ⟨a, c.rolls, rfl, by rw [← hrolls]; rfl⟩
  | leave ticket next ih => exact ih c c' hmax hrolls
  | enter dice next ih =>
    simp only [Plan.runNow, Context.interactiveMethod?_of_isPinned hpin]
    exact ih _ c c' hmax hrolls
  | draw d ticket next ih =>
    obtain ⟨v, hv⟩ := EvaluationOptions.exists_pinnedValue? hpin d
    have hmany : c'.count.1 = c.count.1 := by
      simp only [Context.count, hmax, hrolls]
    have hcount : c'.count.2.rolls = c.count.2.rolls := congrArg (· + 1) hrolls
    simp only [Plan.runNow, hmany, drawNow, hv]
    split
    · exact ih _ c.count.2 c'.count.2 hmax hcount
    · exact ih _ c.count.2 c'.count.2 hmax hcount

/-- Under options that fix all dice a plan that is carried on comes at once to where a plan
    that is alike comes, whatever the coordinator. -/
theorem Alike.advance_of_isPinned (hpin : o.isPinned = true) {p q : Plan α} (h : p.Alike q)
    (c : Context σ) (k : Coordinator) :
    ∃ k', p.advance o c k = (.finished (q.runNow o c).1, (q.runNow o c).2, k') := by
  induction h generalizing c k with
  | done a => exact ⟨k, rfl⟩
  | leaveLeft t _ ih => exact ih c (k.finish t.number)
  | leaveRight t _ ih => exact ih c k
  | enter dice _ ih =>
    simp only [Plan.advance, Plan.runNow, Context.interactiveMethod?_of_isPinned hpin]
    exact ih _ none c _
  | draw d t t' _ ih =>
    obtain ⟨v, hv⟩ := EvaluationOptions.exists_pinnedValue? hpin d
    simp only [Plan.advance, Plan.runNow, drawNow, hv]
    split
    · exact ih _ c.count.2 k
    · exact ih _ c.count.2 k

end Plan

/-! ## Evaluations that do not depend on the roller -/

namespace LiveRoll

/-- Two evaluations at once come to the same, and neither asks its roller: whatever a roller
    keeps account of, it is as it was. -/
structure SameNow (o : EvaluationOptions) (l l' : LiveRoll) (c : Context σ) (c' : Context τ) :
    Prop where
  outcome : (l'.evaluateNow o c').1 = (l.evaluateNow o c).1
  roll : (l'.evaluateNow o c').2.1.roll = (l.evaluateNow o c).2.1.roll
  roller : (l.evaluateNow o c).2.2.roller = c.roller
  roller' : (l'.evaluateNow o c').2.2.roller = c'.roller

/-- Two evaluations step by step are over, come to what an evaluation of the first roll at
    once comes to, and neither asked its roller. -/
structure SameCourse (o : EvaluationOptions) (l : LiveRoll) (c : Context σ) (c' : Context τ)
    (s : Course σ) (s' : Course τ) : Prop where
  outcome : s.attempt.outcome? = some (l.evaluateNow o c).1
  outcome' : s'.attempt.outcome? = some (l.evaluateNow o c).1
  roll : s.live.roll = (l.evaluateNow o c).2.1.roll
  roll' : s'.live.roll = (l.evaluateNow o c).2.1.roll
  roller : s.context.roller = c.roller
  roller' : s'.context.roller = c'.roller

variable {o : EvaluationOptions}

/-- Evaluations at once come to the same if those of the rolls do. -/
theorem sameNow_of_evaluateNow {l l' : LiveRoll} {c c₁ : Context σ} {c' c₁' : Context τ}
    {outcome : Except RollError (Roll × Number)} (hl : l'.roll = l.roll)
    (h : l.roll.evaluateNow o c = (outcome, c₁)) (h' : l.roll.evaluateNow o c' = (outcome, c₁'))
    (hc : c₁.roller = c.roller) (hc' : c₁'.roller = c'.roller) : SameNow o l l' c c' := by
  cases outcome with
  | ok x => constructor <;> simp only [LiveRoll.evaluateNow, hl, h, h', hc, hc']
  | error e => constructor <;> simp only [LiveRoll.evaluateNow, hl, h, h', hc, hc']

/-- Evaluations at once that are strict or whose dice are fixed come to the same. -/
theorem sameNow {l l' : LiveRoll} {c : Context σ} {c' : Context τ} (hl : l'.roll = l.roll)
    (hfunctions : c'.functions = c.functions)
    (hmax : c'.config.maxRolls = c.config.maxRolls)
    (ho : o.strict = true ∨ o.isPinned = true) : SameNow o l l' c c' := by
  cases hrefuse : l.roll.refuseNow o with
  | error e =>
    have hnow : l.roll.evaluateNow o c = (.error e, c) := by
      rw [Roll.evaluateNow, hrefuse]
    have hnow' : l.roll.evaluateNow o c' = (.error e, c') := by
      rw [Roll.evaluateNow, hrefuse]
    exact sameNow_of_evaluateNow hl hnow hnow' rfl rfl
  | ok u =>
    have hnow := Roll.evaluateNow_of_refuseNow hrefuse c
    have hnow' := Roll.evaluateNow_of_refuseNow hrefuse c'
    rw [hfunctions] at hnow'
    cases hpin : o.isPinned with
    | true =>
      obtain ⟨a, n, ha, ha'⟩ := Plan.runNow_of_isPinned hpin
        (Evaluation.roll ⟨o, c.functions, true⟩ l.roll).run c.restart c'.restart hmax rfl
      exact sameNow_of_evaluateNow hl (hnow.trans ha) (hnow'.trans ha') rfl rfl
    | false =>
      have hstrict : o.strict = true := by simpa [hpin] using ho
      have hquiet := Evaluation.quiet_roll (s := ⟨o, c.functions, true⟩) rfl hstrict hpin l.roll
      obtain ⟨a, ha, ha'⟩ := hquiet.runNow o c.restart c'.restart
      exact sameNow_of_evaluateNow hl (hnow.trans ha) (hnow'.trans ha') rfl rfl

/-- An evaluation step by step whose dice are fixed is over when it begins and comes to what
    an evaluation at once comes to. -/
theorem start_of_isPinned (hpin : o.isPinned = true) (l : LiveRoll) (c : Context σ)
    (waiters : List Waiter) :
    let s := Course.start o l c waiters
    (∃ outcome, s.attempt.state = .finished outcome) ∧
      s.attempt.outcome? = some (l.evaluateNow o c).1 ∧
      s.live.roll = (l.evaluateNow o c).2.1.roll ∧ s.context = (l.evaluateNow o c).2.2 := by
  cases hl : l.roll.evaluated with
  | true =>
    simp only [Course.start, LiveRoll.begin, LiveRoll.evaluateNow, Roll.evaluateNow,
      Roll.refuseNow, hl, if_true]
    exact ⟨⟨_, rfl⟩, rfl, trivial, trivial⟩
  | false =>
    have hrefuse : l.roll.refuseNow o = .ok () := by
      simp [Roll.refuseNow, Evaluation.refuseChance, hl, hpin]
    have hnow := Roll.evaluateNow_of_refuseNow hrefuse c
    rw [Evaluation.roll_of_isPinned hpin] at hnow
    have halike := Evaluation.alike_roll ⟨o, c.functions, false⟩ l.roll
    obtain ⟨k', hadvance⟩ := halike.advance_of_isPinned hpin c.restart l.coordinator
    rw [← hnow] at hadvance
    simp only [Course.start, LiveRoll.begin, hl, Bool.false_eq_true, if_false, hadvance]
    refine ⟨⟨_, rfl⟩, ?_⟩
    rcases hx : l.roll.evaluateNow o c with ⟨outcome, c₁⟩
    cases outcome with
    | ok x =>
      simp only [LiveRoll.evaluateNow, hx]
      exact ⟨rfl, rfl, trivial⟩
    | error e =>
      simp only [LiveRoll.evaluateNow, hx]
      exact ⟨rfl, rfl, trivial⟩

/-- Neither strict evaluations at once nor any whose dice are fixed depend on the roller.
    Two such evaluations of a roll, with the same functions and the same limit on dice but
    with any two rollers and routings, have the same outcome and leave the same roll, and
    so the same record. If the dice are fixed, this holds step by step, too, whatever is
    done at the coordinators: nothing is ever waited for. -/
theorem indifferent (o : EvaluationOptions) (l l' : LiveRoll) (c : Context σ) (c' : Context τ)
    (hl : l'.roll = l.roll) (hfunctions : c'.functions = c.functions)
    (hmax : c'.config.maxRolls = c.config.maxRolls) :
    (o.strict = true ∨ o.isPinned = true → SameNow o l l' c c') ∧
    (o.isPinned = true → ∀ waiters waiters' moves moves',
      SameCourse o l c c' (Course.run moves (Course.start o l c waiters))
        (Course.run moves' (Course.start o l' c' waiters'))) := by
  refine ⟨sameNow hl hfunctions hmax, fun hpin waiters waiters' moves moves' => ?_⟩
  have hsame : SameNow o l l' c c' := sameNow hl hfunctions hmax (.inr hpin)
  obtain ⟨⟨_, hover⟩, houtcome, hroll, hcontext⟩ := start_of_isPinned hpin l c waiters
  obtain ⟨⟨_, hover'⟩, houtcome', hroll', hcontext'⟩ := start_of_isPinned hpin l' c' waiters'
  -- what is over stays as it is
  obtain ⟨hrun, hrunRoll, hrunContext, -⟩ := Course.run_finished moves hover
  obtain ⟨hrun', hrunRoll', hrunContext', -⟩ := Course.run_finished moves' hover'
  refine ⟨?_, ?_, ?_, ?_, ?_, ?_⟩
  · rw [hrun, houtcome]
  · rw [hrun', houtcome', hsame.outcome]
  · rw [hrunRoll, hroll]
  · rw [hrunRoll', hroll', hsame.roll]
  · rw [hrunContext, hcontext, hsame.roller]
  · rw [hrunContext', hcontext', hsame.roller']

/-- Two dice that are formed by joining fragments: an evaluation at once refuses them
    with either roller, and with all dice at their greatest nobody is asked for them. -/
theorem indifferent_joined :
    let l : LiveRoll := ⟨Roll.ofTerms [
      .parenthetical "1 + 1"
        (Roll.ofTerms [.numeric (.int 1) {}, .operator .add {}, .numeric (.int 1) {}]) {},
      .text "d6" {} false], none⟩
    let c : Context ScriptedRoller := .ofRoller ⟨[3, 4]⟩
    let c' : Context StepRoller :=
      { config := { routing := Routing.standard.assign (.die 6) "table" true },
        roller := .start 1 1 }
    SameNow {} l l c c' ∧
      SameCourse .maximized l c c'
        (Course.run [.other .cancel, .poll] (Course.start .maximized l c []))
        (Course.run [.poll] (Course.start .maximized l c' [])) := by
  intro l c c'
  exact ⟨(indifferent {} l l c c' rfl rfl rfl).1 (.inl rfl),
    (indifferent .maximized l l c c' rfl rfl rfl).2 rfl [] [] [.other .cancel, .poll] [.poll]⟩

end LiveRoll

end DiceNotation
