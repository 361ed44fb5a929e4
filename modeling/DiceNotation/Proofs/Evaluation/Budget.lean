/-
  DiceNotation.Proofs.Evaluation.Budget

  Drawn dice, held results and the limit on dice.

  Every die that an evaluation draws becomes one result of one of its dice terms, and
  dice terms are kept when what was around them is replaced by its value
  (`Evaluation.counts_roll`). A limit does not show unless it is passed: below the
  number of dice that an evaluation needs it fails, and from there on nothing changes
  (`Plan.runNow_withLimit`).
-/

import DiceNotation.Evaluation.Session
import DiceNotation.Proofs.Evaluation.Alike
import DiceNotation.Proofs.Evaluation.Outcome
import DiceNotation.Proofs.Roll.Results

namespace DiceNotation

open Formula

namespace Evaluation

/-! ## Dice -/

section

variable {one : Evaluation Int} (hone : Spends one fun n _ => n = 1)

include hone

theorem spends_drawMany (n : Nat) (drawn : List DieResult) :
    Spends (drawMany one n drawn) fun k rs => rs.length = drawn.length + k := by
  induction n generalizing drawn with
  | zero => exact spends_pure (by simp)
  | succ n ih =>
    refine hone.bind fun k value hk => (ih (.fresh value :: drawn)).mono fun m rs hrs => ?_
    simp only [List.length_cons] at hrs
    omega

/-- A pass brings one die for a result that it hits, and goes on. -/
theorem spends_inspect (p : Pass) (r : DieResult) {n : Nat}
    {next : List DieResult → Evaluation (List DieResult)}
    (hnext : ∀ ahead, Spends (next ahead) fun k rs => rs.length = n + ahead.length + k)
    (ahead : List DieResult) :
    Spends (if p.hits r then do
        let value ← one
        let ahead ← pure (ahead ++ [.fresh value])
        next ahead
      else do
        let ahead ← pure ahead
        next ahead) fun k rs => rs.length = n + ahead.length + k := by
  split
  · refine hone.bind fun k value hk => ?_
    change Spends (next (ahead ++ [.fresh value])) _
    refine (hnext _).mono fun m rs hrs => ?_
    rw [List.length_append, List.length_singleton] at hrs
    omega
  · exact hnext ahead

/-- A pass keeps the results and adds the dice that it draws. -/
theorem spends_through (p : Pass) (limit left : Nat) (behind ahead : List DieResult) :
    Spends (p.through one limit left behind ahead) fun k rs =>
      rs.length = behind.length + ahead.length + k := by
  induction limit generalizing left behind ahead with
  | zero =>
    cases ahead with
    | nil => exact spends_pure (by simp)
    | cons r ahead =>
      rw [Pass.through, List.length_cons, Nat.add_comm ahead.length, ← Nat.add_assoc]
      refine spends_inspect hone p r (fun ahead => ?_) ahead
      generalize (if p.hits r = true then p.mark r else r) = r'
      dsimp only
      split
      · exact spends_pure (by simp; omega)
      · exact spends_throw _
  | succ limit ih =>
    cases ahead with
    | nil => exact spends_pure (by simp)
    | cons r ahead =>
      rw [Pass.through, List.length_cons, Nat.add_comm ahead.length, ← Nat.add_assoc]
      refine spends_inspect hone p r (fun ahead => ?_) ahead
      generalize (if p.hits r = true then p.mark r else r) = r'
      dsimp only
      split
      · exact spends_pure (by simp; omega)
      · exact ih _ _ _

theorem spends_effect (pinned : Bool) (d : Denomination) (e : Modifier.Effect)
    (rs : List DieResult) :
    Spends (effect pinned d one e rs) fun k rs' => rs'.length = rs.length + k := by
  unfold effect
  split
  · split
    · exact spends_pure rfl
    · exact (spends_through hone _ _ _ [] rs).mono fun k rs' hrs => by simpa using hrs
  · exact spends_pure (Modifier.Effect.length_apply _ _ e rs)

theorem spends_modify (pinned : Bool) (d : Denomination) (ms : List Modifier)
    (rs : List DieResult) :
    Spends (modify pinned d one ms rs) fun k rs' => rs'.length = rs.length + k := by
  induction ms generalizing rs with
  | nil => exact spends_pure rfl
  | cons m rest ih =>
    refine (spends_effect hone pinned d m.effect rs).bind fun k rs' hrs' =>
      (ih rs').mono fun n rs'' hrs'' => ?_
    omega

end

theorem spends_results (pinned : Bool) (ticket : Option Ticket) (d : Dice) :
    Spends (results pinned ticket d) fun k rs => rs.length = d.results.length + k := by
  have hone := spends_draw d.denomination ticket
  refine (spends_drawMany hone _ []).bind fun k drawn hdrawn =>
    (spends_modify hone pinned d.denomination d.modifiers _).mono fun n rs hrs => ?_
  simp only [List.length_append, List.length_nil] at hrs hdrawn
  omega

/-- Dice hold one result more for each die that is drawn for them. -/
theorem spends_dice (pinned : Bool) (d : Dice) :
    Spends (dice pinned d) fun k d' => d'.results.length = d.results.length + k := by
  rw [dice_eq]
  split
  · exact spends_throw _
  · refine (spends_enter d).bind fun k ticket hk =>
      ((spends_results pinned ticket d).returning ticket).bind fun n rs hrs => spends_pure ?_
    simp only [hrs]
    omega

/-! ## Terms -/

/-- A way to evaluate rolls by which those without results come to hold one result for
    each die that is drawn. -/
def Counts (nested : Nested) : Prop :=
  ∀ r : Roll, r.resultCount = 0 → Spends (nested r) fun k x => x.1.resultCount = k

variable {s : Setting} {nested : Nested}

theorem Counts.arguments (hnested : Counts nested) {rs : List Roll}
    (hrs : ∀ r ∈ rs, r.resultCount = 0) :
    Spends (arguments nested rs) fun k xs =>
      Dice.resultCount (Roll.diceOfAll (xs.map Prod.fst)) = k := by
  induction rs with
  | nil => exact spends_pure rfl
  | cons r rest ih =>
    obtain ⟨hr, hrest⟩ := List.forall_mem_cons.mp hrs
    refine (hnested r hr).bind fun k x hx =>
      (ih hrest).bind fun n xs hxs => spends_pure ?_
    rw [List.map_cons, Roll.diceOfAll, Dice.resultCount_append, hxs]
    exact congrArg (· + n) hx

theorem Counts.items (hnested : Counts nested) {rs : List Roll}
    (hrs : ∀ r ∈ rs, r.resultCount = 0) :
    Spends (items nested rs) fun k xs =>
      Dice.resultCount (Roll.diceOfAll (xs.map Prod.fst)) = k := by
  induction rs with
  | nil => exact spends_pure rfl
  | cons r rest ih =>
    obtain ⟨hr, hrest⟩ := List.forall_mem_cons.mp hrs
    refine (hnested r hr).bind fun k x hx => ?_
    obtain ⟨r', total⟩ := x
    cases hw : total.whole? with
    | none => simpa only [hw, fail] using spends_throw _
    | some value =>
      simp only [hw]
      refine (ih hrest).bind fun n xs hxs => spends_pure ?_
      rw [List.map_cons, Roll.diceOfAll, Dice.resultCount_append, hxs]
      exact congrArg (· + n) hx

theorem Counts.term (hnested : Counts nested) {t : Term} (ht : t.resultCount = 0) :
    Spends (term s nested t) fun k t' => t'.resultCount = k := by
  cases t with
  | numeric n a => exact spends_pure rfl
  | operator op a => exact spends_pure rfl
  | dice d =>
    refine (spends_dice s.options.isPinned d).bind fun k d' hd' => spends_pure ?_
    rw [Term.resultCount_dice] at ht ⊢
    omega
  | pool p rolls =>
    have hrolls := Roll.resultCount_diceOfAll.mp ht
    simp only [Evaluation.term]
    split
    · exact (spends_throw (P := fun _ _ => False) _).bind fun _ _ h => h.elim
    · exact (hnested.items hrolls).bind fun k xs hxs => spends_pure hxs
  | function name texts rolls result a =>
    have hrolls := Roll.resultCount_diceOfAll.mp ht
    simp only [Evaluation.term]
    split
    · exact (spends_throw (P := fun _ _ => False) _).bind fun _ _ h => h.elim
    · refine (hnested.arguments hrolls).bind fun k xs hxs => ?_
      split
      · exact spends_pure hxs
      · exact spends_throw _
  | parenthetical text roll a => exact (hnested roll ht).bind fun k x hx => spends_pure hx
  | text content a evaluated =>
    simp only [Evaluation.term]
    split
    · exact spends_pure rfl
    · exact spends_throw _

theorem Counts.pendingTerm (hnested : Counts nested) {t : Term} (ht : t.resultCount = 0) :
    Spends (pendingTerm s nested t) fun k t' => t'.resultCount = k := by
  unfold Evaluation.pendingTerm
  split
  · exact spends_pure ht
  · exact hnested.term ht

theorem Counts.terms (hnested : Counts nested) {ts : List Term}
    (hts : ∀ t ∈ ts, t.resultCount = 0) :
    Spends (terms s nested ts) fun k ts' => Dice.resultCount (Term.diceOfAll ts') = k := by
  induction ts with
  | nil => exact spends_pure rfl
  | cons t rest ih =>
    obtain ⟨ht, hrest⟩ := List.forall_mem_cons.mp hts
    refine (hnested.pendingTerm ht).bind fun k t' ht' =>
      (ih hrest).bind fun n more hmore => spends_pure ?_
    rw [Term.diceOfAll, Dice.resultCount_append, hmore]
    exact congrArg (· + n) ht'

/-- The dice of the terms that are replaced hold what was drawn, and the row that is left
    holds nothing. -/
theorem Counts.collapse (hnested : Counts nested) {ts : List Term}
    (hts : ∀ t ∈ ts, t.resultCount = 0) :
    Spends (collapse s nested ts) fun k x =>
      (∀ t ∈ x.1, t.resultCount = 0) ∧ Dice.resultCount x.2 = k := by
  induction ts with
  | nil => exact spends_pure ⟨nofun, rfl⟩
  | cons t rest ih =>
    obtain ⟨ht, hrest⟩ := List.forall_mem_cons.mp hts
    simp only [Evaluation.collapse]
    split
    · refine (hnested.pendingTerm ht).bind fun k t' ht' => ?_
      split
      · exact spends_throw _
      · refine (ih hrest).bind fun n x hx => spends_pure ?_
        refine ⟨List.forall_mem_cons.mpr ⟨rfl, hx.1⟩, ?_⟩
        rw [Dice.resultCount_append, hx.2]
        exact congrArg (· + n) ht'
    · refine (ih hrest).bind fun n x hx => spends_pure ?_
      exact ⟨List.forall_mem_cons.mpr ⟨ht, hx.1⟩, hx.2⟩

/-! ## Rolls -/

theorem Counts.rollWith (hnested : Counts nested) : Counts (rollWith s nested) := by
  intro r hr
  rw [Roll.resultCount_eq] at hr
  obtain ⟨hcollapsed, hterms⟩ := Nat.add_eq_zero_iff.mp hr
  have hconclude : ∀ {row : List Term} {collapsed : List Dice} (k : Nat),
      (∀ t ∈ row, t.resultCount = 0) → Dice.resultCount collapsed = k →
        Spends (concludeRow s nested r row collapsed) fun n x => x.1.resultCount = k + n := by
    intro row collapsed k hrow hk
    refine (hnested.terms hrow).bind fun n row' hrow' =>
      (spends_liftExcept (P := fun m _ => m = 0) fun _ _ => rfl).bind fun m total hm =>
        spends_pure ?_
    rw [Roll.resultCount_eq, Dice.resultCount_append, hcollapsed, hk, hrow', hm]
    omega
  rw [rollWith_eq]
  split
  · exact spends_throw _
  · refine (hnested.collapse (Term.resultCount_diceOfAll.mp hterms)).bind fun k x hx => ?_
    have hrow := Term.resultCount_simplify hx.1
    split
    · refine (spends_liftExcept (P := fun m _ => m = 0) fun _ _ => rfl).bind fun m _ hm => ?_
      simp only [hm, Nat.zero_add]
      exact hconclude k hrow hx.2
    · exact hconclude k hrow hx.2

theorem counts_rollWithin (s : Setting) (depth : Nat) : Counts (rollWithin s depth) := by
  induction depth with
  | zero => exact fun r _ => spends_throw _
  | succ depth ih => exact ih.rollWith

/-- A roll without results comes to hold one result for each die that its evaluation
    draws. -/
theorem counts_roll (s : Setting) : Counts (roll s) := fun r => counts_rollWithin s r.depth r

end Evaluation

/-! ## Limits -/

variable {σ α : Type} [Roller σ]

/-- A context with another limit on dice. -/
def Context.withLimit (limit : Option Nat) (c : Context σ) : Context σ :=
  { c with config.maxRolls := limit }

/-- Whether a limit allows that many dice. -/
def Allows (limit : Option Nat) (n : Nat) : Prop := ∀ m, limit = some m → n ≤ m

omit [Roller σ] in
theorem Context.count_withLimit_of_allows {limit : Option Nat} {c : Context σ}
    (h : Allows limit (c.rolls + 1)) :
    (c.withLimit limit).count = (false, c.count.2.withLimit limit) := by
  cases limit with
  | none => rfl
  | some m => exact Prod.ext (decide_eq_false (Nat.not_lt.mpr (h m rfl))) rfl

omit [Roller σ] in
theorem Context.count_withLimit_of_lt {m : Nat} {c : Context σ} (h : m < c.rolls + 1) :
    (c.withLimit (some m)).count.1 = true := decide_eq_true h

theorem Plan.drawNow_withLimit (limit : Option Nat) (o : EvaluationOptions) (d : Denomination)
    (c : Context σ) :
    drawNow o d (c.withLimit limit) =
      ((drawNow o d c).1, (drawNow o d c).2.withLimit limit) := by
  unfold drawNow
  split <;> rfl

theorem Plan.rolls_drawNow (o : EvaluationOptions) (d : Denomination) (c : Context σ) :
    (drawNow o d c).2.rolls = c.rolls := by
  unfold drawNow
  split <;> rfl

theorem Plan.rolls_le_runNow (p : Plan α) (o : EvaluationOptions) (c : Context σ) :
    c.rolls ≤ (p.runNow o c).2.rolls := by
  obtain ⟨n, hn, -⟩ := p.always_true.runNow o c
  omega

/-- A failing plan fails at once. -/
theorem Plan.Fails.runNow {p : Plan (Except RollError α)} {e : RollError} (h : p.Fails e)
    (o : EvaluationOptions) (c : Context σ) : (p.runNow o c).1 = .error e := by
  induction p generalizing c with
  | done outcome => exact h
  | leave t next ih => exact ih h c
  | enter | draw => exact h.elim

/-- What a successful plan does within another limit: the same if the limit allows its
    dice, and otherwise it fails. -/
theorem Plan.runNow_withLimit {p : Plan (Except RollError α)} (hstrict : p.Strict)
    {o : EvaluationOptions} {c c' : Context σ} {a : α} (h : p.runNow o c = (.ok a, c'))
    {limit : Option Nat} (hc : Allows limit c.rolls) :
    (Allows limit c'.rolls → p.runNow o (c.withLimit limit) = (.ok a, c'.withLimit limit)) ∧
      (¬ Allows limit c'.rolls → (p.runNow o (c.withLimit limit)).1 = .error .tooManyRolls) := by
  induction p generalizing c with
  | done outcome =>
    cases h
    exact ⟨fun _ => rfl, fun hn => absurd hc hn⟩
  | leave t next ih => exact ih hstrict h hc
  | enter dice next ih =>
    simp only [Plan.runNow] at h ⊢
    have hmethod : (c.withLimit limit).interactiveMethod? o dice = c.interactiveMethod? o dice := rfl
    rw [hmethod]
    split at h
    · have herror := ((hstrict.1 _).runNow o c).symm.trans (congrArg Prod.fst h)
      cases herror
    · exact ih _ (hstrict.2 _) h hc
  | draw d t next ih =>
    simp only [Plan.runNow] at h
    split at h
    · have herror := ((hstrict.1 _).runNow o _).symm.trans (congrArg Prod.fst h)
      cases herror
    · by_cases hnext : Allows limit (c.rolls + 1)
      · simp only [Plan.runNow, Context.count_withLimit_of_allows hnext, Bool.false_eq_true,
          if_false, drawNow_withLimit]
        refine ih _ (hstrict.2 _) h ?_
        rwa [rolls_drawNow]
      · have hle := (next (.ok (drawNow o d c.count.2).1)).rolls_le_runNow o
          (drawNow o d c.count.2).2
        rw [h, rolls_drawNow] at hle
        obtain ⟨m, rfl, hm⟩ : ∃ m, limit = some m ∧ m < c.rolls + 1 := by
          simpa [Allows] using hnext
        refine ⟨fun hallows => absurd (hallows m rfl) ?_, fun _ => ?_⟩
        · exact Nat.not_le.mpr (Nat.lt_of_lt_of_le hm hle)
        · simp only [Plan.runNow, Context.count_withLimit_of_lt hm, if_true]
          exact (hstrict.1 _).runNow o _

/-- The dice that a successful evaluation of a new roll counts are the results that its
    dice hold. With the same roller and functions, it goes the same way within every limit
    that allows so many dice, and fails within any other. -/
theorem Roll.evaluateNow_budget {formula : String} {r r' : Roll} (hnew : Roll.new formula = .ok r)
    {o : EvaluationOptions} {c c' : Context σ} {total : Number}
    (h : r.evaluateNow o c = (.ok (r', total), c')) :
    c'.rolls = r'.resultCount ∧
      ∀ d : Context σ, d.roller = c.roller → d.functions = c.functions →
        d.config.routing = c.config.routing →
        (Allows d.config.maxRolls c'.rolls → r.evaluateNow o d =
          (.ok (r', total), { d with rolls := c'.rolls, roller := c'.roller })) ∧
        (¬ Allows d.config.maxRolls c'.rolls →
          (r.evaluateNow o d).1 = .error .tooManyRolls) := by
  have hrefuse := Roll.refuseNow_of_evaluateNow h
  rw [Roll.evaluateNow_of_refuseNow hrefuse] at h
  have hcontext := Plan.runNow_context (Evaluation.roll ⟨o, c.functions, true⟩ r).run o c.restart
  rw [h] at hcontext
  obtain ⟨hconfig', hfunctions'⟩ : c'.config = c.config ∧ c'.functions = c.functions := hcontext
  refine ⟨?_, fun d hroller hfunctions hrouting => ?_⟩
  · have hcounts := Evaluation.counts_roll ⟨o, c.functions, true⟩ r (Roll.resultCount_new hnew)
    obtain ⟨n, hrolls, hn⟩ := Plan.Always.runNow hcounts o c.restart
    rw [h] at hrolls hn
    exact (hrolls.trans (Nat.zero_add n)).trans (hn _ rfl).symm
  · have hrestart : d.restart = c.restart.withLimit d.config.maxRolls := by
      simp only [Context.restart, Context.withLimit, ← hroller, ← hfunctions, ← hrouting]
    obtain ⟨hallows, hfails⟩ := Plan.runNow_withLimit
      (Evaluation.strict_roll ⟨o, c.functions, true⟩ r) h
      (show Allows d.config.maxRolls c.restart.rolls from fun m _ => Nat.zero_le m)
    rw [Roll.evaluateNow_of_refuseNow hrefuse, hfunctions, hrestart]
    refine ⟨fun ha => (hallows ha).trans ?_, hfails⟩
    simp only [Context.withLimit, hconfig', hfunctions', ← hrouting]

/-- A dice term in parentheses, one die of which is thrown again, next to other dice: six
    dice are drawn, and six results are held. -/
theorem Roll.evaluateNow_budget_rerolled :
    ∃ r r' total c', Roll.new "(2d4r1)+3d6" = .ok r ∧
      r.evaluateNow .rolled (Context.limited none (StepRoller.start 1 1)) =
        (.ok (r', total), c') ∧
      c'.rolls = 6 ∧ r'.resultCount = 6 ∧
      (r.evaluateNow .rolled (Context.limited (some 6) (StepRoller.start 1 1))).1 =
        .ok (r', total) ∧
      (r.evaluateNow .rolled (Context.limited (some 5) (StepRoller.start 1 1))).1 =
        .error .tooManyRolls := by
  have htokens : tokens "(2d4r1)+3d6".toList =
      [⟨.leftParen, ['('], ⟨0, 1⟩⟩, ⟨.dice, ['2', 'd', '4', 'r', '1'], ⟨1, 6⟩⟩,
        ⟨.rightParen, [')'], ⟨6, 7⟩⟩, ⟨.plus, ['+'], ⟨7, 8⟩⟩,
        ⟨.dice, ['3', 'd', '6'], ⟨8, 11⟩⟩] := rfl
  have hparse : parse "(2d4r1)+3d6" = .ok [
      .parenthetical ⟨"2d4r1", [.dice 2 (.die 4) [⟨"r1", .reroll false (some ⟨.equal, 1⟩)⟩]]⟩,
      .operator .add, .dice 3 (.die 6) []] := by
    refine parseChars_eq_ok.mpr ⟨⟨[], 11⟩, ?_, rfl⟩
    rw [htokens]
    have hinner := @Reads.sub "(2d4r1)+3d6".toList _ _ _ (@Reads.expression _ none _ _
      ⟨[⟨.dice, ['2', 'd', '4', 'r', '1'], ⟨1, 6⟩⟩, ⟨.rightParen, [')'], ⟨6, 7⟩⟩,
        ⟨.plus, ['+'], ⟨7, 8⟩⟩, ⟨.dice, ['3', 'd', '6'], ⟨8, 11⟩⟩], 1⟩ _ _ _ rfl
      (.alone (.literal rfl rfl nofun rfl) rfl) (.restEnd rfl rfl))
    exact @Reads.expression _ none _ _ _ _ _ _ rfl (.alone (.group rfl rfl hinner rfl rfl) rfl)
      (.restSum rfl (.alone (.literal rfl rfl nofun rfl) rfl) (.restEnd rfl rfl))
  let row : List Term := [.parenthetical "2d4r1" (Roll.ofTerms [.dice
        ⟨2, .die 4, [⟨"r1", .reroll false (some ⟨.equal, 1⟩)⟩], [], {}, false⟩]) {},
      .operator .add {}, .dice ⟨3, .die 6, [], [], {}, false⟩]
  have hnew : Roll.new "(2d4r1)+3d6" = .ok (Roll.ofTerms row) :=
    Roll.new_eq_ok.mpr ⟨_, row, hparse, rfl, rfl⟩
  have hok : ((Roll.ofTerms row).evaluateNow .rolled
      (Context.limited none (StepRoller.start 1 1))).1.isOk = true := by decide +kernel
  have hrolls : ((Roll.ofTerms row).evaluateNow .rolled
      (Context.limited none (StepRoller.start 1 1))).2.rolls = 6 := by decide +kernel
  obtain ⟨r', total, c', heval⟩ : ∃ r' total c', (Roll.ofTerms row).evaluateNow .rolled
      (Context.limited none (StepRoller.start 1 1)) = (.ok (r', total), c') := by
    generalize (Roll.ofTerms row).evaluateNow .rolled
      (Context.limited none (StepRoller.start 1 1)) = outcome at hok
    obtain ⟨_ | ⟨r', total⟩, c'⟩ := outcome
    · cases hok
    · exact ⟨r', total, c', rfl⟩
  rw [heval] at hrolls
  obtain ⟨hcount, hlimits⟩ := Roll.evaluateNow_budget hnew heval
  refine ⟨_, r', total, c', hnew, heval, hrolls, hcount.symm.trans hrolls, ?_, ?_⟩
  · refine congrArg Prod.fst ((hlimits (Context.limited (some 6) (StepRoller.start 1 1))
      rfl rfl rfl).1 ?_)
    rintro _ ⟨⟩
    exact Nat.le_of_eq hrolls
  · refine (hlimits (Context.limited (some 5) (StepRoller.start 1 1)) rfl rfl rfl).2 fun h => ?_
    exact absurd (h 5 rfl) (by rw [show c'.rolls = 6 from hrolls]; decide)

end DiceNotation
