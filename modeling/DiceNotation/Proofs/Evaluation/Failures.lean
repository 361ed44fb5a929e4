/-
  DiceNotation.Proofs.Evaluation.Failures

  How the evaluation of a formula may fail.

  A roll that was read is never found to be malformed later on: its row is simplified
  to a row again at every depth, whatever its fragments turn out to be, and all that
  is left in it when its total is taken has a value. `Plan.EndsIn` says what a plan
  comes to as long as its surroundings fail only as they may, and `Evaluation.Safe`
  the same of an evaluation, with one rule for each way to build one. So no call for
  the roll of a formula fails but for the reasons of `RollError.CanOccur`
  (`Lifetime.canOccur_of_step`).
-/

import DiceNotation.Proofs.Evaluation.Lifetime
import DiceNotation.Proofs.Roll.New

namespace DiceNotation

open Formula

variable {σ α β : Type} [Roller σ]

/-! ## Failures -/

/-- What may go wrong with the roll of a formula. -/
inductive RollError.CanOccur : RollError → Prop where
  | unresolved (term : String) : CanOccur (.evaluation (.unresolved term))
  | divisionByZero : CanOccur (.evaluation .divisionByZero)
  | unknownFunction (name : String) : CanOccur (.evaluation (.unknownFunction name))
  | invalidArguments (function reason : String) :
      CanOccur (.evaluation (.invalidArguments function reason))
  | nonIntegerPoolResult : CanOccur (.evaluation .nonIntegerPoolResult)
  | cancelled : CanOccur (.evaluation .cancelled)
  | tooManyRolls : CanOccur .tooManyRolls
  | synchronous (term : String) : CanOccur (.synchronous term)

/-- An outcome that meets `Q` if it is none of the failures that may occur. -/
def Sane (Q : α → Prop) : Except RollError α → Prop
  | .ok a => Q a
  | .error e => e.CanOccur

theorem Sane.ok {Q : α → Prop} {a : α} (h : Q a) : Sane Q (.ok a) := h

theorem Sane.error {Q : α → Prop} {e : RollError} (h : e.CanOccur) : Sane Q (.error e) := h

/-! ## Functions -/

namespace NumberFunction

/-- A function that refuses nothing but its arguments. -/
def RefusesArguments (f : NumberFunction) : Prop :=
  ∀ arguments e, f arguments = .error e → ∃ name reason, e = .invalidArguments name reason

theorem refusesArguments_finite {name : String} {x : Float} {e : EvaluationError}
    (h : finite name x = .error e) : ∃ name reason, e = .invalidArguments name reason := by
  unfold finite at h
  split at h
  · cases h
  · cases h
    exact ⟨_, _, rfl⟩

theorem refusesArguments_unary (name : String) (f : Float → Float) :
    (unary name f).RefusesArguments := by
  intro arguments e h
  unfold unary at h
  split at h
  · exact refusesArguments_finite h
  · cases h
    exact ⟨_, _, rfl⟩

theorem refusesArguments_binary (name : String) (f : Float → Float → Float) :
    (binary name f).RefusesArguments := by
  intro arguments e h
  unfold binary at h
  split at h
  · exact refusesArguments_finite h
  · cases h
    exact ⟨_, _, rfl⟩

theorem refusesArguments_folded (name : String) (f : Number → Number → Number) :
    (folded name f).RefusesArguments := by
  intro arguments e h
  unfold folded at h
  split at h
  · cases h
  · cases h
    exact ⟨_, _, rfl⟩

theorem refusesArguments_absolute : absolute.RefusesArguments := by
  intro arguments e h
  unfold absolute at h
  split at h
  · cases h
  · cases h
    exact ⟨_, _, rfl⟩

theorem refusesArguments_hypotenuse : hypotenuse.RefusesArguments :=
  fun _ _ h => refusesArguments_finite h

theorem refusesArguments_clamp : clamp.RefusesArguments := by
  intro arguments e h
  unfold clamp at h
  split at h
  · split at h
    · cases h
      exact ⟨_, _, rfl⟩
    · split at h
      · cases h
      · split at h <;> cases h
  · cases h
    exact ⟨_, _, rfl⟩

end NumberFunction

/-- What is found in a sorted list of entries is one of the entries. -/
theorem Keyed.mem_of_find?_ofList {key : String} {v : α} {entries : List (String × α)}
    (h : Keyed.find? key (Keyed.ofList entries) = some v) : (key, v) ∈ entries := by
  have hset : ∀ (acc : Keyed α) (k : String) (w : α), Keyed.find? key (Keyed.set k w acc) = some v →
      Keyed.find? key acc = some v ∨ (key, v) = (k, w) := by
    intro acc k w hfind
    by_cases hk : key = k
    · subst hk
      rw [Keyed.find?_set] at hfind
      cases hfind
      exact .inr rfl
    · rw [Keyed.find?_set_of_ne hk] at hfind
      exact .inl hfind
  have hfold : ∀ acc : Keyed α, Keyed.find? key
      (entries.foldl (fun acc entry => Keyed.set entry.1 entry.2 acc) acc) = some v →
      Keyed.find? key acc = some v ∨ (key, v) ∈ entries := by
    clear h
    induction entries with
    | nil => exact fun acc hacc => .inl hacc
    | cons e rest ih =>
      intro acc hacc
      obtain hfound | hmem := ih _ hacc
      · obtain hacc | heq := hset _ _ _ hfound
        · exact .inl hacc
        · exact .inr (heq ▸ List.mem_cons_self)
      · exact .inr (List.mem_cons_of_mem _ hmem)
  obtain hnil | hmem := hfold [] h
  · cases hnil
  · exact hmem

/-- Every standard function refuses nothing but its arguments. -/
theorem FunctionRegistry.standard_refusesArguments {name : String} {f : NumberFunction}
    (h : FunctionRegistry.standard.find? name = some f) : f.RefusesArguments := by
  replace h := Keyed.mem_of_find?_ofList h
  simp only [List.mem_cons, Prod.mk.injEq, List.not_mem_nil, or_false] at h
  obtain ⟨-, rfl⟩ | h := h
  · exact NumberFunction.refusesArguments_absolute
  iterate 11
    obtain ⟨-, rfl⟩ | h := h
    · exact NumberFunction.refusesArguments_unary _ _
  obtain ⟨-, rfl⟩ | ⟨-, rfl⟩ | ⟨-, rfl⟩ | ⟨-, rfl⟩ | ⟨-, rfl⟩ := h
  · exact NumberFunction.refusesArguments_binary _ _
  · exact NumberFunction.refusesArguments_folded _ _
  · exact NumberFunction.refusesArguments_folded _ _
  · exact NumberFunction.refusesArguments_hypotenuse
  · exact NumberFunction.refusesArguments_clamp

/-- A call of a standard function fails only because of its name or its arguments. -/
theorem FunctionRegistry.sane_call (name : String) (arguments : List Number)
    {e : EvaluationError} (h : FunctionRegistry.standard.call name arguments = .error e) :
    (RollError.evaluation e).CanOccur := by
  unfold FunctionRegistry.call at h
  split at h
  · rename_i f hfind
    obtain ⟨function, reason, rfl⟩ := standard_refusesArguments hfind arguments e h
    exact .invalidArguments function reason
  · cases h
    exact .unknownFunction name

/-! ## Plans -/

namespace Plan

/-- A plan comes to an outcome that meets `P` as long as what it is answered fails only as
    it may. -/
def EndsIn (P : α → Prop) : Plan α → Prop
  | done a => P a
  | enter _ next => ∀ answer, Sane (fun _ => True) answer → (next answer).EndsIn P
  | draw _ _ next => ∀ answer, Sane (fun _ => True) answer → (next answer).EndsIn P
  | leave _ next => next.EndsIn P

variable {P : α → Prop} {Q : β → Prop}

theorem EndsIn.bind {p : Plan α} {f : α → Plan β} (h : p.EndsIn P)
    (hf : ∀ a, P a → (f a).EndsIn Q) : (p.bind f).EndsIn Q := by
  induction p with
  | done a => exact hf a h
  | enter dice next ih => exact fun answer hanswer => ih answer (h answer hanswer)
  | draw d t next ih => exact fun answer hanswer => ih answer (h answer hanswer)
  | leave t next ih => exact ih h

/-- At once, dice are refused because they would be waited for or because there are too
    many. -/
theorem EndsIn.runNow {p : Plan α} (h : p.EndsIn P) (o : EvaluationOptions) (c : Context σ) :
    P (p.runNow o c).1 := by
  induction p generalizing c with
  | done a => exact h
  | leave t next ih => exact ih h c
  | enter dice next ih =>
    simp only [Plan.runNow]
    split
    · exact ih _ (h _ (.error (.synchronous _))) c
    · exact ih _ (h _ (.ok trivial)) c
  | draw d t next ih =>
    simp only [Plan.runNow]
    split
    · exact ih _ (h _ (.error .tooManyRolls)) _
    · exact ih _ (h _ (.ok trivial)) _

end Plan

/-- A suspended plan has come or will come to an outcome that meets `P`. -/
def Suspended.EndsIn (P : α → Prop) : Suspended α → Prop
  | finished a => P a
  | waiting _ _ next => ∀ answer, Sane (fun _ => True) answer → (next answer).EndsIn P

/-- Step by step, dice are refused because there are too many or because the coordinator
    was cancelled. -/
theorem Plan.EndsIn.advance {P : α → Prop} {p : Plan α} (h : p.EndsIn P)
    {o : EvaluationOptions} {c c' : Context σ} {k k' : Coordinator} {log : List Draw}
    {s : Suspended α} (ha : Advances o p c k log s c' k') : s.EndsIn P := by
  induction ha with
  | done a => exact h
  | untracked _ ih => exact ih (h _ (.ok trivial))
  | tracked _ _ _ _ ih => exact ih (h _ (.ok trivial))
  | leave _ ih => exact ih h
  | tooMany _ _ ih => exact ih (h _ (.error .tooManyRolls))
  | pinned _ _ _ _ ih => exact ih (h _ (.ok trivial))
  | rolled _ _ _ ih => exact ih (h _ (.ok trivial))
  | refused _ _ _ _ ih => exact ih (h _ (.error .cancelled))
  | requested => exact h

theorem Suspended.EndsIn.poll {P : α → Prop} {s : Suspended α} (h : s.EndsIn P)
    (o : EvaluationOptions) (c : Context σ) (k : Coordinator) : (s.poll o c k).1.EndsIn P := by
  cases s with
  | finished a => exact h
  | waiting id d next =>
    simp only [Suspended.poll]
    split
    · exact h
    · exact (h _ (.ok trivial)).advance (Plan.advances o _ c _)
    · exact (h _ (.error .cancelled)).advance (Plan.advances o _ c _)

/-! ## Evaluations -/

namespace Evaluation

/-- An evaluation that succeeds with a result that meets `Q` or fails as it may. -/
def Safe (e : Evaluation α) (Q : α → Prop) : Prop := e.run.EndsIn (Sane Q)

variable {e : Evaluation α} {P Q : α → Prop}

theorem safe_pure {a : α} (h : Q a) : Safe (pure a) Q := h

theorem safe_throw {e : RollError} (h : e.CanOccur) : Safe (throw e) Q := h

theorem safe_fail {e : EvaluationError} (h : (RollError.evaluation e).CanOccur) :
    Safe (fail e) Q := h

theorem safe_liftExcept {x : Except RollError α} (h : Sane Q x) :
    Safe (rollWith.liftExcept x) Q := h

theorem Safe.bind {R : β → Prop} {f : α → Evaluation β} (h : Safe e Q)
    (hf : ∀ a, Q a → Safe (f a) R) : Safe (e >>= f) R := by
  refine Plan.EndsIn.bind h fun outcome houtcome => ?_
  cases outcome with
  | ok a => exact hf a houtcome
  | error e => exact houtcome

theorem safe_enter (d : Dice) : Safe (enter d) fun _ => True := fun _ h => h

theorem safe_draw (d : Denomination) (ticket : Option Ticket) :
    Safe (draw d ticket) fun _ => True := fun _ h => h

theorem Safe.returning (h : Safe e Q) (ticket : Option Ticket) : Safe (returning ticket e) Q := by
  cases ticket with
  | none => exact h
  | some t => exact Plan.EndsIn.bind h fun _ houtcome => houtcome

/-! ## Dice -/

/-- Dice fail as the drawing of one of them does, or because there are too many. -/
theorem Drawing.safe {e : Evaluation Int → Evaluation α} (h : Drawing e) {one : Evaluation Int}
    (hone : Safe one fun _ => True) : Safe (e one) fun _ => True := by
  induction h with
  | pure a => exact safe_pure trivial
  | tooMany => exact safe_throw .tooManyRolls
  | one => exact hone
  | bind _ _ ihe ihf => exact ihe.bind fun a _ => ihf a

theorem safe_dice (pinned : Bool) {d : Dice} (hpending : d.evaluated = false) :
    Safe (dice pinned d) fun d => d.evaluated = true := by
  rw [dice_eq, hpending]
  refine (safe_enter d).bind fun ticket _ => ?_
  obtain ⟨e, he, heq⟩ := drawing_results pinned d
  rw [heq]
  exact ((he.safe (safe_draw _ _)).returning ticket).bind fun _ _ => safe_pure rfl

/-! ## Terms -/

/-- A roll that was evaluated, with its total. -/
def Completed (x : Roll × Number) : Prop := x.1.evaluated = true ∧ x.1.total = some x.2

/-- A way to evaluate new rolls. -/
def Completes (nested : Nested) : Prop := ∀ r : Roll, r.New → Safe (nested r) Completed

variable {s : Setting} {nested : Nested}

theorem Completes.items (hnested : Completes nested) {rs : List Roll} (hrs : ∀ r ∈ rs, r.New) :
    Safe (items nested rs) fun _ => True := by
  induction rs with
  | nil => exact safe_pure trivial
  | cons r rest ih =>
    obtain ⟨hr, hrest⟩ := List.forall_mem_cons.mp hrs
    refine (hnested r hr).bind fun x _ => ?_
    obtain ⟨r', total⟩ := x
    cases hw : total.whole? with
    | none => simpa only [hw] using safe_fail .nonIntegerPoolResult
    | some value => simpa only [hw] using (ih hrest).bind fun _ _ => safe_pure trivial

theorem Completes.arguments (hnested : Completes nested) {rs : List Roll}
    (hrs : ∀ r ∈ rs, r.New) : Safe (arguments nested rs) fun _ => True := by
  induction rs with
  | nil => exact safe_pure trivial
  | cons r rest ih =>
    obtain ⟨hr, hrest⟩ := List.forall_mem_cons.mp hrs
    exact (hnested r hr).bind fun _ _ => (ih hrest).bind fun _ _ => safe_pure trivial

/-- What a term has become: a term of its kind that has a value, unless it is an
    operator. -/
structure Reached (t t' : Term) : Prop where
  kind : t'.kind = t.kind
  valued : t.operator? = none → ∃ n, t'.total = some n

theorem Completes.term (hnested : Completes nested) (hfunctions : s.functions = .standard)
    {t : Term} (ht : t.New) : Safe (term s nested t) (Reached t) := by
  cases ht with
  | numeric n a => exact safe_pure ⟨rfl, fun _ => ⟨n, rfl⟩⟩
  | operator op a => exact safe_pure ⟨rfl, nofun⟩
  | dice hd hpending =>
    refine (safe_dice s.options.isPinned hpending).bind fun d' hd' => safe_pure ⟨rfl, fun _ => ?_⟩
    simp [Term.total, Dice.total, hd']
  | pool hp hpending hrolls =>
    simp only [Evaluation.term, hpending, Bool.false_eq_true, if_false]
    exact (hnested.items hrolls).bind fun _ _ => safe_pure ⟨rfl, fun _ => ⟨_, rfl⟩⟩
  | function hrolls =>
    simp only [Evaluation.term, Option.isSome_none, Bool.false_eq_true, if_false]
    refine (hnested.arguments hrolls).bind fun evaluated _ => ?_
    split
    · exact safe_pure ⟨rfl, fun _ => ⟨_, rfl⟩⟩
    · rename_i e hcall
      rw [hfunctions] at hcall
      exact safe_fail (FunctionRegistry.sane_call _ _ hcall)
  | parenthetical hroll =>
    exact (hnested _ hroll).bind fun x hx => safe_pure ⟨rfl, fun _ => ⟨x.2, hx.2⟩⟩
  | text content a =>
    simp only [Evaluation.term]
    split
    · exact safe_pure ⟨rfl, fun _ => ⟨_, rfl⟩⟩
    · exact safe_fail (.unresolved content)

/-- A new term that needs no evaluation is a number or an operator. -/
theorem reached_of_isEvaluated {t : Term} (ht : t.New) (hevaluated : t.isEvaluated = true) :
    Reached t t := by
  refine ⟨rfl, fun hoperand => ?_⟩
  cases ht with
  | numeric n a => exact ⟨n, rfl⟩
  | operator op a => cases hoperand
  | dice hd hpending => simp [Term.isEvaluated, hpending] at hevaluated
  | pool hp hpending hrolls => simp [Term.isEvaluated, hpending] at hevaluated
  | parenthetical hroll =>
    cases hroll
    cases hevaluated
  | function hrolls => cases hevaluated
  | text content a => cases hevaluated

theorem Completes.pendingTerm (hnested : Completes nested) (hfunctions : s.functions = .standard)
    {t : Term} (ht : t.New) : Safe (pendingTerm s nested t) (Reached t) := by
  unfold Evaluation.pendingTerm
  split
  · exact safe_pure (reached_of_isEvaluated ht ‹_›)
  · exact hnested.term hfunctions ht

/-- Function calls and parentheses give way to their values, and what is left is new. -/
theorem Completes.collapse (hnested : Completes nested) (hfunctions : s.functions = .standard)
    {ts : List Term} (hts : ∀ t ∈ ts, t.New) :
    Safe (collapse s nested ts) fun c =>
      c.1.map Term.kind = ts.map Term.kind ∧ ∀ t ∈ c.1, t.New := by
  induction ts with
  | nil => exact safe_pure ⟨rfl, nofun⟩
  | cons t rest ih =>
    obtain ⟨ht, hrest⟩ := List.forall_mem_cons.mp hts
    have ih := ih hrest
    simp only [Evaluation.collapse]
    split
    · rename_i hintermediate
      have hkind : t.kind = (none, false) := by
        cases t <;> first | rfl | cases hintermediate
      refine (hnested.pendingTerm hfunctions ht).bind fun t' ht' => ?_
      obtain ⟨n, hn⟩ := ht'.valued (congrArg Prod.fst hkind)
      simp only [hn]
      refine ih.bind fun c hc => safe_pure ⟨?_, ?_⟩
      · rw [List.map_cons, List.map_cons, hc.1, hkind]
        rfl
      · exact List.forall_mem_cons.mpr ⟨.numeric _ _, hc.2⟩
    · refine ih.bind fun c hc => safe_pure ⟨?_, List.forall_mem_cons.mpr ⟨ht, hc.2⟩⟩
      rw [List.map_cons, List.map_cons, hc.1]

/-- The terms of a row come to have values where they stand. -/
theorem Completes.terms (hnested : Completes nested) (hfunctions : s.functions = .standard)
    {ts : List Term} (hts : ∀ t ∈ ts, t.New) :
    Safe (terms s nested ts) fun us =>
      us.map Term.operator? = ts.map Term.operator? ∧
        ∀ u ∈ us, u.operator? = none → ∃ n, u.total = some n := by
  induction ts with
  | nil => exact safe_pure ⟨rfl, nofun⟩
  | cons t rest ih =>
    obtain ⟨ht, hrest⟩ := List.forall_mem_cons.mp hts
    refine (hnested.pendingTerm hfunctions ht).bind fun t' ht' => (ih hrest).bind fun us hus => ?_
    have hoperator := Term.operator?_of_kind ht'.kind
    refine safe_pure ⟨?_, List.forall_mem_cons.mpr ⟨fun h => ?_, hus.2⟩⟩
    · rw [List.map_cons, List.map_cons, hus.1, hoperator]
    · exact ht'.valued (hoperator.symm.trans h)

/-! ## Rolls -/

/-- The total of a row whose operands have values fails with a division at most. -/
theorem sane_totalOf (formula : String) {ts : List Term} (hrow : Infix.IsRow ts)
    (hvalued : ∀ t ∈ ts, t.operator? = none → ∃ n, t.total = some n) :
    Sane (fun _ => True) (Term.totalOf formula ts) := by
  have hvalues : ∀ t ∈ ts, t.operator? = none → ∃ n, t.valueOf = .ok n := by
    intro t ht hoperand
    obtain ⟨n, hn⟩ := hvalued t ht hoperand
    exact ⟨n, by simp only [Term.valueOf, hn]⟩
  obtain ⟨tree, htree, hall⟩ := Infix.Tree.ofInfix_all hrow hvalues
  simp only [Term.totalOf, htree]
  cases heval : tree.evaluate Term.valueOf .ofDivision with
  | ok n => trivial
  | error e =>
    obtain ⟨d, rfl⟩ := hall.evaluate RollError.ofDivision e heval
    cases d
    exact .divisionByZero

theorem sane_refuseChance (o : EvaluationOptions) (ts : List Term) :
    Sane (fun _ => True) (refuseChance o ts) := by
  unfold refuseChance
  split
  · split
    · exact .synchronous _
    · trivial
  · trivial

/-- A new roll is evaluated if those inside it are. -/
theorem Completes.rollWith (hnested : Completes nested) (hfunctions : s.functions = .standard) :
    Completes (rollWith s nested) := by
  intro r hr
  obtain ⟨hgrouped, hterms⟩ := hr
  have hconclude : ∀ r row collapsed, Infix.IsRow row → (∀ t ∈ row, t.New) →
      Safe (concludeRow s nested r row collapsed) Completed := by
    intro r row collapsed hrow hnew
    refine (hnested.terms hfunctions hnew).bind fun us hus => ?_
    have hus' : Infix.IsRow us := hrow.of_operators hus.1
    exact (safe_liftExcept (sane_totalOf r.formula hus' hus.2)).bind fun _ _ =>
      safe_pure ⟨rfl, rfl⟩
  rw [rollWith_eq]
  refine (hnested.collapse hfunctions hterms).bind fun c hc => ?_
  obtain ⟨hrow, hnew⟩ := Term.isRow_simplify (hgrouped.of_kind hc.1) hc.2
  split
  · exact (safe_liftExcept (sane_refuseChance _ _)).bind fun _ _ => hconclude _ _ _ hrow hnew
  · exact hconclude _ _ _ hrow hnew

/-- A new roll is evaluated or fails as it may. -/
theorem safe_roll (hfunctions : s.functions = .standard) {r : Roll} (hr : r.New) :
    Safe (roll s r) Completed := by
  have hwithin : ∀ depth, Completes (rollWithin s depth) := by
    intro depth
    induction depth with
    | zero => exact fun r _ => safe_throw .tooManyRolls
    | succ depth ih => exact ih.rollWith hfunctions
  exact hwithin r.depth r hr

end Evaluation

/-! ## Calls -/

theorem Roll.sane_evaluateNow {r : Roll} (hr : r.New) (o : EvaluationOptions) {c : Context σ}
    (hfunctions : c.functions = .standard) :
    Sane Evaluation.Completed (r.evaluateNow o c).1 ∧
      (r.evaluateNow o c).2.functions = .standard := by
  have hpending : r.evaluated = false := by
    cases hr
    rfl
  cases hrefuse : r.refuseNow o with
  | error e =>
    have hsane := Evaluation.sane_refuseChance o r.terms
    simp only [Roll.refuseNow, hpending, Bool.false_eq_true, if_false] at hrefuse
    simp only [Roll.evaluateNow, Roll.refuseNow, hpending, Bool.false_eq_true, if_false, hrefuse]
    rw [hrefuse] at hsane
    exact ⟨hsane, hfunctions⟩
  | ok u =>
    rw [Roll.evaluateNow_of_refuseNow hrefuse]
    have hsafe := Evaluation.safe_roll (s := ⟨o, c.functions, true⟩) hfunctions hr
    exact ⟨hsafe.runNow o c.restart, (Plan.runNow_context _ o c.restart).2.trans hfunctions⟩

theorem Suspended.poll_functions (s : Suspended α) (o : EvaluationOptions) (c : Context σ)
    (k : Coordinator) : (s.poll o c k).2.1.functions = c.functions := by
  cases s with
  | finished a => rfl
  | waiting id d next =>
    simp only [Suspended.poll]
    split
    · rfl
    · exact (Plan.advances o _ c _).context.2
    · exact (Plan.advances o _ c _).context.2

namespace Lifetime

/-- What holds of the roll of a formula at any time, with the standard functions: until it
    is evaluated it is new, and a call under way fails as it may. -/
structure Proper (s : Lifetime σ) : Prop where
  functions : s.context.functions = .standard
  pending : s.live.roll.evaluated = false → s.live.roll.New
  attempt : ∀ a, s.attempt? = some a → a.state.EndsIn (Sane Evaluation.Completed)

/-- A move that leaves things proper, and with which a call fails as it may if it does. -/
structure Accepts (s : Lifetime σ) (result : Option (Except RollError Number) × Lifetime σ) :
    Prop where
  proper : result.2.Proper
  canOccur : s.live.roll.evaluated = false → ∀ e, result.1 = some (.error e) → e.CanOccur

variable {s : Lifetime σ}

omit [Roller σ] in
theorem proper_of_idle (hfunctions : s.context.functions = .standard)
    (hpending : s.live.roll.evaluated = false → s.live.roll.New) (hidle : s.attempt? = none) :
    s.Proper := by
  refine ⟨hfunctions, hpending, fun a ha => ?_⟩
  cases hidle.symm.trans ha

omit [Roller σ] in
/-- An evaluation that was carried on replaces the roll by an evaluated one or leaves it. -/
theorem Proper.pending_settle (h : s.Proper) {a : LiveRoll.Attempt}
    (ha : a.state.EndsIn (Sane Evaluation.Completed)) (k : Coordinator)
    (hpending : (s.live.settle a k).roll.evaluated = false) : (s.live.settle a k).roll.New := by
  obtain ⟨o, state⟩ := a
  cases state with
  | waiting id d next => exact h.pending hpending
  | finished outcome =>
    cases outcome with
    | error e => exact h.pending hpending
    | ok x => cases hpending.symm.trans ha.1

omit [Roller σ] in
/-- A move with which no call is over fails in no way. -/
theorem Proper.accepts {s' : Lifetime σ} (h : s'.Proper) : Accepts s (none, s') := ⟨h, nofun⟩

omit [Roller σ] in
/-- A call that goes on is over with a failure that may occur, or stays under way. -/
theorem accepts_goOn {a : LiveRoll.Attempt} (ha : a.state.EndsIn (Sane Evaluation.Completed))
    {live : LiveRoll} (hlive : live.roll.evaluated = false → live.roll.New) {context : Context σ}
    (hcontext : context.functions = .standard) :
    Accepts s (goOn a { s with live, context }) := by
  obtain ⟨o, state⟩ := a
  cases state with
  | waiting id d next =>
    refine Proper.accepts ⟨hcontext, hlive, ?_⟩
    rintro _ ⟨⟩
    exact ha
  | finished outcome =>
    refine ⟨proper_of_idle hcontext hlive rfl, fun _ e he => ?_⟩
    cases outcome with
    | error e' =>
      cases he
      exact ha
    | ok x => cases he

theorem Proper.evaluateNow (h : s.Proper) (hnone : s.attempt? = none) (o : EvaluationOptions) :
    Accepts s (s.step (.evaluateNow o)) := by
  simp only [step, hnone, LiveRoll.evaluateNow]
  cases hevaluated : s.live.roll.evaluated with
  | true =>
    simp only [Roll.evaluateNow, Roll.refuseNow, hevaluated, if_true]
    refine ⟨proper_of_idle h.functions h.pending rfl, fun hpending => ?_⟩
    cases hevaluated.symm.trans hpending
  | false =>
    obtain ⟨hsane, hfunctions⟩ := Roll.sane_evaluateNow (h.pending hevaluated) o h.functions
    rcases hnow : s.live.roll.evaluateNow o s.context with ⟨_ | x, context⟩
    · rw [hnow] at hsane hfunctions
      refine ⟨proper_of_idle hfunctions h.pending rfl, ?_⟩
      rintro - _ ⟨⟩
      exact hsane
    · rw [hnow] at hsane hfunctions
      refine ⟨proper_of_idle hfunctions (fun hpending => ?_) rfl, fun _ e he => by cases he⟩
      cases hpending.symm.trans hsane.1

/-- Every move leaves things proper, as long as the functions stay the standard ones. -/
theorem Proper.step (h : s.Proper) (m : Move σ)
    (hm : ∀ context, m = .equip context → context.functions = .standard) :
    Accepts s (s.step m) := by
  cases hattempt : s.attempt? with
  | none =>
    cases m with
    | evaluateNow o => exact h.evaluateNow hattempt o
    | begin o =>
      simp only [Lifetime.step, hattempt, LiveRoll.begin]
      split
      · rename_i hevaluated
        refine ⟨proper_of_idle h.functions h.pending rfl, fun hpending => ?_⟩
        cases hpending.symm.trans hevaluated
      · rename_i hevaluated
        have hnew := h.pending (Bool.eq_false_iff.mpr hevaluated)
        have hsafe := Evaluation.safe_roll (s := ⟨o, s.context.functions, false⟩) h.functions hnew
        have hadvances := Plan.advances o (Evaluation.roll ⟨o, s.context.functions, false⟩
          s.live.roll).run s.context.restart s.live.coordinator
        exact accepts_goOn (hsafe.advance hadvances)
          (h.pending_settle (hsafe.advance hadvances) _) (hadvances.context.2.trans h.functions)
    | other e => exact Proper.accepts ⟨h.functions, h.pending, h.attempt⟩
    | equip context =>
      simp only [Lifetime.step, hattempt]
      exact Proper.accepts (proper_of_idle (hm context rfl) h.pending rfl)
    | poll | giveUp =>
      simp only [Lifetime.step, hattempt]
      exact h.accepts
  | some a =>
    have ha := h.attempt a hattempt
    cases m with
    | poll =>
      simp only [Lifetime.step, hattempt, LiveRoll.poll]
      split
      · exact accepts_goOn ha h.pending h.functions
      · have hpolled := ha.poll a.options s.context s.live.coordinator
        exact accepts_goOn hpolled (h.pending_settle hpolled _)
          ((Suspended.poll_functions _ _ _ _).trans h.functions)
    | giveUp =>
      simp only [Lifetime.step, hattempt]
      refine Proper.accepts (proper_of_idle h.functions ?_ rfl)
      rw [LiveRoll.roll_giveUp]
      exact h.pending
    | other e => exact Proper.accepts ⟨h.functions, h.pending, h.attempt⟩
    | evaluateNow o | begin o | equip context =>
      simp only [Lifetime.step, hattempt]
      exact h.accepts

theorem Proper.run (h : s.Proper) (moves : List (Move σ))
    (hmoves : ∀ context, .equip context ∈ moves → context.functions = .standard) :
    (run moves s).Proper := by
  induction moves generalizing s with
  | nil => exact h
  | cons m rest ih =>
    refine ih (h.step m fun context heq => ?_).proper fun context hmem => ?_
    · exact hmoves context (heq ▸ List.mem_cons_self)
    · exact hmoves context (List.mem_cons_of_mem _ hmem)

omit [Roller σ] in
theorem proper_start {r : Roll} (hr : r.New) (k? : Option Coordinator) {c : Context σ}
    (hc : c.functions = .standard) (waiters : List Waiter) : (start ⟨r, k?⟩ c waiters).Proper :=
  proper_of_idle hc (fun _ => hr) rfl

/-- Whatever was done with the roll of a formula and whoever waits at its coordinator: as
    long as it was not evaluated, a call for it, at once or step by step, fails for one of
    the reasons of `RollError.CanOccur`, if it does. So the roll of a formula is never found
    to be malformed, and no term is left without a value when the total is taken. -/
theorem canOccur_of_step {formula : String} {data : Json} {r : Roll}
    (h : Roll.withData formula data = .ok r) (k? : Option Coordinator) {c : Context σ}
    (hc : c.functions = .standard) (waiters : List Waiter) (history : List (Move σ))
    (hhistory : ∀ context, .equip context ∈ history → context.functions = .standard)
    (m : Move σ) {e : RollError}
    (hpending : (run history (start ⟨r, k?⟩ c waiters)).live.roll.evaluated = false)
    (hfails : ((run history (start ⟨r, k?⟩ c waiters)).step m).1 = some (.error e)) :
    e.CanOccur := by
  have hproper := (proper_start (Roll.new_of_withData h) k? hc waiters).run history hhistory
  refine (hproper.step m ?_).canOccur hpending e hfails
  -- with another context for the next calls no call ends
  rintro context rfl
  simp only [step] at hfails
  split at hfails <;> simp_all

/-- One divided by zero. -/
theorem canOccur_of_step_division :
    ∃ r, Roll.withData "1 / 0" .null = .ok r ∧
      ((start ⟨r, none⟩ (.ofRoller (StepRoller.start 1 1)) []).step (.evaluateNow {})).1 =
        some (.error (.evaluation .divisionByZero)) ∧
      (RollError.evaluation .divisionByZero).CanOccur := by
  have htokens : tokens "1 / 0".toList =
      [⟨.number, ['1'], ⟨0, 1⟩⟩, ⟨.slash, ['/'], ⟨2, 3⟩⟩, ⟨.number, ['0'], ⟨4, 5⟩⟩] := rfl
  have hparse : parse "1 / 0" = .ok [.number (.int 1), .operator .div, .number (.int 0)] := by
    refine parseChars_eq_ok.mpr ⟨⟨[], 5⟩, ?_, rfl⟩
    rw [htokens]
    refine @Reads.expression _ none _ _ _ _ _ _ rfl (.alone (.literal rfl rfl nofun rfl) rfl) ?_
    exact @Reads.restProduct _ _ none _ _ _ _ _ _ rfl rfl rfl
      (.alone (.literal rfl rfl nofun rfl) rfl) (.restEnd rfl rfl)
  have hnew : Roll.withData "1 / 0" .null = .ok (Roll.ofTerms
      [.numeric (.int 1) {}, .operator .div {}, .numeric (.int 0) {}]) :=
    Roll.new_eq_ok.mpr ⟨_, _, hparse, rfl, rfl⟩
  refine ⟨_, hnew, rfl, ?_⟩
  exact canOccur_of_step (c := .ofRoller (StepRoller.start 1 1)) hnew none rfl [] [] nofun
    (.evaluateNow {}) rfl rfl

end Lifetime

end DiceNotation
