/-
  DiceNotation.Proofs.Roll.Scaled

  What scaling does to a roll.

  Scaling is refused exactly if the roll, or an item of its pools at any depth, was
  evaluated (`Roll.Locked`). Where it is not, formulas and the texts of pools are in
  step with the terms afterwards (`Roll.InStep`). Where it is, what stands before the
  item that refuses is scaled all the same, and the rest stays as it was, the formula
  among it (`Roll.Interrupted`). Rolls that were read from formulas are evaluated as a
  whole or not at all, so that a refused change leaves them as they were
  (`Roll.Uniform`).
-/

import DiceNotation.Proofs.Record.Storable
import DiceNotation.Record.Basic

namespace DiceNotation

/-! ## One after the other -/

/-- Changes the members of a row one after the other until one refuses. -/
def changeEach {α : Type} (change : α → α × Option RollError) :
    List α → List α × Option RollError
  | [] => ([], none)
  | a :: rest =>
    let (a, refusal) := change a
    if refusal.isSome then (a :: rest, refusal)
    else
      let (rest, refusal) := changeEach change rest
      (a :: rest, refusal)

theorem Term.alterAll_eq (s : Scaling) (ts : List Term) :
    Term.alterAll s ts = changeEach (Term.alter s) ts := by
  induction ts with
  | nil => rw [Term.alterAll, changeEach]
  | cons t rest ih => rw [Term.alterAll, changeEach, ih]

theorem Roll.alterAll_eq (s : Scaling) (rs : List Roll) :
    Roll.alterAll s rs = changeEach (Roll.alter s) rs := by
  induction rs with
  | nil => rw [Roll.alterAll, changeEach]
  | cons r rest ih => rw [Roll.alterAll, changeEach, ih]

/-- A row in which the members before one are changed and that one refuses. -/
structure StopsAt {α : Type} (change : α → α × Option RollError) (before : List α) (a : α)
    (e : RollError) : Prop where
  passed : ∀ b ∈ before, (change b).2 = none
  refused : (change a).2 = some e

section

variable {α : Type} {change : α → α × Option RollError}

theorem changeEach_cons_of_none {a : α} (ha : (change a).2 = none) (rest : List α) :
    changeEach change (a :: rest) =
      ((change a).1 :: (changeEach change rest).1, (changeEach change rest).2) := by
  simp [changeEach, ha]

/-- Where nobody refuses, all are changed. -/
theorem changeEach_of_none {as : List α} (h : ∀ a ∈ as, (change a).2 = none) :
    changeEach change as = (as.map fun a => (change a).1, none) := by
  induction as with
  | nil => rfl
  | cons a rest ih =>
    obtain ⟨ha, hrest⟩ := List.forall_mem_cons.mp h
    rw [changeEach_cons_of_none ha, ih hrest, List.map_cons]

/-- What stands behind the first that refuses stays as it was. -/
theorem StopsAt.changeEach_eq {before : List α} {a : α} {e : RollError}
    (h : StopsAt change before a e) (after : List α) :
    changeEach change (before ++ a :: after) =
      (before.map (fun b => (change b).1) ++ (change a).1 :: after, some e) := by
  obtain ⟨hpassed, hrefused⟩ := h
  induction before with
  | nil => simp [changeEach, hrefused]
  | cons b before ih =>
    obtain ⟨hb, hbefore⟩ := List.forall_mem_cons.mp hpassed
    rw [List.cons_append, changeEach_cons_of_none hb, ih hbefore, List.map_cons, List.cons_append]

/-- Nobody in a row refuses, or somebody does first. -/
theorem all_pass_or_stopsAt (change : α → α × Option RollError) (as : List α) :
    (∀ a ∈ as, (change a).2 = none) ∨
      ∃ before a after e, as = before ++ a :: after ∧ StopsAt change before a e := by
  induction as with
  | nil => exact .inl nofun
  | cons a rest ih =>
    cases ha : (change a).2 with
    | some e => exact .inr ⟨[], a, rest, e, rfl, nofun, ha⟩
    | none =>
      obtain hall | ⟨before, b, after, e, rfl, hstops⟩ := ih
      · exact .inl (List.forall_mem_cons.mpr ⟨ha, hall⟩)
      · refine .inr ⟨a :: before, b, after, e, rfl, ?_, hstops.refused⟩
        exact List.forall_mem_cons.mpr ⟨ha, hstops.passed⟩

end

/-! ## Rolls in pools -/

/-- The items of a pool. -/
def Term.pooled : Term → List Roll
  | .pool _ rolls => rolls
  | _ => []

theorem Term.mem_rolls_of_pooled {t : Term} {i : Roll} (h : i ∈ t.pooled) : i ∈ t.rolls := by
  cases t with
  | pool p rolls => exact h
  | _ => cases h

/-- What holds of a roll if it holds of the rolls inside it holds of all rolls. -/
theorem Roll.induction {P : Roll → Prop} (h : ∀ r : Roll, (∀ t ∈ r.terms, ∀ i ∈ t.rolls, P i) → P r)
    (r : Roll) : P r := by
  have hnone : ∀ i ∈ ([] : List Roll), P i := List.forall_mem_nil _
  refine @Roll.rec P (fun t => ∀ i ∈ t.rolls, P i) (fun ts => ∀ t ∈ ts, ∀ i ∈ t.rolls, P i)
    (fun rs => ∀ i ∈ rs, P i) ?_ ?_ ?_ ?_ ?_ ?_ ?_ ?_ ?_ ?_ ?_ ?_ r
  · exact fun _ _ _ terms _ _ _ hterms => h _ hterms
  · exact fun _ _ => hnone
  · exact fun _ _ => hnone
  · exact fun _ => hnone
  · exact fun _ _ hrolls => hrolls
  · exact fun _ _ _ _ _ hrolls => hrolls
  · exact fun _ _ _ hroll => List.forall_mem_singleton.mpr hroll
  · exact fun _ _ _ => hnone
  · exact List.forall_mem_nil _
  · exact fun _ _ ht hrest => List.forall_mem_cons.mpr ⟨ht, hrest⟩
  · exact hnone
  · exact fun _ _ hr hrest => List.forall_mem_cons.mpr ⟨hr, hrest⟩

/-! ## One step -/

section

variable {s : Scaling} {r : Roll}

theorem Roll.alter_of_evaluated (h : r.evaluated = true) (s : Scaling) :
    r.alter s = (r, some .alreadyEvaluated) := by
  obtain ⟨formula, data, annotations, terms, total, evaluated, collapsed⟩ := r
  rw [Roll.alter, if_pos h]

/-- A roll whose terms are all scaled has the formula of the scaled terms. -/
theorem Roll.alter_of_none (hpending : r.evaluated = false)
    (h : ∀ t ∈ r.terms, (t.alter s).2 = none) :
    r.alter s =
      ({ r with
          formula := Roll.formulaOf (r.terms.map fun t => (t.alter s).1)
          terms := r.terms.map fun t => (t.alter s).1 }, none) := by
  obtain ⟨formula, data, annotations, terms, total, evaluated, collapsed⟩ := r
  rw [Roll.alter, if_neg (by simpa using hpending), Term.alterAll_eq, changeEach_of_none h]
  rfl

/-- A roll that has a term that refuses keeps its formula. -/
theorem Roll.alter_of_stopsAt (hpending : r.evaluated = false) {before after : List Term}
    {t : Term} {e : RollError} (hterms : r.terms = before ++ t :: after)
    (h : StopsAt (Term.alter s) before t e) :
    r.alter s =
      ({ r with terms := before.map (fun t => (t.alter s).1) ++ (t.alter s).1 :: after },
        some e) := by
  obtain ⟨formula, data, annotations, terms, total, evaluated, collapsed⟩ := r
  obtain rfl : terms = before ++ t :: after := hterms
  rw [Roll.alter, if_neg (by simpa using hpending), Term.alterAll_eq, h.changeEach_eq]
  rfl

/-- A pool whose items are all scaled has their formulas for texts. -/
theorem Term.alter_pool_of_none {rolls : List Roll} (p : Pool)
    (h : ∀ i ∈ rolls, (i.alter s).2 = none) :
    (Term.pool p rolls).alter s =
      (.pool { p with items := (rolls.map fun i => (i.alter s).1).map (·.formula) }
        (rolls.map fun i => (i.alter s).1), none) := by
  rw [Term.alter, Roll.alterAll_eq, changeEach_of_none h]
  rfl

/-- A pool that has an item that refuses keeps its texts. -/
theorem Term.alter_pool_of_stopsAt {done behind : List Roll} {i : Roll} {e : RollError} (p : Pool)
    (h : StopsAt (Roll.alter s) done i e) :
    (Term.pool p (done ++ i :: behind)).alter s =
      (.pool p (done.map (fun i => (i.alter s).1) ++ (i.alter s).1 :: behind), some e) := by
  rw [Term.alter, Roll.alterAll_eq, h.changeEach_eq]
  rfl

/-- A term none of whose items refuses does not refuse. -/
theorem Term.alter_of_none {t : Term} (h : ∀ i ∈ t.pooled, (i.alter s).2 = none) :
    (t.alter s).2 = none := by
  cases t with
  | pool p rolls => exact congrArg Prod.snd (Term.alter_pool_of_none p h)
  | _ => simp [Term.alter]

/-- A term refuses for an item. -/
theorem Term.exists_of_refused {t : Term} {e : RollError} (h : (t.alter s).2 = some e) :
    ∃ p done i behind, t = .pool p (done ++ i :: behind) ∧ StopsAt (Roll.alter s) done i e := by
  obtain hall | ⟨done, i, behind, e', hrolls, hstops⟩ := all_pass_or_stopsAt (Roll.alter s) t.pooled
  · rw [Term.alter_of_none hall] at h
    cases h
  · cases t with
    | pool p rolls =>
      obtain rfl : rolls = done ++ i :: behind := hrolls
      rw [Term.alter_pool_of_stopsAt p hstops] at h
      cases h
      exact ⟨p, done, i, behind, rfl, hstops⟩
    | _ => exact absurd hrolls.symm (by simp [Term.pooled])

end

/-! ## Refusals -/

/-- A roll that was evaluated, or that has a pool with such an item at any depth. -/
inductive Roll.Locked : Roll → Prop where
  | evaluated {r : Roll} (h : r.evaluated = true) : Roll.Locked r
  | item {r : Roll} {t : Term} {i : Roll} (ht : t ∈ r.terms) (hi : i ∈ t.pooled)
      (h : Roll.Locked i) : Roll.Locked r

/-- What a refused change leaves of a roll: as much as there was if the roll was evaluated, and
    otherwise a pool among its terms has an item that refuses. The terms before the pool and
    the items before the item are scaled, and nothing else is changed, but for what the item
    itself is left as. -/
inductive Roll.Interrupted (s : Scaling) : Roll → Roll → Prop where
  | whole {r : Roll} (h : r.evaluated = true) : Roll.Interrupted s r r
  | inside {r : Roll} {before after : List Term} {p : Pool} {done behind : List Roll}
      {item item' : Roll} (hpending : r.evaluated = false)
      (hterms : r.terms = before ++ .pool p (done ++ item :: behind) :: after)
      (hbefore : ∀ t ∈ before, (t.alter s).2 = none)
      (hdone : ∀ i ∈ done, (i.alter s).2 = none) (hitem : Roll.Interrupted s item item') :
      Roll.Interrupted s r { r with
        terms := before.map (fun t => (t.alter s).1) ++
          .pool p (done.map (fun i => (i.alter s).1) ++ item' :: behind) :: after }

/-- A formula that is the one of the terms, and pools whose texts are the formulas of their
    items, at any depth. -/
inductive Roll.InStep : Roll → Prop where
  | mk {r : Roll} (hformula : r.formula = Roll.formulaOf r.terms)
      (htexts : ∀ p rolls, .pool p rolls ∈ r.terms → p.items = rolls.map (·.formula))
      (hitems : ∀ t ∈ r.terms, ∀ i ∈ t.pooled, Roll.InStep i) : Roll.InStep r

section

variable {s : Scaling} {r : Roll}

/-- Whoever refuses was evaluated, and is left as far as the change had come. -/
theorem Roll.interrupted_of_refused {e : RollError} (h : (r.alter s).2 = some e) :
    e = .alreadyEvaluated ∧ Roll.Interrupted s r (r.alter s).1 := by
  induction r using Roll.induction generalizing e with
  | h r ih =>
    cases hevaluated : r.evaluated with
    | true =>
      rw [Roll.alter_of_evaluated hevaluated] at h ⊢
      cases h
      exact ⟨rfl, .whole hevaluated⟩
    | false =>
      obtain hall | ⟨before, t, after, e', hterms, hstops⟩ :=
        all_pass_or_stopsAt (Term.alter s) r.terms
      · rw [Roll.alter_of_none hevaluated hall] at h
        cases h
      · rw [Roll.alter_of_stopsAt hevaluated hterms hstops] at h ⊢
        cases h
        obtain ⟨p, done, i, behind, rfl, hitem⟩ := Term.exists_of_refused hstops.refused
        have ht : .pool p (done ++ i :: behind) ∈ r.terms := by simp [hterms]
        obtain ⟨rfl, hinside⟩ := ih _ ht i (by simp [Term.rolls]) hitem.refused
        rw [Term.alter_pool_of_stopsAt p hitem]
        exact ⟨rfl, .inside hevaluated hterms hstops.passed hitem.passed hinside⟩

theorem Roll.Interrupted.locked {r' : Roll} (h : Roll.Interrupted s r r') : r.Locked := by
  induction h with
  | whole h => exact .evaluated h
  | @inside r before after p done behind item item' _ hterms _ _ _ ih =>
    have ht : .pool p (done ++ item :: behind) ∈ r.terms := by simp [hterms]
    exact .item ht (by simp [Term.pooled]) ih

/-- A roll that does not refuse was not evaluated, and none of its terms refuses. -/
theorem Roll.passed_of_none (h : (r.alter s).2 = none) :
    r.evaluated = false ∧ ∀ t ∈ r.terms, (t.alter s).2 = none := by
  cases hevaluated : r.evaluated with
  | true =>
    rw [Roll.alter_of_evaluated hevaluated] at h
    cases h
  | false =>
    obtain hall | ⟨before, t, after, e, hterms, hstops⟩ :=
      all_pass_or_stopsAt (Term.alter s) r.terms
    · exact ⟨rfl, hall⟩
    · rw [Roll.alter_of_stopsAt hevaluated hterms hstops] at h
      cases h

/-- A term that does not refuse has no item that does. -/
theorem Term.passed_of_none {t : Term} (h : (t.alter s).2 = none) :
    ∀ i ∈ t.pooled, (i.alter s).2 = none := by
  cases t with
  | pool p rolls =>
    obtain hall | ⟨done, i, behind, e, rfl, hstops⟩ := all_pass_or_stopsAt (Roll.alter s) rolls
    · exact hall
    · rw [Term.alter_pool_of_stopsAt p hstops] at h
      cases h
  | _ => exact nofun

theorem Roll.Locked.alter_ne_none (h : r.Locked) : (r.alter s).2 ≠ none := by
  induction h with
  | evaluated h =>
    rw [Roll.alter_of_evaluated h]
    exact nofun
  | item ht hi _ ih =>
    intro hnone
    exact ih (Term.passed_of_none ((Roll.passed_of_none hnone).2 _ ht) _ hi)

/-- Scaling is refused for rolls that were evaluated and for nothing else. -/
theorem Roll.alter_eq_none_iff : (r.alter s).2 = none ↔ ¬ r.Locked := by
  constructor
  · exact fun hnone hlocked => hlocked.alter_ne_none hnone
  · intro hlocked
    cases h : (r.alter s).2 with
    | none => rfl
    | some e => exact absurd (Roll.interrupted_of_refused h).2.locked hlocked

/-! ## Changes that succeed -/

/-- The items of a pool that does not refuse are scaled. -/
theorem Term.pooled_alter {t : Term} (h : (t.alter s).2 = none) :
    (t.alter s).1.pooled = t.pooled.map fun i => (i.alter s).1 := by
  have hitems := Term.passed_of_none h
  cases t with
  | pool p rolls => exact congrArg (·.1.pooled) (Term.alter_pool_of_none p hitems)
  | _ => simp [Term.alter, Term.pooled]

/-- The texts of a pool that does not refuse are the formulas of its items. -/
theorem Term.texts_alter {t : Term} {p : Pool} {rolls : List Roll} (h : (t.alter s).2 = none)
    (hpool : (t.alter s).1 = .pool p rolls) : p.items = rolls.map (·.formula) := by
  have hitems := Term.passed_of_none h
  cases t with
  | pool p' rolls' =>
    rw [@Term.alter_pool_of_none s rolls' p' hitems] at hpool
    cases hpool
    rfl
  | _ => simp [Term.alter] at hpool

/-- After a change that succeeds everything is in step. -/
theorem Roll.inStep_alter (h : (r.alter s).2 = none) : (r.alter s).1.InStep := by
  induction r using Roll.induction with
  | h r ih =>
    obtain ⟨hpending, hterms⟩ := Roll.passed_of_none h
    rw [Roll.alter_of_none hpending hterms]
    refine .mk rfl (fun p rolls hpool => ?_) (fun t' ht' i' hi' => ?_)
    · obtain ⟨t, ht, heq⟩ := List.mem_map.mp hpool
      exact Term.texts_alter (hterms t ht) heq
    · obtain ⟨t, ht, rfl⟩ := List.mem_map.mp ht'
      rw [Term.pooled_alter (hterms t ht)] at hi'
      obtain ⟨i, hi, rfl⟩ := List.mem_map.mp hi'
      exact ih t ht i (Term.mem_rolls_of_pooled hi) (Term.passed_of_none (hterms t ht) i hi)

/-- Scaling evaluates nothing. -/
theorem Roll.not_locked_alter (h : ¬ r.Locked) : ¬ (r.alter s).1.Locked := by
  induction r using Roll.induction with
  | h r ih =>
    obtain ⟨hpending, hterms⟩ := Roll.passed_of_none (@Roll.alter_eq_none_iff s r |>.mpr h)
    rw [Roll.alter_of_none hpending hterms]
    rintro (hevaluated | ⟨ht', hi', hlocked⟩)
    · exact absurd hevaluated (by simp [hpending])
    · obtain ⟨t, ht, rfl⟩ := List.mem_map.mp ht'
      rw [Term.pooled_alter (hterms t ht)] at hi'
      obtain ⟨i, hi, rfl⟩ := List.mem_map.mp hi'
      exact ih t ht i (Term.mem_rolls_of_pooled hi) (fun hitem => h (.item ht hi hitem)) hlocked

end

/-! ## Rolls that are evaluated as a whole -/

/-- Rolls of formulas, rolls of terms over items that are such rolls and were not evaluated, and
    what becomes of them when they are used: they may be given other data and annotations,
    scaled, whether they refuse it or not, and called for in any way. -/
inductive Roll.Uniform : Roll → Prop where
  | read {formula : String} {data : Json} {r : Roll} (h : Roll.withData formula data = .ok r) :
      Roll.Uniform r
  | ofTerms {terms : List Term} (hitems : ∀ t ∈ terms, ∀ i ∈ t.pooled, Roll.Uniform i)
      (hpending : ∀ t ∈ terms, ∀ i ∈ t.pooled, i.evaluated = false) :
      Roll.Uniform (Roll.ofTerms terms)
  | labelled {r : Roll} (h : Roll.Uniform r) (data : Json) (annotations : Annotations) :
      Roll.Uniform { r with data, annotations }
  | altered {r : Roll} (h : Roll.Uniform r) (s : Scaling) : Roll.Uniform (r.alter s).1
  | used {σ : Type} [Roller σ] {r : Roll} (h : Roll.Uniform r) (k? : Option Coordinator)
      (c : Context σ) (waiters : List Waiter) (history : List (Lifetime.Move σ)) :
      Roll.Uniform (Lifetime.run history (Lifetime.start ⟨r, k?⟩ c waiters)).live.roll

/-- Nothing in a roll that is read was evaluated. -/
theorem Roll.New.not_locked {r : Roll} (h : r.New) : ¬ r.Locked := by
  intro hlocked
  induction hlocked with
  | evaluated hevaluated =>
    cases h
    cases hevaluated
  | @item r t i ht hi _ ih =>
    cases h with
    | mk _ hterms =>
      have hnew := hterms t ht
      cases hnew with
      | pool _ _ hrolls => exact ih (hrolls i hi)
      | _ => cases hi

/-- What is locked in a roll does not depend on its data and annotations. -/
theorem Roll.Locked.of_labelled {r : Roll} {data : Json} {annotations : Annotations}
    (h : Roll.Locked { r with data, annotations }) : r.Locked := by
  cases h with
  | evaluated h => exact .evaluated h
  | item ht hi h => exact .item ht hi h

/-- Such a roll was evaluated, or nothing in its pools was. -/
theorem Roll.Uniform.evaluated_or {r : Roll} (h : r.Uniform) :
    r.evaluated = true ∨ ¬ r.Locked := by
  induction h with
  | read h => exact .inr (Roll.new_of_withData h).not_locked
  | ofTerms _ hpending ih =>
    refine .inr ?_
    rintro (hevaluated | ⟨ht, hi, hlocked⟩)
    · cases hevaluated
    · obtain hevaluated | hitem := ih _ ht _ hi
      · rw [hpending _ ht _ hi] at hevaluated
        cases hevaluated
      · exact hitem hlocked
  | labelled _ data annotations ih => exact ih.imp_right fun hlocked h => hlocked h.of_labelled
  | @altered r _ s ih =>
    obtain hevaluated | hlocked := ih
    · rw [Roll.alter_of_evaluated hevaluated]
      exact .inl hevaluated
    · exact .inr (Roll.not_locked_alter hlocked)
  | used _ k? c waiters history ih =>
    have hstart : Lifetime.Holds (fun r => r.evaluated = true ∨ ¬ r.Locked)
        (Lifetime.start ⟨_, k?⟩ c waiters) := Lifetime.holds_of_idle ih rfl
    refine (hstart.run (fun s r _ => ?_) history).roll
    exact (Evaluation.spends_evaluated_roll s r).mono fun _ _ hx => .inl hx.1

/-! ## What a change comes to -/

/-- Scaling is refused exactly for rolls that were evaluated or have an evaluated item in a
    pool. If it succeeds, the formula is the one of the terms and the texts of pools are the
    formulas of their items. If it is refused, a roll that was evaluated, or that is evaluated
    as a whole only, stays as it was; any other is left with what stands before the item that
    refuses scaled. -/
theorem Roll.alter_outcome (s : Scaling) (r : Roll) :
    ((r.alter s).2 = none ↔ ¬ r.Locked) ∧
      ((r.alter s).2 = none → (r.alter s).1.InStep) ∧
      ∀ e, (r.alter s).2 = some e → e = .alreadyEvaluated ∧
        Roll.Interrupted s r (r.alter s).1 ∧
        (r.evaluated = true ∨ r.Uniform → (r.alter s).1 = r) := by
  refine ⟨Roll.alter_eq_none_iff, Roll.inStep_alter, fun e he => ?_⟩
  obtain ⟨rfl, hinterrupted⟩ := Roll.interrupted_of_refused he
  refine ⟨rfl, hinterrupted, fun hwhole => ?_⟩
  have hevaluated : r.evaluated = true := by
    obtain hevaluated | huniform := hwhole
    · exact hevaluated
    · exact huniform.evaluated_or.resolve_right (not_not_intro hinterrupted.locked)
  rw [Roll.alter_of_evaluated hevaluated]

/-- A pool over a number is scaled, a pool over the same number once it was called for refuses,
    and so does that number, which stays as it was. -/
theorem Roll.alter_outcome_pools :
    let double : Scaling := ⟨2.0, 0, true⟩
    let item : Roll := Roll.ofTerms [.numeric (.int 1) {}]
    let around (i : Roll) : Roll := Roll.ofTerms [.pool { items := ["1"] } [i]]
    let spent : Roll := (Lifetime.run [.evaluateNow {}] (Lifetime.start ⟨item, none⟩
      (Context.ofRoller (StepRoller.start 1 1)) [])).live.roll
    (((around item).alter double).2 = none ∧ ((around item).alter double).1.InStep) ∧
      (((around spent).alter double).2 = some .alreadyEvaluated ∧
        (around spent).evaluated = false ∧
        Roll.Interrupted double (around spent) ((around spent).alter double).1) ∧
      (spent.alter double).2 = some .alreadyEvaluated ∧ spent.Uniform ∧
        (spent.alter double).1 = spent := by
  intro double item around spent
  have hopen : ((around item).alter double).2 = none := rfl
  have hshut : ((around spent).alter double).2 = some .alreadyEvaluated := rfl
  have hspent : (spent.alter double).2 = some .alreadyEvaluated := rfl
  have hnone : ∀ {P : Roll → Prop}, ∀ t ∈ item.terms, ∀ i ∈ t.pooled, P i := by
    intro P t ht
    rw [List.mem_singleton.mp ht]
    exact List.forall_mem_nil _
  have huniform : spent.Uniform := .used (.ofTerms hnone hnone) none _ [] _
  exact ⟨⟨hopen, (Roll.alter_outcome _ _).2.1 hopen⟩,
    ⟨hshut, rfl, ((Roll.alter_outcome _ _).2.2 _ hshut).2.1⟩, hspent, huniform,
    ((Roll.alter_outcome _ _).2.2 _ hspent).2.2 (.inr huniform)⟩

/-- The two dice before the pool are scaled although the change is refused. -/
theorem Roll.alter_half_done :
    let item : Roll :=
      { Roll.ofTerms [.numeric (.int 1) {}] with total := some (.int 1), evaluated := true }
    let row (number : Nat) : List Term := [.dice { number, denomination := .die 6 },
      .operator .add {}, .pool { items := ["1"] } [item]]
    let r (number : Nat) : Roll := { Roll.ofTerms (row 2) with terms := row number }
    ∃ (add : Int) (number : Nat),
      (r 2).alter ⟨2.0, add, false⟩ = (r number, some .alreadyEvaluated) ∧ number ≠ 2 ∧
        (r number).toRecord ≠ (r 2).toRecord := by
  intro item row r
  have halter : ∀ add : Int, (r 2).alter ⟨2.0, add, false⟩ =
      (r (Scaling.scaleCount ⟨2.0, add, false⟩ 2), some .alreadyEvaluated) := fun _ => rfl
  -- no more is known of the doubled number than that one of two addends makes it differ
  have hcount : ∃ add : Int, Scaling.scaleCount ⟨2.0, add, false⟩ 2 ≠ 2 := by
    by_cases h : Scaling.scaleCount ⟨2.0, 0, false⟩ 2 = 2
    · refine ⟨1, ?_⟩
      have hpow : Nat.pow 2 64 = 18446744073709551616 := rfl
      simp only [Scaling.scaleCount, Int.bmod, hpow] at h ⊢
      omega
    · exact ⟨0, h⟩
  obtain ⟨add, hadd⟩ := hcount
  refine ⟨add, _, halter add, hadd, fun heq => hadd ?_⟩
  simp only [r, row, Roll.toRecord, Term.recordsOf, Term.toRecord, Dice.toRecord,
    RollRecord.mk.injEq, List.cons.injEq, TermRecord.die.injEq, true_and, and_true] at heq
  exact heq

end DiceNotation
