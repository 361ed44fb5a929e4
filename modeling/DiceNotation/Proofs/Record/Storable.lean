/-
  DiceNotation.Proofs.Record.Storable

  Rolls that a record can hold.

  A record keeps the text of a modifier and not its effect, and an evaluated roll
  whose record lacks a total is given one. So a roll is told from its record if all
  of its dice and pools, at any depth, are well made, and if it has a total once it
  was evaluated (`Roll.Storable`). Every roll that can be come by is of this kind
  (`Roll.Obtained.storable`): formulas are read so, and scaling and evaluating keep
  it, also where terms are read anew out of fragments.
-/

import DiceNotation.Proofs.Evaluation.Lifetime
import DiceNotation.Proofs.Roll.New

namespace DiceNotation

/-! ## Storable rolls -/

/-- The rolls inside a term. -/
def Term.rolls : Term → List Roll
  | .pool _ rolls | .function _ _ rolls _ _ => rolls
  | .parenthetical _ roll _ => [roll]
  | .numeric _ _ | .operator _ _ | .dice _ | .text _ _ _ => []

/-- A term that is well made, apart from the rolls inside it. -/
def Term.WellMade : Term → Prop
  | .dice d => d.WellMade
  | .pool p _ => p.WellMade
  | _ => True

/-- A roll whose dice and pools are all well made, and that has a total if it was
    evaluated. -/
inductive Roll.Storable : Roll → Prop where
  | mk {r : Roll} (hterms : ∀ t ∈ r.terms, t.WellMade)
      (hrolls : ∀ t ∈ r.terms, ∀ r' ∈ t.rolls, Roll.Storable r')
      (hcollapsed : ∀ d ∈ r.collapsed, d.WellMade)
      (htotal : r.evaluated = true → ∃ n, r.total = some n) : Roll.Storable r

/-- A term that is well made with all that is inside it. -/
structure Term.Storable (t : Term) : Prop where
  wellMade : t.WellMade
  rolls : ∀ r ∈ t.rolls, r.Storable

theorem Roll.Storable.terms {r : Roll} (h : r.Storable) : ∀ t ∈ r.terms, t.Storable := by
  obtain ⟨hterms, hrolls, -, -⟩ := h
  exact fun t ht => ⟨hterms t ht, hrolls t ht⟩

theorem Roll.Storable.collapsed {r : Roll} (h : r.Storable) : ∀ d ∈ r.collapsed, d.WellMade := by
  obtain ⟨-, -, hcollapsed, -⟩ := h
  exact hcollapsed

theorem Roll.storable_of_terms {r : Roll} (hterms : ∀ t ∈ r.terms, t.Storable)
    (hcollapsed : ∀ d ∈ r.collapsed, d.WellMade)
    (htotal : r.evaluated = true → ∃ n, r.total = some n) : r.Storable :=
  .mk (fun t ht => (hterms t ht).wellMade) (fun t ht => (hterms t ht).rolls) hcollapsed htotal

theorem Term.Storable.setAnnotations {t : Term} (h : t.Storable) (a : Annotations) :
    (t.setAnnotations a).Storable := by
  cases t with
  | dice d => exact ⟨⟨h.wellMade.faces, h.wellMade.modifiers⟩, nofun⟩
  | _ => exact ⟨h.wellMade, h.rolls⟩

/-! ## New rolls -/

theorem Roll.New.storable {r : Roll} (h : r.New) : r.Storable := by
  refine @Roll.New.rec (fun r _ => r.Storable) (fun t _ => t.Storable) ?_ ?_ ?_ ?_ ?_ ?_ ?_ ?_ r h
  · intro formula data annotations terms _ _ ih
    exact Roll.storable_of_terms ih nofun nofun
  · exact fun n a => ⟨trivial, nofun⟩
  · exact fun op a => ⟨trivial, nofun⟩
  · exact fun hd _ => ⟨hd, nofun⟩
  · exact fun hp _ _ ih => ⟨hp, ih⟩
  · exact fun _ ih => ⟨trivial, ih⟩
  · exact fun _ ih => ⟨trivial, List.forall_mem_singleton.mpr ih⟩
  · exact fun content a => ⟨trivial, nofun⟩

theorem Term.New.storable {t : Term} (h : t.New) : t.Storable := by
  cases h with
  | numeric | operator | text => exact ⟨trivial, nofun⟩
  | dice hd hpending => exact ⟨hd, nofun⟩
  | pool hp hpending hrolls => exact ⟨hp, fun r hr => (hrolls r hr).storable⟩
  | function hrolls => exact ⟨trivial, fun r hr => (hrolls r hr).storable⟩
  | parenthetical hroll => exact ⟨trivial, List.forall_mem_singleton.mpr hroll.storable⟩

/-- A simplified row holds nothing that cannot be stored: what is read out of its fragments
    is new. -/
theorem Term.storable_simplify {ts : List Term} (h : ∀ t ∈ ts, t.Storable) :
    ∀ t ∈ Term.simplify ts, t.Storable := by
  have hreclassify : ∀ t : Term, t.Storable → t.reclassify.Storable := by
    intro t ht
    cases t with
    | text content a evaluated => exact (Term.new_classify content).1.storable.setAnnotations _
    | _ => exact ht
  intro t ht
  obtain ⟨u, rfl, hmem | ⟨content, a, rfl⟩⟩ := Term.mem_simplify ht
  · exact hreclassify u (h u hmem)
  · exact hreclassify _ ⟨trivial, nofun⟩

/-! ## All dice of a roll -/

theorem Term.mem_diceOfAll {d : Dice} {ts : List Term} :
    d ∈ Term.diceOfAll ts ↔ ∃ t ∈ ts, d ∈ t.heldDice := by
  induction ts with
  | nil => simp [Term.diceOfAll]
  | cons t rest ih => simp [Term.diceOfAll, ih]

theorem Roll.mem_diceOfAll {d : Dice} {rs : List Roll} :
    d ∈ Roll.diceOfAll rs ↔ ∃ r ∈ rs, d ∈ r.dice := by
  induction rs with
  | nil => simp [Roll.diceOfAll]
  | cons r rest ih => simp [Roll.diceOfAll, ih]

/-- The dice of a term are its own or those of the rolls inside it. -/
theorem Term.mem_heldDice {d : Dice} {t : Term} (h : d ∈ t.heldDice) :
    t = .dice d ∨ ∃ r ∈ t.rolls, d ∈ r.dice := by
  cases t with
  | numeric | operator | text => cases h
  | dice d' =>
    rw [Term.heldDice, List.mem_singleton] at h
    exact .inl (by rw [h])
  | pool | function => exact .inr (Roll.mem_diceOfAll.mp h)
  | parenthetical text roll a => exact .inr ⟨roll, List.mem_singleton_self roll, h⟩

theorem Roll.mem_dice {d : Dice} {r : Roll} :
    d ∈ r.dice ↔ d ∈ r.collapsed ∨ ∃ t ∈ r.terms, d ∈ t.heldDice := by
  obtain ⟨formula, data, annotations, terms, total, evaluated, collapsed⟩ := r
  rw [Roll.dice, List.mem_append, Term.mem_diceOfAll]

/-- All dice of a storable roll are well made. -/
theorem Roll.Storable.dice {r : Roll} (h : r.Storable) : ∀ d ∈ r.dice, d.WellMade := by
  induction h with
  | mk hterms hrolls hcollapsed htotal ih =>
    intro d hd
    obtain hd | ⟨t, ht, hd⟩ := Roll.mem_dice.mp hd
    · exact hcollapsed d hd
    · obtain rfl | ⟨r, hr, hd⟩ := Term.mem_heldDice hd
      · exact hterms _ ht
      · exact ih t ht r hr d hd

theorem Term.Storable.heldDice {t : Term} (h : t.Storable) : ∀ d ∈ t.heldDice, d.WellMade := by
  intro d hd
  obtain rfl | ⟨r, hr, hd⟩ := Term.mem_heldDice hd
  · exact h.wellMade
  · exact (h.rolls r hr).dice d hd

/-! ## Scaling -/

theorem Term.mem_alterAll {s : Scaling} {t : Term} {ts : List Term}
    (h : t ∈ (Term.alterAll s ts).1) : ∃ u ∈ ts, t = u ∨ t = (u.alter s).1 := by
  induction ts with
  | nil =>
    rw [Term.alterAll] at h
    cases h
  | cons u rest ih =>
    rw [Term.alterAll] at h
    dsimp only at h
    split at h
    · obtain rfl | h := List.mem_cons.mp h
      · exact ⟨u, List.mem_cons_self, .inr rfl⟩
      · exact ⟨t, List.mem_cons_of_mem _ h, .inl rfl⟩
    · obtain rfl | h := List.mem_cons.mp h
      · exact ⟨u, List.mem_cons_self, .inr rfl⟩
      · obtain ⟨u', hu', heq⟩ := ih h
        exact ⟨u', List.mem_cons_of_mem _ hu', heq⟩

theorem Roll.mem_alterAll {s : Scaling} {r : Roll} {rs : List Roll}
    (h : r ∈ (Roll.alterAll s rs).1) : ∃ u ∈ rs, r = u ∨ r = (u.alter s).1 := by
  induction rs with
  | nil =>
    rw [Roll.alterAll] at h
    cases h
  | cons u rest ih =>
    rw [Roll.alterAll] at h
    dsimp only at h
    split at h
    · obtain rfl | h := List.mem_cons.mp h
      · exact ⟨u, List.mem_cons_self, .inr rfl⟩
      · exact ⟨r, List.mem_cons_of_mem _ h, .inl rfl⟩
    · obtain rfl | h := List.mem_cons.mp h
      · exact ⟨u, List.mem_cons_self, .inr rfl⟩
      · obtain ⟨u', hu', heq⟩ := ih h
        exact ⟨u', List.mem_cons_of_mem _ hu', heq⟩

/-- A term that is scaled holds the same rolls, or the rolls of a pool scaled. -/
theorem Term.Storable.alter {t : Term} (h : t.Storable) (s : Scaling)
    (hrolls : ∀ r ∈ t.rolls, (r.alter s).1.Storable) : (t.alter s).1.Storable := by
  cases t with
  | dice d =>
    rw [Term.alter]
    exact ⟨⟨h.wellMade.faces, h.wellMade.modifiers⟩, nofun⟩
  | pool p rolls =>
    rw [Term.alter]
    refine ⟨h.wellMade, fun r hr => ?_⟩
    obtain ⟨u, hu, rfl | rfl⟩ := Roll.mem_alterAll hr
    · exact h.rolls r hu
    · exact hrolls u hu
  | numeric n a =>
    rw [Term.alter]
    exact ⟨trivial, nofun⟩
  | operator | function | parenthetical | text =>
    rw [Term.alter]
    exact h
    all_goals nofun

/-- A roll that is scaled is storable as before, whether it refuses or not. -/
theorem Roll.Storable.alter {r : Roll} (h : r.Storable) (s : Scaling) :
    (r.alter s).1.Storable := by
  induction h with
  | @mk r hterms hrolls hcollapsed htotal ih =>
    have hterm : ∀ t ∈ r.terms, t.Storable := fun t ht => ⟨hterms t ht, hrolls t ht⟩
    obtain ⟨formula, data, annotations, terms, total, evaluated, collapsed⟩ := r
    rw [Roll.alter]
    split
    · exact Roll.storable_of_terms hterm hcollapsed htotal
    · refine Roll.storable_of_terms (fun t ht => ?_) hcollapsed htotal
      obtain ⟨u, hu, rfl | rfl⟩ := Term.mem_alterAll ht
      · exact hterm t hu
      · exact (hterm u hu).alter s (ih u hu)

/-! ## Evaluating -/

namespace Evaluation

/-- A way to evaluate rolls that makes storable rolls of storable ones. -/
def Stores (nested : Nested) : Prop :=
  ∀ r : Roll, r.Storable → Spends (nested r) fun _ x => x.1.Storable

theorem spends_wellMade_dice (pinned : Bool) {d : Dice} (hd : d.WellMade) :
    Spends (dice pinned d) fun _ d' => d'.WellMade := by
  rw [dice_eq]
  split
  · exact spends_throw _
  · exact (spends_true _).bind fun _ ticket _ => (spends_true _).bind fun _ results _ =>
      spends_pure ⟨hd.faces, hd.modifiers⟩

variable {s : Setting} {nested : Nested}

theorem Stores.items (hnested : Stores nested) {rs : List Roll} (hrs : ∀ r ∈ rs, r.Storable) :
    Spends (items nested rs) fun _ xs => ∀ r ∈ xs.map Prod.fst, r.Storable := by
  induction rs with
  | nil => exact spends_pure nofun
  | cons r rest ih =>
    obtain ⟨hr, hrest⟩ := List.forall_mem_cons.mp hrs
    refine (hnested r hr).bind fun _ x hx => ?_
    obtain ⟨r', total⟩ := x
    cases hw : total.whole? with
    | none => simpa only [hw, fail] using spends_throw _
    | some value =>
      simp only [hw]
      exact (ih hrest).bind fun _ xs hxs => spends_pure (List.forall_mem_cons.mpr ⟨hx, hxs⟩)

theorem Stores.arguments (hnested : Stores nested) {rs : List Roll}
    (hrs : ∀ r ∈ rs, r.Storable) :
    Spends (arguments nested rs) fun _ xs => ∀ r ∈ xs.map Prod.fst, r.Storable := by
  induction rs with
  | nil => exact spends_pure nofun
  | cons r rest ih =>
    obtain ⟨hr, hrest⟩ := List.forall_mem_cons.mp hrs
    exact (hnested r hr).bind fun _ x hx => (ih hrest).bind fun _ xs hxs =>
      spends_pure (List.forall_mem_cons.mpr ⟨hx, hxs⟩)

theorem Stores.term (hnested : Stores nested) {t : Term} (ht : t.Storable) :
    Spends (term s nested t) fun _ t' => t'.Storable := by
  cases t with
  | numeric n a => exact spends_pure ht
  | operator op a => exact spends_pure ht
  | dice d =>
    exact (spends_wellMade_dice s.options.isPinned ht.wellMade).bind fun _ d' hd' =>
      spends_pure ⟨hd', List.forall_mem_nil _⟩
  | pool p rolls =>
    simp only [Evaluation.term]
    split
    · exact (spends_throw (P := fun _ _ => False) _).bind fun _ _ h => h.elim
    · exact (hnested.items ht.rolls).bind fun _ xs hxs => spends_pure ⟨ht.wellMade, hxs⟩
  | function name texts rolls result a =>
    simp only [Evaluation.term]
    split
    · exact (spends_throw (P := fun _ _ => False) _).bind fun _ _ h => h.elim
    · refine (hnested.arguments ht.rolls).bind fun _ xs hxs => ?_
      split
      · exact spends_pure ⟨trivial, hxs⟩
      · exact spends_throw _
  | parenthetical text roll a =>
    have hroll : roll.Storable := ht.rolls roll (List.mem_singleton_self roll)
    exact (hnested roll hroll).bind fun _ x hx =>
      spends_pure ⟨trivial, List.forall_mem_singleton.mpr hx⟩
  | text content a evaluated =>
    simp only [Evaluation.term]
    split
    · exact spends_pure ⟨trivial, List.forall_mem_nil _⟩
    · exact spends_throw _

theorem Stores.pendingTerm (hnested : Stores nested) {t : Term} (ht : t.Storable) :
    Spends (pendingTerm s nested t) fun _ t' => t'.Storable := by
  unfold Evaluation.pendingTerm
  split
  · exact spends_pure ht
  · exact hnested.term ht

theorem Stores.terms (hnested : Stores nested) {ts : List Term} (hts : ∀ t ∈ ts, t.Storable) :
    Spends (terms s nested ts) fun _ us => ∀ u ∈ us, u.Storable := by
  induction ts with
  | nil => exact spends_pure (List.forall_mem_nil _)
  | cons t rest ih =>
    obtain ⟨ht, hrest⟩ := List.forall_mem_cons.mp hts
    exact (hnested.pendingTerm ht).bind fun _ t' ht' => (ih hrest).bind fun _ us hus =>
      spends_pure (List.forall_mem_cons.mpr ⟨ht', hus⟩)

/-- The dice of what gives way to its value are kept well made. -/
theorem Stores.collapse (hnested : Stores nested) {ts : List Term}
    (hts : ∀ t ∈ ts, t.Storable) :
    Spends (collapse s nested ts) fun _ c =>
      (∀ t ∈ c.1, t.Storable) ∧ ∀ d ∈ c.2, d.WellMade := by
  induction ts with
  | nil => exact spends_pure ⟨List.forall_mem_nil _, List.forall_mem_nil _⟩
  | cons t rest ih =>
    obtain ⟨ht, hrest⟩ := List.forall_mem_cons.mp hts
    simp only [Evaluation.collapse]
    split
    · refine (hnested.pendingTerm ht).bind fun _ t' ht' => ?_
      split
      · exact spends_throw _
      · exact (ih hrest).bind fun _ c hc => spends_pure
          ⟨List.forall_mem_cons.mpr ⟨⟨trivial, List.forall_mem_nil _⟩, hc.1⟩,
            List.forall_mem_append.mpr ⟨ht'.heldDice, hc.2⟩⟩
    · exact (ih hrest).bind fun _ c hc => spends_pure
        ⟨List.forall_mem_cons.mpr ⟨ht, hc.1⟩, hc.2⟩

theorem Stores.rollWith (hnested : Stores nested) : Stores (rollWith s nested) := by
  intro r hr
  have hconclude : ∀ row collapsed, (∀ t ∈ row, t.Storable) → (∀ d ∈ collapsed, d.WellMade) →
      Spends (concludeRow s nested r row collapsed) fun _ x => x.1.Storable := by
    intro row collapsed hrow hcollapsed
    refine (hnested.terms hrow).bind fun _ us hus => (spends_true _).bind fun _ total _ => ?_
    refine spends_pure (Roll.storable_of_terms hus ?_ fun _ => ⟨total, rfl⟩)
    exact List.forall_mem_append.mpr ⟨hr.collapsed, hcollapsed⟩
  rw [rollWith_eq]
  split
  · exact spends_throw _
  · refine (hnested.collapse hr.terms).bind fun _ c hc => ?_
    have hrow := Term.storable_simplify hc.1
    split
    · exact (spends_true _).bind fun _ _ _ => hconclude _ _ hrow hc.2
    · exact hconclude _ _ hrow hc.2

/-- Evaluating makes storable rolls of storable ones. -/
theorem stores_roll (s : Setting) : Stores (roll s) := by
  have hwithin : ∀ depth, Stores (rollWithin s depth) := by
    intro depth
    induction depth with
    | zero => exact fun r _ => spends_throw _
    | succ depth ih => exact ih.rollWith
  exact fun r hr => hwithin r.depth r hr

end Evaluation

/-! ## What can be come by -/

/-- Rolls of formulas and of well-made terms, and what becomes of them when they are used:
    they may be given other data and annotations, scaled, whether they refuse it or not, and
    called for in any way. -/
inductive Roll.Obtained : Roll → Prop where
  | read {formula : String} {data : Json} {r : Roll} (h : Roll.withData formula data = .ok r) :
      Roll.Obtained r
  | ofTerms {terms : List Term} (hterms : ∀ t ∈ terms, t.WellMade)
      (hrolls : ∀ t ∈ terms, ∀ r ∈ t.rolls, Roll.Obtained r) : Roll.Obtained (Roll.ofTerms terms)
  | labelled {r : Roll} (h : Roll.Obtained r) (data : Json) (annotations : Annotations) :
      Roll.Obtained { r with data, annotations }
  | altered {r : Roll} (h : Roll.Obtained r) (s : Scaling) : Roll.Obtained (r.alter s).1
  | used {σ : Type} [Roller σ] {r : Roll} (h : Roll.Obtained r) (k? : Option Coordinator)
      (c : Context σ) (waiters : List Waiter) (history : List (Lifetime.Move σ)) :
      Roll.Obtained (Lifetime.run history (Lifetime.start ⟨r, k?⟩ c waiters)).live.roll

/-- A record can hold whatever roll can be come by. -/
theorem Roll.Obtained.storable {r : Roll} (h : r.Obtained) : r.Storable := by
  induction h with
  | read h => exact (Roll.new_of_withData h).storable
  | ofTerms hterms hrolls ih =>
    exact Roll.storable_of_terms (fun t ht => ⟨hterms t ht, ih t ht⟩) nofun nofun
  | labelled h data annotations ih =>
    cases ih with
    | mk hterms hrolls hcollapsed htotal => exact .mk hterms hrolls hcollapsed htotal
  | altered h s ih => exact ih.alter s
  | used h k? c waiters history ih =>
    have hstart : Lifetime.Holds Roll.Storable (Lifetime.start ⟨_, k?⟩ c waiters) :=
      Lifetime.holds_of_idle ih rfl
    exact (hstart.run (fun s r hr => Evaluation.stores_roll s r hr) history).roll

end DiceNotation
