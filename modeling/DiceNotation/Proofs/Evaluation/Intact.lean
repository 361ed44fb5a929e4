/-
  DiceNotation.Proofs.Evaluation.Intact

  Results that are well formed.

  A result keeps the two flags of having left play in step with its activity, whatever
  modifiers do to it, and keeps its value unless one of them bounds values
  (`DieResult.CameUp.wellFormed`, `DieResult.CameUp.result`). So the dice of a roll that
  held no results are intact once they are evaluated, also those of terms that are read
  out of fragments or give way to their values (`Evaluation.keepsIntact_roll`).
-/

import DiceNotation.Proofs.Evaluation.Fair
import DiceNotation.Proofs.Evaluation.Treatment
import DiceNotation.Proofs.Record.Storable
import DiceNotation.Proofs.Roll.Results

namespace DiceNotation

open Modifier List

/-! ## Single results -/

/-- Whether an effect bounds the values of results. -/
def Modifier.Effect.boundsValues : Effect → Bool
  | .minimum _ | .maximum _ => true
  | _ => false

namespace DieResult

/-- A result that is active unless it was dropped or rerolled, and that was not both. -/
structure WellFormed (r : DieResult) : Prop where
  active_iff : r.active = true ↔ r.discarded = false ∧ r.rerolled = false
  one : ¬ (r.discarded = true ∧ r.rerolled = true)

variable {least greatest : Int} {e : Effect} {d : Denomination} {ms : List Modifier}
  {r r' : DieResult} {value : Int}

theorem wellFormed_fresh (value : Int) : (fresh value).WellFormed := ⟨by simp [fresh], nofun⟩

theorem WellFormed.treats (h : r.WellFormed) (htreats : e.Treats least greatest r r') :
    r'.WellFormed := by
  obtain rfl | ⟨hactive, htouched⟩ := htreats.cases
  · cases e <;> exact ⟨h.active_iff, h.one⟩
  · obtain ⟨hdiscarded, hrerolled⟩ := h.active_iff.mp hactive
    cases htouched <;> constructor <;>
      simp [reroll, explode, discard, hactive, hdiscarded, hrerolled]

/-- An effect that does not bound values keeps them. -/
theorem result_of_treats (htreats : e.Treats least greatest r r') (he : e.boundsValues = false) :
    r'.result = r.result := by
  obtain rfl | ⟨-, htouched⟩ := htreats.cases
  · cases e with
    | minimum | maximum => cases he
    | _ => rfl
  · cases htouched <;> rfl

theorem WellFormed.undergoes (h : r.WellFormed) (hundergoes : Undergoes d ms r r') :
    r'.WellFormed := by
  induction hundergoes with
  | nil r => exact h
  | cons htreats _ ih => exact ih (h.treats htreats)

theorem result_of_undergoes (hundergoes : Undergoes d ms r r')
    (hms : ∀ m ∈ ms, m.effect.boundsValues = false) : r'.result = r.result := by
  induction hundergoes with
  | nil r => rfl
  | cons htreats _ ih =>
    obtain ⟨hm, hrest⟩ := List.forall_mem_cons.mp hms
    exact (ih hrest).trans (result_of_treats htreats hm)

/-- A result that came up is well formed. -/
theorem CameUp.wellFormed (h : CameUp d ms value r') : r'.WellFormed := by
  obtain ⟨rest, -, hundergoes⟩ := h
  exact (wellFormed_fresh value).undergoes hundergoes

/-- A result has the value that came up, unless a modifier bounds it. -/
theorem CameUp.result (h : CameUp d ms value r')
    (hms : ∀ m ∈ ms, m.effect.boundsValues = false) : r'.result = value := by
  obtain ⟨rest, hrest, hundergoes⟩ := h
  exact result_of_undergoes hundergoes fun m hm => hms m (hrest.subset hm)

end DieResult

/-! ## Dice -/

/-- Dice with as many results as there are to be, at least, all of them well formed and, unless
    a modifier bounds values, possible. -/
structure Dice.Intact (d : Dice) : Prop where
  number : d.number ≤ d.results.length
  wellFormed : ∀ r ∈ d.results, r.WellFormed
  canShow : (∀ m ∈ d.modifiers, m.effect.boundsValues = false) →
    ∀ r ∈ d.results, d.denomination.canShow r.result = true

/-- All dice of a roll are intact. -/
def Roll.Intact (r : Roll) : Prop := ∀ d ∈ r.dice, d.Intact

/-- A roll that was evaluated and whose dice are intact. -/
structure Roll.Settled (r : Roll) : Prop where
  evaluated : r.evaluated = true
  intact : r.Intact

/-- All dice of a term are intact. -/
def Term.Intact (t : Term) : Prop := ∀ d ∈ t.heldDice, d.Intact

/-- Results that came up with possible values make dice intact. -/
theorem Dice.intact_of_cameUp {d : Dice} {values : List Int} {rs : List DieResult}
    (hnumber : d.number ≤ rs.length)
    (hvalues : ∀ v ∈ values, d.denomination.canShow v = true)
    (hrs : Forall₂ (DieResult.CameUp d.denomination d.modifiers) values rs) :
    Dice.Intact { d with results := rs, evaluated := true } := by
  refine ⟨hnumber, fun r hr => ?_, fun hms r hr => ?_⟩
  · obtain ⟨v, -, hcame⟩ := exists_of_forall₂ hrs hr
    exact hcame.wellFormed
  · obtain ⟨v, hv, hcame⟩ := exists_of_forall₂ hrs hr
    rw [hcame.result hms]
    exact hvalues v hv

namespace Evaluation

/-- Dice that held no results are intact once they are evaluated. -/
theorem ensures_intact_dice (pinned : Bool) {d : Dice} (hd : d.WellMade)
    (hresults : d.results = []) : Ensures (dice pinned d) Dice.Intact := by
  have hyields : Yields (dice pinned d) fun drawn d' => ∃ (values : List Int) (rs : List DieResult),
      drawn = values.map (d.denomination, ·) ∧ d.number ≤ rs.length ∧
        Forall₂ (DieResult.CameUp d.denomination d.modifiers) values rs ∧
          d' = { d with results := rs, evaluated := true } := by
    rw [dice_eq]
    split
    · exact yields_throw _
    · refine (yields_enter d).bind fun _ ticket hnone => ?_
      refine ((yields_results pinned ticket hresults).returning ticket).bind fun drawn rs hrs => ?_
      obtain ⟨values, hdrawn, hnumber, hcame⟩ := hrs
      refine yields_pure ⟨values, rs, ?_, hnumber, hcame, rfl⟩
      rw [hnone, hdrawn, List.append_nil, List.nil_append]
  refine hyields.ensures fun drawn d' hfair hd' => ?_
  obtain ⟨values, rs, rfl, hnumber, hcame, rfl⟩ := hd'
  refine Dice.intact_of_cameUp hnumber (fun v hv => ?_) hcame
  exact hfair (d.denomination, v) (List.mem_map_of_mem hv) hd.faces

end Evaluation

/-! ## Rolls that hold no results -/

/-- A new roll whose dice hold no results. -/
structure Roll.Blank (r : Roll) : Prop where
  new : r.New
  resultCount : r.resultCount = 0

/-- A new term whose dice hold no results. -/
structure Term.Blank (t : Term) : Prop where
  new : t.New
  resultCount : t.resultCount = 0

theorem Roll.blank_of_withData {formula : String} {data : Json} {r : Roll}
    (h : Roll.withData formula data = .ok r) : r.Blank := by
  refine ⟨Roll.new_of_withData h, ?_⟩
  obtain ⟨row, hrow, rfl⟩ := Roll.withData_eq_ok.mp h
  rw [Roll.resultCount_eq]
  exact (Nat.zero_add _).trans (Term.resultCount_diceOfAll.mpr (Term.resultCount_ofFormula hrow))

theorem Roll.Blank.terms {r : Roll} (h : r.Blank) :
    r.collapsed = [] ∧ ∀ t ∈ r.terms, t.Blank := by
  obtain ⟨⟨hgrouped, hterms⟩, hcount⟩ := h
  rw [Roll.resultCount_eq, Nat.add_eq_zero_iff, Term.resultCount_diceOfAll] at hcount
  exact ⟨rfl, fun t ht => ⟨hterms t ht, hcount.2 t ht⟩⟩

theorem Term.Blank.rolls {t : Term} (h : t.Blank) : ∀ r ∈ t.rolls, r.Blank := by
  obtain ⟨hnew, hcount⟩ := h
  cases hnew with
  | numeric | operator | dice | text => exact List.forall_mem_nil _
  | pool hp hpending hrolls =>
    exact fun r hr => ⟨hrolls r hr, Roll.resultCount_diceOfAll.mp hcount r hr⟩
  | function hrolls =>
    exact fun r hr => ⟨hrolls r hr, Roll.resultCount_diceOfAll.mp hcount r hr⟩
  | parenthetical hroll => exact List.forall_mem_singleton.mpr ⟨hroll, hcount⟩

/-- A simplified row holds no results either, also where it is read anew. -/
theorem Term.blank_simplify {ts : List Term} (h : ∀ t ∈ ts, t.Blank) :
    ∀ t ∈ Term.simplify ts, t.Blank := by
  intro t ht
  refine ⟨?_, Term.resultCount_simplify (fun u hu => (h u hu).resultCount) t ht⟩
  obtain ⟨u, rfl, hmem | ⟨content, a, rfl⟩⟩ := Term.mem_simplify ht
  · exact (h u hmem).new.reclassify
  · exact (Term.New.text content a).reclassify

/-- A blank term that needs no evaluation has no dice. -/
theorem Term.Blank.heldDice_of_isEvaluated {t : Term} (h : t.Blank)
    (hevaluated : t.isEvaluated = true) : t.heldDice = [] := by
  obtain ⟨hnew, -⟩ := h
  cases hnew with
  | numeric | operator | text => rfl
  | dice hd hpending => cases hpending.symm.trans hevaluated
  | pool hp hpending hrolls => cases hpending.symm.trans hevaluated
  | function hrolls => cases hevaluated
  | parenthetical hroll =>
    cases hroll
    cases hevaluated

/-! ## Evaluating -/

theorem Term.intact_diceOfAll {ts : List Term} :
    (∀ d ∈ Term.diceOfAll ts, d.Intact) ↔ ∀ t ∈ ts, t.Intact := by
  simp only [Term.mem_diceOfAll, Term.Intact]
  exact ⟨fun h t ht d hd => h d ⟨t, ht, hd⟩, fun h d ⟨t, ht, hd⟩ => h t ht d hd⟩

theorem Roll.intact_diceOfAll {rs : List Roll} :
    (∀ d ∈ Roll.diceOfAll rs, d.Intact) ↔ ∀ r ∈ rs, r.Intact := by
  simp only [Roll.mem_diceOfAll, Roll.Intact]
  exact ⟨fun h r hr d hd => h d ⟨r, hr, hd⟩, fun h d ⟨r, hr, hd⟩ => h r hr d hd⟩

namespace Evaluation

/-- A way to evaluate blank rolls that leaves their dice intact. -/
def KeepsIntact (nested : Nested) : Prop :=
  ∀ r : Roll, r.Blank → Ensures (nested r) fun x => x.1.Settled

variable {s : Setting} {nested : Nested}

theorem KeepsIntact.items (hnested : KeepsIntact nested) {rs : List Roll}
    (hrs : ∀ r ∈ rs, r.Blank) :
    Ensures (items nested rs) fun xs => ∀ r ∈ xs.map Prod.fst, r.Intact := by
  induction rs with
  | nil => exact ensures_pure (List.forall_mem_nil _)
  | cons r rest ih =>
    obtain ⟨hr, hrest⟩ := List.forall_mem_cons.mp hrs
    refine (hnested r hr).bind fun x hx => ?_
    obtain ⟨r', total⟩ := x
    cases hw : total.whole? with
    | none => simpa only [hw, fail] using ensures_throw _
    | some value =>
      simp only [hw]
      exact (ih hrest).bind fun xs hxs =>
        ensures_pure (List.forall_mem_cons.mpr ⟨hx.intact, hxs⟩)

theorem KeepsIntact.arguments (hnested : KeepsIntact nested) {rs : List Roll}
    (hrs : ∀ r ∈ rs, r.Blank) :
    Ensures (arguments nested rs) fun xs => ∀ r ∈ xs.map Prod.fst, r.Intact := by
  induction rs with
  | nil => exact ensures_pure (List.forall_mem_nil _)
  | cons r rest ih =>
    obtain ⟨hr, hrest⟩ := List.forall_mem_cons.mp hrs
    exact (hnested r hr).bind fun x hx => (ih hrest).bind fun xs hxs =>
      ensures_pure (List.forall_mem_cons.mpr ⟨hx.intact, hxs⟩)

theorem KeepsIntact.term (hnested : KeepsIntact nested) {t : Term} (ht : t.Blank) :
    Ensures (term s nested t) Term.Intact := by
  have hrolls := ht.rolls
  cases t with
  | numeric | operator => exact ensures_pure (List.forall_mem_nil _)
  | dice d =>
    have hwell : d.WellMade := by
      cases ht.new
      assumption
    have hresults : d.results = [] := List.length_eq_zero_iff.mp ht.resultCount
    exact (ensures_intact_dice s.options.isPinned hwell hresults).bind fun d' hd' =>
      ensures_pure (List.forall_mem_singleton.mpr hd')
  | pool p rolls =>
    simp only [Evaluation.term]
    split
    · exact ensures_throw _
    · exact (hnested.items hrolls).bind fun xs hxs =>
        ensures_pure (Roll.intact_diceOfAll.mpr hxs)
  | function name texts rolls result a =>
    simp only [Evaluation.term]
    split
    · exact ensures_throw _
    · refine (hnested.arguments hrolls).bind fun xs hxs => ?_
      split
      · exact ensures_pure (Roll.intact_diceOfAll.mpr hxs)
      · exact ensures_throw _
  | parenthetical text roll a =>
    exact (hnested roll (hrolls roll (List.mem_singleton_self roll))).bind fun x hx =>
      ensures_pure hx.intact
  | text content a evaluated =>
    simp only [Evaluation.term]
    split
    · exact ensures_pure (List.forall_mem_nil _)
    · exact ensures_throw _

theorem KeepsIntact.pendingTerm (hnested : KeepsIntact nested) {t : Term} (ht : t.Blank) :
    Ensures (pendingTerm s nested t) Term.Intact := by
  unfold Evaluation.pendingTerm
  split
  · refine ensures_pure fun d hd => ?_
    rw [ht.heldDice_of_isEvaluated ‹_›] at hd
    cases hd
  · exact hnested.term ht

theorem KeepsIntact.terms (hnested : KeepsIntact nested) {ts : List Term}
    (hts : ∀ t ∈ ts, t.Blank) : Ensures (terms s nested ts) fun us => ∀ u ∈ us, u.Intact := by
  induction ts with
  | nil => exact ensures_pure (List.forall_mem_nil _)
  | cons t rest ih =>
    obtain ⟨ht, hrest⟩ := List.forall_mem_cons.mp hts
    exact (hnested.pendingTerm ht).bind fun t' ht' => (ih hrest).bind fun us hus =>
      ensures_pure (List.forall_mem_cons.mpr ⟨ht', hus⟩)

/-- What gives way to its value leaves intact dice, and the rest of the row is blank. -/
theorem KeepsIntact.collapse (hnested : KeepsIntact nested) {ts : List Term}
    (hts : ∀ t ∈ ts, t.Blank) :
    Ensures (collapse s nested ts) fun c => (∀ t ∈ c.1, t.Blank) ∧ ∀ d ∈ c.2, d.Intact := by
  induction ts with
  | nil => exact ensures_pure ⟨List.forall_mem_nil _, List.forall_mem_nil _⟩
  | cons t rest ih =>
    obtain ⟨ht, hrest⟩ := List.forall_mem_cons.mp hts
    simp only [Evaluation.collapse]
    split
    · refine (hnested.pendingTerm ht).bind fun t' ht' => ?_
      split
      · exact ensures_throw _
      · exact (ih hrest).bind fun c hc => ensures_pure
          ⟨List.forall_mem_cons.mpr ⟨⟨.numeric _ _, rfl⟩, hc.1⟩,
            List.forall_mem_append.mpr ⟨ht', hc.2⟩⟩
    · exact (ih hrest).bind fun c hc => ensures_pure
        ⟨List.forall_mem_cons.mpr ⟨ht, hc.1⟩, hc.2⟩

theorem KeepsIntact.rollWith (hnested : KeepsIntact nested) : KeepsIntact (rollWith s nested) := by
  intro r hr
  obtain ⟨hnone, hterms⟩ := hr.terms
  have hconclude : ∀ row collapsed, (∀ t ∈ row, t.Blank) → (∀ d ∈ collapsed, d.Intact) →
      Ensures (concludeRow s nested r row collapsed) fun x => x.1.Settled := by
    intro row collapsed hrow hcollapsed
    refine (hnested.terms hrow).bind fun us hus => (ensures_liftExcept _).bind fun total _ => ?_
    refine ensures_pure ⟨rfl, fun d hd => ?_⟩
    rw [Roll.mem_dice, hnone, List.nil_append] at hd
    obtain hd | ⟨t, ht, hd⟩ := hd
    · exact hcollapsed d hd
    · exact hus t ht d hd
  rw [rollWith_eq]
  split
  · exact ensures_throw _
  · refine (hnested.collapse hterms).bind fun c hc => ?_
    have hrow := Term.blank_simplify hc.1
    split
    · exact (ensures_liftExcept _).bind fun _ _ => hconclude _ _ hrow hc.2
    · exact hconclude _ _ hrow hc.2

/-- Evaluating leaves the dice of blank rolls intact. -/
theorem keepsIntact_roll (s : Setting) : KeepsIntact (roll s) := by
  have hwithin : ∀ depth, KeepsIntact (rollWithin s depth) := by
    intro depth
    induction depth with
    | zero => exact fun r _ => ensures_throw _
    | succ depth ih => exact ih.rollWith
  exact fun r hr => hwithin r.depth r hr

end Evaluation

end DiceNotation
