/-
  DiceNotation.Proofs.Roll.Results

  The results that the dice of a roll hold.

  `Roll.resultCount` counts them over all dice, those of terms that were replaced by
  their values included. No die is thrown when a formula is read, so a new roll holds
  no results (`Roll.resultCount_new`), and neither does a term that is read out of a
  fragment of text; so simplifying a row without results leaves it without
  (`Term.resultCount_simplify`).
-/

import DiceNotation.Proofs.Formula.Shape
import DiceNotation.Proofs.Roll.Simplify

namespace DiceNotation

open Formula

/-! ## Counting -/

/-- How many results dice hold. -/
def Dice.resultCount : List Dice → Nat
  | [] => 0
  | d :: ds => d.results.length + Dice.resultCount ds

/-- How many results the dice of a term hold, those inside it included. -/
def Term.resultCount (t : Term) : Nat := Dice.resultCount t.heldDice

/-- How many results the dice of a roll hold, those inside it and those of terms that were
    replaced by their values included. -/
def Roll.resultCount (r : Roll) : Nat := Dice.resultCount r.dice

@[simp] theorem Dice.resultCount_append (ds es : List Dice) :
    Dice.resultCount (ds ++ es) = Dice.resultCount ds + Dice.resultCount es := by
  induction ds with
  | nil => exact (Nat.zero_add _).symm
  | cons d ds ih => rw [List.cons_append, Dice.resultCount, Dice.resultCount, ih, Nat.add_assoc]

@[simp] theorem Term.resultCount_dice (d : Dice) :
    (Term.dice d).resultCount = d.results.length := rfl

/-- Terms in a row hold nothing if none of them does. -/
theorem Term.resultCount_diceOfAll {ts : List Term} :
    Dice.resultCount (Term.diceOfAll ts) = 0 ↔ ∀ t ∈ ts, t.resultCount = 0 := by
  induction ts with
  | nil => exact ⟨fun _ => nofun, fun _ => rfl⟩
  | cons t rest ih =>
    rw [Term.diceOfAll, Dice.resultCount_append, Nat.add_eq_zero_iff, ih, List.forall_mem_cons]
    rfl

/-- Rolls in a row hold nothing if none of them does. -/
theorem Roll.resultCount_diceOfAll {rs : List Roll} :
    Dice.resultCount (Roll.diceOfAll rs) = 0 ↔ ∀ r ∈ rs, r.resultCount = 0 := by
  induction rs with
  | nil => exact ⟨fun _ => nofun, fun _ => rfl⟩
  | cons r rest ih =>
    rw [Roll.diceOfAll, Dice.resultCount_append, Nat.add_eq_zero_iff, ih, List.forall_mem_cons]
    rfl

theorem Roll.resultCount_eq (r : Roll) :
    r.resultCount = Dice.resultCount r.collapsed + Dice.resultCount (Term.diceOfAll r.terms) := by
  obtain ⟨formula, data, annotations, terms, total, evaluated, collapsed⟩ := r
  rw [Roll.resultCount, Roll.dice, Dice.resultCount_append]

theorem Roll.resultCount_ofTerms {ts : List Term} (h : ∀ t ∈ ts, t.resultCount = 0) :
    (Roll.ofTerms ts).resultCount = 0 := by
  rw [Roll.resultCount_eq]
  exact (Nat.zero_add _).trans (Term.resultCount_diceOfAll.mpr h)

theorem Term.resultCount_setAnnotations (a : Annotations) (t : Term) :
    (t.setAnnotations a).resultCount = t.resultCount := by
  cases t with
  | dice d => simp only [Term.setAnnotations, Term.resultCount_dice]
  | _ => rfl

/-! ## New rolls -/

theorem Term.mem_flavorLast {t : Term} {flavor : String} {ts : List Term}
    (h : t ∈ Term.flavorLast flavor ts) : ∃ t' ∈ ts, t = t' ∨ t = t'.setFlavor (some flavor) := by
  fun_induction Term.flavorLast flavor ts with
  | case1 => cases h
  | case2 t' =>
    rw [List.mem_singleton] at h
    exact ⟨t', List.mem_singleton_self t', .inr h⟩
  | case3 t' rest hrest ih =>
    obtain rfl | h := List.mem_cons.mp h
    · exact ⟨t, List.mem_cons_self, .inl rfl⟩
    · obtain ⟨t'', hmem, heq⟩ := ih h
      exact ⟨t'', List.mem_cons_of_mem _ hmem, heq⟩

mutual

theorem Term.resultCount_ofNode {first : Bool} : (n : Node) → {ts : List Term} →
    Term.ofNode first n = .ok ts → ∀ t ∈ ts, t.resultCount = 0
  | .number value, ts, h => by
    rw [Term.ofNode] at h
    cases h
    exact List.forall_mem_singleton.mpr rfl
  | .dice number d ms, ts, h => by
    rw [Term.ofNode] at h
    cases h
    exact List.forall_mem_singleton.mpr rfl
  | .function name arguments, ts, h => by
    rw [Term.ofNode] at h
    obtain ⟨rolls, hrolls, heq⟩ := bind_eq_ok.mp h
    cases heq
    refine List.forall_mem_singleton.mpr ?_
    exact Roll.resultCount_diceOfAll.mpr (Roll.resultCount_ofSubs arguments hrolls)
  | .pool items ms, ts, h => by
    rw [Term.ofNode] at h
    obtain ⟨rolls, hrolls, heq⟩ := bind_eq_ok.mp h
    cases heq
    refine List.forall_mem_singleton.mpr ?_
    exact Roll.resultCount_diceOfAll.mpr (Roll.resultCount_ofSubs items hrolls)
  | .parenthetical inner, ts, h => by
    rw [Term.ofNode] at h
    obtain ⟨roll, hroll, heq⟩ := bind_eq_ok.mp h
    cases heq
    exact List.forall_mem_singleton.mpr (Roll.resultCount_ofSub inner hroll)
  | .text content, ts, h => by
    rw [Term.ofNode] at h
    cases h
    exact List.forall_mem_singleton.mpr rfl
  | .operator op, ts, h => by
    rw [Term.ofNode] at h
    cases h
    exact List.forall_mem_singleton.mpr rfl
  | .negation inner, ts, h => by
    obtain ⟨value, -, hvalue⟩ | hnode := Node.ofNode_negation first inner
    · rw [hvalue] at h
      cases h
      exact List.forall_mem_singleton.mpr rfl
    · rw [hnode] at h
      obtain ⟨terms, hterms, heq⟩ := bind_eq_ok.mp h
      have hrow : ∀ t ∈ Term.minus :: terms, t.resultCount = 0 :=
        List.forall_mem_cons.mpr ⟨rfl, Term.resultCount_ofNode inner hterms⟩
      split at heq
      · cases heq
        exact hrow
      · cases heq
        exact List.forall_mem_singleton.mpr (Roll.resultCount_ofTerms hrow)
  | .glued parts, ts, h => by
    rw [Term.ofNode] at h
    exact Term.resultCount_ofRow parts h
  | .annotated inner flavor, ts, h => by
    rw [Term.ofNode] at h
    obtain ⟨terms, hterms, heq⟩ := bind_eq_ok.mp h
    cases heq
    intro t ht
    obtain ⟨t', hmem, rfl | rfl⟩ := Term.mem_flavorLast ht
    · exact Term.resultCount_ofNode inner hterms t hmem
    · exact (Term.resultCount_setAnnotations _ t').trans
        (Term.resultCount_ofNode inner hterms t' hmem)

theorem Term.resultCount_ofRow {first : Bool} : (ns : List Node) → {ts : List Term} →
    Term.ofRow first ns = .ok ts → ∀ t ∈ ts, t.resultCount = 0
  | [], ts, h => by
    rw [Term.ofRow] at h
    cases h
    exact nofun
  | n :: rest, ts, h => by
    rw [Term.ofRow] at h
    obtain ⟨terms, hterms, h⟩ := bind_eq_ok.mp h
    obtain ⟨more, hmore, heq⟩ := bind_eq_ok.mp h
    cases heq
    exact List.forall_mem_append.mpr
      ⟨Term.resultCount_ofNode n hterms, Term.resultCount_ofRow rest hmore⟩

theorem Roll.resultCount_ofSub : (sub : SubFormula) → {r : Roll} →
    Roll.ofSub sub = .ok r → r.resultCount = 0
  | ⟨text, nodes⟩, r, h => by
    rw [Roll.ofSub] at h
    obtain ⟨-, -, h⟩ := bind_eq_ok.mp h
    obtain ⟨terms, hterms, heq⟩ := bind_eq_ok.mp h
    cases heq
    exact Roll.resultCount_ofTerms (Term.resultCount_ofRow nodes hterms)

theorem Roll.resultCount_ofSubs : (subs : List SubFormula) → {rs : List Roll} →
    Roll.ofSubs subs = .ok rs → ∀ r ∈ rs, r.resultCount = 0
  | [], rs, h => by
    rw [Roll.ofSubs] at h
    cases h
    exact nofun
  | sub :: rest, rs, h => by
    rw [Roll.ofSubs] at h
    obtain ⟨r, hr, h⟩ := bind_eq_ok.mp h
    obtain ⟨more, hmore, heq⟩ := bind_eq_ok.mp h
    cases heq
    exact List.forall_mem_cons.mpr
      ⟨Roll.resultCount_ofSub sub hr, Roll.resultCount_ofSubs rest hmore⟩

end

theorem Term.resultCount_ofFormula {formula : String} {ts : List Term}
    (h : Term.ofFormula formula = .ok ts) : ∀ t ∈ ts, t.resultCount = 0 := by
  obtain ⟨nodes, -, hrow⟩ := Term.ofFormula_eq_ok.mp h
  exact Term.resultCount_ofRow nodes hrow

/-- A new roll holds no results. -/
theorem Roll.resultCount_new {formula : String} {r : Roll} (h : Roll.new formula = .ok r) :
    r.resultCount = 0 := by
  obtain ⟨nodes, terms, -, hterms, rfl⟩ := Roll.new_eq_ok.mp h
  exact Roll.resultCount_ofTerms (Term.resultCount_ofRow nodes hterms)

/-! ## Simplified rows -/

theorem Term.resultCount_classify (content : String) : (Term.classify content).resultCount = 0 := by
  unfold Term.classify
  split
  · rename_i t heq
    split
    · rfl
    · exact Term.resultCount_ofFormula heq t (List.mem_singleton_self t)
  · rfl

theorem Term.resultCount_reclassify {t : Term} (h : t.resultCount = 0) :
    t.reclassify.resultCount = 0 := by
  cases t with
  | text content a evaluated =>
    exact (Term.resultCount_setAnnotations _ _).trans (Term.resultCount_classify content)
  | _ => exact h

/-- A row without results is simplified to one without results. -/
theorem Term.resultCount_simplify {ts : List Term} (h : ∀ t ∈ ts, t.resultCount = 0) :
    ∀ t ∈ Term.simplify ts, t.resultCount = 0 := by
  intro t ht
  obtain ⟨u, rfl, hmem | ⟨content, a, rfl⟩⟩ := Term.mem_simplify ht
  · exact Term.resultCount_reclassify (h u hmem)
  · exact Term.resultCount_reclassify rfl

end DiceNotation
