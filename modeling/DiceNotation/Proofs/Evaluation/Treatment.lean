/-
  DiceNotation.Proofs.Evaluation.Treatment

  What becomes of a single result.

  Modifiers work on all results of a dice term, but each of them does one of a few things
  to a single result (`Effect.Treats`), and no result changes its place. So a result that
  was there at first undergoes all modifiers in a row, and one that was drawn meanwhile
  undergoes those that were left (`DieResult.Undergoes`, `Evaluation.yields_results`).
  What holds of every result of every dice term so comes down to single results.
-/

import DiceNotation.Proofs.Evaluation.Pass
import Mathlib.Data.List.Forall2

namespace DiceNotation

open Modifier List

/-! ## Lists in step -/

theorem forall₂_append_left {α β : Type} {R : α → β → Prop} {xs xs' : List α} {ys : List β}
    (h : Forall₂ R (xs ++ xs') ys) :
    ∃ zs zs', ys = zs ++ zs' ∧ Forall₂ R xs zs ∧ Forall₂ R xs' zs' := by
  refine ⟨ys.take xs.length, ys.drop xs.length, (List.take_append_drop ..).symm, ?_, ?_⟩
  · simpa using forall₂_take xs.length h
  · simpa using forall₂_drop xs.length h

theorem exists_of_forall₂ {α β : Type} {R : α → β → Prop} {xs : List α} {ys : List β}
    (h : Forall₂ R xs ys) {y : β} (hy : y ∈ ys) : ∃ x ∈ xs, R x y := by
  induction h with
  | nil => cases hy
  | cons hxy _ ih =>
    obtain rfl | hy := List.mem_cons.mp hy
    · exact ⟨_, List.mem_cons_self, hxy⟩
    · obtain ⟨x, hx, hxy⟩ := ih hy
      exact ⟨x, List.mem_cons_of_mem _ hx, hxy⟩

theorem forall₂_comp {α β γ : Type} {R : α → β → Prop} {S : β → γ → Prop} {T : α → γ → Prop}
    (hT : ∀ x y z, R x y → S y z → T x z) {xs : List α} {ys : List β} {zs : List γ}
    (h : Forall₂ R xs ys) (h' : Forall₂ S ys zs) : Forall₂ T xs zs := by
  induction h generalizing zs with
  | nil =>
    cases h'
    exact .nil
  | cons hxy _ ih =>
    cases h' with
    | cons hyz h' => exact .cons (hT _ _ _ hxy hyz) (ih h')

/-! ## Single effects -/

/-- What may become of a result when an effect is carried out on the results among which it
    stands: some effects pick results out, all others treat each result by itself. -/
def Modifier.Effect.Treats (least greatest : Int) : Effect → DieResult → DieResult → Prop
  | .reroll _ _, r, r' => r' = r ∨ r.active = true ∧ r' = r.reroll
  | .explode _ _, r, r' => r' = r ∨ r.active = true ∧ r' = r.explode
  | .keepDrop _ _ _, r, r' => r' = r ∨ r.active = true ∧ r' = r.discard
  | e, r, r' => e.apply least greatest [r] = [r']

/-- Without new results, an effect treats the results where they stand. -/
theorem Modifier.Effect.treats_apply (least greatest : Int) (e : Effect) (rs : List DieResult) :
    Forall₂ (e.Treats least greatest) rs (e.apply least greatest rs) := by
  cases e with
  | reroll | explode => exact forall₂_same.mpr fun _ _ => .inl rfl
  | keepDrop keep highest number =>
    have hrs : rs = rs.zipIdx.map Prod.fst := (zipIdx_map_fst 0 rs).symm
    conv => enter [2]; rw [hrs]
    simp only [Effect.apply, keepOrDrop, forall₂_map_left_iff, forall₂_map_right_iff, forall₂_same]
    intro x hx
    simp only [Treats]
    split
    · rename_i hchanged
      exact .inr ⟨(Bool.and_eq_true_iff.mp hchanged).1, rfl⟩
    · exact .inl rfl
  | _ => simp [Effect.apply, Treats, onActive, forall₂_map_right_iff, forall₂_same]

/-- What an effect does to the value of any result, be it active or not. -/
def Modifier.Effect.clamp : Effect → DieResult → DieResult
  | .minimum value, r => { r with result := max r.result value }
  | .maximum value, r => { r with result := min r.result value }
  | _, r => r

/-- What is done to active results: they leave play, explode or are judged. -/
inductive DieResult.Touched : DieResult → DieResult → Prop where
  | reroll (r : DieResult) : Touched r r.reroll
  | explode (r : DieResult) : Touched r r.explode
  | discard (r : DieResult) : Touched r r.discard
  | judge (r : DieResult) (count : Option Int) (success failure : Option Bool) :
      Touched r { r with count, success, failure }

/-- A deduction leaves a result as it is or makes it a failure and nothing else. -/
theorem Modifier.deduct_cases (condition : Option Condition) (byValue : Bool) (r : DieResult) :
    deduct condition byValue r = r ∨ ∃ count,
      deduct condition byValue r = { r with failure := some true, success := none, count } := by
  cases condition with
  | none | some c =>
    simp only [deduct]
    split
    · exact .inr ⟨_, rfl⟩
    · exact .inl rfl

theorem Modifier.touched_deduct (condition : Option Condition) (byValue : Bool) (r : DieResult) :
    r.Touched (deduct condition byValue r) := by
  obtain h | ⟨count, h⟩ := deduct_cases condition byValue r
  · rw [h]
    exact .judge r r.count r.success r.failure
  · rw [h]
    exact .judge r count none (some true)

/-- What is done to active results is done to a result or not. -/
theorem Modifier.of_onActive {f : DieResult → DieResult} {r r' : DieResult}
    (h : onActive f [r] = [r']) : r' = r ∨ r.active = true ∧ r' = f r := by
  simp only [onActive, List.map_cons, List.map_nil, List.cons.injEq, and_true] at h
  subst h
  split
  · exact .inr ⟨‹_›, rfl⟩
  · exact .inl rfl

/-- An effect bounds the value of a result, or the result is active and touched. -/
theorem Modifier.Effect.Treats.cases {least greatest : Int} {e : Effect} {r r' : DieResult}
    (h : e.Treats least greatest r r') :
    r' = e.clamp r ∨ r.active = true ∧ r.Touched r' := by
  have honActive : ∀ f : DieResult → DieResult, (∀ r : DieResult, r.Touched (f r)) →
      onActive f [r] = [r'] → r' = r ∨ r.active = true ∧ r.Touched r' := by
    intro f hf hr'
    obtain hr' | ⟨hactive, rfl⟩ := of_onActive hr'
    · exact .inl hr'
    · exact .inr ⟨hactive, hf r⟩
  cases e with
  | reroll =>
    obtain h | ⟨hr, rfl⟩ := h
    · exact .inl h
    · exact .inr ⟨hr, .reroll r⟩
  | explode =>
    obtain h | ⟨hr, rfl⟩ := h
    · exact .inl h
    · exact .inr ⟨hr, .explode r⟩
  | keepDrop =>
    obtain h | ⟨hr, rfl⟩ := h
    · exact .inl h
    · exact .inr ⟨hr, .discard r⟩
  | minimum value | maximum value => exact .inl (List.cons.inj h).1.symm
  | deductFailures condition | subtractFailures condition =>
    exact honActive _ (touched_deduct condition _) h
  | _ => exact honActive _ (fun r => .judge r _ _ _) h

/-- An effect with a pass marks results that are active, or passes them by. -/
theorem Modifier.Effect.treats_of_pass? {d : Denomination} {e : Effect} {p : Evaluation.Pass}
    (hp : Evaluation.pass? d e = some p) :
    (∀ r, e.Treats d.least d.greatest r r) ∧
      ∀ r, r.active = true → e.Treats d.least d.greatest r (p.mark r) := by
  cases e with
  | reroll | explode =>
    cases hp
    exact ⟨fun _ => .inl rfl, fun _ hr => .inr ⟨hr, rfl⟩⟩
  | _ => cases hp

namespace Evaluation

/-- A pass treats each result by its mark or not at all. -/
theorem Pass.Exact.forall₂ {p : Pass} {rs rs' : List DieResult} {values : List Int}
    (h : p.Exact rs values rs') {R : DieResult → DieResult → Prop} (hsame : ∀ r, R r r)
    (hmark : ∀ r, r.active = true → R r (p.mark r)) :
    Forall₂ R (rs ++ values.map DieResult.fresh) rs' := by
  have hrs' : rs' = (rs ++ values.map DieResult.fresh).mapIdx fun i r =>
      if i < p.inspected rs rs' ∧ p.hits r = true then p.mark r else r :=
    List.ext_getElem? fun i => by rw [List.getElem?_mapIdx, h.results i]
  rw [hrs']
  refine forall₂_iff_get.mpr ⟨List.length_mapIdx.symm, fun i _ _ => ?_⟩
  simp only [List.get_eq_getElem, List.getElem_mapIdx]
  split
  · rename_i hhit
    exact hmark _ (Bool.and_eq_true_iff.mp hhit.2).1
  · exact hsame _

variable (pinned : Bool) (d : Denomination) (ticket : Option Ticket)

/-- An effect treats the results that there are and those that it brings. -/
theorem yields_effect (e : Effect) (rs : List DieResult) :
    Yields (effect pinned d (draw d ticket) e rs) fun drawn rs' => ∃ values : List Int,
      drawn = values.map (d, ·) ∧
        Forall₂ (e.Treats d.least d.greatest) (rs ++ values.map DieResult.fresh) rs' := by
  have hnothing : ∀ rs', Forall₂ (e.Treats d.least d.greatest) rs rs' →
      Yields (pure rs') fun drawn rs' => ∃ values : List Int, drawn = values.map (d, ·) ∧
        Forall₂ (e.Treats d.least d.greatest) (rs ++ values.map DieResult.fresh) rs' :=
    fun rs' h => yields_pure ⟨[], rfl, (List.append_nil rs).symm ▸ h⟩
  cases hp : pass? d e with
  | none =>
    simp only [effect, hp]
    exact hnothing _ (e.treats_apply d.least d.greatest rs)
  | some p =>
    obtain ⟨hsame, hmark⟩ := Effect.treats_of_pass? hp
    simp only [effect, hp]
    split
    · exact hnothing rs (forall₂_same.mpr fun r _ => hsame r)
    · refine (Pass.yields_run d ticket p rs).mono fun drawn rs' hrun => ?_
      obtain ⟨values, hdrawn, hexact⟩ := hrun
      exact ⟨values, hdrawn, hexact.forall₂ hsame hmark⟩

end Evaluation

/-! ## Effects in a row -/

/-- What may become of a result when modifiers of a denomination are carried out. -/
inductive DieResult.Undergoes (d : Denomination) : List Modifier → DieResult → DieResult → Prop
    where
  | nil (r : DieResult) : Undergoes d [] r r
  | cons {m : Modifier} {ms : List Modifier} {r r₁ r' : DieResult}
      (h : m.effect.Treats d.least d.greatest r r₁) (hrest : Undergoes d ms r₁ r') :
      Undergoes d (m :: ms) r r'

/-- A result is that of a die which came up while modifiers were carried out, or before. -/
def DieResult.CameUp (d : Denomination) (ms : List Modifier) (value : Int) (r' : DieResult) :
    Prop :=
  ∃ rest, rest <:+ ms ∧ Undergoes d rest (.fresh value) r'

namespace Evaluation

variable (pinned : Bool) (d : Denomination) (ticket : Option Ticket)

/-- Results undergo the modifiers where they stand, and the dice that are drawn meanwhile come
    after them. -/
theorem yields_modify (ms : List Modifier) (rs : List DieResult) :
    Yields (modify pinned d (draw d ticket) ms rs) fun drawn rs' =>
      ∃ (values : List Int) (old new : List DieResult), drawn = values.map (d, ·) ∧
        rs' = old ++ new ∧ Forall₂ (DieResult.Undergoes d ms) rs old ∧
          Forall₂ (DieResult.CameUp d ms) values new := by
  induction ms generalizing rs with
  | nil => exact yields_pure ⟨[], rs, [], rfl, (List.append_nil rs).symm,
      forall₂_same.mpr fun r _ => .nil r, .nil⟩
  | cons m rest ih =>
    refine (yields_effect pinned d ticket m.effect rs).bind fun drawn rs₁ h₁ => ?_
    obtain ⟨vs, rfl, htreats⟩ := h₁
    obtain ⟨old₁, new₁, rfl, hold₁, hnew₁⟩ := forall₂_append_left htreats
    refine (ih (old₁ ++ new₁)).mono fun drawn rs' h' => ?_
    obtain ⟨vs', cur, new', rfl, rfl, hcur, hnew'⟩ := h'
    obtain ⟨old, new, rfl, hold, hnew⟩ := forall₂_append_left hcur
    refine ⟨vs ++ vs', old, new ++ new', (List.map_append ..).symm, List.append_assoc .., ?_, ?_⟩
    · exact forall₂_comp (fun _ _ _ => .cons) hold₁ hold
    · refine rel_append (forall₂_comp (fun v r₁ r' htreats hrest => ?_)
        (forall₂_map_left_iff.mp hnew₁) hnew) (hnew'.imp fun v r' hcame => ?_)
      · exact ⟨m :: rest, suffix_rfl, .cons htreats hrest⟩
      · obtain ⟨left, hleft, hundergoes⟩ := hcame
        exact ⟨left, hleft.trans (suffix_cons m rest), hundergoes⟩

/-- Where there are only results that just came up, every result came up at some time. -/
theorem yields_modify_fresh (ms : List Modifier) (values : List Int) :
    Yields (modify pinned d (draw d ticket) ms (values.map DieResult.fresh)) fun drawn rs' =>
      ∃ more : List Int, drawn = more.map (d, ·) ∧
        Forall₂ (DieResult.CameUp d ms) (values ++ more) rs' := by
  refine (yields_modify pinned d ticket ms _).mono fun drawn rs' hmodify => ?_
  obtain ⟨more, old, new, rfl, rfl, hold, hnew⟩ := hmodify
  refine ⟨more, rfl, rel_append ?_ hnew⟩
  exact (forall₂_map_left_iff.mp hold).imp fun v r' hundergoes => ⟨ms, suffix_rfl, hundergoes⟩

/-- Dice are drawn in a row. -/
theorem yields_drawMany (n : Nat) (before : List DieResult) :
    Yields (drawMany (draw d ticket) n before) fun drawn rs => ∃ values : List Int,
      drawn = values.map (d, ·) ∧ values.length = n ∧
        rs = before.reverse ++ values.map DieResult.fresh := by
  induction n generalizing before with
  | zero => exact yields_pure ⟨[], rfl, rfl, (List.append_nil _).symm⟩
  | succ n ih =>
    refine (yields_draw d ticket).bind fun drawn v hdrawn => ?_
    refine (ih (.fresh v :: before)).mono fun more rs hmore => ?_
    obtain ⟨values, rfl, hlength, rfl⟩ := hmore
    refine ⟨v :: values, by rw [hdrawn]; rfl, by rw [List.length_cons, hlength], ?_⟩
    simp

/-- The results of a dice term that had none: one for each die of the term, at least, and each
    of them came up in this evaluation. -/
theorem yields_results {d : Dice} (hd : d.results = []) :
    Yields (results pinned ticket d) fun drawn rs' => ∃ values : List Int,
      drawn = values.map (d.denomination, ·) ∧ d.number ≤ rs'.length ∧
        Forall₂ (DieResult.CameUp d.denomination d.modifiers) values rs' := by
  unfold results
  refine (yields_drawMany _ ticket _ []).bind fun drawn rs hdrawn => ?_
  obtain ⟨values, rfl, hlength, rfl⟩ := hdrawn
  rw [hd] at hlength ⊢
  refine (yields_modify_fresh pinned d.denomination ticket d.modifiers values).mono
    fun more rs' hmore => ?_
  obtain ⟨values', rfl, hcame⟩ := hmore
  refine ⟨values ++ values', (List.map_append ..).symm, ?_, hcame⟩
  rw [← hcame.length_eq, List.length_append, hlength]
  exact Nat.le_add_right _ _

end Evaluation

end DiceNotation
