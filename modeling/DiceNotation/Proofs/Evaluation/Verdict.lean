/-
  DiceNotation.Proofs.Evaluation.Verdict

  Successes and failures.

  A modifier that counts successes or failures takes back the opposite verdict on a result
  that it hits. The modifiers that count even or odd results do not: they leave an earlier
  failure standing. So a result is a success and a failure at the same time only where such
  a modifier comes after one that counts failures (`Evaluation.two_verdicts_by_parity`).
-/

import DiceNotation.Proofs.Evaluation.Treatment
import DiceNotation.Proofs.Modifier.Suffix

namespace DiceNotation

open Modifier List

/-! ## Modifiers of a family -/

/-- The effect of a modifier is that of a command of its family. -/
theorem Modifier.IsOf.command {family : Family} {m : Modifier} (h : m.IsOf family) :
    ∃ command ∈ family.commands, ∃ argument condition,
      Effect.ofCommand? command argument condition = some m.effect := by
  obtain ⟨s, hs⟩ := h
  unfold ofText? ofChars? at hs
  split at hs
  · rename_i hallowed
    simp only [Option.bind_eq_bind, Option.bind_eq_some_iff] at hs
    obtain ⟨argument, -, condition, -, effect, heffect, hm⟩ := hs
    cases hm
    exact ⟨_, List.contains_iff_mem.mp hallowed, argument, condition, heffect⟩
  · cases hs

/-- Whether an effect counts failures. -/
def Modifier.Effect.marksFailures : Effect → Bool
  | .countFailures _ | .deductFailures _ | .subtractFailures _ => true
  | _ => false

/-- Whether an effect counts hits and leaves earlier failures standing. -/
def Modifier.Effect.marksHits : Effect → Bool
  | .countEven | .countOdd | .call _ => true
  | _ => false

theorem Modifier.Effect.command_of_marksFailures {command : String} {argument : Argument}
    {condition : Option Condition} {e : Effect}
    (h : ofCommand? command argument condition = some e) (he : e.marksFailures = true) :
    command = "cf" ∨ command = "df" ∨ command = "sf" := by
  cases e with
  | countFailures | deductFailures | subtractFailures =>
    unfold ofCommand? at h
    split at h <;> simp_all
  | _ => cases he

theorem Modifier.Effect.command_of_call {command : String} {argument : Argument}
    {condition : Option Condition} {value : Int}
    (h : ofCommand? command argument condition = some (.call value)) : command = "c" := by
  unfold ofCommand? at h
  split at h <;> simp_all

/-- Only numbered dice take modifiers that count failures. -/
theorem Modifier.IsOf.die_of_marksFailures {d : Denomination} {m : Modifier}
    (h : m.IsOf (.ofDenomination d)) (hm : m.effect.marksFailures = true) : ∃ n, d = .die n := by
  obtain ⟨command, hcommand, argument, condition, heffect⟩ := h.command
  cases d with
  | die n => exact ⟨n, rfl⟩
  | coin | fate =>
    obtain rfl | rfl | rfl := Effect.command_of_marksFailures heffect hm
    all_goals exact absurd hcommand (by decide)

/-- Numbered dice have no modifier that calls a value. -/
theorem Modifier.IsOf.parity_of_marksHits {m : Modifier} (h : m.IsOf .die)
    (hm : m.effect.marksHits = true) : m.effect = .countEven ∨ m.effect = .countOdd := by
  obtain ⟨command, hcommand, argument, condition, heffect⟩ := h.command
  cases he : m.effect with
  | countEven => exact .inl rfl
  | countOdd => exact .inr rfl
  | call value =>
    rw [he] at heffect
    obtain rfl := Effect.command_of_call heffect
    exact absurd hcommand (by decide)
  | _ => simp [he, Effect.marksHits] at hm

/-! ## Single results -/

namespace DieResult

/-- A result that is a success. -/
def Succeeded (r : DieResult) : Prop := r.success = some true

/-- A result that is a failure. -/
def Failed (r : DieResult) : Prop := r.failure = some true

variable {d : Denomination} {ms : List Modifier} {r r' : DieResult}

/-- Counting successes leaves no failure on a hit, and those that there were on a miss. -/
theorem failed_of_markSuccess {hit : Bool} (h : (markSuccess hit r).Failed) :
    r.Failed ∧ ¬ (markSuccess hit r).Succeeded := by
  cases hit with
  | true => cases h
  | false => exact ⟨h, nofun⟩

/-- Counting failures leaves no success on a hit. -/
theorem not_succeeded_of_markFailure {hit : Bool} (h : (markFailure hit r).Failed) :
    ¬ (markFailure hit r).Succeeded := by
  cases hit with
  | true => exact nofun
  | false => cases h

/-- A result that is a failure was one before, unless the effect counts failures. -/
theorem failed_of_treats {least greatest : Int} {e : Effect} (h : e.Treats least greatest r r')
    (hfailed : r'.Failed) : r.Failed ∨ e.marksFailures = true := by
  cases e with
  | countFailures | deductFailures | subtractFailures => exact .inr rfl
  | reroll | explode | keepDrop =>
    obtain rfl | ⟨-, rfl⟩ := h
    all_goals exact .inl hfailed
  | minimum | maximum =>
    cases h
    exact .inl hfailed
  | countSuccess condition =>
    obtain rfl | ⟨-, rfl⟩ := of_onActive h
    · exact .inl hfailed
    · exact .inl (failed_of_markSuccess hfailed).1
  | marginSuccess | countEven | countOdd | call =>
    obtain rfl | ⟨-, rfl⟩ := of_onActive h
    all_goals exact .inl hfailed

/-- A result gets a second verdict only from an effect that leaves its failure standing. -/
theorem both_of_treats {least greatest : Int} {e : Effect} (h : e.Treats least greatest r r')
    (hboth : r'.Succeeded ∧ r'.Failed) :
    r.Failed ∧ (r.Succeeded ∨ e.marksHits = true) := by
  have hsame : r' = r → r.Failed ∧ (r.Succeeded ∨ e.marksHits = true) := by
    rintro rfl
    exact ⟨hboth.2, .inl hboth.1⟩
  cases e with
  | reroll | explode | keepDrop =>
    obtain rfl | ⟨-, rfl⟩ := h
    all_goals exact ⟨hboth.2, .inl hboth.1⟩
  | minimum | maximum =>
    cases h
    exact ⟨hboth.2, .inl hboth.1⟩
  | countSuccess =>
    obtain hr' | ⟨-, rfl⟩ := of_onActive h
    · exact hsame hr'
    · exact absurd hboth.1 (failed_of_markSuccess hboth.2).2
  | countFailures =>
    obtain hr' | ⟨-, rfl⟩ := of_onActive h
    · exact hsame hr'
    · exact absurd hboth.1 (not_succeeded_of_markFailure hboth.2)
  | deductFailures condition | subtractFailures condition =>
    obtain hr' | ⟨-, rfl⟩ := of_onActive h
    · exact hsame hr'
    · obtain hr' | ⟨count, hr'⟩ := deduct_cases condition _ r
      · exact hsame hr'
      · rw [hr'] at hboth
        cases hboth.1
  | marginSuccess =>
    obtain hr' | ⟨-, rfl⟩ := of_onActive h
    · exact hsame hr'
    · exact ⟨hboth.2, .inl hboth.1⟩
  | countEven | countOdd | call =>
    obtain hr' | ⟨-, rfl⟩ := of_onActive h
    · exact hsame hr'
    · exact ⟨hboth.2, .inr rfl⟩

/-- A result that is a failure in the end was one at first, or a modifier counted failures. -/
theorem Undergoes.failed (h : Undergoes d ms r r') (hfailed : r'.Failed) :
    r.Failed ∨ ∃ m ∈ ms, m.effect.marksFailures = true := by
  induction h with
  | nil r => exact .inl hfailed
  | @cons m ms r r₁ r' htreats hrest ih =>
    obtain hr₁ | ⟨m', hm', hmarks⟩ := ih hfailed
    · obtain hr | hmarks := failed_of_treats htreats hr₁
      · exact .inl hr
      · exact .inr ⟨m, List.mem_cons_self, hmarks⟩
    · exact .inr ⟨m', List.mem_cons_of_mem m hm', hmarks⟩

/-- Modifiers that bring two verdicts together: one that counts failures, and a later one that
    leaves failures standing. -/
def Clash (ms : List Modifier) : Prop :=
  ∃ m m', [m, m'] <+ ms ∧ m.effect.marksFailures = true ∧ m'.effect.marksHits = true

/-- A result with two verdicts had a failure at first and was hit later, or both came from the
    modifiers. -/
theorem Undergoes.both (h : Undergoes d ms r r') (hboth : r'.Succeeded ∧ r'.Failed) :
    (r.Failed ∧ (r.Succeeded ∨ ∃ m ∈ ms, m.effect.marksHits = true)) ∨ Clash ms := by
  induction h with
  | nil r => exact .inl ⟨hboth.2, .inl hboth.1⟩
  | @cons m ms r r₁ r' htreats hrest ih =>
    obtain ⟨hfailed, hsucceeded | ⟨m', hm', hhits⟩⟩ | ⟨m₁, m₂, hsub, hmarks⟩ := ih hboth
    · obtain ⟨hr, hr' | hhits⟩ := both_of_treats htreats ⟨hsucceeded, hfailed⟩
      · exact .inl ⟨hr, .inl hr'⟩
      · exact .inl ⟨hr, .inr ⟨m, List.mem_cons_self, hhits⟩⟩
    · obtain hr | hmarks := failed_of_treats htreats hfailed
      · exact .inl ⟨hr, .inr ⟨m', List.mem_cons_of_mem m hm', hhits⟩⟩
      · exact .inr ⟨m, m', (singleton_sublist.mpr hm').cons_cons m, hmarks, hhits⟩
    · exact .inr ⟨m₁, m₂, hsub.cons m, hmarks⟩

/-- A result that came up without a verdict has two only if the modifiers clash. -/
theorem clash_of_cameUp {value : Int} (h : CameUp d ms value r')
    (hboth : r'.Succeeded ∧ r'.Failed) : Clash ms := by
  obtain ⟨rest, hrest, hundergoes⟩ := h
  obtain ⟨hfailed, -⟩ | ⟨m, m', hsub, hmarks⟩ := hundergoes.both hboth
  · cases hfailed
  · exact ⟨m, m', hsub.trans hrest.sublist, hmarks⟩

end DieResult

/-! ## What holds -/

/-- Where the modifiers of dice leave a result that is a success and a failure, the dice are
    numbered, and a modifier that counts failures stands before one that counts even or odd
    results. -/
theorem Evaluation.two_verdicts_by_parity {d : Denomination} {ms : List Modifier}
    (hms : ∀ m ∈ ms, m.IsOf (.ofDenomination d)) (pinned : Bool) (ticket : Option Ticket)
    (values : List Int) :
    Yields (modify pinned d (draw d ticket) ms (values.map DieResult.fresh)) fun _ rs' =>
      ∀ r ∈ rs', r.success = some true → r.failure = some true →
        (∃ n, d = .die n) ∧ ∃ m m', [m, m'] <+ ms ∧ m.effect.marksFailures = true ∧
          (m'.effect = .countEven ∨ m'.effect = .countOdd) := by
  refine (yields_modify_fresh pinned d ticket ms values).mono fun drawn rs' h r hr hs hf => ?_
  obtain ⟨more, -, hcame⟩ := h
  obtain ⟨value, -, hcame⟩ := exists_of_forall₂ hcame hr
  obtain ⟨m, m', hsub, hmarks, hhits⟩ := DieResult.clash_of_cameUp hcame ⟨hs, hf⟩
  obtain ⟨n, rfl⟩ := (hms m (hsub.subset List.mem_cons_self)).die_of_marksFailures hmarks
  have hm' : m' ∈ ms := hsub.subset (List.mem_cons_of_mem m List.mem_cons_self)
  exact ⟨⟨n, rfl⟩, m, m', hsub, hmarks, (hms m' hm').parity_of_marksHits hhits⟩

/-- Failures on ones and then odd results, for a die that shows a one. -/
theorem Evaluation.two_verdicts_by_parity_one :
    ∃ ms : List Modifier, Modifier.ofSuffix .die "cf1odd".toList = .ok ms ∧
      (∀ m ∈ ms, m.IsOf (.ofDenomination (.die 6))) ∧
      Yields (modify false (.die 6) (draw (.die 6) none) ms ([1].map DieResult.fresh)) fun _ rs' =>
        ∀ r ∈ rs', r.success = some true → r.failure = some true →
          (∃ n, Denomination.die 6 = .die n) ∧
            ∃ m m', [m, m'] <+ ms ∧ m.effect.marksFailures = true ∧
              (m'.effect = .countEven ∨ m'.effect = .countOdd) := by
  have hms : Modifier.ofSuffix .die "cf1odd".toList =
      .ok [⟨"cf1", .countFailures (some ⟨.equal, 1⟩)⟩, ⟨"odd", .countOdd⟩] := by rfl
  have hfamily := Modifier.isOf_of_ofSuffix hms
  exact ⟨_, hms, hfamily, two_verdicts_by_parity hfamily false none [1]⟩

/-- The one stays a failure when it is counted as an odd result. -/
theorem Evaluation.one_fails_and_succeeds :
    ∃ ms : List Modifier, Modifier.ofSuffix .die "cf1odd".toList = .ok ms ∧
      modify false (.die 6) (draw (.die 6) none) ms [.fresh 1] =
        pure [{ result := 1, count := some 1, success := some true, failure := some true }] := by
  refine ⟨[⟨"cf1", .countFailures (some ⟨.equal, 1⟩)⟩, ⟨"odd", .countOdd⟩], ?_, ?_⟩
  · rfl
  · rfl

end DiceNotation
