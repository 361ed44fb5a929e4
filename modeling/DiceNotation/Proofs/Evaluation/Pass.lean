/-
  DiceNotation.Proofs.Evaluation.Pass

  What passes through results do, and that they end.

  A pass is a loop whose bound moves while it goes on. `Pass.turn` is one turn of this
  loop, which inspects one result by its index, and `Pass.turns` are turns in a row; a
  pass is over after `passLimit + 1` turns at the latest, with what `Pass.run` gives
  (`Pass.turns_through`). What a turn keeps (`Pass.Reached`, `Pass.Stage.Sound`) so
  holds at the end of a run: the results that a pass hits are exactly the inspected
  ones that are active and meet its condition, and each of them brings one die
  (`Pass.Exact`).
-/

import DiceNotation.Proofs.Evaluation.Yield

namespace DiceNotation.Evaluation

open Modifier

namespace Pass

/-! ## Turns -/

section

variable (p : Pass) (one : Evaluation Int)

/-- What a pass makes of a result that it inspects. -/
def visit (r : DieResult) : DieResult := if p.hits r then p.mark r else r

/-- The results behind one that a pass inspects, and the die that it brings if it hits. -/
def bring (r : DieResult) (ahead : List DieResult) : Evaluation (List DieResult) :=
  if p.hits r then do
    let value ← one
    pure (ahead ++ [.fresh value])
  else pure ahead

/-- How far a pass is: the results, and how many of them it inspected. -/
inductive Stage where
  | underway (results : List DieResult) (inspected : Nat)
  | ended (results : List DieResult)

/-- The next turn of a pass that found `initial` results when it began. -/
def turn (initial : Nat) (rs : List DieResult) (inspected : Nat) : Evaluation Stage :=
  match rs[inspected]? with
  | none => return .ended rs
  | some r => do
    let rs ← if p.hits r then do
        let value ← one
        pure (rs.set inspected (p.mark r) ++ [.fresh value])
      else pure rs
    if !p.recursive && initial ≤ inspected + 1 then return .ended rs
    else if passLimit < inspected + 1 then throw .tooManyRolls
    else return .underway rs (inspected + 1)

/-- Turns in a row, until the pass is over. -/
def turns (initial : Nat) : Nat → Stage → Evaluation Stage
  | 0, s => return s
  | _ + 1, .ended rs => return .ended rs
  | n + 1, .underway rs inspected => do
    let s ← p.turn one initial rs inspected
    turns initial n s

theorem turns_ended (initial n : Nat) (rs : List DieResult) :
    p.turns one initial n (.ended rs) = pure (.ended rs) := by
  cases n <;> rfl

/-- A turn in terms of the results before and behind the one that it inspects. -/
theorem turn_append (initial : Nat) (behind ahead : List DieResult) (r : DieResult) :
    p.turn one initial (behind ++ r :: ahead) behind.length =
      p.bring one r ahead >>= fun ahead =>
        if !p.recursive && initial ≤ behind.length + 1 then
          pure (.ended (behind ++ p.visit r :: ahead))
        else if passLimit < behind.length + 1 then throw .tooManyRolls
        else pure (.underway (behind ++ p.visit r :: ahead) (behind.length + 1)) := by
  by_cases hhit : p.hits r = true <;> simp [turn, bring, visit, hhit]

theorem through_cons (limit left : Nat) (behind ahead : List DieResult) (r : DieResult) :
    p.through one limit left behind (r :: ahead) =
      p.bring one r ahead >>= fun ahead =>
        if !p.recursive && left ≤ 1 then pure ((p.visit r :: behind).reverse ++ ahead)
        else match limit with
          | 0 => throw .tooManyRolls
          | limit + 1 => p.through one limit (left - 1) (p.visit r :: behind) ahead := by
  cases limit <;> by_cases hhit : p.hits r = true <;> simp [through, bring, visit, hhit]

/-- Turns in a row come to the same end as the pass; more turns than the pass may inspect
    results are enough. -/
theorem turns_through {initial limit left n : Nat} {behind ahead : List DieResult}
    (hlimit : limit + behind.length = passLimit) (hleft : left = initial - behind.length)
    (hn : limit < n) :
    p.turns one initial n (.underway (behind.reverse ++ ahead) behind.length) =
      .ended <$> p.through one limit left behind ahead := by
  -- The pass takes results off `ahead` and keeps what it has seen in reverse; the turns keep
  -- the row and an index. A turn moves one result from `ahead` to `behind`.
  induction n generalizing limit left behind ahead with
  | zero => omega
  | succ n ih =>
    cases ahead with
    | nil => simp [turns, turn, through, turns_ended]
    | cons r ahead =>
      have hturn := p.turn_append one initial behind.reverse ahead r
      rw [List.length_reverse] at hturn
      rw [turns, hturn, through_cons, bind_assoc, map_bind]
      refine bind_congr fun ahead => ?_
      have hlast : initial ≤ behind.length + 1 ↔ left ≤ 1 := by omega
      have hrow : behind.reverse ++ p.visit r :: ahead = (p.visit r :: behind).reverse ++ ahead := by
        simp
      simp only [hlast, hrow]
      split
      · rw [pure_bind, turns_ended, map_pure]
      · cases limit with
        | zero =>
          rw [if_pos (by omega)]
          rfl
        | succ limit =>
          rw [if_neg (by omega), pure_bind]
          exact @ih limit (left - 1) (p.visit r :: behind) ahead
            (by simp only [List.length_cons]; omega) (by simp only [List.length_cons]; omega)
            (by omega)

theorem turns_run (rs : List DieResult) {n : Nat} (hn : passLimit < n) :
    p.turns one rs.length n (.underway rs 0) = .ended <$> p.run one rs :=
  @turns_through p one rs.length passLimit rs.length n [] rs rfl rfl hn

end

/-! ## What a pass promises -/

section

variable (p : Pass) (rs : List DieResult) (values : List Int)

/-- How many results a pass inspects that leaves results `rs'` of results `rs`: those that
    were there when it began or, when it is recursive, all of them. -/
def inspected (rs' : List DieResult) : Nat := if p.recursive then rs'.length else rs.length

/-- What becomes of results when a pass draws dice with some values. -/
structure Exact (rs' : List DieResult) : Prop where
  /-- One die is drawn for each result that the pass hits among those that it inspects. -/
  drawn : values.length =
    ((rs ++ values.map DieResult.fresh).take (p.inspected rs rs')).countP p.hits
  /-- The dice stand behind the results that were there before. Those that the pass hits are
      marked; all others are as they were or as they came up. -/
  results : ∀ i, rs'[i]? = (rs ++ values.map DieResult.fresh)[i]?.map fun r =>
    if i < p.inspected rs rs' ∧ p.hits r = true then p.mark r else r
  bounded : p.inspected rs rs' ≤ passLimit + 1

/-! ## Steps -/

/-- How far a pass is that has drawn dice with some values: results that it has seen, and
    those that lie ahead. -/
structure Reached (seen ahead : List DieResult) : Prop where
  row : rs ++ values.map DieResult.fresh = seen ++ ahead
  drawn : values.length = seen.countP p.hits

/-- What holds at each stage of a pass. A pass that is not recursive is underway only at
    results that were there when it began; where there were none, it still has its first turn
    ahead. -/
def Stage.Sound : Stage → Prop
  | .underway cur i => ∃ seen ahead, p.Reached rs values seen ahead ∧
      cur = seen.map p.visit ++ ahead ∧ i = seen.length ∧ i ≤ passLimit ∧
        (p.recursive = false → i = 0 ∨ i < rs.length)
  | .ended rs' => p.Exact rs values rs'

end

variable {p : Pass} {rs : List DieResult} {values : List Int} {seen ahead : List DieResult}

/-- A pass that has seen as many results as it is to inspect is exact. -/
theorem Reached.exact (h : p.Reached rs values seen ahead)
    (hseen : p.inspected rs (seen.map p.visit ++ ahead) = seen.length)
    (hlimit : seen.length ≤ passLimit + 1) :
    p.Exact rs values (seen.map p.visit ++ ahead) := by
  refine ⟨?_, fun i => ?_, hseen ▸ hlimit⟩
  · rw [hseen, h.row, List.take_left, h.drawn]
  · rw [hseen, h.row]
    by_cases hi : i < seen.length
    · simp only [List.getElem?_append, List.length_map, hi, if_true, true_and, List.getElem?_map]
      rfl
    · simp [List.getElem?_append, hi]

/-- A pass goes on by one result, with the die that it brings. -/
theorem Reached.visit {r : DieResult} (h : p.Reached rs values seen (r :: ahead)) {vs : List Int}
    (hvs : vs.length = [r].countP p.hits) :
    p.Reached rs (values ++ vs) (seen ++ [r]) (ahead ++ vs.map DieResult.fresh) := by
  refine ⟨?_, ?_⟩
  · rw [List.map_append, ← List.append_assoc, h.row]
    simp
  · rw [List.length_append, List.countP_append, h.drawn, hvs]

/-- Nothing is ahead of a pass that was inspecting all that there is. -/
theorem Reached.inspected_of_nil (h : p.Reached rs values seen [])
    (hsingle : p.recursive = false → seen.length = 0 ∨ seen.length < rs.length) :
    p.inspected rs (seen.map p.visit ++ []) = seen.length := by
  have hlength := congrArg List.length h.row
  simp only [List.length_append, List.length_map, List.length_nil] at hlength
  cases hrec : p.recursive with
  | true => simp [inspected, hrec]
  | false =>
    have hseen := hsingle hrec
    simp only [inspected, hrec, Bool.false_eq_true, if_false]
    omega

/-- The next result of a single pass was there when it began. -/
theorem Reached.lt_of_cons {r : DieResult} (h : p.Reached rs values seen (r :: ahead))
    (hsingle : seen.length = 0 ∨ seen.length < rs.length) : seen.length < rs.length := by
  have hlength := congrArg List.length h.row
  have hcount := List.countP_le_length (l := seen) (p := p.hits)
  have hdrawn := h.drawn
  simp only [List.length_append, List.length_map, List.length_cons] at hlength
  omega

section

variable (d : Denomination) (ticket : Option Ticket)

theorem yields_bring (p : Pass) (r : DieResult) (ahead : List DieResult) :
    Yields (p.bring (draw d ticket) r ahead) fun drawn ahead' => ∃ vs : List Int,
      drawn = vs.map (d, ·) ∧ ahead' = ahead ++ vs.map DieResult.fresh ∧
        vs.length = [r].countP p.hits := by
  unfold bring
  split
  · rename_i hhit
    refine (yields_draw d ticket).bind fun drawn v hdrawn => yields_pure ?_
    exact ⟨[v], by rw [hdrawn]; rfl, rfl, by simp [hhit]⟩
  · rename_i hmiss
    exact yields_pure ⟨[], rfl, (List.append_nil _).symm, by simp [hmiss]⟩

/-- A turn keeps what holds at each stage. -/
theorem Stage.Sound.turn {cur : List DieResult} {i : Nat}
    (h : Stage.Sound p rs values (.underway cur i)) :
    Yields (p.turn (draw d ticket) rs.length cur i) fun drawn s => ∃ vs : List Int,
      drawn = vs.map (d, ·) ∧ s.Sound p rs (values ++ vs) := by
  obtain ⟨seen, ahead, hreached, rfl, rfl, hlimit, hsingle⟩ := h
  cases ahead with
  | nil =>
    have hended : p.turn (draw d ticket) rs.length (seen.map p.visit ++ []) seen.length =
        pure (.ended (seen.map p.visit ++ [])) := by
      simp [Pass.turn]
    rw [hended]
    refine yields_pure ⟨[], rfl, ?_⟩
    rw [List.append_nil]
    exact hreached.exact (hreached.inspected_of_nil hsingle) (by omega)
  | cons r ahead =>
    have hturn := p.turn_append (draw d ticket) rs.length (seen.map p.visit) ahead r
    rw [List.length_map] at hturn
    rw [hturn]
    refine (yields_bring d ticket p r ahead).bind fun drawn ahead' hbring => ?_
    obtain ⟨vs, rfl, rfl, hvs⟩ := hbring
    have hnext := hreached.visit hvs
    have hrow : seen.map p.visit ++ p.visit r :: (ahead ++ vs.map DieResult.fresh) =
        (seen ++ [r]).map p.visit ++ (ahead ++ vs.map DieResult.fresh) := by
      simp
    have hlength : seen.length + 1 = (seen ++ [r]).length := by simp
    have hsingle : p.recursive = false → seen.length < rs.length := fun hrec =>
      hreached.lt_of_cons (hsingle hrec)
    rw [hrow, hlength]
    split
    · rename_i hlast
      obtain ⟨hrec, hlast⟩ : p.recursive = false ∧ rs.length ≤ (seen ++ [r]).length := by
        simpa using hlast
      have hseen := hsingle hrec
      refine yields_pure ⟨vs, List.append_nil _, hnext.exact ?_ (by omega)⟩
      simp only [inspected, hrec, Bool.false_eq_true, if_false]
      omega
    · rename_i hmore
      split
      · exact yields_throw _
      · refine yields_pure ⟨vs, List.append_nil _, _, _, hnext, rfl, rfl, by omega, fun hrec => ?_⟩
        simp only [hrec, Bool.not_false, Bool.true_and, decide_eq_true_eq] at hmore
        exact .inr (by omega)

/-- Turns in a row keep what holds at each stage. -/
theorem Stage.Sound.turns {n : Nat} {s : Stage} (h : s.Sound p rs values) :
    Yields (p.turns (draw d ticket) rs.length n s) fun drawn s' => ∃ vs : List Int,
      drawn = vs.map (d, ·) ∧ s'.Sound p rs (values ++ vs) := by
  induction n generalizing s values with
  | zero => exact yields_pure ⟨[], rfl, (List.append_nil values).symm ▸ h⟩
  | succ n ih =>
    cases s with
    | ended rs' => exact yields_pure ⟨[], rfl, (List.append_nil values).symm ▸ h⟩
    | underway cur i =>
      refine (h.turn d ticket).bind fun drawn s hs => ?_
      obtain ⟨vs, rfl, hs⟩ := hs
      refine (ih hs).mono fun drawn s' hs' => ?_
      obtain ⟨more, rfl, hs'⟩ := hs'
      exact ⟨vs ++ more, (List.map_append ..).symm, List.append_assoc values vs more ▸ hs'⟩

/-- A pass is exact. -/
theorem yields_run (p : Pass) (rs : List DieResult) :
    Yields (p.run (draw d ticket) rs) fun drawn rs' => ∃ values : List Int,
      drawn = values.map (d, ·) ∧ p.Exact rs values rs' := by
  have hstart : Stage.Sound p rs [] (.underway rs 0) := by
    refine ⟨[], rs, ⟨List.append_nil rs, rfl⟩, rfl, rfl, Nat.zero_le _, fun _ => .inl rfl⟩
  have hturns := hstart.turns d ticket (n := passLimit + 1)
  rw [p.turns_run _ rs (Nat.lt_succ_self passLimit)] at hturns
  exact hturns.of_map

end

/-! ## What is promised -/

section

variable {rs' : List DieResult}

/-- A result stays in its place with its value. -/
theorem Exact.kept (h : p.Exact rs values rs') (hmark : ∀ r, (p.mark r).result = r.result)
    {i : Nat} {r : DieResult} (hr : rs[i]? = some r) :
    ∃ r', rs'[i]? = some r' ∧ r'.result = r.result := by
  have hrow : (rs ++ values.map DieResult.fresh)[i]? = some r := by
    rw [List.getElem?_append_left (List.getElem?_eq_some_iff.mp hr).1, hr]
  refine ⟨_, (h.results i).trans (congrArg _ hrow), ?_⟩
  dsimp only
  split
  · exact hmark r
  · rfl

/-- A recursive pass visits all results that it leaves. -/
theorem Exact.visited (h : p.Exact rs values rs') (hrec : p.recursive = true) {r' : DieResult}
    (hr' : r' ∈ rs') : ∃ r, r' = p.visit r := by
  obtain ⟨i, hi⟩ := List.mem_iff_getElem?.mp hr'
  have hinspected : i < p.inspected rs rs' := by
    simpa only [inspected, hrec, if_true] using (List.getElem?_eq_some_iff.mp hi).1
  obtain ⟨r, -, rfl⟩ := Option.map_eq_some_iff.mp ((h.results i).symm.trans hi)
  exact ⟨r, by simp only [visit, hinspected, true_and]⟩

end

end Pass

/-- How a pass carries out an effect on results of a denomination. When it is recursive,
    `Left` holds of each result that it leaves though it would hit it again. -/
structure Pass.Performs (p : Pass) (d : Denomination) (e : Effect) (rs : List DieResult)
    (Left : DieResult → Prop) : Prop where
  /-- Wherever its dice come from, it is over once it has inspected `passLimit + 1` results. -/
  halts : ∀ one n, passLimit < n →
    p.turns one rs.length n (.underway rs 0) = .ended <$> effect false d one e rs
  exact : ∀ ticket, Yields (effect false d (draw d ticket) e rs) fun drawn rs' =>
    ∃ values : List Int, drawn = values.map (d, ·) ∧ p.Exact rs values rs' ∧
      (∀ (i : Nat) (r : DieResult), rs[i]? = some r →
        ∃ r' : DieResult, rs'[i]? = some r' ∧ r'.result = r.result) ∧
      (p.recursive = true → ∀ r ∈ rs', p.hits r = true → Left r)

/-- A pass performs an effect if its marks keep values and leave what is to be left. -/
theorem Pass.performs {p : Pass} {d : Denomination} {e : Effect} (hp : pass? d e = some p)
    {Left : DieResult → Prop} (hmark : ∀ r, (p.mark r).result = r.result)
    (hleft : ∀ r, p.hits (p.mark r) = true → Left (p.mark r)) (rs : List DieResult) :
    p.Performs d e rs Left := by
  have heffect : ∀ one, effect false d one e rs = p.run one rs := by
    intro one
    simp only [effect, hp, Bool.false_eq_true, if_false]
  refine ⟨fun one n hn => (heffect one).symm ▸ p.turns_run one rs hn, fun ticket => ?_⟩
  rw [heffect]
  refine (Pass.yields_run d ticket p rs).mono fun drawn rs' hrun => ?_
  obtain ⟨values, hdrawn, hexact⟩ := hrun
  refine ⟨values, hdrawn, hexact, fun i r => hexact.kept hmark, fun hrec r hr hhit => ?_⟩
  obtain ⟨r, rfl⟩ := hexact.visited hrec hr
  by_cases hr : p.hits r = true
  · rw [Pass.visit, if_pos hr] at hhit ⊢
    exact hleft r hhit
  · rw [Pass.visit, if_neg hr] at hhit
    exact absurd hhit hr

/-- Rerolls and explosions of dice whose values are not fixed are exact and come to an end.
    A recursive reroll leaves no active result that meets its condition, and a recursive
    explosion none that did not explode. -/
theorem performs_passes (d : Denomination) (recursive : Bool) (condition : Option Condition)
    (rs : List DieResult) :
    Pass.Performs ⟨condition.getD ⟨.equal, d.least⟩, DieResult.reroll, recursive⟩ d
        (.reroll recursive condition) rs (fun _ => False) ∧
      Pass.Performs ⟨condition.getD ⟨.equal, d.greatest⟩, DieResult.explode, recursive⟩ d
        (.explode recursive condition) rs (fun r => r.exploded = true) :=
  ⟨Pass.performs rfl (fun _ => rfl) (fun r => by simp [Pass.hits, DieResult.reroll]) rs,
    Pass.performs rfl (fun _ => rfl) (fun _ _ => rfl) rs⟩

end DiceNotation.Evaluation
