/-
  DiceNotation.Proofs.Evaluation.Advance

  What a plan does when it is carried on.

  `Plan.Advances` says once, case by case, how a plan goes on, what it draws and
  where it stops; what carrying a plan on preserves is shown by induction on it.
  A plan keeps its configuration, only asks the coordinator for tickets and leaves
  one request at most (`Plan.Advances.desk`).
-/

import DiceNotation.Proofs.Evaluation.Course
import DiceNotation.Proofs.Evaluation.Routed
import DiceNotation.Proofs.Fulfillment.Accounts

namespace DiceNotation.Plan

variable {σ α : Type} [Roller σ]

/-! ## Cases -/

/-- A plan is carried on: what it draws, and where it stops. -/
inductive Advances (o : EvaluationOptions) :
    Plan α → Context σ → Coordinator → List Draw → Suspended α → Context σ → Coordinator →
      Prop where
  | done (a : α) (c : Context σ) (k : Coordinator) : Advances o (done a) c k [] (.finished a) c k
  | untracked {dice : Dice} {next : Except RollError (Option Ticket) → Plan α}
      {c c' : Context σ} {k k' : Coordinator} {log : List Draw} {s : Suspended α}
      (h : Advances o (next (.ok none)) c k log s c' k') :
      Advances o (enter dice next) c k log s c' k'
  | tracked {dice : Dice} {next : Except RollError (Option Ticket) → Plan α}
      {c c' : Context σ} {k k' : Coordinator} {log : List Draw} {s : Suspended α}
      (external : Bool) (t : Ticket)
      (hmethod : t.suits c.config.routing dice.denomination)
      (h : Advances o (next (.ok (some t))) c (k.track external).2 log s c' k') :
      Advances o (enter dice next) c k log s c' k'
  | leave {t : Ticket} {next : Plan α} {c c' : Context σ} {k k' : Coordinator}
      {log : List Draw} {s : Suspended α}
      (h : Advances o next c (k.finish t.number) log s c' k') :
      Advances o (leave t next) c k log s c' k'
  /-- One die too many is counted but not drawn. -/
  | tooMany {d : Denomination} {t : Option Ticket} {next : Except RollError Int → Plan α}
      {c c' : Context σ} {k k' : Coordinator} {log : List Draw} {s : Suspended α}
      (hmany : c.count.1 = true)
      (h : Advances o (next (.error .tooManyRolls)) c.count.2 k log s c' k') :
      Advances o (draw d t next) c k log s c' k'
  | pinned {d : Denomination} {t : Option Ticket} {next : Except RollError Int → Plan α}
      {c c' : Context σ} {k k' : Coordinator} {log : List Draw} {s : Suspended α} (v : Int)
      (hmany : c.count.1 = false) (hpin : o.pinnedValue? d = some v)
      (h : Advances o (next (.ok v)) c.count.2 k log s c' k') :
      Advances o (draw d t next) c k (.pinned d :: log) s c' k'
  | rolled {d : Denomination} {t : Option Ticket} {next : Except RollError Int → Plan α}
      {c c' : Context σ} {k k' : Coordinator} {log : List Draw} {s : Suspended α}
      (hmany : c.count.1 = false) (hpin : o.pinnedValue? d = none)
      (h : Advances o (next (.ok (c.count.2.rollDie d).1)) (c.count.2.rollDie d).2 k log s c' k') :
      Advances o (draw d t next) c k (.rolled d (c.count.2.rollDie d).1 :: log) s c' k'
  /-- A coordinator that was cancelled takes no request. -/
  | refused {d : Denomination} {t : Option Ticket} {next : Except RollError Int → Plan α}
      {c c' : Context σ} {k k' : Coordinator} {log : List Draw} {s : Suspended α}
      (hmany : c.count.1 = false) (hpin : o.pinnedValue? d = none) (hc : k.cancelled = true)
      (h : Advances o (next (.error (.evaluation .cancelled))) c.count.2 k log s c' k') :
      Advances o (draw d t next) c k (.requested d :: log) s c' k'
  | requested {d : Denomination} {next : Except RollError Int → Plan α} {c : Context σ}
      {k : Coordinator} (ticket : Nat) (method : String)
      (hmany : c.count.1 = false) (hpin : o.pinnedValue? d = none) (hc : k.cancelled = false) :
      Advances o (draw d (some ⟨ticket, some method⟩) next) c k [.requested d]
        (.waiting k.nextId d next) c.count.2 (k.request method d ticket).2

/-- A plan goes on in one of these ways. -/
theorem advances (o : EvaluationOptions) (p : Plan α) (c : Context σ) (k : Coordinator) :
    Advances o p c k (p.draws o c k) (p.advance o c k).1 (p.advance o c k).2.1
      (p.advance o c k).2.2 := by
  induction p generalizing c k with
  | done a => exact .done a c k
  | leave t next ih => exact .leave (ih c (k.finish t.number))
  | enter dice next ih =>
    cases hm : c.config.routing.externalMethod? dice.denomination with
    | none =>
      simp only [draws, advance, grantTicket, hm]
      exact .untracked (ih (.ok none) c k)
    | some method =>
      simp only [draws, advance, grantTicket, hm]
      refine .tracked _ _ ?_ (ih (.ok (some _)) c _)
      simp only [Ticket.suits, Context.interactiveMethod?]
      split <;> simp [hm]
  | draw d ticket next ih =>
    cases hmany : c.count.1 with
    | true =>
      simp only [draws, advance, hmany, if_true]
      exact .tooMany hmany (ih (.error .tooManyRolls) c.count.2 k)
    | false =>
      cases hpin : o.pinnedValue? d with
      | some v =>
        simp only [draws, advance, hmany, hpin, drawNow, Bool.false_eq_true, if_false]
        exact .pinned v hmany hpin (ih (.ok v) c.count.2 k)
      | none =>
        -- without a method from outside the die is rolled
        have hroll := Advances.rolled (d := d) (t := ticket) hmany hpin
          (ih (.ok (c.count.2.rollDie d).1) (c.count.2.rollDie d).2 k)
        obtain _ | ⟨number, _ | method⟩ := ticket
        iterate 2
          · simpa only [draws, advance, hmany, hpin, drawNow, Bool.false_eq_true, if_false] using
              hroll
        · cases hc : k.cancelled with
          | true =>
            simp only [draws, advance, hmany, hpin, Bool.false_eq_true, if_false,
              Coordinator.request_of_cancelled method d number hc]
            exact .refused hmany hpin hc (ih (.error (.evaluation .cancelled)) c.count.2 k)
          | false =>
            have hrequest : k.request method d number =
                (some k.nextId, (k.request method d number).2) := by
              rw [← Coordinator.request_fst method d number hc]
            simp only [draws, advance, hmany, hpin, Bool.false_eq_true, if_false]
            rw [hrequest]
            exact .requested number method hmany hpin hc

namespace Advances

variable {o : EvaluationOptions} {p : Plan α} {c c' : Context σ} {k k' : Coordinator}
  {log : List Draw} {s : Suspended α}

/-! ## What is kept -/

/-- A plan keeps the configuration and the functions. -/
theorem context (h : Advances o p c k log s c' k') :
    c'.config = c.config ∧ c'.functions = c.functions := by
  induction h with
  | done | requested => exact ⟨rfl, rfl⟩
  | untracked _ ih | tracked _ _ _ _ ih | leave _ ih | tooMany _ _ ih | pinned _ _ _ _ ih
  | rolled _ _ _ ih | refused _ _ _ _ ih => exact ih

/-- A plan cancels nothing. -/
theorem cancelled (h : Advances o p c k log s c' k') : k'.cancelled = k.cancelled := by
  induction h with
  | done => rfl
  | requested ticket method _ _ hc => simp [Coordinator.request, hc]
  | untracked _ ih | tracked _ _ _ _ ih | leave _ ih | tooMany _ _ ih | pinned _ _ _ _ ih
  | rolled _ _ _ ih | refused _ _ _ _ ih => exact ih

/-- Every value that a plan takes from the roller is that of a face. -/
theorem faces (h : Advances o p c k log s c' k') :
    ∀ e ∈ log.filterMap Draw.obtained?, ∃ face, e.1.valueOf face = e.2 := by
  induction h with
  | done | requested => simp [Draw.obtained?]
  | untracked _ ih | tracked _ _ _ _ ih | leave _ ih | tooMany _ _ ih => exact ih
  | pinned v hmany hpin _ ih => simpa [Draw.obtained?] using ih
  | refused hmany hpin hc _ ih => simpa [Draw.obtained?] using ih
  | @rolled d t next c c' k k' log s hmany hpin _ ih =>
    simp only [List.filterMap_cons, Draw.obtained?]
    intro e he
    rcases List.mem_cons.mp he with rfl | he
    · exact ⟨_, rfl⟩
    · exact ih e he

/-! ## Requests -/

/-- A plan that waits does so for a die that it drew last. -/
theorem requested_mem {id : Nat} {d : Denomination} {next : Except RollError Int → Plan α}
    (h : Advances o p c k log (.waiting id d next) c' k') : Draw.requested d ∈ log := by
  generalize hs : Suspended.waiting id d next = s at h
  induction h with
  | done => cases hs
  | requested =>
    cases hs
    exact List.mem_singleton_self _
  | untracked _ ih | tracked _ _ _ _ ih | leave _ ih | tooMany _ _ ih => exact ih hs
  | pinned _ _ _ _ ih | rolled _ _ _ ih | refused _ _ _ _ ih =>
    exact List.mem_cons_of_mem _ (ih hs)

/-- The die that a plan waits for is routed to a method from outside. -/
theorem externalMethod?_isSome {id : Nat} {d : Denomination}
    {next : Except RollError Int → Plan α} (h : Advances o p c k log (.waiting id d next) c' k')
    (hp : p.Routed c.config.routing) : (c.config.routing.externalMethod? d).isSome := by
  generalize hs : Suspended.waiting id d next = s at h
  induction h with
  | done => cases hs
  | requested ticket method =>
    cases hs
    rw [hp.1 _ rfl method rfl]
    rfl
  | untracked _ ih => exact ih hp.2.1 hs
  | tracked external t hmethod _ ih => exact ih (hp.2.2 t hmethod) hs
  | leave _ ih => exact ih hp hs
  | tooMany _ _ ih | pinned _ _ _ _ ih | rolled _ _ _ ih | refused _ _ _ _ ih =>
    exact ih (hp.2 _) hs

end Advances

end DiceNotation.Plan
