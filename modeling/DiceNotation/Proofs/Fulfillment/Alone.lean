/-
  DiceNotation.Proofs.Fulfillment.Alone

  A coordinator where one evaluation waits alone.

  Nobody waits at a coordinator that is idle. Once a die is asked for there, its
  request is outstanding, was released, or has its answer
  (`Coordinator.Attends`); submissions and cancellations lead from one of these to
  another, and an accepted submission is the answer (`Coordinator.Attends.submit`).
-/

import DiceNotation.Proofs.Fulfillment.Consistency

namespace DiceNotation.Coordinator

variable {k : Coordinator} {id : Nat} {method : String} {d : Denomination}

/-! ## Nobody waits -/

/-- Nobody waits at a coordinator. -/
structure Idle (k : Coordinator) : Prop where
  outstanding : k.outstanding = []
  listening : k.listening = []
  delivered : k.delivered = []

theorem Idle.track (h : k.Idle) (external : Bool) : (k.track external).2.Idle :=
  ⟨h.outstanding, h.listening, h.delivered⟩

theorem Idle.finish (h : k.Idle) (ticket : Nat) : (k.finish ticket).Idle :=
  ⟨h.outstanding, h.listening, h.delivered⟩

theorem Idle.cancel (h : k.Idle) : k.cancel.Idle := ⟨rfl, h.listening, h.delivered⟩

/-- Where no request is outstanding, no result is taken. -/
theorem submit_of_outstanding_nil (h : k.outstanding = []) (method denomination : String)
    (value : Int) : ∃ e, k.submit method denomination value = (.error e, k) := by
  have hnot : ¬ k.Takes method denomination value := by
    rintro ⟨-, die, -, ⟨r, hr, -⟩, -⟩
    rw [h] at hr
    cases hr
  obtain ⟨e, he, -⟩ := submit_of_not_takes hnot
  exact ⟨e, he⟩

/-! ## One waits -/

/-- One request and no other is waited for at a coordinator, and what came for it. -/
inductive Attends (id : Nat) (method : String) (d : Denomination) :
    Option Int → Coordinator → Prop where
  /-- The request is outstanding. -/
  | asked {k : Coordinator} (ticket : Nat) (houtstanding : k.outstanding = [⟨id, method, d, ticket⟩])
      (hlistening : k.listening = [id]) (hdelivered : k.delivered = []) : Attends id method d none k
  /-- The request was cancelled. -/
  | released {k : Coordinator} (houtstanding : k.outstanding = []) (hlistening : k.listening = [id])
      (hdelivered : k.delivered = []) : Attends id method d none k
  | answered {k : Coordinator} (value : Int) (houtstanding : k.outstanding = [])
      (hlistening : k.listening = [id]) (hdelivered : k.delivered = [(id, value)]) :
      Attends id method d (some value) k

/-- A request that is left at an idle coordinator is the only one. -/
theorem Idle.request (h : k.Idle) (method : String) (d : Denomination) (ticket : Nat)
    (hc : k.cancelled = false) :
    Attends k.nextId method d none (k.request method d ticket).2 := by
  refine .asked ticket ?_ ?_ ?_
  · simp [Coordinator.request, hc, h.outstanding]
  · simp [Coordinator.request, hc, h.listening]
  · simp [Coordinator.request, hc, h.delivered]

/-- The one who waits finds the answer that came. -/
theorem Attends.reply_some {value : Int} (h : Attends id method d (some value) k) :
    k.reply id = .answered value := by
  cases h with
  | answered _ houtstanding hlistening hdelivered => simp [Coordinator.reply, hdelivered]

/-- Nothing is found where nothing came. -/
theorem Attends.reply_none (h : Attends id method d none k) :
    k.reply id = .pending ∨ k.reply id = .cancelled := by
  cases h with
  | asked ticket houtstanding hlistening hdelivered =>
    exact .inl (by simp [Coordinator.reply, houtstanding, hdelivered])
  | released houtstanding hlistening hdelivered =>
    exact .inr (by simp [Coordinator.reply, houtstanding, hdelivered])

variable {came : Option Int}

/-- Once the one who waited is gone, nobody waits. -/
theorem Attends.withdraw (h : Attends id method d came k) : (k.withdraw id).Idle := by
  cases h with
  | asked ticket houtstanding hlistening hdelivered =>
    constructor <;> simp [Coordinator.withdraw, houtstanding, hlistening, hdelivered]
  | released houtstanding hlistening hdelivered =>
    constructor <;> simp [Coordinator.withdraw, houtstanding, hlistening, hdelivered]
  | answered value houtstanding hlistening hdelivered =>
    constructor <;> simp [Coordinator.withdraw, houtstanding, hlistening, hdelivered]

/-- A cancellation keeps an answer that came before. -/
theorem Attends.cancel (h : Attends id method d came k) : Attends id method d came k.cancel := by
  cases h with
  | asked ticket houtstanding hlistening hdelivered => exact .released rfl hlistening hdelivered
  | released houtstanding hlistening hdelivered => exact .released rfl hlistening hdelivered
  | answered value houtstanding hlistening hdelivered =>
    exact .answered value rfl hlistening hdelivered

/-- A submission is refused and changes nothing, or it is accepted; then it is one for the
    request that is waited for, and its value is the answer. -/
theorem Attends.submit (h : Attends id method d came k) (m text : String) (value : Int) :
    (∃ e, k.submit m text value = (.error e, k)) ∨
      ((k.submit m text value).1 = .ok () ∧ m = method ∧
        Denomination.ofChars? text.toList = some d ∧ came = none ∧
        Attends id method d (some value) (k.submit m text value).2) := by
  by_cases ht : k.Takes m text value
  · right
    cases h with
    | released houtstanding | answered _ houtstanding =>
      obtain ⟨-, -, -, ⟨r, hr, -⟩, -⟩ := ht
      rw [houtstanding] at hr
      cases hr
    | asked ticket houtstanding hlistening hdelivered =>
      obtain ⟨hc, die, hdie, ⟨r, hr, hm, hd⟩, hvalue⟩ := ht
      obtain rfl : r = ⟨id, method, d, ticket⟩ := by simpa [houtstanding] using hr
      obtain rfl : method = m := hm
      obtain rfl : d = die := hd
      have hdelivers : k.submit method text value =
          deliver id value { k with outstanding := [] } := by
        simp [Coordinator.submit, hdie, hc, houtstanding, asksFor, hvalue]
      have haccepted : k.submit method text value =
          (.ok (), { k with
            outstanding := []
            delivered := k.delivered ++ [(id, value)]
            signals := k.signals + 1 }) := by
        rw [hdelivers]
        simp [deliver, hlistening]
      rw [haccepted]
      refine ⟨rfl, rfl, hdie, rfl, .answered value rfl hlistening ?_⟩
      rw [hdelivered, List.nil_append]
  · left
    obtain ⟨e, he, -⟩ := submit_of_not_takes ht
    exact ⟨e, he⟩

end DiceNotation.Coordinator
