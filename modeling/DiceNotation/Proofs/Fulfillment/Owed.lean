/-
  DiceNotation.Proofs.Fulfillment.Owed

  Tickets with dice due.

  A ticket has dice due from when it is given out until it is marked; a request in
  between only says what is waited for. Submissions, cancellations and whoever
  leaves change no ticket.
-/

import DiceNotation.Proofs.Fulfillment.Alone

namespace DiceNotation.Coordinator

variable {k k' : Coordinator}

/-! ## Dice due -/

/-- A ticket that was given out has dice due. -/
def Due (ticket : Nat) (k : Coordinator) : Prop :=
  ∃ p, k.progress? ticket = some p ∧ p.isDone = false

theorem progress?_congr (h : k'.tracked = k.tracked) (ticket : Nat) :
    k'.progress? ticket = k.progress? ticket := by
  rw [progress?, progress?, h]

theorem due_congr (h : k'.tracked = k.tracked) (ticket : Nat) : k'.Due ticket ↔ k.Due ticket := by
  rw [Due, Due, progress?_congr h]

theorem lt_of_progress? {ticket : Nat} {p : Progress} (h : k.progress? ticket = some p) :
    ticket < k.tracked.length := by
  obtain ⟨t, ht, -⟩ := Option.map_eq_some_iff.mp h
  obtain ⟨hlt, -⟩ := List.getElem?_eq_some_iff.mp ht
  exact hlt

theorem lt_of_due {ticket : Nat} (h : k.Due ticket) : ticket < k.tracked.length := by
  obtain ⟨p, hp, -⟩ := h
  exact lt_of_progress? hp

/-- Every ticket that was given out has made some progress. -/
theorem exists_progress? {ticket : Nat} (h : ticket < k.tracked.length) :
    ∃ p, k.progress? ticket = some p :=
  ⟨_, by rw [progress?, List.getElem?_eq_getElem h, Option.map_some]⟩

/-- A ticket has no dice due exactly if it was marked. -/
theorem not_due_iff {ticket : Nat} (h : ticket < k.tracked.length) :
    ¬ k.Due ticket ↔ ∃ p, k.progress? ticket = some p ∧ p.isDone = true := by
  obtain ⟨p, hp⟩ := exists_progress? h
  simp [Due, hp]

/-- A coordinator is complete exactly if no ticket has dice due. -/
theorem isComplete_iff : k.isComplete = true ↔ ∀ ticket, ¬ k.Due ticket := by
  rw [isComplete, List.all_eq_true]
  constructor
  · rintro h ticket ⟨p, hp, hdue⟩
    obtain ⟨t, ht, rfl⟩ := Option.map_eq_some_iff.mp hp
    rw [h t (List.mem_of_getElem? ht)] at hdue
    cases hdue
  · intro h t ht
    obtain ⟨i, hi⟩ := List.mem_iff_getElem?.mp ht
    cases hdone : t.progress.isDone with
    | true => rfl
    | false => exact absurd ⟨t.progress, by rw [progress?, hi, Option.map_some], hdone⟩ (h i)

/-! ## Tickets -/

theorem progress?_track (external : Bool) (ticket : Nat) :
    (k.track external).2.progress? ticket =
      if ticket = k.tracked.length then some .unfulfilled else k.progress? ticket := by
  rw [progress?, track]
  by_cases hnew : ticket = k.tracked.length
  · rw [if_pos hnew, hnew, List.getElem?_concat_length]
    rfl
  · rw [if_neg hnew, progress?]
    rcases Nat.lt_or_gt_of_ne hnew with hlt | hgt
    · rw [List.getElem?_append_left hlt]
    · have hnone : k.tracked[ticket]? = none := List.getElem?_eq_none (Nat.le_of_lt hgt)
      have hlength : (k.tracked ++ [(⟨external, .unfulfilled⟩ : Tracked)]).length ≤ ticket := by
        rw [List.length_append, List.length_singleton]
        omega
      rw [hnone, List.getElem?_eq_none hlength]

/-- A ticket that is given out has dice due. -/
theorem due_track (external : Bool) (ticket : Nat) :
    (k.track external).2.Due ticket ↔ k.Due ticket ∨ k.tracked.length = ticket := by
  rw [Due, progress?_track]
  by_cases hnew : ticket = k.tracked.length
  · subst hnew
    simp [Progress.isDone]
  · simp [Due, hnew, Ne.symm hnew]

theorem progress?_finish_of_ne {n ticket : Nat} (h : ticket ≠ n) :
    (k.finish n).progress? ticket = k.progress? ticket := by
  rw [progress?, finish, progress?, List.getElem?_modify]
  simp [Ne.symm h]

/-- A ticket that is marked has no dice due. -/
theorem due_finish (n ticket : Nat) :
    (k.finish n).Due ticket ↔ k.Due ticket ∧ ticket ≠ n := by
  by_cases heq : ticket = n
  · subst heq
    refine ⟨?_, fun h => absurd rfl h.2⟩
    rintro ⟨p, hp, hdue⟩
    rw [progress?, finish, List.getElem?_modify_eq] at hp
    obtain ⟨t, ht, rfl⟩ := Option.map_eq_some_iff.mp hp
    obtain ⟨t, -, rfl⟩ := Option.map_eq_some_iff.mp ht
    cases hexternal : t.external <;> simp [hexternal, Progress.isDone] at hdue
  · rw [Due, progress?_finish_of_ne heq]
    simp [Due, heq]

theorem length_finish (n : Nat) : (k.finish n).tracked.length = k.tracked.length := by
  rw [finish, List.length_modify]

/-! ## Requests -/

section

variable (method : String) (d : Denomination) (n : Nat)

theorem length_request : (k.request method d n).2.tracked.length = k.tracked.length := by
  rw [request]
  split
  · rfl
  · exact List.length_modify _ _ _

theorem progress?_request_of_ne {ticket : Nat} (h : ticket ≠ n) :
    (k.request method d n).2.progress? ticket = k.progress? ticket := by
  rw [request]
  split
  · rfl
  · rw [progress?, progress?, List.getElem?_modify]
    simp [Ne.symm h]

/-- The ticket of a request waits for a result. -/
theorem progress?_request (hc : k.cancelled = false) (hn : n < k.tracked.length) :
    (k.request method d n).2.progress? n = some .awaitingExternal := by
  obtain ⟨t, ht⟩ : ∃ t, k.tracked[n]? = some t := ⟨_, List.getElem?_eq_getElem hn⟩
  simp [request, hc, progress?, ht]

/-- A request for a ticket with dice due leaves the same dice due. -/
theorem due_request (hn : k.Due n) (ticket : Nat) :
    (k.request method d n).2.Due ticket ↔ k.Due ticket := by
  by_cases heq : ticket = n
  · subst heq
    refine ⟨fun _ => hn, fun _ => ?_⟩
    cases hc : k.cancelled with
    | true => rwa [request_of_cancelled method d ticket hc]
    | false =>
      obtain ⟨p, hp, -⟩ := hn
      exact ⟨_, progress?_request method d ticket hc (lt_of_progress? hp), rfl⟩
  · rw [Due, Due, progress?_request_of_ne method d n heq]

end

/-! ## Results -/

theorem Idle.submit (h : k.Idle) (method text : String) (value : Int) :
    (k.submit method text value).2.Idle := by
  obtain ⟨e, he⟩ := submit_of_outstanding_nil h.outstanding method text value
  rw [he]
  exact h

theorem tracked_submit (method text : String) (value : Int) :
    (k.submit method text value).2.tracked = k.tracked := by
  simp only [submit]
  split
  · rfl
  · split
    · rfl
    · split
      · rfl
      · split
        · rw [deliver]
          split <;> rfl
        · rfl

end DiceNotation.Coordinator
