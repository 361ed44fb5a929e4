/-
  DiceNotation.Proofs.Fulfillment.Delivery

  First in, first out, and once each.

  A history and the desk that it leaves keep account of one another
  (`Desk.Chronicle`). One event extends the account, and so every history leaves a
  desk that delivers (`Desk.delivers_run`).
-/

import DiceNotation.Proofs.Fulfillment.Accounts
import Mathlib.Data.List.Induction
import Mathlib.Data.List.Basic

namespace DiceNotation.Desk

variable {d d' : Desk} {i j : Nat} {history : List Event}

/-! ## One more event -/

/-- A run goes on with one more event. -/
theorem run_append (e : Event) : run (history ++ [e]) d = (run history d).step e := by
  induction history generalizing d with
  | nil => rfl
  | cons e' rest ih => exact ih

/-- The ids that one more event gives out come last. -/
theorem issued_append (e : Event) :
    issued (history ++ [e]) d = issued history d ++ (run history d).issuedBy e := by
  induction history generalizing d with
  | nil => simp [issued, run]
  | cons e' rest ih => simp [issued, run, ih]

/-- The values that one more event brings come last. -/
theorem accepted_append (e : Event) :
    accepted i (history ++ [e]) d = accepted i history d ++ (run history d).acceptedBy i e := by
  induction history generalizing d with
  | nil => simp [accepted, run]
  | cons e' rest ih => simp [accepted, run, ih]

/-! ## Histories and desks -/

/-- A history and the desk that it leaves agree. -/
structure Chronicle (history : List Event) (d : Desk) : Prop where
  desk : d.Consistent
  cancelled_iff : d.coordinator.cancelled = true ↔ .cancel ∈ history
  accounts : ∀ i, Accounts i (accepted i history {}) d
  issued_eq : issued history {} = List.range d.coordinator.nextId
  outstanding_issued : ∀ r ∈ d.coordinator.outstanding, r.id ∈ issued history {}

/-- The history of an empty desk is empty. -/
theorem Chronicle.nil : Chronicle [] {} where
  desk := .empty
  cancelled_iff := by simp
  accounts := fun i =>
    ⟨by simp [waiter], fun _ _ _ _ => rfl, Nat.zero_le _, fun _ => rfl⟩
  issued_eq := rfl
  outstanding_issued := by simp

/-- A history and its desk agree after one more event. -/
theorem Chronicle.step (h : Chronicle history (run history {})) (e : Event) :
    Chronicle (history ++ [e]) (run (history ++ [e]) {}) := by
  have hissued := issuedBy_cases h.desk e
  rw [run_append]
  refine ⟨h.desk.step e, ?_, fun i => ?_, ?_, ?_⟩
  · rw [cancelled_step h.desk e, h.cancelled_iff]
    simp [eq_comm]
  · rw [accepted_append]
    exact (h.accounts i).step h.desk e
  · rw [issued_append, h.issued_eq]
    rcases hissued with ⟨hnone, hnext⟩ | ⟨hone, hnext⟩
    · rw [hnone, hnext, List.append_nil]
    · rw [hone, hnext, List.range_succ]
  · rw [issued_append]
    intro r hr
    by_cases hold : r ∈ (run history {}).coordinator.outstanding
    · exact List.mem_append_left _ (h.outstanding_issued r hold)
    · -- a request that was not there before was put there by this event
      apply List.mem_append_right
      simp only [issuedBy, List.mem_map, List.mem_filter]
      exact ⟨r, ⟨hr, by simpa using hold⟩, rfl⟩

/-- Every history agrees with the desk that it leaves. -/
theorem chronicle_run (history : List Event) : Chronicle history (run history {}) := by
  induction history using List.reverseRecOn with
  | nil => exact .nil
  | append_singleton history e ih => exact ih.step e

/-- Ids are given out from zero on, one for each event at most: a counter of so many bits is
    enough as long as there are fewer events than it can count. -/
theorem nextId_run_le (history : List Event) :
    (run history {}).coordinator.nextId ≤ history.length := by
  induction history using List.reverseRecOn with
  | nil => exact Nat.le_refl 0
  | append_singleton history e ih =>
    rw [run_append, List.length_append, List.length_singleton]
    rcases issuedBy_cases (chronicle_run history).desk e with ⟨-, hnext⟩ | ⟨-, hnext⟩ <;> omega

/-! ## What waiters find -/

/-- Whoever asks has come. -/
theorem Asks.lt_length (hi : d.Asks i) : i < d.waiters.length := by
  apply lt_length_of_waiter_ne_gone
  rcases hi with ⟨method, die, ticket, hw⟩ | ⟨id, hw⟩ <;> simp [hw]

/-- A waiter finds what its account says, and else waits on unless there was a
    cancellation. -/
theorem finding_of_accounts (h : d.Consistent) (hi : d.Asks i) :
    ∀ {values : List Int}, Accounts i values d →
      d.finding i = match values with
        | value :: _ => .value value
        | [] => if d.coordinator.cancelled then .cancelled else .pending := by
  intro values ha
  rcases hi with ⟨method, die, ticket, hw⟩ | ⟨id, hw⟩
  · rw [ha.asking method die ticket hw]
    cases hc : d.coordinator.cancelled with
    | true => simp [(step_poll_asking_cancelled hw hc).1]
    | false => simp [(step_poll_asking h.coordinator hw hc).1]
  · rw [(step_poll_waiting hw).1, h.coordinator.reply_eq ⟨i, hw⟩, ha.waiting id hw]
    cases d.coordinator.delivered.lookup id with
    | some v => rfl
    | none => cases hc : d.coordinator.cancelled <;> simp [findingOf]

/-- A waiter with the same account finds the same. -/
theorem finding_congr (h : d.Consistent) (h' : d'.Consistent) {values : List Int}
    (ha : Accounts i values d) (ha' : Accounts i values d') (hi : d.Asks i)
    (hw : d'.waiter i = d.waiter i)
    (hc : d'.coordinator.cancelled = d.coordinator.cancelled) : d'.finding i = d.finding i := by
  have hi' : d'.Asks i := by simpa [Asks, hw] using hi
  rw [finding_of_accounts h hi ha, finding_of_accounts h' hi' ha', hc]

/-- A waiter that has found its outcome is gone. -/
theorem waiter_poll_of_finding (h : d.Consistent) (hi : d.Asks i)
    (hfound : d.finding i ≠ .pending) : (d.step (.poll i)).waiter i = .gone := by
  rcases hi with ⟨method, die, ticket, hw⟩ | ⟨id, hw⟩
  · have hlt := (show d.Asks i from .inl ⟨_, _, _, hw⟩).lt_length
    cases hc : d.coordinator.cancelled with
    | true =>
      rw [(step_poll_asking_cancelled hw hc).2, waiter_set _ _ hlt]
      simp
    | false => exact absurd (step_poll_asking h.coordinator hw hc).1 hfound
  · have hlt := (show d.Asks i from .inr ⟨_, hw⟩).lt_length
    obtain ⟨hfind, hstep⟩ := step_poll_waiting hw
    have hreply : d.coordinator.reply id ≠ .pending := by
      intro hpending
      rw [hpending] at hfind
      exact hfound hfind
    rw [hstep, if_neg hreply, waiter_set _ _ hlt]
    simp

/-! ## Submissions and departures -/

/-- An accepted submission answers the oldest request. -/
theorem Chronicle.answers (h : Chronicle history d) {method denomination : String}
    {value : Int} (ht : d.coordinator.Takes method denomination value) :
    d.Answers method denomination value := by
  obtain ⟨r, before, after, hr, hsplit, hstep, hbrings⟩ := acceptedBy_submit h.desk ht
  obtain ⟨die, before', after', hdie, hsplit', hmethod, hrd, hbefore, htake⟩ :=
    Coordinator.oldest?_eq_some hr
  have hmem : r ∈ d.coordinator.outstanding := by simp [hsplit]
  obtain ⟨i, hi⟩ := h.desk.coordinator.outstanding_waits r hmem
  have hdesk' := h.desk.step (.submit method denomination value)
  have hi' : (d.step (.submit method denomination value)).waiter i = .waiting r.id := hi
  have hready : (d.step (.submit method denomination value)).coordinator.delivered.lookup r.id =
      some value := by
    rw [hstep]
    simp [List.lookup_append, h.desk.lookup_outstanding hmem]
  -- both splits are at the request whose id is the same
  have hbefore' : before = before' := by
    have hnodup : d.coordinator.outstanding.Nodup := by
      refine h.desk.coordinator.increasing.imp ?_
      rintro a b hlt rfl
      exact Nat.lt_irrefl _ hlt
    rw [hsplit, List.nodup_append] at hnodup
    have hnotBefore : r ∉ before := fun hb => hnodup.2.2 r hb r List.mem_cons_self rfl
    have hnotAfter : r ∉ after := (List.nodup_cons.mp hnodup.2.1).1
    have hsame : before ++ r :: after = before' ++ r :: after' := hsplit.symm.trans hsplit'
    exact ((List.append_cons_inj_of_notMem hnotBefore hnotAfter).mp hsame).1
  refine ⟨before, r, after, i, hsplit, hmethod, hrd ▸ hdie, ?_, ?_, hi, ?_, ?_⟩
  · rw [hbefore', hmethod, hrd]
    exact hbefore
  · simp [hstep]
  · intro later halone
    obtain ⟨hw, hlookup⟩ := lookup_run hdesk' hi' hready halone
    have hrun := hdesk'.run later
    rw [(step_poll_waiting hw).1, hrun.coordinator.reply_eq ⟨i, hw⟩, hlookup]
    rfl
  · intro j hj hasks
    have hother : d.acceptedBy j (.submit method denomination value) = [] := by
      rw [hbrings j, if_neg]
      exact fun hw => hj (h.desk.distinct j i r.id hw hi)
    have haccounts := (h.accounts j).step h.desk (.submit method denomination value)
    rw [hother, List.append_nil] at haccounts
    exact finding_congr h.desk hdesk' (h.accounts j) haccounts hasks rfl (by simp [hstep])

/-- A waiter that is sent away takes its own request along and no other. -/
theorem Chronicle.leave_removes (h : Chronicle history d) (i : Nat) :
    (d.step (.leave i)).coordinator.outstanding =
        d.coordinator.outstanding.filter (fun r => d.waiter i ≠ .waiting r.id) ∧
      ∀ j, j ≠ i → d.Asks j →
        (d.step (.leave i)).waiter j = d.waiter j ∧
          (d.step (.leave i)).finding j = d.finding j := by
  have hcoordinator : (d.step (.leave i)).coordinator.cancelled = d.coordinator.cancelled ∧
      (d.step (.leave i)).coordinator.outstanding =
        d.coordinator.outstanding.filter (fun r => d.waiter i ≠ .waiting r.id) := by
    cases hw : d.waiter i with
    | waiting id =>
      rw [step_leave_waiting hw]
      refine ⟨rfl, List.filter_congr fun r _ => ?_⟩
      simp [bne, Bool.beq_eq_decide_eq, eq_comm]
    | asking | watching | resting | gone =>
      rw [step_leave_of_not_waiting (by simp [hw])]
      simp
  refine ⟨hcoordinator.2, fun j hj hasks => ?_⟩
  have hwaiter : (d.step (.leave i)).waiter j = d.waiter j :=
    waiter_step hasks.lt_length (by simp) (by simpa using hj.symm)
  have haccounts := (h.accounts j).step h.desk (.leave i)
  rw [show d.acceptedBy j (.leave i) = [] from rfl, List.append_nil] at haccounts
  exact ⟨hwaiter, finding_congr h.desk (h.desk.step _) (h.accounts j) haccounts hasks hwaiter
    hcoordinator.1⟩

/-- The table lists those who wait for an answer that did not come, unless all were
    released. -/
theorem Chronicle.outstanding_iff (h : Chronicle history d) (id : Nat) :
    (∃ r ∈ d.coordinator.outstanding, r.id = id) ↔
      ∃ i, d.waiter i = .waiting id ∧ accepted i history {} = [] ∧ .cancel ∉ history := by
  constructor
  · rintro ⟨r, hr, rfl⟩
    obtain ⟨i, hi⟩ := h.desk.coordinator.outstanding_waits r hr
    refine ⟨i, hi, ?_, fun hmem => ?_⟩
    · rw [(h.accounts i).waiting r.id hi, h.desk.lookup_outstanding hr]
      rfl
    · rw [h.desk.coordinator.swept (h.cancelled_iff.mpr hmem)] at hr
      cases hr
  · rintro ⟨i, hi, hnone, hcancel⟩
    have hc : d.coordinator.cancelled = false := by
      rw [← Bool.not_eq_true, h.cancelled_iff]
      exact hcancel
    rcases h.desk.coordinator.served hc id ⟨i, hi⟩ with hout | ⟨v, hv⟩
    · exact hout
    · rw [(h.accounts i).waiting id hi, h.desk.coordinator.lookup_iff.mpr hv] at hnone
      cases hnone

/-! ## Every history -/

/-- First in, first out, and once each: whatever happens at a desk in whatever order, it
    delivers. -/
theorem delivers_run (history : List Event) : Delivers history (run history {}) := by
  have h := chronicle_run history
  have hcancel : (run history {}).coordinator.cancelled = false ↔ .cancel ∉ history := by
    rw [← Bool.not_eq_true, h.cancelled_iff]
  have hok := h.desk.coordinator.submit_ok_iff
  refine
    { issued_increasing := h.issued_eq ▸ List.pairwise_lt_range
      outstanding_increasing := h.desk.coordinator.increasing
      outstanding_issued := h.outstanding_issued
      outstanding_iff := h.outstanding_iff
      waiting_unique := h.desk.distinct
      first_poll := fun i method die ticket hw hnot => ?_
      accepted_once := fun i => (h.accounts i).once
      finding_eq := fun i hi => ⟨?_, waiter_poll_of_finding h.desk hi⟩
      submit_ok_iff := fun method denomination value => ?_
      submit_answers := fun method denomination value haccepted => ?_
      submit_refused := fun method denomination value hrefused => ?_
      listening := fun r hr => h.desk.coordinator.listening_of_outstanding hr
      submit_cancelled := fun method denomination value hlost => ?_
      leave_removes := h.leave_removes }
  · have hc := hcancel.mpr hnot
    have hlt := (show (run history {}).Asks i from .inl ⟨_, _, _, hw⟩).lt_length
    refine ⟨(run history {}).coordinator.nextId, ?_, ?_⟩
    · rw [(step_poll_asking h.desk.coordinator hw hc).2, waiter_set _ _ hlt, if_pos rfl]
    · rw [(step_poll_asking h.desk.coordinator hw hc).2]
      exact Coordinator.outstanding_request method die ticket hc
  · rw [finding_of_accounts h.desk hi (h.accounts i)]
    cases accepted i history {} with
    | cons value rest => rfl
    | nil => simp only [h.cancelled_iff]
  · rw [hok, Coordinator.Takes, hcancel]
  · exact h.answers ((hok method denomination value).mp haccepted)
  · exact (step_submit_of_not_takes fun ht => hrefused ((hok _ _ _).mpr ht)).1
  · have ht : ¬ (run history {}).coordinator.Takes method denomination value := by
      intro ht
      rw [(hok method denomination value).mpr ht] at hlost
      cases hlost
    obtain ⟨e, he, hcancelled⟩ := Coordinator.submit_of_not_takes ht
    rw [he, Except.error.injEq] at hlost
    exact h.cancelled_iff.mp (hcancelled hlost)

end DiceNotation.Desk
