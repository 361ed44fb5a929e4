/-
  DiceNotation.Proofs.Fulfillment.Waiting

  Those who wait at a desk, one event at a time.

  There is one lemma for what each kind of waiter does when it is polled or sent
  away; from these every event, and so every run, keeps a desk consistent
  (`Desk.Consistent.step`, `Desk.Consistent.run`).
-/

import DiceNotation.Proofs.Fulfillment.Desk

namespace DiceNotation.Waiter

/-- A waiter that waits for the next request. -/
def Watches : Waiter → Prop
  | watching | resting _ => True
  | _ => False

/-- Whoever looks has an outcome and is gone, or watches on; the coordinator stays as it is. -/
theorem look_outcome (c : Coordinator) :
    ∃ f w, look c = (f, w, c) ∧ if f = .pending then w.Watches else w = .gone := by
  unfold look
  split
  · exact ⟨_, .gone, rfl, rfl⟩
  · split
    · exact ⟨_, .gone, rfl, rfl⟩
    · exact ⟨.pending, .resting c.signals, rfl, trivial⟩

theorem Watches.poll {w : Waiter} (h : w.Watches) (c : Coordinator) :
    ∃ f w', w.poll c = (f, w', c) ∧ if f = .pending then w'.Watches else w' = .gone := by
  cases w with
  | watching => exact look_outcome c
  | resting since =>
    rw [Waiter.poll]
    split
    · exact ⟨.pending, .resting since, rfl, trivial⟩
    · exact look_outcome c
  | asking | waiting | gone => exact h.elim

end DiceNotation.Waiter

namespace DiceNotation.Desk

open Coordinator (Consistent Takes)

variable {d : Desk} {i j : Nat}

/-! ## Waiters -/

/-- A waiter who is not gone did come. -/
theorem lt_length_of_waiter_ne_gone (h : d.waiter i ≠ .gone) : i < d.waiters.length := by
  by_contra hle
  exact h (by simp [waiter, List.getElem?_eq_none (Nat.not_lt.mp hle)])

/-- One waiter is replaced and the others stay. -/
theorem waiter_set (k : Coordinator) (w : Waiter) (h : i < d.waiters.length) :
    (Desk.mk k (d.waiters.set i w)).waiter j = if j = i then w else d.waiter j := by
  by_cases hj : j = i
  · subst hj
    simp [waiter, h]
  · simp [waiter, hj, Ne.symm hj]

/-- The waiters other than one stay when it is replaced, even if it never came. -/
theorem waiter_set_of_ne (k : Coordinator) (w : Waiter) (h : j ≠ i) :
    (Desk.mk k (d.waiters.set i w)).waiter j = d.waiter j := by
  simp [waiter, Ne.symm h]

/-- Whoever comes does not replace anyone. -/
theorem waiter_append (k : Coordinator) (w : Waiter) :
    (Desk.mk k (d.waiters ++ [w])).waiter i =
      if i = d.waiters.length then w else d.waiter i := by
  rcases Nat.lt_trichotomy i d.waiters.length with h | h | h
  · simp [waiter, List.getElem?_append_left h, Nat.ne_of_lt h]
  · simp [waiter, h]
  · have hle : (d.waiters ++ [w]).length ≤ i := by
      rw [List.length_append, List.length_singleton]
      exact h
    simp [waiter, List.getElem?_eq_none hle, List.getElem?_eq_none (Nat.le_of_lt h),
      Nat.ne_of_gt h]

/-- Whoever comes to ask or to watch has left no request. -/
theorem waiting_append (k : Coordinator) {w : Waiter} (hw : ∀ id, w ≠ .waiting id) (id : Nat) :
    (Desk.mk k (d.waiters ++ [w])).waiter i = .waiting id ↔ d.waiter i = .waiting id := by
  rw [waiter_append]
  by_cases hi : i = d.waiters.length
  · have hgone : d.waiter i = .gone := by simp [waiter, hi]
    simp [hi, hw id]
    simp [← hi, hgone]
  · simp [hi]

/-! ## One waiter after the other -/

/-- A waiter that has its outcome changes nothing. -/
theorem step_poll_gone (h : d.waiter i = .gone) : d.step (.poll i) = d := by
  have hset : d.waiters.set i .gone = d.waiters := by
    apply List.ext_getElem?
    intro n
    by_cases hn : n = i
    · subst hn
      cases hget : d.waiters[n]? with
      | none => simpa [List.getElem?_set] using hget
      | some w =>
        have hw : w = .gone := by simpa [waiter, hget] using h
        have hlt : n < d.waiters.length := (List.getElem?_eq_some_iff.mp hget).1
        simp [hw, hlt]
    · simp [Ne.symm hn]
  simp [step, h, Waiter.poll, hset]

/-- A waiter that comes too late to ask is told so. -/
theorem step_poll_asking_cancelled {method : String} {die : Denomination} {ticket : Nat}
    (h : d.waiter i = .asking method die ticket) (hc : d.coordinator.cancelled = true) :
    d.finding i = .cancelled ∧
      d.step (.poll i) = ⟨d.coordinator, d.waiters.set i .gone⟩ := by
  simp [finding, step, h, Waiter.poll, Coordinator.request_of_cancelled method die ticket hc]

/-- A waiter leaves its request at its first poll. -/
theorem step_poll_asking {waits : Nat → Prop} (hd : d.coordinator.Consistent waits)
    {method : String} {die : Denomination} {ticket : Nat}
    (h : d.waiter i = .asking method die ticket) (hc : d.coordinator.cancelled = false) :
    d.finding i = .pending ∧
      d.step (.poll i) = ⟨(d.coordinator.request method die ticket).2,
        d.waiters.set i (.waiting d.coordinator.nextId)⟩ := by
  have hid := Coordinator.request_fst (k := d.coordinator) method die ticket hc
  have hreply := hd.reply_request method die ticket hc
  have hrequest : d.coordinator.request method die ticket =
      (some d.coordinator.nextId, (d.coordinator.request method die ticket).2) := by
    rw [← hid]
  have hcollect : (d.coordinator.request method die ticket).2.collect d.coordinator.nextId =
      (.pending, (d.coordinator.request method die ticket).2) := by
    simp [Coordinator.collect, hreply]
  have hpoll : (d.waiter i).poll d.coordinator =
      (.pending, .waiting d.coordinator.nextId,
        (d.coordinator.request method die ticket).2) := by
    rw [h]
    simp only [Waiter.poll]
    rw [hrequest]
    simp only [Waiter.pollRequest]
    rw [hcollect]
  simp [finding, step, hpoll]

/-- What a waiter finds that looks for its answer. -/
def findingOf : Coordinator.Reply → Waiter.Finding
  | .pending => .pending
  | .answered value => .value value
  | .cancelled => .cancelled

/-- A waiter looks for its answer, and is gone once it has one. -/
theorem step_poll_waiting {id : Nat} (h : d.waiter i = .waiting id) :
    d.finding i = findingOf (d.coordinator.reply id) ∧
      d.step (.poll i) = if d.coordinator.reply id = .pending then d
        else ⟨d.coordinator.withdraw id, d.waiters.set i .gone⟩ := by
  have hset : d.waiters.set i (.waiting id) = d.waiters := by
    have hlt : i < d.waiters.length := lt_length_of_waiter_ne_gone (by simp [h])
    have hget : d.waiters[i] = .waiting id := by simpa [waiter, hlt] using h
    rw [← hget]
    exact List.set_getElem_self hlt
  cases hr : d.coordinator.reply id <;>
    simp [finding, step, h, Waiter.poll, Waiter.pollRequest, Coordinator.collect, hr, findingOf,
      hset]

/-- A waiter that watches looks for the next request or rests, and touches neither the
    coordinator nor any request. -/
theorem step_poll_watching (h : (d.waiter i).Watches) :
    ∃ w, (∀ id, w ≠ .waiting id) ∧
      (∀ method die ticket, w ≠ .asking method die ticket) ∧
      d.step (.poll i) = ⟨d.coordinator, d.waiters.set i w⟩ := by
  obtain ⟨f, w, hpoll, hw⟩ := h.poll d.coordinator
  have hstep : d.step (.poll i) = ⟨d.coordinator, d.waiters.set i w⟩ := by
    show Desk.mk ((d.waiter i).poll d.coordinator).2.2
      (d.waiters.set i ((d.waiter i).poll d.coordinator).2.1) = _
    rw [hpoll]
  have hwatches : w.Watches ∨ w = .gone := by
    split at hw
    · exact .inl hw
    · exact .inr hw
  refine ⟨w, fun id heq => ?_, fun method die ticket heq => ?_, hstep⟩
  · rw [heq] at hwatches
    rcases hwatches with h | h <;> cases h
  · rw [heq] at hwatches
    rcases hwatches with h | h <;> cases h

/-- A waiter that is sent away gives up its request. -/
theorem step_leave_waiting {id : Nat} (h : d.waiter i = .waiting id) :
    d.step (.leave i) = ⟨d.coordinator.withdraw id, d.waiters.set i .gone⟩ := by
  simp [step, h, Waiter.leave]

/-- A waiter that left no request is sent away without more ado. -/
theorem step_leave_of_not_waiting (h : ∀ id, d.waiter i ≠ .waiting id) :
    d.step (.leave i) = ⟨d.coordinator, d.waiters.set i .gone⟩ := by
  cases hw : d.waiter i with
  | waiting id => exact absurd hw (h id)
  | asking method die ticket => simp [step, hw, Waiter.leave]
  | watching => simp [step, hw, Waiter.leave]
  | resting since => simp [step, hw, Waiter.leave]
  | gone => simp [step, hw, Waiter.leave]

/-! ## Consistent desks -/

/-- The coordinator agrees with the waiters, no two of whom wait for the same answer. -/
structure Consistent (d : Desk) : Prop where
  coordinator : d.coordinator.Consistent fun id => ∃ i, d.waiter i = .waiting id
  distinct : ∀ i j id, d.waiter i = .waiting id → d.waiter j = .waiting id → i = j

/-- An empty desk is consistent. -/
theorem Consistent.empty : Consistent {} where
  coordinator := Coordinator.Consistent.fresh.congr (by simp [waiter])
  distinct := by simp [waiter]

/-- A desk stays consistent when its waiters wait for the same answers as before. -/
theorem Consistent.of_waiting_iff {d d' : Desk} (h : d.Consistent)
    (hk : ∀ waits, d.coordinator.Consistent waits → d'.coordinator.Consistent waits)
    (hw : ∀ i id, d'.waiter i = .waiting id ↔ d.waiter i = .waiting id) : d'.Consistent where
  coordinator := (hk _ h.coordinator).congr fun id => by simp [hw]
  distinct := fun i j id hi hj => h.distinct i j id ((hw i id).mp hi) ((hw j id).mp hj)

/-- Someone who waits for nothing may be replaced by another who waits for nothing. -/
theorem Consistent.replace (h : d.Consistent) {w : Waiter}
    (hi : ∀ id, d.waiter i ≠ .waiting id) (hw : ∀ id, w ≠ .waiting id) :
    Consistent ⟨d.coordinator, d.waiters.set i w⟩ := by
  refine h.of_waiting_iff (fun _ hk => hk) fun j id => ?_
  by_cases hlt : i < d.waiters.length
  · rw [waiter_set _ _ hlt]
    by_cases hj : j = i
    · subst hj
      simp [hw, hi]
    · simp [hj]
  · have hset : d.waiters.set i w = d.waiters :=
      List.set_eq_of_length_le (Nat.not_lt.mp hlt)
    rw [hset]

/-- Someone who waits may leave with the request. -/
theorem Consistent.release (h : d.Consistent) {id : Nat} (hi : d.waiter i = .waiting id) :
    Consistent ⟨d.coordinator.withdraw id, d.waiters.set i .gone⟩ := by
  have hlt : i < d.waiters.length := lt_length_of_waiter_ne_gone (by simp [hi])
  have hwaiting : ∀ j id', (Desk.mk (d.coordinator.withdraw id) (d.waiters.set i .gone)).waiter j
      = .waiting id' ↔ id' ≠ id ∧ d.waiter j = .waiting id' := by
    intro j id'
    rw [waiter_set _ _ hlt]
    by_cases hj : j = i
    · subst hj
      simp [hi, eq_comm]
    · rw [if_neg hj]
      refine ⟨fun hw => ⟨fun heq => hj (h.distinct j i id (heq ▸ hw) hi), hw⟩, And.right⟩
  refine ⟨(h.coordinator.withdraw id).congr fun id' => by simp [hwaiting], ?_⟩
  intro j j' id' hj hj'
  exact h.distinct j j' id' ((hwaiting j id').mp hj).2 ((hwaiting j' id').mp hj').2

/-- Someone who asks may leave a request. -/
theorem Consistent.receive (h : d.Consistent) {method : String} {die : Denomination}
    {ticket : Nat} (hi : d.waiter i = .asking method die ticket)
    (hc : d.coordinator.cancelled = false) :
    Consistent ⟨(d.coordinator.request method die ticket).2,
      d.waiters.set i (.waiting d.coordinator.nextId)⟩ := by
  have hlt : i < d.waiters.length := lt_length_of_waiter_ne_gone (by simp [hi])
  have hnew : ∀ j, d.waiter j ≠ .waiting d.coordinator.nextId := fun j hj =>
    Nat.lt_irrefl _ (h.coordinator.waits_lt _ ⟨j, hj⟩)
  have hwaiting : ∀ j id, (Desk.mk (d.coordinator.request method die ticket).2
      (d.waiters.set i (.waiting d.coordinator.nextId))).waiter j = .waiting id ↔
        (j = i ∧ id = d.coordinator.nextId) ∨ d.waiter j = .waiting id := by
    intro j id
    rw [waiter_set _ _ hlt]
    by_cases hj : j = i
    · subst hj
      simp [hi, eq_comm]
    · simp [hj]
  refine ⟨(h.coordinator.request method die ticket hc).congr fun id => ?_, ?_⟩
  · simp only [hwaiting]
    constructor
    · rintro (rfl | ⟨j, hj⟩)
      · exact ⟨i, .inl ⟨rfl, rfl⟩⟩
      · exact ⟨j, .inr hj⟩
    · rintro ⟨j, ⟨-, rfl⟩ | hj⟩
      · exact .inl rfl
      · exact .inr ⟨j, hj⟩
  · intro j j' id hj hj'
    rcases (hwaiting j id).mp hj with ⟨hji, hid⟩ | hold <;>
      rcases (hwaiting j' id).mp hj' with ⟨hji', hid'⟩ | hold'
    · exact hji.trans hji'.symm
    · exact absurd (hid ▸ hold') (hnew j')
    · exact absurd (hid' ▸ hold) (hnew j)
    · exact h.distinct j j' id hold hold'

/-- Every event keeps a desk consistent. -/
theorem Consistent.step (h : d.Consistent) (e : Event) : (d.step e).Consistent := by
  cases e with
  | track external =>
    exact h.of_waiting_iff (fun _ hk => hk.track external) fun _ _ => Iff.rfl
  | finish ticket => exact h.of_waiting_iff (fun _ hk => hk.finish ticket) fun _ _ => Iff.rfl
  | cancel => exact h.of_waiting_iff (fun _ hk => hk.cancel) fun _ _ => Iff.rfl
  | submit method die value =>
    exact h.of_waiting_iff (fun _ hk => hk.submit method die value) fun _ _ => Iff.rfl
  | ask method die ticket =>
    exact h.of_waiting_iff (fun _ hk => hk) fun i id => waiting_append _ (by simp) id
  | watch => exact h.of_waiting_iff (fun _ hk => hk) fun i id => waiting_append _ (by simp) id
  | leave i =>
    cases hw : d.waiter i with
    | waiting id =>
      rw [step_leave_waiting hw]
      exact h.release hw
    | asking | watching | resting | gone =>
      rw [step_leave_of_not_waiting (by simp [hw])]
      exact h.replace (by simp [hw]) (by simp)
  | poll i =>
    cases hw : d.waiter i with
    | gone => exact (step_poll_gone hw).symm ▸ h
    | watching | resting =>
      obtain ⟨w, hnot, -, hstep⟩ := step_poll_watching (by rw [hw]; trivial)
      rw [hstep]
      exact h.replace (by simp [hw]) hnot
    | asking method die ticket =>
      cases hc : d.coordinator.cancelled with
      | true =>
        rw [(step_poll_asking_cancelled hw hc).2]
        exact h.replace (by simp [hw]) (by simp)
      | false =>
        rw [(step_poll_asking h.coordinator hw hc).2]
        exact h.receive hw hc
    | waiting id =>
      rw [(step_poll_waiting hw).2]
      split
      · exact h
      · exact h.release hw

/-- Every run keeps a desk consistent. -/
theorem Consistent.run (h : d.Consistent) (events : List Event) : (d.run events).Consistent := by
  induction events generalizing d with
  | nil => exact h
  | cons e rest ih => exact ih (h.step e)

end DiceNotation.Desk
