/-
  DiceNotation.Proofs.Fulfillment.Watching

  Those who watch for requests miss none.

  A waiter that found no request rests until the next signal, and not everything
  that happens at a coordinator is signalled. But nothing comes on the table and
  nothing is cancelled without a signal (`Coordinator.Tells`), so that a waiter
  that rests where no signal came would find no request if it looked
  (`Desk.Rested`). In every run a waiter finds what is on the table when it is
  polled (`Desk.attentive_run`).
-/

import DiceNotation.Proofs.Fulfillment.Accounts

namespace DiceNotation

/-! ## Signals -/

namespace Coordinator

/-- Between two tables, whatever appeared was told: without a signal requests at most left
    the table, and nothing was cancelled. -/
structure Tells (k k' : Coordinator) : Prop where
  signals_le : k.signals ≤ k'.signals
  silent : k'.signals = k.signals →
    k'.outstanding.Sublist k.outstanding ∧ k'.cancelled = k.cancelled

theorem Tells.refl (k : Coordinator) : Tells k k where
  signals_le := Nat.le_refl _
  silent _ := ⟨List.Sublist.refl _, rfl⟩

theorem Tells.trans {k₁ k₂ k₃ : Coordinator} (h : Tells k₁ k₂) (h' : Tells k₂ k₃) :
    Tells k₁ k₃ where
  signals_le := Nat.le_trans h.signals_le h'.signals_le
  silent hsame := by
    have hle := h.signals_le
    have hle' := h'.signals_le
    obtain ⟨hsub, hcancelled⟩ := h.silent (by omega)
    obtain ⟨hsub', hcancelled'⟩ := h'.silent (by omega)
    exact ⟨hsub'.trans hsub, hcancelled'.trans hcancelled⟩

/-- Where there was a signal, nothing is left to say. -/
theorem Tells.of_signal {k k' : Coordinator} (h : k'.signals = k.signals + 1) : Tells k k' where
  signals_le := by omega
  silent hsame := by omega

theorem tells_track (external : Bool) (k : Coordinator) : Tells k (k.track external).2 :=
  ⟨Nat.le_refl _, fun _ => ⟨List.Sublist.refl _, rfl⟩⟩

theorem tells_finish (ticket : Nat) (k : Coordinator) : Tells k (k.finish ticket) := .of_signal rfl

theorem tells_cancel (k : Coordinator) : Tells k k.cancel := .of_signal rfl

theorem tells_request (method : String) (d : Denomination) (ticket : Nat) (k : Coordinator) :
    Tells k (k.request method d ticket).2 := by
  unfold request
  split
  · exact .refl k
  · exact .of_signal rfl

/-- A request that is given up leaves the table without a signal. -/
theorem tells_withdraw (id : Nat) (k : Coordinator) : Tells k (k.withdraw id) :=
  ⟨Nat.le_refl _, fun _ => ⟨List.filter_sublist, rfl⟩⟩

theorem tells_collect (id : Nat) (k : Coordinator) : Tells k (k.collect id).2 := by
  unfold collect
  split
  · exact .refl k
  · exact tells_withdraw id k

theorem tells_deliver (id : Nat) (value : Int) (k : Coordinator) :
    Tells k (k.deliver id value).2 := by
  unfold deliver
  split
  · exact .of_signal rfl
  · exact .refl k

theorem tells_submit (method denomination : String) (value : Int) (k : Coordinator) :
    Tells k (k.submit method denomination value).2 := by
  by_cases htakes : k.Takes method denomination value
  · -- the oldest request leaves the table, and then its answer is passed on
    obtain ⟨r, hr, hsubmit⟩ := submit_of_takes htakes
    obtain ⟨d, before, after, -, hsplit, -, -, -, htake⟩ := oldest?_eq_some hr
    have hleaves : Tells k (k.takeOldest method denomination) := by
      rw [htake]
      refine ⟨Nat.le_refl _, fun _ => ⟨?_, rfl⟩⟩
      rw [hsplit]
      exact (List.Sublist.refl _).append (List.sublist_cons_self _ _)
    rw [hsubmit]
    exact hleaves.trans (tells_deliver r.id value _)
  · obtain ⟨e, he, -⟩ := submit_of_not_takes htakes
    rw [he]
    exact .refl k

/-- What someone finds who looks at a table: the oldest request, that there will be none any
    more, or that there is none yet. -/
def sight (k : Coordinator) : Waiter.Finding :=
  match k.outstanding with
  | r :: _ => .next (some r)
  | [] => if k.cancelled then .next none else .pending

end Coordinator

/-! ## One waiter -/

namespace Waiter

theorem pollRequest_coordinator (id : Nat) (c : Coordinator) :
    (pollRequest id c).2.2 = (c.collect id).2 := by
  unfold pollRequest
  split <;> simp_all

/-- Whoever waits for an answer does not watch. -/
theorem pollRequest_waiter (id : Nat) (c : Coordinator) :
    (pollRequest id c).2.1 = .waiting id ∨ (pollRequest id c).2.1 = .gone := by
  unfold pollRequest
  split
  · exact .inl rfl
  · exact .inr rfl
  · exact .inr rfl

/-- Whoever is polled adds to the table with a signal only. -/
theorem tells_poll (w : Waiter) (c : Coordinator) : c.Tells (w.poll c).2.2 := by
  cases w with
  | asking method d ticket =>
    have hrequest := c.tells_request method d ticket
    rw [poll]
    split
    · rename_i k hk
      rwa [hk] at hrequest
    · rename_i id k hk
      rw [hk] at hrequest
      rw [pollRequest_coordinator]
      exact hrequest.trans (k.tells_collect id)
  | waiting id =>
    rw [poll, pollRequest_coordinator]
    exact c.tells_collect id
  | watching =>
    obtain ⟨f, w, hpoll, -⟩ := Watches.poll (w := watching) trivial c
    rw [hpoll]
    exact .refl c
  | resting since =>
    obtain ⟨f, w, hpoll, -⟩ := Watches.poll (w := resting since) trivial c
    rw [hpoll]
    exact .refl c
  | gone => exact .refl c

theorem tells_leave (w : Waiter) (c : Coordinator) : c.Tells (w.leave c) := by
  cases w with
  | waiting id => exact c.tells_withdraw id
  | asking | watching | resting | gone => exact .refl c

/-- A waiter that looks finds what is on the table, and rests where there is nothing. -/
theorem look_eq (c : Coordinator) :
    look c = (c.sight, if c.sight = .pending then .resting c.signals else .gone, c) := by
  cases hout : c.outstanding with
  | cons r rest => simp [look, Coordinator.sight, hout]
  | nil =>
    cases hcancelled : c.cancelled with
    | true => simp [look, Coordinator.sight, hout, hcancelled]
    | false => simp [look, Coordinator.sight, hout, hcancelled]

end Waiter

theorem Coordinator.sight_eq_pending {c : Coordinator} :
    c.sight = .pending ↔ c.outstanding = [] ∧ c.cancelled = false := by
  cases hout : c.outstanding with
  | cons r rest => simp [sight, hout]
  | nil => cases hcancelled : c.cancelled <;> simp [sight, hout, hcancelled]

namespace Desk

variable {d : Desk} {i j : Nat}

/-! ## Waiters that rest -/

/-- Whoever rests where no signal came since would find no request. -/
def Rested (d : Desk) : Prop :=
  ∀ i since, d.waiter i = .resting since → since ≤ d.coordinator.signals ∧
    (d.coordinator.signals = since → d.coordinator.sight = .pending)

theorem tells_step (d : Desk) (e : Event) : d.coordinator.Tells (d.step e).coordinator := by
  cases e with
  | track external => exact d.coordinator.tells_track external
  | finish ticket => exact d.coordinator.tells_finish ticket
  | ask | watch => exact .refl _
  | poll i => exact (d.waiter i).tells_poll d.coordinator
  | leave i => exact (d.waiter i).tells_leave d.coordinator
  | submit method denomination value => exact d.coordinator.tells_submit method denomination value
  | cancel => exact d.coordinator.tells_cancel

/-- Only the waiter that is replaced is another one. -/
theorem waiter_set_cases (d : Desk) (k : Coordinator) (i j : Nat) (w : Waiter) :
    (Desk.mk k (d.waiters.set i w)).waiter j = d.waiter j ∨
      j = i ∧ (Desk.mk k (d.waiters.set i w)).waiter j = w := by
  by_cases hlt : i < d.waiters.length
  · rw [waiter_set k w hlt]
    by_cases hj : j = i
    · exact .inr ⟨hj, if_pos hj⟩
    · exact .inl (if_neg hj)
  · rw [List.set_eq_of_length_le (Nat.not_lt.mp hlt)]
    exact .inl rfl

/-- A waiter begins to rest when it is polled and finds nothing. -/
theorem resting_poll {c : Coordinator} {w : Waiter} {since : Nat}
    (h : (w.poll c).2.1 = .resting since) :
    w = .resting since ∨ (w.poll c).2.2 = c ∧ since = c.signals ∧ c.sight = .pending := by
  have hlook : (Waiter.look c).2.1 = .resting since → since = c.signals ∧ c.sight = .pending := by
    intro hlook
    rw [Waiter.look_eq] at hlook
    by_cases hpending : c.sight = .pending
    · rw [if_pos hpending] at hlook
      cases hlook
      exact ⟨rfl, hpending⟩
    · rw [if_neg hpending] at hlook
      cases hlook
  cases w with
  | watching =>
    have hsame : (Waiter.watching.poll c).2.2 = c := by
      obtain ⟨f, w, hpoll, -⟩ := Waiter.Watches.poll (w := .watching) trivial c
      rw [hpoll]
    exact .inr ⟨hsame, hlook h⟩
  | resting since' =>
    rw [Waiter.poll] at h ⊢
    split at h
    · cases h
      exact .inl rfl
    · rename_i hsignal
      rw [if_neg hsignal, Waiter.look_eq]
      exact .inr ⟨rfl, hlook h⟩
  | asking method d ticket =>
    rw [Waiter.poll] at h
    split at h
    · cases h
    · rename_i id k _
      rcases Waiter.pollRequest_waiter id k with hw | hw <;> rw [hw] at h <;> cases h
  | waiting id =>
    rw [Waiter.poll] at h
    rcases Waiter.pollRequest_waiter id c with hw | hw <;> rw [hw] at h <;> cases h
  | gone => cases h

/-- Nobody rests as soon as it comes. -/
theorem resting_append {w : Waiter} (hw : ∀ since, w ≠ .resting since) {since : Nat}
    (h : (Desk.mk d.coordinator (d.waiters ++ [w])).waiter i = .resting since) :
    d.waiter i = .resting since := by
  rw [waiter_append] at h
  by_cases hi : i = d.waiters.length
  · rw [if_pos hi] at h
    exact absurd h (hw since)
  · rwa [if_neg hi] at h

/-- A waiter that rests after an event rested before, or looked and found nothing. -/
theorem resting_step (e : Event) {since : Nat} (h : (d.step e).waiter i = .resting since) :
    d.waiter i = .resting since ∨
      since = (d.step e).coordinator.signals ∧ (d.step e).coordinator.sight = .pending := by
  cases e with
  | track | finish | submit | cancel => exact .inl h
  | ask | watch => exact .inl (resting_append (by simp) h)
  | leave j =>
    rcases waiter_set_cases d ((d.waiter j).leave d.coordinator) j i .gone with hsame | ⟨-, hgone⟩
    · exact .inl (hsame.symm.trans h)
    · cases hgone.symm.trans h
  | poll j =>
    rcases waiter_set_cases d ((d.waiter j).poll d.coordinator).2.2 j i
      ((d.waiter j).poll d.coordinator).2.1 with hsame | ⟨rfl, hpolled⟩
    · exact .inl (hsame.symm.trans h)
    · rcases resting_poll (hpolled.symm.trans h) with hrests | ⟨hcoordinator, hsignals, hsight⟩
      · exact .inl hrests
      · have hafter : (d.step (.poll i)).coordinator = d.coordinator := hcoordinator
        rw [hafter]
        exact .inr ⟨hsignals, hsight⟩

theorem Rested.empty : Rested {} := by
  intro i since h
  simp [waiter] at h

/-- Where a table was told of nothing, a waiter that found no request would find none yet. -/
theorem sight_of_tells {k k' : Coordinator} (h : k.Tells k') (hsame : k'.signals = k.signals)
    (hsight : k.sight = .pending) : k'.sight = .pending := by
  obtain ⟨hnone, hcancelled⟩ := Coordinator.sight_eq_pending.mp hsight
  obtain ⟨hsub, hkept⟩ := h.silent hsame
  rw [hnone] at hsub
  exact Coordinator.sight_eq_pending.mpr ⟨List.sublist_nil.mp hsub, hkept.trans hcancelled⟩

/-- Every event keeps those who rest aware of the table. -/
theorem Rested.step (h : d.Rested) (e : Event) : (d.step e).Rested := by
  intro i since hrests
  have htells := d.tells_step e
  have hle := htells.signals_le
  rcases resting_step e hrests with hbefore | ⟨rfl, hsight⟩
  · obtain ⟨hsince, hfound⟩ := h i since hbefore
    refine ⟨by omega, fun hsame => ?_⟩
    exact sight_of_tells htells (by omega) (hfound (by omega))
  · exact ⟨Nat.le_refl _, fun _ => hsight⟩

theorem Rested.run (h : d.Rested) (events : List Event) : (d.run events).Rested := by
  induction events generalizing d with
  | nil => exact h
  | cons e rest ih => exact ih (h.step e)

/-- A waiter that watches finds what is on the table. -/
theorem Rested.finding (h : d.Rested) (hi : (d.waiter i).Watches) :
    d.finding i = d.coordinator.sight := by
  cases hw : d.waiter i with
  | watching =>
    rw [Desk.finding, hw, Waiter.poll, Waiter.look_eq]
  | resting since =>
    rw [Desk.finding, hw, Waiter.poll]
    by_cases hsame : d.coordinator.signals = since
    · rw [if_pos (by simpa using hsame)]
      exact ((h i since hw).2 hsame).symm
    · rw [if_neg (by simpa using hsame), Waiter.look_eq]
  | asking | waiting | gone =>
    rw [hw] at hi
    exact hi.elim

/-! ## What those who watch can rely on -/

/-- What a desk promises to those who watch for requests. -/
structure Attentive (d : Desk) : Prop where
  /-- Whoever comes to watch does so until it is polled with an outcome or sent away. -/
  comes : (d.step .watch).waiter d.waiters.length = .watching
  stays : ∀ i e, (d.waiter i).Watches → e ≠ .poll i → e ≠ .leave i →
    (d.step e).waiter i = d.waiter i
  /-- A poll finds the oldest request. -/
  oldest : ∀ i r rest, (d.waiter i).Watches → d.coordinator.outstanding = r :: rest →
    d.finding i = .next (some r) ∧ ∀ q ∈ rest, r.id < q.id
  /-- It finds that there will be none after a cancellation, and nothing before. -/
  ended : ∀ i, (d.waiter i).Watches → d.coordinator.outstanding = [] →
    d.coordinator.cancelled = true → d.finding i = .next none
  none_yet : ∀ i, (d.waiter i).Watches → d.coordinator.outstanding = [] →
    d.coordinator.cancelled = false → d.finding i = .pending
  /-- It finds what someone finds who only comes now. -/
  afresh : ∀ i, (d.waiter i).Watches →
    d.finding i = (d.step .watch).finding d.waiters.length
  /-- The waiter is gone with its outcome and watches on without one; nobody else and nothing
      on the table is touched. -/
  polled : ∀ i, (d.waiter i).Watches →
    (if d.finding i = .pending then ((d.step (.poll i)).waiter i).Watches
      else (d.step (.poll i)).waiter i = .gone) ∧
    (d.step (.poll i)).coordinator = d.coordinator ∧
    ∀ j, j ≠ i → (d.step (.poll i)).waiter j = d.waiter j

theorem lt_length_of_watches (h : (d.waiter i).Watches) : i < d.waiters.length := by
  refine lt_length_of_waiter_ne_gone fun hgone => ?_
  rw [hgone] at h
  exact h

theorem waiter_watch (d : Desk) : (d.step .watch).waiter d.waiters.length = .watching :=
  (waiter_append d.coordinator .watching).trans (if_pos rfl)

/-- Those who watch can rely on a desk that is consistent and where they know the table. -/
theorem Rested.attentive (h : d.Rested) (hd : d.Consistent) : d.Attentive where
  comes := waiter_watch d
  stays i e hi hpoll hleave := waiter_step (lt_length_of_watches hi) hpoll hleave
  oldest i r rest hi hout := by
    have hincreasing := hd.coordinator.increasing
    rw [hout] at hincreasing
    refine ⟨?_, (List.pairwise_cons.mp hincreasing).1⟩
    rw [h.finding hi, Coordinator.sight, hout]
  ended i hi hout hcancelled := by
    simp [h.finding hi, Coordinator.sight, hout, hcancelled]
  none_yet i hi hout hcancelled := by
    simp [h.finding hi, Coordinator.sight, hout, hcancelled]
  afresh i hi := by
    have hcomes : ((d.step .watch).waiter d.waiters.length).Watches := by
      rw [waiter_watch]
      trivial
    rw [h.finding hi, (h.step .watch).finding hcomes]
    rfl
  polled i hi := by
    obtain ⟨f, w, hpoll, hw⟩ := hi.poll d.coordinator
    have hlt := lt_length_of_watches hi
    have hstep : d.step (.poll i) = ⟨d.coordinator, d.waiters.set i w⟩ := by
      show Desk.mk ((d.waiter i).poll d.coordinator).2.2
        (d.waiters.set i ((d.waiter i).poll d.coordinator).2.1) = _
      rw [hpoll]
    have hfinding : d.finding i = f := by rw [Desk.finding, hpoll]
    rw [hstep, hfinding, waiter_set _ _ hlt, if_pos rfl]
    exact ⟨hw, rfl, fun j hj => waiter_set_of_ne _ _ hj⟩

/-- No request is missed by those who watch: after any history of events, a waiter that
    watches finds the oldest request on the table when it is polled, that there will be none
    where there is none and the coordinator was cancelled, and nothing yet otherwise, as if
    it looked at the table afresh. -/
theorem attentive_run (history : List Event) : (run history {}).Attentive :=
  (Rested.empty.run history).attentive (Consistent.empty.run history)

/-- A request that is given up is not told of. The waiter that rests finds neither it nor,
    before a new one is left, anything else. -/
example :
    let d := run [.watch, .poll 0, .ask "table" (.die 6) 0, .poll 1, .leave 1] {}
    d.finding 0 = .pending ∧
      (d.run [.ask "table" (.die 8) 0, .poll 2]).finding 0 =
        .next (some ⟨1, "table", .die 8, 0⟩) ∧
      (d.step .cancel).finding 0 = .next none := by
  decide

end Desk

end DiceNotation
