/-
  DiceNotation.Proofs.Fulfillment.Accounts

  What a waiter was given and what lies ready for it.

  An event puts at most one request on the table, with the next id, and brings a
  value to at most one waiter. `Desk.Accounts` relates the values that were accepted
  for a waiter to the answer that lies ready; every event keeps it
  (`Desk.Accounts.step`), and an answer lies ready as long as its waiter is left
  alone (`Desk.lookup_run`).
-/

import DiceNotation.Proofs.Fulfillment.Waiting

namespace DiceNotation.Desk

variable {d : Desk} {e : Event} {i j : Nat}

/-! ## Requests come on the table -/

/-- A submission gives out no ids and puts no request on the table. -/
theorem submit_keeps (h : d.Consistent) (method denomination : String) (value : Int) :
    let k := (d.coordinator.submit method denomination value).2
    k.nextId = d.coordinator.nextId ∧ k.cancelled = d.coordinator.cancelled ∧
      ∀ r ∈ k.outstanding, r ∈ d.coordinator.outstanding := by
  by_cases ht : d.coordinator.Takes method denomination value
  · obtain ⟨r, before, after, -, -, hsplit, hsubmit⟩ := h.coordinator.submit_accepts ht
    rw [hsubmit]
    refine ⟨rfl, rfl, fun q hq => ?_⟩
    rw [hsplit]
    rcases List.mem_append.mp hq with hq | hq
    · exact List.mem_append_left _ hq
    · exact List.mem_append_right _ (List.mem_cons_of_mem _ hq)
  · obtain ⟨e, he, -⟩ := Coordinator.submit_of_not_takes ht
    rw [he]
    exact ⟨rfl, rfl, fun _ hq => hq⟩

/-- Giving up a request gives out no ids and puts no request on the table. -/
theorem withdraw_keeps (k : Coordinator) (id : Nat) :
    (k.withdraw id).nextId = k.nextId ∧ (k.withdraw id).cancelled = k.cancelled ∧
      ∀ r ∈ (k.withdraw id).outstanding, r ∈ k.outstanding :=
  ⟨rfl, rfl, fun _ hr => List.mem_of_mem_filter hr⟩

/-- What an event does to the table: it puts one request at the end, whose id is the next
    one, or none at all. -/
theorem outstanding_step (h : d.Consistent) (e : Event) :
    ((d.step e).coordinator.nextId = d.coordinator.nextId ∧
      ∀ r ∈ (d.step e).coordinator.outstanding, r ∈ d.coordinator.outstanding) ∨
    ((d.step e).coordinator.nextId = d.coordinator.nextId + 1 ∧
      ∃ r, r.id = d.coordinator.nextId ∧
        (d.step e).coordinator.outstanding = d.coordinator.outstanding ++ [r]) := by
  cases e with
  | track | finish | ask | watch => exact .inl ⟨rfl, fun _ hr => hr⟩
  | cancel => exact .inl ⟨rfl, fun _ hr => absurd hr List.not_mem_nil⟩
  | submit method denomination value =>
    obtain ⟨hid, -, hout⟩ := submit_keeps h method denomination value
    exact .inl ⟨hid, hout⟩
  | leave i =>
    cases hw : d.waiter i with
    | waiting id =>
      rw [step_leave_waiting hw]
      exact .inl ⟨rfl, (withdraw_keeps _ id).2.2⟩
    | asking | watching | resting | gone =>
      rw [step_leave_of_not_waiting (by simp [hw])]
      exact .inl ⟨rfl, fun _ hr => hr⟩
  | poll i =>
    cases hw : d.waiter i with
    | gone =>
      rw [step_poll_gone hw]
      exact .inl ⟨rfl, fun _ hr => hr⟩
    | watching | resting =>
      obtain ⟨w, -, -, hstep⟩ := step_poll_watching (by rw [hw]; trivial)
      rw [hstep]
      exact .inl ⟨rfl, fun _ hr => hr⟩
    | waiting id =>
      rw [(step_poll_waiting hw).2]
      split
      · exact .inl ⟨rfl, fun _ hr => hr⟩
      · exact .inl ⟨rfl, (withdraw_keeps _ id).2.2⟩
    | asking method die ticket =>
      cases hc : d.coordinator.cancelled with
      | true =>
        rw [(step_poll_asking_cancelled hw hc).2]
        exact .inl ⟨rfl, fun _ hr => hr⟩
      | false =>
        rw [(step_poll_asking h.coordinator hw hc).2]
        refine .inr ⟨?_, _, rfl, Coordinator.outstanding_request method die ticket hc⟩
        simp [Coordinator.request, hc]

/-- An event gives out the next id or none. -/
theorem issuedBy_cases (h : d.Consistent) (e : Event) :
    (d.issuedBy e = [] ∧ (d.step e).coordinator.nextId = d.coordinator.nextId) ∨
    (d.issuedBy e = [d.coordinator.nextId] ∧
      (d.step e).coordinator.nextId = d.coordinator.nextId + 1) := by
  rcases outstanding_step h e with ⟨hid, hout⟩ | ⟨hid, r, hr, hout⟩
  · exact .inl ⟨by simpa [issuedBy] using hout, hid⟩
  · refine .inr ⟨?_, hid⟩
    have hnew : r ∉ d.coordinator.outstanding := fun hmem =>
      Nat.lt_irrefl _ (hr ▸ h.coordinator.outstanding_lt hmem)
    simp [issuedBy, hout, List.filter_append, hnew, hr]

/-- A coordinator was cancelled before or is by the event. -/
theorem cancelled_step (h : d.Consistent) (e : Event) :
    (d.step e).coordinator.cancelled = true ↔ d.coordinator.cancelled = true ∨ e = .cancel := by
  cases e with
  | track | finish | ask | watch => simp [step, Coordinator.track, Coordinator.finish]
  | cancel => simp [step, Coordinator.cancel]
  | submit method denomination value =>
    obtain ⟨-, hc, -⟩ := submit_keeps h method denomination value
    simp only [step, hc]
    simp
  | leave i =>
    cases hw : d.waiter i with
    | waiting id => simp [step_leave_waiting hw, (withdraw_keeps _ id).2.1]
    | asking | watching | resting | gone => simp [step_leave_of_not_waiting (d := d) (i := i) (by simp [hw])]
  | poll i =>
    cases hw : d.waiter i with
    | gone => simp [step_poll_gone hw]
    | watching | resting =>
      obtain ⟨w, -, -, hstep⟩ := step_poll_watching (by rw [hw]; trivial)
      simp [hstep]
    | waiting id =>
      rw [(step_poll_waiting hw).2]
      split <;> simp [(withdraw_keeps _ id).2.1]
    | asking method die ticket =>
      cases hc : d.coordinator.cancelled with
      | true => simp [(step_poll_asking_cancelled hw hc).2, hc]
      | false => simp [(step_poll_asking h.coordinator hw hc).2, Coordinator.request, hc]

/-! ## Waiters that are left alone -/

/-- A waiter stays what it is while it is left alone. -/
theorem waiter_step (hi : i < d.waiters.length) (hpoll : e ≠ .poll i) (hleave : e ≠ .leave i) :
    (d.step e).waiter i = d.waiter i := by
  cases e with
  | track | finish | submit | cancel => rfl
  | ask | watch =>
    simp only [step]
    rw [waiter_append, if_neg (Nat.ne_of_lt hi)]
  | poll j | leave j =>
    have hj : i ≠ j := by
      rintro rfl
      simp at hpoll hleave
    exact waiter_set_of_ne _ _ hj

/-- The answer that lies ready for a waiter stays while the waiter is left alone, unless a
    submission brings one. -/
theorem lookup_step (h : d.Consistent) {id : Nat} (hi : d.waiter i = .waiting id)
    (hpoll : e ≠ .poll i) (hleave : e ≠ .leave i)
    (hsubmit : ∀ method denomination value, e ≠ .submit method denomination value) :
    (d.step e).coordinator.delivered.lookup id = d.coordinator.delivered.lookup id := by
  have hother : ∀ j id', i ≠ j → d.waiter j = .waiting id' → id ≠ id' := by
    rintro j id' hij hj rfl
    exact hij (h.distinct i j id hi hj)
  cases e with
  | track | finish | ask | watch | cancel => rfl
  | submit method denomination value => exact absurd rfl (hsubmit method denomination value)
  | leave j =>
    have hij : i ≠ j := fun heq => hleave (by rw [heq])
    cases hw : d.waiter j with
    | waiting id' =>
      rw [step_leave_waiting hw]
      exact Coordinator.lookup_withdraw (hother j id' hij hw)
    | asking | watching | resting | gone => rw [step_leave_of_not_waiting (by simp [hw])]
  | poll j =>
    have hij : i ≠ j := fun heq => hpoll (by rw [heq])
    cases hw : d.waiter j with
    | gone => rw [step_poll_gone hw]
    | watching | resting =>
      obtain ⟨w, -, -, hstep⟩ := step_poll_watching (by rw [hw]; trivial)
      rw [hstep]
    | waiting id' =>
      rw [(step_poll_waiting hw).2]
      split
      · rfl
      · exact Coordinator.lookup_withdraw (hother j id' hij hw)
    | asking method die ticket =>
      cases hc : d.coordinator.cancelled with
      | true => rw [(step_poll_asking_cancelled hw hc).2]
      | false =>
        rw [(step_poll_asking h.coordinator hw hc).2]
        simp [Coordinator.request, hc]

/-- What an accepted submission brings: its value to the waiter of the oldest request, and
    nothing to the others. -/
theorem acceptedBy_submit (h : d.Consistent) {method denomination : String} {value : Int}
    (ht : d.coordinator.Takes method denomination value) :
    ∃ r before after,
      d.coordinator.oldest? method denomination = some r ∧
      d.coordinator.outstanding = before ++ r :: after ∧
      d.step (.submit method denomination value) =
        { d with coordinator := { d.coordinator with
            outstanding := before ++ after
            delivered := d.coordinator.delivered ++ [(r.id, value)]
            signals := d.coordinator.signals + 1 } } ∧
      ∀ i, d.acceptedBy i (.submit method denomination value) =
        if d.waiter i = .waiting r.id then [value] else [] := by
  obtain ⟨r, before, after, hr, -, hsplit, hsubmit⟩ := h.coordinator.submit_accepts ht
  exact ⟨r, before, after, hr, hsplit, by simp [step, hsubmit],
    fun i => by simp [acceptedBy, hsubmit, hr]⟩

/-- A refused submission changes nothing and brings nothing. -/
theorem step_submit_of_not_takes {method denomination : String} {value : Int}
    (ht : ¬ d.coordinator.Takes method denomination value) :
    d.step (.submit method denomination value) = d ∧
      ∀ i, d.acceptedBy i (.submit method denomination value) = [] := by
  obtain ⟨e, he, -⟩ := Coordinator.submit_of_not_takes ht
  exact ⟨by simp [step, he], fun i => by simp [acceptedBy, he]⟩

/-- No answer lies ready for a request that is on the table. -/
theorem Consistent.lookup_outstanding (h : d.Consistent) {r : Request}
    (hr : r ∈ d.coordinator.outstanding) : d.coordinator.delivered.lookup r.id = none := by
  rw [Option.eq_none_iff_forall_ne_some]
  intro v hv
  exact h.coordinator.delivered_left _ (h.coordinator.lookup_iff.mp hv) r hr rfl

/-- The answer that lies ready for a waiter after a submission. -/
theorem lookup_submit (h : d.Consistent) {id : Nat} (hi : d.waiter i = .waiting id)
    (method denomination : String) (value : Int) :
    ((d.step (.submit method denomination value)).coordinator.delivered.lookup id).toList =
      (d.coordinator.delivered.lookup id).toList ++
        d.acceptedBy i (.submit method denomination value) := by
  by_cases ht : d.coordinator.Takes method denomination value
  · obtain ⟨r, before, after, -, hsplit, hstep, hbrings⟩ := acceptedBy_submit h ht
    have hr : r ∈ d.coordinator.outstanding := by simp [hsplit]
    rw [hstep, hbrings i, hi]
    by_cases hid : id = r.id
    · subst hid
      simp [List.lookup_append, h.lookup_outstanding hr]
    · have hbeq : (id == r.id) = false := by simpa using hid
      simp [List.lookup_append, List.lookup_cons, hbeq, hid]
  · obtain ⟨hstep, hbrings⟩ := step_submit_of_not_takes ht
    simp [hstep, hbrings i]

/-- An answer that lies ready stays ready while its waiter is left alone. -/
theorem lookup_run (h : d.Consistent) {id : Nat} {value : Int} (hi : d.waiter i = .waiting id)
    (hv : d.coordinator.delivered.lookup id = some value) {later : List Event}
    (halone : LeftAlone i later) :
    (run later d).waiter i = .waiting id ∧
      (run later d).coordinator.delivered.lookup id = some value := by
  induction later generalizing d with
  | nil => exact ⟨hi, hv⟩
  | cons e rest ih =>
    obtain ⟨hpoll, hleave⟩ := halone e List.mem_cons_self
    have hlt : i < d.waiters.length := lt_length_of_waiter_ne_gone (by simp [hi])
    have hi' : (d.step e).waiter i = .waiting id := by rw [waiter_step hlt hpoll hleave, hi]
    have hv' : (d.step e).coordinator.delivered.lookup id = some value := by
      by_cases hsubmit : ∃ method denomination v, e = .submit method denomination v
      · obtain ⟨method, denomination, v, rfl⟩ := hsubmit
        -- an answer that is there keeps the request from being answered again
        have hsame := lookup_submit h hi method denomination v
        by_cases ht : d.coordinator.Takes method denomination v
        · obtain ⟨r, before, after, -, hsplit, hstep, hbrings⟩ := acceptedBy_submit h ht
          have hr : r ∈ d.coordinator.outstanding := by simp [hsplit]
          rw [hstep]
          simp [List.lookup_append, hv]
        · rw [(step_submit_of_not_takes ht).1, hv]
      · rw [lookup_step h hi hpoll hleave fun m n v he => hsubmit ⟨m, n, v, he⟩, hv]
    exact ih (h.step e) hi' hv' fun e' he' => halone e' (List.mem_cons_of_mem _ he')

/-! ## Accounts -/

/-- The values that were accepted for a waiter agree with what lies ready for it. -/
structure Accounts (i : Nat) (values : List Int) (d : Desk) : Prop where
  waiting : ∀ id, d.waiter i = .waiting id →
    values = (d.coordinator.delivered.lookup id).toList
  asking : ∀ method die ticket, d.waiter i = .asking method die ticket → values = []
  once : values.length ≤ 1
  absent : d.waiters.length ≤ i → values = []

/-- Only a submission brings a value. -/
theorem acceptedBy_eq_nil (i : Nat)
    (hsubmit : ∀ method denomination value, e ≠ .submit method denomination value) :
    d.acceptedBy i e = [] := by
  cases e with
  | submit method denomination value => exact absurd rfl (hsubmit method denomination value)
  | track | finish | ask | watch | poll | leave | cancel => rfl

/-- A waiter that has nothing to wait for or has just left its request has its account
    settled. -/
theorem Accounts.settled {values : List Int} (ha : Accounts i values d) {d' : Desk}
    (hlen : d'.waiters.length = d.waiters.length)
    (hasking : ∀ method die ticket, d'.waiter i ≠ .asking method die ticket)
    (hwaiting : ∀ id, d'.waiter i = .waiting id →
      values = (d'.coordinator.delivered.lookup id).toList) : Accounts i values d' where
  waiting := hwaiting
  asking := fun method die ticket h => absurd h (hasking method die ticket)
  once := ha.once
  absent := fun hle => ha.absent (hlen ▸ hle)

/-- An event that polls a waiter or sends it away keeps its account. -/
theorem Accounts.touched (h : d.Consistent) {values : List Int} (ha : Accounts i values d)
    (he : e = .poll i ∨ e = .leave i) : Accounts i values (d.step e) := by
  have hgone : ∀ k : Coordinator, i < d.waiters.length →
      Accounts i values ⟨k, d.waiters.set i .gone⟩ := by
    intro k hlt
    have hw : (Desk.mk k (d.waiters.set i .gone)).waiter i = .gone := by
      rw [waiter_set _ _ hlt, if_pos rfl]
    exact ha.settled (by simp) (by simp [hw]) (by simp [hw])
  by_cases hlt : i < d.waiters.length
  · rcases he with rfl | rfl
    · cases hw : d.waiter i with
      | gone =>
        rw [step_poll_gone hw]
        exact ha
      | watching | resting =>
        obtain ⟨w, hnot, hnot', hstep⟩ := step_poll_watching (by rw [hw]; trivial)
        have hw' : (Desk.mk d.coordinator (d.waiters.set i w)).waiter i = w := by
          rw [waiter_set _ _ hlt, if_pos rfl]
        rw [hstep]
        exact ha.settled (by simp) (by simp [hw', hnot']) (by simp [hw', hnot])
      | waiting id =>
        rw [(step_poll_waiting hw).2]
        split
        · exact ha
        · exact hgone _ hlt
      | asking method die ticket =>
        cases hc : d.coordinator.cancelled with
        | true =>
          rw [(step_poll_asking_cancelled hw hc).2]
          exact hgone _ hlt
        | false =>
          rw [(step_poll_asking h.coordinator hw hc).2]
          have hnew : ¬ ∃ j, d.waiter j = .waiting d.coordinator.nextId := fun hj =>
            Nat.lt_irrefl _ (h.coordinator.waits_lt _ hj)
          have hw' : (Desk.mk (d.coordinator.request method die ticket).2
              (d.waiters.set i (.waiting d.coordinator.nextId))).waiter i =
                .waiting d.coordinator.nextId := by
            rw [waiter_set _ _ hlt, if_pos rfl]
          refine ha.settled (by simp) (by simp [hw']) fun id hid => ?_
          rw [hw', Waiter.waiting.injEq] at hid
          subst hid
          rw [ha.asking method die ticket hw]
          simp [Coordinator.request, hc, h.coordinator.lookup_eq_none hnew]
    · cases hw : d.waiter i with
      | waiting id =>
        rw [step_leave_waiting hw]
        exact hgone _ hlt
      | asking | watching | resting | gone =>
        rw [step_leave_of_not_waiting (by simp [hw])]
        exact hgone _ hlt
  · have hgone : d.waiter i = .gone := by
      by_contra hne
      exact hlt (lt_length_of_waiter_ne_gone hne)
    have hsame : d.waiters.set i .gone = d.waiters :=
      List.set_eq_of_length_le (Nat.not_lt.mp hlt)
    rcases he with rfl | rfl
    · rw [step_poll_gone hgone]
      exact ha
    · rw [step_leave_of_not_waiting (by simp [hgone]), hsame]
      exact ha

/-- An event keeps the account of a waiter that it leaves alone. -/
theorem Accounts.untouched (h : d.Consistent) {values : List Int} (ha : Accounts i values d)
    (hpoll : e ≠ .poll i) (hleave : e ≠ .leave i) :
    Accounts i (values ++ d.acceptedBy i e) (d.step e) := by
  by_cases hlt : i < d.waiters.length
  · have hw := waiter_step hlt hpoll hleave
    have hwaiting : ∀ id, d.waiter i = .waiting id →
        values ++ d.acceptedBy i e =
          ((d.step e).coordinator.delivered.lookup id).toList := by
      intro id hid
      rw [ha.waiting id hid]
      by_cases hsubmit : ∃ method denomination v, e = .submit method denomination v
      · obtain ⟨method, denomination, v, rfl⟩ := hsubmit
        rw [lookup_submit h hid]
      · have hnot : ∀ m n v, e ≠ .submit m n v := fun m n v he => hsubmit ⟨m, n, v, he⟩
        rw [lookup_step h hid hpoll hleave hnot, acceptedBy_eq_nil i hnot, List.append_nil]
    have hnone : (∀ id, d.waiter i ≠ .waiting id) → d.acceptedBy i e = [] := by
      intro hnot
      cases e with
      | submit method denomination v =>
        by_cases ht : d.coordinator.Takes method denomination v
        · obtain ⟨r, before, after, -, -, -, hbrings⟩ := acceptedBy_submit h ht
          rw [hbrings i, if_neg (hnot r.id)]
        · exact (step_submit_of_not_takes ht).2 i
      | track | finish | ask | watch | poll | leave | cancel => rfl
    refine ⟨fun id hid => hwaiting id (hw ▸ hid), fun method die ticket hask => ?_, ?_, ?_⟩
    · rw [hw] at hask
      rw [hnone (by simp [hask]), List.append_nil, ha.asking method die ticket hask]
    · by_cases hid : ∃ id, d.waiter i = .waiting id
      · obtain ⟨id, hid⟩ := hid
        rw [hwaiting id hid]
        exact Option.length_toList_le
      · rw [hnone fun id hid' => hid ⟨id, hid'⟩, List.append_nil]
        exact ha.once
    · intro hle
      have hlen : d.waiters.length ≤ (d.step e).waiters.length := by
        cases e <;> simp [step]
      omega
  · have habsent : values = [] := ha.absent (Nat.not_lt.mp hlt)
    have hgone : d.waiter i = .gone := by
      by_contra hne
      exact hlt (lt_length_of_waiter_ne_gone hne)
    have hnone : d.acceptedBy i e = [] := by
      cases e with
      | submit method denomination v =>
        simp only [acceptedBy, hgone]
        split <;> simp
      | track | finish | ask | watch | poll | leave | cancel => rfl
    rw [habsent, hnone]
    refine ⟨fun id hid => absurd hid ?_, fun _ _ _ _ => rfl, Nat.zero_le _, fun _ => rfl⟩
    -- whoever comes in this event leaves no request yet
    cases e with
    | track | finish | submit | cancel => simp only [step]; simp [waiter] at hgone ⊢; simp [hgone]
    | ask | watch =>
      simp only [step]
      rw [waiting_append _ (by simp)]
      simp [hgone]
    | poll j | leave j =>
      have hij : i ≠ j := by
        rintro rfl
        simp at hpoll hleave
      simp only [step]
      rw [waiter_set_of_ne _ _ hij, hgone]
      simp

/-- Every event keeps the accounts. -/
theorem Accounts.step (h : d.Consistent) {values : List Int} (ha : Accounts i values d)
    (e : Event) : Accounts i (values ++ d.acceptedBy i e) (d.step e) := by
  by_cases he : e = .poll i ∨ e = .leave i
  · have hnone : d.acceptedBy i e = [] := by
      rcases he with rfl | rfl <;> rfl
    rw [hnone, List.append_nil]
    exact ha.touched h he
  · exact ha.untouched h (fun hp => he (.inl hp)) fun hl => he (.inr hl)

end DiceNotation.Desk
