/-
  DiceNotation.Proofs.Fulfillment.Service

  A waiter gets a value of the die that it asked for.

  `Coordinator.Serves` says so of one id: the request asks for the die, and the
  answer that lies ready is one that the die can show. What others do keeps it
  (`Desk.serves_step`).
-/

import DiceNotation.Proofs.Fulfillment.Accounts

namespace DiceNotation

variable {k : Coordinator} {d : Desk} {e : Desk.Event} {i id : Nat} {die : Denomination}

/-! ## The answer of a request -/

/-- The request with an id, if it is on the table, asks for a die, and its answer, if it
    lies ready, is one that the die can show. -/
structure Coordinator.Serves (id : Nat) (die : Denomination) (k : Coordinator) : Prop where
  request : ∀ r ∈ k.outstanding, r.id = id → r.denomination = die
  answer : ∀ v, k.delivered.lookup id = some v → die.canShow v = true

/-- A request that was just left asks for its die. -/
theorem Coordinator.serves_request {waits : Nat → Prop} (h : k.Consistent waits)
    (method : String) (die : Denomination) (ticket : Nat) (hc : k.cancelled = false) :
    (k.request method die ticket).2.Serves k.nextId die where
  request := by
    rw [outstanding_request method die ticket hc]
    intro r hr hid
    rcases List.mem_append.mp hr with hr | hr
    · exact absurd (h.outstanding_lt hr) (by omega)
    · rw [List.mem_singleton.mp hr]
  answer := by
    have hsame : (k.request method die ticket).2.delivered = k.delivered := by
      simp [Coordinator.request, hc]
    intro v hv
    rw [hsame, h.lookup_eq_none fun hw => Nat.lt_irrefl _ (h.waits_lt _ hw)] at hv
    cases hv

namespace Desk

/-- What others do leaves a waiter the die that it asked for. -/
theorem serves_step (h : d.Consistent) (hi : d.waiter i = .waiting id)
    (hs : d.coordinator.Serves id die) (hpoll : e ≠ .poll i) (hleave : e ≠ .leave i) :
    (d.step e).coordinator.Serves id die where
  request := by
    intro r hr hid
    rcases outstanding_step h e with ⟨-, hout⟩ | ⟨-, q, hq, hout⟩
    · exact hs.request r (hout r hr) hid
    · rw [hout] at hr
      rcases List.mem_append.mp hr with hr | hr
      · exact hs.request r hr hid
      · -- a new request has an id of its own
        have hlt : id < d.coordinator.nextId := h.coordinator.waits_lt id ⟨i, hi⟩
        rw [List.mem_singleton.mp hr] at hid
        omega
  answer := by
    intro v hv
    by_cases hsubmit : ∃ method denomination value, e = .submit method denomination value
    · obtain ⟨method, denomination, value, rfl⟩ := hsubmit
      by_cases ht : d.coordinator.Takes method denomination value
      · obtain ⟨r, before, after, hr, hsplit, hstep, -⟩ := acceptedBy_submit h ht
        obtain ⟨die', -, -, hdie', -, -, hrd, -⟩ := Coordinator.oldest?_eq_some hr
        obtain ⟨-, die'', hdie'', -, hvalue⟩ := ht
        have hsame : die'' = r.denomination := by
          rw [hrd]
          exact Option.some.inj (hdie''.symm.trans hdie')
        rw [hstep] at hv
        rw [List.lookup_append, Option.or_eq_some_iff] at hv
        rcases hv with hv | ⟨-, hv⟩
        · exact hs.answer v hv
        · by_cases hid : id = r.id
          · have hvalue' : value = v := by simpa [List.lookup_cons, hid] using hv
            have hrdie := hs.request r (by simp [hsplit]) hid.symm
            rw [← hrdie, ← hsame, ← hvalue']
            exact hvalue
          · have hbeq : (id == r.id) = false := by simpa using hid
            simp [List.lookup_cons, hbeq] at hv
      · rw [(step_submit_of_not_takes ht).1] at hv
        exact hs.answer v hv
    · rw [lookup_step h hi hpoll hleave fun m n v he => hsubmit ⟨m, n, v, he⟩] at hv
      exact hs.answer v hv

/-! ## A desk with one more waiter -/

/-- A desk where another waiter came before all others. -/
def behind (w : Waiter) (d : Desk) : Desk := ⟨d.coordinator, w :: d.waiters⟩

/-- An event as those see it who came after another waiter. -/
def Event.shift : Event → Event
  | .poll i => .poll (i + 1)
  | .leave i => .leave (i + 1)
  | e => e

/-- The waiters after the first. -/
theorem waiter_behind_succ (w : Waiter) : (d.behind w).waiter (i + 1) = d.waiter i := by
  simp [waiter, behind]

/-- One more waiter that is gone makes no difference. -/
theorem Consistent.behind_gone (h : d.Consistent) : (d.behind .gone).Consistent where
  coordinator := h.coordinator.congr fun id => by
    constructor
    · rintro ⟨i, hi⟩
      exact ⟨i + 1, (waiter_behind_succ .gone).trans hi⟩
    · rintro ⟨_ | i, hi⟩
      · cases hi
      · exact ⟨i, (waiter_behind_succ .gone).symm.trans hi⟩
  distinct := by
    rintro (_ | i) (_ | j) id hi hj
    · rfl
    · cases hi
    · cases hj
    · rw [waiter_behind_succ] at hi hj
      rw [h.distinct i j id hi hj]

/-- What happens among the others leaves the first waiter. -/
theorem step_shift (w : Waiter) (e : Event) :
    (d.behind w).step e.shift = (d.step e).behind w := by
  cases e with
  | track | finish | ask | watch | submit | cancel => rfl
  | poll i | leave i =>
    simp only [Event.shift, step, waiter_behind_succ]
    rfl

/-- What happens among the others neither polls the first waiter nor sends it away. -/
theorem shift_ne (e : Event) : e.shift ≠ .poll 0 ∧ e.shift ≠ .leave 0 := by
  cases e <;> simp [Event.shift]

end Desk

end DiceNotation
