/-
  DiceNotation.Proofs.Fulfillment.Consistency

  The table of a coordinator, its answers and those who listen for them stay in
  step.

  `Coordinator.Consistent` relates a coordinator to the ids that somebody waits
  for. Every operation keeps the relation when those who wait change with it, so
  that whoever waits has a request on the table or an answer, unless all requests
  were cancelled.
-/

import Mathlib.Data.List.Nodup
import DiceNotation.Fulfillment.Waiter

namespace DiceNotation.Coordinator

/-! ## The invariant -/

/-- The table, the answers and those who listen agree, where `waits` says which ids are
    waited for. -/
structure Consistent (k : Coordinator) (waits : Nat → Prop) : Prop where
  increasing : k.outstanding.Pairwise fun a b => a.id < b.id
  waits_lt : ∀ id, waits id → id < k.nextId
  listening_iff : ∀ id, id ∈ k.listening ↔ waits id
  outstanding_waits : ∀ r ∈ k.outstanding, waits r.id
  delivered_waits : ∀ e ∈ k.delivered, waits e.1
  delivered_once : k.delivered.Pairwise fun a b => a.1 ≠ b.1
  delivered_left : ∀ e ∈ k.delivered, ∀ r ∈ k.outstanding, r.id ≠ e.1
  served : k.cancelled = false → ∀ id, waits id →
    (∃ r ∈ k.outstanding, r.id = id) ∨ ∃ v, (id, v) ∈ k.delivered
  swept : k.cancelled = true → k.outstanding = []

namespace Consistent

variable {k : Coordinator} {waits waits' : Nat → Prop}

/-- A new coordinator is consistent: nobody waits. -/
theorem fresh : Consistent {} fun _ => False where
  increasing := List.Pairwise.nil
  waits_lt := by simp
  listening_iff := by simp
  outstanding_waits := by simp
  delivered_waits := by simp
  delivered_once := List.Pairwise.nil
  delivered_left := by simp
  served := by simp
  swept := by simp

/-- Who waits matters only up to equivalence. -/
theorem congr (h : k.Consistent waits) (hw : ∀ id, waits id ↔ waits' id) :
    k.Consistent waits' := by
  have : waits = waits' := funext fun id => propext (hw id)
  exact this ▸ h

/-- A request on the table has an id that was given out. -/
theorem outstanding_lt (h : k.Consistent waits) {r : Request} (hr : r ∈ k.outstanding) :
    r.id < k.nextId :=
  h.waits_lt _ (h.outstanding_waits r hr)

/-- Whoever is on the table listens. -/
theorem listening_of_outstanding (h : k.Consistent waits) {r : Request}
    (hr : r ∈ k.outstanding) : r.id ∈ k.listening :=
  (h.listening_iff _).mpr (h.outstanding_waits r hr)

/-- The answer that is found under an id is the one that was delivered. -/
theorem lookup_iff (h : k.Consistent waits) {id : Nat} {v : Int} :
    k.delivered.lookup id = some v ↔ (id, v) ∈ k.delivered := by
  have honce := h.delivered_once
  generalize k.delivered = es at honce
  induction es with
  | nil => simp
  | cons e rest ih =>
    obtain ⟨hfirst, hrest⟩ := List.pairwise_cons.mp honce
    obtain ⟨i, w⟩ := e
    by_cases hi : id = i
    · subst hi
      have hnot : ∀ u, (id, u) ∉ rest := fun u hu => hfirst _ hu rfl
      simp [hnot, eq_comm]
    · have hbeq : (id == i) = false := by simpa using hi
      simp [List.lookup_cons, hbeq, ih hrest, hi]

/-- No answer is found under an id that nobody waits for. -/
theorem lookup_eq_none (h : k.Consistent waits) {id : Nat} (hid : ¬ waits id) :
    k.delivered.lookup id = none := by
  rw [Option.eq_none_iff_forall_ne_some]
  intro v hv
  exact hid (h.delivered_waits _ (h.lookup_iff.mp hv))

end Consistent

/-! ## Tickets and cancellation -/

variable {k : Coordinator} {waits : Nat → Prop}

/-- Giving out a ticket keeps a coordinator consistent. -/
theorem Consistent.track (h : k.Consistent waits) (external : Bool) :
    (k.track external).2.Consistent waits :=
  ⟨h.increasing, h.waits_lt, h.listening_iff, h.outstanding_waits, h.delivered_waits,
    h.delivered_once, h.delivered_left, h.served, h.swept⟩

/-- Marking a ticket keeps a coordinator consistent. -/
theorem Consistent.finish (h : k.Consistent waits) (ticket : Nat) :
    (k.finish ticket).Consistent waits :=
  ⟨h.increasing, h.waits_lt, h.listening_iff, h.outstanding_waits, h.delivered_waits,
    h.delivered_once, h.delivered_left, h.served, h.swept⟩

/-- Abandoning all requests keeps a coordinator consistent. -/
theorem Consistent.cancel (h : k.Consistent waits) : k.cancel.Consistent waits where
  increasing := List.Pairwise.nil
  waits_lt := h.waits_lt
  listening_iff := h.listening_iff
  outstanding_waits := by simp [Coordinator.cancel]
  delivered_waits := h.delivered_waits
  delivered_once := h.delivered_once
  delivered_left := by simp [Coordinator.cancel]
  served := by simp [Coordinator.cancel]
  swept := by simp [Coordinator.cancel]

/-! ## Requests -/

/-- A coordinator that was cancelled takes no request. -/
theorem request_of_cancelled (method : String) (d : Denomination) (ticket : Nat)
    (hc : k.cancelled = true) : k.request method d ticket = (none, k) := by
  simp [request, hc]

/-- A request gets the next id. -/
theorem request_fst (method : String) (d : Denomination) (ticket : Nat)
    (hc : k.cancelled = false) : (k.request method d ticket).1 = some k.nextId := by
  simp [request, hc]

/-- A request goes to the end of the table. -/
theorem outstanding_request (method : String) (d : Denomination) (ticket : Nat)
    (hc : k.cancelled = false) :
    (k.request method d ticket).2.outstanding =
      k.outstanding ++ [⟨k.nextId, method, d, ticket⟩] := by
  simp [request, hc]

/-- Leaving a request keeps a coordinator consistent; its id is waited for from then on. -/
theorem Consistent.request (h : k.Consistent waits) (method : String) (d : Denomination)
    (ticket : Nat) (hc : k.cancelled = false) :
    (k.request method d ticket).2.Consistent fun id => id = k.nextId ∨ waits id := by
  have hnew : ¬ waits k.nextId := fun hw => Nat.lt_irrefl _ (h.waits_lt _ hw)
  simp only [Coordinator.request, hc, Bool.false_eq_true, if_false]
  refine ⟨?_, ?_, ?_, ?_, ?_, h.delivered_once, ?_, ?_, ?_⟩
  · rw [List.pairwise_append]
    refine ⟨h.increasing, List.pairwise_singleton _ _, ?_⟩
    intro r hr q hq
    rw [List.mem_singleton.mp hq]
    exact h.outstanding_lt hr
  · rintro id (rfl | hw)
    · exact Nat.lt_succ_self _
    · exact Nat.lt_succ_of_lt (h.waits_lt _ hw)
  · intro id
    simp [h.listening_iff, or_comm]
  · intro r hr
    rcases List.mem_append.mp hr with hr | hr
    · exact .inr (h.outstanding_waits r hr)
    · rw [List.mem_singleton.mp hr]
      exact .inl rfl
  · exact fun e he => .inr (h.delivered_waits e he)
  · intro e he r hr
    rcases List.mem_append.mp hr with hr | hr
    · exact h.delivered_left e he r hr
    · rw [List.mem_singleton.mp hr]
      rintro (heq : k.nextId = e.1)
      exact hnew (heq ▸ h.delivered_waits e he)
  · rintro hc' id (rfl | hw)
    · exact .inl ⟨_, List.mem_append_right _ (List.mem_singleton_self _), rfl⟩
    · rcases h.served hc id hw with ⟨r, hr, hid⟩ | hv
      · exact .inl ⟨r, List.mem_append_left _ hr, hid⟩
      · exact .inr hv
  · intro hc'
    cases hc'

/-- Giving up a request keeps a coordinator consistent; its id is no longer waited for. -/
theorem Consistent.withdraw (h : k.Consistent waits) (id : Nat) :
    (k.withdraw id).Consistent fun i => i ≠ id ∧ waits i where
  increasing := h.increasing.filter _
  waits_lt := fun i hi => h.waits_lt i hi.2
  listening_iff := by
    intro i
    simp [Coordinator.withdraw, h.listening_iff, and_comm]
  outstanding_waits := by
    intro r hr
    simp only [Coordinator.withdraw, List.mem_filter, bne_iff_ne] at hr
    exact ⟨hr.2, h.outstanding_waits r hr.1⟩
  delivered_waits := by
    intro e he
    simp only [Coordinator.withdraw, List.mem_filter, bne_iff_ne] at he
    exact ⟨he.2, h.delivered_waits e he.1⟩
  delivered_once := h.delivered_once.filter _
  delivered_left := by
    intro e he r hr
    simp only [Coordinator.withdraw, List.mem_filter] at he hr
    exact h.delivered_left e he.1 r hr.1
  served := by
    rintro hc i ⟨hne, hw⟩
    rcases h.served hc i hw with ⟨r, hr, rfl⟩ | ⟨v, hv⟩
    · exact .inl ⟨r, by simp [Coordinator.withdraw, hr, hne], rfl⟩
    · exact .inr ⟨v, by simp [Coordinator.withdraw, hv, hne]⟩
  swept := by
    intro hc
    simp [Coordinator.withdraw, h.swept hc]

/-! ## Answers -/

/-- Whoever waits finds the answer that was delivered, or else waits on unless all
    requests were cancelled. -/
theorem Consistent.reply_eq (h : k.Consistent waits) {id : Nat} (hid : waits id) :
    k.reply id = match k.delivered.lookup id with
      | some v => .answered v
      | none => if k.cancelled then .cancelled else .pending := by
  simp only [reply]
  cases hl : k.delivered.lookup id with
  | some v => rfl
  | none =>
    cases hc : k.cancelled with
    | true => simp [h.swept hc]
    | false =>
      have hout : ∃ r ∈ k.outstanding, r.id = id := by
        rcases h.served hc id hid with hout | ⟨v, hv⟩
        · exact hout
        · rw [h.lookup_iff.mpr hv] at hl
          cases hl
      have hany : k.outstanding.any (·.id == id) = true := by
        simpa [List.any_eq_true] using hout
      simp [hany]

/-- An answer that is found was delivered. -/
theorem lookup_of_reply {id : Nat} {v : Int} (hr : k.reply id = .answered v) :
    k.delivered.lookup id = some v := by
  unfold reply at hr
  cases hl : k.delivered.lookup id with
  | some v' => simpa [hl] using hr
  | none =>
    rw [hl] at hr
    by_cases hout : k.outstanding.any (·.id == id) = true <;> simp [hout] at hr

/-- Whoever waits finds a cancellation only if there was one. -/
theorem Consistent.cancelled_of_reply (h : k.Consistent waits) {id : Nat} (hid : waits id)
    (hr : k.reply id = .cancelled) : k.cancelled = true := by
  rw [h.reply_eq hid] at hr
  cases hl : k.delivered.lookup id with
  | some v => simp [hl] at hr
  | none => simpa [hl] using hr

/-- The one who left a request a moment ago has no answer yet. -/
theorem Consistent.reply_request (h : k.Consistent waits) (method : String)
    (d : Denomination) (ticket : Nat) (hc : k.cancelled = false) :
    (k.request method d ticket).2.reply k.nextId = .pending := by
  have hnew : k.delivered.lookup k.nextId = none :=
    h.lookup_eq_none fun hw => Nat.lt_irrefl _ (h.waits_lt _ hw)
  have hsame : (k.request method d ticket).2.delivered = k.delivered := by
    simp [Coordinator.request, hc]
  have hlisted : (k.request method d ticket).2.outstanding.any (·.id == k.nextId) = true := by
    simp [outstanding_request method d ticket hc]
  simp [reply, hsame, hnew, hlisted]

/-- Giving up a request leaves the answers of the others. -/
theorem lookup_withdraw {id i : Nat} (h : i ≠ id) :
    (k.withdraw id).delivered.lookup i = k.delivered.lookup i := by
  simp only [withdraw]
  induction k.delivered with
  | nil => rfl
  | cons e rest ih =>
    obtain ⟨e, v⟩ := e
    by_cases he : e = id
    · subst he
      have hie : (i == e) = false := by simpa using h
      simpa [List.lookup_cons, hie] using ih
    · simp [he, List.lookup_cons, ih]

/-! ## Submissions -/

/-- The oldest request that a submission may answer. -/
def oldest? (method denomination : String) (k : Coordinator) : Option Request :=
  (Denomination.ofChars? denomination.toList).bind fun d =>
    k.outstanding.find? (asksFor method d)

/-- A table without the oldest request that a submission may answer. -/
def takeOldest (method denomination : String) (k : Coordinator) : Coordinator :=
  match Denomination.ofChars? denomination.toList with
  | some d => { k with outstanding := k.outstanding.eraseP (asksFor method d) }
  | none => k

/-- When a submission is taken: its denomination is one, and a request asks for it whose
    die can show the value. -/
def Takes (method denomination : String) (value : Int) (k : Coordinator) : Prop :=
  k.cancelled = false ∧ ∃ d, Denomination.ofChars? denomination.toList = some d ∧
    (∃ r ∈ k.outstanding, r.method = method ∧ r.denomination = d) ∧ d.canShow value = true

/-- A submission is passed on to the oldest request if it is to be taken. -/
theorem submit_of_takes {method denomination : String} {value : Int}
    (h : k.Takes method denomination value) :
    ∃ r, k.oldest? method denomination = some r ∧
      k.submit method denomination value =
        (k.takeOldest method denomination).deliver r.id value := by
  obtain ⟨hc, d, hd, ⟨r, hr, hm, hrd⟩, hv⟩ := h
  have hasks : asksFor method d r = true := by simp [asksFor, hm, hrd]
  obtain ⟨q, hq⟩ := Option.isSome_iff_exists.mp (List.find?_isSome.mpr ⟨r, hr, hasks⟩)
  refine ⟨q, by simp [oldest?, hd, hq], ?_⟩
  simp [submit, takeOldest, hd, hc, hq, hv]

/-- Any other submission is refused and changes nothing. It is refused for a cancellation
    only if there was one. -/
theorem submit_of_not_takes {method denomination : String} {value : Int}
    (h : ¬ k.Takes method denomination value) :
    ∃ e, k.submit method denomination value = (.error e, k) ∧
      (e = .cancelled → k.cancelled = true) := by
  cases hd : Denomination.ofChars? denomination.toList with
  | none => exact ⟨.unknownDenomination denomination, by simp [submit, hd], by simp⟩
  | some d =>
    cases hc : k.cancelled with
    | true => exact ⟨.cancelled, by simp [submit, hd, hc], fun _ => rfl⟩
    | false =>
      cases hf : k.outstanding.find? (asksFor method d) with
      | none => exact ⟨.noRequest method d, by simp [submit, hd, hc, hf], by simp⟩
      | some r =>
        have hasks : r.method = method ∧ r.denomination = d := by
          simpa [asksFor] using List.find?_some hf
        have hv : d.canShow value = false := by
          rw [← Bool.not_eq_true]
          intro hv
          exact h ⟨hc, d, hd, ⟨r, List.mem_of_find?_eq_some hf, hasks⟩, hv⟩
        exact ⟨.outOfRange d value, by simp [submit, hd, hc, hf, hv], by simp⟩

/-- The oldest request stands behind requests that ask for other dice, and is what is
    taken off the table. -/
theorem oldest?_eq_some {method denomination : String} {r : Request}
    (h : k.oldest? method denomination = some r) :
    ∃ d before after, Denomination.ofChars? denomination.toList = some d ∧
      k.outstanding = before ++ r :: after ∧ r.method = method ∧ r.denomination = d ∧
      (∀ q ∈ before, ¬ (q.method = method ∧ q.denomination = d)) ∧
      k.takeOldest method denomination = { k with outstanding := before ++ after } := by
  obtain ⟨d, hd, hf⟩ := Option.bind_eq_some_iff.mp h
  obtain ⟨hasks, before, after, hsplit, hbefore⟩ := List.find?_eq_some_iff_append.mp hf
  have hnone : ∀ q ∈ before, ¬ asksFor method d q = true := by
    intro q hq
    simpa using hbefore q hq
  have herase : k.outstanding.eraseP (asksFor method d) = before ++ after := by
    rw [hsplit, List.eraseP_append_right _ hnone, List.eraseP_cons_of_pos hasks]
  have hr : r.method = method ∧ r.denomination = d := by simpa [asksFor] using hasks
  refine ⟨d, before, after, hd, hsplit, hr.1, hr.2, ?_, by simp [takeOldest, hd, herase]⟩
  intro q hq hboth
  exact hnone q hq (by simp [asksFor, hboth])

/-- A submission that is taken is accepted: whoever is on the table listens. -/
theorem Consistent.submit_accepts (h : k.Consistent waits) {method denomination : String}
    {value : Int} (ht : k.Takes method denomination value) :
    ∃ r before after, k.oldest? method denomination = some r ∧ waits r.id ∧
      k.outstanding = before ++ r :: after ∧
      k.submit method denomination value =
        (.ok (), { k with
          outstanding := before ++ after
          delivered := k.delivered ++ [(r.id, value)]
          signals := k.signals + 1 }) := by
  obtain ⟨r, hr, hsubmit⟩ := submit_of_takes ht
  obtain ⟨d, before, after, -, hsplit, -, -, -, htake⟩ := oldest?_eq_some hr
  have hmem : r ∈ k.outstanding := by simp [hsplit]
  have hlistens : r.id ∈ k.listening := h.listening_of_outstanding hmem
  refine ⟨r, before, after, hr, h.outstanding_waits r hmem, hsplit, ?_⟩
  rw [hsubmit, htake]
  simp [deliver, hlistens]

/-- A submission is accepted exactly when it is to be taken. -/
theorem Consistent.submit_ok_iff (h : k.Consistent waits) (method denomination : String)
    (value : Int) :
    (k.submit method denomination value).1 = .ok () ↔ k.Takes method denomination value := by
  constructor
  · intro hok
    by_contra hnot
    obtain ⟨e, he, -⟩ := submit_of_not_takes hnot
    rw [he] at hok
    cases hok
  · intro ht
    obtain ⟨r, before, after, -, -, -, hsubmit⟩ := h.submit_accepts ht
    rw [hsubmit]

/-- Passing an answer on keeps a coordinator consistent. -/
theorem Consistent.answer (h : k.Consistent waits) {r : Request} {before after : List Request}
    (value : Int) (hsplit : k.outstanding = before ++ r :: after) :
    Consistent { k with
      outstanding := before ++ after
      delivered := k.delivered ++ [(r.id, value)]
      signals := k.signals + 1 } waits := by
  have hmem : r ∈ k.outstanding := by simp [hsplit]
  have hsub : (before ++ after).Sublist k.outstanding := by
    rw [hsplit]
    exact (List.Sublist.refl _).append (List.sublist_cons_self _ _)
  have hother : ∀ q ∈ before ++ after, q.id ≠ r.id := by
    intro q hq hid
    have hincr := h.increasing
    rw [hsplit, List.pairwise_append] at hincr
    obtain ⟨-, hafter, hbefore⟩ := hincr
    rcases List.mem_append.mp hq with hq | hq
    · have := hbefore q hq r List.mem_cons_self
      omega
    · have := (List.pairwise_cons.mp hafter).1 q hq
      omega
  refine ⟨h.increasing.sublist hsub, h.waits_lt, h.listening_iff,
    fun q hq => h.outstanding_waits q (hsub.subset hq), ?_, ?_, ?_, ?_, ?_⟩
  · intro e he
    rcases List.mem_append.mp he with he | he
    · exact h.delivered_waits e he
    · rw [List.mem_singleton.mp he]
      exact h.outstanding_waits r hmem
  · rw [List.pairwise_append]
    refine ⟨h.delivered_once, List.pairwise_singleton _ _, ?_⟩
    intro e he e' he'
    rw [List.mem_singleton.mp he']
    exact (h.delivered_left e he r hmem).symm
  · intro e he q hq
    rcases List.mem_append.mp he with he | he
    · exact h.delivered_left e he q (hsub.subset hq)
    · rw [List.mem_singleton.mp he]
      exact hother q hq
  · intro hc id hid
    rcases h.served hc id hid with ⟨q, hq, rfl⟩ | ⟨v, hv⟩
    · by_cases hqr : q = r
      · exact .inr ⟨value, by simp [hqr]⟩
      · refine .inl ⟨q, ?_, rfl⟩
        rw [hsplit] at hq
        simpa [hqr] using hq
    · exact .inr ⟨v, List.mem_append_left _ hv⟩
  · intro hc
    have hnil := h.swept hc
    rw [hnil] at hmem
    cases hmem

/-- A submission keeps a coordinator consistent. -/
theorem Consistent.submit (h : k.Consistent waits) (method denomination : String)
    (value : Int) : (k.submit method denomination value).2.Consistent waits := by
  by_cases ht : k.Takes method denomination value
  · obtain ⟨r, before, after, -, -, hsplit, hsubmit⟩ := h.submit_accepts ht
    rw [hsubmit]
    exact h.answer value hsplit
  · obtain ⟨e, he, -⟩ := submit_of_not_takes ht
    rw [he]
    exact h

end DiceNotation.Coordinator
