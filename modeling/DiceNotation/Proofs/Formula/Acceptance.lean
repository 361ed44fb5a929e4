/-
  DiceNotation.Proofs.Formula.Acceptance

  What is read is derived, and what is derived is read.

  A derivation knows nothing of what follows its tokens, while a reader stops where
  it can go on no further. So what is derived is read where a token follows with
  which the piece cannot go on (`Follows`), and the tokens that were passed derive
  what was read (`Reads.derives`). Both meet at the whole text
  (`parse_eq_ok_iff_derives`).
-/

import DiceNotation.Proofs.Formula.Derivation
import DiceNotation.Proofs.Formula.Reading
import DiceNotation.Proofs.Formula.Scan

namespace DiceNotation.Formula

open Text

variable {source : List Char}

/-! ## Passing tokens -/

/-- Tokens stand between two cursors. -/
structure Cursor.Passes (c : Cursor) (ts : List Token) (c' : Cursor) : Prop where
  rest : c.rest = ts ++ c'.rest
  stop : c'.stop = endOf c.stop ts

namespace Cursor.Passes

variable {c c₁ c₂ : Cursor} {ts us : List Token}

theorem refl (c : Cursor) : c.Passes [] c := ⟨rfl, rfl⟩

theorem trans (h : c.Passes ts c₁) (h' : c₁.Passes us c₂) : c.Passes (ts ++ us) c₂ :=
  ⟨by rw [h.rest, h'.rest, List.append_assoc], by rw [h'.stop, h.stop, endOf_append]⟩

theorem cons {t : Token} {rest : List Token} (hc : c.rest = t :: rest)
    (h : Cursor.Passes ⟨rest, t.span.stop⟩ ts c₁) : c.Passes (t :: ts) c₁ :=
  ⟨hc.trans (congrArg (t :: ·) h.rest), h.stop⟩

theorem forall_mem {P : Token → Prop} (h : c.Passes ts c₁) (hc : ∀ t ∈ c.rest, P t) :
    ∀ t ∈ c₁.rest, P t := fun t ht => hc t (h.rest ▸ List.mem_append_right ts ht)

/-- A token that is passed. -/
theorem of_isAt {kind : TokenKind} (h : c.isAt kind = true) :
    ∃ t, t.kind = kind ∧ c.Passes [t] c.skip := by
  obtain ⟨t, rest, hrest, hkind, hskip⟩ := Cursor.exists_of_isAt h
  exact ⟨t, hkind, by rw [hskip]; exact .cons hrest (.refl _)⟩

end Cursor.Passes

/-! ## Signs -/

/-- Tokens that begin with none of a class, or that are none at all. -/
def Avoids (q : TokenKind → Bool) (ts : List Token) : Prop :=
  ∀ t rest, ts = t :: rest → q t.kind = false

theorem signOfCount_succ (m : Nat) :
    (if some (signOfCount m) == some .sub then some Operator.add else some .sub) =
      some (signOfCount (m + 1)) := by
  obtain hm | hm := Nat.mod_two_eq_zero_or_one m
  · have hsucc : (m + 1) % 2 = 1 := by omega
    rw [signOfCount, signOfCount, hm, hsucc]
    rfl
  · have hsucc : (m + 1) % 2 = 0 := by omega
    rw [signOfCount, signOfCount, hm, hsucc]
    rfl

theorem kind_of_isSign {kind : TokenKind} (h : kind.isSign = true) :
    kind = .plus ∨ kind = .minus := by
  cases kind <;> first | exact .inl rfl | exact .inr rfl | cases h

theorem signRun_of_avoids {rest : List Token} (hrest : Avoids TokenKind.isSign rest)
    (soFar : Option Operator) (p : Nat) : signRun soFar rest p = (soFar, ⟨rest, p⟩) := by
  cases rest with
  | nil => rfl
  | cons t rest =>
    have ht := hrest t rest rfl
    rw [signRun]
    split
    · next hkind => rw [hkind] at ht; cases ht
    · next hkind => rw [hkind] at ht; cases ht
    · rfl

/-- Signs that follow others are passed up to the end of the run. -/
theorem signRun_append {ss rest : List Token} (hss : AreSigns ss)
    (hrest : Avoids TokenKind.isSign rest) (m p : Nat) :
    signRun (some (signOfCount m)) (ss ++ rest) p =
      (some (signOfCount (m + ss.countP (·.kind == .minus))), ⟨rest, endOf p ss⟩) := by
  induction ss generalizing m p with
  | nil => exact signRun_of_avoids hrest _ p
  | cons t ss ih =>
    obtain ⟨ht, hrun⟩ := List.forall_mem_cons.mp hss
    rw [List.cons_append, signRun, List.countP_cons]
    obtain hkind | hkind := kind_of_isSign ht
    · simp only [hkind]
      exact ih hrun m t.span.stop
    · simp only [hkind, signOfCount_succ]
      rw [ih hrun (m + 1) t.span.stop, Nat.add_right_comm]
      rfl

/-- A run of signs is passed up to its end. -/
theorem signs_append {ss rest : List Token} (hss : AreSigns ss)
    (hrest : Avoids TokenKind.isSign rest) (p : Nat) :
    signs ⟨ss ++ rest, p⟩ = (signOf ss, ⟨rest, endOf p ss⟩) := by
  cases ss with
  | nil => exact signRun_of_avoids hrest none p
  | cons t ss =>
    obtain ⟨ht, hrun⟩ := List.forall_mem_cons.mp hss
    rw [signs, List.cons_append, signRun, signOf, List.countP_cons]
    obtain hkind | hkind := kind_of_isSign ht
    · simp only [hkind]
      exact (signRun_append hrun hrest 0 t.span.stop).trans (by rw [Nat.zero_add]; rfl)
    · simp only [hkind]
      exact (signRun_append hrun hrest 1 t.span.stop).trans (by rw [Nat.add_comm]; rfl)

/-- Tokens are a run of a class and what follows it. -/
theorem exists_run (q : TokenKind → Bool) (ts : List Token) :
    ∃ ss rest, ts = ss ++ rest ∧ (∀ t ∈ ss, q t.kind = true) ∧ Avoids q rest := by
  induction ts with
  | nil => exact ⟨[], [], rfl, nofun, nofun⟩
  | cons t ts ih =>
    cases ht : q t.kind with
    | true =>
      obtain ⟨ss, rest, rfl, hss, hrest⟩ := ih
      exact ⟨t :: ss, rest, rfl, List.forall_mem_cons.mpr ⟨ht, hss⟩, hrest⟩
    | false => exact ⟨[], t :: ts, rfl, nofun, fun _ _ heq => by cases heq; exact ht⟩

/-- The run of signs at a cursor. -/
theorem exists_signs (c : Cursor) :
    ∃ ss, AreSigns ss ∧ (signs c).1 = signOf ss ∧ c.Passes ss (signs c).2 ∧
      Avoids TokenKind.isSign (signs c).2.rest := by
  obtain ⟨ts, p⟩ := c
  obtain ⟨ss, rest, rfl, hss, hrest⟩ := exists_run TokenKind.isSign ts
  rw [signs_append hss hrest]
  exact ⟨ss, hss, rfl, ⟨rfl, rfl⟩, hrest⟩

/-! ## Flavors -/

/-- Whether a class of tokens is that of a flavor, be it empty. -/
def TokenKind.isFlavor : TokenKind → Bool
  | flavor | emptyFlavor => true
  | _ => false

theorem flavorRun_append {fs rest : List Token} (hfs : AreFlavors fs)
    (hrest : Avoids TokenKind.isFlavor rest) (p : Nat) :
    flavorRun source (fs ++ rest) p = .ok (fs.map flavorText, ⟨rest, endOf p fs⟩) := by
  induction fs generalizing p with
  | nil =>
    cases rest with
    | nil => rfl
    | cons t rest =>
      have ht := hrest t rest rfl
      rw [List.nil_append, flavorRun]
      split
      · next hkind => rw [hkind] at ht; cases ht
      · next hkind => rw [hkind] at ht; cases ht
      · rfl
  | cons t fs ih =>
    obtain ⟨ht, hrun⟩ := List.forall_mem_cons.mp hfs
    rw [List.cons_append, flavorRun]
    simp only [ht]
    rw [ih hrun]
    rfl

/-- Flavors are passed up to the end of their run. -/
theorem withFlavors_append {fs rest : List Token} (hfs : AreFlavors fs)
    (hrest : Avoids TokenKind.isFlavor rest) (n : Node) (p : Nat) :
    withFlavors source n ⟨fs ++ rest, p⟩ = .ok (n.flavored fs, ⟨rest, endOf p fs⟩) := by
  rw [withFlavors, flavorRun_append hfs hrest, ok_bind, Node.flavored]
  cases fs <;> rfl

theorem exists_flavorRun {ts : List Token} {p : Nat} {flavors : List String} {c : Cursor}
    (h : flavorRun source ts p = .ok (flavors, c)) :
    ∃ fs, AreFlavors fs ∧ flavors = fs.map flavorText ∧ Cursor.Passes ⟨ts, p⟩ fs c := by
  induction ts generalizing p flavors with
  | nil =>
    cases h
    exact ⟨[], nofun, rfl, .refl _⟩
  | cons t ts ih =>
    rw [flavorRun] at h
    split at h
    · next hkind =>
      obtain ⟨⟨more, c₁⟩, hmore, heq⟩ := bind_eq_ok.mp h
      cases heq
      obtain ⟨fs, hfs, rfl, hpasses⟩ := ih hmore
      exact ⟨t :: fs, List.forall_mem_cons.mpr ⟨hkind, hfs⟩, rfl, .cons rfl hpasses⟩
    · cases h
    · cases h
      exact ⟨[], nofun, rfl, .refl _⟩

/-- The run of flavors at a cursor. -/
theorem exists_withFlavors {n n' : Node} {c c' : Cursor}
    (h : withFlavors source n c = .ok (n', c')) :
    ∃ fs, AreFlavors fs ∧ n' = n.flavored fs ∧ c.Passes fs c' := by
  obtain ⟨⟨flavors, c₁⟩, hrun, heq⟩ := bind_eq_ok.mp h
  obtain ⟨fs, hfs, rfl, hpasses⟩ := exists_flavorRun hrun
  cases fs <;> (cases heq; exact ⟨_, hfs, rfl, hpasses⟩)

/-! ## What is read is derived -/

theorem Derives.glue_head {greedy b : Bool} {parts : List Node} {p : Nat} {us : List Token}
    (h : Derives source greedy (.glue b parts) p us) :
    us = [] ∨ ∃ t rest, us = t :: rest ∧ t.span.start = p ∧
      (t.kind.isFragment = true ∨ t.kind.isBehindText = true) := by
  cases h with
  | fragment hadjacent hkind _ _ => exact .inr ⟨_, _, rfl, hadjacent, .inl hkind⟩
  | behindText hadjacent hkind _ _ => exact .inr ⟨_, _, rfl, hadjacent, .inr hkind⟩
  | glueEnd => exact .inl rfl

theorem Cursor.exists_of_opensCall {c : Cursor} (h : c.opensCall = true) :
    ∃ o rest, c.rest = o :: rest ∧ o.kind = .leftParen ∧ o.span.start = c.stop ∧
      c.skip = ⟨rest, o.span.stop⟩ := by
  obtain ⟨hadjacent, hopen⟩ := Bool.and_eq_true_iff.mp h
  obtain ⟨o, rest, hrest, hkind, hskip⟩ := Cursor.exists_of_isAt hopen
  rw [Cursor.isAdjacent, hrest] at hadjacent
  exact ⟨o, rest, hrest, hkind, beq_iff_eq.mp hadjacent, hskip⟩

theorem TokenKind.operator?_of_not_sign {kind : TokenKind} (h : kind.isSign = false) :
    kind.operator? = kind.product? := by
  cases kind <;> first | rfl | cases h

/-- A product operator at a cursor. -/
theorem exists_product {c : Cursor} {op : Operator} (hnone : (signs c).1 = none)
    (hop : c.kind?.bind TokenKind.operator? = some op) :
    ∃ t, c.Passes [t] c.skip ∧ t.kind.product? = some op := by
  obtain ⟨ss, -, hsign, hpss, hrest⟩ := exists_signs c
  obtain ⟨_ | ⟨t, ts⟩, p⟩ := c
  · cases hop
  · have hnil : ss = [] := by
      rw [hnone, signOf] at hsign
      cases ss with
      | nil => rfl
      | cons s ss => cases hsign
    subst hnil
    have ht : t.kind.isSign = false := hrest t ts hpss.rest.symm
    refine ⟨t, .cons rfl (.refl _), ?_⟩
    rw [← TokenKind.operator?_of_not_sign ht]
    exact hop

theorem Derives.atom_ne_nil {greedy : Bool} {n : Node} {p : Nat} {ts : List Token}
    (h : Derives source greedy (.atom n) p ts) : ∃ t rest, ts = t :: rest := by
  cases h <;> exact ⟨_, _, rfl⟩

/-- What is known behind a word that was read as an atom: it is no function name. -/
def Piece.Guarded : Piece → List Token → Cursor → Prop
  | .atom _, ts, c => ∀ t, ts = [t] → t.kind = .identifier → c.opensCall = false
  | _, _, _ => True

/-- An atom of two tokens at least is no word alone. -/
theorem Piece.guarded_cons_cons (n : Node) (t u : Token) (ts : List Token) (c : Cursor) :
    (Piece.atom n).Guarded (t :: u :: ts) c := by
  intro _ heq
  cases heq

/-- What stands between two cursors derives what was read between them. -/
theorem Reads.derives {piece : Piece} {c c' : Cursor} (h : Reads source piece c c')
    (hlexed : ∀ t ∈ c.rest, t.Lexed) :
    ∃ ts, c.Passes ts c' ∧ Derives source true piece c.stop ts ∧ piece.Guarded ts c' := by
  induction h with
  | @expression sign n ns c c₁ c₂ c₃ hsigns hn hns ihn ihns =>
    obtain ⟨ss, hss, hsign, hpss, -⟩ := exists_signs c
    rw [hsigns] at hsign hpss
    obtain rfl : sign = signOf ss := hsign
    obtain ⟨ts, hpts, hts, -⟩ := ihn (hpss.forall_mem hlexed)
    obtain ⟨us, hpus, hus, -⟩ := ihns ((hpss.trans hpts).forall_mem hlexed)
    rw [hpss.stop] at hts
    rw [hpts.stop, hpss.stop] at hus
    rw [signed_signOf]
    exact ⟨_, (hpss.trans hpts).trans hpus, .expression hss hts hus, trivial⟩
  | @restSum op n ns c c₁ c₂ c₃ hsigns hn hns ihn ihns =>
    obtain ⟨ss, hss, hsign, hpss, -⟩ := exists_signs c
    rw [hsigns] at hsign hpss
    obtain ⟨ts, hpts, hts, -⟩ := ihn (hpss.forall_mem hlexed)
    obtain ⟨us, hpus, hus, -⟩ := ihns ((hpss.trans hpts).forall_mem hlexed)
    rw [hpss.stop] at hts
    rw [hpts.stop, hpss.stop] at hus
    exact ⟨_, (hpss.trans hpts).trans hpus, .restSum hss hsign.symm hts hus, trivial⟩
  | @restProduct op sign n ns c c₁ c₂ c₃ hnone hop hsigns hn hns ihn ihns =>
    obtain ⟨t, hpt, hproduct⟩ := exists_product hnone hop
    obtain ⟨ss, hss, hsign, hpss, -⟩ := exists_signs c.skip
    rw [hsigns] at hsign hpss
    obtain rfl : sign = signOf ss := hsign
    obtain ⟨ts, hpts, hts, -⟩ := ihn ((hpt.trans hpss).forall_mem hlexed)
    obtain ⟨us, hpus, hus, -⟩ := ihns (((hpt.trans hpss).trans hpts).forall_mem hlexed)
    rw [hpss.stop, hpt.stop] at hts
    rw [hpts.stop, hpss.stop, hpt.stop] at hus
    rw [signed_signOf]
    exact ⟨_, hpt.trans ((hpss.trans hpts).trans hpus), .restProduct hproduct hss hts hus,
      trivial⟩
  | restEnd _ _ => exact ⟨[], .refl _, .restEnd, trivial⟩
  | @operand first more c c₁ c₂ hfirst hmore ihfirst ihmore =>
    obtain ⟨ts, hpts, hts, hguarded⟩ := ihfirst hlexed
    obtain ⟨us, hpus, hus, -⟩ := ihmore (hpts.forall_mem hlexed)
    refine ⟨_, hpts.trans hpus, .operand hts (hpts.stop ▸ hus) fun _ => ?_, trivial⟩
    -- a word with a parenthesis right behind it was not read as an atom
    rintro ⟨t, o, rest, rfl, hword, rfl, hopen⟩
    have hcall := hguarded t rfl hword
    obtain hnil | ⟨_, _, heq, hadjacent, -⟩ := hus.glue_head
    · cases hnil
    · cases heq
      simp [Cursor.opensCall, Cursor.isAdjacent, Cursor.isAt, Cursor.kind?, hpus.rest, hadjacent,
        hopen] at hcall
  | @fragment b t rest part more c c₁ c₂ hadjacent hc hkind hpart hmore ihmore =>
    obtain ⟨fs, hfs, rfl, hpfs⟩ := exists_withFlavors hpart
    have hpt := Cursor.Passes.cons hc hpfs
    obtain ⟨us, hpus, hus, -⟩ := ihmore (hpt.forall_mem hlexed)
    rw [hpfs.stop] at hus
    rw [Cursor.isAdjacent, hc] at hadjacent
    exact ⟨_, hpt.trans hpus, .fragment (beq_iff_eq.mp hadjacent) hkind hfs hus, trivial⟩
  | @behindText kind part more c c₁ c₂ hadjacent hc hkind hpart hmore ihpart ihmore =>
    obtain ⟨ts, hpts, hts, -⟩ := ihpart hlexed
    obtain ⟨us, hpus, hus, -⟩ := ihmore (hpts.forall_mem hlexed)
    obtain ⟨t, ts, rfl⟩ := hts.atom_ne_nil
    simp only [Cursor.isAdjacent, Cursor.kind?, hpts.rest, List.cons_append, List.head?_cons,
      Option.map_some, Option.some.injEq, beq_iff_eq] at hadjacent hc
    rw [hpts.stop] at hus
    exact ⟨_, hpts.trans hpus, .behindText hadjacent (hc ▸ hkind) hts hus, trivial⟩
  | glueEnd _ => exact ⟨[], .refl _, .glueEnd, trivial⟩
  | @literal t rest n n' c c' hc hn hcall hflavors =>
    obtain ⟨fs, hfs, rfl, hpfs⟩ := exists_withFlavors hflavors
    have ht : t.Lexed := hlexed t (hc ▸ List.mem_cons_self)
    refine ⟨_, .cons hc hpfs, .literal (isLiteral_of_literal? ht hn) hfs, ?_⟩
    rintro _ heq hword
    obtain ⟨rfl, rfl⟩ := List.cons.inj heq
    have hc' : c' = ⟨rest, t.span.stop⟩ := by
      obtain ⟨ts', p'⟩ := c'
      obtain ⟨hrest, hstop⟩ := hpfs
      cases hrest
      cases hstop
      rfl
    rw [hc']
    exact hcall hword
  | @callEmpty t rest n' c c' hc hkind hcall hempty hflavors =>
    obtain ⟨o, rest', rfl, hopen, hadjacent, hskip⟩ := Cursor.exists_of_opensCall hcall
    rw [hskip] at hempty hflavors
    obtain ⟨close, hclose, hpclose⟩ := Cursor.Passes.of_isAt hempty
    obtain ⟨fs, hfs, rfl, hpfs⟩ := exists_withFlavors hflavors
    exact ⟨_, .cons hc (.cons rfl (hpclose.trans hpfs)),
      .callEmpty hkind hopen hadjacent hclose hfs, Piece.guarded_cons_cons _ _ _ _ _⟩
  | @call t rest arguments n' c c₁ c' hc hkind hcall hsome hlist hclose hflavors ihlist =>
    obtain ⟨o, rest', rfl, hopen, hadjacent, hskip⟩ := Cursor.exists_of_opensCall hcall
    rw [hskip] at ihlist
    have hpo : c.Passes [t, o] ⟨rest', o.span.stop⟩ := .cons hc (.cons rfl (.refl _))
    obtain ⟨ts, hpts, hts, -⟩ := ihlist (hpo.forall_mem hlexed)
    obtain ⟨close, hclose, hpclose⟩ := Cursor.Passes.of_isAt hclose
    obtain ⟨fs, hfs, rfl, hpfs⟩ := exists_withFlavors hflavors
    exact ⟨_, hpo.trans (hpts.trans (hpclose.trans hpfs)),
      .call hkind hopen hadjacent hts hclose hfs, Piece.guarded_cons_cons _ _ _ _ _⟩
  | @group t rest inner n' c c₁ c' hc hkind hinner hclose hflavors ihinner =>
    have hpo : c.Passes [t] ⟨rest, t.span.stop⟩ := .cons hc (.refl _)
    obtain ⟨ts, hpts, hts, -⟩ := ihinner (hpo.forall_mem hlexed)
    obtain ⟨close, hclose, hpclose⟩ := Cursor.Passes.of_isAt hclose
    obtain ⟨fs, hfs, rfl, hpfs⟩ := exists_withFlavors hflavors
    refine ⟨_, hpo.trans (hpts.trans (hpclose.trans hpfs)), .group hkind hts hclose hfs, ?_⟩
    rintro u heq hword
    obtain ⟨rfl, -⟩ := List.cons.inj heq
    rw [hkind] at hword
    cases hword
  | @pool t closing rest after items ms n' c c₁ c' hc hkind hsome hlist hclosing hclose hms hflavors
      ihlist =>
    have hpo : c.Passes [t] ⟨rest, t.span.stop⟩ := .cons hc (.refl _)
    obtain ⟨ts, hpts, hts, -⟩ := ihlist (hpo.forall_mem hlexed)
    obtain ⟨fs, hfs, rfl, hpfs⟩ := exists_withFlavors hflavors
    refine ⟨_, hpo.trans (hpts.trans (.cons hclosing hpfs)), .pool hkind hts hclose hms hfs, ?_⟩
    rintro u heq hword
    obtain ⟨rfl, -⟩ := List.cons.inj heq
    rw [hkind] at hword
    cases hword
  | listLast hs hcomma ihs =>
    obtain ⟨ts, hpts, hts, -⟩ := ihs hlexed
    exact ⟨ts, hpts, .listLast hts, trivial⟩
  | @listMore s more c c₁ c₂ hs hcomma hmore ihs ihmore =>
    obtain ⟨ts, hpts, hts, -⟩ := ihs hlexed
    obtain ⟨comma, hkind, hpcomma⟩ := Cursor.Passes.of_isAt hcomma
    obtain ⟨us, hpus, hus, -⟩ := ihmore ((hpts.trans hpcomma).forall_mem hlexed)
    rw [hpcomma.stop] at hus
    exact ⟨_, hpts.trans (hpcomma.trans hpus), .listMore hts hkind hus, trivial⟩
  | @sub nodes c c₁ hnodes ihnodes =>
    obtain ⟨ts, hpts, hts, -⟩ := ihnodes hlexed
    rw [hpts.stop]
    exact ⟨ts, hpts, .sub hts, trivial⟩

/-! ## What may follow -/

namespace TokenKind

/-- Whether a list of formulas may end before a token of a class. -/
def endsList : TokenKind → Bool
  | rightParen | rightBrace => true
  | _ => false

/-- Whether a formula may end before a token of a class. -/
def endsExpression (kind : TokenKind) : Bool := kind.endsList || kind == comma

/-- Whether an operand may end before a token of a class. -/
def endsOperand (kind : TokenKind) : Bool :=
  kind.endsExpression || kind.isSign || kind.product?.isSome

theorem endsExpression_of_endsList {kind : TokenKind} (h : kind.endsList = true) :
    kind.endsExpression = true := by
  rw [endsExpression, h, Bool.true_or]

theorem isSign_of_opensAtom {kind : TokenKind} : kind.opensAtom = true → kind.isSign = false := by
  cases kind <;> decide

theorem isFlavor_of_endsOperand {kind : TokenKind} :
    kind.endsOperand = true → kind.isFlavor = false := by
  cases kind <;> decide

theorem isFlavor_of_glued {kind : TokenKind} :
    kind.isFragment = true ∨ kind.isBehindText = true → kind.isFlavor = false := by
  cases kind <;> decide

end TokenKind

/-- Tokens that begin with one of a class, or that are none at all. -/
def Begins (q : TokenKind → Bool) (ts : List Token) : Prop :=
  ∀ t rest, ts = t :: rest → q t.kind = true

theorem Begins.mono {q q' : TokenKind → Bool} {ts : List Token} (h : Begins q ts)
    (hq : ∀ kind, q kind = true → q' kind = true) : Begins q' ts :=
  fun t rest heq => hq t.kind (h t rest heq)

theorem Begins.avoids {q q' : TokenKind → Bool} {ts : List Token} (h : Begins q ts)
    (hq : ∀ kind, q kind = true → q' kind = false) : Avoids q' ts :=
  fun t rest heq => hq t.kind (h t rest heq)

/-- What may follow a piece that is made of tokens, for it to end there. -/
def Piece.Follows : Piece → List Token → Cursor → Prop
  | .expression _, _, c | .rest _, _, c | .sub _, _, c => Begins TokenKind.endsExpression c.rest
  | .operand _, _, c | .glue _ _, _, c => Begins TokenKind.endsOperand c.rest
  | .list _, _, c => Begins TokenKind.endsList c.rest
  | .atom n, ts, c => Avoids TokenKind.isFlavor c.rest ∧ (Piece.atom n).Guarded ts c

section

variable {greedy : Bool} {p : Nat} {ts rest : List Token}

theorem Derives.atom_head {n : Node} (h : Derives source greedy (.atom n) p ts) :
    ∃ t more, ts = t :: more ∧ t.kind.opensAtom = true := by
  cases h with
  | literal hn _ =>
    refine ⟨_, _, rfl, ?_⟩
    cases hn with
    | number _ | dice _ _ _ _ => rfl
    | fragment hkind => rcases hkind with hkind | hkind | hkind <;> rw [hkind] <;> rfl
  | callEmpty hname _ _ _ _ => exact ⟨_, _, rfl, by rw [hname]; rfl⟩
  | call hname _ _ _ _ _ => exact ⟨_, _, rfl, by rw [hname]; rfl⟩
  | group hopen _ _ _ => exact ⟨_, _, rfl, by rw [hopen]; rfl⟩
  | pool hopen _ _ _ _ => exact ⟨_, _, rfl, by rw [hopen]; rfl⟩

theorem Derives.operand_head {n : Node} (h : Derives source greedy (.operand n) p ts) :
    ∃ t more, ts = t :: more ∧ t.kind.opensAtom = true := by
  cases h with
  | operand hfirst _ _ =>
    obtain ⟨t, more, rfl, ht⟩ := hfirst.atom_head
    exact ⟨t, _, rfl, ht⟩

theorem Derives.list_head {subs : List SubFormula} (h : Derives source greedy (.list subs) p ts) :
    ∃ t more, ts = t :: more ∧ (t.kind.isSign || t.kind.opensAtom) = true := by
  have hsub : ∀ {s : SubFormula} {us : List Token}, Derives source greedy (.sub s) p us →
      ∃ t more, us = t :: more ∧ (t.kind.isSign || t.kind.opensAtom) = true := by
    rintro s us ⟨⟩
    rename_i hnodes
    cases hnodes with
    | @expression ss _ _ _ _ _ hsigns hn _ =>
      obtain _ | ⟨s, ss⟩ := ss
      · obtain ⟨t, more, rfl, ht⟩ := hn.operand_head
        exact ⟨t, _, rfl, by rw [ht, Bool.or_true]⟩
      · exact ⟨s, _, rfl, by rw [hsigns s List.mem_cons_self, Bool.true_or]⟩
  cases h with
  | listLast hs => exact hsub hs
  | listMore hs _ _ =>
    obtain ⟨t, more, rfl, ht⟩ := hsub hs
    exact ⟨t, _, rfl, ht⟩

/-- An operand begins with no sign. -/
theorem Derives.avoids_sign {n : Node} (h : Derives source greedy (.operand n) p ts) :
    Avoids TokenKind.isSign (ts ++ rest) := by
  obtain ⟨t, more, rfl, ht⟩ := h.operand_head
  rintro _ _ heq
  obtain ⟨rfl, -⟩ := List.cons.inj heq
  exact TokenKind.isSign_of_opensAtom ht

/-- What follows an operand begins so that the operand ends before it. -/
theorem Derives.begins_rest {ns : List Node} (h : Derives source greedy (.rest ns) p ts)
    (hrest : Begins TokenKind.endsExpression rest) : Begins TokenKind.endsOperand (ts ++ rest) := by
  cases h with
  | restEnd => exact hrest.mono fun kind hkind => by simp [TokenKind.endsOperand, hkind]
  | @restSum ss _ _ _ _ _ _ hsigns hop _ _ =>
    obtain _ | ⟨s, ss⟩ := ss
    · cases hop
    · rintro _ _ heq
      obtain ⟨rfl, -⟩ := List.cons.inj heq
      simp [TokenKind.endsOperand, hsigns s List.mem_cons_self]
  | restProduct hop _ _ _ =>
    rintro _ _ heq
    obtain ⟨rfl, -⟩ := List.cons.inj heq
    simp [TokenKind.endsOperand, hop]

/-- What follows an atom begins with no flavor. -/
theorem Derives.avoids_flavor {b : Bool} {parts : List Node}
    (h : Derives source greedy (.glue b parts) p ts) (hrest : Begins TokenKind.endsOperand rest) :
    Avoids TokenKind.isFlavor (ts ++ rest) := by
  obtain rfl | ⟨t, more, rfl, -, hkind⟩ := h.glue_head
  · exact hrest.avoids fun kind => TokenKind.isFlavor_of_endsOperand
  · rintro _ _ heq
    obtain ⟨rfl, -⟩ := List.cons.inj heq
    exact TokenKind.isFlavor_of_glued hkind

end

/-! ## What is derived is read -/

theorem signs_of_avoids {rest : List Token} (h : Avoids TokenKind.isSign rest) (p : Nat) :
    signs ⟨rest, p⟩ = (none, ⟨rest, p⟩) := @signs_append [] rest nofun h p

/-- Nothing is glued to an operand that ends. -/
theorem glues_of_endsOperand {rest : List Token} (h : Begins TokenKind.endsOperand rest)
    (b : Bool) (p : Nat) : Cursor.glues b ⟨rest, p⟩ = false := by
  cases rest with
  | nil => rfl
  | cons t rest =>
    have ht := h t rest rfl
    have hkind : (t.kind.isFragment || (b && t.kind.isBehindText)) = false := by
      revert ht
      cases b <;> cases t.kind <;> decide
    simp only [Cursor.glues, Cursor.kind?, List.head?_cons, Option.map_some, hkind, Bool.and_false]

theorem restEnd_of_endsExpression {rest : List Token}
    (h : Begins TokenKind.endsExpression rest) (p : Nat) :
    Reads source (.rest []) ⟨rest, p⟩ ⟨rest, p⟩ := by
  refine .restEnd ?_ ?_
  · rw [signs_of_avoids]
    exact h.avoids fun kind => by cases kind <;> decide
  · cases rest with
    | nil => rfl
    | cons t rest =>
      have ht := h t rest rfl
      show t.kind.operator? = none
      revert ht
      cases t.kind <;> decide

theorem begins_cons {q : TokenKind → Bool} {t : Token} {rest : List Token}
    (h : q t.kind = true) : Begins q (t :: rest) := by
  rintro _ _ heq
  obtain ⟨rfl, -⟩ := List.cons.inj heq
  exact h

/-- A list of formulas begins with no closing bracket. -/
theorem Derives.isAt_of_endsList {greedy : Bool} {subs : List SubFormula} {p : Nat}
    {ts rest : List Token} (h : Derives source greedy (.list subs) p ts) {kind : TokenKind}
    (hkind : kind.endsList = true) (q : Nat) : Cursor.isAt ⟨ts ++ rest, q⟩ kind = false := by
  obtain ⟨t, more, rfl, ht⟩ := h.list_head
  refine beq_eq_false_iff_ne.mpr fun heq => ?_
  have heq : t.kind = kind := Option.some.inj heq
  rw [heq] at ht
  revert ht hkind
  cases kind <;> decide

/-- What is derived is read, where it may end. -/
theorem Derives.reads {piece : Piece} {p : Nat} {ts : List Token}
    (h : Derives source true piece p ts) {rest : List Token}
    (hf : piece.Follows ts ⟨rest, endOf p ts⟩) :
    Reads source piece ⟨ts ++ rest, p⟩ ⟨rest, endOf p ts⟩ := by
  induction h generalizing rest with
  | @expression ss ts us n ns p hsigns hn hns ihn ihns =>
    simp only [endOf_append, List.append_assoc] at hf ⊢
    rw [← signed_signOf]
    exact .expression (signs_append hsigns hn.avoids_sign p) (ihn (hns.begins_rest hf)) (ihns hf)
  | @restSum ss ts us op n ns p hsigns hop hn hns ihn ihns =>
    simp only [endOf_append, List.append_assoc] at hf ⊢
    refine .restSum ?_ (ihn (hns.begins_rest hf)) (ihns hf)
    rw [signs_append hsigns hn.avoids_sign, hop]
  | @restProduct t ss ts us op n ns p hop hsigns hn hns ihn ihns =>
    simp only [endOf, endOf_append, List.cons_append, List.append_assoc] at hf ⊢
    have ht : t.kind.isSign = false := by
      cases hkind : t.kind <;> first | rfl | (rw [hkind] at hop; cases hop)
    rw [← signed_signOf]
    refine .restProduct ?_ ?_ (signs_append hsigns hn.avoids_sign t.span.stop)
      (ihn (hns.begins_rest hf)) (ihns hf)
    · rw [signs_of_avoids]
      rintro _ _ heq
      obtain ⟨rfl, -⟩ := List.cons.inj heq
      exact ht
    · exact (TokenKind.operator?_of_not_sign ht).trans hop
  | restEnd => exact restEnd_of_endsExpression hf _
  | @operand ts us first more p hfirst hmore hcall ihfirst ihmore =>
    simp only [endOf_append, List.append_assoc] at hf ⊢
    refine .operand (ihfirst ⟨hmore.avoids_flavor hf, ?_⟩) (ihmore hf)
    rintro t rfl hword
    -- a parenthesis right behind the word would begin what is glued to it
    obtain rfl | ⟨u, rest', rfl, -, -⟩ := hmore.glue_head
    · cases rest with
      | nil => rfl
      | cons u rest =>
        have hu : (u.kind == .leftParen) = false := by
          have hends := hf u rest rfl
          revert hends
          cases u.kind <;> decide
        simp [Cursor.opensCall, Cursor.isAt, Cursor.kind?, hu]
    · have hu : u.kind ≠ .leftParen := fun hopen =>
        hcall rfl ⟨t, u, rest', rfl, hword, rfl, hopen⟩
      simp [Cursor.opensCall, Cursor.isAt, Cursor.kind?, hu]
  | @fragment b t fs us more p hadjacent hkind hfs hmore ihmore =>
    simp only [endOf, endOf_append, List.cons_append, List.append_assoc] at hf ⊢
    exact .fragment (beq_iff_eq.mpr hadjacent) rfl hkind
      (withFlavors_append hfs (hmore.avoids_flavor hf) _ _) (ihmore hf)
  | @behindText t ts us part more p hadjacent hkind hpart hmore ihpart ihmore =>
    simp only [endOf_append, List.append_assoc] at hf ⊢
    refine .behindText (beq_iff_eq.mpr hadjacent) rfl hkind
      (ihpart ⟨hmore.avoids_flavor hf, ?_⟩) (ihmore hf)
    rintro u heq hword
    obtain ⟨rfl, -⟩ := List.cons.inj heq
    rw [hword] at hkind
    cases hkind
  | glueEnd => exact .glueEnd (glues_of_endsOperand hf _ _)
  | @literal t fs n p hn hfs =>
    refine .literal rfl hn.literal? ?_ (withFlavors_append hfs hf.1 n t.span.stop)
    intro hword
    obtain _ | ⟨f, fs⟩ := fs
    · exact hf.2 t rfl hword
    · have hflavor := hfs f List.mem_cons_self
      simp [Cursor.opensCall, Cursor.isAt, Cursor.kind?, hflavor]
  | @callEmpty t o c fs p hname hopen hadjacent hclose hfs =>
    refine .callEmpty rfl hname ?_ ?_ (withFlavors_append hfs hf.1 _ c.span.stop)
    · simp [Cursor.opensCall, Cursor.isAdjacent, Cursor.isAt, Cursor.kind?, hopen, hadjacent]
    · simp [Cursor.isAt, Cursor.kind?, Cursor.skip, hclose]
  | @call t o c ts fs arguments p hname hopen hadjacent hlist hclose hfs ihlist =>
    simp only [endOf, endOf_append, List.cons_append, List.append_assoc] at hf ⊢
    refine .call rfl hname ?_ (hlist.isAt_of_endsList rfl o.span.stop) (ihlist ?_) ?_
      (withFlavors_append hfs hf.1 _ c.span.stop)
    · simp [Cursor.opensCall, Cursor.isAdjacent, Cursor.isAt, Cursor.kind?, hopen, hadjacent]
    · exact begins_cons (by rw [hclose]; rfl)
    · exact beq_iff_eq.mpr (congrArg some hclose)
  | @group o c ts fs inner p hopen hinner hclose hfs ihinner =>
    simp only [endOf, endOf_append, List.cons_append, List.append_assoc] at hf ⊢
    refine .group rfl hopen (ihinner ?_) ?_ (withFlavors_append hfs hf.1 _ c.span.stop)
    · exact begins_cons (by rw [hclose]; rfl)
    · exact beq_iff_eq.mpr (congrArg some hclose)
  | @pool o c ts fs items ms p hopen hlist hclose hms hfs ihlist =>
    simp only [endOf, endOf_append, List.cons_append, List.append_assoc] at hf ⊢
    refine .pool rfl hopen (hlist.isAt_of_endsList rfl o.span.stop) (ihlist ?_) rfl hclose hms
      (withFlavors_append hfs hf.1 _ c.span.stop)
    exact begins_cons (by rw [hclose]; rfl)
  | @listLast ts s p hs ihs =>
    refine .listLast (ihs (hf.mono fun kind => TokenKind.endsExpression_of_endsList)) ?_
    cases rest with
    | nil => rfl
    | cons t rest =>
      have ht := hf t rest rfl
      refine beq_eq_false_iff_ne.mpr fun heq => ?_
      have heq : t.kind = .comma := Option.some.inj heq
      rw [heq] at ht
      cases ht
  | @listMore c ts us s more p hs hcomma hmore ihs ihmore =>
    simp only [endOf, endOf_append, List.cons_append, List.append_assoc] at hf ⊢
    refine .listMore (ihs (begins_cons (by rw [hcomma]; rfl))) ?_ (ihmore hf)
    exact beq_iff_eq.mpr (congrArg some hcomma)
  | @sub ts nodes p hnodes ihnodes =>
    exact @Reads.sub source nodes ⟨ts ++ rest, p⟩ ⟨rest, endOf p ts⟩ (ihnodes hf)

/-! ## Words before parentheses -/

/-- A piece of the same sort as another is made of tokens, where a word before a parenthesis
    is the name of a function. -/
def Piece.Derivable (source : List Char) (p : Nat) (ts : List Token) : Piece → Prop
  | .expression _ => ∃ nodes, Derives source true (.expression nodes) p ts
  | .rest _ => ∃ nodes, Derives source true (.rest nodes) p ts
  | .operand _ => ∃ n, Derives source true (.operand n) p ts
  | .glue b _ => ∃ parts, Derives source true (.glue b parts) p ts
  | .atom n => ∃ n', n'.isText = n.isText ∧ Derives source true (.atom n') p ts
  | .list _ => ∃ subs, Derives source true (.list subs) p ts
  | .sub _ => ∃ s, Derives source true (.sub s) p ts

theorem Node.isText_flavored (n : Node) (fs : List Token) :
    (n.flavored fs).isText = (n.isText && fs.isEmpty) := by
  cases fs with
  | nil => exact (Bool.and_true _).symm
  | cons f fs => exact (Bool.and_false _).symm

/-- A group behind a word is the argument of a call. -/
theorem Derives.call_of_glue {t o : Token} {p : Nat} {us : List Token} {b : Bool}
    {parts : List Node} (hname : t.kind = .identifier) (hopen : o.kind = .leftParen)
    (h : Derives source true (.glue b parts) t.span.stop (o :: us)) :
    ∃ n, Derives source true (.operand n) p (t :: o :: us) := by
  cases h with
  | fragment _ hkind _ _ =>
    rw [hopen] at hkind
    cases hkind
  | @behindText _ ts us part more _ hadjacent hkind hpart hmore =>
    cases hpart with
    | @group _ c ts fs inner _ _ hinner hclose hfs =>
      have hcall := @Derives.call source true t o c ts fs [inner] p hname hopen hadjacent
        (.listLast hinner) hclose hfs
      have hmore' : Derives source true
          (.glue ((Node.function (String.ofList t.text) [inner]).flavored fs).isText more)
          (endOf p (t :: o :: (ts ++ c :: fs))) us := by
        rw [Node.isText_flavored] at hmore ⊢
        exact hmore
      refine ⟨_, .operand hcall hmore' fun _ => ?_⟩
      rintro ⟨u, _, _, heq, -⟩
      cases heq
    | literal hn _ =>
      cases hn with
      | number _ | dice _ _ _ _ => cases hopen
      | fragment hkind => rcases hkind with hkind | hkind | hkind <;> cases hopen.symm.trans hkind
    | callEmpty hkind _ _ _ _ | call hkind _ _ _ _ _ | pool hkind _ _ _ _ =>
      cases hopen.symm.trans hkind

/-- What is derived in some way is derived with the names of functions preferred. -/
theorem Derives.derivable {greedy : Bool} {piece : Piece} {p : Nat} {ts : List Token}
    (h : Derives source greedy piece p ts) : piece.Derivable source p ts := by
  induction h with
  | expression hsigns _ _ ihn ihns =>
    obtain ⟨n, hn⟩ := ihn
    obtain ⟨ns, hns⟩ := ihns
    exact ⟨_, .expression hsigns hn hns⟩
  | restSum hsigns hop _ _ ihn ihns =>
    obtain ⟨n, hn⟩ := ihn
    obtain ⟨ns, hns⟩ := ihns
    exact ⟨_, .restSum hsigns hop hn hns⟩
  | restProduct hop hsigns _ _ ihn ihns =>
    obtain ⟨n, hn⟩ := ihn
    obtain ⟨ns, hns⟩ := ihns
    exact ⟨_, .restProduct hop hsigns hn hns⟩
  | restEnd => exact ⟨[], .restEnd⟩
  | @operand ts us first more p _ _ _ ihfirst ihmore =>
    obtain ⟨first', htext, hfirst⟩ := ihfirst
    obtain ⟨parts, hparts⟩ := ihmore
    rw [← htext] at hparts
    by_cases hcall : IsCallHead ts us
    · obtain ⟨t, o, rest, rfl, hname, rfl, hopen⟩ := hcall
      exact hparts.call_of_glue hname hopen
    · exact ⟨_, .operand hfirst hparts fun _ => hcall⟩
  | fragment hadjacent hkind hfs _ ihmore =>
    obtain ⟨parts, hparts⟩ := ihmore
    exact ⟨_, .fragment hadjacent hkind hfs hparts⟩
  | behindText hadjacent hkind _ _ ihpart ihmore =>
    obtain ⟨part', htext, hpart⟩ := ihpart
    obtain ⟨parts, hparts⟩ := ihmore
    rw [← htext] at hparts
    exact ⟨_, .behindText hadjacent hkind hpart hparts⟩
  | glueEnd => exact ⟨[], .glueEnd⟩
  | literal hn hfs => exact ⟨_, rfl, .literal hn hfs⟩
  | callEmpty hname hopen hadjacent hclose hfs =>
    exact ⟨_, rfl, .callEmpty hname hopen hadjacent hclose hfs⟩
  | call hname hopen hadjacent _ hclose hfs ihlist =>
    obtain ⟨subs, hsubs⟩ := ihlist
    refine ⟨_, ?_, .call hname hopen hadjacent hsubs hclose hfs⟩
    rw [Node.isText_flavored, Node.isText_flavored]
    rfl
  | group hopen _ hclose hfs ihinner =>
    obtain ⟨s, hs⟩ := ihinner
    refine ⟨_, ?_, .group hopen hs hclose hfs⟩
    rw [Node.isText_flavored, Node.isText_flavored]
    rfl
  | pool hopen _ hclose hms hfs ihlist =>
    obtain ⟨subs, hsubs⟩ := ihlist
    refine ⟨_, ?_, .pool hopen hsubs hclose hms hfs⟩
    rw [Node.isText_flavored, Node.isText_flavored]
    rfl
  | listLast _ ihs =>
    obtain ⟨s, hs⟩ := ihs
    exact ⟨_, .listLast hs⟩
  | listMore _ hcomma _ ihs ihmore =>
    obtain ⟨s, hs⟩ := ihs
    obtain ⟨more, hmore⟩ := ihmore
    exact ⟨_, .listMore hs hcomma hmore⟩
  | sub _ ihnodes =>
    obtain ⟨nodes, hnodes⟩ := ihnodes
    exact ⟨_, .sub hnodes⟩

theorem Derives.lenient {greedy : Bool} {piece : Piece} {p : Nat} {ts : List Token}
    (h : Derives source greedy piece p ts) : Derives source false piece p ts := by
  induction h with
  | expression hsigns _ _ ihn ihns => exact .expression hsigns ihn ihns
  | restSum hsigns hop _ _ ihn ihns => exact .restSum hsigns hop ihn ihns
  | restProduct hop hsigns _ _ ihn ihns => exact .restProduct hop hsigns ihn ihns
  | restEnd => exact .restEnd
  | operand _ _ _ ihfirst ihmore => exact .operand ihfirst ihmore nofun
  | fragment hadjacent hkind hfs _ ihmore => exact .fragment hadjacent hkind hfs ihmore
  | behindText hadjacent hkind _ _ ihpart ihmore =>
    exact .behindText hadjacent hkind ihpart ihmore
  | glueEnd => exact .glueEnd
  | literal hn hfs => exact .literal hn hfs
  | callEmpty hname hopen hadjacent hclose hfs =>
    exact .callEmpty hname hopen hadjacent hclose hfs
  | call hname hopen hadjacent _ hclose hfs ihlist =>
    exact .call hname hopen hadjacent ihlist hclose hfs
  | group hopen _ hclose hfs ihinner => exact .group hopen ihinner hclose hfs
  | pool hopen _ hclose hms hfs ihlist => exact .pool hopen ihlist hclose hms hfs
  | listLast _ ihs => exact .listLast ihs
  | listMore _ hcomma _ ihs ihmore => exact .listMore ihs hcomma ihmore
  | sub _ ihnodes => exact .sub ihnodes

/-! ## Whole texts -/

theorem derives_of_reads {nodes : List Node} {c : Cursor}
    (h : Reads source (.expression nodes) ⟨tokens source, 0⟩ c) (hc : c.rest = []) :
    Derives source true (.expression nodes) 0 (tokens source) := by
  obtain ⟨ts, hpasses, hts, -⟩ := h.derives (lexed_tokens source)
  have hall : tokens source = ts := by
    rw [← List.append_nil ts, ← hc]
    exact hpasses.rest
  rw [hall]
  exact hts

theorem reads_of_derives {nodes : List Node}
    (h : Derives source true (.expression nodes) 0 (tokens source)) :
    ∃ c, Reads source (.expression nodes) ⟨tokens source, 0⟩ c ∧ c.rest = [] := by
  have hread := @Derives.reads source _ _ _ h [] nofun
  rw [List.append_nil] at hread
  exact ⟨_, hread, rfl⟩

/-- A text is a formula if the grammar derives its tokens, all of them; and its nodes are
    those of the derivation in which a word before a parenthesis is the name of a
    function. -/
theorem parse_eq_ok_iff_derives (formula : String) :
    ((∃ nodes, parse formula = .ok nodes) ↔ ∃ nodes,
      Derives formula.toList false (.expression nodes) 0 (tokens formula.toList)) ∧
    ∀ nodes, parse formula = .ok nodes ↔
      Derives formula.toList true (.expression nodes) 0 (tokens formula.toList) := by
  have hnodes : ∀ nodes, parse formula = .ok nodes ↔
      Derives formula.toList true (.expression nodes) 0 (tokens formula.toList) :=
    fun nodes => parseChars_eq_ok.trans
      ⟨fun ⟨_, hread, hc⟩ => derives_of_reads hread hc, reads_of_derives⟩
  refine ⟨⟨fun ⟨nodes, h⟩ => ⟨nodes, ((hnodes nodes).mp h).lenient⟩, fun ⟨nodes, h⟩ => ?_⟩, hnodes⟩
  obtain ⟨nodes, h⟩ := h.derivable
  exact ⟨nodes, (hnodes nodes).mpr h⟩

end DiceNotation.Formula
