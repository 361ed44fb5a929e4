/-
  DiceNotation.Proofs.Record.RoundTrip

  Records and rolls, there and back.

  A roll that can be come by is read from its own record again, as it is
  (`Roll.Storable.ofRecord_toRecord`). The other way round, a record is refused for
  exactly the faults that `RollRecord.Faulty` lists, at any depth; and a record that
  is read is written again as it was, but with the totals that it left out
  (`RollRecord.judged_ofRecord`). `Judged` says both of one reading, with one rule
  for each way to build one.
-/

import DiceNotation.Proofs.Record.Storable
import DiceNotation.Record.Basic

namespace DiceNotation

open Formula

/-! ## Reading what was written -/

theorem Modifier.ofTexts_text {f : Modifier.Family} {ms : List Modifier}
    (h : ∀ m ∈ ms, m.IsOf f) : Modifier.ofTexts f (ms.map (·.text)) = .ok ms := by
  have hchunks : Modifier.ofChunks f ((ms.map (·.text)).map String.toList) = .ok ms :=
    Modifier.ofChunks_eq_ok_iff.mpr ⟨List.map_map, h⟩
  rw [Modifier.ofTexts, hchunks]
  rfl

theorem Dice.WellMade.ofRecord_toRecord {d : Dice} (h : d.WellMade) :
    Term.ofRecord d.toRecord = .ok (.dice d) := by
  obtain ⟨number, denomination, modifiers, results, annotations, evaluated⟩ := d
  have hfaces : denomination.faces ≠ 0 := Nat.pos_iff_ne_zero.mp h.faces
  have hread : Dice.ofRecord number denomination
      ⟨modifiers.map (·.text), results, annotations, evaluated⟩ =
      .ok ⟨number, denomination, modifiers, results, annotations, evaluated⟩ := by
    simp only [Dice.ofRecord, hfaces, if_false, Modifier.ofTexts_text h.modifiers]
    rfl
  cases denomination with
  | die faces | coin | fate =>
    rw [Dice.toRecord, Term.ofRecord, hread]
    rfl

theorem Term.ofRecords_recordsOf {ts : List Term}
    (h : ∀ t ∈ ts, Term.ofRecord t.toRecord = .ok t) :
    Term.ofRecords (Term.recordsOf ts) = .ok ts := by
  induction ts with
  | nil => rw [Term.recordsOf, Term.ofRecords]
  | cons t rest ih =>
    obtain ⟨ht, hrest⟩ := List.forall_mem_cons.mp h
    rw [Term.recordsOf, Term.ofRecords, ht, ok_bind, ih hrest]
    rfl

theorem Roll.ofRecords_recordsOf {rs : List Roll}
    (h : ∀ r ∈ rs, Roll.ofRecord r.toRecord = .ok r) :
    Roll.ofRecords (Roll.recordsOf rs) = .ok rs := by
  induction rs with
  | nil => rw [Roll.recordsOf, Roll.ofRecords]
  | cons r rest ih =>
    obtain ⟨hr, hrest⟩ := List.forall_mem_cons.mp h
    rw [Roll.recordsOf, Roll.ofRecords, hr, ok_bind, ih hrest]
    rfl

theorem Term.diceOfRecords_toRecord {ds : List Dice} (h : ∀ d ∈ ds, d.WellMade) :
    Term.diceOfRecords (ds.map Dice.toRecord) = .ok ds := by
  induction ds with
  | nil => rw [List.map_nil, Term.diceOfRecords]
  | cons d rest ih =>
    obtain ⟨hd, hrest⟩ := List.forall_mem_cons.mp h
    rw [List.map_cons, Term.diceOfRecords, hd.ofRecord_toRecord, ok_bind]
    simp only [ih hrest]
    rfl

theorem Term.WellMade.ofRecord_toRecord {t : Term} (h : t.WellMade)
    (hrolls : ∀ r ∈ t.rolls, Roll.ofRecord r.toRecord = .ok r) :
    Term.ofRecord t.toRecord = .ok t := by
  cases t with
  | numeric | operator | text => rw [Term.toRecord, Term.ofRecord]
  | dice d =>
    rw [Term.toRecord]
    exact Dice.WellMade.ofRecord_toRecord h
  | pool p rolls =>
    have hread : Roll.ofRecords (Roll.recordsOf rolls) = .ok rolls :=
      Roll.ofRecords_recordsOf hrolls
    rw [Term.toRecord, Term.ofRecord, hread, ok_bind, Modifier.ofTexts_text h]
    rfl
  | function name texts rolls result a =>
    have hread : Roll.ofRecords (Roll.recordsOf rolls) = .ok rolls :=
      Roll.ofRecords_recordsOf hrolls
    rw [Term.toRecord, Term.ofRecord, hread]
    rfl
  | parenthetical text roll a =>
    rw [Term.toRecord, Term.ofRecord, hrolls roll (List.mem_singleton_self roll)]
    rfl

/-- A storable roll is read from its record as it is. -/
theorem Roll.Storable.ofRecord_toRecord {r : Roll} (h : r.Storable) :
    Roll.ofRecord r.toRecord = .ok r := by
  induction h with
  | @mk r hterms hrolls hcollapsed htotal ih =>
    have hread : Term.ofRecords (Term.recordsOf r.terms) = .ok r.terms :=
      Term.ofRecords_recordsOf fun t ht => (hterms t ht).ofRecord_toRecord (ih t ht)
    have hheld := Term.diceOfRecords_toRecord hcollapsed
    obtain ⟨formula, data, annotations, terms, total, evaluated, collapsed⟩ := r
    have hkept : (evaluated && total.isNone) = false := by
      cases evaluated with
      | false => rfl
      | true =>
        obtain ⟨n, rfl⟩ := htotal rfl
        rfl
    rw [Roll.toRecord, Roll.ofRecord]
    simp only [ne_eq, not_true_eq_false, if_false, hread, hheld, ok_bind, hkept,
      Bool.false_eq_true]
    rfl

/-! ## Faults of records -/

/-- A text among those of modifiers that a family does not take. -/
def ResultsRecord.Misread (held : ResultsRecord) (f : Modifier.Family) : Prop :=
  ∃ text ∈ held.modifiers, Modifier.ofText? f text = none

namespace TermRecord

/-- The records of the rolls inside a term. -/
def rolls : TermRecord → List RollRecord
  | pool _ rolls _ | function _ _ rolls _ _ => rolls
  | parenthetical _ roll _ => [roll]
  | _ => []

/-- Whether a term is dice. -/
def isDice : TermRecord → Bool
  | die _ _ _ | coin _ _ | fateDie _ _ => true
  | _ => false

/-- The record of a term that is refused, apart from the rolls inside it: a die without
    faces, or a modifier that its set does not accept. -/
def Flawed : TermRecord → Prop
  | die _ faces held => faces = 0 ∨ held.Misread (.ofDenomination (.die faces))
  | coin _ held => held.Misread (.ofDenomination .coin)
  | fateDie _ held => held.Misread (.ofDenomination .fate)
  | pool _ _ held => held.Misread .pool
  | _ => False

/-- The total of terms, if they can be read and have one. -/
def totalOf? (formula : String) (terms : List TermRecord) : Option Number :=
  (Term.ofRecords terms >>= Term.totalOf formula).toOption

end TermRecord

/-- The record of a roll that is refused, for what it is itself or for something inside
    it. -/
inductive RollRecord.Faulty : RollRecord → Prop where
  | className {d : RollRecord} (h : d.className ≠ rollClass) : Faulty d
  | term {d : RollRecord} {t : TermRecord} (ht : t ∈ d.terms ∨ t ∈ d.dice) (h : t.Flawed) :
      Faulty d
  | notDice {d : RollRecord} {t : TermRecord} (ht : t ∈ d.dice) (h : t.isDice = false) : Faulty d
  /-- The total of an evaluated roll was left out and cannot be had from its terms. -/
  | total {d : RollRecord} (hevaluated : d.evaluated = true) (htotal : d.total = none)
      (h : TermRecord.totalOf? d.formula d.terms = none) : Faulty d
  | inner {d r : RollRecord} {t : TermRecord} (ht : t ∈ d.terms ∨ t ∈ d.dice) (hr : r ∈ t.rolls)
      (h : Faulty r) : Faulty d

/-! ## Records with all totals -/

mutual

/-- A record in which no evaluated roll, at any depth, is without the total of its terms. -/
def RollRecord.completed : RollRecord → RollRecord
  | ⟨className, formula, data, annotations, terms, total, evaluated, dice⟩ =>
    ⟨className, formula, data, annotations, TermRecord.completedAll terms,
      if evaluated && total.isNone then TermRecord.totalOf? formula terms else total, evaluated,
      TermRecord.completedAll dice⟩

/-- The record of a term with all totals inside it. -/
def TermRecord.completed : TermRecord → TermRecord
  | .pool texts rolls held => .pool texts (RollRecord.completedAll rolls) held
  | .function name texts rolls result a =>
    .function name texts (RollRecord.completedAll rolls) result a
  | .parenthetical text roll a => .parenthetical text roll.completed a
  | t => t

/-- The records of terms with all totals inside them. -/
def TermRecord.completedAll : List TermRecord → List TermRecord
  | [] => []
  | t :: rest => t.completed :: TermRecord.completedAll rest

/-- The records of rolls with all totals. -/
def RollRecord.completedAll : List RollRecord → List RollRecord
  | [] => []
  | r :: rest => r.completed :: RollRecord.completedAll rest

end

/-- What holds of a record if it holds of those inside it holds of all records. -/
theorem RollRecord.induction {P : RollRecord → Prop}
    (h : ∀ d : RollRecord, (∀ t ∈ d.terms, ∀ r ∈ t.rolls, P r) →
      (∀ t ∈ d.dice, ∀ r ∈ t.rolls, P r) → P d) (d : RollRecord) : P d := by
  refine @RollRecord.rec P (fun t => ∀ r ∈ t.rolls, P r) (fun ts => ∀ t ∈ ts, ∀ r ∈ t.rolls, P r)
    (fun rs => ∀ r ∈ rs, P r) ?_ ?_ ?_ ?_ ?_ ?_ ?_ ?_ ?_ ?_ ?_ ?_ ?_ ?_ d
  · exact fun _ _ _ _ terms _ _ dice hterms hdice => h _ hterms hdice
  iterate 5
    exact nofun
  · exact fun _ _ _ hrolls => hrolls
  · exact fun _ _ _ _ _ hrolls => hrolls
  · exact fun _ _ _ hroll => List.forall_mem_singleton.mpr hroll
  · exact nofun
  · exact nofun
  · exact fun _ _ ht hrest => List.forall_mem_cons.mpr ⟨ht, hrest⟩
  · exact nofun
  · exact fun _ _ hr hrest => List.forall_mem_cons.mpr ⟨hr, hrest⟩

/-! ## Judgements -/

section

variable {α β ε ε' : Type}

/-- A reading that is refused exactly for a fault, and gives something good otherwise. -/
inductive Judged (x : Except ε α) (fault : Prop) (good : α → Prop) : Prop where
  | read (a : α) (h : x = .ok a) (hgood : good a) (hsound : ¬ fault)
  | refused (e : ε) (h : x = .error e) (hfault : fault)

variable {x : Except ε α} {fault fault' : Prop} {good : α → Prop} {good' : β → Prop}

theorem Judged.error_iff (h : Judged x fault good) : (∃ e, x = .error e) ↔ fault := by
  cases h with
  | read a hread hgood hsound =>
    exact ⟨fun ⟨_, he⟩ => (nomatch hread.symm.trans he), fun hfault => absurd hfault hsound⟩
  | refused e hrefused hfault => exact ⟨fun _ => hfault, fun _ => ⟨e, hrefused⟩⟩

theorem Judged.good_of_ok (h : Judged x fault good) {a : α} (ha : x = .ok a) : good a := by
  cases h with
  | read a' hread hgood hsound =>
    cases hread.symm.trans ha
    exact hgood
  | refused e hrefused hfault => cases hrefused.symm.trans ha

theorem Judged.congr (h : Judged x fault good) (hiff : fault ↔ fault') : Judged x fault' good := by
  rw [← hiff]
  exact h

theorem Judged.ok {a : α} (h : good a) : Judged (.ok a : Except ε α) False good :=
  .read a rfl h id

theorem Judged.error (e : ε) : Judged (.error e : Except ε α) True good := .refused e rfl trivial

/-- Of two readings in a row the second is only made if the first is not refused. -/
theorem Judged.bind {f : α → Except ε β} (h : Judged x fault good)
    (hf : ∀ a, x = .ok a → good a → Judged (f a) fault' good') :
    Judged (x >>= f) (fault ∨ fault') good' := by
  cases h with
  | read a hread hgood hsound =>
    subst hread
    exact (hf a rfl hgood).congr ⟨.inr, fun h => h.resolve_left hsound⟩
  | refused e hrefused hfault =>
    subst hrefused
    exact .refused e rfl (.inl hfault)

theorem Judged.map {f : α → β} (h : Judged x fault good) (hf : ∀ a, good a → good' (f a)) :
    Judged (f <$> x) fault good' := by
  cases h with
  | read a hread hgood hsound =>
    subst hread
    exact .read (f a) rfl (hf a hgood) hsound
  | refused e hrefused hfault =>
    subst hrefused
    exact .refused e rfl hfault

theorem Judged.mapError {f : ε → ε'} (h : Judged x fault good) :
    Judged (x.mapError f) fault good := by
  cases h with
  | read a hread hgood hsound =>
    subst hread
    exact .read a rfl hgood hsound
  | refused e hrefused hfault =>
    subst hrefused
    exact .refused (f e) rfl hfault

end

/-! ## Reading records -/

theorem Modifier.judged_ofTexts (f : Modifier.Family) (held : ResultsRecord) :
    Judged (Modifier.ofTexts f held.modifiers) (held.Misread f)
      fun ms => ms.map (·.text) = held.modifiers := by
  have hchunks : ∀ texts : List String,
      Judged (Modifier.ofChunks f (texts.map String.toList))
        (∃ text ∈ texts, Modifier.ofText? f text = none) fun ms => ms.map (·.text) = texts := by
    intro texts
    induction texts with
    | nil => exact .read [] rfl rfl (by simp)
    | cons text rest ih =>
      rw [List.map_cons, Modifier.ofChunks]
      cases hread : Modifier.ofChars? f text.toList with
      | none =>
        refine (Judged.error _).congr ?_
        simp [Modifier.ofText?, hread]
      | some m =>
        have htext : m.text = text := by rw [Modifier.ofChars?_text hread, String.ofList_toList]
        refine (ih.map fun ms hms => ?_).congr ?_
        · rw [List.map_cons, hms, htext]
        · simp [Modifier.ofText?, hread]
  exact (hchunks held.modifiers).mapError

theorem Dice.judged_ofRecord (number : Nat) (denomination : Denomination)
    (held : ResultsRecord) :
    Judged (Dice.ofRecord number denomination held)
      (denomination.faces = 0 ∨ held.Misread (.ofDenomination denomination)) fun d =>
        d.number = number ∧ d.denomination = denomination ∧
          (⟨d.modifiers.map (·.text), d.results, d.annotations, d.evaluated⟩ : ResultsRecord) =
            held := by
  by_cases hfaces : denomination.faces = 0
  · refine .refused .noFaces ?_ (.inl hfaces)
    simp only [Dice.ofRecord, hfaces, if_true]
    rfl
  · refine Judged.congr ?_ ⟨.inr, fun h => h.resolve_left hfaces⟩
    simp only [Dice.ofRecord, hfaces, if_false]
    refine (Modifier.judged_ofTexts _ held).map fun ms hms => ⟨rfl, rfl, ?_⟩
    obtain ⟨texts, results, annotations, evaluated⟩ := held
    obtain rfl : ms.map (·.text) = texts := hms
    rfl

/-- The record of a roll is read as it should be. -/
def RollRecord.IsJudged (d : RollRecord) : Prop :=
  Judged (Roll.ofRecord d) d.Faulty fun r => r.toRecord = d.completed

theorem Roll.judged_ofRecords {ds : List RollRecord} (h : ∀ d ∈ ds, d.IsJudged) :
    Judged (Roll.ofRecords ds) (∃ d ∈ ds, d.Faulty) fun rs =>
      Roll.recordsOf rs = RollRecord.completedAll ds := by
  induction ds with
  | nil =>
    rw [Roll.ofRecords]
    refine .read [] rfl ?_ (by simp)
    rw [Roll.recordsOf, RollRecord.completedAll]
  | cons d rest ih =>
    obtain ⟨hd, hrest⟩ := List.forall_mem_cons.mp h
    rw [Roll.ofRecords]
    refine (hd.bind fun r _ hr => (ih hrest).map fun rs hrs => ?_).congr (by simp)
    rw [Roll.recordsOf, RollRecord.completedAll, hr, hrs]

/-- The fault of a term: its own, or one of a roll inside it. -/
def TermRecord.Faulty (t : TermRecord) : Prop := t.Flawed ∨ ∃ r ∈ t.rolls, r.Faulty

/-- The record of dice of some denomination. -/
theorem Term.judged_dice {t : TermRecord} {number : Nat} {denomination : Denomination}
    {held : ResultsRecord}
    (hrecord : ∀ d : Dice, d.number = number ∧ d.denomination = denomination ∧
      (⟨d.modifiers.map (·.text), d.results, d.annotations, d.evaluated⟩ : ResultsRecord) = held →
        d.toRecord = t.completed)
    (hfault : denomination.faces = 0 ∨ held.Misread (.ofDenomination denomination) ↔ t.Faulty) :
    Judged (Term.dice <$> (Dice.ofRecord number denomination held).mapError RollError.record)
      t.Faulty fun u => u.toRecord = t.completed := by
  refine ((Dice.judged_ofRecord number denomination held).mapError.map fun d hd => ?_).congr hfault
  rw [Term.toRecord]
  exact hrecord d hd

/-- The record of a term that has neither modifiers nor rolls inside it. -/
theorem Term.judged_plain {t : TermRecord} {u : Term} (h : u.toRecord = t.completed)
    (hflawed : ¬ t.Flawed) (hrolls : t.rolls = []) :
    Judged (.ok u : Except RollError Term) t.Faulty fun u => u.toRecord = t.completed := by
  refine .read u rfl h ?_
  rintro (hfault | ⟨r, hr, -⟩)
  · exact hflawed hfault
  · rw [hrolls] at hr
    cases hr

theorem Term.judged_ofRecord {t : TermRecord} (h : ∀ r ∈ t.rolls, r.IsJudged) :
    Judged (Term.ofRecord t) t.Faulty fun u => u.toRecord = t.completed := by
  cases t with
  | numeric | operator | text =>
    rw [Term.ofRecord]
    exact Term.judged_plain (by rw [Term.toRecord, TermRecord.completed] <;> simp) id rfl
  | die number faces held | coin number held | fateDie number held =>
    rw [Term.ofRecord]
    refine Term.judged_dice (fun d hd => ?_) ?_
    · obtain ⟨number', denomination, ms, results, annotations, evaluated⟩ := d
      obtain ⟨rfl, rfl, rfl⟩ := hd
      rw [TermRecord.completed]
      · rfl
      all_goals simp
    · simp [TermRecord.Faulty, TermRecord.Flawed, TermRecord.rolls, Denomination.faces]
  | pool texts rolls held =>
    rw [Term.ofRecord]
    refine Judged.congr ((Roll.judged_ofRecords h).bind fun rs _ hrs =>
      (Modifier.judged_ofTexts .pool held).mapError.map fun ms hms => ?_) ?_
    · rw [Term.toRecord, TermRecord.completed, hrs]
      obtain ⟨texts, results, annotations, evaluated⟩ := held
      obtain rfl : ms.map (·.text) = texts := hms
      rfl
    · exact or_comm
  | function name texts rolls result a =>
    rw [Term.ofRecord]
    refine Judged.congr ((Roll.judged_ofRecords h).map fun rs hrs => ?_) ?_
    · rw [Term.toRecord, TermRecord.completed, hrs]
      rfl
    · simp [TermRecord.Faulty, TermRecord.Flawed]
  | parenthetical text roll a =>
    rw [Term.ofRecord]
    have hroll : roll.IsJudged := h roll (List.mem_singleton_self roll)
    refine Judged.congr (Judged.map hroll fun r hr => ?_) ?_
    · rw [Term.toRecord, TermRecord.completed, hr]
    · simp [TermRecord.Faulty, TermRecord.Flawed, TermRecord.rolls]

theorem Term.judged_ofRecords {ts : List TermRecord} (h : ∀ t ∈ ts, ∀ r ∈ t.rolls, r.IsJudged) :
    Judged (Term.ofRecords ts) (∃ t ∈ ts, t.Faulty) fun us =>
      Term.recordsOf us = TermRecord.completedAll ts := by
  induction ts with
  | nil =>
    rw [Term.ofRecords]
    refine .read [] rfl ?_ (by simp)
    rw [Term.recordsOf, TermRecord.completedAll]
  | cons t rest ih =>
    obtain ⟨ht, hrest⟩ := List.forall_mem_cons.mp h
    rw [Term.ofRecords]
    refine ((Term.judged_ofRecord ht).bind fun u _ hu => (ih hrest).map fun us hus => ?_).congr
      (by simp)
    rw [Term.recordsOf, TermRecord.completedAll, hu, hus]

/-- A term is dice if its record is one of dice, whatever totals are filled in. -/
theorem Term.isDice_of_toRecord {u : Term} {t : TermRecord} (h : u.toRecord = t.completed) :
    t.isDice = true ↔ ∃ d, u = .dice d := by
  have hcompleted : t.completed.isDice = t.isDice := by
    cases t <;> rw [TermRecord.completed] <;> first | rfl | nofun
  rw [← hcompleted, ← h]
  cases u with
  | dice d =>
    rw [Term.toRecord]
    obtain ⟨number, denomination, ms, results, annotations, evaluated⟩ := d
    cases denomination <;> simp [Dice.toRecord, TermRecord.isDice]
  | _ =>
    rw [Term.toRecord]
    simp [TermRecord.isDice]

theorem Term.judged_diceOfRecords {ts : List TermRecord}
    (h : ∀ t ∈ ts, ∀ r ∈ t.rolls, r.IsJudged) :
    Judged (Term.diceOfRecords ts) (∃ t ∈ ts, t.Faulty ∨ t.isDice = false) fun ds =>
      ds.map Dice.toRecord = TermRecord.completedAll ts := by
  induction ts with
  | nil =>
    rw [Term.diceOfRecords]
    refine .read [] rfl ?_ (by simp)
    rw [List.map_nil, TermRecord.completedAll]
  | cons t rest ih =>
    obtain ⟨ht, hrest⟩ := List.forall_mem_cons.mp h
    have ih := ih hrest
    have hfault : (t.Faulty ∨ t.isDice = false ∨ ∃ t ∈ rest, t.Faulty ∨ t.isDice = false) ↔
        ∃ t' ∈ t :: rest, t'.Faulty ∨ t'.isDice = false := by simp [or_assoc]
    rw [Term.diceOfRecords]
    refine Judged.congr ((Term.judged_ofRecord ht).bind fun u _ hu => ?_) hfault
    have hdice := Term.isDice_of_toRecord hu
    cases u with
    | dice d =>
      refine (ih.map fun ds hds => ?_).congr ?_
      · rw [Term.toRecord] at hu
        rw [List.map_cons, TermRecord.completedAll, hu, hds]
      · simp [hdice.mpr ⟨d, rfl⟩]
    | _ =>
      have hnot : t.isDice = false := by simpa using hdice
      exact (Judged.error _).congr (by simp [hnot])

/-- A total that was left out is filled in, and any other stays. -/
theorem Term.judged_total {formula : String} {terms : List TermRecord} {us : List Term}
    (hus : Term.ofRecords terms = .ok us) (total : Option Number) (evaluated : Bool) :
    Judged (if evaluated && total.isNone then some <$> Term.totalOf formula us else pure total)
      (evaluated = true ∧ total = none ∧ TermRecord.totalOf? formula terms = none) fun total' =>
        total' = if evaluated && total.isNone then TermRecord.totalOf? formula terms else total := by
  have htotal : TermRecord.totalOf? formula terms = (Term.totalOf formula us).toOption := by
    rw [TermRecord.totalOf?, hus, ok_bind]
  cases hmissing : evaluated && total.isNone with
  | false =>
    simp only [Bool.false_eq_true, if_false]
    refine .read total rfl rfl ?_
    rintro ⟨rfl, rfl, -⟩
    cases hmissing
  | true =>
    rw [Bool.and_eq_true, Option.isNone_iff_eq_none] at hmissing
    simp only [if_true, htotal]
    cases hx : Term.totalOf formula us with
    | ok n => exact .read (some n) rfl rfl fun h => nomatch h.2.2
    | error e => exact .refused e rfl ⟨hmissing.1, hmissing.2, rfl⟩

/-- The faults of a record, one part after the other. -/
theorem RollRecord.faulty_iff (d : RollRecord) :
    d.Faulty ↔ d.className ≠ rollClass ∨ (∃ t ∈ d.terms, t.Faulty) ∨
      (∃ t ∈ d.dice, t.Faulty ∨ t.isDice = false) ∨
      (d.evaluated = true ∧ d.total = none ∧
        TermRecord.totalOf? d.formula d.terms = none) := by
  constructor
  · rintro (h | ⟨ht | ht, h⟩ | ⟨ht, h⟩ | ⟨hevaluated, htotal, h⟩ | ⟨ht | ht, hr, h⟩)
    · exact .inl h
    · exact .inr (.inl ⟨_, ht, .inl h⟩)
    · exact .inr (.inr (.inl ⟨_, ht, .inl (.inl h)⟩))
    · exact .inr (.inr (.inl ⟨_, ht, .inr h⟩))
    · exact .inr (.inr (.inr ⟨hevaluated, htotal, h⟩))
    · exact .inr (.inl ⟨_, ht, .inr ⟨_, hr, h⟩⟩)
    · exact .inr (.inr (.inl ⟨_, ht, .inl (.inr ⟨_, hr, h⟩)⟩))
  · rintro (h | ⟨t, ht, h | ⟨r, hr, h⟩⟩ | ⟨t, ht, (h | ⟨r, hr, h⟩) | h⟩ | ⟨hevaluated, htotal, h⟩)
    · exact .className h
    · exact .term (.inl ht) h
    · exact .inner (.inl ht) hr h
    · exact .term (.inr ht) h
    · exact .inner (.inr ht) hr h
    · exact .notDice ht h
    · exact .total hevaluated htotal h

/-- Every record is read or refused as it should be. -/
theorem RollRecord.judged_ofRecord (d : RollRecord) : d.IsJudged := by
  induction d using RollRecord.induction with
  | h d hterms hdice =>
    unfold RollRecord.IsJudged
    refine Judged.congr ?_ d.faulty_iff.symm
    obtain ⟨className, formula, data, annotations, terms, total, evaluated, dice⟩ := d
    rw [Roll.ofRecord]
    by_cases hclass : className = rollClass
    · subst hclass
      refine Judged.congr ?_ ⟨.inr, fun h => h.resolve_left (not_not_intro rfl)⟩
      simp only [ne_eq, not_true_eq_false, if_false]
      refine (Term.judged_ofRecords hterms).bind fun us hus htermsOf => ?_
      refine (Term.judged_diceOfRecords hdice).bind fun ds _ hdiceOf => ?_
      -- the roll is made in both branches of the choice of its total
      have hmade : ∀ (x : Except RollError (Option Number)) (f : Option Number → Roll),
          (if evaluated && total.isNone then x >>= fun total => pure (f total)
            else (pure total : Except RollError _) >>= fun total => pure (f total)) =
          f <$> if evaluated && total.isNone then x else pure total := by
        intro x f
        split
        · cases x <;> rfl
        · rfl
      rw [hmade]
      refine (Term.judged_total hus total evaluated).map fun total' htotal => ?_
      rw [Roll.toRecord, RollRecord.completed, htermsOf, hdiceOf, htotal]
    · simp only [ne_eq, hclass, not_false_eq_true, if_true]
      exact .refused (.record (.unexpectedClass className)) rfl (.inl trivial)

/-! ## There and back -/

/-- Whatever roll can be come by is read from its record again as it is, with all that is
    inside it. And of any record whatsoever: if it is read, then the roll is written as that
    record, with the totals filled in that evaluated rolls in it went without; and it is
    refused exactly if there is a fault in it, at some depth. -/
theorem RollRecord.roundTrip :
    (∀ r : Roll, r.Obtained → Roll.ofRecord r.toRecord = .ok r) ∧
      ∀ d : RollRecord, (∀ r, Roll.ofRecord d = .ok r → r.toRecord = d.completed) ∧
        ((∃ e, Roll.ofRecord d = .error e) ↔ d.Faulty) :=
  ⟨fun _ h => h.storable.ofRecord_toRecord, fun d =>
    ⟨fun _ h => d.judged_ofRecord.good_of_ok h, d.judged_ofRecord.error_iff⟩⟩

/-- Two dice in parentheses that count for two at least, and one more: the dice are kept
    when the parentheses give way to their value, and the record brings them back. Without
    its total the record is completed; with a number among its dice it is refused. -/
theorem RollRecord.roundTrip_collapsed :
    ∃ r : Roll, r.Obtained ∧ r.total = some (.int 5) ∧ r.collapsed.length = 1 ∧
      Roll.ofRecord r.toRecord = .ok r ∧
      (∀ r', Roll.ofRecord { r.toRecord with total := none } = .ok r' →
        r'.toRecord.total = some (.int 5)) ∧
      ∃ e, Roll.ofRecord { r.toRecord with dice := [.numeric (.int 1) {}] } = .error e := by
  let inner : Roll := Roll.ofTerms
    [.dice { number := 2, denomination := .die 6, modifiers := [⟨"min2", .minimum 2⟩] }]
  let outer : Roll := Roll.ofTerms
    [.parenthetical inner.formula inner {}, .operator .add {}, .numeric (.int 1) {}]
  have hinner : inner.Obtained := by
    refine .ofTerms (List.forall_mem_singleton.mpr ⟨by decide, ?_⟩) ?_
    · exact List.forall_mem_singleton.mpr ⟨"min2", rfl⟩
    · exact List.forall_mem_singleton.mpr nofun
  have houter : outer.Obtained := by
    refine .ofTerms ?_ ?_
    · simp [Term.WellMade]
    · simpa [Term.rolls] using hinner
  have hused := Roll.Obtained.used houter none (.ofRoller (StepRoller.start 1 1)) []
    [.evaluateNow .minimized]
  refine ⟨_, hused, rfl, rfl, roundTrip.1 _ hused, fun r' hr' => ?_, ?_⟩
  · rw [(roundTrip.2 _).1 r' hr']
    rfl
  · exact (roundTrip.2 _).2.mpr (.notDice (List.mem_singleton_self _) rfl)

end DiceNotation
