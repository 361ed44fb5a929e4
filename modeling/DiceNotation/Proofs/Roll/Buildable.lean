/-
  DiceNotation.Proofs.Roll.Buildable

  What is read is built.

  A formula and the formulas within it, at any depth, are what may be built on
  its own (`SubFormula.within`). Each of them is `SubFormula.Buildable` once it
  was read: its operands and operators take turns, so that its tree is found
  without a fault, and there is a roll of it. Nothing but the reading of a
  formula keeps it from being a roll (`Roll.new_buildable`).
-/

import DiceNotation.Proofs.Infix.Exact
import DiceNotation.Proofs.Roll.New

namespace DiceNotation

namespace Formula

/-! ## Formulas within formulas -/

mutual

/-- The formulas in a node: arguments of functions, items of pools and what stands in
    parentheses, also behind a sign, in glue and under a flavor. -/
def Node.within : Node → List SubFormula
  | .number _ | .dice _ _ _ | .text _ | .operator _ => []
  | .function _ arguments => SubFormula.allWithin arguments
  | .pool items _ => SubFormula.allWithin items
  | .parenthetical inner => inner.within
  | .negation inner => inner.within
  | .glued parts => Node.allWithin parts
  | .annotated inner _ => inner.within

/-- The formulas in nodes in a row. -/
def Node.allWithin : List Node → List SubFormula
  | [] => []
  | node :: rest => node.within ++ Node.allWithin rest

/-- A formula and the formulas in it. -/
def SubFormula.within : SubFormula → List SubFormula
  | ⟨text, nodes⟩ => ⟨text, nodes⟩ :: Node.allWithin nodes

/-- The formulas of a list and the formulas in them. -/
def SubFormula.allWithin : List SubFormula → List SubFormula
  | [] => []
  | sub :: rest => sub.within ++ SubFormula.allWithin rest

end

theorem Node.within_signed (sign : Option Operator) (n : Node) :
    (signed sign n).within = n.within := by
  unfold signed
  split
  · rw [Node.within]
  · rfl

theorem Node.within_of_withFlavors {source : List Char} {n n' : Node} {c c' : Cursor}
    (h : withFlavors source n c = .ok (n', c')) : n'.within = n.within := by
  obtain ⟨⟨flavors, c₁⟩, -, heq⟩ := bind_eq_ok.mp h
  by_cases hempty : flavors.isEmpty = true
  · simp only [hempty, if_true] at heq
    cases heq
    rfl
  · simp only [hempty, Bool.false_eq_true, if_false] at heq
    cases heq
    rw [Node.within]

theorem Node.within_ofParts (first : Node) (more : List Node) :
    (Node.ofParts first more).within = first.within ++ Node.allWithin more := by
  cases more with
  | nil => simp [Node.ofParts, Node.allWithin]
  | cons part more =>
    show (Node.glued (first :: part :: more)).within = _
    rw [Node.within, Node.allWithin]

theorem Token.within_literal? {t : Token} {n : Node} (h : t.literal? = some n) :
    n.within = [] := by
  unfold Token.literal? at h
  split at h
  · obtain ⟨value, -, rfl⟩ := Option.map_eq_some_iff.mp h
    rw [Node.within]
  · simp only [diceOfLiteral?, Option.bind_eq_bind, Option.bind_eq_some_iff] at h
    obtain ⟨number, -, d, -, ms, -, h⟩ := h
    cases h
    rw [Node.within]
  iterate 3
    cases h
    rw [Node.within]
  cases h

/-! ## Operands and operators in turns -/

/-- Operands and operators take turns, from an operand to an operand. -/
structure TakesTurns (nodes : List Node) : Prop where
  odd : nodes.length % 2 = 1
  turns : ∀ (i : Nat) (n : Node), nodes[i]? = some n → n.operator?.isSome = (i % 2 == 1)

theorem turns_of_alternates {nodes : List Node} (h : Infix.Alternates nodes) :
    nodes.length % 2 = 0 ∧
      ∀ (i : Nat) (n : Node), nodes[i]? = some n → n.operator?.isSome = (i % 2 == 0) := by
  induction h with
  | nil => exact ⟨rfl, nofun⟩
  | @cons sign x op rest hsign hx hrest ih =>
    obtain ⟨hlength, hturns⟩ := ih
    refine ⟨by simp only [List.length_cons]; omega, fun i n hn => ?_⟩
    match i with
    | 0 =>
      obtain rfl := Option.some.inj hn
      rw [show sign.operator? = some op from hsign]
      rfl
    | 1 =>
      obtain rfl := Option.some.inj hn
      rw [show x.operator? = none from hx]
      rfl
    | i + 2 =>
      have hparity : (i + 2) % 2 = i % 2 := by omega
      rw [hparity]
      exact hturns i n hn

/-- An operand with operators and operands behind it. -/
theorem TakesTurns.cons {n : Node} {ns : List Node} (hn : n.operator? = none)
    (hns : Infix.Alternates ns) : TakesTurns (n :: ns) := by
  obtain ⟨hlength, hturns⟩ := turns_of_alternates hns
  refine ⟨by simp only [List.length_cons]; omega, fun i m hm => ?_⟩
  match i with
  | 0 =>
    obtain rfl := Option.some.inj hm
    rw [hn]
    rfl
  | i + 1 =>
    rw [hturns i m hm]
    have hparity : i % 2 = 0 ↔ (i + 1) % 2 = 1 := by omega
    simp only [beq_eq_beq, hparity]

theorem Reads.takesTurns {source : List Char} {nodes : List Node} {c c' : Cursor}
    (h : Reads source (.expression nodes) c c') : TakesTurns nodes := by
  cases h with
  | expression _ hn hns => exact .cons (operator?_signed _ hn.aligned) hns.aligned

/-! ## Building -/

/-- A formula of which a roll can be made. -/
structure SubFormula.Buildable (s : SubFormula) : Prop where
  turns : TakesTurns s.nodes
  /-- The operands and operators have a tree, which is written as they stand. -/
  tree : ∃ tree, Infix.Tree.ofInfix s.nodes = .ok tree ∧ tree.toInfix = s.nodes
  /-- Neither the check of the row nor a node in it fails. -/
  built : ∃ terms, Term.ofNodes s.text s.nodes = .ok terms ∧ Roll.ofSub s = .ok (Roll.ofTerms terms)

/-- What was read as an expression can be built, whatever its text. -/
theorem Reads.buildable {source : List Char} {nodes : List Node} {c c' : Cursor}
    (h : Reads source (.expression nodes) c c') (text : String) :
    SubFormula.Buildable ⟨text, nodes⟩ := by
  obtain ⟨tree, htree⟩ := (Infix.Tree.exists_ofInfix_iff nodes).mpr h.row
  obtain ⟨terms, hterms, -⟩ := h.builds
  have hbuilt : Term.ofNodes text nodes = .ok terms := by
    rw [Term.ofNodes, checkRow_of_row h.row, ok_bind, hterms]
  refine ⟨h.takesTurns, ⟨tree, htree, Infix.Tree.ofInfix_exact.2 nodes tree htree⟩, terms, hbuilt,
    ?_⟩
  rw [Roll.ofSub, checkRow_of_row h.row, ok_bind, hterms]
  rfl

/-- The formulas in a piece. -/
def Piece.within : Piece → List SubFormula
  | .expression nodes | .rest nodes | .glue _ nodes => Node.allWithin nodes
  | .operand n | .atom n => n.within
  | .list subs => SubFormula.allWithin subs
  | .sub s => s.within

/-- Every formula in a piece that was read can be built. -/
theorem Reads.within_buildable {source : List Char} {p : Piece} {c c' : Cursor}
    (h : Reads source p c c') : ∀ s ∈ p.within, s.Buildable := by
  induction h with
  | expression _ _ _ ihn ihns =>
    rw [Piece.within, Node.allWithin, Node.within_signed]
    exact List.forall_mem_append.mpr ⟨ihn, ihns⟩
  | restSum _ _ _ ihn ihns =>
    simp only [Piece.within, Node.allWithin, Node.within, List.nil_append]
    exact List.forall_mem_append.mpr ⟨ihn, ihns⟩
  | restProduct _ _ _ _ _ ihn ihns =>
    simp only [Piece.within, Node.allWithin, Node.within, Node.within_signed, List.nil_append]
    exact List.forall_mem_append.mpr ⟨ihn, ihns⟩
  | restEnd | glueEnd => exact List.forall_mem_nil _
  | operand _ _ ihfirst ihmore =>
    rw [Piece.within, Node.within_ofParts]
    exact List.forall_mem_append.mpr ⟨ihfirst, ihmore⟩
  | fragment _ _ _ hpart _ ihmore =>
    rw [Piece.within, Node.allWithin, Node.within_of_withFlavors hpart, Node.within]
    exact ihmore
  | behindText _ _ _ _ _ ihpart ihmore =>
    exact List.forall_mem_append.mpr ⟨ihpart, ihmore⟩
  | literal _ hn _ hflavors =>
    rw [Piece.within, Node.within_of_withFlavors hflavors, Token.within_literal? hn]
    exact List.forall_mem_nil _
  | callEmpty _ _ _ _ hflavors =>
    rw [Piece.within, Node.within_of_withFlavors hflavors]
    exact List.forall_mem_nil _
  | call _ _ _ _ _ _ hflavors ih | group _ _ _ _ hflavors ih | pool _ _ _ _ _ _ _ hflavors ih =>
    rw [Piece.within, Node.within_of_withFlavors hflavors, Node.within]
    exact ih
  | listLast _ _ ih =>
    rw [Piece.within, SubFormula.allWithin, SubFormula.allWithin, List.append_nil]
    exact ih
  | listMore _ _ _ ihs ihmore => exact List.forall_mem_append.mpr ⟨ihs, ihmore⟩
  | sub hnodes ih =>
    rw [Piece.within, SubFormula.within]
    exact List.forall_mem_cons.mpr ⟨hnodes.buildable _, ih⟩

end Formula

open Formula

/-- Every formula in one that was read can be built. -/
theorem Formula.buildable_of_parse {formula : String} {nodes : List Node}
    (h : parse formula = .ok nodes) : ∀ s ∈ SubFormula.within ⟨formula, nodes⟩, s.Buildable := by
  obtain ⟨c, hread, -⟩ := parseChars_eq_ok.mp h
  have hwithin := hread.within_buildable
  rw [SubFormula.within]
  exact List.forall_mem_cons.mpr ⟨hread.buildable formula, hwithin⟩

theorem Roll.new_of_parse {formula : String} {nodes : List Node}
    (h : parse formula = .ok nodes) : ∃ r, Roll.new formula = .ok r := by
  obtain ⟨c, hread, -⟩ := parseChars_eq_ok.mp h
  obtain ⟨terms, hterms, -⟩ := hread.builds
  exact ⟨Roll.ofTerms terms, Roll.new_eq_ok.mpr ⟨nodes, terms, h, hterms, rfl⟩⟩

theorem Roll.new_of_parse_error {formula : String} {e : SyntaxError}
    (h : parse formula = .error e) : Roll.new formula = .error e := by
  rw [Roll.new, Roll.withData, substitute_null, Term.ofFormula, h]
  rfl

/-- A formula has a roll unless it cannot be read, and then the roll fails for the fault of
    the reading. Every formula within it, at any depth, can be built like the formula
    itself. -/
theorem Roll.new_buildable (formula : String) :
    ((∃ r, Roll.new formula = .ok r) ↔ ∃ nodes, parse formula = .ok nodes) ∧
      (∀ e, Roll.new formula = .error e ↔ parse formula = .error e) ∧
      ∀ nodes, parse formula = .ok nodes →
        ∀ s ∈ SubFormula.within ⟨formula, nodes⟩, s.Buildable := by
  cases hparse : parse formula with
  | error e =>
    have hnew := Roll.new_of_parse_error hparse
    refine ⟨⟨fun ⟨r, hr⟩ => ?_, fun ⟨nodes, hnodes⟩ => nomatch hnodes⟩, fun e' => ?_, nofun⟩
    · rw [hnew] at hr
      cases hr
    · rw [hnew]
      exact ⟨fun h => by cases h; rfl, fun h => by cases h; rfl⟩
  | ok nodes =>
    obtain ⟨r, hr⟩ := Roll.new_of_parse hparse
    refine ⟨⟨fun _ => ⟨nodes, rfl⟩, fun _ => ⟨r, hr⟩⟩, fun e => ?_, fun nodes' hnodes' => ?_⟩
    · rw [hr]
      exact ⟨nofun, nofun⟩
    · cases hnodes'
      exact Formula.buildable_of_parse hparse

/-- A group behind a sign, and a call in it with two arguments. -/
theorem Roll.new_buildable_nested :
    ∃ nodes, parse "2 * -(1 - max(3, 4))" = .ok nodes ∧
      (SubFormula.within ⟨"2 * -(1 - max(3, 4))", nodes⟩).map SubFormula.text =
        ["2 * -(1 - max(3, 4))", "1 - max(3, 4)", "3", "4"] ∧
      ∀ s ∈ SubFormula.within ⟨"2 * -(1 - max(3, 4))", nodes⟩, s.Buildable := by
  have htokens : tokens "2 * -(1 - max(3, 4))".toList =
      [⟨.number, ['2'], ⟨0, 1⟩⟩, ⟨.star, ['*'], ⟨2, 3⟩⟩, ⟨.minus, ['-'], ⟨4, 5⟩⟩,
        ⟨.leftParen, ['('], ⟨5, 6⟩⟩, ⟨.number, ['1'], ⟨6, 7⟩⟩, ⟨.minus, ['-'], ⟨8, 9⟩⟩,
        ⟨.identifier, ['m', 'a', 'x'], ⟨10, 13⟩⟩, ⟨.leftParen, ['('], ⟨13, 14⟩⟩,
        ⟨.number, ['3'], ⟨14, 15⟩⟩, ⟨.comma, [','], ⟨15, 16⟩⟩, ⟨.number, ['4'], ⟨17, 18⟩⟩,
        ⟨.rightParen, [')'], ⟨18, 19⟩⟩, ⟨.rightParen, [')'], ⟨19, 20⟩⟩] := rfl
  have hparse : parse "2 * -(1 - max(3, 4))" = .ok [.number (.int 2), .operator .mul,
      .negation (.parenthetical ⟨"1 - max(3, 4)", [.number (.int 1), .operator .sub,
        .function "max" [⟨"3", [.number (.int 3)]⟩, ⟨"4", [.number (.int 4)]⟩]]⟩)] := by
    refine parseChars_eq_ok.mpr ⟨⟨[], 20⟩, ?_, rfl⟩
    rw [htokens]
    exact @Reads.expression _ none _ _ _ _ _ _ rfl (.alone (.literal rfl rfl nofun rfl) rfl)
      (@Reads.restProduct _ _ (some .sub) _ _ _ _ _ _ rfl rfl rfl
        (.alone (.group rfl rfl (.sub (@Reads.expression _ none _ _ _ _ _ _ rfl
          (.alone (.literal rfl rfl nofun rfl) rfl)
          (.restSum rfl
            (.alone (.call rfl rfl rfl rfl
              (.listMore (.sub (@Reads.expression _ none _ _ _ _ _ _ rfl
                  (.alone (.literal rfl rfl nofun rfl) rfl) (.restEnd rfl rfl))) rfl
                (.listLast (.sub (@Reads.expression _ none _ _ _ _ _ _ rfl
                  (.alone (.literal rfl rfl nofun rfl) rfl) (.restEnd rfl rfl))) rfl))
              rfl rfl) rfl)
            (.restEnd rfl rfl)))) rfl rfl) rfl)
        (.restEnd rfl rfl))
  exact ⟨_, hparse, by decide, (Roll.new_buildable _).2.2 _ hparse⟩

end DiceNotation
