/-
  DiceNotation.Proofs.Modifier.Chunk

  Suffixes in chunks.

  A suffix is divided into chunks, each of letters and then no letters, that meet
  where a letter follows something else (`IsSplit`). Such a division is the only one
  (`IsSplit.unique`), `chunks` finds it (`chunks_eq_ok_iff`), and suffixes that meet in
  this way are divided apart (`IsSplit.append`).
-/

import Mathlib.Data.List.Chain
import Mathlib.Data.List.TakeWhile
import DiceNotation.Modifier.Parser

namespace DiceNotation.Modifier

/-! ## Divisions -/

/-- Letters, at least one, and then no letters. -/
def IsChunk (chunk : List Char) : Prop :=
  ∃ command argument, chunk = command ++ argument ∧ command ≠ [] ∧
    (∀ c ∈ command, c.isAlpha = true) ∧ ∀ c ∈ argument, c.isAlpha = false

/-- A text that begins with a letter, if with anything. -/
def BeginsChunk (cs : List Char) : Prop := ∀ c ∈ cs.head?, c.isAlpha = true

/-- A text that ends in no letter, so that a letter behind it begins a chunk. -/
def EndsChunk (cs : List Char) : Prop := ∀ c ∈ cs.getLast?, c.isAlpha = false

instance (cs : List Char) : Decidable (BeginsChunk cs) := Option.decidableForallMem cs.head?

instance (cs : List Char) : Decidable (EndsChunk cs) := Option.decidableForallMem cs.getLast?

/-- A suffix in pieces: they are chunks, and one that is followed by another has ended. -/
structure IsSplit (suffix : List Char) (pieces : List (List Char)) : Prop where
  flatten_eq : pieces.flatten = suffix
  isChunk : ∀ piece ∈ pieces, IsChunk piece
  isChain : pieces.IsChain fun piece _ => EndsChunk piece

section

variable {s t suffix piece command argument rest : List Char} {pieces pieces' : List (List Char)}

theorem IsChunk.ne_nil (h : IsChunk piece) : piece ≠ [] := by
  obtain ⟨command, argument, rfl, hne, -⟩ := h
  simp [hne]

theorem IsChunk.beginsChunk (h : IsChunk piece) : BeginsChunk piece := by
  obtain ⟨_ | ⟨c, command⟩, argument, rfl, hne, hcommand, -⟩ := h
  · exact absurd rfl hne
  · rintro _ ⟨⟩
    exact hcommand c List.mem_cons_self

theorem isSplit_nil : IsSplit [] [] := ⟨rfl, nofun, .nil⟩

/-- A chunk is divided into itself. -/
theorem IsChunk.isSplit (h : IsChunk piece) : IsSplit piece [piece] :=
  ⟨by simp, by simpa using h, .singleton piece⟩

theorem IsSplit.beginsChunk (h : IsSplit suffix pieces) : BeginsChunk suffix := by
  obtain ⟨rfl, hchunks, -⟩ := h
  cases pieces with
  | nil => exact nofun
  | cons piece pieces =>
    have hpiece := hchunks piece List.mem_cons_self
    rw [BeginsChunk, List.flatten_cons, List.head?_append_of_ne_nil _ hpiece.ne_nil]
    exact hpiece.beginsChunk

theorem IsSplit.eq_nil (h : IsSplit [] pieces) : pieces = [] := by
  cases pieces with
  | nil => rfl
  | cons piece pieces =>
    have hnil := (List.append_eq_nil_iff.mp h.flatten_eq).1
    exact absurd hnil (h.isChunk piece List.mem_cons_self).ne_nil

/-- Suffixes that meet where a chunk ends are divided apart. -/
theorem IsSplit.append (hs : IsSplit s pieces) (ht : IsSplit t pieces')
    (hends : t ≠ [] → EndsChunk s) : IsSplit (s ++ t) (pieces ++ pieces') := by
  refine ⟨by rw [List.flatten_append, hs.flatten_eq, ht.flatten_eq], fun piece hpiece => ?_,
    List.isChain_append.mpr ⟨hs.isChain, ht.isChain, fun piece hlast next hnext => ?_⟩⟩
  · exact (List.mem_append.mp hpiece).elim (hs.isChunk piece) (ht.isChunk piece)
  · have hne : t ≠ [] := by
      rintro rfl
      rw [ht.eq_nil] at hnext
      cases hnext
    -- the last piece ends as the suffix does
    obtain ⟨front, rfl⟩ := List.getLast?_eq_some_iff.mp hlast
    have hpiece := hs.isChunk piece (List.mem_append_right front List.mem_cons_self)
    have hs' := hends hne
    rwa [EndsChunk, ← hs.flatten_eq, List.flatten_append, List.flatten_singleton,
      List.getLast?_append_of_ne_nil _ hpiece.ne_nil] at hs'

/-! ## The chunk that is cut off -/

/-- What meets a condition is cut off where something does not. -/
theorem cut_append {p : Char → Bool} {cs : List Char} (hcs : ∀ c ∈ cs, p c = true)
    (hrest : ∀ c ∈ rest.head?, p c = false) :
    (cs ++ rest).takeWhile p = cs ∧ (cs ++ rest).dropWhile p = rest := by
  rw [List.takeWhile_append_of_pos hcs, List.dropWhile_append_of_pos hcs]
  cases rest with
  | nil => simp
  | cons c rest => simp [hrest c rfl]

/-- A command and its argument are cut off where the next letter stands. -/
theorem splitChunk_eq (hcommand : ∀ c ∈ command, c.isAlpha = true)
    (hargument : ∀ c ∈ argument, c.isAlpha = false) (hrest : BeginsChunk rest)
    (hend : ∀ c ∈ (argument ++ rest).head?, c.isAlpha = false) :
    splitChunk (command ++ (argument ++ rest)) = (command, argument, rest) := by
  have hletters := cut_append hcommand hend
  have hothers := cut_append (p := (!Char.isAlpha ·)) (by simpa using hargument)
    (by simpa [BeginsChunk] using hrest)
  rw [splitChunk, hletters.1, hletters.2, hothers.1, hothers.2]

theorem splitChunk_append (cs : List Char) :
    (splitChunk cs).1 ++ (splitChunk cs).2.1 ++ (splitChunk cs).2.2 = cs := by
  simp [splitChunk, List.append_assoc]

theorem length_splitChunk_lt {c : Char} {cs : List Char} (hc : c.isAlpha = true) :
    (splitChunk (c :: cs)).2.2.length < (c :: cs).length := by
  have happend := congrArg List.length (splitChunk_append (c :: cs))
  have hletters : (splitChunk (c :: cs)).1 = c :: cs.takeWhile Char.isAlpha := by
    simp [splitChunk, hc]
  rw [hletters] at happend
  simp only [List.length_append, List.length_cons] at happend ⊢
  omega

theorem eq_false_of_head?_dropWhile {p : Char → Bool} {cs : List Char} {c : Char}
    (hc : c ∈ (cs.dropWhile p).head?) : p c = false := by
  have hnot := List.head?_dropWhile_not p cs
  rw [Option.mem_def.mp hc] at hnot
  exact hnot

/-- What follows a command is no letter. -/
theorem head?_splitChunk {cs : List Char} {c : Char}
    (hc : c ∈ ((splitChunk cs).2.1 ++ (splitChunk cs).2.2).head?) : c.isAlpha = false := by
  have hrest : (splitChunk cs).2.1 ++ (splitChunk cs).2.2 = cs.dropWhile Char.isAlpha :=
    List.takeWhile_append_dropWhile
  rw [hrest] at hc
  exact eq_false_of_head?_dropWhile hc

/-- What follows a chunk begins with a letter. -/
theorem beginsChunk_splitChunk (cs : List Char) : BeginsChunk (splitChunk cs).2.2 := by
  intro c hc
  simpa using eq_false_of_head?_dropWhile hc

theorem isChunk_splitChunk {c : Char} {cs : List Char} (hc : c.isAlpha = true) :
    IsChunk ((splitChunk (c :: cs)).1 ++ (splitChunk (c :: cs)).2.1) := by
  refine ⟨_, _, rfl, by simp [splitChunk, hc], fun d hd => List.mem_takeWhile_imp hd, ?_⟩
  intro d hd
  simpa using List.mem_takeWhile_imp hd

/-- A chunk has ended where something follows it. -/
theorem endsChunk_splitChunk {cs : List Char} (h : (splitChunk cs).2.2 ≠ []) :
    EndsChunk ((splitChunk cs).1 ++ (splitChunk cs).2.1) := by
  have hne : (splitChunk cs).2.1 ≠ [] := by
    intro hnil
    obtain ⟨c, rest, hrest⟩ := List.exists_cons_of_ne_nil h
    have hletter := beginsChunk_splitChunk cs c (by rw [hrest]; rfl)
    have hnot := @head?_splitChunk cs c (by rw [hnil, hrest]; rfl)
    rw [hletter] at hnot
    cases hnot
  rw [EndsChunk, List.getLast?_append_of_ne_nil _ hne]
  intro c hc
  simpa using List.mem_takeWhile_imp (List.mem_of_getLast? hc)

/-- A command without an argument does not end a chunk. -/
theorem not_endsChunk_of_letters (hcommand : ∀ c ∈ command, c.isAlpha = true)
    (hne : command ≠ []) : ¬ EndsChunk command := by
  intro h
  have hlast := h _ (List.getLast?_eq_some_getLast hne)
  rw [hcommand _ (List.getLast_mem hne)] at hlast
  cases hlast

/-- The first piece of a division is the one that is cut off. -/
theorem IsSplit.cons_inv (h : IsSplit suffix (piece :: pieces)) :
    (splitChunk suffix).1 ++ (splitChunk suffix).2.1 = piece ∧
      IsSplit (splitChunk suffix).2.2 pieces := by
  obtain ⟨rfl, hchunks, hchain⟩ := h
  obtain ⟨hpiece, hpieces⟩ := List.forall_mem_cons.mp hchunks
  obtain ⟨hends, hchain⟩ := List.isChain_cons.mp hchain
  have hrest : IsSplit pieces.flatten pieces := ⟨rfl, hpieces, hchain⟩
  obtain ⟨command, argument, rfl, hne, hcommand, hargument⟩ := hpiece
  have hend : ∀ c ∈ (argument ++ pieces.flatten).head?, c.isAlpha = false := by
    cases argument with
    | cons c argument =>
      rintro _ ⟨⟩
      exact hargument c List.mem_cons_self
    | nil =>
      -- the letters of the command would go on in the next piece
      cases pieces with
      | nil => exact nofun
      | cons next pieces =>
        rw [List.append_nil] at hends
        exact absurd (hends next rfl) (not_endsChunk_of_letters hcommand hne)
  rw [List.flatten_cons, List.append_assoc,
    splitChunk_eq hcommand hargument hrest.beginsChunk hend]
  exact ⟨rfl, hrest⟩

/-! ## The chunks of a suffix -/

/-- A suffix has one division. -/
theorem IsSplit.unique (h : IsSplit suffix pieces) (h' : IsSplit suffix pieces') :
    pieces = pieces' := by
  induction pieces generalizing suffix pieces' with
  | nil =>
    obtain ⟨rfl, -, -⟩ := h
    exact h'.eq_nil.symm
  | cons piece pieces ih =>
    cases pieces' with
    | nil =>
      obtain ⟨rfl, -, -⟩ := h'
      exact h.eq_nil
    | cons piece' pieces' =>
      obtain ⟨hpiece, hpieces⟩ := h.cons_inv
      obtain ⟨hpiece', hpieces'⟩ := h'.cons_inv
      rw [← hpiece, ← hpiece', ih hpieces hpieces']

theorem isSplit_chunksFrom {fuel : Nat} (hfuel : suffix.length ≤ fuel)
    (h : BeginsChunk suffix) : IsSplit suffix (chunksFrom fuel suffix) := by
  induction fuel generalizing suffix with
  | zero =>
    obtain rfl := List.length_eq_zero_iff.mp (Nat.le_zero.mp hfuel)
    exact isSplit_nil
  | succ fuel ih =>
    cases suffix with
    | nil => exact isSplit_nil
    | cons c rest =>
      -- a chunk takes a letter at least, so that the fuel lasts
      have hc := h c rfl
      have hlength := @length_splitChunk_lt c rest hc
      have hmore := ih (by omega) (beginsChunk_splitChunk (c :: rest))
      have hall := (isChunk_splitChunk hc).isSplit.append hmore endsChunk_splitChunk
      rwa [splitChunk_append] at hall

theorem chunks_of_beginsChunk (h : BeginsChunk suffix) :
    chunks suffix = .ok (chunksFrom suffix.length suffix) := by
  cases suffix with
  | nil => rfl
  | cons c rest => exact if_pos (h c rfl)

/-- A suffix that begins with a letter, if with anything, has a division. -/
theorem exists_isSplit (h : BeginsChunk suffix) : ∃ pieces, IsSplit suffix pieces :=
  ⟨_, isSplit_chunksFrom (Nat.le_refl _) h⟩

/-- The chunks of a suffix are the pieces of its division. -/
theorem IsSplit.chunks_eq (h : IsSplit suffix pieces) : chunks suffix = .ok pieces := by
  rw [chunks_of_beginsChunk h.beginsChunk,
    (isSplit_chunksFrom (Nat.le_refl _) h.beginsChunk).unique h]

/-- A letter begins a chunk only behind something else. -/
example : chunks "kh2rr<3xo".toList = .ok ["kh2".toList, "rr<3".toList, "xo".toList] := by rfl

/-- Any other suffix is refused as a whole. -/
theorem chunks_of_not_beginsChunk (h : ¬ BeginsChunk suffix) : chunks suffix = .error suffix := by
  cases suffix with
  | nil => exact absurd nofun h
  | cons c rest =>
    refine if_neg fun hc => h ?_
    rintro _ ⟨⟩
    exact hc

end

end DiceNotation.Modifier
