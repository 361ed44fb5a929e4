/-
  DiceNotation.Proofs.Modifier.Suffix

  Modifiers keep the suffix they were read from.

  A suffix is read as the modifiers whose texts are its chunks (`ofSuffix_eq_ok_iff`), and
  what it is refused for is its first chunk that is no modifier (`ofSuffix_eq_error_iff`).
  So modifiers are read again from their texts in a row, from each text on its own, and
  behind the modifiers of another suffix (`ofSuffix_chunkwise`).
-/

import DiceNotation.Formula.Node
import DiceNotation.Proofs.Modifier.Chunk

namespace DiceNotation.Modifier

variable {family : Family} {m : Modifier} {ms : List Modifier} {pieces : List (List Char)}
  {suffix s t rejected : List Char}

/-! ## Reading modifiers again -/

theorem ofChars?_text {chunk : List Char} (h : ofChars? family chunk = some m) :
    m.text = String.ofList chunk := by
  unfold ofChars? at h
  split at h
  · simp only [Option.bind_eq_bind, Option.bind_eq_some_iff] at h
    obtain ⟨argument, -, condition, -, effect, -, h⟩ := h
    cases h
    rfl
  · cases h

/-- A modifier that a family takes from some text. -/
def IsOf (family : Family) (m : Modifier) : Prop := ∃ s, ofText? family s = some m

/-- A modifier is read again from the text that it keeps. -/
theorem IsOf.ofText?_text (h : m.IsOf family) : ofText? family m.text = some m := by
  obtain ⟨s, hs⟩ := h
  rw [ofText?, ofChars?_text hs, String.toList_ofList]
  exact hs

/-! ## Rows of chunks -/

theorem IsOf.ofChunks_cons (h : m.IsOf family) (rest : List (List Char)) :
    ofChunks family (m.text.toList :: rest) = (m :: ·) <$> ofChunks family rest := by
  have hread : ofChars? family m.text.toList = some m := h.ofText?_text
  rw [ofChunks, hread]

/-- A row of chunks is read as the modifiers with these texts. -/
theorem ofChunks_eq_ok_iff : ofChunks family pieces = .ok ms ↔
    pieces = ms.map (·.text.toList) ∧ ∀ m ∈ ms, m.IsOf family := by
  constructor
  · intro h
    induction pieces generalizing ms with
    | nil =>
      cases h
      exact ⟨rfl, nofun⟩
    | cons chunk rest ih =>
      unfold ofChunks at h
      split at h
      · cases h
      · next m hm =>
        have htext : m.text.toList = chunk := by rw [ofChars?_text hm, String.toList_ofList]
        cases hrest : ofChunks family rest with
        | error e =>
          rw [hrest] at h
          cases h
        | ok ms' =>
          rw [hrest] at h
          cases h
          obtain ⟨rfl, hms⟩ := ih hrest
          refine ⟨by rw [List.map_cons, htext], List.forall_mem_cons.mpr ⟨⟨m.text, ?_⟩, hms⟩⟩
          rw [ofText?, htext, hm]
  · rintro ⟨rfl, hms⟩
    induction ms with
    | nil => rfl
    | cons m ms ih =>
      obtain ⟨hm, hms⟩ := List.forall_mem_cons.mp hms
      rw [List.map_cons, hm.ofChunks_cons, ih hms]
      rfl

theorem ofChunks_append (h : ofChunks family pieces = .ok ms) (pieces' : List (List Char)) :
    ofChunks family (pieces ++ pieces') = (ms ++ ·) <$> ofChunks family pieces' := by
  obtain ⟨rfl, hms⟩ := ofChunks_eq_ok_iff.mp h
  clear h
  induction ms with
  | nil => exact (id_map (ofChunks family pieces')).symm
  | cons m ms ih =>
    obtain ⟨hm, hms⟩ := List.forall_mem_cons.mp hms
    rw [List.map_cons, List.cons_append, hm.ofChunks_cons, ih hms]
    exact Functor.map_map _ _ _

/-- A row of chunks is refused for the first one that is no modifier. -/
theorem ofChunks_eq_error_iff : ofChunks family pieces = .error rejected ↔
    ∃ accepted later, pieces = accepted ++ rejected :: later ∧
      (∀ chunk ∈ accepted, (ofChars? family chunk).isSome = true) ∧
      ofChars? family rejected = none := by
  constructor
  · intro h
    induction pieces with
    | nil => cases h
    | cons chunk rest ih =>
      unfold ofChunks at h
      split at h
      · next hnone =>
        cases h
        exact ⟨[], rest, rfl, nofun, hnone⟩
      · next m hm =>
        cases hrest : ofChunks family rest with
        | ok ms =>
          rw [hrest] at h
          cases h
        | error e =>
          rw [hrest] at h
          cases h
          obtain ⟨accepted, later, rfl, haccepted, hrejected⟩ := ih hrest
          refine ⟨chunk :: accepted, later, rfl, ?_, hrejected⟩
          exact List.forall_mem_cons.mpr ⟨by rw [hm]; rfl, haccepted⟩
  · rintro ⟨accepted, later, rfl, haccepted, hrejected⟩
    induction accepted with
    | nil => rw [List.nil_append, ofChunks, hrejected]
    | cons chunk accepted ih =>
      obtain ⟨hchunk, haccepted⟩ := List.forall_mem_cons.mp haccepted
      obtain ⟨m, hm⟩ := Option.isSome_iff_exists.mp hchunk
      rw [List.cons_append, ofChunks, hm, ih haccepted]
      rfl

/-! ## Suffixes -/

theorem ofSuffix_of_isSplit (h : IsSplit suffix pieces) :
    ofSuffix family suffix = ofChunks family pieces := by
  rw [ofSuffix, h.chunks_eq]
  rfl

theorem ofSuffix_of_not_beginsChunk (h : ¬ BeginsChunk suffix) :
    ofSuffix family suffix = .error suffix := by
  rw [ofSuffix, chunks_of_not_beginsChunk h]
  rfl

/-- A suffix is read as the modifiers whose texts are its chunks. -/
theorem ofSuffix_eq_ok_iff : ofSuffix family suffix = .ok ms ↔
    IsSplit suffix (ms.map (·.text.toList)) ∧ ∀ m ∈ ms, m.IsOf family := by
  constructor
  · intro h
    by_cases hbegins : BeginsChunk suffix
    · obtain ⟨pieces, hsplit⟩ := exists_isSplit hbegins
      rw [ofSuffix_of_isSplit hsplit] at h
      obtain ⟨rfl, hms⟩ := ofChunks_eq_ok_iff.mp h
      exact ⟨hsplit, hms⟩
    · rw [ofSuffix_of_not_beginsChunk hbegins] at h
      cases h
  · rintro ⟨hsplit, hms⟩
    rw [ofSuffix_of_isSplit hsplit]
    exact ofChunks_eq_ok_iff.mpr ⟨rfl, hms⟩

theorem toList_modifiersText (ms : List Modifier) :
    (Formula.modifiersText ms).toList = (ms.map fun m => m.text.toList).flatten := by
  simp [Formula.modifiersText, String.toList_join, List.flatMap_def, Function.comp_def]

/-- The texts of the modifiers of a suffix are the suffix. -/
theorem modifiersText_of_ofSuffix (h : ofSuffix family suffix = .ok ms) :
    (Formula.modifiersText ms).toList = suffix := by
  rw [toList_modifiersText, (ofSuffix_eq_ok_iff.mp h).1.flatten_eq]

/-- The modifiers of a suffix are those of the family. -/
theorem isOf_of_ofSuffix (h : ofSuffix family suffix = .ok ms) : ∀ m ∈ ms, m.IsOf family :=
  (ofSuffix_eq_ok_iff.mp h).2

/-- A modifier of a suffix is a suffix of its own. -/
theorem ofSuffix_text (h : ofSuffix family suffix = .ok ms) (hm : m ∈ ms) :
    ofSuffix family m.text.toList = .ok [m] := by
  obtain ⟨hsplit, hms⟩ := ofSuffix_eq_ok_iff.mp h
  have hchunk := hsplit.isChunk m.text.toList (List.mem_map_of_mem hm)
  exact ofSuffix_eq_ok_iff.mpr ⟨hchunk.isSplit, List.forall_mem_singleton.mpr (hms m hm)⟩

/-- Behind a suffix that ends with a chunk, another one is read as it is on its own. -/
theorem ofSuffix_append (hs : ofSuffix family s = .ok ms) (hends : EndsChunk s)
    (ht : BeginsChunk t) : ofSuffix family (s ++ t) = (ms ++ ·) <$> ofSuffix family t := by
  obtain ⟨hsplit, hms⟩ := ofSuffix_eq_ok_iff.mp hs
  obtain ⟨pieces, hpieces⟩ := exists_isSplit ht
  rw [ofSuffix_of_isSplit (hsplit.append hpieces fun _ => hends), ofSuffix_of_isSplit hpieces]
  exact ofChunks_append (ofChunks_eq_ok_iff.mpr ⟨rfl, hms⟩) pieces

/-! ## Refused suffixes -/

/-- What a suffix is refused for. -/
inductive Refuses (family : Family) (suffix : List Char) : List Char → Prop where
  /-- It does not begin with a letter, and is refused as a whole. -/
  | whole (h : ¬ BeginsChunk suffix) : Refuses family suffix suffix
  /-- A chunk is no modifier of the family, and all chunks before it are. -/
  | chunk {accepted later : List (List Char)} {rejected : List Char}
      (hsplit : IsSplit suffix (accepted ++ rejected :: later))
      (haccepted : ∀ chunk ∈ accepted, (ofChars? family chunk).isSome = true)
      (hrejected : ofChars? family rejected = none) : Refuses family suffix rejected

theorem ofSuffix_eq_error_iff :
    ofSuffix family suffix = .error rejected ↔ Refuses family suffix rejected := by
  constructor
  · intro h
    by_cases hbegins : BeginsChunk suffix
    · obtain ⟨pieces, hsplit⟩ := exists_isSplit hbegins
      rw [ofSuffix_of_isSplit hsplit] at h
      obtain ⟨accepted, later, rfl, haccepted, hrejected⟩ := ofChunks_eq_error_iff.mp h
      exact .chunk hsplit haccepted hrejected
    · rw [ofSuffix_of_not_beginsChunk hbegins] at h
      cases h
      exact .whole hbegins
  · rintro (hbegins | ⟨hsplit, haccepted, hrejected⟩)
    · exact ofSuffix_of_not_beginsChunk hbegins
    · rw [ofSuffix_of_isSplit hsplit]
      exact ofChunks_eq_error_iff.mpr ⟨_, _, rfl, haccepted, hrejected⟩

/-! ## Suffixes chunk by chunk -/

/-- What the reading of suffixes as modifiers of a family comes to. -/
structure ReadsChunkwise (family : Family) : Prop where
  /-- The texts of the modifiers are the suffix, and each modifier is read again from its text,
      also as a suffix of its own. -/
  rejoins : ∀ suffix ms, ofSuffix family suffix = .ok ms →
    (Formula.modifiersText ms).toList = suffix ∧
      ∀ m ∈ ms, ofText? family m.text = some m ∧ ofSuffix family m.text.toList = .ok [m]
  /-- Where a suffix ends in no letter, one that begins with a letter is read behind it as it
      is on its own, or refused for the same chunk. -/
  concatenates : ∀ s t ms, EndsChunk s → BeginsChunk t → ofSuffix family s = .ok ms →
    ofSuffix family (s ++ t) = (ms ++ ·) <$> ofSuffix family t
  /-- A suffix is refused as a whole if it begins with no letter, and otherwise for its first
      chunk that is no modifier. -/
  refuses : ∀ suffix rejected,
    ofSuffix family suffix = .error rejected ↔ Refuses family suffix rejected

/-- Suffixes are read chunk by chunk, and nothing of them is lost. -/
theorem ofSuffix_chunkwise (family : Family) : ReadsChunkwise family where
  rejoins _ _ h := ⟨modifiersText_of_ofSuffix h, fun m hm =>
    ⟨(isOf_of_ofSuffix h m hm).ofText?_text, ofSuffix_text h hm⟩⟩
  concatenates _ _ _ hends ht hs := ofSuffix_append hs hends ht
  refuses _ _ := ofSuffix_eq_error_iff

/-- Rerolls behind the choice of the two highest, with successes behind both, which are read,
    or an explosion on a sign that is no comparison, which is refused in both places. -/
theorem ofSuffix_chunkwise_joined :
    ∃ ms, ofSuffix .die "kh2rr<3".toList = .ok ms ∧ ms.length = 2 ∧
      (Formula.modifiersText ms).toList = "kh2rr<3".toList ∧
      (∀ m ∈ ms, ofText? .die m.text = some m ∧ ofSuffix .die m.text.toList = .ok [m]) ∧
      (∃ successes, ofSuffix .die "cs>=5".toList = .ok [successes] ∧
        ofSuffix .die ("kh2rr<3".toList ++ "cs>=5".toList) = .ok (ms ++ [successes])) ∧
      Refuses .die "x≥2odd".toList "x≥2".toList ∧
      Refuses .die ("kh2rr<3".toList ++ "x≥2odd".toList) "x≥2".toList := by
  have hms : ofSuffix .die "kh2rr<3".toList = .ok
      [⟨"kh2", .keepDrop true true 2⟩, ⟨"rr<3", .reroll true (some ⟨.less, 3⟩)⟩] := by rfl
  have hends : EndsChunk "kh2rr<3".toList := by decide
  have hsuccesses : ofSuffix .die "cs>=5".toList = .ok
      [⟨"cs>=5", .countSuccess (some ⟨.atLeast, 5⟩)⟩] := by rfl
  have hrefused : ofSuffix .die "x≥2odd".toList = .error "x≥2".toList := by rfl
  have hreads := ofSuffix_chunkwise .die
  obtain ⟨htext, halone⟩ := hreads.rejoins _ _ hms
  have htaken := hreads.concatenates _ "cs>=5".toList _ hends (by decide) hms
  have hmissed := hreads.concatenates _ "x≥2odd".toList _ hends (by decide) hms
  rw [hsuccesses] at htaken
  rw [hrefused] at hmissed
  exact ⟨_, hms, rfl, htext, halone, ⟨_, hsuccesses, htaken⟩, (hreads.refuses _ _).mp hrefused,
    (hreads.refuses _ _).mp hmissed⟩

end DiceNotation.Modifier
