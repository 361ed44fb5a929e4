/-
  DiceNotation.Proofs.Modifier.Ranking

  Keeping and dropping by rank.

  Which results are picked out can be said without sorting: there are so many of them,
  all of them active, and each of them outranks every active result that is left
  (`Selection`). There is only one such choice (`Selection.unique`), and the choice from
  what was kept before is a choice from all (`Selection.again`), so that keeping twice is
  keeping the smaller number once.
-/

import Mathlib.Data.Finset.Card
import Mathlib.Data.Finset.Range
import DiceNotation.Modifier.Apply

namespace DiceNotation.Modifier

/-! ## Choices by rank -/

/-- The places of the active results. -/
def places (rs : List DieResult) : Finset Nat :=
  (Finset.range rs.length).filter fun i => rs[i]?.any (·.active) = true

/-- Whether the face at one place goes before the one at another: it is higher, or lower
    where the lowest go first, or it is the same face and was rolled earlier. -/
def Outranks (highest : Bool) (faces : List Int) (i j : Nat) : Prop :=
  ∃ x y, faces[i]? = some x ∧ faces[j]? = some y ∧
    ((if highest then y < x else x < y) ∨ x = y ∧ i < j)

/-- The places of so many active results, or of all if there are fewer, none of which
    ranks behind an active result at another place. -/
structure Selection (highest : Bool) (number : Nat) (rs : List DieResult)
    (chosen : Finset Nat) : Prop where
  subset : chosen ⊆ places rs
  card : chosen.card = min number (rs.countP (·.active))
  outranks : ∀ i ∈ chosen, ∀ j ∈ places rs, j ∉ chosen →
    Outranks highest (rs.map (·.result)) i j

theorem mem_places {rs : List DieResult} {i : Nat} :
    i ∈ places rs ↔ ∃ r, rs[i]? = some r ∧ r.active = true := by
  rw [places, Finset.mem_filter, Finset.mem_range, Option.any_eq_true]
  constructor
  · exact fun h => h.2
  · rintro ⟨r, hr, hactive⟩
    exact ⟨(List.getElem?_eq_some_iff.mp hr).1, r, hr, hactive⟩

theorem Outranks.asymm {highest : Bool} {faces : List Int} {i j : Nat}
    (h : Outranks highest faces i j) : ¬ Outranks highest faces j i := by
  rintro ⟨y', x', hy', hx', hji⟩
  obtain ⟨x, y, hx, hy, hij⟩ := h
  obtain rfl := Option.some.inj (hx.symm.trans hx')
  obtain rfl := Option.some.inj (hy.symm.trans hy')
  cases highest <;> simp only [Bool.false_eq_true, if_true, if_false] at hij hji <;> omega

/-- The choice by rank is unique: two choices are of one size, and a place that is in one of
    them only and a place that is in the other only would outrank each other. -/
theorem Selection.unique {highest : Bool} {number : Nat} {rs : List DieResult}
    {chosen chosen' : Finset Nat} (h : Selection highest number rs chosen)
    (h' : Selection highest number rs chosen') : chosen = chosen' := by
  have hcard : chosen.card = chosen'.card := h.card.trans h'.card.symm
  by_contra hne
  have hnot : ¬ chosen ⊆ chosen' := fun hsub =>
    hne (Finset.eq_of_subset_of_card_le hsub hcard.ge)
  have hnot' : ¬ chosen' ⊆ chosen := fun hsub =>
    hne (Finset.eq_of_subset_of_card_le hsub hcard.le).symm
  obtain ⟨i, hi, hi'⟩ := Finset.not_subset.mp hnot
  obtain ⟨j, hj', hj⟩ := Finset.not_subset.mp hnot'
  have hij := h.outranks i hi j (h'.subset hj') hj
  exact hij.asymm (h'.outranks j hj' i (h.subset hi) hi')

/-! ## Sorted results -/

section

variable {highest : Bool} {rs : List DieResult}

theorem ranked_perm : (ranked highest rs).Perm (rs.zipIdx.filter fun (r, _) => r.active) :=
  List.mergeSort_perm _ _

theorem mem_ranked {r : DieResult} {i : Nat} :
    (r, i) ∈ ranked highest rs ↔ rs[i]? = some r ∧ r.active = true := by
  rw [ranked, List.mem_mergeSort, List.mem_filter, List.mem_zipIdx_iff_getElem?]

theorem nodup_ranked : ((ranked highest rs).map Prod.snd).Nodup := by
  have hplaces : (rs.zipIdx.map Prod.snd).Nodup := by
    rw [List.zipIdx_map_snd]
    exact List.nodup_range'
  exact (ranked_perm.map Prod.snd).nodup_iff.mpr
    (hplaces.sublist (List.filter_sublist.map Prod.snd))

theorem length_ranked : (ranked highest rs).length = rs.countP (·.active) := by
  rw [ranked_perm.length_eq, ← List.countP_eq_length_filter]
  conv_rhs => rw [← List.zipIdx_map_fst 0 rs, List.countP_map]
  rfl

/-- There are as many places as active results. -/
theorem card_places : (places rs).card = rs.countP (·.active) := by
  have hplaces : places rs = ((ranked true rs).map Prod.snd).toFinset := by
    ext i
    rw [mem_places, List.mem_toFinset, List.mem_map]
    constructor
    · rintro ⟨r, hr⟩
      exact ⟨(r, i), mem_ranked.mpr hr, rfl⟩
    · rintro ⟨⟨r, j⟩, hr, rfl⟩
      exact ⟨r, mem_ranked.mp hr⟩
  rw [hplaces, List.toFinset_card_of_nodup nodup_ranked, List.length_map, length_ranked]

theorem ranksBefore_trans (a b c : DieResult × Nat) (hab : ranksBefore highest a b = true)
    (hbc : ranksBefore highest b c = true) : ranksBefore highest a c = true := by
  simp only [ranksBefore, Bool.or_eq_true, Bool.and_eq_true, beq_iff_eq, decide_eq_true_eq]
    at hab hbc ⊢
  cases highest <;> simp only [Bool.false_eq_true, if_true, if_false, decide_eq_true_eq]
    at hab hbc ⊢ <;> omega

theorem ranksBefore_total (a b : DieResult × Nat) :
    (ranksBefore highest a b || ranksBefore highest b a) = true := by
  simp only [ranksBefore, Bool.or_eq_true, Bool.and_eq_true, beq_iff_eq, decide_eq_true_eq]
  cases highest <;> simp only [Bool.false_eq_true, if_true, if_false, decide_eq_true_eq] <;> omega

theorem pairwise_ranked :
    (ranked highest rs).Pairwise fun a b => ranksBefore highest a b = true :=
  List.pairwise_mergeSort ranksBefore_trans ranksBefore_total _

/-- What ranks before a result at another place outranks it. -/
theorem outranks_of_ranksBefore {r s : DieResult} {i j : Nat} (hr : rs[i]? = some r)
    (hs : rs[j]? = some s) (hne : i ≠ j) (h : ranksBefore highest (r, i) (s, j) = true) :
    Outranks highest (rs.map (·.result)) i j := by
  refine ⟨r.result, s.result, by rw [List.getElem?_map, hr]; rfl,
    by rw [List.getElem?_map, hs]; rfl, ?_⟩
  simp only [ranksBefore, Bool.or_eq_true, Bool.and_eq_true, beq_iff_eq, decide_eq_true_eq] at h
  cases highest <;> simp only [Bool.false_eq_true, if_true, if_false, decide_eq_true_eq] at h ⊢ <;>
    omega

/-- The first results by rank are a choice by rank. -/
theorem selection_selected (highest : Bool) (number : Nat) (rs : List DieResult) :
    Selection highest number rs (selected highest number rs).toFinset := by
  have hsplit := List.take_append_drop number (ranked highest rs)
  have hfirst : ∀ i ∈ (selected highest number rs).toFinset,
      ∃ r, (r, i) ∈ (ranked highest rs).take number := by
    intro i hi
    obtain ⟨⟨r, j⟩, hr, rfl⟩ := List.mem_map.mp (List.mem_toFinset.mp hi)
    exact ⟨r, hr⟩
  refine ⟨fun i hi => ?_, ?_, fun i hi j hj hnot => ?_⟩
  · obtain ⟨r, hr⟩ := hfirst i hi
    exact mem_places.mpr ⟨r, mem_ranked.mp (List.mem_of_mem_take hr)⟩
  · have hnodup : (selected highest number rs).Nodup :=
      nodup_ranked.sublist ((List.take_sublist number _).map Prod.snd)
    rw [List.toFinset_card_of_nodup hnodup, selected, List.length_map, List.length_take,
      length_ranked]
  · obtain ⟨r, hr⟩ := hfirst i hi
    obtain ⟨s, hs⟩ := mem_places.mp hj
    -- what was not taken stands behind everything that was
    have hlast : (s, j) ∈ (ranked highest rs).drop number := by
      have hmem : (s, j) ∈ ranked highest rs := mem_ranked.mpr hs
      rw [← hsplit, List.mem_append] at hmem
      refine hmem.resolve_left fun htake => hnot ?_
      exact List.mem_toFinset.mpr (List.mem_map.mpr ⟨(s, j), htake, rfl⟩)
    have hpairs := @pairwise_ranked highest rs
    rw [← hsplit, List.pairwise_append] at hpairs
    have hne : i ≠ j := fun heq => hnot (heq ▸ hi)
    exact outranks_of_ranksBefore (mem_ranked.mp (List.mem_of_mem_take hr)).1 hs.1 hne
      (hpairs.2.2 _ hr _ hlast)

end

/-! ## What is left -/

/-- Results of which the active ones in some places, or in all others, leave play. -/
def retire (keep : Bool) (chosen : Finset Nat) (rs : List DieResult) : List DieResult :=
  rs.mapIdx fun i r =>
    if r.active = true ∧ (i ∈ chosen ↔ keep = false) then
      { r with active := false, discarded := true }
    else r

theorem keepOrDrop_eq (keep highest : Bool) (number : Nat) (rs : List DieResult) :
    keepOrDrop keep highest number rs =
      retire keep (selected highest number rs).toFinset rs := by
  apply List.ext_getElem?
  intro i
  simp only [keepOrDrop, retire, List.getElem?_map, List.getElem?_zipIdx, List.getElem?_mapIdx,
    Option.map_map]
  refine Option.map_congr fun r _ => ?_
  cases keep <;> cases hactive : r.active <;>
    simp [hactive, DieResult.discard]

section

variable {highest : Bool} {a b : Nat} {rs : List DieResult} {kept chosen : Finset Nat}

/-- What leaves play still shows its face. -/
theorem map_result_retire (keep : Bool) (chosen : Finset Nat) (rs : List DieResult) :
    (retire keep chosen rs).map (·.result) = rs.map (·.result) := by
  apply List.ext_getElem?
  intro i
  simp only [retire, List.getElem?_map, List.getElem?_mapIdx, Option.map_map]
  refine Option.map_congr fun r _ => ?_
  simp only [Function.comp_apply]
  split <;> rfl

/-- Nothing but what is kept stays in play. -/
theorem places_retire (hkept : kept ⊆ places rs) : places (retire true kept rs) = kept := by
  ext i
  rw [mem_places]
  simp only [retire, List.getElem?_mapIdx, Option.map_eq_some_iff]
  constructor
  · rintro ⟨r', ⟨r, hr, rfl⟩, hactive⟩
    by_contra hi
    split at hactive
    · cases hactive
    · next hstays => exact hstays ⟨hactive, by simpa using hi⟩
  · intro hi
    obtain ⟨r, hr, hactive⟩ := mem_places.mp (hkept hi)
    exact ⟨r, ⟨r, hr, by simp [hi]⟩, hactive⟩

theorem retire_retire (hchosen : chosen ⊆ kept) :
    retire true chosen (retire true kept rs) = retire true chosen rs := by
  apply List.ext_getElem?
  intro i
  simp only [retire, List.getElem?_mapIdx, Option.map_map]
  refine Option.map_congr fun r _ => ?_
  simp only [Function.comp_apply]
  by_cases hi : i ∈ kept
  · simp [hi]
  · have hnot : i ∉ chosen := fun h => hi (hchosen h)
    cases hactive : r.active <;> simp [hi, hnot, hactive]

/-- A choice from what a first choice has kept is a choice from all results. -/
theorem Selection.again (h : Selection highest a rs kept)
    (h' : Selection highest b (retire true kept rs) chosen) :
    Selection highest (min a b) rs chosen := by
  have hplaces := places_retire h.subset
  have hsubset : chosen ⊆ kept := hplaces ▸ h'.subset
  refine ⟨hsubset.trans h.subset, ?_, fun i hi j hj hnot => ?_⟩
  · have hcount : (retire true kept rs).countP (·.active) = kept.card := by
      rw [← card_places, hplaces]
    rw [h'.card, hcount, h.card]
    omega
  · by_cases hkept : j ∈ kept
    · have houtranks := h'.outranks i hi j (hplaces.symm ▸ hkept) hnot
      rwa [map_result_retire] at houtranks
    · exact h.outranks i (hsubset hi) j hj hkept

end

/-! ## Keeping and dropping -/

/-- Keeping and dropping go by one and the same choice: so many active results, each of which
    outranks all active results that are left, where of equal faces the one rolled earlier
    counts for more. Keeping retires the active results that were not chosen, dropping those
    that were, and nothing else is done to any result. To keep from what was kept is to keep
    the smaller number at once. -/
theorem keepOrDrop_by_rank (highest : Bool) (number : Nat) (rs : List DieResult) :
    ∃ chosen, Selection highest number rs chosen ∧
      (∀ keep, keepOrDrop keep highest number rs = retire keep chosen rs) ∧
        ∀ a b, keepOrDrop true highest b (keepOrDrop true highest a rs) =
          keepOrDrop true highest (min a b) rs := by
  refine ⟨_, selection_selected highest number rs,
    fun keep => keepOrDrop_eq keep highest number rs, fun a b => ?_⟩
  simp only [keepOrDrop_eq]
  have hkept := selection_selected highest a rs
  have hsecond := selection_selected highest b (retire true (selected highest a rs).toFinset rs)
  have honce := selection_selected highest (min a b) rs
  have hsubset : (selected highest b _).toFinset ⊆ (selected highest a rs).toFinset :=
    hsecond.subset.trans (places_retire hkept.subset).subset
  rw [retire_retire hsubset, (hkept.again hsecond).unique honce]

/-- Of three fives the first two are kept, and the dice that show less are not. -/
example : (keepOrDrop true true 2 (List.map .fresh [5, 3, 5, 1, 5])).map (·.active) =
    [true, false, true, false, false] := by cbv

end DiceNotation.Modifier
