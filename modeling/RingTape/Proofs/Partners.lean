import Mathlib.Data.List.Nodup
import Mathlib.Data.List.Pairwise
import RingTape.Proofs.Mirror
import RingTape.Proofs.Resolve

/-!
Partners. Each pair that is added goes into a list and into two maps, and a row of slots is made of
the list afterwards, with one slot for both parts that a place can play. The list only grows; in the
maps a later pair replaces an earlier one, in each map by a place of its own. So every view can be
told from the list of pairs (`getElem?_forward_ofPairs`, `getElem?_backward_ofPairs`,
`contains_ofPairs_iff`), but the views need not say the same.

The slots hold what `partner?` answers as long as no place closes a pair after it has opened one,
even if places are linked many times over (`exists_slots_holding`). Once all places differ, each map
is the inverse of the other, the partner of a partner is the place itself, and the order of the pairs
does not matter.
-/

namespace RingTape

namespace Links

variable {ps qs : List (Int × Int)} {p t o c : Int}

/-! ### What each view tells of the pairs -/

theorem size_ofPairs (ps : List (Int × Int)) : (ofPairs ps).size = ps.length := by
  rw [size, ← Array.length_toList, pairs_ofPairs]

def places (ps : List (Int × Int)) : List Int := ps.flatMap fun q => [q.1, q.2]

theorem mem_places_iff : p ∈ places ps ↔ ∃ q ∈ ps, p = q.1 ∨ p = q.2 := by
  simp [places]

theorem contains_add (l : Links) (o c place : Int) :
    (l.add o c).contains place = true ↔ (place = o ∨ place = c) ∨ l.contains place = true := by
  simp only [contains, add, Std.TreeMap.contains_insert, Bool.or_eq_true, beq_iff_eq,
    Std.LawfulEqCmp.compare_eq_iff_eq, eq_comm (a := place)]
  tauto

theorem contains_ofPairs_iff : (ofPairs ps).contains p = true ↔ p ∈ places ps := by
  induction ps using List.reverseRecOn with
  | nil => simp [places, ofPairs, empty, contains]
  | append_singleton ps q ih =>
      rw [ofPairs_concat, contains_add, ih]
      simp [places, or_comm]

/-! ### Slots made of the pairs -/

/-- Each slot holds the partner of its place, or -1 when there is none. -/
def HeldBy (l : Links) (slots : Array Int) : Prop :=
  ∀ k < slots.size, slots[k]? = some ((l.partner? k).getD (-1))

/-- A closing place that opens nothing gets the partner that it is given. -/
theorem partner?_add {l : Links} (hfree : l.forward[c]? = none) (p : Int) :
    (l.add o c).partner? p =
      if p = c then some o else if p = o then some c else l.partner? p := by
  rw [partner?, getElem?_forward_add, getElem?_backward_add]
  by_cases hc : p = c
  · subst hc
    by_cases ho : p = o
    · simp [ho]
    · simp [ho, hfree]
  · rw [if_neg hc, if_neg hc]
    by_cases ho : p = o
    · rw [if_pos ho, if_pos ho]
    · rw [if_neg ho, if_neg ho, partner?]

theorem heldBy_empty (n : Nat) : empty.HeldBy (Array.replicate n (-1)) := by
  intro k hk
  rw [Array.size_replicate] at hk
  simp [partner?, hk]

/-- One more pair goes into the slots as it goes into the maps, if its closing place opens nothing
yet. -/
theorem HeldBy.add {l : Links} {slots : Array Int} (h : l.HeldBy slots) {o c : Nat}
    (ho : o < slots.size) (hc : c < slots.size) (hfree : l.forward[(c : Int)]? = none) :
    ∃ slots', setPair slots (o, c) = .ok slots' ∧ slots'.size = slots.size ∧
      (l.add o c).HeldBy slots' := by
  obtain ⟨slots', hset, hsize, hslots⟩ := exists_setPair_natCast ho hc
  refine ⟨slots', hset, hsize, fun k hk => ?_⟩
  rw [hslots, partner?_add hfree]
  simp only [Int.natCast_inj]
  by_cases hkc : k = c
  · rw [if_pos hkc, if_pos hkc, Option.getD_some]
  · rw [if_neg hkc, if_neg hkc]
    by_cases hko : k = o
    · rw [if_pos hko, if_pos hko, Option.getD_some]
    · rw [if_neg hko, if_neg hko, h k (hsize ▸ hk)]

/-- A row of slots holds the partners after any pairs none of whose places closes a pair after it has
opened one. -/
theorem HeldBy.addAll {l : Links} {slots : Array Int} (h : l.HeldBy slots)
    (hinside : ∀ p ∈ places ps, 0 ≤ p ∧ p < slots.size) (hapart : ps.Pairwise fun q r => q.1 ≠ r.2)
    (hfree : ∀ q ∈ ps, l.forward[q.2]? = none) :
    ∃ slots', ps.foldlM setPair slots = .ok slots' ∧ slots'.size = slots.size ∧
      (l.addAll ps).HeldBy slots' := by
  induction ps generalizing l slots with
  | nil => exact ⟨slots, rfl, rfl, h⟩
  | cons q ps ih =>
      obtain ⟨hq, hrest⟩ := List.pairwise_cons.1 hapart
      obtain ⟨ho, ho'⟩ := hinside q.1 (mem_places_iff.2 ⟨q, List.mem_cons_self, Or.inl rfl⟩)
      obtain ⟨hc, hc'⟩ := hinside q.2 (mem_places_iff.2 ⟨q, List.mem_cons_self, Or.inr rfl⟩)
      obtain ⟨q₁, q₂⟩ := q
      obtain ⟨o, rfl⟩ := Int.eq_ofNat_of_zero_le ho
      obtain ⟨c, rfl⟩ := Int.eq_ofNat_of_zero_le hc
      replace ho' : o < slots.size := Int.ofNat_lt.1 ho'
      replace hc' : c < slots.size := Int.ofNat_lt.1 hc'
      obtain ⟨mid, hmid, hsize, hheld⟩ := h.add ho' hc' (hfree _ List.mem_cons_self)
      obtain ⟨slots', hslots, hsize', hheld'⟩ := ih hheld
        (fun p hp => hsize ▸ hinside p (List.mem_append_right _ hp)) hrest fun r hr => by
          rw [getElem?_forward_add, if_neg (Ne.symm (hq r hr)), hfree r (List.mem_cons_of_mem _ hr)]
      refine ⟨slots', ?_, hsize'.trans hsize, hheld'⟩
      rw [List.foldlM_cons, hmid]
      exact hslots

/-- The slots hold the partners unless a place closes a pair after it has opened one. -/
theorem exists_slots_holding {n : Nat} (hinside : ∀ p ∈ places ps, 0 ≤ p ∧ p < n)
    (hapart : ps.Pairwise fun q r => q.1 ≠ r.2) :
    ∃ slots, (ofPairs ps).slots n = .ok slots ∧ slots.size = n ∧ (ofPairs ps).HeldBy slots := by
  obtain ⟨slots, hslots, hsize, hheld⟩ := (heldBy_empty n).addAll (by simpa using hinside) hapart
    fun q _ => getElem?_forward_empty q.2
  refine ⟨slots, ?_, by simpa using hsize, hheld⟩
  rw [Links.slots, if_neg (by omega), pairs_ofPairs]
  exact hslots

/-! ### Places that all differ -/

/-- A place belongs to one pair only. -/
theorem eq_of_mem_places (h : (places ps).Nodup) {q r : Int × Int} (hq : q ∈ ps) (hr : r ∈ ps)
    (hpq : p = q.1 ∨ p = q.2) (hpr : p = r.1 ∨ p = r.2) : q = r := by
  by_contra hne
  have : Std.Symm (List.Disjoint (α := Int)) := ⟨fun _ _ => List.disjoint_symm⟩
  have hdisjoint := (List.nodup_flatMap.1 h).2.forall hq hr hne
  exact hdisjoint (List.mem_pair.2 hpq) (List.mem_pair.2 hpr)

theorem unambiguous_of_nodup (h : (places ps).Nodup) : Unambiguous ps where
  opening _ hq _ hr heq :=
    congrArg Prod.snd (eq_of_mem_places h hq hr (Or.inl rfl) (Or.inl heq))
  closing _ hq _ hr heq :=
    congrArg Prod.fst (eq_of_mem_places h hq hr (Or.inr rfl) (Or.inr heq))
  apart q hq r hr heq := by
    obtain rfl := eq_of_mem_places h hq hr (Or.inl rfl) (Or.inr heq)
    have hpair := (List.nodup_flatMap.1 h).1 q hq
    simp [heq] at hpair

namespace Unambiguous

theorem pairwise (h : Unambiguous ps) : ps.Pairwise fun q r => q.1 ≠ r.2 :=
  List.pairwise_of_forall_mem_list h.apart

theorem of_perm (h : Unambiguous ps) (hqs : qs.Perm ps) : Unambiguous qs where
  opening q hq r hr := h.opening q (hqs.mem_iff.1 hq) r (hqs.mem_iff.1 hr)
  closing q hq r hr := h.closing q (hqs.mem_iff.1 hq) r (hqs.mem_iff.1 hr)
  apart q hq r hr := h.apart q (hqs.mem_iff.1 hq) r (hqs.mem_iff.1 hr)

/-- The order of the pairs does not matter for the partners. -/
theorem partner?_of_perm (h : Unambiguous ps) (hqs : qs.Perm ps) (p : Int) :
    (ofPairs qs).partner? p = (ofPairs ps).partner? p := by
  ext t
  rw [h.partner?_iff, (h.of_perm hqs).partner?_iff, hqs.mem_iff, hqs.mem_iff]

end Unambiguous

theorem HeldBy.eq_of_size {l l' : Links} {slots slots' : Array Int} (h : l.HeldBy slots)
    (h' : l'.HeldBy slots') (hsize : slots'.size = slots.size)
    (hl : ∀ p, l'.partner? p = l.partner? p) : slots' = slots := by
  refine Array.ext_getElem? fun k => ?_
  by_cases hk : k < slots.size
  · rw [h k hk, h' k (hsize ▸ hk), hl]
  · rw [Array.getElem?_eq_none (by omega), Array.getElem?_eq_none (by omega)]

/-- Nor does it for the slots. -/
theorem Unambiguous.slots_of_perm {n : Nat} {slots : Array Int} (h : Unambiguous ps)
    (hinside : ∀ p ∈ places ps, 0 ≤ p ∧ p < n) (hqs : qs.Perm ps)
    (hslots : (ofPairs ps).slots n = .ok slots) : (ofPairs qs).slots n = .ok slots := by
  obtain ⟨slots₁, hslots₁, hsize₁, hheld₁⟩ := exists_slots_holding hinside h.pairwise
  obtain ⟨slots₂, hslots₂, hsize₂, hheld₂⟩ := exists_slots_holding
    (fun p hp => hinside p ((hqs.flatMap_right _).mem_iff.1 hp)) (h.of_perm hqs).pairwise
  obtain rfl := Except.ok.inj (hslots.symm.trans hslots₁)
  rw [hslots₂, hheld₁.eq_of_size hheld₂ (hsize₂.trans hsize₁.symm) (h.partner?_of_perm hqs)]

/-- Links say the same in every view. Their size is the number of pairs, the places with a partner
are those of the pairs, and each map holds the last pair with a place. Once all places differ, the
maps are inverses of one another, the partner of a partner is the place itself, and a row of slots
that has all the places holds the partner of each and -1 elsewhere, whatever the order of the
pairs. -/
theorem views_agree (ps : List (Int × Int)) :
    (ofPairs ps).size = ps.length ∧
    (∀ p, (ofPairs ps).contains p = true ↔ ∃ q ∈ ps, p = q.1 ∨ p = q.2) ∧
    (∀ p, (ofPairs ps).contains p = true ↔ ∃ t, (ofPairs ps).partner? p = some t) ∧
    (∀ o : Int, (ofPairs ps).forward[o]? = (ps.filter (·.1 = o)).getLast?.map Prod.snd) ∧
    (∀ c : Int, (ofPairs ps).backward[c]? = (ps.filter (·.2 = c)).getLast?.map Prod.fst) ∧
    ((places ps).Nodup →
      (∀ o c : Int, (ofPairs ps).forward[o]? = some c ↔ (ofPairs ps).backward[c]? = some o) ∧
      (∀ p t, (ofPairs ps).partner? p = some t → (ofPairs ps).partner? t = some p) ∧
      ∀ n : Nat, (∀ p ∈ places ps, 0 ≤ p ∧ p < n) →
        ∃ slots, (ofPairs ps).slots n = .ok slots ∧ slots.size = n ∧
          (∀ p < n, slots[p]? = some (((ofPairs ps).partner? p).getD (-1))) ∧
          ∀ qs, qs.Perm ps → (ofPairs qs).slots n = .ok slots) := by
  refine ⟨size_ofPairs ps, fun p => contains_ofPairs_iff.trans mem_places_iff, fun p => ?_,
    getElem?_forward_ofPairs ps, getElem?_backward_ofPairs ps, fun hnodup => ?_⟩
  · rw [contains_eq_isSome_partner?, Option.isSome_iff_exists]
  have h := unambiguous_of_nodup hnodup
  refine ⟨fun o c => ?_, fun p t hp => ?_, fun n hinside => ?_⟩
  · rw [h.forward_iff, h.backward_iff]
  · exact h.partner?_iff.2 (h.partner?_iff.1 hp).symm
  · obtain ⟨slots, hslots, hsize, hheld⟩ := exists_slots_holding hinside h.pairwise
    exact ⟨slots, hslots, hsize, fun p hp => hheld p (hsize ▸ hp),
      fun qs hqs => h.slots_of_perm hinside hqs hslots⟩

/-- Two pairs in six slots, added in either order. -/
theorem outer_pair_first :
    (places [(0, 4), (3, 1)]).Nodup ∧ (∀ p ∈ places [(0, 4), (3, 1)], 0 ≤ p ∧ p < (6 : Nat)) ∧
      ∃ slots, (ofPairs [(0, 4), (3, 1)]).slots (6 : Nat) = .ok slots ∧
        slots = #[4, 3, -1, 1, 0, -1] ∧ (ofPairs [(3, 1), (0, 4)]).slots (6 : Nat) = .ok slots ∧
        (ofPairs [(0, 4), (3, 1)]).partner? 1 = some 3 ∧
        (ofPairs [(0, 4), (3, 1)]).partner? 3 = some 1 := by
  have hnodup : (places [(0, 4), (3, 1)]).Nodup := by decide
  have hinside : ∀ p ∈ places [(0, 4), (3, 1)], 0 ≤ p ∧ p < (6 : Nat) := by decide
  obtain ⟨-, -, -, -, -, hdiffer⟩ := views_agree [(0, 4), (3, 1)]
  obtain ⟨-, hpartner, hslots⟩ := hdiffer hnodup
  obtain ⟨slots, hok, -, -, hperm⟩ := hslots 6 hinside
  have hcomputed : (ofPairs [(0, 4), (3, 1)]).slots (6 : Nat) = .ok #[4, 3, -1, 1, 0, -1] := rfl
  exact ⟨hnodup, hinside, slots, hok, Except.ok.inj (hok.symm.trans hcomputed),
    hperm _ (List.Perm.swap _ _ _), rfl, hpartner 1 3 rfl⟩

end Links

end RingTape
