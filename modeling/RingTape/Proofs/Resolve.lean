import Mathlib.Data.List.Induction
import RingTape.Proofs.Matching

/-!
Links made of a matching. Of the pairs with the same place, a map holds the last one. As long as no
place is linked to two others, it holds what the list of pairs holds, and nothing is lost by going
through it. So the links of a resolved program can be read in either direction as its matching.
-/

namespace RingTape

namespace Links

variable {ps : List (Int × Int)} {o c p t : Int}

theorem ofPairs_concat (ps : List (Int × Int)) (q : Int × Int) :
    ofPairs (ps ++ [q]) = (ofPairs ps).add q.1 q.2 := by
  rw [ofPairs, addAll_append, addAll_cons, addAll_nil, ofPairs]

/-- Of the pairs with an opening place, the last one counts. -/
theorem getElem?_forward_ofPairs (ps : List (Int × Int)) (o : Int) :
    (ofPairs ps).forward[o]? = (ps.filter (·.1 = o)).getLast?.map Prod.snd := by
  induction ps using List.reverseRecOn with
  | nil => simp [ofPairs]
  | append_singleton ps q ih =>
      rw [ofPairs_concat, getElem?_forward_add, List.filter_append]
      by_cases hq : o = q.1
      · simp [hq]
      · have hnil : [q].filter (·.1 = o) = [] := by simpa using Ne.symm hq
        rw [if_neg hq, ih, hnil, List.append_nil]

def swap (l : Links) : Links where
  pairs := l.pairs.map Prod.swap
  forward := l.backward
  backward := l.forward

theorem swap_add (l : Links) (o c : Int) : (l.add o c).swap = l.swap.add c o := by
  simp [swap, add]

theorem swap_addAll (l : Links) (ps : List (Int × Int)) :
    (l.addAll ps).swap = l.swap.addAll (ps.map Prod.swap) := by
  induction ps generalizing l with
  | nil => rfl
  | cons q ps ih => simp [ih, swap_add]

theorem swap_ofPairs (ps : List (Int × Int)) : (ofPairs ps).swap = ofPairs (ps.map Prod.swap) := by
  have hempty : empty.swap = empty := by simp [swap, empty]
  rw [ofPairs, swap_addAll, hempty]
  rfl

/-- Of the pairs with a closing place, the last one counts. -/
theorem getElem?_backward_ofPairs (ps : List (Int × Int)) (c : Int) :
    (ofPairs ps).backward[c]? = (ps.filter (·.2 = c)).getLast?.map Prod.fst := by
  show (ofPairs ps).swap.forward[c]? = _
  rw [swap_ofPairs, getElem?_forward_ofPairs, List.filter_map, List.getLast?_map, Option.map_map]
  rfl

/-- What a map holds after pairs that do not contradict one another. -/
theorem getElem?_forward_ofPairs_iff (h : ∀ q ∈ ps, ∀ r ∈ ps, q.1 = r.1 → q.2 = r.2) :
    (ofPairs ps).forward[o]? = some c ↔ (o, c) ∈ ps := by
  rw [getElem?_forward_ofPairs, Option.map_eq_some_iff]
  constructor
  · rintro ⟨q, hq, rfl⟩
    obtain ⟨hmem, hqo⟩ := List.mem_filter.1 (List.mem_of_getLast? hq)
    obtain rfl : q.1 = o := of_decide_eq_true hqo
    exact hmem
  · intro hmem
    have hkept : (o, c) ∈ ps.filter (·.1 = o) := List.mem_filter.2 ⟨hmem, decide_eq_true rfl⟩
    have hne := List.ne_nil_of_mem hkept
    -- the last pair with this place need not be this one, but it leads to the same place
    obtain ⟨hlast, hlasto⟩ := List.mem_filter.1 (List.getLast_mem hne)
    exact ⟨_, List.getLast?_eq_some_getLast hne, h _ hlast _ hmem (of_decide_eq_true hlasto)⟩

theorem getElem?_backward_ofPairs_iff (h : ∀ q ∈ ps, ∀ r ∈ ps, q.2 = r.2 → q.1 = r.1) :
    (ofPairs ps).backward[c]? = some o ↔ (o, c) ∈ ps := by
  show (ofPairs ps).swap.forward[c]? = some o ↔ _
  rw [swap_ofPairs, getElem?_forward_ofPairs_iff]
  · simp
  · intro q hq r hr heq
    obtain ⟨q', hq', rfl⟩ := List.mem_map.1 hq
    obtain ⟨r', hr', rfl⟩ := List.mem_map.1 hr
    exact h q' hq' r' hr' heq

/-- No place is linked to two others, nor opens one pair and closes another. -/
structure Unambiguous (ps : List (Int × Int)) : Prop where
  opening : ∀ q ∈ ps, ∀ r ∈ ps, q.1 = r.1 → q.2 = r.2
  closing : ∀ q ∈ ps, ∀ r ∈ ps, q.2 = r.2 → q.1 = r.1
  apart : ∀ q ∈ ps, ∀ r ∈ ps, q.1 ≠ r.2

namespace Unambiguous

theorem forward_iff (h : Unambiguous ps) : (ofPairs ps).forward[o]? = some c ↔ (o, c) ∈ ps :=
  getElem?_forward_ofPairs_iff h.opening

theorem backward_iff (h : Unambiguous ps) : (ofPairs ps).backward[c]? = some o ↔ (o, c) ∈ ps :=
  getElem?_backward_ofPairs_iff h.closing

/-- The partner of a place is the other place of its pair. -/
theorem partner?_iff (h : Unambiguous ps) :
    (ofPairs ps).partner? p = some t ↔ (p, t) ∈ ps ∨ (t, p) ∈ ps := by
  rw [partner?]
  cases hforward : (ofPairs ps).forward[p]? with
  | none =>
      have hopens : (p, t) ∉ ps := fun hmem => by
        rw [h.forward_iff.2 hmem] at hforward
        cases hforward
      exact h.backward_iff.trans (by simp [hopens])
  | some c =>
      have hcloses : (t, p) ∉ ps := fun hmem =>
        h.apart _ (h.forward_iff.1 hforward) _ hmem rfl
      simp only [hcloses, or_false, ← h.forward_iff, hforward]

end Unambiguous

end Links

namespace IsMatching

variable {l : List Symbol} {ps : List (Int × Int)} {o c : Int}

theorem unambiguous (h : IsMatching l ps) : Links.Unambiguous ps where
  opening q hq r hr heq := by
    obtain ⟨o, c, rfl, hm⟩ := h.matched q hq
    obtain ⟨o', c', rfl, hm'⟩ := h.matched r hr
    obtain rfl : o = o' := Int.natCast_inj.1 heq
    rw [hm.unique_right hm']
  closing q hq r hr heq := by
    obtain ⟨o, c, rfl, hm⟩ := h.matched q hq
    obtain ⟨o', c', rfl, hm'⟩ := h.matched r hr
    obtain rfl : c = c' := Int.natCast_inj.1 heq
    rw [hm.unique_left hm']
  apart q hq r hr heq := by
    obtain ⟨o, c, rfl, hm⟩ := h.matched q hq
    obtain ⟨o', c', rfl, hm'⟩ := h.matched r hr
    obtain rfl : o = c' := Int.natCast_inj.1 heq
    exact hm.ne hm' rfl

theorem forward_iff (h : IsMatching l ps) :
    (Links.ofPairs ps).forward[o]? = some c ↔ (o, c) ∈ ps :=
  h.unambiguous.forward_iff

theorem backward_iff (h : IsMatching l ps) :
    (Links.ofPairs ps).backward[c]? = some o ↔ (o, c) ∈ ps :=
  h.unambiguous.backward_iff

/-- The partner of a partner. -/
theorem partner?_partner? (h : IsMatching l ps) {k : Nat}
    (hk : l[k]? = some .opening ∨ l[k]? = some .closing) :
    ∃ t, (Links.ofPairs ps).partner? k = some t ∧
      (Links.ofPairs ps).partner? t = some (k : Int) := by
  obtain ⟨⟨o, c⟩, ⟨hq, hqk⟩, -⟩ := h.covers k hk
  simp only at hqk
  rcases hqk with rfl | rfl
  · exact ⟨c, h.unambiguous.partner?_iff.2 (Or.inl hq), h.unambiguous.partner?_iff.2 (Or.inr hq)⟩
  · exact ⟨o, h.unambiguous.partner?_iff.2 (Or.inr hq), h.unambiguous.partner?_iff.2 (Or.inl hq)⟩

end IsMatching

namespace Program

variable {p : Program} {links : Links}

theorem isMatching_of_resolve (h : p.resolve = .ok links) :
    IsMatching p.symbols.toList links.pairs.toList ∧ links = .ofPairs links.pairs.toList := by
  obtain ⟨b, hb⟩ := balanced_iff_exists_block.1 (exists_resolve_ok_iff.1 ⟨links, h⟩)
  obtain rfl := Except.ok.inj (h.symm.trans (b.resolve_eq hb.symm))
  rw [Links.pairs_ofPairs, ← hb]
  exact ⟨b.isMatching_pairs, rfl⟩

/-- The brackets of a program are matched exactly when they are balanced, and then in the only way
there is; the two maps are this matching, read from either side. -/
theorem resolve_computes_matching (p : Program) :
    ((∃ links, p.resolve = .ok links) ↔ Balanced p.symbols.toList) ∧
      ∀ links, p.resolve = .ok links →
        IsMatching p.symbols.toList links.pairs.toList ∧
        (∀ ps, IsMatching p.symbols.toList ps → ps = links.pairs.toList) ∧
        (∀ o c, links.forward[o]? = some c ↔ (o, c) ∈ links.pairs.toList) ∧
        (∀ o c, links.backward[c]? = some o ↔ (o, c) ∈ links.pairs.toList) ∧
        ∀ k : Nat, p.symbols[k]? = some .opening ∨ p.symbols[k]? = some .closing →
          ∃ t, links.partner? k = some t ∧ links.partner? t = some (k : Int) := by
  refine ⟨exists_resolve_ok_iff, fun links h => ?_⟩
  obtain ⟨hm, heq⟩ := isMatching_of_resolve h
  refine ⟨hm, fun ps hps => hps.unique hm, fun o c => ?_, fun o c => ?_, fun k hk => ?_⟩
  · rw [← hm.forward_iff, ← heq]
  · rw [← hm.backward_iff, ← heq]
  · rw [← Array.getElem?_toList] at hk
    have := hm.partner?_partner? hk
    rwa [← heq] at this

/-- The inner loop of `[[]+]` comes first, since it closes first, and there is no other order. -/
theorem nested_loops_matched :
    (ofString "[[]+]").resolve = .ok (.ofPairs [(1, 2), (0, 4)]) ∧
      IsMatching (ofString "[[]+]").symbols.toList [(1, 2), (0, 4)] ∧
      ∀ ps, IsMatching (ofString "[[]+]").symbols.toList ps → ps = [(1, 2), (0, 4)] := by
  have h : (ofString "[[]+]").resolve = .ok (.ofPairs [(1, 2), (0, 4)]) := rfl
  obtain ⟨hm, hunique, -⟩ := (resolve_computes_matching (ofString "[[]+]")).2 _ h
  exact ⟨h, hm, hunique⟩

end Program

end RingTape
