import Mathlib.Data.List.Infix
import Mathlib.Logic.ExistsUnique
import RingTape.Proofs.Block

/-!
Matching brackets. An opening and a closing bracket belong together when what stands between them is
balanced. The height of a place, the number of brackets open in front of it, decides every question
about such pairs: it is the same in front of the opening bracket and behind the closing one, and
larger everywhere in between. Hence a bracket has at most one partner and no two pairs cross.

The pairs of a block are pairs that belong together, they leave no bracket out and come in the order
of their closing brackets. There is only one list of this kind (`IsMatching.unique`), and it is what
`resolve` computes.
-/

namespace RingTape

structure Matched (l : List Symbol) (o c : Nat) : Prop where
  opening : l[o]? = some .opening
  closing : l[c]? = some .closing
  lt : o < c
  between : Balanced ((l.take c).drop (o + 1))

/-- A list of all the pairs of brackets that belong together, by their closing brackets. -/
structure IsMatching (l : List Symbol) (ps : List (Int × Int)) : Prop where
  matched : ∀ q ∈ ps, ∃ o c : Nat, q = ((o : Int), (c : Int)) ∧ Matched l o c
  covers : ∀ k : Nat, l[k]? = some .opening ∨ l[k]? = some .closing →
    ∃! q, q ∈ ps ∧ (q.1 = k ∨ q.2 = k)
  uncrossed : ∀ q ∈ ps, ∀ r ∈ ps, ¬ (q.1 < r.1 ∧ r.1 < q.2 ∧ q.2 < r.2)
  ordered : ps.Pairwise fun q r => q.2 < r.2

/-! ### Heights -/

def height (l : List Symbol) (k : Nat) : Int :=
  (l.take k).count .opening - (l.take k).count .closing

theorem height_succ_of_opening {l : List Symbol} {k : Nat} (h : l[k]? = some .opening) :
    height l (k + 1) = height l k + 1 := by
  have hne := Symbol.opening_ne_closing
  simp only [height, List.take_add_one, h, Option.toList_some, List.count_append,
    List.count_singleton_self, List.count_singleton, beq_eq_false_iff_ne.2 hne]
  push_cast
  omega

theorem height_succ_of_closing {l : List Symbol} {k : Nat} (h : l[k]? = some .closing) :
    height l (k + 1) = height l k - 1 := by
  have hne := Symbol.opening_ne_closing.symm
  simp only [height, List.take_add_one, h, Option.toList_some, List.count_append,
    List.count_singleton_self, List.count_singleton, beq_eq_false_iff_ne.2 hne]
  push_cast
  omega

theorem height_of_le {l : List Symbol} {k x : Nat} (h : k ≤ x) :
    height l x = height l k + ((l.take x).drop k).count .opening -
      ((l.take x).drop k).count .closing := by
  have hsplit : l.take x = l.take k ++ (l.take x).drop k := by
    have := (List.take_append_drop k (l.take x)).symm
    rwa [List.take_take, Nat.min_eq_left h] at this
  have hcount (s : Symbol) : (l.take x).count s =
      (l.take k).count s + ((l.take x).drop k).count s := by
    have := congrArg (List.count s) hsplit
    rwa [List.count_append] at this
  simp only [height, hcount]
  push_cast
  omega

namespace Matched

variable {l : List Symbol} {o c o' c' : Nat}

/-- An opening bracket is not a closing one. -/
theorem ne (h : Matched l o c) (h' : Matched l o' c') : o ≠ c' := by
  rintro rfl
  exact Symbol.not_closing_of_opening h.opening h'.closing

theorem height_lt (h : Matched l o c) {x : Nat} (hox : o < x) (hxc : x ≤ c) :
    height l o < height l x := by
  have hpre : (l.take x).drop (o + 1) <+: (l.take c).drop (o + 1) := by
    have : l.take x <+: l.take c := by
      rw [show l.take x = (l.take c).take x by rw [List.take_take, Nat.min_eq_left hxc]]
      exact List.take_prefix x _
    exact this.drop (o + 1)
  have hle := h.between.prefixes _ hpre
  have hx := height_of_le (l := l) (k := o + 1) (x := x) hox
  have ho := height_succ_of_opening h.opening
  omega

theorem height_succ_eq (h : Matched l o c) : height l (c + 1) = height l o := by
  have htotal := h.between.total
  have hc := height_of_le (l := l) (k := o + 1) (x := c) h.lt
  have ho := height_succ_of_opening h.opening
  have hs := height_succ_of_closing h.closing
  omega

theorem unique_right (h : Matched l o c) (h' : Matched l o c') : c = c' := by
  rcases Nat.lt_trichotomy c c' with hlt | heq | hlt
  · have := h'.height_lt (x := c + 1) (by have := h.lt; omega) hlt
    rw [h.height_succ_eq] at this
    omega
  · exact heq
  · have := h.height_lt (x := c' + 1) (by have := h'.lt; omega) hlt
    rw [h'.height_succ_eq] at this
    omega

theorem unique_left (h : Matched l o c) (h' : Matched l o' c) : o = o' := by
  have heq : height l o = height l o' := h.height_succ_eq.symm.trans h'.height_succ_eq
  rcases Nat.lt_trichotomy o o' with hlt | heq' | hlt
  · have := h.height_lt hlt (Nat.le_of_lt h'.lt)
    omega
  · exact heq'
  · have := h'.height_lt hlt (Nat.le_of_lt h.lt)
    omega

theorem uncrossed (h : Matched l o c) (h' : Matched l o' c') : ¬ (o < o' ∧ o' < c ∧ c < c') := by
  rintro ⟨hoo, hoc, hcc⟩
  have hup := h.height_lt hoo (Nat.le_of_lt hoc)
  have hdown := h'.height_lt (x := c + 1) (by omega) hcc
  rw [h.height_succ_eq] at hdown
  omega

end Matched

/-! ### The pairs of a block -/

namespace Block

variable {l : List Symbol} {a : Nat} {b : Block}

/-- The brackets of a loop belong together. -/
theorem StandsAt.loop_matched {body rest : Block} (h : (loop body rest).StandsAt l a) :
    Matched l a (a + 1 + body.length) where
  opening := h.opening
  closing := h.closing
  lt := by omega
  between := by
    rw [h.body.slice]
    exact body.balanced

theorem StandsAt.matched (h : b.StandsAt l a) {q : Int × Int} (hq : q ∈ b.pairs a) :
    ∃ o c : Nat, q = ((o : Int), (c : Int)) ∧ Matched l o c ∧ a ≤ o ∧ c < a + b.length := by
  induction b generalizing a with
  | done => cases hq
  | symbol s plain rest ih =>
      obtain ⟨o, c, rfl, hm, ho, hc⟩ := ih h.tail hq
      exact ⟨o, c, rfl, hm, by omega, by rw [length]; omega⟩
  | loop body rest ihb ihr =>
      rw [pairs, List.mem_append, List.mem_cons] at hq
      rw [length]
      rcases hq with hq | rfl | hq
      · obtain ⟨o, c, rfl, hm, ho, hc⟩ := ihb h.body hq
        exact ⟨o, c, rfl, hm, by omega, by omega⟩
      · exact ⟨a, a + 1 + body.length, rfl, h.loop_matched, by omega, by omega⟩
      · obtain ⟨o, c, rfl, hm, ho, hc⟩ := ihr h.rest hq
        exact ⟨o, c, rfl, hm, by omega, by omega⟩

theorem StandsAt.exists_pair (h : b.StandsAt l a) {k : Nat}
    (hk : l[k]? = some .opening ∨ l[k]? = some .closing) (hak : a ≤ k) (hkb : k < a + b.length) :
    ∃ q ∈ b.pairs a, q.1 = k ∨ q.2 = k := by
  induction b generalizing a with
  | done =>
      rw [length] at hkb
      omega
  | symbol s plain rest ih =>
      rw [length] at hkb
      by_cases heq : k = a
      · subst heq
        rw [h.head] at hk
        exact absurd (hk.imp Option.some.inj Option.some.inj) plain
      · exact ih h.tail (by omega) (by omega)
  | loop body rest ihb ihr =>
      rw [length] at hkb
      -- in the body, behind the loop, or at one of its own two brackets
      by_cases hbody : a < k ∧ k < a + 1 + body.length
      · obtain ⟨q, hq, hqk⟩ := ihb h.body (by omega) (by omega)
        exact ⟨q, List.mem_append_left _ hq, hqk⟩
      · by_cases hrest : a + body.length + 2 ≤ k
        · obtain ⟨q, hq, hqk⟩ := ihr h.rest hrest (by omega)
          exact ⟨q, List.mem_append_right _ (List.mem_cons_of_mem _ hq), hqk⟩
        · refine ⟨_, List.mem_append_right _ List.mem_cons_self, ?_⟩
          simp only
          omega

theorem StandsAt.ordered (h : b.StandsAt l a) : (b.pairs a).Pairwise fun q r => q.2 < r.2 := by
  induction b generalizing a with
  | done => exact List.Pairwise.nil
  | symbol s plain rest ih => exact ih h.tail
  | loop body rest ihb ihr =>
      have hbody : ∀ q ∈ body.pairs (a + 1), q.2 < ((a + 1 + body.length : Nat) : Int) := by
        intro q hq
        obtain ⟨o, c, rfl, -, -, hc⟩ := h.body.matched hq
        exact Int.ofNat_lt.2 hc
      have hrest : ∀ r ∈ rest.pairs (a + body.length + 2),
          ((a + 1 + body.length : Nat) : Int) < r.2 := by
        intro r hr
        obtain ⟨o, c, rfl, hm, ho, -⟩ := h.rest.matched hr
        have := hm.lt
        exact Int.ofNat_lt.2 (by omega)
      rw [pairs, List.pairwise_append, List.pairwise_cons]
      refine ⟨ihb h.body, ⟨hrest, ihr h.rest⟩, fun q hq r hr => ?_⟩
      rcases List.mem_cons.1 hr with rfl | hr
      · exact hbody q hq
      · exact Int.lt_trans (hbody q hq) (hrest r hr)

theorem isMatching_pairs (b : Block) : IsMatching b.symbols (b.pairs 0) where
  matched q hq := by
    obtain ⟨o, c, rfl, hm, -, -⟩ := b.standsAt_self.matched hq
    exact ⟨o, c, rfl, hm⟩
  covers k hk := by
    have hlt : k < 0 + b.length := by
      rw [Nat.zero_add, ← length_symbols]
      rcases hk with hk | hk <;> exact (List.getElem?_eq_some_iff.1 hk).1
    obtain ⟨q, hq, hqk⟩ := b.standsAt_self.exists_pair hk (Nat.zero_le k) hlt
    refine ⟨q, ⟨hq, hqk⟩, ?_⟩
    rintro r ⟨hr, hrk⟩
    obtain ⟨o, c, rfl, hm, -, -⟩ := b.standsAt_self.matched hq
    obtain ⟨o', c', rfl, hm', -, -⟩ := b.standsAt_self.matched hr
    simp only [Int.natCast_inj] at hqk hrk
    -- a place plays the same part in both pairs, since it bears one symbol
    rcases hqk with rfl | rfl <;> rcases hrk with rfl | rfl
    · rw [hm.unique_right hm']
    · exact absurd rfl (hm.ne hm')
    · exact absurd rfl (hm'.ne hm)
    · rw [hm.unique_left hm']
  uncrossed q hq r hr := by
    obtain ⟨o, c, rfl, hm, -, -⟩ := b.standsAt_self.matched hq
    obtain ⟨o', c', rfl, hm', -, -⟩ := b.standsAt_self.matched hr
    have := hm.uncrossed hm'
    simp only
    omega
  ordered := b.standsAt_self.ordered

end Block

/-! ### Uniqueness, and the links that are made of a matching -/

namespace IsMatching

variable {l : List Symbol} {ps qs : List (Int × Int)} {o c : Nat}

theorem mem_iff (h : IsMatching l ps) : ((o : Int), (c : Int)) ∈ ps ↔ Matched l o c := by
  constructor
  · intro hq
    obtain ⟨o', c', heq, hm⟩ := h.matched _ hq
    simp only [Prod.mk.injEq, Int.natCast_inj] at heq
    obtain ⟨rfl, rfl⟩ := heq
    exact hm
  · intro hm
    obtain ⟨q, ⟨hq, hqc⟩, -⟩ := h.covers c (Or.inr hm.closing)
    obtain ⟨o', c', rfl, hm'⟩ := h.matched q hq
    simp only [Int.natCast_inj] at hqc
    rcases hqc with rfl | rfl
    · exact absurd rfl (hm'.ne hm)
    · rwa [hm.unique_left hm']

theorem exists_closing (h : IsMatching l ps) {k : Nat} (hk : l[k]? = some .opening) :
    ∃ c, Matched l k c := by
  obtain ⟨q, ⟨hq, hqk⟩, -⟩ := h.covers k (Or.inl hk)
  obtain ⟨o, c, rfl, hm⟩ := h.matched q hq
  rcases hqk with heq | heq
  · obtain rfl : o = k := Int.natCast_inj.1 heq
    exact ⟨c, hm⟩
  · obtain rfl : c = k := Int.natCast_inj.1 heq
    exact absurd hm.closing (Symbol.not_closing_of_opening hk)

theorem exists_opening (h : IsMatching l ps) {k : Nat} (hk : l[k]? = some .closing) :
    ∃ o, Matched l o k := by
  obtain ⟨q, ⟨hq, hqk⟩, -⟩ := h.covers k (Or.inr hk)
  obtain ⟨o, c, rfl, hm⟩ := h.matched q hq
  rcases hqk with heq | heq
  · obtain rfl : o = k := Int.natCast_inj.1 heq
    exact absurd hk (Symbol.not_closing_of_opening hm.opening)
  · obtain rfl : c = k := Int.natCast_inj.1 heq
    exact ⟨o, hm⟩

theorem nodup (h : IsMatching l ps) : ps.Nodup := by
  refine h.ordered.imp fun {q r} hlt heq => ?_
  subst heq
  exact Int.lt_irrefl _ hlt

theorem unique (h : IsMatching l ps) (h' : IsMatching l qs) : ps = qs := by
  have sub : ∀ {ps qs}, IsMatching l ps → IsMatching l qs → ∀ q ∈ ps, q ∈ qs := by
    intro ps qs h h' q hq
    obtain ⟨o, c, rfl, hm⟩ := h.matched q hq
    exact h'.mem_iff.2 hm
  refine List.Perm.eq_of_pairwise (fun q r _ _ hqr hrq => ?_) h.ordered h'.ordered ?_
  · omega
  · exact (List.perm_ext_iff_of_nodup h.nodup h'.nodup).2 fun q => ⟨sub h h' q, sub h' h q⟩

end IsMatching

end RingTape
