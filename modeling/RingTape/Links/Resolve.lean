import RingTape.Failure

/-!
Matching the brackets of a program. One pass from left to right keeps the places of the opening
brackets that wait for a partner, the innermost first; a closing bracket is linked to the innermost.

Balance is said by counting: no initial part of a balanced row of symbols closes more brackets than
it opens, and the whole closes as many. `Closes d` says the same of a row in front of which `d`
brackets are still open, which is what the pass meets after its first symbols, and has one law for
each kind of first symbol. So the pass accepts exactly the balanced programs.
-/

namespace RingTape

namespace Links

/-- Links the brackets among the symbols from `place` on, when the brackets at `waiting` are still
open and `l` holds the pairs before. -/
def matchFrom (l : Links) (waiting : List Nat) (place : Nat) :
    List Symbol → Except BracketFault Links
  | [] => match waiting with
    | [] => .ok l
    | o :: _ => .error (.unmatched o (some "["))
  | s :: rest => match s.command? with
    | some .openLoop => matchFrom l (place :: waiting) (place + 1) rest
    | some .closeLoop => match waiting with
      | [] => .error (.unmatched place (some "]"))
      | o :: waiting => matchFrom (l.add o place) waiting (place + 1) rest
    | _ => matchFrom l waiting (place + 1) rest

variable {links : Links} {waiting : List Nat} {place : Nat} {s : Symbol} {rest : List Symbol}

/-! One law for each kind of symbol. -/

theorem matchFrom_opening : links.matchFrom waiting place (.opening :: rest) =
    links.matchFrom (place :: waiting) (place + 1) rest := rfl

theorem matchFrom_closing_cons {o : Nat} : links.matchFrom (o :: waiting) place (.closing :: rest) =
    (links.add o place).matchFrom waiting (place + 1) rest := rfl

theorem matchFrom_closing_nil : links.matchFrom [] place (.closing :: rest) =
    .error (.unmatched place (some "]")) := rfl

theorem matchFrom_plain (plain : ¬ s.IsBracket) :
    links.matchFrom waiting place (s :: rest) = links.matchFrom waiting (place + 1) rest := by
  rw [matchFrom.eq_def]
  dsimp only
  split
  · rename_i h
    exact absurd (Or.inl (Symbol.command?_eq_openLoop_iff.1 h)) plain
  · rename_i h
    exact absurd (Or.inr (Symbol.command?_eq_closeLoop_iff.1 h)) plain
  · rfl

end Links

/-- The links between the matching brackets of a program, in the order in which they close. -/
def Program.resolve (p : Program) : Except BracketFault Links :=
  Links.empty.matchFrom [] 0 p.symbols.toList

/-! ### Balance -/

/-- No initial part closes more brackets than it opens, and the whole closes as many. -/
structure Balanced (l : List Symbol) : Prop where
  prefixes : ∀ pre, pre <+: l → pre.count .closing ≤ pre.count .opening
  total : l.count .closing = l.count .opening

structure Closes (d : Nat) (l : List Symbol) : Prop where
  prefixes : ∀ pre, pre <+: l → pre.count .closing ≤ d + pre.count .opening
  total : l.count .closing = d + l.count .opening

theorem balanced_iff_closes {l : List Symbol} : Balanced l ↔ Closes 0 l := by
  constructor
  · rintro ⟨hp, ht⟩
    exact ⟨by simpa using hp, by simpa using ht⟩
  · rintro ⟨hp, ht⟩
    exact ⟨by simpa using hp, by simpa using ht⟩

namespace Closes

variable {d : Nat} {s : Symbol} {l : List Symbol}

theorem nil_iff : Closes d [] ↔ d = 0 := by
  constructor
  · intro h
    simpa using h.total.symm
  · rintro rfl
    refine ⟨fun pre hpre => ?_, rfl⟩
    rw [List.prefix_nil.1 hpre]
    simp

theorem opening_cons_iff : Closes d (.opening :: l) ↔ Closes (d + 1) l := by
  have hne := Symbol.opening_ne_closing
  constructor
  · rintro ⟨hp, ht⟩
    refine ⟨fun pre hpre => ?_, by simpa [hne, Nat.add_assoc, Nat.add_comm 1] using ht⟩
    have := hp (.opening :: pre) (List.cons_prefix_cons.2 ⟨rfl, hpre⟩)
    simp only [List.count_cons_of_ne hne, List.count_cons_self] at this
    omega
  · rintro ⟨hp, ht⟩
    refine ⟨fun pre hpre => ?_, by simp [hne]; omega⟩
    rcases List.prefix_cons_iff.1 hpre with rfl | ⟨pre, rfl, hpre'⟩
    · simp
    · have := hp pre hpre'
      simp only [List.count_cons_of_ne hne, List.count_cons_self]
      omega

theorem closing_cons_iff : Closes d (.closing :: l) ↔ 0 < d ∧ Closes (d - 1) l := by
  have hne := Symbol.opening_ne_closing.symm
  constructor
  · rintro ⟨hp, ht⟩
    have hd := hp [.closing] (List.cons_prefix_cons.2 ⟨rfl, List.nil_prefix⟩)
    simp only [List.count_cons_of_ne hne, List.count_cons_self, List.count_nil] at hd ht
    refine ⟨by omega, fun pre hpre => ?_, by omega⟩
    have := hp (.closing :: pre) (List.cons_prefix_cons.2 ⟨rfl, hpre⟩)
    simp only [List.count_cons_of_ne hne, List.count_cons_self] at this
    omega
  · rintro ⟨hd, hp, ht⟩
    have htotal : (Symbol.closing :: l).count .closing =
        d + (Symbol.closing :: l).count .opening := by
      simp only [List.count_cons_of_ne hne, List.count_cons_self]
      omega
    refine ⟨fun pre hpre => ?_, htotal⟩
    rcases List.prefix_cons_iff.1 hpre with rfl | ⟨pre, rfl, hpre'⟩
    · simp
    · have := hp pre hpre'
      simp only [List.count_cons_of_ne hne, List.count_cons_self]
      omega

theorem cons_iff (plain : ¬ s.IsBracket) : Closes d (s :: l) ↔ Closes d l := by
  obtain ⟨ho, hc⟩ := Symbol.ne_of_plain plain
  constructor
  · rintro ⟨hp, ht⟩
    refine ⟨fun pre hpre => ?_, by simpa [ho, hc] using ht⟩
    simpa [ho, hc] using hp (s :: pre) (List.cons_prefix_cons.2 ⟨rfl, hpre⟩)
  · rintro ⟨hp, ht⟩
    refine ⟨fun pre hpre => ?_, by simpa [ho, hc] using ht⟩
    rcases List.prefix_cons_iff.1 hpre with rfl | ⟨pre, rfl, hpre'⟩
    · simp
    · simpa [ho, hc] using hp pre hpre'

end Closes

namespace Links

variable {links : Links} {waiting : List Nat} {place : Nat} {s : Symbol} {rest : List Symbol}

/-- The pass accepts the symbols that close what is waiting and balance otherwise. -/
theorem exists_matchFrom_ok_iff :
    (∃ l, links.matchFrom waiting place rest = .ok l) ↔ Closes waiting.length rest := by
  induction rest generalizing links waiting place with
  | nil =>
      rw [Closes.nil_iff, List.length_eq_zero_iff]
      cases waiting <;> simp [matchFrom]
  | cons s rest ih =>
      by_cases hs : s.IsBracket
      · rcases hs with rfl | rfl
        · rw [matchFrom_opening, ih, Closes.opening_cons_iff, List.length_cons]
        · -- nothing may be waiting, and then neither side accepts
          cases waiting with
          | nil => simp [matchFrom_closing_nil, Closes.closing_cons_iff]
          | cons o waiting => simp [matchFrom_closing_cons, ih, Closes.closing_cons_iff]
      · rw [matchFrom_plain hs, ih, Closes.cons_iff hs]

end Links

theorem Program.exists_resolve_ok_iff {p : Program} :
    (∃ l, p.resolve = .ok l) ↔ Balanced p.symbols.toList := by
  rw [balanced_iff_closes]
  exact Links.exists_matchFrom_ok_iff

end RingTape
