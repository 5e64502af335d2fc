import Mathlib.Order.Bounds.Basic
import RingTape.Proofs.Resolve

/-!
Blame. A program whose brackets do not match has one bracket that is told to whoever wrote it. A
closing bracket with nothing left to close is told first, and it is known from the symbols in front
of it. Only when there is none, an opening bracket is told: the last one that is never closed, which
is known from the symbols behind it.

The pass stands somewhere in the program with some brackets waiting when it meets the one to blame.
So both conditions are said of the symbols that are still to come, relative to what waits, and have
one law for each kind of first symbol. With nothing waiting they speak of the whole program.
-/

namespace RingTape

/-- The closing bracket at `k` has nothing to close: all brackets in front of it are matched. -/
structure Orphan (l : List Symbol) (k : Nat) : Prop where
  symbol : l[k]? = some .closing
  before : Balanced (l.take k)

/-- The opening bracket at `k` is never closed, and all brackets behind it are matched. -/
structure Unclosed (l : List Symbol) (k : Nat) : Prop where
  no_orphan : ∀ i, ¬ Orphan l i
  symbol : l[k]? = some .opening
  behind : Balanced (l.drop (k + 1))

structure Lone (l : List Symbol) (o : Nat) : Prop where
  symbol : l[o]? = some .opening
  no_partner : ∀ c, ¬ Matched l o c

/-! ### Closing brackets -/

structure OrphanBehind (d : Nat) (l : List Symbol) (k : Nat) : Prop where
  symbol : l[k]? = some .closing
  before : Closes d (l.take k)

theorem orphan_iff {l : List Symbol} {k : Nat} : Orphan l k ↔ OrphanBehind 0 l k := by
  constructor
  · rintro ⟨hs, hb⟩
    exact ⟨hs, balanced_iff_closes.1 hb⟩
  · rintro ⟨hs, hb⟩
    exact ⟨hs, balanced_iff_closes.2 hb⟩

namespace OrphanBehind

variable {d k : Nat} {s : Symbol} {l : List Symbol}

theorem not_nil : ¬ OrphanBehind d [] k := fun h => by cases h.symbol

theorem opening_cons_iff :
    OrphanBehind d (.opening :: l) k ↔ ∃ i, k = i + 1 ∧ OrphanBehind (d + 1) l i := by
  constructor
  · rintro ⟨hs, hb⟩
    cases k with
    | zero => exact absurd (Option.some.inj hs) Symbol.opening_ne_closing
    | succ i => exact ⟨i, rfl, hs, Closes.opening_cons_iff.1 hb⟩
  · rintro ⟨i, rfl, hs, hb⟩
    exact ⟨hs, Closes.opening_cons_iff.2 hb⟩

theorem closing_cons_iff : OrphanBehind d (.closing :: l) k ↔
    d = 0 ∧ k = 0 ∨ 0 < d ∧ ∃ i, k = i + 1 ∧ OrphanBehind (d - 1) l i := by
  constructor
  · rintro ⟨hs, hb⟩
    cases k with
    | zero => exact Or.inl ⟨Closes.nil_iff.1 hb, rfl⟩
    | succ i =>
        obtain ⟨hd, hb⟩ := Closes.closing_cons_iff.1 hb
        exact Or.inr ⟨hd, i, rfl, hs, hb⟩
  · rintro (⟨rfl, rfl⟩ | ⟨hd, i, rfl, hs, hb⟩)
    · exact ⟨rfl, Closes.nil_iff.2 rfl⟩
    · exact ⟨hs, Closes.closing_cons_iff.2 ⟨hd, hb⟩⟩

theorem cons_iff (plain : ¬ s.IsBracket) :
    OrphanBehind d (s :: l) k ↔ ∃ i, k = i + 1 ∧ OrphanBehind d l i := by
  constructor
  · rintro ⟨hs, hb⟩
    cases k with
    | zero => exact absurd (Option.some.inj hs) (Symbol.ne_of_plain plain).2
    | succ i => exact ⟨i, rfl, hs, (Closes.cons_iff plain).1 hb⟩
  · rintro ⟨i, rfl, hs, hb⟩
    exact ⟨hs, (Closes.cons_iff plain).2 hb⟩

end OrphanBehind

/-! ### Opening brackets -/

/-- The bracket at `q` is the last one that is never closed, when the brackets at `waiting` are open
in front of a row whose first symbol stands at `place`. It is one of those, all brackets within it
being closed by the row, or it stands in the row itself. -/
inductive Remains (waiting : List Nat) (place : Nat) (l : List Symbol) : Int → Prop
  | waiting {n o : Nat} (waits : waiting[n]? = some o) (closes : Closes n l) :
      Remains waiting place l o
  | inside {k : Nat} (symbol : l[k]? = some .opening) (behind : Closes 0 (l.drop (k + 1))) :
      Remains waiting place l ((place + k : Nat) : Int)

namespace Remains

variable {waiting : List Nat} {place o k : Nat} {s : Symbol} {l : List Symbol} {q : Int}

theorem nil_iff : Remains waiting place [] q ↔ ∃ o, waiting.head? = some o ∧ q = (o : Int) := by
  constructor
  · intro h
    cases h with
    | @waiting n o waits closes =>
        obtain rfl := Closes.nil_iff.1 closes
        exact ⟨o, by rwa [List.head?_eq_getElem?], rfl⟩
    | inside symbol behind => cases symbol
  · rintro ⟨o, ho, rfl⟩
    exact .waiting (by rwa [← List.head?_eq_getElem?]) (Closes.nil_iff.2 rfl)

/-- A bracket of a row, but for the first symbol, stands in the rest. -/
theorem inside_tail (symbol : l[k]? = some .opening) (behind : Closes 0 (l.drop (k + 1))) :
    Remains waiting (place + 1) l ((place + (k + 1) : Nat) : Int) := by
  rw [show place + (k + 1) = place + 1 + k by omega]
  exact .inside symbol behind

theorem inside_cons (symbol : l[k]? = some .opening) (behind : Closes 0 (l.drop (k + 1))) :
    Remains waiting place (s :: l) ((place + 1 + k : Nat) : Int) := by
  rw [show place + 1 + k = place + (k + 1) by omega]
  exact .inside symbol behind

/-- A row that opens a bracket is a row behind it, in front of which one more is open. -/
theorem opening_cons_iff :
    Remains waiting place (.opening :: l) q ↔ Remains (place :: waiting) (place + 1) l q := by
  constructor
  · intro h
    cases h with
    | @waiting n o waits closes =>
        exact .waiting (n := n + 1) waits (Closes.opening_cons_iff.1 closes)
    | @inside k symbol behind =>
        cases k with
        | zero => exact .waiting (n := 0) rfl behind
        | succ k =>
            exact inside_tail symbol behind
  · intro h
    cases h with
    | @waiting n o waits closes =>
        cases n with
        | zero =>
            obtain rfl := Option.some.inj waits
            exact .inside (k := 0) rfl closes
        | succ n => exact .waiting waits (Closes.opening_cons_iff.2 closes)
    | @inside k symbol behind =>
        exact inside_cons symbol behind

theorem closing_cons_iff :
    Remains (o :: waiting) place (.closing :: l) q ↔ Remains waiting (place + 1) l q := by
  constructor
  · intro h
    cases h with
    | @waiting n o waits closes =>
        obtain ⟨hn, closes⟩ := Closes.closing_cons_iff.1 closes
        obtain ⟨n, rfl⟩ := Nat.exists_eq_add_of_lt hn
        exact .waiting (n := n) (by simpa using waits) (by simpa using closes)
    | @inside k symbol behind =>
        cases k with
        | zero => exact absurd (Option.some.inj symbol).symm Symbol.opening_ne_closing
        | succ k =>
            exact inside_tail symbol behind
  · intro h
    cases h with
    | @waiting n o waits closes =>
        exact .waiting (n := n + 1) waits (Closes.closing_cons_iff.2 ⟨Nat.succ_pos n, closes⟩)
    | @inside k symbol behind =>
        exact inside_cons symbol behind

theorem cons_iff (plain : ¬ s.IsBracket) :
    Remains waiting place (s :: l) q ↔ Remains waiting (place + 1) l q := by
  constructor
  · intro h
    cases h with
    | @waiting n o waits closes => exact .waiting waits ((Closes.cons_iff plain).1 closes)
    | @inside k symbol behind =>
        cases k with
        | zero => exact absurd (Option.some.inj symbol) (Symbol.ne_of_plain plain).1
        | succ k =>
            exact inside_tail symbol behind
  · intro h
    cases h with
    | @waiting n o waits closes => exact .waiting waits ((Closes.cons_iff plain).2 closes)
    | @inside k symbol behind =>
        exact inside_cons symbol behind

end Remains

/-! ### The pass -/

namespace Links

variable {links : Links} {waiting : List Nat} {place : Nat} {rest : List Symbol} {q : Int}

theorem unmatched_inj {q q' : Int} {b b' : String} :
    BracketFault.unmatched q (some b) = .unmatched q' (some b') ↔ q = q' ∧ b = b' := by
  constructor
  · intro h
    have hq := congrArg BracketFault.position h
    have hb := congrArg BracketFault.symbol h
    simp only [BracketFault.position_unmatched, BracketFault.symbol_unmatched,
      Option.some.injEq] at hq hb
    exact ⟨hq, hb⟩
  · rintro ⟨rfl, rfl⟩
    rfl

/-- The pass is stopped by the closing bracket that comes when nothing is waiting. -/
theorem matchFrom_eq_closing_iff :
    links.matchFrom waiting place rest = .error (.unmatched q (some "]")) ↔
      ∃ k : Nat, q = ((place + k : Nat) : Int) ∧ OrphanBehind waiting.length rest k := by
  induction rest generalizing links waiting place with
  | nil => cases waiting <;> simp [matchFrom, unmatched_inj, OrphanBehind.not_nil]
  | cons s rest ih =>
      have hplace (i : Nat) : place + 1 + i = place + (i + 1) := by omega
      by_cases hs : s.IsBracket
      · rcases hs with rfl | rfl
        · simp only [matchFrom_opening, ih, OrphanBehind.opening_cons_iff, List.length_cons, hplace]
          simp
        · cases waiting with
          | nil =>
              simp only [matchFrom_closing_nil, Except.error.injEq, unmatched_inj,
                OrphanBehind.closing_cons_iff, List.length_nil]
              simp [eq_comm]
          | cons o waiting =>
              simp only [matchFrom_closing_cons, ih, OrphanBehind.closing_cons_iff,
                List.length_cons, hplace]
              simp
      · simp only [matchFrom_plain hs, ih, OrphanBehind.cons_iff hs, hplace]
        simp

/-- The pass comes to its end with a bracket waiting that is never closed. -/
theorem matchFrom_eq_opening_iff :
    links.matchFrom waiting place rest = .error (.unmatched q (some "[")) ↔
      (¬ ∃ k, OrphanBehind waiting.length rest k) ∧ Remains waiting place rest q := by
  induction rest generalizing links waiting place with
  | nil =>
      rw [Remains.nil_iff]
      cases waiting <;> simp [matchFrom, unmatched_inj, OrphanBehind.not_nil, eq_comm]
  | cons s rest ih =>
      by_cases hs : s.IsBracket
      · rcases hs with rfl | rfl
        · rw [matchFrom_opening, ih, Remains.opening_cons_iff, List.length_cons]
          simp [OrphanBehind.opening_cons_iff]
        · cases waiting with
          | nil =>
              -- this bracket is the one to blame
              simp [matchFrom_closing_nil, unmatched_inj, OrphanBehind.closing_cons_iff]
          | cons o waiting =>
              rw [matchFrom_closing_cons, ih, Remains.closing_cons_iff]
              simp [OrphanBehind.closing_cons_iff]
      · rw [matchFrom_plain hs, ih, Remains.cons_iff hs]
        simp [OrphanBehind.cons_iff hs]

/-- Nothing but a bracket is ever blamed. -/
theorem exists_of_matchFrom_error {f : BracketFault}
    (h : links.matchFrom waiting place rest = .error f) :
    ∃ (k : Nat) (b : String), (b = "]" ∨ b = "[") ∧ f = .unmatched k (some b) := by
  induction rest generalizing links waiting place with
  | nil =>
      cases waiting with
      | nil => cases h
      | cons o waiting =>
          cases h
          exact ⟨o, "[", Or.inr rfl, rfl⟩
  | cons s rest ih =>
      by_cases hs : s.IsBracket
      · rcases hs with rfl | rfl
        · exact ih h
        · cases waiting with
          | nil =>
              cases h
              exact ⟨place, "]", Or.inl rfl, rfl⟩
          | cons o waiting => exact ih h
      · rw [matchFrom_plain hs] at h
        exact ih h

end Links

namespace Program

variable {p p' : Program} {k : Nat} {f : BracketFault}

theorem resolve_eq_closing_iff :
    p.resolve = .error (.unmatched k (some "]")) ↔ Orphan p.symbols.toList k := by
  simp only [resolve, Links.matchFrom_eq_closing_iff, orphan_iff, Nat.zero_add, Int.natCast_inj,
    List.length_nil, exists_eq_left']

theorem resolve_eq_opening_iff :
    p.resolve = .error (.unmatched k (some "[")) ↔ Unclosed p.symbols.toList k := by
  rw [resolve, Links.matchFrom_eq_opening_iff]
  constructor
  · rintro ⟨horphan, hremains⟩
    generalize hq : (k : Int) = q at hremains
    cases hremains with
    | waiting waits closes => simp at waits
    | inside symbol behind =>
        obtain rfl : k = _ := (Int.natCast_inj.1 hq).trans (Nat.zero_add _)
        exact ⟨fun i hi => horphan ⟨i, orphan_iff.1 hi⟩, symbol, balanced_iff_closes.2 behind⟩
  · rintro ⟨horphan, symbol, behind⟩
    refine ⟨fun hclosing => hclosing.elim fun i hi => horphan i (orphan_iff.2 hi), ?_⟩
    have hremains : Remains [] 0 p.symbols.toList ((0 + k : Nat) : Int) :=
      .inside symbol (balanced_iff_closes.1 behind)
    rwa [Nat.zero_add] at hremains

theorem exists_of_resolve_error (h : p.resolve = .error f) :
    ∃ k : Nat, Orphan p.symbols.toList k ∧ f = .unmatched k (some "]") ∨
      Unclosed p.symbols.toList k ∧ f = .unmatched k (some "[") := by
  obtain ⟨k, b, rfl | rfl, rfl⟩ := Links.exists_of_matchFrom_error h
  · exact ⟨k, Or.inl ⟨resolve_eq_closing_iff.1 h, rfl⟩⟩
  · exact ⟨k, Or.inr ⟨resolve_eq_opening_iff.1 h, rfl⟩⟩

end Program

/-! ### The last bracket that is never closed -/

section Unclosed

variable {l l' : List Symbol} {a o c k : Nat}

/-- Only the symbols up to it decide on a closing bracket. -/
theorem Orphan.congr (h : Orphan l k) (heq : l'.take (k + 1) = l.take (k + 1)) : Orphan l' k where
  symbol := by
    rw [← List.getElem?_take_of_lt (Nat.lt_succ_self k), heq,
      List.getElem?_take_of_lt (Nat.lt_succ_self k)]
    exact h.symbol
  before := by
    have := congrArg (List.take k) heq
    rw [List.take_take, List.take_take, Nat.min_eq_left (Nat.le_succ k)] at this
    exact this ▸ h.before

/-- Brackets that belong together behind some symbols belong together in the whole. -/
theorem Matched.of_drop (h : Matched (l.drop a) o c) : Matched l (a + o) (a + c) where
  opening := by rw [← List.getElem?_drop]; exact h.opening
  closing := by rw [← List.getElem?_drop]; exact h.closing
  lt := Nat.add_lt_add_left h.lt a
  between := by
    have := h.between
    rwa [List.take_drop, List.drop_drop, ← Nat.add_assoc] at this

theorem exists_matched_of_balanced (h : Balanced l) (ho : l[o]? = some .opening) :
    ∃ c, Matched l o c := by
  obtain ⟨b, rfl⟩ := balanced_iff_exists_block.1 h
  exact b.isMatching_pairs.exists_closing ho

theorem Unclosed.lone (h : Unclosed l k) : Lone l k where
  symbol := h.symbol
  no_partner c hm := by
    -- behind its partner the height would be less than all brackets behind it allow for
    have hpre : (l.take (c + 1)).drop (k + 1) <+: l.drop (k + 1) :=
      (List.take_prefix (c + 1) l).drop (k + 1)
    have hle := h.behind.prefixes _ hpre
    have hc := height_of_le (l := l) (k := k + 1) (x := c + 1) (by have := hm.lt; omega)
    have hk := height_succ_of_opening h.symbol
    have hm := hm.height_succ_eq
    omega

theorem Unclosed.isGreatest (h : Unclosed l k) : IsGreatest {o | Lone l o} k := by
  refine ⟨h.lone, fun o ho => Nat.not_lt.1 fun hlt => ?_⟩
  obtain ⟨i, rfl⟩ := Nat.exists_eq_add_of_le (Nat.succ_le_of_lt hlt)
  obtain ⟨c, hm⟩ := exists_matched_of_balanced (o := i) h.behind
    (by rw [List.getElem?_drop]; exact ho.symbol)
  exact ho.no_partner _ hm.of_drop

theorem unclosed_iff_isGreatest :
    Unclosed l k ↔ (∀ i, ¬ Orphan l i) ∧ IsGreatest {o | Lone l o} k := by
  constructor
  · exact fun h => ⟨h.no_orphan, h.isGreatest⟩
  · rintro ⟨horphan, hgreatest⟩
    -- some bracket is to blame, and it can only be the one
    cases h : (⟨l.toArray, .list⟩ : Program).resolve with
    | ok links =>
        obtain ⟨c, hm⟩ := exists_matched_of_balanced (Program.exists_resolve_ok_iff.1 ⟨links, h⟩)
          hgreatest.1.symbol
        exact absurd hm (hgreatest.1.no_partner c)
    | error f =>
        obtain ⟨i, ⟨hi, -⟩ | ⟨hi, -⟩⟩ := Program.exists_of_resolve_error h
        · exact absurd hi (horphan i)
        · exact hgreatest.unique hi.isGreatest ▸ hi

end Unclosed

def Blamed (l : List Symbol) (k : Nat) (b : String) : Prop :=
  b = "]" ∧ Orphan l k ∨ b = "[" ∧ Unclosed l k

namespace Program

variable {p : Program}

theorem resolve_eq_error_iff_blamed {k : Nat} {b : String} :
    p.resolve = .error (.unmatched k (some b)) ↔ Blamed p.symbols.toList k b := by
  constructor
  · intro h
    obtain ⟨k', ⟨hk, heq⟩ | ⟨hk, heq⟩⟩ := exists_of_resolve_error h
    · obtain ⟨hkk, rfl⟩ := Links.unmatched_inj.1 heq
      exact Or.inl ⟨rfl, Int.natCast_inj.1 hkk ▸ hk⟩
    · obtain ⟨hkk, rfl⟩ := Links.unmatched_inj.1 heq
      exact Or.inr ⟨rfl, Int.natCast_inj.1 hkk ▸ hk⟩
  · rintro (⟨rfl, h⟩ | ⟨rfl, h⟩)
    · exact resolve_eq_closing_iff.2 h
    · exact resolve_eq_opening_iff.2 h

/-- The right bracket is blamed. It is a closing one exactly when all is balanced in front of it,
whatever may come behind; and else the last opening one without a partner, behind which all is
balanced. In a program that is not balanced there is exactly one bracket like this. -/
theorem resolve_blames (p : Program) :
    (∀ k : Nat, p.resolve = .error (.unmatched k (some "]")) ↔
      p.symbols[k]? = some .closing ∧ Balanced (p.symbols.toList.take k)) ∧
    (∀ (k : Nat) (p' : Program), p.resolve = .error (.unmatched k (some "]")) →
      p'.symbols.toList.take (k + 1) = p.symbols.toList.take (k + 1) →
      p'.resolve = .error (.unmatched k (some "]"))) ∧
    (∀ k : Nat, p.resolve = .error (.unmatched k (some "[")) ↔
      (∀ i, ¬ Orphan p.symbols.toList i) ∧ p.symbols[k]? = some .opening ∧
        Balanced (p.symbols.toList.drop (k + 1))) ∧
    (∀ k : Nat, p.resolve = .error (.unmatched k (some "[")) ↔
      (∀ i, ¬ Orphan p.symbols.toList i) ∧ IsGreatest {o | Lone p.symbols.toList o} k) ∧
    (¬ Balanced p.symbols.toList → ∃ (k : Nat) (b : String),
      p.resolve = .error (.unmatched k (some b)) ∧ Blamed p.symbols.toList k b ∧
      ∀ k' b', Blamed p.symbols.toList k' b' → k' = k ∧ b' = b) := by
  refine ⟨fun k => ?_, fun k p' h heq => ?_, fun k => ?_, fun k => ?_, fun h => ?_⟩
  · rw [resolve_eq_closing_iff, ← Array.getElem?_toList]
    exact ⟨fun h => ⟨h.symbol, h.before⟩, fun h => ⟨h.1, h.2⟩⟩
  · exact resolve_eq_closing_iff.2 ((resolve_eq_closing_iff.1 h).congr heq)
  · rw [resolve_eq_opening_iff, ← Array.getElem?_toList]
    exact ⟨fun h => ⟨h.no_orphan, h.symbol, h.behind⟩, fun h => ⟨h.1, h.2.1, h.2.2⟩⟩
  · rw [resolve_eq_opening_iff, unclosed_iff_isGreatest]
  · cases hp : p.resolve with
    | ok links => exact absurd (exists_resolve_ok_iff.1 ⟨links, hp⟩) h
    | error f =>
        obtain ⟨k, b, -, rfl⟩ := Links.exists_of_matchFrom_error hp
        refine ⟨k, b, rfl, resolve_eq_error_iff_blamed.1 hp, fun k' b' h' => ?_⟩
        have heq := Except.error.inj ((resolve_eq_error_iff_blamed.2 h').symm.trans hp)
        obtain ⟨hk, hb⟩ := Links.unmatched_inj.1 heq
        exact ⟨Int.natCast_inj.1 hk, hb⟩

/-- The closing bracket behind `[]` is blamed, whether a bracket opens behind it or not. In `[+[`
nothing closes, and the second bracket is blamed. -/
theorem last_brackets_blamed :
    (ofString "[]]").resolve = .error (.unmatched 2 (some "]")) ∧
    (ofString "[]][").symbols.toList.take 3 = (ofString "[]]").symbols.toList.take 3 ∧
    (ofString "[]][").resolve = .error (.unmatched 2 (some "]")) ∧
    ¬ Balanced (ofString "[+[").symbols.toList ∧
    Blamed (ofString "[+[").symbols.toList 2 "[" ∧
    ∀ k b, Blamed (ofString "[+[").symbols.toList k b → k = 2 ∧ b = "[" := by
  have hclosing : (ofString "[]]").resolve = .error (.unmatched 2 (some "]")) := rfl
  have hopening : (ofString "[+[").resolve = .error (.unmatched (2 : Nat) (some "[")) := rfl
  have hodd : ¬ Balanced (ofString "[+[").symbols.toList := fun h => by
    obtain ⟨links, hlinks⟩ := exists_resolve_ok_iff.2 h
    cases hlinks.symm.trans hopening
  obtain ⟨-, hlater, -⟩ := resolve_blames (ofString "[]]")
  obtain ⟨-, -, -, -, hblamed⟩ := resolve_blames (ofString "[+[")
  obtain ⟨k, b, hresolve, hkb, hunique⟩ := hblamed hodd
  obtain ⟨hk, rfl⟩ := Links.unmatched_inj.1 (Except.error.inj (hopening.symm.trans hresolve))
  obtain rfl := Int.natCast_inj.1 hk
  exact ⟨hclosing, by decide, hlater 2 _ hclosing (by decide), hodd, hkb, hunique⟩

end Program

end RingTape
