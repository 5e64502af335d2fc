import RingTape.Links.Resolve

/-!
Blocks: balanced symbols read as a tree. A block is a sequence of plain symbols and of loops, each
loop with a block for its body. Every balanced row of symbols is the row of exactly one block, and
matching the brackets of a program comes down to listing the loops of its block in the order in
which they close.

Proofs about programs go by induction on blocks, so a block has to be found again inside a longer
program: `StandsAt` says that it fills the places from `a` on, and hands this down to its parts.
-/

namespace RingTape

inductive Block
  | done
  | symbol (s : Symbol) (plain : ¬ s.IsBracket) (rest : Block)
  | loop (body rest : Block)

namespace Block

def symbols : Block → List Symbol
  | done => []
  | symbol s _ rest => s :: rest.symbols
  | loop body rest => .opening :: (body.symbols ++ .closing :: rest.symbols)

def length : Block → Nat
  | done => 0
  | symbol _ _ rest => rest.length + 1
  | loop body rest => body.length + rest.length + 2

@[simp] theorem length_symbols (b : Block) : b.symbols.length = b.length := by
  induction b with
  | done => rfl
  | symbol s plain rest ih => simp [symbols, length, ih]
  | loop body rest ihb ihr =>
      simp only [symbols, length, List.length_cons, List.length_append, ihb, ihr]
      omega

/-- The places of the loops, the first symbol standing at `a`, in the order in which they close. -/
def pairs : Block → Nat → List (Int × Int)
  | done, _ => []
  | symbol _ _ rest, a => rest.pairs (a + 1)
  | loop body rest, a =>
    body.pairs (a + 1) ++ ((a : Int), ((a + 1 + body.length : Nat) : Int)) ::
      rest.pairs (a + body.length + 2)

/-! ### Reading a row as a block -/

theorem closes_append_iff (b : Block) {d : Nat} {l : List Symbol} :
    Closes d (b.symbols ++ l) ↔ Closes d l := by
  induction b generalizing d l with
  | done => rfl
  | symbol s plain rest ih =>
      rw [symbols, List.cons_append, Closes.cons_iff plain, ih]
  | loop body rest ihb ihr =>
      rw [symbols, List.cons_append, Closes.opening_cons_iff, List.append_assoc, ihb,
        List.cons_append, Closes.closing_cons_iff, ihr]
      simp

theorem balanced (b : Block) : Balanced b.symbols := by
  rw [balanced_iff_closes, ← List.append_nil b.symbols, closes_append_iff]
  exact Closes.nil_iff.2 rfl

/-- What closes `d` brackets is `d + 1` blocks with a closing bracket between each and the next. -/
theorem exists_of_closes {d : Nat} {l : List Symbol} (h : Closes d l) :
    ∃ (b : Block) (bs : List Block), bs.length = d ∧
      l = b.symbols ++ (bs.map fun c => .closing :: c.symbols).flatten := by
  induction l generalizing d with
  | nil => exact ⟨done, [], (Closes.nil_iff.1 h).symm, rfl⟩
  | cons s l ih =>
      by_cases hs : s.IsBracket
      · rcases hs with rfl | rfl
        · -- the first block that follows is the body of a loop
          obtain ⟨b, bs, hlen, rfl⟩ := ih (Closes.opening_cons_iff.1 h)
          obtain ⟨c, bs, rfl⟩ := List.exists_cons_of_length_eq_add_one hlen
          exact ⟨loop b c, bs, by simpa using hlen, by simp [symbols]⟩
        · obtain ⟨hd, h'⟩ := Closes.closing_cons_iff.1 h
          obtain ⟨b, bs, hlen, rfl⟩ := ih h'
          exact ⟨done, b :: bs, by simp; omega, by simp [symbols]⟩
      · obtain ⟨b, bs, hlen, rfl⟩ := ih ((Closes.cons_iff hs).1 h)
        exact ⟨symbol s hs b, bs, hlen, by simp [symbols]⟩

theorem exists_of_balanced {l : List Symbol} (h : Balanced l) : ∃ b : Block, b.symbols = l := by
  obtain ⟨b, bs, hlen, rfl⟩ := exists_of_closes (balanced_iff_closes.1 h)
  rw [List.length_eq_zero_iff] at hlen
  subst hlen
  exact ⟨b, by simp⟩

/-- A block ends where its row does or a bracket of a block around it closes. -/
def Ends (l : List Symbol) : Prop := l = [] ∨ ∃ l', l = .closing :: l'

theorem eq_of_symbols_append_eq {b c : Block} {l l' : List Symbol} (hl : Ends l) (hl' : Ends l')
    (h : b.symbols ++ l = c.symbols ++ l') : b = c ∧ l = l' := by
  -- what follows is kept in the statement, since a body is followed by the rest of its loop
  have no_end : ∀ {s : Symbol} {r l : List Symbol}, s ≠ .closing → Ends l → s :: r ≠ l := by
    rintro s r l hs (rfl | ⟨l', rfl⟩) heq
    · cases heq
    · exact hs (List.cons.inj heq).1
  induction b generalizing c l l' with
  | done =>
      cases c with
      | done => exact ⟨rfl, h⟩
      | symbol s plain rest => exact absurd h.symm (no_end (Symbol.ne_of_plain plain).2 hl)
      | loop body rest => exact absurd h.symm (no_end Symbol.opening_ne_closing hl)
  | symbol s plain rest ih =>
      cases c with
      | done => exact absurd h (no_end (Symbol.ne_of_plain plain).2 hl')
      | symbol s' plain' rest' =>
          simp only [symbols, List.cons_append, List.cons.injEq] at h
          obtain ⟨rfl, h⟩ := h
          obtain ⟨rfl, rfl⟩ := ih hl hl' h
          exact ⟨rfl, rfl⟩
      | loop body rest' =>
          simp only [symbols, List.cons_append, List.cons.injEq] at h
          exact absurd (Or.inl h.1) plain
  | loop body rest ihb ihr =>
      cases c with
      | done => exact absurd h (no_end Symbol.opening_ne_closing hl')
      | symbol s' plain' rest' =>
          simp only [symbols, List.cons_append, List.cons.injEq] at h
          exact absurd (Or.inl h.1.symm) plain'
      | loop body' rest' =>
          simp only [symbols, List.cons_append, List.append_assoc, List.cons.injEq, true_and] at h
          obtain ⟨rfl, hrest⟩ := ihb (Or.inr ⟨_, rfl⟩) (Or.inr ⟨_, rfl⟩) h
          obtain ⟨rfl, rfl⟩ := ihr hl hl' (List.cons.inj hrest).2
          exact ⟨rfl, rfl⟩

/-- A row can be read as a block in one way only. -/
theorem symbols_injective {b c : Block} (h : b.symbols = c.symbols) : b = c :=
  (eq_of_symbols_append_eq (Or.inl rfl : Ends []) (Or.inl rfl : Ends []) (by simpa using h)).1

/-! ### Matching the brackets of a block -/

theorem matchFrom_append (b : Block) (links : Links) (waiting : List Nat) (a : Nat)
    (l : List Symbol) : links.matchFrom waiting a (b.symbols ++ l) =
      (links.addAll (b.pairs a)).matchFrom waiting (a + b.length) l := by
  induction b generalizing links waiting a l with
  | done => rfl
  | symbol s plain rest ih =>
      rw [symbols, List.cons_append, Links.matchFrom_plain plain, ih, pairs, length,
        Nat.add_right_comm, Nat.add_assoc]
  | loop body rest ihb ihr =>
      rw [symbols, List.cons_append, Links.matchFrom_opening, List.append_assoc, ihb,
        List.cons_append, Links.matchFrom_closing_cons, ihr, pairs, Links.addAll_append,
        Links.addAll_cons, length, show a + 1 + body.length + 1 = a + body.length + 2 by omega,
        show a + (body.length + rest.length + 2) = a + body.length + 2 + rest.length by omega]

theorem resolve_eq (b : Block) {p : Program} (h : p.symbols.toList = b.symbols) :
    p.resolve = .ok (.ofPairs (b.pairs 0)) := by
  rw [Program.resolve, h, ← List.append_nil b.symbols, matchFrom_append]
  rfl

/-! ### Where the parts of a block stand -/

def StandsAt (b : Block) (l : List Symbol) (a : Nat) : Prop :=
  ∃ pre post, l = pre ++ b.symbols ++ post ∧ pre.length = a

theorem standsAt_self (b : Block) : b.StandsAt b.symbols 0 := ⟨[], [], by simp, rfl⟩

section StandsAt

variable {l : List Symbol} {a : Nat} {s : Symbol} {plain : ¬ s.IsBracket} {b inner after : Block}

theorem StandsAt.slice (h : b.StandsAt l a) : (l.take (a + b.length)).drop a = b.symbols := by
  obtain ⟨pre, post, rfl, rfl⟩ := h
  rw [← length_symbols, ← List.length_append, List.take_left' rfl, List.drop_left' rfl]

theorem StandsAt.head (h : (symbol s plain after).StandsAt l a) : l[a]? = some s := by
  obtain ⟨pre, post, rfl, rfl⟩ := h
  simp [symbols]

theorem StandsAt.tail (h : (symbol s plain after).StandsAt l a) : after.StandsAt l (a + 1) := by
  obtain ⟨pre, post, rfl, rfl⟩ := h
  exact ⟨pre ++ [s], post, by simp [symbols], by simp⟩

theorem StandsAt.opening (h : (loop inner after).StandsAt l a) : l[a]? = some .opening := by
  obtain ⟨pre, post, rfl, rfl⟩ := h
  simp [symbols]

theorem StandsAt.body (h : (loop inner after).StandsAt l a) : inner.StandsAt l (a + 1) := by
  obtain ⟨pre, post, rfl, rfl⟩ := h
  exact ⟨pre ++ [.opening], .closing :: after.symbols ++ post, by simp [symbols], by simp⟩

theorem StandsAt.closing (h : (loop inner after).StandsAt l a) :
    l[a + 1 + inner.length]? = some .closing := by
  obtain ⟨pre, post, rfl, rfl⟩ := h
  have : pre ++ (loop inner after).symbols ++ post =
      (pre ++ .opening :: inner.symbols) ++ .closing :: (after.symbols ++ post) := by
    simp [symbols]
  have hlen : (pre ++ .opening :: inner.symbols).length = pre.length + 1 + inner.length := by
    simp
    omega
  rw [this, ← hlen, List.getElem?_append_right (Nat.le_refl _), Nat.sub_self]
  rfl

theorem StandsAt.rest (h : (loop inner after).StandsAt l a) :
    after.StandsAt l (a + inner.length + 2) := by
  obtain ⟨pre, post, rfl, rfl⟩ := h
  refine ⟨pre ++ .opening :: (inner.symbols ++ [.closing]), post, by simp [symbols], ?_⟩
  simp
  omega

end StandsAt

end Block

theorem balanced_iff_exists_block {l : List Symbol} : Balanced l ↔ ∃ b : Block, b.symbols = l := by
  constructor
  · exact Block.exists_of_balanced
  · rintro ⟨b, rfl⟩
    exact b.balanced

end RingTape
