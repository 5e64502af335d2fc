import RingTape.Proofs.Lockstep

/-!
Wider tapes. The size of a tape shows only where a run goes round the end of it. As long as a run
does not, it is the run on any wider tape as well, whose further cells stay zero.

Storing keeps the two tapes in this relation at any time, and a move does when it leads to a cell of
the narrow tape without wrapping. `Machine.Wraps` says of a machine that its next step does not.
-/

namespace RingTape

namespace Tape

variable {n n' : Nat} {t t' : Tape}

theorem getElem?_pointer (t : Tape) : t.cells[t.pointer]? = some t.current :=
  Array.getElem?_eq_getElem t.pointer_lt

theorem getElem?_put (t : Tape) (v : UInt8) (k : Nat) :
    (t.put v).cells[k]? = if k = t.pointer then some v else t.cells[k]? := by
  rw [cells_put]
  by_cases hk : k = t.pointer
  · subst hk
    rw [if_pos rfl, Array.getElem?_set_self]
  · rw [if_neg hk, Array.getElem?_set_ne t.pointer_lt (Ne.symm hk)]

/-- A move that stays on the tape is an addition. -/
theorem pointer_move_eq {d : Int} (h : 0 ≤ t.pointer + d) (h' : t.pointer + d < t.size) :
    ((t.move d).pointer : Int) = t.pointer + d := by
  rw [pointer_move, Int.emod_eq_of_lt h h']

/-- `t` has `n` cells and `t'` has `n'`, of which the first `n` are those of `t` and the others are
zero. -/
structure Widened (n n' : Nat) (t t' : Tape) : Prop where
  size : t.size = n
  size' : t'.size = n'
  size_le : n ≤ n'
  pointer : t'.pointer = t.pointer
  low : ∀ k < n, t'.cells[k]? = t.cells[k]?
  high : ∀ k, n ≤ k → k < n' → t'.cells[k]? = some 0

namespace Widened

theorem pointer_lt (h : t.Widened n n' t') : t.pointer < n := h.size ▸ t.pointer_lt

theorem current (h : t.Widened n n' t') : t'.current = t.current := by
  have hlow := h.low t.pointer h.pointer_lt
  rw [← h.pointer, getElem?_pointer, h.pointer, getElem?_pointer] at hlow
  exact Option.some.inj hlow

theorem put (h : t.Widened n n' t') (v : UInt8) : (t.put v).Widened n n' (t'.put v) where
  size := by simpa using h.size
  size' := by simpa using h.size'
  size_le := h.size_le
  pointer := h.pointer
  low k hk := by rw [getElem?_put, getElem?_put, h.pointer, h.low k hk]
  high k hk hk' := by
    have := h.pointer_lt
    rw [getElem?_put, h.pointer, if_neg (by omega), h.high k hk hk']

theorem move (h : t.Widened n n' t') {d : Int} (hd : 0 ≤ t.pointer + d) (hd' : t.pointer + d < n) :
    (t.move d).Widened n n' (t'.move d) where
  size := h.size
  size' := h.size'
  size_le := h.size_le
  pointer := by
    have hnarrow := pointer_move_eq hd (by rw [h.size]; exact hd')
    have hwide := pointer_move_eq (t := t') (d := d) (by rw [h.pointer]; exact hd)
      (by rw [h.pointer, h.size']; have := h.size_le; omega)
    rw [h.pointer] at hwide
    omega
  low := h.low
  high := h.high

end Widened

theorem coupling_widened (n n' : Nat) : Coupling (Widened n n') where
  current h := h.current
  put v h := h.put v

theorem widened_blank (h : 0 < n) (hle : n ≤ n') :
    (blank n h).Widened n n' (blank n' (Nat.lt_of_lt_of_le h hle)) where
  size := size_blank n h
  size' := size_blank n' _
  size_le := hle
  pointer := rfl
  low k hk := by simp [blank, hk, Nat.lt_of_lt_of_le hk hle]
  high k _ hk := by simp [blank, hk]

end Tape

/-! ### Runs that do not wrap -/

variable {ι κ : Type}

namespace Machine

variable {j : Job} {m m' : Machine ι κ} {n n' : Nat}

/-- The next step goes round the end of the tape: to the right from its last cell or to the left
from its first. -/
def Wraps (j : Job) (m : Machine ι κ) : Prop :=
  (m.nextCommand? j = some .right ∧ m.tape.pointer + 1 = m.tape.size) ∨
    (m.nextCommand? j = some .left ∧ m.tape.pointer = 0)

instance : Decidable (m.Wraps j) := inferInstanceAs (Decidable (_ ∨ _))

theorem Alike.movesAlike_widened (h : m.Alike (Tape.Widened n n') m') (hwrap : ¬ m.Wraps j) :
    MovesAlike (Tape.Widened n n') j m m' := by
  have hlt := h.tape.pointer_lt
  have hsize := h.tape.size
  constructor
  · intro hc
    have hend : m.tape.pointer + 1 ≠ m.tape.size := fun he => hwrap (Or.inl ⟨hc, he⟩)
    exact h.tape.move (d := 1) (by omega) (by omega)
  · intro hc
    have hend : m.tape.pointer ≠ 0 := fun he => hwrap (Or.inr ⟨hc, he⟩)
    exact h.tape.move (d := -1) (by omega) (by omega)

end Machine

def Settings.withSize (s : Settings) (tapeSize : Int) : Settings := { s with tapeSize }

namespace Execution

variable [ByteSource ι] [ByteSink κ]

/-- As long as a run does not go round the end of its tape, it is the run on any wider one: the two
have read and written the same, stand at the same place, and the further cells are zero. So a run
that ends like that ends on a wider tape after as many steps and with the same output. The links may
be those of the matching brackets or any others. -/
theorem run_alike_widened (s : Settings) (p : Program) (links : Links) (source : ι) (sink : κ)
    {size wider : Int} (hsize : 1 ≤ size) (hle : size ≤ wider) :
    ∃ x y, ofLinks .stepwise (s.withSize size) p links source sink = .ok x ∧
      ofLinks .stepwise (s.withSize wider) p links source sink = .ok y ∧
      ∀ k, (∀ i < k, ∀ g, x.run i = .running g → ¬ g.Wraps x.job) →
        (∀ i ≤ k, Progress.Alike (Tape.Widened size.toNat wider.toNat) (x.run i) (y.run i)) ∧
        ∀ f, x.run k = .finished f →
          ∃ f', y.run k = .finished f' ∧ f'.steps = f.steps ∧ f'.sink = f.sink := by
  have hpos : 0 < size.toNat := by omega
  obtain ⟨x, hx, hjob, hworker, hstart⟩ := exists_stepwise (s := s.withSize size) hsize p links
    source sink
  obtain ⟨y, hy, hjob', hworker', hstart'⟩ := exists_stepwise (s := s.withSize wider)
    (Int.le_trans hsize hle) p links source sink
  refine ⟨x, y, hx, hy, fun k hwrap => ?_⟩
  have hblank : x.start.Alike (Tape.Widened size.toNat wider.toNat) y.start := by
    rw [hstart, hstart']
    exact ⟨Tape.widened_blank hpos (Int.toNat_le_toNat hle), rfl, rfl, rfl, rfl⟩
  have halike : ∀ i ≤ k,
      Progress.Alike (Tape.Widened size.toNat wider.toNat) (x.run i) (y.run i) := by
    intro i hi
    rw [run_stepwise hworker, run_stepwise hworker', show y.job = x.job from hjob'.trans hjob.symm]
    refine hblank.advance (Tape.coupling_widened _ _) i fun i' hi' g g' hg halike => ?_
    rw [← run_stepwise hworker] at hg
    exact halike.movesAlike_widened (hwrap i' (Nat.lt_of_lt_of_le hi' hi) g hg)
  refine ⟨halike, fun f hf => ?_⟩
  have hk := halike k (Nat.le_refl k)
  rw [hf] at hk
  obtain ⟨a', hf', hends⟩ := Progress.Alike.exists_right (a := .ok f) hk
  cases hends with
  | ok alike => exact ⟨_, hf', alike.steps, alike.sink⟩

/-- `,[>+.<-]` reads a two and goes to the last of two cells and back twice, and does the same on
five. -/
theorem round_trip_alike_widened : (1 : Int) ≤ 2 ∧ (2 : Int) ≤ 5 ∧ ∃ x y f',
    ofLinks .stepwise { tapeSize := 2, eof := .keep, limit := none, trace := false }
      (.ofString ",[>+.<-]") (.ofPairs [(1, 7)]) (⟨[2]⟩ : ByteQueue) Output.emptyBuffer = .ok x ∧
    ofLinks .stepwise { tapeSize := 5, eof := .keep, limit := none, trace := false }
      (.ofString ",[>+.<-]") (.ofPairs [(1, 7)]) (⟨[2]⟩ : ByteQueue) Output.emptyBuffer = .ok y ∧
    (∀ i < 14, ∀ g, x.run i = .running g → ¬ g.Wraps x.job) ∧
    Progress.Alike (Tape.Widened 2 5) (x.run 8) (y.run 8) ∧
    y.run 14 = .finished f' ∧ f'.steps = 14 ∧ f'.sink.bytes = #[1, 2] := by
  obtain ⟨x, y, hx, hy, hruns⟩ := run_alike_widened
    { tapeSize := 0, eof := .keep, limit := none, trace := false } (.ofString ",[>+.<-]")
    (.ofPairs [(1, 7)]) (⟨[2]⟩ : ByteQueue) Output.emptyBuffer
    (by decide : (1 : Int) ≤ 2) (by decide : (2 : Int) ≤ 5)
  have hall : ∀ i < 14, ¬ (x.run i).machine.Wraps x.job := by
    obtain rfl := Except.ok.inj (hx.symm.trans rfl)
    decide +kernel
  have hwrap : ∀ i < 14, ∀ g, x.run i = .running g → ¬ g.Wraps x.job := by
    intro i hi g hg
    have := hall i hi
    rwa [hg] at this
  obtain ⟨halike, hend⟩ := hruns 14 hwrap
  obtain ⟨f, hf, hsteps, hbytes⟩ : ∃ f, x.run 14 = .finished f ∧ f.steps = 14 ∧
      f.sink.bytes = #[1, 2] := by
    obtain rfl := Except.ok.inj (hx.symm.trans rfl)
    exact ⟨_, rfl, rfl, rfl⟩
  obtain ⟨f', hf', hsteps', hsink⟩ := hend f hf
  exact ⟨by decide, by decide, x, y, f', hx, hy, hwrap, halike 8 (by decide), hf',
    hsteps'.trans hsteps, hsink ▸ hbytes⟩

end Execution

end RingTape
