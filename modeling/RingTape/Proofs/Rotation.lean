import RingTape.Proofs.Lockstep

/-!
Turning the tape. The tape is a circle, and no place on it is special: when the cells and the
pointer are turned by the same number of places, a program cannot tell. Each of the two runs goes
round the end of its tape at steps of its own, and is turned against the other by as much as before.

`Tape.get` reads a cell at any integer, so being turned by `d` is an equation without a case for the
places that wrap.
-/

namespace RingTape

namespace Tape

variable {t t' : Tape} {d i i' : Int} {k : Nat}

/-! ### Cells at integers -/

theorem exists_place (t : Tape) (i : Int) : ∃ k : Nat, i % t.size = k ∧ k < t.cells.size :=
  ⟨t.index i, (t.index_val i).symm, (t.index i).isLt⟩

theorem get_eq_getElem (h : i % t.size = k) (hk : k < t.cells.size) : t.get i = t.cells[k] := by
  have hval : (t.index i : Nat) = k := by
    have := t.index_val i
    omega
  show t.cells[(t.index i : Nat)] = t.cells[k]
  simp only [hval]

theorem get_congr (h : i % t.size = i' % t.size) : t.get i = t.get i' := by
  obtain ⟨k, hk, hlt⟩ := t.exists_place i'
  rw [get_eq_getElem hk hlt, get_eq_getElem (h.trans hk) hlt]

theorem emod_natCast (h : k < t.cells.size) : (k : Int) % t.size = k :=
  Int.emod_eq_of_lt (Int.natCast_nonneg k) (Int.ofNat_lt.2 h)

theorem get_pointer (t : Tape) : t.get t.pointer = t.current :=
  get_eq_getElem (emod_natCast t.pointer_lt) t.pointer_lt

theorem get_put (t : Tape) (v : UInt8) (i : Int) :
    (t.put v).get i = if i % t.size = t.pointer then v else t.get i := by
  obtain ⟨k, hk, hlt⟩ := t.exists_place i
  have hlt' : k < (t.put v).cells.size := by simpa [cells_put] using hlt
  rw [get_eq_getElem (t := t.put v) (by rwa [size_put]) hlt', get_eq_getElem hk hlt, hk]
  simp only [cells_put, Array.getElem_set, Int.natCast_inj, eq_comm (a := k)]

/-! ### Turned tapes -/

structure Rotated (d : Int) (t t' : Tape) : Prop where
  size : t'.size = t.size
  pointer : (t'.pointer : Int) = (t.pointer + d) % t.size
  cells : ∀ (k : Nat) (h : k < t.cells.size), t'.get (k + d) = t.cells[k]

namespace Rotated

theorem get (h : t.Rotated d t') (i : Int) : t'.get (i + d) = t.get i := by
  obtain ⟨k, hk, hlt⟩ := t.exists_place i
  have hplace : (i + d) % t'.size = (k + d) % t'.size := by
    rw [h.size, ← Int.emod_add_emod, hk]
  rw [get_congr hplace, h.cells k hlt, get_eq_getElem hk hlt]

theorem current (h : t.Rotated d t') : t'.current = t.current := by
  have hplace : (t'.pointer : Int) % t'.size = (t.pointer + d) % t'.size := by
    rw [h.pointer, h.size, Int.emod_emod]
  rw [← get_pointer, ← get_pointer, get_congr hplace, h.get]

theorem put (h : t.Rotated d t') (v : UInt8) : (t.put v).Rotated d (t'.put v) where
  size := by simpa using h.size
  pointer := by simpa using h.pointer
  cells k hk := by
    have hlt : k < t.cells.size := by simpa [cells_put] using hk
    -- adding `d` to two places of the circle neither joins nor parts them
    have hplace : (k + d) % t'.size = t'.pointer ↔ t.pointer = k := by
      rw [h.pointer, h.size, Int.emod_add_cancel_right, emod_natCast hlt,
        emod_natCast t.pointer_lt, Int.natCast_inj, eq_comm]
    rw [get_put, h.cells k hlt]
    simp only [cells_put, Array.getElem_set, hplace]

theorem move (h : t.Rotated d t') (e : Int) : (t.move e).Rotated d (t'.move e) where
  size := h.size
  pointer := by
    rw [pointer_move, pointer_move, h.size, h.pointer, size_move, Int.emod_add_emod,
      Int.emod_add_emod, Int.add_right_comm]
  cells := h.cells

end Rotated

theorem symmetry_rotated (d : Int) : Symmetry (Rotated d) where
  current h := h.current
  put v h := h.put v
  move e h := h.move e

/-- On an empty tape, to be turned is to be moved. -/
theorem rotated_blank {n : Nat} (h : 0 < n) (d : Int) :
    (blank n h).Rotated d ((blank n h).move d) where
  size := rfl
  pointer := pointer_move _ d
  cells k hk := by
    obtain ⟨i, hi, hlt⟩ := ((blank n h).move d).exists_place (k + d)
    rw [get_eq_getElem hi hlt]
    simp [blank]

end Tape

/-! ### Runs on turned tapes -/

variable {ι κ : Type} [ByteSource ι] [ByteSink κ] {m m' : Machine ι κ} {j : Job} {d : Int}

namespace Machine

/-- The machine that `n` calls for a step leave behind, each of which may fail. -/
def afterCalls (j : Job) : Nat → Machine ι κ → Machine ι κ
  | 0, m => m
  | n + 1, m => (Progress.ofAttempt ((m.afterCalls j n).step j)).machine

theorem Alike.step_rotated (h : m.Alike (Tape.Rotated d) m') (j : Job) :
    Attempt.Alike (Tape.Rotated d) (m.step j) (m'.step j) :=
  h.step (Tape.symmetry_rotated d).toCoupling (h.movesAlike (Tape.symmetry_rotated d))

theorem Alike.afterCalls_rotated (h : m.Alike (Tape.Rotated d) m') (j : Job) (n : Nat) :
    (m.afterCalls j n).Alike (Tape.Rotated d) (m'.afterCalls j n) := by
  induction n with
  | zero => exact h
  | succ n ih => exact (ih.step_rotated j).machine

end Machine

namespace Execution

def movedBy (d : Int) (x : Execution ι κ) : Execution ι κ :=
  { x with start := { x.start with tape := x.start.tape.move d } }

/-- The tape is a true circle. Whatever the program and its links, two machines whose tapes are
turned against each other stay so through any number of calls for a step, and the next call turns
out the same for both. So a run that starts with its pointer elsewhere on an empty tape is the run
from the first cell, turned. -/
theorem runs_alike_rotated (d : Int) :
    (∀ (j : Job) (m m' : Machine ι κ), m.Alike (Tape.Rotated d) m' → ∀ n,
      (m.afterCalls j n).Alike (Tape.Rotated d) (m'.afterCalls j n) ∧
      Attempt.Alike (Tape.Rotated d) ((m.afterCalls j n).step j) ((m'.afterCalls j n).step j)) ∧
    ∀ (s : Settings) (p : Program) (links : Links) (source : ι) (sink : κ), 1 ≤ s.tapeSize →
      ∃ x, ofLinks .stepwise s p links source sink = .ok x ∧
        ∀ n, Progress.Alike (Tape.Rotated d) (x.run n) ((x.movedBy d).run n) := by
  refine ⟨fun j m m' h n => ?_, fun s p links source sink hsize => ?_⟩
  · have hn := h.afterCalls_rotated j n
    exact ⟨hn, hn.step_rotated j⟩
  · have hpos : 0 < s.tapeSize.toNat := by omega
    obtain ⟨x, hx, -, hworker, hstart⟩ := exists_stepwise hsize p links source sink
    refine ⟨x, hx, fun n => ?_⟩
    have halike : x.start.Alike (Tape.Rotated d) (x.movedBy d).start := by
      rw [movedBy, hstart]
      exact ⟨Tape.rotated_blank hpos d, rfl, rfl, rfl, rfl⟩
    rw [run_stepwise hworker, run_stepwise (x := x.movedBy d) hworker]
    exact halike.advance_of_symmetry (Tape.symmetry_rotated d) _ n

/-- `<.>]` with a bracket that is linked nowhere, on two tapes of three cells turned by one place:
each move goes round the end of the one tape and not of the other, and both runs write the same byte
and stop at the bracket. -/
theorem unlinked_alike_rotated :
    ∃ (m m' g g' : Machine ByteQueue Output) (j : Job) (x : Execution ByteQueue Output),
      m.tape.cells = #[5, 0, 7] ∧ m.tape.pointer = 0 ∧
      m'.tape.cells = #[0, 7, 5] ∧ m'.tape.pointer = 2 ∧ m.Alike (Tape.Rotated (-1)) m' ∧
      (m.afterCalls j 3).step j = g.fail (.fault (.bracket (.unlinked 3 (some "]")))) ∧
      (m'.afterCalls j 3).step j = g'.fail (.fault (.bracket (.unlinked 3 (some "]")))) ∧
      g.Alike (Tape.Rotated (-1)) g' ∧ g'.sink.bytes = #[7] ∧ (1 : Int) ≤ 2 ∧
      ofLinks .stepwise { tapeSize := 2, eof := .max, limit := some 2, trace := true }
        (.ofString ",<-") .empty ⟨[]⟩ .emptyBuffer = .ok x ∧
      Progress.Alike (Tape.Rotated (-1)) (x.run 3) ((x.movedBy (-1)).run 3) := by
  obtain ⟨hcalls, hblank⟩ := runs_alike_rotated (ι := ByteQueue) (κ := Output) (-1)
  have halike : Machine.Alike (Tape.Rotated (-1))
      { tape := ⟨#[5, 0, 7], 0, by decide⟩, source := (⟨[]⟩ : ByteQueue)
        sink := Output.emptyBuffer }
      { tape := ⟨#[0, 7, 5], 2, by decide⟩, source := ⟨[]⟩, sink := .emptyBuffer } := by
    refine ⟨⟨rfl, by decide, ?_⟩, rfl, rfl, rfl, rfl⟩
    intro k hk
    obtain rfl | rfl | rfl : k = 0 ∨ k = 1 ∨ k = 2 := by
      have : k < 3 := hk
      omega
    all_goals rfl
  obtain ⟨hg, -⟩ := hcalls { program := .ofString "<.>]", links := .empty } _ _ halike 3
  obtain ⟨x, hx, hrun⟩ := hblank { tapeSize := 2, eof := .max, limit := some 2, trace := true }
    (.ofString ",<-") .empty ⟨[]⟩ .emptyBuffer (by decide)
  exact ⟨_, _, _, _, { program := .ofString "<.>]", links := .empty }, x, rfl, rfl, rfl, rfl,
    halike, rfl, rfl, hg, rfl, by decide, hx, hrun 3⟩

end Execution

end RingTape
