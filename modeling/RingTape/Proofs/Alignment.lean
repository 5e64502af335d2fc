import RingTape.Proofs.Progress
import RingTape.Proofs.Store

/-!
Alignment. Two programs that differ in where their symbols stand, or in that one has symbols that
the other lacks, run alike at the symbols that they share. Which places correspond is left to a
relation: at such places stand the same symbols, and where these are brackets, their partners stand
at such places as well. So two machines that hold the same and stand at such places go on to hold
the same and to stand behind such places, whether they jump or not.
-/

namespace RingTape

/-- The places that `R` relates bear the same symbols in the programs of both jobs, and brackets
there have partners at related places. Neither job is ever stopped. -/
structure Job.Aligned (R : Nat → Nat → Prop) (j' j : Job) : Prop where
  eof : j.eof = j'.eof
  free' : j'.Free
  free : j.Free
  symbol {k' k : Nat} : R k' k →
    ∃ s, j'.program.fetch? k' = some s ∧ j.program.fetch? k = some s
  closing {o' o : Nat} : R o' o → j'.program.fetch? o' = some .opening →
    j.program.fetch? o = some .opening → ∃ c' c, R c' c ∧
      Matched j'.program.symbols.toList o' c' ∧ Matched j.program.symbols.toList o c
  opening {c' c : Nat} : R c' c → j'.program.fetch? c' = some .closing →
    j.program.fetch? c = some .closing → ∃ o' o, R o' o ∧
      Matched j'.program.symbols.toList o' c' ∧ Matched j.program.symbols.toList o c

variable {κ : Type} [ByteSink κ] {R : Nat → Nat → Prop} {n : Nat} {sink : κ} {j' j : Job}
  {m' m : Machine ByteQueue κ}

structure Abreast (R : Nat → Nat → Prop) (n : Nat) (sink : κ) (m' m : Machine ByteQueue κ) :
    Prop where
  place : ∃ k' k : Nat, R k' k ∧ m'.ip = (k' : Int) + 1 ∧ m.ip = (k : Int) + 1
  store : ∃ st : Store n, Represents sink st m' ∧ Represents sink st m

namespace Job.Aligned

variable {k' k : Nat} {st : Store n}

theorem step_opening (h : Aligned R j' j) (hR : R k' k)
    (hs' : j'.program.fetch? k' = some .opening) (hs : j.program.fetch? k = some .opening)
    (hip' : m'.ip = k') (hip : m.ip = k)
    (hr' : Represents sink st m') (hr : Represents sink st m) :
    ∃ g' g, m'.step j' = .ok g' ∧ m.step j = .ok g ∧ Abreast R n sink g' g := by
  obtain ⟨c', c, hpartner, hm', hm⟩ := h.closing hR hs' hs
  obtain ⟨g', hstep', hipg', hrg'⟩ := hr'.step_opening (h.free'.not_spent _)
    (hip' ▸ hs') (hip' ▸ h.free'.resolved.forward hm')
  obtain ⟨g, hstep, hipg, hrg⟩ := hr.step_opening (h.free.not_spent _) (hip ▸ hs)
    (hip ▸ h.free.resolved.forward hm)
  refine ⟨g', g, hstep', hstep, ?_, st, hrg', hrg⟩
  by_cases hz : st.current = 0
  · rw [if_pos hz] at hipg hipg'
    exact ⟨c', c, hpartner, hipg', hipg⟩
  · rw [if_neg hz] at hipg hipg'
    exact ⟨k', k, hR, hip' ▸ hipg', hip ▸ hipg⟩

theorem step_closing (h : Aligned R j' j) (hR : R k' k)
    (hs' : j'.program.fetch? k' = some .closing) (hs : j.program.fetch? k = some .closing)
    (hip' : m'.ip = k') (hip : m.ip = k)
    (hr' : Represents sink st m') (hr : Represents sink st m) :
    ∃ g' g, m'.step j' = .ok g' ∧ m.step j = .ok g ∧ Abreast R n sink g' g := by
  obtain ⟨o', o, hpartner, hm', hm⟩ := h.opening hR hs' hs
  obtain ⟨g', hstep', hipg', hrg'⟩ := hr'.step_closing (h.free'.not_spent _)
    (hip' ▸ hs') (hip' ▸ h.free'.resolved.backward hm')
  obtain ⟨g, hstep, hipg, hrg⟩ := hr.step_closing (h.free.not_spent _) (hip ▸ hs)
    (hip ▸ h.free.resolved.backward hm)
  refine ⟨g', g, hstep', hstep, ?_, st, hrg', hrg⟩
  by_cases hz : st.current = 0
  · rw [if_pos hz] at hipg hipg'
    exact ⟨k', k, hR, hip' ▸ hipg', hip ▸ hipg⟩
  · rw [if_neg hz] at hipg hipg'
    exact ⟨o', o, hpartner, hipg', hipg⟩

/-- From related places both machines go on to stand behind related places. -/
theorem step (h : Aligned R j' j) (hR : R k' k) (hip' : m'.ip = k') (hip : m.ip = k)
    (hr' : Represents sink st m') (hr : Represents sink st m) :
    ∃ g' g, m'.step j' = .ok g' ∧ m.step j = .ok g ∧ Abreast R n sink g' g := by
  obtain ⟨s, hs', hs⟩ := h.symbol hR
  by_cases hbracket : s.IsBracket
  · rcases hbracket with rfl | rfl
    · exact h.step_opening hR hs' hs hip' hip hr' hr
    · exact h.step_closing hR hs' hs hip' hip hr' hr
  · obtain ⟨g', hstep', hipg', hrg'⟩ := hr'.step_plain (h.free'.not_spent _) (hip' ▸ hs') hbracket
    obtain ⟨g, hstep, hipg, hrg⟩ := hr.step_plain (h.free.not_spent _) (hip ▸ hs) hbracket
    rw [h.eof] at hrg
    exact ⟨g', g, hstep', hstep, ⟨k', k, hR, hip' ▸ hipg', hip ▸ hipg⟩, _, hrg', hrg⟩

end Job.Aligned

end RingTape
