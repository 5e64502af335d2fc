import RingTape.Proofs.Failing
import RingTape.Proofs.Safety

/-!
The borders of loops. Whichever way a machine has come to the place behind a bracket, by going on,
by skipping the loop or by going back into it, a bracket has looked at the current cell, and nothing
has been done since. So the cell is zero behind a closing bracket and not zero behind an opening
one.

This is not so of any machine at such a place, since a machine may be started anywhere. It holds
behind every step (`exists_behind_of_step`), and so in a run at every moment but the first. As no
two pairs of brackets cross, there is no other way into a loop or out of it than past its brackets
(`lands_of_matched`), so the cell is known on every such way, too.
-/

namespace RingTape

namespace Machine

variable {ι κ : Type} {j : Job} {m m' : Machine ι κ} {k n : Nat}

structure Behind (j : Job) (k : Nat) (m : Machine ι κ) : Prop where
  ip : m.ip = (k : Int) + 1
  opening : j.program.fetch? k = some .opening → m.tape.current ≠ 0
  closing : j.program.fetch? k = some .closing → m.tape.current = 0

theorem behind_opening (hip : m.ip = k) (hs : j.program.fetch? k = some .opening)
    (h : m.tape.current ≠ 0) : m.next.Behind j k where
  ip := by rw [ip_next, hip]
  opening _ := h
  closing hs' := absurd (Option.some.inj (hs.symm.trans hs')) Symbol.opening_ne_closing

theorem behind_closing (hip : m.ip = k) (hs : j.program.fetch? k = some .closing)
    (h : m.tape.current = 0) : m.next.Behind j k where
  ip := by rw [ip_next, hip]
  opening hs' := absurd (Option.some.inj (hs'.symm.trans hs)) Symbol.opening_ne_closing
  closing _ := h

theorem behind_plain {s : Symbol} (hip : m.ip = k) (hs : j.program.fetch? k = some s)
    (plain : ¬ s.IsBracket) : m.next.Behind j k where
  ip := by rw [ip_next, hip]
  opening hs' := absurd (Or.inl (Option.some.inj (hs.symm.trans hs'))) plain
  closing hs' := absurd (Or.inr (Option.some.inj (hs.symm.trans hs'))) plain

/-- The machine stands in its program or just behind it, and if that is behind a bracket, then the
current cell is as the bracket leaves it. -/
structure Bordered (j : Job) (m : Machine ι κ) : Prop where
  inside : m.Inside j
  closing : 1 ≤ m.ip → j.program.fetch? (m.ip - 1) = some .closing → m.tape.current = 0
  opening : 1 ≤ m.ip → j.program.fetch? (m.ip - 1) = some .opening → m.tape.current ≠ 0

theorem Bordered.of_ip_eq_zero (hin : m.Inside j) (h : m.ip = 0) : m.Bordered j where
  inside := hin
  closing := by omega
  opening := by omega

theorem Bordered.of_behind (hin : m.Inside j) (h : m.Behind j k) : m.Bordered j where
  inside := hin
  closing _ hs := h.closing (by rwa [h.ip, Int.add_sub_cancel] at hs)
  opening _ hs := h.opening (by rwa [h.ip, Int.add_sub_cancel] at hs)

theorem Bordered.of_untouched (hm : m.Bordered j) (h : m.Untouched m') : m'.Bordered j where
  inside := ⟨h.ip ▸ hm.inside.nonneg, h.ip ▸ hm.inside.le⟩
  closing := by
    rw [h.ip, h.tape]
    exact hm.closing
  opening := by
    rw [h.ip, h.tape]
    exact hm.opening

/-- What a symbol comes to land on: its own place, or the partner of its place. -/
theorem matched_of_lands (hj : j.Resolved) {s : Symbol} {i t : Int} (h : Lands j s i t) :
    t = i ∨ ∃ o c : Nat, Matched j.program.symbols.toList o c ∧
      (i = o ∧ t = c ∨ i = c ∧ t = o) := by
  obtain ⟨hmatching, heq⟩ := Program.isMatching_of_resolve hj
  cases h with
  | here => exact Or.inl rfl
  | opening _ link =>
      rw [heq, hmatching.forward_iff] at link
      obtain ⟨o, c, hpair, hm⟩ := hmatching.matched _ link
      obtain ⟨rfl, rfl⟩ := Prod.mk.inj hpair
      exact Or.inr ⟨o, c, hm, Or.inl ⟨rfl, rfl⟩⟩
  | closing _ link =>
      rw [heq, hmatching.backward_iff] at link
      obtain ⟨o, c, hpair, hm⟩ := hmatching.matched _ link
      obtain ⟨rfl, rfl⟩ := Prod.mk.inj hpair
      exact Or.inr ⟨o, c, hm, Or.inr ⟨rfl, rfl⟩⟩

/-- Whoever comes into a loop lands on its opening bracket, and whoever leaves it on its closing
one. -/
theorem lands_of_matched (hj : j.Resolved) {o c : Nat}
    (hm : Matched j.program.symbols.toList o c) {s : Symbol} {i t : Int} (h : Lands j s i t) :
    ((i ≤ o ∨ (c : Int) ≤ i) → o < t + 1 → t + 1 ≤ c → t = o) ∧
      (o ≤ i → i ≤ c → (t + 1 < o ∨ c < t + 1) → t = c) := by
  rcases matched_of_lands hj h with rfl | ⟨o', c', hm', hends⟩
  · omega
  · -- the pair that is jumped along is the pair of the loop, or the two do not cross
    have hlt := hm.lt
    have hlt' := hm'.lt
    have hcross := hm.uncrossed hm'
    have hcross' := hm'.uncrossed hm
    have hne := hm.ne hm'
    have hne' := hm'.ne hm
    have hright : o = o' → c = c' := by
      rintro rfl
      exact hm.unique_right hm'
    have hleft : c = c' → o = o' := by
      rintro rfl
      exact hm.unique_left hm'
    omega

/-! ### Steps -/

variable [ByteSource ι] [ByteSink κ]

/-- Only a bracket leads away from its place. -/
theorem ip_execute_of_plain {s : Symbol} (plain : ¬ s.IsBracket) (h : m.execute j s = .ok m') :
    m'.ip = m.ip := by
  have hland := (execute_frame h).2.1
  generalize m'.ip = t at hland
  cases hland with
  | here => rfl
  | opening command => exact absurd (Or.inl (Symbol.command?_eq_openLoop_iff.1 command)) plain
  | closing command => exact absurd (Or.inr (Symbol.command?_eq_closeLoop_iff.1 command)) plain

/-- Behind an opening bracket that is executed, or behind its partner. -/
theorem exists_behind_of_opening (hj : j.Resolved) (hip : m.ip = k)
    (hs : j.program.fetch? k = some .opening) (h : m.execute j .opening = .ok m') :
    ∃ i, m'.next.Behind j i := by
  have hmatching := (Program.isMatching_of_resolve hj).1
  obtain ⟨c, hm⟩ := hmatching.exists_closing (Program.fetch?_eq_some_iff.1 hs)
  have hcommand : Symbol.opening.command? = some .openLoop := by decide
  simp only [execute, hcommand] at h
  by_cases hz : m.tape.current = 0
  · rw [if_pos hz, jump_of_link (hip ▸ hj.forward hm)] at h
    cases h
    exact ⟨c, behind_closing rfl (Program.fetch?_eq_some_iff.2 hm.closing) hz⟩
  · rw [if_neg hz] at h
    cases h
    exact ⟨k, behind_opening hip hs hz⟩

/-- Behind a closing bracket that is executed, or behind its partner. -/
theorem exists_behind_of_closing (hj : j.Resolved) (hip : m.ip = k)
    (hs : j.program.fetch? k = some .closing) (h : m.execute j .closing = .ok m') :
    ∃ i, m'.next.Behind j i := by
  have hmatching := (Program.isMatching_of_resolve hj).1
  obtain ⟨o, hm⟩ := hmatching.exists_opening (Program.fetch?_eq_some_iff.1 hs)
  have hcommand : Symbol.closing.command? = some .closeLoop := by decide
  simp only [execute, hcommand] at h
  by_cases hz : m.tape.current = 0
  · rw [if_pos hz] at h
    cases h
    exact ⟨k, behind_closing hip hs hz⟩
  · rw [if_neg hz, jump_of_link (hip ▸ hj.backward hm)] at h
    cases h
    exact ⟨o, behind_opening rfl (Program.fetch?_eq_some_iff.2 hm.opening) hz⟩

/-- Every step ends behind a symbol, and the current cell is as a bracket leaves it. -/
theorem exists_behind_of_step (hj : j.Resolved) (hin : m.Inside j) (h : m.step j = .ok m') :
    ∃ i, m'.Behind j i := by
  obtain ⟨-, s, hs, f, hexecute, rfl⟩ := step_eq_ok_iff.1 h
  obtain ⟨i, hi⟩ := Int.eq_ofNat_of_zero_le hin.nonneg
  have hip : (m.note (m.entry s)).ip = i := (ip_note m _).trans hi
  rw [hi] at hs
  by_cases hbracket : s.IsBracket
  · rcases hbracket with rfl | rfl
    · exact exists_behind_of_opening hj hip hs hexecute
    · exact exists_behind_of_closing hj hip hs hexecute
  · exact ⟨i, behind_plain ((ip_execute_of_plain hbracket hexecute).trans hip) hs hbracket⟩

/-! ### Ways into a loop and out of it -/

/-- A step comes behind some symbol, or it fails and stays where it is. -/
theorem Bordered.step (hj : j.Resolved) (hm : m.Bordered j) :
    (Progress.ofAttempt (m.step j)).machine.Bordered j := by
  cases hstep : m.step j with
  | ok m' =>
      obtain ⟨k, hk⟩ := exists_behind_of_step hj hm.inside hstep
      exact .of_behind (hm.inside.step hj hstep) hk
  | error b => exact hm.of_untouched (step_eq_error_iff.1 hstep).untouched

theorem Visits.bordered (hj : j.Resolved) (h : Visits j m m') (hm : m.Bordered j) :
    m'.Bordered j := by
  induction h with
  | start => exact hm
  | step _ _ ih => exact ih.step hj

/-- Stepping on from a machine that is done comes by no other machine. -/
theorem Visits.again (h : Visits j m m') :
    Visits j m (Progress.ofAttempt (m'.step j)).machine := by
  by_cases done : m'.isDone j
  · have hnone : j.program.fetch? m'.ip = none :=
      Program.fetch?_eq_none_iff.2 (Or.inr (isDone_iff.1 done))
    have hstay : (Progress.ofAttempt (m'.step j)).machine = m' := by
      cases hl : j.spent m'.steps with
      | true =>
          rw [step_of_spent hl]
          rfl
      | false =>
          rw [step_of_no_symbol hl hnone]
          rfl
    rwa [hstay]
  · exact h.step done

/-- Whoever comes into a loop finds a cell that is not zero and stands behind the opening bracket,
and whoever leaves it has a zero cell and stands behind the closing one. -/
theorem Bordered.crossing (hj : j.Resolved) (hm : m.Bordered j) (hstep : m.step j = .ok m')
    {o c : Nat} (hpair : Matched j.program.symbols.toList o c) :
    ((m.ip ≤ o ∨ (c : Int) ≤ m.ip) → o < m'.ip → m'.ip ≤ c →
        m'.ip = o + 1 ∧ m'.tape.current ≠ 0) ∧
      (o ≤ m.ip → m.ip ≤ c → (m'.ip < o ∨ c < m'.ip) →
        m'.ip = c + 1 ∧ m'.tape.current = 0) := by
  obtain ⟨s, t, -, hland, hip⟩ := ip_of_step hstep
  obtain ⟨hinto, hout⟩ := lands_of_matched hj hpair hland
  have hm' : m'.Bordered j := by
    have := hm.step hj
    rwa [hstep] at this
  rw [hip]
  refine ⟨fun hfrom hgt hle => ?_, fun hge hle hto => ?_⟩
  · obtain rfl := hinto hfrom hgt hle
    refine ⟨rfl, hm'.opening (by omega) ?_⟩
    rw [hip, Int.add_sub_cancel]
    exact Program.fetch?_eq_some_iff.2 hpair.opening
  · obtain rfl := hout hge hle hto
    refine ⟨rfl, hm'.closing (by omega) ?_⟩
    rw [hip, Int.add_sub_cancel]
    exact Program.fetch?_eq_some_iff.2 hpair.closing

end Machine

/-! ### Runs -/

namespace Execution

variable {ι κ : Type} [ByteSource ι] [ByteSink κ] {p : Program} {links : Links} {s : Settings}

open Machine (Bordered)

/-- Wherever stepping comes by from the start of a program whose brackets match, with any tape,
policy, limit and source and however often it is tried again, the cell is zero behind a closing
bracket and not zero behind an opening one. So a loop is entered and entered again with a cell that
is not zero, is left and skipped with a zero cell, and a run whose program ends in a closing bracket
ends on a zero cell. -/
theorem borders_fix_current (hp : p.resolve = .ok links) (hsize : 1 ≤ s.tapeSize) (source : ι)
    (sink : κ) :
    ∃ x, ofLinks .stepwise s p links source sink = .ok x ∧ x.job = jobOf s p links ∧
      (∀ m, x.start.Visits x.job m →
        x.start.Visits x.job (Progress.ofAttempt (m.step x.job)).machine) ∧
      (∀ m, x.start.Visits x.job m → 1 ≤ m.ip →
        (p.fetch? (m.ip - 1) = some .closing → m.tape.current = 0) ∧
        (p.fetch? (m.ip - 1) = some .opening → m.tape.current ≠ 0)) ∧
      (∀ m m', x.start.Visits x.job m → m.step x.job = .ok m' → ∀ o c, (o, c) ∈ links.pairs →
        ((m.ip ≤ o ∨ c ≤ m.ip) → o < m'.ip → m'.ip ≤ c →
          m'.ip = o + 1 ∧ m'.tape.current ≠ 0) ∧
        (o ≤ m.ip → m.ip ≤ c → (m'.ip < o ∨ c < m'.ip) →
          m'.ip = c + 1 ∧ m'.tape.current = 0)) ∧
      ∀ f, x.Settles (.ok f) → p.fetch? (p.length - 1) = some .closing → f.tape.current = 0 := by
  obtain ⟨tape, htape, rfl⟩ := exists_blank hsize
  have hj : (jobOf s p links).Resolved := hp
  have hstart : (startOf s (.blank s.tapeSize.toNat (by omega)) source sink).Bordered
      (jobOf s p links) :=
    .of_ip_eq_zero (sound_startOf_size s p links _ source sink).inside rfl
  refine ⟨_, ofLinks_stepwise htape, rfl, fun m hm => ?_, fun m hm hip => ?_,
    fun m m' hm hstep o c hpair => ?_, fun f hf hlast => ?_⟩
  · exact hm.again
  · have h := hm.bordered hj hstart
    exact ⟨h.closing hip, h.opening hip⟩
  · obtain ⟨o, c, heq, hmatched⟩ :=
      (Program.isMatching_of_resolve hp).1.matched _ (Array.mem_toList_iff.2 hpair)
    obtain ⟨rfl, rfl⟩ := Prod.mk.inj heq
    exact (hm.bordered hj hstart).crossing hj hstep hmatched
  · cases (settles_stepwise_iff rfl).1 hf with
    | finished run done =>
        have h : f.Bordered (jobOf s p links) := run.invariant (fun _ worked hm => by
          have := Bordered.step hj hm
          rwa [worked] at this) hstart
        have hip : f.ip = p.length := h.inside.ip_eq done
        refine h.closing ?_ (by rwa [hip])
        -- a program that ends in a bracket is not empty
        have hin : ¬ ((p.length : Int) - 1 < -p.length ∨ (p.length : Int) ≤ p.length - 1) := by
          rw [← Program.fetch?_eq_none_iff, hlast]
          exact Option.some_ne_none _
        omega

/-- `,[[-]]` in front of the inner loop, which it has just come to, and at its end. -/
theorem nested_loop_borders :
    (Program.ofString ",[[-]]").resolve = .ok (.ofPairs [(2, 4), (1, 5)]) ∧ ∃ x m f,
    ofLinks .stepwise { tapeSize := 1, eof := .keep, limit := none, trace := false }
      (.ofString ",[[-]]") (.ofPairs [(2, 4), (1, 5)]) (⟨[2]⟩ : ByteQueue) Output.emptyBuffer =
        .ok x ∧
    x.start.Visits x.job m ∧ m.ip = 2 ∧ m.tape.current ≠ 0 ∧
    x.Settles (.ok f) ∧ f.steps = 8 ∧ f.tape.current = 0 := by
  have hlinks : (Program.ofString ",[[-]]").resolve = .ok (.ofPairs [(2, 4), (1, 5)]) := rfl
  obtain ⟨x, hx, -, hagain, hborders, -, hlast⟩ := borders_fix_current
    (s := { tapeSize := 1, eof := .keep, limit := none, trace := false }) hlinks (by decide)
    (⟨[2]⟩ : ByteQueue) Output.emptyBuffer
  have hvisits := hagain _ (hagain _ .start)
  have hborder := hborders _ hvisits
  obtain rfl := Except.ok.inj (hx.symm.trans rfl)
  exact ⟨hlinks, _, _, _, hx, hvisits, rfl, (hborder (by decide)).2 rfl, ⟨9, rfl⟩, rfl,
    hlast _ ⟨9, rfl⟩ rfl⟩

end Execution

end RingTape
