import RingTape.Proofs.Safety

/-!
Bounds. A burst works on bare numbers, and nothing but arithmetic keeps it inside its codes, its
slots and its cells. This needs no matching brackets. Either some pair of the links has a place that
names no slot, and then nothing is run at all, or every slot holds a place below the length of the
program. A jump then lands inside the program or just behind it, the pointer is reduced modulo the
number of cells, and so whatever a burst comes by is in bounds again (`Within.act`).

`Passes` follows a burst from symbol to symbol. Between bursts the machine keeps what a burst needs
at its start (`round_keeps`), so the bounds hold in every burst of a run.
-/

namespace RingTape

/-- A place inside a row holds an element of it. -/
theorem Index.exists_at? {α : Type} {xs : Array α} {i : Int} (h : 0 ≤ i) (h' : i < xs.size) :
    ∃ x ∈ xs, at? xs i = some x := by
  obtain ⟨k, rfl⟩ := Int.eq_ofNat_of_zero_le h
  have hk : k < xs.size := by omega
  exact ⟨xs[k], Array.getElem_mem hk, by rw [at?_natCast, Array.getElem?_eq_getElem hk]⟩

/-! ### Slots made of any pairs -/

namespace Links

variable {a b : Array Int} {q : Int × Int} {ps : List (Int × Int)} {place v : Int} {n : Nat}

structure Names (n : Nat) (q : Int × Int) : Prop where
  opening_ge : -(n : Int) ≤ q.1
  opening_lt : q.1 < n
  closing_ge : -(n : Int) ≤ q.2
  closing_lt : q.2 < n

theorem exists_setSlot_iff :
    (∃ b, setSlot a place v = .ok b) ↔ -(a.size : Int) ≤ place ∧ place < a.size := by
  rw [← Index.locate?_isSome_iff]
  unfold setSlot
  cases Index.locate? a.size place <;> simp

theorem mem_of_setSlot (h : setSlot a place v = .ok b) {t : Int} (ht : t ∈ b) : t ∈ a ∨ t = v := by
  unfold setSlot at h
  split at h
  · cases h
    exact Array.mem_or_eq_of_mem_set ht
  · cases h

theorem setPair_eq_ok_iff :
    setPair a q = .ok b ↔ ∃ c, setSlot a q.1 q.2 = .ok c ∧ setSlot c q.2 q.1 = .ok b := by
  unfold setPair
  cases hs : setSlot a q.1 q.2 with
  | error e => simp [bind, Except.bind]
  | ok c => simp [bind, Except.bind]

theorem exists_setPair_iff : (∃ b, setPair a q = .ok b) ↔ Names a.size q := by
  simp only [setPair_eq_ok_iff]
  constructor
  · rintro ⟨b, c, hc, hb⟩
    obtain ⟨ho, ho'⟩ := exists_setSlot_iff.1 ⟨c, hc⟩
    obtain ⟨hc₁, hc₂⟩ := exists_setSlot_iff.1 ⟨b, hb⟩
    rw [size_of_setSlot hc] at hc₁ hc₂
    exact ⟨ho, ho', hc₁, hc₂⟩
  · intro h
    obtain ⟨c, hc⟩ := exists_setSlot_iff.2 ⟨h.opening_ge, h.opening_lt⟩
    have hclosing := And.intro h.closing_ge h.closing_lt
    rw [← size_of_setSlot hc] at hclosing
    obtain ⟨b, hb⟩ := exists_setSlot_iff.2 hclosing
    exact ⟨b, c, hc, hb⟩

/-- A slot may be given a place that is then refused, but not in a row that comes of it. -/
theorem lt_of_setPair (h : setPair a q = .ok b) (ha : ∀ t ∈ a, t < (n : Int)) (hn : a.size = n) :
    ∀ t ∈ b, t < (n : Int) := by
  have hq : Names n q := hn ▸ exists_setPair_iff.1 ⟨b, h⟩
  obtain ⟨c, hc, hb⟩ := setPair_eq_ok_iff.1 h
  intro t ht
  rcases mem_of_setSlot hb ht with ht | rfl
  · rcases mem_of_setSlot hc ht with ht | rfl
    · exact ha t ht
    · exact hq.closing_lt
  · exact hq.opening_lt

theorem exists_setPairs_iff : (∃ b, ps.foldlM setPair a = .ok b) ↔ ∀ q ∈ ps, Names a.size q := by
  induction ps generalizing a with
  | nil => simp [pure, Except.pure]
  | cons q ps ih =>
      rw [List.foldlM_cons, List.forall_mem_cons, ← exists_setPair_iff]
      cases hs : setPair a q with
      | error e => simp [bind, Except.bind]
      | ok c =>
          rw [← size_of_setPair hs]
          simpa [bind, Except.bind] using ih

theorem lt_of_setPairs (h : ps.foldlM setPair a = .ok b) (ha : ∀ t ∈ a, t < (n : Int))
    (hn : a.size = n) : b.size = n ∧ ∀ t ∈ b, t < (n : Int) := by
  induction ps generalizing a with
  | nil =>
      obtain rfl : a = b := Except.ok.inj h
      exact ⟨hn, ha⟩
  | cons q ps ih =>
      rw [List.foldlM_cons] at h
      cases hs : setPair a q with
      | error e =>
          rw [hs] at h
          cases h
      | ok c =>
          rw [hs] at h
          exact ih h (lt_of_setPair hs ha hn) ((size_of_setPair hs).trans hn)

theorem exists_slots_iff {l : Links} :
    (∃ b, l.slots n = .ok b) ↔ ∀ q ∈ l.pairs.toList, Names n q := by
  rw [slots, if_neg (by omega), exists_setPairs_iff, Array.size_replicate]
  rfl

theorem lt_of_slots {l : Links} (h : l.slots n = .ok b) : b.size = n ∧ ∀ t ∈ b, t < (n : Int) := by
  rw [slots, if_neg (by omega)] at h
  refine lt_of_setPairs h (fun t ht => ?_) (by simp)
  rw [(Array.mem_replicate.1 ht).2]
  omega

end Links

namespace Burst

/-! ### What a burst comes by -/

/-- Codes and slots of a program of `n` symbols, no slot leading behind it. -/
structure Prepared.Fits (r : Prepared) (n : Nat) : Prop where
  codes : r.codes.size = n
  slots : r.slots.size = n
  target_lt : ∀ t ∈ r.slots, t < (n : Int)

/-- Links can be made slots of if and only if all their places name one, and then the slots fit. -/
theorem prepare_cases (text : String) (ps : List (Int × Int)) :
    ((∃ q ∈ ps, ¬ Links.Names text.length q) ∧
      ∃ e, prepare (.ofString text) (.ofPairs ps) = .error (.slot e)) ∨
    ((∀ q ∈ ps, Links.Names text.length q) ∧
      ∃ r, prepare (.ofString text) (.ofPairs ps) = .ok r ∧ r.Fits text.length) := by
  obtain ⟨cs, hcs, hmap⟩ := exists_codes (codable_ofString text)
  have hlength : cs.length = text.length := by
    have := congrArg List.length hmap
    rw [List.length_map, List.length_map, Array.length_toList] at this
    exact this.trans (Program.length_ofString text)
  have hiff := Links.exists_slots_iff (n := text.length) (l := .ofPairs ps)
  rw [Links.pairs_ofPairs] at hiff
  cases hs : (Links.ofPairs ps).slots text.length with
  | error e =>
      refine Or.inl ⟨?_, e, by simp [prepare, hcs, hs]⟩
      simp only [hs, reduceCtorEq, exists_false, false_iff, not_forall] at hiff
      simpa using hiff
  | ok slots =>
      obtain ⟨hsize, hlt⟩ := Links.lt_of_slots hs
      exact Or.inr ⟨hiff.1 ⟨slots, hs⟩, _, by simp [prepare, hcs, hs]; rfl, hlength, hsize, hlt⟩

namespace Registers

variable {r : Prepared} {n size budget left : Nat} {g g' : Registers}

/-- In a program of `n` symbols, on `size` cells: the place is in the program or just behind it, and
the pointer at a cell. -/
structure Within (n size : Nat) (g : Registers) : Prop where
  pc_nonneg : 0 ≤ g.pc
  pc_le : g.pc ≤ n
  pointer_nonneg : 0 ≤ g.pointer
  pointer_lt : g.pointer < g.cells.size
  size_eq : g.cells.size = size
  cell_le : ∀ c ∈ g.cells, c.toNat ≤ 255

/-- On as many cells, nothing but the place and the pointer has to be looked at. -/
theorem Within.congr (h : Within n size g) (hpc : 0 ≤ g'.pc ∧ g'.pc ≤ n)
    (hpointer : 0 ≤ g'.pointer ∧ g'.pointer < g'.cells.size)
    (hcells : g'.cells.size = g.cells.size) : Within n size g' :=
  ⟨hpc.1, hpc.2, hpointer.1, hpointer.2, hcells.trans h.size_eq,
    fun c _ => Nat.le_of_lt_succ c.toNat_lt⟩

inductive Acts (n size : Nat) (g : Registers) : Move → Prop
  | moves {g' : Registers} (within : Within n size { g' with pc := g'.pc + 1 }) :
      Acts n size g (.ok g')
  | stops {stop : Stop} (known : stop ≠ .stray) : Acts n size g (.error (stop, g))

theorem Within.next (h : Within n size g) (pending : g.pc < n) :
    Within n size { g with pc := g.pc + 1 } := by
  have := h.pc_nonneg
  exact h.congr ⟨by simp; omega, by simp; omega⟩ ⟨h.pointer_nonneg, h.pointer_lt⟩ rfl

theorem Within.move (h : Within n size g) (d : Int) : Within n size (g.move d) := by
  have hpos : (0 : Int) < g.cells.size := Int.lt_of_le_of_lt h.pointer_nonneg h.pointer_lt
  exact h.congr ⟨h.pc_nonneg, h.pc_le⟩
    ⟨Int.emod_nonneg _ (Int.ne_of_gt hpos), Int.emod_lt_of_pos _ hpos⟩ rfl

theorem Within.add (h : Within n size g) (pending : g.pc < n) (v : UInt8) :
    Acts n size g (g.add v) := by
  obtain ⟨k, hk⟩ := Int.eq_ofNat_of_zero_le h.pointer_nonneg
  have hlt : k < g.cells.size := by have := h.pointer_lt; omega
  rw [Registers.add, hk, Index.locate?_natCast hlt]
  have hnext := h.next pending
  exact .moves (hnext.congr ⟨hnext.pc_nonneg, hnext.pc_le⟩
    ⟨Int.natCast_nonneg k, by simpa using hlt⟩ (by simp))

theorem Within.jump (hr : r.Fits n) (h : Within n size g) (pending : g.pc < n) :
    Acts n size g (g.jump r.slots) := by
  obtain ⟨t, ht, hat⟩ := Index.exists_at? h.pc_nonneg (hr.slots ▸ pending)
  have hlt := hr.target_lt t ht
  simp only [Registers.jump, hat]
  split
  · exact .stops (by decide)
  · exact .moves (h.congr ⟨by simp; omega, by simp; omega⟩ ⟨h.pointer_nonneg, h.pointer_lt⟩ rfl)

theorem Within.branch (hr : r.Fits n) (h : Within n size g) (pending : g.pc < n) (onZero : Bool) :
    Acts n size g (g.branch r.slots onZero) := by
  obtain ⟨c, -, hat⟩ := Index.exists_at? h.pointer_nonneg h.pointer_lt
  simp only [Registers.branch, hat]
  split
  · exact h.jump hr pending
  · exact .moves (h.next pending)

theorem Within.act (hr : r.Fits n) (h : Within n size g) (pending : g.pc < n) :
    Acts n size g (g.act r.codes r.slots) := by
  obtain ⟨code, -, hat⟩ := Index.exists_at? h.pc_nonneg (hr.codes ▸ pending)
  simp only [Registers.act, hat]
  split
  · exact .moves (h.next pending)
  · exact .moves ((h.move 1).next pending)
  · exact .moves ((h.move (-1)).next pending)
  · exact h.add pending 1
  · exact h.add pending (-1)
  · exact .stops (by decide)
  · exact .stops (by decide)
  · exact h.branch hr pending true
  · exact h.branch hr pending false

/-- A burst from `g` with `budget` steps comes by `g'` when `left` of them are left. -/
inductive Passes (r : Prepared) : Nat → Registers → Nat → Registers → Prop
  | refl (budget : Nat) (g : Registers) : Passes r budget g budget g
  | head {budget left : Nat} {g g' g'' : Registers} (pending : g.pc < r.codes.size)
      (moved : g.act r.codes r.slots = .ok g')
      (rest : Passes r budget { g' with pc := g'.pc + 1 } left g'') :
      Passes r (budget + 1) g left g''

theorem Passes.left_le (h : Passes r budget g left g') : left ≤ budget := by
  induction h with
  | refl => exact Nat.le_refl _
  | head _ _ _ ih => exact Nat.le_succ_of_le ih

/-- What is left of a burst is a burst from where it has come to. -/
theorem Passes.work_eq (h : Passes r budget g left g') (done : Nat) :
    g.work r.codes r.slots done budget =
      g'.work r.codes r.slots (done + (budget - left)) left := by
  induction h generalizing done with
  | refl budget g => rw [Nat.sub_self, Nat.add_zero]
  | @head budget left g g' g'' pending moved rest ih =>
      have := rest.left_le
      rw [work_of_move pending moved, ih,
        show done + 1 + (budget - left) = done + (budget + 1 - left) by omega]

theorem Passes.within (hr : r.Fits n) (h : Passes r budget g left g') (hg : Within n size g) :
    Within n size g' := by
  induction h with
  | refl => exact hg
  | head pending moved _ ih =>
      have hacts := hg.act hr (hr.codes ▸ pending)
      rw [moved] at hacts
      cases hacts with
      | moves within => exact ih within

/-- A burst from `g` is in bounds at every symbol that it comes by, and reaches there for no code,
slot or cell that does not exist. -/
def Bounded (r : Prepared) (n size budget : Nat) (g : Registers) : Prop :=
  ∀ left g', Passes r budget g left g' →
    run r.codes r.slots budget g = g'.work r.codes r.slots (budget - left) left ∧
      g'.Within n size ∧ (g'.pc < n → ∀ g'', g'.act r.codes r.slots ≠ .error (.stray, g''))

theorem Within.bounded (hr : r.Fits n) (h : Within n size g) (budget : Nat) :
    Bounded r n size budget g := by
  intro left g' hg
  have hwithin := hg.within hr h
  refine ⟨by rw [Burst.run, hg.work_eq, Nat.zero_add], hwithin, fun pending g'' hact => ?_⟩
  have hacts := hwithin.act hr pending
  rw [hact] at hacts
  cases hacts with
  | stops known => exact known rfl

structure Ends (n size : Nat) (o : Outcome) : Prop where
  within : Within n size o.registers
  stop_ne : o.stop ≠ .stray
  pending : o.stop = .ended ∨ o.stop = .budget ∨ o.registers.pc < n

theorem Within.work (hr : r.Fits n) (h : Within n size g) (done budget : Nat) :
    Ends n size (g.work r.codes r.slots done budget) := by
  induction budget generalizing g done with
  | zero =>
      rw [Registers.work]
      split
      · exact ⟨h, by simp, Or.inl rfl⟩
      · exact ⟨h, by simp, Or.inr (Or.inl rfl)⟩
  | succ budget ih =>
      by_cases hend : (r.codes.size : Int) ≤ g.pc
      · rw [work_of_ended hend]
        exact ⟨h, by simp, Or.inl rfl⟩
      · have pending := Int.not_le.1 hend
        have hacts := h.act hr (hr.codes ▸ pending)
        generalize hact : g.act r.codes r.slots = move at hacts
        cases hacts with
        | moves within =>
            rw [work_of_move pending hact]
            exact ih within (done + 1)
        | stops known =>
            rw [work_of_stop pending hact]
            exact ⟨h, known, Or.inr (Or.inr (hr.codes ▸ pending))⟩

end Registers

/-! ### Rounds -/

section Rounds

open Registers (Within Ends)

variable {ι κ : Type} {j : Job} {r : Prepared} {m m' : Machine ι κ} {size batch : Nat}

theorem within_load (hm : m.Sound j size) : Within j.program.length size (load m) where
  pc_nonneg := hm.inside.nonneg
  pc_le := hm.inside.le
  pointer_nonneg := Int.natCast_nonneg _
  pointer_lt := Int.ofNat_lt.2 m.tape.pointer_lt
  size_eq := hm.size
  cell_le c _ := Nat.le_of_lt_succ c.toNat_lt

theorem exists_store {g : Registers} (hg : Within j.program.length size g) (m : Machine ι κ)
    (k : Nat) : ∃ m', store m g k = some m' ∧ m'.ip = g.pc ∧ m'.Sound j size := by
  rw [store, dif_pos ⟨hg.pointer_nonneg, hg.pointer_lt⟩]
  exact ⟨_, rfl, rfl, ⟨hg.pc_nonneg, hg.pc_le⟩, hg.size_eq⟩

inductive Keeps (j : Job) (size : Nat) : Attempt ι κ → Prop
  | ok {m : Machine ι κ} (sound : m.Sound j size) : Keeps j size (.ok m)
  | error {b : Breakdown ι κ} (known : b.cause ≠ .strayAccess) : Keeps j size (.error b)

theorem sound_next (hm : m.Sound j size) (hip : m.ip < j.program.length) :
    m.next.Sound j size where
  inside := by
    have := hm.inside.nonneg
    exact ⟨by simp; omega, by simp; omega⟩
  size := hm.size

variable [ByteSource ι] [ByteSink κ]

/-- All that an answer can come to. A byte is written or read only while the limit allows it. -/
inductive Answered (j : Job) (m : Machine ι κ) : Stop → Attempt ι κ → Prop
  | ended : Answered j m .ended (.ok m)
  | budget : Answered j m .budget (.ok m)
  | written (left : j.spent m.steps = false) : Answered j m .output (.ok m.writeByte.next)
  | read {f : Machine ι κ} (left : j.spent m.steps = false) (byte : m.readByte j.eof = .ok f) :
      Answered j m .input (.ok f.next)
  | unread {e : Text.CodecError} {source : ι} (left : j.spent m.steps = false)
      (broken : m.readByte j.eof = { m with source }.fail (.codec e)) :
      Answered j m .input (.error ⟨.codec e, { m with source }⟩)
  | spent {stop : Stop} (asked : stop = .output ∨ stop = .input) (reached : j.spent m.steps = true) :
      Answered j m stop (.error ⟨.fault (.limit (.stopped m.steps m.ip)), m⟩)
  | unlinked {s : Symbol} (symbol : j.program.fetch? m.ip = some s) :
      Answered j m .unlinked (.error ⟨.fault (.bracket (.unlinked m.ip (some s.text))), m⟩)
  | lost (symbol : j.program.fetch? m.ip = none) :
      Answered j m .unlinked (.error ⟨.strayAccess, m⟩)
  | stray : Answered j m .stray (.error ⟨.strayAccess, m⟩)

theorem answered_answer (j : Job) (stop : Stop) (m : Machine ι κ) :
    Answered j m stop (answer j stop m) := by
  cases stop with
  | ended => exact .ended
  | budget => exact .budget
  | stray => exact .stray
  | unlinked =>
      rw [answer]
      split
      · exact .unlinked ‹_›
      · exact .lost ‹_›
  | output =>
      cases hl : j.spent m.steps with
      | true =>
          rw [answer, Machine.checkLimit_of_spent hl]
          exact .spent (Or.inl rfl) hl
      | false =>
          rw [answer, Machine.checkLimit_of_not_spent hl]
          exact .written hl
  | input =>
      cases hl : j.spent m.steps with
      | true =>
          rw [answer, Machine.checkLimit_of_spent hl]
          exact .spent (Or.inr rfl) hl
      | false =>
          simp only [answer, Machine.checkLimit_of_not_spent hl, Except.bind]
          rcases Machine.readByte_cases j.eof m with ⟨f, hf⟩ | ⟨e, source, -, hf⟩
          · rw [hf]
            exact .read hl hf
          · rw [hf]
            exact .unread hl hf

theorem answer_keeps {stop : Stop} (hm : m.Sound j size) (hstop : stop ≠ .stray)
    (pending : stop = .ended ∨ stop = .budget ∨ m.ip < j.program.length) :
    Keeps j size (answer j stop m) := by
  have hanswered := answered_answer j stop m
  generalize answer j stop m = a at hanswered ⊢
  cases hanswered with
  | ended => exact .ok hm
  | budget => exact .ok hm
  | written left =>
      have hip : m.ip < j.program.length := by simpa using pending
      have hsound : m.writeByte.Sound j size := ⟨⟨hm.inside.nonneg, hm.inside.le⟩, hm.size⟩
      exact .ok (sound_next hsound hip)
  | @read f left byte =>
      have hip : m.ip < j.program.length := by simpa using pending
      obtain ⟨hk, hfip, -⟩ := Machine.readByte_frame byte
      have hsound : f.Sound j size :=
        ⟨⟨hfip ▸ hm.inside.nonneg, hfip ▸ hm.inside.le⟩, hk.size.trans hm.size⟩
      exact .ok (sound_next hsound (hfip ▸ hip))
  | unread left broken => exact .error (by simp)
  | spent asked reached => exact .error (by simp)
  | unlinked symbol => exact .error (by simp)
  | lost symbol =>
      have hip : m.ip < j.program.length := by simpa using pending
      obtain ⟨k, s, hk, hs⟩ := Machine.exists_symbol (j := j) hm.inside.nonneg (by
        rw [Machine.isDone_iff]
        omega)
      rw [hk, hs] at symbol
      cases symbol
  | stray => exact absurd rfl hstop

/-- A round in bounds stays in bounds. -/
theorem round_keeps (batch : Nat) (hr : r.Fits j.program.length) (hm : m.Sound j size) :
    Keeps j size (round j r batch m) := by
  cases hl : j.spent m.steps with
  | true =>
      rw [round, Machine.checkLimit_of_spent hl]
      exact .error (by simp)
  | false =>
      have hends : Ends j.program.length size
          (run r.codes r.slots (budget batch j.limit m.steps) (load m)) :=
        (within_load hm).work hr 0 (budget batch j.limit m.steps)
      obtain ⟨f, hf, hip, hsound⟩ := exists_store hends.within m
        (run r.codes r.slots (budget batch j.limit m.steps) (load m)).steps
      simp only [round, Machine.checkLimit_of_not_spent hl, Except.bind, hf]
      exact answer_keeps hsound hends.stop_ne (hip ▸ hends.pending)

theorem sound_of_reaches (hr : r.Fits j.program.length) {k : Nat}
    (h : Machine.Reaches j (round j r batch) k m m') (hm : m.Sound j size) : m'.Sound j size := by
  refine h.invariant (fun _ worked hsound => ?_) hm
  have hkeeps := round_keeps batch hr hsound
  rw [worked] at hkeeps
  cases hkeeps with
  | ok sound => exact sound

end Rounds

end Burst

namespace Execution

variable {ι κ : Type} [ByteSource ι] [ByteSink κ] {s : Settings}

/-- Bursts stay in bounds, whatever pairs a program is linked by. Where a place of a pair names no
slot, nothing is run. Otherwise every burst of the run is in bounds from its start on, and the run
does not break down for an access outside them. -/
theorem bursts_in_bounds (text : String) (ps : List (Int × Int)) (hsize : 1 ≤ s.tapeSize)
    (source : ι) (sink : κ) :
    ((∃ q ∈ ps, ¬ Links.Names text.length q) ∧
      ∃ e, ofLinks .burst s (.ofString text) (.ofPairs ps) source sink = .error (.slot e)) ∨
    ((∀ q ∈ ps, Links.Names text.length q) ∧
      ∃ r x, ofLinks .burst s (.ofString text) (.ofPairs ps) source sink = .ok x ∧
        x.worker = .burst r ∧ x.job = jobOf s (.ofString text) (.ofPairs ps) ∧
        r.Fits text.length ∧
        (∀ k m, Machine.Reaches x.job (Burst.round x.job r Burst.batchSize) k x.start m →
          Burst.Registers.Bounded r text.length s.tapeSize.toNat
            (Burst.budget Burst.batchSize x.job.limit m.steps) (Burst.load m)) ∧
        ∀ b, x.Settles (.error b) → b.cause ≠ .strayAccess) := by
  obtain ⟨tape, htape, rfl⟩ := exists_blank hsize
  rcases Burst.prepare_cases text ps with ⟨hps, e, he⟩ | ⟨hps, r, hprep, hr⟩
  · refine Or.inl ⟨hps, e, ?_⟩
    simp only [ofLinks, htape, Worker.prepare, he]
    rfl
  · have hlength : (jobOf s (.ofString text) (.ofPairs ps)).program.length = text.length :=
      Program.length_ofString text
    have hr' : r.Fits (jobOf s (.ofString text) (.ofPairs ps)).program.length := hlength ▸ hr
    have hstart := sound_startOf s (.ofString text) (.ofPairs ps) (n := s.tapeSize.toNat)
      (by omega) source sink
    refine Or.inr ⟨hps, r, _, ofLinks_burst htape hprep, rfl, rfl, hr, fun k m hm => ?_,
      fun b hb => ?_⟩
    · have hwithin := Burst.within_load (Burst.sound_of_reaches hr' hm hstart)
      exact (hlength ▸ hwithin).bounded hr _
    · cases (settles_burst_iff rfl).1 hb with
      | failed run pending broken =>
          have hkeeps := Burst.round_keeps Burst.batchSize hr'
            (Burst.sound_of_reaches hr' run hstart)
          rw [broken] at hkeeps
          cases hkeeps with
          | error known => exact known

/-- Links that count from the end, link a bracket twice and lead from places that bear none. -/
theorem odd_links_in_bounds : (1 : Int) ≤ 1 ∧
    ∃ r x, ofLinks .burst { tapeSize := 1, eof := .max, limit := none, trace := false }
        (.ofString "+[>.-]") (.ofPairs [(1, 5), (-1, 3), (2, -6), (5, 5)]) (⟨[]⟩ : ByteQueue)
        Output.emptyBuffer = .ok x ∧
      x.worker = .burst r ∧ (Burst.load x.start).Within 6 1 ∧
      ∀ b, x.Settles (.error b) → b.cause ≠ .strayAccess := by
  have hnames : ∀ q ∈ [((1 : Int), (5 : Int)), (-1, 3), (2, -6), (5, 5)],
      Links.Names "+[>.-]".length q := by
    intro q hq
    simp only [List.mem_cons, List.not_mem_nil, or_false] at hq
    rcases hq with rfl | rfl | rfl | rfl <;> exact ⟨by decide, by decide, by decide, by decide⟩
  rcases bursts_in_bounds "+[>.-]" [(1, 5), (-1, 3), (2, -6), (5, 5)]
      (s := { tapeSize := 1, eof := .max, limit := none, trace := false }) (by decide)
      (⟨[]⟩ : ByteQueue) Output.emptyBuffer with
    ⟨⟨q, hq, hnot⟩, -⟩ | ⟨-, r, x, hx, hworker, -, -, hbounds, hcause⟩
  · exact absurd (hnames q hq) hnot
  · obtain ⟨-, hwithin, -⟩ := hbounds 0 x.start (.refl _) _ _ (.refl _ _)
    exact ⟨by decide, r, x, hx, hworker, hwithin, hcause⟩

end Execution

end RingTape
