import Mathlib.Data.ZMod.Basic
import RingTape.Proofs.Block
import RingTape.Proofs.Step

/-!
Stores: what a program works on, without the machine around it. The tape is a function on the
integers modulo its size, so that a move is an addition and nothing has to be said about wrapping
round; the input is what is still unread and the output what has been written. `Represents` ties a
store to a machine, and a symbol that is no bracket takes a machine from a store to the next in one
step.
-/

namespace RingTape

/-- A circle of `n` cells with a pointer, and the bytes that are still to be read and those that
have been written. -/
structure Store (n : Nat) where
  cells : ZMod n → UInt8
  pointer : ZMod n
  unread : List UInt8
  written : List UInt8

namespace Store

variable {n : Nat}

def blank (n : Nat) (input : List UInt8) : Store n := ⟨fun _ => 0, 0, input, []⟩

def current (st : Store n) : UInt8 := st.cells st.pointer

def put (st : Store n) (v : UInt8) : Store n :=
  { st with cells := Function.update st.cells st.pointer v }

def read (eof : EofPolicy) (st : Store n) : Store n :=
  match st.unread, eof with
  | b :: bs, _ => { st.put b with unread := bs }
  | [], .zero => st.put 0
  | [], .keep => st
  | [], .max => st.put 255

def apply (eof : EofPolicy) (s : Symbol) (st : Store n) : Store n :=
  match s.command? with
  | some .right => { st with pointer := st.pointer + 1 }
  | some .left => { st with pointer := st.pointer - 1 }
  | some .increment => st.put (st.current + 1)
  | some .decrement => st.put (st.current - 1)
  | some .write => { st with written := st.written ++ [st.current] }
  | some .read => st.read eof
  | _ => st

end Store

/-- The machine holds what the store holds, and has given its sink, which was `sink` at first, what
has been written. -/
structure Represents {κ : Type} [ByteSink κ] {n : Nat} (sink : κ) (st : Store n)
    (m : Machine ByteQueue κ) : Prop where
  size : m.tape.size = n
  pointer : (m.tape.pointer : ZMod n) = st.pointer
  cells : ∀ (k : Nat) (h : k < m.tape.cells.size), m.tape.cells[k] = st.cells k
  unread : m.source.unread = st.unread
  sink : m.sink = ByteSink.writeAll sink st.written

namespace Represents

variable {κ : Type} [ByteSink κ] {n : Nat} {sink : κ} {st : Store n} {m m' : Machine ByteQueue κ}

/-- Only the tape and the two ends are looked at. -/
theorem congr (h : Represents sink st m) (ht : m'.tape = m.tape) (hs : m'.source = m.source)
    (hk : m'.sink = m.sink) : Represents sink st m' := by
  obtain ⟨tape, ip, steps, tracing, log, source, sink'⟩ := m'
  simp only at ht hs hk
  subst ht hs hk
  exact ⟨h.size, h.pointer, h.cells, h.unread, h.sink⟩

theorem current_eq (h : Represents sink st m) : m.tape.current = st.current := by
  rw [Store.current, ← h.pointer]
  exact h.cells m.tape.pointer m.tape.pointer_lt

/-- A store says everything about the tape of a machine that holds it. -/
theorem tape_eq (h : Represents sink st m) (h' : Represents sink st m') : m.tape = m'.tape := by
  have hcells : m.tape.cells = m'.tape.cells := Array.ext (h.size.trans h'.size.symm)
    fun k hk hk' => (h.cells k hk).trans (h'.cells k hk').symm
  have hpointer : m.tape.pointer = m'.tape.pointer := by
    have heq := h.pointer.trans h'.pointer.symm
    have hlt : m.tape.pointer < n := h.size ▸ m.tape.pointer_lt
    have hlt' : m'.tape.pointer < n := h'.size ▸ m'.tape.pointer_lt
    rwa [ZMod.natCast_eq_natCast_iff', Nat.mod_eq_of_lt hlt, Nat.mod_eq_of_lt hlt'] at heq
  cases hm : m.tape
  cases hm' : m'.tape
  simp only [hm, hm'] at hcells hpointer
  subst hcells hpointer
  rfl

theorem source_eq (h : Represents sink st m) (h' : Represents sink st m') :
    m.source = m'.source :=
  congrArg ByteQueue.mk (h.unread.trans h'.unread.symm)

theorem sink_eq (h : Represents sink st m) (h' : Represents sink st m') : m.sink = m'.sink :=
  h.sink.trans h'.sink.symm

theorem move (h : Represents sink st m) (d : Int) :
    Represents sink { st with pointer := st.pointer + d } { m with tape := m.tape.move d } where
  size := h.size
  pointer := by
    have := congrArg (Int.cast : Int → ZMod n) (m.tape.pointer_move d)
    rw [h.size, ZMod.intCast_mod] at this
    push_cast at this
    rw [this, h.pointer]
  cells := h.cells
  unread := h.unread
  sink := h.sink

theorem put (h : Represents sink st m) (v : UInt8) :
    Represents sink (st.put v) { m with tape := m.tape.put v } where
  size := by simpa using h.size
  pointer := h.pointer
  cells k hk := by
    have hp := m.tape.pointer_lt
    have hk' : k < m.tape.cells.size := by simpa [Tape.cells_put] using hk
    have hn : m.tape.cells.size = n := h.size
    simp only [Tape.cells_put, Array.getElem_set, Store.put, ← h.pointer]
    by_cases hkp : m.tape.pointer = k
    · simp [hkp]
    · -- places below the size are equal as soon as they are equal modulo the size
      have hne : (k : ZMod n) ≠ (m.tape.pointer : ZMod n) := by
        rw [Ne, ZMod.natCast_eq_natCast_iff', Nat.mod_eq_of_lt (hn ▸ hk'),
          Nat.mod_eq_of_lt (hn ▸ hp)]
        exact Ne.symm hkp
      rw [if_neg hkp, Function.update_of_ne hne]
      exact h.cells k hk'
  unread := h.unread
  sink := h.sink

theorem read (h : Represents sink st m) (eof : EofPolicy) :
    ∃ m', m.readByte eof = .ok m' ∧ m'.ip = m.ip ∧ Represents sink (st.read eof) m' := by
  have hunread := h.unread
  cases hs : m.source.unread with
  | nil =>
      rw [hs] at hunread
      have hread : ByteSource.read m.source = (.ok none, m.source) := by
        show m.source.read = _
        simp only [ByteQueue.read, hs]
      simp only [Machine.readByte, hread, Store.read, ← hunread]
      cases eof with
      | zero => exact ⟨_, rfl, rfl, h.put 0⟩
      | keep => exact ⟨_, rfl, rfl, h⟩
      | max => exact ⟨_, rfl, rfl, h.put 255⟩
  | cons b bs =>
      rw [hs] at hunread
      have hread : ByteSource.read m.source = (.ok (some b), (⟨bs⟩ : ByteQueue)) := by
        show m.source.read = _
        simp only [ByteQueue.read, hs]
      simp only [Machine.readByte, hread, Store.read, ← hunread]
      have hput := h.put b
      exact ⟨_, rfl, rfl, hput.size, hput.pointer, hput.cells, rfl, hput.sink⟩

theorem writeByte (h : Represents sink st m) :
    Represents sink { st with written := st.written ++ [st.current] } m.writeByte where
  size := h.size
  pointer := h.pointer
  cells := h.cells
  unread := h.unread
  sink := by
    rw [ByteSink.writeAll_append, ← h.sink, ← h.current_eq]
    rfl

/-- A symbol that is no bracket is executed as the store says. -/
theorem execute (h : Represents sink st m) (j : Job) {s : Symbol} (plain : ¬ s.IsBracket) :
    ∃ m', m.execute j s = .ok m' ∧ m'.ip = m.ip ∧ Represents sink (st.apply j.eof s) m' := by
  cases hc : s.command? with
  | none =>
      simp only [Machine.execute, Store.apply, hc]
      exact ⟨m, rfl, rfl, h⟩
  | some o =>
      cases o <;> simp only [Machine.execute, Store.apply, hc]
      case right =>
        have := h.move 1
        push_cast at this
        exact ⟨_, rfl, rfl, this⟩
      case left =>
        have := h.move (-1)
        push_cast at this
        rw [← sub_eq_add_neg] at this
        exact ⟨_, rfl, rfl, this⟩
      case increment =>
        refine ⟨_, rfl, rfl, ?_⟩
        rw [← h.current_eq]
        exact h.put (m.tape.current + 1)
      case decrement =>
        refine ⟨_, rfl, rfl, ?_⟩
        rw [← h.current_eq]
        exact h.put (m.tape.current - 1)
      case write => exact ⟨_, rfl, rfl, h.writeByte⟩
      case read => exact h.read j.eof
      case openLoop => exact absurd (Or.inl (Symbol.command?_eq_openLoop_iff.1 hc)) plain
      case closeLoop => exact absurd (Or.inr (Symbol.command?_eq_closeLoop_iff.1 hc)) plain

/-! ### Steps on represented stores -/

variable {j : Job} {s : Symbol}

theorem note (h : Represents sink st m) (e : LogEntry) : Represents sink st (m.note e) :=
  h.congr (m.tape_note e) (m.source_note e) (m.sink_note e)

theorem step_plain (h : Represents sink st m) (hl : j.spent m.steps = false)
    (hs : j.program.fetch? m.ip = some s) (plain : ¬ s.IsBracket) :
    ∃ m', m.step j = .ok m' ∧ m'.ip = m.ip + 1 ∧ Represents sink (st.apply j.eof s) m' := by
  obtain ⟨f, he, hip, hr⟩ := (h.note (m.entry s)).execute j plain
  rw [Machine.ip_note] at hip
  exact ⟨f.next, Machine.step_of_execute hl hs he, by rw [Machine.ip_next, hip],
    hr.congr rfl rfl rfl⟩

/-- An opening bracket goes to the closing one or into the body. -/
theorem step_opening (h : Represents sink st m) (hl : j.spent m.steps = false)
    (hs : j.program.fetch? m.ip = some .opening) {c : Int}
    (hc : j.links.forward[m.ip]? = some c) :
    ∃ m', m.step j = .ok m' ∧ m'.ip = (if st.current = 0 then c else m.ip) + 1 ∧
      Represents sink st m' := by
  have hnote := h.note (m.entry .opening)
  have hcommand : Symbol.opening.command? = some .openLoop := by decide
  by_cases hz : st.current = 0
  · have he : (m.note (m.entry .opening)).execute j .opening =
        .ok { m.note (m.entry .opening) with ip := c } := by
      simp only [Machine.execute, hcommand, hnote.current_eq, hz, if_true]
      exact Machine.jump_of_link (by rwa [Machine.ip_note])
    exact ⟨_, Machine.step_of_execute hl hs he, by simp [hz], hnote.congr rfl rfl rfl⟩
  · have he : (m.note (m.entry .opening)).execute j .opening = .ok (m.note (m.entry .opening)) := by
      simp only [Machine.execute, hcommand, hnote.current_eq, hz, if_false]
    exact ⟨_, Machine.step_of_execute hl hs he, by simp [hz], hnote.congr rfl rfl rfl⟩

/-- A closing bracket goes on or back to the opening one. -/
theorem step_closing (h : Represents sink st m) (hl : j.spent m.steps = false)
    (hs : j.program.fetch? m.ip = some .closing) {o : Int}
    (ho : j.links.backward[m.ip]? = some o) :
    ∃ m', m.step j = .ok m' ∧ m'.ip = (if st.current = 0 then m.ip else o) + 1 ∧
      Represents sink st m' := by
  have hnote := h.note (m.entry .closing)
  have hcommand : Symbol.closing.command? = some .closeLoop := by decide
  by_cases hz : st.current = 0
  · have he : (m.note (m.entry .closing)).execute j .closing = .ok (m.note (m.entry .closing)) := by
      simp only [Machine.execute, hcommand, hnote.current_eq, hz, if_true]
    exact ⟨_, Machine.step_of_execute hl hs he, by simp [hz], hnote.congr rfl rfl rfl⟩
  · have he : (m.note (m.entry .closing)).execute j .closing =
        .ok { m.note (m.entry .closing) with ip := o } := by
      simp only [Machine.execute, hcommand, hnote.current_eq, hz, if_false]
      exact Machine.jump_of_link (by rwa [Machine.ip_note])
    exact ⟨_, Machine.step_of_execute hl hs he, by simp [hz], hnote.congr rfl rfl rfl⟩

end Represents

end RingTape
