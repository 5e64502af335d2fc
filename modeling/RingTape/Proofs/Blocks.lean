import RingTape.Input.Console
import RingTape.Proofs.Decoding
import RingTape.Proofs.Supply

/-!
Text in blocks. A console gets its text in blocks of bytes, which end wherever they happen to end,
in the middle of a character or between a carriage return and its line feed. None of this can be
seen in the lines that it hands out: they are those of the whole text, opened at once.

What a console still has is a text (`Holds`) that is spread over four places: the characters that
are ready, a carriage return that waits, the bytes of a character that is not complete, and the
bytes of the blocks to come. Fetching a block moves it towards the front and does not change it, as
decoding (`Decodes.split`) and unifying line ends (`Newlines.apply_append`) can both be interrupted.
-/

namespace RingTape

open Text (Encoding Newlines)

/-! ### Lines -/

section Lines

variable {cs ds : List Char}

theorem line_of_not_mem (h : '\n' ∉ cs) : firstLine (cs ++ '\n' :: ds) = cs ++ ['\n'] ∧
    afterFirstLine (cs ++ '\n' :: ds) = ds := by
  have hall : ∀ c ∈ cs, (c != '\n') = true := fun c hc => by
    simpa using fun heq : c = '\n' => h (heq ▸ hc)
  simp [firstLine, afterFirstLine, List.takeWhile_append_of_pos hall,
    List.dropWhile_append_of_pos hall]

/-- What stands behind a whole line is not looked at to find the line. -/
theorem line_append (h : '\n' ∈ cs) : firstLine (cs ++ ds) = firstLine cs ∧
    afterFirstLine (cs ++ ds) = afterFirstLine cs ++ ds := by
  obtain ⟨as, bs, rfl, has⟩ := List.eq_append_cons_of_mem h
  rw [List.append_assoc, List.cons_append, (line_of_not_mem has).1, (line_of_not_mem has).2,
    (line_of_not_mem has).1, (line_of_not_mem has).2]
  exact ⟨rfl, rfl⟩

end Lines

namespace Console

variable {c : Console} {t : List Char}

def waiting (held : Bool) : List Char := if held then ['\r'] else []

/-- What the console still has to hand out is this text. -/
def Holds (c : Console) (t : List Char) : Prop :=
  ∃ cs, Encoding.utf8.decodeAll (c.carry ++ c.unread) = .ok cs ∧
    t = c.ready ++ c.newlines.apply (waiting c.held ++ cs)

theorem settle_of_ne_nil {newlines : Newlines} {held : Bool} {cs : List Char} (h : cs ≠ []) :
    settle newlines held false cs =
      if newlines = .unified ∧ (waiting held ++ cs).getLast? = some '\r' then
        (newlines.apply (waiting held ++ cs).dropLast, true)
      else (newlines.apply (waiting held ++ cs), false) := by
  cases held <;> simp [settle, waiting, h]

/-- Settling characters may put off their last carriage return and changes nothing else. -/
theorem apply_settle (newlines : Newlines) (held : Bool) (cs ds : List Char) :
    newlines.apply (waiting held ++ (cs ++ ds)) =
      (settle newlines held false cs).1 ++
        newlines.apply (waiting (settle newlines held false cs).2 ++ ds) := by
  by_cases hcs : cs = []
  · subst hcs
    cases newlines <;> cases held <;> rfl
  · rw [settle_of_ne_nil hcs, ← List.append_assoc]
    split
    · rename_i hlast
      -- the carriage return that is put off does not begin with a line feed
      have hcut := List.dropLast_append_getLast? _ hlast.2
      calc newlines.apply (waiting held ++ cs ++ ds)
          = newlines.apply ((waiting held ++ cs).dropLast ++ (['\r'] ++ ds)) := by
            rw [← List.append_assoc, hcut]
        _ = _ := Newlines.apply_append (by simp)
    · rename_i hlast
      exact Newlines.apply_append fun hnewlines h => absurd ⟨hnewlines, h⟩ hlast

theorem Holds.exists_fetch (h : c.Holds t) : ∃ d, c.fetch = .ok d ∧ d.Holds t := by
  obtain ⟨cs, hdecode, rfl⟩ := h
  rw [← List.take_append_drop blockSize c.unread, ← List.append_assoc,
    Encoding.decodeAll_eq_ok_iff] at hdecode
  obtain ⟨cs₁, cs₂, carry, h₁, h₂, rfl⟩ := hdecode.split
  rw [← Encoding.decodePart_eq_ok_iff] at h₁
  refine ⟨_, by rw [fetch, h₁], cs₂, Encoding.decodeAll_eq_ok_iff.2 h₂, ?_⟩
  rw [apply_settle, ← List.append_assoc]

/-- A console that has everything ready holds it. -/
theorem holds_ready (newlines : Newlines) (t : List Char) :
    Console.Holds { unread := [], newlines, ready := t } t := by
  refine ⟨[], Encoding.decodeAll_eq_ok_iff.2 .nil, ?_⟩
  cases newlines <;> exact (List.append_nil t).symm

theorem Holds.finish_eq (h : c.Holds t) (hunread : c.unread = []) :
    c.finish = .ok { unread := [], newlines := c.newlines, ready := t } := by
  obtain ⟨cs, hdecode, rfl⟩ := h
  rw [hunread, List.append_nil] at hdecode
  cases hheld : c.held <;> simp [finish, hdecode, settle, waiting, hheld]

/-- A line that is ready, or everything. -/
theorem Holds.exists_fill (h : c.Holds t) :
    ∃ d, c.fill = .ok d ∧ d.Holds t ∧
      ('\n' ∈ d.ready ∨ ∃ newlines, d = { unread := [], newlines, ready := t }) := by
  fun_induction fill c with
  | case1 c hline => exact ⟨c, rfl, h, Or.inl (by simpa using hline)⟩
  | case2 c hline hunread =>
      exact ⟨_, h.finish_eq hunread, holds_ready c.newlines t, Or.inr ⟨c.newlines, rfl⟩⟩
  | case3 c hline hunread e hfetch =>
      obtain ⟨d, hd, -⟩ := h.exists_fetch
      cases hfetch.symm.trans hd
  | case4 c hline hunread d hfetch ih =>
      obtain ⟨d', hd, hholds⟩ := h.exists_fetch
      obtain rfl := Except.ok.inj (hfetch.symm.trans hd)
      exact ih hholds

/-- The console hands out the first line of its text. -/
theorem Holds.exists_read (h : c.Holds t) : ∃ d, d.Holds (afterFirstLine t) ∧
    c.read = (if t = [] then .ok none else (Encoding.utf8.encode (firstLine t)).map List.head?,
      d) := by
  obtain ⟨d, hd, hholds, hline | ⟨newlines, rfl⟩⟩ := h.exists_fill
  · obtain ⟨cs, hdecode, rfl⟩ := hholds
    have hready : d.ready ≠ [] := List.ne_nil_of_mem hline
    obtain ⟨hfirst, hafter⟩ := line_append hline
    refine ⟨{ d with ready := afterFirstLine d.ready }, ⟨cs, hdecode, hafter⟩, ?_⟩
    rw [hfirst, if_neg (List.append_ne_nil_of_left_ne_nil hready _)]
    simp only [read, hd, if_neg hready]
  · by_cases ht : t = []
    · subst ht
      exact ⟨_, holds_ready newlines [], by simp only [read, hd, if_pos]⟩
    · exact ⟨_, holds_ready newlines (afterFirstLine t), by simp only [read, hd, if_neg ht]⟩

end Console

/-! ### A console and a reader of lines -/

/-- Sources that are read alike are answered alike. -/
theorem ByteSource.AnswerAlike.of_read {ι ι' : Type} [ByteSource ι] [ByteSource ι']
    {S : ι → ι' → Prop} (hS : ∀ q q', S q q' → ∃ v r r', read q = (v, r) ∧ read q' = (v, r') ∧
      S r r') (eof : EofPolicy) : AnswerAlike eof S := by
  intro q q' hq
  obtain ⟨v, r, r', hr, hr', hS'⟩ := hS q q' hq
  unfold answer
  rw [hr, hr']
  rcases v with e | _ | b
  · exact ⟨_, r, r', rfl, rfl, hS'⟩
  · exact ⟨_, r, r', rfl, rfl, hS'⟩
  · exact ⟨_, r, r', rfl, rfl, hS'⟩

theorem LineReader.read_utf8 (t : List Char) : LineReader.read ⟨t, "utf-8"⟩ =
    (if t = [] then .ok none else (Encoding.utf8.encode (firstLine t)).map List.head?,
      ⟨afterFirstLine t, "utf-8"⟩) := by
  unfold read
  split
  · rename_i ht
    obtain rfl : t = [] := ht
    rfl
  · simp only [firstByte, Encoding.ofName?_utf8]

structure Input.ReadsLines (q : Input) (r : LineReader) : Prop where
  console : ∃ c, q = .console c ∧ c.Holds r.unread
  encoding : r.encoding = "utf-8"

/-- A console is read like its text, line by line. -/
theorem Input.answerAlike_readsLines (eof : EofPolicy) :
    ByteSource.AnswerAlike eof Input.ReadsLines := by
  refine .of_read (fun q r h => ?_) eof
  obtain ⟨⟨c, rfl, hholds⟩, hencoding⟩ := h
  obtain ⟨t, encoding⟩ := r
  obtain rfl : encoding = "utf-8" := hencoding
  obtain ⟨d, hd, hread⟩ := hholds.exists_read
  refine ⟨_, .console d, ⟨afterFirstLine t, "utf-8"⟩, ?_, LineReader.read_utf8 t,
    ⟨⟨d, rfl, hd⟩, rfl⟩⟩
  show Input.read (.console c) = _
  simp only [Input.read, hread]

/-- A console that gets bytes holds the text that is in them. -/
theorem Console.holds_of_text {newlines : Newlines} {bytes : List UInt8} {text : String}
    (h : Encoding.utf8.text newlines bytes = .ok text) :
    Console.Holds { unread := bytes, newlines } text.toList := by
  obtain ⟨cs, hdecodes, rfl⟩ := Encoding.text_eq_ok_iff.1 h
  exact ⟨cs, Encoding.decodeAll_eq_ok_iff.2 hdecodes, String.toList_ofList⟩

/-- Where there are no bytes, there is nothing to be read. -/
theorem Console.read_nil (newlines : Newlines) : Console.read { unread := [], newlines } =
    (.ok none, { unread := [], newlines }) := by
  have hfill : Console.fill { unread := [], newlines } = .ok { unread := [], newlines } :=
    (fill_of_unread_nil List.not_mem_nil rfl).trans ((holds_ready newlines []).finish_eq rfl)
  rw [read, hfill]
  rfl

end RingTape
