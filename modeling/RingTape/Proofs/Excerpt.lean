import RingTape.Proofs.Blame
import RingTape.Proofs.Places

/-!
Excerpts point at their symbol. An excerpt may be cut on either side, and each cut puts an ellipsis
there, made of characters that are symbols as well. Only the one on the left moves the symbols, and
the caret is moved by as much (`pointsAt_around`).

At a place inside the program and for a context of any size, the excerpt goes from
`place - context` to `min program.length (place + context + 1)`, both natural numbers, so nothing in
it counts from the end of the program (`row_around`, `caret_around`).
-/

namespace RingTape

theorem slice_natCast {α : Type} (xs : List α) (start stop : Nat) :
    slice xs start stop = (xs.take stop).drop start := by
  rw [slice, if_neg (Int.not_lt.2 (Int.natCast_nonneg stop)), Int.toNat_natCast]

namespace Excerpt

/-- The caret stands below a symbol of the row, which is `c`. -/
def PointsAt (e : Excerpt) (c : Char) : Prop :=
  ∃ column, e.caret = List.replicate column ' ' ++ ['^'] ∧ e.row[column]? = some c

/-- The row shows the symbols from place `a` up to, but not with, place `b`, and an ellipsis on
each side on which there are more. Around `place` there are as many as the context asks for, or all
there are. -/
structure Shows (e : Excerpt) (program : List Char) (place context a b : Nat) : Prop where
  row_eq : e.row = (if 0 < a then ellipsis else []) ++ (program.take b).drop a ++
    (if b < program.length then ellipsis else [])
  start_le : a ≤ place
  lt_stop : place < b
  stop_le : b ≤ program.length
  before : place - a = min place context
  behind : b - (place + 1) = min (program.length - 1 - place) context

section Around

variable {program : List Char} {place context a b : Nat} {c : Char} {e : Excerpt}

theorem row_around (program : List Char) (place context : Nat) :
    (around program place context).row = (if 0 < place - context then ellipsis else []) ++
      (program.take (min program.length (place + context + 1))).drop (place - context) ++
      (if min program.length (place + context + 1) < program.length then ellipsis else []) := by
  have hstart : max 0 ((place : Int) - context) = (place - context : Nat) := by omega
  have hstop : min (program.length : Int) (place + context + 1) =
      (min program.length (place + context + 1) : Nat) := by omega
  simp only [around, hstart, hstop, Int.toNat_natCast, slice_natCast, Int.natCast_pos, Int.ofNat_lt]

theorem caret_around (program : List Char) (place context : Nat) :
    (around program place context).caret =
      List.replicate ((if 0 < place - context then ellipsis else []).length +
        (place - (place - context))) ' ' ++ ['^'] := by
  have hstart : max 0 ((place : Int) - context) = (place - context : Nat) := by omega
  simp only [around, hstart, Int.natCast_pos]
  congr 2
  omega

theorem shows_around (h : place < program.length) (context : Nat) :
    (around program place context).Shows program place context (place - context)
      (min program.length (place + context + 1)) where
  row_eq := row_around program place context
  start_le := Nat.sub_le place context
  lt_stop := by omega
  stop_le := Nat.min_le_left _ _
  before := by omega
  behind := by omega

/-- The caret stands below the symbol at `place`, on whichever sides the row is cut. -/
theorem pointsAt_around (h : program[place]? = some c) (context : Nat) :
    (around program place context).PointsAt c := by
  have hlt : place < program.length := (List.getElem?_eq_some_iff.1 h).1
  have hshown : ((program.take (min program.length (place + context + 1))).drop
      (place - context))[place - (place - context)]? = some c := by
    rw [List.getElem?_drop, List.getElem?_take_of_lt (by omega), Nat.add_sub_cancel' (by omega), h]
  refine ⟨_, caret_around program place context, ?_⟩
  -- the ellipsis on the left is as long as the caret is moved, the one on the right is behind
  rw [row_around, List.append_assoc, List.getElem?_append_right (Nat.le_add_right _ _),
    Nat.add_sub_cancel_left,
    List.getElem?_append_left (List.getElem?_eq_some_iff.1 hshown).1, hshown]

theorem Shows.row_eq_of_uncut (h : e.Shows program place context a b) (ha : a = 0)
    (hb : b = program.length) : e.row = program := by
  subst ha hb
  simp [h.row_eq]

/-- Nothing but full stops is added to the symbols. -/
theorem Shows.mem_row (h : e.Shows program place context a b) (hc : c ∈ e.row) :
    c ∈ program ∨ c = '.' := by
  have hellipsis (p : Prop) [Decidable p] (hmem : c ∈ if p then ellipsis else []) : c = '.' := by
    split at hmem
    · simpa [ellipsis] using hmem
    · cases hmem
  rw [h.row_eq, List.mem_append, List.mem_append] at hc
  rcases hc with (hc | hc) | hc
  · exact Or.inr (hellipsis _ hc)
  · exact Or.inl (List.mem_of_mem_take (List.mem_of_mem_drop hc))
  · exact Or.inr (hellipsis _ hc)

end Around

end Excerpt

/-! ### Reports -/

/-- A bracket that is blamed stands in the text where the fault says. -/
theorem Program.exists_char_of_resolve_error {text : String} {f : BracketFault}
    (h : (Program.ofString text).resolve = .error f) : ∃ (k : Nat) (c : Char),
      f.position = k ∧ f.symbol = some (String.singleton c) ∧ text.toList[k]? = some c := by
  have hchar {k : Nat} {c : Char} (hs : (ofString text).symbols.toList[k]? = some (.char c)) :
      text.toList[k]? = some c := by
    rw [toList_symbols_ofString, List.getElem?_map, Option.map_eq_some_iff] at hs
    obtain ⟨d, hd, heq⟩ := hs
    cases heq
    exact hd
  obtain ⟨k, ⟨horphan, rfl⟩ | ⟨hunclosed, rfl⟩⟩ := exists_of_resolve_error h
  · exact ⟨k, ']', by simp, rfl, hchar horphan.symbol⟩
  · exact ⟨k, '[', by simp, rfl, hchar hunclosed.symbol⟩

/-- The report on a fault inside the program has the excerpt between its head and its sentence. -/
theorem BracketFault.report_eq (f : BracketFault) (program : String) (h : 0 ≤ f.position)
    (h' : f.position < program.length) (context : Int) (places : Option (Array Int)) :
    f.report program context places = "\n".intercalate
      ["Sorry! Your program could not be run.",
        String.ofList (Excerpt.around program.toList f.position context).row,
        String.ofList (Excerpt.around program.toList f.position context).caret,
        f.sentence ++ f.sourceNote places] := by
  rw [report, reportLines, if_pos ⟨h, h'⟩]
  rfl

namespace Excerpt

/-- The caret of an excerpt points at the symbol that was asked for, in every program, at every
place and for a context of any size. So the report on a bracket without a partner has that bracket
in the row above the caret; and the row is a single line if the program is one. -/
theorem around_points (text : String) :
    (∀ (place : Nat) (c : Char), text.toList[place]? = some c → ∀ context : Nat,
      (around text.toList place context).PointsAt c ∧
      ∃ a b, (around text.toList place context).Shows text.toList place context a b ∧
        (a = 0 → b = text.length → (around text.toList place context).row = text.toList)) ∧
    ∀ f, (Program.ofString text).resolve = .error f →
      ∀ (context : Nat) (places : Option (Array Int)), ∃ (c : Char) (last : String),
        f.report text context places = "\n".intercalate
          ["Sorry! Your program could not be run.",
            String.ofList (around text.toList f.position context).row,
            String.ofList (around text.toList f.position context).caret, last] ∧
        (around text.toList f.position context).PointsAt c ∧
        f.symbol = some (String.singleton c) ∧ text.toList[f.position.toNat]? = some c ∧
        ('\n' ∉ text.toList → '\n' ∉ (around text.toList f.position context).row) := by
  have inside {place : Nat} {c : Char} (h : text.toList[place]? = some c) :
      place < text.toList.length := (List.getElem?_eq_some_iff.1 h).1
  refine ⟨fun place c hc context => ?_, fun f hf context places => ?_⟩
  · have hshows := shows_around (inside hc) context
    refine ⟨pointsAt_around hc context, _, _, hshows, fun ha hb => ?_⟩
    exact hshows.row_eq_of_uncut ha (hb.trans String.length_toList.symm)
  · obtain ⟨k, c, hk, hsymbol, hc⟩ := Program.exists_char_of_resolve_error hf
    have hlt := inside hc
    have hshows := shows_around hlt context
    rw [String.length_toList] at hlt
    have hreport := f.report_eq text (by omega) (by omega) context places
    rw [hk] at hreport ⊢
    refine ⟨c, _, hreport, pointsAt_around hc context, hsymbol, hc, fun hline hmem => ?_⟩
    rcases hshows.mem_row hmem with hmem | hdot
    · exact hline hmem
    · exact absurd hdot (by decide)

/-- A bracket between full stops, with one symbol shown on either side of it: the ellipses look like
more of the program. -/
theorem bracket_between_dots :
    (around "+..[..-".toList (3 : Nat) (1 : Nat)).row = "....[....".toList ∧
    (around "+..[..-".toList (3 : Nat) (1 : Nat)).PointsAt '[' ∧
    (Program.ofString "+..[..-").resolve = .error (.unmatched 3 (some "[")) ∧
    ∃ (c : Char) (last : String),
      (BracketFault.unmatched 3 (some "[")).report "+..[..-" (1 : Nat) none = "\n".intercalate
        ["Sorry! Your program could not be run.", "....[....", "    ^", last] ∧
      String.singleton c = "[" := by
  obtain ⟨hpoints, hreport⟩ := around_points "+..[..-"
  obtain ⟨hpoint, -⟩ := hpoints 3 '[' rfl 1
  obtain ⟨c, last, heq, -, hsymbol, -⟩ := hreport _ rfl 1 none
  exact ⟨rfl, hpoint, rfl, c, last, heq, (Option.some.inj hsymbol).symm⟩

end Excerpt

end RingTape
