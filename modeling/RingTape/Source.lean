import RingTape.Program

/-!
Source texts. Everything in a source that is not a command character is a comment. `strip` leaves
the commands alone, and `stripWithPlaces` also tells where in the source each of them stood,
counted in characters.

So a command has a place in its source and another among the commands that are left. One way, this
is `rank`, the number of commands in front of a place; the other way, it is the list of places that
comes with the stripped source.
-/

namespace RingTape.Source

/-- The commands among `cs`, each with its place, the first place being `start`. -/
def located (cs : List Char) (start : Nat) : List (Char × Nat) :=
  (cs.zipIdx start).filter fun p => Command.isCommand p.1

@[simp] theorem located_nil (start : Nat) : located [] start = [] := rfl

theorem located_cons (c : Char) (cs : List Char) (start : Nat) :
    located (c :: cs) start =
      if Command.isCommand c then (c, start) :: located cs (start + 1)
      else located cs (start + 1) := by
  simp only [located, List.zipIdx_cons, List.filter_cons]

theorem located_append (cs ds : List Char) (start : Nat) :
    located (cs ++ ds) start = located cs start ++ located ds (start + cs.length) := by
  simp [located, List.zipIdx_append]

def strip (source : String) : String := String.ofList (source.toList.filter Command.isCommand)

@[simp] theorem toList_strip (source : String) :
    (strip source).toList = source.toList.filter Command.isCommand := by
  simp [strip]

def stripWithPlaces (source : String) : String × Array Nat :=
  let kept := located source.toList 0
  (String.ofList (kept.map (·.1)), (kept.map (·.2)).toArray)

/-! ### Places -/

open Command (isCommand)

variable {cs : List Char} {c : Char} {a i k : Nat}

/-- The number of commands in front of place `i`. -/
def rank (cs : List Char) (i : Nat) : Nat := (cs.take i).countP isCommand

@[simp] theorem rank_zero (cs : List Char) : rank cs 0 = 0 := by simp [rank]

theorem rank_cons_succ (c : Char) (cs : List Char) (i : Nat) :
    rank (c :: cs) (i + 1) = rank cs i + if isCommand c then 1 else 0 := by
  simp [rank, List.countP_cons]

theorem rank_succ (h : cs[i]? = some c) :
    rank cs (i + 1) = rank cs i + if isCommand c then 1 else 0 := by
  simp [rank, List.take_add_one, h, List.countP_append]

theorem rank_length (cs : List Char) : rank cs cs.length = (cs.filter isCommand).length := by
  rw [rank, List.take_length, List.countP_eq_length_filter]

/-- Commands stand in their order, each at the place that is told for it. -/
theorem getElem?_located_iff {p : Nat} : (located cs a)[k]? = some (c, p) ↔
    ∃ i, p = a + i ∧ cs[i]? = some c ∧ isCommand c = true ∧ rank cs i = k := by
  induction cs generalizing a k with
  | nil => simp
  | cons d cs ih =>
      rw [located_cons]
      constructor
      · intro h
        by_cases hd : isCommand d = true
        · rw [if_pos hd] at h
          cases k with
          | zero =>
              cases h
              exact ⟨0, rfl, rfl, hd, rank_zero _⟩
          | succ k =>
              obtain ⟨i, rfl, hc, hcommand, hrank⟩ := ih.1 h
              exact ⟨i + 1, by omega, hc, hcommand, by rw [rank_cons_succ, if_pos hd, hrank]⟩
        · rw [if_neg hd] at h
          obtain ⟨i, rfl, hc, hcommand, hrank⟩ := ih.1 h
          exact ⟨i + 1, by omega, hc, hcommand, by rw [rank_cons_succ, if_neg hd, hrank]; rfl⟩
      · rintro ⟨i, rfl, hc, hcommand, rfl⟩
        cases i with
        | zero =>
            cases hc
            rw [if_pos hcommand]
            rfl
        | succ i =>
            have hrest := ih.2 ⟨i, Nat.add_right_comm a i 1, hc, hcommand, rfl⟩
            rw [rank_cons_succ]
            by_cases hd : isCommand d = true
            · rw [if_pos hd, if_pos hd, List.getElem?_cons_succ, hrest]
            · rwa [if_neg hd, if_neg hd]

theorem map_fst_located (cs : List Char) (a : Nat) :
    (located cs a).map (·.1) = cs.filter isCommand := by
  induction cs generalizing a with
  | nil => rfl
  | cons d cs ih =>
      rw [located_cons, List.filter_cons]
      split
      · rw [List.map_cons, ih]
      · exact ih (a + 1)

/-- A command keeps its symbol and moves to its rank. -/
theorem getElem?_toList_strip {text : String} (hc : text.toList[i]? = some c)
    (hcommand : isCommand c = true) :
    (strip text).toList[rank text.toList i]? = some c := by
  have hlocated : (located text.toList 0)[rank text.toList i]? = some (c, i) :=
    getElem?_located_iff.2 ⟨i, (Nat.zero_add i).symm, hc, hcommand, rfl⟩
  rw [toList_strip, ← map_fst_located _ 0, List.getElem?_map, hlocated]
  rfl

/-- Telling the places makes no difference to what is left. -/
theorem fst_stripWithPlaces (text : String) : (stripWithPlaces text).1 = strip text := by
  simp [stripWithPlaces, strip, map_fst_located]

theorem getElem?_places_iff {text : String} : (stripWithPlaces text).2[k]? = some i ↔
    ∃ c, text.toList[i]? = some c ∧ isCommand c = true ∧ rank text.toList i = k := by
  have hplaces : (stripWithPlaces text).2[k]? = ((located text.toList 0)[k]?).map (·.2) := by
    simp [stripWithPlaces]
  rw [hplaces, Option.map_eq_some_iff]
  constructor
  · rintro ⟨⟨c, p⟩, h, rfl⟩
    obtain ⟨i, rfl, hc, hcommand, hrank⟩ := getElem?_located_iff.1 h
    rw [Nat.zero_add]
    exact ⟨c, hc, hcommand, hrank⟩
  · rintro ⟨c, hc, hcommand, hrank⟩
    exact ⟨(c, i), getElem?_located_iff.2 ⟨i, (Nat.zero_add i).symm, hc, hcommand, hrank⟩, rfl⟩

theorem place_injective {text : String} {q q' : Nat} (h : (stripWithPlaces text).2[q]? = some i)
    (h' : (stripWithPlaces text).2[q']? = some i) : q = q' := by
  obtain ⟨-, -, -, hrank⟩ := getElem?_places_iff.1 h
  obtain ⟨-, -, -, hrank'⟩ := getElem?_places_iff.1 h'
  exact hrank.symm.trans hrank'

end RingTape.Source
