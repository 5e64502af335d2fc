import Mathlib.Data.List.Infix
import Mathlib.Data.List.Sort
import RingTape.Proofs.Places

/-!
Stripping. A source is stripped with or without its places told, by two passes that keep the same.
`Locates` says of a text and some places that they are the commands of a source and where these
stand: in their order, none left out and nothing else among them. Only one text and one row of places
are so, and they are what the pass that tells the places gives (`stripWithPlaces_eq_iff`).

What is stripped already has nothing to lose. Two sources one after the other are stripped each for
itself, and the places in the second move on by the length of the first.
-/

namespace RingTape

namespace Command

/-- A single character is a run of the alphabet just if it is one of its characters. -/
theorem isAlphabetRun_singleton_iff {c : Char} :
    isAlphabetRun (String.singleton c) = true ↔ c ∈ alphabet := by
  rw [isAlphabetRun, occursIn_iff, String.toList_singleton, List.singleton_infix_iff]

end Command

namespace Source

open Command (alphabet isCommand isAlphabetRun)

variable {source kept kept' : String} {places places' : Array Nat}

/-! ### The places of the commands -/

/-- Places counted from further on are further on. -/
theorem located_add (cs : List Char) (a n : Nat) :
    located cs (a + n) = (located cs a).map (Prod.map id (· + n)) := by
  rw [located, located, Nat.add_comm, ← List.map_snd_add_zipIdx_eq_zipIdx, List.filter_map]
  rfl

/-- The places are picked from those of all characters, one after the other. -/
theorem sortedLT_located (cs : List Char) (a : Nat) : ((located cs a).map (·.2)).SortedLT := by
  have hpicked : ((located cs a).map (·.2)).Sublist (List.range' a cs.length) := by
    rw [← List.zipIdx_map_snd a cs]
    exact List.filter_sublist.map _
  exact ((List.pairwise_lt_range' 1).sublist hpicked).sortedLT

/-- `kept` is the commands of `source` in their order, and `places` is where they stand in it. -/
structure Locates (source kept : String) (places : Array Nat) : Prop where
  size : places.size = kept.length
  increasing : places.toList.SortedLT
  symbol (k : Nat) (hk : k < places.size) : source.toList[places[k]]? = kept.toList[k]?
  mem_iff (i : Nat) : i ∈ places ↔ ∃ c ∈ alphabet, source.toList[i]? = some c

theorem locates_stripWithPlaces (source : String) :
    Locates source (stripWithPlaces source).1 (stripWithPlaces source).2 where
  size := by simp [stripWithPlaces, ← String.length_toList]
  increasing := sortedLT_located source.toList 0
  symbol k hk := by
    obtain ⟨c, hc, hcommand, hrank⟩ := getElem?_places_iff.1 (Array.getElem?_eq_getElem hk)
    rw [fst_stripWithPlaces, hc, ← getElem?_toList_strip hc hcommand, hrank]
  mem_iff i := by
    rw [Array.mem_iff_getElem?]
    constructor
    · rintro ⟨k, hk⟩
      obtain ⟨c, hc, hcommand, -⟩ := getElem?_places_iff.1 hk
      exact ⟨c, Command.mem_alphabet_iff.2 hcommand, hc⟩
    · rintro ⟨c, hcommand, hc⟩
      exact ⟨rank source.toList i,
        getElem?_places_iff.2 ⟨c, hc, Command.mem_alphabet_iff.1 hcommand, rfl⟩⟩

namespace Locates

/-- The places are told by where the commands stand, since they go in one order only. -/
theorem places_unique (h : Locates source kept places) (h' : Locates source kept' places') :
    places = places' := by
  apply Array.toList_inj.1
  refine h.increasing.eq_of_mem_iff h'.increasing fun i => ?_
  rw [Array.mem_toList_iff, Array.mem_toList_iff, h.mem_iff, h'.mem_iff]

/-- The symbols that are kept are told by their places. -/
theorem kept_unique (h : Locates source kept places) (h' : Locates source kept' places) :
    kept = kept' := by
  apply String.toList_inj.1
  apply List.ext_getElem?
  intro k
  by_cases hk : k < places.size
  · rw [← h.symbol k hk, ← h'.symbol k hk]
  · have hlength : kept.toList.length ≤ k := by
      rw [String.length_toList, ← h.size]
      exact Nat.le_of_not_lt hk
    have hlength' : kept'.toList.length ≤ k := by
      rw [String.length_toList, ← h'.size]
      exact Nat.le_of_not_lt hk
    rw [List.getElem?_eq_none hlength, List.getElem?_eq_none hlength']

end Locates

/-- The commands of a source can be located in one way only. -/
theorem stripWithPlaces_eq_iff :
    stripWithPlaces source = (kept, places) ↔ Locates source kept places := by
  constructor
  · intro h
    have hlocates := locates_stripWithPlaces source
    rwa [h] at hlocates
  · intro h
    obtain rfl := (locates_stripWithPlaces source).places_unique h
    exact Prod.ext ((locates_stripWithPlaces source).kept_unique h) rfl

/-! ### Sources that are stripped already -/

/-- A source without comments is all that is kept of it, and every place is told as it is. -/
theorem locates_self (h : ∀ c ∈ source.toList, isCommand c = true) :
    Locates source source (Array.range source.length) where
  size := Array.size_range
  increasing := by
    rw [Array.toList_range]
    exact List.sortedLT_range _
  symbol k hk := by rw [Array.getElem_range]
  mem_iff i := by
    rw [Array.mem_range, ← String.length_toList]
    constructor
    · intro hi
      exact ⟨_, Command.mem_alphabet_iff.2 (h _ (List.getElem_mem hi)), List.getElem?_eq_getElem hi⟩
    · rintro ⟨c, -, hc⟩
      exact (List.getElem?_eq_some_iff.1 hc).1

theorem stripWithPlaces_strip (source : String) :
    stripWithPlaces (strip source) = (strip source, Array.range (strip source).length) := by
  refine stripWithPlaces_eq_iff.2 (locates_self fun c hc => ?_)
  rw [toList_strip] at hc
  exact (List.mem_filter.1 hc).2

/-! ### Sources one after the other -/

theorem strip_append (source more : String) :
    strip (source ++ more) = strip source ++ strip more := by
  rw [strip, String.toList_append, List.filter_append, String.ofList_append]
  rfl

theorem places_append (source more : String) :
    (stripWithPlaces (source ++ more)).2 =
      (stripWithPlaces source).2 ++ (stripWithPlaces more).2.map (· + source.length) := by
  have hmoved : (located more.toList (0 + source.toList.length)).map (·.2) =
      ((located more.toList 0).map (·.2)).map (· + source.length) := by
    rw [located_add, String.length_toList, List.map_map, List.map_map]
    rfl
  simp only [stripWithPlaces, String.toList_append, located_append, List.map_append, hmoved,
    ← List.append_toArray, List.map_toArray]

/-- Stripping keeps just the characters of the alphabet, which are those that are runs of it, in
either pass, and tells the place of each. There is nothing to strip from what is left, and texts one
after the other are stripped each for itself. -/
theorem stripWithPlaces_exact (source : String) :
    (∀ c, isAlphabetRun (String.singleton c) = true ↔ c ∈ alphabet) ∧
    (stripWithPlaces source).1 = strip source ∧
    (∀ kept places, stripWithPlaces source = (kept, places) ↔ Locates source kept places) ∧
    strip (strip source) = strip source ∧
    ∀ more, stripWithPlaces (source ++ more) =
      ((stripWithPlaces source).1 ++ (stripWithPlaces more).1,
        (stripWithPlaces source).2 ++ (stripWithPlaces more).2.map (· + source.length)) := by
  refine ⟨fun c => Command.isAlphabetRun_singleton_iff, fst_stripWithPlaces source,
    fun kept places => stripWithPlaces_eq_iff, ?_, fun more => ?_⟩
  · rw [← fst_stripWithPlaces (strip source), stripWithPlaces_strip]
  · apply Prod.ext
    · simp only [fst_stripWithPlaces, strip_append]
    · exact places_append source more

/-- Places are counted in characters. -/
example : stripWithPlaces "é> [x]" = (">[]", #[1, 3, 5]) := by decide

end Source

end RingTape
