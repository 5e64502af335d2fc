import RingTape.Burst.Run

/-!
Slots that mirror links. Where a step reads one of two maps, a burst reads one row of slots, made by
replaying the pairs. The two say the same at every bracket as soon as the pairs respect the program:
their places lie inside it, no closing bracket is taken for an opening one, and no opening bracket
for a closing one. Nothing is asked about order or completeness, so a bracket may be linked many
times over, in which case the last pair counts on both sides, or not at all.
-/

namespace RingTape

structure Program.Admits (p : Program) (q : Int × Int) : Prop where
  opening_nonneg : 0 ≤ q.1
  opening_lt : q.1 < p.length
  closing_nonneg : 0 ≤ q.2
  closing_lt : q.2 < p.length
  opening_symbol : p.fetch? q.1 ≠ some (.char ']')
  closing_symbol : p.fetch? q.2 ≠ some (.char '[')

inductive SlotMirrors (slots : Array Int) (links : Std.TreeMap Int Int) (k : Nat) : Prop
  | linked (target : Nat) (inside : target < slots.size) (slot : slots[k]? = some (target : Int))
      (link : links[(k : Int)]? = some (target : Int))
  | unlinked (slot : slots[k]? = some (-1)) (link : links[(k : Int)]? = none)

/-- At every bracket of the program, the slots lead where the links lead. -/
structure Links.Mirrored (p : Program) (slots : Array Int) (l : Links) : Prop where
  size : slots.size = p.length
  opening : ∀ k, p.command? k = some .openLoop → SlotMirrors slots l.forward k
  closing : ∀ k, p.command? k = some .closeLoop → SlotMirrors slots l.backward k

/-- A change elsewhere leaves a slot and its link saying the same. -/
theorem SlotMirrors.congr {slots slots' : Array Int} {links links' : Std.TreeMap Int Int} {k : Nat}
    (h : SlotMirrors slots links k) (hsize : slots'.size = slots.size)
    (hslot : slots'[k]? = slots[k]?) (hlink : links'[(k : Int)]? = links[(k : Int)]?) :
    SlotMirrors slots' links' k := by
  cases h with
  | linked target inside slot link =>
      exact .linked target (hsize ▸ inside) (hslot.trans slot) (hlink.trans link)
  | unlinked slot link => exact .unlinked (hslot.trans slot) (hlink.trans link)

theorem SlotMirrors.target_nonneg {slots : Array Int} {links : Std.TreeMap Int Int} {k : Nat}
    (h : SlotMirrors slots links k) {t : Int} (ht : links[(k : Int)]? = some t) : 0 ≤ t := by
  cases h with
  | linked target inside slot link =>
      cases link.symm.trans ht
      exact Int.natCast_nonneg target
  | unlinked slot link => cases link.symm.trans ht

namespace Links

variable {p : Program} {slots : Array Int} {l : Links}

/-- A pair sets the slots of its two places, the closing one last, and leaves all others. -/
theorem exists_setPair_natCast {o c : Nat} (ho : o < slots.size) (hc : c < slots.size) :
    ∃ slots', setPair slots (o, c) = .ok slots' ∧ slots'.size = slots.size ∧ ∀ k : Nat,
      slots'[k]? = if k = c then some (o : Int) else if k = o then some (c : Int) else slots[k]? := by
  have hc' : c < (slots.set o (c : Int)).size := by simpa using hc
  refine ⟨(slots.set o c).set c o hc', ?_, by simp, fun k => ?_⟩
  · simp only [setPair, setSlot, Index.locate?_natCast ho]
    show setSlot (slots.set o c) c o = _
    simp only [setSlot, Index.locate?_natCast hc']
  · rw [Array.getElem?_set, Array.getElem?_set]
    simp only [eq_comm (b := k)]

theorem mirrored_empty (p : Program) :
    Mirrored p (Array.replicate p.length (-1)) empty where
  size := by simp
  opening k hk := .unlinked (by simp [Program.lt_of_command? hk]) (by simp)
  closing k hk := .unlinked (by simp [Program.lt_of_command? hk]) (by simp)

/-- One more pair goes into the slots as it goes into the links. -/
theorem Mirrored.add (h : Mirrored p slots l) {q : Int × Int} (hq : p.Admits q) :
    ∃ slots', setPair slots q = .ok slots' ∧ Mirrored p slots' (l.add q.1 q.2) := by
  obtain ⟨o, ho⟩ := Int.eq_ofNat_of_zero_le hq.opening_nonneg
  obtain ⟨c, hc⟩ := Int.eq_ofNat_of_zero_le hq.closing_nonneg
  obtain ⟨q₁, q₂⟩ := q
  simp only at ho hc
  subst ho hc
  have ho : o < slots.size := by have := hq.opening_lt; rw [h.size]; omega
  have hc : c < slots.size := by have := hq.closing_lt; rw [h.size]; omega
  obtain ⟨slots', hset, hsize, hslots⟩ := exists_setPair_natCast ho hc
  refine ⟨slots', hset, hsize.trans h.size, fun k hk => ?_, fun k hk => ?_⟩
  · -- an opening bracket is never the second place of a pair
    have hkc : k ≠ c := by
      rintro rfl
      exact hq.closing_symbol (Program.command?_eq_some_iff.1 hk)
    by_cases hko : k = o
    · subst hko
      exact .linked c (hsize ▸ hc) (by rw [hslots, if_neg hkc, if_pos rfl])
        (by simp [getElem?_forward_add])
    · refine (h.opening k hk).congr hsize ?_ ?_
      · rw [hslots, if_neg hkc, if_neg hko]
      · rw [getElem?_forward_add, if_neg (by omega)]
  · -- nor is a closing bracket the first
    have hko : k ≠ o := by
      rintro rfl
      exact hq.opening_symbol (Program.command?_eq_some_iff.1 hk)
    by_cases hkc : k = c
    · subst hkc
      exact .linked o (hsize ▸ ho) (by rw [hslots, if_pos rfl]) (by simp [getElem?_backward_add])
    · refine (h.closing k hk).congr hsize ?_ ?_
      · rw [hslots, if_neg hkc, if_neg hko]
      · rw [getElem?_backward_add, if_neg (by omega)]

theorem Mirrored.addAll (h : Mirrored p slots l) {ps : List (Int × Int)}
    (hps : ∀ q ∈ ps, p.Admits q) :
    ∃ slots', ps.foldlM setPair slots = .ok slots' ∧ Mirrored p slots' (l.addAll ps) := by
  induction ps generalizing slots l with
  | nil => exact ⟨slots, rfl, h⟩
  | cons q ps ih =>
      obtain ⟨mid, hmid, hm⟩ := h.add (hps q List.mem_cons_self)
      obtain ⟨slots', hs, hm'⟩ := ih hm fun r hr => hps r (List.mem_cons_of_mem q hr)
      refine ⟨slots', ?_, hm'⟩
      rw [List.foldlM_cons, hmid]
      exact hs

theorem exists_slots_mirrored {ps : List (Int × Int)} (hps : ∀ q ∈ ps, p.Admits q) :
    ∃ slots, (ofPairs ps).slots p.length = .ok slots ∧ Mirrored p slots (ofPairs ps) := by
  obtain ⟨slots, hs, hm⟩ := (mirrored_empty p).addAll hps
  refine ⟨slots, ?_, hm⟩
  rw [Links.slots, if_neg (by omega), pairs_ofPairs]
  exact hs

end Links

namespace Burst

def decode (code : Nat) : Option Command := Command.ofChar? (Char.ofNat code)

theorem decode_of_code? {s : Symbol} {code : Nat} (h : s.code? = some code) :
    decode code = s.command? := by
  cases s with
  | word t ht => simp [Symbol.code?] at h
  | char c =>
      simp only [Symbol.code?, Option.some.injEq] at h
      subst h
      by_cases hc : c.toNat < 128
      · simp [decode, hc, Symbol.command?]
      · -- every command is an ASCII character, so this one is none
        have hnone : Command.ofChar? c = none := by
          rw [Option.eq_none_iff_forall_ne_some]
          intro o ho
          rw [Command.ofChar?_eq_some_iff] at ho
          subst ho
          cases o <;> simp [Command.toChar] at hc
        simp only [decode, hc, if_false, Symbol.command?, hnone]
        rfl

def Codable (p : Program) : Prop := ∀ s ∈ p.symbols.toList, s.code?.isSome

theorem codable_ofString (text : String) : Codable (.ofString text) := by
  intro s hs
  simp only [Program.ofString, Program.ofChars, List.toList_toArray, List.mem_map] at hs
  obtain ⟨c, -, rfl⟩ := hs
  rfl

theorem exists_codes {symbols : List Symbol} (h : ∀ s ∈ symbols, s.code?.isSome) :
    ∃ cs, codes symbols = .ok cs ∧ cs.map decode = symbols.map Symbol.command? := by
  induction symbols with
  | nil => exact ⟨[], rfl, rfl⟩
  | cons s symbols ih =>
      obtain ⟨code, hcode⟩ := Option.isSome_iff_exists.1 (h s List.mem_cons_self)
      obtain ⟨cs, hcs, hmap⟩ := ih fun t ht => h t (List.mem_cons_of_mem s ht)
      refine ⟨code :: cs, ?_, ?_⟩
      · rw [codes] at hcs
        simp only [codes, List.mapM_cons, hcode, hcs]
        rfl
      · rw [List.map_cons, List.map_cons, hmap, decode_of_code? hcode]

structure Prepared.Mirrors (r : Prepared) (p : Program) (l : Links) : Prop where
  size : r.codes.size = p.length
  code : ∀ k code, r.codes[k]? = some code → decode code = p.command? k
  slots : l.Mirrored p r.slots

theorem exists_prepared_mirrors {p : Program} (hp : Codable p) {ps : List (Int × Int)}
    (hps : ∀ q ∈ ps, p.Admits q) :
    ∃ r, prepare p (.ofPairs ps) = .ok r ∧ r.Mirrors p (.ofPairs ps) := by
  obtain ⟨cs, hcs, hmap⟩ := exists_codes hp
  obtain ⟨slots, hs, hm⟩ := Links.exists_slots_mirrored hps
  refine ⟨⟨cs.toArray, slots⟩, by simp [prepare, hcs, hs], ?_, fun k code hk => ?_, hm⟩
  · simpa [Program.length] using congrArg List.length hmap
  · have := congrArg (fun l : List (Option Command) => l[k]?) hmap
    simp only [List.getElem?_map] at this
    rw [List.getElem?_toArray] at hk
    rw [hk] at this
    simp only [Array.getElem?_toList, Option.map_some] at this
    cases hs : p.symbols[k]? with
    | none => simp [hs] at this
    | some s => simpa [hs, Program.command?] using this

end Burst

end RingTape
