import Mathlib.Data.List.Forall2
import RingTape.Text.Encoding

/-!
Decoding. What a decoder makes of bytes is described by `Decodes`, one character at a time, with no
place and no reversed text to carry along. From it come the two properties that all the rest needs:
bytes can be decoded in parts, wherever they are cut (`Decodes.split`), and every text is decoded
from its own bytes (`decodes_utf8Bytes`). Unifying line ends can be interrupted as well, except
within a line end (`Newlines.apply_append`).
-/

namespace RingTape.Text

namespace Encoding

variable {e : Encoding} {b : UInt8} {bs xs ys rest : List UInt8} {cs : List Char}

/-- The bytes are those of the characters, one after the other, with the bytes in `rest` behind them
if they end within a character. -/
inductive Decodes (e : Encoding) : List UInt8 → List Char → List UInt8 → Prop
  | nil : Decodes e [] [] []
  | char {b : UInt8} {bs rest : List UInt8} {c : Char} {width : Nat} {cs : List Char}
      (front : e.front b bs = .char c width) (tail : Decodes e (bs.drop (width - 1)) cs rest) :
      Decodes e (b :: bs) (c :: cs) rest
  | incomplete {b : UInt8} {bs : List UInt8} (front : e.front b bs = .incomplete) :
      Decodes e (b :: bs) [] (b :: bs)

theorem decodeFrom_eq_ok_iff {place : Nat} {done : List Char} :
    e.decodeFrom bs place done = .ok (cs, rest) ↔
      ∃ ds, cs = done.reverse ++ ds ∧ Decodes e bs ds rest := by
  fun_induction decodeFrom e bs place done with
  | case1 place done =>
      constructor
      · intro h
        cases h
        exact ⟨[], by simp, .nil⟩
      · rintro ⟨ds, rfl, h⟩
        cases h
        simp
  | case2 place done b bs c width hfront ih =>
      rw [ih]
      constructor
      · rintro ⟨ds, rfl, h⟩
        exact ⟨c :: ds, by simp, .char hfront h⟩
      · rintro ⟨ds, rfl, h⟩
        cases h with
        | char front tail =>
            cases hfront.symm.trans front
            exact ⟨_, by simp, tail⟩
        | incomplete front => cases hfront.symm.trans front
  | case3 place done b bs width why hfront =>
      simp only [reduceCtorEq, false_iff]
      rintro ⟨ds, -, h⟩
      cases h with
      | char front => cases hfront.symm.trans front
      | incomplete front => cases hfront.symm.trans front
  | case4 place done b bs hfront =>
      constructor
      · intro h
        cases h
        exact ⟨[], by simp, .incomplete hfront⟩
      · rintro ⟨ds, rfl, h⟩
        cases h with
        | char front => cases hfront.symm.trans front
        | incomplete => simp

theorem decodePart_eq_ok_iff : e.decodePart bs = .ok (cs, rest) ↔ Decodes e bs cs rest := by
  simp [decodePart, decodeFrom_eq_ok_iff]

theorem decodeAll_eq_ok_iff : e.decodeAll bs = .ok cs ↔ Decodes e bs cs [] := by
  rw [← decodePart_eq_ok_iff]
  unfold decodeAll
  split
  · rename_i h
    simp [h]
  · rename_i h
    simp [h]
  · rename_i h
    simp [h]

/-- What makes a character makes the same character when less follows, unless it is cut off. -/
theorem utf8Follow_prefix {width code w : Nat} {c : Char} {bounds : List (UInt8 × UInt8)}
    (h : utf8Follow width code bounds (xs ++ ys) = .char c w) :
    utf8Follow width code bounds xs = .incomplete ∨
      (utf8Follow width code bounds xs = .char c w ∧ w ≤ width + xs.length) := by
  induction bounds generalizing width code xs with
  | nil =>
      rw [utf8Follow] at h ⊢
      cases h
      exact Or.inr ⟨rfl, Nat.le_add_right w _⟩
  | cons bound bounds ih =>
      cases xs with
      | nil => exact Or.inl rfl
      | cons x xs =>
          rw [List.cons_append, utf8Follow] at h
          rw [utf8Follow]
          split at h
          · rename_i hx
            rw [if_pos hx, List.length_cons]
            rcases ih h with hcut | ⟨hchar, hw⟩
            · exact Or.inl hcut
            · exact Or.inr ⟨hchar, by omega⟩
          · cases h

theorem utf8Front_prefix {w : Nat} {c : Char} (h : utf8.front b (xs ++ ys) = .char c w) :
    utf8.front b xs = .incomplete ∨ (utf8.front b xs = .char c w ∧ w - 1 ≤ xs.length) := by
  simp only [front, utf8Front] at h ⊢
  split at h
  · cases h
  · rcases utf8Follow_prefix h with hcut | ⟨hchar, hw⟩
    · exact Or.inl hcut
    · exact Or.inr ⟨hchar, by omega⟩

/-- Bytes can be decoded in parts, what is cut off being put in front of the next part. -/
theorem Decodes.split (h : Decodes .utf8 (xs ++ ys) cs []) : ∃ cs₁ cs₂ carry,
    Decodes .utf8 xs cs₁ carry ∧ Decodes .utf8 (carry ++ ys) cs₂ [] ∧ cs = cs₁ ++ cs₂ := by
  generalize hzs : xs ++ ys = zs at h
  generalize hrest : [] = rest at h
  induction h generalizing xs with
  | nil =>
      obtain ⟨rfl, rfl⟩ := List.append_eq_nil_iff.1 hzs
      exact ⟨[], [], [], .nil, .nil, rfl⟩
  | incomplete => cases hrest
  | @char b bs rest c width cs front tail ih =>
      subst hrest
      cases xs with
      | nil =>
          obtain rfl : ys = b :: bs := hzs
          exact ⟨[], _, [], .nil, .char front tail, rfl⟩
      | cons x xs =>
          obtain ⟨rfl, rfl⟩ := List.cons.inj hzs
          rcases utf8Front_prefix front with hcut | ⟨hchar, hwidth⟩
          · exact ⟨[], _, x :: xs, .incomplete hcut, .char front tail, rfl⟩
          · have hdrop : xs.drop (width - 1) ++ ys = (xs ++ ys).drop (width - 1) :=
              (List.drop_append_of_le_length hwidth).symm
            obtain ⟨cs₁, cs₂, carry, h₁, h₂, rfl⟩ := ih hdrop rfl
            exact ⟨c :: cs₁, cs₂, carry, .char hchar h₁, h₂, rfl⟩

/-! ### The bytes of a text -/

def Keeps (bound : UInt8 × UInt8) (b : UInt8) : Prop := bound.1 ≤ b ∧ b ≤ bound.2

/-- The code behind `code` and the six bits of each byte that follows. -/
def utf8Code (code : Nat) (bs : List UInt8) : Nat :=
  bs.foldl (fun n b => 64 * n + b.toNat % 64) code

theorem utf8Follow_append {bounds : List (UInt8 × UInt8)} (h : List.Forall₂ Keeps bounds bs)
    (width code : Nat) (rest : List UInt8) : utf8Follow width code bounds (bs ++ rest) =
      .char (Char.ofNat (utf8Code code bs)) (width + bs.length) := by
  induction h generalizing width code with
  | nil => rfl
  | cons hbound _ ih =>
      rw [Keeps] at hbound
      rw [List.cons_append, utf8Follow, if_pos hbound, ih, List.length_cons, Nat.add_right_comm,
        Nat.add_assoc]
      rfl

theorem front_append {bounds : List (UInt8 × UInt8)} (htail : utf8Tail? b = some bounds)
    (hkeeps : List.Forall₂ Keeps bounds bs) (rest : List UInt8) : utf8.front b (bs ++ rest) =
      .char (Char.ofNat (utf8Code (utf8Lead b bounds.length) bs)) (bs.length + 1) := by
  simp only [front, utf8Front, htail]
  rw [utf8Follow_append hkeeps, Nat.add_comm]

theorem utf8Tail?_ofNat {n : Nat} (h : n < 256) : utf8Tail? (UInt8.ofNat n) =
    if n < 0x80 then some []
    else if n < 0xC2 then none
    else if n < 0xE0 then some [(0x80, 0xBF)]
    else if n = 0xE0 then some [(0xA0, 0xBF), (0x80, 0xBF)]
    else if n = 0xED then some [(0x80, 0x9F), (0x80, 0xBF)]
    else if n < 0xF0 then some [(0x80, 0xBF), (0x80, 0xBF)]
    else if n = 0xF0 then some [(0x90, 0xBF), (0x80, 0xBF), (0x80, 0xBF)]
    else if n < 0xF4 then some [(0x80, 0xBF), (0x80, 0xBF), (0x80, 0xBF)]
    else if n = 0xF4 then some [(0x80, 0x8F), (0x80, 0xBF), (0x80, 0xBF)]
    else none := by
  simp [utf8Tail?, UInt8.lt_iff_toNat_lt, ← UInt8.toNat_inj, Nat.mod_eq_of_lt h]

def trail (n : Nat) : UInt8 := UInt8.ofNat (n % 64 + 0x80)

theorem utf8Code_nil (code : Nat) : utf8Code code [] = code := rfl

theorem utf8Code_trail (code n : Nat) (bs : List UInt8) :
    utf8Code code (trail n :: bs) = utf8Code (64 * code + n % 64) bs := by
  have hbits : (trail n).toNat % 64 = n % 64 := by
    rw [trail, UInt8.toNat_ofNat']
    omega
  rw [utf8Code, List.foldl_cons, hbits]
  rfl

theorem utf8Lead_ofNat (n k : Nat) :
    utf8Lead (UInt8.ofNat n) (k + 1) = n % 256 % Nat.pow 2 (5 - k) := by
  rw [utf8Lead, UInt8.toNat_ofNat']

theorem keeps_trail {n : Nat} {low high : UInt8} (hlow : low.toNat ≤ n % 64 + 0x80)
    (hhigh : n % 64 + 0x80 ≤ high.toNat) : Keeps (low, high) (trail n) := by
  have hn : n % 64 + 0x80 < UInt8.size := show _ < 256 by omega
  rw [Keeps, UInt8.le_iff_toNat_le, UInt8.le_iff_toNat_le, trail, UInt8.toNat_ofNat_of_lt' hn]
  exact ⟨hlow, hhigh⟩

theorem keeps_trail_any (n : Nat) : Keeps (0x80, 0xBF) (trail n) :=
  keeps_trail (Nat.le_add_left 0x80 _) (show _ ≤ 0xBF by omega)

/-- The first of three bytes leaves out overlong forms and surrogates, and the second is in
bounds. -/
theorem exists_utf8Tail?_three {n : Nat} (hn : 0x800 ≤ n) (hn' : n < 0x10000)
    (hscalar : n < 0xD800 ∨ 0xDFFF < n) : ∃ bound, Keeps bound (trail (n / 64)) ∧
      utf8Tail? (UInt8.ofNat (n / 4096 % 16 + 0xE0)) = some [bound, (0x80, 0xBF)] := by
  rw [utf8Tail?_ofNat (by omega), if_neg (by omega), if_neg (by omega), if_neg (by omega)]
  split
  · exact ⟨_, keeps_trail (show 0xA0 ≤ _ by omega) (show _ ≤ 0xBF by omega), rfl⟩
  · split
    · exact ⟨_, keeps_trail (show 0x80 ≤ _ by omega) (show _ ≤ 0x9F by omega), rfl⟩
    · rw [if_pos (by omega)]
      exact ⟨_, keeps_trail_any _, rfl⟩

/-- The first of four bytes leaves out overlong forms and codes past the last, and the second is in
bounds. -/
theorem exists_utf8Tail?_four {n : Nat} (hn : 0x10000 ≤ n) (hn' : n < 0x110000) :
    ∃ bound, Keeps bound (trail (n / 4096)) ∧ utf8Tail? (UInt8.ofNat (n / 262144 % 8 + 0xF0)) =
      some [bound, (0x80, 0xBF), (0x80, 0xBF)] := by
  rw [utf8Tail?_ofNat (by omega), if_neg (by omega), if_neg (by omega), if_neg (by omega),
    if_neg (by omega), if_neg (by omega), if_neg (by omega)]
  split
  · exact ⟨_, keeps_trail (show 0x90 ≤ _ by omega) (show _ ≤ 0xBF by omega), rfl⟩
  · split
    · exact ⟨_, keeps_trail_any _, rfl⟩
    · rw [if_pos (by omega)]
      exact ⟨_, keeps_trail (show 0x80 ≤ _ by omega) (show _ ≤ 0x8F by omega), rfl⟩

/-- In front of whatever follows its bytes, a character is found. -/
theorem exists_front_utf8Bytes (c : Char) (rest : List UInt8) : ∃ b bs, utf8Bytes c = b :: bs ∧
    utf8.front b (bs ++ rest) = .char c (bs.length + 1) := by
  have hscalar : c.toNat < 0xD800 ∨ 0xDFFF < c.toNat ∧ c.toNat < 0x110000 := c.valid
  have hchar {b : UInt8} {bs : List UInt8} {bounds : List (UInt8 × UInt8)}
      (htail : utf8Tail? b = some bounds) (hkeeps : List.Forall₂ Keeps bounds bs)
      (hcode : utf8Code (utf8Lead b bounds.length) bs = c.toNat) :
      utf8.front b (bs ++ rest) = .char c (bs.length + 1) := by
    rw [front_append htail hkeeps, hcode, Char.ofNat_toNat]
  have hval : c.val.toNat = c.toNat := rfl
  unfold utf8Bytes String.utf8EncodeChar
  -- one case for each number of bytes
  simp only [hval]
  generalize c.toNat = n at hscalar hchar
  split
  · have htail : utf8Tail? (UInt8.ofNat n) = some [] := by
      rw [utf8Tail?_ofNat (by omega), if_pos (by omega)]
    refine ⟨_, _, rfl, hchar htail .nil ?_⟩
    rw [utf8Code_nil, List.length_nil, utf8Lead, UInt8.toNat_ofNat']
    omega
  split
  · have htail : utf8Tail? (UInt8.ofNat (n / 64 % 0x20 + 0xC0)) = some [(0x80, 0xBF)] := by
      rw [utf8Tail?_ofNat (by omega), if_neg (by omega), if_neg (by omega), if_pos (by omega)]
    refine ⟨_, [trail n], rfl, hchar htail (.cons (keeps_trail_any n) .nil) ?_⟩
    simp only [List.length_cons, List.length_nil, utf8Lead_ofNat, Nat.pow_eq, utf8Code_trail,
      utf8Code_nil]
    omega
  split
  · obtain ⟨bound, hbound, htail⟩ := exists_utf8Tail?_three (n := n) (by omega) (by omega)
      (hscalar.imp_right And.left)
    refine ⟨_, [trail (n / 64), trail n], rfl,
      hchar htail (.cons hbound (.cons (keeps_trail_any n) .nil)) ?_⟩
    simp only [List.length_cons, List.length_nil, utf8Lead_ofNat, Nat.pow_eq, utf8Code_trail,
      utf8Code_nil]
    omega
  · obtain ⟨bound, hbound, htail⟩ := exists_utf8Tail?_four (n := n) (by omega) (by omega)
    refine ⟨_, [trail (n / 4096), trail (n / 64), trail n], rfl, hchar htail
      (.cons hbound (.cons (keeps_trail_any _) (.cons (keeps_trail_any n) .nil))) ?_⟩
    simp only [List.length_cons, List.length_nil, utf8Lead_ofNat, Nat.pow_eq, utf8Code_trail,
      utf8Code_nil]
    omega

theorem decodes_utf8Bytes (cs : List Char) : Decodes .utf8 (cs.flatMap utf8Bytes) cs [] := by
  induction cs with
  | nil => exact .nil
  | cons c cs ih =>
      obtain ⟨b, bs, hbytes, hfront⟩ := exists_front_utf8Bytes c (cs.flatMap utf8Bytes)
      rw [List.flatMap_cons, hbytes, List.cons_append]
      refine .char hfront ?_
      rwa [Nat.add_sub_cancel, List.drop_left]

theorem text_eq_ok_iff {newlines : Newlines} {text : String} :
    e.text newlines bs = .ok text ↔
      ∃ cs, Decodes e bs cs [] ∧ text = String.ofList (newlines.apply cs) := by
  simp only [← decodeAll_eq_ok_iff, Encoding.text]
  cases e.decodeAll bs <;> simp [Except.map, eq_comm]

theorem text_utf8Bytes (newlines : Newlines) (cs : List Char) :
    utf8.text newlines (cs.flatMap utf8Bytes) = .ok (String.ofList (newlines.apply cs)) :=
  text_eq_ok_iff.2 ⟨cs, decodes_utf8Bytes cs, rfl⟩

/-- Every text can be opened, unless it has a carriage return and line ends are unified. -/
theorem exists_text_eq_iff {newlines : Newlines} {text : String} :
    (∃ bytes, utf8.text newlines bytes = .ok text) ↔
      (newlines = .unified → '\r' ∉ text.toList) := by
  rw [← Newlines.exists_apply_eq_iff]
  constructor
  · rintro ⟨bytes, h⟩
    obtain ⟨cs, -, rfl⟩ := text_eq_ok_iff.1 h
    exact ⟨cs, String.toList_ofList.symm⟩
  · rintro ⟨cs, hcs⟩
    exact ⟨_, (text_utf8Bytes newlines cs).trans (by rw [hcs, String.ofList_toList])⟩

end Encoding

/-! ### Line ends -/

theorem unifyOnto_append_right {done cs ds : List Char}
    (h : cs.getLast? = some '\r' → ds.head? ≠ some '\n') :
    unifyOnto done (cs ++ ds) = unifyOnto done cs ++ unifyNewlines ds := by
  fun_induction unifyOnto done cs with
  | case1 done => exact unifyOnto_eq done ds
  | case2 done cs ih =>
      rw [List.cons_append, List.cons_append, unifyOnto]
      exact ih fun hlast => h (List.mem_getLast?_cons (List.mem_getLast?_cons hlast))
  | case3 done cs hcs ih =>
      -- the line feed that would belong to the carriage return stands in neither part
      have hnext : ∀ es, cs ++ ds = '\n' :: es → False := by
        intro es hes
        cases cs with
        | nil => exact h rfl (by rw [← List.nil_append ds, hes]; rfl)
        | cons c cs => exact hcs cs (congrArg (· :: cs) (List.cons.inj hes).1)
      rw [List.cons_append, unifyOnto]
      · exact ih fun hlast => h (List.mem_getLast?_cons hlast)
      · exact hnext
  | case4 done c cs hcs hc ih =>
      rw [List.cons_append, unifyOnto]
      · exact ih fun hlast => h (List.mem_getLast?_cons hlast)
      · exact fun _ hr _ => hc hr
      · exact hc

theorem unifyNewlines_append {cs ds : List Char}
    (h : cs.getLast? = some '\r' → ds.head? ≠ some '\n') :
    unifyNewlines (cs ++ ds) = unifyNewlines cs ++ unifyNewlines ds :=
  unifyOnto_append_right h

/-- Text can be opened in parts, unless a line end that is unified is cut. -/
theorem Newlines.apply_append {newlines : Newlines} {cs ds : List Char}
    (h : newlines = .unified → cs.getLast? = some '\r' → ds.head? ≠ some '\n') :
    newlines.apply (cs ++ ds) = newlines.apply cs ++ newlines.apply ds := by
  cases newlines with
  | kept => rfl
  | unified => exact unifyNewlines_append (h rfl)

end RingTape.Text
