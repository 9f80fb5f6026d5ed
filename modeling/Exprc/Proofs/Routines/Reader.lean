/-
How the reading routine looks at a line. It takes the characters of the line one after the other and keeps no
more of them than a sign, the digits, and whether a blank was seen behind them. That is enough to tell whether
the line holds an integer between spaces, tabs and line ends, and which one (`holdsInteger_iff`).
-/
import Exprc.Proofs.IR.IntegerLines

namespace Exprc.Assembly.Routines

open IR Text

/-- What was read of a number: its sign, if there is one, its digits, and whether it has ended. -/
structure Reader where
  sign : Option Char := none
  digits : List Char := []
  ended : Bool := false
deriving DecidableEq, Repr

namespace Reader

/-- Whether a sign or a digit was read. -/
def begun (r : Reader) : Bool := r.sign.isSome || !r.digits.isEmpty

/-- The number that was read. -/
def number (r : Reader) : Int := numberOf r.sign r.digits

/-- Reads a character, if it can stand there. -/
def take? (r : Reader) (c : Char) : Option Reader :=
  if c.isWhitespace then some { r with ended := r.ended || r.begun }
  else if r.ended then none
  else if isSign c then if r.begun then none else some { r with sign := some c }
  else if c.isDigit then some { r with digits := r.digits ++ [c] }
  else none

/-- Reads characters one after the other. -/
def takeAll? (r : Reader) (cs : List Char) : Option Reader := cs.foldlM take? r

end Reader

section

variable {r r' : Reader} {c : Char} {cs cs' digits : List Char} {sign : Option Char}

/-! ## Characters -/

theorem isWhitespace_of_isSign (h : isSign c = true) : c.isWhitespace = false := by
  rcases isSign_iff.1 h with rfl | rfl <;> rfl

theorem isWhitespace_of_isDigit (h : c.isDigit = true) : c.isWhitespace = false := by
  by_contra hc
  simp only [Bool.not_eq_false, Char.isWhitespace, Bool.or_eq_true, decide_eq_true_eq] at hc
  rcases hc with ((rfl | rfl) | rfl) | rfl <;> cases h

theorem isSign_of_isDigit (h : c.isDigit = true) : isSign c = false := by
  by_contra hc
  rcases isSign_iff.1 (Bool.not_eq_false _ ▸ hc) with rfl | rfl <;> cases h

/-- Blanks, signs and digits are of ASCII. -/
theorem toNat_lt_of_taken (h : c.isWhitespace = true ∨ isSign c = true ∨ c.isDigit = true) : c.toNat < 128 := by
  rcases h with h | h | h
  · simp only [Char.isWhitespace, Bool.or_eq_true, decide_eq_true_eq] at h
    rcases h with ((rfl | rfl) | rfl) | rfl <;> simp
  · rcases isSign_iff.1 h with rfl | rfl <;> simp
  · exact toNat_lt_of_isDigit h

namespace Reader

/-! ## What is taken -/

theorem take?_of_isWhitespace (h : c.isWhitespace = true) :
    r.take? c = some { r with ended := r.ended || r.begun } :=
  if_pos h

theorem take?_of_ended (h : c.isWhitespace = false) (hr : r.ended = true) : r.take? c = none := by
  simp only [take?, h, hr, if_true, if_false, Bool.false_eq_true]

theorem take?_of_isSign (h : isSign c = true) (hr : r.ended = false) :
    r.take? c = if r.begun then none else some { r with sign := some c } := by
  simp only [take?, isWhitespace_of_isSign h, hr, h, if_true, if_false, Bool.false_eq_true]

theorem take?_of_not_isSign (h : c.isWhitespace = false) (hsign : isSign c = false) (hr : r.ended = false) :
    r.take? c = if c.isDigit then some { r with digits := r.digits ++ [c] } else none := by
  simp only [take?, h, hsign, hr, if_false, Bool.false_eq_true]

theorem take?_of_isDigit (h : c.isDigit = true) (hr : r.ended = false) :
    r.take? c = some { r with digits := r.digits ++ [c] } := by
  rw [take?_of_not_isSign (isWhitespace_of_isDigit h) (isSign_of_isDigit h) hr, if_pos h]

/-- At most one digit is added. -/
theorem length_of_take? (h : r.take? c = some r') : r'.digits.length ≤ r.digits.length + 1 := by
  unfold take? at h
  split_ifs at h <;> cases h <;> simp

theorem takeAll?_cons : r.takeAll? (c :: cs) = (r.take? c).bind fun r => r.takeAll? cs :=
  List.foldlM_cons

theorem takeAll?_append : r.takeAll? (cs ++ cs') = (r.takeAll? cs).bind fun r => r.takeAll? cs' :=
  List.foldlM_append

/-- Blanks only end a number that was begun. -/
theorem takeAll?_of_isWhitespace (h : ∀ c ∈ cs, c.isWhitespace = true) :
    r.takeAll? cs = some { r with ended := r.ended || r.begun && !cs.isEmpty } := by
  induction cs generalizing r with
  | nil => simp [takeAll?]
  | cons c cs ih =>
    obtain ⟨hc, hcs⟩ := List.forall_mem_cons.1 h
    rw [takeAll?, List.foldlM_cons, take?_of_isWhitespace hc]
    refine (ih hcs).trans ?_
    have hbegun : ({ r with ended := r.ended || r.begun } : Reader).begun = r.begun := rfl
    rw [hbegun]
    cases r.begun <;> simp

theorem takeAll?_of_isDigit (h : ∀ c ∈ cs, c.isDigit = true) (hr : r.ended = false) :
    r.takeAll? cs = some { r with digits := r.digits ++ cs } := by
  induction cs generalizing r with
  | nil => simp [takeAll?]
  | cons c cs ih =>
    obtain ⟨hc, hcs⟩ := List.forall_mem_cons.1 h
    rw [takeAll?, List.foldlM_cons, take?_of_isDigit hc hr]
    refine (ih (r := { r with digits := r.digits ++ [c] }) hcs hr).trans ?_
    simp

/-- A number that stands first is read. -/
theorem takeAll?_numeral (hsign : ∀ c ∈ sign, isSign c = true) (h : ∀ c ∈ digits, c.isDigit = true) :
    ({} : Reader).takeAll? (sign.toList ++ digits) = some { sign, digits } := by
  have hread : ({} : Reader).takeAll? sign.toList = some { sign } := by
    cases sign with
    | none => rfl
    | some c =>
      rw [Option.toList_some, takeAll?, List.foldlM_cons, take?_of_isSign (r := {}) (hsign c rfl) rfl]
      rfl
  rw [takeAll?_append, hread]
  exact takeAll?_of_isDigit h rfl

/-! ## What was read -/

theorem begun_eq_false : r.begun = false ↔ r.sign = none ∧ r.digits = [] := by
  simp [begun]

/-- Some characters were read: blanks, then a sign and digits, and then perhaps blanks that end the number. -/
structure Made (r : Reader) (cs : List Char) : Prop where
  parts : ∃ before after, cs = before ++ (r.sign.toList ++ r.digits) ++ after ∧
    (∀ c ∈ before, c.isWhitespace = true) ∧ (∀ c ∈ after, c.isWhitespace = true) ∧ r.ended = !after.isEmpty
  sign : ∀ c ∈ r.sign, isSign c = true
  digits : ∀ c ∈ r.digits, c.isDigit = true
  ended : r.begun = false → r.ended = false

/-- One more character is read. -/
theorem Made.take? (h : r.Made cs) (htake : r.take? c = some r') : r'.Made (cs ++ [c]) := by
  obtain ⟨⟨before, after, rfl, hbefore, hafter, hnone⟩, hsign, hdigits, hended⟩ := h
  have hback {cs : List Char} (hcs : ∀ c ∈ cs, c.isWhitespace = true) (hc : c.isWhitespace = true) :
      ∀ c' ∈ cs ++ [c], c'.isWhitespace = true :=
    List.forall_mem_append.2 ⟨hcs, List.forall_mem_singleton.2 hc⟩
  have hopen (h : r.ended = false) : after = [] := by simpa [h] using hnone
  unfold Reader.take? at htake
  split_ifs at htake with hblank hr hc hbegun hc
  · -- a blank, behind the number or before it
    cases htake
    cases hbegun : r.begun with
    | true =>
      refine ⟨⟨before, after ++ [c], by simp, hbefore, hback hafter hblank, by simp⟩, hsign, hdigits, ?_⟩
      exact fun h => absurd (hbegun.symm.trans h) (by decide)
    | false =>
      obtain ⟨hs, hd⟩ := begun_eq_false.1 hbegun
      have hr := hended hbegun
      refine ⟨⟨before ++ [c], [], ?_, hback hbefore hblank, nofun, by simp [hr]⟩, hsign, hdigits, by simp [hr]⟩
      simp [hs, hd, hopen hr]
  · -- a sign, and nothing but blanks before it
    cases htake
    rw [Bool.not_eq_true] at hr hbegun
    obtain ⟨hs, hd⟩ := begun_eq_false.1 hbegun
    obtain rfl := hopen hr
    refine ⟨⟨before, [], by simp [hs, hd], hbefore, nofun, hr⟩, ?_, hdigits, fun _ => hr⟩
    rintro _ ⟨⟩
    exact hc
  · -- a digit behind a sign or other digits
    cases htake
    rw [Bool.not_eq_true] at hr
    obtain rfl := hopen hr
    refine ⟨⟨before, [], by simp, hbefore, nofun, hr⟩, hsign, ?_, fun _ => hr⟩
    exact List.forall_mem_append.2 ⟨hdigits, List.forall_mem_singleton.2 hc⟩

theorem Made.takeAll? (h : r.Made cs) (htake : r.takeAll? cs' = some r') : r'.Made (cs ++ cs') := by
  induction cs' generalizing r cs with
  | nil =>
    cases htake
    rwa [List.append_nil]
  | cons c cs' ih =>
    obtain ⟨next, hnext, hrest⟩ := Option.bind_eq_some_iff.1 htake
    rw [List.append_cons]
    exact ih (h.take? hnext) hrest

/-- A reader takes what has the parts of a number, and nothing else. -/
theorem takeAll?_eq_some : ({} : Reader).takeAll? cs = some r ↔ r.Made cs := by
  have hnothing : ({} : Reader).Made [] := ⟨⟨[], [], rfl, nofun, nofun, rfl⟩, nofun, nofun, fun _ => rfl⟩
  constructor
  · exact hnothing.takeAll?
  · rintro ⟨⟨before, after, rfl, hbefore, hafter, hended⟩, hsign, hdigits, hopen⟩
    have hblanks : ({} : Reader).takeAll? before = some {} := takeAll?_of_isWhitespace hbefore
    rw [takeAll?_append, takeAll?_append, hblanks, Option.bind_some, takeAll?_numeral hsign hdigits]
    refine (takeAll?_of_isWhitespace hafter).trans ?_
    obtain ⟨sign, digits, ended⟩ := r
    cases hbegun : ({ sign, digits } : Reader).begun with
    | true =>
      change ended = _ at hended
      simp [hended]
    | false =>
      have hended : ended = false := hopen hbegun
      simp [hended]

theorem Made.length_le (h : r.Made cs) : r.digits.length ≤ cs.length := by
  obtain ⟨before, after, rfl, -⟩ := h.parts
  simp only [List.length_append]
  omega

/-- What was read is of ASCII. -/
theorem Made.toNat_lt (h : r.Made cs) : ∀ c ∈ cs, c.toNat < 128 := by
  obtain ⟨⟨before, after, rfl, hbefore, hafter, -⟩, hsign, hdigits, -⟩ := h
  intro c hc
  refine toNat_lt_of_taken ?_
  simp only [List.mem_append, Option.mem_toList] at hc
  rcases hc with (hc | hc | hc) | hc
  · exact .inl (hbefore c hc)
  · exact .inr (.inl (hsign c hc))
  · exact .inr (.inr (hdigits c hc))
  · exact .inl (hafter c hc)

end Reader

/-! ## Lines -/

/-- A line holds an integer between spaces, tabs and line ends if and only if a reader takes the whole line and finds
digits. -/
theorem holdsInteger_iff {line : List UInt8} {n : Int} :
    HoldsInteger Char.isWhitespace line n ↔
      ∃ r, ({} : Reader).takeAll? (line.map UInt8.toChar) = some r ∧ r.digits ≠ [] ∧ r.number = n := by
  constructor
  · rintro ⟨before, numeral, after, rfl, hbefore, hafter, hn⟩
    obtain ⟨sign, digits, rfl, hsign, hne, hdigits, rfl⟩ := signed?_eq_some.1 hn
    let r : Reader := { sign, digits, ended := !after.isEmpty }
    have hmade : r.Made (before ++ (sign.toList ++ digits) ++ after) :=
      { parts := ⟨before, after, rfl, hbefore, hafter, rfl⟩
        sign := hsign
        digits := hdigits
        ended := fun h => absurd (Reader.begun_eq_false.1 h).2 hne }
    refine ⟨r, Reader.takeAll?_eq_some.2 ?_, hne, rfl⟩
    rw [map_toChar_encodeUtf8 hmade.toNat_lt]
    exact hmade
  · rintro ⟨r, hread, hne, rfl⟩
    have hmade := Reader.takeAll?_eq_some.1 hread
    obtain ⟨before, after, hline, hbefore, hafter, -⟩ := hmade.parts
    refine ⟨before, r.sign.toList ++ r.digits, after, ?_, hbefore, hafter,
      signed?_eq_some.2 ⟨r.sign, r.digits, rfl, hmade.sign, hne, hmade.digits, rfl⟩⟩
    rw [← hline, encodeUtf8_map_toChar hmade.toNat_lt]

end

end Exprc.Assembly.Routines
