/-
One byte of a line. The routine that reads an integer asks the system for one byte at a time, and finds out by a
few comparisons what it is. What the routine keeps in its registers is what a reader keeps of the line, so it
goes on with the next byte if a reader can take the character, and otherwise the line is no integer.
-/
import Exprc.Proofs.Routines.System
import Exprc.Proofs.Routines.Reader
import Exprc.Proofs.Assembly.Frames

namespace Exprc.Assembly.Routines

open IR Text

/-! ## Places -/

/-- Where the routine begins. -/
abbrev entry : Nat := 43

/-- Where the next byte is read. -/
abbrev next : Nat := 54

/-- Where a byte was read, to be compared with the line feed and the blanks. -/
abbrev taken : Nat := 62

/-- Where a byte was read that is no blank. -/
abbrev nonblank : Nat := 70

/-- Where that byte is compared with the signs. -/
abbrev signs : Nat := 72

/-- Where a blank was read. -/
abbrev space : Nat := 77

/-- Where a minus sign was read. -/
abbrev minus : Nat := 82

/-- Where a plus sign was read. -/
abbrev plus : Nat := 84

/-- Where a sign was read, with what stands for it in `rcx`. -/
abbrev anySign : Nat := 85

/-- Where something else was read. -/
abbrev other : Nat := 91

/-- Where the line has ended. -/
abbrev done : Nat := 98

/-- Where the line had digits. -/
abbrev result : Nat := 100

/-- Where the result is in `rax`. -/
abbrev exit : Nat := 104

/-- Where the line is no integer. -/
abbrev invalid : Nat := 111

theorem find?_invalid : program.find? ⟨"read_int", some "invalid"⟩ = some invalid := by decide

section

variable (env : Platform) (console : Console) {allowed : Memory → Prop} {c₀ c c' : Cpu} {r : Reader} {ch : Char}
  {b : UInt8} {bs : List UInt8}

/-! ## What registers hold -/

/-- What stands for a sign. -/
def signCode : Option Char → Word
  | none => 0
  | some ch => if ch = '-' then 1 else 2

theorem signCode_eq_zero {sign : Option Char} : signCode sign = 0 ↔ sign = none := by
  cases sign with
  | none => exact iff_of_true rfl rfl
  | some ch =>
    refine iff_of_false ?_ (Option.some_ne_none ch)
    show (if ch = '-' then (1 : Word) else 2) ≠ 0
    split_ifs <;> decide

theorem signCode_eq_one {sign : Option Char} : signCode sign = 1 ↔ sign = some '-' := by
  cases sign with
  | none => exact iff_of_false (by decide) nofun
  | some ch =>
    by_cases hch : ch = '-'
    · subst hch
      exact iff_of_true rfl rfl
    · have hcode : signCode (some ch) = 2 := if_neg hch
      rw [hcode]
      exact iff_of_false (by decide) fun h => hch (Option.some.inj h)

/-- The stack goes down some bytes from the return address, and registers are saved there, each at a distance. -/
structure Saved (c₀ c : Cpu) (depth : Nat) (saves : List (Nat × Reg)) : Prop where
  rsp : c.reg .rsp = c₀.reg .rsp - .ofNat 64 depth
  saved : ∀ p ∈ saves, c.memory.word ((c₀.reg .rsp).toNat - p.1) = c₀.reg p.2
  memory : Kept c₀ 56 c.memory

/-- One more register is saved. -/
theorem Saved.push {depth : Nat} {saves : List (Nat × Reg)} {q : Reg} (h : Saved c₀ c depth saves)
    (hroom : 56 ≤ (c₀.reg .rsp).toNat) (hdepth : depth + 8 ≤ 56) (hsaves : ∀ p ∈ saves, p.1 ≤ depth)
    (hq : c.reg q = c₀.reg q) : Saved c₀ (c.push (c.reg q)) (depth + 8) ((depth + 8, q) :: saves) := by
  have hrsp : c.reg .rsp - 8 = c₀.reg .rsp - .ofNat 64 (depth + 8) := by
    rw [h.rsp]
    bv_omega
  have haddress : (c.reg .rsp - 8).toNat = (c₀.reg .rsp).toNat - (depth + 8) := by
    rw [hrsp, toNat_sub_ofNat (by omega)]
  have hmemory : (c.push (c.reg q)).memory = c.memory.setWord ((c₀.reg .rsp).toNat - (depth + 8)) (c₀.reg q) := by
    show c.memory.setWord (c.reg .rsp - 8).toNat (c.reg q) = _
    rw [haddress, hq]
  refine ⟨hrsp, ?_, ?_⟩
  · rw [hmemory]
    refine List.forall_mem_cons.2 ⟨Memory.word_setWord _, fun p hp => ?_⟩
    have hp' := hsaves p hp
    rw [Memory.word_setWord_of_disjoint (by omega), h.saved p hp]
  · rw [hmemory]
    exact h.memory.store (by omega) (by omega)

/-- The registers that a caller relies on, and where the routine saves them. -/
abbrev saves : List (Nat × Reg) := [(56, .r14), (48, .r13), (40, .r12), (32, .rbx), (8, .rbp)]

/-- The registers hold what was read of a number, and those that the caller relies on are saved. -/
structure Reading (c₀ c : Cpu) (r : Reader) : Prop extends Saved c₀ c 56 saves where
  rbp : c.reg .rbp = c₀.reg .rsp - 8
  rbx : c.reg .rbx = .ofNat 64 (Nat.ofDigitChars 10 r.digits 0)
  r12 : c.reg .r12 = signCode r.sign
  r13 : c.reg .r13 = .ofNat 64 r.digits.length
  r14 : c.reg .r14 = if r.ended then 1 else 0

namespace Reading

/-- Registers that are of no use to what was read may change. -/
theorem congr (h : Reading c₀ c r) (hmemory : c'.memory = c.memory)
    (hregs : ∀ q ∈ [Reg.rbp, .rsp, .rbx, .r12, .r13, .r14], c'.reg q = c.reg q) : Reading c₀ c' r where
  rbp := by rw [hregs _ (by decide), h.rbp]
  rsp := by rw [hregs _ (by decide), h.rsp]
  rbx := by rw [hregs _ (by decide), h.rbx]
  r12 := by rw [hregs _ (by decide), h.r12]
  r13 := by rw [hregs _ (by decide), h.r13]
  r14 := by rw [hregs _ (by decide), h.r14]
  saved := by
    rw [hmemory]
    exact h.saved
  memory := by
    rw [hmemory]
    exact h.memory

/-- A byte is stored in front of the saved frame base. -/
theorem store (h : Reading c₀ c r) (hroom : 56 ≤ (c₀.reg .rsp).toNat)
    (hmemory : c'.memory = c.memory.store (c.reg .rbp - 1).toNat 1 b.toNat)
    (hregs : ∀ q ∈ [Reg.rbp, .rsp, .rbx, .r12, .r13, .r14], c'.reg q = c.reg q) : Reading c₀ c' r := by
  have haddress : (c.reg .rbp - 1).toNat = (c₀.reg .rsp).toNat - 9 := by
    have hnine : c.reg .rbp - 1 = c₀.reg .rsp - .ofNat 64 9 := by
      rw [h.rbp]
      bv_omega
    rw [hnine, toNat_sub_ofNat (by omega)]
  let stored : Cpu := { c with memory := c'.memory }
  have hstored : Reading c₀ stored r :=
    { h with
      saved := fun p hp => by
        rw [← h.saved p hp, hmemory]
        have hp' : p.1 = 8 ∨ 32 ≤ p.1 ∧ p.1 ≤ 56 := by
          revert p
          decide
        exact Memory.word_congr fun a _ _ => Memory.store_outside (by omega)
      memory := by
        show Kept c₀ 56 c'.memory
        rw [hmemory]
        exact h.memory.store (by omega) (by omega) }
  exact hstored.congr rfl hregs

/-- There are no digits if their number is zero. -/
theorem r13_eq_zero (h : Reading c₀ c r) (hlength : r.digits.length < 2 ^ 64) : c.reg .r13 = 0 ↔ r.digits = [] := by
  rw [h.r13, ← List.length_eq_zero_iff, ← BitVec.toNat_inj, BitVec.toNat_ofNat, Nat.mod_eq_of_lt hlength]
  rfl

/-- Nothing was read if there is neither a sign nor a digit. -/
theorem begun_iff (h : Reading c₀ c r) (hlength : r.digits.length < 2 ^ 64) :
    r.begun = false ↔ c.reg .r12 = 0 ∧ c.reg .r13 = 0 := by
  rw [Reader.begun_eq_false, h.r12, signCode_eq_zero, h.r13_eq_zero hlength]

end Reading

/-! ## Comparisons -/

theorem ofNat_toNat_inj {a b : Char} : BitVec.ofNat 64 a.toNat = .ofNat 64 b.toNat ↔ a = b := by
  have hsmall : ∀ c : Char, c.toNat < 2 ^ 64 := fun c => Nat.lt_trans c.val.toNat_lt (by decide)
  rw [← BitVec.toNat_inj, BitVec.toNat_ofNat, BitVec.toNat_ofNat, Nat.mod_eq_of_lt (hsmall a),
    Nat.mod_eq_of_lt (hsmall b), Char.toNat_inj]

/-- At a place `rax` is compared with some characters, and each of them has a place to go on. -/
def Compares : Nat → List (Char × Nat) → Prop
  | _, [] => True
  | place, (ch, target) :: tests =>
    (∃ scope i name, program.instructions[place]? = some (scope, i) ∧
      (∀ names (c : Cpu), c.exec names i =
        some { c with flags := .ofDifference (c.reg .rax) (.ofNat 64 ch.toNat) }) ∧
      program.instructions[place + 1]? = some (scope, .jumpIf .equal name) ∧
      program.find? (name.place scope) = some target) ∧
    Compares (place + 2) tests

theorem compares_first : Compares taken [('\n', done), (' ', space), ('\t', space), ('\r', space)] :=
  ⟨⟨_, _, _, rfl, fun _ _ => rfl, rfl, rfl⟩, ⟨_, _, _, rfl, fun _ _ => rfl, rfl, rfl⟩,
    ⟨_, _, _, rfl, fun _ _ => rfl, rfl, rfl⟩, ⟨_, _, _, rfl, fun _ _ => rfl, rfl, rfl⟩, trivial⟩

theorem compares_signs : Compares signs [('-', minus), ('+', plus)] :=
  ⟨⟨_, _, _, rfl, fun _ _ => rfl, rfl, rfl⟩, ⟨_, _, _, rfl, fun _ _ => rfl, rfl, rfl⟩, trivial⟩

/-- A character goes on at its place, if it has one, and otherwise behind the comparisons. -/
theorem compares_lead {place : Nat} {tests : List (Char × Nat)} (h : Compares place tests) (hc : allowed c.memory)
    (hrax : c.reg .rax = .ofNat 64 ch.toNat) :
    ∃ flags, Leads env allowed ⟨c, place, console⟩
      ⟨{ c with flags }, (tests.lookup ch).getD (place + 2 * tests.length), console⟩ := by
  induction tests generalizing place c with
  | nil => exact ⟨c.flags, .refl hc⟩
  | cons test tests ih =>
    obtain ⟨code, target⟩ := test
    obtain ⟨⟨scope, i, name, hfetch, hexec, hjump, hfind⟩, htests⟩ := h
    let compared : Cpu := { c with flags := .ofDifference (c.reg .rax) (.ofNat 64 code.toNat) }
    have hequal : compared.flags.holds? .equal = some (decide (ch = code)) := by
      rw [Flags.holds?_equal, hrax]
      simp only [ofNat_toNat_inj]
    have hstep : Session.step env ⟨c, place, console⟩ = .running ⟨compared, place + 1, console⟩ :=
      Session.step_exec hfetch (hexec _ _)
    have hgo := Session.step_jumpIf env ⟨compared, place + 1, console⟩ target hjump hfind hequal
    by_cases heq : ch = code
    · rw [decide_eq_true heq] at hgo
      refine ⟨compared.flags, ?_⟩
      rw [heq, List.lookup_cons_self]
      exact .step hc hstep (.single hc hc hgo)
    · rw [decide_eq_false heq] at hgo
      obtain ⟨flags, hrest⟩ := ih (c := compared) htests hc hrax
      refine ⟨flags, ?_⟩
      have hlookup : ((code, target) :: tests).lookup ch = tests.lookup ch := by
        rw [List.lookup_cons, beq_eq_false_iff_ne.2 heq]
      rw [hlookup, List.length_cons, Nat.mul_succ, Nat.add_comm (2 * _), ← Nat.add_assoc]
      exact .step hc hstep (.step hc hgo hrest)

/-! ## Bytes -/

/-- A routine that asks for a byte finds out that there is none. -/
theorem end_leads (h : Reading c₀ c r) (hinput : console.input = []) :
    ∃ c', Leads env (Kept c₀ 56) ⟨c, next, console⟩ ⟨c', done, console⟩ ∧ Reading c₀ c' r := by
  obtain ⟨input, writes⟩ := console
  subst hinput
  let asked := (((c.set .rax 0).set .rdi 0).set .rsi (c.reg .rbp - 1)).set .rdx 1
  let answered : Cpu := { (asked.set .rax 0).set .rcx (env.address 59) with flags := .undefined }
  let compared : Cpu := { answered with flags := .ofDifference (0 : Word) 1 }
  have hread := Session.step_read env ⟨asked, 58, ⟨[], writes⟩⟩ rfl rfl rfl rfl
  have hjump := Session.step_jumpIf env ⟨compared, 60, ⟨[], writes⟩⟩ done rfl rfl
    (rfl : compared.flags.holds? .notEqual = some true)
  refine ⟨compared, ?_, h.congr rfl fun q hq => by fin_cases hq <;> rfl⟩
  exact .step h.memory rfl (.step h.memory rfl (.step h.memory rfl (.step h.memory rfl
    (.step h.memory hread (.step h.memory rfl (.single h.memory h.memory hjump))))))

/-- A routine that asks for a byte gets it. -/
theorem byte_leads (h : Reading c₀ c r) (hroom : 56 ≤ (c₀.reg .rsp).toNat) (hinput : console.input = b :: bs) :
    ∃ c', Leads env (Kept c₀ 56) ⟨c, next, console⟩ ⟨c', taken, { console with input := bs }⟩ ∧
      Reading c₀ c' r ∧ c'.reg .rax = .ofNat 64 b.toChar.toNat := by
  obtain ⟨input, writes⟩ := console
  subst hinput
  let asked := (((c.set .rax 0).set .rdi 0).set .rsi (c.reg .rbp - 1)).set .rdx 1
  let answered : Cpu := { (asked.set .rax 1).set .rcx (env.address 59) with
    flags := .undefined, memory := c.memory.store (c.reg .rbp - 1).toNat 1 b.toNat }
  let compared : Cpu := { answered with flags := .ofDifference (1 : Word) 1 }
  let moved := compared.set .rax (.ofNat 64 b.toNat)
  have hanswered : Reading c₀ answered r := h.store hroom rfl fun q hq => by fin_cases hq <;> rfl
  have hread := Session.step_read env ⟨asked, 58, ⟨b :: bs, writes⟩⟩ rfl rfl rfl rfl
  have hjump := Session.step_jumpIf env ⟨compared, 60, ⟨bs, writes⟩⟩ done rfl rfl
    (rfl : compared.flags.holds? .notEqual = some false)
  have hload : answered.memory.load (c.reg .rbp - 1).toNat 1 = b.toNat := by
    refine Memory.load_store.trans ?_
    exact Nat.mod_eq_of_lt b.toNat_lt
  have hmove : compared.exec env.names (.binary .movzx (.reg .rax) (.mem (some .byte) .rbp 1)) = some moved := by
    have hextend : (BitVec.ofNat 8 b.toNat).setWidth 64 = BitVec.ofNat 64 b.toNat := by
      refine BitVec.eq_of_toNat_eq ?_
      rw [BitVec.toNat_setWidth, BitVec.toNat_ofNat, BitVec.toNat_ofNat, Nat.mod_eq_of_lt b.toNat_lt]
    show some (compared.set .rax ((BitVec.ofNat 8 (answered.memory.load (c.reg .rbp - 1).toNat 1)).setWidth 64)) = _
    rw [hload, hextend]
  refine ⟨moved, ?_, hanswered.congr rfl fun q hq => by fin_cases hq <;> rfl, rfl⟩
  exact .step h.memory rfl (.step h.memory rfl (.step h.memory rfl (.step h.memory rfl
    (.step h.memory hread (.step hanswered.memory rfl (.step hanswered.memory hjump
      (.single hanswered.memory hanswered.memory (Session.step_exec rfl hmove))))))))

/-! ## Blanks, signs and digits -/

/-- The routine goes on with the next byte if what it has read can stand there, and otherwise the line is no integer. -/
def Goes (env : Platform) (c₀ : Cpu) (s : Session) (console : Console) : Option Reader → Prop
  | some r => ∃ c, Leads env (Kept c₀ 56) s ⟨c, next, console⟩ ∧ Reading c₀ c r
  | none => ∃ c, Leads env (Kept c₀ 56) s ⟨c, invalid, console⟩

variable {env console} in
theorem Goes.of_leads {s t : Session} {r? : Option Reader} (h : Leads env (Kept c₀ 56) s t)
    (hgoes : Goes env c₀ t console r?) : Goes env c₀ s console r? := by
  cases r? with
  | some r =>
    obtain ⟨c, hleads, hreading⟩ := hgoes
    exact ⟨c, h.trans hleads, hreading⟩
  | none =>
    obtain ⟨c, hleads⟩ := hgoes
    exact ⟨c, h.trans hleads⟩

/-- A blank ends a number that was begun. -/
theorem space_goes (h : Reading c₀ c r) (hlength : r.digits.length < 2 ^ 64) :
    Goes env c₀ ⟨c, space, console⟩ console (some { r with ended := r.ended || r.begun }) := by
  let both := c.reg .r12 ||| c.reg .r13
  let joined : Cpu := { (c.set .rcx (c.reg .r12)).set .rcx both with flags := .ofResult both false false }
  have hzero : joined.flags.holds? .zero = some (!r.begun) := by
    have hboth : both = 0 ↔ r.begun = false := by
      rw [h.begun_iff hlength]
      exact BitVec.or_eq_zero_iff
    show some (both == 0) = _
    cases hbegun : r.begun with
    | false => rw [hboth.2 hbegun]; rfl
    | true =>
      have hne : both ≠ 0 := fun heq => absurd (hbegun.symm.trans (hboth.1 heq)) (by decide)
      rw [beq_eq_false_iff_ne.2 hne]
      rfl
  have hjump := Session.step_jumpIf env ⟨joined, 79, console⟩ next rfl rfl hzero
  have hjoined : Reading c₀ joined r := h.congr rfl fun q hq => by fin_cases hq <;> rfl
  cases hbegun : r.begun with
  | false =>
    rw [hbegun] at hjump
    rw [Bool.or_false]
    exact ⟨joined, .step h.memory rfl (.step h.memory rfl (.single h.memory h.memory hjump)), hjoined⟩
  | true =>
    rw [hbegun] at hjump
    rw [Bool.or_true]
    exact ⟨joined.set .r14 1, .step h.memory rfl (.step h.memory rfl (.step h.memory hjump
      (.step h.memory rfl (.single h.memory h.memory rfl)))), { hjoined with r14 := rfl }⟩

/-- A sign is kept if nothing was read before it. -/
theorem anySign_goes (h : Reading c₀ c r) (hlength : r.digits.length < 2 ^ 64)
    (hrcx : c.reg .rcx = signCode (some ch)) :
    Goes env c₀ ⟨c, anySign, console⟩ console (if r.begun then none else some { r with sign := some ch }) := by
  obtain ⟨flags₁, hcounted⟩ := Leads.test env c anySign invalid console rfl rfl find?_invalid (holds?_test_notZero _)
    h.memory
  obtain ⟨flags₂, hsigned⟩ := Leads.test env { c with flags := flags₁ } 87 invalid console rfl rfl find?_invalid
    (holds?_test_notZero _) h.memory
  have hbegun := h.begun_iff hlength
  cases hr : r.begun with
  | false =>
    obtain ⟨h12, h13⟩ := hbegun.1 hr
    rw [if_neg (not_not.2 h13)] at hcounted
    rw [if_neg (not_not.2 h12)] at hsigned
    have hkept : Reading c₀ { c with flags := flags₂ } r := h.congr rfl fun _ _ => rfl
    exact ⟨({ c with flags := flags₂ } : Cpu).set .r12 (c.reg .rcx),
      hcounted.trans (hsigned.trans (.step h.memory rfl (.single h.memory h.memory rfl))), { hkept with r12 := hrcx }⟩
  | true =>
    rw [hr] at hbegun
    by_cases h13 : c.reg .r13 = 0
    · have h12 : c.reg .r12 ≠ 0 := fun h12 => absurd (hbegun.2 ⟨h12, h13⟩) (by decide)
      rw [if_neg (not_not.2 h13)] at hcounted
      rw [if_pos h12] at hsigned
      exact ⟨_, hcounted.trans hsigned⟩
    · rw [if_pos h13] at hcounted
      exact ⟨_, hcounted⟩

/-- A word is above another one if it is larger without a sign. -/
theorem holds?_above (v w : Word) : (Flags.ofDifference v w).holds? .above = some (decide (w.toNat < v.toNat)) := by
  show some (!decide (v.toNat < w.toNat) && !(v - w == 0)) = _
  rw [Flags.sub_beq_zero, ← decide_not, ← decide_not, ← Bool.decide_and]
  refine congrArg some (decide_eq_decide.2 ?_)
  rw [← BitVec.toNat_inj]
  omega

/-- A character is a digit if it is not far above the first one. -/
theorem isDigit_eq (ch : Char) : ch.isDigit = !decide (9 < (BitVec.ofNat 64 ch.toNat - 48).toNat) := by
  have hsmall : ch.toNat < 2 ^ 32 := ch.val.toNat_lt
  rw [Bool.eq_iff_iff]
  simp only [Char.isDigit, Bool.and_eq_true, decide_eq_true_eq, UInt32.le_iff_toNat_le, Bool.not_eq_true',
    decide_eq_false_iff_not]
  show 48 ≤ ch.toNat ∧ ch.toNat ≤ 57 ↔ _
  bv_omega

/-- A digit is appended, and nothing else goes on. -/
theorem other_goes (h : Reading c₀ c r) (hrax : c.reg .rax = .ofNat 64 ch.toNat) :
    Goes env c₀ ⟨c, other, console⟩ console
      (if ch.isDigit then some { r with digits := r.digits ++ [ch] } else none) := by
  let digit := c.reg .rax - 48
  let compared : Cpu := { c.set .rax digit with flags := .ofDifference digit 9 }
  have habove : compared.flags.holds? .above = some (!ch.isDigit) := by
    rw [isDigit_eq, ← hrax, Bool.not_not]
    exact holds?_above digit 9
  have hjump := Session.step_jumpIf env ⟨compared, 93, console⟩ invalid rfl find?_invalid habove
  cases hdigit : ch.isDigit with
  | false =>
    rw [hdigit] at hjump
    exact ⟨compared, .step h.memory rfl (.step h.memory rfl (.single h.memory h.memory hjump))⟩
  | true =>
    rw [hdigit] at hjump
    let scaled : Cpu := { compared.set .rbx (c.reg .rbx * 10) with flags := .ofProduct (c.reg .rbx) 10 }
    let added : Cpu := { scaled.set .rbx (c.reg .rbx * 10 + digit) with flags := .ofSum (c.reg .rbx * 10) digit }
    let counted : Cpu := { added.set .r13 (c.reg .r13 + 1) with
      flags := { Flags.ofSum (c.reg .r13) 1 with carry := added.flags.carry } }
    have hvalue : c.reg .rbx * 10 + digit = .ofNat 64 (Nat.ofDigitChars 10 (r.digits ++ [ch]) 0) := by
      have hfrom : '0'.toNat ≤ ch.toNat := by
        simp only [Char.isDigit, Bool.and_eq_true, decide_eq_true_eq] at hdigit
        exact UInt32.le_iff_toNat_le.1 hdigit.1
      have hdigit : digit = .ofNat 64 (ch.toNat - '0'.toNat) := by
        show c.reg .rax - .ofNat 64 '0'.toNat = _
        rw [hrax, ← BitVec.ofNat_sub_ofNat_of_le _ _ (by decide) hfrom]
      rw [Nat.ofDigitChars_append, Nat.ofDigitChars_cons, Nat.ofDigitChars_nil, BitVec.ofNat_add, BitVec.ofNat_mul,
        h.rbx, hdigit, BitVec.mul_comm]
      rfl
    have hcount : c.reg .r13 + 1 = .ofNat 64 (r.digits ++ [ch]).length := by
      rw [h.r13, List.length_append, List.length_singleton, BitVec.ofNat_add]
      rfl
    refine ⟨counted, ?_, ?_⟩
    · exact .step h.memory rfl (.step h.memory rfl (.step h.memory hjump (.step h.memory rfl (.step h.memory rfl
        (.step h.memory rfl (.single h.memory h.memory rfl))))))
    · exact
        { rbp := h.rbp
          rsp := h.rsp
          rbx := hvalue
          r12 := h.r12
          r13 := hcount
          r14 := h.r14
          saved := h.saved
          memory := h.memory }

/-! ## Characters -/

/-- A character that none of the comparisons is about goes on behind them. -/
theorem lookup_eq_none {tests : List (Char × Nat)} (p : Char → Bool) (h : ∀ test ∈ tests, p test.1 = true)
    (hch : p ch = false) : tests.lookup ch = none := by
  rw [List.lookup_eq_none_iff]
  refine fun test htest => bne_iff_ne.2 ?_
  rintro rfl
  exact absurd ((h test htest).symm.trans hch) (by decide)

/-- A sign, a digit or something else is read behind the comparisons with blanks. -/
theorem word_goes (h : Reading c₀ c r) (hlength : r.digits.length < 2 ^ 64) (hrax : c.reg .rax = .ofNat 64 ch.toNat)
    (hblank : ch.isWhitespace = false) : Goes env c₀ ⟨c, nonblank, console⟩ console (r.take? ch) := by
  obtain ⟨flags₁, hended⟩ := Leads.test env c nonblank invalid console rfl rfl find?_invalid
    (holds?_test_notZero _) h.memory
  cases hr : r.ended with
  | true =>
    rw [Reader.take?_of_ended hblank hr]
    have hr14 : c.reg .r14 = 1 := by rw [h.r14, hr, if_pos rfl]
    rw [hr14, if_pos (by decide)] at hended
    exact ⟨_, hended⟩
  | false =>
    have hr14 : c.reg .r14 = 0 := by rw [h.r14, hr, if_neg (by decide)]
    rw [hr14, if_neg (by decide)] at hended
    refine Goes.of_leads hended ?_
    obtain ⟨flags₂, hsigns⟩ := compares_lead env console (c := { c with flags := flags₁ }) compares_signs h.memory
      hrax
    refine Goes.of_leads hsigns ?_
    let compared : Cpu := { c with flags := flags₂ }
    have hkept (w : Word) : Reading c₀ (compared.set .rcx w) r :=
      h.congr rfl fun q hq => by fin_cases hq <;> rfl
    cases hsign : isSign ch with
    | true =>
      rw [Reader.take?_of_isSign hsign hr]
      rcases isSign_iff.1 hsign with rfl | rfl
      · have hminus : Leads env (Kept c₀ 56) ⟨compared, minus, console⟩ ⟨compared.set .rcx 1, anySign, console⟩ :=
          .step h.memory rfl (.single h.memory h.memory rfl)
        exact Goes.of_leads hminus (anySign_goes env console (hkept 1) hlength rfl)
      · have hplus : Leads env (Kept c₀ 56) ⟨compared, plus, console⟩ ⟨compared.set .rcx 2, anySign, console⟩ :=
          .single h.memory h.memory rfl
        exact Goes.of_leads hplus (anySign_goes env console (hkept 2) hlength rfl)
    | false =>
      rw [Reader.take?_of_not_isSign hblank hsign hr, lookup_eq_none isSign (by decide) hsign]
      have hother : Leads env (Kept c₀ 56) ⟨compared, 76, console⟩ ⟨compared, other, console⟩ :=
        .single h.memory h.memory rfl
      exact Goes.of_leads hother (other_goes env console (h.congr rfl fun _ _ => rfl) hrax)

/-- Each byte before the end of the line is read as a reader reads its character. -/
theorem next_goes (h : Reading c₀ c r) (hroom : 56 ≤ (c₀.reg .rsp).toNat) (hlength : r.digits.length < 2 ^ 64)
    (hinput : console.input = b :: bs) (hb : b ≠ 10) :
    Goes env c₀ ⟨c, next, console⟩ { console with input := bs } (r.take? b.toChar) := by
  obtain ⟨c₁, hbyte, hreading, hrax⟩ := byte_leads env console h hroom hinput
  obtain ⟨flags, hfirst⟩ := compares_lead env { console with input := bs } compares_first
    hreading.memory hrax
  refine Goes.of_leads (hbyte.trans hfirst) ?_
  have hkept : Reading c₀ { c₁ with flags } r := hreading.congr rfl fun _ _ => rfl
  cases hblank : b.toChar.isWhitespace with
  | true =>
    have hfeed : b.toChar ≠ '\n' := fun heq => hb (UInt8.toNat_inj.1 (congrArg Char.toNat heq))
    have hspace : List.lookup b.toChar [('\n', done), (' ', space), ('\t', space), ('\r', space)] = some space := by
      have hcases := hblank
      simp only [Char.isWhitespace, Bool.or_eq_true, decide_eq_true_eq] at hcases
      rcases hcases with ((heq | heq) | heq) | heq
      all_goals first | exact absurd heq hfeed | rw [heq]; rfl
    rw [hspace, Reader.take?_of_isWhitespace hblank]
    exact space_goes env _ hkept hlength
  | false =>
    rw [lookup_eq_none Char.isWhitespace (by decide) hblank]
    exact word_goes env _ hkept hlength hrax hblank

/-- The line feed ends the line. -/
theorem lineFeed_leads (h : Reading c₀ c r) (hroom : 56 ≤ (c₀.reg .rsp).toNat) (hinput : console.input = 10 :: bs) :
    ∃ c', Leads env (Kept c₀ 56) ⟨c, next, console⟩ ⟨c', done, { console with input := bs }⟩ ∧ Reading c₀ c' r := by
  obtain ⟨c₁, hbyte, hreading, hrax⟩ := byte_leads env console h hroom hinput
  obtain ⟨flags, hfeed⟩ := compares_lead env { console with input := bs } compares_first
    hreading.memory hrax
  exact ⟨_, hbyte.trans hfeed, hreading.congr rfl fun _ _ => rfl⟩

end

end Exprc.Assembly.Routines
