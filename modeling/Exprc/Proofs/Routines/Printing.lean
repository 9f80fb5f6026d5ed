/-
Printing an integer. The routine divides by ten without taking the sign away, turns each remainder into a digit
and writes it in front of the others, in a buffer that ends with a line feed. What is in the buffer is at all
times the end of the line to be printed, and in the end the whole line is written in one piece.
-/
import Exprc.Proofs.Routines.System
import Exprc.Proofs.Assembly.Frames
import Exprc.Proofs.Text.Utf8

namespace Exprc.Assembly.Routines

open IR Text

/-! ## Places -/

/-- Where the loop over the digits begins. -/
abbrev digit : Nat := 8

/-- Where a remainder is not negative any more. -/
abbrev positive : Nat := 13

/-- Where all digits are written. -/
abbrev sign : Nat := 18

/-- Where the whole line is in the buffer. -/
abbrev write : Nat := 22

section

variable (env : Platform) (console : Console) {allowed : Memory → Prop} {c c₁ : Cpu} {written : List UInt8}

/-! ## Bytes -/

/-- The low byte of a register is what was put there. -/
theorem setWidth_setLow (c : Cpu) (r : Reg) (b : BitVec 8) : ((c.setLow r b).reg r).setWidth 8 = b := by
  rw [Cpu.setLow, Cpu.reg_set, if_pos rfl]
  ext i hi
  simp

/-- A byte is moved to where a register points. -/
theorem exec_storeByte {names : Names} {r : Reg} {width? : Option Width} {o : Operand} {b : UInt8}
    (hwidth : (Operand.mem width? r 0).commonWidth? o = some .byte) (hfits : o.fitsMove = true)
    (hread : c.read? names .byte o = some b.toBitVec) :
    c.exec names (.binary .mov (.mem width? r 0) o) =
      some { c with memory := c.memory.store (c.reg r).toNat 1 b.toNat } := by
  have haddress : c.reg r - .ofNat 64 0 = c.reg r := BitVec.sub_zero _
  simp only [Cpu.exec, Cpu.execBinary, hwidth, Option.bind_eq_bind, Option.bind_some, hfits, Bool.not_true,
    Bool.and_false, Bool.false_eq_true, if_false, hread, Cpu.write?, Cpu.address?, Option.map_some, haddress]
  rfl

/-! ## Digits -/

/-- A division by ten takes the sign into the remainder, and then it is taken away. -/
theorem remainder_leads (hc : allowed c.memory) (h10 : c.reg .rcx = 10) :
    ∃ c', Leads env allowed ⟨c, digit, console⟩ ⟨c', positive, console⟩ ∧ c'.memory = c.memory ∧
      (c'.reg .rax).toInt = (c.reg .rax).toInt.tdiv 10 ∧
      (c'.reg .rdx).toNat = (c.reg .rax).toInt.natAbs % 10 ∧
      ∀ r, r ≠ .rax → r ≠ .rdx → c'.reg r = c.reg r := by
  let quotient : Word := .ofInt 64 ((c.reg .rax).toInt.tdiv 10)
  let remainder := (c.reg .rax).srem 10
  let extended := c.set .rdx (if (c.reg .rax).msb then -1 else 0)
  let divided : Cpu := { (extended.set .rax quotient).set .rdx remainder with flags := .undefined }
  have hdividend : (extended.reg .rdx).toInt * 2 ^ 64 + (extended.reg .rax).toNat = (c.reg .rax).toInt :=
    signed_dividend _
  have hten : (10 : Word).toInt = 10 := by decide
  -- the quotient fits, since its magnitude is not larger than that of the dividend
  have hquotient : quotient.toInt = (c.reg .rax).toInt.tdiv 10 := by
    have hlow := (c.reg .rax).le_toInt
    have hhigh := (c.reg .rax).toInt_lt
    have hle : ((c.reg .rax).toInt.tdiv 10).natAbs = (c.reg .rax).toInt.natAbs / 10 := Int.natAbs_tdiv _ _
    refine BitVec.toInt_ofInt_eq_self (by decide) ?_ ?_ <;> omega
  have hremainder : remainder.toInt = (c.reg .rax).toInt.tmod 10 := by
    rw [BitVec.toInt_srem, hten]
  have hdivide : extended.exec env.names (.unary .idiv (.reg .rcx)) = some divided := by
    show extended.divide (c.reg .rcx) = some divided
    rw [h10]
    exact Cpu.divide_eq (by decide) (by rw [hdividend, hten, hquotient]) (by rw [hdividend, hten, hremainder])
  have hdivided : Leads env allowed ⟨c, digit, console⟩ ⟨divided, 10, console⟩ :=
    .step hc rfl (.single hc hc (Session.step_exec rfl hdivide))
  obtain ⟨flags, htested⟩ := Leads.test env divided 10 positive console rfl rfl rfl (holds?_test_notSign remainder)
    hc
  have hmagnitude : remainder.toInt.natAbs = (c.reg .rax).toInt.natAbs % 10 := by
    rw [hremainder]
    exact Int.natAbs_tmod _ _
  have hothers : ∀ r, r ≠ .rax → r ≠ .rdx → divided.reg r = c.reg r := by
    intro r h₁ h₂
    simp [divided, extended, h₁, h₂]
  by_cases hpositive : 0 ≤ remainder.toInt
  · rw [if_pos hpositive] at htested
    have hrdx : remainder.toNat = (c.reg .rax).toInt.natAbs % 10 := by
      have hnat := BitVec.toInt_eq_toNat_cond remainder
      have hlt := remainder.isLt
      split at hnat <;> omega
    exact ⟨{ divided with flags }, hdivided.trans htested, rfl, hquotient, hrdx, hothers⟩
  · rw [if_neg hpositive] at htested
    let negated : Cpu := { divided.set .rdx (-remainder) with flags := .ofDifference 0 remainder }
    have hrdx : (-remainder).toNat = (c.reg .rax).toInt.natAbs % 10 := by
      have hnat := BitVec.toInt_eq_toNat_cond remainder
      rw [BitVec.toNat_neg]
      split at hnat <;> omega
    refine ⟨negated, hdivided.trans (htested.trans (.single hc hc rfl)), rfl, hquotient, hrdx, fun r h₁ h₂ => ?_⟩
    rw [← hothers r h₁ h₂]
    exact if_neg h₂

/-- The routine writes a line for its caller. What is written ends below the saved frame base. -/
structure Writing (c c' : Cpu) (written : List UInt8) : Prop where
  rbp : c'.reg .rbp = c.reg .rsp - 8
  rsi : c'.reg .rsi = c'.reg .rbp - .ofNat 64 written.length
  r8 : c'.reg .r8 = c.reg .rdi
  kept : ∀ r ∈ [Reg.rbx, .r12, .r13, .r14], c'.reg r = c.reg r
  saved : c'.memory.word (c'.reg .rbp).toNat = c.reg .rbp
  bytes : c'.memory.bytes (c'.reg .rsi) written.length = written
  memory : Kept c 40 c'.memory

namespace Writing

variable {b : UInt8} {c' : Cpu}

/-- Registers that are of no use to what is written may change. -/
theorem congr (h : Writing c c₁ written) (hmemory : c'.memory = c₁.memory)
    (hregs : ∀ r ∈ [Reg.rsi, .rbp, .r8, .rbx, .r12, .r13, .r14], c'.reg r = c₁.reg r) : Writing c c' written where
  rbp := by rw [hregs _ (by decide), h.rbp]
  rsi := by rw [hregs _ (by decide), hregs .rbp (by decide), h.rsi]
  r8 := by rw [hregs _ (by decide), h.r8]
  kept r hr := by rw [hregs r (by revert r; decide), h.kept r hr]
  saved := by rw [hmemory, hregs _ (by decide), h.saved]
  bytes := by rw [hmemory, hregs _ (by decide), h.bytes]
  memory := by
    rw [hmemory]
    exact h.memory

/-- A byte is written in front of the others. -/
theorem cons (h : Writing c c₁ written) (hroom : 40 ≤ (c.reg .rsp).toNat) (hlength : written.length < 32)
    (hrsi : c'.reg .rsi = c₁.reg .rsi - 1)
    (hmemory : c'.memory = c₁.memory.store (c'.reg .rsi).toNat 1 b.toNat)
    (hregs : ∀ r ∈ [Reg.rbp, .r8, .rbx, .r12, .r13, .r14], c'.reg r = c₁.reg r) : Writing c c' (b :: written) := by
  have hrbp : (c₁.reg .rbp).toNat = (c.reg .rsp).toNat - 8 := by
    rw [h.rbp]
    exact toNat_sub_ofNat (k := 8) (by omega)
  have hnext : c'.reg .rsi = c₁.reg .rbp - .ofNat 64 (written.length + 1) := by
    rw [hrsi, h.rsi]
    bv_omega
  have haddress : (c'.reg .rsi).toNat = (c.reg .rsp).toNat - 8 - (written.length + 1) := by
    rw [hnext, toNat_sub_ofNat (by omega), hrbp]
  have hback : c'.reg .rsi + 1 = c₁.reg .rsi := by
    rw [hrsi, BitVec.sub_add_cancel]
  refine ⟨by rw [hregs _ (by decide), h.rbp], by rw [hregs .rbp (by decide)]; exact hnext,
    by rw [hregs _ (by decide), h.r8], fun r hr => ?_, ?_, ?_, ?_⟩
  · rw [hregs r (by revert r; decide), h.kept r hr]
  · rw [hregs _ (by decide), hmemory, ← h.saved]
    exact Memory.word_congr fun a _ _ => Memory.store_outside (by omega)
  · rw [List.length_cons, Memory.bytes, hback, hmemory, Memory.store_byte]
    refine congrArg₂ List.cons rfl ((Memory.bytes_congr fun i hi => ?_).trans h.bytes)
    have hbehind : (c₁.reg .rsi + .ofNat 64 i).toNat = (c'.reg .rsi).toNat + 1 + i := by
      rw [← hback, BitVec.toNat_add, BitVec.toNat_add, BitVec.toNat_ofNat, show (1 : Word).toNat = 1 from rfl]
      omega
    exact Memory.store_outside (by omega)
  · rw [hmemory]
    exact h.memory.store (by omega) (by omega)

end Writing

/-- A remainder is written as a digit, and the loop goes on unless nothing is left to divide. -/
theorem emit_leads (h : Writing c c₁ written) (hroom : 40 ≤ (c.reg .rsp).toNat) (hlength : written.length < 32)
    {d : Nat} (hd : d < 10) (hrdx : (c₁.reg .rdx).toNat = d) :
    ∃ c', Leads env (Kept c 40) ⟨c₁, positive, console⟩ ⟨c', if c₁.reg .rax = 0 then sign else digit, console⟩ ∧
      Writing c c' (d.digitChar.toUInt8 :: written) ∧ c'.reg .rax = c₁.reg .rax ∧
      c'.reg .rcx = c₁.reg .rcx := by
  let low := (c₁.reg .rdx).setWidth 8
  let added : Cpu := { c₁.setLow .rdx (low + 48) with flags := .ofSum low 48 }
  let moved : Cpu := { added.set .rsi (c₁.reg .rsi - 1) with
    flags := { Flags.ofDifference (c₁.reg .rsi) 1 with carry := added.flags.carry } }
  let stored : Cpu := { moved with
    memory := c₁.memory.store (c₁.reg .rsi - 1).toNat 1 d.digitChar.toUInt8.toNat }
  have hstored : Writing c stored (d.digitChar.toUInt8 :: written) :=
    h.cons hroom hlength rfl rfl fun r hr => by fin_cases hr <;> rfl
  have hbyte : (moved.reg .rdx).setWidth 8 = d.digitChar.toUInt8.toBitVec := by
    have hsum : (moved.reg .rdx).setWidth 8 = low + 48 := setWidth_setLow c₁ .rdx (low + 48)
    rw [hsum]
    refine BitVec.eq_of_toNat_eq ?_
    have hchar : d.digitChar.toUInt8.toNat = 48 + d := by
      have hcode : d.digitChar.val.toNat = 48 + d := Nat.toNat_digitChar_of_lt_ten hd
      exact (Nat.mod_eq_of_lt (by omega)).trans hcode
    have hlow : low.toNat = d := by
      rw [BitVec.toNat_setWidth, hrdx]
      omega
    rw [BitVec.toNat_add, hlow, show (48 : BitVec 8).toNat = 48 from rfl, UInt8.toNat_toBitVec, hchar]
    omega
  have hexec : moved.exec env.names (.binary .mov (.mem none .rsi 0) (.low .rdx)) = some stored :=
    exec_storeByte rfl rfl (congrArg some hbyte)
  have hleads : Leads env (Kept c 40) ⟨c₁, positive, console⟩ ⟨stored, 16, console⟩ :=
    .step h.memory rfl (.step h.memory rfl (.single h.memory hstored.memory (Session.step_exec rfl hexec)))
  obtain ⟨flags, htested⟩ := Leads.test env stored 16 digit console rfl rfl rfl
    (holds?_test_notZero (c₁.reg .rax)) hstored.memory
  refine ⟨{ stored with flags }, hleads.trans ?_, hstored.congr rfl fun _ _ => rfl, rfl, rfl⟩
  rw [ite_not] at htested
  exact htested

/-- The digits of a number are written in front of what is written already. -/
theorem digits_lead (hroom : 40 ≤ (c.reg .rsp).toNat) {n : Nat} (h : Writing c c₁ written)
    (h10 : c₁.reg .rcx = 10) (hrax : (c₁.reg .rax).toInt.natAbs = n)
    (hlength : (Nat.toDigits 10 n).length + written.length ≤ 32) :
    ∃ c', Leads env (Kept c 40) ⟨c₁, digit, console⟩ ⟨c', sign, console⟩ ∧
      Writing c c' ((Nat.toDigits 10 n).map Char.toUInt8 ++ written) := by
  -- on the number: the next round has a tenth of it, and one more byte is written
  induction n using Nat.strongRecOn generalizing c₁ written with
  | ind n ih =>
    obtain ⟨c₂, hdivided, hmemory, hquotient, hremainder, hregs⟩ := remainder_leads env console h.memory h10
    rw [hrax] at hremainder
    have hwriting : Writing c c₂ written := h.congr hmemory fun r hr => by
      fin_cases hr <;> exact hregs _ (by decide) (by decide)
    have hpositive := @Nat.length_toDigits_pos 10 n
    obtain ⟨c₃, hemitted, hwritten, hrax', hrcx'⟩ := emit_leads env console hwriting hroom
      (by omega) (Nat.mod_lt n (by decide)) hremainder
    have hmagnitude : (c₂.reg .rax).toInt.natAbs = n / 10 := by
      rw [hquotient, ← hrax]
      exact Int.natAbs_tdiv _ _
    have hzero : c₂.reg .rax = 0 ↔ n / 10 = 0 := by
      rw [← hmagnitude, Int.natAbs_eq_zero]
      exact BitVec.toInt_inj.symm
    by_cases hlast : n < 10
    · rw [if_pos (hzero.2 (by omega))] at hemitted
      rw [Nat.mod_eq_of_lt hlast] at hwritten
      rw [Nat.toDigits_of_lt_base hlast]
      exact ⟨c₃, hdivided.trans hemitted, hwritten⟩
    · rw [if_neg (hzero.not.2 (by omega))] at hemitted
      have hdigits : Nat.toDigits 10 n = Nat.toDigits 10 (n / 10) ++ [(n % 10).digitChar] :=
        Nat.toDigits_of_base_le (by decide) (by omega)
      rw [hdigits, List.length_append, List.length_singleton] at hlength
      obtain ⟨c', hrest, hwritten'⟩ := ih (n / 10) (by omega) hwritten
        (by rw [hrcx', hregs _ (by decide) (by decide), h10]) (by rw [hrax', hmagnitude])
        (by rw [List.length_cons]; omega)
      refine ⟨c', hdivided.trans (hemitted.trans hrest), ?_⟩
      rw [hdigits, List.map_append, List.append_assoc]
      exact hwritten'

/-! ## Lines -/

/-- A minus sign is written in front of the digits of a negative number. -/
theorem sign_leads (h : Writing c c₁ written) (hroom : 40 ≤ (c.reg .rsp).toNat) (hlength : written.length < 32) :
    ∃ c', Leads env (Kept c 40) ⟨c₁, sign, console⟩ ⟨c', write, console⟩ ∧
      Writing c c' (if (c.reg .rdi).toInt < 0 then '-'.toUInt8 :: written else written) := by
  obtain ⟨flags, htested⟩ := Leads.test env c₁ sign write console rfl rfl rfl (holds?_test_notSign _) h.memory
  rw [h.r8] at htested
  let tested : Cpu := { c₁ with flags }
  by_cases hnegative : (c.reg .rdi).toInt < 0
  · rw [if_neg (Int.not_le.2 hnegative)] at htested
    rw [if_pos hnegative]
    let moved : Cpu := { tested.set .rsi (c₁.reg .rsi - 1) with
      flags := { Flags.ofDifference (c₁.reg .rsi) 1 with carry := tested.flags.carry } }
    let stored : Cpu := { moved with
      memory := c₁.memory.store (c₁.reg .rsi - 1).toNat 1 '-'.toUInt8.toNat }
    have hexec : moved.exec env.names (.binary .mov (.mem (some .byte) .rsi 0) (.char '-')) = some stored :=
      exec_storeByte rfl rfl rfl
    have hstored : Writing c stored ('-'.toUInt8 :: written) :=
      h.cons hroom hlength rfl rfl fun r hr => by fin_cases hr <;> rfl
    exact ⟨stored, htested.trans (.step h.memory rfl (.single h.memory hstored.memory (Session.step_exec rfl hexec))),
      hstored⟩
  · rw [if_pos (Int.not_lt.1 hnegative)] at htested
    rw [if_neg hnegative]
    exact ⟨tested, htested, h.congr rfl fun _ _ => rfl⟩

/-- The routine begins with a line feed at the end of its buffer. -/
theorem start_leads (c : Cpu) (hroom : 40 ≤ (c.reg .rsp).toNat) :
    ∃ c', Leads env (Kept c 40) ⟨c, 0, console⟩ ⟨c', digit, console⟩ ∧
      Writing c c' ['\n'.toUInt8] ∧ c'.reg .rax = c.reg .rdi ∧ c'.reg .rcx = 10 := by
  let based := (c.push (c.reg .rbp)).set .rbp (c.reg .rsp - 8)
  let framed : Cpu := { based.set .rsp (c.reg .rsp - 8 - 32) with
    flags := .ofDifference (c.reg .rsp - 8) 32 }
  let aimed := framed.set .rsi (c.reg .rsp - 8 - 1)
  let stored : Cpu := { aimed with
    memory := aimed.memory.store (c.reg .rsp - 8 - 1).toNat 1 '\n'.toUInt8.toNat }
  let loaded := ((stored.set .rax (c.reg .rdi)).set .r8 (c.reg .rdi)).set .rcx 10
  have hbase : (c.reg .rsp - 8).toNat = (c.reg .rsp).toNat - 8 := toNat_sub_ofNat (k := 8) (by omega)
  have hframed : Kept c 40 framed.memory := Memory.Preserves.refl.store (by omega) (by omega)
  -- before the first byte the end of the buffer is the base of the frame
  have hempty : Writing c ((framed.set .rsi (c.reg .rsp - 8)).set .r8 (c.reg .rdi)) [] :=
    { rbp := rfl
      rsi := (BitVec.sub_zero _).symm
      r8 := rfl
      kept := fun r hr => by fin_cases hr <;> rfl
      saved := Memory.word_setWord _
      bytes := rfl
      memory := hframed }
  have hloaded : Writing c loaded ['\n'.toUInt8] :=
    hempty.cons hroom (by decide) rfl rfl fun r hr => by fin_cases hr <;> rfl
  have hexec : aimed.exec env.names (.binary .mov (.mem (some .byte) .rsi 0) (.imm 10)) = some stored :=
    exec_storeByte rfl rfl rfl
  refine ⟨loaded, ?_, hloaded, rfl, rfl⟩
  have hbased : Leads env (Kept c 40) ⟨c, 0, console⟩ ⟨aimed, 4, console⟩ :=
    .step .refl rfl (.step hframed rfl (.step hframed rfl (.single hframed hframed rfl)))
  have hrest : Leads env (Kept c 40) ⟨stored, 5, console⟩ ⟨loaded, digit, console⟩ :=
    .step hloaded.memory rfl (.step hloaded.memory rfl (.single hloaded.memory hloaded.memory rfl))
  exact hbased.trans (.step hframed (Session.step_exec rfl hexec) hrest)

/-- The whole line is written in one piece, and the routine returns. -/
theorem write_leads (h : Writing c c₁ written) (hlength : written.length ≤ 32) :
    ∃ s c', Leads env (Kept c 40) ⟨c₁, write, console⟩ s ∧
      Leaves env 40 c s c' { console with writes := console.writes ++ [⟨1, written⟩] } := by
  let asked : Cpu := { (((c₁.set .rax 1).set .rdi 1).set .rdx (c₁.reg .rbp)).set .rdx (c₁.reg .rbp - c₁.reg .rsi) with
    flags := .ofDifference (c₁.reg .rbp) (c₁.reg .rsi) }
  have hcount : (c₁.reg .rbp - c₁.reg .rsi).toNat = written.length := by
    rw [h.rsi]
    bv_omega
  have hasked : Leads env (Kept c 40) ⟨c₁, write, console⟩ ⟨asked, 26, console⟩ :=
    .step h.memory rfl (.step h.memory rfl (.step h.memory rfl (.single h.memory h.memory rfl)))
  have hbytes : asked.memory.bytes (asked.reg .rsi) (asked.reg .rdx).toNat = written := by
    show c₁.memory.bytes (c₁.reg .rsi) (c₁.reg .rbp - c₁.reg .rsi).toNat = written
    rw [hcount, h.bytes]
  have hwrite := Session.step_write env ⟨asked, 26, console⟩ rfl rfl hbytes
  let console' : Console := { console with writes := console.writes ++ [⟨1, written⟩] }
  let answered : Cpu := { (asked.set .rax (env.answer console'.writes)).set .rcx (env.address 27) with
    flags := .undefined }
  let dropped : Cpu := { (answered.set .rax (answered.reg .rax ^^^ answered.reg .rax)).set .rsp (c₁.reg .rbp) with
    flags := .ofResult (answered.reg .rax ^^^ answered.reg .rax) false false }
  let popped := dropped.pop.2.set .rbp (c₁.memory.word (c₁.reg .rbp).toNat)
  have hpopped : Leads env (Kept c 40) ⟨asked, 26, console⟩ ⟨popped, 30, console'⟩ :=
    .step h.memory hwrite (.step h.memory rfl (.step h.memory rfl (.single h.memory h.memory rfl)))
  have hreturn : c₁.reg .rbp + 8 = c.reg .rsp := by
    rw [h.rbp, BitVec.sub_add_cancel]
  refine ⟨_, popped.pop.2, hasked.trans hpopped, ?_, ?_, fun r hr => ?_, h.memory⟩
  · show Status.returned (c₁.memory.word (c₁.reg .rbp + 8).toNat) popped.pop.2 console' = _
    rw [hreturn, h.memory.word]
  · show c₁.reg .rbp + 8 + 8 = _
    rw [hreturn]
  · fin_cases hr
    · exact h.kept _ (by decide)
    · exact h.saved
    all_goals exact h.kept _ (by decide)

/-! ## Texts -/

/-- The line that shows an integer. -/
def lineOf (n : Int) : String := toString n ++ "\n"

/-- An integer is written as its digits, behind a minus sign if it is negative. -/
theorem toList_toString (n : Int) :
    (toString n).toList = if n < 0 then '-' :: Nat.toDigits 10 n.natAbs else Nat.toDigits 10 n.natAbs := by
  cases n with
  | ofNat m =>
    have hrepr : toString (Int.ofNat m) = m.repr := rfl
    rw [hrepr, Nat.toList_repr]
    exact (if_neg (Int.not_lt.2 (Int.natCast_nonneg m))).symm
  | negSucc m =>
    have hrepr : toString (Int.negSucc m) = "-" ++ (m + 1).repr := rfl
    rw [hrepr, String.toList_append, Nat.toList_repr, if_pos (Int.negSucc_lt_zero m)]
    rfl

/-- The bytes of a line are those that the routine puts into its buffer. -/
theorem encodeUtf8_lineOf (n : Int) :
    encodeUtf8 (lineOf n) =
      if n < 0 then '-'.toUInt8 :: ((Nat.toDigits 10 n.natAbs).map Char.toUInt8 ++ ['\n'.toUInt8])
      else (Nat.toDigits 10 n.natAbs).map Char.toUInt8 ++ ['\n'.toUInt8] := by
  have hdigits : ∀ c ∈ Nat.toDigits 10 n.natAbs, c.toNat < 128 := fun c hc =>
    toNat_lt_of_isDigit (Nat.isDigit_of_mem_toDigits (by decide) (by decide) hc)
  have hascii : ∀ c ∈ (toString n).toList, c.toNat < 128 := by
    rw [toList_toString]
    split
    · exact List.forall_mem_cons.2 ⟨by simp, hdigits⟩
    · exact hdigits
  have hfeed : encodeUtf8 "\n" = ['\n'.toUInt8] := rfl
  rw [lineOf, encodeUtf8_append, hfeed, ← String.ofList_toList (s := toString n), encodeUtf8_of_ascii hascii,
    toList_toString]
  split <;> rfl

end

/-! ## Printing -/

/-- The routine prints an integer as a run does: it writes the line that shows the integer, in one piece and
nothing else. -/
theorem printInt_prints (env : Platform) (c : Cpu) (console : Console) (hroom : 40 ≤ (c.reg .rsp).toNat) :
    (∃ c', Returns env "print_int" 40 c console c'
      { console with writes := console.writes ++ [⟨1, encodeUtf8 (lineOf (c.reg .rdi).toInt)⟩] }) ∧
    ∀ (w : World) (sink : Sink), sink.writeFailure? w.output (lineOf (c.reg .rdi).toInt) = none →
      w.callBuiltin sink .printInt (c.arguments .printInt) =
        (.ok .unit, { w with output := w.output ++ lineOf (c.reg .rdi).toInt }) := by
  have hlength : (Nat.toDigits 10 (c.reg .rdi).toInt.natAbs).length ≤ 19 := by
    have hlow := (c.reg .rdi).le_toInt
    have hhigh := (c.reg .rdi).toInt_lt
    refine (Nat.length_toDigits_le_iff (by decide) (by decide)).2 ?_
    omega
  constructor
  · obtain ⟨c₁, hstart, hline, hrax, hrcx⟩ := start_leads env console c hroom
    obtain ⟨c₂, hdigits, hwritten⟩ := digits_lead env console hroom hline hrcx rfl
      (by rw [hrax, List.length_singleton]; omega)
    obtain ⟨c₃, hsign, hwritten⟩ := sign_leads env console hwritten hroom
      (by rw [hrax, List.length_append, List.length_map, List.length_singleton]; omega)
    rw [hrax, ← encodeUtf8_lineOf] at hwritten
    have hfits : (encodeUtf8 (lineOf (c.reg .rdi).toInt)).length ≤ 32 := by
      rw [encodeUtf8_lineOf]
      split <;> simp only [List.length_cons, List.length_append, List.length_map, List.length_nil] <;> omega
    obtain ⟨s, c', hwrite, hleaves⟩ := write_leads env console hwritten hfits
    exact ⟨c', (hstart.trans (hdigits.trans (hsign.trans hwrite))).returns rfl hleaves⟩
  · intro w sink hsink
    have htext : (Value.int (.ofBitVec (c.reg .rdi))).text ++ "\n" = lineOf (c.reg .rdi).toInt := rfl
    show w.print sink (.int (.ofBitVec (c.reg .rdi))) = _
    simp only [World.print, htext, hsink]

/-- The lowest integer is printed with all of its digits. -/
theorem printInt_prints_lowest :
    ∃ c', Returns default "print_int" 40 (caller Int64.minValue.toBitVec) ⟨[], []⟩ c'
      ⟨[], [⟨1, [45, 57, 50, 50, 51, 51, 55, 50, 48, 51, 54, 56, 53, 52, 55, 55, 53, 56, 48, 56, 10]⟩]⟩ := by
  have hprints := printInt_prints default (caller Int64.minValue.toBitVec) ⟨[], []⟩ (by decide)
  have hline : encodeUtf8 (lineOf ((caller Int64.minValue.toBitVec).reg .rdi).toInt) =
      [45, 57, 50, 50, 51, 51, 55, 50, 48, 51, 54, 56, 53, 52, 55, 55, 53, 56, 48, 56, 10] := by cbv
  rw [hline] at hprints
  exact hprints.1

end Exprc.Assembly.Routines
