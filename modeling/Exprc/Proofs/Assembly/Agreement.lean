/-
Operators in a run of the intermediate representation and operators in assembly. An operator has a result on
all operands of its types, a divisor of zero aside, and its code leaves that result in the slot of its
variable. On one pair of operands the two part ways: the lowest integer divided by minus one wraps around in
a run of the intermediate representation, but a processor has no word for the quotient and faults.
-/
import Exprc.Proofs.Assembly.Operators

namespace Exprc

namespace Assembly

open IR Typing

/-- An operator has a result on all operands of its types, unless it divides by zero. -/
theorem operate_ok {b : Builtin} {values : List Value} {τ : Ty} (hb : b.isIntrinsic = false)
    (hty : operatorResult b (values.map Value.ty) = .ok τ)
    (hdivisor : b = .divide ∨ b = .modulus → ∀ x, values ≠ [x, .int 0]) :
    ∃ result, operate b values = .ok result ∧ result.ty = τ := by
  rcases operatorResult_ok hty with hσ | ⟨hequality, rfl, υ, hυ, -⟩
  · cases b <;>
      simp only [Builtin.signature?, Builtin.kind, Option.some.injEq, Signature.mk.injEq, reduceCtorEq] at hσ <;>
      obtain ⟨hvalues, rfl⟩ := hσ <;> rw [eq_comm] at hvalues <;>
      simp only [List.map_eq_cons_iff, List.map_eq_nil_iff, Value.ty_eq_int, Value.ty_eq_bool] at hvalues
    case readInt | printInt | printBool => cases hb
    case negate | logicalNot =>
      obtain ⟨_, _, rfl, ⟨n, rfl⟩, rfl⟩ := hvalues
      exact ⟨_, rfl, rfl⟩
    case divide | modulus =>
      obtain ⟨_, _, rfl, ⟨a, rfl⟩, _, _, rfl, ⟨d, rfl⟩, rfl⟩ := hvalues
      have hd : d ≠ 0 := by
        rintro rfl
        exact hdivisor (by decide) _ rfl
      simp only [operate, if_neg hd]
      exact ⟨_, rfl, rfl⟩
    all_goals
      obtain ⟨_, _, rfl, ⟨a, rfl⟩, _, _, rfl, ⟨d, rfl⟩, rfl⟩ := hvalues
      exact ⟨_, rfl, rfl⟩
  · simp only [List.map_eq_cons_iff, List.map_eq_nil_iff] at hυ
    obtain ⟨_, _, rfl, -, _, _, rfl, -, rfl⟩ := hυ
    rcases hequality with rfl | rfl <;> exact ⟨_, rfl, rfl⟩

/-! ## The quotient that does not fit -/

section

variable (names : Names) {l : StackLayout} {c : Cpu} {target : Var} {below : Nat}

/-- The pattern for a division faults on the lowest integer and minus one. -/
theorem division_faults (hx : c.reg .rax = Int64.minValue.toBitVec) (hy : c.reg .rcx = (-1 : Int64).toBitVec) :
    c.execAll names [.plain .cqo, .unary .idiv (.reg .rcx)] = none := by
  let extended := c.set .rdx (if (c.reg .rax).msb then -1 else 0)
  have hdividend : (extended.reg .rdx).toInt * 2 ^ 64 + (extended.reg .rax).toNat = -2 ^ 63 := by
    have hsigned := signed_dividend (c.reg .rax)
    rw [show (c.reg .rax).toInt = -2 ^ 63 by rw [hx]; decide] at hsigned
    exact hsigned
  have hdivide : extended.divide (c.reg .rcx) = none := by
    unfold Cpu.divide
    dsimp only
    rw [hdividend, hy, show (-1 : Int64).toBitVec.toInt = -1 by decide, if_pos]
    -- the quotient is one more than the highest word
    exact .inr (.inr (by norm_num))
  rw [Cpu.execAll_cons, Cpu.exec_cqo, Option.bind_some, Cpu.execAll_cons]
  have hidiv : extended.exec names (.unary .idiv (.reg .rcx)) = extended.divide (c.reg .rcx) := rfl
  rw [hidiv, hdivide]
  rfl

/-- The code of a division faults on the lowest integer and minus one. -/
theorem operatorCode_faults {b : Builtin} {arguments : List Var} {values : List Value}
    (hargs : List.Forall₂ (c.Holds l) arguments values) (ht : l.offset? target = some below)
    (h : Overflows b values) (location : Location) :
    ∃ is, operatorCode l location b arguments target = .ok is ∧ c.execAll names is = none := by
  obtain ⟨hb, rfl⟩ := h
  obtain ⟨r, hpattern⟩ : ∃ r, binaryPattern? b = some ([.plain .cqo, .unary .idiv (.reg .rcx)], r) := by
    rcases hb with rfl | rfl <;> exact ⟨_, rfl⟩
  cases hargs with | cons hx hrest =>
  cases hrest with | cons hy hrest =>
  cases hrest with | nil =>
  obtain ⟨k, hk, hx⟩ := hx
  obtain ⟨k', hk', hy⟩ := hy
  have hfault := division_faults names
    (c := (c.set .rax (c.memory.word (c.slot k))).set .rcx (c.memory.word (c.slot k'))) hx hy
  obtain ⟨is, his, hexec⟩ := operatorCode_binary (c := c) names hpattern hk hk' ht location
  exact ⟨is, his, by rw [hexec, hfault, Option.map_none]⟩

/-! ## Agreement -/

/-- Operators agree. On all operands of its types, a divisor of zero aside, an operator has a result and
code. The code runs without a fault and leaves the encoded result in the slot of its variable, except on the
one pair of operands whose quotient does not fit, where it faults. -/
theorem operatorCode_agrees {b : Builtin} {arguments : List Var} {values : List Value} {τ : Ty}
    (hargs : List.Forall₂ (c.Holds l) arguments values) (ht : l.offset? target = some below)
    (hb : b.isIntrinsic = false) (hty : operatorResult b (values.map Value.ty) = .ok τ)
    (hdivisor : b = .divide ∨ b = .modulus → ∀ x, values ≠ [x, .int 0]) (location : Location) :
    ∃ result is, operate b values = .ok result ∧ result.ty = τ ∧
      operatorCode l location b arguments target = .ok is ∧
      if Overflows b values then c.execAll names is = none
      else ∃ c', c.execAll names is = some c' ∧ c'.Holds l target result ∧ c'.reg .rbp = c.reg .rbp ∧
        c'.reg .rsp = c.reg .rsp ∧ ∀ a, a < c.slot below ∨ c.slot below + 8 ≤ a → c'.memory a = c.memory a := by
  obtain ⟨result, hresult, hτ⟩ := operate_ok hb hty hdivisor
  by_cases hfits : Overflows b values
  · obtain ⟨is, hcode, hfault⟩ := operatorCode_faults names hargs ht hfits location
    exact ⟨result, is, hresult, hτ, hcode, by rwa [if_pos hfits]⟩
  · obtain ⟨is, c', w, hcode, hexec, hw, hwrote⟩ :=
      operatorCode_exec names hargs ht hty hresult hfits location
    obtain ⟨k, hk, hmemory⟩ := hwrote.memory
    obtain rfl : below = k := Option.some.inj (ht.symm.trans hk)
    refine ⟨result, is, hresult, hτ, hcode, ?_⟩
    rw [if_neg hfits]
    refine ⟨c', hexec, ⟨below, ht, ?_⟩, hwrote.rbp, hwrote.rsp, fun a ha => ?_⟩
    · have hslot : c'.slot below = c.slot below := by rw [Cpu.slot, Cpu.slot, hwrote.rbp]
      rw [hmemory, hslot, Memory.word_setWord]
      exact hw
    · rw [hmemory, Memory.setWord_outside ha]

end

/-- Three variables with slots. -/
def threeSlots : StackLayout := ⟨[.temp 1, .temp 2, .temp 3]⟩

/-- A processor with two integers in the first two slots. -/
def Cpu.holding (m n : Int64) : Cpu where
  reg _ := 64
  flags := .undefined
  memory := Memory.setWord (Memory.setWord (fun _ => 0) 56 m.toBitVec) 48 n.toBitVec

theorem Cpu.holding_holds (m n : Int64) :
    List.Forall₂ ((Cpu.holding m n).Holds threeSlots) [.temp 1, .temp 2] [.int m, .int n] := by
  have hslots : (Cpu.holding m n).slot 8 = 56 ∧ (Cpu.holding m n).slot 16 = 48 := by
    constructor <;> simp [Cpu.slot, Cpu.holding]
  have hfirst : (Cpu.holding m n).memory.word 56 = m.toBitVec := by
    rw [Cpu.holding, Memory.word_setWord_of_disjoint (by decide), Memory.word_setWord]
  have hsecond : (Cpu.holding m n).memory.word 48 = n.toBitVec := by
    rw [Cpu.holding, Memory.word_setWord]
  refine .cons ⟨8, by decide, ?_⟩ (.cons ⟨16, by decide, ?_⟩ .nil)
  · rw [hslots.1, hfirst, Encodes]
  · rw [hslots.2, hsecond, Encodes]

/-- Half of minus seven is minus three. -/
theorem operatorCode_agrees_halving :
    ∃ is c', operatorCode threeSlots .nowhere .divide [.temp 1, .temp 2] (.temp 3) = .ok is ∧
      (Cpu.holding (-7) 2).execAll (fun _ => none) is = some c' ∧ c'.Holds threeSlots (.temp 3) (.int (-3)) := by
  have hslot : threeSlots.offset? (.temp 3) = some 24 := by decide
  have hdivisor : ∀ x, [Value.int (-7), .int 2] ≠ [x, .int 0] := by
    rintro x ⟨⟩
  obtain ⟨result, is, hresult, -, hcode, hexec⟩ := operatorCode_agrees (fun _ => none) (b := .divide)
    (Cpu.holding_holds (-7) 2) hslot rfl rfl (fun _ => hdivisor) .nowhere
  rw [if_neg (by decide)] at hexec
  obtain ⟨c', hc', hholds, -⟩ := hexec
  obtain rfl : .int (-3) = result := Except.ok.inj hresult
  exact ⟨is, c', hcode, hc', hholds⟩

/-- With the lowest integer and minus one in its operands a division has a result, and so has its remainder,
but the code for them faults. -/
theorem lowest_quotient_faults :
    List.Forall₂ ((Cpu.holding Int64.minValue (-1)).Holds threeSlots) [.temp 1, .temp 2]
        [.int Int64.minValue, .int (-1)] ∧
      operate .divide [.int Int64.minValue, .int (-1)] = .ok (.int Int64.minValue) ∧
      operate .modulus [.int Int64.minValue, .int (-1)] = .ok (.int 0) ∧
      (∃ is, operatorCode threeSlots .nowhere .divide [.temp 1, .temp 2] (.temp 3) = .ok is ∧
        (Cpu.holding Int64.minValue (-1)).execAll (fun _ => none) is = none) ∧
      ∃ is, operatorCode threeSlots .nowhere .modulus [.temp 1, .temp 2] (.temp 3) = .ok is ∧
        (Cpu.holding Int64.minValue (-1)).execAll (fun _ => none) is = none := by
  have hslot : threeSlots.offset? (.temp 3) = some 24 := by decide
  have hholds := Cpu.holding_holds Int64.minValue (-1)
  exact ⟨hholds, rfl, rfl, operatorCode_faults _ hholds hslot ⟨.inl rfl, rfl⟩ _,
    operatorCode_faults _ hholds hslot ⟨.inr rfl, rfl⟩ _⟩

end Assembly

end Exprc
