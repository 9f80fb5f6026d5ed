/-
What the patterns for operators compute. A word encodes a value: integers are themselves, booleans are one
and zero, and any word will do for the unit value. On encoded operands the pattern for an operator leaves
the encoded result in the slot of its variable, and changes nothing else that a function relies on. The one
exception is the lowest integer divided by minus one: no quotient fits there, and the division faults.
-/
import Exprc.Assembly.Codegen
import Exprc.Proofs.Assembly.Cpu
import Exprc.Proofs.IR.Values

namespace Exprc

namespace Assembly

open IR Typing

/-! ## Conditions -/

namespace Flags

variable (a b : Word)

theorem sub_beq_zero : (a - b == 0) = decide (a = b) := by
  by_cases h : a = b
  · rw [h, BitVec.sub_self, decide_eq_true rfl]; rfl
  · have hsub : a - b ≠ 0 := by
      intro h₀
      apply h
      rw [← BitVec.sub_add_cancel a b, h₀]
      exact BitVec.zero_add b
    rw [beq_eq_false_iff_ne.2 hsub, decide_eq_false h]

/-- The sign of a difference is wrong if and only if the difference does not fit. -/
theorem sign_bne_overflow :
    ((a - b).msb != decide ((a - b).toInt ≠ a.toInt - b.toInt)) = decide (a.toInt < b.toInt) := by
  have ha := a.toInt_lt
  have ha' := a.le_toInt
  have hb := b.toInt_lt
  have hb' := b.le_toInt
  have hmsb : (a - b).msb = decide ((a - b).toInt < 0) := BitVec.msb_eq_toInt
  rw [hmsb, BitVec.toInt_sub, Int.bmod_def]
  by_cases h : a.toInt < b.toInt <;> simp only [h] <;> split <;> simp <;> omega

theorem holds?_equal : (ofDifference a b).holds? .equal = some (decide (a = b)) :=
  congrArg some (sub_beq_zero a b)

theorem holds?_less : (ofDifference a b).holds? .less = some (decide (a.toInt < b.toInt)) :=
  congrArg some (sign_bne_overflow a b)

theorem holds?_lessOrEqual :
    (ofDifference a b).holds? .lessOrEqual = some (decide (a.toInt ≤ b.toInt)) := by
  have h : ((a - b == 0) || ((a - b).msb != decide ((a - b).toInt ≠ a.toInt - b.toInt))) =
      decide (a.toInt ≤ b.toInt) := by
    rw [sub_beq_zero, sign_bne_overflow, ← Bool.decide_or]
    refine decide_eq_decide.2 ?_
    rw [Int.le_iff_lt_or_eq, BitVec.toInt_inj, or_comm]
  exact congrArg some h

omit a b in
/-- The other conditions hold where these do not. -/
theorem holds?_opposite (f : Flags) :
    f.holds? .notEqual = (f.holds? .equal).map (!·) ∧
      f.holds? .greaterOrEqual = (f.holds? .less).map (!·) ∧
      f.holds? .greater = (f.holds? .lessOrEqual).map (!·) := by
  obtain ⟨_ | zero, _ | sign, carry, _ | overflow⟩ := f <;>
    simp [holds?, bne]

theorem holds?_notEqual : (ofDifference a b).holds? .notEqual = some (decide (a ≠ b)) := by
  rw [(holds?_opposite _).1, holds?_equal, Option.map_some, ← decide_not]

theorem holds?_greaterOrEqual :
    (ofDifference a b).holds? .greaterOrEqual = some (decide (b.toInt ≤ a.toInt)) := by
  rw [(holds?_opposite _).2.1, holds?_less, Option.map_some, ← decide_not]
  simp only [Int.not_lt]

theorem holds?_greater :
    (ofDifference a b).holds? .greater = some (decide (b.toInt < a.toInt)) := by
  rw [(holds?_opposite _).2.2, holds?_lessOrEqual, Option.map_some, ← decide_not]
  simp only [Int.not_le]

end Flags

/-! ## Encoded values -/

/-- Whether a word stands for a value. -/
def Encodes (w : Word) : Value → Prop
  | .int n => w = n.toBitVec
  | .bool b => w = if b then 1 else 0
  | .unit => True

/-- Encoded integers are equal, and so are encoded booleans, if and only if their words are. -/
theorem Encodes.eq_iff {w w' : Word} {x y : Value} (hx : Encodes w x) (hy : Encodes w' y)
    (hty : x.ty = y.ty) (hdata : x.ty.supportsEquality = true) : w = w' ↔ x = y := by
  cases x <;> cases y <;> cases hty <;> cases hdata
  case int m n =>
    rw [hx, hy, Value.int.injEq]
    exact Int64.toBitVec_inj
  case bool p q =>
    rw [hx, hy, Value.bool.injEq]
    cases p <;> cases q <;> decide

/-! ## Patterns -/

/-- What the code of an instruction leaves alone, the slot of its variable aside. -/
structure Cpu.Keeps (c c' : Cpu) : Prop where
  rbp : c'.reg .rbp = c.reg .rbp
  rsp : c'.reg .rsp = c.reg .rsp
  memory : c'.memory = c.memory

/-- The division of the lowest integer by minus one, or the remainder of it. -/
def Overflows (b : Builtin) (values : List Value) : Prop :=
  (b = .divide ∨ b = .modulus) ∧ values = [.int Int64.minValue, .int (-1)]

instance (b : Builtin) (values : List Value) : Decidable (Overflows b values) := instDecidableAnd

/-- A word and its sign make up the same number in 128 bits. -/
theorem signed_dividend (w : Word) :
    (if w.msb then (-1 : Word) else 0).toInt * 2 ^ 64 + w.toNat = w.toInt := by
  rw [BitVec.toInt_eq_msb_cond w]
  by_cases h : w.msb = true
  · rw [if_pos h, if_pos h, show (-1 : Word).toInt = -1 by decide]
    omega
  · rw [if_neg h, if_neg h, show (0 : Word).toInt = 0 by decide]
    omega

section Patterns

variable (names : Names) {c : Cpu}

/-- The pattern for a comparison leaves one or zero in `rdx`. -/
theorem comparison_exec {cond : Condition} {p : Bool}
    (h : (Flags.ofDifference (c.reg .rax) (c.reg .rcx)).holds? cond = some p) :
    ∃ c', c.execAll names [.binary .xor (.reg .rdx) (.reg .rdx), .binary .cmp (.reg .rax) (.reg .rcx),
        .setIf cond (.low .rdx)] = some c' ∧
      c'.reg .rdx = (if p then 1 else 0) ∧ c.Keeps c' := by
  let cleared : Cpu :=
    { c.set .rdx 0 with flags := .ofResult (c.reg .rdx ^^^ c.reg .rdx) false false }
  have hclear : c.exec names (.binary .xor (.reg .rdx) (.reg .rdx)) = some cleared := by
    refine Cpu.exec_compute ?_
    rw [Binary.compute?, BitVec.xor_self]
    rfl
  let compared : Cpu := { cleared with flags := .ofDifference (c.reg .rax) (c.reg .rcx) }
  refine ⟨compared.setLow .rdx (if p then 1 else 0), ?_, ?_, rfl, rfl, rfl⟩
  · have hcmp : cleared.exec names (.binary .cmp (.reg .rax) (.reg .rcx)) = some compared := rfl
    have hset : compared.exec names (.setIf cond (.low .rdx)) =
        some (compared.setLow .rdx (if p then 1 else 0)) := by
      rw [Cpu.exec_setIf, h, Option.map_some]
    rw [Cpu.execAll_cons, hclear, Option.bind_some, Cpu.execAll_cons, hcmp, Option.bind_some,
      Cpu.execAll_cons, hset, Option.bind_some, Cpu.execAll_nil]
  · rw [Cpu.reg_setLow_of_zero rfl]
    cases p <;> rfl

/-- The pattern for a division leaves the quotient in `rax` and the remainder in `rdx`. -/
theorem division_exec {a b : Int64} (ha : c.reg .rax = a.toBitVec) (hb : c.reg .rcx = b.toBitVec)
    (hb₀ : b ≠ 0) (hfits : ¬(a = Int64.minValue ∧ b = -1)) :
    ∃ c', c.execAll names [.plain .cqo, .unary .idiv (.reg .rcx)] = some c' ∧
      c'.reg .rax = (a / b).toBitVec ∧ c'.reg .rdx = (a % b).toBitVec ∧ c.Keeps c' := by
  have hquotient : a.toBitVec.toInt.tdiv b.toBitVec.toInt = (a / b).toBitVec.toInt := by
    rw [Int64.toBitVec_div, BitVec.toInt_sdiv_of_ne_or_ne]
    by_cases hmin : a.toBitVec = BitVec.intMin 64
    · exact .inr fun hone => hfits ⟨Int64.toBitVec_inj.1 hmin, Int64.toBitVec_inj.1 hone⟩
    · exact .inl hmin
  have hremainder : a.toBitVec.toInt.tmod b.toBitVec.toInt = (a % b).toBitVec.toInt := by
    rw [Int64.toBitVec_mod, BitVec.toInt_srem]
  have hdivisor : b.toBitVec ≠ 0 := fun h => hb₀ (Int64.toBitVec_inj.1 h)
  -- what is divided is the number in `rax`
  let extended := c.set .rdx (if (c.reg .rax).msb then -1 else 0)
  have hdividend : (extended.reg .rdx).toInt * 2 ^ 64 + (extended.reg .rax).toNat =
      a.toBitVec.toInt := by
    rw [← ha]
    exact signed_dividend (c.reg .rax)
  have hdivide : extended.divide b.toBitVec = some
      { (extended.set .rax (a / b).toBitVec).set .rdx (a % b).toBitVec with flags := .undefined } :=
    Cpu.divide_eq hdivisor (by rw [hdividend, hquotient]) (by rw [hdividend, hremainder])
  have hidiv : extended.exec names (.unary .idiv (.reg .rcx)) = extended.divide b.toBitVec := by
    rw [← hb]
    rfl
  refine ⟨{ (extended.set .rax (a / b).toBitVec).set .rdx (a % b).toBitVec with flags := .undefined }, ?_,
    rfl, rfl, rfl, rfl, rfl⟩
  rw [Cpu.execAll_cons, Cpu.exec_cqo, Option.bind_some, Cpu.execAll_cons, hidiv, hdivide,
    Option.bind_some, Cpu.execAll_nil]

/-- The patterns of one instruction that computes a word leave it in `rax`. -/
theorem compute_exec (op : Binary) (r : Reg) {w : Word} {flags : Flags}
    (h : op.compute? (c.reg .rax) (c.reg r) = some (some w, flags)) :
    ∃ c', c.execAll names [.binary op (.reg .rax) (.reg r)] = some c' ∧ c'.reg .rax = w ∧
      c.Keeps c' := by
  refine ⟨{ c.set .rax w with flags }, ?_, rfl, rfl, rfl, rfl⟩
  rw [Cpu.execAll_cons, Cpu.exec_compute h, Option.bind_some, Cpu.execAll_nil]

/-- The operands of an equality operator are two integers or two booleans. -/
theorem operatorResult_equality {b : Builtin} (hb : b = .equals ∨ b = .notEquals) {υ υ' τ : Ty}
    (h : operatorResult b [υ, υ'] = .ok τ) : υ = υ' ∧ υ.supportsEquality = true := by
  rcases operatorResult_ok h with hσ | ⟨-, -, _, hυ, hdata⟩
  · rcases hb with rfl | rfl <;> cases hσ
  · cases hυ
    exact ⟨rfl, hdata⟩

/-- The condition of a comparison holds if and only if the comparison does. -/
theorem condition?_holds {b : Builtin} {cond : Condition} (hb : condition? b = some cond)
    {x y v : Value} {τ : Ty} (hty : operatorResult b [x.ty, y.ty] = .ok τ)
    (hv : operate b [x, y] = .ok v) {w w' : Word} (hx : Encodes w x) (hy : Encodes w' y) :
    ∃ p, v = .bool p ∧ (Flags.ofDifference w w').holds? cond = some p := by
  cases b <;> cases hb
  case equals =>
    obtain ⟨hsame, hdata⟩ := operatorResult_equality (.inl rfl) hty
    cases hv
    refine ⟨_, rfl, ?_⟩
    rw [Flags.holds?_equal]
    exact congrArg some (decide_eq_decide.2 (hx.eq_iff hy hsame hdata))
  case notEquals =>
    obtain ⟨hsame, hdata⟩ := operatorResult_equality (.inr rfl) hty
    cases hv
    refine ⟨_, rfl, ?_⟩
    rw [Flags.holds?_notEqual]
    exact congrArg some (decide_eq_decide.2 (not_congr (hx.eq_iff hy hsame hdata)))
  all_goals
    cases x <;> cases y <;> cases hv
    refine ⟨_, rfl, ?_⟩
    rw [hx, hy]
    simp only [Flags.holds?_less, Flags.holds?_greater, Flags.holds?_lessOrEqual,
      Flags.holds?_greaterOrEqual, Int64.toInt_toBitVec, Int64.lt_iff_toInt_lt, Int64.le_iff_toInt_le]

theorem divide_ok {m n : Int64} {v : Value} (h : operate .divide [.int m, .int n] = .ok v) :
    n ≠ 0 ∧ v = .int (m / n) := by
  change (if n = 0 then .error RuntimeError.divisionByZero else .ok (.int (m / n))) = Except.ok v at h
  by_cases hn : n = 0
  · rw [if_pos hn] at h
    cases h
  · rw [if_neg hn] at h
    cases h
    exact ⟨hn, rfl⟩

theorem modulus_ok {m n : Int64} {v : Value} (h : operate .modulus [.int m, .int n] = .ok v) :
    n ≠ 0 ∧ v = .int (m % n) := by
  change (if n = 0 then .error RuntimeError.divisionByZero else .ok (.int (m % n))) = Except.ok v at h
  by_cases hn : n = 0
  · rw [if_pos hn] at h
    cases h
  · rw [if_neg hn] at h
    cases h
    exact ⟨hn, rfl⟩

/-- The pattern for an operator with two operands. -/
theorem binaryPattern_exec {b : Builtin} {x y v : Value} {τ : Ty}
    (hty : operatorResult b [x.ty, y.ty] = .ok τ) (hv : operate b [x, y] = .ok v)
    (hfits : ¬Overflows b [x, y]) (hx : Encodes (c.reg .rax) x) (hy : Encodes (c.reg .rcx) y) :
    ∃ pattern result c', binaryPattern? b = some (pattern, result) ∧
      c.execAll names pattern = some c' ∧ Encodes (c'.reg result) v ∧ c.Keeps c' := by
  cases hcond : condition? b with
  | some cond =>
    obtain ⟨p, rfl, hp⟩ := condition?_holds hcond hty hv hx hy
    obtain ⟨c', hc, hw, hk⟩ := comparison_exec names hp
    refine ⟨_, _, c', ?_, hc, hw, hk⟩
    cases b <;> cases hcond <;> rfl
  | none =>
    -- of the operators without a condition these apply to two operands
    cases b <;> cases hcond <;> cases x <;> cases y <;> try cases hv
    case none.add.refl.int.int.refl m n =>
      obtain ⟨c', hc, hw, hk⟩ := compute_exec names (c := c) .add .rcx rfl
      exact ⟨_, _, c', rfl, hc, by rw [hw, hx, hy]; exact Int64.toBitVec_add.symm, hk⟩
    case none.subtract.refl.int.int.refl m n =>
      obtain ⟨c', hc, hw, hk⟩ := compute_exec names (c := c) .sub .rcx rfl
      exact ⟨_, _, c', rfl, hc, by rw [hw, hx, hy]; exact Int64.toBitVec_sub.symm, hk⟩
    case none.multiply.refl.int.int.refl m n =>
      obtain ⟨c', hc, hw, hk⟩ := compute_exec names (c := c) .imul .rcx rfl
      exact ⟨_, _, c', rfl, hc, by rw [hw, hx, hy]; exact Int64.toBitVec_mul.symm, hk⟩
    case none.logicalAnd.refl.bool.bool.refl p q =>
      obtain ⟨c', hc, hw, hk⟩ := compute_exec names (c := c) .and .rcx rfl
      exact ⟨_, _, c', rfl, hc, by rw [hw, hx, hy]; cases p <;> cases q <;> rfl, hk⟩
    case none.logicalOr.refl.bool.bool.refl p q =>
      obtain ⟨c', hc, hw, hk⟩ := compute_exec names (c := c) .or .rcx rfl
      exact ⟨_, _, c', rfl, hc, by rw [hw, hx, hy]; cases p <;> cases q <;> rfl, hk⟩
    case none.divide.refl.int.int m n =>
      obtain ⟨hn, rfl⟩ := divide_ok hv
      have hmin : ¬(m = Int64.minValue ∧ n = -1) := by
        rintro ⟨rfl, rfl⟩
        exact hfits ⟨.inl rfl, rfl⟩
      obtain ⟨c', hc, hq, -, hk⟩ := division_exec names hx hy hn hmin
      exact ⟨_, _, c', rfl, hc, hq, hk⟩
    case none.modulus.refl.int.int m n =>
      obtain ⟨hn, rfl⟩ := modulus_ok hv
      have hmin : ¬(m = Int64.minValue ∧ n = -1) := by
        rintro ⟨rfl, rfl⟩
        exact hfits ⟨.inr rfl, rfl⟩
      obtain ⟨c', hc, -, hr, hk⟩ := division_exec names hx hy hn hmin
      exact ⟨_, _, c', rfl, hc, hr, hk⟩

/-- The pattern for an operator with one operand. -/
theorem unaryPattern_exec {b : Builtin} {x v : Value} (hv : operate b [x] = .ok v)
    (hx : Encodes (c.reg .rax) x) :
    ∃ pattern result c', unaryPattern? b = some (pattern, result) ∧
      c.execAll names pattern = some c' ∧ Encodes (c'.reg result) v ∧ c.Keeps c' := by
  -- of the operators these apply to one operand
  cases b <;> cases x <;> cases hv
  case negate.int.refl n =>
    refine ⟨_, _, { c.set .rax (-c.reg .rax) with flags := .ofDifference 0 (c.reg .rax) }, rfl, rfl, ?_,
      rfl, rfl, rfl⟩
    show -c.reg .rax = (-n).toBitVec
    rw [hx, Int64.toBitVec_neg]
  case logicalNot.bool.refl p =>
    refine ⟨_, _, { c.set .rax (c.reg .rax ^^^ 1) with flags := .ofResult (c.reg .rax ^^^ 1) false false },
      rfl, rfl, ?_, rfl, rfl, rfl⟩
    show c.reg .rax ^^^ 1 = if !p then 1 else 0
    rw [hx]
    cases p <;> rfl

end Patterns

/-! ## Operators on slots -/

/-- The slot of a variable holds a word for a value, if the variable has a slot. -/
def Cpu.Holds (l : StackLayout) (c : Cpu) (v : Var) (value : Value) : Prop :=
  ∃ below, l.offset? v = some below ∧ Encodes (c.memory.word (c.slot below)) value

/-- Code has put a word into the slot of a variable, and left alone what else the function relies on. -/
structure Cpu.Wrote (l : StackLayout) (c c' : Cpu) (v : Var) (w : Word) : Prop where
  rbp : c'.reg .rbp = c.reg .rbp
  rsp : c'.reg .rsp = c.reg .rsp
  memory : ∃ below, l.offset? v = some below ∧ c'.memory = c.memory.setWord (c.slot below) w

section Slots

variable {l : StackLayout} {location : Location} {names : Names} {c : Cpu} {v : Var} {below : Nat}
  {r : Reg}

theorem slot_eq (h : l.offset? v = some below) :
    l.slot location v = .ok (.mem (some .qword) .rbp below) := by
  rw [StackLayout.slot, h]

theorem load_eq (h : l.offset? v = some below) :
    l.load location r v = .ok [.binary .mov (.reg r) (.mem (some .qword) .rbp below)] := by
  rw [StackLayout.load, slot_eq h]
  rfl

theorem store_eq (h : l.offset? v = some below) :
    l.store location v r = .ok [.binary .mov (.mem (some .qword) .rbp below) (.reg r)] := by
  rw [StackLayout.store, slot_eq h]
  rfl

theorem slot_set (h : r ≠ .rbp) (w : Word) : (c.set r w).slot below = c.slot below := by
  rw [Cpu.slot, Cpu.slot, Cpu.reg_set, if_neg h.symm]

/-- Puts what is in a register into a slot. -/
def Cpu.storeSlot (c : Cpu) (below : Nat) (r : Reg) : Cpu :=
  { c with memory := c.memory.setWord (c.slot below) (c.reg r) }

/-- What a pattern leaves in a register is stored in the slot of a variable. -/
theorem Cpu.Keeps.store {c₁ c₂ : Cpu} (hk : c₁.Keeps c₂) (hrbp : c₁.reg .rbp = c.reg .rbp)
    (hrsp : c₁.reg .rsp = c.reg .rsp) (hmemory : c₁.memory = c.memory)
    (hv : l.offset? v = some below) :
    c.Wrote l (c₂.storeSlot below r) v (c₂.reg r) := by
  refine ⟨hk.rbp.trans hrbp, hk.rsp.trans hrsp, below, hv, ?_⟩
  have hslot : c₂.slot below = c.slot below := by rw [Cpu.slot, Cpu.slot, hk.rbp, hrbp]
  show c₂.memory.setWord (c₂.slot below) (c₂.reg r) = _
  rw [hslot, hk.memory, hmemory]

/-- An operator with one operand: it is loaded, the pattern works on it, and the result is stored. -/
theorem operatorCode_unary (names : Names) {b : Builtin} {pattern : List Instr} {x target : Var} {k : Nat}
    (hp : unaryPattern? b = some (pattern, r)) (hx : l.offset? x = some k) (ht : l.offset? target = some below)
    (location : Location) :
    ∃ is, operatorCode l location b [x] target = .ok is ∧
      c.execAll names is = ((c.set .rax (c.memory.word (c.slot k))).execAll names pattern).map
        (·.storeSlot below r) := by
  let load : List Instr := [.binary .mov (.reg .rax) (.mem (some .qword) .rbp k)]
  let store : List Instr := [.binary .mov (.mem (some .qword) .rbp below) (.reg r)]
  have hload : c.execAll names load = some (c.set .rax (c.memory.word (c.slot k))) := rfl
  have hstore : ∀ c' : Cpu, c'.execAll names store = some (c'.storeSlot below r) := fun _ => rfl
  refine ⟨load ++ pattern ++ store, ?_, ?_⟩
  · simp only [operatorCode, hp, load_eq hx, store_eq ht]
    rfl
  · rw [Cpu.execAll_append, Cpu.execAll_append, hload, Option.bind_some, funext hstore, Option.map_eq_bind]
    rfl

/-- An operator with two operands: they are loaded, the pattern works on them, and the result is stored. -/
theorem operatorCode_binary (names : Names) {b : Builtin} {pattern : List Instr} {x y target : Var} {k k' : Nat}
    (hp : binaryPattern? b = some (pattern, r)) (hx : l.offset? x = some k) (hy : l.offset? y = some k')
    (ht : l.offset? target = some below) (location : Location) :
    ∃ is, operatorCode l location b [x, y] target = .ok is ∧
      c.execAll names is = (((c.set .rax (c.memory.word (c.slot k))).set .rcx
        (c.memory.word (c.slot k'))).execAll names pattern).map (·.storeSlot below r) := by
  let loads : List Instr :=
    [.binary .mov (.reg .rax) (.mem (some .qword) .rbp k), .binary .mov (.reg .rcx) (.mem (some .qword) .rbp k')]
  let store : List Instr := [.binary .mov (.mem (some .qword) .rbp below) (.reg r)]
  have hloads : c.execAll names loads =
      some ((c.set .rax (c.memory.word (c.slot k))).set .rcx (c.memory.word (c.slot k'))) := by
    simp only [loads, Cpu.execAll_cons, Cpu.exec_load, Cpu.execAll_nil, Option.bind_some,
      slot_set (r := .rax) (by decide), Cpu.memory_set]
  have hstore : ∀ c' : Cpu, c'.execAll names store = some (c'.storeSlot below r) := fun _ => rfl
  refine ⟨loads ++ pattern ++ store, ?_, ?_⟩
  · simp only [operatorCode, hp, load_eq hx, load_eq hy, store_eq ht]
    rfl
  · rw [Cpu.execAll_append, Cpu.execAll_append, hloads, Option.bind_some, funext hstore, Option.map_eq_bind]
    rfl

/-- The code of an operator puts the encoded result into the slot of its variable. -/
theorem operatorCode_exec (names : Names) {b : Builtin} {arguments : List Var} {values : List Value}
    {target : Var} {result : Value} {τ : Ty}
    (hargs : List.Forall₂ (c.Holds l) arguments values) (ht : l.offset? target = some below)
    (hty : operatorResult b (values.map Value.ty) = .ok τ) (hv : operate b values = .ok result)
    (hfits : ¬Overflows b values) (location : Location) :
    ∃ is c' w, operatorCode l location b arguments target = .ok is ∧
      c.execAll names is = some c' ∧ Encodes w result ∧ c.Wrote l c' target w := by
  cases hargs with
  | nil => cases b <;> cases hv
  | cons hx hrest =>
    obtain ⟨k, hk, hx⟩ := hx
    cases hrest with
    | nil =>
      obtain ⟨pattern, r, c₂, hp, hpattern, hw, hkeep⟩ :=
        unaryPattern_exec names (c := c.set .rax (c.memory.word (c.slot k))) hv hx
      obtain ⟨is, his, hexec⟩ := operatorCode_unary (c := c) names hp hk ht location
      exact ⟨is, c₂.storeSlot below r, c₂.reg r, his, by rw [hexec, hpattern]; rfl, hw, hkeep.store rfl rfl rfl ht⟩
    | cons hy hrest =>
      obtain ⟨k', hk', hy⟩ := hy
      cases hrest with
      | nil =>
        obtain ⟨pattern, r, c₂, hp, hpattern, hw, hkeep⟩ := binaryPattern_exec names
          (c := (c.set .rax (c.memory.word (c.slot k))).set .rcx (c.memory.word (c.slot k')))
          hty hv hfits hx hy
        obtain ⟨is, his, hexec⟩ := operatorCode_binary (c := c) names hp hk hk' ht location
        exact ⟨is, c₂.storeSlot below r, c₂.reg r, his, by rw [hexec, hpattern]; rfl, hw,
          hkeep.store rfl rfl rfl ht⟩
      | cons => cases b <;> simp [operate] at hv

end Slots

end Assembly

end Exprc
