/-
What instructions do that neither jump nor call: a processor has registers, flags and memory, and executes
one instruction after the other. Flags that an instruction leaves undefined have no value, and no condition
can be read from them. A division faults if the divisor is zero or the quotient does not fit. A register takes
any word, but a number that is moved to memory must fit into 32 bits; in other instructions numbers and distances
are taken as they are written, though an assembler refuses those with more than 32 bits.
-/
import Exprc.Assembly.Instr
import Exprc.Proofs.Assembly.Memory

namespace Exprc.Assembly

/-! ## Widths -/

namespace Width

/-- The bytes of a width. -/
def bytes : Width → Nat
  | byte => 1
  | qword => 8

/-- The bits of a width. -/
def bits : Width → Nat
  | byte => 8
  | qword => 64

end Width

namespace Operand

/-- The width of an operand, if it does not depend on the other operand. -/
def width? : Operand → Option Width
  | reg _ => some .qword
  | low _ => some .byte
  | mem width? .. => width?
  | imm _ | char _ | constant _ | data _ => none

/-- Whether an operand is in memory. -/
def isMemory : Operand → Bool
  | mem .. | data _ => true
  | _ => false

/-- Whether an operand is a number that a move can take to memory: a processor extends 32 bits by their
sign, and only a move to a register has room for more. -/
def fitsMove : Operand → Bool
  | imm n => Int32.minValue.toInt ≤ n && n ≤ Int32.maxValue.toInt
  | _ => true

/-- The width at which an instruction works on two operands, which are not both in memory. -/
def commonWidth? (target source : Operand) : Option Width :=
  if target.isMemory && source.isMemory then none
  else match target.width?, source.width? with
    | some v, some w => if v = w then some v else none
    | some w, none | none, some w => some w
    | none, none => none

end Operand

/-! ## Flags -/

/-- The flags that conditions are read from. -/
structure Flags where
  zero : Option Bool
  sign : Option Bool
  carry : Option Bool
  overflow : Option Bool
deriving DecidableEq, Repr

namespace Flags

/-- No flag is defined. -/
def undefined : Flags := ⟨none, none, none, none⟩

/-- The flags of a result. -/
def ofResult {n : Nat} (result : BitVec n) (carry overflow : Bool) : Flags :=
  ⟨some (result == 0), some result.msb, some carry, some overflow⟩

/-- The flags of a sum. -/
def ofSum {n : Nat} (a b : BitVec n) : Flags :=
  ofResult (a + b) (2 ^ n ≤ a.toNat + b.toNat) ((a + b).toInt ≠ a.toInt + b.toInt)

/-- The flags of a difference. -/
def ofDifference {n : Nat} (a b : BitVec n) : Flags :=
  ofResult (a - b) (a.toNat < b.toNat) ((a - b).toInt ≠ a.toInt - b.toInt)

/-- The flags of a product tell only whether it does not fit. -/
def ofProduct {n : Nat} (a b : BitVec n) : Flags :=
  let tooLarge := decide ((a * b).toInt ≠ a.toInt * b.toInt)
  ⟨none, none, some tooLarge, some tooLarge⟩

/-- Whether a condition holds. -/
def holds? (f : Flags) : Condition → Option Bool
  | .equal | .zero => f.zero
  | .notEqual | .notZero => return !(← f.zero)
  | .less => return (← f.sign) != (← f.overflow)
  | .greaterOrEqual => return (← f.sign) == (← f.overflow)
  | .lessOrEqual => return (← f.zero) || (← f.sign) != (← f.overflow)
  | .greater => return !(← f.zero) && (← f.sign) == (← f.overflow)
  | .notSign => return !(← f.sign)
  | .above => return !(← f.carry) && !(← f.zero)

end Flags

/-! ## Processors -/

/-- The addresses of data and the numbers that names stand for. -/
abbrev Names := Symbol → Option Word

/-- A processor, memory included. -/
structure Cpu where
  reg : Reg → Word
  flags : Flags
  memory : Memory

namespace Cpu

/-- Puts a word into a register. -/
def set (c : Cpu) (r : Reg) (w : Word) : Cpu :=
  { c with reg := fun r' => if r' = r then w else c.reg r' }

/-- Puts a byte into the low byte of a register. -/
def setLow (c : Cpu) (r : Reg) (b : BitVec 8) : Cpu :=
  c.set r ((c.reg r >>> 8) <<< 8 ||| b.setWidth 64)

/-- The address of an operand in memory. -/
def address? (names : Names) (c : Cpu) : Operand → Option Word
  | .mem _ base below => some (c.reg base - .ofNat 64 below)
  | .data s => names s
  | _ => none

/-- The value of an operand. -/
def read? (names : Names) (c : Cpu) : (w : Width) → Operand → Option (BitVec w.bits)
  | .qword, .reg r => some (c.reg r)
  | .byte, .low r => some ((c.reg r).setWidth 8)
  | w, .imm n => some (.ofInt w.bits n)
  | w, .char ch => some (.ofNat w.bits ch.toNat)
  | w, .constant s => (names s).map (·.setWidth w.bits)
  | w, o => (c.address? names o).map fun a => .ofNat w.bits (c.memory.load a.toNat w.bytes)

/-- Gives an operand a value. -/
def write? (names : Names) (c : Cpu) : (w : Width) → Operand → BitVec w.bits → Option Cpu
  | .qword, .reg r, v => some (c.set r v)
  | .byte, .low r, v => some (c.setLow r v)
  | w, o, v => (c.address? names o).map fun a =>
      { c with memory := c.memory.store a.toNat w.bytes v.toNat }

/-- Puts a word on the stack. -/
def push (c : Cpu) (w : Word) : Cpu :=
  let top := c.reg .rsp - 8
  { c.set .rsp top with memory := c.memory.setWord top.toNat w }

/-- The word on top of the stack, and the processor without it. -/
def pop (c : Cpu) : Word × Cpu :=
  (c.memory.word (c.reg .rsp).toNat, c.set .rsp (c.reg .rsp + 8))

end Cpu

/-! ## Instructions -/

/-- What an instruction with two operands computes: the value for the first operand, if it is written, and
the flags. Instructions that only move values compute nothing. -/
def Binary.compute? {n : Nat} (op : Binary) (a b : BitVec n) : Option (Option (BitVec n) × Flags) :=
  match op with
  | .add => some (some (a + b), .ofSum a b)
  | .sub => some (some (a - b), .ofDifference a b)
  | .cmp => some (none, .ofDifference a b)
  | .imul => some (some (a * b), .ofProduct a b)
  | .and => some (some (a &&& b), .ofResult (a &&& b) false false)
  | .or => some (some (a ||| b), .ofResult (a ||| b) false false)
  | .xor => some (some (a ^^^ b), .ofResult (a ^^^ b) false false)
  | .test => some (none, .ofResult (a &&& b) false false)
  | .mov | .movzx | .lea => none

namespace Cpu

/-- Divides `rdx` and `rax`, which hold one number of 128 bits, by a word. -/
def divide (c : Cpu) (divisor : Word) : Option Cpu :=
  let dividend := (c.reg .rdx).toInt * 2 ^ 64 + (c.reg .rax).toNat
  let quotient := dividend.tdiv divisor.toInt
  if divisor = 0 ∨ quotient < -2 ^ 63 ∨ 2 ^ 63 ≤ quotient then none
  else some { (c.set .rax (.ofInt 64 quotient)).set .rdx (.ofInt 64 (dividend.tmod divisor.toInt)) with
    flags := .undefined }

/-- Executes an instruction with one operand. -/
def execUnary (names : Names) (c : Cpu) (op : Unary) (o : Operand) : Option Cpu :=
  match op with
  | .push => return c.push (← c.read? names .qword o)
  | .pop => c.pop.2.write? names .qword o c.pop.1
  | .idiv => do c.divide (← c.read? names .qword o)
  | .neg => do
    let w ← o.width?
    let v ← c.read? names w o
    return { ← c.write? names w o (-v) with flags := .ofDifference 0 v }
  | .inc => do
    let w ← o.width?
    let v ← c.read? names w o
    return { ← c.write? names w o (v + 1) with flags := { Flags.ofSum v 1 with carry := c.flags.carry } }
  | .dec => do
    let w ← o.width?
    let v ← c.read? names w o
    return { ← c.write? names w o (v - 1) with
      flags := { Flags.ofDifference v 1 with carry := c.flags.carry } }

/-- Executes an instruction with two operands. -/
def execBinary (names : Names) (c : Cpu) (op : Binary) (target source : Operand) : Option Cpu :=
  match op with
  | .mov => do
    let w ← target.commonWidth? source
    if target.isMemory && !source.fitsMove then none
    else c.write? names w target (← c.read? names w source)
  | .movzx => do c.write? names .qword target ((← c.read? names .byte source).setWidth 64)
  | .lea => do c.write? names .qword target (← c.address? names source)
  | op => do
    let w ← target.commonWidth? source
    match op.compute? (← c.read? names w target) (← c.read? names w source) with
    | some (some v, flags) => return { ← c.write? names w target v with flags }
    | some (none, flags) => return { c with flags }
    | none => none

/-- Executes an instruction that goes on to the next one. -/
def exec (names : Names) (c : Cpu) : Instr → Option Cpu
  | .plain .cqo => some (c.set .rdx (if (c.reg .rax).msb then -1 else 0))
  | .unary op o => c.execUnary names op o
  | .binary op target source => c.execBinary names op target source
  | .scale target source factor => do
    let v : Word ← c.read? names .qword source
    let w : Word := .ofInt 64 factor
    return { ← c.write? names .qword target (v * w) with flags := .ofProduct v w }
  | .setIf cond target => do
    c.write? names .byte target (if ← c.flags.holds? cond then 1 else 0)
  | .plain .ret | .plain .syscall | .call _ | .jump _ | .jumpIf .. => none

/-- Executes instructions one after the other. -/
def execAll (names : Names) (c : Cpu) (is : List Instr) : Option Cpu := is.foldlM (·.exec names) c

/-! ## What instructions do -/

/-- The address of a slot in the frame that `rbp` points at. -/
def slot (c : Cpu) (below : Nat) : Nat := (c.reg .rbp - .ofNat 64 below).toNat

section

variable {names : Names} {c : Cpu} {r s : Reg} {k : Nat} {i : Instr} {is js : List Instr}

@[simp] theorem reg_set (w : Word) : (c.set r w).reg s = if s = r then w else c.reg s := rfl

@[simp] theorem memory_set (w : Word) : (c.set r w).memory = c.memory := rfl

@[simp] theorem execAll_nil : c.execAll names [] = some c := rfl

@[simp] theorem execAll_cons :
    c.execAll names (i :: is) = (c.exec names i).bind (·.execAll names is) := rfl

theorem execAll_append :
    c.execAll names (is ++ js) = (c.execAll names is).bind (·.execAll names js) :=
  List.foldlM_append

theorem exec_load : c.exec names (.binary .mov (.reg r) (.mem (some .qword) .rbp k)) =
    some (c.set r (c.memory.word (c.slot k))) := rfl

theorem exec_store : c.exec names (.binary .mov (.mem (some .qword) .rbp k) (.reg r)) =
    some { c with memory := c.memory.setWord (c.slot k) (c.reg r) } := rfl

theorem exec_storeNumber {n : Int} (h : (Operand.imm n).fitsMove = true) :
    c.exec names (.binary .mov (.mem (some .qword) .rbp k) (.imm n)) =
      some { c with memory := c.memory.setWord (c.slot k) (.ofInt 64 n) } := by
  show (if true && !(Operand.imm n).fitsMove then none else _) = _
  rw [h]
  rfl

/-- An instruction that computes a word from the words in two registers. -/
theorem exec_compute {op : Binary} {w : Word} {flags : Flags}
    (h : op.compute? (c.reg r) (c.reg s) = some (some w, flags)) :
    c.exec names (.binary op (.reg r) (.reg s)) = some { c.set r w with flags } := by
  have hexec : c.exec names (.binary op (.reg r) (.reg s)) =
      match op.compute? (c.reg r) (c.reg s) with
      | some (some v, flags) => some { c.set r v with flags }
      | some (none, flags) => some { c with flags }
      | none => none := by
    cases op <;> first | rfl | cases h
  rw [hexec, h]

/-- In a register that holds zero there is only the byte that was put there. -/
theorem reg_setLow_of_zero (h : c.reg r = 0) (b : BitVec 8) : (c.setLow r b).reg r = b.setWidth 64 := by
  rw [setLow, reg_set, if_pos rfl, h]
  exact BitVec.zero_or

theorem exec_setIf {cond : Condition} : c.exec names (.setIf cond (.low r)) =
    (c.flags.holds? cond).map fun p => c.setLow r (if p then 1 else 0) := by
  simp only [exec]
  cases c.flags.holds? cond <;> rfl

theorem exec_cqo : c.exec names (.plain .cqo) =
    some (c.set .rdx (if (c.reg .rax).msb then -1 else 0)) := rfl

/-- A division gives a quotient and a remainder that are words. -/
theorem divide_eq {divisor quotient remainder : Word} (hd : divisor ≠ 0)
    (hq : ((c.reg .rdx).toInt * 2 ^ 64 + (c.reg .rax).toNat).tdiv divisor.toInt = quotient.toInt)
    (hr : ((c.reg .rdx).toInt * 2 ^ 64 + (c.reg .rax).toNat).tmod divisor.toInt = remainder.toInt) :
    c.divide divisor = some { (c.set .rax quotient).set .rdx remainder with flags := .undefined } := by
  have hlow := quotient.le_toInt
  have hhigh := quotient.toInt_lt
  unfold divide
  dsimp only
  rw [hq, hr, BitVec.ofInt_toInt, BitVec.ofInt_toInt, if_neg]
  rintro (h | h | h)
  · exact hd h
  · omega
  · omega

end

end Cpu

end Exprc.Assembly
