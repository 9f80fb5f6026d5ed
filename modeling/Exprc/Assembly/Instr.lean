/-
Assembly for x86-64: the registers, operands and instructions that compiled programs and their
support routines use, and the lines of an assembly text.
-/
namespace Exprc.Assembly

/-! ## Operands -/

/-- The general purpose registers in use. -/
inductive Reg where
  | rax | rbx | rcx | rdx | rsi | rdi | rbp | rsp | r8 | r9 | r12 | r13 | r14
deriving DecidableEq, Repr

namespace Reg

/-- The registers that hold the first six arguments of a call. -/
def arguments : List Reg := [rdi, rsi, rdx, rcx, r8, r9]

/-- The name of a register. -/
def text : Reg → String
  | rax => "rax"
  | rbx => "rbx"
  | rcx => "rcx"
  | rdx => "rdx"
  | rsi => "rsi"
  | rdi => "rdi"
  | rbp => "rbp"
  | rsp => "rsp"
  | r8 => "r8"
  | r9 => "r9"
  | r12 => "r12"
  | r13 => "r13"
  | r14 => "r14"

/-- The name of the low byte of a register. -/
def lowText : Reg → String
  | rax => "al"
  | rbx => "bl"
  | rcx => "cl"
  | rdx => "dl"
  | rsi => "sil"
  | rdi => "dil"
  | rbp => "bpl"
  | rsp => "spl"
  | r8 => "r8b"
  | r9 => "r9b"
  | r12 => "r12b"
  | r13 => "r13b"
  | r14 => "r14b"

end Reg

/-- Names in an assembly text. -/
inductive Symbol where
  /-- The name of a support routine or of data. -/
  | plain (name : String)
  /-- The name of a function of the program, marked so that it is never taken for an instruction. -/
  | function (name : String)
  /-- A name that belongs to the function or routine above it. -/
  | inner (name : String)
deriving DecidableEq, Repr

/-- The spelling of a name. -/
def Symbol.text : Symbol → String
  | plain name => name
  | function name => "$" ++ name
  | inner name => "." ++ name

/-- The sizes of the memory that an operand covers. -/
inductive Width where
  | byte | qword
deriving DecidableEq, Repr

/-- The word for a size. -/
def Width.text : Width → String
  | byte => "byte"
  | qword => "qword"

/-- An operand. -/
inductive Operand where
  | reg (r : Reg)
  /-- The low byte of a register. -/
  | low (r : Reg)
  | imm (n : Int)
  /-- The code of a character. -/
  | char (c : Char)
  /-- The number that a name stands for. -/
  | constant (s : Symbol)
  /-- The memory a number of bytes below an address in a register; the size may be left to the
  other operand. -/
  | mem (width? : Option Width) (base : Reg) (below : Nat)
  /-- The memory at a name. -/
  | data (s : Symbol)
deriving DecidableEq, Repr

/-- The text of an operand. -/
def Operand.text : Operand → String
  | reg r => r.text
  | low r => r.lowText
  | imm n => toString n
  | char c => "'" ++ c.toString ++ "'"
  | constant s => s.text
  | mem width? base below =>
    let size := match width? with
      | some width => width.text ++ " "
      | none => ""
    let distance := if below = 0 then "" else " - " ++ toString below
    size ++ "[" ++ base.text ++ distance ++ "]"
  | data s => "[" ++ s.text ++ "]"

/-! ## Instructions -/

/-- The conditions that a comparison leaves behind. -/
inductive Condition where
  | equal | notEqual | less | greater | lessOrEqual | greaterOrEqual
  | zero | notZero | notSign | above
deriving DecidableEq, Repr

/-- The letters for a condition. -/
def Condition.text : Condition → String
  | equal => "e"
  | notEqual => "ne"
  | less => "l"
  | greater => "g"
  | lessOrEqual => "le"
  | greaterOrEqual => "ge"
  | zero => "z"
  | notZero => "nz"
  | notSign => "ns"
  | above => "a"

/-- Instructions without operands. -/
inductive Plain where
  /-- Extends `rax` into `rdx` by its sign. -/
  | cqo
  | ret
  | syscall
deriving DecidableEq, Repr

/-- Instructions with one operand. -/
inductive Unary where
  | neg | inc | dec | idiv | push | pop
deriving DecidableEq, Repr

/-- Instructions with two operands, the one that is written or compared first. -/
inductive Binary where
  | mov | movzx | lea | add | sub | imul | and | or | xor | cmp | test
deriving DecidableEq, Repr

/-- An instruction. -/
inductive Instr where
  | plain (op : Plain)
  | unary (op : Unary) (operand : Operand)
  | binary (op : Binary) (target source : Operand)
  /-- Multiplies by a number. -/
  | scale (target source : Operand) (factor : Int)
  /-- Sets a byte to one if a condition holds, and to zero if not. -/
  | setIf (c : Condition) (target : Operand)
  | call (s : Symbol)
  | jump (s : Symbol)
  | jumpIf (c : Condition) (s : Symbol)
deriving DecidableEq, Repr

/-- The word for an instruction. -/
def Plain.text : Plain → String
  | cqo => "cqo"
  | ret => "ret"
  | syscall => "syscall"

/-- The word for an instruction. -/
def Unary.text : Unary → String
  | neg => "neg"
  | inc => "inc"
  | dec => "dec"
  | idiv => "idiv"
  | push => "push"
  | pop => "pop"

/-- The word for an instruction. -/
def Binary.text : Binary → String
  | mov => "mov"
  | movzx => "movzx"
  | lea => "lea"
  | add => "add"
  | sub => "sub"
  | imul => "imul"
  | and => "and"
  | or => "or"
  | xor => "xor"
  | cmp => "cmp"
  | test => "test"

/-- The text of an instruction. -/
def Instr.text : Instr → String
  | plain op => op.text
  | unary op operand => op.text ++ " " ++ operand.text
  | binary op target source => op.text ++ " " ++ target.text ++ ", " ++ source.text
  | scale target source factor =>
    "imul " ++ target.text ++ ", " ++ source.text ++ ", " ++ toString factor
  | setIf c target => "set" ++ c.text ++ " " ++ target.text
  | call s => "call " ++ s.text
  | jump s => "jmp " ++ s.text
  | jumpIf c s => "j" ++ c.text ++ " " ++ s.text

/-! ## Lines -/

/-- A line of an assembly text. -/
inductive Line where
  | blank
  | comment (text : String)
  /-- A comment among instructions. -/
  | note (text : String)
  /-- An instruction, perhaps with a remark behind it. -/
  | instr (i : Instr) (remark? : Option String)
  | label (s : Symbol)
  /-- Makes a name known to other texts. -/
  | exported (s : Symbol)
  /-- Makes a name of another text known. -/
  | imported (s : Symbol)
  | wordSize
  | relativeAddresses
  | part (name : String)
  /-- A text and a line feed under a name. -/
  | textData (s : Symbol) (text : String)
  /-- A name for the number of bytes from another name up to here. -/
  | lengthOf (s : Symbol) (of : Symbol)
deriving DecidableEq, Repr

namespace Line

/-- The column at which remarks begin. -/
def remarkColumn : Nat := 28

/-- A line that holds an instruction. -/
def ofInstr (i : Instr) : Line := instr i none

/-- Puts a remark behind an instruction. -/
def remark (l : Line) (text : String) : Line :=
  match l with
  | instr i _ => instr i (some text)
  | l => l

/-- The text of a line. -/
def text : Line → String
  | blank => ""
  | comment text => if text.isEmpty then ";" else "; " ++ text
  | note text => "    ; " ++ text
  | instr i none => "    " ++ i.text
  | instr i (some remark) =>
    let code := "    " ++ i.text
    code.pushn ' ' (remarkColumn - code.length) ++ "; " ++ remark
  | label s => s.text ++ ":"
  | exported s => "global " ++ s.text
  | imported s => "extern " ++ s.text
  | wordSize => "bits 64"
  | relativeAddresses => "default rel"
  | part name => "section ." ++ name
  | textData s text => s.text ++ ": db \"" ++ text ++ "\", 10"
  | lengthOf s of => s.text ++ ": equ $ - " ++ of.text

/-- Whether a line is nothing but a comment. -/
def isComment : Line → Bool
  | comment _ | note _ => true
  | _ => false

end Line

/-- An assembly text: its lines, each with a line feed behind it. -/
def render (lines : List Line) : String := String.join (lines.map fun l => l.text ++ "\n")

end Exprc.Assembly
