/-
Code generation: from the intermediate representation to assembly. Every variable lives in its
stack slot, and every instruction becomes a fixed pattern that loads its operands into registers
and stores its result. Operators are patterns of their own; other functions are called, with up to
six arguments in registers.
-/
import Exprc.Assembly.Instr
import Exprc.Assembly.StackLayout
import Exprc.Diagnostic
import Exprc.IR.Text

namespace Exprc.Assembly

open IR

/-! ## Failures -/

/-- Why a module has no assembly. -/
inductive CodegenError where
  | noSlot (v : Var)
  | tooManyParameters (name : String) (count : Nat)
  | tooManyArguments (name : String) (count : Nat)
  | notFunctionName (callee : Var)
  | noPattern (b : Builtin) (count : Nat)
deriving DecidableEq, Repr

/-- The text of a failure. -/
def CodegenError.message : CodegenError → String
  | noSlot v => "`" ++ v.text ++ "` has no stack slot"
  | tooManyParameters name count =>
    "`" ++ name ++ "` has " ++ toString count ++ " parameters but at most "
      ++ toString Reg.arguments.length ++ " are supported"
  | tooManyArguments name count =>
    "calling `" ++ name ++ "` with " ++ toString count ++ " arguments is not supported (at most "
      ++ toString Reg.arguments.length ++ ")"
  | notFunctionName callee => "`" ++ callee.text ++ "` is not a function name"
  | noPattern b count =>
    "no instruction template for `" ++ b.name ++ "` with " ++ toString count ++ " argument(s)"

instance : Cause CodegenError := ⟨fun _ => .codegen, CodegenError.message⟩

/-- What code generation gives, unless it fails. -/
abbrev Gen := Except (Fault CodegenError)

/-! ## Slots -/

/-- The slot of a variable as an operand. -/
def StackLayout.slot (l : StackLayout) (location : Location) (v : Var) : Gen Operand :=
  match l.offset? v with
  | some offset => .ok (.mem (some .qword) .rbp offset)
  | none => .error (.at location (.noSlot v))

/-- Loads a variable into a register. -/
def StackLayout.load (l : StackLayout) (location : Location) (r : Reg) (v : Var) :
    Gen (List Instr) := do
  return [.binary .mov (.reg r) (← l.slot location v)]

/-- Stores a register in a variable. -/
def StackLayout.store (l : StackLayout) (location : Location) (v : Var) (r : Reg) :
    Gen (List Instr) := do
  return [.binary .mov (← l.slot location v) (.reg r)]

/-- Stores a number in a variable. A number of more than 32 bits goes through a register. -/
def StackLayout.storeNumber (l : StackLayout) (location : Location) (v : Var) (n : Int) :
    Gen (List Instr) := do
  if Int32.minValue.toInt ≤ n ∧ n ≤ Int32.maxValue.toInt then
    return [.binary .mov (← l.slot location v) (.imm n)]
  else return .binary .mov (.reg .rax) (.imm n) :: (← l.store location v .rax)

/-! ## Operators -/

/-- The condition of a comparison. -/
def condition? : Builtin → Option Condition
  | .lessThan => some .less
  | .greaterThan => some .greater
  | .lessThanOrEqual => some .lessOrEqual
  | .greaterThanOrEqual => some .greaterOrEqual
  | .equals => some .equal
  | .notEquals => some .notEqual
  | _ => none

/-- The pattern for an operator on `rax`, and the register that holds the result. -/
def unaryPattern? : Builtin → Option (List Instr × Reg)
  | .negate => some ([.unary .neg (.reg .rax)], .rax)
  | .logicalNot => some ([.binary .xor (.reg .rax) (.imm 1)], .rax)
  | _ => none

/-- The pattern for an operator on `rax` and `rcx`, and the register that holds the result. -/
def binaryPattern? (b : Builtin) : Option (List Instr × Reg) :=
  let two (op : Binary) : List Instr := [.binary op (.reg .rax) (.reg .rcx)]
  let division : List Instr := [.plain .cqo, .unary .idiv (.reg .rcx)]
  match b with
  | .add => some (two .add, .rax)
  | .subtract => some (two .sub, .rax)
  | .multiply => some (two .imul, .rax)
  | .divide => some (division, .rax)
  | .modulus => some (division, .rdx)
  | .logicalAnd => some (two .and, .rax)
  | .logicalOr => some (two .or, .rax)
  | b => (condition? b).map fun c =>
      (.binary .xor (.reg .rdx) (.reg .rdx) :: two .cmp ++ [.setIf c (.low .rdx)], .rdx)

/-- An operator applied to variables. -/
def operatorCode (l : StackLayout) (location : Location) (b : Builtin) (arguments : List Var)
    (target : Var) : Gen (List Instr) := do
  let missing : Fault CodegenError := .at location (.noPattern b arguments.length)
  match arguments with
  | [v] =>
    match unaryPattern? b with
    | none => throw missing
    | some (pattern, result) =>
      let loads ← l.load location .rax v
      return loads ++ pattern ++ (← l.store location target result)
  | [v, w] =>
    let loadLeft ← l.load location .rax v
    let loadRight ← l.load location .rcx w
    match binaryPattern? b with
    | none => throw missing
    | some (pattern, result) =>
      return loadLeft ++ loadRight ++ pattern ++ (← l.store location target result)
  | _ => throw missing

/-! ## Calls -/

/-- Loads arguments into the registers for them. -/
def loadArguments (l : StackLayout) (location : Location) : List Var → List Reg → Gen (List Instr)
  | v :: vs, r :: rs => do
    let load ← l.load location r v
    return load ++ (← loadArguments l location vs rs)
  | _, _ => return []

/-- A call of a function by its name. -/
def callCode (l : StackLayout) (location : Location) (name : String) (arguments : List Var)
    (target : Var) : Gen (List Instr) := do
  if Reg.arguments.length < arguments.length then
    throw (.at location (.tooManyArguments name arguments.length))
  else
    let loads ← loadArguments l location arguments Reg.arguments
    return loads ++ .call (.function name) :: (← l.store location target .rax)

/-! ## Instructions -/

/-- The name of a label inside its function. -/
def labelSymbol (l : Label) : Symbol := .inner l.text

/-- The name of the place where every function is left. -/
def exitSymbol : Symbol := .inner "exit"

/-- The code of an instruction that is not a label. -/
def opCode (l : StackLayout) (location : Location) : Op → Gen (List Instr)
  | .loadInt n target => l.storeNumber location target n.toInt
  | .loadBool b target => l.storeNumber location target (if b then 1 else 0)
  | .copy source target => do
    let load ← l.load location .rax source
    return load ++ (← l.store location target .rax)
  | .call (.named name) arguments target =>
    match (Builtin.ofName? name).filter (!·.isIntrinsic) with
    | some b => operatorCode l location b arguments target
    | none => callCode l location name arguments target
  | .call callee .. => throw (.at location (.notFunctionName callee))
  | .label _ => return []
  | .jump target => return [.jump (labelSymbol target)]
  | .branch condition ifTrue ifFalse => do
    return [.binary .cmp (← l.slot location condition) (.imm 0),
      .jumpIf .notEqual (labelSymbol ifTrue), .jump (labelSymbol ifFalse)]
  | .leave value => do
    let load ← l.load location .rax value
    return load ++ [.jump exitSymbol]

/-- The lines of an instruction. -/
def instructionLines (l : StackLayout) (i : Instruction) : Gen (List Line) :=
  match i.op with
  | .label target => return [.label (labelSymbol target)]
  | op => return (← opCode l i.location op).map .ofInstr

/-! ## Functions -/

/-- Whether to say in a comment what each piece of code is for, and whether such a comment is what a
terminal with colours shows. -/
structure Options where
  debugInfo : Bool := false
  colours : Bool := false
deriving DecidableEq, Repr

/-- A comment, if comments are wanted. -/
def Options.note (o : Options) (text : String) : List Line :=
  if o.debugInfo then [.note text] else []

/-- Stores the parameters of a function in their slots. -/
def storeParameters (o : Options) (l : StackLayout) : List Var → List Reg → Gen (List Line)
  | v :: vs, r :: rs => do
    let store ← l.store .nowhere v r
    return o.note ("store parameter " ++ v.text) ++ store.map .ofInstr
      ++ (← storeParameters o l vs rs)
  | _, _ => return []

/-- The code of a function. -/
def codeLines (o : Options) (l : StackLayout) : List Instruction → Gen (List Line)
  | [] => return []
  | i :: code => do
    let lines ← instructionLines l i
    return o.note (i.op.shown o.colours) ++ lines ++ (← codeLines o l code)

/-- Makes a frame. -/
def prologue (l : StackLayout) : List Instr :=
  [.unary .push (.reg .rbp), .binary .mov (.reg .rbp) (.reg .rsp)]
    ++ if l.frameSize = 0 then [] else [.binary .sub (.reg .rsp) (.imm l.frameSize)]

/-- Drops the frame and returns. -/
def epilogue : List Line :=
  [.label exitSymbol, .ofInstr (.binary .mov (.reg .rsp) (.reg .rbp)),
    .ofInstr (.unary .pop (.reg .rbp)), .ofInstr (.plain .ret)]

/-- Puts the result of a function in place where control reaches the end of its code. The result of
the function in which a run starts is a success. -/
def resultCode (l : StackLayout) (f : Function) : Gen (List Instr) :=
  if f.endsInLeave then return []
  else if f.isEntryPoint then return [.binary .mov (.reg .rax) (.imm 0)]
  else l.load .nowhere .rax f.result

/-- The lines of a function. -/
def functionLines (o : Options) (l : StackLayout) (f : Function) : Gen (List Line) := do
  if Reg.arguments.length < f.parameters.length then
    throw (.unlocated (.tooManyParameters f.name f.parameters.length))
  else
    let parameters ← storeParameters o l f.parameters Reg.arguments
    let code ← codeLines o l f.code
    let result ← resultCode l f
    return [.exported (.function f.name), .label (.function f.name)]
      ++ (prologue l).map .ofInstr ++ parameters ++ code ++ result.map .ofInstr ++ epilogue

/-! ## Modules -/

/-- The names of the support routines. -/
def routineNames : List String := (Builtin.all.filter (·.isIntrinsic)).map (·.name)

/-- What every program begins with: a call of the function in which a run starts, and an exit with
its result. -/
def header : List Line :=
  [.wordSize, .relativeAddresses, .blank, .comment "runtime functions"]
    ++ routineNames.map (fun name => .imported (.plain name))
    ++ [.blank, .part "text", .blank, .comment "program entrypoint", .exported (.plain "_start"),
      .label (.plain "_start"), .ofInstr (.call (.plain entryPoint)), .blank,
      .note "exit syscall using code passed in rax",
      .ofInstr (.binary .mov (.reg .rdi) (.reg .rax)),
      .ofInstr (.binary .mov (.reg .rax) (.imm 60)), .ofInstr (.plain .syscall), .blank,
      .comment "user code"]

/-- The assembly of a module. -/
def generate (o : Options) (m : IR.Module) : Gen (List Line) := do
  let functions ← m.functions.mapM (functionLines o (.ofModule m))
  return header ++ [Line.blank].intercalate functions

end Exprc.Assembly
