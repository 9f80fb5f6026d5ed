/-
The intermediate representation. A function is a flat list of instructions over variables: most
variables are numbered temporaries; a name stands for a function that is called; and one variable
stands for every unit value. Control flow is explicit in labels and jumps, and every operator is a
call of a built-in function.
-/
import Exprc.Builtin
import Exprc.Location

namespace Exprc.IR

/-! ## Instructions -/

/-- A variable. -/
inductive Var where
  | temp (number : Nat)
  | named (name : String)
  | unit
deriving DecidableEq, Repr, Inhabited

namespace Var

/-- The text of a variable. -/
def text : Var → String
  | temp number => "x" ++ toString number
  | named name => name
  | unit => "unit"

/-- Whether a variable is a name. -/
def isNamed : Var → Bool
  | named _ => true
  | _ => false

/-- Whether a variable is a temporary. -/
def isTemp : Var → Bool
  | temp _ => true
  | _ => false

end Var

/-- A place to jump to. -/
structure Label where
  number : Nat
deriving DecidableEq, Repr

/-- The text of a label. -/
def Label.text (l : Label) : String := "L" ++ toString l.number

/-- What an instruction does. -/
inductive Op where
  | loadInt (value : Int64) (target : Var)
  | loadBool (value : Bool) (target : Var)
  | copy (source target : Var)
  | call (callee : Var) (arguments : List Var) (target : Var)
  /-- Does nothing; jumps lead here. -/
  | label (l : Label)
  | jump (l : Label)
  /-- Jumps to one of two labels. -/
  | branch (condition : Var) (ifTrue ifFalse : Label)
  /-- Leaves the function with a value. -/
  | leave (value : Var)
deriving DecidableEq, Repr

namespace Op

/-- The variables of an instruction in the order of its text, the callee of a call included. -/
def vars : Op → List Var
  | loadInt _ target | loadBool _ target => [target]
  | copy source target => [source, target]
  | call callee arguments target => callee :: (arguments ++ [target])
  | label _ | jump _ => []
  | branch condition .. => [condition]
  | leave value => [value]

/-- Whether an instruction leaves the function. -/
def isLeave : Op → Bool
  | leave _ => true
  | _ => false

end Op

/-- An instruction, with the place in the source that it comes from. -/
structure Instruction where
  location : Location
  op : Op
deriving DecidableEq, Repr

/-! ## Functions and modules -/

/-- A function. `result` holds its value when control reaches the end of the code. -/
structure Function where
  name : String
  parameters : List Var
  code : List Instruction
  result : Var
deriving DecidableEq, Repr

namespace Function

/-- Whether a run starts in this function. -/
def isEntryPoint (f : Function) : Bool := f.name == entryPoint

/-- Whether the last instruction leaves the function. -/
def endsInLeave (f : Function) : Bool := f.code.getLast?.any (·.op.isLeave)

/-- The variables of a function: parameters, then those of the code, then the result. -/
def vars (f : Function) : List Var :=
  f.parameters ++ f.code.flatMap (·.op.vars) ++ [f.result]

end Function

/-- A program. -/
structure Module where
  functions : List Function
deriving DecidableEq, Repr

namespace Module

/-- The first function of a name. -/
def function? (m : Module) (name : String) : Option Function :=
  m.functions.find? (·.name == name)

/-- The function in which a run starts. -/
def entry? (m : Module) : Option Function := m.functions.find? (·.isEntryPoint)

/-- The variables of a module in the order of its text. -/
def vars (m : Module) : List Var := m.functions.flatMap (·.vars)

/-- The number of instructions. -/
def size (m : Module) : Nat := (m.functions.flatMap (·.code)).length

end Module

end Exprc.IR
