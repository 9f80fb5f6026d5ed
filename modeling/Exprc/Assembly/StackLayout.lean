/-
Where variables live while a compiled program runs. Every variable of a module except the names of
functions has a slot of eight bytes below the frame base, in the order in which the variables first
occur. One layout serves all functions of the module.
-/
import Exprc.IR.Basic

namespace Exprc.Assembly

open IR

/-- The variables that have slots, the one nearest to the frame base first. -/
structure StackLayout where
  slots : List Var
deriving DecidableEq, Repr

namespace StackLayout

/-- The bytes of a slot. -/
def slotSize : Nat := 8

/-- The bytes to which the size of a frame is rounded up. -/
def frameAlignment : Nat := 16

/-- The layout for a module. -/
def ofModule (m : Module) : StackLayout := ⟨(m.vars.filter (!·.isNamed)).eraseDups⟩

/-- The number of slots. -/
def size (l : StackLayout) : Nat := l.slots.length

/-- How far below the frame base the slot of a variable begins. -/
def offset? (l : StackLayout) (v : Var) : Option Nat :=
  (l.slots.idxOf? v).map fun i => (i + 1) * slotSize

/-- The bytes that a function reserves for all slots. -/
def frameSize (l : StackLayout) : Nat :=
  (l.size * slotSize + (frameAlignment - 1)) / frameAlignment * frameAlignment

end StackLayout

end Exprc.Assembly
