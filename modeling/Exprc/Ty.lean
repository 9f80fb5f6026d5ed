/-
The types of the language. Values are integers, booleans or the unit value; functions have types
too, but only to say what a name in scope can be called with.
-/
namespace Exprc

/-- A type. -/
inductive Ty where
  | int
  | bool
  | unit
  | function (parameters : List Ty) (result : Ty)
deriving Repr, Inhabited

/-! ## Equality -/

mutual

/-- Decides whether two types are the same. -/
def Ty.decEq : (a b : Ty) → Decidable (a = b)
  | .int, .int | .bool, .bool | .unit, .unit => isTrue rfl
  | .function ps r, .function qs s =>
    match Ty.decEqList ps qs, Ty.decEq r s with
    | isTrue hp, isTrue hr => isTrue (by rw [hp, hr])
    | isFalse hp, _ => isFalse fun h => hp (Ty.function.inj h).1
    | _, isFalse hr => isFalse fun h => hr (Ty.function.inj h).2
  | .int, .bool | .int, .unit | .int, .function .. | .bool, .int | .bool, .unit
  | .bool, .function .. | .unit, .int | .unit, .bool | .unit, .function ..
  | .function .., .int | .function .., .bool | .function .., .unit => isFalse nofun

/-- Decides whether two lists of types are the same. -/
def Ty.decEqList : (as bs : List Ty) → Decidable (as = bs)
  | [], [] => isTrue rfl
  | a :: as, b :: bs =>
    match Ty.decEq a b, Ty.decEqList as bs with
    | isTrue ha, isTrue has => isTrue (by rw [ha, has])
    | isFalse ha, _ => isFalse fun h => ha (List.cons.inj h).1
    | _, isFalse has => isFalse fun h => has (List.cons.inj h).2
  | [], _ :: _ | _ :: _, [] => isFalse nofun

end

instance : DecidableEq Ty := Ty.decEq

namespace Ty

/-! ## Text and classes of types -/

mutual

/-- The text of a type. -/
def text : Ty → String
  | int => "Int"
  | bool => "Bool"
  | unit => "Unit"
  | function parameters result => "(" ++ listText parameters ++ ") => " ++ result.text

/-- The texts of types with commas between them. -/
def listText : List Ty → String
  | [] => ""
  | [a] => a.text
  | a :: b :: rest => a.text ++ ", " ++ listText (b :: rest)

end

/-- Whether a type is the type of the unit value. -/
def isUnit (τ : Ty) : Bool := τ == unit

/-- Whether values of a type can be compared for equality. -/
def supportsEquality : Ty → Bool
  | int | bool => true
  | unit | function .. => false

end Ty

/-- What a function takes and what it gives back. -/
structure Signature where
  parameters : List Ty
  result : Ty
deriving DecidableEq, Repr

/-- The type of the functions with a signature. -/
def Signature.ty (s : Signature) : Ty := .function s.parameters s.result

end Exprc
