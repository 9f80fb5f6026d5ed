/-
The text of the intermediate representation, for people to read: a line for the head of each
function and one for each instruction, with styles that a terminal may show.
-/
import Exprc.IR.Basic
import Exprc.Text.ControlSequence
import Exprc.Text.Style

namespace Exprc.IR

open Text

/-- Variables with commas between them. -/
def variableList (vs : List Var) : String := ", ".intercalate (vs.map (·.text))

/-- The text of an instruction: a word for what it does, and its operands in parentheses. -/
def Op.styled : Op → Styled
  | .loadInt value target =>
    [inked .cyan "LoadIntConst", raw "(", inked .magenta (toString value),
      raw (", " ++ target.text ++ ")")]
  | .loadBool value target =>
    [inked .cyan "LoadBoolConst", raw "(", inked .magenta (toString value),
      raw (", " ++ target.text ++ ")")]
  | .copy source target =>
    [inked .cyan "Copy", raw ("(" ++ source.text ++ ", " ++ target.text ++ ")")]
  | .call callee arguments target =>
    [inked .cyan "Call", raw "(", inked .blue callee.text,
      raw (", [" ++ variableList arguments ++ "], " ++ target.text ++ ")")]
  | .label l =>
    [inked .brightRed "Label", raw "(", inked .brightRed l.text, raw ")"]
  | .jump l => [inked .cyan "Jump", raw "(", inked .blue l.text, raw ")"]
  | .branch condition ifTrue ifFalse =>
    [inked .cyan "CondJump", raw ("(" ++ condition.text ++ ", "), inked .blue ifTrue.text,
      raw ", ", inked .blue ifFalse.text, raw ")"]
  | .leave value => [inked .cyan "Return", raw ("(" ++ value.text ++ ")")]

/-- The text of an instruction without styles. -/
def Op.text (op : Op) : String := op.styled.plain

/-- What a terminal with or without colours shows for an instruction. Names may hold control
sequences too, so this is not the text without styles for all names. -/
def Op.shown (colours : Bool) (op : Op) : String := withoutControls (op.styled.render colours)

/-- The text of a function. -/
def Function.styled (f : Function) : Styled :=
  [inked .magenta "fun", raw " ", inked .blue f.name, inked .white "(",
    raw (variableList f.parameters), inked .white "):", raw "\n"]
    ++ f.code.flatMap fun i => raw "    " :: (i.op.styled ++ [raw "\n"])

/-- The text of a module: its functions with an empty line between them. -/
def Module.styled (m : Module) : Styled := Styled.join "\n" (m.functions.map (·.styled))

end Exprc.IR
