/-
What code generation writes, and what it blames. The operands of its instructions are registers, numbers and slots,
and the names in them are those of functions and labels; so every line is printed as one line, and no line but a
comment looks like one (`Line.Clear`). Where it fails, but for want of a slot, the fault is that of an instruction
or has no place (`Delivers`).
-/
import Exprc.Proofs.Assembly.Demands
import Exprc.Proofs.IR.Legible
import Exprc.Proofs.Places.Erasure

namespace Exprc.Assembly

open IR Text

/-! ## Printed instructions -/

/-- Whether an operand is a register, a number, or memory at a distance from an address in a register. -/
def Operand.isNameless : Operand → Bool
  | reg _ | low _ | imm _ | mem .. => true
  | char _ | constant _ | data _ => false

/-- Whether there are no names in the operands of an instruction, and the name to which it passes control is printed. -/
structure Instr.Written (j : Instr) : Prop where
  operands : ∀ o ∈ j.operands, o.isNameless = true
  target : ∀ s ∈ j.target?, MadeOf isPrinted s.text

/-- Whether all of some instructions are written so. -/
def AllWritten (is : List Instr) : Prop := ∀ j ∈ is, j.Written

namespace AllWritten

variable {is js : List Instr}

theorem nil : AllWritten [] := List.forall_mem_nil _

theorem cons {j : Instr} (hj : j.Written) (h : AllWritten is) : AllWritten (j :: is) := List.forall_mem_cons.2 ⟨hj, h⟩

theorem append (h : AllWritten is) (h' : AllWritten js) : AllWritten (is ++ js) := List.forall_mem_append.2 ⟨h, h'⟩

end AllWritten

section

variable {text : String}

/-- A text of characters that are all printed. -/
theorem printed_literal (h : text.toList.all isPrinted = true) : MadeOf isPrinted text := .of_all h

theorem printed_number (n : Int) : MadeOf isPrinted (toString n) := (isField_toString n).printed

theorem Reg.printed (r : Reg) : MadeOf isPrinted r.text := by
  cases r <;> exact printed_literal rfl

theorem Operand.printed {o : Operand} (h : o.isNameless = true) : MadeOf isPrinted o.text := by
  cases o with
  | reg r => exact r.printed
  | low r => cases r <;> exact printed_literal rfl
  | imm n => exact printed_number n
  | mem width? base below =>
    simp only [text]
    refine (((MadeOf.append ?_ (printed_literal rfl)).append base.printed).append ?_).append (printed_literal rfl)
    · rcases width? with _ | _ | _ <;> exact printed_literal rfl
    · split
      · exact printed_literal rfl
      · exact (printed_literal rfl).append (printed_number below)
  | _ => cases h

theorem Instr.Written.printed {j : Instr} (h : j.Written) : MadeOf isPrinted j.text := by
  have operand : ∀ {o : Operand}, o ∈ j.operands → MadeOf isPrinted o.text :=
    fun ho => Operand.printed (h.operands _ ho)
  have comma : MadeOf isPrinted ", " := printed_literal rfl
  have blank : MadeOf isPrinted " " := printed_literal rfl
  cases j with
  | plain op => cases op <;> exact printed_literal rfl
  | unary op o =>
    have hop : MadeOf isPrinted op.text := by cases op <;> exact printed_literal rfl
    exact (hop.append blank).append (operand (by simp [Instr.operands]))
  | binary op target source =>
    have hop : MadeOf isPrinted op.text := by cases op <;> exact printed_literal rfl
    have htarget := operand (o := target) (by simp [Instr.operands])
    have hsource := operand (o := source) (by simp [Instr.operands])
    exact (((hop.append blank).append htarget).append comma).append hsource
  | scale target source factor =>
    have htarget := operand (o := target) (by simp [Instr.operands])
    have hsource := operand (o := source) (by simp [Instr.operands])
    exact (((((printed_literal rfl).append htarget).append comma).append hsource).append comma).append
      (printed_number factor)
  | setIf c target =>
    have hc : MadeOf isPrinted c.text := by cases c <;> exact printed_literal rfl
    exact (((printed_literal rfl).append hc).append blank).append (operand (by simp [Instr.operands]))
  | call s => exact (printed_literal rfl).append (h.target s rfl)
  | jump s => exact (printed_literal rfl).append (h.target s rfl)
  | jumpIf c s =>
    have hc : MadeOf isPrinted c.text := by cases c <;> exact printed_literal rfl
    exact (((printed_literal rfl).append hc).append blank).append (h.target s rfl)

end

/-! ## What code generation gives and blames -/

/-- What a part of code generation gives has a property; and if it fails, but not for want of a slot, the fault has no
place or one of a kind. -/
structure Delivers {α : Type} (P : Location → Prop) (Q : α → Prop) (x : Gen α) : Prop where
  gives : ∀ a, x = .ok a → Q a
  blames : ∀ fault, x = .error fault → (∀ v, fault.cause ≠ .noSlot v) → fault.Blames P

namespace Delivers

variable {α β : Type} {P P' : Location → Prop} {Q Q' : α → Prop} {S : β → Prop} {x : Gen α}

theorem pure {a : α} (h : Q a) : Delivers P Q (pure a) where
  gives := by
    rintro _ ⟨⟩
    exact h
  blames := nofun

theorem throw {fault : Fault CodegenError} (h : fault.Blames P) : Delivers P Q (throw fault) where
  gives := nofun
  blames := by
    rintro _ ⟨⟩ -
    exact h

theorem bind {next : α → Gen β} (h : Delivers P Q x) (hnext : ∀ a, Q a → Delivers P S (next a)) :
    Delivers P S (x >>= next) := by
  cases x with
  | ok a => exact hnext a (h.gives a rfl)
  | error fault =>
    refine ⟨nofun, fun fault' he => h.blames fault' ?_⟩
    cases he
    rfl

theorem map {g : α → β} (h : Delivers P Q x) (hg : ∀ a, Q a → S (g a)) : Delivers P S (do return g (← x)) :=
  h.bind fun a ha => .pure (hg a ha)

theorem mono (h : Delivers P Q x) (hP : ∀ place, P place → P' place) : Delivers P' Q x :=
  ⟨h.gives, fun fault he hv place hplace => hP place (h.blames fault he hv place hplace)⟩

theorem imp (h : Delivers P Q x) (hQ : ∀ a, x = .ok a → Q a → Q' a) : Delivers P Q' x where
  gives a ha := hQ a ha (h.gives a ha)
  blames := h.blames

theorem mapM {as : List α} {f : α → Gen β} {R : α → β → Prop} (h : ∀ a ∈ as, Delivers P (R a) (f a)) :
    Delivers P (List.Forall₂ R as) (as.mapM f) := by
  induction as with
  | nil => exact .pure .nil
  | cons a as ih =>
    obtain ⟨ha, has⟩ := List.forall_mem_cons.1 h
    rw [List.mapM_cons]
    exact ha.bind fun b hb => (ih has).map fun bs hbs => .cons hb hbs

end Delivers

section

variable {l : StackLayout} {P : Location → Prop} (location : Location)

theorem slot_delivers (v : Var) : Delivers P (·.isNameless = true) (l.slot location v) := by
  unfold StackLayout.slot
  cases l.offset? v with
  | some below => exact .pure rfl
  | none =>
    refine ⟨nofun, ?_⟩
    rintro _ ⟨⟩ hv
    exact absurd rfl (hv v)

/-- An instruction on two operands without names. -/
theorem Instr.Written.binary {op : Binary} {target source : Operand} (ht : target.isNameless = true)
    (hs : source.isNameless = true) : (Instr.binary op target source).Written where
  operands := List.forall_mem_cons.2 ⟨ht, List.forall_mem_singleton.2 hs⟩
  target := nofun

theorem load_delivers (r : Reg) (v : Var) : Delivers P AllWritten (l.load location r v) :=
  (slot_delivers location v).map fun _ ho => .cons (.binary rfl ho) .nil

theorem store_delivers (v : Var) (r : Reg) : Delivers P AllWritten (l.store location v r) :=
  (slot_delivers location v).map fun _ ho => .cons (.binary ho rfl) .nil

theorem storeNumber_delivers (v : Var) (n : Int) : Delivers P AllWritten (l.storeNumber location v n) := by
  unfold StackLayout.storeNumber
  split
  · exact (slot_delivers location v).map fun _ ho => .cons (.binary ho rfl) .nil
  · exact (store_delivers location v .rax).map fun _ hs => .cons (.binary rfl rfl) hs

/-- The patterns for operators are written with registers and numbers. -/
theorem unaryPattern_written {b : Builtin} {is : List Instr} {r : Reg} (h : unaryPattern? b = some (is, r)) :
    AllWritten is := by
  have hall : ∀ j ∈ is, (∀ o ∈ j.operands, o.isNameless = true) ∧ j.target? = none := by
    cases b <;> cases h <;> decide
  exact fun j hj => ⟨(hall j hj).1, by rw [(hall j hj).2]; nofun⟩

theorem binaryPattern_written {b : Builtin} {is : List Instr} {r : Reg} (h : binaryPattern? b = some (is, r)) :
    AllWritten is := by
  have hall : ∀ j ∈ is, (∀ o ∈ j.operands, o.isNameless = true) ∧ j.target? = none := by
    cases b <;> cases h <;> decide
  exact fun j hj => ⟨(hall j hj).1, by rw [(hall j hj).2]; nofun⟩

variable {location}

theorem operatorCode_delivers (hl : P location) (b : Builtin) (arguments : List Var) (target : Var) :
    Delivers P AllWritten (operatorCode l location b arguments target) := by
  have hmissing : Delivers P AllWritten (throw (.at location (.noPattern b arguments.length))) := .throw (.at hl _)
  match arguments, hmissing with
  | [], hmissing | _ :: _ :: _ :: _, hmissing => exact hmissing
  | [v], hmissing =>
    unfold operatorCode
    cases hp : unaryPattern? b with
    | none => exact hmissing
    | some pattern =>
      refine (load_delivers location .rax v).bind fun loads hloads => ?_
      refine (store_delivers location target pattern.2).map fun stores hstores => ?_
      exact (hloads.append (unaryPattern_written hp)).append hstores
  | [v, w], hmissing =>
    unfold operatorCode
    refine (load_delivers location .rax v).bind fun left hleft => ?_
    refine (load_delivers location .rcx w).bind fun right hright => ?_
    cases hp : binaryPattern? b with
    | none => exact hmissing
    | some pattern =>
      refine (store_delivers location target pattern.2).map fun stores hstores => ?_
      exact ((hleft.append hright).append (binaryPattern_written hp)).append hstores

theorem loadArguments_delivers : ∀ (vs : List Var) (rs : List Reg),
    Delivers P AllWritten (loadArguments l location vs rs)
  | [], _ | _ :: _, [] => by
    simp only [loadArguments]
    exact .pure .nil
  | v :: vs, r :: rs =>
    (load_delivers location r v).bind fun _ hload =>
      (loadArguments_delivers vs rs).map fun _ hloads => hload.append hloads

theorem callCode_delivers (hl : P location) {name : String} (hname : IsField name) (arguments : List Var)
    (target : Var) : Delivers P AllWritten (callCode l location name arguments target) := by
  unfold callCode
  split
  · exact .throw (.at hl _)
  · have hcall : (Instr.call (.function name)).Written := by
      refine ⟨nofun, ?_⟩
      rintro _ ⟨⟩
      exact (printed_literal rfl).append hname.printed
    refine (loadArguments_delivers arguments _).bind fun loads hloads => ?_
    exact (store_delivers location target .rax).map fun stores hstores => hloads.append (.cons hcall hstores)

theorem label_printed (target : Label) : MadeOf isPrinted (labelSymbol target).text :=
  (printed_literal rfl).append (isField_label target).printed

/-- A jump to a name that is printed. -/
theorem Instr.Written.jump {s : Symbol} (h : MadeOf isPrinted s.text) : (Instr.jump s).Written where
  operands := nofun
  target := by
    rintro _ ⟨⟩
    exact h

theorem Instr.Written.jumpIf {c : Condition} {s : Symbol} (h : MadeOf isPrinted s.text) :
    (Instr.jumpIf c s).Written where
  operands := nofun
  target := by
    rintro _ ⟨⟩
    exact h

/-- What the code of an instruction is written with, and what is blamed where there is none. -/
theorem opCode_delivers (hl : P location) {op : Op} (h : op.Legible) :
    Delivers P AllWritten (opCode l location op) := by
  cases op with
  | loadInt n target | loadBool b target => exact storeNumber_delivers location target _
  | copy source target =>
    refine (load_delivers location .rax source).bind fun load hload => ?_
    exact (store_delivers location target .rax).map fun store hstore => hload.append hstore
  | call callee arguments target =>
    obtain ⟨name, rfl, hname⟩ := h.callee _ _ _ rfl
    simp only [opCode]
    split
    · exact operatorCode_delivers hl _ arguments target
    · exact callCode_delivers hl hname arguments target
  | label => exact .pure .nil
  | jump target => exact .pure (.cons (.jump (label_printed target)) .nil)
  | branch condition ifTrue ifFalse =>
    refine (slot_delivers location condition).map fun o ho => ?_
    exact .cons (.binary ho rfl) (.cons (.jumpIf (label_printed ifTrue)) (.cons (.jump (label_printed ifFalse)) .nil))
  | leave value =>
    have hexit : (Instr.jump exitSymbol).Written := .jump (printed_literal rfl)
    exact (load_delivers location .rax value).map fun load hload => hload.append (.cons hexit .nil)

end

/-! ## Lines -/

/-- Whether a line of a text is nothing but a comment. -/
def isCommentLine (line : List Char) : Bool := (line.dropWhile (· == ' ')).head? == some ';'

/-- Whether a text begins neither with a blank nor with a comment. -/
def beginsCode (text : String) : Bool :=
  match text.toList with
  | [] => false
  | c :: _ => c != ' ' && c != ';'

section

variable {s t : String}

/-- Whether a line is a comment shows in any part of it from its beginning that is not blank. -/
theorem isCommentLine_append (h : (s.toList.dropWhile (· == ' ')).isEmpty = false) (t : String) :
    isCommentLine (s ++ t).toList = isCommentLine s.toList := by
  rw [isCommentLine, isCommentLine, String.toList_append, List.dropWhile_append, h]
  cases hs : s.toList.dropWhile (· == ' ') with
  | nil =>
    rw [hs] at h
    cases h
  | cons c cs => rfl

theorem beginsCode_append (h : beginsCode s = true) (t : String) : beginsCode (s ++ t) = true := by
  unfold beginsCode at h ⊢
  rw [String.toList_append]
  cases hs : s.toList with
  | nil =>
    rw [hs] at h
    cases h
  | cons c cs =>
    rw [hs] at h
    exact h

theorem isCommentLine_code (h : beginsCode s = true) : isCommentLine s.toList = false := by
  unfold beginsCode at h
  unfold isCommentLine
  cases hs : s.toList with
  | nil => rfl
  | cons c cs =>
    rw [hs] at h
    obtain ⟨hblank, hcomment⟩ := Bool.and_eq_true_iff.1 h
    rw [List.dropWhile_cons_of_neg (by simpa using hblank), List.head?_cons]
    simpa using hcomment

theorem isCommentLine_indented (h : beginsCode s = true) : isCommentLine ("    " ++ s).toList = false := by
  have hblank : isCommentLine ("    " ++ s).toList = isCommentLine s.toList := by
    rw [String.toList_append, isCommentLine, isCommentLine]
    rfl
  rw [hblank, isCommentLine_code h]

end

theorem Instr.beginsCode (j : Instr) : Assembly.beginsCode j.text = true := by
  have word : ∀ {w : String}, Assembly.beginsCode w = true → ∀ t, Assembly.beginsCode (w ++ t) = true :=
    fun h => beginsCode_append h
  cases j with
  | plain op => cases op <;> rfl
  | unary op o => exact word (word (by cases op <;> rfl) _) _
  | binary op target source => exact word (word (word (word (by cases op <;> rfl) _) _) _) _
  | scale target source factor => exact word (word (word (word (word rfl _) _) _) _) _
  | setIf c target => exact word (word (word rfl _) _) _
  | call s => exact word rfl _
  | jump s => exact word rfl _
  | jumpIf c s => exact word (word (word rfl _) _) _

/-- Whether a line is printed as one line, and as a comment if and only if it is one. -/
structure Line.Clear (x : Line) : Prop where
  printed : MadeOf isPrinted x.text
  comment : isCommentLine x.text.toList = x.isComment

namespace Line.Clear

theorem blank : Line.blank.Clear := ⟨printed_literal rfl, rfl⟩

theorem note {text : String} (h : MadeOf isPrinted text) : (Line.note text).Clear where
  printed := (printed_literal rfl).append h
  comment := isCommentLine_append rfl text

theorem instr {j : Instr} (h : j.Written) : (Line.ofInstr j).Clear where
  printed := (printed_literal rfl).append h.printed
  comment := isCommentLine_indented j.beginsCode

theorem label {s : Symbol} (h : MadeOf isPrinted s.text) (hs : beginsCode s.text = true) : (Line.label s).Clear where
  printed := h.append (printed_literal rfl)
  comment := isCommentLine_code (beginsCode_append hs _)

theorem exported {s : Symbol} (h : MadeOf isPrinted s.text) : (Line.exported s).Clear where
  printed := (printed_literal rfl).append h
  comment := isCommentLine_code (beginsCode_append rfl _)

end Line.Clear

/-- Whether all of some lines are printed as they are. -/
def AllClear (lines : List Line) : Prop := ∀ x ∈ lines, x.Clear

namespace AllClear

variable {lines rest : List Line}

theorem nil : AllClear [] := List.forall_mem_nil _

theorem cons {x : Line} (hx : x.Clear) (h : AllClear lines) : AllClear (x :: lines) := List.forall_mem_cons.2 ⟨hx, h⟩

theorem append (h : AllClear lines) (h' : AllClear rest) : AllClear (lines ++ rest) :=
  List.forall_mem_append.2 ⟨h, h'⟩

theorem instructions {is : List Instr} (h : AllWritten is) : AllClear (is.map .ofInstr) := by
  intro x hx
  obtain ⟨j, hj, rfl⟩ := List.mem_map.1 hx
  exact .instr (h j hj)

end AllClear

theorem instructionLines_delivers {l : StackLayout} {i : Instruction} (h : i.op.Legible) :
    Delivers (· = i.location) AllClear (instructionLines l i) := by
  have hcode := opCode_delivers (l := l) (P := (· = i.location)) rfl h
  unfold instructionLines
  cases hop : i.op with
  | label target =>
    refine .pure (.cons (.label (label_printed target) ?_) .nil)
    exact beginsCode_append rfl _
  | _ =>
    rw [hop] at hcode
    exact hcode.map fun is his => .instructions his

end Exprc.Assembly
