/-
What code generation demands, and what it gives. Each part of it looks up the slots of some variables. There
is code if and only if all of them have slots and there are registers or patterns for what is called; the
code uses no slots but theirs; and where a slot is missing it is one of theirs. All of this holds for any
layout of slots.
-/
import Exprc.Proofs.Assembly.Layout
import Exprc.Proofs.Assembly.Operators
import Exprc.Proofs.Assembly.Text
import Exprc.Proofs.IR.WellFormed

namespace Exprc

/-- An operator takes one operand or two. -/
theorem Builtin.arity_operator {b : Builtin} (hb : b.isIntrinsic = false) :
    b.arity = if b = .logicalNot ∨ b = .negate then 1 else 2 := by
  cases b <;> cases hb <;> rfl

namespace IR

/-! ## Demands -/

/-- Whether there is code for a call with some number of arguments: what is called has a name, operators
have patterns for as many operands as they take, and for all other calls there are six registers. -/
structure HasCallCode (callee : Var) (count : Nat) : Prop where
  named : callee.isNamed = true
  operator : ∀ b : Builtin, b.isIntrinsic = false → callee = .named b.name →
    count = if b = .logicalNot ∨ b = .negate then 1 else 2
  other : (∀ b : Builtin, b.isIntrinsic = false → callee ≠ .named b.name) → count ≤ 6

/-- Whether there is code for an instruction where some variables have slots. -/
structure Op.Translatable (slotted : Var → Prop) (op : Op) : Prop where
  accesses : ∀ v ∈ op.reads ++ op.writes, slotted v
  calls : ∀ callee arguments target, op = .call callee arguments target →
    HasCallCode callee arguments.length

/-- Whether there is code for a function where some variables have slots. The result of the function in
which a run starts is never looked at, and neither is that of a function that ends by leaving. -/
structure Function.Translatable (slotted : Var → Prop) (f : Function) : Prop where
  count : f.parameters.length ≤ 6
  parameters : ∀ v ∈ f.parameters, slotted v
  code : ∀ i ∈ f.code, i.op.Translatable slotted
  result : f.endsInLeave = false → f.isEntryPoint = false → slotted f.result

/-- An instruction that is no call demands slots alone. -/
theorem Op.translatable_iff {slotted : Var → Prop} {op : Op}
    (h : ∀ callee arguments target, op ≠ .call callee arguments target) :
    op.Translatable slotted ↔ ∀ v ∈ op.reads ++ op.writes, slotted v :=
  ⟨fun ht => ht.accesses, fun ha => ⟨ha, fun _ _ _ he => absurd he (h _ _ _)⟩⟩

theorem Op.translatable_call {slotted : Var → Prop} {callee target : Var} {arguments : List Var} :
    (Op.call callee arguments target).Translatable slotted ↔
      HasCallCode callee arguments.length ∧ (∀ v ∈ arguments, slotted v) ∧ slotted target := by
  have haccesses : (∀ v ∈ arguments ++ [target], slotted v) ↔ (∀ v ∈ arguments, slotted v) ∧ slotted target := by
    rw [List.forall_mem_append, List.forall_mem_singleton]
  constructor
  · intro ht
    exact ⟨ht.calls _ _ _ rfl, haccesses.1 ht.accesses⟩
  · rintro ⟨hcode, ha⟩
    refine ⟨haccesses.2 ha, ?_⟩
    rintro _ _ _ ⟨⟩
    exact hcode

end IR

namespace Assembly

open IR

/-! ## Variables of a function -/

section

variable {op : Op} {v : Var}

theorem vars_of_reads (h : v ∈ op.reads) : v ∈ op.vars := by
  cases op <;> simp_all [Op.reads, Op.vars]

theorem vars_of_writes (h : v ∈ op.writes) : v ∈ op.vars := by
  cases op <;> simp_all [Op.writes, Op.vars]

end

section

variable {f : IR.Function} {i : Instruction} {v : Var}

theorem mem_vars_of_parameter (hv : v ∈ f.parameters) : v ∈ f.vars :=
  List.mem_append_left _ (List.mem_append_left _ hv)

theorem mem_vars_of_code (hi : i ∈ f.code) (hv : v ∈ i.op.vars) : v ∈ f.vars :=
  List.mem_append_left _ (List.mem_append_right _ (List.mem_flatMap.2 ⟨i, hi, hv⟩))

theorem result_mem_vars (f : IR.Function) : f.result ∈ f.vars :=
  List.mem_append_right _ (List.mem_singleton.2 rfl)

end

/-! ## Calls -/

/-- The operator that a call of a name stands for. -/
theorem operator?_eq_some {name : String} {b : Builtin} :
    (Builtin.ofName? name).filter (!·.isIntrinsic) = some b ↔ b.isIntrinsic = false ∧ b.name = name := by
  rw [Option.filter_eq_some_iff, Bool.not_eq_true', and_comm]
  refine and_congr_right fun _ => ⟨fun h => ?_, fun h => h ▸ b.ofName?_name⟩
  simpa using List.find?_some h

theorem hasCallCode_operator {b : Builtin} (hb : b.isIntrinsic = false) {count : Nat} :
    HasCallCode (.named b.name) count ↔ count = b.arity := by
  rw [Builtin.arity_operator hb]
  refine ⟨fun h => h.operator b hb rfl, fun h => ⟨rfl, fun b' _ he => ?_, fun hne => absurd rfl (hne b hb)⟩⟩
  have hname : some b = some b' := by
    rw [← b.ofName?_name, ← b'.ofName?_name, Var.named.inj he]
  rwa [← Option.some.inj hname]

theorem hasCallCode_other {name : String} (hname : (Builtin.ofName? name).filter (!·.isIntrinsic) = none)
    {count : Nat} : HasCallCode (.named name) count ↔ count ≤ 6 := by
  have hne : ∀ b : Builtin, b.isIntrinsic = false → Var.named name ≠ .named b.name := by
    intro b hb he
    rw [operator?_eq_some.2 ⟨hb, (Var.named.inj he).symm⟩] at hname
    cases hname
  exact ⟨fun h => h.other hne, fun h => ⟨rfl, fun b hb he => absurd he (hne b hb), fun _ => h⟩⟩

/-! ## Code that passes control nowhere -/

/-- Whether control goes through some instructions from the first to the last. -/
def Straight (is : List Instr) : Prop := ∀ j ∈ is, j.target? = none

namespace Straight

theorem nil : Straight [] := List.forall_mem_nil _

theorem cons {j : Instr} {is : List Instr} (hj : j.target? = none) (h : Straight is) :
    Straight (j :: is) := List.forall_mem_cons.2 ⟨hj, h⟩

theorem binary {op : Binary} {target source : Operand} : Straight [.binary op target source] :=
  .cons rfl .nil

theorem append {is js : List Instr} (h : Straight is) (h' : Straight js) : Straight (is ++ js) :=
  List.forall_mem_append.2 ⟨h, h'⟩

end Straight

/-! ## Instructions that keep to a function -/

/-- The operands of an instruction. -/
def Instr.operands : Instr → List Operand
  | unary _ operand => [operand]
  | binary _ target source | scale target source _ => [target, source]
  | setIf _ target => [target]
  | plain _ | call _ | jump _ | jumpIf .. => []

/-- The symbol to which an instruction jumps. -/
def Instr.jump? : Instr → Option Symbol
  | jump s | jumpIf _ s => some s
  | _ => none

/-- Whether an operand is the slot of one of some variables. -/
def Operand.IsSlot (l : StackLayout) (used : Var → Prop) (o : Operand) : Prop :=
  ∃ v below, used v ∧ l.offset? v = some below ∧ o = .mem (some .qword) .rbp below

/-- Whether a register says where the frame of a function is. -/
def Reg.isFrame : Reg → Bool
  | rbp | rsp => true
  | _ => false

/-- Whether an operand is a register that says where the frame is. -/
def Operand.isFrame : Operand → Bool
  | reg r | low r => r.isFrame
  | _ => false

/-- Whether an instruction leaves the frame where it is: it has no register of the frame for an operand, puts
nothing on the stack and takes nothing from it. A call takes back what it puts there. -/
def Instr.keepsFrame : Instr → Bool
  | plain .ret | unary .push _ | unary .pop _ => false
  | j => j.operands.all (!·.isFrame)

/-- Whether an instruction keeps to the function that it belongs to: it touches no memory but the slots of
some variables, and jumps to nothing outside. -/
structure Instr.Contained (l : StackLayout) (used : Var → Prop) (j : Instr) : Prop where
  memory : ∀ o ∈ j.operands, o.isMemory = true → o.IsSlot l used
  jumps : ∀ s ∈ j.jump?, ∃ name, s = .inner name

/-- Whether an instruction keeps to its function and leaves the frame where it is. -/
structure Instr.Local (l : StackLayout) (used : Var → Prop) (j : Instr) : Prop
    extends j.Contained l used where
  frame : j.keepsFrame = true

section

variable {l : StackLayout} {used : Var → Prop} {v : Var} {below : Nat} {r : Reg}

/-- An instruction that passes control nowhere does not jump. -/
theorem Instr.jump?_of_target? {j : Instr} (h : j.target? = none) : j.jump? = none := by
  cases j <;> first | rfl | cases h

/-- Whether an instruction works on registers alone, none of them of the frame, and goes on to the next one. -/
def Instr.OnRegisters (j : Instr) : Prop :=
  (∀ o ∈ j.operands, o.isMemory = false) ∧ j.target? = none ∧ j.keepsFrame = true

instance (j : Instr) : Decidable j.OnRegisters := instDecidableAnd

theorem Instr.Contained.of_registers {j : Instr} (ho : ∀ o ∈ j.operands, o.isMemory = false)
    (hj : j.jump? = none) : j.Contained l used where
  memory o hmem hm := by rw [ho o hmem] at hm; cases hm
  jumps s hs := by rw [hj] at hs; cases hs

theorem Instr.OnRegisters.isLocal {j : Instr} (h : j.OnRegisters) : j.Local l used where
  toContained := .of_registers h.1 (jump?_of_target? h.2.1)
  frame := h.2.2

theorem Operand.IsSlot.isFrame {o : Operand} (h : o.IsSlot l used) : o.isFrame = false := by
  obtain ⟨_, _, -, -, rfl⟩ := h
  rfl

theorem Instr.keepsFrame_binary {op : Binary} {target source : Operand} :
    (Instr.binary op target source).keepsFrame = true ↔ target.isFrame = false ∧ source.isFrame = false := by
  simp [Instr.keepsFrame, Instr.operands]

/-- An instruction on a slot and an operand that is neither in memory nor of the frame. -/
theorem Instr.Local.load {op : Binary} {target source : Operand} (hm : target.isMemory = false)
    (ht : target.isFrame = false) (hs : source.IsSlot l used) : (Instr.binary op target source).Local l used where
  memory := by
    refine List.forall_mem_cons.2 ⟨fun h => ?_, List.forall_mem_singleton.2 fun _ => hs⟩
    rw [hm] at h
    cases h
  jumps := nofun
  frame := Instr.keepsFrame_binary.2 ⟨ht, hs.isFrame⟩

theorem Instr.Local.store {op : Binary} {target source : Operand} (ht : target.IsSlot l used)
    (hm : source.isMemory = false) (hs : source.isFrame = false) :
    (Instr.binary op target source).Local l used where
  memory := by
    refine List.forall_mem_cons.2 ⟨fun _ => ht, List.forall_mem_singleton.2 fun h => ?_⟩
    rw [hm] at h
    cases h
  jumps := nofun
  frame := Instr.keepsFrame_binary.2 ⟨ht.isFrame, hs⟩

theorem Instr.Local.jump (name : String) : (Instr.jump (.inner name)).Local l used where
  memory := nofun
  jumps := by
    rintro _ ⟨⟩
    exact ⟨name, rfl⟩
  frame := rfl

theorem Instr.Local.jumpIf (c : Condition) (name : String) : (Instr.jumpIf c (.inner name)).Local l used where
  memory := nofun
  jumps := by
    rintro _ ⟨⟩
    exact ⟨name, rfl⟩
  frame := rfl

end

/-- Whether all of some instructions keep to a function. -/
def AllLocal (l : StackLayout) (used : Var → Prop) (is : List Instr) : Prop := ∀ j ∈ is, j.Local l used

/-- Whether control goes through some instructions that keep to a function, from the first to the last. -/
def AllPassing (l : StackLayout) (used : Var → Prop) (is : List Instr) : Prop :=
  ∀ j ∈ is, j.Local l used ∧ j.target? = none

namespace AllPassing

variable {l : StackLayout} {used : Var → Prop} {is js : List Instr}

theorem isLocal (h : AllPassing l used is) : AllLocal l used is := fun j hj => (h j hj).1

theorem straight (h : AllPassing l used is) : Straight is := fun j hj => (h j hj).2

theorem append (h : AllPassing l used is) (h' : AllPassing l used js) : AllPassing l used (is ++ js) :=
  List.forall_mem_append.2 ⟨h, h'⟩

theorem of_registers (h : ∀ j ∈ is, j.OnRegisters) : AllPassing l used is :=
  fun j hj => ⟨(h j hj).isLocal, (h j hj).2.1⟩

end AllPassing

/-! ## Patterns for operators -/

section

variable {l : StackLayout} {used : Var → Prop} {b : Builtin} {is : List Instr} {r : Reg}

/-- There is a pattern for each operator on as many operands as it takes. -/
theorem pattern_ok (hb : b.isIntrinsic = false) :
    (b.arity = 1 ∧ ∃ is r, unaryPattern? b = some (is, r)) ∨
      b.arity = 2 ∧ ∃ is r, binaryPattern? b = some (is, r) := by
  cases b <;> cases hb
  case negate | logicalNot => exact .inl ⟨rfl, _, _, rfl⟩
  all_goals exact .inr ⟨rfl, _, _, rfl⟩

/-- The patterns for operators work on registers alone. -/
theorem unaryPattern_passing (h : unaryPattern? b = some (is, r)) :
    b.arity = 1 ∧ r.isFrame = false ∧ AllPassing l used is := by
  have hpattern : b.arity = 1 ∧ r.isFrame = false ∧ ∀ j ∈ is, j.OnRegisters := by
    cases b <;> cases h <;> decide
  exact ⟨hpattern.1, hpattern.2.1, .of_registers hpattern.2.2⟩

theorem binaryPattern_passing (h : binaryPattern? b = some (is, r)) :
    b.arity = 2 ∧ r.isFrame = false ∧ AllPassing l used is := by
  have hpattern : b.arity = 2 ∧ r.isFrame = false ∧ ∀ j ∈ is, j.OnRegisters := by
    cases b <;> cases h <;> decide
  exact ⟨hpattern.1, hpattern.2.1, .of_registers hpattern.2.2⟩

end

/-! ## What is known of a part of code generation -/

/-- Whether a variable has a slot. -/
def StackLayout.Covers (l : StackLayout) (v : Var) : Prop := ∃ below, l.offset? v = some below

/-- A part of code generation gives something if and only if `P` holds; what it gives has the property `Q`;
and if it fails for want of a slot, a variable that is used has none. -/
structure Meets {α : Type} (l : StackLayout) (used : Var → Prop) (P : Prop) (Q : α → Prop) (x : Gen α) :
    Prop where
  ok_iff : (∃ a, x = .ok a) ↔ P
  gives : ∀ a, x = .ok a → Q a
  lacks : ∀ location? v, x = .error ⟨location?, .noSlot v⟩ → used v ∧ ¬l.Covers v

namespace Meets

variable {α β : Type} {l : StackLayout} {used : Var → Prop} {P R : Prop} {Q : α → Prop} {S : β → Prop} {x : Gen α}

theorem pure {a : α} (h : Q a) : Meets l used True Q (pure a) where
  ok_iff := ⟨fun _ => trivial, fun _ => ⟨a, rfl⟩⟩
  gives := by
    rintro _ ⟨⟩
    exact h
  lacks := nofun

theorem throw {fault : Fault CodegenError} (h : ∀ v, fault.cause ≠ .noSlot v) :
    Meets l used False Q (throw fault) where
  ok_iff := ⟨nofun, False.elim⟩
  gives := nofun
  lacks := by
    rintro _ v ⟨⟩
    exact absurd rfl (h v)

theorem bind {next : α → Gen β} (h : Meets l used P Q x) (hnext : ∀ a, Q a → Meets l used R S (next a)) :
    Meets l used (P ∧ R) S (x >>= next) := by
  cases x with
  | ok a =>
    have hn := hnext a (h.gives a rfl)
    refine ⟨?_, hn.gives, hn.lacks⟩
    rw [and_iff_right (h.ok_iff.1 ⟨a, rfl⟩)]
    exact hn.ok_iff
  | error fault =>
    refine ⟨⟨nofun, fun hP => ?_⟩, nofun, fun location? v he => h.lacks location? v ?_⟩
    · obtain ⟨a, ha⟩ := h.ok_iff.2 hP.1
      cases ha
    · cases he
      rfl

theorem of_iff (h : Meets l used P Q x) (hR : P ↔ R) : Meets l used R Q x :=
  ⟨h.ok_iff.trans hR, h.gives, h.lacks⟩

theorem imp {Q' : α → Prop} (h : Meets l used P Q x) (hQ : ∀ a, Q a → Q' a) : Meets l used P Q' x :=
  ⟨h.ok_iff, fun a ha => hQ a (h.gives a ha), h.lacks⟩

theorem map {g : α → β} (h : Meets l used P Q x) (hg : ∀ a, Q a → S (g a)) :
    Meets l used P S (do return g (← x)) :=
  (h.bind fun a ha => .pure (hg a ha)).of_iff (and_iff_left trivial)

theorem mono {used' : Var → Prop} (h : Meets l used P Q x) (hused : ∀ v, used v → used' v) :
    Meets l used' P Q x :=
  ⟨h.ok_iff, h.gives, fun location? v he => (h.lacks location? v he).imp_left (hused v)⟩

end Meets

section

variable {l : StackLayout} {used : Var → Prop} {v : Var} {vs : List Var} (location : Location)

/-! ## Instructions -/

theorem slot_meets (hv : used v) : Meets l used (l.Covers v) (Operand.IsSlot l used) (l.slot location v) := by
  unfold StackLayout.slot
  cases h : l.offset? v with
  | some below =>
    exact (Meets.pure ⟨v, below, hv, h, rfl⟩).of_iff (iff_of_true trivial ⟨below, h⟩)
  | none =>
    have hlacks : ¬l.Covers v := by
      rintro ⟨below, hb⟩
      rw [h] at hb
      cases hb
    refine ⟨iff_of_false nofun hlacks, nofun, ?_⟩
    rintro _ _ ⟨⟩
    exact ⟨hv, hlacks⟩

theorem load_meets {r : Reg} (hr : r.isFrame = false) (hv : used v) :
    Meets l used (l.Covers v) (AllPassing l used) (l.load location r v) :=
  (slot_meets location hv).map fun _ ho => List.forall_mem_singleton.2 ⟨.load rfl hr ho, rfl⟩

theorem store_meets {r : Reg} (hr : r.isFrame = false) (hv : used v) :
    Meets l used (l.Covers v) (AllPassing l used) (l.store location v r) :=
  (slot_meets location hv).map fun _ ho => List.forall_mem_singleton.2 ⟨.store ho rfl hr, rfl⟩

theorem storeNumber_meets (n : Int) (hv : used v) :
    Meets l used (l.Covers v) (AllPassing l used) (l.storeNumber location v n) := by
  unfold StackLayout.storeNumber
  split
  · exact (slot_meets location hv).map fun _ ho => List.forall_mem_singleton.2 ⟨.store ho rfl rfl, rfl⟩
  · have hnumber : (Instr.binary .mov (.reg .rax) (.imm n)).OnRegisters :=
      ⟨List.forall_mem_cons.2 ⟨rfl, List.forall_mem_singleton.2 rfl⟩, rfl, rfl⟩
    exact (store_meets location rfl hv).map fun _ hs => List.forall_mem_cons.2 ⟨⟨hnumber.isLocal, rfl⟩, hs⟩

theorem operatorCode_meets {b : Builtin} (hb : b.isIntrinsic = false) (hvs : ∀ w ∈ vs, used w) (hv : used v) :
    Meets l used (vs.length = b.arity ∧ (∀ w ∈ vs, l.Covers w) ∧ l.Covers v) (AllPassing l used)
      (operatorCode l location b vs v) := by
  -- there is no code for another number of operands
  have hmissing : ∀ {n : Nat} {R : Prop}, n ≠ b.arity →
      Meets l used (n = b.arity ∧ R) (AllPassing l used) (throw (.at location (.noPattern b n))) :=
    fun hn => (Meets.throw (by rintro _ ⟨⟩)).of_iff (iff_of_false id fun h => hn h.1)
  match vs with
  | [] => exact hmissing (by rw [Builtin.arity_operator hb]; split <;> decide)
  | [x] =>
    rw [List.forall_mem_singleton] at hvs
    simp only [operatorCode]
    cases hp : unaryPattern? b with
    | none =>
      refine hmissing fun hone => ?_
      rcases pattern_ok hb with ⟨-, is, r, hsome⟩ | ⟨htwo, -⟩
      · rw [hp] at hsome
        cases hsome
      · rw [htwo] at hone
        cases hone
    | some pattern =>
      obtain ⟨is, r⟩ := pattern
      obtain ⟨hone, hr, his⟩ : b.arity = 1 ∧ r.isFrame = false ∧ AllPassing l used is := unaryPattern_passing hp
      refine ((load_meets location rfl hvs).bind fun loads hloads =>
        (store_meets location hr hv).map fun stores hstores => ?_).of_iff ?_
      · exact (hloads.append his).append hstores
      · rw [hone, List.forall_mem_singleton]
        exact (and_iff_right rfl).symm
  | [x, y] =>
    rw [List.forall_mem_cons, List.forall_mem_singleton] at hvs
    simp only [operatorCode]
    refine ((load_meets (l := l) location rfl hvs.1).bind fun left hleft =>
      (load_meets (l := l) location rfl hvs.2).bind (R := b.arity = 2 ∧ l.Covers v) fun right hright => ?_).of_iff
        ?_
    · cases hp : binaryPattern? b with
      | none =>
        refine (Meets.throw (by rintro _ ⟨⟩)).of_iff (iff_of_false id fun h => ?_)
        rcases pattern_ok hb with ⟨hone, -⟩ | ⟨-, is, r, hsome⟩
        · rw [hone] at h
          cases h.1
        · rw [hp] at hsome
          cases hsome
      | some pattern =>
        obtain ⟨is, r⟩ := pattern
        obtain ⟨htwo, hr, his⟩ : b.arity = 2 ∧ r.isFrame = false ∧ AllPassing l used is := binaryPattern_passing hp
        refine ((store_meets location hr hv).map fun stores hstores => ?_).of_iff (and_iff_right htwo).symm
        exact ((hleft.append hright).append his).append hstores
    · rw [List.forall_mem_cons, List.forall_mem_singleton]
      constructor
      · rintro ⟨hx, hy, htwo, hcovers⟩
        exact ⟨htwo.symm, ⟨hx, hy⟩, hcovers⟩
      · rintro ⟨htwo, ⟨hx, hy⟩, hcovers⟩
        exact ⟨hx, hy, htwo.symm, hcovers⟩
  | x :: y :: z :: vs =>
    refine hmissing ?_
    rw [Builtin.arity_operator hb]
    split <;> simp

theorem loadArguments_meets {rs : List Reg} (hn : vs.length ≤ rs.length) (hrs : ∀ r ∈ rs, r.isFrame = false)
    (hvs : ∀ w ∈ vs, used w) :
    Meets l used (∀ w ∈ vs, l.Covers w) (AllPassing l used) (loadArguments l location vs rs) := by
  induction vs generalizing rs with
  | nil => exact (Meets.pure (List.forall_mem_nil _)).of_iff (iff_of_true trivial (List.forall_mem_nil _))
  | cons v vs ih =>
    cases rs with
    | nil => cases hn
    | cons r rs =>
      rw [List.forall_mem_cons] at hvs hrs
      refine ((load_meets location hrs.1 hvs.1).bind fun load hload =>
        (ih (Nat.le_of_succ_le_succ hn) hrs.2 hvs.2).map fun loads hloads => ?_).of_iff List.forall_mem_cons.symm
      exact hload.append hloads

theorem callCode_meets (name : String) (hvs : ∀ w ∈ vs, used w) (hv : used v) :
    Meets l used (vs.length ≤ 6 ∧ (∀ w ∈ vs, l.Covers w) ∧ l.Covers v) (AllLocal l used)
      (callCode l location name vs v) := by
  unfold callCode
  split
  · rename_i hn
    exact (Meets.throw (by rintro _ ⟨⟩)).of_iff (iff_of_false id fun h => Nat.not_lt.2 h.1 hn)
  · rename_i hn
    rw [Nat.not_lt] at hn
    refine ((loadArguments_meets location hn (by decide) hvs).bind fun loads hloads =>
      (store_meets location rfl hv).map fun stores hstores => ?_).of_iff (and_iff_right hn).symm
    exact List.forall_mem_append.2 ⟨hloads.isLocal, List.forall_mem_cons.2 ⟨⟨⟨nofun, nofun⟩, rfl⟩, hstores.isLocal⟩⟩

/-- What is known of the code of an instruction. -/
theorem opCode_meets {op : Op} (hop : ∀ v ∈ op.reads ++ op.writes, used v) :
    Meets l used (op.Translatable l.Covers) (AllLocal l used) (opCode l location op) := by
  cases op with
  | loadInt n target | loadBool b target =>
    refine Meets.of_iff ?_ (Op.translatable_iff (by rintro _ _ _ ⟨⟩)).symm
    have htarget : used target := hop target List.mem_cons_self
    exact ((storeNumber_meets location _ htarget).imp fun _ h => h.isLocal).of_iff List.forall_mem_singleton.symm
  | copy source target =>
    refine Meets.of_iff ?_ (Op.translatable_iff (by rintro _ _ _ ⟨⟩)).symm
    refine ((load_meets location rfl (hop source List.mem_cons_self)).bind fun load hload =>
      (store_meets location rfl (hop target ?_)).map fun store hstore => ?_).of_iff ?_
    · exact List.mem_cons_of_mem _ List.mem_cons_self
    · exact (hload.append hstore).isLocal
    · exact (List.forall_mem_cons.trans (and_congr_right' List.forall_mem_singleton)).symm
  | call callee arguments target =>
    rw [Op.translatable_call]
    have harguments : ∀ v ∈ arguments, used v := fun v hv => hop v (List.mem_append_left _ hv)
    have htarget : used target := hop target (List.mem_append_right _ (List.mem_singleton.2 rfl))
    cases callee with
    | temp | unit => exact (Meets.throw (by rintro _ ⟨⟩)).of_iff (iff_of_false id fun h => by cases h.1.named)
    | named name =>
      simp only [opCode]
      cases hb : (Builtin.ofName? name).filter (!·.isIntrinsic) with
      | some b =>
        obtain ⟨hoperator, rfl⟩ := operator?_eq_some.1 hb
        rw [hasCallCode_operator hoperator]
        exact (operatorCode_meets location hoperator harguments htarget).imp fun _ h => h.isLocal
      | none =>
        rw [hasCallCode_other hb]
        exact callCode_meets location name harguments htarget
  | label =>
    refine Meets.of_iff ?_ (Op.translatable_iff (by rintro _ _ _ ⟨⟩)).symm
    exact (Meets.pure (List.forall_mem_nil _)).of_iff (iff_of_true trivial (List.forall_mem_nil _))
  | jump target =>
    refine Meets.of_iff ?_ (Op.translatable_iff (by rintro _ _ _ ⟨⟩)).symm
    exact (Meets.pure (List.forall_mem_singleton.2 (.jump _))).of_iff
      (iff_of_true trivial (List.forall_mem_nil _))
  | branch condition ifTrue ifFalse =>
    refine Meets.of_iff ?_ (Op.translatable_iff (by rintro _ _ _ ⟨⟩)).symm
    refine ((slot_meets location (hop condition List.mem_cons_self)).map fun o ho => ?_).of_iff
      List.forall_mem_singleton.symm
    exact List.forall_mem_cons.2 ⟨.store ho rfl rfl,
      List.forall_mem_cons.2 ⟨.jumpIf _ _, List.forall_mem_singleton.2 (.jump _)⟩⟩
  | leave value =>
    refine Meets.of_iff ?_ (Op.translatable_iff (by rintro _ _ _ ⟨⟩)).symm
    refine ((load_meets location rfl (hop value List.mem_cons_self)).map fun load hload => ?_).of_iff
      List.forall_mem_singleton.symm
    exact List.forall_mem_append.2 ⟨hload.isLocal, List.forall_mem_singleton.2 (.jump _)⟩

end

/-! ## Functions -/

/-- The instruction in a line. -/
def Line.instr? : Line → Option Instr
  | instr i _ => some i
  | _ => none

/-- Whether all instructions in some lines keep to a function. -/
def LocalLines (l : StackLayout) (used : Var → Prop) (lines : List Line) : Prop :=
  ∀ x ∈ lines, ∀ j ∈ x.instr?, j.Local l used

section

variable {l : StackLayout} {used : Var → Prop} {o : Options} {lines rest : List Line}

namespace LocalLines

theorem nil : LocalLines l used [] := List.forall_mem_nil _

theorem append (h : LocalLines l used lines) (h' : LocalLines l used rest) :
    LocalLines l used (lines ++ rest) := List.forall_mem_append.2 ⟨h, h'⟩

theorem label (s : Symbol) : LocalLines l used [.label s] :=
  List.forall_mem_singleton.2 (by rintro _ ⟨⟩)

theorem note (o : Options) (text : String) : LocalLines l used (o.note text) := by
  unfold Options.note
  split
  · exact List.forall_mem_singleton.2 (by rintro _ ⟨⟩)
  · exact nil

theorem instructions {is : List Instr} (h : AllLocal l used is) : LocalLines l used (is.map .ofInstr) := by
  intro x hx
  obtain ⟨j, hj, rfl⟩ := List.mem_map.1 hx
  rintro _ ⟨⟩
  exact h j hj

end LocalLines

theorem instructionLines_meets {i : Instruction} (hi : ∀ v ∈ i.op.reads ++ i.op.writes, used v) :
    Meets l used (i.op.Translatable l.Covers) (LocalLines l used) (instructionLines l i) := by
  have hmeets := opCode_meets (l := l) i.location hi
  unfold instructionLines
  cases hop : i.op with
  | label target =>
    rw [hop] at hmeets
    exact (Meets.pure (.label _)).of_iff (iff_of_true trivial (hmeets.ok_iff.1 ⟨[], rfl⟩))
  | _ =>
    rw [hop] at hmeets
    exact hmeets.map fun is his => .instructions his

theorem codeLines_meets {code : List Instruction} (hcode : ∀ i ∈ code, ∀ v ∈ i.op.reads ++ i.op.writes, used v) :
    Meets l used (∀ i ∈ code, i.op.Translatable l.Covers) (LocalLines l used) (codeLines o l code) := by
  induction code with
  | nil => exact (Meets.pure .nil).of_iff (iff_of_true trivial (List.forall_mem_nil _))
  | cons i code ih =>
    rw [List.forall_mem_cons] at hcode
    refine ((instructionLines_meets hcode.1).bind fun lines hlines =>
      (ih hcode.2).map fun rest hrest => ?_).of_iff (by rw [List.forall_mem_cons])
    exact ((LocalLines.note o _).append hlines).append hrest

theorem storeParameters_meets {vs : List Var} {rs : List Reg} (hn : vs.length ≤ rs.length)
    (hrs : ∀ r ∈ rs, r.isFrame = false) (hvs : ∀ v ∈ vs, used v) :
    Meets l used (∀ v ∈ vs, l.Covers v) (LocalLines l used) (storeParameters o l vs rs) := by
  induction vs generalizing rs with
  | nil => exact (Meets.pure .nil).of_iff (iff_of_true trivial (List.forall_mem_nil _))
  | cons v vs ih =>
    cases rs with
    | nil => cases hn
    | cons r rs =>
      rw [List.forall_mem_cons] at hvs hrs
      refine ((store_meets .nowhere hrs.1 hvs.1).bind fun store hstore =>
        (ih (Nat.le_of_succ_le_succ hn) hrs.2 hvs.2).map fun rest hrest => ?_).of_iff List.forall_mem_cons.symm
      exact ((LocalLines.note o _).append (.instructions hstore.isLocal)).append hrest

theorem resultCode_meets {f : IR.Function} (hf : used f.result) :
    Meets l used (f.endsInLeave = false → f.isEntryPoint = false → l.Covers f.result) (AllPassing l used)
      (resultCode l f) := by
  unfold resultCode
  split
  · rename_i hleave
    exact (Meets.pure (List.forall_mem_nil _)).of_iff (iff_of_true trivial fun h => by rw [hleave] at h; cases h)
  · rename_i hleave
    split
    · rename_i hentry
      have hsuccess : (Instr.binary .mov (.reg .rax) (.imm 0)).OnRegisters := by decide
      exact (Meets.pure (List.forall_mem_singleton.2 ⟨hsuccess.isLocal, rfl⟩)).of_iff
        (iff_of_true trivial fun _ h => by rw [hentry] at h; cases h)
    · rename_i hentry
      refine (load_meets .nowhere rfl hf).of_iff ⟨fun h _ _ => h, fun h => h ?_ ?_⟩
      · simpa using hleave
      · simpa using hentry

/-- The lines of a function: its name, its frame, lines that keep to it, and its end. -/
def Framed (l : StackLayout) (used : Var → Prop) (f : IR.Function) (lines : List Line) : Prop :=
  ∃ body, LocalLines l used body ∧
    lines = .exported (.function f.name) :: .label (.function f.name) ::
      ((prologue l).map .ofInstr ++ body ++ epilogue)

/-- What is known of the lines of a function. -/
theorem functionLines_meets {f : IR.Function} (hf : ∀ v ∈ f.vars, used v) :
    Meets l used (f.Translatable l.Covers) (Framed l used f) (functionLines o l f) := by
  unfold functionLines
  split
  · rename_i hn
    exact (Meets.throw (by rintro _ ⟨⟩)).of_iff (iff_of_false id fun h => Nat.not_lt.2 h.count hn)
  · rename_i hn
    rw [Nat.not_lt] at hn
    have hparameters : ∀ v ∈ f.parameters, used v := fun v hv => hf v (mem_vars_of_parameter hv)
    have hcode : ∀ i ∈ f.code, ∀ v ∈ i.op.reads ++ i.op.writes, used v := fun i hi v hv => by
      rcases List.mem_append.1 hv with hv | hv
      · exact hf v (mem_vars_of_code hi (vars_of_reads hv))
      · exact hf v (mem_vars_of_code hi (vars_of_writes hv))
    refine ((storeParameters_meets hn (by decide) hparameters).bind fun parameters hp =>
      (codeLines_meets hcode).bind fun code hc =>
      (resultCode_meets (hf _ (result_mem_vars f))).map fun result hr => ?_).of_iff ?_
    · exact ⟨parameters ++ code ++ result.map .ofInstr, (hp.append hc).append (.instructions hr.isLocal), by simp⟩
    · exact ⟨fun ⟨hp, hc, hr⟩ => ⟨hn, hp, hc, hr⟩, fun h => ⟨h.parameters, h.code, h.result⟩⟩

/-! ## Modules -/

theorem functionsLines_meets (fs : List IR.Function) :
    Meets l (fun v => ∃ f ∈ fs, v ∈ f.vars) (∀ f ∈ fs, f.Translatable l.Covers)
      (List.Forall₂ (fun f lines => Framed l (· ∈ f.vars) f lines) fs) (fs.mapM (functionLines o l)) := by
  induction fs with
  | nil => exact (Meets.pure .nil).of_iff (iff_of_true trivial (List.forall_mem_nil _))
  | cons f fs ih =>
    rw [List.mapM_cons]
    have hfirst := functionLines_meets (o := o) (l := l) (f := f) fun _ hv => hv
    refine ((hfirst.mono fun v hv => ⟨f, List.mem_cons_self, hv⟩).bind fun lines hlines =>
      (ih.mono fun v hv => ?_).map fun blocks hblocks => .cons hlines hblocks).of_iff (by rw [List.forall_mem_cons])
    obtain ⟨g, hg, hv⟩ := hv
    exact ⟨g, List.mem_cons_of_mem _ hg, hv⟩

/-- What is known of the assembly of a module. -/
theorem generate_meets (o : Options) (m : IR.Module) :
    Meets (.ofModule m) (· ∈ m.vars) (∀ f ∈ m.functions, f.Translatable (StackLayout.ofModule m).Covers)
      (fun text => ∃ blocks, List.Forall₂ (fun f lines => Framed (.ofModule m) (· ∈ f.vars) f lines) m.functions
        blocks ∧ text = header ++ [Line.blank].intercalate blocks) (generate o m) := by
  have hfunctions := functionsLines_meets (o := o) (l := .ofModule m) m.functions
  exact (hfunctions.mono fun v hv => List.mem_flatMap.2 hv).map fun blocks hblocks => ⟨blocks, hblocks, rfl⟩

end

end Assembly

end Exprc
