/-
Well-formed code. Whatever a function refers to is there: its labels and its variables in the function
itself, and what it calls in the module. The interpreter, the stack layout and the assembler all rely on
this, and none of them checks all of it.
-/
import Exprc.Proofs.IR.Paths

namespace Exprc

/-- The number of operands or arguments that a built-in function takes. -/
def Builtin.arity (b : Builtin) : Nat :=
  match b.kind with
  | .arithmetic | .relational | .logical | .equality => 2
  | .negation | .logicalNegation => 1
  | .intrinsic => if b = .readInt then 0 else 1

/-- A signature has a type for each operand. -/
theorem Builtin.arity_of_signature {b : Builtin} {σ : Signature} (h : b.signature? = some σ) :
    b.arity = σ.parameters.length := by
  cases b <;> cases h <;> rfl

namespace IR

/-! ## Functions -/

/-- Whether code has a label. -/
def HasLabel (code : List Instruction) (l : Label) : Prop := ∃ i ∈ code, i.op = .label l

/-- Whether a function gives a variable its value: it is a parameter, or an instruction writes it. The
unit variable has its value always. -/
def Function.Defines (f : Function) (v : Var) : Prop :=
  v = .unit ∨ v ∈ f.parameters ∨ ∃ i ∈ f.code, v ∈ i.op.writes

/-- Whether a variable is a temporary with a number of a given range. -/
def Var.Within (low high : Nat) (v : Var) : Prop := ∃ k, low ≤ k ∧ k < high ∧ v = .temp k

/-- What an instruction of a function refers to is there: the labels that it can jump to and the variables
that it reads are those of the function, and what it calls can be called with as many arguments. It writes
temporaries with numbers of a given range. -/
structure Instruction.Proper (calls : String → Nat → Prop) (low high : Nat) (f : Function)
    (i : Instruction) : Prop where
  targets : ∀ l ∈ i.op.targets, HasLabel f.code l
  reads : ∀ v ∈ i.op.reads, f.Defines v
  writes : ∀ v ∈ i.op.writes, v.Within low high
  calls : ∀ callee arguments target, i.op = .call callee arguments target →
    ∃ x, callee = .named x ∧ calls x arguments.length

/-- All that a function refers to is there, and its variables are temporaries of a given range. -/
structure Function.Proper (calls : String → Nat → Prop) (low high : Nat) (f : Function) : Prop where
  parameters : ∀ v ∈ f.parameters, v.Within low high
  code : ∀ i ∈ f.code, i.Proper calls low high f
  result : f.Defines f.result

namespace Instruction.Proper

variable {calls : String → Nat → Prop} {low high : Nat} {f : Function} {location : Location}

theorem loadInt {value : Int64} {v : Var} (hv : v.Within low high) :
    Proper calls low high f ⟨location, .loadInt value v⟩ :=
  ⟨nofun, nofun, List.forall_mem_singleton.2 hv, nofun⟩

theorem loadBool {value : Bool} {v : Var} (hv : v.Within low high) :
    Proper calls low high f ⟨location, .loadBool value v⟩ :=
  ⟨nofun, nofun, List.forall_mem_singleton.2 hv, nofun⟩

theorem copy {v w : Var} (hv : f.Defines v) (hw : w.Within low high) :
    Proper calls low high f ⟨location, .copy v w⟩ :=
  ⟨nofun, List.forall_mem_singleton.2 hv, List.forall_mem_singleton.2 hw, nofun⟩

theorem call {x : String} {arguments : List Var} {w : Var} (hvs : ∀ v ∈ arguments, f.Defines v)
    (hx : calls x arguments.length) (hw : w.Within low high) :
    Proper calls low high f ⟨location, .call (.named x) arguments w⟩ := by
  refine ⟨nofun, hvs, List.forall_mem_singleton.2 hw, ?_⟩
  rintro _ _ _ ⟨⟩
  exact ⟨x, rfl, hx⟩

theorem label {l : Label} : Proper calls low high f ⟨location, .label l⟩ :=
  ⟨nofun, nofun, nofun, nofun⟩

theorem jump {l : Label} (hl : HasLabel f.code l) : Proper calls low high f ⟨location, .jump l⟩ :=
  ⟨List.forall_mem_singleton.2 hl, nofun, nofun, nofun⟩

theorem branch {v : Var} {a b : Label} (hv : f.Defines v) (ha : HasLabel f.code a)
    (hb : HasLabel f.code b) : Proper calls low high f ⟨location, .branch v a b⟩ :=
  ⟨List.forall_mem_cons.2 ⟨ha, List.forall_mem_singleton.2 hb⟩, List.forall_mem_singleton.2 hv, nofun,
    nofun⟩

theorem leave {v : Var} (hv : f.Defines v) : Proper calls low high f ⟨location, .leave v⟩ :=
  ⟨nofun, List.forall_mem_singleton.2 hv, nofun, nofun⟩

end Instruction.Proper

theorem Var.Within.mono {low low' high high' : Nat} {v : Var} (h : v.Within low high) (hl : low' ≤ low)
    (hh : high ≤ high') : v.Within low' high' := by
  obtain ⟨k, h₁, h₂, rfl⟩ := h
  exact ⟨k, Nat.le_trans hl h₁, Nat.lt_of_lt_of_le h₂ hh, rfl⟩

namespace Function.Proper

variable {calls : String → Nat → Prop} {low high : Nat} {f : Function}

theorem mono {low' high' : Nat} (h : f.Proper calls low high) (hl : low' ≤ low) (hh : high ≤ high') :
    f.Proper calls low' high' where
  parameters v hv := (h.parameters v hv).mono hl hh
  code i hi := { h.code i hi with writes := fun v hv => ((h.code i hi).writes v hv).mono hl hh }
  result := h.result

/-- What a proper function defines is the unit variable or a temporary of its range. -/
theorem within (h : f.Proper calls low high) {v : Var} (hv : f.Defines v) :
    v = .unit ∨ v.Within low high := by
  rcases hv with rfl | hv | ⟨i, hi, hv⟩
  · exact .inl rfl
  · exact .inr (h.parameters v hv)
  · exact .inr ((h.code i hi).writes v hv)

theorem not_named (h : f.Proper calls low high) {v : Var} (hv : f.Defines v) : v.isNamed = false := by
  rcases h.within hv with rfl | ⟨k, -, -, rfl⟩ <;> rfl

/-- The temporaries of a proper function are of its range. -/
theorem temp_range (h : f.Proper calls low high) {k : Nat} (hk : .temp k ∈ f.vars) :
    low ≤ k ∧ k < high := by
  have hdefines : f.Defines (.temp k) → low ≤ k ∧ k < high := by
    intro hd
    rcases h.within hd with hu | ⟨n, h₁, h₂, hn⟩
    · cases hu
    · cases hn
      exact ⟨h₁, h₂⟩
  rw [Function.vars, List.mem_append, List.mem_append] at hk
  rcases hk with (hk | hk) | hk
  · exact hdefines (.inr (.inl hk))
  · obtain ⟨i, hi, hk⟩ := List.mem_flatMap.1 hk
    -- the callee aside, an instruction has only variables that it reads or writes
    have hmem : .temp k ∈ i.op.reads ++ i.op.writes := by
      cases hop : i.op with
      | call callee arguments target =>
        obtain ⟨x, rfl, -⟩ := (h.code i hi).calls _ _ _ hop
        rw [hop] at hk
        exact (List.mem_cons.1 hk).resolve_left nofun
      | _ => rw [hop] at hk; exact hk
    rcases List.mem_append.1 hmem with hmem | hmem
    · exact hdefines ((h.code i hi).reads _ hmem)
    · exact hdefines (.inr (.inr ⟨i, hi, hmem⟩))
  · rw [List.mem_singleton.1 hk] at hdefines
    exact hdefines h.result

end Function.Proper

/-! ## Modules -/

/-- The number of arguments that what a name finds when it is called takes: a function of the module, or
else a built-in function. -/
def Module.arity? (m : Module) (x : String) : Option Nat :=
  match m.function? x with
  | some f => some f.parameters.length
  | none => (Builtin.ofName? x).map (·.arity)

/-- Whether a name can be called with some number of arguments. No call leads to the function in which a
run starts. -/
def Module.Takes (m : Module) (x : String) (n : Nat) : Prop := x ≠ entryPoint ∧ m.arity? x = some n

/-- A closed module: names of functions, labels and temporaries are unique as far as they have to be,
every function finds in itself and in the module what it refers to, and every function but the one in
which a run starts ends in an instruction that leaves it. -/
structure Module.WellFormed (m : Module) : Prop where
  nodup : (m.functions.map (·.name)).Nodup
  entry : ∃ fs f, m.functions = fs ++ [f] ∧ f.name = entryPoint
  labels : ∀ l, (m.functions.flatMap (·.code)).countP (·.op = .label l) ≤ 1
  targets : ∀ f ∈ m.functions, ∀ i ∈ f.code, ∀ l ∈ i.op.targets, HasLabel f.code l
  temps : m.functions.Pairwise fun f g => ∀ k, .temp k ∈ f.vars → .temp k ∉ g.vars
  parameters : ∀ f ∈ m.functions, ∀ v ∈ f.parameters, v.isTemp = true
  reads : ∀ f ∈ m.functions, ∀ i ∈ f.code, ∀ v ∈ i.op.reads, f.Defines v ∧ v.isNamed = false
  results : ∀ f ∈ m.functions, f.Defines f.result ∧ f.result.isNamed = false
  writes : ∀ f ∈ m.functions, ∀ i ∈ f.code, ∀ v ∈ i.op.writes, v.isTemp = true
  calls : ∀ f ∈ m.functions, ∀ i ∈ f.code, ∀ callee arguments target,
    i.op = .call callee arguments target → ∃ x, callee = .named x ∧ m.Takes x arguments.length
  leaves : ∀ f ∈ m.functions, f.name ≠ entryPoint → f.endsInLeave = true

end IR

end Exprc
