/-
In a closed module every variable has a slot and every operator a pattern for its operands. So code
generation can only fail where there are not enough registers: for the parameters of a function, or for the
arguments of a call of it. What the code passes control to is a label of the same function, the end of that
function, another function, or a routine.
-/
import Exprc.Proofs.Assembly.Demands

namespace Exprc

namespace Assembly

open IR

/-! ## Modules that have assembly -/

/-- A closed module in which no function has the name of a built-in function. -/
structure Unambiguous (m : IR.Module) : Prop where
  wellFormed : m.WellFormed
  builtins : ∀ b : Builtin, m.function? b.name = none

/-- A closed module that has assembly: no function has the name of a built-in function or of the place
where a program starts, and none takes more parameters than there are registers for. Control leaves the
function in which a run starts only at the end of its code. -/
structure Compilable (m : IR.Module) : Prop where
  wellFormed : m.WellFormed
  stays : ∀ f ∈ m.functions, f.isEntryPoint = true → ∀ i ∈ f.code, i.op.isLeave = false
  builtins : ∀ b : Builtin, m.function? b.name = none
  parameters : ∀ f ∈ m.functions, f.parameters.length ≤ Reg.arguments.length
  start : ∀ f ∈ m.functions, f.name ≠ "_start"

theorem Compilable.unambiguous {m : IR.Module} (h : Compilable m) : Unambiguous m :=
  ⟨h.wellFormed, h.builtins⟩

/-- Why an unambiguous module can have no assembly: it has a function with more parameters than there are
registers for, or a call of such a function. -/
inductive Crowded (m : IR.Module) : Fault CodegenError → Prop
  | parameters {f : IR.Function} : f ∈ m.functions → Reg.arguments.length < f.parameters.length →
      Crowded m (.unlocated (.tooManyParameters f.name f.parameters.length))
  | arguments {f : IR.Function} {location : Location} : f ∈ m.functions →
      Reg.arguments.length < f.parameters.length →
      Crowded m (.at location (.tooManyArguments f.name f.parameters.length))

/-- A part of code generation gives what has a property, or fails because a function has too many
parameters. -/
def Emits {α : Type} (m : IR.Module) (x : Gen α) (P : α → Prop) : Prop :=
  (∃ a, x = .ok a ∧ P a) ∨ ∃ fault, x = .error fault ∧ Crowded m fault

theorem Crowded.exists_function {m : IR.Module} {fault : Fault CodegenError} (h : Crowded m fault) :
    ∃ f ∈ m.functions, Reg.arguments.length < f.parameters.length := by
  cases h with
  | parameters hf hn => exact ⟨_, hf, hn⟩
  | arguments hf hn => exact ⟨_, hf, hn⟩

namespace Emits

variable {α β : Type} {m : IR.Module} {x : Gen α} {P : α → Prop}

theorem of_ok {a : α} (hx : x = .ok a) (ha : P a) : Emits m x P := .inl ⟨a, hx, ha⟩

theorem of_error {fault : Fault CodegenError} (hx : x = .error fault) (h : Crowded m fault) :
    Emits m x P := .inr ⟨fault, hx, h⟩

theorem bind {next : α → Gen β} {Q : β → Prop} (h : Emits m x P)
    (hnext : ∀ a, P a → Emits m (next a) Q) : Emits m (x >>= next) Q := by
  rcases h with ⟨a, rfl, ha⟩ | ⟨fault, rfl, hfault⟩
  · exact hnext a ha
  · exact .of_error rfl hfault

theorem gives (h : Emits m x P) {a : α} (hx : x = .ok a) : P a := by
  subst hx
  rcases h with ⟨_, ⟨⟩, ha⟩ | ⟨_, ⟨⟩, -⟩
  exact ha

/-- There are registers for the parameters of every function. -/
theorem ok (h : Emits m x P) (hm : ∀ f ∈ m.functions, f.parameters.length ≤ Reg.arguments.length) :
    ∃ a, x = .ok a ∧ P a := by
  rcases h with h | ⟨fault, -, hfault⟩
  · exact h
  · obtain ⟨f, hf, hn⟩ := hfault.exists_function
    exact absurd (hm f hf) (Nat.not_le.2 hn)

end Emits

/-- What code of a function may pass control to. -/
inductive Refers (m : IR.Module) (f : IR.Function) : Symbol → Prop
  | label {l : Label} : HasLabel f.code l → Refers m f (labelSymbol l)
  | exit : Refers m f exitSymbol
  | function {g : IR.Function} : g ∈ m.functions → Refers m f (.function g.name)
  | routine {name : String} : name ∈ routineNames → Refers m f (.function name)

namespace Unambiguous

variable {m : IR.Module} {f : IR.Function} {i : Instruction} {v : Var}

/-- What an instruction reads has a slot. -/
theorem read_slot (h : Unambiguous m) (hf : f ∈ m.functions) (hi : i ∈ f.code) (hv : v ∈ i.op.reads) :
    ∃ below, (StackLayout.ofModule m).offset? v = some below :=
  StackLayout.offset?_ofModule hf (mem_vars_of_code hi (vars_of_reads hv))
    (h.wellFormed.reads f hf i hi v hv).2

/-- What an instruction writes has a slot. -/
theorem write_slot (h : Unambiguous m) (hf : f ∈ m.functions) (hi : i ∈ f.code) (hv : v ∈ i.op.writes) :
    ∃ below, (StackLayout.ofModule m).offset? v = some below := by
  have htemp := h.wellFormed.writes f hf i hi v hv
  refine StackLayout.offset?_ofModule hf (mem_vars_of_code hi (vars_of_writes hv)) ?_
  cases v <;> cases htemp
  rfl

theorem parameter_slot (h : Unambiguous m) (hf : f ∈ m.functions) (hv : v ∈ f.parameters) :
    ∃ below, (StackLayout.ofModule m).offset? v = some below := by
  have htemp := h.wellFormed.parameters f hf v hv
  refine StackLayout.offset?_ofModule hf (mem_vars_of_parameter hv) ?_
  cases v <;> cases htemp
  rfl

theorem result_slot (h : Unambiguous m) (hf : f ∈ m.functions) :
    ∃ below, (StackLayout.ofModule m).offset? f.result = some below :=
  StackLayout.offset?_ofModule hf (result_mem_vars f) (h.wellFormed.results f hf).2

/-- What a call finds: a function of the module, which takes as many parameters as there are arguments, or
else a built-in function that does. -/
theorem callee (h : Unambiguous m) {name : String} {n : Nat} (hn : m.arity? name = some n) :
    (∃ g ∈ m.functions, g.name = name ∧ m.function? name = some g ∧ Builtin.ofName? name = none ∧
      g.parameters.length = n) ∨
      ∃ b : Builtin, b.name = name ∧ m.function? name = none ∧ Builtin.ofName? name = some b ∧
        b.arity = n := by
  unfold IR.Module.arity? at hn
  cases hg : m.function? name with
  | some g =>
    rw [hg] at hn
    refine .inl ⟨g, List.mem_of_find?_eq_some hg, by simpa using List.find?_some hg, rfl, ?_,
      Option.some.inj hn⟩
    refine Option.eq_none_iff_forall_ne_some.2 fun b hb => ?_
    have hname : b.name = name := by simpa using List.find?_some hb
    rw [← hname, h.builtins b] at hg
    cases hg
  | none =>
    rw [hg] at hn
    obtain ⟨b, hb, hn⟩ := Option.map_eq_some_iff.1 hn
    exact .inr ⟨b, by simpa using List.find?_some hb, rfl, hb, hn⟩

end Unambiguous

/-! ## Code of closed modules -/

section

variable {l : StackLayout} {v : Var} {vs : List Var} {below : Nat} (location : Location)

/-- Code through which control goes exists where its demands are met. -/
theorem Meets.straight {P : Prop} {x : Gen (List Instr)}
    (h : Meets l (fun _ => True) P (AllPassing l fun _ => True) x) (hP : P) : ∃ is, x = .ok is ∧ Straight is := by
  obtain ⟨is, his⟩ := h.ok_iff.2 hP
  exact ⟨is, his, (h.gives is his).straight⟩

/-- Arguments are loaded by moves. -/
theorem loadArguments_ok (hn : vs.length ≤ Reg.arguments.length)
    (h : ∀ v ∈ vs, ∃ below, l.offset? v = some below) :
    ∃ is, loadArguments l location vs Reg.arguments = .ok is ∧ Straight is :=
  (loadArguments_meets location hn (by decide) fun _ _ => trivial).straight h

/-- A number is stored by a move, or by two. -/
theorem storeNumber_ok (h : l.offset? v = some below) (n : Int) :
    ∃ is, l.storeNumber location v n = .ok is ∧ Straight is :=
  (storeNumber_meets location n trivial).straight ⟨below, h⟩

/-- There is code for each operator on as many variables as it takes operands. -/
theorem operatorCode_ok {b : Builtin} (hb : b.isIntrinsic = false) (hn : b.arity = vs.length)
    (h : ∀ w ∈ vs, ∃ below, l.offset? w = some below) (hv : l.offset? v = some below) :
    ∃ is, operatorCode l location b vs v = .ok is ∧ Straight is :=
  (operatorCode_meets location hb (fun _ _ => trivial) trivial).straight ⟨hn.symm, h, below, hv⟩

end

/-! ## Instructions -/

section

variable {m : IR.Module} {f : IR.Function} {i : Instruction}

theorem Straight.refers {is : List Instr} (h : Straight is) :
    ∀ j ∈ is, ∀ s ∈ j.target?, Refers m f s := by
  intro j hj s hs
  rw [h j hj] at hs
  cases hs

theorem Refers.target {s : Symbol} (h : Refers m f s) {j : Instr} (hj : j.target? = some s) :
    ∀ s ∈ j.target?, Refers m f s := by
  rw [hj]
  rintro _ ⟨⟩
  exact h

/-- There is code for each instruction, unless it calls a function with too many parameters. -/
theorem opCode_emits (h : Unambiguous m) (hf : f ∈ m.functions) (hi : i ∈ f.code) :
    Emits m (opCode (.ofModule m) i.location i.op) fun is =>
      ∀ j ∈ is, ∀ s ∈ j.target?, Refers m f s := by
  have hreads := fun v => h.read_slot (v := v) hf hi
  have hwrites := fun v => h.write_slot (v := v) hf hi
  have htargets := h.wellFormed.targets f hf i hi
  have hcalls := h.wellFormed.calls f hf i hi
  cases hop : i.op with
  | loadInt n target =>
    rw [hop] at hwrites
    obtain ⟨below, ht⟩ := hwrites target List.mem_cons_self
    obtain ⟨is, his, hs⟩ := storeNumber_ok i.location ht n.toInt
    exact .of_ok his hs.refers
  | loadBool b target =>
    rw [hop] at hwrites
    obtain ⟨below, ht⟩ := hwrites target List.mem_cons_self
    obtain ⟨is, his, hs⟩ := storeNumber_ok i.location ht (if b then 1 else 0)
    exact .of_ok his hs.refers
  | copy source target =>
    rw [hop] at hreads hwrites
    obtain ⟨k, hs⟩ := hreads source List.mem_cons_self
    obtain ⟨below, ht⟩ := hwrites target List.mem_cons_self
    simp only [opCode, load_eq hs, store_eq ht]
    exact .of_ok rfl (Straight.binary.append .binary).refers
  | call callee arguments target =>
    rw [hop] at hreads hwrites
    obtain ⟨below, ht⟩ := hwrites target List.mem_cons_self
    obtain ⟨name, rfl, -, hn⟩ := hcalls callee arguments target hop
    have harguments : ∀ v ∈ arguments, ∃ below, (StackLayout.ofModule m).offset? v = some below := hreads
    -- the code of a call, if it has registers for its arguments
    have hcall : arguments.length ≤ Reg.arguments.length → Refers m f (.function name) →
        Emits m (callCode (.ofModule m) i.location name arguments target) fun is =>
          ∀ j ∈ is, ∀ s ∈ j.target?, Refers m f s := by
      intro hle hrefers
      obtain ⟨loads, hloads, hs⟩ := loadArguments_ok i.location hle harguments
      simp only [callCode, if_neg (Nat.not_lt.2 hle), hloads, store_eq ht]
      refine .of_ok rfl (List.forall_mem_append.2 ⟨hs.refers, List.forall_mem_cons.2 ⟨?_, ?_⟩⟩)
      · exact hrefers.target rfl
      · exact Straight.binary.refers
    rcases h.callee hn with ⟨g, hg, rfl, -, hb, hlen⟩ | ⟨b, rfl, -, hb, harity⟩
    · simp only [opCode, hb, Option.filter_none]
      by_cases hle : arguments.length ≤ Reg.arguments.length
      · exact hcall hle (.function hg)
      · rw [Nat.not_le] at hle
        rw [callCode, if_pos hle, ← hlen]
        exact .of_error rfl (.arguments hg (hlen ▸ hle))
    · cases hintrinsic : b.isIntrinsic with
      | true =>
        simp only [opCode, hb, Option.filter_some, hintrinsic]
        refine hcall ?_ (.routine (List.mem_map_of_mem (List.mem_filter.2 ⟨b.mem_all, hintrinsic⟩)))
        rw [← harity]
        cases b <;> decide
      | false =>
        simp only [opCode, hb, Option.filter_some, hintrinsic]
        obtain ⟨is, his, hs⟩ := operatorCode_ok i.location hintrinsic harity hreads ht
        exact .of_ok his hs.refers
  | label l => exact .of_ok rfl Straight.nil.refers
  | jump l =>
    rw [hop] at htargets
    have hl : Refers m f (labelSymbol l) := .label (htargets l List.mem_cons_self)
    exact .of_ok rfl (List.forall_mem_singleton.2 (hl.target rfl))
  | branch condition ifTrue ifFalse =>
    rw [hop] at hreads htargets
    obtain ⟨k, hk⟩ := hreads condition List.mem_cons_self
    simp only [opCode, slot_eq hk]
    have htrue : Refers m f (labelSymbol ifTrue) := .label (htargets ifTrue List.mem_cons_self)
    have hfalse : Refers m f (labelSymbol ifFalse) :=
      .label (htargets ifFalse (List.mem_cons_of_mem _ List.mem_cons_self))
    refine .of_ok (a := [_] ++ [_, _]) rfl (List.forall_mem_append.2 ⟨Straight.binary.refers, ?_⟩)
    exact List.forall_mem_cons.2 ⟨htrue.target rfl, List.forall_mem_singleton.2 (hfalse.target rfl)⟩
  | leave v =>
    rw [hop] at hreads
    obtain ⟨k, hk⟩ := hreads v List.mem_cons_self
    simp only [opCode, load_eq hk]
    exact .of_ok rfl (List.forall_mem_append.2 ⟨Straight.binary.refers,
      List.forall_mem_singleton.2 (Refers.exit.target rfl)⟩)

end

end Assembly

end Exprc
