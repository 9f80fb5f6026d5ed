/-
Assembly without places. Code without places gives the same lines of assembly, or fails with the same cause
(`generate_unplaced`).
-/
import Exprc.Assembly.Codegen
import Exprc.Proofs.Places.Erasure

namespace Exprc.Assembly

open IR

/-! ## Steps -/

section

variable {ε α β : Type}

/-- One result after another. -/
theorem bind_unplaced {x x' : Except (Fault ε) α} {next next' : α → Except (Fault ε) β}
    (h : x' = x.mapError Fault.unplaced) (hnext : ∀ a, next' a = (next a).mapError Fault.unplaced) :
    (x' >>= next') = (x >>= next).mapError Fault.unplaced := by
  subst h
  cases x with
  | ok a => exact hnext a
  | error fault => rfl

end

variable (l : StackLayout) (place : Location)

theorem StackLayout.slot_unplaced (v : Var) :
    l.slot .nowhere v = (l.slot place v).mapError Fault.unplaced := by
  unfold slot
  cases l.offset? v <;> rfl

theorem StackLayout.load_unplaced (r : Reg) (v : Var) :
    l.load .nowhere r v = (l.load place r v).mapError Fault.unplaced :=
  bind_unplaced (l.slot_unplaced place v) fun _ => rfl

theorem StackLayout.store_unplaced (v : Var) (r : Reg) :
    l.store .nowhere v r = (l.store place v r).mapError Fault.unplaced :=
  bind_unplaced (l.slot_unplaced place v) fun _ => rfl

theorem StackLayout.storeNumber_unplaced (v : Var) (n : Int) :
    l.storeNumber .nowhere v n = (l.storeNumber place v n).mapError Fault.unplaced := by
  unfold storeNumber
  split
  · exact bind_unplaced (l.slot_unplaced place v) fun _ => rfl
  · exact bind_unplaced (l.store_unplaced place v .rax) fun _ => rfl

/-! ## Instructions -/

theorem operatorCode_unplaced (b : Builtin) (arguments : List Var) (target : Var) :
    operatorCode l .nowhere b arguments target =
      (operatorCode l place b arguments target).mapError Fault.unplaced := by
  match arguments with
  | [] | _ :: _ :: _ :: _ => rfl
  | [v] =>
    unfold operatorCode
    cases unaryPattern? b with
    | none => rfl
    | some pattern =>
      refine bind_unplaced (l.load_unplaced place .rax v) fun _ => ?_
      exact bind_unplaced (l.store_unplaced place target pattern.2) fun _ => rfl
  | [v, w] =>
    unfold operatorCode
    refine bind_unplaced (l.load_unplaced place .rax v) fun _ => ?_
    refine bind_unplaced (l.load_unplaced place .rcx w) fun _ => ?_
    cases binaryPattern? b with
    | none => rfl
    | some pattern => exact bind_unplaced (l.store_unplaced place target pattern.2) fun _ => rfl

theorem loadArguments_unplaced : ∀ (vs : List Var) (rs : List Reg),
    loadArguments l .nowhere vs rs = (loadArguments l place vs rs).mapError Fault.unplaced
  | [], _ => by simp only [loadArguments]; rfl
  | _ :: _, [] => by simp only [loadArguments]; rfl
  | v :: vs, r :: rs =>
    bind_unplaced (l.load_unplaced place r v) fun _ =>
      bind_unplaced (loadArguments_unplaced vs rs) fun _ => rfl

theorem callCode_unplaced (name : String) (arguments : List Var) (target : Var) :
    callCode l .nowhere name arguments target =
      (callCode l place name arguments target).mapError Fault.unplaced := by
  unfold callCode
  split
  · rfl
  · refine bind_unplaced (loadArguments_unplaced l place arguments _) fun _ => ?_
    exact bind_unplaced (l.store_unplaced place target .rax) fun _ => rfl

theorem opCode_unplaced (op : Op) : opCode l .nowhere op = (opCode l place op).mapError Fault.unplaced := by
  cases op with
  | loadInt n target => exact l.storeNumber_unplaced place target n.toInt
  | loadBool b target => exact l.storeNumber_unplaced place target _
  | copy source target =>
    refine bind_unplaced (l.load_unplaced place .rax source) fun _ => ?_
    exact bind_unplaced (l.store_unplaced place target .rax) fun _ => rfl
  | call callee arguments target =>
    cases callee with
    | named name =>
      simp only [opCode]
      split
      · exact operatorCode_unplaced l place _ arguments target
      · exact callCode_unplaced l place name arguments target
    | _ => rfl
  | label | jump => rfl
  | branch condition ifTrue ifFalse => exact bind_unplaced (l.slot_unplaced place condition) fun _ => rfl
  | leave value => exact bind_unplaced (l.load_unplaced place .rax value) fun _ => rfl

theorem instructionLines_unplaced (i : Instruction) :
    instructionLines l i.unplaced = (instructionLines l i).mapError Fault.unplaced := by
  obtain ⟨place, op⟩ := i
  cases op with
  | label => rfl
  | _ => exact bind_unplaced (opCode_unplaced l place _) fun _ => rfl

/-! ## Functions and modules -/

theorem codeLines_unplaced (o : Options) : ∀ code : List Instruction,
    codeLines o l (code.map (·.unplaced)) = (codeLines o l code).mapError Fault.unplaced
  | [] => rfl
  | i :: code =>
    bind_unplaced (instructionLines_unplaced l i) fun _ =>
      bind_unplaced (codeLines_unplaced o code) fun _ => rfl

theorem storeParameters_unplaced (o : Options) : ∀ (vs : List Var) (rs : List Reg),
    storeParameters o l vs rs = (storeParameters o l vs rs).mapError Fault.unplaced
  | [], _ => by simp only [storeParameters]; rfl
  | _ :: _, [] => by simp only [storeParameters]; rfl
  | v :: vs, r :: rs =>
    bind_unplaced (l.store_unplaced .nowhere v r) fun _ =>
      bind_unplaced (storeParameters_unplaced o vs rs) fun _ => rfl

theorem resultCode_unplaced (f : Function) :
    resultCode l f.unplaced = (resultCode l f).mapError Fault.unplaced := by
  unfold resultCode
  rw [f.endsInLeave_unplaced, f.isEntryPoint_unplaced]
  split
  · rfl
  · split
    · rfl
    · exact l.load_unplaced .nowhere .rax f.result

theorem functionLines_unplaced (o : Options) (f : Function) :
    functionLines o l f.unplaced = (functionLines o l f).mapError Fault.unplaced := by
  unfold functionLines
  change (if Reg.arguments.length < f.parameters.length then _ else _) = _
  split
  · rfl
  · refine bind_unplaced (storeParameters_unplaced l o f.parameters _) fun _ => ?_
    refine bind_unplaced (codeLines_unplaced l o f.code) fun _ => ?_
    exact bind_unplaced (resultCode_unplaced l f) fun _ => rfl

theorem functionsLines_unplaced (o : Options) : ∀ fs : List Function,
    (fs.map (·.unplaced)).mapM (functionLines o l) = (fs.mapM (functionLines o l)).mapError Fault.unplaced
  | [] => rfl
  | f :: fs => by
    rw [List.map_cons, List.mapM_cons, List.mapM_cons]
    exact bind_unplaced (functionLines_unplaced l o f) fun _ =>
      bind_unplaced (functionsLines_unplaced o fs) fun _ => rfl

/-- The assembly of a module without places is that of the module. -/
theorem generate_unplaced (o : Options) (m : IR.Module) :
    generate o m.unplaced = (generate o m).mapError Fault.unplaced := by
  have hlayout : StackLayout.ofModule m.unplaced = .ofModule m := by
    rw [StackLayout.ofModule, StackLayout.ofModule, m.vars_unplaced]
  unfold generate
  rw [hlayout]
  exact bind_unplaced (functionsLines_unplaced _ o m.functions) fun _ => rfl

end Exprc.Assembly
