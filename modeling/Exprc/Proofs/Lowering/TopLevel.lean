/-
Top-level statements never return. Only in functions is a `return` lowered; so control leaves the function in
which a run starts at the end of its code, and nowhere else.
-/
import Exprc.Proofs.Lowering.Closed

namespace Exprc.Lowering

open Syntax IR Typing

/-- Code that no instruction leaves. -/
def Stays (code : List Instruction) : Prop := ∀ i ∈ code, i.op.isLeave = false

@[simp] theorem stays_nil : Stays [] := List.forall_mem_nil _

@[simp] theorem stays_append {code rest : List Instruction} : Stays (code ++ rest) ↔ Stays code ∧ Stays rest :=
  List.forall_mem_append

@[simp] theorem stays_emit {location : Location} {ops : List Op} :
    Stays (emit location ops) ↔ ∀ op ∈ ops, op.isLeave = false :=
  List.forall_mem_map

section

variable {sig : String → Option Signature}

theorem Merges.stays {location : Location} {τ : Ty} {s s' : Stage} {v : Var} {f : Fragment}
    (h : Merges location τ s v f s') : Stays f.code := by
  cases h with
  | reuse => exact stays_nil
  | copy => simp [Op.isLeave]

mutual

/-- Outside of functions no instruction of a fragment leaves it. -/
theorem Lowers.stays :
    ∀ {loop? : Option LoopLabels} {s s' : Stage} {e : Expr} {τ : Ty} {f : Fragment},
      Lowers sig none loop? s e τ f s' → Stays f.code
  | _, _, _, _, _, _, .int | _, _, _, _, _, _, .bool | _, _, _, _, _, _, .unit | _, _, _, _, _, _, .name _
  | _, _, _, _, _, _, .control => by simp [Op.isLeave]
  | _, _, _, _, _, _, .unary h _ | _, _, _, _, _, _, .binary _ h _ | _, _, _, _, _, _, .call _ _ h => by
    simpa [applied, Op.isLeave] using h.stays
  | _, _, _, .binary _ op _ _ _, _, _, .shortCircuit _ h₁ h₂ => by
    by_cases hop : op = .logicalOr <;> simp [Op.isLeave, hop, h₁.stays, h₂.stays]
  | _, _, _, _, _, _, .assign _ h | _, _, _, _, _, _, .declare h => by simp [Op.isLeave, h.stays]
  | _, _, _, _, _, _, .ifThen h₁ h₂ | _, _, _, _, _, _, .loop h₁ h₂ => by
    simp [Op.isLeave, h₁.stays, h₂.stays]
  | _, _, _, _, _, _, .ifElseUnit _ h₁ h₂ h₃ => by simp [Op.isLeave, h₁.stays, h₂.stays, h₃.stays]
  | _, _, _, _, _, _, .ifElse _ _ h₁ h₂ hm h₃ => by
    simp [Op.isLeave, h₁.stays, h₂.stays, hm.stays, h₃.stays]
  | _, _, _, _, _, _, .block h => h.stays
  | _, _, _, _, _, _, .leave h | _, _, _, _, _, _, .leaveWith h _ => nomatch h

theorem LowersStatements.stays :
    ∀ {loop? : Option LoopLabels} {s s' : Stage} {es : List Expr} {τ₀ : Ty} {last : Var} {τ : Ty}
      {f : Fragment}, LowersStatements sig none loop? s es τ₀ last τ f s' → Stays f.code
  | _, _, _, _, _, _, _, _, .nil => stays_nil
  | _, _, _, _, _, _, _, _, .cons h hs => stays_append.2 ⟨h.stays, hs.stays⟩

theorem LowersArguments.stays :
    ∀ {loop? : Option LoopLabels} {s s' : Stage} {es : List Expr} {τs : List Ty}
      {fs : List Fragment}, LowersArguments sig none loop? s es τs fs s' → Stays (fs.flatMap (·.code))
  | _, _, _, _, _, _, .nil => stays_nil
  | _, _, _, _, _, _, .cons h hs => stays_append.2 ⟨h.stays, hs.stays⟩

end

theorem LowersEntry.stays {s s' : Stage} {e : Expr} {τ : Ty} {F : Function}
    (h : LowersEntry sig s e τ F s') : Stays F.code := by
  cases h with
  | silent hg => exact hg.stays
  | printing hg => simp [applied, Op.isLeave, hg.stays]

end

/-- Control leaves the function in which a run starts only at the end of its code. -/
theorem LowersModule.stays {m : Syntax.Module} {τ : Ty} {M : IR.Module} (h : LowersModule m τ M) :
    ∀ f ∈ M.functions, f.isEntryPoint = true → Stays f.code := by
  obtain ⟨Fs, F, s, s', hM, hFs, hF⟩ := h.lowers
  rw [hM]
  refine List.forall_mem_append.2 ⟨fun G hG hentry => ?_, List.forall_mem_singleton.2 fun _ => hF.stays⟩
  -- no definition has the name of the function in which a run starts
  have hname : G.name ∈ m.functions.map (·.name.text) := hFs.names ▸ List.mem_map_of_mem hG
  obtain ⟨f, hf, hfG⟩ := List.mem_map.1 hname
  exact absurd (hfG.trans (eq_of_beq hentry)) (h.reserved f hf).1

end Exprc.Lowering
