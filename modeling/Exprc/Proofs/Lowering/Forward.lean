/-
Programs without loops. Of all constructs only a loop is lowered to a jump back, and a loop control is lowered only
inside of a loop. So a program without loops is lowered to code that jumps forward only, and all of its runs end,
however its functions call each other.
-/
import Exprc.Proofs.Compiler
import Exprc.Proofs.IR.Halting
import Exprc.Proofs.Lowering.Module
import Exprc.Proofs.Typing.Tree

namespace Exprc

/-! ## Trees without loops -/

namespace Syntax

/-- Whether an expression itself is a loop. -/
def Expr.isLoop : Expr → Bool
  | .loop .. => true
  | _ => false

theorem Expr.isLoop_untyped (e : Expr) : e.untyped.isLoop = e.isLoop := by cases e <;> rfl

/-- Expressions none of which is itself a loop. -/
def Loopless (es : List Expr) : Prop := ∀ e ∈ es, e.isLoop = false

instance (es : List Expr) : Decidable (Loopless es) := inferInstanceAs (Decidable (∀ e ∈ es, e.isLoop = false))

@[simp] theorem loopless_cons {e : Expr} {es : List Expr} :
    Loopless (e :: es) ↔ e.isLoop = false ∧ Loopless es :=
  List.forall_mem_cons

@[simp] theorem loopless_append {es es' : List Expr} : Loopless (es ++ es') ↔ Loopless es ∧ Loopless es' :=
  List.forall_mem_append

/-- The types in the notes of a tree make no loops. -/
theorem Module.loopless_of_untyped {m m' : Module} (h : Loopless m.subexpressions)
    (he : m'.untyped = m.untyped) : Loopless m'.subexpressions := by
  intro a ha
  have hmem : a.untyped ∈ m.untyped.subexpressions := by
    rw [← he, subexpressions_untyped]
    exact List.mem_map_of_mem ha
  rw [subexpressions_untyped] at hmem
  obtain ⟨b, hb, hba⟩ := List.mem_map.1 hmem
  rw [← a.isLoop_untyped, ← hba, b.isLoop_untyped]
  exact h b hb

end Syntax

namespace Lowering

open Syntax IR Typing

/-! ## Fragments without jumps back -/

section

variable {sig : String → Option Signature} {ρ? : Option Ty}

theorem Merges.forward {location : Location} {τ : Ty} {s s' : Stage} {v : Var} {f : Fragment}
    (h : Merges location τ s v f s') : Forward f.code := by
  cases h with
  | reuse => exact forward_nil
  | copy => simp [emit, Op.targets]

mutual

/-- Outside of loops, the fragment of an expression without loops jumps forward only. -/
theorem Lowers.forward :
    ∀ {loop? : Option LoopLabels} {s s' : Stage} {e : Expr} {τ : Ty} {f : Fragment},
      Lowers sig ρ? loop? s e τ f s' → loop? = none → Loopless e.subexpressions → Forward f.code
  | _, _, _, _, _, _, .int, _, _ | _, _, _, _, _, _, .bool, _, _ | _, _, _, _, _, _, .unit, _, _
  | _, _, _, _, _, _, .name _, _, _ | _, _, _, _, _, _, .leave _, _, _ => by simp [emit, Op.targets]
  | _, _, _, _, _, _, .unary h _, hl, he => by
    simp only [Expr.subexpressions, loopless_cons] at he
    have hfs := h.forward hl (by simpa [Expr.allSubexpressions] using he.2)
    simp [applied, emit, Op.targets, forward_append hfs]
  | _, _, _, _, _, _, .binary _ h _, hl, he => by
    simp only [Expr.subexpressions, loopless_cons] at he
    have hfs := h.forward hl (by simpa [Expr.allSubexpressions] using he.2)
    simp [applied, emit, Op.targets, forward_append hfs]
  | _, _, _, _, _, _, .call _ _ h, hl, he => by
    simp only [Expr.subexpressions, loopless_cons] at he
    simp [applied, emit, Op.targets, forward_append (h.forward hl he.2)]
  | _, _, _, .binary _ op _ _ _, _, _, .shortCircuit _ h₁ h₂, hl, he => by
    simp only [Expr.subexpressions, loopless_cons, loopless_append] at he
    by_cases hop : op = .logicalOr <;>
      simp [emit, Op.targets, hop, forward_append (h₁.forward hl he.2.1), forward_append (h₂.forward hl he.2.2)]
  | _, _, _, _, _, _, .assign _ h, hl, he => by
    simp only [Expr.subexpressions, loopless_cons, loopless_append] at he
    simp [emit, Op.targets, forward_append (h.forward hl he.2.2)]
  | _, _, _, _, _, _, .declare h, hl, he | _, _, _, _, _, _, .leaveWith _ h, hl, he => by
    simp only [Expr.subexpressions, loopless_cons] at he
    simp [emit, Op.targets, forward_append (h.forward hl he.2)]
  | _, _, _, _, _, _, .ifThen h₁ h₂, hl, he => by
    simp only [Expr.subexpressions, loopless_cons, loopless_append] at he
    simp [emit, Op.targets, forward_append (h₁.forward hl he.2.1), forward_append (h₂.forward hl he.2.2)]
  | _, _, _, _, _, _, .ifElseUnit _ h₁ h₂ h₃, hl, he => by
    simp only [Expr.subexpressions, loopless_cons, loopless_append] at he
    simp [emit, Op.targets, forward_append (h₁.forward hl he.2.1), forward_append (h₂.forward hl he.2.2.1),
      forward_append (h₃.forward hl he.2.2.2)]
  | _, _, _, _, _, _, .ifElse _ _ h₁ h₂ hm h₃, hl, he => by
    simp only [Expr.subexpressions, loopless_cons, loopless_append] at he
    simp [emit, Op.targets, forward_append (h₁.forward hl he.2.1), forward_append (h₂.forward hl he.2.2.1),
      forward_append hm.forward, forward_append (h₃.forward hl he.2.2.2)]
  | _, _, _, _, _, _, .block h, hl, he => h.forward hl (loopless_cons.1 he).2
  | _, _, _, _, _, _, .control, hl, _ => nomatch hl
  | _, _, _, _, _, _, .loop _ _, _, he => absurd (loopless_cons.1 he).1 nofun

theorem LowersStatements.forward :
    ∀ {loop? : Option LoopLabels} {s s' : Stage} {es : List Expr} {τ₀ : Ty} {last : Var} {τ : Ty} {f : Fragment},
      LowersStatements sig ρ? loop? s es τ₀ last τ f s' → loop? = none → Loopless (Expr.allSubexpressions es) →
      Forward f.code
  | _, _, _, _, _, _, _, _, .nil, _, _ => forward_nil
  | _, _, _, _, _, _, _, _, .cons h hs, hl, he => by
    simp only [Expr.allSubexpressions, loopless_append] at he
    exact (forward_append (h.forward hl he.1)).2 (hs.forward hl he.2)

theorem LowersArguments.forward :
    ∀ {loop? : Option LoopLabels} {s s' : Stage} {es : List Expr} {τs : List Ty} {fs : List Fragment},
      LowersArguments sig ρ? loop? s es τs fs s' → loop? = none → Loopless (Expr.allSubexpressions es) →
      Forward (fs.flatMap (·.code))
  | _, _, _, _, _, _, .nil, _, _ => forward_nil
  | _, _, _, _, _, _, .cons h hs, hl, he => by
    simp only [Expr.allSubexpressions, loopless_append] at he
    exact (forward_append (h.forward hl he.1)).2 (hs.forward hl he.2)

end

/-! ## Functions and modules -/

theorem LowersFunction.forward {s s' : Stage} {f : FunctionDefinition} {F : Function}
    (h : LowersFunction sig s f F s') (hf : Loopless f.body.subexpressions) : Forward F.code := by
  obtain ⟨g, s₁, post, hg, -, hcode, -, hpost, -⟩ := h.body
  rw [hcode, forward_append (hg.forward rfl hf)]
  rcases hpost with ⟨rfl, -⟩ | rfl
  · exact forward_nil
  · simp [Op.targets]

theorem LowersEntry.forward {s s' : Stage} {e : Expr} {τ : Ty} {F : Function}
    (h : LowersEntry sig s e τ F s') (he : Loopless e.subexpressions) : Forward F.code := by
  cases h with
  | silent hg => exact hg.forward rfl he
  | printing hg => simp [applied, emit, Op.targets, forward_append (hg.forward rfl he)]

end

/-- A module without loops is lowered to code that jumps forward only. -/
theorem LowersModule.forward {m : Syntax.Module} {τ : Ty} {M : IR.Module} (h : LowersModule m τ M)
    (hm : Loopless m.subexpressions) : M.Forward := by
  obtain ⟨hfunctions, hbody⟩ := loopless_append.1 hm
  intro F hF
  rcases h.exists_of_mem hF with ⟨f, hf, s, s', hfF, -⟩ | ⟨s, s', he, -⟩
  · exact hfF.forward fun a ha => hfunctions a (List.mem_flatMap.2 ⟨f, hf, ha⟩)
  · exact he.forward hbody

/-- A program without loops always halts, with a value or a failure, whatever it reads and wherever it prints. Its
code jumps forward only, and no more than `maxDepth` of its functions are ever under execution at once. -/
theorem loopless_run_ends {source : Source} {m : Syntax.Module}
    (hm : Syntax.Parser.module.readSource source = .ok m) (hloops : Loopless m.subexpressions) {M : IR.Module}
    {reports : List Compiler.Report} (h : (Compiler.lower source).run [] = (.ok M, reports)) :
    (∀ F ∈ M.functions, ∀ i rest, i :: rest <:+ F.code → ∀ l ∈ i.op.targets, HasLabel rest l) ∧
    ∀ (sink : Sink) (input : List UInt8),
      (∃ steps e, M.run? sink input steps = some e) ∧
      ∀ s n t, M.start input = .running s → Steps M sink n s t → t.stack.length ≤ 1000 := by
  obtain ⟨m', τ, hm', hτ, hM, -⟩ := Compiler.lower_ok h
  obtain rfl : m = m' := Except.ok.inj (hm.symm.trans hm')
  have hforward := (lower_checked hτ hM).forward (Module.loopless_of_untyped hloops (checkModule_untyped m))
  exact ⟨hforward, fun sink input => ⟨⟨_, hforward.run? sink input⟩, fun s n t hs hst => Module.stack_le hs hst⟩⟩

/-- A program that calls itself with the same number, again and again: nothing in it stops that but the limit on
the depth of calls. -/
theorem loopless_run_ends_recursion :
    ∃ M, (Compiler.lower ⟨"fun f(n: Int): Int { if n < 1 then n else f(n) } f(9)", .memory⟩).run [] =
        (.ok M, [.parsed 1, .checked .int, .lowered 14]) ∧
      ∀ (sink : Sink) (input : List UInt8), ∃ steps e, M.run? sink input steps = some e := by
  obtain ⟨m, hm, hloops⟩ : ∃ m, Syntax.Parser.module.readSource
        ⟨"fun f(n: Int): Int { if n < 1 then n else f(n) } f(9)", .memory⟩ = .ok m ∧
      Loopless m.subexpressions := by
    refine ⟨?m, ?h, ?g⟩
    case h => cbv; rfl
    case g => cbv; simp [Expr.isLoop]
  obtain ⟨M, hM⟩ : ∃ M, (Compiler.lower
        ⟨"fun f(n: Int): Int { if n < 1 then n else f(n) } f(9)", .memory⟩).run [] =
      (.ok M, [.parsed 1, .checked .int, .lowered 14]) := by
    refine ⟨?M, ?h⟩
    case h => cbv; rfl
  exact ⟨M, hM, fun sink input => ((loopless_run_ends hm hloops hM).2 sink input).1⟩

end Lowering

end Exprc
