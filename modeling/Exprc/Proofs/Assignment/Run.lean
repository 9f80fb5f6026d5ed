/-
Programs that never read a variable without a value. If in the bodies of all functions and in the
top-level statements each name stands for a variable that has a value on all ways to it, then on every
way through the lowered functions each variable is written before it is read, and no run ends for want
of a value. Without this a program that the check accepts can fail so: a `var` that stands in a branch
declares its variable for what follows, and the branch need not be taken.
-/
import Exprc.Proofs.Assignment.Code
import Exprc.Proofs.Compiler

namespace Exprc

namespace Syntax

/-- What is known at the start of a function: its parameters have values. -/
def FunctionDefinition.entryMarks (f : FunctionDefinition) : Marks :=
  f.parameters.reverse.map fun p => (p.name.text, true)

/-- Whether each name in a module stands for a variable that has a value on all ways there. -/
def Module.readsAssigned (m : Module) : Bool :=
  m.functions.all (fun f => f.body.readsAssigned (some f.entryMarks)) && m.body.readsAssigned (some [])

end Syntax

namespace Lowering

open Syntax IR Typing

variable {sig : String → Option Signature}

/-- The parameters of a function have values at its start. -/
theorem Reached.declareAll {W : List Var} :
    ∀ {s : Stage} {marks : Marks} (ps : List Parameter), Reached W (some marks) s →
      (List.range' s.nextTemp ps.length).map .temp ⊆ W →
      Reached W (some (ps.reverse.map (fun p => (p.name.text, true)) ++ marks)) (s.declareAll ps)
  | _, _, [], h, _ => h
  | s, marks, p :: ps, h, hW => by
    rw [List.length_cons, List.range'_succ, List.map_cons, List.cons_subset] at hW
    have hp := h.declare p.name.text p.written.ty hW.1
    have hps := Reached.declareAll ps hp hW.2
    rw [List.reverse_cons, List.map_append, List.append_assoc]
    exact hps

/-- At the end of the code of a function its result is read. -/
theorem readsWritten_end {F : Function} {n : Nat} {W : List Var} (h : Written W F.result) :
    ReadsWritten F n W [] := by
  cases n with
  | zero => trivial
  | succ n => exact h

theorem LowersFunction.writesFirst {s s' : Stage} {f : FunctionDefinition} {F : Function}
    (h : LowersFunction sig s f F s') (hs : s.Outside)
    (hr : f.body.readsAssigned (some f.entryMarks) = true) : F.WritesFirst := by
  have hF := h.unambiguous
  obtain ⟨g, s₁, post, hg, hparams, hcode, hresult, hpost, -⟩ := h.body
  have hstart : Reached F.parameters (some f.entryMarks) (s.enter.declareAll f.parameters) := by
    have henter : Reached F.parameters (some []) s.enter := by
      refine ⟨[], rfl, ?_⟩
      rw [Stage.enter, hs.locals]
      exact .nil
    have hall := henter.declareAll f.parameters (by rw [hparams]; exact List.Subset.refl _)
    rwa [List.append_nil] at hall
  refine .of_readsWritten fun n => ?_
  have hsuffix : g.code ++ post <:+ F.code := by simp only [hcode, List.suffix_refl]
  rw [hcode]
  refine hg.readsWritten hF hr hstart hsuffix .none fun V _ _ hv => ?_
  rcases hpost with ⟨rfl, -⟩ | rfl
  · exact readsWritten_end (by rwa [hresult])
  · exact .leave hv

theorem LowersEntry.writesFirst {s s' : Stage} {e : Expr} {τ : Ty} {F : Function}
    (h : LowersEntry sig s e τ F s') (hs : s.Outside) (hr : e.readsAssigned (some []) = true) :
    F.WritesFirst := by
  have hF := h.unambiguous
  have hstart : Reached [] (some []) s := ⟨[], rfl, by rw [hs.locals]; exact .nil⟩
  refine .of_readsWritten fun n => ?_
  cases h with
  | @silent _ _ _ g hg _ =>
    have hsuffix : g.code ++ [] <:+ g.code := by simp only [List.append_nil, List.suffix_refl]
    have hg' := hg.readsWritten (F := ⟨entryPoint, [], g.code, g.value⟩) (n := n) hF hr hstart
      hsuffix .none fun V _ _ hv => readsWritten_end hv
    rwa [List.append_nil] at hg'
  | printing hg hb =>
    simp only [applied, List.flatMap_cons, List.flatMap_nil, List.append_nil, emit, List.map_cons,
      List.map_nil] at hF ⊢
    refine hg.readsWritten hF hr hstart (List.suffix_refl _) .none fun V _ _ hv => ?_
    refine .call (List.forall_mem_singleton.2 hv) (readsWritten_end ?_)
    exact hv.mono (List.subset_cons_self _ _)

/-- No lowered program in which each name stands for a variable that has a value on all ways there reads
a variable that was not written, whatever way control takes through its functions; and for every sink
and every input no run of it ends for want of a value. -/
theorem lowered_run_assigned {source : Source} {m : Syntax.Module} {M : IR.Module}
    {reports : List Compiler.Report} (hm : Syntax.Parser.module.readSource source = .ok m)
    (h : (Compiler.lower source).run [] = (.ok M, reports))
    (ha : (checkModule m).tree.readsAssigned = true) :
    (∀ F ∈ M.functions, F.WritesFirst) ∧
      ∀ (sink : Sink) (input : List UInt8) (steps : Nat) (e : Ending),
        M.run? sink input steps = some e → ∀ v, ¬e.Lacks v := by
  obtain ⟨m', τ, hm', hτ, hM, -⟩ := Compiler.lower_ok h
  obtain rfl : m = m' := Except.ok.inj (hm.symm.trans hm')
  have hl := lower_checked hτ hM
  simp only [Syntax.Module.readsAssigned, Bool.and_eq_true, List.all_eq_true] at ha
  have hwrites : ∀ F ∈ M.functions, F.WritesFirst := by
    intro F hF
    rcases hl.exists_of_mem hF with ⟨f, hf, s, s', hfF, hs⟩ | ⟨s, s', he, hs⟩
    · exact hfF.writesFirst hs (ha.1 f hf)
    · exact he.writesFirst hs ha.2
  exact ⟨hwrites, fun sink input steps e he v => Module.run?_not_lacks hwrites he v⟩

/-- A program that declares a variable in a branch, and assigns to it before it reads it. -/
theorem lowered_run_assigned_branch :
    ∃ M, (Compiler.lower ⟨"if read_int() > 0 then var x = 1; x = 2; x", .memory⟩).run [] =
        (.ok M, [.parsed 0, .checked .int, .lowered 11]) ∧
      (∀ F ∈ M.functions, F.WritesFirst) ∧
      ∀ (sink : Sink) (input : List UInt8) (steps : Nat) (e : Ending),
        M.run? sink input steps = some e → ∀ v, ¬e.Lacks v := by
  obtain ⟨m, hm, ha⟩ : ∃ m, Syntax.Parser.module.readSource
        ⟨"if read_int() > 0 then var x = 1; x = 2; x", .memory⟩ = .ok m ∧
      (checkModule m).tree.readsAssigned = true := by
    refine ⟨?m, ?h, ?g⟩
    case h => cbv; rfl
    case g => cbv
  obtain ⟨M, hM⟩ : ∃ M, (Compiler.lower
        ⟨"if read_int() > 0 then var x = 1; x = 2; x", .memory⟩).run [] =
      (.ok M, [.parsed 0, .checked .int, .lowered 11]) := by
    refine ⟨?M, ?h⟩
    case h => cbv; rfl
  exact ⟨M, hM, lowered_run_assigned hm hM ha⟩

/-- A program that declares a variable in a branch which is not taken, and reads it then: its run ends
at the print of the variable. -/
theorem untaken_declaration_unassigned :
    ∃ M, (Compiler.lower ⟨"if false then var x = 1; x", .memory⟩).run [] =
        (.ok M, [.parsed 0, .checked .int, .lowered 7]) ∧
      M.run? {} [] 6 = some ⟨.error (.at ⟨1, 1⟩ (.unassigned (.temp 3))), ⟨[], ""⟩⟩ ∧
      ¬∀ F ∈ M.functions, F.WritesFirst := by
  obtain ⟨M, hM, he⟩ : ∃ M, (Compiler.lower ⟨"if false then var x = 1; x", .memory⟩).run [] =
        (.ok M, [.parsed 0, .checked .int, .lowered 7]) ∧
      M.run? {} [] 6 = some ⟨.error (.at ⟨1, 1⟩ (.unassigned (.temp 3))), ⟨[], ""⟩⟩ := by
    refine ⟨?M, ?h, ?g⟩
    case h => cbv; rfl
    case g => cbv
  exact ⟨M, hM, he, fun hw => Module.run?_not_lacks hw he (.temp 3) ⟨_, rfl, rfl⟩⟩

end Lowering

end Exprc
