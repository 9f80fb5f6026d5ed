/-
The order of functions does not matter. A module that was read from a text and the same module with its functions in
another order are accepted alike and can be lowered alike, and then all their runs end alike. The numbers of
temporaries and labels differ, since they are given out through the whole module.
-/
import Exprc.Proofs.Order.Lowering
import Exprc.Proofs.Syntax.Written

namespace Exprc

open Syntax

namespace Typing

open Checker (andThen_ok)

/-! ## Modules whose check fails -/

/-- A block keeps a note without a type if its check fails. -/
theorem checkBlock_untyped {result? : Option Ty} {n : Note} {es : List Expr} {s : Scopes} {fault : Fault TypeError}
    (hn : n.ty? = none) (h : (checkExpr result? (.block n es) s).outcome = .error fault) :
    (checkExpr result? (.block n es) s).tree.note = n := by
  rw [checkExpr] at h ⊢
  unfold Checker.andThen at h ⊢
  dsimp only at h ⊢
  cases hes : (Checker.inScope (checkStatements result? es .unit) s).outcome with
  | error fault' => rfl
  | ok τ =>
    simp only [hes, conclude, hn] at h
    cases h

/-- So do the top-level statements if the check of the module fails, wherever it does. -/
theorem checkModule_untyped_body {m : Module} {n : Note} {es : List Expr} (hbody : m.body = .block n es)
    (hn : n.ty? = none) {fault : Fault TypeError} (h : (checkModule m).outcome = .error fault) :
    (checkModule m).tree.body.note = n := by
  have hnote : m.body.note = n := congrArg Expr.note hbody
  cases hs : m.functions.foldlM (fun s f => declareFunction f s) ScopeChain.withBuiltins with
  | error fault' =>
    unfold checkModule
    simp only [hs]
    exact hnote
  | ok s =>
    cases hfunctions : (checkFunctions m.functions s).outcome with
    | error fault' =>
      unfold checkModule Checker.andThen
      simp only [hs, hfunctions]
      exact hnote
    | ok u =>
      rw [checkModule_run hs hfunctions] at h ⊢
      change (checkExpr none m.body _).outcome = _ at h
      change (checkExpr none m.body _).tree.note = n
      rw [hbody] at h ⊢
      exact checkBlock_untyped hn h

end Typing

open Typing Lowering

/-- Only an accepted module can be lowered, if the top-level statements had no type before. -/
theorem accepted_of_lowered {m : Module} {n : Note} {es : List Expr} {M : IR.Module} (hbody : m.body = .block n es)
    (hn : n.ty? = none) (h : lower (checkModule m).tree = .ok M) : ∃ τ, (checkModule m).outcome = .ok τ := by
  cases houtcome : (checkModule m).outcome with
  | ok τ => exact ⟨τ, rfl⟩
  | error fault =>
    -- lowering the top-level statements asks for their type, and the failed check noted none
    obtain ⟨-, -, L₁, F, L₂, -, -, hF, -⟩ := lower_eq_ok.1 h
    obtain ⟨f, L₃, -, hrest⟩ := bind_ok hF
    obtain ⟨τ, L₄, hτ, -⟩ := bind_ok hrest
    obtain ⟨hty, -⟩ := typeOf_ok hτ
    rw [checkModule_untyped_body hbody hn houtcome, hn] at hty
    cases hty

/-! ## Modules with their functions in another order -/

/-- With its functions in another order an accepted module can be lowered if the module can, to a program that is the
same but for numbers. -/
theorem lower_checked_of_perm {m : Module} {gs : List FunctionDefinition} {τ : Ty} {M : IR.Module}
    (hgs : gs.Perm m.functions) (h : (checkModule m).outcome = .ok τ) (hM : lower (checkModule m).tree = .ok M) :
    ∃ M', lower (checkModule { m with functions := gs }).tree = .ok M' ∧ M.Alike M' := by
  obtain ⟨-, ts, hts, htree⟩ := checkModule_of_perm hgs h
  have hmodule := lower_checked h hM
  rw [htree]
  exact lower_of_perm hts hmodule.nodup (fun f hf => (hmodule.reserved f hf).2) hM

/-- The order of functions does not matter. A module that was read from a text is accepted, with some type, if and
only if it is accepted with that type when its functions are in another order; it can be lowered if and only if it
can be lowered then; and on every input the two programs are after every number of steps either both still running,
or both have ended on the same world, with the same value or both with a fault. -/
theorem function_order_irrelevant {source : Source} {m : Module} {gs : List FunctionDefinition}
    (hm : Parser.module.readSource source = .ok m) (hgs : gs.Perm m.functions) :
    (∀ τ, (checkModule { m with functions := gs }).outcome = .ok τ ↔ (checkModule m).outcome = .ok τ) ∧
      ((∃ M', lower (checkModule { m with functions := gs }).tree = .ok M') ↔
        ∃ M, lower (checkModule m).tree = .ok M) ∧
      ∀ M M', lower (checkModule m).tree = .ok M →
        lower (checkModule { m with functions := gs }).tree = .ok M' →
        ∀ sink input steps, Option.Rel IR.Ending.Alike (M.run? sink input steps) (M'.run? sink input steps) := by
  obtain ⟨hfresh, n, es, hbody⟩ := Parser.readSource_module hm
  have hn : n.ty? = none := by
    have hmem : m.body ∈ m.subexpressions := List.mem_append_right _ m.body.self_mem_subexpressions
    have hty := (hfresh _ hmem).1
    rwa [hbody] at hty
  have haccepted : ∀ τ, (checkModule m).outcome = .ok τ → (checkModule { m with functions := gs }).outcome = .ok τ :=
    fun τ h => (checkModule_of_perm hgs h).1
  refine ⟨fun τ => ⟨fun h => ?_, haccepted τ⟩, ⟨?_, ?_⟩, fun M M' hM hM' => ?_⟩
  · exact (checkModule_of_perm (m := { m with functions := gs }) hgs.symm h).1
  · rintro ⟨M', hM'⟩
    obtain ⟨τ, h⟩ := accepted_of_lowered (m := { m with functions := gs }) hbody hn hM'
    obtain ⟨M, hM, -⟩ := lower_checked_of_perm (m := { m with functions := gs }) hgs.symm h hM'
    exact ⟨M, hM⟩
  · rintro ⟨M, hM⟩
    obtain ⟨τ, h⟩ := accepted_of_lowered hbody hn hM
    obtain ⟨M', hM', -⟩ := lower_checked_of_perm hgs h hM
    exact ⟨M', hM'⟩
  · obtain ⟨τ, h⟩ := accepted_of_lowered hbody hn hM
    obtain ⟨M₁, hM₁, halike⟩ := lower_checked_of_perm hgs h hM
    obtain rfl : M₁ = M' := Except.ok.inj (hM₁.symm.trans hM')
    exact halike.run?

/-- Two functions that call each other, in either order. The numbers in their code differ. -/
theorem function_order_irrelevant_parity :
    ∃ m M M', Parser.module.readSource
        ⟨"fun even(n: Int): Bool { n == 0 or odd(n - 1) } fun odd(n: Int): Bool { not even(n) } even(read_int())",
          .memory⟩ = .ok m ∧
      lower (checkModule m).tree = .ok M ∧
      lower (checkModule { m with functions := m.functions.reverse }).tree = .ok M' ∧
      M.function? "even" ≠ M'.function? "even" ∧
      ∀ sink input steps, Option.Rel IR.Ending.Alike (M.run? sink input steps) (M'.run? sink input steps) := by
  obtain ⟨m, M, M', hm, hM, hM', hne⟩ : ∃ m M M', Parser.module.readSource
        ⟨"fun even(n: Int): Bool { n == 0 or odd(n - 1) } fun odd(n: Int): Bool { not even(n) } even(read_int())",
          .memory⟩ = .ok m ∧
      lower (checkModule m).tree = .ok M ∧
      lower (checkModule { m with functions := m.functions.reverse }).tree = .ok M' ∧
      M.function? "even" ≠ M'.function? "even" := by
    refine ⟨?m, ?M, ?M', ?hm, ?hM, ?hM', ?hne⟩
    case hm => cbv; rfl
    case hM => cbv; rfl
    case hM' => cbv; rfl
    case hne => decide
  exact ⟨m, M, M', hm, hM, hM', hne, (function_order_irrelevant hm (List.reverse_perm _)).2.2 M M' hM hM'⟩

end Exprc
