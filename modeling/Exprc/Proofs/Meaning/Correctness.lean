/-
Lowering preserves meaning: a run of a lowered module ends as the evaluator says, and goes on for ever
exactly if the evaluator has no result for any fuel. The evaluator and lowered code agree for every
fuel, by induction on the fuel; when the fuel runs out the machine has made at least as many steps.
-/
import Exprc.Proofs.Meaning.Expressions

namespace Exprc.Meaning

open Syntax IR Lowering Typing

section

variable {m : Syntax.Module} {T : Ty} {M : IR.Module} {sink : Sink}

/-! ## Every fuel -/

theorem simulated (sink : Sink) (hM : LowersModule m T M)
    (hbodies : ∀ fd ∈ m.functions, fd.body.declaresInBlocks = true ∧ fd.body.operandsSettled = true) :
    ∀ fuel, Simulated M sink fuel m
  | 0 => fun _ _ _ _ _ _ _ _ _ _ _ => ⟨0, _, Nat.le_refl 0, .refl _⟩
  | fuel + 1 => fun h hs hF hloop hd ho =>
    h.simulates ⟨hM, simulated sink hM hbodies fuel, hbodies⟩ hF hs hloop
      (Expr.statementsDeclareInBlocks_singleton hd) ho

/-! ## Top-level statements -/

/-- What a run from `start` comes to: an end, or at least as many steps as there is fuel. -/
def Reaches (M : IR.Module) (sink : Sink) (fuel : Nat) (start : IR.State) : Option Ending → Prop
  | none => ∃ n t, fuel ≤ n ∧ Steps M sink n start t
  | some e => ∃ n t, Steps M sink n start t ∧ t.step M sink = .ended e

theorem printer?_eq_none (hT : T.isData = true) (hp : printer? T = none) : T = .unit := by
  cases T <;> simp_all [printer?, Ty.isData]

/-- Printing a value is a call of the built-in function that prints values of its type. -/
theorem printFinal_eq {b : Builtin} (hb : printer? T = some b) {v : Value} (hv : v.ty = T)
    (location : Location) (w : World) :
    printFinal sink location v w =
      match w.callBuiltin sink b [v] with
      | (.ok _, w) => (.ok (), w)
      | (.error cause, w) => (.error (.at location cause), w) := by
  subst hv
  cases v <;> cases hb <;> rfl

/-- A machine that matches the result of the top-level statements comes to an end as the result says,
if it does so from behind the statements. -/
theorem Matches.reaches {p : Spot} {kept : Env → Frame → Prop} {fuel : Nat} {start : IR.State}
    {post : List Instruction} {good : Value → Env → Frame → Prop} {r : Result} {location : Location}
    (h : Matches M sink p none none kept fuel start post good r)
    (hpost : ∀ v env frame world, good v env frame → ∃ e n t,
      conclude sink location (some (.value v, ⟨env, world⟩)) = some e ∧
      Steps M sink n (p.at post frame world) t ∧ t.step M sink = .ended e) :
    Reaches M sink fuel start (conclude sink location r) := by
  match r, h with
  | none, h => exact h
  | some (.value v, st), ⟨n, frame, ht, hg⟩ =>
    obtain ⟨e, k, t, he, hk, hend⟩ := hpost v st.env frame st.world hg
    rw [he]
    exact ⟨n + k, t, ht.trans hk, hend⟩
  | some (.jump c, st), ⟨labels, _, _, _, hl, _⟩ => cases hl
  | some (.leave v, st), ⟨_, _, _, _, _, _, _, hρ⟩ => cases hρ
  | some (.fault f, st), ⟨n, t, ht, hf⟩ => exact ⟨n, t, ht, hf⟩

/-- A run of a lowered module comes to what the evaluator says. -/
theorem run_reaches (sink : Sink) (hM : LowersModule m T M)
    (hbodies : ∀ fd ∈ m.functions, fd.body.declaresInBlocks = true ∧ fd.body.operandsSettled = true)
    (hd : m.body.declaresInBlocks = true) (ho : m.body.operandsSettled = true)
    (input : List UInt8) (fuel : Nat) :
    ∃ start, M.start input = .running start ∧
      Reaches M sink fuel start (evaluate? m sink input fuel) := by
  obtain ⟨F, s, s', hentry, hF, hs⟩ := hM.entry
  have hp : F.parameters = [] := by cases hF <;> rfl
  have hunique := hF.unambiguous
  refine ⟨⟨⟨F, F.code, []⟩, [], { input }⟩, ?_, ?_⟩
  · simp only [IR.Module.start, hentry, activate]
    rw [if_neg (by decide), if_neg (by simp [hp]), hp]
    rfl
  have hrel : Related s.locals [[]] [] := by
    rw [hs.locals]
    exact .cons .nil .nil
  have hend : ∀ {t : IR.State} {v : Value}, Returns t v → t.waiting = [] →
      t.step M sink = .ended (finish sink v t.world) := by
    intro t v hr hw
    obtain ⟨h, -⟩ | ⟨w, ws, hws, -⟩ : (t.step M sink = _ ∧ _) ∨ _ := step_returns hr
    · exact h
    · rw [hw] at hws; cases hws
  cases hF with
  | @silent _ _ _ g hg hprint =>
    have h := simulated sink hM hbodies fuel (p := ⟨⟨entryPoint, [], g.code, g.value⟩, []⟩) hg hs.wf
      hunique .none hd ho [] [] ⟨[[]], { input }⟩ (by simp) hrel
    rw [List.append_nil] at h
    refine h.reaches fun v env frame world hy => ?_
    obtain rfl := Value.ty_eq_unit.1 (hy.ty.trans (printer?_eq_none hM.isData hprint))
    refine ⟨_, 0, _, rfl, .refl _, ?_⟩
    exact hend (.atEnd rfl hy.read) rfl
  | @printing s₁ _ _ g b hg hb =>
    have hs₁ := hg.wf hs.wf
    simp only [applied, List.flatMap_cons, List.flatMap_nil, List.append_nil] at hunique ⊢
    have h := simulated sink hM hbodies fuel (p := ⟨⟨entryPoint, [], _, g.value⟩, []⟩) hg hs.wf
      hunique .none hd ho _ [] ⟨[[]], { input }⟩ (List.suffix_refl _) hrel
    refine h.reaches fun v env frame world hy => ?_
    have hprint : printFinal sink m.body.location v world = _ := printFinal_eq hb hy.ty _ world
    have hxs : List.Forall₂ (fun x v => frame.read? x = some v) [g.value] [v] := .cons hy.read .nil
    rcases hr : world.callBuiltin sink b [v] with ⟨cause | w, world'⟩
    · refine ⟨_, 0, _, ?_, .refl _, (step_builtin hM hxs).trans (by rw [hr])⟩
      simp only [conclude, hprint, hr]
    · have hread : (frame.write (.temp s₁.nextTemp) w).read? g.value = some v :=
        (Frame.read?_write_of_ne frame ((hg.locates hs.wf).ne hs₁) w).trans hy.read
      have hreturns : Returns (Spot.at ⟨⟨entryPoint, [], g.code ++ emit m.body.location
          [.call (.named b.name) [g.value] (.temp s₁.nextTemp)], g.value⟩, []⟩ []
          (frame.write (.temp s₁.nextTemp) w) world') v := .atEnd rfl hread
      refine ⟨_, 1, _, ?_, .single ((step_builtin hM hxs).trans (by rw [hr]; rfl)),
        hend hreturns rfl⟩
      simp only [conclude, hprint, hr]
      rfl

/-- A run of a lowered module ends as the evaluator says, if it ends at all. -/
theorem run?_iff_evaluate? (sink : Sink) (hM : LowersModule m T M)
    (hbodies : ∀ fd ∈ m.functions, fd.body.declaresInBlocks = true ∧ fd.body.operandsSettled = true)
    (hd : m.body.declaresInBlocks = true) (ho : m.body.operandsSettled = true)
    (input : List UInt8) (e : Ending) :
    (∃ steps, M.run? sink input steps = some e) ↔ ∃ fuel, evaluate? m sink input fuel = some e := by
  unfold IR.Module.run?
  constructor
  · rintro ⟨steps, h⟩
    obtain ⟨start, hstart, hr⟩ := run_reaches sink hM hbodies hd ho input steps
    rw [hstart] at h
    refine ⟨steps, ?_⟩
    cases he : evaluate? m sink input steps with
    | none =>
      rw [he] at hr
      obtain ⟨n, t, hn, hs⟩ := hr
      exact absurd (hs.lt_of_ends h) (by omega)
    | some e' =>
      rw [he] at hr
      obtain ⟨n, t, hs, ht⟩ := hr
      rw [hs.ending_eq ht h]
  · rintro ⟨fuel, h⟩
    obtain ⟨start, hstart, hr⟩ := run_reaches sink hM hbodies hd ho input fuel
    rw [h] at hr
    obtain ⟨n, t, hs, ht⟩ := hr
    exact ⟨n + 1, by rw [hstart]; exact endWithin?_eq_some_iff.2 ⟨n, t, Nat.lt_succ_self n, hs, ht⟩⟩

end

/-! ## Modules -/

/-- Lowering preserves meaning. For every module that the check accepts, in which no loop control is
outside of every loop, every variable is declared in a statement of a block, and nothing is assigned
in a right operand or in an argument behind the first: the module can be lowered, and for every sink
and every input a run of what it is lowered to has the end that the evaluator has, or both have none. -/
theorem lower_preserves_meaning {m : Syntax.Module} {T : Ty} (h : (checkModule m).outcome = .ok T)
    (hplaced : (checkModule m).tree.misplaced? = none)
    (hdeclared : (checkModule m).tree.allBodies (·.declaresInBlocks) = true)
    (hsettled : (checkModule m).tree.allBodies (·.operandsSettled) = true) :
    ∃ M, lower (checkModule m).tree = .ok M ∧ ∀ (sink : Sink) (input : List UInt8),
      (∀ e, (∃ steps, M.run? sink input steps = some e) ↔
        ∃ fuel, evaluate? (checkModule m).tree sink input fuel = some e) ∧
      ((∀ steps, M.run? sink input steps = none) ↔
        ∀ fuel, evaluate? (checkModule m).tree sink input fuel = none) := by
  obtain ⟨M, hM, hl⟩ := lower_of_placed h hplaced
  simp only [Syntax.Module.allBodies, Bool.and_eq_true, List.all_eq_true] at hdeclared hsettled
  refine ⟨M, hM, fun sink input => ?_⟩
  have hiff := run?_iff_evaluate? sink hl
    (fun fd hfd => ⟨hdeclared.1 fd hfd, hsettled.1 fd hfd⟩) hdeclared.2 hsettled.2 input
  refine ⟨hiff, fun hn fuel => ?_, fun hn steps => ?_⟩ <;>
    refine Option.eq_none_iff_forall_ne_some.2 fun e he => ?_
  · obtain ⟨steps, hs⟩ := (hiff e).2 ⟨fuel, he⟩
    rw [hn] at hs
    cases hs
  · obtain ⟨fuel, hs⟩ := (hiff e).1 ⟨steps, he⟩
    rw [hn] at hs
    cases hs

/-- A program that doubles a number until it is large:
`var x = 1; while x < 100 do x = x * 2; x`. -/
def doubling : Syntax.Module :=
  let n : Note := ⟨⟨1, 1⟩, none⟩
  ⟨⟨1, 1⟩, [], .block n
    [.declare n ⟨⟨1, 5⟩, "x"⟩ none (.int n 1),
      .loop n (.binary n .lessThan ⟨1, 20⟩ (.name n "x") (.int n 100))
        (.assign n ⟨1, 31⟩ (.name n "x") (.binary n .multiply ⟨1, 35⟩ (.name n "x") (.int n 2))),
      .name n "x"]⟩

/-- The evaluator says how every run of the program ends. -/
theorem lower_preserves_meaning_doubling :
    ∃ M, lower (checkModule doubling).tree = .ok M ∧ ∀ (sink : Sink) (input : List UInt8),
      (∀ e, (∃ steps, M.run? sink input steps = some e) ↔
        ∃ fuel, evaluate? (checkModule doubling).tree sink input fuel = some e) ∧
      ((∀ steps, M.run? sink input steps = none) ↔
        ∀ fuel, evaluate? (checkModule doubling).tree sink input fuel = none) :=
  lower_preserves_meaning (T := .int) (by cbv) (by cbv) (by cbv) (by cbv)

/-- A program that assigns to a variable in the right operand of an operator, behind a use of the
variable in the left one: `var x = 1; x + (x = 5)`. -/
def reassigning : Syntax.Module :=
  let n : Note := ⟨⟨1, 1⟩, none⟩
  ⟨⟨1, 1⟩, [], .block n
    [.declare n ⟨⟨1, 5⟩, "x"⟩ none (.int n 1),
      .binary n .add ⟨1, 14⟩ (.name n "x") (.assign n ⟨1, 19⟩ (.name n "x") (.int n 5))]⟩

/-- Without the condition on operands lowering does not keep the meaning: the left operand is read from
the variable when the operator is called, and not when the operand is evaluated. -/
theorem reassigned_operand_not_captured :
    ∃ M, lower (checkModule reassigning).tree = .ok M ∧
      M.run? {} [] 8 = some ⟨.ok (.int 10), ⟨[], "10\n"⟩⟩ ∧
      evaluate? (checkModule reassigning).tree {} [] 8 = some ⟨.ok (.int 6), ⟨[], "6\n"⟩⟩ := by
  refine ⟨?M, ?lowered, ?machine, ?evaluator⟩
  case lowered => cbv; rfl
  case machine => cbv
  case evaluator => cbv

end Exprc.Meaning
