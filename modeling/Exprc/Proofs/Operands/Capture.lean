/-
What operators and functions are called with. When the machine is at a call, it has evaluated the operands in order:
since the evaluation of each of them it has executed, in the function that calls, only the code of those behind it. So
an operand is what it was when it was evaluated, with one exception. The value of a variable stays in the variable; if an
operand behind assigns to it, the call takes what was assigned last (`operands_captured`).
-/
import Exprc.Proofs.IR.Regions
import Exprc.Proofs.Operands.Code

namespace Exprc.Lowering

open Syntax IR Typing

/-! ## Operands and the code behind them -/

section

variable {sig : String → Option Signature} {ρ? : Option Ty} {loop? : Option LoopLabels} {s s' : Stage}
  {es : List Expr} {fs : List Fragment} {j : Nat} {e : Expr} {f : Fragment} {front rest : List Instruction}

/-- Lowering comes to an operand behind those in front of it, and goes on with the others. -/
theorem LowersArguments.operand {τs : List Ty} (h : LowersArguments sig ρ? loop? s es τs fs s') (hs : s.WF)
    (he : es[j]? = some e) (hf : fs[j]? = some f) :
    ∃ s₀ s₁ τ τs₁ τs₂, s₀.WF ∧ Lowers sig ρ? loop? s₀ e τ f s₁ ∧
      LowersArguments sig ρ? loop? s (es.take (j + 1)) τs₁ (fs.take (j + 1)) s₁ ∧
      LowersArguments sig ρ? loop? s₁ (es.drop (j + 1)) τs₂ (fs.drop (j + 1)) s' := by
  induction es generalizing s τs fs j with
  | nil => cases he
  | cons a es ih =>
    cases h with
    | cons ha hes =>
      cases j with
      | zero =>
        cases he
        cases hf
        exact ⟨_, _, _, _, _, hs, ha, .cons ha .nil, hes⟩
      | succ j =>
        obtain ⟨s₀, s₁, τ, τs₁, τs₂, hs₀, hlowers, htake, hdrop⟩ := ih hes (ha.wf hs) he hf
        exact ⟨s₀, s₁, τ, _, τs₂, hs₀, hlowers, .cons ha htake, hdrop⟩

theorem Labelled.of_hasLabel {low high : Nat} {code : List Instruction} (h : Labelled low high code) {l : Label}
    (hl : HasLabel code l) : low ≤ l.number ∧ l.number < high := by
  obtain ⟨i, hi, hop⟩ := hl
  exact (h l).2 (List.countP_pos_iff.2 ⟨i, hi, by simpa using hop⟩)

/-- No jump leads into the code of the operands behind an operand. -/
theorem OperandsAt.sealed (h : OperandsAt sig ρ? loop? s es fs s' front rest) {i : Instruction} (hi : i.op.targets = [])
    (he : es[j]? = some e) (hf : fs[j]? = some f) :
    Sealed (front ++ (fs.take (j + 1)).flatMap (·.code)) ((fs.drop (j + 1)).flatMap (·.code)) (i :: rest) := by
  obtain ⟨τs, hlowers⟩ := h.lowers
  obtain ⟨s₀, s₁, τ, τs₁, τs₂, -, -, htake, hdrop⟩ := hlowers.operand h.wf he hf
  intro k hk l hl hlabel
  have hrange := hdrop.labelled.of_hasLabel hlabel
  have hle := htake.extends.label_le
  have houtside : k ∈ front ++ rest → False := fun hk => by
    have := h.outside k hk l hl
    omega
  simp only [List.mem_append, List.mem_cons] at hk houtside
  rcases hk with (hk | hk) | rfl | hk
  · exact houtside (.inl hk)
  · have := ((htake.confined h.wf).targets k hk l hl).lt h.loop hle
    omega
  · rw [hi] at hl
    cases hl
  · exact houtside (.inr hk)

/-- An operand stands for a variable, and an instruction is the copy of an assignment to a variable of that name in an
operand behind it. -/
inductive Reassigns (later : List Expr) (e : Expr) (v : Var) (i : Instruction) : Prop
  | intro {n n' : Note} {pos : Location} {x : String} {value : Expr} {w : Var} : e.standsFor? = some x →
      .assign n pos (.name n' x) value ∈ Expr.allSubexpressions later → i = ⟨n'.location, .copy w v⟩ →
      Reassigns later e v i

/-- Of the code of the operands behind an operand, only assignments to the variable for which the operand stands write
where its value is. -/
theorem OperandsAt.reassigns (h : OperandsAt sig ρ? loop? s es fs s' front rest) (he : es[j]? = some e)
    (hf : fs[j]? = some f) {i : Instruction} (hi : i ∈ (fs.drop (j + 1)).flatMap (·.code))
    (hv : f.value ∈ i.op.writes) : Reassigns (es.drop (j + 1)) e f.value i := by
  obtain ⟨τs, hlowers⟩ := h.lowers
  obtain ⟨s₀, s₁, τ, τs₁, τs₂, hs₀, hoperand, -, hdrop⟩ := hlowers.operand h.wf he hf
  have hs₁ := hoperand.wf hs₀
  cases (hdrop.confined hs₁).changes i hi _ hv with
  | @fresh k hk hvalue =>
    -- a temporary that is given out later is not where the value is
    rcases hoperand.locates hs₀ with hl | hl | ⟨k', -, hk', hl⟩
    · cases hl.symm.trans hvalue
    · obtain ⟨k', hk', hl⟩ := hs₁.owned_lt _ hl
      cases hl.symm.trans hvalue
      omega
    · cases hl.symm.trans hvalue
      omega
  | assignment hl hassign hcopy hvalue => exact .intro (hoperand.standsFor hs₀ _ hl hvalue) hassign hcopy

end

/-! ## Calls in functions -/

/-- What a call in the code of a module is for: the application of an operator or a function to the values of its parts,
or the print of the value of the top-level statements. -/
inductive CallOf (m : Syntax.Module) (fs : List Fragment) : List Expr → Instruction → Prop
  | application {e : Expr} {location : Location} {name : String} {target : Var} : e ∈ m.subexpressions →
      e.Applies location name →
      CallOf m fs e.parts ⟨location, .call (.named name) (fs.map (·.value)) target⟩
  | print {b : Builtin} {τ : Ty} {target : Var} : printer? τ = some b →
      CallOf m fs [m.body] ⟨m.body.location, .call (.named b.name) (fs.map (·.value)) target⟩

/-- A call in the code of a function, with the code of its operands in front of it and `rest` behind it. -/
structure CallSite (m : Syntax.Module) (code : List Instruction) (i : Instruction) (rest : List Instruction)
    (es : List Expr) (fs : List Fragment) : Prop where
  callOf : CallOf m fs es i
  operands : ∃ ρ? loop? s s' front, OperandsAt (signatureOf? m.functions) ρ? loop? s es fs s' front rest ∧
    code = front ++ fs.flatMap (·.code) ++ i :: rest

section

variable {m : Syntax.Module} {ρ? : Option Ty} {s s' : Stage} {before rest : List Instruction} {i : Instruction}
  {callee : Var} {arguments : List Var} {target : Var}

theorem CallFound.callSite {es : List Expr} (h : CallFound (signatureOf? m.functions) ρ? s s' es before i rest)
    (hes : es ⊆ m.subexpressions) : ∃ es fs, CallSite m (before ++ i :: rest) i rest es fs := by
  cases h with
  | intro he ha hoperands => exact ⟨_, _, .application (hes he) ha, _, _, _, _, _, hoperands, rfl⟩

/-- A call in the code of a whole body, with some code behind it, is in the code of the body or in that behind it. -/
theorem Lowers.callSite {e : Expr} {τ : Ty} {g : Fragment} {post : List Instruction}
    (h : Lowers (signatureOf? m.functions) ρ? none s e τ g s') (hs : s.WF) (he : e.subexpressions ⊆ m.subexpressions)
    (hpost : ∀ j ∈ post, j.op.targets = []) (hcode : g.code ++ post = before ++ i :: rest)
    (hi : i.op = .call callee arguments target) :
    (∃ es fs, CallSite m (g.code ++ post) i rest es fs) ∨ ∃ as, before = g.code ++ as ∧ post = as ++ i :: rest := by
  rcases append_eq_append_cons hcode with hbehind | ⟨rest, hg, rfl⟩
  · exact .inr hbehind
  · have hfound := (h.callFound hs (.none s) hg hi).inFront fun j hj l hl => by
      rw [hpost j hj] at hl
      cases hl
    rw [hcode]
    exact .inl (hfound.callSite he)

theorem LowersFunction.callSite {f : FunctionDefinition} {F : Function}
    (h : LowersFunction (signatureOf? m.functions) s f F s') (hs : s.Outside) (hf : f ∈ m.functions)
    (hcode : F.code = before ++ i :: rest) (hi : i.op = .call callee arguments target) :
    ∃ es fs, CallSite m F.code i rest es fs := by
  obtain ⟨g, s₁, post, hg, -, hF, -, hpost, -⟩ := h.body
  have hleave : ∀ j ∈ post, j.op = .leave g.value := by
    rcases hpost with ⟨rfl, -⟩ | rfl <;> simp
  have hbody : f.body.subexpressions ⊆ m.subexpressions :=
    List.subset_append_of_subset_left _ fun a ha => List.mem_flatMap.2 ⟨f, hf, ha⟩
  rw [hF] at hcode ⊢
  rcases hg.callSite (hs.wf.enter.declareAll _) hbody (fun j hj => by rw [hleave j hj]; rfl) hcode hi with
    hsite | ⟨as, -, has⟩
  · exact hsite
  · have hop := hleave i (by rw [has]; exact List.mem_append_right _ List.mem_cons_self)
    cases hi.symm.trans hop

theorem LowersEntry.callSite {τ : Ty} {F : Function} (h : LowersEntry (signatureOf? m.functions) s m.body τ F s')
    (hs : s.Outside) (hcode : F.code = before ++ i :: rest) (hi : i.op = .call callee arguments target) :
    ∃ es fs, CallSite m F.code i rest es fs := by
  have hbody : m.body.subexpressions ⊆ m.subexpressions := List.subset_append_right _ _
  cases h with
  | silent hg _ =>
    rw [← List.append_nil (Fragment.code _)] at hcode ⊢
    rcases hg.callSite hs.wf hbody (by simp) hcode hi with hsite | ⟨as, -, has⟩
    · exact hsite
    · exact absurd has (by simp)
  | @printing s₁ _ _ g b hg hb =>
    simp only [applied, List.flatMap_singleton] at hcode ⊢
    rcases hg.callSite hs.wf hbody (by simp [emit, Op.targets]) hcode hi with hsite | ⟨_ | ⟨a, as⟩, -, has⟩
    · exact hsite
    · -- the value of the statements is printed
      obtain ⟨rfl, rfl⟩ := List.cons.inj has
      refine ⟨[m.body], [g], .print hb, none, none, s, s₁, [],
        ⟨⟨[τ], .cons hg .nil⟩, hs.wf, .none s, List.forall_mem_nil _⟩, ?_⟩
      simp [emit]
    · exact absurd (congrArg List.length has) (by simp [emit])

theorem LowersModule.callSite {τ : Ty} {M : IR.Module} {F : Function} (h : LowersModule m τ M) (hF : F ∈ M.functions)
    (hcode : F.code = before ++ i :: rest) (hi : i.op = .call callee arguments target) :
    ∃ es fs, CallSite m F.code i rest es fs := by
  rcases h.exists_of_mem hF with ⟨f, hf, s, s', hfF, hs⟩ | ⟨s, s', he, hs⟩
  · exact hfF.callSite hs hf hcode hi
  · exact he.callSite hs hcode hi

end

/-! ## Runs -/

/-- What a call at `t` takes for an operand that was evaluated at `s`: what it was then; or the operand stands for a
variable to which an operand behind it has assigned since, and the call takes what the variable was given last. -/
inductive Receives (M : IR.Module) (sink : Sink) (later : List Expr) (code rest : List Instruction) (e : Expr) (v : Var)
    (s t : IR.State) : Prop
  | kept : t.active.frame.read? v = s.active.frame.read? v → Receives M sink later code rest e v s t
  | reassigned {u u' : IR.State} {copy : Instruction} {r : List Instruction} : Reassigns later e v copy →
      Through M sink code rest s u → u.active.rest = copy :: r → Executes M sink u u' →
      Relation.ReflTransGen (Executes M sink) u' t → t.active.frame.read? v = u'.active.frame.read? v →
      Receives M sink later code rest e v s t

/-- In a run of an accepted module the operands of every call, of an operator or of a function, have been evaluated in
order. Since the evaluation of an operand the machine has executed, in the function that calls, only the code of the
operands behind it; and the call takes what the operand was then, unless the operand stands for a variable to which one
of those behind it has assigned in between. -/
theorem operands_captured {m : Syntax.Module} {T : Ty} {M : IR.Module} (h : (checkModule m).outcome = .ok T)
    (hM : lower (checkModule m).tree = .ok M) (sink : Sink) {input : List UInt8} {n : Nat} {first t : IR.State}
    (hstart : M.start input = .running first) (ht : Steps M sink n first t) {i : Instruction}
    {rest : List Instruction} (hrest : t.active.rest = i :: rest) {callee : Var} {arguments : List Var} {target : Var}
    (hi : i.op = .call callee arguments target) :
    ∃ es fs, CallSite (checkModule m).tree t.active.function.code i rest es fs ∧
      ∀ j e f, es[j]? = some e → fs[j]? = some f → ∃ k s, k ≤ n ∧ Steps M sink k first s ∧
        Through M sink ((fs.drop (j + 1)).flatMap (·.code)) (i :: rest) s t ∧
        Receives M sink (es.drop (j + 1)) ((fs.drop (j + 1)).flatMap (·.code)) (i :: rest) e f.value s t := by
  have hof := (Module.start_running hstart).1.steps ht
  obtain ⟨before, hcode⟩ := hof.active.suffix
  rw [hrest] at hcode
  obtain ⟨es, fs, hsite⟩ := (lower_checked h hM).callSite hof.active.mem hcode.symm hi
  refine ⟨es, fs, hsite, fun j e f he hf => ?_⟩
  obtain ⟨ρ?, loop?, s₀, s₁, front, hoperands, hcode⟩ := hsite.operands
  have hsealed := hoperands.sealed (i := i) (by rw [hi]; rfl) he hf
  have hsplit : t.active.function.code = front ++ (fs.take (j + 1)).flatMap (·.code) ++
      (fs.drop (j + 1)).flatMap (·.code) ++ i :: rest := by
    rw [hcode, List.append_assoc front ((fs.take (j + 1)).flatMap _), ← List.flatMap_append, List.take_append_drop]
  obtain ⟨k, s, hk, hs, hthrough⟩ := Steps.through hstart hsealed ht hsplit (q := []) hrest (List.nil_suffix)
  refine ⟨k, s, hk, hs, hthrough, ?_⟩
  rcases hthrough.read? f.value with hsame | ⟨u, u', copy, r, hu, hr, hmem, hwrites, huu, hut, hsame⟩
  · exact .kept hsame
  · exact .reassigned (hoperands.reassigns he hf hmem hwrites) hu hr huu hut hsame

/-- A program that adds to a variable: `var x = 1; x + 2`. -/
def adding : Syntax.Module :=
  let n : Note := ⟨⟨1, 1⟩, none⟩
  ⟨⟨1, 1⟩, [], .block n
    [.declare n ⟨⟨1, 5⟩, "x"⟩ none (.int n 1), .binary n .add ⟨1, 14⟩ (.name n "x") (.int n 2)]⟩

/-- After three steps the machine is at the call of `+`. -/
theorem operands_captured_adding :
    ∃ M first t i rest callee arguments target, lower (checkModule adding).tree = .ok M ∧
      M.start [] = .running first ∧ Steps M {} 3 first t ∧ t.active.rest = i :: rest ∧
      i.op = .call callee arguments target ∧
      ∃ es fs, CallSite (checkModule adding).tree t.active.function.code i rest es fs ∧
        ∀ j e f, es[j]? = some e → fs[j]? = some f → ∃ k s, k ≤ 3 ∧ Steps M {} k first s ∧
          Through M {} ((fs.drop (j + 1)).flatMap (·.code)) (i :: rest) s t ∧
          Receives M {} (es.drop (j + 1)) ((fs.drop (j + 1)).flatMap (·.code)) (i :: rest) e f.value s t := by
  obtain ⟨M, first, t, i, rest, callee, arguments, target, hM, hstart, ht, hrest, hi⟩ :
      ∃ M first t i rest callee arguments target, lower (checkModule adding).tree = .ok M ∧
        M.start [] = .running first ∧ Steps M {} 3 first t ∧ t.active.rest = i :: rest ∧
        i.op = .call callee arguments target := by
    refine ⟨?M, ?first, ?t, ?i, ?rest, ?callee, ?arguments, ?target, ?lowered, ?start, ?steps, ?hrest, ?hi⟩
    case lowered => cbv; rfl
    case start => cbv; rfl
    case steps => exact .step (by cbv) (.step (by cbv) (.step (by cbv; rfl) (.refl _)))
    case hrest => rfl
    case hi => rfl
  exact ⟨M, first, t, i, rest, callee, arguments, target, hM, hstart, ht, hrest, hi,
    operands_captured (T := .int) (by cbv) hM {} hstart ht hrest hi⟩

end Exprc.Lowering
