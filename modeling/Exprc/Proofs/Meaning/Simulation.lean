/-
Fragments that do what the evaluator says. Wherever the fragment of an expression stands in the code of
a function, a machine that begins to execute it with the variables of the evaluator in its frame matches
the result of the evaluation. A fragment that assigns nothing leaves the temporaries alone that were
given out before it; this is why the value of an operand survives the operands behind it.
-/
import Exprc.Proofs.Lowering.Labels
import Exprc.Proofs.Meaning.Matching
import Exprc.Proofs.Meaning.Placement

namespace Exprc.Meaning

open Syntax IR Lowering Typing

/-! ## What holds behind a fragment -/

/-- What holds of the frame where control goes on, if it was `before` at the start: it holds the
variables in scope, and, if nothing was assigned, the temporaries below `n` as before. -/
structure Keeps (Δ : Locals) (n : Nat) (assigns : Bool) (before : Frame) (env : Env)
    (frame : Frame) : Prop where
  related : Related Δ env frame
  kept : assigns = false → ∀ k < n, frame.read? (.temp k) = before.read? (.temp k)

/-- What holds behind a fragment with a value. -/
structure Yields (Δ : Locals) (n : Nat) (assigns : Bool) (before : Frame) (x : Var) (τ : Ty)
    (v : Value) (env : Env) (frame : Frame) : Prop
    extends Keeps Δ n assigns before env frame where
  read : frame.read? x = some v
  ty : v.ty = τ

namespace Keeps

variable {Δ Δ' : Locals} {n n' k : Nat} {a b : Bool} {before frame frame' : Frame} {env env' : Env}

theorem refl (h : Related Δ env frame) : Keeps Δ n a frame env frame := ⟨h, fun _ _ _ => rfl⟩

theorem mono (h : Keeps Δ n a before env frame) (hb : b = false → a = false) :
    Keeps Δ n b before env frame := ⟨h.related, fun hb' => h.kept (hb hb')⟩

theorem trans (h : Keeps Δ n b before env frame) (h' : Keeps Δ' n' a frame env' frame')
    (hn : n ≤ n') (ha : b = false → a = false) : Keeps Δ' n b before env' frame' :=
  ⟨h'.related, fun hb k hk =>
    (h'.kept (ha hb) k (Nat.lt_of_lt_of_le hk hn)).trans (h.kept hb k hk)⟩

/-- Writing to a temporary that was given out since and that no variable in scope owns. -/
theorem write (h : Keeps Δ n a before env frame) (hΔ : ∀ ls ∈ Δ, ∀ l ∈ ls, l.temp ≠ k)
    (hn : n ≤ k) (v : Value) : Keeps Δ n a before env (frame.write (.temp k) v) :=
  ⟨h.related.write hΔ v, fun ha i hi => by
    rw [Frame.read?_write_of_ne _ (fun he => by cases he; omega)]
    exact h.kept ha i hi⟩

/-- Writing a value to the temporary that is given out next. -/
theorem fresh {s : Stage} (hs : s.WF) (hΔ : s.locals = Δ) (h : Keeps Δ n a before env frame)
    (hn : n ≤ s.nextTemp) {v : Value} {τ : Ty} (hv : v.ty = τ) :
    Yields Δ n a before (.temp s.nextTemp) τ v env (frame.write (.temp s.nextTemp) v) := by
  subst hΔ
  exact ⟨h.write (fun _ hls _ hl => Nat.ne_of_lt (hs.temp_lt hls hl)) hn v,
    Frame.read?_write_temp .., hv⟩

/-- A value that was computed before is still where it was if nothing was assigned. -/
theorem read {s : Stage} {low : Nat} {x : Var} (h : Keeps Δ s.nextTemp a before env frame)
    (ha : a = false) (hs : s.WF) (hx : s.Locates low x) : frame.read? x = before.read? x := by
  rcases hx with rfl | hx | ⟨k, -, hk, rfl⟩
  · rfl
  · obtain ⟨k, hk, rfl⟩ := hs.owned_lt x hx
    exact h.kept ha k hk
  · exact h.kept ha k hk

theorem tail (h : Keeps Δ n a before env frame) : Keeps Δ.tail n a before env.tail frame :=
  ⟨h.related.tail, h.kept⟩

end Keeps

/-! ## Simulation -/

/-- The labels of the loop around an expression, if there is one, stand in the code. -/
def Resolves (p : Spot) (loop? : Option LoopLabels) : Prop :=
  ∀ labels, loop? = some labels → ∀ c, ∃ code,
    codeBehind? (labels.target c) p.function.code = some code

theorem Resolves.none {p : Spot} : Resolves p none := fun _ h => nomatch h

section

variable (M : IR.Module) (sink : Sink) (p : Spot) (ρ? : Option Ty) (loop? : Option LoopLabels)
  (fuel : Nat)

/-- The fragment `f` of an expression does what an evaluation `run` says. `Δ` is in scope before the
expression and `Δ'` behind it, and `n` is the number of the temporary to give out next. -/
def Simulates (Δ Δ' : Locals) (n : Nat) (e : Expr) (τ : Ty) (f : Fragment)
    (run : Store → Result) : Prop :=
  ∀ (post : List Instruction) (frame : Frame) (st : Store), f.code ++ post <:+ p.function.code →
    Related Δ st.env frame →
    Matches M sink p ρ? loop? (Keeps Δ n e.assigns frame) fuel
      (p.at (f.code ++ post) frame st.world) post (Yields Δ' n e.assigns frame f.value τ) (run st)

/-- The evaluator with some fuel and lowered code agree on every expression, wherever it stands. -/
def Simulated (m : Syntax.Module) : Prop :=
  ∀ {p : Spot} {ρ? : Option Ty} {loop? : Option LoopLabels} {s s' : Stage} {e : Expr} {τ : Ty}
    {f : Fragment}, Lowers (signatureOf? m.functions) ρ? loop? s e τ f s' → s.WF →
    Unambiguous p.function.code → Resolves p loop? → e.declaresInBlocks = true →
    e.operandsSettled = true →
    Simulates M sink p ρ? loop? fuel s.locals s'.locals s.nextTemp e τ f
      (eval m sink fuel p.waiting.length e)

/-- What is known of a module when the evaluator gets one more unit of fuel. -/
structure Ready (m : Syntax.Module) (T : Ty) : Prop where
  lowers : LowersModule m T M
  simulated : Simulated M sink fuel m
  bodies : ∀ fd ∈ m.functions, fd.body.declaresInBlocks = true ∧ fd.body.operandsSettled = true

end

section

variable {m : Syntax.Module} {T : Ty} {M : IR.Module} {sink : Sink} {p : Spot} {ρ? : Option Ty}
  {loop? : Option LoopLabels} {fuel : Nat} {Δ Δ' : Locals} {n n' : Nat} {e : Expr} {τ : Ty}
  {f : Fragment} {run : Store → Result} {post post' : List Instruction} {before frame : Frame}
  {st : Store} {b : Bool} {good : Value → Env → Frame → Prop}

/-- An expression that leaves what is in scope as it was. -/
theorem Simulates.inScope {s s' : Stage}
    (h : Simulates M sink p ρ? loop? fuel s.locals s'.locals n e τ f run) (hl : s.locals = Δ)
    (hl' : s'.locals = Δ) : Simulates M sink p ρ? loop? fuel Δ Δ n e τ f run := by
  rwa [hl, hl'] at h

/-- Going on behind an expression, which may stand behind others. -/
theorem Simulates.andThen {next : Value → Store → Result}
    (h : Simulates M sink p ρ? loop? fuel Δ Δ' n' e τ f run)
    (hcode : f.code ++ post <:+ p.function.code) (hk : Keeps Δ n b before st.env frame)
    (hn : n ≤ n') (hb : b = false → e.assigns = false)
    (hnext : ∀ v st' frame', Yields Δ' n b before f.value τ v st'.env frame' →
      Matches M sink p ρ? loop? (Keeps Δ n b before) fuel (p.at post frame' st'.world) post' good
        (next v st')) :
    Matches M sink p ρ? loop? (Keeps Δ n b before) fuel (p.at (f.code ++ post) frame st.world) post'
      good ((run st).andThen next) := by
  have h' : Matches M sink p ρ? loop? (Keeps Δ n b before) fuel _ post
      (Yields Δ' n b before f.value τ) (run st) :=
    (h post frame st hcode hk.related).imp (fun _ _ _ hy => ⟨hk.trans hy.toKeeps hn hb, hy.read, hy.ty⟩)
      fun _ _ h' => hk.trans h' hn hb
  exact h'.andThen hnext

/-- Bringing the value of a first branch to the variable that the branches merge into. -/
theorem matches_merge {location : Location} {s s' : Stage} {x : Var} {g : Fragment} {v : Value}
    {env : Env} {world : World} {kept : Env → Frame → Prop} {r : Result}
    (h : Merges location τ s x g s') (hs : s.WF) (hΔ : s.locals = Δ) (hn : n ≤ s.nextTemp)
    (hy : Yields Δ n b before x τ v env frame)
    (hnext : ∀ frame', Yields Δ n b before g.value τ v env frame' →
      Matches M sink p ρ? loop? kept fuel (p.at post frame' world) post' good r) :
    Matches M sink p ρ? loop? kept fuel (p.at (g.code ++ post) frame world) post' good r := by
  cases h with
  | reuse => exact hnext frame hy
  | copy => exact .step (step_copy hy.read) (hnext _ (hy.toKeeps.fresh hs hΔ hn hy.ty))

theorem Result.andThen_value (r : Result) : (r.andThen fun v st => some (.value v, st)) = r := by
  match r with
  | none | some (.value _, _) | some (.jump _, _) | some (.leave _, _) | some (.fault _, _) => rfl

/-! ## Calls -/

variable {s : Stage} {location : Location} {xs : List Var} {vs : List Value}
  {kept : Env → Frame → Prop} {a : Bool}

/-- A call of a built-in function goes on with its result, or fails. -/
theorem step_builtin (hM : LowersModule m T M) {b : Builtin} {target : Var} {world : World}
    (hxs : List.Forall₂ (fun x v => frame.read? x = some v) xs vs) :
    (p.at (⟨location, .call (.named b.name) xs target⟩ :: post) frame world).step M sink =
      match world.callBuiltin sink b vs with
      | (.ok v, world) => .running (p.at post (frame.write target v) world)
      | (.error cause, world) => .ended ⟨.error (.at location cause), world⟩ := by
  rw [step_call hxs]
  simp only [State.call, hM.function?_builtin b, Builtin.ofName?_name, Spot.at]
  rcases world.callBuiltin sink b vs with ⟨_ | _, _⟩ <;> rfl

/-- Calling a built-in function on operands that the checker allows. -/
theorem matches_builtin (hM : LowersModule m T M) {b : Builtin} {τs : List Ty}
    (hb : operatorResult b τs = .ok τ) (hvs : vs.map Value.ty = τs)
    (hxs : List.Forall₂ (fun x v => frame.read? x = some v) xs vs) (hs : s.WF)
    (hn : n ≤ s.nextTemp) (hk : Keeps s.locals n a before st.env frame) :
    Matches M sink p ρ? loop? kept fuel
      (p.at (⟨location, .call (.named b.name) xs (.temp s.nextTemp)⟩ :: post) frame st.world) post
      (Yields s.locals n a before (.temp s.nextTemp) τ) (applyBuiltin sink location b vs st) := by
  have hsound := World.callBuiltin_sound hb hvs st.world sink
  unfold applyBuiltin
  rcases hr : st.world.callBuiltin sink b vs with ⟨cause | v, world⟩
  · exact ⟨0, _, .refl _, (step_builtin hM hxs).trans (by rw [hr])⟩
  · rw [hr] at hsound
    exact ⟨1, frame.write (.temp s.nextTemp) v, .single ((step_builtin hM hxs).trans (by rw [hr])),
      hk.fresh hs rfl hn hsound⟩

/-- A call of a declared function begins to execute its code, unless there are too many calls. -/
theorem step_declared {name : String} {F : Function} {target : Var} {world : World}
    (hF : M.function? name = some F) (hname : F.name = name)
    (hlen : vs.length = F.parameters.length)
    (hxs : List.Forall₂ (fun x v => frame.read? x = some v) xs vs) :
    (p.at (⟨location, .call (.named name) xs target⟩ :: post) frame world).step M sink =
      if maxDepth ≤ p.waiting.length + 1 then
        .ended ⟨.error (.at location (.stackOverflow name)), world⟩
      else .running ⟨⟨F, F.code, .ofArguments F.parameters vs⟩,
        ⟨⟨p.function, post, frame⟩, target⟩ :: p.waiting, world⟩ := by
  rw [step_call hxs]
  simp only [State.call, hF, activate, Spot.at, hname]
  split
  · rfl
  · rw [if_neg (by simpa using hlen)]; rfl

/-- Arguments are to parameters what the values of variables are to variables. -/
theorem related_parameters :
    ∀ (ps : List Parameter) {s : Stage} {env : Env} {frame : Frame} {vs : List Value}, s.WF →
      Related s.locals env frame → vs.map Value.ty = ps.map (·.written.ty) →
      Related (s.declareAll ps).locals
        ((ps.zip vs).foldl (fun env (p, v) => env.declare p.name.text v) env)
        (frame.writeAll (((List.range' s.nextTemp ps.length).map .temp).zip vs))
  | [], _, _, _, [], _, h, _ => h
  | p :: ps, s, env, frame, v :: vs, hs, h, hvs => by
    obtain ⟨hv, hvs⟩ := List.cons.inj hvs
    exact related_parameters ps (hs.declare _ _) (h.declare hs p.name.text hv) hvs

/-- The code of a declared function does what the evaluator says of the body, and then returns. -/
theorem matches_body (hsim : Simulated M sink fuel m) {fd : FunctionDefinition} {F : Function}
    {s₁ s₂ : Stage} (hF : LowersFunction (signatureOf? m.functions) s₁ fd F s₂) (hs₁ : s₁.Outside)
    (hd : fd.body.declaresInBlocks = true) (ho : fd.body.operandsSettled = true)
    (hvs : vs.map Value.ty = fd.signature.parameters) (ws : List Waiting) (world : World) :
    ∃ post, Matches M sink ⟨F, ws⟩ (some fd.result.ty) none (fun _ _ => True) fuel
      ⟨⟨F, F.code, .ofArguments F.parameters vs⟩, ws, world⟩ post
      (fun v _ frame => v.ty = fd.result.ty ∧ ∀ w, Returns (Spot.at ⟨F, ws⟩ post frame w) v)
      (eval m sink fuel ws.length fd.body ⟨.ofArguments fd.parameters vs, world⟩) := by
  have hunique := hF.unambiguous
  obtain ⟨g, s', post, hg, hparams, hcode, hresult, hpost, -⟩ := hF.body
  have hstart : Related s₁.enter.locals [[], []] [] := by
    rw [Stage.enter, hs₁.locals]
    exact .cons .nil (.cons .nil .nil)
  have hrel := related_parameters fd.parameters hs₁.wf.enter hstart hvs
  have hsuffix : g.code ++ post <:+ F.code := by simp only [hcode, List.suffix_refl]
  have h := hsim (p := ⟨F, ws⟩) hg (hs₁.wf.enter.declareAll fd.parameters) hunique .none hd ho post
    _ ⟨.ofArguments fd.parameters vs, world⟩ hsuffix hrel
  refine ⟨post, ?_⟩
  rw [hcode, hparams]
  refine h.imp (fun v env frame hy => ⟨hy.ty, fun w => ?_⟩) fun _ _ _ => trivial
  rcases hpost with ⟨rfl, -⟩ | rfl
  · exact .atEnd rfl (hresult ▸ hy.read)
  · exact .atLeave rfl rfl hy.read

/-- Calling a declared function with arguments of the types of its parameters. -/
theorem matches_declared (hsim : Simulated M sink fuel m) {name : String}
    {fd : FunctionDefinition} {F : Function} {s₁ s₂ : Stage}
    (hfd : m.functions.find? (·.name.text == name) = some fd) (hname : M.function? name = some F)
    (hF : LowersFunction (signatureOf? m.functions) s₁ fd F s₂) (hs₁ : s₁.Outside)
    (hd : fd.body.declaresInBlocks = true) (ho : fd.body.operandsSettled = true)
    (hvs : vs.map Value.ty = fd.signature.parameters)
    (hxs : List.Forall₂ (fun x v => frame.read? x = some v) xs vs) (hs : s.WF)
    (hn : n ≤ s.nextTemp) (hk : Keeps s.locals n a before st.env frame) :
    Matches M sink p ρ? loop? kept (fuel + 1)
      (p.at (⟨location, .call (.named name) xs (.temp s.nextTemp)⟩ :: post) frame st.world) post
      (Yields s.locals n a before (.temp s.nextTemp) fd.result.ty)
      (applyFunction m sink (eval m sink fuel) p.waiting.length location name vs st) := by
  have hFname : F.name = name := hF.name.trans (by simpa using List.find?_some hfd)
  have hlen : vs.length = F.parameters.length := by
    have : vs.length = fd.parameters.length := by
      simpa [FunctionDefinition.signature] using congrArg List.length hvs
    cases hF; simpa using this
  have hstep : (p.at (⟨location, .call (.named name) xs (.temp s.nextTemp)⟩ :: post) frame
      st.world).step M sink = _ := step_declared hname hFname hlen hxs
  simp only [applyFunction, hfd]
  split
  · rename_i hdepth
    exact ⟨0, _, .refl _, hstep.trans (if_pos hdepth)⟩
  · rename_i hdepth
    obtain ⟨tail, h⟩ := matches_body hsim hF hs₁ hd ho hvs
      (⟨⟨p.function, post, frame⟩, .temp s.nextTemp⟩ :: p.waiting) st.world
    rw [List.length_cons] at h
    rw [if_neg hdepth] at hstep
    -- a machine that returns from the function writes the value where the call wants it
    have hback : ∀ {k t v world}, Steps M sink k ⟨⟨F, F.code, .ofArguments F.parameters vs⟩,
          ⟨⟨p.function, post, frame⟩, .temp s.nextTemp⟩ :: p.waiting, st.world⟩ t →
        t.waiting = ⟨⟨p.function, post, frame⟩, .temp s.nextTemp⟩ :: p.waiting → t.world = world →
        Returns t v → v.ty = fd.result.ty →
        Matches M sink p ρ? loop? kept (fuel + 1)
          (p.at (⟨location, .call (.named name) xs (.temp s.nextTemp)⟩ :: post) frame st.world)
          post (Yields s.locals n a before (.temp s.nextTemp) fd.result.ty)
          (some (.value v, { st with world })) := by
      intro k t v world hk' hw hworld hr hv
      rcases step_returns (M := M) hr with ⟨-, hnone⟩ | ⟨w, ws, hws, ht⟩
      · rw [hw] at hnone; cases hnone
      · rw [hw] at hws
        obtain ⟨rfl, rfl⟩ := List.cons.inj hws
        exact ⟨_, _, (Steps.step hstep hk').snoc (hworld ▸ ht), hk.fresh hs rfl hn hv⟩
    generalize eval m sink fuel _ _ _ = r at h ⊢
    match r, h with
    | none, ⟨k, t, hk', ht⟩ => exact ⟨k + 1, t, by omega, .step hstep ht⟩
    | some (.value _, st'), ⟨k, frame', ht, hv, hr⟩ => exact hback ht rfl rfl (hr _) hv
    | some (.leave _, st'), ⟨k, t, ht, _, hw, hworld, hr, hv⟩ =>
      exact hback ht hw hworld hr (Option.some.inj hv).symm
    | some (.fault c, st'), ⟨k, t, ht, hc⟩ => exact ⟨k + 1, t, .step hstep ht, hc⟩
    | some (.jump c, st'), ⟨labels, code, k, frame', hl, _⟩ => cases hl

/-- Calling what the checker allows. -/
theorem matches_call (hR : Ready M sink fuel m T) {name : String} {σ : Signature}
    (hσ : signatureOf? m.functions name = some σ) (hvs : vs.map Value.ty = σ.parameters)
    (hxs : List.Forall₂ (fun x v => frame.read? x = some v) xs vs) (hs : s.WF)
    (hn : n ≤ s.nextTemp) (hk : Keeps s.locals n a before st.env frame) :
    Matches M sink p ρ? loop? kept (fuel + 1)
      (p.at (⟨location, .call (.named name) xs (.temp s.nextTemp)⟩ :: post) frame st.world) post
      (Yields s.locals n a before (.temp s.nextTemp) σ.result)
      (applyFunction m sink (eval m sink fuel) p.waiting.length location name vs st) := by
  unfold signatureOf? at hσ
  cases hfd : m.functions.find? (·.name.text == name) with
  | some fd =>
    rw [hfd] at hσ
    cases hσ
    obtain ⟨F, s₁, s₂, hname, hF, hs₁⟩ := hR.lowers.function? hfd
    obtain ⟨hd, ho⟩ := hR.bodies fd (List.mem_of_find?_eq_some hfd)
    exact matches_declared hR.simulated hfd hname hF hs₁ hd ho hvs hxs hs hn hk
  | none =>
    rw [hfd] at hσ
    obtain ⟨b, hb, hbσ⟩ := Option.bind_eq_some_iff.1 hσ
    obtain rfl : b.name = name := by simpa using List.find?_some hb
    simp only [applyFunction, hfd, hb]
    exact matches_builtin hR.lowers (operatorResult_of_signature hbσ) hvs hxs hs hn hk

end

end Exprc.Meaning
