/-
What it means that a machine does what the evaluator says. A machine that begins to execute a fragment
matches the result of an evaluation if it gets to where the result leads: behind the fragment with
the value, to the label of a loop control, to a return, or to a failure. If the evaluation runs out of
fuel, the machine makes at least as many steps without an end.
-/
import Exprc.Proofs.IR.Run
import Exprc.Proofs.Meaning.Cells

namespace Exprc.Meaning

open Syntax IR Lowering

/-! ## Machines at work on a function -/

/-- A function that is being executed, and the functions that wait. -/
structure Spot where
  function : Function
  waiting : List Waiting

/-- A machine that has some code left to execute. -/
def Spot.at (p : Spot) (rest : List Instruction) (frame : Frame) (world : World) : IR.State :=
  ⟨⟨p.function, rest, frame⟩, p.waiting, world⟩

section

variable {M : IR.Module} {sink : Sink} {p : Spot} {location : Location} {rest code : List Instruction}
  {frame : Frame} {world : World}

theorem step_loadInt {n : Int64} {target : Var} :
    (p.at (⟨location, .loadInt n target⟩ :: rest) frame world).step M sink =
      .running (p.at rest (frame.write target (.int n)) world) := rfl

theorem step_loadBool {b : Bool} {target : Var} :
    (p.at (⟨location, .loadBool b target⟩ :: rest) frame world).step M sink =
      .running (p.at rest (frame.write target (.bool b)) world) := rfl

theorem step_copy {source target : Var} {v : Value} (h : frame.read? source = some v) :
    (p.at (⟨location, .copy source target⟩ :: rest) frame world).step M sink =
      .running (p.at rest (frame.write target v) world) := by
  change State.andThen _ (frame.read location source) _ = _
  rw [Frame.read_eq_ok_iff.2 h]; rfl

theorem step_label {l : Label} :
    (p.at (⟨location, .label l⟩ :: rest) frame world).step M sink =
      .running (p.at rest frame world) := rfl

theorem goto_eq {l : Label} (h : codeBehind? l p.function.code = some code) :
    (p.at rest frame world).goto location l = .running (p.at code frame world) := by
  unfold State.goto
  dsimp only [Spot.at]
  rw [h]

theorem step_jump {l : Label} (h : codeBehind? l p.function.code = some code) :
    (p.at (⟨location, .jump l⟩ :: rest) frame world).step M sink =
      .running (p.at code frame world) := goto_eq h

theorem step_branch {condition : Var} {ifTrue ifFalse : Label} {b : Bool}
    (hc : frame.read? condition = some (.bool b))
    (h : codeBehind? (if b then ifTrue else ifFalse) p.function.code = some code) :
    (p.at (⟨location, .branch condition ifTrue ifFalse⟩ :: rest) frame world).step M sink =
      .running (p.at code frame world) := by
  change State.andThen _ (frame.read location condition) _ = _
  rw [Frame.read_eq_ok_iff.2 hc]
  cases b <;> exact goto_eq h

/-- The branch of an operator that skips its right operand if the left one decides. -/
theorem step_decide {condition : Var} {skip right : Label} {b decided : Bool}
    (hc : frame.read? condition = some (.bool b))
    (h : codeBehind? (if b = decided then skip else right) p.function.code = some code) :
    (p.at (⟨location, if decided then .branch condition skip right
        else .branch condition right skip⟩ :: rest) frame world).step M sink =
      .running (p.at code frame world) := by
  cases decided <;> cases b <;> exact step_branch hc h

theorem mapM_read {xs : List Var} {vs : List Value}
    (h : List.Forall₂ (fun x v => frame.read? x = some v) xs vs) :
    xs.mapM (frame.read location) = .ok vs := by
  induction h with
  | nil => rfl
  | cons hv _ ih => rw [List.mapM_cons, Frame.read_eq_ok_iff.2 hv, ih]; rfl

/-- A call executes with the values of its arguments. -/
theorem step_call {name : String} {xs : List Var} {target : Var} {vs : List Value}
    (h : List.Forall₂ (fun x v => frame.read? x = some v) xs vs) :
    (p.at (⟨location, .call (.named name) xs target⟩ :: rest) frame world).step M sink =
      (p.at rest frame world).call M sink location (.named name) vs target := by
  change State.andThen _ (xs.mapM (frame.read location)) _ = _
  rw [mapM_read h]; rfl

/-- A machine that is about to return a value does so next. -/
theorem step_returns {s : IR.State} {v : Value} (h : Returns s v) :
    s.step M sink = .ended (Meaning.finish sink v s.world) ∧ s.waiting = [] ∨
      ∃ w ws, s.waiting = w :: ws ∧
        s.step M sink =
          .running ⟨{ w.caller with frame := w.caller.frame.write w.target v }, ws, s.world⟩ := by
  have hleave : ∃ s', s.step M sink = State.leave sink s' v ∧ s'.waiting = s.waiting ∧
      s'.world = s.world := by
    cases h with
    | atEnd hrest hv =>
      refine ⟨s, ?_, rfl, rfl⟩
      unfold State.step
      rw [hrest]
      change State.andThen s (s.active.frame.read _ _) _ = _
      rw [Frame.read_eq_ok_iff.2 hv]; rfl
    | @atLeave i rest x hrest hop hv =>
      refine ⟨{ s with active := { s.active with rest } }, ?_, rfl, rfl⟩
      unfold State.step
      rw [hrest]
      dsimp only
      unfold State.execute
      rw [hop]
      change State.andThen _ (s.active.frame.read _ _) _ = _
      rw [Frame.read_eq_ok_iff.2 hv]; rfl
  obtain ⟨s', hs, hw, hworld⟩ := hleave
  rw [hs]
  unfold State.leave
  rw [hw, hworld]
  cases hws : s.waiting with
  | nil =>
    refine .inl ⟨?_, rfl⟩
    dsimp only
    unfold finish
    split <;> simp_all
  | cons w ws => exact .inr ⟨w, ws, rfl, by simp [State.write]⟩

end

/-! ## Results that a machine gets to -/

/-- A machine at `start` gets to where a result leads. `post` is the code behind the fragment and
`good` what holds there of the value, the variables and the frame; `kept` is what holds of the
variables and the frame where a loop control leads, which takes at least one step. -/
def Matches (M : IR.Module) (sink : Sink) (p : Spot) (ρ? : Option Ty) (loop? : Option LoopLabels)
    (kept : Env → Frame → Prop) (fuel : Nat) (start : IR.State) (post : List Instruction)
    (good : Value → Env → Frame → Prop) : Result → Prop
  | none => ∃ n t, fuel ≤ n ∧ Steps M sink n start t
  | some (.value v, st) =>
    ∃ n frame, Steps M sink n start (p.at post frame st.world) ∧ good v st.env frame
  | some (.jump c, st) => ∃ labels code n frame, loop? = some labels ∧
    codeBehind? (labels.target c) p.function.code = some code ∧ 0 < n ∧
    Steps M sink n start (p.at code frame st.world) ∧ kept st.env frame
  | some (.leave v, st) => ∃ n t, Steps M sink n start t ∧ t.active.function = p.function ∧
    t.waiting = p.waiting ∧ t.world = st.world ∧ Returns t v ∧ ρ? = some v.ty
  | some (.fault f, st) => ∃ n t, Steps M sink n start t ∧ t.step M sink = .ended ⟨.error f, st.world⟩

namespace Matches

variable {M : IR.Module} {sink : Sink} {p : Spot} {ρ? : Option Ty} {loop? : Option LoopLabels}
  {kept kept' : Env → Frame → Prop} {fuel : Nat} {start start' : IR.State}
  {post post' : List Instruction} {good good' : Value → Env → Frame → Prop} {r : Result}

/-- A machine that gets to `start'` does what one at `start'` does. -/
theorem steps {k fuel' : Nat} (hs : Steps M sink k start start') (hk : fuel ≤ k + fuel')
    (h : Matches M sink p ρ? loop? kept fuel' start' post good r) :
    Matches M sink p ρ? loop? kept fuel start post good r := by
  match r, h with
  | none, ⟨n, t, hn, ht⟩ => exact ⟨k + n, t, by omega, hs.trans ht⟩
  | some (.value v, st), ⟨n, frame, ht, hg⟩ => exact ⟨k + n, frame, hs.trans ht, hg⟩
  | some (.jump c, st), ⟨labels, code, n, frame, hl, hc, hn, ht, hk⟩ =>
    exact ⟨labels, code, k + n, frame, hl, hc, by omega, hs.trans ht, hk⟩
  | some (.leave v, st), ⟨n, t, ht, h⟩ => exact ⟨k + n, t, hs.trans ht, h⟩
  | some (.fault f, st), ⟨n, t, ht, h⟩ => exact ⟨k + n, t, hs.trans ht, h⟩

theorem step (hs : start.step M sink = .running start')
    (h : Matches M sink p ρ? loop? kept fuel start' post good r) :
    Matches M sink p ρ? loop? kept fuel start post good r :=
  h.steps (.single hs) (Nat.le_add_left fuel 1)

/-- A machine that gets behind a label does what one in front of the label does. -/
theorem steps_behind {k : Nat} {l : Label} {location : Location} {rest : List Instruction}
    {frame : Frame} {world : World} (hs : Steps M sink k start (p.at rest frame world)) (hk : 0 < k)
    (hpost : ⟨location, .label l⟩ :: rest ≠ post)
    (h : Matches M sink p ρ? loop? kept fuel (p.at (⟨location, .label l⟩ :: rest) frame world) post
      good r) :
    Matches M sink p ρ? loop? kept fuel start post good r := by
  have hfirst : ∀ {n t}, Steps M sink n (p.at (⟨location, .label l⟩ :: rest) frame world) t →
      (n = 0 ∧ t = p.at (⟨location, .label l⟩ :: rest) frame world) ∨
        Steps M sink (k + (n - 1)) start t := by
    intro n t hn
    cases hn with
    | refl => exact .inl ⟨rfl, rfl⟩
    | step hl hn => cases hl; exact .inr (hs.trans hn)
  match r, h with
  | none, ⟨n, t, hn, ht⟩ =>
    rcases hfirst ht with ⟨rfl, -⟩ | hk'
    · exact ⟨k, _, by omega, hs⟩
    · exact ⟨_, t, by omega, hk'⟩
  | some (.value v, st), ⟨n, frame', ht, hg⟩ =>
    rcases hfirst ht with ⟨-, he⟩ | hk'
    · exact absurd (congrArg (·.active.rest) he.symm) hpost
    · exact ⟨_, frame', hk', hg⟩
  | some (.jump c, st), ⟨labels, code, n, frame', hl, hc, hn, ht, hkept⟩ =>
    rcases hfirst ht with ⟨rfl, -⟩ | hk'
    · cases hn
    · exact ⟨labels, code, _, frame', hl, hc, by omega, hk', hkept⟩
  | some (.leave v, st), ⟨n, t, ht, hf, hw, hworld, hr, hρ⟩ =>
    rcases hfirst ht with ⟨-, rfl⟩ | hk'
    · cases hr with
      | atEnd hrest => cases hrest
      | atLeave hrest hop => cases hrest; cases hop
    · exact ⟨_, t, hk', hf, hw, hworld, hr, hρ⟩
  | some (.fault f, st), ⟨n, t, ht, hf⟩ =>
    rcases hfirst ht with ⟨-, rfl⟩ | hk'
    · cases hf
    · exact ⟨_, t, hk', hf⟩

/-- A machine that is behind the fragment already. -/
theorem value {v : Value} {env : Env} {world : World} {frame : Frame} (h : good v env frame) :
    Matches M sink p ρ? loop? kept fuel (p.at post frame world) post good
      (some (.value v, ⟨env, world⟩)) := ⟨0, frame, .refl _, h⟩

/-- Going on with the value of a fragment. -/
theorem andThen {next : Value → Store → Result}
    (h : Matches M sink p ρ? loop? kept fuel start post good r)
    (hnext : ∀ v st frame, good v st.env frame →
      Matches M sink p ρ? loop? kept fuel (p.at post frame st.world) post' good' (next v st)) :
    Matches M sink p ρ? loop? kept fuel start post' good' (r.andThen next) := by
  match r, h with
  | none, h => exact h
  | some (.value v, st), ⟨n, frame, ht, hg⟩ =>
    exact (hnext v st frame hg).steps ht (Nat.le_add_left fuel n)
  | some (.jump c, st), h => exact h
  | some (.leave v, st), h => exact h
  | some (.fault f, st), h => exact h

/-- What holds behind the fragment and where loop controls lead can be weakened. -/
theorem imp (h : Matches M sink p ρ? loop? kept fuel start post good r)
    (hg : ∀ v env frame, good v env frame → good' v env frame)
    (hk : ∀ env frame, kept env frame → kept' env frame) :
    Matches M sink p ρ? loop? kept' fuel start post good' r := by
  match r, h with
  | none, h => exact h
  | some (.value v, st), ⟨n, frame, ht, h⟩ => exact ⟨n, frame, ht, hg v st.env frame h⟩
  | some (.jump c, st), ⟨labels, code, n, frame, hl, hc, hn, ht, h⟩ =>
    exact ⟨labels, code, n, frame, hl, hc, hn, ht, hk st.env frame h⟩
  | some (.leave v, st), h => exact h
  | some (.fault f, st), h => exact h

/-- Leaving a block takes its variables away. -/
theorem leaveBlock
    (h : Matches M sink p ρ? loop? (fun env => kept env.tail) fuel start post
      (fun v env => good v env.tail) r) :
    Matches M sink p ρ? loop? kept fuel start post good (Meaning.leaveBlock r) := by
  match r, h with
  | none, h | some (.value v, st), h | some (.jump c, st), h | some (.leave v, st), h
  | some (.fault f, st), h => exact h

/-- Behind the body of a loop the machine goes back to the start of the loop, unless it leaves the
loop. -/
theorem endRound {labels : LoopLabels} {location : Location} {first rest : List Instruction}
    {again : Store → Result} (hstart : codeBehind? labels.start p.function.code = some first)
    (hexit : codeBehind? labels.exit p.function.code = some post)
    (h : Matches M sink p ρ? (some labels) kept fuel start (⟨location, .jump labels.start⟩ :: rest)
      (fun _ => kept) r)
    (hagain : ∀ {k st frame}, kept st.env frame → Steps M sink k start (p.at first frame st.world) →
      0 < k → Matches M sink p ρ? loop? kept' fuel start post good (again st))
    (hdone : ∀ env frame, kept env frame → good .unit env frame) :
    Matches M sink p ρ? loop? kept' fuel start post good (Meaning.endRound again r) := by
  match r, h with
  | none, h => exact h
  | some (.value v, st), ⟨n, frame, ht, hk⟩ =>
    exact hagain hk (ht.snoc (step_jump hstart)) (Nat.succ_pos n)
  | some (.jump .next, st), ⟨labels', code, n, frame, hl, hc, hn, ht, hk⟩ =>
    cases hl
    rw [show labels.target .next = labels.start from rfl, hstart] at hc
    cases hc
    exact hagain hk ht hn
  | some (.jump .exit, st), ⟨labels', code, n, frame, hl, hc, hn, ht, hk⟩ =>
    cases hl
    rw [show labels.target .exit = labels.exit from rfl, hexit] at hc
    cases hc
    exact ⟨n, frame, ht, hdone st.env frame hk⟩
  | some (.leave v, st), h => exact h
  | some (.fault f, st), h => exact h

end Matches

end Exprc.Meaning
