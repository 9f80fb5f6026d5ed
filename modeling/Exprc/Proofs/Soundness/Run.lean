/-
Type soundness of runs. A machine on a lowered module is sound if the frames of the active function
and of all that wait hold values of the types of their temporaries, if the code that is left to each
is safe, and if each waits for a value of the type that the function above it returns. Each step
keeps a machine sound; so a run ends with a value of the type of the top-level statements, or fails
in the computation.
-/
import Exprc.Proofs.Compiler
import Exprc.Proofs.IR.Frame
import Exprc.Proofs.IR.Run
import Exprc.Proofs.IR.Values
import Exprc.Proofs.Soundness.Code

namespace Exprc.Lowering

open Syntax IR Typing

/-! ## Sound machines -/

/-- A frame holds values of the types of its variables. -/
def FrameTyped (Θ : List (Nat × Ty)) (frame : Frame) : Prop :=
  ∀ v τ value, Typed Θ v τ → frame.read? v = some value → value.ty = τ

/-- A function under execution that is to return a value of type `ρ`. -/
structure SoundActivation (m : Syntax.Module) (Θ : List (Nat × Ty)) (ρ : Ty) (a : Activation) :
    Prop where
  nodup : (Θ.map (·.1)).Nodup
  frame : FrameTyped Θ a.frame
  code : ∀ n, Safe (signatureOf? m.functions) Θ ρ a.function n a.rest
  declared : ∀ f ∈ m.functions, f.name.text = a.function.name → f.result.ty = ρ

/-- Functions that wait for a value of some type; the one that runs first returns one of type `T`. -/
inductive SoundWaiting (m : Syntax.Module) (T : Ty) : Ty → List Waiting → Prop
  | nil : SoundWaiting m T T []
  | cons {Θ : List (Nat × Ty)} {ρ τ : Ty} {w : Waiting} {ws : List Waiting} :
      SoundActivation m Θ ρ w.caller → Typed Θ w.target τ → SoundWaiting m T ρ ws →
      SoundWaiting m T τ (w :: ws)

/-- A machine at work on a lowered module. -/
inductive SoundState (m : Syntax.Module) (T : Ty) (s : IR.State) : Prop
  | intro {Θ : List (Nat × Ty)} {ρ : Ty} :
      SoundActivation m Θ ρ s.active → SoundWaiting m T ρ s.waiting → SoundState m T s

/-- An end with a value of some type, or with a failure of the computation. -/
structure SoundEnding (T : Ty) (e : Ending) : Prop where
  value : ∀ v, e.outcome = .ok v → v.ty = T
  fault : ∀ fault, e.outcome = .error fault → fault.cause.isComputational = true

/-- A machine that is sound at work or at its end. -/
def SoundProgress (m : Syntax.Module) (T : Ty) : Progress → Prop
  | .running s => SoundState m T s
  | .ended e => SoundEnding T e

theorem SoundEnding.ok {T : Ty} {v : Value} {w : World} (h : v.ty = T) : SoundEnding T ⟨.ok v, w⟩ :=
  ⟨fun _ he => by cases he; exact h, fun _ he => nomatch he⟩

theorem SoundEnding.error {T : Ty} {fault : Fault RuntimeError} {w : World}
    (h : fault.cause.isComputational = true) : SoundEnding T ⟨.error fault, w⟩ :=
  ⟨fun _ he => (nomatch he), fun _ he => by cases he; exact h⟩

/-! ## Frames -/

section Frames

variable {Θ : List (Nat × Ty)} {frame : Frame}

theorem FrameTyped.nil : FrameTyped Θ [] := by
  intro v τ value hv hr
  cases v with
  | temp n => cases hr
  | named x => cases hr
  | unit => cases hr; exact (hv : τ = .unit).symm

theorem Typed.unique (hn : (Θ.map (·.1)).Nodup) {v : Var} {τ υ : Ty} (h : Typed Θ v τ)
    (h' : Typed Θ v υ) : τ = υ := by
  cases v with
  | temp n =>
    have := List.inj_on_of_nodup_map hn (x := (n, τ)) h (y := (n, υ)) h' rfl
    exact (Prod.mk.inj this).2
  | unit => exact Eq.trans h h'.symm
  | named x => exact h.elim

theorem FrameTyped.write (h : FrameTyped Θ frame) (hn : (Θ.map (·.1)).Nodup) {v : Var} {τ : Ty}
    (hv : Typed Θ v τ) {value : Value} (hvalue : value.ty = τ) :
    FrameTyped Θ (frame.write v value) := by
  intro w υ old hw hr
  by_cases hwv : w = v
  · subst hwv
    obtain rfl := hw.unique hn hv
    cases w with
    | temp n => rw [Frame.read?_write_temp] at hr; cases hr; exact hvalue
    | unit => cases hr; exact (hv : υ = .unit).symm
    | named x => exact hv.elim
  · rw [Frame.read?_write_of_ne frame hwv] at hr
    exact h w υ old hw hr

theorem FrameTyped.writeAll (hn : (Θ.map (·.1)).Nodup) {vs : List Var} {τs : List Ty}
    (hvs : List.Forall₂ (Typed Θ) vs τs) :
    ∀ {frame : Frame} {values : List Value}, FrameTyped Θ frame → values.map Value.ty = τs →
      FrameTyped Θ (frame.writeAll (vs.zip values)) := by
  induction hvs with
  | nil => intro frame values h _; exact h
  | cons hv _ ih =>
    intro frame values h hvalues
    cases values with
    | nil => cases hvalues
    | cons value values =>
      obtain ⟨hvalue, hvalues⟩ := List.cons.inj hvalues
      exact ih (h.write hn hv hvalue) hvalues

/-- Something good, or a failure of the computation. -/
def Gives {α : Type} (good : α → Prop) : Except (Fault RuntimeError) α → Prop
  | .ok a => good a
  | .error fault => fault.cause.isComputational = true

/-- Reading a variable gives a value of its type, or fails for want of a value. -/
theorem FrameTyped.read (h : FrameTyped Θ frame) (location : Location) {v : Var} {τ : Ty}
    (hv : Typed Θ v τ) : Gives (·.ty = τ) (frame.read location v) := by
  cases hr : frame.read location v with
  | ok value => exact h v τ value hv (Frame.read_eq_ok_iff.1 hr)
  | error fault => obtain ⟨-, rfl⟩ := Frame.read_error hr; rfl

theorem FrameTyped.mapM_read (h : FrameTyped Θ frame) (location : Location) {vs : List Var}
    {τs : List Ty} (hvs : List.Forall₂ (Typed Θ) vs τs) :
    Gives (·.map Value.ty = τs) (vs.mapM (frame.read location)) := by
  induction hvs with
  | nil => rfl
  | @cons v τ vs τs hv _ ih =>
    have hr := h.read location hv
    rw [List.mapM_cons]
    cases hv : frame.read location v with
    | error fault => rw [hv] at hr; exact hr
    | ok value =>
      rw [hv] at hr
      cases hvs : vs.mapM (frame.read location) with
      | error fault => rw [hvs] at ih; exact ih
      | ok values => rw [hvs] at ih; exact congrArg₂ List.cons hr ih

end Frames

/-! ## Steps -/

section Steps

variable {m : Syntax.Module} {T : Ty} {M : IR.Module} {sink : Sink} {s : IR.State}

/-- Going on with what a read gives. -/
theorem soundProgress_andThen {α : Type} {r : Except (Fault RuntimeError) α} {good : α → Prop}
    {next : α → Progress} (hr : Gives good r)
    (h : ∀ a, good a → SoundProgress m T (next a)) : SoundProgress m T (s.andThen r next) := by
  cases r with
  | ok a => exact h a hr
  | error fault => exact .error hr

theorem SoundActivation.write {Θ : List (Nat × Ty)} {ρ : Ty} {a : Activation}
    (h : SoundActivation m Θ ρ a) {v : Var} {τ : Ty} (hv : Typed Θ v τ) {value : Value}
    (hvalue : value.ty = τ) :
    SoundActivation m Θ ρ { a with frame := a.frame.write v value } :=
  { h with frame := h.frame.write h.nodup hv hvalue }

/-- Returning a value of the type that is waited for. -/
theorem SoundWaiting.leave {ρ : Ty} (h : SoundWaiting m T ρ s.waiting) {value : Value}
    (hvalue : value.ty = ρ) : SoundProgress m T (s.leave sink value) := by
  unfold State.leave
  split
  · rename_i w ws hw
    rw [hw] at h
    cases h with
    | cons hcaller htarget hws => exact .intro (hcaller.write htarget hvalue) hws
  · rename_i hw
    rw [hw] at h
    cases h with
    | nil =>
      split
      · exact .error rfl
      · exact .ok hvalue

/-- Calling a built-in function on operands that the checker allows. -/
theorem sound_builtin (hM : LowersModule m T M) {Θ : List (Nat × Ty)} {ρ : Ty}
    (ha : SoundActivation m Θ ρ s.active) (hws : SoundWaiting m T ρ s.waiting) {b : Builtin}
    {τs : List Ty} {τ : Ty} (hb : operatorResult b τs = .ok τ) {values : List Value}
    (hvalues : values.map Value.ty = τs) {target : Var} (ht : Typed Θ target τ)
    (location : Location) :
    SoundProgress m T (s.call M sink location (.named b.name) values target) := by
  have hs := World.callBuiltin_sound hb hvalues s.world sink
  simp only [State.call, hM.function?_builtin b, Builtin.ofName?_name]
  cases hr : s.world.callBuiltin sink b values with
  | mk result world =>
    rw [hr] at hs
    cases result with
    | ok value => exact .intro (ha.write ht hs) hws
    | error cause => exact .error hs

/-- Calling a declared function with arguments of the types of its parameters. -/
theorem sound_declared (hM : LowersModule m T M) {Θ : List (Nat × Ty)} {ρ : Ty}
    (ha : SoundActivation m Θ ρ s.active) (hws : SoundWaiting m T ρ s.waiting)
    {f : FunctionDefinition} {F : Function} {s₁ s₂ : Stage} (hf : f ∈ m.functions)
    (hF : LowersFunction (signatureOf? m.functions) s₁ f F s₂) (hs₁ : s₁.Outside)
    (hname : M.function? f.name.text = some F) {values : List Value}
    (hvalues : values.map Value.ty = f.signature.parameters) {target : Var}
    (ht : Typed Θ target f.result.ty) (location : Location) :
    SoundProgress m T (s.call M sink location (.named f.name.text) values target) := by
  obtain ⟨hparams, hcode⟩ := hF.safe hs₁
  have hlen : values.length = F.parameters.length := by
    rw [hparams.length_eq, ← hvalues, List.length_map]
  simp only [State.call, hname, activate]
  split
  · exact .error rfl
  · rw [if_neg (by simpa using hlen)]
    refine .intro (Θ := s₂.temps) ⟨(hF.outside hs₁).wf.temps_nodup, ?_, hcode, ?_⟩
      (.cons ha ht hws)
    · exact FrameTyped.nil.writeAll (hF.outside hs₁).wf.temps_nodup hparams hvalues
    · intro g hg he
      rw [List.inj_on_of_nodup_map hM.nodup hg hf (he.trans hF.name)]

/-- Calling what the checker allows. -/
theorem sound_call (hM : LowersModule m T M) {Θ : List (Nat × Ty)} {ρ : Ty}
    (ha : SoundActivation m Θ ρ s.active) (hws : SoundWaiting m T ρ s.waiting)
    {name : String} {τs : List Ty} {τ : Ty} (hc : Callable (signatureOf? m.functions) name τs τ)
    {values : List Value} (hvalues : values.map Value.ty = τs) {target : Var}
    (ht : Typed Θ target τ) (location : Location) :
    SoundProgress m T (s.call M sink location (.named name) values target) := by
  rcases hc with hσ | ⟨b, rfl, hb⟩
  · rcases hM.callee hσ with ⟨f, F, s₁, s₂, hf, hfσ, hF, hl, hs₁⟩ | ⟨b, rfl, hb⟩
    · obtain rfl : f.name.text = name := by simpa using List.find?_some hf
      refine sound_declared hM ha hws (List.mem_of_find?_eq_some hf) hl hs₁ hF ?_ ?_ location
      · rw [hfσ]; exact hvalues
      · rw [show f.result.ty = τ from congrArg Signature.result hfσ]
        exact ht
    · exact sound_builtin hM ha hws (operatorResult_of_signature hb) hvalues ht location
  · exact sound_builtin hM ha hws hb hvalues ht location

/-- Jumping to a label that leads to safe code, whatever is left of the code here. -/
theorem SoundActivation.goto {Θ : List (Nat × Ty)} {ρ : Ty} (ha : SoundActivation m Θ ρ s.active)
    (hws : SoundWaiting m T ρ s.waiting) {l : Label} {code : List Instruction}
    (hl : codeBehind? l s.active.function.code = some code)
    (hcode : ∀ n, Safe (signatureOf? m.functions) Θ ρ s.active.function n code)
    (location : Location) (rest : List Instruction) :
    SoundProgress m T (State.goto { s with active := { s.active with rest } } location l) := by
  unfold State.goto
  dsimp only
  rw [hl]
  exact .intro { ha with code := hcode } hws

/-- A label that leads to safe code for each number of steps leads to code that is safe for all. -/
theorem safe_behind {Θ : List (Nat × Ty)} {ρ : Ty} {F : Function} {l : Label}
    {sig : String → Option Signature}
    (h : ∀ n, ∃ code, codeBehind? l F.code = some code ∧ Safe sig Θ ρ F n code) :
    ∃ code, codeBehind? l F.code = some code ∧ ∀ n, Safe sig Θ ρ F n code := by
  obtain ⟨code, hl, -⟩ := h 0
  refine ⟨code, hl, fun n => ?_⟩
  obtain ⟨code', hl', hs⟩ := h n
  rw [hl] at hl'
  exact Option.some.inj hl' ▸ hs

/-- Executing an instruction in front of what is left of the code. -/
theorem SoundActivation.execute (hM : LowersModule m T M) {Θ : List (Nat × Ty)} {ρ : Ty}
    {i : Instruction} {rest : List Instruction} (h : SoundActivation m Θ ρ s.active)
    (hrest : s.active.rest = i :: rest) (hws : SoundWaiting m T ρ s.waiting) :
    SoundProgress m T (State.execute M sink { s with active := { s.active with rest } } i) := by
  have hcode := fun n => h.code (n + 1)
  rw [hrest] at hcode
  have ha : (∀ n, Safe (signatureOf? m.functions) Θ ρ s.active.function n rest) →
      SoundActivation m Θ ρ { s.active with rest } := fun hr => { h with code := hr }
  unfold State.execute
  cases hop : i.op with
  | loadInt n target =>
    simp only [Safe, hop] at hcode
    exact .intro ((ha fun n => (hcode n).2).write (hcode 0).1 rfl) hws
  | loadBool b target =>
    simp only [Safe, hop] at hcode
    exact .intro ((ha fun n => (hcode n).2).write (hcode 0).1 rfl) hws
  | copy source target =>
    simp only [Safe, hop] at hcode
    obtain ⟨τ, hs, ht⟩ := (hcode 0).1
    exact soundProgress_andThen (h.frame.read _ hs) fun v hv =>
      .intro ((ha fun n => (hcode n).2).write ht hv) hws
  | call callee arguments target =>
    simp only [Safe, hop] at hcode
    obtain ⟨name, τs, τ, rfl, hc, hargs, ht⟩ := (hcode 0).1
    exact soundProgress_andThen (h.frame.mapM_read _ hargs) fun values hvalues =>
      sound_call (s := { s with active := { s.active with rest } }) hM (ha fun n => (hcode n).2) hws
        hc hvalues ht _
  | label l =>
    simp only [Safe, hop] at hcode
    exact .intro (ha hcode) hws
  | jump l =>
    simp only [Safe, hop] at hcode
    obtain ⟨code, hl, hsafe⟩ := safe_behind hcode
    exact h.goto hws hl hsafe _ rest
  | branch condition ifTrue ifFalse =>
    simp only [Safe, hop] at hcode
    obtain ⟨yes, hyes, hsyes⟩ := safe_behind fun n => (hcode n).2.1
    obtain ⟨no, hno, hsno⟩ := safe_behind fun n => (hcode n).2.2
    refine soundProgress_andThen (h.frame.read _ (hcode 0).1) fun v hv => ?_
    obtain ⟨b, rfl⟩ := Value.ty_eq_bool.1 hv
    cases b with
    | true => exact h.goto hws hyes hsyes _ rest
    | false => exact h.goto hws hno hsno _ rest
  | leave value =>
    simp only [Safe, hop] at hcode
    exact soundProgress_andThen (h.frame.read _ (hcode 0)) fun v hv =>
      SoundWaiting.leave (s := { s with active := { s.active with rest } }) hws hv

/-- A step keeps a machine sound. -/
theorem SoundState.step (sink : Sink) (hM : LowersModule m T M) (h : SoundState m T s) :
    SoundProgress m T (s.step M sink) := by
  obtain @⟨Θ, ρ, ha, hws⟩ := h
  unfold State.step
  cases hrest : s.active.rest with
  | nil =>
    have hresult : Typed Θ s.active.function.result ρ := by
      have := ha.code 1
      rwa [hrest] at this
    exact soundProgress_andThen (ha.frame.read _ hresult) fun v hv => hws.leave hv
  | cons i rest => exact ha.execute hM hrest hws

end Steps

/-! ## Runs -/

section Runs

variable {m : Syntax.Module} {T : Ty} {M : IR.Module} {sink : Sink}

/-- A run starts with a sound machine. -/
theorem sound_start (hM : LowersModule m T M) (input : List UInt8) :
    SoundProgress m T (M.start input) := by
  obtain ⟨F, s, s', hF, hl, hs⟩ := hM.entry
  have hcode := hl.safe hs
  have hwf := hl.wf hs
  have hp : F.parameters = [] := by cases hl <;> rfl
  simp only [IR.Module.start, hF, activate]
  rw [if_neg (by decide), if_neg (by simp [hp])]
  refine .intro (Θ := s'.temps) ⟨hwf.temps_nodup, ?_, hcode, ?_⟩ .nil
  · rw [hp]; exact .nil
  · intro f hf he
    exact absurd (he.trans hl.name) (hM.reserved f hf).1

theorem sound_steps (hM : LowersModule m T M) {n : Nat} {s t : IR.State}
    (h : Steps M sink n s t) (hs : SoundState m T s) : SoundState m T t := by
  induction h with
  | refl => exact hs
  | step hst _ ih =>
    have := hs.step sink hM
    rw [hst] at this
    exact ih this

/-- However a run ends, it gives a value of the type of the top-level statements or fails in the
computation. -/
theorem sound_run (hM : LowersModule m T M) {input : List UInt8} {steps : Nat} {e : Ending}
    (h : M.run? sink input steps = some e) : SoundEnding T e := by
  have hstart := sound_start hM input
  unfold IR.Module.run? at h
  cases hs : M.start input with
  | ended e' =>
    rw [hs] at h hstart
    cases steps <;> cases h <;> exact hstart
  | running s =>
    rw [hs] at h hstart
    obtain ⟨n, t, -, ht, he⟩ := endWithin?_eq_some_iff.1 h
    have := (sound_steps hM ht hstart).step sink hM
    rwa [he] at this

/-- A step of a sound machine to fewer waiting functions returns a value of the type of the active
function to the function that waited for it. -/
theorem SoundActivation.returns {Θ : List (Nat × Ty)} {ρ : Ty} {s t : IR.State}
    (ha : SoundActivation m Θ ρ s.active) (h : s.step M sink = .running t)
    (hlt : t.waiting.length < s.waiting.length) :
    ∃ w value, s.waiting = w :: t.waiting ∧ value.ty = ρ ∧
      t.active = { w.caller with frame := w.caller.frame.write w.target value } := by
  cases State.advances h with
  | inside _ _ _ ht => rw [ht] at hlt; exact absurd hlt (Nat.lt_irrefl _)
  | call _ _ _ _ ht => rw [ht] at hlt; exact absurd hlt (by simp)
  | @back w value hr hw ht =>
    refine ⟨w, value, hw, ?_, ht⟩
    have hsafe := ha.code 1
    cases hr with
    | atEnd hrest hv => rw [hrest] at hsafe; exact ha.frame _ _ _ hsafe hv
    | atLeave hrest hop hv =>
      rw [hrest] at hsafe
      simp only [Safe, hop] at hsafe
      exact ha.frame _ _ _ hsafe hv

end Runs

/-! ## Sources -/

/-- Type soundness, for every source text that the compiler lowers, every input and every sink. If
the check finds the type `T` for the top-level statements then a run that ends gives a value of type
`T` or fails in the computation. And whenever a step returns from a declared function, the value that
the caller gets is of the type that the function declares. -/
theorem lowered_run_sound {source : Source} {M : IR.Module} {T : Ty}
    {reports : List Compiler.Report} (h : (Compiler.lower source).run [] = (.ok M, reports))
    (hT : .checked T ∈ reports) (sink : Sink) (input : List UInt8) :
    (∀ steps e, M.run? sink input steps = some e →
      (∀ v, e.outcome = .ok v → v.ty = T) ∧
      ∀ fault, e.outcome = .error fault → fault.cause.isComputational = true) ∧
    ∃ m, Syntax.Parser.module.readSource source = .ok m ∧
      ∀ first n s t, M.start input = .running first → Steps M sink n first s →
        s.step M sink = .running t → t.waiting.length < s.waiting.length →
        ∀ f ∈ m.functions, f.name.text = s.active.function.name →
          ∃ w value, s.waiting = w :: t.waiting ∧ value.ty = f.result.ty ∧
            t.active = { w.caller with frame := w.caller.frame.write w.target value } := by
  obtain ⟨m, τ, hm, hτ, hM, rfl⟩ := Compiler.lower_ok h
  obtain rfl : T = τ := by simpa using hT
  have hl := lower_checked hτ hM
  refine ⟨fun steps e he => ?_, m, hm, fun first n s t hfirst hs hst hlt f hf hname => ?_⟩
  · have := sound_run hl he
    exact ⟨this.value, this.fault⟩
  · have hstart := sound_start hl input
    rw [hfirst] at hstart
    obtain @⟨Θ, ρ, ha, -⟩ := sound_steps hl hs hstart
    obtain ⟨w, value, hw, hv, ht⟩ := ha.returns hst hlt
    obtain ⟨g, hg, hgf⟩ : ∃ g ∈ (checkModule m).tree.functions, header g = header f :=
      List.mem_map.1 (checkModule_header m ▸ List.mem_map_of_mem hf)
    have hρ := ha.declared g hg ((congrArg Prod.fst hgf).trans hname)
    have hresult : g.result.ty = f.result.ty := congrArg (fun p => p.2.result) hgf
    exact ⟨w, value, hw, by rw [hv, ← hρ, hresult], ht⟩

/-- A program that divides in a function it declares: it ends with an integer, or else its run fails
in the computation. -/
theorem lowered_run_sound_division :
    ∃ M, (Compiler.lower ⟨"fun f(x: Int): Int { return 100 / x } f(read_int())", .memory⟩).run [] =
        (.ok M, [.parsed 1, .checked .int, .lowered 6]) ∧
      ∀ sink input steps e, M.run? sink input steps = some e →
        (∀ v, e.outcome = .ok v → v.ty = .int) ∧
        ∀ fault, e.outcome = .error fault → fault.cause.isComputational = true := by
  have h : (Compiler.lower ⟨"fun f(x: Int): Int { return 100 / x } f(read_int())", .memory⟩).run [] =
      (.ok ⟨[⟨"f", [.temp 1], [⟨⟨1, 29⟩, .loadInt 100 (.temp 2)⟩,
          ⟨⟨1, 29⟩, .call (.named "/") [.temp 2, .temp 1] (.temp 3)⟩, ⟨⟨1, 22⟩, .leave (.temp 3)⟩],
          .unit⟩,
        ⟨"main", [], [⟨⟨1, 41⟩, .call (.named "read_int") [] (.temp 4)⟩,
          ⟨⟨1, 39⟩, .call (.named "f") [.temp 4] (.temp 5)⟩,
          ⟨⟨1, 1⟩, .call (.named "print_int") [.temp 5] (.temp 6)⟩], .temp 5⟩]⟩,
        [.parsed 1, .checked .int, .lowered 6]) := by
    cbv
  exact ⟨_, h, fun sink input => (lowered_run_sound h (by simp) sink input).1⟩

end Exprc.Lowering
