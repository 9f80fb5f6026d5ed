/-
Compiled programs do what the intermediate representation does. Each step of a machine is followed by the
process that represents it; so a program makes the calls of routines that the run of its module makes, and
exits with success when that run ends with a value.
-/
import Exprc.Proofs.Assembly.Simulation
import Exprc.Proofs.IR.Run
import Exprc.Proofs.Lowering.TopLevel
import Exprc.Proofs.Soundness.Run

namespace Exprc

namespace Assembly

open IR Typing

/-! ## Steps -/

/-- What the next step applies a built-in function to is of types that it has a result for. -/
def Applicable (m : IR.Module) (s : IR.State) : Prop :=
  ∀ b values, s.applies? m = some (b, values) → ∃ τ, operatorResult b (values.map Value.ty) = .ok τ

/-- The calls that the outside sees. -/
def visible (calls : List Call) : List Call := calls.filter (·.callee.isIntrinsic)

theorem callBuiltin_operator {b : Builtin} (hb : b.isIntrinsic = false) (w : World) (sink : Sink)
    (values : List Value) : w.callBuiltin sink b values = (operate b values, w) := by
  cases b <;> cases hb <;> rfl

section

variable {o : Options} {m : IR.Module} {text : List Line} {p : Program} {env : Surroundings} {top : Nat}
  {s t : IR.State} {q q' : Process} {i : Instruction} {rest : List Instruction}

/-- A call is followed, whatever it calls. -/
theorem Represents.call (h : Represents o m text env top s q) (hl : Loaded o m text p env top)
    (happlicable : Applicable m s)
    (hfits : ∀ call, s.call? m env.sink = some call → ¬Overflows call.callee call.arguments)
    (hrest : s.active.rest = i :: rest) {callee : Var} {arguments : List Var} {target : Var}
    (hop : i.op = .call callee arguments target)
    (hstep : State.execute m env.sink { s with active := { s.active with rest } } i = .running t) :
    Follows o m text p env top q t (visible (s.call? m env.sink).toList) := by
  have hc := hl.compiled.compilable
  have hi : i ∈ s.active.function.code := h.code.suffix.subset (by rw [hrest]; exact List.mem_cons_self)
  obtain ⟨name, rfl, hentry, harity⟩ :=
    hc.wellFormed.calls s.active.function h.code.member i hi callee arguments target hop
  rw [State.execute, hop] at hstep
  obtain ⟨values, hread, hstep⟩ := State.andThen_running hstep
  have hvalues : List.Forall₂ (fun v x => s.active.frame.read? v = some x) arguments values :=
    (mapM_eq_ok.1 hread).imp fun _ _ => Frame.read_eq_ok_iff.1
  rcases hc.unambiguous.callee harity with ⟨f, -, -, hf, hname, hlength⟩ | ⟨b, -, hf, hname, hlength⟩
  · -- a function of the module
    rw [State.call?_of_function hrest hop hf]
    simp only [State.call, hf] at hstep
    obtain ⟨activation, hactivate, hstep⟩ := State.andThen_running hstep
    obtain ⟨-, rfl⟩ := activate_ok hactivate
    cases hstep
    exact h.function hl hrest hop hf hname hentry hlength.symm (activate_depth hactivate) hvalues
  · have happlies := State.applies?_of_builtin hrest hop hf hname hvalues
    simp only [State.call, hf, hname] at hstep
    rcases hcall : s.world.callBuiltin env.sink b values with ⟨cause | result, world⟩
    · rw [hcall] at hstep
      cases hstep
    · rw [hcall] at hstep
      cases hstep
      have hcall? := State.call?_of_builtin happlies hcall
      rw [hcall?]
      cases hb : b.isIntrinsic with
      | true =>
        have hvisible : visible (some (⟨b, values, result⟩ : Call)).toList = [⟨b, values, result⟩] :=
          List.filter_cons_of_pos hb
        rw [hvisible]
        exact h.routine hl.compiled hrest hop hname hb hlength.symm hvalues hcall
      | false =>
        have hvisible : visible (some (⟨b, values, result⟩ : Call)).toList = [] :=
          List.filter_cons_of_neg (by simp [hb])
        obtain ⟨τ, hty⟩ := happlicable b values happlies
        rw [callBuiltin_operator hb] at hcall
        obtain ⟨hresult, rfl⟩ := Prod.mk.inj hcall
        rw [hvisible]
        exact h.operator hl.compiled hrest hop hname hb hvalues hty hresult (hfits _ hcall?)

/-- A value is returned to the function that waits for it. -/
theorem Represents.back (h : Represents o m text env top s q) (hl : Loaded o m text p env top) {w : Word}
    {value : Value} (hreach : Reaches p env q q') (hend : AtEnd text s.active.function q q' w)
    (hw : Encodes w value) (hstep : s.leave env.sink value = .running t) :
    Follows o m text p env top q t [] := by
  obtain ⟨waiting, hwaiting, hactive, hworld⟩ := State.leave_running hstep
  obtain ⟨base, hin, -, hstack⟩ := h.frames
  rw [hwaiting] at hstack
  have hback := hend.back hl hin.rbp hstack hw
  rw [h.world, ← hworld, ← hactive] at hback
  exact hback.of_reaches hreach hend.calls

/-- Only the function in which the run started waits for nothing, and only there no function waits. -/
theorem Represents.entry_iff (h : Represents o m text env top s q) :
    s.active.function.isEntryPoint = true ↔ s.waiting = [] := by
  obtain ⟨base, -, -, hstack⟩ := h.frames
  cases hw : s.waiting with
  | nil =>
    rw [hw] at hstack
    cases hstack with
    | first hentry => exact ⟨fun _ => rfl, fun _ => hentry⟩
  | cons w ws =>
    rw [hw] at hstack
    cases hstack with
    | caller hentry => exact ⟨fun he => absurd (hentry.symm.trans he) (by decide), nofun⟩

theorem encodes_int (n : Int64) : Encodes (.ofInt 64 n.toInt) (.int n) := BitVec.ofInt_toInt

/-- Every instruction that is not a call is followed, and makes no call. -/
theorem Represents.execute (h : Represents o m text env top s q) (hl : Loaded o m text p env top)
    (hrest : s.active.rest = i :: rest) (hcall : ∀ callee arguments target, i.op ≠ .call callee arguments target)
    (hstep : State.execute m env.sink { s with active := { s.active with rest } } i = .running t) :
    Follows o m text p env top q t [] := by
  have hc := hl.compiled.compilable
  have hp := hl.compiled.assembled
  rw [State.execute] at hstep
  cases hop : i.op with
  | call callee arguments target => exact absurd hop (hcall callee arguments target)
  | loadInt n target =>
    rw [hop] at hstep
    cases hstep
    obtain ⟨below, ht⟩ := h.slot hc hrest (v := target) (by rw [hop]; exact List.mem_cons_self)
    obtain ⟨is, c, his, hexec, hwrote⟩ := storeNumber_exec i.location env.names ht n.toInt
    exact h.wrote hp hrest (by rw [hop]; rfl) (by rw [hop]; rfl) (by rw [hop]; exact his) hexec hwrote
      (encodes_int n)
  | loadBool b target =>
    rw [hop] at hstep
    cases hstep
    obtain ⟨below, ht⟩ := h.slot hc hrest (v := target) (by rw [hop]; exact List.mem_cons_self)
    obtain ⟨is, c, his, hexec, hwrote⟩ := storeNumber_exec i.location env.names ht
      (if b then 1 else 0)
    exact h.wrote hp hrest (by rw [hop]; rfl) (by rw [hop]; rfl) (by rw [hop]; exact his) hexec hwrote
      (by cases b <;> rfl)
  | copy source target =>
    rw [hop] at hstep
    obtain ⟨value, hr, hstep⟩ := State.andThen_running hstep
    cases hstep
    obtain ⟨below, ht⟩ := h.slot hc hrest (v := target) (by rw [hop]; exact List.mem_cons_self)
    have hs := h.holds hc hrest (v := source) (by rw [hop]; exact List.mem_cons_self)
      (Frame.read_eq_ok_iff.1 hr)
    obtain ⟨is, c, w, his, hexec, hw, hwrote⟩ := copy_exec i.location env.names hs ht
    exact h.wrote hp hrest (by rw [hop]; rfl) (by rw [hop]; rfl) (by rw [hop]; exact his) hexec hwrote hw
  | label l =>
    rw [hop] at hstep
    cases hstep
    have hcode : Resumes o m text s.active.function q.next [] (i :: rest) := hrest ▸ h.code
    exact ⟨q, .refl q, h.goto rfl rfl rfl (hcode.label hop).2 (h.opens_tail hrest (by rw [hop]; rfl)),
      (List.append_nil _).symm⟩
  | jump l =>
    rw [hop] at hstep
    obtain ⟨code, hcode, rfl⟩ := State.goto_running hstep
    exact h.jump hl.compiled hrest hop hcode
  | branch condition ifTrue ifFalse =>
    rw [hop] at hstep
    obtain ⟨value, hr, hstep⟩ := State.andThen_running hstep
    have hread := Frame.read_eq_ok_iff.1 hr
    match value, hstep with
    | .bool true, hstep =>
      obtain ⟨code, hcode, rfl⟩ := State.goto_running hstep
      exact h.branch hl.compiled hrest hop (x := true) hread hcode
    | .bool false, hstep =>
      obtain ⟨code, hcode, rfl⟩ := State.goto_running hstep
      exact h.branch hl.compiled hrest hop (x := false) hread hcode
  | leave v =>
    rw [hop] at hstep
    obtain ⟨value, hr, hstep⟩ := State.andThen_running hstep
    obtain ⟨q', w, hreach, hend, hw⟩ := h.leave_reaches hl.compiled hrest hop
      (Frame.read_eq_ok_iff.1 hr)
    exact h.back hl hreach hend hw hstep

/-- Every step of a machine is followed. -/
theorem Represents.step (h : Represents o m text env top s q) (hl : Loaded o m text p env top)
    (happlicable : Applicable m s)
    (hfits : ∀ call, s.call? m env.sink = some call → ¬Overflows call.callee call.arguments)
    (hstep : s.step m env.sink = .running t) :
    Follows o m text p env top q t (visible (s.call? m env.sink).toList) := by
  unfold State.step at hstep
  cases hrest : s.active.rest with
  | nil =>
    rw [State.call?_eq_none fun i rest hr => absurd (hrest.symm.trans hr) nofun]
    rw [hrest] at hstep
    obtain ⟨value, hr, hstep⟩ := State.andThen_running hstep
    obtain ⟨waiting, hwaiting, -⟩ := State.leave_running hstep
    obtain ⟨q', w, hreach, hend, -, hw⟩ := h.end_reaches hl.compiled hrest
    have hentry : s.active.function.isEntryPoint = false := by
      rw [← Bool.not_eq_true, h.entry_iff, hwaiting]
      exact List.cons_ne_nil _ _
    exact h.back hl hreach hend (hw hentry value (Frame.read_eq_ok_iff.1 hr)) hstep
  | cons i rest =>
    rw [hrest] at hstep
    by_cases hcall : ∃ callee arguments target, i.op = .call callee arguments target
    · obtain ⟨callee, arguments, target, hop⟩ := hcall
      exact h.call hl happlicable hfits hrest hop hstep
    · have hop : ∀ callee arguments target, i.op ≠ .call callee arguments target :=
        fun callee arguments target he => hcall ⟨callee, arguments, target, he⟩
      rw [State.call?_eq_none fun j rest' hj => (List.cons.inj (hrest.symm.trans hj)).1 ▸ hop]
      exact h.execute hl hrest hop hstep

/-! ## Runs -/

/-- When a run ends with a value, the program exits with success. -/
theorem Represents.ends (h : Represents o m text env top s q) (hl : Loaded o m text p env top) {v : Value}
    {world : World} (hstep : s.step m env.sink = .ended ⟨.ok v, world⟩) :
    s.call? m env.sink = none ∧
      ∃ n, (Outcome.running q).exitWithin? p env n = some ⟨0, world, q.calls⟩ := by
  obtain ⟨hwaiting, rfl, hrest⟩ := State.ended_ok hstep
  have hentry := h.entry_iff.2 hwaiting
  have hnil : s.active.rest = [] := by
    refine hrest.resolve_right ?_
    rintro ⟨i, rest, hrest, hleave⟩
    have hi : i ∈ s.active.function.code := h.code.suffix.subset (by rw [hrest]; exact List.mem_cons_self)
    rw [hl.compiled.compilable.stays _ h.code.member hentry i hi] at hleave
    cases hleave
  obtain ⟨base, hin, -, hstack⟩ := h.frames
  obtain ⟨q', w, hreach, hend, hzero, -⟩ := h.end_reaches hl.compiled hnil
  rw [hwaiting] at hstack
  have hexit := hend.exits hl hin.rbp hstack
  rw [hzero hentry, h.world] at hexit
  exact ⟨State.call?_eq_none fun i rest hr => absurd (hnil.symm.trans hr) nofun, hreach.exits hexit⟩

/-- A program makes the calls of routines that a run makes, and exits with success when the run ends with a
value. -/
theorem Represents.run {sound : IR.State → Prop} (hl : Loaded o m text p env top)
    (happlicable : ∀ s, sound s → Applicable m s)
    (hkeeps : ∀ s t, sound s → s.step m env.sink = .running t → sound t) {v : Value} {world : World}
    {steps : Nat} (h : Represents o m text env top s q) (hs : sound s)
    (hfits : ∀ call ∈ (Progress.running s).calls m env.sink steps, ¬Overflows call.callee call.arguments)
    (hrun : (Progress.running s).endWithin? m env.sink steps = some ⟨.ok v, world⟩) :
    ∃ n, (Outcome.running q).exitWithin? p env n =
      some ⟨0, world, q.calls ++ visible ((Progress.running s).calls m env.sink steps)⟩ := by
  induction steps generalizing s q with
  | zero => cases hrun
  | succ steps ih =>
    rw [Progress.endWithin?] at hrun
    simp only [Progress.calls] at hfits ⊢
    cases hstep : s.step m env.sink with
    | ended e =>
      rw [hstep] at hrun
      obtain rfl : e = ⟨.ok v, world⟩ := by
        cases steps <;> exact Option.some.inj hrun
      obtain ⟨hcall, hexit⟩ := h.ends hl hstep
      have hnone : (Progress.ended ⟨.ok v, world⟩).calls m env.sink steps = [] := by
        cases steps <;> rfl
      rw [hcall, hnone]
      simpa [visible] using hexit
    | running t =>
      rw [hstep] at hrun hfits
      rw [List.forall_mem_append] at hfits
      obtain ⟨q', hreach, ht, hcalls⟩ := h.step hl (happlicable s hs)
        (fun call hcall => hfits.1 call (Option.mem_toList.2 hcall)) hstep
      have hexit := ih ht (hkeeps s t hs hstep) hfits.2 hrun
      rw [hcalls, List.append_assoc, visible, visible, ← List.filter_append] at hexit
      exact hreach.exits hexit

/-- A program begins with a call of the function in which a run starts. -/
theorem Loaded.starts (hl : Loaded o m text p env top) {f : IR.Function} (hentry : m.entry? = some f)
    (hparameters : f.parameters = []) {cpu : Cpu} (hrsp : (cpu.reg .rsp).toNat = top + 16)
    (input : List UInt8) :
    Follows o m text p env top ⟨cpu, 0, { input }, []⟩ ⟨⟨f, f.code, []⟩, [], { input }⟩ [] := by
  have hf : f ∈ m.functions := List.mem_of_find?_eq_some hentry
  have hname : f.isEntryPoint = true := List.find?_some hentry
  have hroom : (StackLayout.ofModule m).frameSize ≤ top := by
    have hlow := hl.low
    unfold maxDepth at hlow
    omega
  obtain ⟨rest, hat⟩ := At.start hl.compiled.generated
  have hpassed : Passed cpu Reg.arguments [] := by simp [Passed]
  obtain ⟨c, n, hreach, hin, hframe, hresume, hfinal⟩ := hl.compiled.call env
    (q := ⟨cpu, 0, { input }, []⟩) hf (by rw [eq_of_beq hname]; rfl) hat.tail hrsp hroom
    (by rw [hparameters]; rfl) hpassed
  rw [hparameters] at hframe
  refine ⟨_, hreach, ⟨rfl, hresume, .start f, top, hin, hframe, .first hname ?_⟩, rfl⟩
  rw [← Memory.word_congr fun a ha _ => hfinal a (by omega), Memory.word_setWord_of_disjoint (by omega),
    Memory.word_setWord]

end

/-! ## Modules -/

section

open Lowering

variable {m : Syntax.Module} {T : Ty} {M : IR.Module}

/-- In a sound machine the operands of an operator have the types that the checker found. -/
theorem applicable_of_sound (hM : LowersModule m T M) {s : IR.State} (h : SoundState m T s) :
    Applicable M s := by
  intro b values happlies
  obtain @⟨Θ, ρ, ha, -⟩ := h
  have hsafe := ha.code 1
  obtain ⟨location, name, arguments, target, rest, hrest, hf, hb', hread⟩ := State.exists_of_applies? happlies
  rw [hrest] at hsafe
  obtain ⟨⟨name', τs, τ, hname, hcallable, htyped, -⟩, -⟩ := hsafe
  cases hname
  have htypes := ha.frame.mapM_read location htyped
  rw [Frame.mapM_read_eq_ok_iff.2 hread] at htypes
  rw [show values.map Value.ty = τs from htypes]
  -- a name that stands for a built-in function is not that of a declared one
  rcases hcallable with hσ | ⟨b', rfl, hb⟩
  · rcases hM.callee hσ with ⟨f, F, s₁, s₂, -, -, hF, -⟩ | ⟨c, rfl, hc⟩
    · rw [hf] at hF
      cases hF
    · rw [Builtin.ofName?_name] at hb'
      cases hb'
      exact ⟨τ, operatorResult_of_signature hc⟩
  · rw [Builtin.ofName?_name] at hb'
    cases hb'
    exact ⟨τ, hb⟩

/-- A lowered module has assembly if its functions have few enough parameters and none has the name of the
place where programs start. -/
theorem compilable_of_lowers (hM : LowersModule m T M) (hparameters : ∀ f ∈ M.functions, f.parameters.length ≤ 6)
    (hstart : ∀ f ∈ M.functions, f.name ≠ "_start") : Compilable M :=
  ⟨hM.wellFormed, hM.stays, hM.function?_builtin, hparameters, hstart⟩

/-- A run that ends with a value starts in a function without parameters. -/
theorem start_eq {sink : Sink} {input : List UInt8} {steps : Nat} {v : Value} {world : World}
    (h : M.run? sink input steps = some ⟨.ok v, world⟩) :
    ∃ f, M.entry? = some f ∧ f.parameters = [] ∧
      M.start input = .running ⟨⟨f, f.code, []⟩, [], { input }⟩ := by
  unfold IR.Module.run? IR.Module.start at h
  unfold IR.Module.start
  cases hf : M.entry? with
  | none =>
    simp only [hf] at h
    cases steps <;> cases h
  | some f =>
    cases ha : activate f [] .nowhere 0 with
    | error fault =>
      simp only [hf, ha] at h
      cases steps <;> cases h
    | ok a =>
      obtain ⟨hlength, rfl⟩ := activate_ok ha
      have hparameters := List.length_eq_zero_iff.1 hlength.symm
      refine ⟨f, rfl, hparameters, ?_⟩
      simp only [ha, hparameters]
      rfl

/-- The assembly of a lowered module does what the module does. -/
theorem generate_correct (hM : LowersModule m T M) (hparameters : ∀ f ∈ M.functions, f.parameters.length ≤ 6)
    (hstart : ∀ f ∈ M.functions, f.name ≠ "_start") (o : Options) :
    ∃ text p, generate o M = .ok text ∧ assemble? text = some p ∧
      ∀ (env : Surroundings) (cpu : Cpu) (input : List UInt8) (steps : Nat) (v : Value) (world : World),
        env.Separates p →
        maxDepth * ((StackLayout.ofModule M).frameSize + 16) ≤ (cpu.reg .rsp).toNat →
        M.run? env.sink input steps = some ⟨.ok v, world⟩ →
        (∀ call ∈ M.calls env.sink input steps, ¬Overflows call.callee call.arguments) →
        ∃ n, p.run? env cpu input n = some ⟨0, world, visible (M.calls env.sink input steps)⟩ := by
  have hc := compilable_of_lowers hM hparameters hstart
  obtain ⟨text, p, hg, hp⟩ := generate_assembles o hc
  refine ⟨text, p, hg, hp, fun env cpu input steps v world hinj hroom hrun hfits => ?_⟩
  have hrsp : (cpu.reg .rsp).toNat = (cpu.reg .rsp).toNat - 16 + 16 := by
    unfold maxDepth at hroom
    omega
  have hl : Loaded o M text p env ((cpu.reg .rsp).toNat - 16) :=
    ⟨⟨hc, hg, hp⟩, hinj, hrsp ▸ hroom, hrsp ▸ (cpu.reg .rsp).isLt⟩
  obtain ⟨f, hentry, hparameters, hs⟩ := start_eq hrun
  have hsound := sound_start hM input
  unfold IR.Module.run? at hrun
  unfold IR.Module.calls at hfits ⊢
  rw [hs] at hrun hfits hsound ⊢
  have hkeeps : ∀ s t, SoundState m T s → s.step M env.sink = .running t → SoundState m T t := by
    intro s t h hstep
    have := h.step env.sink hM
    rwa [hstep] at this
  obtain ⟨q, hreach, hrep, hcalls⟩ := hl.starts hentry hparameters hrsp input
  obtain ⟨n, hn⟩ := hrep.run hl (fun s => applicable_of_sound hM) hkeeps hsound hfits hrun
  rw [hcalls] at hn
  obtain ⟨rest, hat⟩ := At.start hg
  have hfirst : p.find? ⟨"_start", none⟩ = some 0 := hat.find? hp
  simp only [Program.run?, Process.goto, hfirst]
  exact hreach.exits ⟨n, hn⟩

end

/-! ## Sources -/

/-- Surroundings in which routines change no register but the one for their result. -/
def quiet : Surroundings where
  sink := {}
  address := .ofNat 64
  names _ := none
  after _ call c :=
    match call.result with
    | .int n => c.set .rax n.toBitVec
    | _ => c
  rbp _ call _ := by cases call.result <;> rfl
  rsp _ call _ := by cases call.result <;> rfl
  memory _ call _ _ _ := by cases call.result <;> rfl
  result _ call _ n h := by rw [h]; rfl

/-- The module for `fun half(x: Int): Int { return x / 2 } half(read_int())`. -/
def halving : IR.Module :=
  ⟨[⟨"half", [.temp 1], [⟨⟨1, 36⟩, .loadInt 2 (.temp 2)⟩,
      ⟨⟨1, 32⟩, .call (.named "/") [.temp 1, .temp 2] (.temp 3)⟩, ⟨⟨1, 25⟩, .leave (.temp 3)⟩], .unit⟩,
    ⟨"main", [], [⟨⟨1, 45⟩, .call (.named "read_int") [] (.temp 4)⟩,
      ⟨⟨1, 40⟩, .call (.named "half") [.temp 4] (.temp 5)⟩,
      ⟨⟨1, 1⟩, .call (.named "print_int") [.temp 5] (.temp 6)⟩], .temp 5⟩]⟩

end Assembly

end Exprc
