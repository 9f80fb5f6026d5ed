/-
Code with other numbers. Each function may number its temporaries and its labels in its own way, as long as
different ones have different numbers (`Numbering`). Machines on such code are in lockstep: after each step they
hold the same values under the corresponding numbers, function by function (`State.Alike`), so both runs end
alike and on the same world (`Module.Alike.run?`).
-/
import Exprc.Proofs.IR.Frame

namespace Exprc.IR

/-! ## Results that correspond -/

section

variable {α β ε : Type} {R : α → β → Prop}

/-- Both are missing or both are there. -/
theorem rel_cases {a? : Option α} {b? : Option β} (h : Option.Rel R a? b?) :
    (a? = none ∧ b? = none) ∨ ∃ a b, a? = some a ∧ b? = some b ∧ R a b := by
  cases h with
  | none => exact .inl ⟨rfl, rfl⟩
  | some h => exact .inr ⟨_, _, rfl, rfl, h⟩

/-- Both are faults or both are results. -/
theorem rel_toOption_cases {r : Except ε α} {r' : Except ε β} (h : Option.Rel R r.toOption r'.toOption) :
    (∃ fault fault', r = .error fault ∧ r' = .error fault') ∨ ∃ a b, r = .ok a ∧ r' = .ok b ∧ R a b := by
  cases r <;> cases r' <;> cases h
  · exact .inl ⟨_, _, rfl, rfl⟩
  · exact .inr ⟨_, _, rfl, rfl, ‹_›⟩

end

/-! ## Numbers -/

/-- Which numbers of temporaries and of labels correspond, one to one. -/
structure Numbering where
  temp : Nat → Nat → Prop
  label : Nat → Nat → Prop
  temp_iff : ∀ {a a' b b' : Nat}, temp a a' → temp b b' → (a = b ↔ a' = b')
  label_iff : ∀ {a a' b b' : Nat}, label a a' → label b b' → (a = b ↔ a' = b')

namespace Numbering

/-- Every number corresponds to itself only. -/
structure Keeps (N : Numbering) : Prop where
  temp : ∀ {a a' : Nat}, N.temp a a' → a = a'
  label : ∀ {a a' : Nat}, N.label a a' → a = a'

/-- The numbers from some on become those from others on. -/
def shift (temp temp' label label' : Nat) : Numbering where
  temp a a' := ∃ k, a = temp + k ∧ a' = temp' + k
  label a a' := ∃ k, a = label + k ∧ a' = label' + k
  temp_iff := by rintro _ _ _ _ ⟨k, rfl, rfl⟩ ⟨j, rfl, rfl⟩; omega
  label_iff := by rintro _ _ _ _ ⟨k, rfl, rfl⟩ ⟨j, rfl, rfl⟩; omega

theorem shift_keeps (temp label : Nat) : (shift temp temp label label).Keeps where
  temp := by rintro _ _ ⟨k, rfl, rfl⟩; rfl
  label := by rintro _ _ ⟨k, rfl, rfl⟩; rfl

end Numbering

/-! ## Code -/

variable {N : Numbering}

/-- Variables that are the same but for their numbers. -/
inductive Var.Alike (N : Numbering) : Var → Var → Prop
  | temp {a a' : Nat} : N.temp a a' → Alike N (.temp a) (.temp a')
  | named (x : String) : Alike N (.named x) (.named x)
  | unit : Alike N .unit .unit

theorem Var.Alike.eq_iff {v v' w w' : Var} (hv : v.Alike N v') (hw : w.Alike N w') : v = w ↔ v' = w' := by
  cases hv <;> cases hw
  case temp.temp _ _ h _ _ h' => rw [Var.temp.injEq, Var.temp.injEq, N.temp_iff h h']
  all_goals simp

/-- Labels that are the same but for their numbers. -/
def Label.Alike (N : Numbering) (l l' : Label) : Prop := N.label l.number l'.number

theorem Label.Alike.eq_iff {l l' k k' : Label} (hl : l.Alike N l') (hk : k.Alike N k') : l = k ↔ l' = k' := by
  cases l; cases l'; cases k; cases k'
  rw [Label.mk.injEq, Label.mk.injEq]
  exact N.label_iff hl hk

/-- What instructions do is the same but for numbers. -/
inductive Op.Alike (N : Numbering) : Op → Op → Prop
  | loadInt {target target' : Var} (value : Int64) : target.Alike N target' →
      Alike N (.loadInt value target) (.loadInt value target')
  | loadBool {target target' : Var} (value : Bool) : target.Alike N target' →
      Alike N (.loadBool value target) (.loadBool value target')
  | copy {source source' target target' : Var} : source.Alike N source' → target.Alike N target' →
      Alike N (.copy source target) (.copy source' target')
  | call {callee callee' target target' : Var} {arguments arguments' : List Var} : callee.Alike N callee' →
      List.Forall₂ (Var.Alike N) arguments arguments' → target.Alike N target' →
      Alike N (.call callee arguments target) (.call callee' arguments' target')
  | label {l l' : Label} : l.Alike N l' → Alike N (.label l) (.label l')
  | jump {l l' : Label} : l.Alike N l' → Alike N (.jump l) (.jump l')
  | branch {condition condition' : Var} {ifTrue ifTrue' ifFalse ifFalse' : Label} :
      condition.Alike N condition' → ifTrue.Alike N ifTrue' → ifFalse.Alike N ifFalse' →
      Alike N (.branch condition ifTrue ifFalse) (.branch condition' ifTrue' ifFalse')
  | leave {value value' : Var} : value.Alike N value' → Alike N (.leave value) (.leave value')

theorem Op.Alike.label_iff {o o' : Op} (h : o.Alike N o') {l l' : Label} (hl : l.Alike N l') :
    o = .label l ↔ o' = .label l' := by
  cases h with
  | label hk => rw [Op.label.injEq, Op.label.injEq, hk.eq_iff hl]
  | _ => simp

/-- Instructions at one place that are the same but for numbers. -/
structure Instruction.Alike (N : Numbering) (i i' : Instruction) : Prop where
  location : i.location = i'.location
  op : i.op.Alike N i'.op

/-- Code that is the same but for numbers. -/
abbrev CodeAlike (N : Numbering) : List Instruction → List Instruction → Prop :=
  List.Forall₂ (Instruction.Alike N)

/-- Functions that are the same but for numbers. -/
structure Function.Alike (N : Numbering) (f f' : Function) : Prop where
  name : f.name = f'.name
  parameters : List.Forall₂ (Var.Alike N) f.parameters f'.parameters
  code : CodeAlike N f.code f'.code
  result : f.result.Alike N f'.result

/-- Programs whose functions, found by name, are the same but for numbers; each function has its own. -/
structure Module.Alike (m m' : Module) : Prop where
  function? : ∀ x, Option.Rel (fun f f' => ∃ N, Function.Alike N f f') (m.function? x) (m'.function? x)
  entry? : Option.Rel (fun f f' => ∃ N, Function.Alike N f f') m.entry? m'.entry?

/-! ### The same numbers -/

section Keeps

variable (hN : N.Keeps)
include hN

theorem Var.Alike.eq {v v' : Var} (h : v.Alike N v') : v = v' := by
  cases h with
  | temp h => exact congrArg Var.temp (hN.temp h)
  | _ => rfl

theorem Label.Alike.eq {l l' : Label} (h : l.Alike N l') : l = l' := congrArg Label.mk (hN.label h)

theorem Op.Alike.eq {o o' : Op} (h : o.Alike N o') : o = o' := by
  cases h with
  | loadInt value h | loadBool value h => rw [h.eq hN]
  | copy h h' => rw [h.eq hN, h'.eq hN]
  | call h hs h' =>
    have hs : List.Forall₂ Eq _ _ := hs.imp fun _ _ hv => hv.eq hN
    rw [List.forall₂_eq_eq_eq] at hs
    rw [h.eq hN, h'.eq hN, hs]
  | label h | jump h => rw [h.eq hN]
  | branch h h' h'' => rw [h.eq hN, h'.eq hN, h''.eq hN]
  | leave h => rw [h.eq hN]

theorem Instruction.Alike.eq {i i' : Instruction} (h : i.Alike N i') : i = i' := by
  cases i; cases i'
  exact congrArg₂ Instruction.mk h.location (h.op.eq hN)

theorem Function.Alike.eq {f f' : Function} (h : Function.Alike N f f') : f = f' := by
  cases f; cases f'
  obtain ⟨rfl, hparameters, hcode, hresult⟩ := h
  have hparameters : List.Forall₂ Eq _ _ := hparameters.imp fun _ _ hv => hv.eq hN
  have hcode : List.Forall₂ Eq _ _ := hcode.imp fun _ _ hi => hi.eq hN
  rw [List.forall₂_eq_eq_eq] at hparameters hcode
  exact congr (congrArg₂ (Function.mk _) hparameters hcode) (hresult.eq hN)

end Keeps

/-! ## Frames -/

/-- Frames that hold the same values under corresponding numbers. -/
def Frame.Alike (N : Numbering) (frame frame' : Frame) : Prop :=
  ∀ v v', Var.Alike N v v' → frame.read? v = frame'.read? v'

namespace Frame.Alike

variable {frame frame' : Frame}

theorem write (h : Frame.Alike N frame frame') {v v' : Var} (hv : v.Alike N v') (value : Value) :
    Frame.Alike N (frame.write v value) (frame'.write v' value) := by
  intro w w' hw
  have hread := h w w' hw
  have hunit : w = .unit ↔ w' = .unit := hw.eq_iff .unit
  unfold Frame.read? at hread ⊢
  rw [lookup_write, lookup_write]
  -- the unit variable is not read from the frame, whatever was written to it
  by_cases hwu : w = .unit
  · rw [if_pos hwu, if_pos (hunit.1 hwu)]
  · rw [if_neg hwu, if_neg fun h => hwu (hunit.2 h)] at hread ⊢
    by_cases hwv : w = v
    · rw [if_pos hwv, if_pos ((hw.eq_iff hv).1 hwv)]
    · rw [if_neg hwv, if_neg fun h => hwv ((hw.eq_iff hv).2 h), hread]

theorem nil : Frame.Alike N [] [] := by
  intro v v' hv
  cases hv <;> rfl

theorem writeAll {vs vs' : List Var} (hvs : List.Forall₂ (Var.Alike N) vs vs') :
    ∀ (values : List Value) {frame frame' : Frame}, Frame.Alike N frame frame' →
      Frame.Alike N (frame.writeAll (vs.zip values)) (frame'.writeAll (vs'.zip values)) := by
  induction hvs with
  | nil => exact fun _ _ _ h => h
  | cons hv _ ih =>
    rintro (_ | ⟨value, values⟩) frame frame' h
    · exact h
    · exact ih values (h.write hv value)

/-- Parameters hold the same arguments. -/
theorem ofArguments {ps ps' : List Var} (h : List.Forall₂ (Var.Alike N) ps ps') (arguments : List Value) :
    Frame.Alike N (.ofArguments ps arguments) (.ofArguments ps' arguments) := by
  rw [ofArguments_eq, ofArguments_eq]
  exact writeAll h arguments nil

end Frame.Alike

/-! ## Machines -/

/-- Functions under execution that are at the same point and hold the same values. -/
structure Activation.Alike (N : Numbering) (a a' : Activation) : Prop where
  function : Function.Alike N a.function a'.function
  rest : CodeAlike N a.rest a'.rest
  frame : Frame.Alike N a.frame a'.frame

/-- Functions that wait for the same result. -/
def Waiting.Alike (w w' : Waiting) : Prop := ∃ N, w.caller.Alike N w'.caller ∧ w.target.Alike N w'.target

/-- Machines at work that hold the same, each function under its own numbers. -/
structure State.Alike (s s' : State) : Prop where
  active : ∃ N, s.active.Alike N s'.active
  waiting : List.Forall₂ Waiting.Alike s.waiting s'.waiting
  world : s.world = s'.world

/-- Ends on the same world, with the same value or both with a fault. -/
structure Ending.Alike (e e' : Ending) : Prop where
  outcome : e.outcome.toOption = e'.outcome.toOption
  world : e.world = e'.world

/-- Machines that hold the same or have ended alike. -/
inductive Progress.Alike : Progress → Progress → Prop
  | running {s s' : State} : s.Alike s' → Alike (.running s) (.running s')
  | ended {e e' : Ending} : e.Alike e' → Alike (.ended e) (.ended e')

/-! ## Steps -/

theorem codeBehind?_alike {l l' : Label} (hl : l.Alike N l') {code code' : List Instruction}
    (h : CodeAlike N code code') : Option.Rel (CodeAlike N) (codeBehind? l code) (codeBehind? l' code') := by
  induction h with
  | nil => exact .none
  | @cons i i' code code' hi hcode ih =>
    rw [codeBehind?, codeBehind?]
    obtain ⟨hlater, hlater'⟩ | ⟨later, later', hlater, hlater', hbehind⟩ := rel_cases ih
    · have hlabel := hi.op.label_iff hl
      rw [hlater, hlater']
      dsimp only
      by_cases hfound : i.op = .label l
      · rw [if_pos hfound, if_pos (hlabel.1 hfound)]
        exact .some hcode
      · rw [if_neg hfound, if_neg fun h => hfound (hlabel.2 h)]
        exact .none
    · rw [hlater, hlater']
      exact .some hbehind

namespace State.Alike

variable {m m' : Module} {a a' : Activation} {waiting waiting' : List Waiting} {world : World}

/-- Going on with the same result. -/
theorem andThen {α : Type} {s s' : State} (hworld : s.world = s'.world)
    {r r' : Except (Fault RuntimeError) α} {next next' : α → Progress} (hr : r.toOption = r'.toOption)
    (hnext : ∀ a, (next a).Alike (next' a)) : (s.andThen r next).Alike (s'.andThen r' next') := by
  cases r with
  | ok a =>
    cases r' with
    | ok a' =>
      obtain rfl := Option.some.inj hr
      exact hnext a
    | error fault' => cases hr
  | error fault =>
    cases r' with
    | ok a' => cases hr
    | error fault' => exact .ended ⟨rfl, hworld⟩

theorem read (h : a.Alike N a') (l l' : Location) {v v' : Var} (hv : v.Alike N v') :
    (a.frame.read l v).toOption = (a'.frame.read l' v').toOption := by
  unfold Frame.read
  rw [h.frame v v' hv]
  cases a'.frame.read? v' <;> rfl

theorem readAll (h : a.Alike N a') (l l' : Location) {vs vs' : List Var}
    (hvs : List.Forall₂ (Var.Alike N) vs vs') :
    (vs.mapM (a.frame.read l)).toOption = (vs'.mapM (a'.frame.read l')).toOption := by
  induction hvs with
  | nil => rfl
  | @cons v v' vs vs' hv _ ih =>
    have hread := read h l l' hv
    rw [List.mapM_cons, List.mapM_cons]
    cases hx : a.frame.read l v <;> cases hx' : a'.frame.read l' v' <;> rw [hx, hx'] at hread <;> cases hread
    · rfl
    · cases hxs : vs.mapM (a.frame.read l) <;> cases hxs' : vs'.mapM (a'.frame.read l') <;>
        rw [hxs, hxs'] at ih <;> cases ih <;> rfl

/-- The active function writes a value. -/
theorem write (h : a.Alike N a') (hwaiting : List.Forall₂ Waiting.Alike waiting waiting') {v v' : Var}
    (hv : v.Alike N v') (value : Value) :
    (Progress.running (State.write ⟨a, waiting, world⟩ v value)).Alike
      (.running (State.write ⟨a', waiting', world⟩ v' value)) :=
  .running ⟨⟨N, h.function, h.rest, h.frame.write hv value⟩, hwaiting, rfl⟩

theorem goto (h : a.Alike N a') (hwaiting : List.Forall₂ Waiting.Alike waiting waiting') (i i' : Location)
    {l l' : Label} (hl : l.Alike N l') :
    (State.goto ⟨a, waiting, world⟩ i l).Alike (State.goto ⟨a', waiting', world⟩ i' l') := by
  unfold State.goto
  obtain ⟨hnone, hnone'⟩ | ⟨rest, rest', hrest, hrest', halike⟩ := rel_cases (codeBehind?_alike hl h.function.code)
  · simp only [hnone, hnone']
    exact .ended ⟨rfl, rfl⟩
  · simp only [hrest, hrest']
    exact .running ⟨⟨N, h.function, halike, h.frame⟩, hwaiting, rfl⟩

theorem leave (hwaiting : List.Forall₂ Waiting.Alike waiting waiting') (sink : Sink) (value : Value) :
    (State.leave sink ⟨a, waiting, world⟩ value).Alike (State.leave sink ⟨a', waiting', world⟩ value) := by
  unfold State.leave
  cases hwaiting with
  | nil =>
    dsimp only
    cases sink.flushFailure? world.output <;> exact .ended ⟨rfl, rfl⟩
  | cons hw hrest =>
    obtain ⟨N, hcaller, htarget⟩ := hw
    exact write hcaller hrest htarget value

theorem activate {f f' : Function} (hf : Function.Alike N f f') (arguments : List Value) (l l' : Location)
    (depth : Nat) :
    Option.Rel (Activation.Alike N) (IR.activate f arguments l depth).toOption
      (IR.activate f' arguments l' depth).toOption := by
  unfold IR.activate
  rw [hf.parameters.length_eq]
  split
  · exact .none
  · split
    · exact .none
    · exact .some ⟨hf, hf.code, .ofArguments hf.parameters arguments⟩

theorem call (hm : m.Alike m') (h : a.Alike N a') (hwaiting : List.Forall₂ Waiting.Alike waiting waiting')
    (sink : Sink) (l l' : Location) {callee callee' target target' : Var} (hcallee : callee.Alike N callee')
    (htarget : target.Alike N target') (arguments : List Value) :
    (State.call m sink ⟨a, waiting, world⟩ l callee arguments target).Alike
      (State.call m' sink ⟨a', waiting', world⟩ l' callee' arguments target') := by
  cases hcallee with
  | temp | unit => exact .ended ⟨rfl, rfl⟩
  | named name =>
    unfold State.call
    obtain ⟨hf, hf'⟩ | ⟨f, f', hf, hf', M, hff⟩ := rel_cases (hm.function? name)
    · simp only [hf, hf']
      cases Builtin.ofName? name with
      | none => exact .ended ⟨rfl, rfl⟩
      | some b =>
        dsimp only
        cases (world.callBuiltin sink b arguments).1 with
        | error cause => exact .ended ⟨rfl, rfl⟩
        | ok value => exact write h hwaiting htarget value
    · simp only [hf, hf', ← hwaiting.length_eq]
      obtain ⟨fault, fault', ha, ha'⟩ | ⟨b, b', ha, ha', hb⟩ :=
        rel_toOption_cases (activate hff arguments l l' (waiting.length + 1))
      · rw [ha, ha']
        exact .ended ⟨rfl, rfl⟩
      · rw [ha, ha']
        -- the callee runs under its own numbers, and the caller waits under its own
        exact .running ⟨⟨M, hb⟩, .cons ⟨N, h, htarget⟩ hwaiting, rfl⟩

theorem execute (hm : m.Alike m') (h : a.Alike N a') (hwaiting : List.Forall₂ Waiting.Alike waiting waiting')
    (sink : Sink) {i i' : Instruction} (hi : i.Alike N i') :
    (State.execute m sink ⟨a, waiting, world⟩ i).Alike (State.execute m' sink ⟨a', waiting', world⟩ i') := by
  obtain ⟨l, op⟩ := i
  obtain ⟨l', op'⟩ := i'
  have hop : op.Alike N op' := hi.op
  cases hop with
  | loadInt value htarget => exact write h hwaiting htarget _
  | loadBool value htarget => exact write h hwaiting htarget _
  | copy hsource htarget => exact andThen rfl (read h l l' hsource) (write h hwaiting htarget)
  | call hcallee harguments htarget =>
    exact andThen rfl (readAll h l l' harguments) (call hm h hwaiting sink l l' hcallee htarget)
  | label => exact .running ⟨⟨N, h⟩, hwaiting, rfl⟩
  | jump hl => exact goto h hwaiting l l' hl
  | branch hcondition htrue hfalse =>
    refine andThen rfl (read h l l' hcondition) fun value => ?_
    match value with
    | .bool true => exact goto h hwaiting l l' htrue
    | .bool false => exact goto h hwaiting l l' hfalse
    | .int _ | .unit => exact .ended ⟨rfl, rfl⟩
  | leave hvalue => exact andThen rfl (read h l l' hvalue) (leave hwaiting sink)

/-- Machines that hold the same do so after a step, or end alike. -/
theorem step (hm : m.Alike m') {s s' : State} (h : s.Alike s') (sink : Sink) :
    (s.step m sink).Alike (s'.step m' sink) := by
  obtain ⟨⟨f, rest, frame⟩, waiting, world⟩ := s
  obtain ⟨⟨f', rest', frame'⟩, waiting', world'⟩ := s'
  obtain ⟨⟨N, hfunction, hrest, hframe⟩, hwaiting, hworld⟩ := h
  obtain rfl : world = world' := hworld
  cases hrest with
  | nil =>
    have hactive : Activation.Alike N ⟨f, [], frame⟩ ⟨f', [], frame'⟩ := ⟨hfunction, .nil, hframe⟩
    exact andThen rfl (read hactive .nowhere .nowhere hfunction.result) (leave hwaiting sink)
  | @cons i i' rest rest' hi hrest =>
    have hactive : Activation.Alike N ⟨f, rest, frame⟩ ⟨f', rest', frame'⟩ := ⟨hfunction, hrest, hframe⟩
    exact execute hm hactive hwaiting sink hi

end State.Alike

/-! ## Runs -/

namespace Module.Alike

variable {m m' : Module}

theorem start (hm : m.Alike m') (input : List UInt8) : (m.start input).Alike (m'.start input) := by
  unfold Module.start
  obtain ⟨hf, hf'⟩ | ⟨f, f', hf, hf', N, hff⟩ := rel_cases hm.entry?
  · rw [hf, hf']
    exact .ended ⟨rfl, rfl⟩
  · simp only [hf, hf']
    obtain ⟨fault, fault', ha, ha'⟩ | ⟨a, a', ha, ha', halike⟩ :=
      rel_toOption_cases (State.Alike.activate hff [] .nowhere .nowhere 0)
    · rw [ha, ha']
      exact .ended ⟨rfl, rfl⟩
    · rw [ha, ha']
      exact .running ⟨⟨N, halike⟩, .nil, rfl⟩

theorem endWithin? (hm : m.Alike m') (sink : Sink) : ∀ (steps : Nat) {p p' : Progress}, p.Alike p' →
    Option.Rel Ending.Alike (p.endWithin? m sink steps) (p'.endWithin? m' sink steps)
  | 0, _, _, .ended he | _ + 1, _, _, .ended he => .some he
  | 0, _, _, .running _ => .none
  | steps + 1, _, _, .running hs => endWithin? hm sink steps (State.Alike.step hm hs sink)

/-- Runs of programs that are the same but for numbers end after the same number of steps, on the same world,
with the same value or both with a fault; or none of them ends. -/
theorem run? (hm : m.Alike m') (sink : Sink) (input : List UInt8) (steps : Nat) :
    Option.Rel Ending.Alike (m.run? sink input steps) (m'.run? sink input steps) :=
  endWithin? hm sink steps (hm.start input)

end Module.Alike

end Exprc.IR
