/-
Ways through the code of a function. A way takes either side of a branch and keeps the variables that
were written on it. If on every way through every function of a module a variable is written before it
is read, then no run of the module stops at a variable without a value: each function under execution
has come to where it is on such a way, and every variable that was written on it has a value.
-/
import Exprc.Proofs.IR.Run

namespace Exprc.IR

/-! ## What instructions read and write -/

/-- The variables that an instruction reads. The callee of a call is not read but looked up. -/
def Op.reads : Op → List Var
  | .copy source _ => [source]
  | .call _ arguments _ => arguments
  | .branch condition .. => [condition]
  | .leave value => [value]
  | .loadInt .. | .loadBool .. | .label _ | .jump _ => []

/-- The variable that an instruction writes, if there is one. -/
def Op.writes : Op → List Var
  | .loadInt _ target | .loadBool _ target | .copy _ target | .call _ _ target => [target]
  | .label _ | .jump _ | .branch .. | .leave _ => []

/-- A variable that can be read when some variables were written: the unit variable always can be. -/
def Written (written : List Var) (v : Var) : Prop := v = .unit ∨ v ∈ written

theorem Written.mono {V W : List Var} (h : V ⊆ W) {v : Var} (hv : Written V v) : Written W v :=
  hv.imp_right fun hm => h hm

/-! ## Ways -/

/-- Control can come to `code` in a function, and `written` holds its parameters and what was written
on the way. -/
inductive Path (f : Function) : List Instruction → List Var → Prop
  | start : Path f f.code f.parameters
  | step {i : Instruction} {rest code : List Instruction} {written : List Var} :
      Path f (i :: rest) written → i.op.Follows f rest code → Path f code (i.op.writes ++ written)

/-- On every way through a function each variable is written before an instruction reads it, and so is
the result of the function before control reaches the end of the code. -/
structure Function.WritesFirst (f : Function) : Prop where
  inside : ∀ {i : Instruction} {rest : List Instruction} {written : List Var},
    Path f (i :: rest) written → ∀ v ∈ i.op.reads, Written written v
  atEnd : ∀ {written : List Var}, Path f [] written → Written written f.result

/-- For some number of instructions, what is left of the code of a function reads only what was
written, if some variables were written before. -/
def ReadsWritten (f : Function) : Nat → List Var → List Instruction → Prop
  | 0, _, _ => True
  | _ + 1, written, [] => Written written f.result
  | n + 1, written, i :: rest =>
    (∀ v ∈ i.op.reads, Written written v) ∧
      ∀ code, i.op.Follows f rest code → ReadsWritten f n (i.op.writes ++ written) code

namespace ReadsWritten

variable {f : Function} {n : Nat} {V W : List Var} {code rest : List Instruction}
  {location : Location}

theorem mono {m : Nat} (hm : m ≤ n) (hW : V ⊆ W) (h : ReadsWritten f n V code) :
    ReadsWritten f m W code := by
  induction n generalizing m V W code with
  | zero =>
    obtain rfl : m = 0 := by omega
    trivial
  | succ n ih =>
    cases m with
    | zero => trivial
    | succ m =>
      cases code with
      | nil => exact h.mono hW
      | cons i rest =>
        obtain ⟨hr, hf⟩ := h
        refine ⟨fun v hv => (hr v hv).mono hW, fun code hc => ?_⟩
        exact ih (by omega) (List.append_subset_of_subset_of_subset (List.subset_append_left _ _)
          (List.subset_append_of_subset_right _ hW)) (hf code hc)

/-- An instruction behind which control simply goes on. -/
theorem next {op : Op} (hop : ∀ code, op.Follows f rest code → code = rest)
    (hr : ∀ v ∈ op.reads, Written W v) (h : ReadsWritten f n (op.writes ++ W) rest) :
    ReadsWritten f n W (⟨location, op⟩ :: rest) := by
  cases n with
  | zero => trivial
  | succ n =>
    refine ⟨hr, fun code hc => ?_⟩
    rw [hop code hc]
    exact h.mono (Nat.le_succ n) (List.Subset.refl _)

theorem loadInt {value : Int64} {target : Var} (h : ReadsWritten f n (target :: W) rest) :
    ReadsWritten f n W (⟨location, .loadInt value target⟩ :: rest) :=
  next (fun _ hc => hc) nofun h

theorem loadBool {value : Bool} {target : Var} (h : ReadsWritten f n (target :: W) rest) :
    ReadsWritten f n W (⟨location, .loadBool value target⟩ :: rest) :=
  next (fun _ hc => hc) nofun h

theorem copy {source target : Var} (hs : Written W source)
    (h : ReadsWritten f n (target :: W) rest) :
    ReadsWritten f n W (⟨location, .copy source target⟩ :: rest) :=
  next (fun _ hc => hc) (List.forall_mem_singleton.2 hs) h

theorem call {callee : Var} {arguments : List Var} {target : Var}
    (ha : ∀ v ∈ arguments, Written W v) (h : ReadsWritten f n (target :: W) rest) :
    ReadsWritten f n W (⟨location, .call callee arguments target⟩ :: rest) :=
  next (fun _ hc => hc) ha h

theorem label {l : Label} (h : ReadsWritten f n W rest) :
    ReadsWritten f n W (⟨location, .label l⟩ :: rest) :=
  next (fun _ hc => hc) nofun h

theorem leave {value : Var} (hv : Written W value) :
    ReadsWritten f n W (⟨location, .leave value⟩ :: rest) := by
  cases n with
  | zero => trivial
  | succ n => exact ⟨List.forall_mem_singleton.2 hv, fun _ hc => hc.elim⟩

theorem jump {l : Label} (hl : codeBehind? l f.code = some code)
    (h : ∀ m < n, ReadsWritten f m W code) : ReadsWritten f n W (⟨location, .jump l⟩ :: rest) := by
  cases n with
  | zero => trivial
  | succ n =>
    refine ⟨nofun, fun code' hc => ?_⟩
    obtain rfl : code = code' := Option.some.inj (hl.symm.trans hc)
    exact h n (Nat.lt_succ_self n)

theorem branch {condition : Var} {a b : Label} {code' : List Instruction}
    (hc : Written W condition) (ha : codeBehind? a f.code = some code)
    (hb : codeBehind? b f.code = some code') (h : ∀ m < n, ReadsWritten f m W code)
    (h' : ∀ m < n, ReadsWritten f m W code') :
    ReadsWritten f n W (⟨location, .branch condition a b⟩ :: rest) := by
  cases n with
  | zero => trivial
  | succ n =>
    refine ⟨List.forall_mem_singleton.2 hc, fun other ho => ?_⟩
    rcases ho with ho | ho
    · obtain rfl : code = other := Option.some.inj (ha.symm.trans ho)
      exact h n (Nat.lt_succ_self n)
    · obtain rfl : code' = other := Option.some.inj (hb.symm.trans ho)
      exact h' n (Nat.lt_succ_self n)

end ReadsWritten

theorem Path.readsWritten {f : Function} (h : ∀ n, ReadsWritten f n f.parameters f.code)
    {code : List Instruction} {written : List Var} (hp : Path f code written) (n : Nat) :
    ReadsWritten f n written code := by
  induction hp generalizing n with
  | start => exact h n
  | step _ hc ih => exact (ih (n + 1)).2 _ hc

/-- A function whose whole code reads only what was written, for any number of instructions. -/
theorem Function.WritesFirst.of_readsWritten {f : Function}
    (h : ∀ n, ReadsWritten f n f.parameters f.code) : f.WritesFirst where
  inside hp := (hp.readsWritten h 1).1
  atEnd hp := hp.readsWritten h 1

/-! ## Machines -/

/-- A function under execution has come to where it is on some way, and what was written on it has a
value, but for variables that are still to be written. -/
def Activation.Assigned (a : Activation) (pending : List Var) : Prop :=
  ∃ written, Path a.function a.rest (pending ++ written) ∧
    ∀ v, Written written v → ∃ value, a.frame.read? v = some value

/-- A machine at work on functions of a module that have all written what they read. -/
structure State.Assigned (m : Module) (s : State) : Prop where
  active : s.active.Assigned []
  member : s.active.function ∈ m.functions
  waiting : ∀ w ∈ s.waiting, w.caller.Assigned [w.target] ∧ w.caller.function ∈ m.functions

/-- Writing keeps what has a value, and the variable that is written has one then. -/
theorem Frame.read?_write_isSome (frame : Frame) (v : Var) (value : Value) {w : Var}
    (h : w = v ∨ ∃ old, frame.read? w = some old) :
    ∃ new, (frame.write v value).read? w = some new := by
  by_cases hw : w = v
  · subst hw
    cases w with
    | unit => exact ⟨.unit, rfl⟩
    | temp n => exact ⟨value, frame.read?_write_temp n value⟩
    | named x => exact ⟨value, by rw [read?, if_neg (by simp), lookup_write, if_pos rfl]⟩
  · obtain ⟨old, ho⟩ := h.resolve_left hw
    exact ⟨old, by rw [frame.read?_write_of_ne hw, ho]⟩

/-- A function gets the value that it waits for. -/
theorem Activation.Assigned.receive {a : Activation} {v : Var} (h : a.Assigned [v]) (value : Value) :
    Activation.Assigned { a with frame := a.frame.write v value } [] := by
  obtain ⟨written, hp, hw⟩ := h
  refine ⟨v :: written, hp, fun w hv => a.frame.read?_write_isSome v value ?_⟩
  rcases hv with rfl | hv
  · exact .inr (hw _ (.inl rfl))
  · rcases List.mem_cons.1 hv with rfl | hv
    · exact .inl rfl
    · exact .inr (hw w (.inr hv))

/-- An instruction that stays in its function does what the way past it says. -/
theorem Activation.Assigned.inside {a : Activation} (h : a.Assigned []) {i : Instruction}
    {rest code : List Instruction} {frame : Frame} (hrest : a.rest = i :: rest)
    (he : i.op.Effect a.frame frame) (hf : i.op.Follows a.function rest code) :
    Activation.Assigned ⟨a.function, code, frame⟩ [] := by
  obtain ⟨written, hp, hw⟩ := h
  rw [hrest] at hp
  have hp' := hp.step hf
  have hpending : ∀ {v : Var}, i.op.writes = [v] →
      Activation.Assigned ⟨a.function, code, a.frame⟩ [v] :=
    fun hv => ⟨written, by rw [← hv]; exact hp', hw⟩
  have hnothing : i.op.writes = [] → Activation.Assigned ⟨a.function, code, a.frame⟩ [] :=
    fun hv => ⟨written, by rw [hv] at hp'; exact hp', hw⟩
  cases hop : i.op with
  | loadInt n target =>
    rw [hop] at he; obtain rfl := he
    exact (hpending (by rw [hop]; rfl)).receive _
  | loadBool b target =>
    rw [hop] at he; obtain rfl := he
    exact (hpending (by rw [hop]; rfl)).receive _
  | copy source target =>
    rw [hop] at he; obtain ⟨value, -, rfl⟩ := he
    exact (hpending (by rw [hop]; rfl)).receive value
  | call callee arguments target =>
    rw [hop] at he; obtain ⟨value, rfl⟩ := he
    exact (hpending (by rw [hop]; rfl)).receive value
  | label l => rw [hop] at he; obtain rfl := he; exact hnothing (by rw [hop]; rfl)
  | jump l => rw [hop] at he; obtain rfl := he; exact hnothing (by rw [hop]; rfl)
  | branch c l l' => rw [hop] at he; obtain rfl := he; exact hnothing (by rw [hop]; rfl)
  | leave v => rw [hop] at he; obtain rfl := he; exact hnothing (by rw [hop]; rfl)

/-- A call begins with the values of the parameters. -/
theorem Activation.Assigned.ofArguments {f : Function} {values : List Value}
    (hlen : values.length = f.parameters.length) :
    Activation.Assigned ⟨f, f.code, .ofArguments f.parameters values⟩ [] := by
  refine ⟨f.parameters, .start, fun v hv => ?_⟩
  have hall : ∀ (ps : List (Var × Value)) (frame : Frame),
      v ∈ ps.map (·.1) ∨ (∃ old, frame.read? v = some old) →
      ∃ value, (frame.writeAll ps).read? v = some value := by
    intro ps
    induction ps with
    | nil => exact fun frame h => h.resolve_left nofun
    | cons p ps ih =>
      intro frame h
      refine ih (frame.write p.1 p.2) ?_
      rw [List.map_cons, List.mem_cons, or_assoc, or_left_comm] at h
      exact h.imp_right (frame.read?_write_isSome p.1 p.2)
  rw [Frame.ofArguments_eq]
  refine hall _ _ ?_
  rw [List.map_fst_zip (Nat.le_of_eq hlen.symm)]
  exact hv.symm.imp_right fun h => ⟨.unit, by rw [h]; rfl⟩

section

variable {m : Module} {sink : Sink} {s t : State}

/-- A step keeps that what was written has a value. -/
theorem State.Assigned.step (hs : s.Assigned m) (h : s.step m sink = .running t) : t.Assigned m := by
  cases advances h with
  | inside hrest he hf ht =>
    rw [ht]
    exact ⟨hs.active.inside hrest he hf, hs.member, hs.waiting⟩
  | @call i rest name arguments target f values hrest hop hf hlen ht =>
    rw [ht]
    refine ⟨.ofArguments hlen, List.mem_of_find?_eq_some hf, List.forall_mem_cons.2 ⟨⟨?_, hs.member⟩,
      hs.waiting⟩⟩
    obtain ⟨written, hp, hw⟩ := hs.active
    rw [hrest] at hp
    have hp' : Path _ rest _ := hp.step (by rw [hop]; rfl)
    rw [hop] at hp'
    exact ⟨written, hp', hw⟩
  | @back w value _ hw ht =>
    obtain ⟨⟨hcaller, hmember⟩, hws⟩ := List.forall_mem_cons.1 (hw ▸ hs.waiting)
    refine ⟨?_, ?_, hws⟩
    · rw [ht]; exact hcaller.receive value
    · rw [ht]; exact hmember

theorem State.Assigned.steps {n : Nat} (h : Steps m sink n s t) (hs : s.Assigned m) :
    t.Assigned m := by
  induction h with
  | refl => exact hs
  | step hst _ ih => exact ih (hs.step hst)

/-! ## Ends for want of a value -/

/-- An end at a variable without a value. -/
def Ending.Lacks (e : Ending) (v : Var) : Prop :=
  ∃ fault, e.outcome = .error fault ∧ fault.cause = .unassigned v

theorem World.callBuiltin_ne_unassigned (w : World) (sink : Sink) (b : Builtin)
    (values : List Value) (v : Var) : (w.callBuiltin sink b values).1 ≠ .error (.unassigned v) := by
  have hprint : ∀ value, (w.print sink value).1 ≠ .error (.unassigned v) := by
    intro value
    unfold print
    dsimp only
    split <;> simp
  unfold callBuiltin
  split
  · unfold readInt integerOfLine
    dsimp only
    split
    · simp [Except.map]
    · split
      · simp [Except.map]
      · split <;> simp [Except.map]
  · exact hprint _
  · exact hprint _
  · unfold operate
    split <;> try split
    all_goals simp

theorem Ending.not_lacks {outcome : Except (Fault RuntimeError) Value} {world : World} {v : Var}
    (h : ∀ fault, outcome = .error fault → fault.cause ≠ .unassigned v) :
    ¬Ending.Lacks ⟨outcome, world⟩ v := by
  rintro ⟨fault, hf, hc⟩
  exact h fault hf hc

theorem activate_error {f : Function} {values : List Value} {location : Location} {depth : Nat}
    {fault : Fault RuntimeError} (h : activate f values location depth = .error fault) (v : Var) :
    fault.cause ≠ .unassigned v := by
  unfold activate at h
  split at h
  · cases h; nofun
  · split at h <;> cases h
    nofun

namespace State

variable {e : Ending} {v : Var} {location : Location}

theorem andThen_lacks {α : Type} {r : Except (Fault RuntimeError) α} {next : α → Progress}
    (h : s.andThen r next = .ended e) (he : e.Lacks v) :
    (∃ fault, r = .error fault ∧ fault.cause = .unassigned v) ∨ ∃ a, r = .ok a ∧ next a = .ended e := by
  cases r with
  | ok a => exact .inr ⟨a, rfl, h⟩
  | error fault =>
    cases h
    obtain ⟨fault', hf, hc⟩ := he
    cases hf
    exact .inl ⟨fault, rfl, hc⟩

theorem goto_not_lacks {l : Label} (h : s.goto location l = .ended e) : ¬e.Lacks v := by
  unfold goto at h
  split at h
  · cases h
  · cases h
    exact Ending.not_lacks fun fault hf => by cases hf; nofun

theorem leave_not_lacks {value : Value} (h : s.leave sink value = .ended e) : ¬e.Lacks v := by
  unfold leave at h
  split at h
  · cases h
  · split at h <;> cases h
    · exact Ending.not_lacks fun fault hf => by cases hf; nofun
    · exact Ending.not_lacks nofun

theorem call_not_lacks {callee : Var} {values : List Value} {target : Var}
    (h : s.call m sink location callee values target = .ended e) : ¬e.Lacks v := by
  unfold call at h
  split at h
  · split at h
    · intro he
      rcases andThen_lacks h he with ⟨fault, hf, hc⟩ | ⟨a, -, h⟩
      · exact activate_error hf v hc
      · cases h
    · rename_i b _ _
      have hb := s.world.callBuiltin_ne_unassigned sink b values v
      cases hr : s.world.callBuiltin sink b values with
      | mk result world =>
        rw [hr] at h hb
        cases result with
        | ok value => cases h
        | error cause =>
          cases h
          exact Ending.not_lacks fun fault hf => by
            cases hf
            exact fun hc => hb (congrArg _ hc)
    · cases h
      exact Ending.not_lacks fun fault hf => by cases hf; nofun
  · cases h
    exact Ending.not_lacks fun fault hf => by cases hf; nofun

/-- A step ends for want of a value only where that variable is read. -/
theorem step_lacks (h : s.step m sink = .ended e) (he : e.Lacks v) :
    s.active.frame.read? v = none ∧
      ((∃ i rest, s.active.rest = i :: rest ∧ v ∈ i.op.reads) ∨
        s.active.rest = [] ∧ v = s.active.function.result) := by
  have hread : ∀ {location w} {fault : Fault RuntimeError},
      s.active.frame.read location w = .error fault → fault.cause = .unassigned v →
      w = v ∧ s.active.frame.read? v = none := by
    intro location w fault hf hc
    obtain ⟨hn, rfl⟩ := Frame.read_error hf
    obtain rfl : w = v := RuntimeError.unassigned.inj hc
    exact ⟨rfl, hn⟩
  unfold step at h
  cases hrest : s.active.rest with
  | nil =>
    rw [hrest] at h
    rcases andThen_lacks h he with ⟨fault, hf, hc⟩ | ⟨value, -, h⟩
    · obtain ⟨rfl, hn⟩ := hread hf hc
      exact ⟨hn, .inr ⟨rfl, rfl⟩⟩
    · exact absurd he (leave_not_lacks h)
  | cons i rest =>
    rw [hrest] at h
    dsimp only at h
    unfold execute at h
    refine (fun ⟨hn, hv⟩ => ⟨hn, .inl ⟨i, rest, rfl, hv⟩⟩ :
      s.active.frame.read? v = none ∧ v ∈ i.op.reads → _) ?_
    cases hop : i.op with
    | loadInt n target => rw [hop] at h; cases h
    | loadBool b target => rw [hop] at h; cases h
    | label l => rw [hop] at h; cases h
    | jump l => rw [hop] at h; exact absurd he (goto_not_lacks h)
    | copy source target =>
      rw [hop] at h
      rcases andThen_lacks h he with ⟨fault, hf, hc⟩ | ⟨value, -, h⟩
      · obtain ⟨rfl, hn⟩ := hread hf hc
        exact ⟨hn, List.mem_singleton_self _⟩
      · cases h
    | call callee arguments target =>
      rw [hop] at h
      rcases andThen_lacks h he with ⟨fault, hf, hc⟩ | ⟨values, -, h⟩
      · obtain ⟨w, hw, hf⟩ := Frame.mapM_read_error hf
        obtain ⟨rfl, hn⟩ := hread hf hc
        exact ⟨hn, hw⟩
      · exact absurd he (call_not_lacks h)
    | branch condition ifTrue ifFalse =>
      rw [hop] at h
      rcases andThen_lacks h he with ⟨fault, hf, hc⟩ | ⟨value, -, h⟩
      · obtain ⟨rfl, hn⟩ := hread hf hc
        exact ⟨hn, List.mem_singleton_self _⟩
      · split at h
        · exact absurd he (goto_not_lacks h)
        · exact absurd he (goto_not_lacks h)
        · cases h
          exact absurd he (Ending.not_lacks fun fault hf => by cases hf; nofun)
    | leave value =>
      rw [hop] at h
      rcases andThen_lacks h he with ⟨fault, hf, hc⟩ | ⟨value, -, h⟩
      · obtain ⟨rfl, hn⟩ := hread hf hc
        exact ⟨hn, List.mem_singleton_self _⟩
      · exact absurd he (leave_not_lacks h)

end State

/-- A machine in which all was written that is read does not end for want of a value. -/
theorem State.Assigned.not_lacks (hm : ∀ f ∈ m.functions, f.WritesFirst) (hs : s.Assigned m)
    {e : Ending} (h : s.step m sink = .ended e) (v : Var) : ¬e.Lacks v := by
  intro he
  obtain ⟨hn, hv⟩ := State.step_lacks h he
  obtain ⟨written, hp, hw⟩ := hs.active
  have hf := hm _ hs.member
  have hwritten : Written written v := by
    rcases hv with ⟨i, rest, hrest, hv⟩ | ⟨hrest, rfl⟩
    · rw [hrest] at hp
      exact hf.inside hp v hv
    · rw [hrest] at hp
      exact hf.atEnd hp
  obtain ⟨value, hvalue⟩ := hw v hwritten
  rw [hn] at hvalue
  cases hvalue

/-- A run starts in a function of the module, or not at all. -/
theorem Module.start_assigned {input : List UInt8} (h : m.start input = .running s) :
    s.Assigned m := by
  unfold start at h
  dsimp only at h
  split at h
  · cases h
  · rename_i f hf
    split at h
    · rename_i a ha
      obtain ⟨hlen, rfl⟩ := activate_ok ha
      cases h
      exact ⟨.ofArguments hlen, List.mem_of_find?_eq_some hf, nofun⟩
    · cases h

theorem Module.start_not_lacks {input : List UInt8} {e : Ending} (h : m.start input = .ended e)
    (v : Var) : ¬e.Lacks v := by
  unfold start at h
  dsimp only at h
  split at h
  · cases h
    exact Ending.not_lacks fun fault hf => by cases hf; nofun
  · split at h
    · cases h
    · rename_i fault hf
      cases h
      exact Ending.not_lacks fun fault' he => by cases he; exact activate_error hf v

/-- If every function writes what it reads then no run ends for want of a value. -/
theorem Module.run?_not_lacks (hm : ∀ f ∈ m.functions, f.WritesFirst) {input : List UInt8}
    {steps : Nat} {e : Ending} (h : m.run? sink input steps = some e) (v : Var) : ¬e.Lacks v := by
  unfold Module.run? at h
  cases hstart : m.start input with
  | ended e' =>
    rw [hstart] at h
    obtain rfl : e' = e := by cases steps <;> exact Option.some.inj h
    exact start_not_lacks hstart v
  | running s =>
    rw [hstart] at h
    obtain ⟨n, t, -, hst, he⟩ := endWithin?_eq_some_iff.1 h
    exact ((start_assigned hstart).steps hst).not_lacks hm he v

end

end Exprc.IR
