/-
What a run takes from its input. A run takes whole lines, one for each call of `read_int`, and looks at nothing
else of its input. So as long as something is left unread, the bytes behind the lines that were taken can be
exchanged for any others, and the run is the same but for what it leaves unread.
-/
import Exprc.Proofs.IR.Calls
import Exprc.Proofs.IR.Frame

namespace Exprc.IR

/-! ## Lines -/

/-- Some text without a line feed, and a line feed behind it. -/
def IsLine (bs : List UInt8) : Prop := ∃ text, bs = text ++ [10] ∧ 10 ∉ text

/-- If something is behind the first line, then the line has a line feed. -/
theorem isLine_of_splitLine {bs : List UInt8} (h : (splitLine bs).2 ≠ []) : IsLine (splitLine bs).1 := by
  induction bs with
  | nil => exact absurd rfl h
  | cons b bs ih =>
    rw [splitLine] at h ⊢
    split
    · rename_i hb
      exact ⟨[], by rw [hb]; rfl, List.not_mem_nil⟩
    · rename_i hb
      rw [if_neg hb] at h
      obtain ⟨text, htext, hfree⟩ := ih h
      refine ⟨b :: text, congrArg (b :: ·) htext, ?_⟩
      rw [List.mem_cons, not_or]
      exact ⟨Ne.symm hb, hfree⟩

/-- A line is the first line of what begins with it, whatever is behind it. -/
theorem IsLine.splitLine {line : List UInt8} (h : IsLine line) (bs : List UInt8) :
    splitLine (line ++ bs) = (line, bs) := by
  obtain ⟨text, rfl, hfree⟩ := h
  induction text with
  | nil => rfl
  | cons b text ih =>
    rw [List.mem_cons, not_or] at hfree
    have hrest := ih hfree.2
    rw [List.cons_append, List.cons_append, IR.splitLine, if_neg (Ne.symm hfree.1), hrest]

/-! ## Other inputs -/

/-- A world with another input. -/
def World.withInput (w : World) (input : List UInt8) : World := { w with input }

/-- A machine with another input ahead. -/
def State.withInput (s : State) (input : List UInt8) : State := { s with world := s.world.withInput input }

/-- An end that leaves other bytes unread. -/
def Ending.withInput (e : Ending) (input : List UInt8) : Ending := { e with world := e.world.withInput input }

namespace Progress

/-- The bytes that are ahead of a machine, or that it has left unread. -/
def input : Progress → List UInt8
  | running s => s.world.input
  | ended e => e.world.input

/-- The same with other bytes ahead, or left unread. -/
def withInput (bs : List UInt8) : Progress → Progress
  | running s => running (s.withInput bs)
  | ended e => ended (e.withInput bs)

@[simp] theorem input_withInput (p : Progress) (bs : List UInt8) : (p.withInput bs).input = bs := by
  cases p <;> rfl

end Progress

/-! ## What is taken -/

/-- The line that a call of a built-in function takes from the input, if it takes one. -/
def World.line? (w : World) (b : Builtin) (arguments : List Value) : Option (List UInt8) :=
  match b, arguments with
  | .readInt, [] => some (splitLine w.input).1
  | _, _ => none

/-- The line that the next step takes from the input, if it calls `read_int`. -/
def State.line? (m : Module) (s : State) : Option (List UInt8) :=
  (s.applies? m).bind fun (b, values) => s.world.line? b values

/-- The lines that a machine takes from its input in some number of steps, one for each call of `read_int`. -/
def Progress.lines (m : Module) (sink : Sink) : Nat → Progress → List (List UInt8)
  | _, .ended _ | 0, .running _ => []
  | steps + 1, .running s => (s.line? m).toList ++ (s.step m sink).lines m sink steps

/-- The lines that a run on some input takes from it in some number of steps. -/
def Module.lines (m : Module) (sink : Sink) (input : List UInt8) (steps : Nat) : List (List UInt8) :=
  (m.start input).lines m sink steps

/-! ## The next step -/

section

variable {m : Module} {sink : Sink} {w : World} {s : State} {b : Builtin} {values : List Value}
  {line bs bs' : List UInt8}

theorem World.print_withInput (value : Value) :
    (w.withInput bs).print sink value = ((w.print sink value).1, (w.print sink value).2.withInput bs) := by
  unfold print
  cases hf : sink.writeFailure? w.output (value.text ++ "\n") with
  | some reason => simp only [withInput, hf]
  | none => simp only [withInput, hf]

/-- Only the reading of an integer looks at the input. -/
theorem World.callBuiltin_keeps (h : w.line? b values = none) (bs : List UInt8) :
    (w.withInput bs).callBuiltin sink b values =
      ((w.callBuiltin sink b values).1, (w.callBuiltin sink b values).2.withInput bs) := by
  unfold callBuiltin
  split
  · cases h
  · exact print_withInput _
  · exact print_withInput _
  · rfl

/-- The reading of an integer looks at the first line, and takes it. -/
theorem World.callBuiltin_takes {rest : List UInt8} (h : splitLine w.input = (line, rest)) :
    w.callBuiltin sink .readInt [] = ((integerOfLine line).map .int, w.withInput rest) := by
  unfold callBuiltin readInt
  simp only [h]
  rfl

theorem State.andThen_withInput {α : Type} {r : Except (Fault RuntimeError) α} {next next' : α → Progress}
    (h : ∀ a, r = .ok a → next' a = (next a).withInput bs) :
    (s.withInput bs).andThen r next' = (s.andThen r next).withInput bs := by
  cases r with
  | ok a => exact h a rfl
  | error fault => rfl

theorem State.goto_withInput (location : Location) (l : Label) :
    (s.withInput bs).goto location l = (s.goto location l).withInput bs := by
  have hactive : (s.withInput bs).active = s.active := rfl
  unfold goto
  rw [hactive]
  cases codeBehind? l s.active.function.code <;> rfl

theorem State.leave_withInput (value : Value) :
    (s.withInput bs).leave sink value = (s.leave sink value).withInput bs := by
  obtain ⟨active, waiting, world⟩ := s
  cases waiting with
  | cons waits waiting => rfl
  | nil =>
    have houtput : (world.withInput bs).output = world.output := rfl
    simp only [leave, withInput, houtput]
    cases sink.flushFailure? world.output <;> rfl

/-- An instruction that calls no built-in function looks at no input. -/
theorem State.execute_withInput {i : Instruction}
    (h : ∀ name arguments target, i.op = .call (.named name) arguments target → m.function? name = none →
      Builtin.ofName? name = none ∨ arguments.mapM s.active.frame.read? = none) :
    (s.withInput bs).execute m sink i = (s.execute m sink i).withInput bs := by
  obtain ⟨location, op⟩ := i
  cases op with
  | loadInt | loadBool | label => rfl
  | copy source target => exact andThen_withInput fun value _ => rfl
  | jump l => exact goto_withInput location l
  | branch condition ifTrue ifFalse =>
    refine andThen_withInput fun value _ => ?_
    split
    · exact goto_withInput location ifTrue
    · exact goto_withInput location ifFalse
    · rfl
  | leave v => exact andThen_withInput fun value _ => leave_withInput value
  | call callee arguments target =>
    refine andThen_withInput fun values hread => ?_
    cases callee with
    | unit | temp => rfl
    | named name =>
      cases hf : m.function? name with
      | some f =>
        simp only [call, hf]
        exact andThen_withInput fun activation _ => rfl
      | none =>
        rcases h name arguments target rfl hf with hb | hnone
        · simp only [call, hf, hb]
          rfl
        · have hvalues : arguments.mapM s.active.frame.read? = some values := Frame.mapM_read_eq_ok_iff.1 hread
          cases hnone.symm.trans hvalues

/-- A step that calls no built-in function looks at no input. -/
theorem State.step_withInput (h : s.applies? m = none) :
    (s.withInput bs).step m sink = (s.step m sink).withInput bs := by
  obtain ⟨⟨function, code, frame⟩, waiting, world⟩ := s
  cases code with
  | nil => exact andThen_withInput fun value _ => leave_withInput value
  | cons i rest =>
    refine execute_withInput (s := ⟨⟨function, rest, frame⟩, waiting, world⟩) fun name arguments target hop hf => ?_
    obtain ⟨location, op⟩ := i
    cases hop
    cases hb : Builtin.ofName? name with
    | none => exact .inl rfl
    | some b =>
      simp only [applies?, hf, hb] at h
      exact .inr (Option.map_eq_none_iff.1 h)

theorem State.call_withInput {location : Location} {name : String} {target : Var} (hf : m.function? name = none)
    (hb : Builtin.ofName? name = some b)
    (hcall : (s.world.withInput bs).callBuiltin sink b values =
      ((s.world.callBuiltin sink b values).1, (s.world.callBuiltin sink b values).2.withInput bs')) :
    (s.withInput bs).call m sink location (.named name) values target =
      (s.call m sink location (.named name) values target).withInput bs' := by
  change (s.withInput bs).world.callBuiltin sink b values = _ at hcall
  rcases hr : s.world.callBuiltin sink b values with ⟨_ | value, world⟩
  · rw [hr] at hcall
    simp only [call, hf, hb, hr, hcall]
    rfl
  · rw [hr] at hcall
    simp only [call, hf, hb, hr, hcall]
    rfl

/-- If the built-in function that a step calls leaves `bs'` of `bs`, so does the step. -/
theorem State.step_withInput_of_builtin (h : s.applies? m = some (b, values))
    (hcall : (s.world.withInput bs).callBuiltin sink b values =
      ((s.world.callBuiltin sink b values).1, (s.world.callBuiltin sink b values).2.withInput bs')) :
    (s.withInput bs).step m sink = (s.step m sink).withInput bs' := by
  obtain ⟨location, name, arguments, target, rest, hrest, hf, hb, hvalues⟩ := exists_of_applies? h
  have hread : arguments.mapM (s.read location) = .ok values := Frame.mapM_read_eq_ok_iff.2 hvalues
  obtain ⟨⟨function, code, frame⟩, waiting, world⟩ := s
  obtain rfl := hrest
  change State.andThen _ (arguments.mapM (frame.read location)) _ =
    (State.andThen _ (arguments.mapM (frame.read location)) _).withInput bs'
  rw [show arguments.mapM (frame.read location) = .ok values from hread]
  exact call_withInput (s := ⟨⟨function, rest, frame⟩, waiting, world⟩) hf hb hcall

/-- A step that does not read an integer leaves the input as it is, whatever it is. -/
theorem State.step_keeps (h : s.line? m = none) (bs : List UInt8) :
    (s.withInput bs).step m sink = (s.step m sink).withInput bs := by
  cases happlies : s.applies? m with
  | none => exact step_withInput happlies
  | some call =>
    rw [line?, happlies] at h
    exact step_withInput_of_builtin happlies (World.callBuiltin_keeps h bs)

theorem State.input_keeps (h : s.line? m = none) : (s.step m sink).input = s.world.input := by
  rw [← Progress.input_withInput (s.step m sink) s.world.input, ← step_keeps h s.world.input]
  rfl

theorem World.line?_eq_some_iff :
    w.line? b values = some line ↔ b = .readInt ∧ values = [] ∧ line = (splitLine w.input).1 := by
  unfold line?
  split
  · exact ⟨fun h => ⟨rfl, rfl, (Option.some.inj h).symm⟩, fun h => congrArg some h.2.2.symm⟩
  · rename_i hne
    exact ⟨nofun, fun ⟨hb, hvalues, _⟩ => absurd hvalues (hne hb)⟩

theorem State.line?_eq_some_iff :
    s.line? m = some line ↔ s.applies? m = some (.readInt, []) ∧ line = (splitLine s.world.input).1 := by
  constructor
  · intro h
    obtain ⟨⟨b, values⟩, happlies, h⟩ := Option.bind_eq_some_iff.1 h
    obtain ⟨rfl, rfl, hline⟩ := World.line?_eq_some_iff.1 h
    exact ⟨happlies, hline⟩
  · rintro ⟨happlies, rfl⟩
    rw [line?, happlies]
    rfl

/-- A step that reads an integer takes the first line, and does the same whatever is behind that line. -/
theorem State.step_takes (h : s.line? m = some line) {rest : List UInt8} (hsplit : splitLine bs = (line, rest)) :
    (s.withInput bs).step m sink = (s.step m sink).withInput rest := by
  obtain ⟨happlies, hline⟩ := line?_eq_some_iff.1 h
  refine step_withInput_of_builtin happlies ?_
  have hself : splitLine s.world.input = (line, (splitLine s.world.input).2) := by rw [hline]
  rw [World.callBuiltin_takes hself, World.callBuiltin_takes (w := s.world.withInput bs) hsplit]
  rfl

theorem State.input_takes (h : s.line? m = some line) :
    (s.step m sink).input = (splitLine s.world.input).2 := by
  obtain ⟨-, hline⟩ := line?_eq_some_iff.1 h
  have hstep : (s.withInput s.world.input).step m sink = (s.step m sink).withInput (splitLine s.world.input).2 :=
    step_takes h (by rw [hline])
  rw [← Progress.input_withInput (s.step m sink) (splitLine s.world.input).2, ← hstep]
  rfl

/-- Whether a step takes a line does not depend on the input. -/
theorem State.line?_withInput_eq_none (h : s.line? m = none) (bs : List UInt8) :
    (s.withInput bs).line? m = none := by
  by_contra hsome
  obtain ⟨line, hline⟩ := Option.ne_none_iff_exists'.1 hsome
  have happlies : s.applies? m = some (.readInt, []) := (line?_eq_some_iff.1 hline).1
  rw [line?, happlies] at h
  cases h

theorem State.line?_withInput (h : s.line? m = some line) (hline : IsLine line) (bs : List UInt8) :
    (s.withInput (line ++ bs)).line? m = some line := by
  refine line?_eq_some_iff.2 ⟨(line?_eq_some_iff.1 h).1, ?_⟩
  change line = (splitLine (line ++ bs)).1
  rw [hline.splitLine]

end

/-! ## Runs -/

section

variable {m : Module} {sink : Sink} {steps : Nat} {p : Progress} {e : Ending}

/-- A run from a machine that leaves something unread has taken whole lines, and it is the same whatever is
behind them. -/
theorem Progress.endWithin?_withInput (h : p.endWithin? m sink steps = some e) (hu : e.world.input ≠ []) :
    p.input = (p.lines m sink steps).flatten ++ e.world.input ∧
      (∀ line ∈ p.lines m sink steps, IsLine line) ∧
      ∀ bs, (p.withInput ((p.lines m sink steps).flatten ++ bs)).endWithin? m sink steps = some (e.withInput bs) ∧
        (p.withInput ((p.lines m sink steps).flatten ++ bs)).lines m sink steps = p.lines m sink steps := by
  induction steps generalizing p with
  | zero =>
    cases p with
    | running s => cases h
    | ended e' =>
      cases h
      exact ⟨rfl, nofun, fun bs => ⟨rfl, rfl⟩⟩
  | succ steps ih =>
    cases p with
    | ended e' =>
      cases h
      exact ⟨rfl, nofun, fun bs => ⟨rfl, rfl⟩⟩
    | running s =>
      rw [endWithin?] at h
      obtain ⟨hinput, hlines, hruns⟩ := ih h
      rw [lines]
      cases hline : s.line? m with
      | none =>
        -- nothing is taken, and the step goes with any input
        refine ⟨(State.input_keeps hline).symm.trans hinput, hlines, fun bs => ?_⟩
        obtain ⟨hrun, hsame⟩ := hruns bs
        rw [Option.toList_none, List.nil_append, withInput, endWithin?, lines, State.step_keeps hline,
          State.line?_withInput_eq_none hline]
        exact ⟨hrun, hsame⟩
      | some line =>
        -- something is behind the line that is taken, so the line is whole
        have hfirst := (State.line?_eq_some_iff.1 hline).2
        have htaken : (s.step m sink).input = (splitLine s.world.input).2 := State.input_takes hline
        have hrest := htaken.symm.trans hinput
        have hwhole : IsLine line := by
          rw [hfirst]
          refine isLine_of_splitLine fun hnil => hu ?_
          exact (List.append_eq_nil_iff.1 (hrest.symm.trans hnil)).2
        rw [Option.toList_some, List.singleton_append, List.flatten_cons]
        refine ⟨?_, List.forall_mem_cons.2 ⟨hwhole, hlines⟩, fun bs => ?_⟩
        · rw [List.append_assoc, ← hrest, hfirst]
          exact (splitLine_append _).symm
        · obtain ⟨hrun, hsame⟩ := hruns bs
          rw [List.append_assoc, withInput, endWithin?, lines, State.step_takes hline (hwhole.splitLine _),
            State.line?_withInput hline hwhole, hsame]
          exact ⟨hrun, rfl⟩

end

section

variable {m : Module} {sink : Sink} {steps : Nat} {e : Ending} {c u : List UInt8}

theorem Module.start_withInput (m : Module) (input bs : List UInt8) : m.start bs = (m.start input).withInput bs := by
  unfold start
  cases hf : m.entry? with
  | none => rfl
  | some f =>
    cases ha : activate f [] .nowhere 0 with
    | ok activation => simp only [ha]; rfl
    | error fault => simp only [ha]; rfl

theorem Module.start_input (m : Module) (input : List UInt8) : (m.start input).input = input := by
  rw [start_withInput m [] input, Progress.input_withInput]

/-- A run that leaves something unread of its input depends only on what it has taken: with anything else behind
that, it has the same outcome and the same output, and leaves what is there. What it has taken is the lines for
the integers that it has read, one for each, and they are whole lines. -/
theorem Module.run?_of_unread (h : m.run? sink (c ++ u) steps = some e) (hleft : e.world.input = u) (hu : u ≠ []) :
    (∀ v, m.run? sink (c ++ v) steps = some ⟨e.outcome, ⟨v, e.world.output⟩⟩ ∧
      m.lines sink (c ++ v) steps = m.lines sink (c ++ u) steps) ∧
    (m.lines sink (c ++ u) steps).flatten = c ∧ ∀ line ∈ m.lines sink (c ++ u) steps, IsLine line := by
  subst hleft
  obtain ⟨hinput, hlines, hruns⟩ := Progress.endWithin?_withInput h hu
  rw [start_input] at hinput
  have hc : (m.lines sink (c ++ e.world.input) steps).flatten = c := (List.append_cancel_right hinput).symm
  refine ⟨fun v => ?_, hc, hlines⟩
  have hrun := hruns v
  rw [← start_withInput] at hrun
  change (m.start ((m.lines sink (c ++ e.world.input) steps).flatten ++ v)).endWithin? m sink steps = _ ∧
    (m.start ((m.lines sink (c ++ e.world.input) steps).flatten ++ v)).lines m sink steps = _ at hrun
  rw [hc] at hrun
  exact hrun

/-- A program that reads two integers and prints the second one. -/
def secondOfTwo : Module where
  functions := [{
    name := entryPoint
    parameters := []
    code := [
      ⟨⟨1, 1⟩, .call (.named "read_int") [] (.temp 0)⟩,
      ⟨⟨1, 2⟩, .call (.named "read_int") [] (.temp 1)⟩,
      ⟨⟨1, 3⟩, .call (.named "print_int") [.temp 1] (.temp 2)⟩]
    result := .temp 0 }]

/-- The lines `7` and ` 8`, and half of a third line behind them, or bytes that are no text. -/
theorem secondOfTwo_unread :
    secondOfTwo.lines {} ([55, 10, 32, 56, 10] ++ [57]) 4 = [[55, 10], [32, 56, 10]] ∧
      secondOfTwo.run? {} ([55, 10, 32, 56, 10] ++ [255, 10]) 4 = some ⟨.ok (.int 7), ⟨[255, 10], "8\n"⟩⟩ := by
  have hlines : secondOfTwo.lines {} ([55, 10, 32, 56, 10] ++ [57]) 4 = [[55, 10], [32, 56, 10]] := by cbv
  have hrun : secondOfTwo.run? {} ([55, 10, 32, 56, 10] ++ [57]) 4 =
      some ⟨.ok (.int 7), ⟨[57], "8\n"⟩⟩ := by cbv
  obtain ⟨hruns, -, -⟩ := Module.run?_of_unread hrun rfl (List.cons_ne_nil _ _)
  exact ⟨hlines, (hruns [255, 10]).1⟩

end

end Exprc.IR
