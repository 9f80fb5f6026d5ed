/-
The processor does what the machine does. A process represents the state of a machine if the instruction that is
next begins what is left of the active function, the frame of that function holds its variables, the functions
that wait lie above it, and the world is the same. For each step of the machine there are steps of the process
that lead to a process which represents the next state, and which has made the same calls of routines.
-/
import Exprc.Proofs.Assembly.Calling

namespace Exprc

namespace Assembly

open IR Typing

/-! ## States -/

/-- A program in surroundings in which it has enough memory for its stack. -/
structure Loaded (o : Options) (m : IR.Module) (text : List Line) (p : Program) (env : Surroundings)
    (top : Nat) : Prop where
  compiled : Compiled o m text p
  separates : env.Separates p
  low : maxDepth * ((StackLayout.ofModule m).frameSize + 16) ≤ top + 16
  high : top + 16 < 2 ^ 64

/-- A process represents the state of a machine. -/
structure Represents (o : Options) (m : IR.Module) (text : List Line) (env : Surroundings) (top : Nat)
    (s : IR.State) (q : Process) : Prop where
  world : q.world = s.world
  code : Resumes o m text s.active.function q.next [] s.active.rest
  opens : s.active.function.Open s.active.rest
  frames : ∃ base, q.cpu.InFrame (.ofModule m) base ∧
    HoldsFrame (.ofModule m) q.cpu.memory base s.active.frame ∧
    Stacked o m text env top q.cpu.memory base s.active.function s.waiting

/-- A process comes to one that represents a state, and makes some calls of routines on the way. -/
def Follows (o : Options) (m : IR.Module) (text : List Line) (p : Program) (env : Surroundings) (top : Nat)
    (q : Process) (t : IR.State) (calls : List Call) : Prop :=
  ∃ q', Reaches p env q q' ∧ Represents o m text env top t q' ∧ q'.calls = q.calls ++ calls

section

variable {o : Options} {m : IR.Module} {text : List Line} {p : Program} {env : Surroundings} {top : Nat}
  {s t : IR.State} {q q' : Process} {i : Instruction} {rest : List Instruction} {calls : List Call}

theorem Follows.of_reaches (h : Reaches p env q q') (hq : q'.calls = q.calls)
    (hf : Follows o m text p env top q' t calls) : Follows o m text p env top q t calls := by
  obtain ⟨q'', hr, ht, hc⟩ := hf
  exact ⟨q'', h.trans hr, ht, by rw [hc, hq]⟩

namespace Represents

/-- What the active function reads is in its slot. -/
theorem holds (h : Represents o m text env top s q) (hc : Compilable m) (hrest : s.active.rest = i :: rest)
    {v : Var} (hv : v ∈ i.op.reads) {value : Value} (hr : s.active.frame.read? v = some value) :
    q.cpu.Holds (.ofModule m) v value := by
  obtain ⟨base, hin, hframe, -⟩ := h.frames
  have hi : i ∈ s.active.function.code := h.code.suffix.subset (by rw [hrest]; exact List.mem_cons_self)
  obtain ⟨below, hbelow⟩ := hc.unambiguous.read_slot h.code.member hi hv
  exact ⟨below, hbelow, hin.holds hframe hbelow hr⟩

theorem slot (h : Represents o m text env top s q) (hc : Compilable m) (hrest : s.active.rest = i :: rest)
    {v : Var} (hv : v ∈ i.op.writes) : ∃ below, (StackLayout.ofModule m).offset? v = some below := by
  have hi : i ∈ s.active.function.code := h.code.suffix.subset (by rw [hrest]; exact List.mem_cons_self)
  exact hc.unambiguous.write_slot h.code.member hi hv

/-- A function goes on behind an instruction that does not leave it. -/
theorem opens_tail (h : Represents o m text env top s q) (hrest : s.active.rest = i :: rest)
    (hleave : i.op.isLeave = false) : s.active.function.Open rest :=
  .of_suffix (hrest ▸ h.code.suffix) hleave

/-- The code of an instruction that writes a variable. -/
theorem wrote (h : Represents o m text env top s q) (hp : assemble? text = some p)
    (hrest : s.active.rest = i :: rest) (hlabel : i.op.label? = none) (hleave : i.op.isLeave = false)
    {is : List Instr} (his : opCode (.ofModule m) i.location i.op = .ok is) {c : Cpu}
    (hexec : q.cpu.execAll env.names is = some c) {v : Var} {w : Word} {value : Value}
    (hwrote : q.cpu.Wrote (.ofModule m) c v w) (hw : Encodes w value) :
    Follows o m text p env top q (.write { s with active := { s.active with rest } } v value) [] := by
  obtain ⟨base, hin, hframe, hstack⟩ := h.frames
  have hcode : Resumes o m text s.active.function q.next is rest := (hrest ▸ h.code).code hlabel his
  obtain ⟨hreach, hresume⟩ := hcode.exec_all hp hexec
  refine ⟨_, hreach, ⟨h.world, hresume, h.opens_tail hrest hleave, base, hwrote.inFrame hin,
    hwrote.holdsFrame hin hframe hw, hstack.congr fun a ha => hwrote.above hin ha⟩, ?_⟩
  exact (List.append_nil _).symm

end Represents

/-! ## Numbers and copies -/

/-- A number is stored by one move, or by two if it needs more than 32 bits. -/
theorem storeNumber_exec {l : StackLayout} {v : Var} {below : Nat} {c : Cpu} (location : Location)
    (names : Names) (hv : l.offset? v = some below) (n : Int) :
    ∃ is c', l.storeNumber location v n = .ok is ∧ c.execAll names is = some c' ∧
      c.Wrote l c' v (.ofInt 64 n) := by
  unfold StackLayout.storeNumber
  simp only [slot_eq hv, store_eq hv]
  split
  · rename_i hfits
    have hmove : (Operand.imm n).fitsMove = true := by
      rw [Operand.fitsMove, decide_eq_true hfits.1, decide_eq_true hfits.2]
      rfl
    have hexec : c.execAll names [.binary .mov (.mem (some .qword) .rbp below) (.imm n)] =
        some { c with memory := c.memory.setWord (c.slot below) (.ofInt 64 n) } := by
      rw [Cpu.execAll_cons, Cpu.exec_storeNumber hmove]
      rfl
    exact ⟨_, _, rfl, hexec, rfl, rfl, below, hv, rfl⟩
  · exact ⟨_, _, rfl, rfl, rfl, rfl, below, hv, rfl⟩

/-- A copy goes through `rax`. -/
theorem copy_exec {l : StackLayout} {v w : Var} {below : Nat} {c : Cpu} (location : Location)
    (names : Names) {value : Value} (hv : c.Holds l v value) (hw : l.offset? w = some below) :
    ∃ is c' word, opCode l location (.copy v w) = .ok is ∧ c.execAll names is = some c' ∧
      Encodes word value ∧ c.Wrote l c' w word := by
  obtain ⟨k, hk, hvalue⟩ := hv
  simp only [opCode, load_eq hk, store_eq hw]
  exact ⟨_, _, _, rfl, rfl, hvalue, rfl, rfl, below, hw, rfl⟩

/-! ## Returns -/

/-- A process has come to the end of a function with a word for its result. -/
structure AtEnd (text : List Line) (f : IR.Function) (q q' : Process) (w : Word) : Prop where
  position : At text q'.next f.name epilogue
  rax : q'.cpu.reg .rax = w
  rbp : q'.cpu.reg .rbp = q.cpu.reg .rbp
  memory : q'.cpu.memory = q.cpu.memory
  world : q'.world = q.world
  calls : q'.calls = q.calls

/-- An instruction that leaves the function takes a value to its end. -/
theorem Represents.leave_reaches (h : Represents o m text env top s q) (hl : Compiled o m text p)
    (hrest : s.active.rest = i :: rest) {v : Var} (hop : i.op = .leave v) {value : Value}
    (hr : s.active.frame.read? v = some value) :
    ∃ q' w, Reaches p env q q' ∧ AtEnd text s.active.function q q' w ∧ Encodes w value := by
  obtain ⟨below, hv, hvalue⟩ := h.holds hl.compilable hrest (by rw [hop]; exact List.mem_cons_self) hr
  have hcode : Resumes o m text s.active.function q.next _ rest :=
    (hrest ▸ h.code).code (by rw [hop]; rfl) (by rw [hop, opCode, load_eq hv]; rfl)
  have hexec : q.cpu.execAll env.names [.binary .mov (.reg .rax) (.mem (some .qword) .rbp below)] =
      some (q.cpu.set .rax (q.cpu.memory.word (q.cpu.slot below))) := rfl
  obtain ⟨hreach, hjump⟩ := hcode.exec hl.assembled hexec
  obtain ⟨n, parameters, -, -, -, hbegin⟩ := hl.function h.code.member
  obtain ⟨next, hnext, hexit⟩ := hbegin.exit hl.assembled hl.compilable
  obtain ⟨-, -, code, result, -, -, hat⟩ := hjump
  refine ⟨_, _, hreach.trans (.single (hat.step_jump hl.assembled hnext)), ⟨hexit, rfl, rfl, rfl, rfl, rfl⟩,
    hvalue⟩

/-- Control reaches the end of a function with the value of its result. -/
theorem Represents.end_reaches (h : Represents o m text env top s q) (hl : Compiled o m text p)
    (hrest : s.active.rest = []) :
    ∃ q' w, Reaches p env q q' ∧ AtEnd text s.active.function q q' w ∧
      (s.active.function.isEntryPoint = true → w = 0) ∧
      (s.active.function.isEntryPoint = false → ∀ value,
        s.active.frame.read? s.active.function.result = some value → Encodes w value) := by
  obtain ⟨base, hin, hframe, -⟩ := h.frames
  obtain ⟨below, hv⟩ := hl.compilable.unambiguous.result_slot h.code.member
  obtain ⟨hf, -, code, result, hcode, hresult, hat⟩ := h.code
  rw [hrest] at hcode
  cases hcode
  rw [List.map_nil, List.nil_append, List.nil_append] at hat
  rw [resultCode, h.opens hrest] at hresult
  simp only [load_eq hv] at hresult
  cases hentry : s.active.function.isEntryPoint with
  | true =>
    rw [hentry] at hresult
    cases hresult
    have hexec : q.cpu.execAll env.names [.binary .mov (.reg .rax) (.imm 0)] =
        some (q.cpu.set .rax 0) := rfl
    obtain ⟨hreach, hend⟩ := hat.exec hl.assembled hexec
    exact ⟨_, 0, hreach, ⟨hend, rfl, rfl, rfl, rfl, rfl⟩, fun _ => rfl, nofun⟩
  | false =>
    rw [hentry] at hresult
    cases hresult
    have hexec : q.cpu.execAll env.names [.binary .mov (.reg .rax) (.mem (some .qword) .rbp below)] =
        some (q.cpu.set .rax (q.cpu.memory.word (q.cpu.slot below))) := rfl
    obtain ⟨hreach, hend⟩ := hat.exec hl.assembled hexec
    exact ⟨_, _, hreach, ⟨hend, rfl, rfl, rfl, rfl, rfl⟩, nofun, fun _ value hr =>
      hin.holds hframe hv hr⟩

theorem Resumes.lt {f : IR.Function} {n : Nat} {j : Instr} {js : List Instr} (hp : assemble? text = some p)
    (h : Resumes o m text f n (j :: js) rest) : n < p.instructions.length := by
  obtain ⟨-, -, code, result, -, -, hat⟩ := h
  have hinstr := hat.instr
  rw [← (assemble?_eq_some hp).1] at hinstr
  exact (List.getElem?_eq_some_iff.1 hinstr).1

/-- From the end of a function control goes back to the caller, which stores the result. -/
theorem AtEnd.back (hl : Loaded o m text p env top) {f : IR.Function} {base : Nat} {w : Word}
    {waiting : Waiting} {ws : List Waiting} {value : Value} (h : AtEnd text f q q' w)
    (hrbp : (q.cpu.reg .rbp).toNat = base)
    (hstack : Stacked o m text env top q.cpu.memory base f (waiting :: ws)) (hw : Encodes w value) :
    Follows o m text p env top q'
      ⟨{ waiting.caller with frame := waiting.caller.frame.write waiting.target value }, ws, q.world⟩ [] := by
  have hdepth := hstack.depth
  rw [← h.memory] at hstack
  cases hstack with
  | @caller _ n below _ _ _ _ hbase hreturn ht hresume hopen hframe hstack =>
    rw [List.length_cons, Nat.succ_mul] at hdepth
    have hhigh := hl.high
    have hp := hl.compiled.assembled
    obtain ⟨c, hreach, hrax, hmemory, hrbp', hrsp'⟩ := epilogue_reaches hp hl.separates h.position
      (by rw [h.rbp, hrbp]) (by omega) (hresume.lt hp) hreturn
    have hin : c.InFrame (.ofModule m) (base + 16 + (StackLayout.ofModule m).frameSize) := by
      refine ⟨?_, by rw [hrsp']⟩
      rw [hrbp', hbase, BitVec.toNat_ofNat]
      exact Nat.mod_eq_of_lt (by omega)
    let stored : Cpu := { c with memory := c.memory.setWord (c.slot below) (c.reg .rax) }
    have hwrote : c.Wrote (.ofModule m) stored waiting.target (c.reg .rax) := ⟨rfl, rfl, below, ht, rfl⟩
    have hexec : c.execAll env.names [.binary .mov (.mem (some .qword) .rbp below) (.reg .rax)] =
        some stored := rfl
    obtain ⟨hreach', hresume'⟩ := hresume.exec_all (s := { q' with cpu := c, next := n }) hp hexec
    rw [← hmemory] at hframe hstack
    refine ⟨_, hreach.trans hreach', ⟨h.world, hresume', hopen, _, hwrote.inFrame hin, ?_, ?_⟩,
      (List.append_nil _).symm⟩
    · exact hwrote.holdsFrame hin hframe (by rw [hrax, h.rax]; exact hw)
    · exact hstack.congr fun a ha => hwrote.above hin ha

/-! ## The start and the end -/

/-- A program starts with a call of the function in which a run starts, and exits with its result. -/
theorem At.start (hg : generate o m = .ok text) : ∃ rest, At text 0 "" (.label (.plain "_start") ::
    .ofInstr (.call (.plain entryPoint)) :: .blank :: .note "exit syscall using code passed in rax" ::
    ([Instr.binary .mov (.reg .rdi) (.reg .rax), .binary .mov (.reg .rax) (.imm 60)].map .ofInstr ++
      .ofInstr (.plain .syscall) :: rest)) := by
  obtain ⟨blocks, -, rfl⟩ := generate_eq_ok hg
  refine ⟨.blank :: .comment "user code" :: [Line.blank].intercalate blocks,
    [.wordSize, .relativeAddresses, .blank, .comment "runtime functions"]
      ++ routineNames.map (fun name => .imported (.plain name))
      ++ [.blank, .part "text", .blank, .comment "program entrypoint", .exported (.plain "_start")],
    [], ?_, rfl, rfl⟩
  simp [header]

/-- From the end of the function in which the run started, the program exits with its result. -/
theorem AtEnd.exits (hl : Loaded o m text p env top) {f : IR.Function} {base : Nat} {w : Word}
    (h : AtEnd text f q q' w) (hrbp : (q.cpu.reg .rbp).toNat = base)
    (hstack : Stacked o m text env top q.cpu.memory base f []) :
    ∃ n, (Outcome.running q').exitWithin? p env n = some ⟨w.toNat % 256, q.world, q.calls⟩ := by
  rw [← h.memory] at hstack
  have hp := hl.compiled.assembled
  obtain ⟨rest, hstart⟩ := At.start hl.compiled.generated
  have hcode := hstart.tail.tail.tail.tail
  have hone : 1 < p.instructions.length := by
    have hinstr := hcode.instr
    rw [← (assemble?_eq_some hp).1] at hinstr
    exact (List.getElem?_eq_some_iff.1 hinstr).1
  cases hstack with
  | first hentry hreturn =>
    obtain ⟨c, hreach, hrax, -⟩ := epilogue_reaches hp hl.separates h.position (by rw [h.rbp, hrbp])
      hl.high hone hreturn
    let exiting : Cpu := (c.set .rdi (c.reg .rax)).set .rax 60
    have hexec : c.execAll env.names [.binary .mov (.reg .rdi) (.reg .rax),
        .binary .mov (.reg .rax) (.imm 60)] = some exiting := rfl
    obtain ⟨hreach', hexit⟩ := hcode.exec (s := { q' with cpu := c, next := 1 }) hp hexec
    refine (hreach.trans hreach').exits ⟨1, ?_⟩
    have hfetch := hexit.fetch (s := ⟨exiting, 3, q'.world, q'.calls⟩) hp
    have hstep : Process.step p env ⟨exiting, 3, q'.world, q'.calls⟩ =
        .exited ⟨w.toNat % 256, q.world, q.calls⟩ := by
      rw [Process.step, hfetch, ← h.world, ← h.calls, ← h.rax, ← hrax]
      rfl
    show (Process.step p env ⟨exiting, 3, q'.world, q'.calls⟩).exitWithin? p env 0 = _
    rw [hstep]
    rfl

/-! ## Calls -/

section

variable {name : String} {arguments : List Var} {target : Var} {values : List Value}

/-- The arguments of a call are in their slots. -/
theorem Represents.holdsAll (h : Represents o m text env top s q) (hc : Compilable m)
    (hrest : s.active.rest = i :: rest) {callee : Var} (hop : i.op = .call callee arguments target)
    (hvalues : List.Forall₂ (fun v x => s.active.frame.read? v = some x) arguments values) :
    List.Forall₂ (q.cpu.Holds (.ofModule m)) arguments values := by
  refine List.forall₂_iff_get.2 ⟨hvalues.length_eq, fun k hk hk' => ?_⟩
  refine h.holds hc hrest ?_ (hvalues.get hk hk')
  rw [hop]
  exact List.getElem_mem hk

/-- A call of an operator is the code for the operator. -/
theorem Represents.operator (h : Represents o m text env top s q) (hl : Compiled o m text p)
    (hrest : s.active.rest = i :: rest) (hop : i.op = .call (.named name) arguments target)
    {b : Builtin} (hname : Builtin.ofName? name = some b) (hb : b.isIntrinsic = false)
    (hvalues : List.Forall₂ (fun v x => s.active.frame.read? v = some x) arguments values) {τ : Ty}
    (hty : operatorResult b (values.map Value.ty) = .ok τ) {result : Value}
    (hresult : operate b values = .ok result) (hfits : ¬Overflows b values) :
    Follows o m text p env top q
      (.write { s with active := { s.active with rest } } target result) [] := by
  obtain ⟨below, ht⟩ := h.slot hl.compilable hrest (v := target) (by rw [hop]; exact List.mem_cons_self)
  obtain ⟨is, c, w, his, hexec, hw, hwrote⟩ := operatorCode_exec env.names
    (h.holdsAll hl.compilable hrest hop hvalues) ht hty hresult hfits i.location
  have hcode : opCode (.ofModule m) i.location i.op = .ok is := by
    simp only [hop, opCode, hname, Option.filter_some, hb]
    exact his
  exact h.wrote hl.assembled hrest (by rw [hop]; rfl) (by rw [hop]; rfl) hcode hexec hwrote hw

/-- A call loads its arguments into registers. -/
theorem Represents.loads (h : Represents o m text env top s q) (hl : Compiled o m text p)
    (hrest : s.active.rest = i :: rest) (hop : i.op = .call (.named name) arguments target)
    (hname : (Builtin.ofName? name).filter (!·.isIntrinsic) = none)
    (hle : arguments.length ≤ Reg.arguments.length)
    (hvalues : List.Forall₂ (fun v x => s.active.frame.read? v = some x) arguments values) :
    ∃ c n below, Reaches p env q { q with cpu := c, next := n } ∧ c.reg .rbp = q.cpu.reg .rbp ∧
      c.reg .rsp = q.cpu.reg .rsp ∧ c.memory = q.cpu.memory ∧ Passed c Reg.arguments values ∧
      (StackLayout.ofModule m).offset? target = some below ∧
      Resumes o m text s.active.function n [.call (.function name),
        .binary .mov (.mem (some .qword) .rbp below) (.reg .rax)] rest := by
  obtain ⟨below, ht⟩ := h.slot hl.compilable hrest (v := target) (by rw [hop]; exact List.mem_cons_self)
  have hslots := h.holdsAll hl.compilable hrest hop hvalues
  have harguments : ∀ v ∈ arguments, ∃ k, (StackLayout.ofModule m).offset? v = some k := by
    intro v hv
    obtain ⟨k, hk, rfl⟩ := List.mem_iff_getElem.1 hv
    obtain ⟨below, hbelow, -⟩ := hslots.get hk (hslots.length_eq ▸ hk)
    exact ⟨below, hbelow⟩
  obtain ⟨loads, hloads, -⟩ := loadArguments_ok i.location hle harguments
  obtain ⟨c, hexec, hmemory, hregs, hpassed⟩ := loadArguments_exec env.names hslots
    (by decide) (by decide) hloads
  have his : opCode (.ofModule m) i.location i.op = .ok (loads ++ [.call (.function name),
      .binary .mov (.mem (some .qword) .rbp below) (.reg .rax)]) := by
    simp only [hop, opCode, hname, callCode, if_neg (Nat.not_lt.2 hle), hloads, store_eq ht]
    rfl
  have hcode : Resumes o m text s.active.function q.next _ rest :=
    (hrest ▸ h.code).code (by rw [hop]; rfl) his
  obtain ⟨hreach, hcall⟩ := hcode.exec hl.assembled hexec
  exact ⟨c, _, below, hreach, hregs _ (by decide), hregs _ (by decide), hmemory, hpassed, ht, hcall⟩

/-- A routine gets the arguments that were loaded for it. -/
theorem arguments_eq {b : Builtin} {c : Cpu} {sink : Sink} {world world' : World} {result : Value}
    (hb : b.isIntrinsic = true) (hcall : world.callBuiltin sink b values = (.ok result, world'))
    (hpassed : Passed c Reg.arguments values) : c.arguments b = values := by
  cases b <;> cases hb
  case printInt =>
    match values, hcall with
    | [.int n], _ =>
      have hn : c.reg .rdi = n.toBitVec := hpassed (.rdi, .int n) List.mem_cons_self
      rw [Cpu.arguments, hn]
      rfl
  case printBool =>
    match values, hcall with
    | [.bool x], _ =>
      have hx : c.reg .rdi = if x then 1 else 0 := hpassed (.rdi, .bool x) List.mem_cons_self
      rw [Cpu.arguments, hx]
      cases x <;> rfl
  case readInt =>
    match values, hcall with
    | [], _ => rfl

theorem print_ok {w w' : World} {sink : Sink} {v result : Value}
    (h : w.print sink v = (.ok result, w')) : result = .unit := by
  unfold World.print at h
  dsimp only at h
  split at h <;> cases h
  rfl

/-- What a routine gives back is in `rax`, unless it is the unit value. -/
theorem encodes_result {b : Builtin} {sink : Sink} {world world' : World} {result : Value} {w : Word}
    (hb : b.isIntrinsic = true) (hcall : world.callBuiltin sink b values = (.ok result, world'))
    (hw : ∀ n, result = .int n → w = n.toBitVec) : Encodes w result := by
  have hresult : result = .unit ∨ ∃ n, result = .int n := by
    cases b <;> cases hb
    case printInt =>
      match values, hcall with
      | [.int n], h => exact .inl (print_ok h)
    case printBool =>
      match values, hcall with
      | [.bool x], h => exact .inl (print_ok h)
    case readInt =>
      match values, hcall with
      | [], h =>
        unfold World.callBuiltin World.readInt at h
        dsimp only at h
        cases hline : integerOfLine (splitLine world.input).1 with
        | ok n =>
          rw [hline] at h
          cases h
          exact .inr ⟨n, rfl⟩
        | error cause => rw [hline] at h; cases h
  rcases hresult with rfl | ⟨n, rfl⟩
  · trivial
  · exact hw n rfl

/-- A call of a routine. -/
theorem Represents.routine (h : Represents o m text env top s q) (hl : Compiled o m text p)
    (hrest : s.active.rest = i :: rest) (hop : i.op = .call (.named name) arguments target)
    {b : Builtin} (hname : Builtin.ofName? name = some b) (hb : b.isIntrinsic = true)
    (harity : arguments.length = b.arity)
    (hvalues : List.Forall₂ (fun v x => s.active.frame.read? v = some x) arguments values)
    {result : Value} {world : World}
    (hcall : s.world.callBuiltin env.sink b values = (.ok result, world)) :
    Follows o m text p env top q
      (.write { s with active := { s.active with rest }, world } target result) [⟨b, values, result⟩] := by
  have hp := hl.assembled
  obtain ⟨base, hin, hframe, hstack⟩ := h.frames
  obtain ⟨c, n, below, hreach, hrbp, hrsp, hmemory, hpassed, ht, hcode⟩ := h.loads hl hrest hop
    (by rw [hname, Option.filter_some, hb]; rfl) (by rw [harity]; cases b <;> decide) hvalues
  -- the routine comes from another text
  have himport : name ∈ p.imports := by
    obtain rfl : b.name = name := by simpa using List.find?_some hname
    rw [(assemble?_eq_some hp).2.2, importsOf_generate hl.compilable.unambiguous hl.generated]
    exact List.mem_map_of_mem (List.mem_filter.2 ⟨b.mem_all, hb⟩)
  let call : Call := ⟨b, values, result⟩
  let after := env.after q.calls call c
  have hstep : Process.step p env { q with cpu := c, next := n } =
      .running ⟨after, n + 1, world, q.calls ++ [call]⟩ := by
    obtain ⟨-, -, code, result', -, -, hat⟩ := hcode
    rw [hat.step_call (s := { q with cpu := c, next := n }) hp]
    simp only [Process.call, Symbol.place, p.find?_of_import himport, hname, Process.callRoutine,
      arguments_eq hb hcall hpassed, h.world, hcall]
    exact if_pos ⟨himport, trivial⟩
  -- it keeps what lies at the stack pointer and above it
  have hin' : after.InFrame (.ofModule m) base := by
    refine ⟨?_, ?_⟩
    · rw [env.rbp, hrbp]
      exact hin.rbp
    · rw [env.rsp, hrsp]
      exact hin.rsp
  have hkeeps : ∀ a, base ≤ a + (StackLayout.ofModule m).frameSize → q.cpu.memory a = after.memory a := by
    intro a ha
    have hrsp' := hin.rsp
    rw [← hmemory]
    exact (env.memory _ _ _ _ (by rw [hrsp]; omega)).symm
  let stored : Cpu := { after with memory := after.memory.setWord (after.slot below) (after.reg .rax) }
  have hwrote : after.Wrote (.ofModule m) stored target (after.reg .rax) := ⟨rfl, rfl, below, ht, rfl⟩
  have hexec : after.execAll env.names [.binary .mov (.mem (some .qword) .rbp below) (.reg .rax)] =
      some stored := rfl
  obtain ⟨hreach', hresume⟩ := hcode.tail.exec_all (s := ⟨after, n + 1, world, q.calls ++ [call]⟩) hp hexec
  refine ⟨_, hreach.trans (.step hstep hreach'), ⟨rfl, hresume, h.opens_tail hrest (by rw [hop]; rfl), base,
    hwrote.inFrame hin', ?_, ?_⟩, rfl⟩
  · exact hwrote.holdsFrame hin' (hframe.congr hin.room fun a ha _ => hkeeps a ha)
      (encodes_result hb hcall fun n hn => env.result _ call _ n hn)
  · exact hstack.congr fun a ha => (hkeeps a (by omega)).trans (hwrote.above hin' ha)

variable (env) in
/-- A call of a function puts the address of the next instruction on the stack, and leads to the code of the
function in a frame of its own. -/
theorem Compiled.call (hl : Compiled o m text p) {f : IR.Function} (hf : f ∈ m.functions) {scope : String}
    {symbol : Symbol} {lines : List Line} {lower : Nat} (hplace : symbol.place scope = ⟨f.name, none⟩)
    (hat : At text q.next scope (.ofInstr (.call symbol) :: lines))
    (hrsp : (q.cpu.reg .rsp).toNat = lower + 16) (hroom : (StackLayout.ofModule m).frameSize ≤ lower)
    (hlength : values.length = f.parameters.length) (hpassed : Passed q.cpu Reg.arguments values) :
    ∃ c n, Reaches p env q { q with cpu := c, next := n } ∧ c.InFrame (.ofModule m) lower ∧
      HoldsFrame (.ofModule m) c.memory lower (.ofArguments f.parameters values) ∧
      Resumes o m text f n [] f.code ∧
      ∀ a, lower ≤ a → ((q.cpu.memory.setWord (lower + 8) (env.address (q.next + 1))).setWord lower
        (q.cpu.reg .rbp)) a = c.memory a := by
  have hp := hl.assembled
  obtain ⟨start, parameters, hstart, hparameters, hbegin, hresume⟩ := hl.function hf
  have htop : (q.cpu.reg .rsp - 8).toNat = lower + 8 := by
    rw [show (8 : Word) = .ofNat 64 8 from rfl, toNat_sub_ofNat (by omega), hrsp]
    rfl
  let called := q.cpu.push (env.address (q.next + 1))
  have hcalled : called.memory = q.cpu.memory.setWord (lower + 8) (env.address (q.next + 1)) := by
    rw [← htop]
    rfl
  have hcall : q.step p env = .running { q with cpu := called, next := start } := by
    rw [hat.step_call hp, hplace, Process.call, hstart]
  -- the function makes its frame and stores its parameters
  obtain ⟨made, hexec, hin, hmade, hregs⟩ := prologue_exec env.names (c := called) htop hroom
  obtain ⟨hprologue, hstore⟩ := hbegin.exec (s := { q with cpu := called, next := start }) hp hexec
  have hpassed' : Passed made Reg.arguments values := by
    refine hpassed.congr fun r hr => ?_
    have hbp : r ≠ .rbp := fun he => absurd (he ▸ hr) (by decide)
    have hsp : r ≠ .rsp := fun he => absurd (he ▸ hr) (by decide)
    rw [hregs r hbp hsp]
    exact if_neg hsp
  obtain ⟨c, hstored, hin', hframe, habove⟩ := storeParameters_reaches
    (s := { q with cpu := made, next := start + (prologue (.ofModule m)).length }) hp
    (fun v hv => hl.compilable.unambiguous.parameter_slot hf hv) hlength (hl.compilable.parameters f hf)
    hparameters hstore hin .nil hpassed'
  refine ⟨c, _, .step hcall (hprologue.trans hstored), hin', hframe, hresume, fun a ha => ?_⟩
  rw [← habove a ha, ← hcalled]
  exact congrFun hmade.symm a

/-- A call of a function of the module. -/
theorem Represents.function (h : Represents o m text env top s q) (hl : Loaded o m text p env top)
    (hrest : s.active.rest = i :: rest) (hop : i.op = .call (.named name) arguments target)
    {f : IR.Function} (hf : m.function? name = some f) (hname : Builtin.ofName? name = none)
    (hentry : name ≠ entryPoint) (hlength : arguments.length = f.parameters.length)
    (hdepth : s.waiting.length + 1 < maxDepth)
    (hvalues : List.Forall₂ (fun v x => s.active.frame.read? v = some x) arguments values) :
    Follows o m text p env top q ⟨⟨f, f.code, .ofArguments f.parameters values⟩,
      ⟨{ s.active with rest }, target⟩ :: s.waiting, s.world⟩ [] := by
  have hmem : f ∈ m.functions := List.mem_of_find?_eq_some hf
  obtain rfl : f.name = name := by simpa using List.find?_some hf
  obtain ⟨base, hin, hframe, hstack⟩ := h.frames
  obtain ⟨c, n, below, hloads, hrbp, hrsp, hmemory, hpassed, ht, hcode⟩ := h.loads hl.compiled hrest hop
    (by rw [hname, Option.filter_none])
    (by rw [hlength]; exact hl.compiled.compilable.parameters f hmem) hvalues
  -- there is room for one more frame
  obtain ⟨lower, rfl, hroom⟩ : ∃ lower, base = lower + 16 + (StackLayout.ofModule m).frameSize ∧
      (StackLayout.ofModule m).frameSize ≤ lower := by
    have hbase := hstack.depth
    have hlow := Nat.le_trans (Nat.mul_le_mul_right ((StackLayout.ofModule m).frameSize + 16) hdepth) hl.low
    rw [Nat.succ_mul, Nat.succ_mul] at hlow
    exact ⟨base - 16 - (StackLayout.ofModule m).frameSize, by omega, by omega⟩
  have htop : (c.reg .rsp).toNat = lower + 16 := by
    have := hin.rsp
    rw [hrsp]
    omega
  have ⟨_, _, _, _, _, _, hat⟩ := hcode
  obtain ⟨c', n', hcall, hin', hframe', hbegin, hfinal⟩ := hl.compiled.call env
    (q := { q with cpu := c, next := n }) hmem rfl hat htop hroom (hvalues.length_eq.symm.trans hlength)
    hpassed
  -- at the new base and above it, only the saved base and the address were written
  rw [hmemory, hrbp] at hfinal
  have houtside : ∀ a, lower + 16 ≤ a → q.cpu.memory a = c'.memory a := by
    intro a ha
    rw [← hfinal a (by omega), Memory.setWord_outside (by omega), Memory.setWord_outside (by omega)]
  refine ⟨_, hloads.trans hcall, ⟨h.world, hbegin, .start f, lower, hin', hframe', ?_⟩,
    (List.append_nil _).symm⟩
  refine .caller (beq_eq_false_iff_ne.2 hentry) ?_ ?_ ht hcode.tail
    (h.opens_tail hrest (by rw [hop]; rfl)) ?_ ?_
  · rw [← Memory.word_congr fun a ha _ => hfinal a ha, Memory.word_setWord, ← hin.rbp, BitVec.ofNat_toNat,
      BitVec.setWidth_eq]
  · rw [← Memory.word_congr fun a ha _ => hfinal a (by omega), Memory.word_setWord_of_disjoint (by omega),
      Memory.word_setWord]
  · exact hframe.congr hin.room fun a ha _ => houtside a (by omega)
  · exact hstack.congr fun a ha => houtside a (by omega)

end

/-! ## Jumps -/

/-- Going on somewhere else in the active function. -/
theorem Represents.goto (h : Represents o m text env top s q) {c : Cpu} {n : Nat} {code : List Instruction}
    (hrbp : c.reg .rbp = q.cpu.reg .rbp) (hrsp : c.reg .rsp = q.cpu.reg .rsp)
    (hmemory : c.memory = q.cpu.memory) (hresume : Resumes o m text s.active.function n [] code)
    (hopen : s.active.function.Open code) :
    Represents o m text env top { s with active := { s.active with rest := code } }
      { q with cpu := c, next := n } := by
  obtain ⟨base, hin, hframe, hstack⟩ := h.frames
  refine ⟨h.world, hresume, hopen, base, ⟨by rw [hrbp]; exact hin.rbp, by rw [hrsp]; exact hin.rsp⟩, ?_, ?_⟩
  · rw [hmemory]
    exact hframe
  · rw [hmemory]
    exact hstack

/-- Where a jump leads in the text. -/
theorem Represents.behind (h : Represents o m text env top s q) (hl : Compiled o m text p) {l : Label}
    {code : List Instruction} (hcode : codeBehind? l s.active.function.code = some code) :
    s.active.function.Open code ∧ ∃ n, p.find? ((labelSymbol l).place s.active.function.name) = some n ∧
      Resumes o m text s.active.function n [] code := by
  obtain ⟨n, parameters, -, -, -, hbegin⟩ := hl.function h.code.member
  exact hbegin.behind hl.assembled hl.compilable hcode

theorem Represents.jump (h : Represents o m text env top s q) (hl : Compiled o m text p)
    (hrest : s.active.rest = i :: rest) {l : Label} (hop : i.op = .jump l) {code : List Instruction}
    (hcode : codeBehind? l s.active.function.code = some code) :
    Follows o m text p env top q { s with active := { s.active with rest := code } } [] := by
  obtain ⟨hopen, n, hnext, hresume⟩ := h.behind hl hcode
  have hjump : Resumes o m text s.active.function q.next [.jump (labelSymbol l)] rest :=
    (hrest ▸ h.code).code (by rw [hop]; rfl) (by rw [hop]; rfl)
  obtain ⟨-, -, lines, result, -, -, hat⟩ := hjump
  exact ⟨_, .single (hat.step_jump hl.assembled hnext), h.goto rfl rfl rfl hresume hopen,
    (List.append_nil _).symm⟩

/-- A branch compares its condition with zero. -/
theorem Represents.branch (h : Represents o m text env top s q) (hl : Compiled o m text p)
    (hrest : s.active.rest = i :: rest) {v : Var} {ifTrue ifFalse : Label}
    (hop : i.op = .branch v ifTrue ifFalse) {x : Bool} (hr : s.active.frame.read? v = some (.bool x))
    {code : List Instruction}
    (hcode : codeBehind? (if x then ifTrue else ifFalse) s.active.function.code = some code) :
    Follows o m text p env top q { s with active := { s.active with rest := code } } [] := by
  have hp := hl.assembled
  obtain ⟨below, hv, hx⟩ := h.holds hl.compilable hrest (by rw [hop]; exact List.mem_cons_self) hr
  obtain ⟨hopen, n, hnext, hresume⟩ := h.behind hl hcode
  have hbranch : Resumes o m text s.active.function q.next ([.binary .cmp (.mem (some .qword) .rbp below)
      (.imm 0)] ++ [.jumpIf .notEqual (labelSymbol ifTrue), .jump (labelSymbol ifFalse)]) rest :=
    (hrest ▸ h.code).code (by rw [hop]; rfl) (by rw [hop, opCode, slot_eq hv]; rfl)
  let compared : Cpu := { q.cpu with
    flags := .ofDifference (q.cpu.memory.word (q.cpu.slot below)) (.ofInt 64 0) }
  have hexec : q.cpu.execAll env.names [.binary .cmp (.mem (some .qword) .rbp below) (.imm 0)] =
      some compared := rfl
  obtain ⟨hreach, hjumps⟩ := hbranch.exec hp hexec
  have hcond : compared.flags.holds? .notEqual = some x := by
    show (Flags.ofDifference _ _).holds? .notEqual = _
    rw [Flags.holds?_notEqual, hx]
    cases x <;> rfl
  obtain ⟨-, -, lines, result, -, -, hat⟩ := hjumps
  have hlast : Reaches p env { q with cpu := compared, next := q.next + 1 }
      { q with cpu := compared, next := n } := by
    cases x with
    | true => exact .single (hat.step_taken hp hcond hnext)
    | false =>
      exact .step (hat.step_passed (s := { q with cpu := compared, next := q.next + 1 }) hp hcond)
        (.single (hat.tail.step_jump (s := { q with cpu := compared, next := q.next + 1 + 1 }) hp hnext))
  exact ⟨_, hreach.trans hlast, h.goto rfl rfl rfl hresume hopen, (List.append_nil _).symm⟩

end

end Assembly

end Exprc
