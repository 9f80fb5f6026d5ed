/-
How the support routines run. A routine is called with the address to return to on top of the stack, and
executes one instruction after the other. It asks the system to take bytes from the input, to write bytes out,
or to end the program. A call of the system leaves its answer in `rax` and the way back in `rcx`, and no flag
can be relied on behind it.
-/
import Exprc.Assembly.Routines
import Exprc.Proofs.Assembly.Text

namespace Exprc.Assembly

/-! ## Bytes in memory -/

namespace Memory

/-- The bytes from an address on. -/
def bytes (m : Memory) : Word → Nat → List UInt8
  | _, 0 => []
  | address, count + 1 => .ofBitVec (m address.toNat) :: m.bytes (address + 1) count

/-- Puts bytes into memory from an address on. -/
def setBytes (m : Memory) (address : Word) : List UInt8 → Memory
  | [] => m
  | b :: bs => (m.store address.toNat 1 b.toNat).setBytes (address + 1) bs

section

variable {m m' : Memory} {address : Word} {count top size : Nat}

theorem bytes_congr (h : ∀ i < count, m (address + .ofNat 64 i).toNat = m' (address + .ofNat 64 i).toNat) :
    m.bytes address count = m'.bytes address count := by
  induction count generalizing address with
  | zero => rfl
  | succ count ih =>
    have hfirst : m address.toNat = m' address.toNat := by simpa using h 0 (Nat.succ_pos _)
    rw [bytes, bytes, hfirst, ih fun i hi => ?_]
    have hnext : address + 1 + .ofNat 64 i = address + .ofNat 64 (i + 1) := by
      rw [Nat.add_comm i, BitVec.ofNat_add, ← BitVec.add_assoc]
      rfl
    rw [hnext]
    exact h (i + 1) (Nat.succ_lt_succ hi)

@[simp] theorem store_byte (address : Nat) (b : UInt8) : m.store address 1 b.toNat address = b.toBitVec := by
  rw [store, if_pos (by omega), Nat.sub_self, Nat.pow_zero, Nat.div_one]
  exact BitVec.eq_of_toNat_eq (by simp)

/-- Memory is as it was, except for some bytes below an address. -/
def Preserves (top size : Nat) (m m' : Memory) : Prop := ∀ a, a + size < top ∨ top ≤ a → m' a = m a

theorem Preserves.refl : Preserves top size m m := fun _ _ => rfl

/-- What is above does not change. -/
theorem Preserves.word (h : Preserves top size m m') : m'.word top = m.word top :=
  word_congr fun a ha _ => h a (.inr ha)

theorem Preserves.store {address bytes number : Nat} (h : Preserves top size m m') (hlow : top ≤ address + size)
    (hhigh : address + bytes ≤ top) : Preserves top size m (m'.store address bytes number) := by
  intro a ha
  rw [store_outside (by omega), h a ha]

end

end Memory

theorem assemble?_of_eq {p : Program} {text : List Line} (hinstructions : p.instructions = instructionsOf "" text)
    (hplaces : p.places = placesOf "" 0 text) (himports : p.imports = importsOf text) :
    assemble? text = some p := by
  obtain ⟨_, _, _, hdistinct, hknown⟩ := p
  subst hinstructions hplaces himports
  exact dif_pos ⟨hdistinct, hknown⟩

namespace Routines

/-! ## The program -/

/-- The support routines as a program. -/
def program : Program where
  instructions := instructionsOf "" all
  places := placesOf "" 0 all
  imports := importsOf all
  distinct := by decide
  known := by decide

/-- The text of the support routines can be assembled. -/
theorem assemble?_all : assemble? all = some program := by
  apply assemble?_of_eq <;> simp only [program]

/-- The names of data with the words that they stand for, if the next data are put at an address. The length of
a text is the distance to its beginning. -/
def dataOf (address : Word) (known : List (Symbol × Word)) : List Line → List (Symbol × Word)
  | [] => known
  | .textData s text :: lines =>
    dataOf (address + .ofNat 64 (text.utf8ByteSize + 1)) ((s, address) :: known) lines
  | .lengthOf s of :: lines =>
    dataOf address ((known.lookup of).toList.map (fun start => (s, address - start)) ++ known) lines
  | _ :: lines => dataOf address known lines

/-! ## The system -/

/-- Bytes that were handed to the system in one piece, and the descriptor that they were meant for. -/
structure Write where
  descriptor : Word
  bytes : List UInt8
deriving DecidableEq, Repr

/-- What the system exchanges with the outside: the bytes that are left to read, and all that was written. -/
structure Console where
  input : List UInt8
  writes : List Write := []
deriving DecidableEq, Repr

/-- What the routines run on: where instructions and data are in memory, and what the system answers to the last
of some writes, which need not be the number of bytes that were written. -/
structure Platform where
  address : Nat → Word
  data : Word
  answer : List Write → Word
deriving Inhabited

/-- What the names of data stand for. -/
def Platform.names (env : Platform) : Names := fun s => (dataOf env.data [] all).lookup s

/-! ## Steps -/

/-- A routine at work. -/
structure Session where
  cpu : Cpu
  next : Nat
  console : Console

/-- What comes of a step: a routine is at work, it has returned to an address, it has ended the program with a
status, or it is stuck. -/
inductive Status where
  | running (s : Session)
  | returned (address : Word) (cpu : Cpu) (console : Console)
  | exited (status : Nat) (console : Console)
  | stuck

namespace Session

variable (env : Platform) (s : Session)

/-- Goes on at a place. -/
def goto (place : Place) : Status :=
  match program.find? place with
  | some next => .running { s with next }
  | none => .stuck

/-- Goes on behind a call of the system. -/
def resume (answer : Word) (memory : Memory) (console : Console) : Status :=
  .running ⟨{ (s.cpu.set .rax answer).set .rcx (env.address (s.next + 1)) with memory, flags := .undefined },
    s.next + 1, console⟩

/-- Calls the system: it takes bytes from the input, writes bytes, or ends the program. -/
def syscall : Status :=
  if s.cpu.reg .rax = 0 ∧ s.cpu.reg .rdi = 0 then
    let bytes := s.console.input.take (s.cpu.reg .rdx).toNat
    s.resume env (.ofNat 64 bytes.length) (s.cpu.memory.setBytes (s.cpu.reg .rsi) bytes)
      { s.console with input := s.console.input.drop bytes.length }
  else if s.cpu.reg .rax = 1 then
    let writes := s.console.writes ++
      [⟨s.cpu.reg .rdi, s.cpu.memory.bytes (s.cpu.reg .rsi) (s.cpu.reg .rdx).toNat⟩]
    s.resume env (env.answer writes) s.cpu.memory { s.console with writes }
  else if s.cpu.reg .rax = 60 then .exited ((s.cpu.reg .rdi).toNat % 256) s.console
  else .stuck

/-- One step: the next instruction. -/
def step : Status :=
  match program.instructions[s.next]? with
  | none => .stuck
  | some (scope, i) =>
    match i with
    | .jump target => s.goto (target.place scope)
    | .jumpIf cond target =>
      match s.cpu.flags.holds? cond with
      | some true => s.goto (target.place scope)
      | some false => .running { s with next := s.next + 1 }
      | none => .stuck
    | .plain .ret => .returned s.cpu.pop.1 s.cpu.pop.2 s.console
    | .plain .syscall => s.syscall env
    | i =>
      match s.cpu.exec env.names i with
      | some cpu => .running { s with cpu, next := s.next + 1 }
      | none => .stuck

/-- A routine that is called: the address to return to is on the stack. -/
def start (routine : String) (cpu : Cpu) (console : Console) : Status :=
  (⟨cpu, 0, console⟩ : Session).goto ⟨routine, none⟩

end Session

/-- What has come of a routine after some steps. -/
def Status.after (env : Platform) : Nat → Status → Status
  | steps + 1, .running s => (s.step env).after env steps
  | _, status => status

/-- Memory is as it was when a routine was called, except for the bytes that the routine may change. -/
abbrev Kept (c : Cpu) (size : Nat) : Memory → Prop := Memory.Preserves (c.reg .rsp).toNat size c.memory

/-- The registers that a caller relies on. -/
abbrev relied : List Reg := [.rbx, .rbp, .r12, .r13, .r14]

/-- A routine returns to its caller. The stack pointer is where it was before the call, the registers that a
caller relies on hold what they held, and at no time is memory changed above the return address or further
below it than the routine may go. -/
structure Returns (env : Platform) (routine : String) (size : Nat) (c : Cpu) (console : Console) (c' : Cpu)
    (console' : Console) : Prop where
  run : ∃ steps, (Session.start routine c console).after env steps =
    .returned (c.memory.word (c.reg .rsp).toNat) c' console'
  rsp : c'.reg .rsp = c.reg .rsp + 8
  kept : ∀ r ∈ relied, c'.reg r = c.reg r
  memory : Kept c size c'.memory
  always : ∀ steps s, (Session.start routine c console).after env steps = .running s →
    Kept c size s.cpu.memory

/-- A routine ends the program with a status. -/
def Exits (env : Platform) (routine : String) (c : Cpu) (console : Console) (status : Nat) : Prop :=
  ∃ steps console', (Session.start routine c console).after env steps = .exited status console'

/-- A processor that calls a routine with an argument. Its stack ends at the address 4096, and nothing is in memory. -/
def caller (argument : Word) : Cpu where
  reg r := if r = .rdi then argument else 4096
  flags := .undefined
  memory _ := 0

/-! ## Ways -/

/-- A routine comes from one state to another in some number of steps, and on the way memory is never other than
as allowed. -/
inductive Leads (env : Platform) (allowed : Memory → Prop) : Session → Session → Prop
  | refl {s : Session} : allowed s.cpu.memory → Leads env allowed s s
  | step {s t u : Session} : allowed s.cpu.memory → s.step env = .running t → Leads env allowed t u →
    Leads env allowed s u

section

variable {env : Platform} {allowed : Memory → Prop} {s t u : Session} {status : Status}

theorem Leads.trans (h : Leads env allowed s t) (h' : Leads env allowed t u) : Leads env allowed s u := by
  induction h with
  | refl => exact h'
  | step hs hstep _ ih => exact .step hs hstep (ih h')

theorem Leads.single (hs : allowed s.cpu.memory) (ht : allowed t.cpu.memory) (h : s.step env = .running t) :
    Leads env allowed s t :=
  .step hs h (.refl ht)

theorem Leads.last (h : Leads env allowed s t) : allowed t.cpu.memory := by
  induction h with
  | refl ht => exact ht
  | step _ _ _ ih => exact ih

/-- What has come to its end stays as it is. -/
theorem Status.after_of_ended (h : ∀ s, status ≠ .running s) (steps : Nat) :
    status.after env steps = status := by
  cases steps <;> cases status <;> first | rfl | exact absurd rfl (h _)

/-- A routine that comes to a state from which a step ends it does end there, and memory was as allowed all the
time. -/
theorem Leads.ends (h : Leads env allowed s t) (hend : ∀ u, status ≠ .running u) (hstep : t.step env = status) :
    (∃ steps, (Status.running s).after env steps = status) ∧
      ∀ steps u, (Status.running s).after env steps = .running u → allowed u.cpu.memory := by
  induction h with
  | @refl s hs =>
    refine ⟨⟨1, ?_⟩, fun steps u hu => ?_⟩
    · rw [Status.after, hstep, Status.after_of_ended hend]
    · cases steps with
      | zero =>
        cases hu
        exact hs
      | succ steps =>
        rw [Status.after, hstep, Status.after_of_ended hend] at hu
        exact absurd hu (hend u)
  | @step s t v hs hst _ ih =>
    obtain ⟨⟨steps, hsteps⟩, hallowed⟩ := ih hstep
    refine ⟨⟨steps + 1, by rw [Status.after, hst, hsteps]⟩, fun steps u hu => ?_⟩
    cases steps with
    | zero =>
      cases hu
      exact hs
    | succ steps =>
      rw [Status.after, hst] at hu
      exact hallowed steps u hu

/-- The next step takes a routine back to its caller, and what the caller relies on is as it was. -/
structure Leaves (env : Platform) (size : Nat) (c : Cpu) (s : Session) (c' : Cpu) (console' : Console) : Prop where
  step : s.step env = .returned (c.memory.word (c.reg .rsp).toNat) c' console'
  rsp : c'.reg .rsp = c.reg .rsp + 8
  kept : ∀ r ∈ relied, c'.reg r = c.reg r
  memory : Kept c size c'.memory

/-- A routine that comes to its return has returned. -/
theorem Leads.returns {routine : String} {size : Nat} {c c' : Cpu} {console console' : Console}
    (h : Leads env (Kept c size) s t) (hstart : Session.start routine c console = .running s)
    (hleaves : Leaves env size c t c' console') : Returns env routine size c console c' console' := by
  obtain ⟨hrun, halways⟩ := h.ends (by rintro _ ⟨⟩) hleaves.step
  rw [← hstart] at hrun halways
  exact ⟨hrun, hleaves.rsp, hleaves.kept, hleaves.memory, halways⟩

/-- A routine that comes to the end of the program has ended it. -/
theorem Leads.exits {routine : String} {n : Nat} {c : Cpu} {console console' : Console} (h : Leads env allowed s t)
    (hstart : Session.start routine c console = .running s) (hstep : t.step env = .exited n console') :
    Exits env routine c console n := by
  obtain ⟨⟨steps, hrun⟩, -⟩ := h.ends (by rintro _ ⟨⟩) hstep
  rw [← hstart] at hrun
  exact ⟨steps, console', hrun⟩

/-- An instruction that neither jumps nor calls the system is executed. -/
theorem Session.step_exec {scope : String} {i : Instr} {c : Cpu}
    (hfetch : program.instructions[s.next]? = some (scope, i)) (hc : s.cpu.exec env.names i = some c) :
    s.step env = .running { s with cpu := c, next := s.next + 1 } := by
  unfold step
  rw [hfetch]
  cases i with
  | plain op =>
    cases op with
    | cqo => simp only [hc]
    | ret | syscall => cases hc
  | unary | binary | scale | setIf => simp only [hc]
  | call | jump | jumpIf => cases hc

/-- The system takes bytes from the input. -/
theorem Session.step_read (env : Platform) (s : Session) {scope : String}
    (hfetch : program.instructions[s.next]? = some (scope, .plain .syscall))
    (hrax : s.cpu.reg .rax = 0) (hrdi : s.cpu.reg .rdi = 0) {bytes : List UInt8}
    (hbytes : s.console.input.take (s.cpu.reg .rdx).toNat = bytes) :
    s.step env = s.resume env (.ofNat 64 bytes.length) (s.cpu.memory.setBytes (s.cpu.reg .rsi) bytes)
      { s.console with input := s.console.input.drop bytes.length } := by
  simp only [step, hfetch, syscall, hrax, hrdi, and_self, if_true, hbytes]

/-- The system writes bytes out. -/
theorem Session.step_write (env : Platform) (s : Session) {scope : String}
    (hfetch : program.instructions[s.next]? = some (scope, .plain .syscall))
    (hrax : s.cpu.reg .rax = 1) {bytes : List UInt8}
    (hbytes : s.cpu.memory.bytes (s.cpu.reg .rsi) (s.cpu.reg .rdx).toNat = bytes) :
    s.step env = s.resume env (env.answer (s.console.writes ++ [⟨s.cpu.reg .rdi, bytes⟩])) s.cpu.memory
      { s.console with writes := s.console.writes ++ [⟨s.cpu.reg .rdi, bytes⟩] } := by
  have hread : ¬((1 : Word) = 0 ∧ s.cpu.reg .rdi = 0) := fun h => absurd h.1 (by decide)
  simp only [step, hfetch, syscall, hrax, if_neg hread, if_true, hbytes]

/-- The system ends the program. -/
theorem Session.step_exit {scope : String} (hfetch : program.instructions[s.next]? = some (scope, .plain .syscall))
    (hrax : s.cpu.reg .rax = 60) : s.step env = .exited ((s.cpu.reg .rdi).toNat % 256) s.console := by
  have hread : ¬((60 : Word) = 0 ∧ s.cpu.reg .rdi = 0) := fun h => absurd h.1 (by decide)
  simp only [step, hfetch, syscall, hrax, if_neg hread, show (60 : Word) ≠ 1 by decide, if_false, if_true]

/-- A jump goes on at its place if its condition holds, and behind it if not. -/
theorem Session.step_jumpIf (env : Platform) (s : Session) (next : Nat) {scope : String} {cond : Condition}
    {target : Symbol} {holds : Bool}
    (hfetch : program.instructions[s.next]? = some (scope, .jumpIf cond target))
    (hfind : program.find? (target.place scope) = some next) (hcond : s.cpu.flags.holds? cond = some holds) :
    s.step env = .running { s with next := if holds then next else s.next + 1 } := by
  simp only [step, hfetch, hcond, goto, hfind]
  cases holds <;> rfl

/-! ## Tests -/

theorem holds?_test_zero (w : Word) : (Flags.ofResult (w &&& w) false false).holds? .zero = some (decide (w = 0)) := by
  rw [BitVec.and_self]
  rfl

theorem holds?_test_notZero (w : Word) :
    (Flags.ofResult (w &&& w) false false).holds? .notZero = some (decide (w ≠ 0)) := by
  rw [BitVec.and_self, decide_not]
  rfl

theorem holds?_test_notSign (w : Word) :
    (Flags.ofResult (w &&& w) false false).holds? .notSign = some (decide (0 ≤ w.toInt)) := by
  have hmsb : w.msb = decide (w.toInt < 0) := BitVec.msb_eq_toInt
  show some (!(w &&& w).msb) = _
  rw [BitVec.and_self, hmsb, ← decide_not]
  exact congrArg some (decide_eq_decide.2 Int.not_lt)

/-- A word is tested, and the routine jumps if a condition holds of it. -/
theorem Leads.test (env : Platform) (c : Cpu) (place target : Nat) (console : Console) {scope : String} {r : Reg}
    {cond : Condition} {name : Symbol} {p : Prop} [Decidable p]
    (htest : program.instructions[place]? = some (scope, .binary .test (.reg r) (.reg r)))
    (hjump : program.instructions[place + 1]? = some (scope, .jumpIf cond name))
    (hfind : program.find? (name.place scope) = some target)
    (hcond : (Flags.ofResult (c.reg r &&& c.reg r) false false).holds? cond = some (decide p))
    (hc : allowed c.memory) :
    ∃ flags, Leads env allowed ⟨c, place, console⟩ ⟨{ c with flags }, if p then target else place + 2, console⟩ := by
  let tested : Cpu := { c with flags := .ofResult (c.reg r &&& c.reg r) false false }
  have hstep : Session.step env ⟨c, place, console⟩ = .running ⟨tested, place + 1, console⟩ :=
    Session.step_exec htest rfl
  have hgo := Session.step_jumpIf env ⟨tested, place + 1, console⟩ target hjump hfind hcond
  simp only [decide_eq_true_eq] at hgo
  exact ⟨tested.flags, .step hc hstep (.single hc hc hgo)⟩

end

end Routines

end Exprc.Assembly
