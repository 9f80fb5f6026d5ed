/-
Where lines stand in a text. Code generation emits lines, and a program counts instructions; `At` says that
some lines stand in a text behind a number of instructions and below a name. Lines that stand in a text can
be executed there, and the names among them stand for places.
-/
import Exprc.Proofs.Assembly.Program

namespace Exprc.Assembly

open IR

/-! ## Parts of texts -/

/-- The name to which inner names belong behind some lines. -/
def scopeAfter (scope : String) (lines : List Line) : String := lines.foldl Line.scope scope

/-- The number of instructions in some lines. -/
def sizeOf (lines : List Line) : Nat := (lines.map Line.size).sum

section

variable {scope : String} {lines rest text : List Line} {l : Line} {i : Instr}

@[simp] theorem sizeOf_cons : sizeOf (l :: lines) = l.size + sizeOf lines := rfl

@[simp] theorem sizeOf_append : sizeOf (lines ++ rest) = sizeOf lines + sizeOf rest := by
  rw [sizeOf, List.map_append, List.sum_append_nat]
  rfl

@[simp] theorem sizeOf_instructions (is : List Instr) : sizeOf (is.map .ofInstr) = is.length := by
  induction is with
  | nil => rfl
  | cons i is ih =>
    rw [List.map_cons, sizeOf_cons, ih, List.length_cons, Nat.add_comm]
    rfl

theorem scopeAfter_append :
    scopeAfter scope (lines ++ rest) = scopeAfter (scopeAfter scope lines) rest :=
  List.foldl_append

theorem instructionsOf_cons (l : Line) (lines : List Line) :
    instructionsOf scope (l :: lines) =
      (instructionsOf scope [l]) ++ instructionsOf (l.scope scope) lines := by
  cases l <;> rfl

theorem placesOf_cons (n : Nat) (l : Line) (lines : List Line) :
    placesOf scope n (l :: lines) = placesOf scope n [l] ++ placesOf (l.scope scope) (n + l.size) lines := by
  cases l <;> rfl

theorem instructionsOf_append (lines rest : List Line) :
    instructionsOf scope (lines ++ rest) =
      instructionsOf scope lines ++ instructionsOf (scopeAfter scope lines) rest := by
  induction lines generalizing scope with
  | nil => rfl
  | cons l lines ih =>
    rw [List.cons_append, instructionsOf_cons, ih, instructionsOf_cons l lines, List.append_assoc]
    rfl

theorem placesOf_append (n : Nat) (lines rest : List Line) :
    placesOf scope n (lines ++ rest) =
      placesOf scope n lines ++ placesOf (scopeAfter scope lines) (n + sizeOf lines) rest := by
  induction lines generalizing scope n with
  | nil => rfl
  | cons l lines ih =>
    rw [List.cons_append, placesOf_cons, ih, placesOf_cons n l lines, List.append_assoc, sizeOf_cons,
      Nat.add_assoc]
    rfl

@[simp] theorem length_instructionsOf (lines : List Line) :
    (instructionsOf scope lines).length = sizeOf lines := by
  induction lines generalizing scope with
  | nil => rfl
  | cons l lines ih =>
    rw [instructionsOf_cons, List.length_append, ih, sizeOf_cons]
    cases l <;> rfl

end

/-! ## Lines in a text -/

/-- Some lines stand in a text behind `n` instructions, and inner names belong to `scope` there. -/
def At (text : List Line) (n : Nat) (scope : String) (lines : List Line) : Prop :=
  ∃ before after, text = before ++ lines ++ after ∧ scopeAfter "" before = scope ∧ sizeOf before = n

namespace At

variable {text lines rest : List Line} {n : Nat} {scope : String} {l : Line} {i : Instr}

theorem left (h : At text n scope (lines ++ rest)) : At text n scope lines := by
  obtain ⟨before, after, ht, hs, hn⟩ := h
  exact ⟨before, rest ++ after, by rw [ht]; simp only [List.append_assoc], hs, hn⟩

theorem right (h : At text n scope (lines ++ rest)) :
    At text (n + sizeOf lines) (scopeAfter scope lines) rest := by
  obtain ⟨before, after, ht, hs, hn⟩ := h
  refine ⟨before ++ lines, after, by rw [ht]; simp only [List.append_assoc], ?_, ?_⟩
  · rw [scopeAfter_append, hs]
  · rw [sizeOf_append, hn]

theorem tail (h : At text n scope (l :: rest)) : At text (n + l.size) (l.scope scope) rest := by
  rw [← List.singleton_append] at h
  exact h.right

/-- An instruction is executed where it stands. -/
theorem instr {remark? : Option String} (h : At text n scope (.instr i remark? :: rest)) :
    (instructionsOf "" text)[n]? = some (scope, i) := by
  obtain ⟨before, after, rfl, hs, hn⟩ := h
  rw [List.append_assoc, instructionsOf_append, List.getElem?_append_right (by simp [hn])]
  simp [hn, hs, instructionsOf]

/-- A name stands for the place behind it. -/
theorem label {s : Symbol} (h : At text n scope (.label s :: rest)) :
    (s.place scope, n) ∈ placesOf "" 0 text := by
  obtain ⟨before, after, rfl, hs, hn⟩ := h
  rw [List.append_assoc, placesOf_append, hs, hn, Nat.zero_add]
  exact List.mem_append_right _ List.mem_cons_self

end At

/-! ## Assembled texts -/

section

variable {p : Program} {text : List Line}

theorem assemble?_eq_some (h : assemble? text = some p) :
    p.instructions = instructionsOf "" text ∧ p.places = placesOf "" 0 text ∧
      p.imports = importsOf text := by
  unfold assemble? at h
  split at h <;> cases h
  exact ⟨rfl, rfl, rfl⟩

/-- A text can be assembled if its names differ and it refers to nothing else. -/
theorem assemble?_ok (hdistinct : (referents (placesOf "" 0 text) (importsOf text)).Nodup)
    (hknown : ∀ i ∈ instructionsOf "" text, ∀ s ∈ i.2.target?,
      s.place i.1 ∈ referents (placesOf "" 0 text) (importsOf text)) :
    ∃ p, assemble? text = some p := ⟨_, dif_pos ⟨hdistinct, hknown⟩⟩

/-- A place is found where it is, since no other place has its name. -/
theorem Program.find?_of_mem {place : Place} {n : Nat} (h : (place, n) ∈ p.places) :
    p.find? place = some n := by
  have hnodup := (List.nodup_append.1 p.distinct).1
  obtain ⟨before, after, hp⟩ := List.append_of_mem h
  rw [hp, List.map_append, List.map_cons, List.nodup_append] at hnodup
  rw [Program.find?, List.lookup_eq_some_iff]
  refine ⟨before, after, hp, fun q hq => ?_⟩
  have hne := hnodup.2.2 q.1 (List.mem_map_of_mem hq) place List.mem_cons_self
  simpa using Ne.symm hne

/-- What comes from another text is no place. -/
theorem Program.find?_of_import {name : String} (h : name ∈ p.imports) :
    p.find? ⟨name, none⟩ = none := by
  refine List.lookup_eq_none_iff.2 fun q hq => ?_
  have hne := (List.nodup_append.1 p.distinct).2.2 q.1 (List.mem_map_of_mem hq) ⟨name, none⟩
    (List.mem_map_of_mem h)
  simpa using Ne.symm hne

end

/-! ## Steps -/

/-- A program comes from one state to another in some number of steps. -/
inductive Reaches (p : Program) (env : Surroundings) : Process → Process → Prop
  | refl (s : Process) : Reaches p env s s
  | step {s t u : Process} : s.step p env = .running t → Reaches p env t u → Reaches p env s u

namespace Reaches

variable {p : Program} {env : Surroundings} {s t u : Process}

theorem single (h : s.step p env = .running t) : Reaches p env s t := .step h (.refl t)

theorem trans (h : Reaches p env s t) (h' : Reaches p env t u) : Reaches p env s u := by
  induction h with
  | refl => exact h'
  | step hs _ ih => exact .step hs (ih h')

/-- A program that comes to a state ends as it does from there. -/
theorem exits (h : Reaches p env s t) {e : Exit}
    (he : ∃ n, (Outcome.running t).exitWithin? p env n = some e) :
    ∃ n, (Outcome.running s).exitWithin? p env n = some e := by
  induction h with
  | refl => exact he
  | step hs _ ih =>
    obtain ⟨n, hn⟩ := ih he
    exact ⟨n + 1, by rw [Outcome.exitWithin?, hs, hn]⟩

end Reaches

section

variable {p : Program} {env : Surroundings} {s : Process} {text rest : List Line} {scope : String}
  {i : Instr} {is : List Instr} {c : Cpu} {remark? : Option String}

theorem At.fetch (hp : assemble? text = some p) (h : At text s.next scope (.instr i remark? :: rest)) :
    p.instructions[s.next]? = some (scope, i) := by
  rw [(assemble?_eq_some hp).1]
  exact h.instr

theorem At.find? (hp : assemble? text = some p) {n : Nat} {symbol : Symbol}
    (h : At text n scope (.label symbol :: rest)) : p.find? (symbol.place scope) = some n := by
  refine p.find?_of_mem ?_
  rw [(assemble?_eq_some hp).2.1]
  exact h.label

/-- An instruction that neither jumps nor calls is executed. -/
theorem At.step_exec (hp : assemble? text = some p)
    (h : At text s.next scope (.instr i remark? :: rest)) (hc : s.cpu.exec env.names i = some c) :
    s.step p env = .running { s with cpu := c, next := s.next + 1 } := by
  unfold Process.step
  rw [h.fetch hp]
  cases i with
  | plain op =>
    cases op with
    | cqo => simp only [hc]
    | ret | syscall => cases hc
  | unary | binary | scale | setIf => simp only [hc]
  | call | jump | jumpIf => cases hc

theorem At.step_jump (hp : assemble? text = some p) {target : Symbol} {next : Nat}
    (h : At text s.next scope (.ofInstr (.jump target) :: rest))
    (hnext : p.find? (target.place scope) = some next) : s.step p env = .running { s with next } := by
  have hfetch := h.fetch hp
  simp only [Process.step, hfetch, Process.goto, hnext]

theorem At.step_taken (hp : assemble? text = some p) {cond : Condition} {target : Symbol} {next : Nat}
    (h : At text s.next scope (.ofInstr (.jumpIf cond target) :: rest))
    (hcond : s.cpu.flags.holds? cond = some true) (hnext : p.find? (target.place scope) = some next) :
    s.step p env = .running { s with next } := by
  have hfetch := h.fetch hp
  simp only [Process.step, hfetch, hcond, Process.goto, hnext]

theorem At.step_passed (hp : assemble? text = some p) {cond : Condition} {target : Symbol}
    (h : At text s.next scope (.ofInstr (.jumpIf cond target) :: rest))
    (hcond : s.cpu.flags.holds? cond = some false) :
    s.step p env = .running { s with next := s.next + 1 } := by
  have hfetch := h.fetch hp
  simp only [Process.step, hfetch, hcond]

theorem At.step_call (hp : assemble? text = some p) {target : Symbol}
    (h : At text s.next scope (.ofInstr (.call target) :: rest)) :
    s.step p env = s.call p env (target.place scope) := by
  have hfetch := h.fetch hp
  simp only [Process.step, hfetch]

/-- Instructions that neither jump nor call are executed one after the other. -/
theorem At.exec (hp : assemble? text = some p) (h : At text s.next scope (is.map .ofInstr ++ rest))
    (hc : s.cpu.execAll env.names is = some c) :
    Reaches p env s { s with cpu := c, next := s.next + is.length } ∧
      At text (s.next + is.length) scope rest := by
  induction is generalizing s with
  | nil =>
    cases hc
    exact ⟨.refl s, h⟩
  | cons i is ih =>
    rw [Cpu.execAll_cons] at hc
    obtain ⟨c₁, hc₁, hc⟩ := Option.bind_eq_some_iff.1 hc
    have hstep := h.step_exec hp hc₁
    obtain ⟨hreach, hat⟩ := ih (s := { s with cpu := c₁, next := s.next + 1 }) h.tail hc
    rw [List.length_cons, Nat.add_comm is.length 1, ← Nat.add_assoc]
    exact ⟨.step hstep hreach, hat⟩

end

end Exprc.Assembly
