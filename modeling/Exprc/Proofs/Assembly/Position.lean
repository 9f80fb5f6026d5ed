/-
Where the code of functions is in a text. `Resumes` says that some instructions stand at a number, behind them
the code for what is left of a function, and then its end. Executing the instructions leads to the code that is
left, and a jump leads behind its label.
-/
import Exprc.Proofs.Assembly.Assembled

namespace Exprc

namespace IR

/-- What is left of the code of a function, if control reaches the end of the code only in functions that
do not end in an instruction that leaves them. -/
def Function.Open (f : Function) (rest : List Instruction) : Prop := rest = [] → f.endsInLeave = false

/-- The last instruction of a function leaves it, or control goes on behind it. -/
theorem Function.Open.of_suffix {f : Function} {i : Instruction} {rest : List Instruction}
    (h : i :: rest <:+ f.code) (hi : i.op.isLeave = false) : f.Open rest := by
  rintro rfl
  obtain ⟨before, hb⟩ := h
  rw [Function.endsInLeave, ← hb, List.getLast?_concat]
  exact hi

theorem Function.Open.start (f : Function) : f.Open f.code := by
  intro h
  rw [Function.endsInLeave, h]
  rfl

end IR

namespace Assembly

open IR

/-- A module, its assembly, and the program that this is assembled to. -/
structure Compiled (o : Options) (m : IR.Module) (text : List Line) (p : Program) : Prop where
  compilable : Compilable m
  generated : generate o m = .ok text
  assembled : assemble? text = some p

/-! ## Code of functions -/

theorem At.skip {text lines : List Line} {n : Nat} {scope : String} {o : Options} {remark : String}
    (h : At text n scope (o.note remark ++ lines)) : At text n scope lines := by
  unfold Options.note at h
  split at h
  · exact h.tail
  · exact h

theorem codeLines_append {o : Options} {l : StackLayout} {before rest : List Instruction} {lines : List Line}
    (h : codeLines o l (before ++ rest) = .ok lines) :
    ∃ first second, codeLines o l before = .ok first ∧ codeLines o l rest = .ok second ∧
      lines = first ++ second := by
  induction before generalizing lines with
  | nil => exact ⟨[], lines, rfl, h, rfl⟩
  | cons i before ih =>
    rw [List.cons_append, codeLines] at h
    rw [codeLines]
    cases hi : instructionLines l i with
    | error e => rw [hi] at h; cases h
    | ok is =>
      cases hr : codeLines o l (before ++ rest) with
      | error e => rw [hi, hr] at h; cases h
      | ok ls =>
        rw [hi, hr] at h
        cases h
        obtain ⟨first, second, hf, hs, rfl⟩ := ih hr
        refine ⟨o.note (i.op.shown o.colours) ++ is ++ first, second, by rw [hf]; rfl, hs, ?_⟩
        simp only [List.append_assoc]

/-- Some instructions stand at a number in a text, and behind them the code for what is left of a function and
the end of the function. -/
structure Resumes (o : Options) (m : IR.Module) (text : List Line) (f : IR.Function) (n : Nat)
    (is : List Instr) (rest : List Instruction) : Prop where
  member : f ∈ m.functions
  suffix : rest <:+ f.code
  lines : ∃ code result, codeLines o (.ofModule m) rest = .ok code ∧
    resultCode (.ofModule m) f = .ok result ∧
    At text n f.name (is.map .ofInstr ++ (code ++ (result.map .ofInstr ++ epilogue)))

section

variable {o : Options} {m : IR.Module} {text : List Line} {p : Program} {f : IR.Function} {n : Nat}
  {is js : List Instr} {i : Instruction} {before rest : List Instruction} {env : Surroundings}
  {s : Process}

namespace Resumes

/-- Behind some code stands the code for the rest. -/
theorem drop (hc : Compilable m) (h : Resumes o m text f n [] (before ++ rest)) :
    ∃ n', Resumes o m text f n' [] rest := by
  obtain ⟨hf, hsuffix, code, result, hcode, hresult, hat⟩ := h
  obtain ⟨first, second, hfirst, hsecond, rfl⟩ := codeLines_append hcode
  have hsub : before ⊆ f.code := List.Subset.trans (List.subset_append_left _ _) hsuffix.subset
  obtain ⟨first', hfirst', hinner⟩ := codeLines_ok (o := o) hc hf hsub
  obtain rfl : first = first' := Except.ok.inj (hfirst.symm.trans hfirst')
  rw [List.map_nil, List.nil_append, List.append_assoc] at hat
  have hat' := hat.right
  rw [hinner.scopeAfter] at hat'
  exact ⟨_, hf, (List.suffix_append _ _).trans hsuffix, second, result, hsecond, hresult, hat'⟩

/-- The lines of the next instruction. -/
theorem next (h : Resumes o m text f n [] (i :: rest)) :
    ∃ lines code result, instructionLines (.ofModule m) i = .ok lines ∧
      codeLines o (.ofModule m) rest = .ok code ∧ resultCode (.ofModule m) f = .ok result ∧
      At text n f.name (lines ++ (code ++ (result.map .ofInstr ++ epilogue))) := by
  obtain ⟨hf, hsuffix, code, result, hcode, hresult, hat⟩ := h
  rw [codeLines] at hcode
  cases hi : instructionLines (.ofModule m) i with
  | error e => rw [hi] at hcode; cases hcode
  | ok lines =>
    cases hr : codeLines o (.ofModule m) rest with
    | error e => rw [hi, hr] at hcode; cases hcode
    | ok code' =>
      rw [hi, hr] at hcode
      cases hcode
      refine ⟨lines, code', result, rfl, rfl, hresult, ?_⟩
      simp only [List.append_assoc] at hat
      exact hat.skip

/-- A label takes no instruction. -/
theorem label (h : Resumes o m text f n [] (i :: rest)) {l : Label} (hi : i.op = .label l) :
    At text n f.name [.label (labelSymbol l)] ∧ Resumes o m text f n [] rest := by
  obtain ⟨lines, code, result, hlines, hcode, hresult, hat⟩ := h.next
  rw [instructionLines, hi] at hlines
  cases hlines
  exact ⟨hat.left, h.member, (List.suffix_cons _ _).trans h.suffix, code, result, hcode, hresult, hat.tail⟩

/-- The instructions for an instruction that is not a label. -/
theorem code (h : Resumes o m text f n [] (i :: rest)) (hi : i.op.label? = none)
    (his : opCode (.ofModule m) i.location i.op = .ok is) : Resumes o m text f n is rest := by
  obtain ⟨lines, code, result, hlines, hcode, hresult, hat⟩ := h.next
  have hlines' : instructionLines (.ofModule m) i = .ok (is.map .ofInstr) := by
    unfold instructionLines
    cases hop : i.op with
    | label l => rw [hop] at hi; cases hi
    | _ =>
      rw [hop] at his
      simp only [his]
      rfl
  obtain rfl := Except.ok.inj (hlines.symm.trans hlines')
  exact ⟨h.member, (List.suffix_cons _ _).trans h.suffix, code, result, hcode, hresult, hat⟩

/-- Executing the first instructions leads to those behind them. -/
theorem exec (hp : assemble? text = some p) (h : Resumes o m text f s.next (is ++ js) rest) {c : Cpu}
    (hc : s.cpu.execAll env.names is = some c) :
    Reaches p env s { s with cpu := c, next := s.next + is.length } ∧
      Resumes o m text f (s.next + is.length) js rest := by
  obtain ⟨hf, hsuffix, code, result, hcode, hresult, hat⟩ := h
  rw [List.map_append, List.append_assoc] at hat
  obtain ⟨hreach, hat'⟩ := hat.exec hp hc
  exact ⟨hreach, hf, hsuffix, code, result, hcode, hresult, hat'⟩

/-- Executing all the instructions leads to the code for the rest. -/
theorem exec_all (hp : assemble? text = some p) (h : Resumes o m text f s.next is rest) {c : Cpu}
    (hc : s.cpu.execAll env.names is = some c) :
    Reaches p env s { s with cpu := c, next := s.next + is.length } ∧
      Resumes o m text f (s.next + is.length) [] rest := by
  rw [← List.append_nil is] at h
  exact h.exec hp hc

theorem tail {j : Instr} (h : Resumes o m text f n (j :: js) rest) :
    Resumes o m text f (n + 1) js rest := by
  obtain ⟨hf, hsuffix, code, result, hcode, hresult, hat⟩ := h
  exact ⟨hf, hsuffix, code, result, hcode, hresult, hat.tail⟩

/-- A jump leads behind its label. -/
theorem behind (hp : assemble? text = some p) (hc : Compilable m) (h : Resumes o m text f n [] f.code)
    {l : Label} (hl : codeBehind? l f.code = some rest) :
    f.Open rest ∧ ∃ n', p.find? ((labelSymbol l).place f.name) = some n' ∧
      Resumes o m text f n' [] rest := by
  obtain ⟨i, hi, hsuffix⟩ := codeBehind?_eq_some hl
  refine ⟨.of_suffix hsuffix (by rw [hi]; rfl), ?_⟩
  obtain ⟨before, hb⟩ := hsuffix
  rw [← hb] at h
  obtain ⟨n', h'⟩ := h.drop hc
  obtain ⟨hat, hrest⟩ := h'.label hi
  exact ⟨n', hat.find? hp, hrest⟩

/-- The end of a function. -/
theorem exit (hp : assemble? text = some p) (hc : Compilable m) (h : Resumes o m text f n [] f.code) :
    ∃ n', p.find? (exitSymbol.place f.name) = some n' ∧ At text n' f.name epilogue := by
  rw [← List.append_nil f.code] at h
  obtain ⟨n', h'⟩ := h.drop hc
  obtain ⟨hf, -, code, result, hcode, hresult, hat⟩ := h'
  cases hcode
  obtain ⟨is, his, hstraight⟩ := resultCode_ok hc.unambiguous hf
  obtain rfl := Except.ok.inj (hresult.symm.trans his)
  rw [List.map_nil, List.nil_append, List.nil_append] at hat
  have hat' := hat.right
  rw [(Inner.instructions (m := m) (f := f) hstraight.refers).scopeAfter] at hat'
  exact ⟨_, hat'.find? hp, hat'⟩

end Resumes

/-- Where a function begins: it makes its frame, stores its parameters, and goes on with its code. -/
theorem Compiled.function (h : Compiled o m text p) (hf : f ∈ m.functions) :
    ∃ n parameters, p.find? ⟨f.name, none⟩ = some n ∧
      storeParameters o (.ofModule m) f.parameters Reg.arguments = .ok parameters ∧
      At text n f.name ((prologue (.ofModule m)).map .ofInstr ++ parameters) ∧
      Resumes o m text f (n + (prologue (.ofModule m)).length + sizeOf parameters) [] f.code := by
  obtain ⟨lines, n, scope, hlines, hat⟩ := At.of_generate h.generated hf
  obtain ⟨parameters, hp, hparameters⟩ :=
    storeParameters_ok (f := f) (o := o) Reg.arguments fun v hv => h.compilable.unambiguous.parameter_slot hf hv
  obtain ⟨code, hc, hcode⟩ := codeLines_ok (o := o) h.compilable hf (List.Subset.refl f.code)
  obtain ⟨result, hr, hresult⟩ := resultCode_ok h.compilable.unambiguous hf
  simp only [functionLines, if_neg (Nat.not_lt.2 (h.compilable.parameters f hf)), hp, hc, hr] at hlines
  obtain rfl := Except.ok.inj hlines
  simp only [List.append_assoc, List.cons_append, List.nil_append] at hat
  have hlabel := hat.tail
  have hbody := hlabel.tail
  have hcodeAt : At text _ _ (code ++ (result.map .ofInstr ++ epilogue)) :=
    hbody.right.right
  rw [(Inner.instructions (m := m) (f := f) (straight_prologue _).refers).scopeAfter,
    hparameters.scopeAfter, sizeOf_instructions] at hcodeAt
  refine ⟨n, parameters, hlabel.find? h.assembled, hp, ?_, hf, List.suffix_refl _, code, result, hc, hr,
    hcodeAt⟩
  rw [← List.append_assoc] at hbody
  exact hbody.left

end

end Assembly

end Exprc
