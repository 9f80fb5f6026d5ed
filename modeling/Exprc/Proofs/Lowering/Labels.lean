/-
Labels. A fragment has the labels that were given out while it was lowered, each at most once. So in
the code of a function every label stands in one place, and a jump to it leads there. Code is looked
at by what is left of it: what is left to execute is a suffix of the code of the function.
-/
import Exprc.IR.Machine
import Exprc.Proofs.Lowering.Module

namespace Exprc.IR

/-! ## Labels of code -/

/-- How often a label stands in code. -/
def occurrences (l : Label) (code : List Instruction) : Nat := code.countP (·.op = .label l)

section

variable {l : Label} {code rest : List Instruction}

@[simp] theorem occurrences_nil : occurrences l [] = 0 := rfl

@[simp] theorem occurrences_append (code rest : List Instruction) :
    occurrences l (code ++ rest) = occurrences l code + occurrences l rest :=
  List.countP_append

@[simp] theorem occurrences_cons (i : Instruction) (code : List Instruction) :
    occurrences l (i :: code) = occurrences l code + if i.op = .label l then 1 else 0 := by
  simp [occurrences, List.countP_cons]

theorem codeBehind?_eq_none (h : occurrences l code = 0) : codeBehind? l code = none := by
  induction code with
  | nil => rfl
  | cons i code ih =>
    rw [occurrences_cons] at h
    have hi : i.op ≠ .label l := fun hi => by rw [if_pos hi] at h; omega
    rw [codeBehind?, ih (by omega), if_neg hi]

/-- A jump leads behind its label, if the label stands in one place only. -/
theorem codeBehind?_of_suffix {location : Location} (h : ⟨location, .label l⟩ :: rest <:+ code)
    (hl : occurrences l code ≤ 1) : codeBehind? l code = some rest := by
  obtain ⟨before, rfl⟩ := h
  have hrest : occurrences l rest = 0 := by simp at hl; omega
  induction before with
  | nil => rw [List.nil_append, codeBehind?, codeBehind?_eq_none hrest, if_pos rfl]
  | cons i before ih =>
    rw [List.cons_append, occurrences_cons] at hl
    rw [List.cons_append, codeBehind?, ih (by omega)]

theorem suffix_of_append {before code rest : List Instruction} (h : before ++ rest <:+ code) :
    rest <:+ code :=
  (List.suffix_append before rest).trans h

theorem suffix_drop (n : Nat) {rest code : List Instruction} (h : rest <:+ code) :
    rest.drop n <:+ code :=
  (List.drop_suffix n rest).trans h

end

/-- Code in which every label stands in one place. -/
def Unambiguous (code : List Instruction) : Prop := ∀ l, occurrences l code ≤ 1

/-! ## Where labels lead

What is left of the code of a function at the start of a construct tells where the labels of the
construct lead. Of a conditional, `m` and `c` is code behind the branches that brings values
together. -/

namespace Unambiguous

variable {code post f g m e c : List Instruction} {location : Location} {v : Var}

theorem behind (hF : Unambiguous code) {l : Label} {rest : List Instruction}
    (h : ⟨location, .label l⟩ :: rest <:+ code) : codeBehind? l code = some rest :=
  codeBehind?_of_suffix h (hF l)

theorem ifThen (hF : Unambiguous code) {yes done : Label}
    (h : f ++ ⟨location, .branch v yes done⟩ :: ⟨location, .label yes⟩ ::
      (g ++ ⟨location, .label done⟩ :: post) <:+ code) :
    g ++ ⟨location, .label done⟩ :: post <:+ code ∧
      codeBehind? yes code = some (g ++ ⟨location, .label done⟩ :: post) ∧
      codeBehind? done code = some post := by
  have h₁ := suffix_of_append h
  have h₂ := suffix_drop 2 h₁
  exact ⟨h₂, hF.behind (suffix_drop 1 h₁), hF.behind (suffix_of_append h₂)⟩

theorem ifElse (hF : Unambiguous code) {yes no done : Label}
    (h : f ++ ⟨location, .branch v yes no⟩ :: ⟨location, .label yes⟩ ::
      (g ++ (m ++ ⟨location, .jump done⟩ :: ⟨location, .label no⟩ ::
        (e ++ (c ++ ⟨location, .label done⟩ :: post)))) <:+ code) :
    g ++ (m ++ ⟨location, .jump done⟩ :: ⟨location, .label no⟩ ::
        (e ++ (c ++ ⟨location, .label done⟩ :: post))) <:+ code ∧
      e ++ (c ++ ⟨location, .label done⟩ :: post) <:+ code ∧
      codeBehind? yes code = some (g ++ (m ++ ⟨location, .jump done⟩ :: ⟨location, .label no⟩ ::
        (e ++ (c ++ ⟨location, .label done⟩ :: post)))) ∧
      codeBehind? no code = some (e ++ (c ++ ⟨location, .label done⟩ :: post)) ∧
      codeBehind? done code = some post := by
  have h₁ := suffix_of_append h
  have h₂ := suffix_drop 2 h₁
  have h₃ := suffix_of_append (suffix_of_append h₂)
  have h₄ := suffix_drop 2 h₃
  exact ⟨h₂, h₄, hF.behind (suffix_drop 1 h₁), hF.behind (suffix_drop 1 h₃),
    hF.behind (suffix_of_append (suffix_of_append h₄))⟩

theorem loop (hF : Unambiguous code) {start body exit : Label}
    (h : ⟨location, .label start⟩ :: (f ++ ⟨location, .branch v body exit⟩ ::
      ⟨location, .label body⟩ :: (g ++ ⟨location, .jump start⟩ ::
        ⟨location, .label exit⟩ :: post)) <:+ code) :
    g ++ ⟨location, .jump start⟩ :: ⟨location, .label exit⟩ :: post <:+ code ∧
      codeBehind? start code = some (f ++ ⟨location, .branch v body exit⟩ ::
        ⟨location, .label body⟩ :: (g ++ ⟨location, .jump start⟩ ::
          ⟨location, .label exit⟩ :: post)) ∧
      codeBehind? body code = some (g ++ ⟨location, .jump start⟩ ::
        ⟨location, .label exit⟩ :: post) ∧
      codeBehind? exit code = some post := by
  have h₁ := suffix_of_append (suffix_drop 1 h)
  have h₂ := suffix_drop 2 h₁
  exact ⟨h₂, hF.behind h, hF.behind (suffix_drop 1 h₁),
    hF.behind (suffix_drop 1 (suffix_of_append h₂))⟩

theorem shortCircuit (hF : Unambiguous code) {i : Instruction} {w : Var} {b : Bool}
    {right skip done : Label}
    (h : f ++ i :: ⟨location, .label right⟩ :: (g ++ ⟨location, .copy v w⟩ ::
      ⟨location, .jump done⟩ :: ⟨location, .label skip⟩ :: ⟨location, .loadBool b w⟩ ::
      ⟨location, .jump done⟩ :: ⟨location, .label done⟩ :: post) <:+ code) :
    g ++ ⟨location, .copy v w⟩ :: ⟨location, .jump done⟩ :: ⟨location, .label skip⟩ ::
        ⟨location, .loadBool b w⟩ :: ⟨location, .jump done⟩ :: ⟨location, .label done⟩ ::
        post <:+ code ∧
      codeBehind? right code = some (g ++ ⟨location, .copy v w⟩ :: ⟨location, .jump done⟩ ::
        ⟨location, .label skip⟩ :: ⟨location, .loadBool b w⟩ :: ⟨location, .jump done⟩ ::
        ⟨location, .label done⟩ :: post) ∧
      codeBehind? skip code = some (⟨location, .loadBool b w⟩ :: ⟨location, .jump done⟩ ::
        ⟨location, .label done⟩ :: post) ∧
      codeBehind? done code = some post := by
  have h₁ := suffix_of_append h
  have h₂ := suffix_drop 2 h₁
  have h₃ := suffix_of_append h₂
  exact ⟨h₂, hF.behind (suffix_drop 1 h₁), hF.behind (suffix_drop 2 h₃),
    hF.behind (suffix_drop 5 h₃)⟩

end Unambiguous

end Exprc.IR

namespace Exprc.Lowering

open Syntax IR

/-! ## Labels of fragments -/

/-- Code has labels of some range of numbers, each at most once. -/
def Labelled (low high : Nat) (code : List Instruction) : Prop :=
  ∀ l, occurrences l code ≤ 1 ∧ (0 < occurrences l code → low ≤ l.number ∧ l.number < high)

theorem Labelled.nil {low high : Nat} : Labelled low high [] := fun l => by simp

@[simp] theorem occurrences_emit {l : Label} (location : Location) (ops : List Op) :
    occurrences l (emit location ops) = ops.countP (· = .label l) := by
  simp [occurrences, emit, List.countP_map]; rfl

theorem label_eq {n : Nat} {l : Label} : (⟨n⟩ : Label) = l ↔ n = l.number := by
  cases l; simp

theorem Merges.labelled {location : Location} {τ : Ty} {s s' : Stage} {v : Var} {f : Fragment}
    (h : Merges location τ s v f s') (l : Label) : occurrences l f.code = 0 := by
  cases h with
  | reuse => rfl
  | copy => simp

mutual

/-- A fragment has the labels that were given out while it was lowered. -/
theorem Lowers.labelled {sig : String → Option Signature} {ρ? : Option Ty} :
    ∀ {loop? : Option LoopLabels} {s s' : Stage} {e : Expr} {τ : Ty} {f : Fragment},
      Lowers sig ρ? loop? s e τ f s' → Labelled s.nextLabel s'.nextLabel f.code
  | _, _, _, _, _, _, .int, l | _, _, _, _, _, _, .bool, l | _, _, _, _, _, _, .unit, l
  | _, _, _, _, _, _, .name _, l | _, _, _, _, _, _, .control, l
  | _, _, _, _, _, _, .leave _, l => by simp
  | _, _, _, _, _, _, .unary h _, l | _, _, _, _, _, _, .binary _ h _, l
  | _, _, _, _, _, _, .call _ _ h, l => by
    have := h.labelled l
    simpa [applied, Stage.withTemp] using this
  | _, s, _, .binary _ op _ _ _, _, _, .shortCircuit _ h₁ h₂, l => by
    have := h₁.labelled l
    have := h₂.labelled l
    have := h₁.extends.label_le
    have := h₂.extends.label_le
    simp only [Stage.withLabels, Stage.withTemp] at *
    by_cases hop : op = .logicalOr <;> simp [List.countP_cons, label_eq, hop] <;> split_ifs <;> omega
  | _, _, _, _, _, _, .assign _ h, l | _, _, _, _, _, _, .leaveWith _ h, l => by
    have := h.labelled l
    simpa using this
  | _, _, _, _, _, _, .declare h, l => by
    have := h.labelled l
    simpa [Stage.declare] using this
  | _, s, _, _, _, _, .ifThen h₁ h₂, l => by
    have := h₁.labelled l
    have := h₂.labelled l
    have := h₁.extends.label_le
    have := h₂.extends.label_le
    simp only [Stage.withLabels] at *
    simp [List.countP_cons, label_eq]
    split_ifs <;> omega
  | _, s, _, _, _, _, .ifElseUnit _ h₁ h₂ h₃, l => by
    have := h₁.labelled l
    have := h₂.labelled l
    have := h₃.labelled l
    have := h₁.extends.label_le
    have := h₂.extends.label_le
    have := h₃.extends.label_le
    simp only [Stage.withLabels] at *
    simp [List.countP_cons, label_eq]
    split_ifs <;> omega
  | _, s, _, _, _, _, .ifElse _ _ h₁ h₂ hm h₃, l => by
    have := h₁.labelled l
    have := h₂.labelled l
    have := hm.labelled l
    have := h₃.labelled l
    have := h₁.extends.label_le
    have := h₂.extends.label_le
    have := hm.extends.label_le
    have := h₃.extends.label_le
    simp only [Stage.withLabels] at *
    simp [List.countP_cons, label_eq]
    split_ifs <;> omega
  | _, s, _, _, _, _, .loop h₁ h₂, l => by
    have := h₁.labelled l
    have := h₂.labelled l
    have := h₁.extends.label_le
    have := h₂.extends.label_le
    simp only [Stage.withLabels] at *
    simp [List.countP_cons, label_eq]
    split_ifs <;> omega
  | _, _, _, _, _, _, .block h, l => h.labelled l

theorem LowersStatements.labelled {sig : String → Option Signature} {ρ? : Option Ty} :
    ∀ {loop? : Option LoopLabels} {s s' : Stage} {es : List Expr} {τ₀ : Ty} {last : Var} {τ : Ty}
      {f : Fragment}, LowersStatements sig ρ? loop? s es τ₀ last τ f s' →
      Labelled s.nextLabel s'.nextLabel f.code
  | _, _, _, _, _, _, _, _, .nil => .nil
  | _, _, _, _, _, _, _, _, .cons h hs => fun l => by
    have := h.labelled l
    have := hs.labelled l
    have := h.extends.label_le
    have := hs.extends.label_le
    simp only [occurrences_append]
    omega

theorem LowersArguments.labelled {sig : String → Option Signature} {ρ? : Option Ty} :
    ∀ {loop? : Option LoopLabels} {s s' : Stage} {es : List Expr} {τs : List Ty}
      {fs : List Fragment}, LowersArguments sig ρ? loop? s es τs fs s' →
      Labelled s.nextLabel s'.nextLabel (fs.flatMap (·.code))
  | _, _, _, _, _, _, .nil => .nil
  | _, _, _, _, _, _, .cons h hs => fun l => by
    have := h.labelled l
    have := hs.labelled l
    have := h.extends.label_le
    have := hs.extends.label_le
    simp only [List.flatMap_cons, occurrences_append]
    omega

end

theorem Labelled.unambiguous {low high : Nat} {code : List Instruction}
    (h : Labelled low high code) : Unambiguous code := fun l => (h l).1

/-- The code of a function has the labels that were given out while it was lowered. -/
theorem LowersFunction.labelled {sig : String → Option Signature} {s s' : Stage}
    {f : FunctionDefinition} {F : Function} (h : LowersFunction sig s f F s') :
    Labelled s.nextLabel s'.nextLabel F.code := by
  cases h with
  | intro hg =>
    intro l
    have hl := hg.labelled l
    have hs := (Stage.Extends.declareAll s.enter f.parameters).label_le
    simp only [Stage.enter, Stage.leave] at *
    split
    · omega
    · simp only [occurrences_append, occurrences_emit, List.countP_cons, List.countP_nil]
      simp only [reduceCtorEq, decide_false, Bool.false_eq_true, if_false]
      omega

/-- In the code of a function every label stands in one place. -/
theorem LowersFunction.unambiguous {sig : String → Option Signature} {s s' : Stage}
    {f : FunctionDefinition} {F : Function} (h : LowersFunction sig s f F s') :
    Unambiguous F.code :=
  h.labelled.unambiguous

theorem LowersEntry.labelled {sig : String → Option Signature} {s s' : Stage} {e : Expr}
    {τ : Ty} {F : Function} (h : LowersEntry sig s e τ F s') :
    Labelled s.nextLabel s'.nextLabel F.code := by
  cases h with
  | silent hg => exact hg.labelled
  | printing hg =>
    intro l
    simpa [applied, Stage.withTemp] using hg.labelled l

theorem LowersEntry.unambiguous {sig : String → Option Signature} {s s' : Stage} {e : Expr}
    {τ : Ty} {F : Function} (h : LowersEntry sig s e τ F s') : Unambiguous F.code :=
  h.labelled.unambiguous

end Exprc.Lowering
