/-
Lowered modules are closed. Code that a fragment adds to a function refers to labels and temporaries that
were given out for that function, and an instruction writes each temporary before lowering hands it on; so
by induction on the rules all that the code of a function refers to is in the function. Between functions
the numbers of labels and temporaries only go up.
-/
import Exprc.Proofs.IR.WellFormed
import Exprc.Proofs.Lowering.Labels

namespace Exprc

namespace Lowering

open Syntax IR Typing

/-! ## Fragments -/

/-- The variables in scope are defined in a function, and their temporaries are of a range in which the
next temporary is not too low. -/
structure Stage.Fits (F : Function) (low high : Nat) (s : Stage) : Prop where
  low_le : low ≤ s.nextTemp
  locals : ∀ frame ∈ s.locals, ∀ l ∈ frame,
    F.Defines (.temp l.temp) ∧ (Var.temp l.temp).Within low high

/-- A fragment of a function refers to what the function has, and so does who uses its value. -/
structure Fragment.Proper (calls : String → Nat → Prop) (low high : Nat) (F : Function)
    (f : Fragment) : Prop where
  code : ∀ i ∈ f.code, i.Proper calls low high F
  defines : F.Defines f.value
  within : f.value = .unit ∨ f.value.Within low high

/-- Whether the labels of a loop, if there is one, are in a function. -/
def LoopLabels.InCode (code : List Instruction) (loop? : Option LoopLabels) : Prop :=
  ∀ labels ∈ loop?, HasLabel code labels.start ∧ HasLabel code labels.exit

section

variable {F : Function} {low high : Nat} {s s' : Stage}

namespace Stage.Fits

theorem withLabels (h : s.Fits F low high) (count : Nat) : (s.withLabels count).Fits F low high :=
  ⟨h.low_le, h.locals⟩

theorem withTemp (h : s.Fits F low high) (τ : Ty) : (s.withTemp τ).Fits F low high :=
  ⟨Nat.le_succ_of_le h.low_le, h.locals⟩

theorem enter (h : s.Fits F low high) : s.enter.Fits F low high :=
  ⟨h.low_le, List.forall_mem_cons.2 ⟨nofun, h.locals⟩⟩

theorem leave (h : s.Fits F low high) : s.leave.Fits F low high :=
  ⟨h.low_le, fun frame hf => h.locals frame (List.mem_of_mem_tail hf)⟩

/-- The next temporary is of the range if it can be given out. -/
theorem within (h : s.Fits F low high) (hs : s.nextTemp + 1 ≤ high) :
    (Var.temp s.nextTemp).Within low high :=
  ⟨s.nextTemp, h.low_le, hs, rfl⟩

theorem declare (h : s.Fits F low high) (hs : s.nextTemp + 1 ≤ high)
    (hd : F.Defines (.temp s.nextTemp)) (x : String) (τ : Ty) :
    (s.declare x τ).Fits F low high := by
  refine ⟨Nat.le_succ_of_le h.low_le, ?_⟩
  have hnew : F.Defines (.temp s.nextTemp) ∧ (Var.temp s.nextTemp).Within low high :=
    ⟨hd, h.within hs⟩
  have hl := h.locals
  simp only [Stage.declare]
  cases hΔ : s.locals with
  | nil => simpa [Locals.bind] using hnew
  | cons frame below =>
    rw [hΔ, List.forall_mem_cons] at hl
    exact List.forall_mem_cons.2 ⟨List.forall_mem_cons.2 ⟨hnew, hl.1⟩, hl.2⟩

theorem find? (h : s.Fits F low high) {x : String} {l : Local} (hl : s.locals.find? x = some l) :
    F.Defines (.temp l.temp) ∧ (Var.temp l.temp).Within low high := by
  obtain ⟨-, frame, hf, hm⟩ := Locals.mem_of_find? hl
  exact h.locals frame hf l hm

end Stage.Fits

/-- What an instruction writes is defined. -/
theorem defines_of_mem {i : Instruction} (h : i ∈ F.code) {v : Var} (hv : i.op.writes = [v]) :
    F.Defines v :=
  .inr (.inr ⟨i, h, by rw [hv]; exact List.mem_singleton_self v⟩)

theorem hasLabel_of_mem {code : List Instruction} {location : Location} {l : Label}
    (h : ⟨location, .label l⟩ ∈ code) : HasLabel code l :=
  ⟨_, h, rfl⟩

end

section

variable {sig : String → Option Signature} {ρ? : Option Ty} {calls : String → Nat → Prop}
  {low high : Nat} {F : Function}

theorem LowersArguments.length_eq {loop? : Option LoopLabels} {s s' : Stage} {es : List Expr}
    {τs : List Ty} {fs : List Fragment} :
    LowersArguments sig ρ? loop? s es τs fs s' → fs.length = τs.length
  | .nil => rfl
  | .cons _ hs => congrArg (· + 1) hs.length_eq

/-- A call of something that takes as many operands. -/
theorem proper_applied {location : Location} {x : String} {fs : List Fragment} {s : Stage} {τ : Ty}
    (hF : (applied location x fs s).code ⊆ F.code) (hs : s.Fits F low high)
    (hhigh : s.nextTemp + 1 ≤ high) (hx : calls x fs.length)
    (hfs : ∀ f ∈ fs, f.Proper calls low high F) :
    (applied location x fs s).Proper calls low high F ∧ (s.withTemp τ).Fits F low high := by
  obtain ⟨-, hcall⟩ := List.append_subset.1 hF
  refine ⟨⟨?_, defines_of_mem (hcall List.mem_cons_self) rfl, .inr (hs.within hhigh)⟩,
    hs.withTemp τ⟩
  refine List.forall_mem_append.2 ⟨fun i hi => ?_, List.forall_mem_singleton.2 ?_⟩
  · obtain ⟨f, hf, hi⟩ := List.mem_flatMap.1 hi
    exact (hfs f hf).code i hi
  · refine .call ?_ (by rwa [List.length_map]) (hs.within hhigh)
    exact List.forall_mem_map.2 fun f hf => (hfs f hf).defines

/-- Where the branches of a conditional put their values. -/
theorem Merges.proper {location : Location} {τ : Ty} {s s' : Stage} {f m : Fragment}
    (h : Merges location τ s f.value m s') (hf : f.Proper calls low high F)
    (hF : m.code ⊆ F.code) (hs : s.Fits F low high) (hhigh : s'.nextTemp ≤ high) :
    m.Proper calls low high F ∧ m.value.Within low high ∧ s'.Fits F low high := by
  cases h with
  | reuse htemp _ =>
    have hwithin : f.value.Within low high := hf.within.resolve_left fun hu => by
      rw [hu] at htemp
      cases htemp
    exact ⟨⟨nofun, hf.defines, .inr hwithin⟩, hwithin, hs⟩
  | copy _ =>
    have hwithin := hs.within hhigh
    exact ⟨⟨List.forall_mem_singleton.2 (.copy hf.defines hwithin),
      defines_of_mem (hF List.mem_cons_self) rfl, .inr hwithin⟩, hwithin, hs.withTemp τ⟩

theorem UnaryOp.arity_builtin (op : UnaryOp) : op.builtin.arity = 1 := by cases op <;> rfl

theorem BinaryOp.arity_builtin (op : BinaryOp) : op.builtin.arity = 2 := by cases op <;> rfl

/-- What has a signature can be called with as many arguments, and so can every built-in function. -/
structure CanCall (sig : String → Option Signature) (calls : String → Nat → Prop) : Prop where
  signature : ∀ x σ, sig x = some σ → calls x σ.parameters.length
  builtin : ∀ b : Builtin, calls b.name b.arity

mutual

/-- A fragment whose code is in a function refers to what the function has. -/
theorem Lowers.proper (hcalls : CanCall sig calls) :
    ∀ {loop? : Option LoopLabels} {s s' : Stage} {e : Expr} {τ : Ty} {f : Fragment},
      Lowers sig ρ? loop? s e τ f s' → f.code ⊆ F.code → s'.nextTemp ≤ high →
      LoopLabels.InCode F.code loop? → s.Fits F low high →
      f.Proper calls low high F ∧ s'.Fits F low high
  | _, _, _, _, _, _, .int, hF, hhigh, _, hs =>
    ⟨⟨List.forall_mem_singleton.2 (.loadInt (hs.within hhigh)),
      defines_of_mem (hF List.mem_cons_self) rfl, .inr (hs.within hhigh)⟩, hs.withTemp _⟩
  | _, _, _, _, _, _, .bool, hF, hhigh, _, hs =>
    ⟨⟨List.forall_mem_singleton.2 (.loadBool (hs.within hhigh)),
      defines_of_mem (hF List.mem_cons_self) rfl, .inr (hs.within hhigh)⟩, hs.withTemp _⟩
  | _, _, _, _, _, _, .unit, _, _, _, hs => ⟨⟨nofun, .inl rfl, .inl rfl⟩, hs⟩
  | _, _, _, _, _, _, .name hl, _, _, _, hs =>
    ⟨⟨nofun, (hs.find? hl).1, .inr (hs.find? hl).2⟩, hs⟩
  | _, _, _, .unary _ op _, _, _, .unary h _, hF, hhigh, hloop, hs => by
    obtain ⟨hfs, hs₁⟩ := h.proper hcalls (List.append_subset.1 hF).1 (Nat.le_of_succ_le hhigh) hloop hs
    refine proper_applied hF hs₁ hhigh (h.length_eq ▸ ?_) hfs
    have hop := hcalls.builtin op.builtin
    rwa [UnaryOp.arity_builtin] at hop
  | _, _, _, .binary _ op _ _ _, _, _, .binary _ h _, hF, hhigh, hloop, hs => by
    obtain ⟨hfs, hs₁⟩ := h.proper hcalls (List.append_subset.1 hF).1 (Nat.le_of_succ_le hhigh) hloop hs
    refine proper_applied hF hs₁ hhigh (h.length_eq ▸ ?_) hfs
    have hop := hcalls.builtin op.builtin
    rwa [BinaryOp.arity_builtin] at hop
  | _, _, _, _, _, _, .shortCircuit _ h₁ h₂, hF, hhigh, hloop, hs => by
    have hhigh₂ := Nat.le_of_succ_le hhigh
    simp only [List.append_subset] at hF
    obtain ⟨⟨⟨hF₁, hF₂⟩, hF₃⟩, hF₄⟩ := hF
    obtain ⟨hf, hs₁⟩ := h₁.proper hcalls hF₁ (Nat.le_trans h₂.extends.temp_le hhigh₂) hloop (hs.withLabels 3)
    obtain ⟨hg, hs₂⟩ := h₂.proper hcalls hF₃ hhigh₂ hloop hs₁
    simp only [emit, List.map_cons, List.map_nil, List.cons_subset] at hF₂ hF₄
    have hright := hasLabel_of_mem hF₂.2.1
    have hskip := hasLabel_of_mem hF₄.2.2.1
    have hdone := hasLabel_of_mem hF₄.2.2.2.2.2.1
    have hw := hs₂.within hhigh
    refine ⟨⟨?_, defines_of_mem hF₄.1 rfl, .inr hw⟩, hs₂.withTemp _⟩
    simp only [emit, List.map_cons, List.map_nil, List.forall_mem_append, List.forall_mem_cons]
    refine ⟨⟨⟨hf.code, ?_, .label, nofun⟩, hg.code⟩, .copy hg.defines hw, .jump hdone, .label,
      .loadBool hw, .jump hdone, .label, nofun⟩
    split
    · exact .branch hf.defines hskip hright
    · exact .branch hf.defines hright hskip
  | _, _, _, _, _, _, .assign hl h, hF, hhigh, hloop, hs => by
    obtain ⟨hf, hs₁⟩ := h.proper hcalls (List.append_subset.1 hF).1 hhigh hloop hs
    refine ⟨⟨List.forall_mem_append.2 ⟨hf.code, List.forall_mem_singleton.2 ?_⟩, hf.defines,
      hf.within⟩, hs₁⟩
    exact .copy hf.defines (hs.find? hl).2
  | _, _, _, _, _, _, .ifThen h₁ h₂, hF, hhigh, hloop, hs => by
    simp only [List.append_subset] at hF
    obtain ⟨⟨⟨hF₁, hF₂⟩, hF₃⟩, hF₄⟩ := hF
    obtain ⟨hf, hs₁⟩ := h₁.proper hcalls hF₁ (Nat.le_trans h₂.extends.temp_le hhigh) hloop (hs.withLabels 2)
    obtain ⟨hg, hs₂⟩ := h₂.proper hcalls hF₃ hhigh hloop hs₁
    simp only [emit, List.map_cons, List.map_nil, List.cons_subset] at hF₂ hF₄
    refine ⟨⟨?_, .inl rfl, .inl rfl⟩, hs₂⟩
    simp only [emit, List.map_cons, List.map_nil, List.forall_mem_append, List.forall_mem_cons]
    exact ⟨⟨⟨hf.code,
      .branch hf.defines (hasLabel_of_mem hF₂.2.1) (hasLabel_of_mem hF₄.1), .label, nofun⟩, hg.code⟩,
      .label, nofun⟩
  | _, _, _, _, _, _, .ifElseUnit _ h₁ h₂ h₃, hF, hhigh, hloop, hs => by
    have hhigh₂ := Nat.le_trans h₃.extends.temp_le hhigh
    simp only [List.append_subset] at hF
    obtain ⟨⟨⟨⟨⟨hF₁, hF₂⟩, hF₃⟩, hF₄⟩, hF₅⟩, hF₆⟩ := hF
    obtain ⟨hf, hs₁⟩ := h₁.proper hcalls hF₁ (Nat.le_trans h₂.extends.temp_le hhigh₂) hloop (hs.withLabels 3)
    obtain ⟨hg, hs₂⟩ := h₂.proper hcalls hF₃ hhigh₂ hloop hs₁
    obtain ⟨hh, hs₃⟩ := h₃.proper hcalls hF₅ hhigh hloop hs₂
    simp only [emit, List.map_cons, List.map_nil, List.cons_subset] at hF₂ hF₄ hF₆
    have hdone := hasLabel_of_mem hF₆.1
    refine ⟨⟨?_, .inl rfl, .inl rfl⟩, hs₃⟩
    simp only [emit, List.map_cons, List.map_nil, List.forall_mem_append, List.forall_mem_cons]
    exact ⟨⟨⟨⟨⟨hf.code,
      .branch hf.defines (hasLabel_of_mem hF₂.2.1) (hasLabel_of_mem hF₄.2.1), .label, nofun⟩,
      hg.code⟩, .jump hdone, .label, nofun⟩, hh.code⟩, .label, nofun⟩
  | _, _, _, _, _, _, .ifElse _ _ h₁ h₂ hm h₃, hF, hhigh, hloop, hs => by
    have hhigh₃ := Nat.le_trans h₃.extends.temp_le hhigh
    have hhigh₂ := Nat.le_trans hm.extends.temp_le hhigh₃
    simp only [List.append_subset] at hF
    obtain ⟨⟨⟨⟨⟨⟨hF₁, hF₂⟩, hF₃⟩, hFm⟩, hF₄⟩, hF₅⟩, hF₆⟩ := hF
    obtain ⟨hf, hs₁⟩ := h₁.proper hcalls hF₁ (Nat.le_trans h₂.extends.temp_le hhigh₂) hloop (hs.withLabels 3)
    obtain ⟨hg, hs₂⟩ := h₂.proper hcalls hF₃ hhigh₂ hloop hs₁
    obtain ⟨hmp, hw, hs₃⟩ := hm.proper hg hFm hs₂ hhigh₃
    obtain ⟨hh, hs₄⟩ := h₃.proper hcalls hF₅ hhigh hloop hs₃
    simp only [emit, List.map_cons, List.map_nil, List.cons_subset] at hF₂ hF₄ hF₆
    have hdone := hasLabel_of_mem hF₆.2.1
    refine ⟨⟨?_, hmp.defines, hmp.within⟩, hs₄⟩
    simp only [emit, List.map_cons, List.map_nil, List.forall_mem_append, List.forall_mem_cons]
    exact ⟨⟨⟨⟨⟨⟨hf.code,
      .branch hf.defines (hasLabel_of_mem hF₂.2.1) (hasLabel_of_mem hF₄.2.1), .label, nofun⟩,
      hg.code⟩, hmp.code⟩, .jump hdone, .label, nofun⟩, hh.code⟩, .copy hh.defines hw, .label, nofun⟩
  | _, _, _, _, _, _, .loop h₁ h₂, hF, hhigh, hloop, hs => by
    simp only [List.append_subset] at hF
    obtain ⟨⟨⟨⟨hF₁, hF₂⟩, hF₃⟩, hF₄⟩, hF₅⟩ := hF
    simp only [emit, List.map_cons, List.map_nil, List.cons_subset] at hF₁ hF₃ hF₅
    have hstart := hasLabel_of_mem hF₁.1
    have hexit := hasLabel_of_mem hF₅.2.1
    obtain ⟨hf, hs₁⟩ := h₁.proper hcalls hF₂ (Nat.le_trans h₂.extends.temp_le hhigh) hloop (hs.withLabels 3)
    -- a loop control in the body leads to one of the labels around it
    obtain ⟨hg, hs₂⟩ := h₂.proper hcalls hF₄ hhigh (by rintro _ ⟨⟩; exact ⟨hstart, hexit⟩) hs₁
    refine ⟨⟨?_, .inl rfl, .inl rfl⟩, hs₂⟩
    simp only [emit, List.map_cons, List.map_nil, List.forall_mem_append, List.forall_mem_cons]
    exact ⟨⟨⟨⟨⟨.label, nofun⟩, hf.code⟩,
      .branch hf.defines (hasLabel_of_mem hF₃.2.1) hexit, .label, nofun⟩, hg.code⟩,
      .jump hstart, .label, nofun⟩
  | _, _, _, _, _, _, .block h, hF, hhigh, hloop, hs => by
    obtain ⟨hf, hs₁⟩ := h.proper hcalls hF hhigh hloop hs.enter (.inl rfl) (.inl rfl)
    exact ⟨hf, hs₁.leave⟩
  | _, _, _, _, _, _, .declare h, hF, hhigh, hloop, hs => by
    obtain ⟨hF₁, hF₂⟩ := List.append_subset.1 hF
    obtain ⟨hf, hs₁⟩ := h.proper hcalls hF₁ (Nat.le_of_succ_le hhigh) hloop hs
    refine ⟨⟨List.forall_mem_append.2 ⟨hf.code, List.forall_mem_singleton.2 ?_⟩, .inl rfl,
      .inl rfl⟩, hs₁.declare hhigh (defines_of_mem (hF₂ List.mem_cons_self) rfl) _ _⟩
    exact .copy hf.defines (hs₁.within hhigh)
  | _, _, _, _, _, _, .call _ hσ h, hF, hhigh, hloop, hs => by
    obtain ⟨hfs, hs₁⟩ := h.proper hcalls (List.append_subset.1 hF).1 (Nat.le_of_succ_le hhigh) hloop hs
    refine proper_applied hF hs₁ hhigh ?_ hfs
    rw [h.length_eq]
    exact hcalls.signature _ _ hσ
  | _, _, _, _, _, _, .control (c := c), _, _, hloop, hs => by
    obtain ⟨hstart, hexit⟩ := hloop _ rfl
    refine ⟨⟨List.forall_mem_singleton.2 (.jump ?_), .inl rfl, .inl rfl⟩, hs⟩
    cases c with
    | exit => exact hexit
    | next => exact hstart
  | _, _, _, _, _, _, .leave _, _, _, _, hs =>
    ⟨⟨List.forall_mem_singleton.2 (.leave (.inl rfl)), .inl rfl, .inl rfl⟩, hs⟩
  | _, _, _, _, _, _, .leaveWith _ h, hF, hhigh, hloop, hs => by
    obtain ⟨hf, hs₁⟩ := h.proper hcalls (List.append_subset.1 hF).1 hhigh hloop hs
    refine ⟨⟨List.forall_mem_append.2 ⟨hf.code, List.forall_mem_singleton.2 ?_⟩, .inl rfl,
      .inl rfl⟩, hs₁⟩
    exact .leave hf.defines

theorem LowersStatements.proper (hcalls : CanCall sig calls) :
    ∀ {loop? : Option LoopLabels} {s s' : Stage} {es : List Expr} {τ₀ : Ty} {last : Var} {τ : Ty}
      {f : Fragment}, LowersStatements sig ρ? loop? s es τ₀ last τ f s' → f.code ⊆ F.code →
      s'.nextTemp ≤ high → LoopLabels.InCode F.code loop? → s.Fits F low high →
      F.Defines last → (last = .unit ∨ last.Within low high) →
      f.Proper calls low high F ∧ s'.Fits F low high
  | _, _, _, _, _, _, _, _, .nil, _, _, _, hs, hlast, hw => ⟨⟨nofun, hlast, hw⟩, hs⟩
  | _, _, _, _, _, _, _, _, .cons h hes, hF, hhigh, hloop, hs, _, _ => by
    obtain ⟨hF₁, hF₂⟩ := List.append_subset.1 hF
    obtain ⟨hf, hs₁⟩ := h.proper hcalls hF₁ (Nat.le_trans hes.extends.temp_le hhigh) hloop hs
    obtain ⟨hg, hs₂⟩ := hes.proper hcalls hF₂ hhigh hloop hs₁ hf.defines hf.within
    exact ⟨⟨List.forall_mem_append.2 ⟨hf.code, hg.code⟩, hg.defines, hg.within⟩, hs₂⟩

theorem LowersArguments.proper (hcalls : CanCall sig calls) :
    ∀ {loop? : Option LoopLabels} {s s' : Stage} {es : List Expr} {τs : List Ty}
      {fs : List Fragment}, LowersArguments sig ρ? loop? s es τs fs s' →
      fs.flatMap (·.code) ⊆ F.code → s'.nextTemp ≤ high → LoopLabels.InCode F.code loop? →
      s.Fits F low high → (∀ f ∈ fs, f.Proper calls low high F) ∧ s'.Fits F low high
  | _, _, _, _, _, _, .nil, _, _, _, hs => ⟨nofun, hs⟩
  | _, _, _, _, _, _, .cons h hes, hF, hhigh, hloop, hs => by
    obtain ⟨hF₁, hF₂⟩ := List.append_subset.1 hF
    obtain ⟨hf, hs₁⟩ := h.proper hcalls hF₁ (Nat.le_trans hes.extends.temp_le hhigh) hloop hs
    obtain ⟨hfs, hs₂⟩ := hes.proper hcalls hF₂ hhigh hloop hs₁
    exact ⟨List.forall_mem_cons.2 ⟨hf, hfs⟩, hs₂⟩

end

/-! ## Functions -/

/-- The parameters of a function fit if they are defined in it. -/
theorem Stage.Fits.declareAll :
    ∀ {s : Stage} (ps : List Parameter), s.Fits F low high → s.nextTemp + ps.length ≤ high →
      (∀ k, s.nextTemp ≤ k → k < s.nextTemp + ps.length → F.Defines (.temp k)) →
      (s.declareAll ps).Fits F low high
  | _, [], h, _, _ => h
  | s, p :: ps, h, hhigh, hd => by
    rw [List.length_cons] at hhigh hd
    have hp := h.declare (by omega) (hd _ (Nat.le_refl _) (by omega)) p.name.text p.written.ty
    refine hp.declareAll ps ?_ fun k h₁ h₂ => hd k ?_ ?_ <;> simp only [Stage.declare] at * <;> omega

theorem nextTemp_declareAll (s : Stage) (ps : List Parameter) :
    (s.declareAll ps).nextTemp = s.nextTemp + ps.length := by
  induction ps generalizing s with
  | nil => rfl
  | cons p ps ih =>
    refine (ih _).trans ?_
    simp only [List.length_cons, Stage.declare]
    omega

/-- A function that a definition is lowered to has all that it refers to, and the temporaries in it were
given out for it. -/
theorem LowersFunction.proper (hcalls : CanCall sig calls) {s s' : Stage} {f : FunctionDefinition}
    (h : LowersFunction sig s f F s') (hs : s.Outside) :
    F.Proper calls s.nextTemp s'.nextTemp := by
  obtain ⟨g, s₁, post, hg, hparams, hcode, hresult, hpost, rfl⟩ := h.body
  have hmem : ∀ v ∈ F.parameters, v.Within s.nextTemp (s.nextTemp + f.parameters.length) := by
    rw [hparams]
    refine List.forall_mem_map.2 fun k hk => ?_
    obtain ⟨h₁, h₂⟩ := List.mem_range'_1.1 hk
    exact ⟨k, h₁, h₂, rfl⟩
  have hbelow : s.nextTemp + f.parameters.length ≤ s₁.nextTemp := by
    have hext := hg.extends.temp_le
    rwa [nextTemp_declareAll] at hext
  have hstart : s.enter.Fits F s.nextTemp s₁.nextTemp :=
    ⟨Nat.le_refl _, by simp [Stage.enter, hs.locals]⟩
  have hfits := hstart.declareAll f.parameters hbelow fun k h₁ h₂ => by
    refine .inr (.inl ?_)
    rw [hparams]
    exact List.mem_map_of_mem (List.mem_range'_1.2 ⟨h₁, h₂⟩)
  obtain ⟨hproper, -⟩ := hg.proper hcalls (hcode ▸ List.subset_append_left _ _) (Nat.le_refl _)
    (fun _ h => absurd h (Option.not_mem_none _)) hfits
  refine ⟨fun v hv => ?_, ?_, hresult ▸ hproper.defines⟩
  · obtain ⟨k, h₁, h₂, hk⟩ := hmem v hv
    exact ⟨k, h₁, Nat.lt_of_lt_of_le h₂ hbelow, hk⟩
  · rw [hcode]
    refine List.forall_mem_append.2 ⟨hproper.code, ?_⟩
    rcases hpost with ⟨rfl, -⟩ | rfl
    · exact nofun
    · exact List.forall_mem_singleton.2 (.leave hproper.defines)

/-- The function in which a run starts has all that it refers to. -/
theorem LowersEntry.proper (hcalls : CanCall sig calls) {s s' : Stage} {e : Expr} {τ : Ty}
    (h : LowersEntry sig s e τ F s') (hs : s.Outside) : F.Proper calls s.nextTemp s'.nextTemp := by
  have hstart : ∀ high, s.Fits F s.nextTemp high := fun high =>
    ⟨Nat.le_refl _, by simp [hs.locals]⟩
  cases h with
  | silent hg _ =>
    obtain ⟨hproper, -⟩ := hg.proper hcalls (List.Subset.refl _) (Nat.le_refl _) nofun (hstart _)
    exact ⟨nofun, hproper.code, hproper.defines⟩
  | @printing s₁ _ _ g b hg hb =>
    have hF : (applied e.location b.name [g] s₁).code ⊆ (applied e.location b.name [g] s₁).code :=
      List.Subset.refl _
    have hsub : g.code ⊆ (applied e.location b.name [g] s₁).code := by
      simp [applied]
    obtain ⟨hproper, hs₁⟩ := hg.proper hcalls hsub (Nat.le_succ _) nofun (hstart _)
    have hb : calls b.name 1 := by
      have harity := hcalls.builtin b
      cases τ <;> cases hb <;> exact harity
    obtain ⟨hcode, -⟩ := proper_applied (τ := .unit) hF hs₁ (Nat.le_refl _) hb
      (List.forall_mem_singleton.2 hproper)
    exact ⟨nofun, hcode.code, hproper.defines⟩

/-! ## The ends of functions -/

/-- Whether the last instruction of code leaves the function. -/
def Leaves (code : List Instruction) : Prop := code.getLast?.any (·.op.isLeave) = true

theorem Leaves.append {code post : List Instruction} (h : Leaves post) : Leaves (code ++ post) := by
  cases hp : post.getLast? with
  | none => rw [Leaves, hp] at h; cases h
  | some i => rwa [Leaves, List.getLast?_append, hp, Option.some_or, ← hp]

/-- The code of a return ends in an instruction that leaves the function. -/
theorem Lowers.leaves {loop? : Option LoopLabels} {s s' : Stage} {e : Expr} {τ : Ty} {f : Fragment}
    (h : Lowers sig ρ? loop? s e τ f s') (he : e.isReturn = true) : Leaves f.code := by
  cases h with
  | leave => rfl
  | leaveWith => exact Leaves.append rfl
  | _ => cases he

theorem LowersStatements.leaves :
    ∀ {loop? : Option LoopLabels} {s s' : Stage} {es : List Expr} {τ₀ : Ty} {last : Var} {τ : Ty}
      {f : Fragment}, LowersStatements sig ρ? loop? s es τ₀ last τ f s' →
      es.getLast?.any (·.isReturn) = true → Leaves f.code
  | _, _, _, _, _, _, _, _, .nil, he => by cases he
  | _, _, _, _ :: es, _, _, _, _, .cons h hes, he => by
    cases es with
    | nil =>
      cases hes
      rw [List.append_nil]
      exact h.leaves he
    | cons =>
      rw [List.getLast?_cons_cons] at he
      exact (hes.leaves he).append

/-- The code of a declared function ends in an instruction that leaves it. -/
theorem LowersFunction.endsInLeave {s s' : Stage} {f : FunctionDefinition}
    (h : LowersFunction sig s f F s') : F.endsInLeave = true := by
  obtain ⟨g, s₁, post, hg, -, hcode, -, hpost, -⟩ := h.body
  have hleaves : Leaves (g.code ++ post) := by
    rcases hpost with ⟨rfl, hr⟩ | rfl
    · rw [List.append_nil]
      cases hbody : f.body with
      | block n es =>
        rw [hbody] at hg hr
        cases hg with
        | block hes => exact hes.leaves hr
      | _ =>
        rw [hbody] at hg hr
        exact hg.leaves hr
    · exact Leaves.append rfl
  rwa [Leaves, ← hcode] at hleaves

end

/-! ## Modules -/

section

variable {sig : String → Option Signature} {calls : String → Nat → Prop}

/-- No temporary is in both of two functions. -/
def Apart (F G : Function) : Prop := ∀ k, .temp k ∈ F.vars → .temp k ∉ G.vars

theorem Apart.of_proper {F G : Function} {low mid high : Nat} (hF : F.Proper calls low mid)
    (hG : G.Proper calls mid high) : Apart F G := by
  intro k hk hk'
  have h₁ := hF.temp_range hk
  have h₂ := hG.temp_range hk'
  omega

theorem Labelled.append {low mid high : Nat} {code rest : List Instruction}
    (h : Labelled low mid code) (hr : Labelled mid high rest) (hm : low ≤ mid) (hh : mid ≤ high) :
    Labelled low high (code ++ rest) := by
  intro l
  have h₁ := h l
  have h₂ := hr l
  rw [occurrences_append]
  omega

/-- Functions that are lowered one after the other have labels and temporaries of their own. -/
theorem LowersFunctions.closed (hcalls : CanCall sig calls) :
    ∀ {s s' : Stage} {fs : List FunctionDefinition} {Fs : List Function},
      LowersFunctions sig s fs Fs s' → s.Outside →
      Labelled s.nextLabel s'.nextLabel (Fs.flatMap (·.code)) ∧
        (∀ F ∈ Fs, F.Proper calls s.nextTemp s'.nextTemp) ∧ Fs.Pairwise Apart
  | _, _, _, _, .nil, _ => ⟨.nil, nofun, .nil⟩
  | s, s', _, _, .cons hF hFs, hs => by
    obtain ⟨hlabels, hproper, hapart⟩ := hFs.closed hcalls (hF.outside hs)
    have hhead := hF.proper hcalls hs
    have h₁ := hF.extends
    have h₂ := hFs.extends
    refine ⟨hF.labelled.append hlabels h₁.label_le h₂.label_le, List.forall_mem_cons.2 ⟨?_, ?_⟩,
      .cons (fun G hG => .of_proper hhead (hproper G hG)) hapart⟩
    · exact hhead.mono (Nat.le_refl _) h₂.temp_le
    · exact fun G hG => (hproper G hG).mono h₁.temp_le (Nat.le_refl _)

end

section

variable {m : Syntax.Module} {τ : Ty} {M : IR.Module}

/-- What lowering takes for something that can be called can be called in the lowered module. -/
theorem LowersModule.canCall (h : LowersModule m τ M) :
    CanCall (signatureOf? m.functions) M.Takes := by
  have hb : ∀ b : Builtin, M.Takes b.name b.arity := by
    intro b
    refine ⟨by cases b <;> decide, ?_⟩
    rw [IR.Module.arity?, h.function?_builtin, Builtin.ofName?_name]
    rfl
  refine ⟨fun x σ hx => ?_, hb⟩
  rcases h.callee hx with ⟨f, F, s, s', hf, rfl, hF, hFf, -⟩ | ⟨b, rfl, hσ⟩
  · have hname : f.name.text = x := by simpa using List.find?_some hf
    obtain ⟨-, -, -, -, hparams, -⟩ := hFf.body
    refine ⟨hname ▸ (h.reserved f (List.mem_of_find?_eq_some hf)).1, ?_⟩
    rw [IR.Module.arity?, hF]
    simp [hparams, FunctionDefinition.signature]
  · rw [← b.arity_of_signature hσ]
    exact hb b

/-- Functions have the names of their definitions. -/
theorem LowersFunctions.names {sig : String → Option Signature} :
    ∀ {s s' : Stage} {fs : List FunctionDefinition} {Fs : List Function},
      LowersFunctions sig s fs Fs s' → Fs.map (·.name) = fs.map (·.name.text)
  | _, _, _, _, .nil => rfl
  | _, _, _, _, .cons hF hFs => by rw [List.map_cons, List.map_cons, hF.name, hFs.names]

/-- A lowered module is closed. -/
theorem LowersModule.wellFormed (h : LowersModule m τ M) : M.WellFormed := by
  have hcalls := h.canCall
  obtain ⟨Fs, F, s, s', hM, hFs, hF⟩ := h.lowers
  have hs := hFs.outside .initial
  obtain ⟨hlabels, hproper, hapart⟩ := hFs.closed hcalls .initial
  have hentry := hF.proper hcalls hs
  have hall : ∀ G ∈ M.functions, ∃ low high, G.Proper M.Takes low high := by
    rw [hM]
    refine List.forall_mem_append.2 ⟨fun G hG => ⟨_, _, hproper G hG⟩, ?_⟩
    exact List.forall_mem_singleton.2 ⟨_, _, hentry⟩
  constructor
  case nodup =>
    -- the names of definitions differ, and no definition has the name of the last function
    rw [hM, List.map_append, hFs.names, List.map_singleton, hF.name, List.nodup_append]
    refine ⟨h.nodup, by simp, ?_⟩
    intro x hx y hy hxy
    obtain ⟨f, hf, rfl⟩ := List.mem_map.1 hx
    exact (h.reserved f hf).1 (hxy.trans (List.mem_singleton.1 hy))
  case entry => exact ⟨Fs, F, hM, hF.name⟩
  case labels =>
    have hlabelled := hlabels.append hF.labelled hFs.extends.label_le hF.extends.label_le
    rw [hM, List.flatMap_append, List.flatMap_singleton]
    exact hlabelled.unambiguous
  case temps =>
    rw [hM, List.pairwise_append]
    refine ⟨hapart, List.pairwise_singleton _ _, fun G hG => List.forall_mem_singleton.2 ?_⟩
    exact Apart.of_proper (hproper G hG) hentry
  case targets =>
    intro G hG i hi
    obtain ⟨low, high, hG⟩ := hall G hG
    exact (hG.code i hi).targets
  case parameters =>
    intro G hG v hv
    obtain ⟨low, high, hG⟩ := hall G hG
    obtain ⟨k, -, -, rfl⟩ := hG.parameters v hv
    rfl
  case reads =>
    intro G hG i hi v hv
    obtain ⟨low, high, hG⟩ := hall G hG
    have hdefines := (hG.code i hi).reads v hv
    exact ⟨hdefines, hG.not_named hdefines⟩
  case results =>
    intro G hG
    obtain ⟨low, high, hG⟩ := hall G hG
    exact ⟨hG.result, hG.not_named hG.result⟩
  case writes =>
    intro G hG i hi v hv
    obtain ⟨low, high, hG⟩ := hall G hG
    obtain ⟨k, -, -, rfl⟩ := (hG.code i hi).writes v hv
    rfl
  case calls =>
    intro G hG i hi
    obtain ⟨low, high, hG⟩ := hall G hG
    exact (hG.code i hi).calls
  case leaves =>
    intro G hG hname
    rw [hM, List.mem_append, List.mem_singleton] at hG
    rcases hG with hG | rfl
    · obtain ⟨f, -, s₁, s₂, hGf, -⟩ := hFs.exists_of_mem .initial G hG
      exact hGf.endsInLeave
    · exact absurd hF.name hname

/-- What lowering gives for a module that the checker accepts is closed. -/
theorem lower_wellFormed {m : Syntax.Module} (h : (checkModule m).outcome = .ok τ)
    (hM : lower (checkModule m).tree = .ok M) : M.WellFormed :=
  (lower_checked h hM).wellFormed

/-- A program with a loop and calls of a declared function:
`fun f(n: Int): Int { while n > 9 do n = n - 1; f(n) } f(2)`. -/
def looping : Syntax.Module :=
  let n : Note := ⟨⟨1, 1⟩, none⟩
  let int : WrittenType := ⟨⟨1, 10⟩, .int⟩
  ⟨⟨1, 1⟩, [⟨⟨1, 1⟩, ⟨⟨1, 5⟩, "f"⟩, [⟨⟨⟨1, 7⟩, "n"⟩, int⟩], int, .block n
      [.loop n (.binary n .greaterThan ⟨1, 30⟩ (.name n "n") (.int n 9))
          (.assign n ⟨1, 39⟩ (.name n "n") (.binary n .subtract ⟨1, 43⟩ (.name n "n") (.int n 1))),
        .call n "f" [.name n "n"]]⟩],
    .block n [.call n "f" [.int n 2]]⟩

theorem lower_wellFormed_looping :
    ∃ M, lower (checkModule looping).tree = .ok M ∧ M.functions.length = 2 ∧ M.WellFormed := by
  obtain ⟨M, hM, hlen⟩ : ∃ M, lower (checkModule looping).tree = .ok M ∧ M.functions.length = 2 := by
    refine ⟨?M, ?lowered, ?length⟩
    case lowered => cbv; rfl
    case length => rfl
  exact ⟨M, hM, hlen, lower_wellFormed (τ := .int) (by cbv) hM⟩

end

end Lowering

end Exprc
