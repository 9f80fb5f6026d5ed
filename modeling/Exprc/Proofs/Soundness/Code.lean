/-
Types of lowered code. Every temporary holds values of one type, and code is safe if each instruction
that control can reach finds variables of the types it needs. What control cannot reach need not be:
behind a return or a loop control the value of an expression may be a variable of another type. So
safety is not a property of each instruction but of the ways through the code, for any number of
steps (`Safe`), and what follows a fragment has to be safe only if the value of the fragment has its
type.
-/
import Exprc.Proofs.Lowering.Labels

namespace Exprc.Lowering

open Syntax IR Typing

/-! ## Safe code -/

/-- A variable holds values of a type, where `Θ` gives the types of the temporaries. -/
def Typed (Θ : List (Nat × Ty)) : Var → Ty → Prop
  | .temp n, τ => (n, τ) ∈ Θ
  | .unit, τ => τ = .unit
  | .named _, _ => False

theorem Typed.mono {Θ Θ' : List (Nat × Ty)} (h : Θ ⊆ Θ') {v : Var} {τ : Ty} (hv : Typed Θ v τ) :
    Typed Θ' v τ := by
  cases v with
  | temp n => exact h hv
  | unit => exact hv
  | named x => exact hv

/-- A name can be called with arguments of some types and gives a result of some type. -/
def Callable (sig : String → Option Signature) (name : String) (τs : List Ty) (τ : Ty) : Prop :=
  sig name = some ⟨τs, τ⟩ ∨ ∃ b : Builtin, b.name = name ∧ operatorResult b τs = .ok τ

/-- What is left of the code of a function is safe for some number of steps of the function; calls
count as one. `ρ` is the type of what the function returns. -/
def Safe (sig : String → Option Signature) (Θ : List (Nat × Ty)) (ρ : Ty) (F : Function) :
    Nat → List Instruction → Prop
  | 0, _ => True
  | _ + 1, [] => Typed Θ F.result ρ
  | n + 1, i :: rest =>
    match i.op with
    | .loadInt _ target => Typed Θ target .int ∧ Safe sig Θ ρ F n rest
    | .loadBool _ target => Typed Θ target .bool ∧ Safe sig Θ ρ F n rest
    | .copy source target =>
      (∃ τ, Typed Θ source τ ∧ Typed Θ target τ) ∧ Safe sig Θ ρ F n rest
    | .call callee arguments target =>
      (∃ name τs τ, callee = .named name ∧ Callable sig name τs τ ∧
        List.Forall₂ (Typed Θ) arguments τs ∧ Typed Θ target τ) ∧ Safe sig Θ ρ F n rest
    | .label _ => Safe sig Θ ρ F n rest
    | .jump l => ∃ code, codeBehind? l F.code = some code ∧ Safe sig Θ ρ F n code
    | .branch condition ifTrue ifFalse =>
      Typed Θ condition .bool ∧
      (∃ code, codeBehind? ifTrue F.code = some code ∧ Safe sig Θ ρ F n code) ∧
      ∃ code, codeBehind? ifFalse F.code = some code ∧ Safe sig Θ ρ F n code
    | .leave value => Typed Θ value ρ

namespace Safe

variable {sig : String → Option Signature} {Θ : List (Nat × Ty)} {ρ : Ty} {F : Function}
  {n : Nat} {rest code code' : List Instruction} {location : Location}

theorem succ (h : Safe sig Θ ρ F (n + 1) code) : Safe sig Θ ρ F n code := by
  induction n generalizing code with
  | zero => trivial
  | succ n ih =>
    cases code with
    | nil => exact h
    | cons i rest =>
      unfold Safe at h ⊢
      split at h
      case h_1 | h_2 | h_3 | h_4 => exact ⟨h.1, ih h.2⟩
      case h_5 => exact ih h
      case h_6 => obtain ⟨code, hc, hs⟩ := h; exact ⟨code, hc, ih hs⟩
      case h_7 =>
        obtain ⟨hc, ⟨a, ha, hsa⟩, b, hb, hsb⟩ := h
        exact ⟨hc, ⟨a, ha, ih hsa⟩, b, hb, ih hsb⟩
      case h_8 => exact h

theorem mono {m : Nat} (hm : m ≤ n) (h : Safe sig Θ ρ F n code) : Safe sig Θ ρ F m code := by
  induction hm with
  | refl => exact h
  | step _ ih => exact ih h.succ

/-! ### Instructions -/

theorem loadInt {value : Int64} {target : Var} (ht : Typed Θ target .int)
    (h : Safe sig Θ ρ F n rest) : Safe sig Θ ρ F n (⟨location, .loadInt value target⟩ :: rest) := by
  cases n with
  | zero => trivial
  | succ n => exact ⟨ht, h.succ⟩

theorem loadBool {value : Bool} {target : Var} (ht : Typed Θ target .bool)
    (h : Safe sig Θ ρ F n rest) : Safe sig Θ ρ F n (⟨location, .loadBool value target⟩ :: rest) := by
  cases n with
  | zero => trivial
  | succ n => exact ⟨ht, h.succ⟩

theorem copy {source target : Var} {τ : Ty} (hs : Typed Θ source τ) (ht : Typed Θ target τ)
    (h : Safe sig Θ ρ F n rest) : Safe sig Θ ρ F n (⟨location, .copy source target⟩ :: rest) := by
  cases n with
  | zero => trivial
  | succ n => exact ⟨⟨τ, hs, ht⟩, h.succ⟩

theorem call {name : String} {arguments : List Var} {target : Var} {τs : List Ty} {τ : Ty}
    (hc : Callable sig name τs τ) (ha : List.Forall₂ (Typed Θ) arguments τs) (ht : Typed Θ target τ)
    (h : Safe sig Θ ρ F n rest) :
    Safe sig Θ ρ F n (⟨location, .call (.named name) arguments target⟩ :: rest) := by
  cases n with
  | zero => trivial
  | succ n => exact ⟨⟨name, τs, τ, rfl, hc, ha, ht⟩, h.succ⟩

theorem label {l : Label} (h : Safe sig Θ ρ F n rest) :
    Safe sig Θ ρ F n (⟨location, .label l⟩ :: rest) := by
  cases n with
  | zero => trivial
  | succ n => exact h.succ

theorem jump {l : Label} (hl : codeBehind? l F.code = some code)
    (h : ∀ m < n, Safe sig Θ ρ F m code) : Safe sig Θ ρ F n (⟨location, .jump l⟩ :: rest) := by
  cases n with
  | zero => trivial
  | succ n => exact ⟨code, hl, h n (Nat.lt_succ_self n)⟩

theorem branch {condition : Var} {a b : Label} (hc : Typed Θ condition .bool)
    (ha : codeBehind? a F.code = some code) (hb : codeBehind? b F.code = some code')
    (h : ∀ m < n, Safe sig Θ ρ F m code) (h' : ∀ m < n, Safe sig Θ ρ F m code') :
    Safe sig Θ ρ F n (⟨location, .branch condition a b⟩ :: rest) := by
  cases n with
  | zero => trivial
  | succ n =>
    exact ⟨hc, ⟨code, ha, h n (Nat.lt_succ_self n)⟩, code', hb, h' n (Nat.lt_succ_self n)⟩

theorem leave {value : Var} (hv : Typed Θ value ρ) :
    Safe sig Θ ρ F n (⟨location, .leave value⟩ :: rest) := by
  cases n with
  | zero => trivial
  | succ n => exact hv

end Safe

/-! ## Fragments -/

/-- A value of some type is in a variable that has this type, or in the unit variable if the value is
never reached. -/
def Holds (Θ : List (Nat × Ty)) (v : Var) (τ : Ty) : Prop := v = .unit ∨ Typed Θ v τ

/-- The labels of the loop around an expression, if there is one, lead to safe code. -/
def LoopSafe (sig : String → Option Signature) (Θ : List (Nat × Ty)) (ρ : Ty) (F : Function)
    (loop? : Option LoopLabels) (n : Nat) : Prop :=
  ∀ labels, loop? = some labels → ∀ c, ∃ code, codeBehind? (labels.target c) F.code = some code ∧
    Safe sig Θ ρ F n code

theorem LoopSafe.none {sig : String → Option Signature} {Θ : List (Nat × Ty)} {ρ : Ty}
    {F : Function} {n : Nat} : LoopSafe sig Θ ρ F none n := fun _ h => nomatch h

theorem LoopSafe.mono {sig : String → Option Signature} {Θ : List (Nat × Ty)} {ρ : Ty}
    {F : Function} {loop? : Option LoopLabels} {m n : Nat} (hm : m ≤ n)
    (h : LoopSafe sig Θ ρ F loop? n) : LoopSafe sig Θ ρ F loop? m := by
  intro labels hl c
  obtain ⟨code, hc, hs⟩ := h labels hl c
  exact ⟨code, hc, hs.mono hm⟩

section Fragments

variable {sig : String → Option Signature} {ρ? : Option Ty} {Θ : List (Nat × Ty)} {ρ : Ty}
  {F : Function}

theorem Stage.Extends.temps_subset {s s' : Stage} (h : s.Extends s') (hΘ : s'.temps ⊆ Θ) :
    s.temps ⊆ Θ :=
  List.Subset.trans h.temps.subset hΘ

theorem Stage.WF.typed_local {s : Stage} (h : s.WF) {x : String} {l : Local}
    (hl : s.locals.find? x = some l) (hΘ : s.temps ⊆ Θ) : Typed Θ (.temp l.temp) l.ty := by
  obtain ⟨-, frame, hf, hm⟩ := Locals.mem_of_find? hl
  exact hΘ (h.locals_typed frame hf l hm)

/-- The variable that branches merge into has the type of the branches. -/
theorem Merges.typed {location : Location} {τ : Ty} {s s' : Stage} {v : Var} {m : Fragment}
    (h : Merges location τ s v m s') (hv : Holds s.temps v τ) : Typed s'.temps m.value τ := by
  cases h with
  | reuse ht _ =>
    rcases hv with rfl | hv
    · cases ht
    · exact hv
  | copy => exact List.mem_cons_self

theorem Merges.safe {location : Location} {τ : Ty} {s s' : Stage} {v : Var} {m : Fragment} {n : Nat}
    {post : List Instruction} (h : Merges location τ s v m s') (hv : Typed Θ v τ)
    (hm : Typed Θ m.value τ) (hpost : Safe sig Θ ρ F n post) :
    Safe sig Θ ρ F n (m.code ++ post) := by
  cases h with
  | reuse => exact hpost
  | copy => exact .copy hv hm hpost

mutual

/-- Only the unit variable stands for values that it cannot have. -/
theorem Lowers.holds :
    ∀ {loop? : Option LoopLabels} {s s' : Stage} {e : Expr} {τ : Ty} {f : Fragment},
      Lowers sig ρ? loop? s e τ f s' → s.WF → Holds s'.temps f.value τ
  | _, _, _, _, _, _, .int, _ | _, _, _, _, _, _, .bool, _
  | _, _, _, _, _, _, .unary .., _ | _, _, _, _, _, _, .binary .., _
  | _, _, _, _, _, _, .call .., _ | _, _, _, _, _, _, .shortCircuit .., _ =>
    .inr List.mem_cons_self
  | _, _, _, _, _, _, .unit, _ | _, _, _, _, _, _, .ifThen .., _
  | _, _, _, _, _, _, .ifElseUnit .., _ | _, _, _, _, _, _, .loop .., _
  | _, _, _, _, _, _, .declare .., _ | _, _, _, _, _, _, .control, _
  | _, _, _, _, _, _, .leave _, _ | _, _, _, _, _, _, .leaveWith .., _ => .inl rfl
  | _, _, _, _, _, _, .name hl, hs => .inr (hs.typed_local hl fun _ h => h)
  | _, _, _, _, _, _, .assign _ h, hs => h.holds hs
  | _, _, _, _, _, _, .block h, hs => h.holds hs.enter (.inl rfl)
  | _, _, _, _, _, _, .ifElse _ _ h₁ h₂ hm h₃, hs =>
    .inr ((hm.typed (h₂.holds (h₁.wf (hs.withLabels 3)))).mono h₃.extends.temps.subset)

theorem LowersStatements.holds :
    ∀ {loop? : Option LoopLabels} {s s' : Stage} {es : List Expr} {τ₀ : Ty} {last : Var} {τ : Ty}
      {f : Fragment}, LowersStatements sig ρ? loop? s es τ₀ last τ f s' → s.WF →
      Holds s.temps last τ₀ → Holds s'.temps f.value τ
  | _, _, _, _, _, _, _, _, .nil, _, hlast => hlast
  | _, _, _, _, _, _, _, _, .cons h hs', hs, _ => hs'.holds (h.wf hs) (h.holds hs)

end

mutual

/-- A fragment is safe if what follows it is safe when its value has its type. -/
theorem Lowers.safe (hF : Unambiguous F.code) (hρ : ∀ r, ρ? = some r → r = ρ) :
    ∀ {loop? : Option LoopLabels} {s s' : Stage} {e : Expr} {τ : Ty} {f : Fragment},
      Lowers sig ρ? loop? s e τ f s' → s.WF → s'.temps ⊆ Θ →
      ∀ {n : Nat} {post : List Instruction}, f.code ++ post <:+ F.code →
        LoopSafe sig Θ ρ F loop? n → (Typed Θ f.value τ → Safe sig Θ ρ F n post) →
        Safe sig Θ ρ F n (f.code ++ post)
  | _, s, _, _, _, _, .int, _, hΘ, _, _, _, _, hpost => by
    have ht : Typed Θ (.temp s.nextTemp) .int := hΘ List.mem_cons_self
    exact .loadInt ht (hpost ht)
  | _, s, _, _, _, _, .bool, _, hΘ, _, _, _, _, hpost => by
    have ht : Typed Θ (.temp s.nextTemp) .bool := hΘ List.mem_cons_self
    exact .loadBool ht (hpost ht)
  | _, _, _, _, _, _, .unit, _, _, _, _, _, _, hpost => hpost rfl
  | _, _, _, _, _, _, .name hl, hs, hΘ, _, _, _, _, hpost => hpost (hs.typed_local hl hΘ)
  | _, _, _, _, υ, _, .unary h hop, hs, hΘ, _, _, hcode, hloop, hpost => by
    have ht : Typed Θ (.temp _) _ := hΘ List.mem_cons_self
    rw [applied, List.append_assoc] at hcode ⊢
    exact h.safe hF hρ hs (List.subset_of_cons_subset hΘ) hcode hloop fun ha =>
      .call (.inr ⟨_, rfl, hop⟩) ha ht (hpost ht)
  | _, _, _, _, υ, _, .binary _ h hop, hs, hΘ, _, _, hcode, hloop, hpost => by
    have ht : Typed Θ (.temp _) _ := hΘ List.mem_cons_self
    rw [applied, List.append_assoc] at hcode ⊢
    exact h.safe hF hρ hs (List.subset_of_cons_subset hΘ) hcode hloop fun ha =>
      .call (.inr ⟨_, rfl, hop⟩) ha ht (hpost ht)
  | _, _, _, _, _, _, .call _ hσ h, hs, hΘ, _, _, hcode, hloop, hpost => by
    have ht : Typed Θ (.temp _) _ := hΘ List.mem_cons_self
    rw [applied, List.append_assoc] at hcode ⊢
    exact h.safe hF hρ hs (List.subset_of_cons_subset hΘ) hcode hloop fun ha =>
      .call (.inl hσ) ha ht (hpost ht)
  | _, s, _, .binary _ op _ _ _, _, _, .shortCircuit _ h₁ h₂, hs, hΘ, n, _, hcode, hloop, hpost => by
    have ht : Typed Θ (.temp _) _ := hΘ List.mem_cons_self
    have hΘ₂ : _ ⊆ Θ := List.subset_of_cons_subset hΘ
    have hs₀ := hs.withLabels 3
    simp only [emit, List.map_cons, List.map_nil, List.append_assoc, List.cons_append,
      List.nil_append] at hcode ⊢
    obtain ⟨hcode₂, hright, hskip, hdone⟩ := hF.shortCircuit hcode
    refine h₁.safe hF hρ hs₀ (h₂.extends.temps_subset hΘ₂) hcode hloop fun hv => ?_
    have hjump : ∀ {location rest},
        Safe sig Θ ρ F n (⟨location, .jump ⟨s.nextLabel + 2⟩⟩ :: rest) :=
      .jump hdone fun k hk => (hpost ht).mono (Nat.le_of_lt hk)
    have hr := h₂.safe hF hρ (h₁.wf hs₀) hΘ₂ hcode₂ hloop
      fun hv => .copy hv ht hjump
    have hk : ∀ {location rest}, Safe sig Θ ρ F n (⟨location, .loadBool (op == .logicalOr) _⟩ ::
        ⟨location, .jump ⟨s.nextLabel + 2⟩⟩ :: rest) :=
      .loadBool ht hjump
    split
    · exact .branch hv hskip hright (fun m hm => hk.mono (Nat.le_of_lt hm))
        fun m hm => hr.mono (Nat.le_of_lt hm)
    · exact .branch hv hright hskip (fun m hm => hr.mono (Nat.le_of_lt hm))
        fun m hm => hk.mono (Nat.le_of_lt hm)
  | _, _, _, _, _, _, .assign hl h, hs, hΘ, _, _, hcode, hloop, hpost => by
    rw [List.append_assoc] at hcode ⊢
    exact h.safe hF hρ hs hΘ hcode hloop fun hv =>
      .copy hv (hs.typed_local hl (h.extends.temps_subset hΘ)) (hpost hv)
  | _, _, _, _, _, _, .ifThen h₁ h₂, hs, hΘ, _, _, hcode, hloop, hpost => by
    have hs₀ := hs.withLabels 2
    simp only [emit, List.map_cons, List.map_nil, List.append_assoc, List.cons_append,
      List.nil_append] at hcode ⊢
    obtain ⟨hcode₂, hyes, hdone⟩ := hF.ifThen hcode
    refine h₁.safe hF hρ hs₀ (h₂.extends.temps_subset hΘ) hcode hloop fun hv => ?_
    have ht := h₂.safe hF hρ (h₁.wf hs₀) hΘ hcode₂ hloop fun _ => .label (hpost rfl)
    exact .branch hv hyes hdone (fun m hm => ht.mono (Nat.le_of_lt hm))
      fun m hm => (hpost rfl).mono (Nat.le_of_lt hm)
  | _, _, _, _, _, _, .ifElseUnit _ h₁ h₂ h₃, hs, hΘ, _, _, hcode, hloop, hpost => by
    have hs₀ := hs.withLabels 3
    have hΘ₂ := h₃.extends.temps_subset hΘ
    simp only [emit, List.map_cons, List.map_nil, List.append_assoc, List.cons_append,
      List.nil_append] at hcode ⊢
    obtain ⟨hcode₂, hcode₃, hyes, hno, hdone⟩ := hF.ifElse (m := []) (c := []) hcode
    refine h₁.safe hF hρ hs₀ (h₂.extends.temps_subset hΘ₂) hcode hloop fun hv => ?_
    have ht := h₂.safe hF hρ (h₁.wf hs₀) hΘ₂ hcode₂ hloop fun _ =>
      .jump hdone fun m hm => (hpost rfl).mono (Nat.le_of_lt hm)
    have he := h₃.safe hF hρ (h₂.wf (h₁.wf hs₀)) hΘ hcode₃ hloop fun _ => .label (hpost rfl)
    exact .branch hv hyes hno (fun m hm => ht.mono (Nat.le_of_lt hm))
      fun m hm => he.mono (Nat.le_of_lt hm)
  | _, _, _, _, τ, _, .ifElse _ _ h₁ h₂ hm h₃, hs, hΘ, _, _, hcode, hloop, hpost => by
    have hs₀ := hs.withLabels 3
    have hs₂ := h₂.wf (h₁.wf hs₀)
    have hΘ₃ := h₃.extends.temps_subset hΘ
    have hΘ₂ := hm.extends.temps_subset hΘ₃
    simp only [emit, List.map_cons, List.map_nil, List.append_assoc, List.cons_append,
      List.nil_append] at hcode ⊢
    obtain ⟨hcode₂, hcode₃, hyes, hno, hdone⟩ := hF.ifElse (c := [_]) hcode
    refine h₁.safe hF hρ hs₀ (h₂.extends.temps_subset hΘ₂) hcode hloop fun hv => ?_
    -- the merged variable has the type if the value of the first branch has it
    have hmv := (hm.typed (h₂.holds (h₁.wf hs₀))).mono hΘ₃
    have ht := h₂.safe hF hρ (h₁.wf hs₀) hΘ₂ hcode₂ hloop fun hv =>
      hm.safe hv hmv (.jump hdone fun m hm => (hpost hmv).mono (Nat.le_of_lt hm))
    have he := h₃.safe hF hρ (hm.wf hs₂) hΘ hcode₃ hloop fun hv =>
      .copy hv hmv (.label (hpost hmv))
    exact .branch hv hyes hno (fun m hm => ht.mono (Nat.le_of_lt hm))
      fun m hm => he.mono (Nat.le_of_lt hm)
  | _, s, _, _, _, _, .loop (f := f) (g := g) h₁ h₂, hs, hΘ, n, post, hcode, hloop, hpost => by
    have hs₀ := hs.withLabels 3
    simp only [emit, List.map_cons, List.map_nil, List.append_assoc, List.cons_append,
      List.nil_append] at hcode ⊢
    obtain ⟨hcode₂, hstart, hbody, hexit⟩ := hF.loop hcode
    -- every way back to the start of the loop takes a step
    refine .label ((?_ : ∀ m ≤ n, Safe sig Θ ρ F m _) n (Nat.le_refl n))
    intro m
    induction m using Nat.strongRecOn with
    | ind m ih =>
      intro hm
      refine h₁.safe hF hρ hs₀ (h₂.extends.temps_subset hΘ) (suffix_drop 1 hcode) (hloop.mono hm)
        fun hv => ?_
      refine .branch hv hbody hexit (fun k hk => ?_) fun k hk => (hpost rfl).mono (by omega)
      have hback := ih k hk (by omega)
      refine h₂.safe hF hρ (h₁.wf hs₀) hΘ hcode₂ ?_ fun _ =>
        .jump hstart fun i hi => hback.mono (Nat.le_of_lt hi)
      intro labels hl c
      obtain rfl := Option.some.inj hl
      cases c with
      | exit => exact ⟨_, hexit, (hpost rfl).mono (by omega)⟩
      | next => exact ⟨_, hstart, hback⟩
  | _, _, _, _, _, _, .block h, hs, hΘ, _, _, hcode, hloop, hpost =>
    h.safe hF hρ hs.enter hΘ rfl hcode hloop hpost
  | _, _, _, _, _, _, .declare h, hs, hΘ, _, _, hcode, hloop, hpost => by
    have ht : Typed Θ (.temp _) _ := hΘ List.mem_cons_self
    rw [List.append_assoc] at hcode ⊢
    exact h.safe hF hρ hs (List.subset_of_cons_subset hΘ) hcode hloop fun hv =>
      .copy hv ht (hpost rfl)
  | _, _, _, .control _ c, _, _, .control, _, _, n, _, _, hloop, _ => by
    obtain ⟨code, hl, hc⟩ := hloop _ rfl c
    exact .jump hl fun m hm => hc.mono (Nat.le_of_lt hm)
  | _, _, _, _, _, _, .leave hr, _, _, _, _, _, _, _ => .leave (hρ _ hr).symm
  | _, _, _, _, _, _, .leaveWith hr h, hs, hΘ, _, _, hcode, hloop, _ => by
    rw [List.append_assoc] at hcode ⊢
    exact h.safe hF hρ hs hΘ hcode hloop fun hv => .leave (hρ _ hr ▸ hv)

theorem LowersStatements.safe (hF : Unambiguous F.code) (hρ : ∀ r, ρ? = some r → r = ρ) :
    ∀ {loop? : Option LoopLabels} {s s' : Stage} {es : List Expr} {τ₀ : Ty} {last : Var} {τ : Ty}
      {f : Fragment}, LowersStatements sig ρ? loop? s es τ₀ last τ f s' → s.WF → s'.temps ⊆ Θ →
      Typed Θ last τ₀ →
      ∀ {n : Nat} {post : List Instruction}, f.code ++ post <:+ F.code →
        LoopSafe sig Θ ρ F loop? n → (Typed Θ f.value τ → Safe sig Θ ρ F n post) →
        Safe sig Θ ρ F n (f.code ++ post)
  | _, _, _, _, _, _, _, _, .nil, _, _, hlast, _, _, _, _, hpost => hpost hlast
  | _, _, _, _, _, _, _, _, .cons h hs', hs, hΘ, hlast, _, _, hcode, hloop, hpost => by
    rw [List.append_assoc] at hcode ⊢
    refine h.safe hF hρ hs (hs'.extends.temps_subset hΘ) hcode hloop fun hv => ?_
    exact hs'.safe hF hρ (h.wf hs) hΘ hv (suffix_of_append hcode) hloop hpost

theorem LowersArguments.safe (hF : Unambiguous F.code) (hρ : ∀ r, ρ? = some r → r = ρ) :
    ∀ {loop? : Option LoopLabels} {s s' : Stage} {es : List Expr} {τs : List Ty}
      {fs : List Fragment}, LowersArguments sig ρ? loop? s es τs fs s' → s.WF → s'.temps ⊆ Θ →
      ∀ {n : Nat} {post : List Instruction}, fs.flatMap (·.code) ++ post <:+ F.code →
        LoopSafe sig Θ ρ F loop? n →
        (List.Forall₂ (Typed Θ) (fs.map (·.value)) τs → Safe sig Θ ρ F n post) →
        Safe sig Θ ρ F n (fs.flatMap (·.code) ++ post)
  | _, _, _, _, _, _, .nil, _, _, _, _, _, _, hpost => hpost .nil
  | _, _, _, _, _, _, .cons h hs', hs, hΘ, _, _, hcode, hloop, hpost => by
    rw [List.flatMap_cons, List.append_assoc] at hcode ⊢
    refine h.safe hF hρ hs (hs'.extends.temps_subset hΘ) hcode hloop fun hv => ?_
    exact hs'.safe hF hρ (h.wf hs) hΘ (suffix_of_append hcode) hloop fun ha => hpost (.cons hv ha)

end

/-! ## Functions -/

/-- The parameters of a function have the types that are declared. -/
theorem typed_parameters :
    ∀ (ps : List Parameter) (s : Stage), (s.declareAll ps).temps ⊆ Θ →
      List.Forall₂ (Typed Θ) ((List.range' s.nextTemp ps.length).map .temp)
        (ps.map (·.written.ty))
  | [], _, _ => .nil
  | p :: ps, s, hΘ => by
    refine .cons ?_ (typed_parameters ps (s.declare p.name.text p.written.ty) hΘ)
    exact (Stage.Extends.declareAll _ ps).temps_subset hΘ List.mem_cons_self

/-- Code that ends with a fragment whose value the function returns is safe. -/
theorem Lowers.safe_end (hF : Unambiguous F.code) (hρ : ∀ r, ρ? = some r → r = ρ) {s s' : Stage}
    {e : Expr} {g : Fragment} (h : Lowers sig ρ? none s e ρ g s') (hs : s.WF) (hΘ : s'.temps ⊆ Θ)
    (hcode : F.code = g.code) (hresult : F.result = g.value) (n : Nat) :
    Safe sig Θ ρ F n F.code := by
  have hend : g.code ++ [] <:+ F.code := by simp only [List.append_nil, hcode, List.suffix_refl]
  rw [hcode, ← List.append_nil g.code]
  refine h.safe hF hρ hs hΘ hend .none fun hv => ?_
  cases n with
  | zero => trivial
  | succ n =>
    change Typed Θ F.result ρ
    rw [hresult]
    exact hv

/-- The code of a declared function is safe. -/
theorem LowersFunction.safe {s s' : Stage} {f : FunctionDefinition} {F : Function}
    (h : LowersFunction sig s f F s') (hs : s.Outside) :
    List.Forall₂ (Typed s'.temps) F.parameters f.signature.parameters ∧
      ∀ n, Safe sig s'.temps f.result.ty F n F.code := by
  have hF := h.unambiguous
  cases h with
  | @intro s₁ _ g hg =>
    have hparams : List.Forall₂ (Typed s₁.temps) _ _ :=
      typed_parameters f.parameters s.enter (hg.extends.temps_subset (List.Subset.refl _))
    refine ⟨hparams, fun n => ?_⟩
    have hρ : ∀ r, some f.result.ty = some r → r = f.result.ty :=
      fun r hr => (Option.some.inj hr).symm
    have hwf := hs.wf.enter.declareAll f.parameters
    by_cases hr : f.body.endsInReturn = true
    · exact hg.safe_end hF hρ hwf (List.Subset.refl _) (if_pos hr) rfl n
    · dsimp only at hF ⊢
      simp only [if_neg hr] at hF ⊢
      exact hg.safe hF hρ hwf (List.Subset.refl _) (List.suffix_refl _) .none fun hv => .leave hv

theorem printer?_operatorResult {τ : Ty} {b : Builtin} (h : printer? τ = some b) :
    operatorResult b [τ] = .ok .unit := by
  cases τ <;> simp only [printer?, reduceCtorEq, Option.some.injEq] at h <;> subst h <;> rfl

/-- The code of the top-level statements is safe. -/
theorem LowersEntry.safe {s s' : Stage} {e : Expr} {τ : Ty} {F : Function}
    (h : LowersEntry sig s e τ F s') (hs : s.Outside) (n : Nat) :
    Safe sig s'.temps τ F n F.code := by
  have hF := h.unambiguous
  have hρ : ∀ r, none = some r → r = τ := by simp
  cases h with
  | silent hg _ =>
    exact hg.safe_end hF hρ hs.wf (List.Subset.refl _) rfl rfl n
  | @printing s₁ _ _ g b hg hb =>
    dsimp only at hF ⊢
    have ht : Typed (s₁.withTemp .unit).temps (.temp s₁.nextTemp) .unit := List.mem_cons_self
    simp only [applied, List.flatMap_cons, List.flatMap_nil, List.append_nil] at hF ⊢
    refine hg.safe hF hρ hs.wf (List.subset_cons_self _ _)
      (List.suffix_refl _) .none fun hv => ?_
    refine .call (.inr ⟨b, rfl, printer?_operatorResult hb⟩) (.cons hv .nil) ht ?_
    cases n <;> [trivial; exact hv]

end Fragments

end Exprc.Lowering
