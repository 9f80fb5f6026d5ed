/-
Scopes in which parameters and variables have other names. A renaming gives different names to different ones,
and no name of a function unless it keeps it (`Renaming`). Then a name that is used finds under its new name what
corresponds to what it found before, a name that can be declared can be declared under its new name, and this
stays so when scopes are opened, closed and extended (`Renames`).
-/
import Exprc.Proofs.Renaming.Tree
import Exprc.Proofs.Scope.Frames
import Exprc.Proofs.Typing.Functions

namespace Exprc

open Syntax

/-- Other names for local variables. -/
structure Renaming where
  /-- The new name of a local variable. -/
  name : String → String
  /-- The names of local variables. -/
  locals : Set String
  /-- The names of functions. -/
  globals : Set String
  injOn : Set.InjOn name locals
  /-- Only a variable that has the name of a function already may get it. -/
  free : ∀ x ∈ locals, name x ∈ globals → name x = x

namespace Renaming

/-- The names that can be declared so. -/
def names (ρ : Renaming) (d : Declaration) : Set String := if d.isLocal then ρ.locals else ρ.globals

/-- Everything keeps its name. -/
def keep : Renaming := ⟨id, Set.univ, Set.univ, Set.injOn_id _, fun _ _ _ => rfl⟩

/-- Different names stay different. -/
theorem rename_ne (ρ : Renaming) {d d' : Declaration} {x y : String} (hx : x ∈ ρ.names d) (hy : y ∈ ρ.names d')
    (hne : x ≠ y) : d.rename ρ.name x ≠ d'.rename ρ.name y := by
  unfold names at hx hy
  unfold Declaration.rename
  cases hd : d.isLocal <;> cases hd' : d'.isLocal <;> simp only [hd, hd', if_true, if_false, Bool.false_eq_true] at *
  · exact hne
  · intro he
    exact hne (he.trans (ρ.free y hy (he ▸ hx)))
  · intro he
    exact hne ((ρ.free x hx (he ▸ hy)).symm.trans he)
  · exact fun he => hne (ρ.injOn hx hy he)

end Renaming

/-! ## Frames -/

section

variable {β β' : Type}

/-- Two frames bind the declared names to things that correspond, the second one under their new names, and
bind no others. -/
structure RenamesFrame (ρ : Renaming) (R : β → β' → Prop) (ds : List (String × Declaration))
    (bs : List (String × β)) (bs' : List (String × β')) : Prop where
  declared : ∀ x d, ds.lookup x = some d → x ∈ ρ.names d ∧
    ∃ b b', bs.lookup x = some b ∧ bs'.lookup (d.rename ρ.name x) = some b' ∧ R b b'
  absent : ∀ x, ds.lookup x = none → bs.lookup x = none ∧
    ∀ d : Declaration, x ∈ ρ.names d → bs'.lookup (d.rename ρ.name x) = none

namespace RenamesFrame

variable {ρ : Renaming} {R : β → β' → Prop} {ds : List (String × Declaration)} {bs : List (String × β)}
  {bs' : List (String × β')}

theorem nil : RenamesFrame ρ R [] [] [] := ⟨nofun, fun _ _ => ⟨rfl, fun _ _ => rfl⟩⟩

/-- One more name is declared. -/
theorem declare (h : RenamesFrame ρ R ds bs bs') {x : String} {d : Declaration} {b : β} {b' : β'}
    (hx : x ∈ ρ.names d) (hb : R b b') :
    RenamesFrame ρ R ((x, d) :: ds) ((x, b) :: bs) ((d.rename ρ.name x, b') :: bs') where
  declared y d' hy := by
    rw [List.lookup_cons] at hy ⊢
    by_cases he : y = x
    · subst he
      rw [beq_self_eq_true] at hy
      cases hy
      exact ⟨hx, b, b', by simp, by simp, hb⟩
    · rw [beq_eq_false_iff_ne.2 he] at hy ⊢
      obtain ⟨hmem, c, c', hc, hc', hR⟩ := h.declared y d' hy
      refine ⟨hmem, c, c', hc, ?_, hR⟩
      rwa [List.lookup_cons, beq_eq_false_iff_ne.2 (ρ.rename_ne hmem hx he)]
  absent y hy := by
    rw [List.lookup_cons] at hy ⊢
    by_cases he : y = x
    · rw [he, beq_self_eq_true] at hy
      cases hy
    · rw [beq_eq_false_iff_ne.2 he] at hy ⊢
      obtain ⟨hnone, hnone'⟩ := h.absent y hy
      refine ⟨hnone, fun d' hd' => ?_⟩
      rw [List.lookup_cons, beq_eq_false_iff_ne.2 (ρ.rename_ne hd' hx he)]
      exact hnone' d' hd'

end RenamesFrame

/-! ## Stacks -/

/-- Two stacks bind the declared names frame by frame, the second one under their new names. -/
inductive RenamesStack (ρ : Renaming) (R : β → β' → Prop) : Stack Declaration → Stack β → Stack β' → Prop
  | nil : RenamesStack ρ R [] [] []
  | cons {ds : List (String × Declaration)} {bs : List (String × β)} {bs' : List (String × β')}
      {D : Stack Declaration} {B : Stack β} {B' : Stack β'} :
      RenamesFrame ρ R ds bs bs' → RenamesStack ρ R D B B' → RenamesStack ρ R (ds :: D) (bs :: B) (bs' :: B')

namespace RenamesStack

variable {ρ : Renaming} {R : β → β' → Prop} {D : Stack Declaration} {B : Stack β} {B' : Stack β'}

theorem find?_none (h : RenamesStack ρ R D B B') {x : String} (hx : D.find? x = none) : B.find? x = none := by
  induction h with
  | nil => rfl
  | cons hframe _ ih =>
    rw [Stack.find?_cons, Option.or_eq_none_iff] at hx
    rw [Stack.find?_cons, (hframe.absent x hx.1).1, Option.none_or]
    exact ih hx.2

theorem find?_some (h : RenamesStack ρ R D B B') {x : String} {d : Declaration} (hx : D.find? x = some d) :
    x ∈ ρ.names d ∧ ∃ b b', B.find? x = some b ∧ B'.find? (d.rename ρ.name x) = some b' ∧ R b b' := by
  induction h with
  | nil => cases hx
  | @cons ds _ _ _ _ _ hframe _ ih =>
    rw [Stack.find?_cons] at hx ⊢
    cases hds : ds.lookup x with
    | some d' =>
      rw [hds, Option.some_or] at hx
      cases hx
      obtain ⟨hmem, b, b', hb, hb', hR⟩ := hframe.declared x d hds
      exact ⟨hmem, b, b', by rw [hb, Option.some_or], by rw [Stack.find?_cons, hb', Option.some_or], hR⟩
    | none =>
      rw [hds, Option.none_or] at hx
      obtain ⟨hmem, b, b', hb, hb', hR⟩ := ih hx
      obtain ⟨hnone, hnone'⟩ := hframe.absent x hds
      refine ⟨hmem, b, b', by rw [hnone, Option.none_or, hb], ?_, hR⟩
      rw [Stack.find?_cons, hnone' d hmem, Option.none_or, hb']

/-- What a name finds it finds under its new name. -/
theorem find? (h : RenamesStack ρ R D B B') {x : String} {b : β} (hb : B.find? x = some b) :
    ∃ b', B'.find? (renamedUse ρ.name D x) = some b' ∧ R b b' := by
  cases hx : D.find? x with
  | none =>
    rw [h.find?_none hx] at hb
    cases hb
  | some d =>
    obtain ⟨-, c, b', hc, hb', hR⟩ := h.find?_some hx
    obtain rfl : c = b := Option.some.inj (hc.symm.trans hb)
    exact ⟨b', by rw [renamedUse, hx]; exact hb', hR⟩

end RenamesStack

/-! ## Chains of scopes -/

/-- Two chains of scopes bind the declared names, the second one under their new names. -/
def Renames (ρ : Renaming) (R : β → β' → Prop) (D : Stack Declaration) (s : ScopeChain β) (s' : ScopeChain β') :
    Prop :=
  RenamesStack ρ R D s.stack s'.stack

namespace Renames

variable {ρ : Renaming} {R : β → β' → Prop} {D : Stack Declaration} {s s₁ : ScopeChain β} {s' : ScopeChain β'}

theorem resolve? (h : Renames ρ R D s s') {x : String} {b : β} (hb : s.resolve? x = some b) :
    ∃ b', s'.resolve? (renamedUse ρ.name D x) = some b' ∧ R b b' := by
  rw [s.resolve?_eq] at hb
  rw [s'.resolve?_eq]
  exact h.find? hb

theorem push (h : Renames ρ R D s s') : Renames ρ R ([] :: D) s.push s'.push := by
  rw [Renames, s.stack_push, s'.stack_push]
  exact .cons .nil h

/-- Some scope is open. -/
theorem exists_cons (h : Renames ρ R D s s') : ∃ frame D', D = frame :: D' := by
  obtain ⟨B, hB⟩ := s.stack_eq_cons
  obtain ⟨B', hB'⟩ : ∃ B', s'.stack = B' := ⟨_, rfl⟩
  rw [Renames, hB, hB'] at h
  cases h with
  | cons => exact ⟨_, _, rfl⟩

theorem close {frame frame' : List (String × Declaration)} (h : Renames ρ R (frame :: frame' :: D) s s') :
    Renames ρ R (frame' :: D) s.close s'.close := by
  obtain ⟨B, hB⟩ : ∃ B, s.stack = B := ⟨_, rfl⟩
  obtain ⟨B', hB'⟩ : ∃ B', s'.stack = B' := ⟨_, rfl⟩
  rw [Renames, hB, hB'] at h
  cases h with
  | cons _ h =>
    cases h with
    | cons hframe hbelow =>
      rw [Renames, ScopeChain.stack_close hB, ScopeChain.stack_close hB']
      exact .cons hframe hbelow

/-- A name that can be declared can be declared under its new name. -/
theorem declare? (h : Renames ρ R D s s') {x : String} {d : Declaration} {b : β} {b' : β'}
    (hx : x ∈ ρ.names d) (hb : R b b') (hs : s.declare? x b = some s₁) :
    ∃ s₁', s'.declare? (d.rename ρ.name x) b' = some s₁' ∧ Renames ρ R (D.declareAll [(x, d)]) s₁ s₁' := by
  obtain ⟨bs, B, hB, hfree, hB₁⟩ := ScopeChain.declare?_eq_some hs
  obtain ⟨B', hB'⟩ : ∃ B', s'.stack = B' := ⟨_, rfl⟩
  rw [Renames, hB, hB'] at h
  cases h with
  | @cons ds _ bs' D _ B' hframe hbelow =>
    have hds : ds.lookup x = none := by
      cases hd' : ds.lookup x with
      | none => rfl
      | some d' =>
        obtain ⟨-, c, -, hc, -⟩ := hframe.declared x d' hd'
        rw [hfree] at hc
        cases hc
    have hfree' := (hframe.absent x hds).2 d hx
    cases hs' : s'.declare? (d.rename ρ.name x) b' with
    | none =>
      obtain ⟨top, below, hstack, hbound⟩ := ScopeChain.declare?_eq_none hs'
      obtain ⟨rfl, -⟩ := List.cons.inj (hB'.symm.trans hstack)
      rw [hfree'] at hbound
      cases hbound
    | some s₁' =>
      obtain ⟨top, below, hstack, -, hstack₁⟩ := ScopeChain.declare?_eq_some hs'
      obtain ⟨rfl, rfl⟩ := List.cons.inj (hB'.symm.trans hstack)
      refine ⟨s₁', rfl, ?_⟩
      rw [Renames, hB₁, hstack₁, Stack.declareAll_cons]
      exact .cons (hframe.declare hx hb) hbelow

end Renames

/-! ## Names of functions -/

/-- What functions and built-in functions are declared by. -/
def rootFrame (fs : List FunctionDefinition) : List (String × Declaration) :=
  (fs.mapIdx fun i f => (f.name.text, .function i)).reverse ++ Builtin.all.map fun b => (b.name, .builtin b)

theorem isLocal_of_rootFrame {fs : List FunctionDefinition} {x : String} {d : Declaration}
    (h : (rootFrame fs).lookup x = some d) : d.isLocal = false := by
  obtain ⟨l₁, l₂, hl, -⟩ := List.lookup_eq_some_iff.1 h
  have hmem : (x, d) ∈ rootFrame fs := by rw [hl]; simp
  rcases List.mem_append.1 hmem with hmem | hmem
  · obtain ⟨i, hi, he⟩ := List.mem_mapIdx.1 (List.mem_reverse.1 hmem)
    cases he
    rfl
  · obtain ⟨b, -, he⟩ := List.mem_map.1 hmem
    cases he
    rfl

theorem rootFrame_eq_none {fs : List FunctionDefinition} {x : String} :
    (rootFrame fs).lookup x = none ↔
      fs.find? (·.name.text == x) = none ∧ Builtin.ofName? x = none := by
  have hfs : (fs.mapIdx fun i f => (f.name.text, Declaration.function i)).reverse.lookup x = none ↔
      fs.find? (·.name.text == x) = none := by
    rw [List.lookup_eq_none_iff, List.find?_eq_none]
    constructor
    · intro h f hf
      obtain ⟨i, hi, rfl⟩ := List.mem_iff_getElem.1 hf
      have hne := h _ (List.mem_reverse.2 (List.mem_mapIdx.2 ⟨i, hi, rfl⟩))
      simpa using Ne.symm (bne_iff_ne.1 hne)
    · intro h p hp
      obtain ⟨i, hi, rfl⟩ := List.mem_mapIdx.1 (List.mem_reverse.1 hp)
      have hne : fs[i].name.text ≠ x := by simpa using h _ (List.getElem_mem hi)
      exact bne_iff_ne.2 hne.symm
  rw [rootFrame, List.lookup_append, Typing.lookup_builtins, Option.or_eq_none_iff, hfs, Option.map_eq_none_iff]

/-- Functions are not renamed. -/
theorem RenamesFrame.root {ρ : Renaming} {R : Binding β → Binding β' → Prop} {fs : List FunctionDefinition}
    {g : FunctionDefinition → Binding β} {g' : FunctionDefinition → Binding β'} {bs : List (String × Binding β)}
    {bs' : List (String × Binding β')}
    (hglobals : ∀ x, (rootFrame fs).lookup x ≠ none → x ∈ ρ.globals) (hfunction : ∀ f, R (g f) (g' f))
    (hbuiltin : ∀ b, R (.builtin b) (.builtin b))
    (hbs : ∀ x, bs.lookup x = Typing.rootOf g fs (Builtin.all.map fun b => (b.name, .builtin b)) x)
    (hbs' : ∀ x, bs'.lookup x = Typing.rootOf g' fs (Builtin.all.map fun b => (b.name, .builtin b)) x) :
    RenamesFrame ρ R (rootFrame fs) bs bs' := by
  have hnone : ∀ x, (rootFrame fs).lookup x = none → bs.lookup x = none ∧ bs'.lookup x = none := by
    intro x hx
    obtain ⟨hfind, hb⟩ := rootFrame_eq_none.1 hx
    rw [hbs, hbs', Typing.rootOf, Typing.rootOf, Typing.lookup_builtins, Typing.lookup_builtins, hfind, hb]
    exact ⟨rfl, rfl⟩
  refine ⟨fun x d hx => ?_, fun x hx => ⟨(hnone x hx).1, fun d hd => ?_⟩⟩
  · have hlocal := isLocal_of_rootFrame hx
    refine ⟨by simpa [Renaming.names, hlocal] using hglobals x (by simp [hx]), ?_⟩
    simp only [Declaration.rename, hlocal, Bool.false_eq_true, if_false, hbs, hbs', Typing.rootOf,
      Typing.lookup_builtins]
    cases hfind : fs.find? (·.name.text == x) with
    | some f => exact ⟨_, _, rfl, rfl, hfunction f⟩
    | none =>
      cases hb : Builtin.ofName? x with
      | some b => exact ⟨_, _, rfl, rfl, hbuiltin b⟩
      | none =>
        rw [rootFrame_eq_none.2 ⟨hfind, hb⟩] at hx
        cases hx
  · unfold Declaration.rename
    split
    · rename_i hlocal
      -- a new name that a function has is not a new one
      have hx' : x ∈ ρ.locals := by simpa [Renaming.names, hlocal] using hd
      by_cases hdeclared : (rootFrame fs).lookup (ρ.name x) = none
      · exact (hnone _ hdeclared).2
      · rw [ρ.free x hx' (hglobals _ hdeclared)]
        exact (hnone x hx).2
    · exact (hnone x hx).2

/-- Only functions and built-in functions are in scope; `g` says what a function stands for. -/
def KnowsFunctions (g : FunctionDefinition → Binding β) (fs : List FunctionDefinition)
    (s : ScopeChain (Binding β)) : Prop :=
  ∃ root, s.stack = [root] ∧
    ∀ x, root.lookup x = Typing.rootOf g fs (Builtin.all.map fun b => (b.name, .builtin b)) x

namespace KnowsFunctions

variable {g : FunctionDefinition → Binding β} {g' : FunctionDefinition → Binding β'}
  {fs : List FunctionDefinition} {s s₁ : ScopeChain (Binding β)} {s' : ScopeChain (Binding β')}

theorem restores (h : KnowsFunctions g fs s) (hs : s.Restores s₁) : KnowsFunctions g fs s₁ := by
  obtain ⟨root, hstack, hroot⟩ := h
  exact ⟨root, hs.stack.trans hstack, hroot⟩

theorem renames (h : KnowsFunctions g fs s) (h' : KnowsFunctions g' fs s') {ρ : Renaming}
    {R : Binding β → Binding β' → Prop} (hglobals : ∀ x, (rootFrame fs).lookup x ≠ none → x ∈ ρ.globals)
    (hfunction : ∀ f, R (g f) (g' f)) (hbuiltin : ∀ b, R (.builtin b) (.builtin b)) :
    Renames ρ R [rootFrame fs] s s' := by
  obtain ⟨root, hstack, hroot⟩ := h
  obtain ⟨root', hstack', hroot'⟩ := h'
  rw [Renames, hstack, hstack']
  exact .cons (.root hglobals hfunction hbuiltin hroot hroot') .nil

end KnowsFunctions

end

end Exprc
