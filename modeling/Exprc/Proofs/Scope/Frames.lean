/-
A chain of scopes seen as an arena. Work in a scope that opens and closes scopes of its own leaves the cursor
where it was; of the frames that were there it can only have added names to the innermost one (`Grows`). A
scope that was opened before such work can be closed after it, and then everything is as it was before it was
opened but for frames that nothing refers to (`Restores`).
-/
import Exprc.Proofs.Scope.Stack

namespace Exprc

/-! ## Stacks -/

namespace Stack

variable {β δ : Type}

/-- A stack with more names in its innermost frame, the last one on top. -/
def declareAll : Stack β → List (String × β) → Stack β
  | [], _ => []
  | frame :: below, names => (names.reverse ++ frame) :: below

@[simp] theorem declareAll_cons (frame : List (String × β)) (below : Stack β) (names : List (String × β)) :
    declareAll (frame :: below) names = (names.reverse ++ frame) :: below := rfl

@[simp] theorem declareAll_nil (frames : Stack β) : frames.declareAll [] = frames := by
  cases frames <;> rfl

theorem declareAll_append (frames : Stack β) (names names' : List (String × β)) :
    frames.declareAll (names ++ names') = (frames.declareAll names).declareAll names' := by
  cases frames <;> simp [declareAll]

/-- Two stacks have the same names in the same frames, and `binding?` tells for each entry of the one what the
entry of the other holds. -/
def Follows (binding? : δ → Option β) (declarations : Stack δ) (bindings : Stack β) : Prop :=
  List.Forall₂ (List.Forall₂ fun d b => d.1 = b.1 ∧ binding? d.2 = some b.2) declarations bindings

section

variable {binding? : δ → Option β} {declarations : Stack δ} {bindings : Stack β}

theorem lookup_follows {ds : List (String × δ)} {bs : List (String × β)}
    (h : List.Forall₂ (fun d b => d.1 = b.1 ∧ binding? d.2 = some b.2) ds bs) (x : String) :
    (bs.lookup x).map some = (ds.lookup x).map binding? := by
  induction h with
  | nil => rfl
  | @cons d b ds bs hd _ ih =>
    obtain ⟨y, d⟩ := d
    obtain ⟨z, b⟩ := b
    obtain ⟨rfl, hb⟩ : y = z ∧ binding? d = some b := hd
    rw [List.lookup_cons, List.lookup_cons]
    cases x == y with
    | true => exact congrArg some hb.symm
    | false => exact ih

/-- A name is found in both stacks at the same entry. -/
theorem Follows.find? (h : Follows binding? declarations bindings) (x : String) :
    (bindings.find? x).map some = (declarations.find? x).map binding? := by
  induction h with
  | nil => rfl
  | @cons ds bs declarations bindings hframe _ ih =>
    have hlookup := lookup_follows hframe x
    rw [find?_cons, find?_cons]
    cases hds : ds.lookup x with
    | none =>
      rw [hds, Option.map_none, Option.map_eq_none_iff] at hlookup
      rw [hlookup]
      exact ih
    | some d =>
      rw [hds] at hlookup
      obtain ⟨b, hb, he⟩ := Option.map_eq_some_iff.1 hlookup
      rw [hb]
      exact congrArg some he

theorem Follows.declareAll {ds : List (String × δ)} {bs : List (String × β)}
    (h : Follows binding? declarations bindings)
    (hnew : List.Forall₂ (fun d b => d.1 = b.1 ∧ binding? d.2 = some b.2) ds bs) :
    Follows binding? (declarations.declareAll ds) (bindings.declareAll bs) := by
  have hreverse := List.rel_reverse hnew
  cases h with
  | nil => exact .nil
  | cons hframe hbelow => exact .cons (List.rel_append hreverse hframe) hbelow

end

end Stack

namespace ScopeChain

variable {β : Type} {s s' s'' : ScopeChain β}

/-! ## Frames -/

theorem getElem?_current (s : ScopeChain β) : s.frames[s.current]? = some s.frame :=
  Array.getElem?_eq_getElem s.current_lt

/-- The cursor is where it was, and of the frames that were there only the innermost one may have changed:
it may have more names. -/
structure Grows (s s' : ScopeChain β) : Prop where
  current : s'.current = s.current
  size : s.frames.size ≤ s'.frames.size
  others : ∀ i < s.frames.size, i ≠ s.current → s'.frames[i]? = s.frames[i]?
  parent : s'.frame.parent? = s.frame.parent?
  extended : ∃ new, s'.frame.bindings = new ++ s.frame.bindings

/-- The cursor is where it was, and no frame that was there has changed. -/
structure Restores (s s' : ScopeChain β) : Prop where
  current : s'.current = s.current
  size : s.frames.size ≤ s'.frames.size
  frames : ∀ i < s.frames.size, s'.frames[i]? = s.frames[i]?

namespace Grows

theorem refl (s : ScopeChain β) : s.Grows s :=
  ⟨rfl, Nat.le_refl _, fun _ _ _ => rfl, rfl, [], rfl⟩

theorem trans (h : s.Grows s') (h' : s'.Grows s'') : s.Grows s'' := by
  refine ⟨h'.current.trans h.current, Nat.le_trans h.size h'.size, fun i hi hne => ?_,
    h'.parent.trans h.parent, ?_⟩
  · rw [h'.others i (Nat.lt_of_lt_of_le hi h.size) (by rwa [h.current]), h.others i hi hne]
  · obtain ⟨new, hnew⟩ := h.extended
    obtain ⟨new', hnew'⟩ := h'.extended
    exact ⟨new' ++ new, by rw [hnew', hnew, List.append_assoc]⟩

theorem declare {name : String} {value : β} (h : s.declare? name value = some s') : s.Grows s' := by
  unfold declare? at h
  split at h
  · cases h
  · cases h
    refine ⟨rfl, by simp, fun i hi hne => ?_, ?_, [(name, value)], ?_⟩
    · simp [Ne.symm hne]
    · simp [frame]
    · simp [frame]

end Grows

namespace Restores

theorem refl (s : ScopeChain β) : s.Restores s := ⟨rfl, Nat.le_refl _, fun _ _ => rfl⟩

theorem trans (h : s.Restores s') (h' : s'.Restores s'') : s.Restores s'' := by
  refine ⟨h'.current.trans h.current, Nat.le_trans h.size h'.size, fun i hi => ?_⟩
  rw [h'.frames i (Nat.lt_of_lt_of_le hi h.size), h.frames i hi]

theorem grows (h : s.Restores s') : s.Grows s' := by
  have hframe : s'.frame = s.frame := by
    have hsome := h.frames s.current s.current_lt
    rw [← h.current, getElem?_current, h.current, getElem?_current] at hsome
    exact Option.some.inj hsome
  exact ⟨h.current, h.size, fun i hi _ => h.frames i hi, by rw [hframe], [], by rw [hframe]; rfl⟩

/-- What is in scope is what was in scope. -/
theorem stack (h : s.Restores s') : s'.stack = s.stack := by
  obtain ⟨hcurrent, hsize, hframes⟩ := h
  have hlt : s.current < s'.frames.size := Nat.lt_of_lt_of_le s.current_lt hsize
  have hstack : s'.stack = s'.stackFrom s.current hlt := by simp only [ScopeChain.stack, hcurrent]
  rw [hstack]
  refine stackFrom_congr _ _ _ fun j hj hj' _ => ?_
  have hj := hframes j hj'
  rwa [Array.getElem?_eq_getElem, Array.getElem?_eq_getElem hj', Option.some.injEq] at hj

/-- Every name means what it meant. -/
theorem resolve? (h : s.Restores s') (name : String) : s'.resolve? name = s.resolve? name := by
  rw [resolve?_eq, resolve?_eq, h.stack]

end Restores

/-- A scope can be closed after work in it, and this restores what was there before. -/
theorem Grows.pop (h : s.push.Grows s') : ∃ s'', s'.pop? = some s'' ∧ s.Restores s'' := by
  have hparent : s'.frame.parent? = some s.current := by
    rw [h.parent]
    simp [frame, push]
  have hlt := s.current_lt
  have hsize : s.frames.size + 1 ≤ s'.frames.size := by simpa [push] using h.size
  unfold pop?
  split
  · rename_i hnone
    rw [hparent] at hnone
    cases hnone
  · rename_i p hsome
    rw [hparent] at hsome
    cases hsome
    refine ⟨_, rfl, rfl, Nat.le_of_succ_le hsize, fun i hi => ?_⟩
    have hother := h.others i (by simp [push]; omega) (by simp [push]; omega)
    rw [hother]
    simp [push, Array.getElem?_push, Nat.ne_of_lt hi]

/-- To close a scope is not to close the root. -/
theorem close_eq {p : ScopeChain β} (h : s.pop? = some p) : s.close = p := by
  rw [close, h]
  rfl

/-- A scope that can be closed is not the root. -/
theorem isAtRoot_of_pop {p : ScopeChain β} (h : s.pop? = some p) : s.isAtRoot = false := by
  unfold pop? at h
  split at h
  · cases h
  · rename_i q hq
    rw [isAtRoot, hq]
    rfl

theorem isAtRoot_of_grows (h : s.Grows s') : s'.isAtRoot = s.isAtRoot := by
  rw [isAtRoot, isAtRoot, h.parent]

/-! ## Names declared one after the other -/

/-- Names are declared one after the other in the innermost scope. -/
inductive DeclaresEach : ScopeChain β → List String → ScopeChain β → Prop
  | nil {s : ScopeChain β} : DeclaresEach s [] s
  | cons {s s' s'' : ScopeChain β} {name : String} {names : List String} {value : β} :
      s.declare? name value = some s' → DeclaresEach s' names s'' → DeclaresEach s (name :: names) s''

namespace DeclaresEach

variable {names : List String}

theorem grows (h : s.DeclaresEach names s') : s.Grows s' := by
  induction h with
  | nil => exact .refl _
  | cons hd _ ih => exact (Grows.declare hd).trans ih

/-- What a name means in the innermost scope it still means when more names are declared there. -/
theorem resolve? (h : s.DeclaresEach names s') {frame : List (String × β)} {below : Stack β} {name : String}
    {value : β} (hstack : s.stack = frame :: below) (hname : frame.lookup name = some value) :
    s'.resolve? name = some value := by
  induction h generalizing frame with
  | nil => rw [resolve?_eq, hstack, Stack.find?_cons, hname, Option.some_or]
  | @cons s s₁ s₂ other _ _ hd _ ih =>
    obtain ⟨frame', below', hstack', hfree, hstack₁⟩ := declare?_eq_some hd
    obtain ⟨rfl, rfl⟩ := List.cons.inj (hstack.symm.trans hstack')
    have hne : (name == other) = false := by
      rw [beq_eq_false_iff_ne]
      rintro rfl
      rw [hfree] at hname
      cases hname
    exact ih hstack₁ (by rw [List.lookup_cons, hne, hname])

/-- If declarations tell the names in scope before, and the names that are declared, then they tell the names
in scope after. -/
theorem follows {δ : Type} {binding? : δ → Option β} {D : Stack δ} {ds : List (String × δ)}
    (h : s.DeclaresEach names s') (hD : D.Follows binding? s.stack) (hnames : ds.map Prod.fst = names)
    (hds : ∀ d ∈ ds, binding? d.2 = s'.resolve? d.1) : (D.declareAll ds).Follows binding? s'.stack := by
  induction h generalizing D ds with
  | nil =>
    rw [List.map_eq_nil_iff.1 hnames, Stack.declareAll_nil]
    exact hD
  | @cons s s₁ s' name names value hd hmore ih =>
    obtain ⟨d, ds, rfl, hname, rest⟩ := List.map_eq_cons_iff.1 hnames
    rw [List.forall_mem_cons] at hds
    obtain ⟨frame, below, hstack, -, hstack₁⟩ := declare?_eq_some hd
    have hbinding : binding? d.2 = some value := by
      rw [hds.1, hname]
      exact hmore.resolve? hstack₁ (by simp)
    have hone : (D.declareAll [d]).Follows binding? s₁.stack := by
      have hnew := hD.declareAll (List.Forall₂.cons (a := d) (b := (name, value)) ⟨hname, hbinding⟩ .nil)
      rwa [hstack, Stack.declareAll_cons, List.reverse_singleton, List.singleton_append, ← hstack₁] at hnew
    have hall := ih hone rest hds.2
    rwa [← Stack.declareAll_append] at hall

end DeclaresEach

end ScopeChain

end Exprc
