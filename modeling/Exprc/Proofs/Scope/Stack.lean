/-
A chain of scopes seen as a stack: the bindings of the frames that are open, the innermost first.
Frames that were closed stay in the arena but not in the stack. Opening, closing, declaring and
resolving each do to the stack what their names promise, so what is shown of scopes elsewhere is
shown of stacks.
-/
import Exprc.Scope
import Mathlib

namespace Exprc

/-- The bindings of open frames, the innermost first. -/
abbrev Stack (β : Type) := List (List (String × β))

/-- What a name means in a stack. -/
def Stack.find? {β : Type} (frames : Stack β) (name : String) : Option β :=
  frames.findSome? (·.lookup name)

namespace Stack

variable {β : Type}

theorem find?_nil (name : String) : find? ([] : Stack β) name = none := rfl

theorem find?_cons (frame : List (String × β)) (below : Stack β) (name : String) :
    find? (frame :: below) name = (frame.lookup name).or (find? below name) := by
  simp only [find?, List.findSome?_cons]
  cases frame.lookup name <;> rfl

end Stack

/-- Looking a name up in bindings that a list gives is finding it in the list. -/
theorem lookup_map_append {α β : Type} (key : α → String) (f : α → β) (l : List α)
    (root : List (String × β)) (x : String) :
    ((l.map fun a => (key a, f a)) ++ root).lookup x =
      ((l.find? (key · == x)).map f).or (root.lookup x) := by
  induction l with
  | nil => simp
  | cons a l ih =>
    simp only [List.map_cons, List.cons_append, List.lookup_cons, List.find?_cons]
    by_cases h : key a = x
    · simp [h]
    · have h₁ : (key a == x) = false := by simpa using h
      have h₂ : (x == key a) = false := by simpa using Ne.symm h
      simp only [h₁, h₂, ih]

namespace ScopeChain

variable {β : Type}

/-- The bindings of a frame and of those around it. -/
def stackFrom (s : ScopeChain β) (i : Nat) (hi : i < s.frames.size) : Stack β :=
  s.frames[i].bindings ::
    match hp : s.frames[i].parent? with
    | none => []
    | some p => s.stackFrom p (Nat.lt_trans (s.parent_lt i hi p hp) hi)
termination_by i
decreasing_by exact s.parent_lt i hi p hp

/-- The bindings of the open frames. -/
def stack (s : ScopeChain β) : Stack β := s.stackFrom s.current s.current_lt

theorem stackFrom_none {s : ScopeChain β} {i : Nat} (hi : i < s.frames.size)
    (hp : s.frames[i].parent? = none) : s.stackFrom i hi = [s.frames[i].bindings] := by
  rw [stackFrom]
  split
  · rfl
  · rename_i p hp'; rw [hp] at hp'; cases hp'

theorem stackFrom_some {s : ScopeChain β} {i p : Nat} (hi : i < s.frames.size)
    (hp : s.frames[i].parent? = some p) :
    s.stackFrom i hi =
      s.frames[i].bindings :: s.stackFrom p (Nat.lt_trans (s.parent_lt i hi p hp) hi) := by
  rw [stackFrom]
  split
  · rename_i hp'; rw [hp] at hp'; cases hp'
  · rename_i q hp'
    obtain rfl : p = q := by rw [hp] at hp'; exact Option.some.inj hp'
    rfl

theorem stackFrom_eq_cons {s : ScopeChain β} {i : Nat} (hi : i < s.frames.size) :
    ∃ below, s.stackFrom i hi = s.frames[i].bindings :: below := by
  cases hp : s.frames[i].parent? with
  | none => exact ⟨_, stackFrom_none hi hp⟩
  | some p => exact ⟨_, stackFrom_some hi hp⟩

/-- Two chains that have the same frames up to some place have the same stack there. -/
theorem stackFrom_congr {s t : ScopeChain β} (i : Nat) (hi : i < s.frames.size)
    (hi' : i < t.frames.size)
    (h : ∀ (j : Nat) (hj : j < s.frames.size) (hj' : j < t.frames.size), j ≤ i →
      s.frames[j] = t.frames[j]) :
    s.stackFrom i hi = t.stackFrom i hi' := by
  induction i using Nat.strongRecOn with
  | ind i ih =>
    have hf : s.frames[i] = t.frames[i] := h i hi hi' (Nat.le_refl i)
    cases hp : s.frames[i].parent? with
    | none =>
      rw [stackFrom_none hi hp, stackFrom_none hi' (by rw [← hf]; exact hp), hf]
    | some p =>
      have hlt : p < i := s.parent_lt i hi p hp
      rw [stackFrom_some hi hp, stackFrom_some hi' (by rw [← hf]; exact hp)]
      congr 1
      · rw [hf]
      · exact ih p hlt _ _ fun j hj hj' hle => h j hj hj' (by omega)

theorem stack_of_none {s : ScopeChain β} (hp : s.frame.parent? = none) :
    s.stack = [s.frame.bindings] := stackFrom_none s.current_lt hp

theorem stack_of_some {s : ScopeChain β} {p : Nat} (hp : s.frame.parent? = some p) :
    s.stack = s.frame.bindings ::
      s.stackFrom p (Nat.lt_trans (s.parent_lt s.current s.current_lt p hp) s.current_lt) :=
  stackFrom_some s.current_lt hp

/-- The innermost open frame is the top of the stack. -/
theorem stack_eq_cons (s : ScopeChain β) : ∃ below, s.stack = s.frame.bindings :: below :=
  stackFrom_eq_cons s.current_lt

theorem resolveFrom_eq (s : ScopeChain β) (name : String) (i : Nat) (hi : i < s.frames.size) :
    s.resolveFrom i hi name = (s.stackFrom i hi).find? name := by
  induction i using Nat.strongRecOn with
  | ind i ih =>
    rw [resolveFrom]
    split
    · rename_i b hl
      obtain ⟨below, hb⟩ := stackFrom_eq_cons hi
      rw [hb, Stack.find?_cons, hl]; rfl
    · rename_i hl
      split
      · rename_i hp
        rw [stackFrom_none hi hp, Stack.find?_cons, hl]; rfl
      · rename_i p hp
        rw [stackFrom_some hi hp, ih p (s.parent_lt i hi p hp), Stack.find?_cons, hl]; rfl

/-- A name means what it means in the stack. -/
theorem resolve?_eq (s : ScopeChain β) (name : String) : s.resolve? name = s.stack.find? name :=
  resolveFrom_eq s name s.current s.current_lt

@[simp] theorem stack_root (bindings : List (String × β)) : (root bindings).stack = [bindings] :=
  stack_of_none rfl

/-- Opening a scope puts a frame without names on the stack. -/
@[simp] theorem stack_push (s : ScopeChain β) : s.push.stack = [] :: s.stack := by
  have hlt := s.current_lt
  have hf : s.push.frame = { parent? := some s.current } := by simp [frame, push]
  rw [stack_of_some (p := s.current) (by rw [hf])]
  congr 1
  · rw [hf]
  · refine stackFrom_congr _ _ _ fun j hj hj' hle => ?_
    have : j < s.frames.size := by omega
    simp [push, Array.getElem_push, this]

/-- Closing a scope takes the innermost frame off the stack. -/
theorem stack_close {s : ScopeChain β} {f g : List (String × β)} {below : Stack β}
    (h : s.stack = f :: g :: below) : s.close.stack = g :: below := by
  cases hp : s.frame.parent? with
  | none => rw [stack_of_none hp] at h; simp at h
  | some p =>
    rw [stack_of_some hp] at h
    have hc : s.close.current = p ∧ s.close.frames = s.frames := by
      unfold close pop?
      split
      · rename_i hn; rw [hp] at hn; cases hn
      · rename_i q hq
        obtain rfl : p = q := by rw [hp] at hq; exact Option.some.inj hq
        simp
    obtain ⟨rfl, h2⟩ := hc
    rw [← (List.cons.inj h).2]
    exact stackFrom_congr _ _ _ fun j hj hj' _ => by simp only [h2]

/-- A name can be declared if the innermost frame does not have it; it is then bound there. -/
theorem declare?_eq_some {s s' : ScopeChain β} {name : String} {value : β}
    (h : s.declare? name value = some s') :
    ∃ f below, s.stack = f :: below ∧ f.lookup name = none ∧
      s'.stack = ((name, value) :: f) :: below := by
  unfold declare? at h
  split at h
  · cases h
  · rename_i hn
    have hnone : s.frame.bindings.lookup name = none := by
      simpa only [Bool.not_eq_true, Option.isSome_eq_false_iff, Option.isNone_iff_eq_none] using hn
    obtain rfl := Option.some.inj h
    -- the frames below the innermost one are not touched
    generalize hs' : ScopeChain.mk _ _ _ _ = s'
    have hframes : s'.frames = s.frames.set s.current
        { s.frame with bindings := (name, value) :: s.frame.bindings } s.current_lt := by
      rw [← hs']
    have hframe : s'.frame = { s.frame with bindings := (name, value) :: s.frame.bindings } := by
      rw [← hs']; simp [frame]
    cases hp : s.frame.parent? with
    | none =>
      refine ⟨s.frame.bindings, [], stack_of_none hp, hnone, ?_⟩
      rw [stack_of_none (by rw [hframe]; exact hp), hframe]
    | some p =>
      refine ⟨s.frame.bindings, _, stack_of_some hp, hnone, ?_⟩
      rw [stack_of_some (p := p) (by rw [hframe]; exact hp)]
      congr 1
      · rw [hframe]
      · refine stackFrom_congr _ _ _ fun j hj hj' hle => ?_
        have hlt := s.parent_lt s.current s.current_lt p hp
        have hne : s.current ≠ j := by omega
        simp [hframes, Array.getElem_set, hne]

theorem declare?_eq_none {s : ScopeChain β} {name : String} {value : β}
    (h : s.declare? name value = none) :
    ∃ f below, s.stack = f :: below ∧ (f.lookup name).isSome := by
  obtain ⟨below, hs⟩ := s.stack_eq_cons
  refine ⟨_, below, hs, ?_⟩
  unfold declare? at h
  split at h
  · assumption
  · cases h

end ScopeChain

end Exprc
