/-
Scopes: which names mean what, and where. A chain of scopes is an arena of frames, in which every
frame but the root names an older one as its parent, with a cursor on the innermost open frame.
Opening a scope adds a frame; closing one moves the cursor to the parent and leaves the frame where
it is. A name means what the nearest frame that has it says, from the cursor through the parents.
-/
import Exprc.Builtin

namespace Exprc

/-- What a name is bound to. -/
inductive Binding (β : Type) where
  | builtin (b : Builtin)
  | value (v : β)
deriving DecidableEq, Repr

/-- One scope: the names bound in it, and the frame around it; the root has none around it. -/
structure ScopeFrame (β : Type) where
  bindings : List (String × β) := []
  parent? : Option Nat := none

/-- A chain of scopes. -/
structure ScopeChain (β : Type) where
  frames : Array (ScopeFrame β)
  current : Nat
  current_lt : current < frames.size
  parent_lt : ∀ (i : Nat) (h : i < frames.size) (p : Nat), frames[i].parent? = some p → p < i

namespace ScopeChain

variable {β : Type}

/-- A chain of one frame, in which the given names are bound. -/
def root (bindings : List (String × β)) : ScopeChain β where
  frames := #[{ bindings }]
  current := 0
  current_lt := by simp
  parent_lt := by
    intro i h p hp
    obtain rfl : i = 0 := by simpa using h
    simp at hp

/-- A chain of one frame without names. -/
def empty : ScopeChain β := root []

/-- A chain of one frame, in which the built-in functions are bound. -/
def withBuiltins : ScopeChain (Binding β) := root (Builtin.all.map fun b => (b.name, .builtin b))

instance : Inhabited (ScopeChain β) := ⟨empty⟩

/-- The innermost open frame. -/
def frame (s : ScopeChain β) : ScopeFrame β :=
  getElem s.frames s.current s.current_lt

/-- Whether only the root is open. -/
def isAtRoot (s : ScopeChain β) : Bool := s.frame.parent?.isNone

/-! ## Opening and closing -/

/-- Opens a scope in the innermost one. -/
def push (s : ScopeChain β) : ScopeChain β where
  frames := s.frames.push { parent? := some s.current }
  current := s.frames.size
  current_lt := by simp
  parent_lt := by
    intro i h p hp
    rw [Array.getElem_push] at hp
    split at hp
    · exact s.parent_lt i ‹_› p hp
    · have := s.current_lt
      simp only [Option.some.injEq] at hp
      omega

/-- Closes the innermost scope. The root cannot be closed. -/
def pop? (s : ScopeChain β) : Option (ScopeChain β) :=
  match h : s.frame.parent? with
  | none => none
  | some p => some { s with
      current := p
      current_lt := Nat.lt_trans (s.parent_lt s.current s.current_lt p h) s.current_lt }

/-- Closes the innermost scope, if it is not the root. -/
def close (s : ScopeChain β) : ScopeChain β := s.pop?.getD s

/-! ## Names -/

/-- Binds a name in the innermost scope, which must not have it yet. -/
def declare? (s : ScopeChain β) (name : String) (value : β) : Option (ScopeChain β) :=
  if (s.frame.bindings.lookup name).isSome then none
  else some { s with
    frames := s.frames.set s.current
      { s.frame with bindings := (name, value) :: s.frame.bindings } s.current_lt
    current_lt := by simpa using s.current_lt
    parent_lt := by
      intro i h p hp
      have hi : i < s.frames.size := by simpa using h
      refine s.parent_lt i hi p ?_
      rw [Array.getElem_set] at hp
      split at hp
      · rename_i hc; subst hc; exact hp
      · exact hp }

/-- What a name means from a frame outwards. -/
def resolveFrom (s : ScopeChain β) (i : Nat) (hi : i < s.frames.size) (name : String) :
    Option β :=
  match s.frames[i].bindings.lookup name with
  | some b => some b
  | none =>
    match hp : s.frames[i].parent? with
    | none => none
    | some p => s.resolveFrom p (Nat.lt_trans (s.parent_lt i hi p hp) hi) name
termination_by i
decreasing_by exact s.parent_lt i hi p hp

/-- What a name means in the innermost scope. -/
def resolve? (s : ScopeChain β) (name : String) : Option β :=
  s.resolveFrom s.current s.current_lt name

end ScopeChain

end Exprc
