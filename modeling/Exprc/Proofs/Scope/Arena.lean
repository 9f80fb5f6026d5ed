/-
A chain of scopes against a plain stack of maps from names. Both take the same operations (`Operation`) and
answer each of them (`Answer`); every sequence of operations has the same answers on both (`Implements`). What
stands for the stack in the arena are the frames on the way from the cursor to the root (`openFrames`). Opening a
scope puts a new frame in front of this way and closing one takes the first frame off, so a frame that is left
once is never on it again, although it stays in the arena as it was.
-/
import Exprc.Proofs.Scope.Stack

namespace Exprc

/-! ## Operations -/

/-- What can be done with scopes. -/
inductive Operation (β : Type) where
  | push
  | pop
  | declare (name : String) (value : β)
  | resolve (name : String)

namespace Operation

/-- Whether an operation opens a scope. -/
def isPush {β : Type} : Operation β → Bool
  | push => true
  | _ => false

end Operation

/-- How an operation answers. -/
inductive Answer (β : Type) where
  | done
  /-- The name was declared already. -/
  | refused
  /-- The root cannot be closed. -/
  | panicked
  | found (value? : Option β)

/-- Performs operations one after the other. The answers are in the order of the operations. -/
def performAll {β σ : Type} (perform : σ → Operation β → Answer β × σ) :
    σ → List (Operation β) → List (Answer β) × σ
  | s, [] => ([], s)
  | s, op :: ops =>
    let (answer, s') := perform s op
    let (answers, s'') := performAll perform s' ops
    (answer :: answers, s'')

theorem performAll_append {β σ : Type} (perform : σ → Operation β → Answer β × σ) (s : σ)
    (ops later : List (Operation β)) :
    performAll perform s (ops ++ later) =
      ((performAll perform s ops).1 ++ (performAll perform (performAll perform s ops).2 later).1,
        (performAll perform (performAll perform s ops).2 later).2) := by
  induction ops generalizing s with
  | nil => rfl
  | cons op ops ih => simp only [List.cons_append, performAll, ih]

/-! ## Stacks of maps -/

/-- A stack of maps from names: those of the scopes inside the root, the innermost first, and that of the root. -/
structure MapStack (β : Type) where
  inner : List (String → Option β)
  root : String → Option β

namespace MapStack

variable {β : Type}

/-- All maps, the innermost first. -/
def maps (m : MapStack β) : List (String → Option β) := m.inner ++ [m.root]

/-- Whether only the root is open. -/
def isAtRoot (m : MapStack β) : Bool := m.inner.isEmpty

/-- The innermost map. -/
def top (m : MapStack β) : String → Option β := m.inner.headD m.root

/-- Puts another map in the place of the innermost one. -/
def setTop (m : MapStack β) (map : String → Option β) : MapStack β :=
  match m.inner with
  | [] => { m with root := map }
  | _ :: below => { m with inner := map :: below }

/-- Performs one operation. A name is declared in the innermost map, which must not have it yet, and means what
the innermost map that has it says. -/
def perform (m : MapStack β) : Operation β → Answer β × MapStack β
  | .push => (.done, { m with inner := (fun _ => none) :: m.inner })
  | .pop =>
    match m.inner with
    | [] => (.panicked, m)
    | _ :: inner => (.done, { m with inner })
  | .declare name value =>
    if (m.top name).isSome then (.refused, m)
    else (.done, m.setTop (Function.update m.top name (some value)))
  | .resolve name => (.found (m.maps.findSome? (· name)), m)

/-- Performs operations one after the other. -/
def run (m : MapStack β) (ops : List (Operation β)) : List (Answer β) × MapStack β :=
  performAll perform m ops

/-- A stack of one map without names. -/
def empty : MapStack β := ⟨[], fun _ => none⟩

/-- A stack of one map, in which the built-in functions have their names. -/
def withBuiltins : MapStack (Binding β) := ⟨[], fun name => (Builtin.ofName? name).map .builtin⟩

theorem maps_eq_cons (m : MapStack β) :
    ∃ below, m.maps = m.top :: below ∧ ∀ map, (m.setTop map).maps = map :: below := by
  obtain ⟨_ | ⟨top, inner⟩, root⟩ := m
  · exact ⟨[], rfl, fun _ => rfl⟩
  · exact ⟨inner ++ [root], rfl, fun _ => rfl⟩

end MapStack

namespace ScopeChain

variable {β : Type}

/-- Performs one operation. -/
def perform (s : ScopeChain β) : Operation β → Answer β × ScopeChain β
  | .push => (.done, s.push)
  | .pop =>
    match s.pop? with
    | none => (.panicked, s)
    | some s' => (.done, s')
  | .declare name value =>
    match s.declare? name value with
    | none => (.refused, s)
    | some s' => (.done, s')
  | .resolve name => (.found (s.resolve? name), s)

/-- Performs operations one after the other. -/
def run (s : ScopeChain β) (ops : List (Operation β)) : List (Answer β) × ScopeChain β :=
  performAll perform s ops

/-! ## Open frames -/

/-- The frames on the way from a frame to the root. -/
def openFrom (s : ScopeChain β) (i : Nat) (hi : i < s.frames.size) : List Nat :=
  i ::
    match hp : s.frames[i].parent? with
    | none => []
    | some p => s.openFrom p (Nat.lt_trans (s.parent_lt i hi p hp) hi)
termination_by i
decreasing_by exact s.parent_lt i hi p hp

/-- The frames that are open, the innermost first. -/
def openFrames (s : ScopeChain β) : List Nat := s.openFrom s.current s.current_lt

/-- The map of a frame. -/
def mapAt? (s : ScopeChain β) (i : Nat) : Option (String → Option β) :=
  s.frames[i]?.map fun frame name => frame.bindings.lookup name

variable {s s' : ScopeChain β}

theorem openFrom_none {i : Nat} (hi : i < s.frames.size) (hp : s.frames[i].parent? = none) :
    s.openFrom i hi = [i] := by
  rw [openFrom]
  split
  · rfl
  · rename_i p hp'
    rw [hp] at hp'
    cases hp'

theorem openFrom_some {i p : Nat} (hi : i < s.frames.size) (hp : s.frames[i].parent? = some p) :
    s.openFrom i hi = i :: s.openFrom p (Nat.lt_trans (s.parent_lt i hi p hp) hi) := by
  rw [openFrom]
  split
  · rename_i hp'
    rw [hp] at hp'
    cases hp'
  · rename_i q hp'
    obtain rfl : p = q := Option.some.inj (hp.symm.trans hp')
    rfl

/-- Where two chains have the same parents up to some frame, the same frames are on the way from it. -/
theorem openFrom_congr (i : Nat) (hi : i < s.frames.size) (hi' : i < s'.frames.size)
    (h : ∀ (j : Nat) (hj : j < s.frames.size) (hj' : j < s'.frames.size), j ≤ i →
      s.frames[j].parent? = s'.frames[j].parent?) :
    s.openFrom i hi = s'.openFrom i hi' := by
  induction i using Nat.strongRecOn with
  | ind i ih =>
    have hparent := h i hi hi' (Nat.le_refl i)
    cases hp : s.frames[i].parent? with
    | none => rw [openFrom_none hi hp, openFrom_none hi' (hparent.symm.trans hp)]
    | some p =>
      have hlt : p < i := s.parent_lt i hi p hp
      rw [openFrom_some hi hp, openFrom_some hi' (hparent.symm.trans hp)]
      exact congrArg (i :: ·) (ih p hlt _ _ fun j hj hj' hle => h j hj hj' (by omega))

/-- On the way to the root the frames only become older. -/
theorem openFrom_le (i : Nat) (hi : i < s.frames.size) : ∀ j ∈ s.openFrom i hi, j ≤ i := by
  induction i using Nat.strongRecOn with
  | ind i ih =>
    cases hp : s.frames[i].parent? with
    | none => simp [openFrom_none hi hp]
    | some p =>
      have hlt : p < i := s.parent_lt i hi p hp
      rw [openFrom_some hi hp, List.forall_mem_cons]
      exact ⟨Nat.le_refl i, fun j hj => Nat.le_of_lt (Nat.lt_of_le_of_lt (ih p hlt _ j hj) hlt)⟩

theorem openFrom_decreasing (i : Nat) (hi : i < s.frames.size) : (s.openFrom i hi).Pairwise (· > ·) := by
  induction i using Nat.strongRecOn with
  | ind i ih =>
    cases hp : s.frames[i].parent? with
    | none => simp [openFrom_none hi hp]
    | some p =>
      have hlt : p < i := s.parent_lt i hi p hp
      rw [openFrom_some hi hp, List.pairwise_cons]
      exact ⟨fun j hj => Nat.lt_of_le_of_lt (openFrom_le p _ j hj) hlt, ih p hlt _⟩

/-- The stack holds the bindings of the open frames. -/
theorem map_openFrom (i : Nat) (hi : i < s.frames.size) :
    (s.openFrom i hi).map s.mapAt? =
      (s.stackFrom i hi).map fun frame => some fun name => frame.lookup name := by
  induction i using Nat.strongRecOn with
  | ind i ih =>
    have hmap : s.mapAt? i = some fun name => s.frames[i].bindings.lookup name := by
      rw [mapAt?, Array.getElem?_eq_getElem hi]
      rfl
    cases hp : s.frames[i].parent? with
    | none => rw [openFrom_none hi hp, stackFrom_none hi hp, List.map_singleton, hmap, List.map_singleton]
    | some p =>
      rw [openFrom_some hi hp, stackFrom_some hi hp, List.map_cons, hmap, List.map_cons,
        ih p (s.parent_lt i hi p hp)]

theorem openFrames_of_some {p : Nat} (hp : s.frame.parent? = some p) :
    s.openFrames = s.current ::
      s.openFrom p (Nat.lt_trans (s.parent_lt s.current s.current_lt p hp) s.current_lt) :=
  openFrom_some s.current_lt hp

/-- Opening a scope puts the new frame in front of those that are open. -/
theorem openFrames_push (s : ScopeChain β) : s.push.openFrames = s.frames.size :: s.openFrames := by
  have hlt := s.current_lt
  have hparent : s.push.frame.parent? = some s.current := by simp [frame, push]
  rw [openFrames_of_some hparent]
  refine congrArg (s.frames.size :: ·) (openFrom_congr _ _ _ fun j hj hj' hle => ?_)
  have : j < s.frames.size := by omega
  simp [push, Array.getElem_push, this]

/-- Closing a scope takes off the first of the open frames, and leaves all frames as they are. -/
theorem openFrames_pop (h : s.pop? = some s') :
    s'.frames = s.frames ∧ s.openFrames = s.current :: s'.openFrames ∧
      ∃ top, s.stack = top :: s'.stack := by
  unfold pop? at h
  split at h
  · cases h
  · rename_i p hp
    cases h
    refine ⟨rfl, ?_, s.frame.bindings, ?_⟩
    · rw [openFrames_of_some hp]
      exact congrArg (s.current :: ·) (openFrom_congr _ _ _ fun _ _ _ _ => rfl)
    · rw [stack_of_some hp]
      exact congrArg (s.frame.bindings :: ·) (stackFrom_congr _ _ _ fun _ _ _ _ => rfl)

/-- Declaring a name changes the innermost frame only, and leaves its parent as it is. -/
theorem declare?_frames {name : String} {value : β} (h : s.declare? name value = some s') :
    s'.current = s.current ∧ s'.frames.size = s.frames.size ∧
      (∀ i, i ≠ s.current → s'.frames[i]? = s.frames[i]?) ∧ s'.openFrames = s.openFrames := by
  unfold declare? at h
  split at h
  · cases h
  · cases h
    refine ⟨rfl, by simp, fun i hne => by simp [Ne.symm hne], ?_⟩
    refine openFrom_congr _ _ _ fun j hj hj' _ => ?_
    rw [Array.getElem_set]
    split
    · rename_i hj
      subst hj
      rfl
    · rfl

theorem isAtRoot_iff (s : ScopeChain β) : s.isAtRoot = true ↔ s.pop? = none := by
  unfold isAtRoot pop?
  split
  · rename_i hp
    simp [hp]
  · rename_i p hp
    simp [hp]

/-! ## One operation -/

/-- What happens to the frames in the arena. Those that are not open stay as they are and do not become open
again; and the arena grows by the scopes that are opened. -/
structure Evolves (s s' : ScopeChain β) (opened : Nat) : Prop where
  size : s'.frames.size = s.frames.size + opened
  closed : ∀ i < s.frames.size, i ∉ s.openFrames → i ∉ s'.openFrames ∧ s'.frames[i]? = s.frames[i]?

namespace Evolves

theorem refl (s : ScopeChain β) : s.Evolves s 0 := ⟨rfl, fun _ _ h => ⟨h, rfl⟩⟩

theorem trans {s'' : ScopeChain β} {n n' : Nat} (h : s.Evolves s' n) (h' : s'.Evolves s'' n') :
    s.Evolves s'' (n + n') := by
  refine ⟨by rw [h'.size, h.size, Nat.add_assoc], fun i hi hclosed => ?_⟩
  obtain ⟨hclosed', hframe⟩ := h.closed i hi hclosed
  obtain ⟨hclosed'', hframe'⟩ := h'.closed i (by rw [h.size]; omega) hclosed'
  exact ⟨hclosed'', hframe'.trans hframe⟩

end Evolves

theorem evolves_push (s : ScopeChain β) : s.Evolves s.push 1 := by
  refine ⟨by simp [push], fun i hi hclosed => ⟨?_, ?_⟩⟩
  · rw [openFrames_push, List.mem_cons, not_or]
    exact ⟨Nat.ne_of_lt hi, hclosed⟩
  · simp [push, Array.getElem?_push, Nat.ne_of_lt hi]

theorem evolves_pop (h : s.pop? = some s') : s.Evolves s' 0 := by
  obtain ⟨hframes, hopen, -⟩ := openFrames_pop h
  refine ⟨by rw [hframes, Nat.add_zero], fun i _ hclosed => ⟨?_, by rw [hframes]⟩⟩
  rw [hopen, List.mem_cons, not_or] at hclosed
  exact hclosed.2

theorem current_mem_openFrames (s : ScopeChain β) : s.current ∈ s.openFrames := by
  rw [openFrames, openFrom]
  exact List.mem_cons_self

theorem evolves_declare {name : String} {value : β} (h : s.declare? name value = some s') :
    s.Evolves s' 0 := by
  obtain ⟨-, hsize, hothers, hopen⟩ := declare?_frames h
  refine ⟨hsize, fun i _ hclosed => ⟨hopen ▸ hclosed, hothers i ?_⟩⟩
  rintro rfl
  exact hclosed s.current_mem_openFrames

theorem evolves_perform (s : ScopeChain β) (op : Operation β) :
    s.Evolves (s.perform op).2 (if op.isPush then 1 else 0) := by
  cases op with
  | push => exact evolves_push s
  | resolve => exact .refl s
  | pop =>
    rw [perform]
    cases hpop : s.pop? with
    | none => exact .refl s
    | some s' => exact evolves_pop hpop
  | declare name value =>
    rw [perform]
    cases hdeclare : s.declare? name value with
    | none => exact .refl s
    | some s' => exact evolves_declare hdeclare

/-- The bindings of the open frames are the maps of a stack. -/
def Represents (s : ScopeChain β) (m : MapStack β) : Prop :=
  s.stack.map (fun frame name => frame.lookup name) = m.maps

namespace Represents

variable {m : MapStack β}

theorem resolve? (h : s.Represents m) (name : String) :
    s.resolve? name = m.maps.findSome? (· name) := by
  rw [resolve?_eq, Stack.find?, ← h, List.findSome?_map]
  rfl

/-- A stack has as many maps as scopes are open. -/
theorem isAtRoot (h : s.Represents m) : s.isAtRoot = m.isAtRoot := by
  obtain ⟨inner, root⟩ := m
  cases hp : s.frame.parent? with
  | none =>
    rw [Represents, stack_of_none hp] at h
    have hlength := congrArg List.length h
    obtain rfl : inner = [] := by simpa [MapStack.maps] using hlength
    simp [ScopeChain.isAtRoot, hp, MapStack.isAtRoot]
  | some p =>
    obtain ⟨below, hbelow⟩ := stackFrom_eq_cons
      (Nat.lt_trans (s.parent_lt s.current s.current_lt p hp) s.current_lt)
    rw [Represents, stack_of_some hp, hbelow] at h
    have hlength := congrArg List.length h
    cases inner with
    | nil => simp [MapStack.maps] at hlength
    | cons => simp [ScopeChain.isAtRoot, hp, MapStack.isAtRoot]

theorem push (h : s.Represents m) :
    s.push.Represents { m with inner := (fun _ => none) :: m.inner } := by
  rw [Represents, stack_push, List.map_cons, h]
  rfl

theorem pop (h : s.Represents m) (hpop : s.pop? = some s') :
    ∃ top inner, m.inner = top :: inner ∧ s'.Represents { m with inner } := by
  have hroot : m.isAtRoot = false := by
    rw [← h.isAtRoot, Bool.eq_false_iff, Ne, isAtRoot_iff, hpop]
    exact nofun
  obtain ⟨top, inner, hinner⟩ := List.exists_cons_of_ne_nil (List.isEmpty_eq_false_iff.1 hroot)
  obtain ⟨-, -, f, hstack⟩ := openFrames_pop hpop
  rw [Represents, hstack, MapStack.maps, hinner] at h
  exact ⟨top, inner, hinner, (List.cons.inj h).2⟩

/-- Names are declared in the map of the innermost frame. -/
theorem lookup_update (f : List (String × β)) (name : String) (value : β) :
    (fun x => ((name, value) :: f).lookup x) = Function.update (fun x => f.lookup x) name (some value) := by
  funext x
  rw [List.lookup_cons, Function.update_apply]
  by_cases hx : x = name
  · simp [hx]
  · simp [hx, beq_eq_false_iff_ne.2 hx]

/-- A declaration is refused on both sides, or done on both. -/
theorem declare (h : s.Represents m) (name : String) (value : β) :
    (s.perform (.declare name value)).1 = (m.perform (.declare name value)).1 ∧
      (s.perform (.declare name value)).2.Represents (m.perform (.declare name value)).2 := by
  obtain ⟨below, hmaps, hset⟩ := m.maps_eq_cons
  have hstacks := h.trans hmaps
  rw [ScopeChain.perform, MapStack.perform]
  cases hdeclare : s.declare? name value with
  | none =>
    obtain ⟨f, _, hstack, hbound⟩ := declare?_eq_none hdeclare
    rw [hstack] at hstacks
    obtain ⟨htop, -⟩ := List.cons.inj hstacks
    rw [if_pos (by rw [← htop]; exact hbound)]
    exact ⟨rfl, h⟩
  | some s' =>
    obtain ⟨f, _, hstack, hfree, hstack'⟩ := declare?_eq_some hdeclare
    rw [hstack] at hstacks
    obtain ⟨htop, hbelow⟩ := List.cons.inj hstacks
    have hfree' : ¬(m.top name).isSome = true := by simp [← htop, hfree]
    rw [if_neg hfree']
    refine ⟨rfl, ?_⟩
    rw [Represents, hstack', hset, List.map_cons, hbelow, ← htop, lookup_update]

/-- Every operation has the same answer on both sides, and both sides still hold the same. -/
theorem perform (h : s.Represents m) (op : Operation β) :
    (s.perform op).1 = (m.perform op).1 ∧ (s.perform op).2.Represents (m.perform op).2 := by
  cases op with
  | push => exact ⟨rfl, h.push⟩
  | declare name value => exact h.declare name value
  | resolve name => exact ⟨congrArg Answer.found (h.resolve? name), h⟩
  | pop =>
    rw [ScopeChain.perform]
    cases hpop : s.pop? with
    | none =>
      have hroot : m.inner = [] := by
        rw [← List.isEmpty_iff]
        exact h.isAtRoot.symm.trans (s.isAtRoot_iff.2 hpop)
      rw [MapStack.perform, hroot]
      exact ⟨rfl, h⟩
    | some s' =>
      obtain ⟨top, inner, hinner, hrepresents⟩ := h.pop hpop
      rw [MapStack.perform, hinner]
      exact ⟨rfl, hrepresents⟩

end Represents

/-! ## Sequences of operations -/

/-- Operations one after the other have the same answers on both sides, and both sides hold the same then. -/
theorem Represents.run {m : MapStack β} (h : s.Represents m) (ops : List (Operation β)) :
    (s.run ops).1 = (m.run ops).1 ∧ (s.run ops).2.Represents (m.run ops).2 := by
  induction ops generalizing s m with
  | nil => exact ⟨rfl, h⟩
  | cons op ops ih =>
    obtain ⟨hanswer, hafter⟩ := h.perform op
    obtain ⟨hanswers, hend⟩ := ih hafter
    exact ⟨congrArg₂ List.cons hanswer hanswers, hend⟩

theorem evolves_run (s : ScopeChain β) (ops : List (Operation β)) :
    s.Evolves (s.run ops).2 (ops.countP Operation.isPush) := by
  induction ops generalizing s with
  | nil => exact .refl s
  | cons op ops ih =>
    rw [List.countP_cons, Nat.add_comm]
    exact (evolves_perform s op).trans (ih _)

/-- A sequence of operations does to a chain of scopes what it does to a stack of maps. -/
structure Implements (s : ScopeChain β) (m : MapStack β) (ops : List (Operation β)) : Prop where
  /-- Every operation has the same answer. -/
  answers : (s.run ops).1 = (m.run ops).1
  isAtRoot : (s.run ops).2.isAtRoot = (m.run ops).2.isAtRoot
  /-- The maps of the open frames are those of the stack. -/
  maps : (s.run ops).2.openFrames.map (s.run ops).2.mapAt? = (m.run ops).2.maps.map some
  /-- Every scope that is opened is one more frame, and no frame is ever given up. -/
  size : (s.run ops).2.frames.size = s.frames.size + ops.countP Operation.isPush
  /-- A frame that is not open never is open again, and stays as it is. -/
  closed : ∀ before later, ops = before ++ later → ∀ i < (s.run before).2.frames.size,
    i ∉ (s.run before).2.openFrames →
      i ∉ (s.run ops).2.openFrames ∧ (s.run ops).2.frames[i]? = (s.run before).2.frames[i]?
  parents : ∀ (i : Nat) (frame : ScopeFrame β) (p : Nat),
    (s.run ops).2.frames[i]? = some frame → frame.parent? = some p → p < i
  /-- On its way to the root the search for a name comes to older frames only. -/
  decreasing : (s.run ops).2.openFrames.Pairwise (· > ·)

theorem Represents.implements {m : MapStack β} (h : s.Represents m) (ops : List (Operation β)) :
    s.Implements m ops where
  answers := (h.run ops).1
  isAtRoot := (h.run ops).2.isAtRoot
  maps := by
    rw [openFrames, map_openFrom, ← (h.run ops).2, List.map_map]
    rfl
  size := (evolves_run s ops).size
  closed := by
    rintro before later rfl i hi hclosed
    have hrun : (s.run (before ++ later)).2 = ((s.run before).2.run later).2 := by
      simp only [ScopeChain.run, performAll_append]
    rw [hrun]
    exact (evolves_run _ later).closed i hi hclosed
  parents i frame p hframe hp := by
    obtain ⟨hi, rfl⟩ := Array.getElem?_eq_some_iff.1 hframe
    exact (s.run ops).2.parent_lt i hi p hp
  decreasing := openFrom_decreasing _ _

end ScopeChain

/-- The arena of scopes is a stack of maps. On a chain of scopes that starts with an empty root, or with the
built-in functions in its root, every sequence of operations has the answers that a plain stack of maps gives:
the innermost open scope that has a name tells what it means, a name is refused if and only if the innermost
scope has it already, and only the root cannot be closed. Frames that were closed stay in the arena and never
are open again. There is one frame for the root and one for every scope that was opened, so that 32 bits are
enough for the index of a frame as long as fewer than 2 ^ 32 scopes are; and every frame comes after its
parent. -/
theorem arena_implements_stack :
    (∀ (β : Type) (ops : List (Operation β)), ScopeChain.empty.Implements MapStack.empty ops) ∧
      ∀ (β : Type) (ops : List (Operation (Binding β))),
        ScopeChain.withBuiltins.Implements MapStack.withBuiltins ops := by
  refine ⟨fun β ops => ScopeChain.Represents.implements ?_ ops,
    fun β ops => ScopeChain.Represents.implements ?_ ops⟩
  · rw [ScopeChain.Represents, ScopeChain.empty, ScopeChain.stack_root]
    rfl
  · have h := fun name => lookup_map_append Builtin.name (Binding.builtin (β := β)) Builtin.all [] name
    simp only [List.append_nil, List.lookup_nil, Option.or_none] at h
    rw [ScopeChain.Represents, ScopeChain.withBuiltins, ScopeChain.stack_root, List.map_singleton]
    exact congrArg (fun map => [map]) (funext h)

end Exprc
