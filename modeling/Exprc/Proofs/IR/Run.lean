/-
Runs of a machine. `Steps m sink n s t` says that a machine at `s` is at `t` after `n` steps that do
not end the run. A machine has only one way to go, so such steps are a start of every run from `s`.
What a single step can do is said once, in `Advances`.
-/
import Exprc.Proofs.IR.Frame

namespace Exprc.IR

/-! ## Single steps -/

/-- The labels that an instruction can jump to. -/
def Op.targets : Op → List Label
  | .jump l => [l]
  | .branch _ ifTrue ifFalse => [ifTrue, ifFalse]
  | .loadInt .. | .loadBool .. | .copy .. | .call .. | .label _ | .leave _ => []

/-- A jump leads behind an instruction that is its label. -/
theorem codeBehind?_eq_some {l : Label} {code rest : List Instruction} (h : codeBehind? l code = some rest) :
    ∃ i : Instruction, i.op = .label l ∧ i :: rest <:+ code := by
  induction code with
  | nil => cases h
  | cons i code ih =>
    rw [codeBehind?] at h
    split at h
    · rename_i hc
      cases h
      obtain ⟨j, hj, hs⟩ := ih hc
      exact ⟨j, hj, hs.trans (List.suffix_cons _ _)⟩
    · split at h
      · rename_i hi
        cases h
        exact ⟨i, hi, List.suffix_refl _⟩
      · cases h

/-- What can be left of the code of a function after an instruction that stays in the function, if
`rest` is the code behind it. -/
def Op.Follows (f : Function) (rest code : List Instruction) : Op → Prop
  | .jump l => codeBehind? l f.code = some code
  | .branch _ ifTrue ifFalse =>
    codeBehind? ifTrue f.code = some code ∨ codeBehind? ifFalse f.code = some code
  | .leave _ => False
  | .loadInt .. | .loadBool .. | .copy .. | .call .. | .label _ => code = rest

/-- What an instruction that stays in its function does to the frame. -/
def Op.Effect (frame frame' : Frame) : Op → Prop
  | .loadInt n target => frame' = frame.write target (.int n)
  | .loadBool b target => frame' = frame.write target (.bool b)
  | .copy source target => ∃ value, frame.read? source = some value ∧ frame' = frame.write target value
  | .call _ _ target => ∃ value, frame' = frame.write target value
  | .label _ | .jump _ | .branch .. | .leave _ => frame' = frame

/-- The next step returns a value from the active function. -/
inductive Returns (s : State) (value : Value) : Prop
  | atEnd : s.active.rest = [] → s.active.frame.read? s.active.function.result = some value →
      Returns s value
  | atLeave {i : Instruction} {rest : List Instruction} {v : Var} :
      s.active.rest = i :: rest → i.op = .leave v → s.active.frame.read? v = some value →
      Returns s value

/-- What a step can do that does not end the run: it stays in the active function, it calls a
function of the module, or it returns to a function that waits. -/
inductive Advances (m : Module) (s t : State) : Prop
  | inside {i : Instruction} {rest rest' : List Instruction} {frame' : Frame} {world' : World} :
      s.active.rest = i :: rest → i.op.Effect s.active.frame frame' →
      i.op.Follows s.active.function rest rest' →
      t = ⟨⟨s.active.function, rest', frame'⟩, s.waiting, world'⟩ → Advances m s t
  | call {i : Instruction} {rest : List Instruction} {name : String} {arguments : List Var}
      {target : Var} {f : Function} {values : List Value} :
      s.active.rest = i :: rest → i.op = .call (.named name) arguments target →
      m.function? name = some f → values.length = f.parameters.length →
      t = ⟨⟨f, f.code, .ofArguments f.parameters values⟩,
        ⟨{ s.active with rest }, target⟩ :: s.waiting, s.world⟩ → Advances m s t
  | back {w : Waiting} {value : Value} :
      Returns s value → s.waiting = w :: t.waiting →
      t.active = { w.caller with frame := w.caller.frame.write w.target value } → Advances m s t

section

variable {m : Module} {sink : Sink} {s t : State}

theorem State.andThen_running {α : Type} {r : Except (Fault RuntimeError) α} {next : α → Progress}
    (h : s.andThen r next = .running t) : ∃ a, r = .ok a ∧ next a = .running t := by
  cases r with
  | ok a => exact ⟨a, rfl, h⟩
  | error fault => cases h

theorem State.goto_running {location : Location} {l : Label} (h : s.goto location l = .running t) :
    ∃ rest, codeBehind? l s.active.function.code = some rest ∧
      t = { s with active := { s.active with rest } } := by
  unfold goto at h
  split at h
  · rename_i rest hl; cases h; exact ⟨rest, hl, rfl⟩
  · cases h

theorem State.leave_running {value : Value} (h : s.leave sink value = .running t) :
    ∃ w, s.waiting = w :: t.waiting ∧
      t.active = { w.caller with frame := w.caller.frame.write w.target value } ∧ t.world = s.world := by
  unfold leave at h
  split at h
  · rename_i w ws hw; cases h; exact ⟨w, hw, rfl, rfl⟩
  · split at h <;> cases h

theorem activate_ok {f : Function} {arguments : List Value} {location : Location} {depth : Nat}
    {a : Activation} (h : activate f arguments location depth = .ok a) :
    arguments.length = f.parameters.length ∧
      a = ⟨f, f.code, .ofArguments f.parameters arguments⟩ := by
  unfold activate at h
  split at h
  · cases h
  · split at h
    · cases h
    · rename_i hlen
      cases h
      exact ⟨not_not.1 hlen, rfl⟩

theorem activate_depth {f : Function} {arguments : List Value} {location : Location} {depth : Nat}
    {a : Activation} (h : activate f arguments location depth = .ok a) : depth < maxDepth := by
  unfold activate at h
  split at h
  · cases h
  · omega

theorem State.call_running {location : Location} {callee : Var} {values : List Value}
    {target : Var} (h : s.call m sink location callee values target = .running t) :
    (∃ name f, callee = .named name ∧ m.function? name = some f ∧
      values.length = f.parameters.length ∧
      t = ⟨⟨f, f.code, .ofArguments f.parameters values⟩, ⟨s.active, target⟩ :: s.waiting,
        s.world⟩) ∨
    ∃ value world, t = write { s with world } target value := by
  unfold call at h
  split at h
  · rename_i name
    split at h
    · rename_i f hf
      obtain ⟨a, ha, h⟩ := andThen_running h
      obtain ⟨hlen, rfl⟩ := activate_ok ha
      cases h
      exact .inl ⟨name, f, rfl, hf, hlen, rfl⟩
    · rename_i b _ _
      cases hr : s.world.callBuiltin sink b values with
      | mk result world =>
        rw [hr] at h
        cases result with
        | ok value => cases h; exact .inr ⟨value, world, rfl⟩
        | error cause => cases h
    · cases h
  · cases h

/-- What a step can do. -/
theorem State.advances (h : s.step m sink = .running t) : Advances m s t := by
  unfold step at h
  cases hrest : s.active.rest with
  | nil =>
    rw [hrest] at h
    obtain ⟨value, hv, h⟩ := andThen_running h
    obtain ⟨w, hw, ht, -⟩ := leave_running h
    exact .back (.atEnd hrest (Frame.read_eq_ok_iff.1 hv)) hw ht
  | cons i rest =>
    rw [hrest] at h
    dsimp only at h
    unfold execute at h
    cases hop : i.op with
    | loadInt n target =>
      simp only [hop] at h; cases h
      exact .inside hrest (by rw [hop]; rfl) (by rw [hop]; rfl) rfl
    | loadBool b target =>
      simp only [hop] at h; cases h
      exact .inside hrest (by rw [hop]; rfl) (by rw [hop]; rfl) rfl
    | copy source target =>
      simp only [hop] at h
      obtain ⟨value, hv, h⟩ := andThen_running h
      cases h
      exact .inside hrest (by rw [hop]; exact ⟨value, Frame.read_eq_ok_iff.1 hv, rfl⟩)
        (by rw [hop]; rfl) rfl
    | call callee arguments target =>
      simp only [hop] at h
      obtain ⟨values, -, h⟩ := andThen_running h
      rcases call_running h with ⟨name, f, rfl, hf, hlen, rfl⟩ | ⟨value, world, rfl⟩
      · exact .call hrest hop hf hlen rfl
      · exact .inside hrest (by rw [hop]; exact ⟨value, rfl⟩) (by rw [hop]; rfl) rfl
    | label l =>
      simp only [hop] at h; cases h
      exact .inside hrest (by rw [hop]; rfl) (by rw [hop]; rfl) rfl
    | jump l =>
      simp only [hop] at h
      obtain ⟨code, hl, rfl⟩ := goto_running h
      exact .inside hrest (by rw [hop]; rfl) (by rw [hop]; exact hl) rfl
    | branch condition ifTrue ifFalse =>
      simp only [hop] at h
      obtain ⟨value, -, h⟩ := andThen_running h
      split at h
      · obtain ⟨code, hl, rfl⟩ := goto_running h
        exact .inside hrest (by rw [hop]; rfl) (by rw [hop]; exact .inl hl) rfl
      · obtain ⟨code, hl, rfl⟩ := goto_running h
        exact .inside hrest (by rw [hop]; rfl) (by rw [hop]; exact .inr hl) rfl
      · cases h
    | leave v =>
      simp only [hop] at h
      obtain ⟨value, hv, h⟩ := andThen_running h
      obtain ⟨w, hw, ht, -⟩ := leave_running h
      exact .back (.atLeave hrest hop (Frame.read_eq_ok_iff.1 hv)) hw ht

end

/-! ## Ends -/

section

variable {m : Module} {sink : Sink} {s : State} {v : Value} {world : World}

theorem State.andThen_ended {α : Type} {r : Except (Fault RuntimeError) α} {next : α → Progress}
    (h : s.andThen r next = .ended ⟨.ok v, world⟩) : ∃ a, r = .ok a ∧ next a = .ended ⟨.ok v, world⟩ := by
  cases r with
  | ok a => exact ⟨a, rfl, h⟩
  | error fault => cases h

theorem State.goto_not_ended {location : Location} {l : Label} :
    s.goto location l ≠ .ended ⟨.ok v, world⟩ := by
  unfold goto
  split <;> exact nofun

theorem State.call_not_ended {location : Location} {callee : Var} {values : List Value} {target : Var} :
    s.call m sink location callee values target ≠ .ended ⟨.ok v, world⟩ := by
  intro h
  unfold call at h
  split at h
  · split at h
    · obtain ⟨a, -, h⟩ := andThen_ended h
      cases h
    · rename_i b _ _
      rcases hr : s.world.callBuiltin sink b values with ⟨cause | value, world'⟩ <;> rw [hr] at h <;>
        cases h
    · cases h
  · cases h

theorem State.leave_ended {value : Value} (h : s.leave sink value = .ended ⟨.ok v, world⟩) :
    s.waiting = [] ∧ world = s.world := by
  unfold leave at h
  split at h
  · cases h
  · rename_i hw
    split at h <;> cases h
    exact ⟨hw, rfl⟩

/-- A run ends with a value when the last function returns it. -/
theorem State.ended_ok (h : s.step m sink = .ended ⟨.ok v, world⟩) :
    s.waiting = [] ∧ world = s.world ∧
      (s.active.rest = [] ∨ ∃ i rest, s.active.rest = i :: rest ∧ i.op.isLeave = true) := by
  unfold step at h
  cases hrest : s.active.rest with
  | nil =>
    rw [hrest] at h
    obtain ⟨value, -, h⟩ := andThen_ended h
    obtain ⟨hw, hworld⟩ := leave_ended h
    exact ⟨hw, hworld, .inl rfl⟩
  | cons i rest =>
    rw [hrest] at h
    dsimp only at h
    unfold execute at h
    cases hop : i.op with
    | loadInt | loadBool | label => simp only [hop] at h; cases h
    | copy =>
      simp only [hop] at h
      obtain ⟨value, -, h⟩ := andThen_ended h
      cases h
    | call =>
      simp only [hop] at h
      obtain ⟨values, -, h⟩ := andThen_ended h
      exact absurd h call_not_ended
    | jump =>
      simp only [hop] at h
      exact absurd h goto_not_ended
    | branch =>
      simp only [hop] at h
      obtain ⟨value, -, h⟩ := andThen_ended h
      split at h
      · exact absurd h goto_not_ended
      · exact absurd h goto_not_ended
      · cases h
    | leave =>
      simp only [hop] at h
      obtain ⟨value, -, h⟩ := andThen_ended h
      obtain ⟨hw, hworld⟩ := leave_ended h
      exact ⟨hw, hworld, .inr ⟨i, rest, rfl, by rw [hop]; rfl⟩⟩

end

/-! ## Runs -/

/-- Some number of steps that do not end the run. -/
inductive Steps (m : Module) (sink : Sink) : Nat → State → State → Prop
  | refl (s : State) : Steps m sink 0 s s
  | step {n : Nat} {s t u : State} :
      s.step m sink = .running t → Steps m sink n t u → Steps m sink (n + 1) s u

namespace Steps

variable {m : Module} {sink : Sink} {n k : Nat} {s t u : State} {e : Ending}

theorem single (h : s.step m sink = .running t) : Steps m sink 1 s t := .step h (.refl t)

theorem trans (h : Steps m sink n s t) (h' : Steps m sink k t u) : Steps m sink (n + k) s u := by
  induction h with
  | refl => rwa [Nat.zero_add]
  | step hs _ ih => rw [Nat.succ_add]; exact .step hs (ih h')

theorem snoc (h : Steps m sink n s t) (h' : t.step m sink = .running u) :
    Steps m sink (n + 1) s u := h.trans (.single h')

/-- Steps are the start of the run. -/
theorem endWithin? (h : Steps m sink n s t) (k : Nat) :
    (Progress.running s).endWithin? m sink (n + k) = (Progress.running t).endWithin? m sink k := by
  induction h with
  | refl => rw [Nat.zero_add]
  | step hs _ ih =>
    rw [Nat.succ_add, Progress.endWithin?, hs, ih]

/-- A run does not end before the steps that do not end it. -/
theorem lt_of_ends (h : Steps m sink n s t)
    (he : (Progress.running s).endWithin? m sink k = some e) : n < k := by
  induction h generalizing k with
  | refl =>
    cases k with
    | zero => cases he
    | succ => exact Nat.succ_pos _
  | step hs _ ih =>
    cases k with
    | zero => cases he
    | succ k =>
      rw [Progress.endWithin?, hs] at he
      exact Nat.succ_lt_succ (ih he)

end Steps

section

variable {m : Module} {sink : Sink} {k : Nat} {s : State} {e : Ending}

/-- A run that ends makes some steps, and then the one that ends it. -/
theorem endWithin?_eq_some_iff :
    (Progress.running s).endWithin? m sink k = some e ↔
      ∃ n t, n < k ∧ Steps m sink n s t ∧ t.step m sink = .ended e := by
  constructor
  · intro h
    induction k generalizing s with
    | zero => cases h
    | succ k ih =>
      rw [Progress.endWithin?] at h
      cases hs : s.step m sink with
      | ended e' =>
        rw [hs] at h
        cases k <;> cases h <;> exact ⟨0, s, Nat.succ_pos _, .refl s, hs⟩
      | running t =>
        rw [hs] at h
        obtain ⟨n, u, hn, hu, he⟩ := ih h
        exact ⟨n + 1, u, Nat.succ_lt_succ hn, .step hs hu, he⟩
  · rintro ⟨n, t, hn, hst, he⟩
    obtain ⟨j, rfl⟩ : ∃ j, k = n + (j + 1) := ⟨k - n - 1, by omega⟩
    rw [hst.endWithin?, Progress.endWithin?, he]
    cases j <;> rfl

/-- A run has one end only. -/
theorem Steps.ending_eq {n : Nat} {t : State} {e' : Ending} (h : Steps m sink n s t)
    (he : t.step m sink = .ended e) (hk : (Progress.running s).endWithin? m sink k = some e') :
    e' = e := by
  have hlt := h.lt_of_ends hk
  rw [show k = n + (k - n) by omega, h.endWithin?] at hk
  obtain ⟨j, hj⟩ : ∃ j, k - n = j + 1 := ⟨k - n - 1, by omega⟩
  rw [hj, Progress.endWithin?, he] at hk
  cases j <;> exact (Option.some.inj hk).symm

end

end Exprc.IR
