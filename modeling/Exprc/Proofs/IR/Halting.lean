/-
Runs of code that never jumps back. If every jump of a function goes to a label that is behind it, then each step
shortens what is left to the active function, or it ends the function, or it calls another one. Calls nest only
`maxDepth` deep, so this cannot go on for ever. What is left to a machine is counted in a number system whose base
is above the length of every function (`State.weight`): one digit for each function under execution, and the more
functions wait for it, the lower its place. A call takes one from a digit and adds another one at the place below.
-/
import Exprc.Proofs.IR.Run
import Exprc.Proofs.IR.WellFormed

namespace Exprc.IR

/-! ## Forward code -/

/-- Code in which every label that an instruction can jump to is behind the instruction. -/
def Forward (code : List Instruction) : Prop :=
  ∀ i rest, i :: rest <:+ code → ∀ l ∈ i.op.targets, HasLabel rest l

section

variable {l : Label} {i : Instruction} {code rest : List Instruction}

@[simp] theorem hasLabel_cons : HasLabel (i :: rest) l ↔ i.op = .label l ∨ HasLabel rest l :=
  ⟨fun ⟨j, hj, hl⟩ => (List.mem_cons.1 hj).imp (fun he => by rw [← he]; exact hl) fun hj => ⟨j, hj, hl⟩,
    fun h => h.elim (fun hi => ⟨i, List.mem_cons_self, hi⟩)
      fun ⟨j, hj, hl⟩ => ⟨j, List.mem_cons_of_mem i hj, hl⟩⟩

@[simp] theorem hasLabel_append : HasLabel (code ++ rest) l ↔ HasLabel code l ∨ HasLabel rest l := by
  simp only [HasLabel, List.mem_append, or_and_right, exists_or]

@[simp] theorem forward_nil : Forward [] := fun i rest h => by
  cases List.suffix_nil.1 h

@[simp] theorem forward_cons : Forward (i :: code) ↔ (∀ l ∈ i.op.targets, HasLabel code l) ∧ Forward code := by
  constructor
  · exact fun h => ⟨h i code (List.suffix_refl _), fun j rest hj => h j rest (hj.trans (List.suffix_cons i code))⟩
  · rintro ⟨hi, hcode⟩ j rest hj
    rcases List.suffix_cons_iff.1 hj with heq | hj
    · cases heq
      exact hi
    · exact hcode j rest hj

/-- Forward code stays so in front of other code. -/
theorem forward_append (h : Forward code) : Forward (code ++ rest) ↔ Forward rest := by
  induction code with
  | nil => rfl
  | cons i code ih =>
    obtain ⟨hi, hcode⟩ := forward_cons.1 h
    rw [List.cons_append, forward_cons, ih hcode, and_iff_right]
    exact fun l hl => hasLabel_append.2 (.inl (hi l hl))

theorem HasLabel.leads (h : HasLabel rest l) : ∃ code, codeBehind? l rest = some code := by
  induction rest with
  | nil =>
    obtain ⟨i, hi, -⟩ := h
    cases hi
  | cons i rest ih =>
    rw [codeBehind?]
    cases hc : codeBehind? l rest with
    | some code => exact ⟨code, rfl⟩
    | none =>
      rcases hasLabel_cons.1 h with hi | hrest
      · exact ⟨rest, if_pos hi⟩
      · obtain ⟨code, hcode⟩ := ih hrest
        rw [hc] at hcode
        cases hcode

/-- A label that is behind some instruction leads there, whatever is in front. -/
theorem HasLabel.behind (h : HasLabel rest l) (hrest : rest <:+ code) :
    ∃ code', codeBehind? l code = some code' ∧ code' <:+ rest ∧ code'.length < rest.length := by
  obtain ⟨code', hcode⟩ := h.leads
  obtain ⟨i, -, hsuffix⟩ := codeBehind?_eq_some hcode
  refine ⟨code', ?_, (List.suffix_cons i code').trans hsuffix, hsuffix.length_le⟩
  obtain ⟨before, rfl⟩ := hrest
  induction before with
  | nil => exact hcode
  | cons i before ih => rw [List.cons_append, codeBehind?, ih]

end

/-- A module without a jump back. -/
def Module.Forward (m : Module) : Prop := ∀ f ∈ m.functions, IR.Forward f.code

/-! ## Single steps -/

/-- A function of a module is being executed. -/
structure Activation.Of (m : Module) (a : Activation) : Prop where
  mem : a.function ∈ m.functions
  suffix : a.rest <:+ a.function.code

/-- The functions that are being executed are those of a module. -/
structure State.Of (m : Module) (s : State) : Prop where
  active : s.active.Of m
  waiting : ∀ w ∈ s.waiting, w.caller.Of m

section

variable {m : Module} {sink : Sink} {s t : State}

/-- An instruction that stays in the function goes on behind itself or behind a label that it can jump to. -/
theorem Op.Follows.next_or_jump {f : Function} {op : Op} {rest code : List Instruction} (h : op.Follows f rest code) :
    code = rest ∨ ∃ l ∈ op.targets, codeBehind? l f.code = some code := by
  cases op with
  | loadInt | loadBool | copy | call | label => exact .inl h
  | jump l => exact .inr ⟨l, List.mem_cons_self, h⟩
  | branch condition ifTrue ifFalse =>
    rcases h with h | h
    · exact .inr ⟨ifTrue, List.mem_cons_self, h⟩
    · exact .inr ⟨ifFalse, List.mem_cons_of_mem _ List.mem_cons_self, h⟩
  | leave => exact h.elim

/-- What is left after an instruction that stays in the function is an end of its code. -/
theorem Op.Follows.suffix {f : Function} {i : Instruction} {rest code : List Instruction}
    (hrest : i :: rest <:+ f.code) (h : i.op.Follows f rest code) : code <:+ f.code := by
  rcases h.next_or_jump with rfl | ⟨l, -, hcode⟩
  · exact (List.suffix_cons i _).trans hrest
  · obtain ⟨j, -, hsuffix⟩ := codeBehind?_eq_some hcode
    exact (List.suffix_cons j code).trans hsuffix

/-- An instruction of forward code that stays in the function shortens what is left of it. -/
theorem Op.Follows.shortens {f : Function} (hf : Forward f.code) {i : Instruction} {rest code : List Instruction}
    (hrest : i :: rest <:+ f.code) (h : i.op.Follows f rest code) : code.length < (i :: rest).length := by
  rcases h.next_or_jump with rfl | ⟨l, hl, hcode⟩
  · exact Nat.lt_succ_self _
  · obtain ⟨code', hcode', -, hlt⟩ := (hf i rest hrest l hl).behind ((List.suffix_cons i rest).trans hrest)
    obtain rfl := Option.some.inj (hcode.symm.trans hcode')
    exact Nat.lt_succ_of_lt hlt

/-- A step goes on in the functions of the module. -/
theorem State.Of.advances (hs : s.Of m) (h : Advances m s t) : t.Of m := by
  obtain ⟨⟨hmem, hsuffix⟩, hwaiting⟩ := hs
  cases h with
  | inside hrest _ hfollows ht =>
    subst ht
    rw [hrest] at hsuffix
    exact ⟨⟨hmem, hfollows.suffix hsuffix⟩, hwaiting⟩
  | call hrest _ hf _ ht =>
    subst ht
    rw [hrest] at hsuffix
    refine ⟨⟨List.mem_of_find?_eq_some hf, List.suffix_refl _⟩, List.forall_mem_cons.2 ⟨?_, hwaiting⟩⟩
    exact ⟨hmem, (List.suffix_cons _ _).trans hsuffix⟩
  | back _ hw ht =>
    rw [hw, List.forall_mem_cons] at hwaiting
    obtain ⟨⟨hmem, hsuffix⟩, hwaiting⟩ := hwaiting
    exact ⟨by rw [ht]; exact ⟨hmem, hsuffix⟩, hwaiting⟩

theorem State.Of.steps {n : Nat} (hs : s.Of m) (h : Steps m sink n s t) : t.Of m := by
  induction h with
  | refl => exact hs
  | step hstep _ ih => exact ih (hs.advances (State.advances hstep))

/-- A step nests calls only as far as `maxDepth` allows. -/
theorem State.step_depth (h : s.step m sink = .running t) :
    t.waiting.length ≤ s.waiting.length ∨ t.waiting.length < maxDepth := by
  cases State.advances h with
  | inside _ _ _ ht => subst ht; exact .inl (Nat.le_refl _)
  | back _ hw _ => rw [hw]; exact .inl (Nat.le_succ _)
  | call hrest hop hf _ ht =>
    subst ht
    rw [step, hrest] at h
    dsimp only at h
    rw [execute, hop] at h
    obtain ⟨values, -, h⟩ := andThen_running h
    simp only [State.call, hf] at h
    obtain ⟨activation, hactivate, -⟩ := andThen_running h
    exact .inr (activate_depth hactivate)

end

/-! ## What is left to a machine -/

/-- The functions under execution, the active one first. -/
def State.stack (s : State) : List Activation := s.active :: s.waiting.map (·.caller)

/-- The number that has what is left to each function under execution as its digits, one more than the
instructions of it. The function that runs first has the highest place. -/
def weigh (base : Nat) : List Activation → Nat
  | [] => 0
  | a :: below => (a.rest.length + 1) * base ^ (maxDepth - below.length) + weigh base below

/-- What is left to a machine, as a number. -/
def State.weight (base : Nat) (s : State) : Nat := weigh base s.stack

section

variable {base : Nat} {a b : Activation} {below : List Activation}

theorem weigh_inside (hbase : 0 < base) (h : b.rest.length < a.rest.length) :
    weigh base (b :: below) < weigh base (a :: below) := by
  have hplace : 0 < base ^ (maxDepth - below.length) := Nat.pow_pos hbase
  have hdigit : (b.rest.length + 1) * base ^ (maxDepth - below.length) <
      (a.rest.length + 1) * base ^ (maxDepth - below.length) :=
    Nat.mul_lt_mul_of_pos_right (Nat.succ_lt_succ h) hplace
  simp only [weigh]
  omega

theorem weigh_back (hbase : 0 < base) : weigh base below < weigh base (a :: below) := by
  have hplace : 0 < base ^ (maxDepth - below.length) := Nat.pow_pos hbase
  have hdigit : 0 < (a.rest.length + 1) * base ^ (maxDepth - below.length) := Nat.mul_pos (Nat.succ_pos _) hplace
  simp only [weigh]
  omega

/-- What a call adds at the place below is less than the one that it takes. -/
theorem weigh_call {c : Activation} (hdepth : below.length < maxDepth) (hbase : b.rest.length + 1 < base)
    (h : c.rest.length < a.rest.length) : weigh base (b :: c :: below) < weigh base (a :: below) := by
  obtain ⟨place, hplace⟩ : ∃ place, maxDepth - below.length = place + 1 := ⟨maxDepth - below.length - 1, by omega⟩
  have hbelow : maxDepth - (c :: below).length = place := by rw [List.length_cons]; omega
  have hdigit : (b.rest.length + 1) * base ^ place < base ^ (place + 1) := by
    rw [Nat.pow_succ, Nat.mul_comm (base ^ place)]
    exact Nat.mul_lt_mul_of_pos_right hbase (Nat.pow_pos (Nat.lt_of_le_of_lt (Nat.zero_le _) hbase))
  have htaken : (c.rest.length + 1) * base ^ (place + 1) + base ^ (place + 1) ≤
      (a.rest.length + 1) * base ^ (place + 1) := by
    rw [← Nat.succ_mul]
    exact Nat.mul_le_mul_right _ (Nat.succ_le_succ h)
  simp only [weigh, hbelow, hplace]
  omega

end

section

variable {m : Module} {sink : Sink} {s t : State}

theorem Module.length_le_size {f : Function} (hf : f ∈ m.functions) : f.code.length ≤ m.size := by
  rw [size, List.length_flatMap]
  exact List.single_le_sum (fun _ _ => Nat.zero_le _) _ (List.mem_map_of_mem hf)

/-- Each step leaves less. -/
theorem State.weight_lt (hm : m.Forward) (hs : s.Of m) (h : s.step m sink = .running t) :
    t.weight (m.size + 2) < s.weight (m.size + 2) := by
  have hdepth := step_depth h
  obtain ⟨⟨hmem, hsuffix⟩, -⟩ := hs
  cases State.advances h with
  | inside hrest _ hfollows ht =>
    subst ht
    rw [hrest] at hsuffix
    refine weigh_inside (Nat.succ_pos _) ?_
    rw [hrest]
    exact hfollows.shortens (hm _ hmem) hsuffix
  | call hrest _ hf _ ht =>
    subst ht
    have hlength := Module.length_le_size (List.mem_of_find?_eq_some hf)
    refine weigh_call ?_ (Nat.succ_lt_succ (Nat.lt_succ_of_le hlength)) ?_
    · rw [List.length_map]
      rw [List.length_cons] at hdepth
      omega
    · rw [hrest]
      exact Nat.lt_succ_self _
  | back _ hw ht =>
    have hstack : t.weight (m.size + 2) = weigh (m.size + 2) (s.waiting.map (·.caller)) := by
      rw [weight, stack, ht, hw]
      rfl
    rw [hstack]
    exact weigh_back (Nat.succ_pos _)

/-! ## Runs -/

/-- A machine ends before it has made as many steps as its weight. -/
theorem State.ends (hm : m.Forward) {k : Nat} (hs : s.Of m) (hk : s.weight (m.size + 2) ≤ k) :
    ∃ e, (Progress.running s).endWithin? m sink k = some e := by
  induction k generalizing s with
  | zero =>
    have hpos : weigh (m.size + 2) (s.waiting.map (·.caller)) < s.weight (m.size + 2) :=
      weigh_back (Nat.succ_pos _)
    exact absurd (Nat.lt_of_lt_of_le hpos hk) (Nat.not_lt_zero _)
  | succ k ih =>
    rw [Progress.endWithin?]
    cases hstep : s.step m sink with
    | ended e => exact ⟨e, by cases k <;> rfl⟩
    | running t =>
      have hlt := weight_lt hm hs hstep
      exact ih (hs.advances (State.advances hstep)) (by omega)

/-- What a machine before its first step has under execution is the function in which a run starts, at the start of
its code. -/
theorem Module.start_running {input : List UInt8} (h : m.start input = .running s) :
    s.Of m ∧ s.waiting = [] ∧ s.active.rest = s.active.function.code := by
  unfold start at h
  cases hf : m.entry? with
  | none => simp only [hf] at h; cases h
  | some f =>
    simp only [hf] at h
    cases ha : activate f [] .nowhere 0 with
    | error fault => simp only [ha] at h; cases h
    | ok a =>
      simp only [ha] at h
      cases h
      obtain ⟨-, rfl⟩ := activate_ok ha
      exact ⟨⟨⟨List.mem_of_find?_eq_some hf, List.suffix_refl _⟩, nofun⟩, rfl, rfl⟩

/-- A run of forward code ends, within a number of steps that neither the input nor the sink has a part in. -/
theorem Module.Forward.run? (hm : m.Forward) (sink : Sink) (input : List UInt8) :
    ∃ e, m.run? sink input ((m.size + 2) ^ (maxDepth + 1)) = some e := by
  unfold Module.run?
  cases hstart : m.start input with
  | ended e => exact ⟨e, by cases (m.size + 2) ^ (maxDepth + 1) <;> rfl⟩
  | running s =>
    obtain ⟨hs, hwaiting, -⟩ := start_running hstart
    refine State.ends hm hs ?_
    have hlength : s.active.rest.length + 1 ≤ m.size + 2 := by
      have := hs.active.suffix.length_le
      have := length_le_size hs.active.mem
      omega
    calc s.weight (m.size + 2)
      _ = (s.active.rest.length + 1) * (m.size + 2) ^ maxDepth := by
        rw [State.weight, State.stack, hwaiting]
        simp only [List.map_nil, weigh, List.length_nil, Nat.sub_zero, Nat.add_zero]
      _ ≤ (m.size + 2) * (m.size + 2) ^ maxDepth := Nat.mul_le_mul_right _ hlength
      _ = (m.size + 2) ^ (maxDepth + 1) := Nat.pow_succ'.symm

/-- In a run no more than `maxDepth` functions are under execution at once. -/
theorem Module.stack_le {input : List UInt8} (h : m.start input = .running s) {n : Nat} (hst : Steps m sink n s t) :
    t.stack.length ≤ maxDepth := by
  have hstart : s.waiting.length < maxDepth := by
    rw [(start_running h).2.1]
    decide
  have hdepth : t.waiting.length < maxDepth := by
    clear h
    induction hst with
    | refl => exact hstart
    | step hstep _ ih =>
      have := State.step_depth hstep
      exact ih (by omega)
  rw [State.stack, List.length_cons, List.length_map]
  exact hdepth

end

end Exprc.IR
