/-
Runs through a region of the code of a function. To a function under execution a call is one instruction: it executes
the call, and goes on when the function that it called has returned (`Executes`). So what a machine is at in a function
it has come to in a chain of such executions from the start of the code (`Steps.executed`). If no jump leads from
elsewhere into a region of the code, then the chain has come through the region from its start (`Steps.through`), and
what a variable held there it holds still, unless an instruction of the region has written it (`Through.read?`).
-/
import Exprc.Proofs.IR.Halting
import Exprc.Proofs.IR.Paths

namespace Exprc.IR

/-! ## Executing an instruction -/

/-- From `s` the machine comes to `t`, and all the time some functions wait. -/
inductive Nested (m : Module) (sink : Sink) (waiting : List Waiting) (s : State) : State → Prop
  | refl : waiting <:+ s.waiting → Nested m sink waiting s s
  | step {t u : State} : Nested m sink waiting s t → t.step m sink = .running u → waiting <:+ u.waiting →
      Nested m sink waiting s u

/-- The machine executes the next instruction of the active function. If that calls a function of the module, it
executes that function up to its return, while the active one waits. -/
inductive Executes (m : Module) (sink : Sink) (s : State) : State → Prop
  | inside {t : State} : s.step m sink = .running t → t.waiting = s.waiting → Executes m sink s t
  | call {w : Waiting} {t u v : State} : s.step m sink = .running t → t.waiting = w :: s.waiting →
      Nested m sink (w :: s.waiting) t u → u.step m sink = .running v → v.waiting = s.waiting → Executes m sink s v

section

variable {m : Module} {sink : Sink} {n : Nat} {s t u : State} {w : Waiting} {ws ws' : List Waiting}

namespace Nested

theorem mono (h : Nested m sink ws s t) (hws : ws' <:+ ws) : Nested m sink ws' s t := by
  induction h with
  | refl hs => exact .refl (hws.trans hs)
  | step _ hstep hu ih => exact .step ih hstep (hws.trans hu)

theorem trans (h : Nested m sink ws s t) (h' : Nested m sink ws t u) : Nested m sink ws s u := by
  induction h' with
  | refl => exact h
  | step _ hstep hu ih => exact .step ih hstep hu

theorem suffix (h : Nested m sink ws s t) : ws <:+ t.waiting := by
  cases h <;> assumption

end Nested

/-- Steps have a last one, if there are any. -/
theorem Steps.last (h : Steps m sink n s t) :
    n = 0 ∧ t = s ∨ ∃ k u, n = k + 1 ∧ Steps m sink k s u ∧ u.step m sink = .running t := by
  induction h with
  | refl => exact .inl ⟨rfl, rfl⟩
  | @step _ s _ _ hs _ ih =>
    rcases ih with ⟨rfl, rfl⟩ | ⟨k, v, rfl, hv, hlast⟩
    · exact .inr ⟨0, s, rfl, .refl s, hs⟩
    · exact .inr ⟨k + 1, v, rfl, .step hs hv, hlast⟩

/-- Since a function that waits made its call it has waited, and with it all below. -/
theorem Steps.called (hs : s.waiting = []) :
    ∀ {n : Nat} {t : State} {w : Waiting} {ws : List Waiting}, Steps m sink n s t → t.waiting = w :: ws →
      ∃ k u v, k < n ∧ Steps m sink k s u ∧ u.waiting = ws ∧ u.step m sink = .running v ∧ v.waiting = w :: ws ∧
        Nested m sink (w :: ws) v t := by
  intro n
  induction n using Nat.strongRecOn with
  | ind n ih =>
    intro t w ws h ht
    rcases h.last with ⟨-, rfl⟩ | ⟨k, t', rfl, h', hlast⟩
    · rw [hs] at ht
      cases ht
    cases State.advances hlast with
    | inside _ _ _ he =>
      have ht' : t'.waiting = w :: ws := by rw [← ht, he]
      obtain ⟨j, u, v, hj, hu, hws, huv, hv, hn⟩ := ih k (Nat.lt_succ_self k) h' ht'
      exact ⟨j, u, v, by omega, hu, hws, huv, hv, hn.step hlast (by rw [ht])⟩
    | call _ _ _ _ he =>
      have hw := ht
      rw [he] at hw
      obtain ⟨-, rfl⟩ := List.cons.inj hw
      exact ⟨k, t', t, Nat.lt_succ_self k, h', rfl, hlast, ht, .refl (by rw [ht])⟩
    | @back w' _ _ hw _ =>
      -- the function that returned was called by the active one, and that was called before
      rw [ht] at hw
      obtain ⟨j, u, v, hj, hu, hws, huv, hv, hn⟩ := ih k (Nat.lt_succ_self k) h' hw
      obtain ⟨i, u', v', hi, hu', hws', huv', hv', hn'⟩ := ih j (by omega) hu hws
      have hbefore : Nested m sink (w :: ws) v' v := hn'.step huv (hv ▸ List.suffix_cons w' _)
      have hthere := hbefore.trans (hn.mono (List.suffix_cons w' _))
      exact ⟨i, u', v', by omega, hu', hws', huv', hv', hthere.step hlast (by rw [ht])⟩

/-- A function under execution is at the start of its code, or it has executed an instruction to be where it is. -/
theorem Steps.executed (h : Steps m sink n s t) (hs : s.waiting = [])
    (hstart : s.active.rest = s.active.function.code) :
    t.active.rest = t.active.function.code ∨
      ∃ k u, k < n ∧ Steps m sink k s u ∧ Executes m sink u t := by
  rcases h.last with ⟨-, rfl⟩ | ⟨k, t', rfl, h', hlast⟩
  · exact .inl hstart
  cases State.advances hlast with
  | inside _ _ _ he => exact .inr ⟨k, t', Nat.lt_succ_self k, h', .inside hlast (by rw [he])⟩
  | call _ _ _ _ he => exact .inl (by rw [he])
  | back _ hw _ =>
    obtain ⟨j, u, v, hj, hu, hws, huv, hv, hn⟩ := Steps.called hs h' hw
    rw [← hws] at hv hn
    exact .inr ⟨j, u, by omega, hu, .call huv hv hn hlast hws.symm⟩

/-- An instruction leaves alone what it does not write. -/
theorem Op.Effect.read? {frame frame' : Frame} {op : Op} (h : op.Effect frame frame') {v : Var} (hv : v ∉ op.writes) :
    frame'.read? v = frame.read? v := by
  have hne : ∀ {target : Var} {value : Value}, op.writes = [target] → frame' = frame.write target value →
      frame'.read? v = frame.read? v := by
    rintro target value hw rfl
    rw [hw, List.mem_singleton] at hv
    exact frame.read?_write_of_ne hv value
  cases op with
  | loadInt | loadBool => exact hne rfl h
  | copy => obtain ⟨value, -, he⟩ := h; exact hne rfl he
  | call => obtain ⟨value, he⟩ := h; exact hne rfl he
  | label | jump | branch | leave => obtain rfl := h; rfl

/-- What the execution of an instruction comes to in the active function. -/
structure Executed (s t : State) (i : Instruction) (rest : List Instruction) : Prop where
  waiting : t.waiting = s.waiting
  function : t.active.function = s.active.function
  follows : i.op.Follows s.active.function rest t.active.rest
  read? : ∀ v, v ∉ i.op.writes → t.active.frame.read? v = s.active.frame.read? v

theorem Executes.executed (h : Executes m sink s t) : ∃ i rest, s.active.rest = i :: rest ∧ Executed s t i rest := by
  have hlonger : ∀ {v : State} {w : Waiting}, v.waiting ≠ w :: v.waiting :=
    fun he => absurd (congrArg List.length he) (by simp)
  cases h with
  | inside hstep hwaiting =>
    cases State.advances hstep with
    | @inside i rest _ _ _ hrest heffect hfollows he =>
      subst he
      exact ⟨i, rest, hrest, rfl, rfl, hfollows, fun v hv => heffect.read? hv⟩
    | call _ _ _ _ he => rw [he] at hwaiting; exact absurd hwaiting.symm hlonger
    | back _ hw _ => rw [hwaiting] at hw; exact absurd hw hlonger
  | @call w t' u _ hcall hw hnested hback hwaiting =>
    have hsuffix := hnested.suffix
    cases State.advances hcall with
    | inside _ _ _ he => rw [he] at hw; exact absurd hw hlonger
    | back _ hw' _ =>
      rw [hw] at hw'
      exact absurd (congrArg List.length hw') (by simp; omega)
    | @call i rest _ _ target _ _ hrest hop _ _ he =>
      rw [he] at hw
      obtain ⟨rfl, -⟩ := List.cons.inj hw
      cases State.advances hback with
      | inside _ _ _ he' =>
        rw [he'] at hwaiting
        rw [show u.waiting = s.waiting from hwaiting] at hsuffix
        exact absurd hsuffix.length_le (by simp)
      | call _ _ _ _ he' =>
        rw [he'] at hwaiting
        rw [← hwaiting] at hsuffix
        exact absurd hsuffix.length_le (by simp)
      | back _ hw' he' =>
        rw [hw', hwaiting] at hsuffix
        obtain ⟨rfl, -⟩ := List.cons.inj (hsuffix.eq_of_length rfl)
        refine ⟨i, rest, hrest, hwaiting, by rw [he'], by rw [hop, he']; rfl, fun v hv => ?_⟩
        rw [hop, Op.writes, List.mem_singleton] at hv
        rw [he']
        exact Frame.read?_write_of_ne _ hv _

end

/-! ## Regions -/

/-- No jump leads into a region of code from what is in front of it or behind it. -/
def Sealed (before region rest : List Instruction) : Prop :=
  ∀ i ∈ before ++ rest, ∀ l ∈ i.op.targets, ¬HasLabel region l

/-- Since the machine was at the start of a region, with `rest` behind it, it executed instructions of the region only
in that function, and it was not at the start again. -/
inductive Through (m : Module) (sink : Sink) (region rest : List Instruction) (s : State) : State → Prop
  | start : s.active.rest = region ++ rest → Through m sink region rest s s
  | next {t u : State} {i : Instruction} {q q' : List Instruction} : Through m sink region rest s t →
      t.active.rest = i :: q ++ rest → i :: q <:+ region → Executes m sink t u →
      u.active.rest = q' ++ rest → q' <:+ region → q' ≠ region → Through m sink region rest s u

section

variable {before region rest : List Instruction} {i : Instruction}

/-- In front of what is left of a region, but for its start, there is an instruction of the region. -/
theorem cons_suffix_region {q : List Instruction} (h : i :: (q ++ rest) <:+ before ++ region ++ rest)
    (hq : q <:+ region) (hne : q ≠ region) : i :: q <:+ region := by
  obtain ⟨p, rfl⟩ := hq
  obtain ⟨p, j, rfl⟩ : ∃ p' j, p = p' ++ [j] := by
    rcases List.eq_nil_or_concat p with rfl | ⟨p', j, rfl⟩
    · exact absurd rfl hne
    · exact ⟨p', j, List.concat_eq_append⟩
  have hj : [j] ++ (q ++ rest) <:+ before ++ (p ++ [j] ++ q) ++ rest := ⟨before ++ p, by simp⟩
  have hsame := List.suffix_of_suffix_length_le h hj (by simp)
  obtain ⟨rfl, -⟩ := List.cons.inj (hsame.eq_of_length (by simp))
  exact ⟨p, by simp⟩

/-- An instruction that is neither in front of a region nor behind it is in the region. -/
theorem suffix_region_of_not_mem {r : List Instruction} (h : i :: r <:+ before ++ region ++ rest)
    (hi : i ∉ before ++ rest) : ∃ p, r = p ++ rest ∧ i :: p <:+ region := by
  obtain ⟨hbefore, hrest⟩ := not_or.1 (List.mem_append.not.1 hi)
  obtain ⟨front, h⟩ := h
  rcases List.append_eq_append_iff.1 h with ⟨as, has, hr⟩ | ⟨bs, -, hr⟩
  · cases as with
    | nil =>
      rw [List.nil_append] at hr
      exact absurd (hr ▸ List.mem_cons_self) hrest
    | cons j p =>
      obtain ⟨rfl, rfl⟩ := List.cons.inj hr
      refine ⟨p, rfl, ?_⟩
      rcases List.append_eq_append_iff.1 has with ⟨as, -, hregion⟩ | ⟨bs, hb, hp⟩
      · exact ⟨as, hregion.symm⟩
      · cases bs with
        | nil =>
          rw [List.nil_append] at hp
          exact hp ▸ List.suffix_refl _
        | cons j bs =>
          obtain ⟨rfl, -⟩ := List.cons.inj hp
          exact absurd (hb ▸ List.mem_append_right front List.mem_cons_self) hbefore
  · exact absurd (hr ▸ List.mem_append_right bs List.mem_cons_self) hrest

/-- What leads into a region that no jump leads into, but not to its start, is in the region. -/
theorem Op.Follows.of_sealed {f : Function} (hcode : f.code = before ++ region ++ rest)
    (hsealed : Sealed before region rest) {r q : List Instruction} (hi : i :: r <:+ f.code)
    (h : i.op.Follows f r (q ++ rest)) (hq : q <:+ region) (hne : q ≠ region) :
    ∃ p, r = p ++ rest ∧ i :: p <:+ region := by
  rw [hcode] at hi
  rcases h.next_or_jump with rfl | ⟨l, hl, hbehind⟩
  · exact ⟨q, rfl, cons_suffix_region hi hq hne⟩
  · obtain ⟨j, hj, hsuffix⟩ := codeBehind?_eq_some hbehind
    rw [hcode] at hsuffix
    have hlabel : j ∈ region := (cons_suffix_region hsuffix hq hne).subset List.mem_cons_self
    exact suffix_region_of_not_mem hi fun hmem => hsealed i hmem l hl ⟨j, hlabel, hj⟩

variable {m : Module} {sink : Sink} {n : Nat} {s t : State}

/-- A run that is behind a region, or in it, has come through the region from its start, if no jump leads into it. -/
theorem Steps.through {input : List UInt8} (hs : m.start input = .running s) (hsealed : Sealed before region rest) :
    ∀ {n : Nat} {t : State} {q : List Instruction}, Steps m sink n s t →
      t.active.function.code = before ++ region ++ rest → t.active.rest = q ++ rest → q <:+ region →
      ∃ k u, k ≤ n ∧ Steps m sink k s u ∧ Through m sink region rest u t := by
  obtain ⟨hof, hwaiting, hstart⟩ := Module.start_running hs
  intro n
  induction n using Nat.strongRecOn with
  | ind n ih =>
    intro t q h hcode hrest hq
    by_cases hne : q = region
    · subst hne
      exact ⟨n, t, Nat.le_refl n, h, .start hrest⟩
    rcases h.executed hwaiting hstart with hfresh | ⟨k, u, hk, hu, hut⟩
    · rw [hrest, hcode] at hfresh
      have hlength := congrArg List.length hfresh
      have hle := hq.length_le
      simp only [List.length_append] at hlength
      exact absurd (hq.eq_of_length (by omega)) hne
    · obtain ⟨i, r, hr, hexecuted⟩ := hut.executed
      have hcode' : u.active.function.code = before ++ region ++ rest := by rw [← hexecuted.function, hcode]
      have hsuffix : i :: r <:+ u.active.function.code := hr ▸ (hof.steps hu).active.suffix
      have hfollows := hexecuted.follows
      rw [hrest] at hfollows
      obtain ⟨p, rfl, hp⟩ := hfollows.of_sealed hcode' hsealed hsuffix hq hne
      obtain ⟨j, v, hj, hv, hthrough⟩ := ih k hk hu hcode' hr hp
      exact ⟨j, v, by omega, hv, hthrough.next hr hp hut hrest hq hne⟩

/-- What a variable held at the start of a region it holds still, or an instruction of the region has written it. Then
it holds what it did when the last one of these was executed. -/
theorem Through.read? (h : Through m sink region rest s t) (v : Var) :
    t.active.frame.read? v = s.active.frame.read? v ∨
      ∃ u u' i r, Through m sink region rest s u ∧ u.active.rest = i :: r ∧ i ∈ region ∧ v ∈ i.op.writes ∧
        Executes m sink u u' ∧ Relation.ReflTransGen (Executes m sink) u' t ∧
        t.active.frame.read? v = u'.active.frame.read? v := by
  induction h with
  | start => exact .inl rfl
  | @next t u i q q' ht hrest hq htu _ _ _ ih =>
    obtain ⟨j, r, hr, hexecuted⟩ := htu.executed
    obtain rfl : i = j := (List.cons.inj (hrest.symm.trans hr)).1
    by_cases hv : v ∈ i.op.writes
    · exact .inr ⟨t, u, i, q ++ rest, ht, hrest, hq.subset List.mem_cons_self, hv, htu, .refl, rfl⟩
    · have hkept := hexecuted.read? v hv
      rcases ih with hsame | ⟨a, a', j, r', ha, har, hj, hwrites, haa, hat, hsame⟩
      · exact .inl (hkept.trans hsame)
      · exact .inr ⟨a, a', j, r', ha, har, hj, hwrites, haa, hat.tail htu, hkept.trans hsame⟩

end

end Exprc.IR
