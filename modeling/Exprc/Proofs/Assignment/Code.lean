/-
Lowered code reads what was written. If each name in an expression stands for a variable that has a
value on all ways there, then the fragment of the expression reads only what was written, whichever
way control takes through it. What follows a fragment may rely on the variables that are marked then,
and on the value of the fragment.
-/
import Exprc.Proofs.Assignment.Flow
import Exprc.Proofs.IR.Paths
import Exprc.Proofs.Lowering.Labels

namespace Exprc.Lowering

open Syntax IR

/-! ## Variables in scope -/

theorem Locals.flatten_bind (Δ : Locals) (l : Local) : (Δ.bind l).flatten = l :: Δ.flatten := by
  cases Δ <;> rfl

theorem Locals.find?_flatten (Δ : Locals) (x : String) :
    Δ.flatten.find? (·.name == x) = Δ.find? x := List.find?_flatten

/-- The second stage has some more variables in scope, the last one first. -/
def Stage.Adds (s s' : Stage) (names : List String) : Prop :=
  ∃ new, s'.locals.flatten = new ++ s.locals.flatten ∧ new.map (·.name) = names

namespace Stage.Adds

variable {s s₁ s₂ : Stage} {xs ys : List String}

theorem refl (s : Stage) : s.Adds s [] := ⟨[], rfl, rfl⟩

theorem trans (h : s.Adds s₁ xs) (h' : s₁.Adds s₂ ys) : s.Adds s₂ (ys ++ xs) := by
  obtain ⟨new, hl, rfl⟩ := h
  obtain ⟨new', hl', rfl⟩ := h'
  exact ⟨new' ++ new, by rw [hl', hl, List.append_assoc], List.map_append⟩

theorem temp (h : s.Adds s₁ xs) (τ : Ty) : s.Adds (s₁.withTemp τ) xs := h

theorem labels {count : Nat} (h : (s.withLabels count).Adds s₁ xs) : s.Adds s₁ xs := h

theorem declare (h : s.Adds s₁ xs) (x : String) (τ : Ty) : s.Adds (s₁.declare x τ) (x :: xs) := by
  obtain ⟨new, hl, rfl⟩ := h
  refine ⟨⟨x, s₁.nextTemp, τ⟩ :: new, ?_, rfl⟩
  change (s₁.locals.bind _).flatten = _
  rw [Locals.flatten_bind, hl, List.cons_append]

end Stage.Adds

theorem Merges.adds {location : Location} {τ : Ty} {s s' : Stage} {v : Var} {f : Fragment}
    (h : Merges location τ s v f s') : s.Adds s' [] := ⟨[], by rw [h.locals_eq]; rfl, rfl⟩

section

variable {sig : String → Option Signature} {ρ? : Option Ty}

mutual

/-- Lowering an expression adds the variables that it declares. -/
theorem Lowers.adds :
    ∀ {loop? : Option LoopLabels} {s s' : Stage} {e : Expr} {τ : Ty} {f : Fragment},
      Lowers sig ρ? loop? s e τ f s' → s.Adds s' e.declares
  | _, s, _, _, _, _, .int | _, s, _, _, _, _, .bool | _, s, _, _, _, _, .unit
  | _, s, _, _, _, _, .name _ | _, s, _, _, _, _, .control | _, s, _, _, _, _, .leave _ =>
    ⟨[], rfl, rfl⟩
  | _, _, _, _, _, _, .unary h _ => by
    simpa [Expr.declares, Expr.allDeclare] using h.adds.temp _
  | _, _, _, _, _, _, .binary _ h _ => by
    simpa [Expr.declares, Expr.allDeclare] using h.adds.temp _
  | _, _, _, _, _, _, .call _ _ h => by
    simpa only [Expr.declares] using h.adds.temp _
  | _, _, _, _, _, _, .shortCircuit _ h₁ h₂ => by
    simpa only [Expr.declares] using (h₁.adds.labels.trans h₂.adds).temp _
  | _, _, _, _, _, _, .assign _ h => by simpa only [Expr.declares] using h.adds
  | _, _, _, _, _, _, .leaveWith _ h => by simpa only [Expr.declares] using h.adds
  | _, _, _, _, _, _, .ifThen h₁ h₂ => by
    simpa only [Expr.declares] using h₁.adds.labels.trans h₂.adds
  | _, _, _, _, _, _, .ifElseUnit _ h₁ h₂ h₃ => by
    simpa only [Expr.declares] using (h₁.adds.labels.trans h₂.adds).trans h₃.adds
  | _, _, _, _, _, _, .ifElse _ _ h₁ h₂ hm h₃ => by
    simpa only [Expr.declares, List.nil_append] using
      ((h₁.adds.labels.trans h₂.adds).trans hm.adds).trans h₃.adds
  | _, _, _, _, _, _, .loop h₁ h₂ => by
    simpa only [Expr.declares] using h₁.adds.labels.trans h₂.adds
  | _, s, _, _, _, _, .block h => ⟨[], by rw [h.extends.leave.1]; rfl, rfl⟩
  | _, _, _, _, _, _, .declare h => h.adds.declare _ _

theorem LowersStatements.adds :
    ∀ {loop? : Option LoopLabels} {s s' : Stage} {es : List Expr} {τ₀ : Ty} {last : Var} {τ : Ty}
      {f : Fragment}, LowersStatements sig ρ? loop? s es τ₀ last τ f s' →
      s.Adds s' (Expr.allDeclare es)
  | _, s, _, _, _, _, _, _, .nil => .refl s
  | _, _, _, _, _, _, _, _, .cons h hs => h.adds.trans hs.adds

theorem LowersArguments.adds :
    ∀ {loop? : Option LoopLabels} {s s' : Stage} {es : List Expr} {τs : List Ty}
      {fs : List Fragment}, LowersArguments sig ρ? loop? s es τs fs s' →
      s.Adds s' (Expr.allDeclare es)
  | _, s, _, _, _, _, .nil => .refl s
  | _, _, _, _, _, _, .cons h hs => h.adds.trans hs.adds

end

/-! ## Marked variables -/

/-- Each variable that is marked was written. -/
def Marked (W : List Var) (marks : Marks) (ls : List Local) : Prop :=
  List.Forall₂ (fun p l => p.1 = l.name ∧ (p.2 = true → .temp l.temp ∈ W)) marks ls

namespace Marked

variable {V W : List Var} {marks : Marks} {ls : List Local} {x : String} {l : Local}

theorem mono (hW : W ⊆ V) (h : Marked W marks ls) : Marked V marks ls :=
  List.Forall₂.imp (fun _ _ hp => ⟨hp.1, fun hv => hW (hp.2 hv)⟩) h

/-- A name that is marked stands for a variable that was written. -/
theorem has (h : Marked W marks ls) (hl : ls.find? (·.name == x) = some l)
    (hx : marks.has x = true) : .temp l.temp ∈ W := by
  induction h with
  | nil => cases hl
  | @cons p k marks ls hp _ ih =>
    obtain ⟨y, value⟩ := p
    obtain rfl : y = k.name := hp.1
    by_cases hy : k.name = x
    · rw [List.find?_cons_of_pos (by simpa using hy)] at hl
      rw [Marks.has, if_pos hy] at hx
      obtain rfl := Option.some.inj hl
      exact hp.2 hx
    · rw [List.find?_cons_of_neg (by simpa using hy)] at hl
      rw [Marks.has, if_neg hy] at hx
      exact ih hl hx

/-- The variable that a name stands for is marked when it is written. -/
theorem assign (h : Marked W marks ls) (hl : ls.find? (·.name == x) = some l)
    (hv : .temp l.temp ∈ W) : Marked W (marks.assign x) ls := by
  induction h with
  | nil => exact .nil
  | @cons p k marks ls hp hs ih =>
    obtain ⟨y, value⟩ := p
    obtain rfl : y = k.name := hp.1
    rw [Marks.assign]
    by_cases hy : k.name = x
    · rw [List.find?_cons_of_pos (by simpa using hy)] at hl
      obtain rfl := Option.some.inj hl
      rw [if_pos hy]
      exact .cons ⟨rfl, fun _ => hv⟩ hs
    · rw [List.find?_cons_of_neg (by simpa using hy)] at hl
      rw [if_neg hy]
      exact .cons hp (ih hl)

/-- Variables that control passes by are not marked. -/
theorem skip {s s' : Stage} {names : List String} (h : Marked W marks s.locals.flatten)
    (ha : s.Adds s' names) : Marked W (marks.skip names) s'.locals.flatten := by
  obtain ⟨new, hl, rfl⟩ := ha
  rw [hl, Marks.skip]
  refine List.rel_append ?_ h
  rw [List.map_map, List.forall₂_map_left_iff, List.forall₂_same]
  exact fun l _ => ⟨rfl, Bool.noConfusion⟩

theorem drop {s s' : Stage} {names : List String} (h : Marked W marks s'.locals.flatten)
    (ha : s.Adds s' names) : Marked W (marks.drop names.length) s.locals.flatten := by
  obtain ⟨new, hl, rfl⟩ := ha
  have hd := List.forall₂_drop new.length h
  rw [hl, List.drop_left] at hd
  rwa [List.length_map]

theorem assignBelow {s s' : Stage} {names : List String} (h : Marked W marks s'.locals.flatten)
    (ha : s.Adds s' names) (hl : s.locals.flatten.find? (·.name == x) = some l)
    (hv : .temp l.temp ∈ W) : Marked W (marks.assignBelow names.length x) s'.locals.flatten := by
  have hold := (h.drop ha).assign hl hv
  obtain ⟨new, hn, rfl⟩ := ha
  have htake := List.forall₂_take new.length h
  rw [hn, List.take_left] at htake
  rw [hn, Marks.assignBelow, List.length_map]
  rw [List.length_map] at hold
  exact List.rel_append htake hold

theorem declare {s : Stage} (h : Marked W marks s.locals.flatten) (x : String) (τ : Ty)
    (hv : .temp s.nextTemp ∈ W) : Marked W ((x, true) :: marks) (s.declare x τ).locals.flatten := by
  change Marked W _ (s.locals.bind _).flatten
  rw [Locals.flatten_bind]
  exact .cons ⟨rfl, fun _ => hv⟩ h

theorem names (h : Marked W marks ls) : marks.names = ls.map (·.name) := by
  induction h with
  | nil => rfl
  | cons hp _ ih => exact congrArg₂ List.cons hp.1 ih

theorem meet_left {a b : Marks} (h : Marked W a ls) (hn : a.names = b.names) :
    Marked W (a.meet b) ls := by
  induction h generalizing b with
  | nil => exact .nil
  | cons hp _ ih =>
    cases b with
    | nil => cases hn
    | cons q b =>
      refine .cons ⟨hp.1, fun hv => hp.2 ?_⟩ (ih (List.cons.inj hn).2)
      exact (Bool.and_eq_true_iff.1 hv).1

theorem meet_right {a b : Marks} (h : Marked W b ls) (hn : a.names = b.names) :
    Marked W (a.meet b) ls := by
  induction h generalizing a with
  | nil =>
    obtain rfl := List.map_eq_nil_iff.1 hn
    exact .nil
  | cons hq _ ih =>
    cases a with
    | nil => cases hn
    | cons p a =>
      obtain ⟨hname, hn⟩ := List.cons.inj hn
      refine .cons ⟨hname.trans hq.1, fun hv => hq.2 ?_⟩ (ih hn)
      exact (Bool.and_eq_true_iff.1 hv).2

end Marked

/-! ## Control at a stage -/

/-- Control is at a place where a flow is known, and the variables marked there were written. -/
def Reached (W : List Var) (φ : Flow) (s : Stage) : Prop :=
  ∃ marks, φ = some marks ∧ Marked W marks s.locals.flatten

/-- A flow is about the variables in scope. -/
def Fits (φ : Flow) (s : Stage) : Prop := φ.Knows (s.locals.flatten.map (·.name))

theorem Fits.skip {φ : Flow} {s s' : Stage} {names : List String} (h : Fits φ s)
    (ha : s.Adds s' names) : Fits (φ.skip names) s' := by
  obtain ⟨new, hl, rfl⟩ := ha
  rw [Fits, hl, List.map_append]
  exact Flow.Knows.skip h _

theorem Lowers.fits {loop? : Option LoopLabels} {s s' : Stage} {e : Expr} {τ : Ty} {f : Fragment}
    (h : Lowers sig ρ? loop? s e τ f s') {φ : Flow} (hφ : Fits φ s) : Fits (e.after φ) s' := by
  obtain ⟨new, hl, hn⟩ := h.adds
  rw [Fits, hl, List.map_append, hn]
  exact e.after_knows hφ

namespace Reached

variable {V W : List Var} {s s' : Stage} {φ ψ : Flow} {x : String} {l : Local}

theorem mono (hW : W ⊆ V) (h : Reached W φ s) : Reached V φ s :=
  let ⟨marks, hφ, hm⟩ := h; ⟨marks, hφ, hm.mono hW⟩

theorem cons {v : Var} (h : Reached W φ s) : Reached (v :: W) φ s := h.mono (List.subset_cons_self v W)

theorem has (h : Reached W φ s) (hl : s.locals.find? x = some l)
    (hx : φ.all (·.has x) = true) : .temp l.temp ∈ W := by
  obtain ⟨marks, rfl, hm⟩ := h
  exact hm.has (by rw [Locals.find?_flatten, hl]) hx

theorem assign (h : Reached W φ s') {names : List String} (ha : s.Adds s' names)
    (hl : s.locals.find? x = some l) (hv : .temp l.temp ∈ W) :
    Reached W (φ.map (·.assignBelow names.length x)) s' := by
  obtain ⟨marks, rfl, hm⟩ := h
  exact ⟨_, rfl, hm.assignBelow ha (by rw [Locals.find?_flatten, hl]) hv⟩

theorem skip (h : Reached W φ s) {names : List String} (ha : s.Adds s' names) :
    Reached W (φ.skip names) s' := by
  obtain ⟨marks, rfl, hm⟩ := h
  exact ⟨_, rfl, hm.skip ha⟩

theorem drop (h : Reached W φ s') {names : List String} (ha : s.Adds s' names) :
    Reached W (φ.map (·.drop names.length)) s := by
  obtain ⟨marks, rfl, hm⟩ := h
  exact ⟨_, rfl, hm.drop ha⟩

theorem declare (h : Reached W φ s) (x : String) (τ : Ty) (hv : .temp s.nextTemp ∈ W) :
    Reached W (φ.map ((x, true) :: ·)) (s.declare x τ) := by
  obtain ⟨marks, rfl, hm⟩ := h
  exact ⟨_, rfl, hm.declare x τ hv⟩

theorem fits (h : Reached W φ s) : Fits φ s := by
  obtain ⟨marks, rfl, hm⟩ := h
  intro marks' he
  obtain rfl := Option.some.inj he
  exact hm.names

/-- Of two ways to a place, control came the first. -/
theorem meet_left (h : Reached W φ s) (hψ : Fits ψ s) : Reached W (φ.meet ψ) s := by
  have hφ := h.fits
  obtain ⟨a, rfl, hm⟩ := h
  cases ψ with
  | none => exact ⟨a, rfl, hm⟩
  | some b => exact ⟨_, rfl, hm.meet_left ((hφ a rfl).trans (hψ b rfl).symm)⟩

/-- Of two ways to a place, control came the second. -/
theorem meet_right (hφ : Fits φ s) (h : Reached W ψ s) : Reached W (φ.meet ψ) s := by
  have hψ := h.fits
  obtain ⟨b, rfl, hm⟩ := h
  cases φ with
  | none => exact ⟨b, rfl, hm⟩
  | some a => exact ⟨_, rfl, hm.meet_right ((hφ a rfl).trans (hψ b rfl).symm)⟩

end Reached

/-! ## Fragments -/

/-- The labels of the loop around an expression, if there is one, lead to code that reads only what was
written, if some variables were written before. -/
def LoopReadsWritten (F : Function) (loop? : Option LoopLabels) (n : Nat) (W : List Var) : Prop :=
  ∀ labels, loop? = some labels → ∀ c, ∃ code, codeBehind? (labels.target c) F.code = some code ∧
    ∀ V, W ⊆ V → ReadsWritten F n V code

theorem LoopReadsWritten.none {F : Function} {n : Nat} {W : List Var} :
    LoopReadsWritten F none n W := fun _ h => nomatch h

theorem LoopReadsWritten.mono {F : Function} {loop? : Option LoopLabels} {m n : Nat}
    {V W : List Var} (hm : m ≤ n) (hW : W ⊆ V) (h : LoopReadsWritten F loop? n W) :
    LoopReadsWritten F loop? m V := by
  intro labels hl c
  obtain ⟨code, hc, hr⟩ := h labels hl c
  exact ⟨code, hc, fun U hU => (hr U (List.Subset.trans hW hU)).mono hm (List.Subset.refl _)⟩

variable {F : Function}

/-- The variable that branches merge into is written in the first branch. -/
theorem Merges.readsWritten {location : Location} {τ : Ty} {s s' : Stage} {v : Var} {m : Fragment}
    {W : List Var} {n : Nat} {post : List Instruction} (h : Merges location τ s v m s')
    (hv : Written W v)
    (hpost : ∀ V, W ⊆ V → Written V m.value → ReadsWritten F n V post) :
    ReadsWritten F n W (m.code ++ post) := by
  cases h with
  | reuse => exact hpost W (List.Subset.refl W) hv
  | copy => exact .copy hv (hpost _ (List.subset_cons_self _ _) (.inr List.mem_cons_self))

mutual

/-- A fragment reads only what was written if what follows it does. -/
theorem Lowers.readsWritten (hF : Unambiguous F.code) :
    ∀ {loop? : Option LoopLabels} {s s' : Stage} {e : Expr} {τ : Ty} {f : Fragment},
      Lowers sig ρ? loop? s e τ f s' → ∀ {φ : Flow} {W : List Var} {n : Nat}
      {post : List Instruction}, e.readsAssigned φ = true → Reached W φ s →
      f.code ++ post <:+ F.code → LoopReadsWritten F loop? n W →
      (∀ V, W ⊆ V → Reached V (e.after φ) s' → Written V f.value → ReadsWritten F n V post) →
      ReadsWritten F n W (f.code ++ post)
  | _, _, _, _, _, _, .int, _, _, _, _, _, hs, _, _, hpost =>
    .loadInt (hpost _ (List.subset_cons_self _ _) hs.cons (.inr List.mem_cons_self))
  | _, _, _, _, _, _, .bool, _, _, _, _, _, hs, _, _, hpost =>
    .loadBool (hpost _ (List.subset_cons_self _ _) hs.cons (.inr List.mem_cons_self))
  | _, _, _, _, _, _, .unit, _, W, _, _, _, hs, _, _, hpost =>
    hpost W (List.Subset.refl _) hs (.inl rfl)
  | _, _, _, _, _, _, .name hl, _, W, _, _, hr, hs, _, _, hpost =>
    hpost W (List.Subset.refl _) hs (.inr (hs.has hl hr))
  | _, _, _, _, _, _, .unary h _, _, _, _, _, hr, hs, hcode, hloop, hpost => by
    simp only [Expr.after] at hpost
    simp only [applied, emit, List.map_cons, List.map_nil, List.append_assoc, List.cons_append,
      List.nil_append] at hcode ⊢
    refine h.readsWritten hF (by simpa [Expr.allReadAssigned, Expr.readsAssigned] using hr) hs hcode
      hloop fun V hV hs₁ hvs => .call hvs ?_
    exact hpost _ (List.subset_cons_of_subset _ hV) hs₁.cons (.inr List.mem_cons_self)
  | _, _, _, _, _, _, .binary hop h _, _, _, _, _, hr, hs, hcode, hloop, hpost => by
    simp only [Expr.after, hop, Bool.false_eq_true, if_false] at hpost
    simp only [applied, emit, List.map_cons, List.map_nil, List.append_assoc, List.cons_append,
      List.nil_append] at hcode ⊢
    refine h.readsWritten hF (by simpa [Expr.allReadAssigned, Expr.readsAssigned] using hr) hs hcode
      hloop fun V hV hs₁ hvs => .call hvs ?_
    exact hpost _ (List.subset_cons_of_subset _ hV) hs₁.cons (.inr List.mem_cons_self)
  | _, _, _, _, _, _, .call _ _ h, _, _, _, _, hr, hs, hcode, hloop, hpost => by
    simp only [Expr.after] at hpost
    simp only [applied, emit, List.map_cons, List.map_nil, List.append_assoc, List.cons_append,
      List.nil_append] at hcode ⊢
    refine h.readsWritten hF hr hs hcode hloop fun V hV hs₁ hvs => .call hvs ?_
    exact hpost _ (List.subset_cons_of_subset _ hV) hs₁.cons (.inr List.mem_cons_self)
  | _, s, _, .binary _ op _ _ _, _, _, .shortCircuit hop h₁ h₂, φ, W, n, _, hr, hs, hcode, hloop, hpost => by
    simp only [Expr.readsAssigned, Bool.and_eq_true] at hr
    simp only [Expr.after, hop, if_true] at hpost
    simp only [emit, List.map_cons, List.map_nil, List.append_assoc, List.cons_append,
      List.nil_append] at hcode ⊢
    obtain ⟨hcode₂, hright, hskip, hdone⟩ := hF.shortCircuit hcode
    refine h₁.readsWritten hF hr.1 hs hcode hloop fun V hV hs₁ hv => ?_
    have ht : ∀ {U m location rest}, V ⊆ U → Reached U _ _ → m ≤ n →
        ReadsWritten F m (.temp _ :: U) (⟨location, .jump ⟨s.nextLabel + 2⟩⟩ :: rest) :=
      fun hU hs₂ hm => .jump hdone fun k hk =>
        (hpost _ (List.subset_cons_of_subset _ (List.Subset.trans hV hU)) hs₂.cons
          (.inr List.mem_cons_self)).mono (by omega) (List.Subset.refl _)
    have hyes : ∀ m < n, ReadsWritten F m V _ := fun m hm =>
      (h₂.readsWritten hF hr.2 hs₁ hcode₂ (hloop.mono (Nat.le_refl n) hV) fun U hU hs₂ hv₂ =>
        .copy hv₂ (ht hU (.meet_right (hs₁.fits.skip h₂.adds) hs₂) (Nat.le_refl n))).mono
        (Nat.le_of_lt hm) (List.Subset.refl _)
    have hno : ∀ {location location' b rest}, ∀ m < n, ReadsWritten F m V (⟨location, .loadBool b _⟩ ::
        ⟨location', .jump ⟨s.nextLabel + 2⟩⟩ :: rest) := fun m hm =>
      .loadBool (ht (List.Subset.refl V) ((hs₁.skip h₂.adds).meet_left (h₂.fits hs₁.fits))
        (Nat.le_of_lt hm))
    split
    · exact .branch hv hskip hright hno hyes
    · exact .branch hv hright hskip hyes hno
  | _, _, _, _, _, _, .assign hl h, _, _, _, _, hr, hs, hcode, hloop, hpost => by
    simp only [emit, List.map_cons, List.map_nil, List.append_assoc, List.cons_append,
      List.nil_append] at hcode ⊢
    simp only [Expr.after] at hpost
    refine h.readsWritten hF hr hs hcode hloop fun V hV hs₁ hv => .copy hv ?_
    exact hpost _ (List.subset_cons_of_subset _ hV) (hs₁.cons.assign h.adds hl List.mem_cons_self)
      (hv.mono (List.subset_cons_self _ _))
  | _, _, _, _, _, _, .ifThen h₁ h₂, _, _, n, _, hr, hs, hcode, hloop, hpost => by
    simp only [Expr.readsAssigned, Bool.and_eq_true] at hr
    simp only [Expr.after] at hpost
    simp only [emit, List.map_cons, List.map_nil, List.append_assoc, List.cons_append,
      List.nil_append] at hcode ⊢
    obtain ⟨hcode₂, hyes, hdone⟩ := hF.ifThen hcode
    refine h₁.readsWritten hF hr.1 hs hcode hloop fun V hV hs₁ hv => ?_
    refine .branch hv hyes hdone (fun m hm => ?_) fun m hm => ?_
    · refine (h₂.readsWritten hF hr.2 hs₁ hcode₂ (hloop.mono (Nat.le_refl n) hV)
        fun U hU hs₂ hv₂ => .label ?_).mono (Nat.le_of_lt hm) (List.Subset.refl _)
      exact hpost U (List.Subset.trans hV hU) (.meet_right (hs₁.fits.skip h₂.adds) hs₂) (.inl rfl)
    · refine (hpost V hV ?_ (.inl rfl)).mono (Nat.le_of_lt hm) (List.Subset.refl _)
      exact (hs₁.skip h₂.adds).meet_left (h₂.fits hs₁.fits)
  | _, _, _, _, _, _, .ifElseUnit _ h₁ h₂ h₃, _, _, n, _, hr, hs, hcode, hloop, hpost => by
    simp only [Expr.readsAssigned, Bool.and_eq_true] at hr
    simp only [Expr.after] at hpost
    simp only [emit, List.map_cons, List.map_nil, List.append_assoc, List.cons_append,
      List.nil_append] at hcode ⊢
    obtain ⟨hcode₂, hcode₃, hyes, hno, hdone⟩ := hF.ifElse (m := []) (c := []) hcode
    refine h₁.readsWritten hF hr.1.1 hs hcode hloop fun V hV hs₁ hv => ?_
    have hloop' := hloop.mono (Nat.le_refl n) hV
    have hfits := h₂.fits hs₁.fits
    refine .branch hv hyes hno (fun m hm => ?_) fun m hm => ?_
    · refine (h₂.readsWritten hF hr.1.2 hs₁ hcode₂ hloop' fun U hU hs₂ hv₂ =>
        .jump hdone fun k hk => ?_).mono (Nat.le_of_lt hm) (List.Subset.refl _)
      refine (hpost U (List.Subset.trans hV hU) ?_ (.inl rfl)).mono (Nat.le_of_lt hk) (List.Subset.refl _)
      exact (hs₂.skip h₃.adds).meet_left (h₃.fits (hs₁.fits.skip h₂.adds))
    · refine (h₃.readsWritten hF hr.2 (hs₁.skip h₂.adds) hcode₃ hloop' fun U hU hs₃ hv₃ =>
        .label ?_).mono (Nat.le_of_lt hm) (List.Subset.refl _)
      exact hpost U (List.Subset.trans hV hU) (.meet_right (hfits.skip h₃.adds) hs₃) (.inl rfl)
  | _, _, _, _, _, _, .ifElse _ _ h₁ h₂ hm h₃, _, _, n, _, hr, hs, hcode, hloop, hpost => by
    simp only [Expr.readsAssigned, Bool.and_eq_true] at hr
    simp only [Expr.after] at hpost
    simp only [emit, List.map_cons, List.map_nil, List.append_assoc, List.cons_append,
      List.nil_append] at hcode ⊢
    obtain ⟨hcode₂, hcode₃, hyes, hno, hdone⟩ := hF.ifElse (c := [_]) hcode
    refine h₁.readsWritten hF hr.1.1 hs hcode hloop fun V hV hs₁ hv => ?_
    have hloop' := hloop.mono (Nat.le_refl n) hV
    have hfits := h₂.fits hs₁.fits
    have hadds₂ := h₂.adds.trans hm.adds
    have hadds₃ := hm.adds.trans h₃.adds
    rw [List.nil_append] at hadds₂
    rw [List.append_nil] at hadds₃
    refine .branch hv hyes hno (fun k hk => ?_) fun k hk => ?_
    · refine (h₂.readsWritten hF hr.1.2 hs₁ hcode₂ hloop' fun U hU hs₂ hv₂ =>
        hm.readsWritten hv₂ fun T hT hmv => .jump hdone fun j hj => ?_).mono (Nat.le_of_lt hk)
        (List.Subset.refl _)
      refine (hpost T (List.Subset.trans (List.Subset.trans hV hU) hT) ?_ hmv).mono
        (Nat.le_of_lt hj) (List.Subset.refl _)
      exact ((hs₂.mono hT).skip hadds₃).meet_left (h₃.fits (hs₁.fits.skip hadds₂))
    · refine (h₃.readsWritten hF hr.2 (hs₁.skip hadds₂) hcode₃ hloop' fun U hU hs₃ hv₃ =>
        .copy hv₃ (.label ?_)).mono (Nat.le_of_lt hk) (List.Subset.refl _)
      exact hpost _ (List.subset_cons_of_subset _ (List.Subset.trans hV hU))
        (.meet_right (hfits.skip hadds₃) hs₃.cons) (.inr List.mem_cons_self)
  | _, s, _, _, _, _, .loop (f := f) (g := g) h₁ h₂, _, W, n, post, hr, hs, hcode, hloop, hpost => by
    simp only [Expr.readsAssigned, Bool.and_eq_true] at hr
    simp only [Expr.after] at hpost
    simp only [emit, List.map_cons, List.map_nil, List.append_assoc, List.cons_append,
      List.nil_append] at hcode ⊢
    obtain ⟨hcode₂, hstart, hbody, hexit⟩ := hF.loop hcode
    -- every way back to the start of the loop takes a step, and what was written stays so
    refine .label ((?_ : ∀ m ≤ n, ∀ V, W ⊆ V → ReadsWritten F m V _) n (Nat.le_refl n) W
      (List.Subset.refl W))
    intro m
    induction m using Nat.strongRecOn with
    | ind m ih =>
      intro hm V hV
      refine h₁.readsWritten hF hr.1 (hs.mono hV) (suffix_drop 1 hcode) (hloop.mono hm hV)
        fun U hU hs₁ hv => ?_
      have hpost' : ∀ {T k}, U ⊆ T → k ≤ n → ReadsWritten F k T post := fun hT hk =>
        (hpost _ (List.Subset.trans (List.Subset.trans hV hU) hT) ((hs₁.mono hT).skip h₂.adds)
          (.inl rfl)).mono hk (List.Subset.refl _)
      refine .branch hv hbody hexit (fun k hk => ?_) fun k hk =>
        hpost' (List.Subset.refl U) (by omega)
      refine h₂.readsWritten hF hr.2 hs₁ hcode₂ ?_ fun T hT _ _ => .jump hstart fun i hi =>
        ih i (by omega) (by omega) T (List.Subset.trans (List.Subset.trans hV hU) hT)
      intro labels hl c
      obtain rfl := Option.some.inj hl
      cases c with
      | exit => exact ⟨_, hexit, fun T hT => hpost' hT (by omega)⟩
      | next =>
        exact ⟨_, hstart, fun T hT =>
          ih k hk (by omega) T (List.Subset.trans (List.Subset.trans hV hU) hT)⟩
  | _, _, _, .block _ es, _, _, .block h, _, _, _, _, hr, hs, hcode, hloop, hpost => by
    simp only [Expr.after] at hpost
    refine h.readsWritten hF hr hs (.inl rfl) hcode hloop fun V hV hs₁ hv => hpost V hV ?_ hv
    obtain ⟨marks, hm, hmarked⟩ := hs₁.drop h.adds
    exact ⟨marks, hm, by rw [h.extends.leave.1]; exact hmarked⟩
  | _, _, _, _, _, _, .declare h, _, _, _, _, hr, hs, hcode, hloop, hpost => by
    simp only [emit, List.map_cons, List.map_nil, List.append_assoc, List.cons_append,
      List.nil_append] at hcode ⊢
    simp only [Expr.after] at hpost
    refine h.readsWritten hF hr hs hcode hloop fun V hV hs₁ hv => .copy hv ?_
    exact hpost _ (List.subset_cons_of_subset _ hV) (hs₁.cons.declare _ _ List.mem_cons_self) (.inl rfl)
  | _, _, _, .control _ c, _, _, .control, _, W, n, _, _, _, _, hloop, _ => by
    obtain ⟨code, hl, hc⟩ := hloop _ rfl c
    exact .jump hl fun m hm => (hc W (List.Subset.refl _)).mono (Nat.le_of_lt hm) (List.Subset.refl _)
  | _, _, _, _, _, _, .leave _, _, _, _, _, _, _, _, _, _ => .leave (.inl rfl)
  | _, _, _, _, _, _, .leaveWith _ h, _, _, _, _, hr, hs, hcode, hloop, _ => by
    rw [List.append_assoc] at hcode ⊢
    exact h.readsWritten hF hr hs hcode hloop fun V _ _ hv => .leave hv

theorem LowersStatements.readsWritten (hF : Unambiguous F.code) :
    ∀ {loop? : Option LoopLabels} {s s' : Stage} {es : List Expr} {τ₀ : Ty} {last : Var} {τ : Ty}
      {f : Fragment}, LowersStatements sig ρ? loop? s es τ₀ last τ f s' → ∀ {φ : Flow}
      {W : List Var} {n : Nat} {post : List Instruction}, Expr.allReadAssigned es φ = true →
      Reached W φ s → Written W last → f.code ++ post <:+ F.code → LoopReadsWritten F loop? n W →
      (∀ V, W ⊆ V → Reached V (Expr.afterAll es φ) s' → Written V f.value →
        ReadsWritten F n V post) →
      ReadsWritten F n W (f.code ++ post)
  | _, _, _, _, _, _, _, _, .nil, _, W, _, _, _, hs, hlast, _, _, hpost =>
    hpost W (List.Subset.refl _) hs hlast
  | _, _, _, _, _, _, _, _, .cons h hs', _, _, n, _, hr, hs, _, hcode, hloop, hpost => by
    simp only [Expr.allReadAssigned, Bool.and_eq_true] at hr
    simp only [Expr.afterAll] at hpost
    rw [List.append_assoc] at hcode ⊢
    refine h.readsWritten hF hr.1 hs hcode hloop fun V hV hs₁ hv => ?_
    refine hs'.readsWritten hF hr.2 hs₁ hv (suffix_of_append hcode)
      (hloop.mono (Nat.le_refl n) hV) fun U hU => hpost U (List.Subset.trans hV hU)

theorem LowersArguments.readsWritten (hF : Unambiguous F.code) :
    ∀ {loop? : Option LoopLabels} {s s' : Stage} {es : List Expr} {τs : List Ty}
      {fs : List Fragment}, LowersArguments sig ρ? loop? s es τs fs s' → ∀ {φ : Flow}
      {W : List Var} {n : Nat} {post : List Instruction}, Expr.allReadAssigned es φ = true →
      Reached W φ s → fs.flatMap (·.code) ++ post <:+ F.code → LoopReadsWritten F loop? n W →
      (∀ V, W ⊆ V → Reached V (Expr.afterAll es φ) s' → (∀ v ∈ fs.map (·.value), Written V v) →
        ReadsWritten F n V post) →
      ReadsWritten F n W (fs.flatMap (·.code) ++ post)
  | _, _, _, _, _, _, .nil, _, W, _, _, _, hs, _, _, hpost =>
    hpost W (List.Subset.refl _) hs nofun
  | _, _, _, _, _, _, .cons h hs', _, _, n, _, hr, hs, hcode, hloop, hpost => by
    simp only [Expr.allReadAssigned, Bool.and_eq_true] at hr
    simp only [Expr.afterAll] at hpost
    rw [List.flatMap_cons, List.append_assoc] at hcode ⊢
    refine h.readsWritten hF hr.1 hs hcode hloop fun V hV hs₁ hv => ?_
    refine hs'.readsWritten hF hr.2 hs₁ (suffix_of_append hcode) (hloop.mono (Nat.le_refl n) hV)
      fun U hU hs₂ hvs => hpost U (List.Subset.trans hV hU) hs₂ ?_
    exact List.forall_mem_cons.2 ⟨hv.mono hU, hvs⟩

end

end

end Exprc.Lowering
