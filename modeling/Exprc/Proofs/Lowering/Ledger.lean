/-
Who owns which temporary. A ledger lists the parameters and variables that were declared so far, each with the
number of its temporary. What the stages of lowering know as names in scope and as owned temporaries is what the
ledger says of the declarations in scope (`Keeps`). Lowering an expression enters what is declared in it, and the
code that it makes writes what is in the ledger only with copies of the declarations and of assignments to them
(`Lowers.records`).
-/
import Exprc.Proofs.Lowering.Parts

namespace Exprc

namespace Syntax

/-! ## Sites inside of other sites -/

namespace Site

/-- How many expressions are around an expression. -/
def depth : Site → Nat
  | .function _ | .main => 0
  | .part whole _ => whole.depth + 1

/-- A site is that of an expression or of something in it. -/
inductive Within (here : Site) : Site → Prop
  | refl : Within here here
  | part {site : Site} {i : Nat} : Within here site → Within here (site.part i)

namespace Within

variable {here here' site : Site}

theorem of_part {i : Nat} (h : (here.part i).Within site) : here.Within site := by
  induction h with
  | refl => exact .part .refl
  | part _ ih => exact ih.part

theorem eq_or_part (h : here.Within site) : site = here ∨ ∃ i, (here.part i).Within site := by
  induction h with
  | refl => exact .inl rfl
  | part _ ih =>
    rcases ih with rfl | ⟨j, h⟩
    · exact .inr ⟨_, .refl⟩
    · exact .inr ⟨j, h.part⟩

theorem depth_le (h : here.Within site) : here.depth ≤ site.depth := by
  induction h with
  | refl => exact Nat.le_refl _
  | part _ ih => exact Nat.le_succ_of_le ih

/-- Of the expressions around an expression no two are equally deep. -/
theorem eq_of_depth (h : here.Within site) (h' : here'.Within site) (hdepth : here.depth = here'.depth) :
    here = here' := by
  induction h with
  | refl =>
    cases h' with
    | refl => rfl
    | part h' =>
      have hle := h'.depth_le
      rw [depth] at hdepth
      omega
  | part h ih =>
    cases h' with
    | refl =>
      have hle := h.depth_le
      rw [depth] at hdepth
      omega
    | part h' => exact ih h'

end Within

end Site

/-! ## Regions -/

/-- The declarations in the regions of a family, but for some regions at the start. -/
def regionsFrom (region : Nat → Set Declaration) (first : Nat) : Set Declaration :=
  {d | ∃ i, first ≤ i ∧ d ∈ region i}

theorem regionsFrom_eq (region : Nat → Set Declaration) (first : Nat) :
    regionsFrom region first = region first ∪ regionsFrom region (first + 1) := by
  ext d
  constructor
  · rintro ⟨i, hi, hd⟩
    rcases Nat.eq_or_lt_of_le hi with rfl | hi
    · exact .inl hd
    · exact .inr ⟨i, hi, hd⟩
  · rintro (hd | ⟨i, hi, hd⟩)
    · exact ⟨first, Nat.le_refl _, hd⟩
    · exact ⟨i, Nat.le_of_succ_le hi, hd⟩

theorem regionsFrom_disjoint {region : Nat → Set Declaration} {other : Set Declaration} {first : Nat}
    (h : ∀ i, first ≤ i → Disjoint other (region i)) : Disjoint other (regionsFrom region first) := by
  rw [Set.disjoint_left]
  rintro d hd ⟨i, hi, hd'⟩
  exact Set.disjoint_left.1 (h i hi) hd hd'

namespace Site

/-- The variables that are declared in the expression at a site. -/
def region (here : Site) : Set Declaration := {d | ∃ site, here.Within site ∧ d = .variable site}

/-- Different expressions that are equally deep declare different variables. -/
theorem region_disjoint {P Q : Site} (hdepth : P.depth = Q.depth) (hne : P ≠ Q) :
    Disjoint P.region Q.region := by
  rw [Set.disjoint_left]
  rintro _ ⟨site, h, rfl⟩ ⟨site', h', he⟩
  cases he
  exact hne (h.eq_of_depth h' hdepth)

/-- The variables that are declared in the parts of an expression, but for some parts at the start. -/
def regionFrom (whole : Site) : Nat → Set Declaration := regionsFrom fun i => (whole.part i).region

theorem disjoint_regionFrom (whole : Site) (first : Nat) :
    Disjoint (whole.part first).region (whole.regionFrom (first + 1)) := by
  refine regionsFrom_disjoint fun i hi => region_disjoint rfl fun he => ?_
  cases he
  omega

theorem region_eq (here : Site) : here.region = here.regionFrom 0 ∪ {.variable here} := by
  ext d
  constructor
  · rintro ⟨site, h, rfl⟩
    rcases h.eq_or_part with rfl | ⟨i, h⟩
    · exact .inr rfl
    · exact .inl ⟨i, Nat.zero_le _, site, h, rfl⟩
  · rintro (⟨i, -, site, h, rfl⟩ | rfl)
    · exact ⟨site, h.of_part, rfl⟩
    · exact ⟨here, .refl, rfl⟩

theorem variable_notMem_regionFrom (here : Site) (first : Nat) : .variable here ∉ here.regionFrom first := by
  rintro ⟨i, -, site, h, he⟩
  cases he
  have hle := h.depth_le
  rw [depth] at hle
  omega

end Site

theorem Module.expr?_within {m : Module} {P Q : Site} (h : P.Within Q) (hP : m.expr? P = none) :
    m.expr? Q = none := by
  induction h with
  | refl => exact hP
  | part _ ih => rw [expr?, ih, Option.bind_none]

/-- The parameters and variables that a module declares. -/
def Module.Declares (m : Module) : Declaration → Prop
  | .builtin _ | .function _ => False
  | .parameter i j => ∃ f, m.functions[i]? = some f ∧ j < f.parameters.length
  | .variable site => ∃ e, m.expr? site = some e ∧ e.binder?.isSome

/-- In an expression that declares no name itself, all is declared in the parts. -/
theorem Module.not_declares {m : Module} {here : Site} {e : Expr} (he : m.expr? here = some e)
    (hbinder : e.binder? = none) : ∀ d ∈ here.region, d ∉ here.regionFrom 0 → ¬m.Declares d := by
  rw [Site.region_eq]
  rintro d (hd | rfl) hparts
  · exact absurd hd hparts
  · rintro ⟨a, ha, hsome⟩
    obtain rfl : e = a := Option.some.inj (he.symm.trans ha)
    simp [hbinder] at hsome

end Syntax

namespace Lowering

open Syntax IR Typing

/-! ## Ledgers -/

theorem Stage.find?_declare {s : Stage} (hs : s.locals ≠ []) (x : String) (τ : Ty) (y : String) :
    (s.declare x τ).locals.find? y = if x == y then some ⟨x, s.nextTemp, τ⟩ else s.locals.find? y := by
  obtain ⟨locals, around, hl⟩ := List.exists_cons_of_ne_nil hs
  simp only [Stage.declare, hl, Locals.bind, Locals.find?_cons, List.find?_cons]
  cases x == y <;> rfl

theorem find?_declareAll_singleton {D : Stack Declaration} (hD : D ≠ []) (x : String) (d : Declaration)
    (y : String) : (D.declareAll [(x, d)]).find? y = if x == y then some d else D.find? y := by
  obtain ⟨frame, below, rfl⟩ := List.exists_cons_of_ne_nil hD
  simp only [Stack.declareAll_cons, List.reverse_singleton, List.singleton_append, Stack.find?_cons,
    List.lookup_cons, BEq.comm (a := y)]
  cases x == y <;> rfl

/-- Parameters and variables with the numbers of their temporaries, the last one that was declared first. -/
abbrev Ledger := List (Declaration × Nat)

/-- A stage is what a ledger says it is, if some declarations are in scope: the owned temporaries are those in the
ledger, all different, and a name stands for the temporary of the declaration that it is found at. -/
structure Keeps (Λ : Ledger) (D : Stack Declaration) (s : Stage) : Prop where
  wf : s.WF
  owned : s.owned = Λ.map fun entry => .temp entry.2
  nodup : (Λ.map (·.2)).Nodup
  isOpen : D ≠ []
  scopes : ∀ {x : String} {l : Local}, s.locals.find? x = some l →
    ∃ d, D.find? x = some d ∧ (d, l.temp) ∈ Λ

namespace Keeps

variable {Λ Λ' : Ledger} {D D' : Stack Declaration} {s s' : Stage}

theorem number_lt (h : Keeps Λ D s) {d : Declaration} {k : Nat} (hd : (d, k) ∈ Λ) : k < s.nextTemp := by
  have hmem : Var.temp k ∈ s.owned := by
    rw [h.owned]
    exact List.mem_map.2 ⟨_, hd, rfl⟩
  obtain ⟨n, hn, he⟩ := h.wf.owned_lt _ hmem
  cases he
  exact hn

/-- No two declarations have the same temporary. -/
theorem declaration_eq (h : Keeps Λ D s) {d d' : Declaration} {k : Nat} (hd : (d, k) ∈ Λ) (hd' : (d', k) ∈ Λ) :
    d = d' :=
  congrArg Prod.fst (List.inj_on_of_nodup_map h.nodup hd hd' rfl)

theorem idle (h : Keeps Λ D s) (hs : s.Idle s') : Keeps Λ D s' where
  wf := hs.wf h.wf
  owned := hs.owned.trans h.owned
  nodup := h.nodup
  isOpen := h.isOpen
  scopes hl := h.scopes (hs.locals ▸ hl)

theorem enter (h : Keeps Λ D s) : Keeps Λ ([] :: D) s.enter where
  wf := h.wf.enter
  owned := h.owned
  nodup := h.nodup
  isOpen := List.cons_ne_nil _ _
  scopes hl := by
    rw [Stage.enter, Locals.find?_cons] at hl
    obtain ⟨d, hd, hmem⟩ := h.scopes (by simpa using hl)
    exact ⟨d, by rw [Stack.find?_cons]; simpa using hd, hmem⟩

/-- When a block is closed, the names in scope are those that were in scope before it. -/
theorem leave (h : Keeps Λ D s) (h' : Keeps Λ' D' s') (hs : s.enter.Extends s') (hΛ : Λ ⊆ Λ') :
    Keeps Λ' D s'.leave where
  wf := h.wf.leave h'.wf hs
  owned := h'.owned
  nodup := h'.nodup
  isOpen := h.isOpen
  scopes hl := by
    rw [hs.leave.1] at hl
    obtain ⟨d, hd, hmem⟩ := h.scopes hl
    exact ⟨d, hd, hΛ hmem⟩

/-- A declared name gets the next temporary. -/
theorem declare (h : Keeps Λ D s) (x : String) (d : Declaration) (τ : Ty) :
    Keeps ((d, s.nextTemp) :: Λ) (D.declareAll [(x, d)]) (s.declare x τ) where
  wf := h.wf.declare x τ
  owned := congrArg (Var.temp s.nextTemp :: ·) h.owned
  nodup := by
    rw [List.map_cons, List.nodup_cons]
    refine ⟨fun hmem => ?_, h.nodup⟩
    obtain ⟨⟨d', k⟩, hd, he⟩ := List.mem_map.1 hmem
    exact Nat.ne_of_lt (h.number_lt hd) he
  isOpen := by
    obtain ⟨frame, below, hD⟩ := List.exists_cons_of_ne_nil h.isOpen
    rw [hD]
    exact List.cons_ne_nil _ _
  scopes {y l} hl := by
    rw [Stage.find?_declare h.wf.isOpen] at hl
    rw [find?_declareAll_singleton h.isOpen]
    by_cases hxy : (x == y) = true
    · rw [if_pos hxy] at hl ⊢
      cases hl
      exact ⟨d, rfl, List.mem_cons_self⟩
    · rw [if_neg hxy] at hl ⊢
      obtain ⟨d', hd', hmem⟩ := h.scopes hl
      exact ⟨d', hd', List.mem_cons_of_mem _ hmem⟩

end Keeps

/-! ## Code -/

/-- An instruction is the copy of the declaration of a variable, or that of an assignment to a declared name, into
a temporary with some number, and it is at the place of the declaration or of the target of the assignment. -/
inductive CopiesInto (m : Syntax.Module) (place : Site → Location) : Declaration → Nat → Instruction → Prop
  | declaration {site : Site} {k : Nat} {v : Var} :
      CopiesInto m place (.variable site) k ⟨place site, .copy v (.temp k)⟩
  | assignment {site : Site} {D : Stack Declaration} {n n' : Note} {l : Location} {x : String} {value : Expr}
      {d : Declaration} {k : Nat} {v : Var} :
      m.expr? site = some (.assign n l (.name n' x) value) → m.declarations? site = some D →
      D.find? x = some d → CopiesInto m place d k ⟨place (site.part 0), .copy v (.temp k)⟩

/-- An instruction writes no owned temporary, but for the copies that may. -/
def Traced (m : Syntax.Module) (place : Site → Location) (Λ : Ledger) (s : Stage) (i : Instruction) : Prop :=
  ∀ v ∈ i.op.writes, s.Anonymous v ∨ ∃ d k, (d, k) ∈ Λ ∧ v = .temp k ∧ CopiesInto m place d k i

variable {m : Syntax.Module} {place : Site → Location}

theorem Traced.mono {Λ Λ' : Ledger} {s s' : Stage} {i : Instruction} (h : Traced m place Λ s i) (hΛ : Λ ⊆ Λ')
    (hs : ∀ v, s.Anonymous v → s'.Anonymous v) : Traced m place Λ' s' i := by
  intro v hv
  rcases h v hv with h | ⟨d, k, hd, rfl, h⟩
  · exact .inl (hs v h)
  · exact .inr ⟨d, k, hΛ hd, rfl, h⟩

/-- From stage `s` to stage `s'` lowering makes some code and enters into the ledger `Λ` what is declared in the
region `R`: each declaration once, and that of a variable with a copy in the code. Then `D` is in scope. -/
structure Records (m : Syntax.Module) (place : Site → Location) (R : Set Declaration) (Λ new : Ledger)
    (D : Stack Declaration) (s s' : Stage) (code : List Instruction) : Prop where
  keeps : Keeps (new ++ Λ) D s'
  later : s.Extends s'
  inside : ∀ {d : Declaration} {k : Nat}, (d, k) ∈ new → d ∈ R
  nodup : (new.map (·.1)).Nodup
  complete : ∀ {d : Declaration}, d ∈ R → m.Declares d → ∃ k, (d, k) ∈ new
  copied : ∀ {site : Site} {k : Nat}, (.variable site, k) ∈ new →
    ∃ v, ⟨place site, .copy v (.temp k)⟩ ∈ code
  traced : ∀ i ∈ code, Traced m place (new ++ Λ) s' i

namespace Records

variable {R R' : Set Declaration} {Λ new new' : Ledger} {D D' : Stack Declaration} {s s₀ s' s'' : Stage}
  {code code' : List Instruction}

theorem nil (h : Keeps Λ D s) (hR : ∀ d ∈ R, ¬m.Declares d) : Records m place R Λ [] D s s [] where
  keeps := h
  later := .refl s
  inside := nofun
  nodup := List.nodup_nil
  complete hd hdeclares := absurd hdeclares (hR _ hd)
  copied := nofun
  traced := nofun

/-- One name is declared. -/
theorem single (h : Keeps Λ D s) (x : String) {d : Declaration} (τ : Ty)
    (hcopied : ∀ site, d = .variable site → ∃ v, ⟨place site, .copy v (.temp s.nextTemp)⟩ ∈ code)
    (htraced : ∀ i ∈ code, Traced m place ((d, s.nextTemp) :: Λ) (s.declare x τ) i) :
    Records m place {d} Λ [(d, s.nextTemp)] (D.declareAll [(x, d)]) s (s.declare x τ) code where
  keeps := h.declare x d τ
  later := .declare _ _ _
  inside hd := by
    cases List.mem_singleton.1 hd
    rfl
  nodup := List.nodup_singleton _
  complete hd _ := by
    obtain rfl := hd
    exact ⟨_, List.mem_cons_self⟩
  copied hd := by
    cases List.mem_singleton.1 hd
    exact hcopied _ rfl
  traced := htraced

theorem append (h : Records m place R Λ new D s s' code)
    (h' : Records m place R' (new ++ Λ) new' D' s' s'' code') (hR : Disjoint R R') :
    Records m place (R ∪ R') Λ (new' ++ new) D' s s'' (code ++ code') where
  keeps := by
    rw [List.append_assoc]
    exact h'.keeps
  later := h.later.trans h'.later
  inside hd := by
    rcases List.mem_append.1 hd with hd | hd
    · exact .inr (h'.inside hd)
    · exact .inl (h.inside hd)
  nodup := by
    rw [List.map_append, List.nodup_append]
    refine ⟨h'.nodup, h.nodup, fun d hd d' hd' he => ?_⟩
    obtain ⟨⟨_, k⟩, hk, rfl⟩ := List.mem_map.1 hd
    obtain ⟨⟨_, k'⟩, hk', rfl⟩ := List.mem_map.1 hd'
    obtain rfl := he
    exact Set.disjoint_left.1 hR (h.inside hk') (h'.inside hk)
  complete hd hdeclares := by
    rcases hd with hd | hd
    · obtain ⟨k, hk⟩ := h.complete hd hdeclares
      exact ⟨k, List.mem_append_right _ hk⟩
    · obtain ⟨k, hk⟩ := h'.complete hd hdeclares
      exact ⟨k, List.mem_append_left _ hk⟩
  copied hd := by
    rcases List.mem_append.1 hd with hd | hd
    · obtain ⟨v, hv⟩ := h'.copied hd
      exact ⟨v, List.mem_append_right _ hv⟩
    · obtain ⟨v, hv⟩ := h.copied hd
      exact ⟨v, List.mem_append_left _ hv⟩
  traced := by
    rw [List.append_assoc]
    refine List.forall_mem_append.2 ⟨fun i hi => ?_, h'.traced⟩
    exact (h.traced i hi).mono (List.subset_append_right _ _) fun _ hv => hv.mono h'.later

/-- Before, nothing was declared. -/
theorem behind (h : Records m place R Λ new D s₀ s' code) (hs : s.Idle s₀) :
    Records m place R Λ new D s s' code :=
  { h with later := hs.later.trans h.later }

/-- Around the code stand more instructions, and other names are in scope behind it. -/
theorem wrap (h : Records m place R Λ new D s₀ s' code) (hkeeps : Keeps (new ++ Λ) D' s'')
    (hlater : s.Extends s'') (hs : ∀ v, s'.Anonymous v → s''.Anonymous v) (hsubset : code ⊆ code')
    (htraced : ∀ i ∈ code', i ∈ code ∨ Traced m place (new ++ Λ) s'' i) :
    Records m place R Λ new D' s s'' code' where
  keeps := hkeeps
  later := hlater
  inside := h.inside
  nodup := h.nodup
  complete := h.complete
  copied hd := by
    obtain ⟨v, hv⟩ := h.copied hd
    exact ⟨v, hsubset hv⟩
  traced i hi := by
    rcases htraced i hi with hi | hi
    · exact (h.traced i hi).mono (List.Subset.refl _) hs
    · exact hi

/-- A region may be larger by what the module does not declare. -/
theorem widen (h : Records m place R Λ new D s s' code) (hsubset : R ⊆ R')
    (hnone : ∀ d ∈ R', d ∉ R → ¬m.Declares d) : Records m place R' Λ new D s s' code :=
  { h with
    inside := fun hd => hsubset (h.inside hd)
    complete := fun {d} hd hdeclares => by
      by_cases hR : d ∈ R
      · exact h.complete hR hdeclares
      · exact absurd hdeclares (hnone d hd hR) }

theorem number_eq (h : Records m place R Λ new D s s' code) {d : Declaration} {k k' : Nat} (hd : (d, k) ∈ new)
    (hd' : (d, k') ∈ new) : k = k' :=
  congrArg Prod.snd (List.inj_on_of_nodup_map h.nodup hd hd' rfl)

/-- What writes a temporary that is in the ledger is a copy that may. -/
theorem copiesInto (h : Records m place R Λ new D s s' code) {d : Declaration} {k : Nat} (hd : (d, k) ∈ new ++ Λ)
    {i : Instruction} (hi : i ∈ code) (hwrites : .temp k ∈ i.op.writes) : CopiesInto m place d k i := by
  rcases h.traced i hi _ hwrites with ⟨k', -, -, hfree⟩ | ⟨d', k', hd', he, hcopies⟩
  · refine absurd ?_ hfree
    rw [h.keeps.owned]
    exact List.mem_map.2 ⟨_, hd, rfl⟩
  · cases he
    obtain rfl := h.keeps.declaration_eq hd hd'
    exact hcopies

end Records

/-! ## Expressions -/

variable {sig : String → Option Signature} {ρ? : Option Ty}

/-- What lowering an expression enters into a ledger. -/
def Recorded (m : Syntax.Module) (place : Site → Location) (sig : String → Option Signature) (ρ? : Option Ty)
    (e : Expr) : Prop :=
  ∀ {loop? : Option LoopLabels} {s s' : Stage} {τ : Ty} {f : Fragment} {here : Site} {D : Stack Declaration}
    {Λ : Ledger}, Lowers sig ρ? loop? s e τ f s' → m.expr? here = some e → m.declarations? here = some D →
    Keeps Λ D s →
    ∃ new, Records m place here.region Λ new (D.declareAll (e.introduces here)) s s' f.code

theorem LowersParts.records {whole : Site} {e : Expr} {D : Stack Declaration} (he : m.expr? whole = some e)
    (hD : m.declarations? whole = some D) (ih : ∀ part ∈ e.parts, Recorded m place sig ρ? part) :
    ∀ {es : List Expr} {done : List Expr} {Λ : Ledger} {s s' : Stage} {code : List Instruction},
      LowersParts sig ρ? s es code s' → e.parts = done ++ es →
      Keeps Λ ((e.opened D).declareAll (Expr.allIntroduce whole 0 done)) s →
      ∃ new, Records m place (whole.regionFrom done.length) Λ new
        ((e.opened D).declareAll (Expr.allIntroduce whole 0 e.parts)) s s' code
  | [], done, _, _, _, _, .nil, hparts, hkeeps => by
    rw [List.append_nil] at hparts
    refine ⟨[], .nil (by rwa [hparts]) ?_⟩
    rintro _ ⟨i, hi, site, hsite, rfl⟩ ⟨a, ha, -⟩
    have hnone : m.expr? (whole.part i) = none := by
      rw [Module.expr?, he, Option.bind_some, hparts, List.getElem?_eq_none hi]
    rw [Module.expr?_within hsite hnone] at ha
    cases ha
  | a :: es, done, Λ, s, s', _, .cons hidle ha hes, hparts, hkeeps => by
    have hget : e.parts[done.length]? = some a := by rw [hparts]; simp
    have htake : e.parts.take done.length = done := by rw [hparts]; simp
    have hpart : m.expr? (whole.part done.length) = some a := by
      rw [Module.expr?, he]
      exact hget
    have hscope : m.declarations? (whole.part done.length) =
        some ((e.opened D).declareAll (Expr.allIntroduce whole 0 done)) := by
      rw [Module.declarations?, hD, he, Option.bind_some, Option.map_some, htake]
    obtain ⟨new, hnew⟩ := ih a (List.mem_of_getElem? hget) ha hpart hscope (hkeeps.idle hidle)
    have hnext := hnew.keeps
    have hdone : Expr.allIntroduce whole 0 (done ++ [a]) =
        Expr.allIntroduce whole 0 done ++ a.introduces (whole.part done.length) := by
      simp [Expr.allIntroduce_append, Expr.allIntroduce]
    rw [← Stack.declareAll_append, ← hdone] at hnext
    obtain ⟨new', hnew'⟩ := hes.records he hD ih (by rw [hparts]; simp) hnext
    rw [Site.regionFrom, regionsFrom_eq]
    rw [List.length_append, List.length_singleton] at hnew'
    exact ⟨new' ++ new, (hnew.behind hidle).append hnew' (Site.disjoint_regionFrom _ _)⟩

/-- An instruction of an expression that is in none of its parts writes nothing owned, unless it is the copy of the
declaration or of an assignment. -/
theorem Own.traced {here : Site} {e : Expr} {D : Stack Declaration} {Λ Λ' : Ledger} {s s₁ s' : Stage}
    {i : Instruction} (h : Own s s₁ s' e i) (he : m.expr? here = some e) (hD : m.declarations? here = some D)
    (hplace : ∀ site e, m.expr? site = some e → e.location = place site) (hkeeps : Keeps Λ D s) (hΛ : Λ ⊆ Λ')
    (hdeclared : e.binder?.isSome → (.variable here, s₁.nextTemp) ∈ Λ') : Traced m place Λ' s' i := by
  intro v hv
  cases h with
  | anonymous h => exact .inl (h v hv)
  | declare =>
    obtain rfl := List.mem_singleton.1 hv
    refine .inr ⟨_, _, hdeclared rfl, rfl, ?_⟩
    have hlocation := hplace _ _ he
    rw [Expr.location, Expr.note] at hlocation
    rw [hlocation]
    exact .declaration
  | @assign n n' l x value target v hl =>
    obtain rfl := List.mem_singleton.1 hv
    obtain ⟨d, hd, hmem⟩ := hkeeps.scopes hl
    refine .inr ⟨d, target.temp, hΛ hmem, rfl, ?_⟩
    have htarget : m.expr? (here.part 0) = some (.name n' x) := by rw [Module.expr?, he]; rfl
    have hlocation := hplace _ _ htarget
    rw [Expr.location, Expr.note] at hlocation
    rw [hlocation]
    exact .assignment he hD hd

/-- Behind the parts of an expression its own name is declared, if it declares one. -/
theorem Concludes.records (hplace : ∀ site e, m.expr? site = some e → e.location = place site) {here : Site}
    {e : Expr} {D : Stack Declaration} {Λ new : Ledger} {s s₁ s' : Stage} {code inner : List Instruction}
    (h : Concludes code e s₁ s') (he : m.expr? here = some e) (hkeeps : Keeps Λ D s) (hlater : s.Extends s')
    (hnew : Records m place (here.regionFrom 0) Λ new
      ((e.opened D).declareAll (Expr.allIntroduce here 0 e.parts)) (s.opened e) s₁ inner) (hsubset : inner ⊆ code) :
    ∃ new' inner', inner ⊆ inner' ∧ inner' ⊆ code ∧
      Records m place here.region Λ new' (D.declareAll (e.introduces here)) s s' inner' ∧
      (e.binder?.isSome → (.variable here, s₁.nextTemp) ∈ new') := by
  have hregion : here.regionFrom 0 ⊆ here.region := by
    rw [Site.region_eq]
    exact Set.subset_union_left
  cases h with
  | block =>
    have hkeeps' := hkeeps.leave hnew.keeps hnew.later (List.subset_append_right _ _)
    have hclosed := hnew.wrap hkeeps' hlater (fun _ hv => hv) (List.Subset.refl _) fun _ hi => .inl hi
    rw [Expr.introduces_block here rfl, Stack.declareAll_nil]
    exact ⟨new, inner, List.Subset.refl _, hsubset, hclosed.widen hregion (Module.not_declares he rfl), nofun⟩
  | @declare _ n x written? a τ v hcopy =>
    have hlocation : n.location = place here := hplace here _ he
    have hnew : Records m place (here.regionFrom 0) Λ new (D.declareAll (Expr.allIntroduce here 0 [a])) s s₁
        inner := hnew
    have htraced : ∀ i ∈ [⟨place here, .copy v (.temp s₁.nextTemp)⟩],
        Traced m place ((.variable here, s₁.nextTemp) :: (new ++ Λ)) (s₁.declare x.text τ) i := by
      refine List.forall_mem_singleton.2 fun u hu => ?_
      obtain rfl := List.mem_singleton.1 hu
      exact .inr ⟨_, _, List.mem_cons_self, rfl, .declaration⟩
    have hone := Records.single hnew.keeps x.text τ (by rintro _ ⟨⟩; exact ⟨v, List.mem_cons_self⟩) htraced
    rw [Site.region_eq, Expr.introduces_eq here rfl, Stack.declareAll_append]
    refine ⟨_, inner ++ _, List.subset_append_left _ _, List.append_subset.2 ⟨hsubset, ?_⟩,
      hnew.append hone (Set.disjoint_singleton_right.2 (Site.variable_notMem_regionFrom here 0)),
      fun _ => List.mem_cons_self⟩
    rw [← hlocation]
    exact List.cons_subset.2 ⟨hcopy, List.nil_subset _⟩
  | plain hopens hbinder hidle =>
    rw [Expr.opened, Stage.opened, if_neg (by simp [hopens]), if_neg (by simp [hopens])] at hnew
    rw [Expr.introduces_eq here hopens, hbinder, Option.map_none, Option.toList_none, List.append_nil]
    have hidled := hnew.wrap (hnew.keeps.idle hidle) hlater (fun _ hv => hv.mono hidle.later)
      (List.Subset.refl _) fun _ hi => .inl hi
    exact ⟨new, inner, List.Subset.refl _, hsubset, hidled.widen hregion (Module.not_declares he hbinder),
      by simp⟩

/-- Lowering an expression enters what is declared in it into the ledger, and its code writes nothing that is in
the ledger but with the copies that may. -/
theorem Lowers.records (hplace : ∀ site e, m.expr? site = some e → e.location = place site) (e : Expr) :
    Recorded m place sig ρ? e := by
  induction e using Expr.parts_induction with
  | h e ih =>
    intro loop? s s' τ f here D Λ h he hD hkeeps
    obtain ⟨code, s₁, hparts, hconcludes, hadds⟩ := h.parts hkeeps.wf
    have hopened : Keeps Λ ((e.opened D).declareAll (Expr.allIntroduce here 0 [])) (s.opened e) := by
      rw [Expr.allIntroduce, Stack.declareAll_nil, Expr.opened, Stage.opened]
      split
      · exact hkeeps.enter
      · exact hkeeps
    obtain ⟨new, hnew⟩ := hparts.records he hD ih rfl hopened
    obtain ⟨new', inner, hinner, hsubset, hnew', hdeclared⟩ :=
      hconcludes.records hplace he hkeeps h.extends hnew hadds.subset
    -- what is in no part and no copy of the declaration is an instruction of the expression itself
    refine ⟨new', hnew'.wrap hnew'.keeps h.extends (fun _ hv => hv) hsubset fun i hi => ?_⟩
    refine (hadds.others i hi).imp (fun hi => hinner hi) fun hown => ?_
    exact hown.traced he hD hplace hkeeps (List.subset_append_right _ _)
      fun hbinder => List.mem_append_left _ (hdeclared hbinder)

end Lowering

end Exprc
