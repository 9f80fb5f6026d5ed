/-
Traversals of modules that keep a chain of scopes. All that matters here of the checker and of the lowering is
in which scopes each of them comes to an expression, and in which it leaves it. If these change only as the
shape of the tree tells (`Traversal.Lawful`), the chain keeps its frames, and the entries of the open ones are
the declarations of `Module.declarations?`, one by one.
-/
import Exprc.Proofs.Resolution.Sites

namespace Exprc

theorem toOption_eq_some {ε α : Type} {x : Except ε α} {a : α} : x.toOption = some a ↔ x = .ok a := by
  cases x <;> simp [Except.toOption]

namespace Syntax

/-! ## Traversals -/

/-- Work on the expressions of a module in the order of evaluation. `State` is what is known where work on an
expression begins. -/
structure Traversal (β : Type) where
  State : Type
  /-- The scopes in which work begins. -/
  scopes : State → ScopeChain (Binding β)
  /-- Where work on a part of an expression begins, if the work on the parts before it succeeds. -/
  enter : State → Expr → Nat → Option State
  /-- The scopes after work on an expression, if it succeeds. -/
  leave : State → Expr → Option (ScopeChain (Binding β))
  /-- The scopes when all functions are declared. -/
  root : Option (ScopeChain (Binding β))
  /-- The body of a function, and where work on it begins. -/
  function : Nat → Option (State × Expr)
  /-- The top-level statements, and where work on them begins. -/
  main : Option (State × Expr)

namespace Traversal

variable {β : Type}

/-- The expression at a site, and where work on it begins. -/
def visit? (t : Traversal β) : Site → Option (t.State × Expr)
  | .function i => t.function i
  | .main => t.main
  | .part whole i =>
    (t.visit? whole).bind fun (s, e) => (e.parts[i]?).bind fun a => (t.enter s e i).map fun s' => (s', a)

/-- What a declared name is bound to: what it means as soon as it is declared. -/
def binding? (t : Traversal β) (m : Module) : Declaration → Option (Binding β)
  | .builtin b => some (.builtin b)
  | .function i => (m.functions[i]?).bind fun f => t.root.bind (·.resolve? f.name.text)
  | .parameter i j =>
    (m.functions[i]?).bind fun f => (f.parameters[j]?).bind fun p =>
      (t.function i).bind fun (s, _) => (t.scopes s).resolve? p.name.text
  | .variable site =>
    (t.visit? site).bind fun (s, e) => e.binder?.bind fun x => (t.leave s e).bind (·.resolve? x)

/-- The scopes when some parts of an expression are done. -/
def After (t : Traversal β) (s : t.State) (e : Expr) : Nat → ScopeChain (Binding β) → Prop
  | 0, scopes => scopes = if e.opensScope then (t.scopes s).push else t.scopes s
  | i + 1, scopes => ∃ a s', e.parts[i]? = some a ∧ t.enter s e i = some s' ∧ t.leave s' a = some scopes

/-- What becomes of scopes when all parts of an expression are done: the scope that was opened is closed, and
the declared name is declared. -/
inductive Closing : Expr → ScopeChain (Binding β) → ScopeChain (Binding β) → Prop
  | block {e : Expr} {scopes : ScopeChain (Binding β)} : e.opensScope = true → Closing e scopes scopes.close
  | declare {e : Expr} {x : String} {v : β} {scopes scopes' : ScopeChain (Binding β)} :
      e.opensScope = false → e.binder? = some x → scopes.declare? x (.value v) = some scopes' →
      Closing e scopes scopes'
  | plain {e : Expr} {scopes : ScopeChain (Binding β)} : e.opensScope = false → e.binder? = none →
      Closing e scopes scopes

/-- Only functions are in scope, in the frame in which they were declared. -/
def AtRoot (t : Traversal β) (scopes : ScopeChain (Binding β)) : Prop :=
  ∃ root, t.root = some root ∧ root.Restores scopes

/-- Scopes change within expressions as the shape of the tree tells. -/
structure Orderly (t : Traversal β) : Prop where
  enter : ∀ {s : t.State} {e : Expr} {i : Nat} {s' : t.State}, i < e.parts.length →
    t.enter s e i = some s' → t.After s e i (t.scopes s')
  leave : ∀ {s : t.State} {e : Expr} {scopes : ScopeChain (Binding β)}, t.leave s e = some scopes →
    ∃ inner, t.After s e e.parts.length inner ∧ Closing e inner scopes

/-- Scopes change in the whole module as its shape tells. -/
structure Lawful (t : Traversal β) (m : Module) : Prop extends t.Orderly where
  root : ∀ {scopes : ScopeChain (Binding β)}, t.root = some scopes →
    ScopeChain.withBuiltins.DeclaresEach (m.functions.map (·.name.text)) scopes
  function : ∀ {i : Nat} {s : t.State} {e : Expr}, t.function i = some (s, e) →
    ∃ f before, m.functions[i]? = some f ∧ e.untyped = f.body.untyped ∧ t.AtRoot before ∧
      before.push.DeclaresEach (f.parameters.map (·.name.text)) (t.scopes s)
  main : ∀ {s : t.State} {e : Expr}, t.main = some (s, e) → e.untyped = m.body.untyped ∧
    t.AtRoot (t.scopes s)

variable {t : Traversal β} {m : Module} {s : t.State} {e : Expr} {scopes : ScopeChain (Binding β)}

/-! ## Frames -/

namespace Orderly

theorem after_grows (h : t.Orderly)
    (hparts : ∀ part ∈ e.parts, ∀ {s scopes}, t.leave s part = some scopes → (t.scopes s).Grows scopes) :
    ∀ {i : Nat} {inner : ScopeChain (Binding β)}, t.After s e i inner →
      (if e.opensScope then (t.scopes s).push else t.scopes s).Grows inner := by
  intro i
  induction i with
  | zero =>
    rintro inner rfl
    exact .refl _
  | succ i ih =>
    rintro inner ⟨a, s', ha, henter, hpart⟩
    have hlt : i < e.parts.length := (List.getElem?_eq_some_iff.1 ha).1
    exact (ih (h.enter hlt henter)).trans (hparts a (List.mem_of_getElem? ha) hpart)

/-- When work on an expression is done the cursor is where it was, and the frames that were there are the same
but for new names in the innermost one. -/
theorem grows (h : t.Orderly) (e : Expr) :
    ∀ {s scopes}, t.leave s e = some scopes → (t.scopes s).Grows scopes := by
  induction e using Expr.parts_induction with
  | h e ih =>
    intro s scopes hleave
    obtain ⟨inner, hinner, hclosing⟩ := h.leave hleave
    have hgrows := h.after_grows ih hinner
    -- the innermost frame of `inner` is the one that was opened, if one was
    cases hclosing with
    | block hopens =>
      rw [if_pos hopens] at hgrows
      obtain ⟨popped, hpop, hrestores⟩ := hgrows.pop
      rw [ScopeChain.close_eq hpop]
      exact hrestores.grows
    | declare hopens _ hdeclare =>
      rw [if_neg (by simp [hopens])] at hgrows
      exact hgrows.trans (.declare hdeclare)
    | plain hopens =>
      rwa [if_neg (by simp [hopens])] at hgrows

/-- The scope that an expression opens is closed when its parts are done, and this restores what was there
before. -/
theorem block (h : t.Orderly) (hopens : e.opensScope = true) (hleave : t.leave s e = some scopes) :
    ∃ inner, t.After s e e.parts.length inner ∧ inner.pop? = some scopes ∧
      (t.scopes s).Restores scopes := by
  obtain ⟨inner, hinner, hclosing⟩ := h.leave hleave
  have hgrows := h.after_grows (fun part _ => h.grows part) hinner
  rw [if_pos hopens] at hgrows
  obtain ⟨popped, hpop, hrestores⟩ := hgrows.pop
  cases hclosing with
  | block =>
    rw [ScopeChain.close_eq hpop]
    exact ⟨inner, hinner, hpop, hrestores⟩
  | declare hplain | plain hplain =>
    rw [hopens] at hplain
    cases hplain

/-- All parts of an expression are visited if work on them succeeds. -/
theorem after_parts (h : t.Orderly) {n : Nat} {inner : ScopeChain (Binding β)}
    (hinner : t.After s e n inner) : ∀ i < n, ∃ a s' scopes, e.parts[i]? = some a ∧
      t.enter s e i = some s' ∧ t.leave s' a = some scopes := by
  induction n generalizing inner with
  | zero =>
    intro i hi
    omega
  | succ n ih =>
    obtain ⟨a, s', ha, henter, hleave⟩ := hinner
    intro i hi
    by_cases hn : i = n
    · subst hn
      exact ⟨a, s', inner, ha, henter, hleave⟩
    · have hlt : n < e.parts.length := (List.getElem?_eq_some_iff.1 ha).1
      exact ih (h.enter hlt henter) i (by omega)

end Orderly

namespace AtRoot

theorem isAtRoot (h : t.Lawful m) (hroot : t.AtRoot scopes) : scopes.isAtRoot = true := by
  obtain ⟨root, hsome, hrestores⟩ := hroot
  rw [ScopeChain.isAtRoot_of_grows hrestores.grows, ScopeChain.isAtRoot_of_grows (h.root hsome).grows]
  rfl

theorem restores (hroot : t.AtRoot scopes) {scopes' : ScopeChain (Binding β)}
    (hrestores : scopes.Restores scopes') : t.AtRoot scopes' := by
  obtain ⟨root, hsome, hroot⟩ := hroot
  exact ⟨root, hsome, hroot.trans hrestores⟩

end AtRoot

/-- When work on a function is done its scope is closed, and only functions are in scope. -/
theorem Lawful.function_end (h : t.Lawful m) {i : Nat} (hvisit : t.visit? (.function i) = some (s, e))
    (hleave : t.leave s e = some scopes) :
    ∃ popped, scopes.pop? = some popped ∧ t.AtRoot popped := by
  obtain ⟨f, before, -, -, hroot, hdeclares⟩ := h.function hvisit
  obtain ⟨popped, hpop, hrestores⟩ := (hdeclares.grows.trans (h.grows e hleave)).pop
  exact ⟨popped, hpop, hroot.restores hrestores⟩

/-! ## Names -/

section

variable {D : Stack Declaration} {here : Site}

/-- After some parts of an expression the names in scope are those of the parts. -/
theorem Orderly.follows_after (h : t.Orderly) (hvisit : t.visit? here = some (s, e))
    (hD : D.Follows (t.binding? m) (t.scopes s).stack)
    (hparts : ∀ part ∈ e.parts, ∀ {here s scopes} {D : Stack Declaration},
      t.visit? here = some (s, part) → D.Follows (t.binding? m) (t.scopes s).stack →
      t.leave s part = some scopes →
      (D.declareAll (part.introduces here)).Follows (t.binding? m) scopes.stack) :
    ∀ {i : Nat} {inner : ScopeChain (Binding β)}, t.After s e i inner →
      ((e.opened D).declareAll (Expr.allIntroduce here 0 (e.parts.take i))).Follows (t.binding? m)
        inner.stack := by
  -- on the number of parts that are done
  intro i
  induction i with
  | zero =>
    rintro inner rfl
    rw [List.take_zero, Expr.allIntroduce, Stack.declareAll_nil, Expr.opened]
    split
    · rw [ScopeChain.stack_push]
      exact .cons .nil hD
    · exact hD
  | succ i ih =>
    rintro inner ⟨a, s', ha, henter, hleave⟩
    have hlt : i < e.parts.length := (List.getElem?_eq_some_iff.1 ha).1
    have hpart : t.visit? (here.part i) = some (s', a) := by simp [visit?, hvisit, ha, henter]
    have hfollows := hparts a (List.mem_of_getElem? ha) hpart (ih (h.enter hlt henter)) hleave
    rw [← Stack.declareAll_append] at hfollows
    rw [List.take_add_one, ha, Expr.allIntroduce_append, List.length_take_of_le (Nat.le_of_lt hlt)]
    simpa [Expr.allIntroduce] using hfollows

/-- When work on an expression is done the names in scope are those that were in scope, and those that the
expression declares. -/
theorem Orderly.follows_leave (h : t.Orderly) (e : Expr) :
    ∀ {here s scopes} {D : Stack Declaration}, t.visit? here = some (s, e) →
      D.Follows (t.binding? m) (t.scopes s).stack → t.leave s e = some scopes →
      (D.declareAll (e.introduces here)).Follows (t.binding? m) scopes.stack := by
  induction e using Expr.parts_induction with
  | h e ih =>
    intro here s scopes D hvisit hD hleave
    cases hopens : e.opensScope with
    | true =>
      obtain ⟨-, -, -, hrestores⟩ := h.block hopens hleave
      rw [Expr.introduces_block here hopens, Stack.declareAll_nil, hrestores.stack]
      exact hD
    | false =>
      obtain ⟨inner, hinner, hclosing⟩ := h.leave hleave
      have hfollows := h.follows_after hvisit hD ih hinner
      rw [List.take_length, Expr.opened, if_neg (by simp [hopens])] at hfollows
      rw [Expr.introduces_eq here hopens, Stack.declareAll_append]
      cases hclosing with
      | block hblock =>
        rw [hopens] at hblock
        cases hblock
      | plain _ hbinder =>
        rw [hbinder]
        simpa using hfollows
      | @declare x v _ _ _ hbinder hdeclare =>
        obtain ⟨frame, below, hstack, -, hstack'⟩ := ScopeChain.declare?_eq_some hdeclare
        -- the declaration is bound to what its name means right behind it
        have hbinding : t.binding? m (.variable here) = some (.value v) := by
          simp [binding?, hvisit, hbinder, hleave, ScopeChain.resolve?_eq, hstack', Stack.find?_cons]
        have hnew := hfollows.declareAll
          (List.Forall₂.cons (a := (x, Declaration.variable here)) (b := (x, Binding.value v))
            ⟨rfl, hbinding⟩ .nil)
        rw [hstack, Stack.declareAll_cons] at hnew
        rw [hbinder, hstack']
        exact hnew

end

/-- Where only functions are in scope the names are those of the functions and of the built-in functions. -/
theorem Lawful.follows_root (h : t.Lawful m) (hroot : t.AtRoot scopes) :
    m.rootDeclarations.Follows (t.binding? m) scopes.stack := by
  obtain ⟨root, hsome, hrestores⟩ := hroot
  rw [hrestores.stack]
  refine (h.root hsome).follows ?_ (map_fst_mapIdx ..) fun d hd => ?_
  · rw [ScopeChain.withBuiltins, ScopeChain.stack_root]
    refine .cons ?_ .nil
    rw [List.forall₂_map_left_iff, List.forall₂_map_right_iff, List.forall₂_same]
    exact fun b _ => ⟨rfl, rfl⟩
  · obtain ⟨i, hi, rfl⟩ := List.mem_mapIdx.1 hd
    simp [binding?, hi, hsome]

/-- What is in scope at a site is what is declared there as the shape of the module tells. -/
theorem Lawful.visits (h : t.Lawful m) :
    ∀ {P : Site} {s : t.State} {e : Expr}, t.visit? P = some (s, e) →
      ∃ D e₀, m.declarations? P = some D ∧ m.expr? P = some e₀ ∧ e.untyped = e₀.untyped ∧
        D.Follows (t.binding? m) (t.scopes s).stack := by
  intro P
  induction P with
  | function i =>
    intro s e hvisit
    obtain ⟨f, before, hf, he, hroot, hdeclares⟩ := h.function hvisit
    refine ⟨_, f.body, by rw [Module.declarations?, hf]; rfl, by rw [Module.expr?, hf]; rfl, he, ?_⟩
    refine hdeclares.follows ?_ (map_fst_mapIdx ..) fun d hd => ?_
    · rw [ScopeChain.stack_push]
      exact .cons .nil (h.follows_root hroot)
    · obtain ⟨j, hj, rfl⟩ := List.mem_mapIdx.1 hd
      simp [binding?, hf, hj, show t.function i = some (s, e) from hvisit]
  | main =>
    intro s e hvisit
    obtain ⟨he, hroot⟩ := h.main hvisit
    exact ⟨_, m.body, rfl, rfl, he, h.follows_root hroot⟩
  | part whole i ih =>
    intro s' a hvisit
    simp only [visit?, Option.bind_eq_some_iff, Option.map_eq_some_iff, Prod.exists, Prod.mk.injEq] at hvisit
    obtain ⟨s, e, hwhole, a', ha, s'', henter, rfl, rfl⟩ := hvisit
    obtain ⟨D, e₀, hdeclarations, hexpr, he, hfollows⟩ := ih hwhole
    -- the tree that is visited has the shape of the tree of the module
    have hparts := Expr.parts_of_untyped he
    obtain ⟨a₀, ha₀, hsame⟩ : ∃ a₀, e₀.parts[i]? = some a₀ ∧ a'.untyped = a₀.untyped := by
      have hget := congrArg (·[i]?) hparts
      simp only [List.getElem?_map, ha, Option.map_some] at hget
      obtain ⟨a₀, ha₀, hsame⟩ := Option.map_eq_some_iff.1 hget.symm
      exact ⟨a₀, ha₀, hsame.symm⟩
    refine ⟨(e₀.opened D).declareAll (Expr.allIntroduce whole 0 (e₀.parts.take i)), a₀,
      by rw [Module.declarations?, hdeclarations, hexpr]; rfl,
      by rw [Module.expr?, hexpr]; exact ha₀, hsame, ?_⟩
    have hopens : e₀.opened D = e.opened D := by
      rw [Expr.opened, Expr.opened, ← Expr.opensScope_untyped, ← he, Expr.opensScope_untyped]
    have htake : (e₀.parts.take i).map (·.untyped) = (e.parts.take i).map (·.untyped) := by
      rw [List.map_take, List.map_take, hparts]
    rw [hopens, Expr.allIntroduce_of_untyped whole htake]
    have hlt : i < e.parts.length := (List.getElem?_eq_some_iff.1 ha).1
    exact h.follows_after hwhole hfollows (fun part _ => h.follows_leave part) (h.enter hlt henter)

/-- If work on all functions and on the top-level statements succeeds, then all of the module is visited, and
work on all expressions succeeds. -/
theorem Lawful.visits_all (h : t.Lawful m)
    (hfunctions : ∀ i < m.functions.length, ∃ s e scopes, t.function i = some (s, e) ∧
      t.leave s e = some scopes)
    (hmain : ∃ s e scopes, t.main = some (s, e) ∧ t.leave s e = some scopes) :
    ∀ {P : Site} {e₀ : Expr}, m.expr? P = some e₀ →
      ∃ s e scopes, t.visit? P = some (s, e) ∧ t.leave s e = some scopes := by
  intro P
  induction P with
  | function i =>
    intro e₀ he₀
    obtain ⟨f, hf, -⟩ := Option.map_eq_some_iff.1 he₀
    exact hfunctions i (List.getElem?_eq_some_iff.1 hf).1
  | main =>
    intro e₀ he₀
    exact hmain
  | part whole i ih =>
    intro a₀ ha₀
    obtain ⟨e₀, he₀, ha₀⟩ := Option.bind_eq_some_iff.1 ha₀
    obtain ⟨s, e, scopes, hvisit, hleave⟩ := ih he₀
    obtain ⟨-, e₁, -, he₁, he, -⟩ := h.visits hvisit
    obtain rfl : e₀ = e₁ := Option.some.inj (he₀.symm.trans he₁)
    obtain ⟨inner, hinner, -⟩ := h.leave hleave
    have hlt : i < e.parts.length := by
      have hlength := congrArg List.length (Expr.parts_of_untyped he)
      rw [List.length_map, List.length_map] at hlength
      rw [hlength]
      exact (List.getElem?_eq_some_iff.1 ha₀).1
    obtain ⟨a, s', scopes', ha, henter, hpart⟩ := h.after_parts hinner i hlt
    exact ⟨s', a, scopes', by simp [visit?, hvisit, ha, henter], hpart⟩

end Traversal

end Syntax

end Exprc
