/-
The trees that the parser can produce: numbers are not negative, names are identifiers, a return only
stands last among the statements of its block, and a unit literal only stands last and behind a statement
that is no return. Every module that is read from a text is such a tree.
-/
import Exprc.Proofs.Syntax.Faithful

namespace Exprc.Syntax

open Text

/-- Whether a text is an identifier: a word that is not reserved. -/
def isIdentifier (x : String) : Bool := lexeme? x.toList == some (.identifier, x.toList)

/-- Where an expression stands. -/
inductive Standing where
  /-- Inside another expression, or before another statement. -/
  | inner
  /-- As the last statement of a block, behind other statements or alone. -/
  | last (follows : Bool)
deriving DecidableEq, Repr

namespace Expr

mutual

/-- Whether the parser can produce an expression in its place. -/
def producible (standing : Standing) : Expr → Bool
  | int _ value => 0 ≤ value.toInt
  | bool .. | control .. => true
  | unit _ => standing = .last true
  | name _ x => isIdentifier x
  | unary _ _ e => producible .inner e
  | binary _ _ _ e e' | assign _ _ e e' | ifThen _ e e' | loop _ e e' =>
    producible .inner e && producible .inner e'
  | ifElse _ c t e => producible .inner c && producible .inner t && producible .inner e
  | block _ es => allProducible false es
  | declare _ x _ e => isIdentifier x.text && producible .inner e
  | call _ f es => isIdentifier f && eachProducible es
  | leave _ => standing ≠ .inner
  | leaveWith _ e => standing ≠ .inner && producible .inner e

/-- Whether the parser can produce expressions as arguments. -/
def eachProducible : List Expr → Bool
  | [] => true
  | e :: es => producible .inner e && eachProducible es

/-- Whether the parser can produce expressions as the statements at the end of a block. -/
def allProducible (follows : Bool) : List Expr → Bool
  | [] => true
  | [e] => producible (.last follows) e
  | e :: e' :: es => producible .inner e && allProducible true (e' :: es)

end

/-- What may stand inside may stand anywhere. -/
theorem producible_last {e : Expr} (h : e.producible .inner = true) (follows : Bool) :
    e.producible (.last follows) = true := by
  cases e <;> simp_all [producible]

end Expr

/-- Whether the parser can produce the definition of a function. -/
def FunctionDefinition.producible (f : FunctionDefinition) : Bool :=
  isIdentifier f.name.text && f.parameters.all (fun p => isIdentifier p.name.text) &&
    match f.body with
    | .block _ es => Expr.allProducible false es
    | _ => false

/-- Whether the parser can produce a module. -/
def Module.producible (m : Module) : Bool :=
  m.functions.all (·.producible) &&
    match m.body with
    | .block _ es => Expr.allProducible false es
    | _ => false

/-! ## Parsed modules -/

theorem Token.Lexed.isIdentifier {t : Token} (h : t.Lexed) (hkind : t.kind = .identifier) :
    Syntax.isIdentifier t.text = true := by
  rw [Syntax.isIdentifier, h, hkind, beq_self_eq_true]

/-- Statements of which only the last one may be a return. -/
theorem Statement.allProducible_trees {follows : Bool} : ∀ {statements : List Statement},
    (∀ s ∈ statements.dropLast, s.tree.isReturn = false) →
    (∀ s ∈ statements, (∀ follows, s.tree.producible (.last follows) = true) ∧
      (s.tree.isReturn = false → s.tree.producible .inner = true)) →
    Expr.allProducible follows (trees statements) = true
  | [], _, _ => rfl
  | [s], _, h => by
    obtain ⟨hlast, hinner⟩ := h s List.mem_cons_self
    rw [trees, inserted, List.getLast?_singleton, Option.bind_some, open?]
    cases hreturn : s.tree.isReturn with
    | true => simpa [Expr.allProducible] using hlast follows
    | false =>
      cases s.semicolon? with
      | none => simpa [Expr.allProducible] using hlast follows
      | some t => simpa [Expr.allProducible, Expr.producible] using hinner hreturn
  | s :: s' :: statements, hreturns, h => by
    obtain ⟨hs, hstatements⟩ := List.forall_mem_cons.1 h
    obtain ⟨hreturn, hreturns⟩ := List.forall_mem_cons.1 hreturns
    have ih : Expr.allProducible true (trees (s' :: statements)) = true :=
      allProducible_trees hreturns hstatements
    rw [trees, List.map_cons, List.cons_append] at ih
    rw [trees, List.map_cons, List.map_cons, List.cons_append, List.cons_append, Expr.allProducible,
      hs.2 hreturn, Bool.true_and]
    exact ih

/-- Before another piece there are no returns. -/
theorem Piece.isReturn_of_dropLast : ∀ {pieces : List Piece}, pieces.IsChain MayPrecede →
    ∀ s ∈ (pieces.filterMap (·.statement?)).dropLast, s.tree.isReturn = false
  | [], _ => nofun
  | .definition f l :: pieces, h => by
    have hcons : (definition f l :: pieces).filterMap (·.statement?) = pieces.filterMap (·.statement?) := rfl
    rw [hcons]
    exact isReturn_of_dropLast (List.isChain_cons.1 h).2
  | .statement s :: [], _ => nofun
  | .statement s :: p :: pieces, h => by
    obtain ⟨hp, hpieces⟩ := List.isChain_cons.1 h
    have ih := isReturn_of_dropLast hpieces
    have hcons : (statement s :: p :: pieces).filterMap (·.statement?) =
      s :: (p :: pieces).filterMap (·.statement?) := rfl
    rw [hcons]
    cases hrest : (p :: pieces).filterMap (·.statement?) with
    | nil => exact nofun
    | cons s' statements =>
      rw [hrest] at ih
      exact List.forall_mem_cons.2 ⟨(hp p rfl).1, ih⟩

theorem Expr.eachProducible_iff {es : List Expr} :
    eachProducible es = true ↔ ∀ e ∈ es, e.producible .inner = true := by
  induction es with
  | nil => simp [eachProducible]
  | cons e es ih => simp [eachProducible, ih]

/-- What tokens stand for can be produced: inside, or as a last statement. -/
theorem Rendering.producible {form : Form} {e : Expr} {l : Layout} (h : Rendering form e l)
    (hl : l.Lexed) : (∀ follows, e.producible (.last follows) = true) ∧
      (form = .expression ∨ e.isReturn = false → e.producible .inner = true) := by
  -- It is enough to show that an expression that is no return can stand inside.
  have hinner : ∀ {form : Form} {e : Expr}, e.producible .inner = true →
      (∀ follows, e.producible (.last follows) = true) ∧
        (form = .expression ∨ e.isReturn = false → e.producible .inner = true) :=
    fun he => ⟨Expr.producible_last he, fun _ => he⟩
  induction h with
  | int hkind hvalue =>
    obtain ⟨ht, -⟩ := Layout.lexed_cons.1 hl
    obtain ⟨hne, hdigits⟩ := ht.spelling.1 hkind
    rw [int64?_digits hne hdigits] at hvalue
    exact hinner (by simp [Expr.producible, toInt_of_fit? hvalue])
  | bool | control => exact hinner rfl
  | name hkind =>
    obtain ⟨ht, -⟩ := Layout.lexed_cons.1 hl
    exact hinner (ht.isIdentifier hkind)
  | group _ _ _ ih =>
    simp only [List.cons_append, Layout.lexed_cons, Layout.lexed_append] at hl
    exact hinner ((ih hl.2.1).2 (.inl rfl))
  | unary _ _ ih =>
    exact hinner ((ih (Layout.lexed_cons.1 hl).2).2 (.inl rfl))
  | binary _ _ _ ihl ihr | assign _ _ _ ihl ihr =>
    simp only [Layout.lexed_append, Layout.lexed_cons] at hl
    exact hinner (by simp [Expr.producible, (ihl hl.1).2 (.inl rfl), (ihr hl.2.2).2 (.inl rfl)])
  | ifThen _ _ _ _ ihc iht | loop _ _ _ _ ihc iht =>
    simp only [List.cons_append, Layout.lexed_append, Layout.lexed_cons] at hl
    exact hinner (by simp [Expr.producible, (ihc hl.2.1).2 (.inl rfl), (iht hl.2.2.2).2 (.inl rfl)])
  | ifElse _ _ _ _ _ _ ihc iht ihe =>
    simp only [List.cons_append, List.append_assoc, Layout.lexed_append, Layout.lexed_cons] at hl
    obtain ⟨-, hlc, -, hlt, -, hle⟩ := hl
    exact hinner (by
      simp [Expr.producible, (ihc hlc).2 (.inl rfl), (iht hlt).2 (.inl rfl), (ihe hle).2 (.inl rfl)])
  | declare _ hx _ _ ih =>
    simp only [Layout.lexed_cons] at hl
    obtain ⟨-, hlx, -, hl⟩ := hl
    exact hinner (by simp [Expr.producible, hlx.isIdentifier hx, (ih hl).2 (.inl rfl)])
  | declareAs _ hx _ _ _ _ _ ih =>
    simp only [Layout.lexed_cons] at hl
    obtain ⟨-, hlx, -, -, -, hl⟩ := hl
    exact hinner (by simp [Expr.producible, hlx.isIdentifier hx, (ih hl).2 (.inl rfl)])
  | call hf _ _ _ _ ih =>
    simp only [List.cons_append, Layout.lexed_append, Layout.lexed_cons] at hl
    obtain ⟨hlf, -, hlargs, -⟩ := hl
    refine hinner (Bool.and_eq_true_iff.2 ⟨hlf.isIdentifier hf, Expr.eachProducible_iff.2 fun e he => ?_⟩)
    obtain ⟨i, hi, rfl⟩ := List.mem_map.1 he
    exact (ih i hi (Layout.lexed_append.1 (Layout.lexed_flatMap hlargs i hi)).2).2 (.inl rfl)
  | @block _ _ statements _ _ hchain _ ih =>
    simp only [List.cons_append, Layout.lexed_append, Layout.lexed_cons] at hl
    obtain ⟨-, hlstatements, -⟩ := hl
    refine hinner (Statement.allProducible_trees (fun s hs => ?_) fun s hs => ?_)
    · have hfilter : (statements.map Piece.statement).filterMap (·.statement?) = statements := by
        rw [List.filterMap_map]
        exact List.filterMap_some
      exact Piece.isReturn_of_dropLast hchain s (hfilter.symm ▸ hs)
    · have hs := ih s hs (Layout.lexed_append.1 (Layout.lexed_flatMap hlstatements s hs)).1
      exact ⟨hs.1, fun hreturn => hs.2 (.inr hreturn)⟩
  | leave => exact ⟨fun _ => rfl, by rintro (h | h) <;> cases h⟩
  | leaveWith _ _ ih =>
    have he := (ih (Layout.lexed_cons.1 hl).2).2 (.inl rfl)
    refine ⟨fun _ => ?_, by rintro (h | h) <;> cases h⟩
    simp [Expr.producible, he]
  | statement _ ih => exact hinner ((ih hl).2 (.inl rfl))

theorem Item.all_item {α : Type} {p : α → Bool} {items : List (Item α)}
    (hl : Layout.Lexed (items.flatMap (·.whole))) (h : ∀ i ∈ items, i.layout.Lexed → p i.item = true) :
    (items.map (·.item)).all p = true := by
  rw [List.all_map, List.all_eq_true]
  exact fun i hi => h i hi (Layout.lexed_append.1 (Layout.lexed_flatMap hl i hi)).2

theorem ParameterRendering.isIdentifier {p : Parameter} {l : Layout} (h : ParameterRendering p l)
    (hl : l.Lexed) : Syntax.isIdentifier p.name.text = true := by
  obtain ⟨hx, -, -, -⟩ := h
  exact (Layout.lexed_cons.1 hl).1.isIdentifier hx

theorem DefinitionRendering.producible {f : FunctionDefinition} {l : Layout}
    (h : DefinitionRendering f l) (hl : l.Lexed) : f.producible = true := by
  obtain ⟨hword, hx, hopening, hparameters, hlisted, hclosing, hcolon, hτ, hname, hbody⟩ := h
  simp only [List.cons_append, List.append_assoc, List.nil_append, Layout.lexed_append,
    Layout.lexed_cons] at hl
  obtain ⟨-, hlx, -, hlparameters, -, -, -, hlbody⟩ := hl
  have hbody := (hbody.producible hlbody).2 (.inl rfl)
  have hps := Item.all_item (p := fun p : Parameter => isIdentifier p.name.text) hlparameters
    fun i hi hl => (hparameters i hi).isIdentifier hl
  simp only [FunctionDefinition.producible, Bool.and_eq_true]
  exact ⟨⟨hlx.isIdentifier hx, hps⟩, hbody⟩

theorem Piece.Rendered.producible {p : Piece} (h : p.Rendered) (hl : p.whole.Lexed) :
    (∀ f ∈ p.definition?, f.producible = true) ∧
      ∀ s ∈ p.statement?, (∀ follows, s.tree.producible (.last follows) = true) ∧
        (s.tree.isReturn = false → s.tree.producible .inner = true) := by
  cases p with
  | definition f l =>
    refine ⟨?_, nofun⟩
    rintro _ ⟨⟩
    exact DefinitionRendering.producible h hl
  | statement s =>
    refine ⟨nofun, ?_⟩
    rintro _ ⟨⟩
    have hs := Rendering.producible h (Layout.lexed_append.1 hl).1
    exact ⟨hs.1, fun hreturn => hs.2 (.inr hreturn)⟩

/-- Every module that is read from a text is a tree that the parser can produce. -/
theorem producible_of_readSource {source : Source} {m : Module}
    (h : Parser.module.readSource source = .ok m) : m.producible = true := by
  obtain ⟨tokens, ht, hm⟩ : ∃ tokens, tokenize source = .ok tokens ∧
      (Parser.module.run (.start tokens)).1 = .ok m := by
    unfold Parser.readSource at h
    split at h
    · cases h
    · split at h
      · cases h
      · cases h; exact ⟨_, ‹_›, ‹_›⟩
  obtain ⟨pieces, place, -, hlexed, hrendered, hordered, hfunctions, hbody⟩ := module_pieces ht hm
  have hpieces : ∀ p ∈ pieces, _ := fun p hp =>
    (hrendered p hp).producible (Layout.lexed_flatMap hlexed p hp)
  rw [Module.producible, hfunctions, hbody, Bool.and_eq_true, List.all_eq_true]
  refine ⟨fun f hf => ?_, Statement.allProducible_trees (Piece.isReturn_of_dropLast hordered) fun s hs => ?_⟩
  · obtain ⟨p, hp, hpf⟩ := List.mem_filterMap.1 hf
    exact (hpieces p hp).1 f hpf
  · obtain ⟨p, hp, hps⟩ := List.mem_filterMap.1 hs
    exact (hpieces p hp).2 s hps

end Exprc.Syntax
