/-
Modules with other places. `Module.placed` gives each expression of a module a place that is told for its site;
all else stays as it is, so the module is the same without places. What is declared at a site and what is in scope
there depends on the shape of a module alone, not on places or types.
-/
import Exprc.Proofs.Places.Erasure
import Exprc.Proofs.Resolution.Sites

namespace Exprc.Syntax

/-! ## Shapes -/

namespace Expr

/-- An expression without types and places. -/
def shape (e : Expr) : Expr := e.unplaced.untyped

theorem parts_unplaced (e : Expr) : e.unplaced.parts = e.parts.map (·.unplaced) := by
  cases e with
  | block _ es | call _ _ es => exact allUnplaced_eq es
  | _ => rfl

theorem parts_shape (e : Expr) : e.shape.parts = e.parts.map (·.shape) := by
  rw [shape, parts_untyped, parts_unplaced, List.map_map]
  rfl

theorem opensScope_shape (e : Expr) : e.shape.opensScope = e.opensScope := by cases e <;> rfl

theorem binder?_shape (e : Expr) : e.shape.binder? = e.binder? := by cases e <;> rfl

/-- What an expression declares, its shape tells. -/
theorem introduces_shape (e : Expr) (here : Site) : e.shape.introduces here = e.introduces here :=
  introduces_view parts_shape opensScope_shape binder?_shape e here

end Expr

theorem mapIdx_map {α β γ : Type} (l : List α) (g : α → β) (f : Nat → β → γ) :
    (l.map g).mapIdx f = l.mapIdx fun i a => f i (g a) :=
  List.ext_getElem? fun i => by simp [Function.comp_def]

theorem map_mapIdx {α β γ : Type} (l : List α) (f : Nat → α → β) (g : β → γ) :
    (l.mapIdx f).map g = l.mapIdx fun i a => g (f i a) :=
  List.ext_getElem? fun i => by simp [Function.comp_def]

/-- A module without types and places. -/
def Module.shape (m : Module) : Module := m.unplaced.untyped

namespace Module

theorem functions_shape (m : Module) (i : Nat) :
    m.shape.functions[i]? = m.functions[i]?.map fun f => f.unplaced.untyped := by
  simp [shape, untyped, unplaced, Function.comp_def]

theorem expr?_shape (m : Module) (P : Site) : m.shape.expr? P = (m.expr? P).map (·.shape) := by
  induction P with
  | function i =>
    rw [expr?, expr?, functions_shape, Option.map_map, Option.map_map]
    rfl
  | main => rfl
  | part whole i ih =>
    rw [expr?, expr?, ih]
    cases m.expr? whole with
    | none => rfl
    | some e => simp [Expr.parts_shape]

theorem rootDeclarations_shape (m : Module) : m.shape.rootDeclarations = m.rootDeclarations := by
  simp only [rootDeclarations, shape, untyped, unplaced, mapIdx_map]
  rfl

/-- What is in scope at a site, the shape of the module tells. -/
theorem declarations?_shape (m : Module) (P : Site) : m.shape.declarations? P = m.declarations? P := by
  induction P with
  | function i =>
    rw [declarations?, declarations?, functions_shape, rootDeclarations_shape, Option.map_map]
    cases m.functions[i]? with
    | none => rfl
    | some f =>
      have hparameters : f.unplaced.untyped.parameters = f.parameters.map (·.unplaced) := rfl
      simp only [Option.map_some, Function.comp_apply, hparameters, mapIdx_map]
      rfl
  | main => exact congrArg some m.rootDeclarations_shape
  | part whole i ih =>
    rw [declarations?, declarations?, ih, expr?_shape]
    cases m.declarations? whole with
    | none => rfl
    | some D =>
      cases m.expr? whole with
      | none => rfl
      | some e =>
        simp only [Option.map_some, Option.bind_some, Expr.opened, Expr.opensScope_shape, Expr.parts_shape,
          ← List.map_take, Expr.allIntroduce_map whole fun e _ => e.introduces_shape]

end Module

/-! ## Other places -/

namespace Expr

mutual

/-- An expression at a site in which every expression is at the place for its site. -/
def placed (place : Site → Location) (here : Site) : Expr → Expr
  | int n value => int ⟨place here, n.ty?⟩ value
  | bool n value => bool ⟨place here, n.ty?⟩ value
  | unit n => unit ⟨place here, n.ty?⟩
  | name n x => name ⟨place here, n.ty?⟩ x
  | unary n op e => unary ⟨place here, n.ty?⟩ op (placed place (here.part 0) e)
  | binary n op l lhs rhs =>
    binary ⟨place here, n.ty?⟩ op l (placed place (here.part 0) lhs) (placed place (here.part 1) rhs)
  | assign n l target value =>
    assign ⟨place here, n.ty?⟩ l (placed place (here.part 0) target) (placed place (here.part 1) value)
  | ifThen n c t => ifThen ⟨place here, n.ty?⟩ (placed place (here.part 0) c) (placed place (here.part 1) t)
  | ifElse n c t e =>
    ifElse ⟨place here, n.ty?⟩ (placed place (here.part 0) c) (placed place (here.part 1) t)
      (placed place (here.part 2) e)
  | loop n c b => loop ⟨place here, n.ty?⟩ (placed place (here.part 0) c) (placed place (here.part 1) b)
  | block n es => block ⟨place here, n.ty?⟩ (allPlaced place here 0 es)
  | declare n x written? e => declare ⟨place here, n.ty?⟩ x written? (placed place (here.part 0) e)
  | call n f es => call ⟨place here, n.ty?⟩ f (allPlaced place here 0 es)
  | control n c => control ⟨place here, n.ty?⟩ c
  | leave n => leave ⟨place here, n.ty?⟩
  | leaveWith n e => leaveWith ⟨place here, n.ty?⟩ (placed place (here.part 0) e)

/-- Parts of an expression, the first of which has a given number, with the places for their sites. -/
def allPlaced (place : Site → Location) (whole : Site) (first : Nat) : List Expr → List Expr
  | [] => []
  | e :: es => placed place (whole.part first) e :: allPlaced place whole (first + 1) es

end

theorem location_placed (place : Site → Location) (here : Site) (e : Expr) :
    (e.placed place here).location = place here := by
  cases e <;> rfl

theorem getElem?_allPlaced (place : Site → Location) (whole : Site) (es : List Expr) (first i : Nat) :
    (allPlaced place whole first es)[i]? = es[i]?.map (·.placed place (whole.part (first + i))) := by
  induction es generalizing first i with
  | nil => rfl
  | cons e es ih =>
    cases i with
    | zero => rfl
    | succ i => simp [allPlaced, ih, Nat.add_assoc, Nat.add_comm 1]

theorem parts_placed (place : Site → Location) (here : Site) (e : Expr) (i : Nat) :
    (e.placed place here).parts[i]? = e.parts[i]?.map (·.placed place (here.part i)) := by
  cases e with
  | block _ es | call _ _ es =>
    have hget := getElem?_allPlaced place here es 0 i
    rwa [Nat.zero_add] at hget
  | unary | declare | leaveWith => cases i <;> rfl
  | binary | assign | ifThen | loop => rcases i with _ | _ | i <;> rfl
  | ifElse => rcases i with _ | _ | _ | i <;> rfl
  | _ => rfl

mutual

theorem placed_unplaced (place : Site → Location) :
    ∀ (e : Expr) (here : Site), (e.placed place here).unplaced = e.unplaced
  | int .., _ | bool .., _ | unit _, _ | name .., _ | control .., _ | leave _, _ => rfl
  | unary _ _ e, here | declare _ _ _ e, here | leaveWith _ e, here => by
    simp only [placed, unplaced, placed_unplaced place e, Note.unplaced]
  | binary _ _ _ e e', here | assign _ _ e e', here | ifThen _ e e', here | loop _ e e', here => by
    simp only [placed, unplaced, placed_unplaced place e, placed_unplaced place e', Note.unplaced]
  | ifElse _ c t e, here => by
    simp only [placed, unplaced, placed_unplaced place c, placed_unplaced place t, placed_unplaced place e,
      Note.unplaced]
  | block _ es, here | call _ _ es, here => by
    simp only [placed, unplaced, allPlaced_unplaced place es, Note.unplaced]

theorem allPlaced_unplaced (place : Site → Location) :
    ∀ (es : List Expr) (whole : Site) (first : Nat),
      allUnplaced (allPlaced place whole first es) = allUnplaced es
  | [], _, _ => rfl
  | e :: es, whole, first => by
    simp only [allPlaced, allUnplaced, placed_unplaced place e, allPlaced_unplaced place es]

end

end Expr

/-- A module in which every expression is at the place for its site. -/
def Module.placed (place : Site → Location) (m : Module) : Module :=
  { m with
    functions := m.functions.mapIdx fun i f => { f with body := f.body.placed place (.function i) }
    body := m.body.placed place .main }

namespace Module

theorem placed_unplaced (place : Site → Location) (m : Module) : (m.placed place).unplaced = m.unplaced := by
  have hfunctions : (m.placed place).functions.map (·.unplaced) = m.functions.map (·.unplaced) := by
    rw [placed, map_mapIdx]
    refine List.ext_getElem? fun i => ?_
    simp [FunctionDefinition.unplaced, Expr.placed_unplaced]
  rw [unplaced, hfunctions, placed, Expr.placed_unplaced]
  rfl

theorem expr?_placed (place : Site → Location) (m : Module) (P : Site) :
    (m.placed place).expr? P = (m.expr? P).map (·.placed place P) := by
  induction P with
  | function i => simp [expr?, placed, Function.comp_def]
  | main => rfl
  | part whole i ih =>
    rw [expr?, expr?, ih]
    cases m.expr? whole with
    | none => rfl
    | some e => exact e.parts_placed place whole i

end Module

/-! ## A place for each site -/

/-- A number for each site. -/
def Site.number : Site → Nat
  | .main => 0
  | .function i => 2 * i + 1
  | .part whole i => 2 * Nat.pair whole.number i + 2

theorem Site.number_injective : Function.Injective number := by
  intro P
  induction P with
  | function i => rintro (j | - | ⟨whole, j⟩) h <;> simp only [number] at h <;> first | omega | (congr; omega)
  | main => rintro (j | - | ⟨whole, j⟩) h <;> simp only [number] at h <;> first | omega | rfl
  | part whole i ih =>
    rintro (j | - | ⟨whole', j⟩) h <;> simp only [number] at h
    · omega
    · omega
    · have hpair : Nat.pair whole.number i = Nat.pair whole'.number j := by omega
      obtain ⟨hwhole, rfl⟩ := Nat.pair_eq_pair.1 hpair
      rw [ih hwhole]

/-- A place for each site that no other site has. -/
def Site.ownPlace (site : Site) : Location := ⟨site.number, 0⟩

theorem Site.ownPlace_injective : Function.Injective ownPlace := fun _ _ h =>
  number_injective (congrArg Location.line h)

end Exprc.Syntax
