/-
Trees, code and failures without places (`unplaced`): every place is the same one, `Location.nowhere`.
Trees that differ in places and types only are equal without both.
-/
import Exprc.Diagnostic
import Exprc.IR.Basic
import Exprc.Proofs.Syntax.Nodes

namespace Exprc

/-- A fault whose place, if it has one, is nowhere. -/
def Fault.unplaced {ε : Type} (f : Fault ε) : Fault ε :=
  { f with location? := f.location?.map fun _ => .nowhere }

/-- Whether a fault, if it has a place, has one of a kind. -/
def Fault.Blames {ε : Type} (P : Location → Prop) (f : Fault ε) : Prop := ∀ l ∈ f.location?, P l

theorem Fault.Blames.at {ε : Type} {P : Location → Prop} {l : Location} (h : P l) (cause : ε) :
    (Fault.at l cause).Blames P := by
  rintro _ ⟨⟩
  exact h

namespace Syntax

/-! ## Trees -/

/-- A note without its place. -/
def Note.unplaced (n : Note) : Note := { n with location := .nowhere }

/-- A name without its place. -/
def Name.unplaced (x : Name) : Name := { x with location := .nowhere }

/-- A written type without its place. -/
def WrittenType.unplaced (a : WrittenType) : WrittenType := { a with location := .nowhere }

namespace Expr

mutual

/-- An expression without places. -/
def unplaced : Expr → Expr
  | int n value => int n.unplaced value
  | bool n value => bool n.unplaced value
  | unit n => unit n.unplaced
  | name n x => name n.unplaced x
  | unary n op e => unary n.unplaced op (unplaced e)
  | binary n op _ lhs rhs => binary n.unplaced op .nowhere (unplaced lhs) (unplaced rhs)
  | assign n _ target value => assign n.unplaced .nowhere (unplaced target) (unplaced value)
  | ifThen n c t => ifThen n.unplaced (unplaced c) (unplaced t)
  | ifElse n c t e => ifElse n.unplaced (unplaced c) (unplaced t) (unplaced e)
  | loop n c b => loop n.unplaced (unplaced c) (unplaced b)
  | block n es => block n.unplaced (allUnplaced es)
  | declare n x written? e =>
    declare n.unplaced x.unplaced (written?.map (·.unplaced)) (unplaced e)
  | call n f es => call n.unplaced f (allUnplaced es)
  | control n c => control n.unplaced c
  | leave n => leave n.unplaced
  | leaveWith n e => leaveWith n.unplaced (unplaced e)

/-- Expressions without places. -/
def allUnplaced : List Expr → List Expr
  | [] => []
  | e :: es => unplaced e :: allUnplaced es

end

theorem note_unplaced (e : Expr) : e.unplaced.note = e.note.unplaced := by cases e <;> rfl

theorem isReturn_unplaced (e : Expr) : e.unplaced.isReturn = e.isReturn := by cases e <;> rfl

theorem allUnplaced_eq (es : List Expr) : allUnplaced es = es.map (·.unplaced) := by
  induction es with
  | nil => rfl
  | cons e es ih => rw [allUnplaced, ih, List.map_cons]

theorem endsInReturn_unplaced (e : Expr) : e.unplaced.endsInReturn = e.endsInReturn := by
  cases e with
  | block n es =>
    rw [unplaced, allUnplaced_eq, endsInReturn, endsInReturn, List.getLast?_map, Option.any_map]
    exact congrArg (es.getLast?.any ·) (funext isReturn_unplaced)
  | _ => rfl

end Expr

/-- A parameter without places. -/
def Parameter.unplaced (p : Parameter) : Parameter := ⟨p.name.unplaced, p.written.unplaced⟩

/-- A definition without places. -/
def FunctionDefinition.unplaced (f : FunctionDefinition) : FunctionDefinition :=
  ⟨.nowhere, f.name.unplaced, f.parameters.map (·.unplaced), f.result.unplaced, f.body.unplaced⟩

/-- A module without places. -/
def Module.unplaced (m : Module) : Module :=
  ⟨.nowhere, m.functions.map (·.unplaced), m.body.unplaced⟩

/-! ## Trees that are alike -/

theorem Note.untyped_eq {n : Note} (h : n.ty? = none) : n.untyped = n := by
  cases n
  cases h
  rfl

theorem Name.unplaced_eq {x y : Name} (h : x.text = y.text) : x.unplaced = y.unplaced := by
  rw [unplaced, unplaced, h]

theorem WrittenType.unplaced_eq {a b : WrittenType} (h : a.name = b.name) : a.unplaced = b.unplaced := by
  rw [unplaced, unplaced, h]

namespace Expr

theorem writtenTypes_unplaced_eq : ∀ {a? b? : Option WrittenType}, a?.map (·.name) = b?.map (·.name) →
    a?.map (·.unplaced) = b?.map (·.unplaced)
  | none, none, _ => rfl
  | some _, some _, h => congrArg some (WrittenType.unplaced_eq (Option.some.inj h))

mutual

/-- Expressions that are alike are the same without types and places. -/
theorem unplaced_eq_of_alike : ∀ {e e' : Expr}, e.alike e' = true →
    e.untyped.unplaced = e'.untyped.unplaced
  | int .., e', h | bool .., e', h | unit .., e', h | name .., e', h | control .., e', h
  | leave .., e', h => by
    cases e' <;> simp_all [alike, untyped, unplaced, Note.unplaced, Note.untyped]
  | unary _ _ e, e', h => by
    cases e' with
    | unary _ _ e' =>
      simp only [alike, Bool.and_eq_true, beq_iff_eq] at h
      simp [untyped, unplaced, Note.unplaced, Note.untyped, h.1, unplaced_eq_of_alike h.2]
    | _ => cases h
  | binary _ _ _ l r, e', h => by
    cases e' with
    | binary _ _ _ l' r' =>
      simp only [alike, Bool.and_eq_true, beq_iff_eq] at h
      simp [untyped, unplaced, Note.unplaced, Note.untyped, h.1.1, unplaced_eq_of_alike h.1.2,
        unplaced_eq_of_alike h.2]
    | _ => cases h
  | assign _ _ t v, e', h => by
    cases e' with
    | assign _ _ t' v' =>
      simp only [alike, Bool.and_eq_true] at h
      simp [untyped, unplaced, Note.unplaced, Note.untyped, unplaced_eq_of_alike h.1,
        unplaced_eq_of_alike h.2]
    | _ => cases h
  | ifThen _ c t, e', h => by
    cases e' with
    | ifThen _ c' t' =>
      simp only [alike, Bool.and_eq_true] at h
      simp [untyped, unplaced, Note.unplaced, Note.untyped, unplaced_eq_of_alike h.1,
        unplaced_eq_of_alike h.2]
    | _ => cases h
  | loop _ c b, e', h => by
    cases e' with
    | loop _ c' b' =>
      simp only [alike, Bool.and_eq_true] at h
      simp [untyped, unplaced, Note.unplaced, Note.untyped, unplaced_eq_of_alike h.1,
        unplaced_eq_of_alike h.2]
    | _ => cases h
  | ifElse _ c t e, e', h => by
    cases e' with
    | ifElse _ c' t' e' =>
      simp only [alike, Bool.and_eq_true] at h
      simp [untyped, unplaced, Note.unplaced, Note.untyped, unplaced_eq_of_alike h.1.1,
        unplaced_eq_of_alike h.1.2, unplaced_eq_of_alike h.2]
    | _ => cases h
  | block _ es, e', h => by
    cases e' with
    | block _ es' =>
      rw [alike] at h
      simp [untyped, unplaced, Note.unplaced, Note.untyped, allUnplaced_eq_of_alike h]
    | _ => cases h
  | declare _ x a e, e', h => by
    cases e' with
    | declare _ x' a' e' =>
      simp only [alike, Bool.and_eq_true, beq_iff_eq] at h
      simp [untyped, unplaced, Note.unplaced, Note.untyped, Name.unplaced_eq h.1.1,
        writtenTypes_unplaced_eq h.1.2, unplaced_eq_of_alike h.2]
    | _ => cases h
  | call _ f es, e', h => by
    cases e' with
    | call _ f' es' =>
      simp only [alike, Bool.and_eq_true, beq_iff_eq] at h
      simp [untyped, unplaced, Note.unplaced, Note.untyped, h.1, allUnplaced_eq_of_alike h.2]
    | _ => cases h
  | leaveWith _ e, e', h => by
    cases e' with
    | leaveWith _ e' =>
      rw [alike] at h
      simp [untyped, unplaced, Note.unplaced, Note.untyped, unplaced_eq_of_alike h]
    | _ => cases h

theorem allUnplaced_eq_of_alike : ∀ {es es' : List Expr}, allAlike es es' = true →
    allUnplaced (allUntyped es) = allUnplaced (allUntyped es')
  | [], [], _ => rfl
  | e :: es, e' :: es', h => by
    simp only [allAlike, Bool.and_eq_true] at h
    simp only [allUntyped, allUnplaced, unplaced_eq_of_alike h.1, allUnplaced_eq_of_alike h.2]

end

mutual

/-- An expression in which no expression has a type has no types to lose. -/
theorem untyped_eq : ∀ {e : Expr}, (∀ a ∈ e.subexpressions, a.ty? = none) → e.untyped = e
  | int n .., h | bool n .., h | unit n, h | name n .., h | control n .., h | leave n, h => by
    have hn := List.forall_mem_singleton.1 h
    rw [untyped, Note.untyped_eq (n := n) hn]
  | unary n .., h | declare n .., h | leaveWith n .., h => by
    obtain ⟨hn, he⟩ := List.forall_mem_cons.1 h
    rw [untyped, Note.untyped_eq (n := n) hn, untyped_eq he]
  | binary n .., h | assign n .., h | ifThen n .., h | loop n .., h => by
    obtain ⟨hn, h⟩ := List.forall_mem_cons.1 h
    obtain ⟨hl, hr⟩ := List.forall_mem_append.1 h
    rw [untyped, Note.untyped_eq (n := n) hn, untyped_eq hl, untyped_eq hr]
  | ifElse n .., h => by
    obtain ⟨hn, h⟩ := List.forall_mem_cons.1 h
    obtain ⟨hc, h⟩ := List.forall_mem_append.1 h
    obtain ⟨ht, he⟩ := List.forall_mem_append.1 h
    rw [untyped, Note.untyped_eq (n := n) hn, untyped_eq hc, untyped_eq ht, untyped_eq he]
  | block n .., h | call n .., h => by
    obtain ⟨hn, hes⟩ := List.forall_mem_cons.1 h
    rw [untyped, Note.untyped_eq (n := n) hn, allUntyped_eq hes]

theorem allUntyped_eq : ∀ {es : List Expr}, (∀ a ∈ allSubexpressions es, a.ty? = none) →
    allUntyped es = es
  | [], _ => rfl
  | e :: es, h => by
    obtain ⟨he, hes⟩ := List.forall_mem_append.1 h
    rw [allUntyped, untyped_eq he, allUntyped_eq hes]

end

end Expr

theorem Parameter.unplaced_eq_of_alike {p q : Parameter} (h : p.alike q = true) :
    p.unplaced = q.unplaced := by
  simp only [alike, Bool.and_eq_true, beq_iff_eq] at h
  rw [unplaced, unplaced, Name.unplaced_eq h.1, WrittenType.unplaced_eq h.2]

/-- Lists of things that are alike pair by pair. -/
theorem map_eq_of_zip {α β : Type} (r : α → α → Bool) (view : α → β)
    (h : ∀ {a b}, r a b = true → view a = view b) : ∀ {as bs : List α}, as.length = bs.length →
      ((as.zip bs).all fun p => r p.1 p.2) = true → as.map view = bs.map view
  | [], [], _, _ => rfl
  | a :: as, b :: bs, hlength, hall => by
    rw [List.zip_cons_cons, List.all_cons, Bool.and_eq_true] at hall
    rw [List.map_cons, List.map_cons, h hall.1, map_eq_of_zip r view h (Nat.succ.inj hlength) hall.2]

theorem FunctionDefinition.unplaced_eq_of_alike {f g : FunctionDefinition} (h : f.alike g = true) :
    f.untyped.unplaced = g.untyped.unplaced := by
  simp only [alike, Bool.and_eq_true, beq_iff_eq] at h
  obtain ⟨⟨⟨⟨hname, hlength⟩, hparameters⟩, hresult⟩, hbody⟩ := h
  simp only [untyped, unplaced, Name.unplaced_eq hname, WrittenType.unplaced_eq hresult,
    Expr.unplaced_eq_of_alike hbody,
    map_eq_of_zip Parameter.alike Parameter.unplaced Parameter.unplaced_eq_of_alike hlength hparameters]

/-- Modules that are alike are the same without types and places. -/
theorem Module.unplaced_eq_of_alike {m n : Module} (h : m.alike n = true) :
    m.untyped.unplaced = n.untyped.unplaced := by
  simp only [alike, Bool.and_eq_true, beq_iff_eq] at h
  obtain ⟨⟨hlength, hfunctions⟩, hbody⟩ := h
  have hmap := map_eq_of_zip FunctionDefinition.alike (·.untyped.unplaced)
    FunctionDefinition.unplaced_eq_of_alike hlength hfunctions
  simp only [untyped, unplaced, List.map_map, Expr.unplaced_eq_of_alike hbody]
  exact congrArg (Module.mk _ · _) hmap

mutual

/-- Every expression is like itself. -/
theorem Expr.alike_refl : ∀ e : Expr, e.alike e = true
  | .int _ _ | .bool _ _ | .unit _ | .name _ _ | .control _ _ | .leave _ => by simp [Expr.alike]
  | .unary _ _ e | .declare _ _ _ e | .leaveWith _ e => by simp [Expr.alike, e.alike_refl]
  | .binary _ _ _ l r | .assign _ _ l r | .ifThen _ l r | .loop _ l r => by
    simp [Expr.alike, l.alike_refl, r.alike_refl]
  | .ifElse _ c t e => by simp [Expr.alike, c.alike_refl, t.alike_refl, e.alike_refl]
  | .block _ es | .call _ _ es => by simp [Expr.alike, Expr.allAlike_refl es]

theorem Expr.allAlike_refl : ∀ es : List Expr, Expr.allAlike es es = true
  | [] => rfl
  | e :: es => by simp [Expr.allAlike, e.alike_refl, Expr.allAlike_refl es]

end

theorem all_zip_self {α : Type} {r : α → α → Bool} (h : ∀ a, r a a = true) (as : List α) :
    ((as.zip as).all fun p => r p.1 p.2) = true := by
  induction as with
  | nil => rfl
  | cons a as ih => rw [List.zip_cons_cons, List.all_cons, h, ih]; rfl

theorem FunctionDefinition.alike_refl (f : FunctionDefinition) : f.alike f = true := by
  have hparameters := all_zip_self (r := Parameter.alike) (fun p => by simp [Parameter.alike]) f.parameters
  simp [alike, f.body.alike_refl, hparameters]

/-- Modules with the same functions, whose statements are alike. -/
theorem Module.alike_of_eq {m n : Module} (hfunctions : m.functions = n.functions)
    (hbody : m.body.alike n.body = true) : m.alike n = true := by
  rw [alike, hfunctions, all_zip_self FunctionDefinition.alike_refl, hbody, beq_self_eq_true]
  rfl

theorem Module.untyped_eq {m : Module} (h : ∀ a ∈ m.subexpressions, a.ty? = none) : m.untyped = m := by
  obtain ⟨hfunctions, hbody⟩ := List.forall_mem_append.1 h
  have hmap : m.functions.map (·.untyped) = m.functions := by
    refine (List.map_congr_left fun f hf => ?_).trans (List.map_id _)
    rw [FunctionDefinition.untyped, Expr.untyped_eq fun a ha => hfunctions a (List.mem_flatMap.2 ⟨f, hf, ha⟩)]
    rfl
  rw [untyped, hmap, Expr.untyped_eq hbody]

end Syntax

/-! ## Code -/

namespace IR

/-- An instruction without its place. -/
def Instruction.unplaced (i : Instruction) : Instruction := { i with location := .nowhere }

/-- A function without places. -/
def Function.unplaced (f : Function) : Function := { f with code := f.code.map (·.unplaced) }

/-- A program without places. -/
def Module.unplaced (m : Module) : Module := ⟨m.functions.map (·.unplaced)⟩

theorem Function.isEntryPoint_unplaced (f : Function) : f.unplaced.isEntryPoint = f.isEntryPoint := rfl

theorem Function.endsInLeave_unplaced (f : Function) : f.unplaced.endsInLeave = f.endsInLeave := by
  rw [endsInLeave, unplaced, List.getLast?_map, Option.any_map]
  rfl

theorem Function.vars_unplaced (f : Function) : f.unplaced.vars = f.vars := by
  rw [vars, unplaced, List.flatMap_map]
  rfl

theorem Module.vars_unplaced (m : Module) : m.unplaced.vars = m.vars := by
  rw [vars, unplaced, List.flatMap_map]
  exact congrArg m.functions.flatMap (funext Function.vars_unplaced)

theorem Module.size_unplaced (m : Module) : m.unplaced.size = m.size := by
  simp [size, unplaced, Function.unplaced, List.flatMap_map, List.length_flatMap]

end IR

end Exprc
