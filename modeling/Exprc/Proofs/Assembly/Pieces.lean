/-
The assembly of a function in pieces. Behind its name and its frame a function has a piece of code for each of its
parameters and each of its instructions, and then its end. Debug information writes a note before each piece, and
changes nothing else (`generate_pieces`); so whether there is assembly does not depend on it.
-/
import Exprc.Proofs.Assembly.Delivery

namespace Exprc

/-- What debug information says about a function: which parameters are stored, and what its instructions are. -/
def IR.Function.purposes (f : IR.Function) : List String :=
  f.parameters.map ("store parameter " ++ ·.text) ++ f.code.map (·.op.text)

namespace Assembly

open IR Text

/-! ## Pieces -/

/-- A piece of code, and what it is for. -/
structure Piece where
  purpose : String
  code : List Line

/-- The lines of a piece, with a note of what it is for or without. -/
def Piece.lines (debugInfo : Bool) (p : Piece) : List Line :=
  if debugInfo then .note p.purpose :: p.code else p.code

/-- The lines of a function: its name and its frame, its pieces, and its end. -/
structure Parts where
  front : List Line
  pieces : List Piece
  back : List Line

/-- The lines of a function, with notes or without. -/
def Parts.lines (debugInfo : Bool) (p : Parts) : List Line :=
  p.front ++ p.pieces.flatMap (Piece.lines debugInfo) ++ p.back

/-- The lines of a module, with notes or without. -/
def assembled (debugInfo : Bool) (ps : List Parts) : List Line :=
  header ++ [Line.blank].intercalate (ps.map (Parts.lines debugInfo))

/-- The pieces that store the parameters of a function in their slots. -/
def parameterPieces (l : StackLayout) : List Var → List Reg → Gen (List Piece)
  | v :: vs, r :: rs => do
    let store ← l.store .nowhere v r
    return ⟨"store parameter " ++ v.text, store.map .ofInstr⟩ :: (← parameterPieces l vs rs)
  | _, _ => return []

/-- The piece for an instruction. -/
def instructionPiece (l : StackLayout) (i : Instruction) : Gen Piece := do
  return ⟨i.op.text, ← instructionLines l i⟩

/-- A function in parts. -/
def functionParts (l : StackLayout) (f : IR.Function) : Gen Parts := do
  if Reg.arguments.length < f.parameters.length then
    throw (.unlocated (.tooManyParameters f.name f.parameters.length))
  else
    let parameters ← parameterPieces l f.parameters Reg.arguments
    let code ← f.code.mapM (instructionPiece l)
    let result ← resultCode l f
    return ⟨[.exported (.function f.name), .label (.function f.name)] ++ (prologue l).map .ofInstr,
      parameters ++ code, result.map .ofInstr ++ epilogue⟩

/-- The functions of a module in parts. -/
def moduleParts (m : IR.Module) : Gen (List Parts) := m.functions.mapM (functionParts (.ofModule m))

/-! ## Generation in pieces -/

section

variable {l : StackLayout} {f : IR.Function} {m : IR.Module} (o : Options)

theorem note_append (purpose : String) (code : List Line) :
    o.note purpose ++ code = Piece.lines o.debugInfo ⟨purpose, code⟩ := by
  unfold Options.note Piece.lines
  cases o.debugInfo <;> rfl

theorem storeParameters_pieces : ∀ (vs : List Var) (rs : List Reg),
    storeParameters o l vs rs = List.flatMap (Piece.lines o.debugInfo) <$> parameterPieces l vs rs
  | [], _ => by simp only [storeParameters, parameterPieces]; rfl
  | _ :: _, [] => by simp only [storeParameters, parameterPieces]; rfl
  | v :: vs, r :: rs => by
    simp only [storeParameters, parameterPieces, storeParameters_pieces vs rs, note_append, map_bind, map_pure,
      bind_map_left, List.flatMap_cons]

theorem codeLines_pieces {code : List Instruction} (h : ∀ i ∈ code, i.op.Legible) :
    codeLines o l code = List.flatMap (Piece.lines o.debugInfo) <$> code.mapM (instructionPiece l) := by
  induction code with
  | nil => rfl
  | cons i code ih =>
    obtain ⟨hi, hcode⟩ := List.forall_mem_cons.1 h
    simp only [codeLines, instructionPiece, List.mapM_cons, ih hcode, hi.shown_eq, note_append, map_bind, map_pure,
      bind_map_left, bind_assoc, pure_bind, List.flatMap_cons]

theorem functionLines_pieces (h : f.Legible) :
    functionLines o l f = Parts.lines o.debugInfo <$> functionParts l f := by
  unfold functionLines functionParts
  split
  · rfl
  · simp only [storeParameters_pieces, codeLines_pieces o h.code, map_bind, map_pure, bind_map_left, Parts.lines,
      List.flatMap_append, List.append_assoc]

/-- Assembly is made of the same parts whatever the options are. -/
theorem generate_pieces (h : m.Legible) : generate o m = assembled o.debugInfo <$> moduleParts m := by
  have hfunctions : ∀ fs ⊆ m.functions, fs.mapM (functionLines o (.ofModule m)) =
      List.map (Parts.lines o.debugInfo) <$> fs.mapM (functionParts (.ofModule m)) := by
    intro fs hfs
    induction fs with
    | nil => rfl
    | cons f fs ih =>
      obtain ⟨hf, hfs⟩ := List.cons_subset.1 hfs
      simp only [List.mapM_cons, functionLines_pieces o (h f hf), ih hfs, map_bind, map_pure, bind_map_left,
        List.map_cons]
  unfold generate moduleParts
  rw [hfunctions _ (List.Subset.refl _), bind_map_left, map_eq_pure_bind]
  rfl

end

/-! ## What pieces are -/

/-- Whether pieces of clear code are for some purposes, in this order. -/
structure For (purposes : List String) (pieces : List Piece) : Prop where
  purposes : pieces.map (·.purpose) = purposes
  clear : ∀ p ∈ pieces, ∀ debugInfo, AllClear (p.lines debugInfo)

namespace For

variable {purposes purposes' : List String} {pieces pieces' : List Piece}

theorem nil : For [] [] := ⟨rfl, nofun⟩

theorem cons {p : Piece} (hpurpose : MadeOf isPrinted p.purpose) (hcode : AllClear p.code)
    (h : For purposes pieces) : For (p.purpose :: purposes) (p :: pieces) where
  purposes := by rw [List.map_cons, h.purposes]
  clear := by
    refine List.forall_mem_cons.2 ⟨fun debugInfo => ?_, h.clear⟩
    unfold Piece.lines
    split
    · exact .cons (.note hpurpose) hcode
    · exact hcode

theorem append (h : For purposes pieces) (h' : For purposes' pieces') :
    For (purposes ++ purposes') (pieces ++ pieces') where
  purposes := by rw [List.map_append, h.purposes, h'.purposes]
  clear := List.forall_mem_append.2 ⟨h.clear, h'.clear⟩

theorem flatten {α : Type} {as : List α} {purpose : α → String}
    (h : List.Forall₂ (fun a p => For [purpose a] [p]) as pieces) : For (as.map purpose) pieces := by
  induction h with
  | nil => exact .nil
  | cons hp _ ih => exact hp.append ih

end For

/-- Whether parts are those of a function: there is a piece for each parameter and each instruction, and all lines are
printed as they are. -/
structure Parts.Of (f : IR.Function) (p : Parts) : Prop where
  front : AllClear p.front
  pieces : For f.purposes p.pieces
  back : AllClear p.back

section

variable {l : StackLayout} {P : Location → Prop} {f : IR.Function}

theorem parameterPieces_delivers {vs : List Var} {rs : List Reg} (hn : vs.length ≤ rs.length)
    (h : ∀ v ∈ vs, v.isNamed = false) :
    Delivers P (For (vs.map ("store parameter " ++ ·.text))) (parameterPieces l vs rs) := by
  induction vs generalizing rs with
  | nil =>
    simp only [parameterPieces]
    exact .pure .nil
  | cons v vs ih =>
    cases rs with
    | nil => cases hn
    | cons r rs =>
      obtain ⟨hv, hvs⟩ := List.forall_mem_cons.1 h
      simp only [parameterPieces]
      refine (store_delivers .nowhere v r).bind fun store hstore => ?_
      refine (ih (Nat.le_of_succ_le_succ hn) hvs).map fun pieces hpieces => ?_
      have hpurpose : MadeOf isPrinted ("store parameter " ++ v.text) :=
        (printed_literal rfl).append (isField_var hv).printed
      exact .cons (p := ⟨_, _⟩) hpurpose (.instructions hstore) hpieces

theorem instructionPiece_delivers {i : Instruction} (h : i.op.Legible) :
    Delivers (· = i.location) (fun p => For [i.op.text] [p]) (instructionPiece l i) :=
  (instructionLines_delivers h).map fun _ hlines => .cons (p := ⟨_, _⟩) h.printed.plain hlines .nil

theorem codePieces_delivers {code : List Instruction} (h : ∀ i ∈ code, i.op.Legible) :
    Delivers (fun place => ∃ i ∈ code, place = i.location) (For (code.map (·.op.text)))
      (code.mapM (instructionPiece l)) := by
  have hpieces : ∀ i ∈ code, Delivers (fun place => ∃ j ∈ code, place = j.location)
      (fun p => For [i.op.text] [p]) (instructionPiece l i) :=
    fun i hi => (instructionPiece_delivers (h i hi)).mono fun place hplace => ⟨i, hi, hplace⟩
  exact (Delivers.mapM hpieces).imp fun _ _ hp => .flatten hp

theorem resultCode_delivers (f : IR.Function) : Delivers P AllWritten (resultCode l f) := by
  unfold resultCode
  split
  · exact .pure .nil
  · split
    · exact .pure (.cons (.binary rfl rfl) .nil)
    · exact load_delivers .nowhere .rax f.result

theorem prologue_written (l : StackLayout) : AllWritten (prologue l) := by
  have hpush : (Instr.unary .push (.reg .rbp)).Written := ⟨List.forall_mem_singleton.2 rfl, nofun⟩
  refine .append (.cons hpush (.cons (.binary rfl rfl) .nil)) ?_
  split
  · exact .nil
  · exact .cons (.binary rfl rfl) .nil

theorem epilogue_clear : AllClear epilogue := by
  have hpop : (Instr.unary .pop (.reg .rbp)).Written := ⟨List.forall_mem_singleton.2 rfl, nofun⟩
  have hreturn : (Instr.plain .ret).Written := ⟨nofun, nofun⟩
  have hcode : AllWritten [.binary .mov (.reg .rsp) (.reg .rbp), .unary .pop (.reg .rbp), .plain .ret] :=
    .cons (.binary rfl rfl) (.cons hpop (.cons hreturn .nil))
  exact .cons (.label (printed_literal rfl) rfl) (.instructions hcode)

/-- What the parts of a function are, and what is blamed where there are none. -/
theorem functionParts_delivers (h : f.Legible) :
    Delivers (fun place => ∃ i ∈ f.code, place = i.location) (Parts.Of f) (functionParts l f) := by
  unfold functionParts
  split
  · exact .throw nofun
  · rename_i hn
    have hname : MadeOf isPrinted (Symbol.function f.name).text := (printed_literal rfl).append h.name.printed
    have hfront : AllClear [.exported (.function f.name), .label (.function f.name)] :=
      .cons (.exported hname) (.cons (.label hname (beginsCode_append rfl _)) .nil)
    refine (parameterPieces_delivers (Nat.not_lt.1 hn) h.parameters).bind fun parameters hparameters => ?_
    refine (codePieces_delivers h.code).bind fun code hcode => ?_
    refine (resultCode_delivers f).map fun result hresult => ?_
    exact ⟨hfront.append (.instructions (prologue_written l)), hparameters.append hcode,
      (AllClear.instructions hresult).append epilogue_clear⟩

/-- What the parts of a module are, and what is blamed where there are none. -/
theorem moduleParts_delivers {m : IR.Module} (h : m.Legible) :
    Delivers (fun place => ∃ f ∈ m.functions, ∃ i ∈ f.code, place = i.location)
      (List.Forall₂ (fun f p => functionParts (.ofModule m) f = .ok p ∧ Parts.Of f p) m.functions)
      (moduleParts m) := by
  refine .mapM fun f hf => ?_
  have hfunction := functionParts_delivers (l := .ofModule m) (h f hf)
  exact (hfunction.imp fun p hp hof => ⟨hp, hof⟩).mono fun place hplace => ⟨f, hf, hplace⟩

end

end Assembly

end Exprc
