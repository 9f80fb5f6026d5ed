/-
The assembly of a module can be assembled. Its places are the one where a program starts and, for each
function, the function itself, its labels and its end. No two of them have one name, none has the name of a
routine, and what instructions pass control to is among them or is a routine.
-/
import Exprc.Proofs.Assembly.Emission
import Exprc.Proofs.IR.Legible

namespace Exprc

namespace IR

/-! ## Labels -/

/-- The label that an instruction is. -/
def Op.label? : Op → Option Label
  | label l => some l
  | _ => none

theorem Op.label?_eq_some {op : Op} {l : Label} : op.label? = some l ↔ op = .label l := by
  cases op <;> simp [Op.label?]

/-- The labels of a function. -/
def Function.labels (f : Function) : List Label := f.code.filterMap (·.op.label?)

end IR

namespace Assembly

open IR

/-! ## Lines inside of functions -/

/-- The name that a line gives to a place. -/
def Line.label? : Line → Option Symbol
  | label s => some s
  | _ => none

/-- Whether a line can stand inside of a function. -/
def Line.Inside (m : IR.Module) (f : IR.Function) : Line → Prop
  | instr i _ => ∀ s ∈ i.target?, Refers m f s
  | label s => ∃ name, s = .inner name
  | note _ | blank => True
  | _ => False

/-- Lines inside of a function, and the labels among them. -/
structure Inner (m : IR.Module) (f : IR.Function) (lines : List Line) (labels : List Symbol) : Prop where
  inside : ∀ x ∈ lines, x.Inside m f
  labels : lines.filterMap Line.label? = labels

namespace Inner

variable {m : IR.Module} {f : IR.Function} {lines lines' : List Line} {labels labels' : List Symbol}
  {scope : String}

theorem nil : Inner m f [] [] := ⟨List.forall_mem_nil _, rfl⟩

theorem append (h : Inner m f lines labels) (h' : Inner m f lines' labels') :
    Inner m f (lines ++ lines') (labels ++ labels') :=
  ⟨List.forall_mem_append.2 ⟨h.inside, h'.inside⟩, by rw [List.filterMap_append, h.labels, h'.labels]⟩

theorem blank : Inner m f [.blank] [] := ⟨List.forall_mem_singleton.2 trivial, rfl⟩

theorem label (name : String) : Inner m f [.label (.inner name)] [.inner name] :=
  ⟨List.forall_mem_singleton.2 ⟨name, rfl⟩, rfl⟩

theorem note (o : Options) (text : String) : Inner m f (o.note text) [] := by
  unfold Options.note
  split
  · exact ⟨List.forall_mem_singleton.2 trivial, rfl⟩
  · exact nil

theorem instructions {is : List Instr} (h : ∀ j ∈ is, ∀ s ∈ j.target?, Refers m f s) :
    Inner m f (is.map .ofInstr) [] := by
  induction is with
  | nil => exact nil
  | cons j is ih =>
    rw [List.forall_mem_cons] at h
    have hj : Inner m f [.ofInstr j] [] := ⟨List.forall_mem_singleton.2 h.1, rfl⟩
    exact hj.append (ih h.2)

/-- Inner names do not change to what inner names belong. -/
theorem scopeAfter (h : Inner m f lines labels) : scopeAfter scope lines = scope := by
  obtain ⟨h, -⟩ := h
  induction lines with
  | nil => rfl
  | cons x lines ih =>
    rw [List.forall_mem_cons] at h
    have hx : x.scope scope = scope := by
      cases x with
      | label s =>
        obtain ⟨name, rfl⟩ := h.1
        rfl
      | _ => rfl
    rw [Assembly.scopeAfter, List.foldl_cons, hx]
    exact ih h.2

theorem filterMap {α : Type} {g : Line → Option α} (hg : ∀ x, x.Inside m f → g x = none)
    (h : Inner m f lines labels) : lines.filterMap g = [] :=
  List.filterMap_eq_nil_iff.2 fun x hx => hg x (h.inside x hx)

theorem places (h : Inner m f lines labels) (n : Nat) :
    (placesOf scope n lines).map (·.1) = labels.map (·.place scope) := by
  obtain ⟨h, rfl⟩ := h
  induction lines generalizing n with
  | nil => rfl
  | cons x lines ih =>
    rw [List.forall_mem_cons] at h
    cases x with
    | label s =>
      obtain ⟨name, rfl⟩ := h.1
      exact congrArg (_ :: ·) (ih n h.2)
    | instr i => exact ih _ h.2
    | note | blank => exact ih _ h.2
    | _ => exact h.1.elim

theorem targets (h : Inner m f lines labels) :
    ∀ i ∈ instructionsOf scope lines, i.1 = scope ∧ ∀ s ∈ i.2.target?, Refers m f s := by
  obtain ⟨h, -⟩ := h
  induction lines with
  | nil => exact List.forall_mem_nil _
  | cons x lines ih =>
    rw [List.forall_mem_cons] at h
    cases x with
    | label s =>
      obtain ⟨name, rfl⟩ := h.1
      exact ih h.2
    | instr i => exact List.forall_mem_cons.2 ⟨⟨rfl, h.1⟩, ih h.2⟩
    | note | blank => exact ih h.2
    | _ => exact h.1.elim

end Inner

/-! ## Functions -/

/-- The symbols of the labels inside of a function. -/
def symbolsOf (f : IR.Function) : List Symbol := f.labels.map labelSymbol ++ [exitSymbol]

section

variable {m : IR.Module} {f : IR.Function} {o : Options}

theorem instructionLines_emits (h : Unambiguous m) (hf : f ∈ m.functions) {i : Instruction}
    (hi : i ∈ f.code) :
    Emits m (instructionLines (.ofModule m) i) fun lines =>
      Inner m f lines (i.op.label?.toList.map labelSymbol) := by
  have hemits := opCode_emits h hf hi
  unfold instructionLines
  cases hop : i.op with
  | label l => exact .of_ok rfl (.label l.text)
  | _ =>
    rw [hop] at hemits
    exact hemits.bind fun is hrefers => .of_ok rfl (.instructions hrefers)

theorem codeLines_emits (h : Unambiguous m) (hf : f ∈ m.functions) {code : List Instruction}
    (hcode : code ⊆ f.code) :
    Emits m (codeLines o (.ofModule m) code) fun lines =>
      Inner m f lines ((code.filterMap (·.op.label?)).map labelSymbol) := by
  induction code with
  | nil => exact .of_ok rfl .nil
  | cons i code ih =>
    rw [List.cons_subset] at hcode
    refine (instructionLines_emits h hf hcode.1).bind fun lines hinner => ?_
    refine (ih hcode.2).bind fun rest hinner' => .of_ok rfl ?_
    have hlabels : ((i :: code).filterMap (·.op.label?)).map labelSymbol =
        i.op.label?.toList.map labelSymbol ++ (code.filterMap (·.op.label?)).map labelSymbol := by
      rw [← List.map_append, List.filterMap_cons]
      cases i.op.label? <;> rfl
    rw [hlabels]
    exact ((Inner.note o _).append hinner).append hinner'

theorem codeLines_ok (h : Compilable m) (hf : f ∈ m.functions) {code : List Instruction}
    (hcode : code ⊆ f.code) :
    ∃ lines, codeLines o (.ofModule m) code = .ok lines ∧
      Inner m f lines ((code.filterMap (·.op.label?)).map labelSymbol) :=
  (codeLines_emits h.unambiguous hf hcode).ok h.parameters

theorem storeParameters_ok {vs : List Var} (rs : List Reg)
    (h : ∀ v ∈ vs, ∃ below, (StackLayout.ofModule m).offset? v = some below) :
    ∃ lines, storeParameters o (.ofModule m) vs rs = .ok lines ∧ Inner m f lines [] := by
  induction vs generalizing rs with
  | nil => exact ⟨[], rfl, .nil⟩
  | cons v vs ih =>
    cases rs with
    | nil => exact ⟨[], rfl, .nil⟩
    | cons r rs =>
      obtain ⟨below, hv⟩ := h v List.mem_cons_self
      obtain ⟨rest, hr, hinner⟩ := ih rs fun w hw => h w (List.mem_cons_of_mem _ hw)
      simp only [storeParameters, store_eq hv, hr]
      exact ⟨_, rfl, ((Inner.note o _).append (.instructions Straight.binary.refers)).append hinner⟩

theorem resultCode_ok (h : Unambiguous m) (hf : f ∈ m.functions) :
    ∃ is, resultCode (.ofModule m) f = .ok is ∧ Straight is :=
  (resultCode_meets trivial).straight fun _ _ => h.result_slot hf

theorem straight_prologue (l : StackLayout) : Straight (prologue l) := by
  unfold prologue
  refine Straight.append (.cons rfl .binary) ?_
  split
  · exact .nil
  · exact .binary

/-- The lines of a function: its name, and lines inside of it. -/
theorem functionLines_emits (o : Options) (h : Unambiguous m) (hf : f ∈ m.functions) :
    Emits m (functionLines o (.ofModule m) f) fun lines =>
      ∃ body, lines = .exported (.function f.name) :: .label (.function f.name) :: body ∧
        Inner m f body (symbolsOf f) := by
  unfold functionLines
  split
  · rename_i hn
    exact .of_error rfl (.parameters hf hn)
  · obtain ⟨parameters, hp, hparameters⟩ :=
      storeParameters_ok (f := f) (o := o) Reg.arguments fun v hv => h.parameter_slot hf hv
    obtain ⟨result, hr, hresult⟩ := resultCode_ok h hf
    simp only [hp, hr]
    refine (codeLines_emits h hf (List.Subset.refl f.code)).bind fun code hcode => .of_ok rfl ?_
    refine ⟨(prologue (.ofModule m)).map .ofInstr ++ parameters ++ code ++ result.map .ofInstr ++ epilogue,
      by simp, ?_⟩
    have hepilogue : Inner m f epilogue [exitSymbol] :=
      (Inner.label "exit").append (.instructions (.cons rfl (.cons rfl (.cons rfl .nil)) : Straight _).refers)
    have hbody := ((((Inner.instructions (straight_prologue (.ofModule m)).refers).append hparameters).append
      hcode).append (.instructions hresult.refers)).append hepilogue
    simpa [symbolsOf, IR.Function.labels] using hbody

/-- A function that has lines has registers for its parameters. -/
theorem parameters_of_functionLines {l : StackLayout} {lines : List Line}
    (h : functionLines o l f = .ok lines) : f.parameters.length ≤ Reg.arguments.length := by
  unfold functionLines at h
  split at h
  · cases h
  · rename_i hn
    exact Nat.not_lt.1 hn

end

/-! ## Functions one after the other -/

/-- Some lines are those of a function. -/
def Block (m : IR.Module) (f : IR.Function) (lines : List Line) : Prop :=
  ∃ body, lines = .exported (.function f.name) :: .label (.function f.name) :: body ∧
    Inner m f body (symbolsOf f)

/-- The places that the lines of a function name. -/
def placesIn (f : IR.Function) : List Place := ⟨f.name, none⟩ :: (symbolsOf f).map (·.place f.name)

namespace Block

variable {m : IR.Module} {f : IR.Function} {lines separator : List Line} {scope : String}

theorem append (h : Block m f lines) (hs : Inner m f separator []) : Block m f (lines ++ separator) := by
  obtain ⟨body, rfl, hbody⟩ := h
  have hinner := hbody.append hs
  rw [List.append_nil] at hinner
  exact ⟨body ++ separator, rfl, hinner⟩

theorem places (h : Block m f lines) (n : Nat) :
    (placesOf scope n lines).map (·.1) = placesIn f := by
  obtain ⟨body, rfl, hbody⟩ := h
  exact congrArg (_ :: ·) (hbody.places n)

theorem targets (h : Block m f lines) :
    ∀ i ∈ instructionsOf scope lines, i.1 = f.name ∧ ∀ s ∈ i.2.target?, Refers m f s := by
  obtain ⟨body, rfl, hbody⟩ := h
  exact hbody.targets

theorem filterMap {α : Type} {g : Line → Option α} (hg : ∀ x, x.Inside m f → g x = none)
    (h : Block m f lines) :
    lines.filterMap g = [.exported (.function f.name), .label (.function f.name)].filterMap g := by
  obtain ⟨body, rfl, hbody⟩ := h
  rw [← List.append_nil (List.filterMap g [_, _]), ← hbody.filterMap hg, ← List.filterMap_append]
  rfl

end Block

section

variable {m : IR.Module} {fs : List IR.Function} {blocks : List (List Line)} {lines : List Line}

/-- Between the lines of functions there are only blank lines. -/
theorem intercalate_cons (lines : List Line) (blocks : List (List Line)) :
    ∃ separator, (∀ m f, Inner m f separator []) ∧
      [Line.blank].intercalate (lines :: blocks) = lines ++ separator ++ [Line.blank].intercalate blocks := by
  cases blocks with
  | nil => exact ⟨[], fun _ _ => .nil, by simp [List.intercalate]⟩
  | cons block blocks => exact ⟨[.blank], fun _ _ => .blank, by simp [List.intercalate]⟩

theorem mem_intercalate (h : lines ∈ blocks) :
    ∃ before after, [Line.blank].intercalate blocks = before ++ lines ++ after := by
  induction blocks with
  | nil => cases h
  | cons block blocks ih =>
    obtain ⟨separator, -, he⟩ := intercalate_cons block blocks
    rcases List.mem_cons.1 h with rfl | h
    · exact ⟨[], separator ++ [Line.blank].intercalate blocks, by rw [he, List.append_assoc]; rfl⟩
    · obtain ⟨before, after, hb⟩ := ih h
      exact ⟨block ++ separator ++ before, after, by rw [he, hb]; simp only [List.append_assoc]⟩

theorem blocks_places (h : List.Forall₂ (Block m) fs blocks) (scope : String) (n : Nat) :
    (placesOf scope n ([Line.blank].intercalate blocks)).map (·.1) = fs.flatMap placesIn := by
  induction h generalizing scope n with
  | nil => rfl
  | @cons f block fs blocks hblock _ ih =>
    obtain ⟨separator, hs, he⟩ := intercalate_cons block blocks
    rw [he, placesOf_append, List.map_append, (hblock.append (hs m f)).places, ih, List.flatMap_cons]

theorem blocks_targets (h : List.Forall₂ (Block m) fs blocks) (scope : String) :
    ∀ i ∈ instructionsOf scope ([Line.blank].intercalate blocks),
      ∃ f ∈ fs, i.1 = f.name ∧ ∀ s ∈ i.2.target?, Refers m f s := by
  induction h generalizing scope with
  | nil => exact List.forall_mem_nil _
  | @cons f block fs blocks hblock _ ih =>
    obtain ⟨separator, hs, he⟩ := intercalate_cons block blocks
    intro i hi
    rw [he, instructionsOf_append, List.mem_append] at hi
    rcases hi with hi | hi
    · exact ⟨f, List.mem_cons_self, (hblock.append (hs m f)).targets i hi⟩
    · obtain ⟨g, hg, hi⟩ := ih _ i hi
      exact ⟨g, List.mem_cons_of_mem _ hg, hi⟩

/-- What is only found outside of functions is found where a function is named. -/
theorem blocks_filterMap {α : Type} {g : Line → Option α} (hg : ∀ f x, x.Inside m f → g x = none)
    (h : List.Forall₂ (Block m) fs blocks) :
    ([Line.blank].intercalate blocks).filterMap g =
      fs.flatMap fun f => [.exported (.function f.name), .label (.function f.name)].filterMap g := by
  induction h with
  | nil => rfl
  | @cons f block fs blocks hblock _ ih =>
    obtain ⟨separator, hs, he⟩ := intercalate_cons block blocks
    rw [he, List.filterMap_append, (hblock.append (hs m f)).filterMap (hg f), ih, List.flatMap_cons]

end

/-! ## Modules -/

theorem mapM_eq_ok {α β ε : Type} {g : α → Except ε β} {as : List α} {bs : List β} :
    as.mapM g = .ok bs ↔ List.Forall₂ (fun a b => g a = .ok b) as bs := by
  induction as generalizing bs with
  | nil => exact ⟨fun h => by cases h; exact .nil, fun h => by cases h; rfl⟩
  | cons a as ih =>
    rw [List.mapM_cons]
    constructor
    · intro h
      cases ha : g a with
      | error e => rw [ha] at h; cases h
      | ok b =>
        cases has : as.mapM g with
        | error e => rw [ha, has] at h; cases h
        | ok bs' => rw [ha, has] at h; cases h; exact .cons ha (ih.1 has)
    · rintro (_ | ⟨ha, has⟩)
      rw [ha, ih.2 has]
      rfl

theorem generate_eq_ok {o : Options} {m : IR.Module} {text : List Line} (h : generate o m = .ok text) :
    ∃ blocks, List.Forall₂ (fun f lines => functionLines o (.ofModule m) f = .ok lines) m.functions blocks ∧
      text = header ++ [Line.blank].intercalate blocks := by
  unfold generate at h
  cases hb : m.functions.mapM (functionLines o (.ofModule m)) with
  | error e => rw [hb] at h; cases h
  | ok blocks => rw [hb] at h; cases h; exact ⟨blocks, mapM_eq_ok.1 hb, rfl⟩

section

variable {m : IR.Module} {o : Options} {text : List Line}

/-- There is assembly for each unambiguous module, unless a function has too many parameters. -/
theorem generate_emits (o : Options) (h : Unambiguous m) :
    Emits m (generate o m) fun text => ∃ blocks, List.Forall₂ (Block m) m.functions blocks ∧
      text = header ++ [Line.blank].intercalate blocks := by
  have hblocks : ∀ fs ⊆ m.functions,
      Emits m (fs.mapM (functionLines o (.ofModule m))) (List.Forall₂ (Block m) fs) := by
    intro fs hfs
    induction fs with
    | nil => exact .of_ok rfl .nil
    | cons f fs ih =>
      rw [List.cons_subset] at hfs
      rw [List.mapM_cons]
      exact (functionLines_emits o h hfs.1).bind fun lines hlines =>
        (ih hfs.2).bind fun blocks hblocks => .of_ok rfl (.cons hlines hblocks)
  exact (hblocks _ (List.Subset.refl _)).bind fun blocks hblocks => .of_ok rfl ⟨blocks, hblocks, rfl⟩

/-- There is assembly for each module that can have it. -/
theorem generate_ok (o : Options) (h : Compilable m) :
    ∃ blocks, List.Forall₂ (Block m) m.functions blocks ∧
      generate o m = .ok (header ++ [Line.blank].intercalate blocks) := by
  obtain ⟨text, hg, blocks, hblocks, rfl⟩ := (generate_emits o h.unambiguous).ok h.parameters
  exact ⟨blocks, hblocks, hg⟩

/-- What the assembly of an unambiguous module consists of. -/
theorem blocks_of_generate (h : Unambiguous m) (hg : generate o m = .ok text) :
    ∃ blocks, List.Forall₂ (Block m) m.functions blocks ∧
      text = header ++ [Line.blank].intercalate blocks :=
  (generate_emits o h).gives hg

/-- Where there is assembly there are registers for the parameters of every function. -/
theorem parameters_of_generate (h : generate o m = .ok text) :
    ∀ f ∈ m.functions, f.parameters.length ≤ Reg.arguments.length := by
  obtain ⟨blocks, hblocks, -⟩ := generate_eq_ok h
  intro f hf
  obtain ⟨k, hk, rfl⟩ := List.mem_iff_getElem.1 hf
  exact parameters_of_functionLines (hblocks.get hk (hblocks.length_eq ▸ hk))

/-! ### Names -/

theorem labelText_ne_exit (l : Label) : l.text ≠ "exit" := by
  intro h
  have h := congrArg String.toList h
  rw [IR.toList_text_label] at h
  exact absurd (List.head_eq_of_cons_eq h) (by decide)

theorem placesIn_eq (f : IR.Function) :
    placesIn f = ⟨f.name, none⟩ :: (f.labels.map (fun l => ⟨f.name, some l.text⟩) ++
      [⟨f.name, some "exit"⟩]) := by
  rw [placesIn, symbolsOf, List.map_append, List.map_map]
  rfl

theorem outer_of_placesIn {f : IR.Function} {place : Place} (h : place ∈ placesIn f) :
    place.outer = f.name := by
  rw [placesIn_eq, List.mem_cons, List.mem_append, List.mem_map, List.mem_singleton] at h
  rcases h with rfl | ⟨l, -, rfl⟩ | rfl <;> rfl

/-- No label stands in a function twice. -/
theorem labels_nodup (h : m.WellFormed) {f : IR.Function} (hf : f ∈ m.functions) : f.labels.Nodup := by
  refine List.nodup_iff_count_le_one.2 fun l => ?_
  have hsub : f.code.Sublist (m.functions.flatMap (·.code)) :=
    List.sublist_flatten_of_mem (List.mem_map_of_mem hf)
  have hcount : f.code.countP (·.op = .label l) ≤ 1 := Nat.le_trans hsub.countP_le (h.labels l)
  rw [IR.Function.labels, List.count_filterMap]
  refine le_of_eq_of_le (List.countP_congr fun i _ => ?_) hcount
  rw [beq_iff_eq, decide_eq_true_iff, IR.Op.label?_eq_some]

theorem placesIn_nodup (h : m.WellFormed) {f : IR.Function} (hf : f ∈ m.functions) :
    (placesIn f).Nodup := by
  rw [placesIn_eq, List.nodup_cons, List.nodup_append]
  refine ⟨?_, ?_, List.nodup_singleton _, ?_⟩
  · simp
  · refine (labels_nodup h hf).map fun l l' hl => ?_
    exact IR.label_inj (Option.some.inj (congrArg Place.inner? hl))
  · intro place hplace place' hplace' he
    obtain ⟨l, -, rfl⟩ := List.mem_map.1 hplace
    rw [List.mem_singleton.1 hplace'] at he
    exact labelText_ne_exit l (Option.some.inj (congrArg Place.inner? he))

/-- The places of a module are all different. -/
theorem places_nodup (h : m.WellFormed) : (m.functions.flatMap placesIn).Nodup := by
  refine List.nodup_flatMap.2 ⟨fun f hf => placesIn_nodup h hf, ?_⟩
  refine (List.pairwise_map.1 h.nodup).imp fun {f g} hne place hf hg => hne ?_
  exact (outer_of_placesIn hf).symm.trans (outer_of_placesIn hg)

/-! ### Programs -/

theorem routine_name {name : String} (h : name ∈ routineNames) : ∃ b : Builtin, b.name = name := by
  obtain ⟨b, -, rfl⟩ := List.mem_map.1 h
  exact ⟨b, rfl⟩

theorem routineNames_nodup : routineNames.Nodup := by decide

/-- What the assembly of a module can refer to. -/
def referentsOf (m : IR.Module) : List Place :=
  (⟨"_start", none⟩ :: m.functions.flatMap placesIn) ++ routineNames.map fun name => ⟨name, none⟩

theorem referentsOf_nodup (h : Compilable m) : (referentsOf m).Nodup := by
  -- neither the start nor a routine has the name of a function
  have houter : ∀ place ∈ m.functions.flatMap placesIn, ∃ f ∈ m.functions, place.outer = f.name := by
    intro place hplace
    obtain ⟨f, hf, hp⟩ := List.mem_flatMap.1 hplace
    exact ⟨f, hf, outer_of_placesIn hp⟩
  have hroutine : ∀ name ∈ routineNames, ∀ f ∈ m.functions, f.name ≠ name := by
    intro name hname f hf
    obtain ⟨b, rfl⟩ := routine_name hname
    simpa using List.find?_eq_none.1 (h.builtins b) f hf
  refine List.nodup_append.2 ⟨List.nodup_cons.2 ⟨?_, places_nodup h.wellFormed⟩, ?_, ?_⟩
  · intro hstart
    obtain ⟨f, hf, hname⟩ := houter _ hstart
    exact h.start f hf hname.symm
  · exact routineNames_nodup.map fun _ _ he => congrArg Place.outer he
  · intro place hplace place' hplace' he
    obtain ⟨name, hname, rfl⟩ := List.mem_map.1 hplace'
    rcases List.mem_cons.1 hplace with rfl | hplace
    · obtain rfl : "_start" = name := congrArg Place.outer he
      exact absurd hname (by decide)
    · obtain ⟨f, hf, ho⟩ := houter _ hplace
      exact hroutine name hname f hf (ho.symm.trans (congrArg Place.outer he))

/-- What code of a function refers to is a place of the module or a routine. -/
theorem Refers.mem {f : IR.Function} (hf : f ∈ m.functions) {s : Symbol} (h : Refers m f s) :
    s.place f.name ∈ referentsOf m := by
  refine List.mem_append.2 ?_
  cases h with
  | @label l hl =>
    obtain ⟨i, hi, hop⟩ := hl
    have hlabel : l ∈ f.labels := List.mem_filterMap.2 ⟨i, hi, IR.Op.label?_eq_some.2 hop⟩
    refine .inl (List.mem_cons_of_mem _ (List.mem_flatMap.2 ⟨f, hf, ?_⟩))
    rw [placesIn_eq]
    exact List.mem_cons_of_mem _ (List.mem_append_left _ (List.mem_map_of_mem hlabel))
  | exit =>
    refine .inl (List.mem_cons_of_mem _ (List.mem_flatMap.2 ⟨f, hf, ?_⟩))
    rw [placesIn_eq]
    exact List.mem_cons_of_mem _ (List.mem_append_right _ List.mem_cons_self)
  | @function g hg =>
    exact .inl (List.mem_cons_of_mem _ (List.mem_flatMap.2 ⟨g, hg, List.mem_cons_self⟩))
  | routine hname => exact .inr (List.mem_map_of_mem hname)

/-- The instructions with which every program begins. -/
theorem instructionsOf_header : instructionsOf "" header =
    [("_start", .call (.plain entryPoint)), ("_start", .binary .mov (.reg .rdi) (.reg .rax)),
      ("_start", .binary .mov (.reg .rax) (.imm 60)), ("_start", .plain .syscall)] := rfl

/-- The assembly of a module uses the support routines. -/
theorem importsOf_generate (h : Unambiguous m) (hg : generate o m = .ok text) :
    importsOf text = routineNames := by
  obtain ⟨blocks, hblocks, rfl⟩ := blocks_of_generate h hg
  rw [importsOf, List.filterMap_append, blocks_filterMap (fun f x hx => ?_) hblocks]
  · have hnone : (m.functions.flatMap fun _ => ([] : List String)) = [] := by simp
    exact congrArg (routineNames ++ ·) hnone
  · cases x <;> first | rfl | exact hx.elim

/-- The assembly of a module can be assembled. -/
theorem generate_assembles (o : Options) (h : Compilable m) :
    ∃ text p, generate o m = .ok text ∧ assemble? text = some p := by
  obtain ⟨blocks, hblocks, hg⟩ := generate_ok o h
  have hplaces : (placesOf "" 0 (header ++ [Line.blank].intercalate blocks)).map (·.1) =
      ⟨"_start", none⟩ :: m.functions.flatMap placesIn := by
    rw [placesOf_append, List.map_append, blocks_places hblocks]
    rfl
  have hreferents : referents (placesOf "" 0 (header ++ [Line.blank].intercalate blocks))
      (importsOf (header ++ [Line.blank].intercalate blocks)) = referentsOf m := by
    rw [referents, hplaces, importsOf_generate h.unambiguous hg, referentsOf]
  have hknown : ∀ i ∈ instructionsOf "" (header ++ [Line.blank].intercalate blocks),
      ∀ s ∈ i.2.target?, s.place i.1 ∈ referentsOf m := by
    intro i hi s hs
    rw [instructionsOf_append, instructionsOf_header, List.mem_append] at hi
    rcases hi with hi | hi
    · -- of the first instructions only the call of the function in which a run starts has a target
      have htarget : s.place i.1 = ⟨entryPoint, none⟩ := by
        simp only [List.mem_cons, List.not_mem_nil, or_false] at hi
        rcases hi with rfl | rfl | rfl | rfl <;> cases hs
        rfl
      obtain ⟨fs, f, hfs, hname⟩ := h.wellFormed.entry
      have hf : f ∈ m.functions := by rw [hfs]; exact List.mem_append_right _ List.mem_cons_self
      rw [htarget, ← hname]
      exact List.mem_append_left _
        (List.mem_cons_of_mem _ (List.mem_flatMap.2 ⟨f, hf, List.mem_cons_self⟩))
    · obtain ⟨f, hf, hscope, hrefers⟩ := blocks_targets hblocks _ i hi
      rw [hscope]
      exact (hrefers s hs).mem hf
  obtain ⟨p, hp⟩ := assemble?_ok (by rw [hreferents]; exact referentsOf_nodup h)
    (by rw [hreferents]; exact hknown)
  exact ⟨_, p, hg, hp⟩

/-- The lines of a function are somewhere in the assembly of its module. -/
theorem At.of_generate (hg : generate o m = .ok text) {f : IR.Function} (hf : f ∈ m.functions) :
    ∃ lines n scope, functionLines o (.ofModule m) f = .ok lines ∧ At text n scope lines := by
  obtain ⟨blocks, hblocks, rfl⟩ := generate_eq_ok hg
  obtain ⟨lines, hmem, hlines⟩ : ∃ lines ∈ blocks, functionLines o (.ofModule m) f = .ok lines := by
    obtain ⟨k, hk, rfl⟩ := List.mem_iff_getElem.1 hf
    have hk' := hblocks.length_eq ▸ hk
    exact ⟨blocks[k], List.getElem_mem hk', hblocks.get hk hk'⟩
  obtain ⟨before, after, he⟩ := mem_intercalate hmem
  exact ⟨lines, _, _, hlines, header ++ before, after, by rw [he]; simp only [List.append_assoc], rfl, rfl⟩

end

end Assembly

end Exprc
