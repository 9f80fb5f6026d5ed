/-
The text of a module says what the module is. It is read back from the left: a word, a name or a number ends with
the first character that is none of its own, and an instruction ends with its line. So modules with the same text
have the same functions with the same instructions, as far as names and places in it are concerned
(`text_faithful`).
-/
import Exprc.Proofs.IR.Legible
import Exprc.Proofs.Lowering.Legible

namespace Exprc.IR

open Text

variable {x y r r' : List Char}

/-! ## Reading from the left -/

/-- Runs of characters of one kind in front of other characters. -/
theorem run_inj {p : Char → Bool} (hx : ∀ c ∈ x, p c = true) (hy : ∀ c ∈ y, p c = true)
    (hr : ∀ c ∈ r.head?, p c = false) (hr' : ∀ c ∈ r'.head?, p c = false) (h : x ++ r = y ++ r') :
    x = y ∧ r = r' := by
  have run : ∀ {x r : List Char}, (∀ c ∈ x, p c = true) → (∀ c ∈ r.head?, p c = false) →
      (x ++ r).takeWhile p = x := by
    intro x r hx hr
    have hnil : r.takeWhile p = [] := by
      cases r with
      | nil => rfl
      | cons c r => rw [List.takeWhile_cons, hr c rfl, if_neg nofun]
    rw [List.takeWhile_append_of_pos hx, hnil, List.append_nil]
  have hrun := congrArg (List.takeWhile p) h
  rw [run hx hr, run hy hr'] at hrun
  subst hrun
  exact ⟨rfl, List.append_cancel_left h⟩

/-- An operand ends before a mark. -/
theorem field_inj {a a' : String} {d d' : Char} (ha : IsField a) (ha' : IsField a')
    (hd : isFieldChar d = false) (hd' : isFieldChar d' = false)
    (h : a.toList ++ d :: r = a'.toList ++ d' :: r') : a = a' ∧ d :: r = d' :: r' := by
  obtain ⟨htext, hrest⟩ := run_inj ha ha' (by rintro _ ⟨⟩; exact hd) (by rintro _ ⟨⟩; exact hd') h
  exact ⟨String.toList_inj.1 htext, hrest⟩

/-! ## Operands -/

theorem int_inj {value value' : Int64} (h : toString value = toString value') : value = value' := by
  have hrepr : value.toInt.repr = value'.toInt.repr := h
  exact Int64.toInt_inj.1 (Int.repr_injective hrepr)

theorem bool_inj {b b' : Bool} (h : toString b = toString b') : b = b' := by
  cases b <;> cases b' <;> first | rfl | exact absurd h (by decide)

/-- Variables that are not named have different texts. -/
theorem var_inj {v w : Var} (hv : v.isNamed = false) (hw : w.isNamed = false) (h : v.text = w.text) : v = w := by
  have hunit : ∀ n, (Var.temp n).text ≠ Var.unit.text := by
    intro n h
    have hhead := congrArg String.toList h
    rw [toList_text_temp] at hhead
    exact absurd (congrArg List.head? hhead) (by decide : some 'x' ≠ Var.unit.text.toList.head?)
  cases v with
  | temp n =>
    cases w with
    | temp k =>
      have hdigits := congrArg String.toList h
      rw [toList_text_temp, toList_text_temp] at hdigits
      exact congrArg Var.temp (toDigits_inj (List.tail_eq_of_cons_eq hdigits))
    | named x => cases hw
    | unit => exact absurd h (hunit n)
  | named x => cases hv
  | unit =>
    cases w with
    | temp k => exact absurd h.symm (hunit k)
    | named x => cases hw
    | unit => rfl

/-- What stands behind the first variable of a list. -/
def behindFirst : List Var → List Char
  | [] => []
  | vs => ',' :: ' ' :: (variableList vs).toList

theorem toList_variableList (v : Var) (vs : List Var) :
    (variableList (v :: vs)).toList = v.text.toList ++ behindFirst vs := by
  cases vs with
  | nil => simp [variableList, behindFirst]
  | cons w vs => simp [variableList, behindFirst]

theorem behindFirst_append (vs : List Var) {d : Char} (hd : isFieldChar d = false) (r : List Char) :
    ∃ e r', behindFirst vs ++ d :: r = e :: r' ∧ isFieldChar e = false := by
  cases vs with
  | nil => exact ⟨d, r, rfl, hd⟩
  | cons v vs => exact ⟨',', _, rfl, rfl⟩

theorem isField_empty : IsField "" := nofun

theorem text_ne_empty (v : Var) (h : v.isNamed = false) : v.text ≠ "" := by
  intro hempty
  cases v with
  | temp n =>
    have hnil := congrArg String.toList hempty
    rw [toList_text_temp] at hnil
    cases hnil
  | named x => cases h
  | unit => exact absurd hempty (by decide)

/-- A list of variables ends before a mark that is no comma. -/
theorem variableList_inj {vs ws : List Var} (hv : ∀ v ∈ vs, v.isNamed = false)
    (hw : ∀ w ∈ ws, w.isNamed = false) {d : Char} (hd : isFieldChar d = false) (hcomma : d ≠ ',')
    (h : (variableList vs).toList ++ d :: r = (variableList ws).toList ++ d :: r') : vs = ws ∧ r = r' := by
  induction vs generalizing ws with
  | nil =>
    cases ws with
    | nil => exact ⟨rfl, List.tail_eq_of_cons_eq h⟩
    | cons w ws =>
      obtain ⟨e, r₁, he, hfield⟩ := behindFirst_append ws hd r'
      rw [toList_variableList, List.append_assoc, he] at h
      have hw₁ := hw w List.mem_cons_self
      obtain ⟨htext, -⟩ := field_inj isField_empty (isField_var hw₁) hd hfield h
      exact absurd htext.symm (text_ne_empty w hw₁)
  | cons v vs ih =>
    obtain ⟨hv₁, hvs⟩ := List.forall_mem_cons.1 hv
    obtain ⟨e, r₁, he, hfield⟩ := behindFirst_append vs hd r
    cases ws with
    | nil =>
      rw [toList_variableList, List.append_assoc, he] at h
      obtain ⟨htext, -⟩ := field_inj (isField_var hv₁) isField_empty hfield hd h
      exact absurd htext (text_ne_empty v hv₁)
    | cons w ws =>
      obtain ⟨hw₁, hws⟩ := List.forall_mem_cons.1 hw
      obtain ⟨e', r₁', he', hfield'⟩ := behindFirst_append ws hd r'
      rw [toList_variableList, toList_variableList, List.append_assoc, List.append_assoc, he, he'] at h
      obtain ⟨htext, hrest⟩ := field_inj (isField_var hv₁) (isField_var hw₁) hfield hfield' h
      obtain rfl := var_inj hv₁ hw₁ htext
      rw [← he, ← he'] at hrest
      -- a comma stands behind both variables, or both are the last of their list
      cases vs with
      | nil =>
        cases ws with
        | nil => exact ⟨rfl, List.tail_eq_of_cons_eq hrest⟩
        | cons w ws => exact absurd (List.head_eq_of_cons_eq hrest) hcomma
      | cons v' vs =>
        cases ws with
        | nil => exact absurd (List.head_eq_of_cons_eq hrest).symm hcomma
        | cons w ws =>
          obtain ⟨hlist, hr⟩ := ih hvs hws (List.tail_eq_of_cons_eq (List.tail_eq_of_cons_eq hrest))
          exact ⟨congrArg _ hlist, hr⟩

/-! ## Instructions -/

/-- The word for what an instruction does. -/
def Op.word : Op → String
  | .loadInt .. => "LoadIntConst"
  | .loadBool .. => "LoadBoolConst"
  | .copy .. => "Copy"
  | .call .. => "Call"
  | .label _ => "Label"
  | .jump _ => "Jump"
  | .branch .. => "CondJump"
  | .leave _ => "Return"

/-- What stands in the parentheses of an instruction. -/
def Op.operands : Op → List Char
  | .loadInt value target => (toString value).toList ++ ',' :: ' ' :: target.text.toList
  | .loadBool value target => (toString value).toList ++ ',' :: ' ' :: target.text.toList
  | .copy source target => source.text.toList ++ ',' :: ' ' :: target.text.toList
  | .call callee arguments target => callee.text.toList ++ ',' :: ' ' :: '[' ::
      ((variableList arguments).toList ++ ']' :: ',' :: ' ' :: target.text.toList)
  | .label l | .jump l => l.text.toList
  | .branch condition ifTrue ifFalse =>
    condition.text.toList ++ ',' :: ' ' :: (ifTrue.text.toList ++ ',' :: ' ' :: ifFalse.text.toList)
  | .leave value => value.text.toList

theorem Op.toList_text (op : Op) : op.text.toList = op.word.toList ++ '(' :: (op.operands ++ [')']) := by
  rw [text, toList_plain]
  cases op <;> simp [styled, inked, raw, word, operands]

theorem Op.isField_word (op : Op) : IsField op.word := by
  apply MadeOf.of_all
  cases op <;> simp only [word] <;> decide

namespace Op.Legible

variable {op op' : Op}

theorem text_inj (h : op.Legible) (h' : op'.Legible) (ht : op.text = op'.text) : op = op' := by
  have htext := congrArg String.toList ht
  rw [toList_text, toList_text] at htext
  obtain ⟨hword, hrest⟩ := field_inj op.isField_word op'.isField_word rfl rfl htext
  have hoperands := List.append_cancel_right (List.tail_eq_of_cons_eq hrest)
  -- The word leaves one kind of instruction, whose operands are read in turn.
  cases op with
  | loadInt value target =>
    cases op' with
    | loadInt value' target' =>
      obtain ⟨hvalue, hrest⟩ := field_inj (isField_int value) (isField_int value') rfl rfl hoperands
      have htarget := String.toList_inj.1 (List.tail_eq_of_cons_eq (List.tail_eq_of_cons_eq hrest))
      rw [int_inj hvalue, var_inj (h.values _ (by simp [writes])) (h'.values _ (by simp [writes])) htarget]
    | _ => simp [word] at hword
  | loadBool value target =>
    cases op' with
    | loadBool value' target' =>
      obtain ⟨hvalue, hrest⟩ := field_inj (isField_bool value) (isField_bool value') rfl rfl hoperands
      have htarget := String.toList_inj.1 (List.tail_eq_of_cons_eq (List.tail_eq_of_cons_eq hrest))
      rw [bool_inj hvalue, var_inj (h.values _ (by simp [writes])) (h'.values _ (by simp [writes])) htarget]
    | _ => simp [word] at hword
  | copy source target =>
    cases op' with
    | copy source' target' =>
      have hsource₁ := h.values source (by simp [reads])
      have hsource₂ := h'.values source' (by simp [reads])
      obtain ⟨hsource, hrest⟩ := field_inj (isField_var hsource₁) (isField_var hsource₂) rfl rfl hoperands
      have htarget := String.toList_inj.1 (List.tail_eq_of_cons_eq (List.tail_eq_of_cons_eq hrest))
      rw [var_inj hsource₁ hsource₂ hsource,
        var_inj (h.values _ (by simp [writes])) (h'.values _ (by simp [writes])) htarget]
    | _ => simp [word] at hword
  | call callee arguments target =>
    cases op' with
    | call callee' arguments' target' =>
      obtain ⟨x, rfl, hx⟩ := h.callee _ _ _ rfl
      obtain ⟨x', rfl, hx'⟩ := h'.callee _ _ _ rfl
      obtain ⟨hname, hbrackets⟩ := field_inj (show IsField x from hx) (show IsField x' from hx') rfl rfl hoperands
      have hlist := List.tail_eq_of_cons_eq (List.tail_eq_of_cons_eq (List.tail_eq_of_cons_eq hbrackets))
      obtain ⟨harguments, hlast⟩ := variableList_inj (fun v hv => h.values v (by simp [reads, hv]))
        (fun v hv => h'.values v (by simp [reads, hv])) rfl (by decide) hlist
      have htarget := String.toList_inj.1 (List.tail_eq_of_cons_eq (List.tail_eq_of_cons_eq hlast))
      rw [hname, harguments, var_inj (h.values _ (by simp [writes])) (h'.values _ (by simp [writes])) htarget]
    | _ => simp [word] at hword
  | label l =>
    cases op' with
    | label l' => rw [label_inj (String.toList_inj.1 hoperands)]
    | _ => simp [word] at hword
  | jump l =>
    cases op' with
    | jump l' => rw [label_inj (String.toList_inj.1 hoperands)]
    | _ => simp [word] at hword
  | branch condition ifTrue ifFalse =>
    cases op' with
    | branch condition' ifTrue' ifFalse' =>
      have hcondition₁ := h.values condition (by simp [reads])
      have hcondition₂ := h'.values condition' (by simp [reads])
      obtain ⟨hcondition, hrest⟩ := field_inj (isField_var hcondition₁) (isField_var hcondition₂) rfl rfl hoperands
      have hlabels := List.tail_eq_of_cons_eq (List.tail_eq_of_cons_eq hrest)
      obtain ⟨htrue, hrest⟩ := field_inj (isField_label ifTrue) (isField_label ifTrue') rfl rfl hlabels
      have hfalse := String.toList_inj.1 (List.tail_eq_of_cons_eq (List.tail_eq_of_cons_eq hrest))
      rw [var_inj hcondition₁ hcondition₂ hcondition, label_inj htrue, label_inj hfalse]
    | _ => simp [word] at hword
  | leave value =>
    cases op' with
    | leave value' =>
      have hvalue := String.toList_inj.1 hoperands
      rw [var_inj (h.values _ (by simp [reads])) (h'.values _ (by simp [reads])) hvalue]
    | _ => simp [word] at hword

end Op.Legible

/-! ## Functions -/

/-- The lines of a function's instructions. -/
def codeLines (code : List Instruction) : List Char :=
  code.flatMap fun i => "    ".toList ++ (i.op.text.toList ++ ['\n'])

theorem Function.toList_plain (f : Function) :
    f.styled.plain.toList = "fun ".toList ++ (f.name.toList ++ '(' :: ((variableList f.parameters).toList ++
      ')' :: ':' :: '\n' :: codeLines f.code)) := by
  rw [Text.toList_plain, styled, List.flatMap_append]
  have hcode : (f.code.flatMap fun i => raw "    " :: (i.op.styled ++ [raw "\n"])).flatMap (·.text.toList) =
      codeLines f.code := by
    rw [List.flatMap_assoc, codeLines]
    refine List.flatMap_congr fun i _ => ?_
    rw [Op.text, Text.toList_plain, List.flatMap_cons, List.flatMap_append]
    rfl
  rw [hcode]
  simp [inked, raw]

/-- Lines of instructions end before a line that is not indented. -/
theorem codeLines_inj {code code' : List Instruction} (h : ∀ i ∈ code, i.op.Legible)
    (h' : ∀ i ∈ code', i.op.Legible) (hr : r.head? ≠ some ' ') (hr' : r'.head? ≠ some ' ')
    (ht : codeLines code ++ r = codeLines code' ++ r') : code.map (·.op) = code'.map (·.op) ∧ r = r' := by
  induction code generalizing code' with
  | nil =>
    cases code' with
    | nil => exact ⟨rfl, ht⟩
    | cons i code' => exact absurd (congrArg List.head? ht) hr
  | cons i code ih =>
    cases code' with
    | nil => exact absurd (congrArg List.head? ht).symm hr'
    | cons i' code' =>
      obtain ⟨hi, hcode⟩ := List.forall_mem_cons.1 h
      obtain ⟨hi', hcode'⟩ := List.forall_mem_cons.1 h'
      simp only [codeLines, List.flatMap_cons, List.append_assoc, List.append_cancel_left_eq,
        List.singleton_append] at ht
      have line : ∀ {op : Op}, op.Legible → ∀ c ∈ op.text.toList, (c != '\n') = true := by
        intro op hop c hc
        exact bne_iff_ne.2 fun he => hop.newline_notMem (he ▸ hc)
      obtain ⟨htext, hrest⟩ := run_inj (line hi) (line hi') (by rintro _ ⟨⟩; rfl) (by rintro _ ⟨⟩; rfl) ht
      obtain ⟨hops, hr⟩ := ih hcode hcode' (List.tail_eq_of_cons_eq hrest)
      exact ⟨List.cons_eq_cons.2 ⟨hi.text_inj hi' (String.toList_inj.1 htext), hops⟩, hr⟩

/-- What the text of a function says. -/
def Function.said (f : Function) : String × List Var × List Op := (f.name, f.parameters, f.code.map (·.op))

theorem Function.Legible.said_inj {f g : Function} (hf : f.Legible) (hg : g.Legible)
    (hr : r.head? ≠ some ' ') (hr' : r'.head? ≠ some ' ')
    (h : f.styled.plain.toList ++ r = g.styled.plain.toList ++ r') : f.said = g.said ∧ r = r' := by
  rw [Function.toList_plain, Function.toList_plain] at h
  simp only [List.append_assoc, List.append_cancel_left_eq, List.cons_append] at h
  obtain ⟨hname, hrest⟩ := field_inj hf.name hg.name rfl rfl h
  obtain ⟨hparameters, hcode⟩ := variableList_inj hf.parameters hg.parameters rfl (by decide)
    (List.tail_eq_of_cons_eq hrest)
  obtain ⟨hops, hr⟩ := codeLines_inj hf.code hg.code hr hr'
    (List.tail_eq_of_cons_eq (List.tail_eq_of_cons_eq hcode))
  rw [said, said, hname, hparameters, hops]
  exact ⟨rfl, hr⟩

/-! ## Modules -/

/-- The text of functions behind another one. -/
def behindFunction : List Function → List Char
  | [] => []
  | fs => '\n' :: (Styled.join "\n" (fs.map (·.styled))).plain.toList

theorem toList_functions (f : Function) (fs : List Function) :
    (Styled.join "\n" ((f :: fs).map (·.styled))).plain.toList = f.styled.plain.toList ++ behindFunction fs := by
  cases fs with
  | nil => simp [Styled.join, behindFunction]
  | cons g fs => simp [Styled.join, behindFunction, Text.toList_plain, raw]

theorem behindFunction_head (fs : List Function) : (behindFunction fs).head? ≠ some ' ' := by
  cases fs with
  | nil => exact nofun
  | cons f fs => exact (by decide : some '\n' ≠ some ' ')

theorem functions_inj {fs gs : List Function} (hf : ∀ f ∈ fs, f.Legible) (hg : ∀ g ∈ gs, g.Legible)
    (h : (Styled.join "\n" (fs.map (·.styled))).plain.toList = (Styled.join "\n" (gs.map (·.styled))).plain.toList) :
    fs.map (·.said) = gs.map (·.said) := by
  have hne : ∀ (f : Function) (fs : List Function),
      (Styled.join "\n" ((f :: fs).map (·.styled))).plain.toList ≠ [] := by
    intro f fs hnil
    rw [toList_functions, Function.toList_plain] at hnil
    cases hnil
  induction fs generalizing gs with
  | nil =>
    cases gs with
    | nil => rfl
    | cons g gs => exact absurd h.symm (hne g gs)
  | cons f fs ih =>
    cases gs with
    | nil => exact absurd h (hne f fs)
    | cons g gs =>
      obtain ⟨hf₁, hfs⟩ := List.forall_mem_cons.1 hf
      obtain ⟨hg₁, hgs⟩ := List.forall_mem_cons.1 hg
      rw [toList_functions, toList_functions] at h
      obtain ⟨hsaid, hrest⟩ := hf₁.said_inj hg₁ (behindFunction_head fs) (behindFunction_head gs) h
      refine List.cons_eq_cons.2 ⟨hsaid, ?_⟩
      cases fs with
      | nil =>
        cases gs with
        | nil => rfl
        | cons g gs => cases hrest
      | cons f fs =>
        cases gs with
        | nil => cases hrest
        | cons g gs => exact ih hfs hgs (List.tail_eq_of_cons_eq hrest)

/-- The module for `fun x1(): Int { 1 } x1()`, with another column for the body and what follows it. -/
def callOfX1 (column : Nat) : Module :=
  ⟨[⟨"x1", [], [⟨⟨1, column + 2⟩, .loadInt 1 (.temp 1)⟩, ⟨⟨1, column⟩, .leave (.temp 1)⟩], .temp 1⟩,
    ⟨"main", [], [⟨⟨1, column + 6⟩, .call (.named "x1") [] (.temp 2)⟩,
      ⟨⟨1, 1⟩, .call (.named "print_int") [.temp 2] (.temp 3)⟩], .temp 2⟩]⟩

end Exprc.IR
