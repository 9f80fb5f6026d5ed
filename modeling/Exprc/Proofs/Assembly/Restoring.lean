/-
What the instructions of a function leave alone. An instruction that keeps to its function changes memory only
inside the frame, and leaves the frame where it is; so does any number of them. Hence dropping the frame gives
back to the caller the registers that say where its own frame is, with the memory of the caller as it was.
-/
import Exprc.Proofs.Assembly.Calling
import Exprc.Proofs.Assembly.Demands

namespace Exprc

namespace Assembly

open IR

/-- The instructions that make a frame of some size. -/
def makeFrame (size : Nat) : List Instr :=
  [.unary .push (.reg .rbp), .binary .mov (.reg .rbp) (.reg .rsp), .binary .sub (.reg .rsp) (.imm size)]

/-- The instructions that drop a frame. -/
def dropFrame : List Instr := [.binary .mov (.reg .rsp) (.reg .rbp), .unary .pop (.reg .rbp)]

theorem prologue_eq {l : StackLayout} (h : l.frameSize ≠ 0) : prologue l = makeFrame l.frameSize := by
  rw [prologue, if_neg h]
  rfl

/-- What happens inside of a function leaves its frame where it is, and memory outside of the frame as it is. -/
structure Cpu.StaysInside (l : StackLayout) (c c' : Cpu) : Prop where
  rbp : c'.reg .rbp = c.reg .rbp
  rsp : c'.reg .rsp = c.reg .rsp
  memory : ∀ a, a + l.frameSize < (c.reg .rbp).toNat ∨ (c.reg .rbp).toNat ≤ a → c'.memory a = c.memory a

section

variable {l : StackLayout} {used : Var → Prop} {names : Names} {c c' c'' : Cpu} {j : Instr} {is : List Instr}
  {o : Operand}

namespace Cpu.StaysInside

theorem refl (c : Cpu) : c.StaysInside l c := ⟨rfl, rfl, fun _ _ => rfl⟩

theorem trans (h : c.StaysInside l c') (h' : c'.StaysInside l c'') : c.StaysInside l c'' where
  rbp := h'.rbp.trans h.rbp
  rsp := h'.rsp.trans h.rsp
  memory a ha := by rw [h'.memory a (by rwa [h.rbp]), h.memory a ha]

theorem set {r : Reg} (hr : r.isFrame = false) (w : Word) : c.StaysInside l (c.set r w) where
  rbp := if_neg (by rintro rfl; cases hr)
  rsp := if_neg (by rintro rfl; cases hr)
  memory _ _ := rfl

/-- Flags are no part of what is left alone. -/
theorem withFlags (h : c.StaysInside l c') (flags : Flags) : c.StaysInside l { c' with flags } :=
  ⟨h.rbp, h.rsp, h.memory⟩

end Cpu.StaysInside

/-- An operand in memory is a slot, and no register is of the frame. -/
structure Operand.Allowed (l : StackLayout) (used : Var → Prop) (o : Operand) : Prop where
  memory : o.isMemory = true → o.IsSlot l used
  frame : o.isFrame = false

/-- A write to a register or to a slot. -/
theorem Operand.Allowed.write {w : Width} {v : BitVec w.bits} (ho : o.Allowed l used)
    (hroom : l.frameSize ≤ (c.reg .rbp).toNat) (h : c.write? names w o v = some c') : c.StaysInside l c' := by
  cases o with
  | reg r | low r =>
    cases w <;> cases h
    exact .set ho.frame _
  | imm | char | constant => cases w <;> cases h
  | data =>
    obtain ⟨_, _, -, -, ⟨⟩⟩ := ho.memory rfl
  | mem _ _ below =>
    obtain ⟨_, _, -, hslot, ⟨⟩⟩ := ho.memory rfl
    obtain ⟨hlow, hhigh⟩ := StackLayout.offset?_bounds hslot
    unfold StackLayout.slotSize at hlow
    have haddress : (c.reg .rbp - .ofNat 64 below).toNat = (c.reg .rbp).toNat - below :=
      toNat_sub_ofNat (hhigh.trans hroom)
    have hbytes : w.bytes ≤ 8 := by cases w <;> decide
    obtain rfl : c' = { c with
        memory := c.memory.store (c.reg .rbp - .ofNat 64 below).toNat w.bytes v.toNat } := by
      cases w <;> exact (Option.some.inj h).symm
    refine ⟨rfl, rfl, fun a ha => Memory.store_outside ?_⟩
    rw [haddress]
    omega

/-- The operands of an instruction that keeps to its function. -/
theorem Instr.Local.allowed (hj : j.Local l used) : ∀ o ∈ j.operands, o.Allowed l used := by
  have hframe : ∀ o ∈ j.operands, o.isFrame = false := by
    have hkeeps := hj.frame
    unfold Instr.keepsFrame at hkeeps
    split at hkeeps
    · cases hkeeps
    · cases hkeeps
    · cases hkeeps
    · simpa using hkeeps
  exact fun o ho => ⟨hj.memory o ho, hframe o ho⟩

/-- A division changes two registers. -/
theorem Cpu.divide_staysInside {divisor : Word} (h : c.divide divisor = some c') : c.StaysInside l c' := by
  unfold Cpu.divide at h
  dsimp only at h
  split at h
  · cases h
  · cases h
    exact ((StaysInside.set rfl _).trans (.set rfl _)).withFlags _

/-- What an instruction that keeps to its function does stays inside. -/
theorem Instr.Local.exec (hj : j.Local l used) (hroom : l.frameSize ≤ (c.reg .rbp).toNat)
    (h : c.exec names j = some c') : c.StaysInside l c' := by
  have hallowed := hj.allowed
  cases j with
  | plain op =>
    cases op with
    | cqo =>
      cases h
      exact .set rfl _
    | ret | syscall => cases h
  | unary op operand =>
    have ho : operand.Allowed l used := hallowed operand List.mem_cons_self
    cases op with
    -- these would move the end of the frame
    | push | pop => cases hj.frame
    | idiv =>
      obtain ⟨divisor, -, h⟩ := Option.bind_eq_some_iff.1 h
      exact Cpu.divide_staysInside h
    | neg | inc | dec =>
      obtain ⟨w, -, h⟩ := Option.bind_eq_some_iff.1 h
      obtain ⟨v, -, h⟩ := Option.bind_eq_some_iff.1 h
      obtain ⟨c₁, hwrite, ⟨⟩⟩ := Option.bind_eq_some_iff.1 h
      exact (ho.write hroom hwrite).withFlags _
  | binary op target source =>
    have ht : target.Allowed l used := hallowed target List.mem_cons_self
    cases op with
    | mov =>
      obtain ⟨w, -, h⟩ := Option.bind_eq_some_iff.1 h
      split at h
      · cases h
      · obtain ⟨v, -, h⟩ := Option.bind_eq_some_iff.1 h
        exact ht.write hroom h
    | movzx | lea =>
      obtain ⟨v, -, h⟩ := Option.bind_eq_some_iff.1 h
      exact ht.write hroom h
    -- the others compute a value and flags, or flags alone, or nothing
    | _ =>
      obtain ⟨w, -, h⟩ := Option.bind_eq_some_iff.1 h
      obtain ⟨x, -, h⟩ := Option.bind_eq_some_iff.1 h
      obtain ⟨y, -, h⟩ := Option.bind_eq_some_iff.1 h
      split at h
      · obtain ⟨c₁, hwrite, ⟨⟩⟩ := Option.bind_eq_some_iff.1 h
        exact (ht.write hroom hwrite).withFlags _
      · cases h
        exact (Cpu.StaysInside.refl c).withFlags _
      · cases h
  | scale target source factor =>
    obtain ⟨v, -, h⟩ := Option.bind_eq_some_iff.1 h
    obtain ⟨c₁, hwrite, ⟨⟩⟩ := Option.bind_eq_some_iff.1 h
    exact ((hallowed target List.mem_cons_self).write hroom hwrite).withFlags _
  | setIf cond target =>
    obtain ⟨v, -, h⟩ := Option.bind_eq_some_iff.1 h
    exact (hallowed target List.mem_cons_self).write hroom h
  -- control does not go on behind these
  | call | jump | jumpIf => cases h

/-- What instructions that keep to their function do stays inside. -/
theorem AllLocal.execAll (his : AllLocal l used is) (hroom : l.frameSize ≤ (c.reg .rbp).toNat)
    (h : c.execAll names is = some c') : c.StaysInside l c' := by
  induction is generalizing c with
  | nil =>
    cases h
    exact .refl _
  | cons j is ih =>
    rw [AllLocal, List.forall_mem_cons] at his
    rw [Cpu.execAll_cons] at h
    obtain ⟨c₁, hj, hrest⟩ := Option.bind_eq_some_iff.1 h
    have hfirst := his.1.exec hroom hj
    exact hfirst.trans (ih his.2 (by rw [hfirst.rbp]; exact hroom) hrest)

/-- Dropping a frame takes the base of the caller from where it was saved. -/
theorem dropFrame_exec (names : Names) (c : Cpu) :
    ∃ c', c.execAll names dropFrame = some c' ∧ c'.reg .rbp = c.memory.word (c.reg .rbp).toNat ∧
      c'.reg .rsp = c.reg .rbp + 8 ∧ c'.memory = c.memory :=
  ⟨(c.set .rsp (c.reg .rbp)).pop.2.set .rbp (c.set .rsp (c.reg .rbp)).pop.1, rfl, rfl, rfl, rfl⟩

/-- A function that makes its frame, goes through instructions that keep to it, and drops the frame gives the
registers of the frame of its caller back, and leaves the memory of its caller as it was. -/
theorem AllLocal.restores (his : AllLocal l used is) (hroom : l.frameSize + 8 ≤ (c.reg .rsp).toNat)
    (hframe : l.frameSize ≠ 0) (h : c.execAll names (makeFrame l.frameSize ++ is ++ dropFrame) = some c') :
    c'.reg .rbp = c.reg .rbp ∧ c'.reg .rsp = c.reg .rsp ∧
      ∀ a, (c.reg .rsp).toNat ≤ a → c'.memory a = c.memory a := by
  obtain ⟨base, hbase⟩ : ∃ base, (c.reg .rsp).toNat = base + 8 := ⟨(c.reg .rsp).toNat - 8, by omega⟩
  have hfits : l.frameSize ≤ base := by omega
  obtain ⟨made, hmade, hin, hsaved, -⟩ := prologue_exec (l := l) names hbase hfits
  rw [prologue_eq hframe] at hmade
  rw [Cpu.execAll_append, Cpu.execAll_append, hmade, Option.bind_some] at h
  obtain ⟨c₁, hexec, hdrop⟩ := Option.bind_eq_some_iff.1 h
  have hinside : made.StaysInside l c₁ := his.execAll (by rwa [hin.rbp]) hexec
  have habove : ∀ a, base ≤ a → c₁.memory a = made.memory a := fun a ha =>
    hinside.memory a (.inr (by rwa [hin.rbp]))
  have hrbp : (c₁.reg .rbp).toNat = base := by rw [hinside.rbp, hin.rbp]
  obtain ⟨c₂, hdropped, hrbp', hrsp', hmemory'⟩ := dropFrame_exec names c₁
  obtain rfl : c₂ = c' := Option.some.inj (hdropped.symm.trans hdrop)
  refine ⟨?_, ?_, fun a ha => ?_⟩
  · -- the word at the base is still what was saved there
    rw [hrbp', hrbp, Memory.word_congr fun a ha _ => habove a ha, hsaved, Memory.word_setWord]
  · refine BitVec.eq_of_toNat_eq ?_
    have hlt := (c.reg .rsp).isLt
    rw [hrsp', BitVec.toNat_add, hrbp, hbase, show (8 : Word).toNat = 8 from rfl]
    exact Nat.mod_eq_of_lt (by omega)
  · rw [hmemory', habove a (by omega), hsaved, Memory.setWord_outside (by omega)]

end

end Assembly

end Exprc
