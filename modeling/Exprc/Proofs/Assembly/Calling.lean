/-
How functions are called and left. The caller loads the arguments into registers; the function makes its frame
below the stack pointer and stores its parameters there. At its end the function drops the frame, and goes on
where it was called, with its result in `rax`.
-/
import Exprc.Proofs.Assembly.Frames

namespace Exprc.Assembly

open IR

section

variable {l : StackLayout} {location : Location} {c : Cpu} {base : Nat} (names : Names)

/-! ## Arguments -/

/-- Registers hold words for values. -/
def Passed (c : Cpu) (rs : List Reg) (values : List Value) : Prop :=
  ∀ p ∈ rs.zip values, Encodes (c.reg p.1) p.2

theorem Passed.congr {c' : Cpu} {rs : List Reg} {values : List Value} (h : Passed c rs values)
    (hregs : ∀ r ∈ rs, c'.reg r = c.reg r) : Passed c' rs values := by
  intro p hp
  rw [hregs _ (List.of_mem_zip hp).1]
  exact h p hp

/-- Loading arguments changes nothing but registers for arguments. -/
theorem loadArguments_exec {vs : List Var} {values : List Value}
    (hvs : List.Forall₂ (c.Holds l) vs values) {rs : List Reg} (hnodup : rs.Nodup) (hrbp : .rbp ∉ rs)
    {is : List Instr} (his : loadArguments l location vs rs = .ok is) :
    ∃ c', c.execAll names is = some c' ∧ c'.memory = c.memory ∧ (∀ r ∉ rs, c'.reg r = c.reg r) ∧
      Passed c' rs values := by
  induction vs generalizing c values rs is with
  | nil =>
    cases hvs
    cases his
    exact ⟨c, rfl, rfl, fun _ _ => rfl, by simp [Passed]⟩
  | cons v vs ih =>
    cases hvs with
    | @cons _ value _ values hv hvs =>
      cases rs with
      | nil =>
        cases his
        exact ⟨c, rfl, rfl, fun _ _ => rfl, by simp [Passed]⟩
      | cons r rs =>
        obtain ⟨below, hbelow, hw⟩ := hv
        rw [List.nodup_cons] at hnodup
        rw [List.mem_cons, not_or] at hrbp
        cases hrest : loadArguments l location vs rs with
        | error e => rw [loadArguments, load_eq hbelow, hrest] at his; cases his
        | ok rest =>
          rw [loadArguments, load_eq hbelow, hrest] at his
          cases his
          -- the slots of the other arguments are where they were
          have hvs' : List.Forall₂ ((c.set r (c.memory.word (c.slot below))).Holds l) vs values := by
            refine hvs.imp fun u x => ?_
            rintro ⟨k, hk, hx⟩
            refine ⟨k, hk, ?_⟩
            rw [slot_set (Ne.symm hrbp.1)]
            exact hx
          obtain ⟨c', hexec, hmemory, hregs, hpassed⟩ := ih hvs' hnodup.2 hrbp.2 hrest
          refine ⟨c', ?_, hmemory, fun s hs => ?_, ?_⟩
          · rw [List.singleton_append, Cpu.execAll_cons, Cpu.exec_load, Option.bind_some]
            exact hexec
          · rw [List.mem_cons, not_or] at hs
            rw [hregs s hs.2, Cpu.reg_set, if_neg hs.1]
          · rw [Passed, List.zip_cons_cons, List.forall_mem_cons]
            refine ⟨?_, hpassed⟩
            rw [hregs r hnodup.1, Cpu.reg_set, if_pos rfl]
            exact hw

/-! ## Frames -/

/-- A function makes its frame below the stack pointer, and saves the base of the caller there. -/
theorem prologue_exec {base : Nat} (hrsp : (c.reg .rsp).toNat = base + 8) (hroom : l.frameSize ≤ base) :
    ∃ c', c.execAll names (prologue l) = some c' ∧ c'.InFrame l base ∧
      c'.memory = c.memory.setWord base (c.reg .rbp) ∧
      ∀ r, r ≠ .rbp → r ≠ .rsp → c'.reg r = c.reg r := by
  have htop : (c.reg .rsp - 8).toNat = base := by
    rw [show (8 : Word) = .ofNat 64 8 from rfl, toNat_sub_ofNat (by omega), hrsp, Nat.add_sub_cancel]
  let based := (c.push (c.reg .rbp)).set .rbp (c.reg .rsp - 8)
  have hexec : c.execAll names [.unary .push (.reg .rbp), .binary .mov (.reg .rbp) (.reg .rsp)] =
      some based := rfl
  have hmemory : based.memory = c.memory.setWord base (c.reg .rbp) := by
    rw [← htop]
    rfl
  have hregs : ∀ r, r ≠ .rbp → r ≠ .rsp → based.reg r = c.reg r := by
    intro r h₁ h₂
    simp [based, Cpu.push, h₁, h₂]
  unfold prologue
  split
  · rename_i hzero
    exact ⟨based, hexec, ⟨htop, by rw [hzero]; exact htop⟩, hmemory, hregs⟩
  · let made : Cpu := { based.set .rsp (based.reg .rsp - .ofNat 64 l.frameSize) with
      flags := .ofDifference (based.reg .rsp) (.ofNat 64 l.frameSize) }
    have hsub : based.exec names (.binary .sub (.reg .rsp) (.imm l.frameSize)) = some made := by
      show some ({ based.set .rsp (based.reg .rsp - .ofInt 64 l.frameSize) with
        flags := .ofDifference (based.reg .rsp) (.ofInt 64 l.frameSize) } : Cpu) = _
      rw [BitVec.ofInt_natCast]
    have hrsp' : (based.reg .rsp).toNat = base := htop
    refine ⟨made, ?_, ⟨htop, ?_⟩, hmemory, fun r h₁ h₂ => ?_⟩
    · rw [Cpu.execAll_append, hexec, Option.bind_some, Cpu.execAll_cons, hsub]
      rfl
    · show (based.reg .rsp - .ofNat 64 l.frameSize).toNat + l.frameSize = base
      rw [toNat_sub_ofNat (by rw [hrsp']; exact hroom), hrsp']
      omega
    · rw [← hregs r h₁ h₂]
      exact if_neg h₂

end

section

variable {o : Options} {l : StackLayout} {text : List Line} {p : Program} {env : Surroundings}
  {s : Process} {scope : String} {base : Nat}

@[simp] theorem sizeOf_note (o : Options) (remark : String) : sizeOf (o.note remark) = 0 := by
  unfold Options.note
  split <;> rfl

/-- A function stores its parameters one after the other. -/
theorem storeParameters_reaches (hp : assemble? text = some p) {vs : List Var} {rs : List Reg}
    {values : List Value} {lines : List Line} {frame : Frame}
    (hslots : ∀ v ∈ vs, ∃ below, l.offset? v = some below) (hlength : values.length = vs.length)
    (hle : vs.length ≤ rs.length) (hlines : storeParameters o l vs rs = .ok lines)
    (hat : At text s.next scope lines) (hin : s.cpu.InFrame l base)
    (hframe : HoldsFrame l s.cpu.memory base frame) (hpassed : Passed s.cpu rs values) :
    ∃ c, Reaches p env s { s with cpu := c, next := s.next + sizeOf lines } ∧ c.InFrame l base ∧
      HoldsFrame l c.memory base (frame.writeAll (vs.zip values)) ∧
      ∀ a, base ≤ a → s.cpu.memory a = c.memory a := by
  induction vs generalizing rs values lines frame s with
  | nil =>
    cases hlines
    exact ⟨s.cpu, .refl s, hin, hframe, fun _ _ => rfl⟩
  | cons v vs ih =>
    obtain ⟨value, values, rfl⟩ := List.exists_cons_of_length_eq_add_one hlength
    obtain ⟨r, rs, rfl⟩ := List.exists_cons_of_length_pos (Nat.lt_of_lt_of_le (Nat.succ_pos _) hle)
    obtain ⟨below, hv⟩ := hslots v List.mem_cons_self
    cases hrest : storeParameters o l vs rs with
    | error e => rw [storeParameters, store_eq hv, hrest] at hlines; cases hlines
    | ok rest =>
      rw [storeParameters, store_eq hv, hrest] at hlines
      cases hlines
      rw [Passed, List.zip_cons_cons, List.forall_mem_cons] at hpassed
      rw [List.append_assoc] at hat
      have hstore := hat.skip
      let c : Cpu := { s.cpu with memory := s.cpu.memory.setWord (s.cpu.slot below) (s.cpu.reg r) }
      have hwrote : s.cpu.Wrote l c v (s.cpu.reg r) := ⟨rfl, rfl, below, hv, rfl⟩
      have hstep : s.step p env = .running { s with cpu := c, next := s.next + 1 } :=
        hstore.step_exec hp Cpu.exec_store
      obtain ⟨c', hreach, hin', hframe', habove⟩ := ih (s := { s with cpu := c, next := s.next + 1 })
        (fun w hw => hslots w (List.mem_cons_of_mem _ hw)) (Nat.succ.inj hlength)
        (Nat.le_of_succ_le_succ hle) hrest hstore.tail (hwrote.inFrame hin)
        (hwrote.holdsFrame hin hframe hpassed.1) hpassed.2
      refine ⟨c', ?_, hin', hframe', fun a ha => (hwrote.above hin ha).trans (habove a ha)⟩
      have hsize : s.next + sizeOf (o.note ("store parameter " ++ v.text) ++ [Instr.binary .mov
          (.mem (some .qword) .rbp below) (.reg r)].map Line.ofInstr ++ rest) = s.next + 1 + sizeOf rest := by
        rw [sizeOf_append, sizeOf_append, sizeOf_note, sizeOf_instructions]
        simp only [List.length_singleton]
        omega
      rw [hsize]
      exact .step hstep hreach

/-! ## Returns -/

/-- Different instructions of a program have different addresses. -/
def Surroundings.Separates (env : Surroundings) (p : Program) : Prop :=
  ∀ i j, i < p.instructions.length → j < p.instructions.length → env.address i = env.address j → i = j

theorem Process.ret_eq (hinj : env.Separates p) {n : Nat} (hn : n < p.instructions.length)
    (hreturn : s.cpu.pop.1 = env.address n) :
    s.ret p env = .running { s with cpu := s.cpu.pop.2, next := n } := by
  have hfind : (List.range p.instructions.length).find? (fun k => env.address k = s.cpu.pop.1) = some n := by
    rw [hreturn, List.find?_range_eq_some]
    refine ⟨decide_eq_true rfl, List.mem_range.2 hn, fun j hj => ?_⟩
    have hne : env.address j ≠ env.address n := fun h =>
      Nat.ne_of_lt hj (hinj j n (Nat.lt_trans hj hn) hn h)
    simp [hne]
  rw [Process.ret, hfind]

/-- A function drops its frame and returns to its caller, whose base it had saved. -/
theorem epilogue_reaches (hp : assemble? text = some p) (hinj : env.Separates p)
    (hat : At text s.next scope epilogue) (hrbp : (s.cpu.reg .rbp).toNat = base)
    (hroom : base + 16 < 2 ^ 64) {n : Nat} (hn : n < p.instructions.length)
    (hreturn : s.cpu.memory.word (base + 8) = env.address n) :
    ∃ c, Reaches p env s { s with cpu := c, next := n } ∧ c.reg .rax = s.cpu.reg .rax ∧
      c.memory = s.cpu.memory ∧ c.reg .rbp = s.cpu.memory.word base ∧
      (c.reg .rsp).toNat = base + 16 := by
  -- behind the label there are three instructions
  let dropped := s.cpu.set .rsp (s.cpu.reg .rbp)
  let popped := dropped.pop.2.set .rbp dropped.pop.1
  have hexec : s.cpu.execAll env.names [.binary .mov (.reg .rsp) (.reg .rbp), .unary .pop (.reg .rbp)] =
      some popped := rfl
  have hcode : At text s.next scope ([Instr.binary .mov (.reg .rsp) (.reg .rbp),
      .unary .pop (.reg .rbp)].map .ofInstr ++ [.ofInstr (.plain .ret)]) := hat.tail
  obtain ⟨hreach, hret⟩ := hcode.exec hp hexec
  have height : (s.cpu.reg .rbp + 8).toNat = base + 8 := by
    rw [BitVec.toNat_add, hrbp, show (8 : Word).toNat = 8 from rfl]
    exact Nat.mod_eq_of_lt (by omega)
  have hpop : popped.pop.1 = env.address n := by
    rw [← hreturn]
    show s.cpu.memory.word (s.cpu.reg .rbp + 8).toNat = _
    rw [height]
  have hstep : (Process.mk popped (s.next + 2) s.world s.calls).step p env =
      .running ⟨popped.pop.2, n, s.world, s.calls⟩ := by
    have hfetch := hret.fetch (s := ⟨popped, s.next + 2, s.world, s.calls⟩) hp
    rw [Process.step, hfetch]
    exact Process.ret_eq hinj hn hpop
  refine ⟨popped.pop.2, hreach.trans (.single hstep), rfl, rfl, ?_, ?_⟩
  · show s.cpu.memory.word (s.cpu.reg .rbp).toNat = _
    rw [hrbp]
  · show (s.cpu.reg .rbp + 8 + 8).toNat = base + 16
    rw [BitVec.toNat_add, height, show (8 : Word).toNat = 8 from rfl]
    exact Nat.mod_eq_of_lt (by omega)

end

end Exprc.Assembly
