/-
Frames in memory. The frame of a function lies below its base, where `rbp` points: the slot of a variable that
has a value holds a word for it. At the base are the base of the caller and the number of the instruction at
which the caller goes on; the frame of the caller lies above. What is at the base or above it does not change
until the function returns.
-/
import Exprc.Proofs.Assembly.Position
import Exprc.Proofs.IR.Frame

namespace Exprc.Assembly

open IR

/-! ## Frames -/

/-- The slots below a base hold words for the values of a frame. -/
def HoldsFrame (l : StackLayout) (memory : Memory) (base : Nat) (frame : Frame) : Prop :=
  ∀ v below value, l.offset? v = some below → frame.read? v = some value →
    Encodes (memory.word (base - below)) value

/-- A processor executes a function whose frame lies below a base. -/
structure Cpu.InFrame (l : StackLayout) (c : Cpu) (base : Nat) : Prop where
  rbp : (c.reg .rbp).toNat = base
  rsp : (c.reg .rsp).toNat + l.frameSize = base

theorem toNat_sub_ofNat {w : Word} {k : Nat} (h : k ≤ w.toNat) :
    (w - .ofNat 64 k).toNat = w.toNat - k := by
  have hw := w.isLt
  rw [BitVec.toNat_sub, BitVec.toNat_ofNat, Nat.mod_eq_of_lt (Nat.lt_of_le_of_lt h hw)]
  omega

section

variable {l : StackLayout} {memory memory' : Memory} {base below : Nat} {frame : Frame} {v : Var}
  {value : Value} {w : Word} {c c' : Cpu}

theorem HoldsFrame.nil : HoldsFrame l memory base [] := by
  intro v below value _ hr
  cases v <;> cases hr
  trivial

/-- A frame depends only on the memory that its slots cover. -/
theorem HoldsFrame.congr (h : HoldsFrame l memory base frame) (hroom : l.frameSize ≤ base)
    (hsame : ∀ a, base ≤ a + l.frameSize → a < base → memory a = memory' a) :
    HoldsFrame l memory' base frame := by
  intro v below value hv hr
  have hbounds := StackLayout.offset?_bounds hv
  unfold StackLayout.slotSize at hbounds
  have hword : memory.word (base - below) = memory'.word (base - below) :=
    Memory.word_congr fun a _ _ => hsame a (by omega) (by omega)
  rw [← hword]
  exact h v below value hv hr

/-- Writing a variable. -/
theorem HoldsFrame.write (h : HoldsFrame l memory base frame) (hroom : l.frameSize ≤ base)
    (hv : l.offset? v = some below) (hw : Encodes w value) :
    HoldsFrame l (memory.setWord (base - below) w) base (frame.write v value) := by
  intro u k old hu hr
  by_cases huv : u = v
  · subst huv
    obtain rfl := Option.some.inj (hu.symm.trans hv)
    rw [Memory.word_setWord]
    rw [Frame.read?] at hr
    split at hr
    · cases hr
      trivial
    · rw [Frame.lookup_write, if_pos rfl] at hr
      cases hr
      exact hw
  · have hapart := StackLayout.offset?_apart hu hv huv
    have hbounds := StackLayout.offset?_bounds hu
    have hbounds' := StackLayout.offset?_bounds hv
    unfold StackLayout.slotSize at hapart hbounds hbounds'
    rw [Memory.word_setWord_of_disjoint (by omega)]
    rw [Frame.read?_write_of_ne frame huv] at hr
    exact h u k old hu hr

namespace Cpu.InFrame

theorem room (h : c.InFrame l base) : l.frameSize ≤ base := by
  have := h.rsp
  omega

theorem slot (h : c.InFrame l base) (hv : l.offset? v = some below) : c.slot below = base - below := by
  have hbounds := StackLayout.offset?_bounds hv
  have hroom := h.room
  rw [Cpu.slot, toNat_sub_ofNat (by rw [h.rbp]; omega), h.rbp]

theorem holds (h : c.InFrame l base) (hframe : HoldsFrame l c.memory base frame)
    (hv : l.offset? v = some below) (hr : frame.read? v = some value) :
    Encodes (c.memory.word (c.slot below)) value := by
  rw [h.slot hv]
  exact hframe v below value hv hr

end Cpu.InFrame

namespace Cpu.Wrote

theorem inFrame (h : c.Wrote l c' v w) (hc : c.InFrame l base) : c'.InFrame l base :=
  ⟨by rw [h.rbp]; exact hc.rbp, by rw [h.rsp]; exact hc.rsp⟩

/-- Code that writes a variable of a frame. -/
theorem holdsFrame (h : c.Wrote l c' v w) (hc : c.InFrame l base)
    (hframe : HoldsFrame l c.memory base frame) (hw : Encodes w value) :
    HoldsFrame l c'.memory base (frame.write v value) := by
  obtain ⟨below, hv, hmemory⟩ := h.memory
  rw [hmemory, hc.slot hv]
  exact hframe.write hc.room hv hw

/-- A write to a slot changes nothing at the base or above it. -/
theorem above (h : c.Wrote l c' v w) (hc : c.InFrame l base) {a : Nat} (ha : base ≤ a) :
    c.memory a = c'.memory a := by
  obtain ⟨below, hv, hmemory⟩ := h.memory
  have hbounds := StackLayout.offset?_bounds hv
  have hroom := hc.room
  unfold StackLayout.slotSize at hbounds
  rw [hmemory, hc.slot hv, Memory.setWord_outside (by omega)]

end Cpu.Wrote

end

/-! ## Frames below each other -/

/-- The functions that wait for a function to return, as they are in memory. The function has its frame below
`base`, and the one in which the run starts has its frame below `top`. -/
inductive Stacked (o : Options) (m : IR.Module) (text : List Line) (env : Surroundings) (top : Nat)
    (memory : Memory) : Nat → IR.Function → List Waiting → Prop
  | first {f : IR.Function} :
      f.isEntryPoint = true → memory.word (top + 8) = env.address 1 →
      Stacked o m text env top memory top f []
  | caller {base n below : Nat} {f : IR.Function} {w : Waiting} {ws : List Waiting} :
      f.isEntryPoint = false →
      memory.word base = .ofNat 64 (base + 16 + (StackLayout.ofModule m).frameSize) →
      memory.word (base + 8) = env.address n →
      (StackLayout.ofModule m).offset? w.target = some below →
      Resumes o m text w.caller.function n [.binary .mov (.mem (some .qword) .rbp below) (.reg .rax)]
        w.caller.rest →
      w.caller.function.Open w.caller.rest →
      HoldsFrame (.ofModule m) memory (base + 16 + (StackLayout.ofModule m).frameSize) w.caller.frame →
      Stacked o m text env top memory (base + 16 + (StackLayout.ofModule m).frameSize)
        w.caller.function ws →
      Stacked o m text env top memory base f (w :: ws)

namespace Stacked

variable {o : Options} {m : IR.Module} {text : List Line} {env : Surroundings} {top base : Nat}
  {memory memory' : Memory} {f : IR.Function} {ws : List Waiting}

/-- Each function that waits takes up a frame and two words. -/
theorem depth (h : Stacked o m text env top memory base f ws) :
    base + ws.length * ((StackLayout.ofModule m).frameSize + 16) = top := by
  induction h with
  | first => rw [List.length_nil, Nat.zero_mul, Nat.add_zero]
  | caller _ _ _ _ _ _ _ _ ih =>
    rw [List.length_cons, Nat.succ_mul]
    omega

/-- What waits depends only on the memory at the base and above it. -/
theorem congr (h : Stacked o m text env top memory base f ws)
    (hsame : ∀ a, base ≤ a → memory a = memory' a) : Stacked o m text env top memory' base f ws := by
  induction h with
  | first hentry hreturn =>
    refine .first hentry ?_
    rw [← hreturn]
    exact (Memory.word_congr fun a _ _ => hsame a (by omega)).symm
  | caller hentry hbase hreturn ht hresume hopen hframe _ ih =>
    refine .caller hentry ?_ ?_ ht hresume hopen ?_ (ih fun a ha => hsame a (by omega))
    · rw [← hbase]
      exact (Memory.word_congr fun a _ _ => hsame a (by omega)).symm
    · rw [← hreturn]
      exact (Memory.word_congr fun a _ _ => hsame a (by omega)).symm
    · exact hframe.congr (by omega) fun a ha _ => hsame a (by omega)

end Stacked

end Exprc.Assembly
