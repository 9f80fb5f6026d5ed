/-
Slots do not overlap: two variables have slots of their own, each a multiple of eight bytes below the frame
base and inside the frame. Every variable of a module has one, names aside.
-/
import Exprc.Assembly.StackLayout
import Mathlib

namespace Exprc.Assembly.StackLayout

open IR

variable {l : StackLayout} {v w : Var} {below below' : Nat}

/-- The slot of a variable is one of the slots. -/
theorem offset?_eq_some (h : l.offset? v = some below) :
    ∃ i, l.slots[i]? = some v ∧ i < l.size ∧ below = (i + 1) * slotSize := by
  obtain ⟨i, hi, rfl⟩ := Option.map_eq_some_iff.1 h
  obtain ⟨hlt, hv, -⟩ := List.idxOf?_eq_some_iff.1 hi
  exact ⟨i, by rw [List.getElem?_eq_getElem hlt, hv], hlt, rfl⟩

/-- A frame has room for all slots, and its size keeps the stack pointer aligned. -/
theorem frameSize_eq (l : StackLayout) :
    frameAlignment ∣ l.frameSize ∧ l.size * slotSize ≤ l.frameSize ∧
      l.frameSize < l.size * slotSize + frameAlignment := by
  unfold frameSize frameAlignment
  refine ⟨Nat.dvd_mul_left _ _, ?_, ?_⟩ <;> omega

theorem offset?_bounds (h : l.offset? v = some below) : slotSize ≤ below ∧ below ≤ l.frameSize := by
  obtain ⟨i, -, hi, rfl⟩ := offset?_eq_some h
  have hsize := l.frameSize_eq.2.1
  have hle : (i + 1) * slotSize ≤ l.size * slotSize := Nat.mul_le_mul_right _ hi
  unfold slotSize at *
  omega

/-- The slots of two variables do not overlap. -/
theorem offset?_apart (h : l.offset? v = some below) (h' : l.offset? w = some below') (hvw : v ≠ w) :
    below + slotSize ≤ below' ∨ below' + slotSize ≤ below := by
  obtain ⟨i, hi, -, rfl⟩ := offset?_eq_some h
  obtain ⟨j, hj, -, rfl⟩ := offset?_eq_some h'
  have hij : i ≠ j := by
    rintro rfl
    exact hvw (Option.some.inj (hi.symm.trans hj))
  unfold slotSize
  omega

theorem offset?_of_mem (h : v ∈ l.slots) : ∃ below, l.offset? v = some below := by
  cases hi : l.slots.idxOf? v with
  | none => exact absurd h (List.idxOf?_eq_none_iff.1 hi)
  | some i => exact ⟨_, by rw [offset?, hi]; rfl⟩

/-- A variable of a module has a slot, unless it is a name. -/
theorem offset?_ofModule {m : Module} {f : Function} (hf : f ∈ m.functions) (hv : v ∈ f.vars)
    (hn : v.isNamed = false) : ∃ below, (ofModule m).offset? v = some below := by
  refine offset?_of_mem ?_
  rw [ofModule, List.mem_eraseDups, List.mem_filter]
  exact ⟨List.mem_flatMap.2 ⟨f, hf, hv⟩, by rw [hn]; rfl⟩

end Exprc.Assembly.StackLayout
