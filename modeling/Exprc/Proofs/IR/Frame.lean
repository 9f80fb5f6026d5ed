/-
What frames hold. A variable that was written holds what was last written to it, and no write touches
another variable; the unit variable always holds the unit value. In the frame in which a call begins
the arguments have been written to the parameters.
-/
import Exprc.IR.Machine
import Mathlib

namespace Exprc.IR.Frame

/-! ## Writing and reading -/

theorem lookup_write (frame : Frame) (v w : Var) (value : Value) :
    (frame.write v value).lookup w = if w = v then some value else frame.lookup w := by
  induction frame with
  | nil => by_cases h : w = v <;> simp [write, h]
  | cons p frame ih =>
    obtain ⟨u, old⟩ := p
    by_cases hu : u = v
    · subst hu
      by_cases h : w = u
      · simp [write, h]
      · have : (w == u) = false := by simpa using h
        simp [write, List.lookup_cons, this, h]
    · simp only [write, if_neg hu, List.lookup_cons]
      cases h : w == u with
      | true =>
        obtain rfl := eq_of_beq h
        simp [hu]
      | false => exact ih

@[simp] theorem read?_unit (frame : Frame) : frame.read? .unit = some .unit := rfl

@[simp] theorem read?_temp (frame : Frame) (n : Nat) :
    frame.read? (.temp n) = frame.lookup (.temp n) := rfl

@[simp] theorem read?_write_temp (frame : Frame) (n : Nat) (value : Value) :
    (frame.write (.temp n) value).read? (.temp n) = some value := by
  rw [read?_temp, lookup_write, if_pos rfl]

/-- A write touches no other variable. -/
theorem read?_write_of_ne (frame : Frame) {v w : Var} (h : w ≠ v) (value : Value) :
    (frame.write v value).read? w = frame.read? w := by
  unfold read?
  rw [lookup_write, if_neg h]

/-- Writing a value does not change that a variable has it. -/
theorem read?_write_of_eq {frame : Frame} {v : Var} {value : Value}
    (h : frame.read? v = some value) (n : Nat) :
    (frame.write (.temp n) value).read? v = some value := by
  by_cases hv : v = .temp n
  · rw [hv, read?_write_temp]
  · rw [read?_write_of_ne frame hv, h]

theorem read_eq_ok_iff {frame : Frame} {location : Location} {v : Var} {value : Value} :
    frame.read location v = .ok value ↔ frame.read? v = some value := by
  unfold read
  split <;> simp_all

/-- Reading fails only for want of a value. -/
theorem read_error {frame : Frame} {location : Location} {v : Var} {fault : Fault RuntimeError}
    (h : frame.read location v = .error fault) :
    frame.read? v = none ∧ fault = .at location (.unassigned v) := by
  unfold read at h
  split at h
  · cases h
  · exact ⟨by assumption, (Except.error.inj h).symm⟩

/-- Reading several variables fails at one of them. -/
theorem mapM_read_error {frame : Frame} {location : Location} {fault : Fault RuntimeError} :
    ∀ {vs : List Var}, vs.mapM (frame.read location) = .error fault →
      ∃ v ∈ vs, frame.read location v = .error fault
  | [], h => by cases h
  | v :: vs, h => by
    rw [List.mapM_cons] at h
    cases hv : frame.read location v with
    | error fault' =>
      rw [hv] at h
      cases h
      exact ⟨v, List.mem_cons_self, hv⟩
    | ok value =>
      rw [hv] at h
      cases hvs : vs.mapM (frame.read location) with
      | error fault' =>
        rw [hvs] at h
        cases h
        obtain ⟨w, hw, hf⟩ := mapM_read_error hvs
        exact ⟨w, List.mem_cons_of_mem _ hw, hf⟩
      | ok values => rw [hvs] at h; cases h

theorem mapM_read? (frame : Frame) (location : Location) (vs : List Var) :
    vs.mapM frame.read? = (vs.mapM (frame.read location)).toOption := by
  induction vs with
  | nil => rfl
  | cons v vs ih =>
    rw [List.mapM_cons, List.mapM_cons, ih]
    cases hv : frame.read location v with
    | error fault => rw [(read_error hv).1]; rfl
    | ok value =>
      rw [read_eq_ok_iff.1 hv]
      cases vs.mapM (frame.read location) <;> rfl

/-- Reading several variables gives their values. -/
theorem mapM_read_eq_ok_iff {frame : Frame} {location : Location} {vs : List Var} {values : List Value} :
    vs.mapM (frame.read location) = .ok values ↔ vs.mapM frame.read? = some values := by
  rw [mapM_read? frame location]
  cases vs.mapM (frame.read location) <;> simp [Except.toOption]

/-! ## Arguments -/

/-- Values of variables written one after the other. -/
def writeAll (frame : Frame) (ps : List (Var × Value)) : Frame :=
  ps.foldl (fun frame (v, value) => frame.write v value) frame

theorem ofArguments_eq (parameters : List Var) (arguments : List Value) :
    ofArguments parameters arguments = writeAll [] (parameters.zip arguments) := rfl

end Exprc.IR.Frame
