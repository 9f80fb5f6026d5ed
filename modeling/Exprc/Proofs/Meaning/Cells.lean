/-
Variables and the temporaries that they own. Block by block, the variables in scope at a stage of the
lowering are those of the evaluator, and each temporary holds the value of its variable. What the
evaluator does to a variable a write to its temporary does to the frame.
-/
import Exprc.Proofs.IR.Frame
import Exprc.Proofs.IR.Values
import Exprc.Proofs.Lowering.Module
import Exprc.Proofs.Meaning.Evaluator

namespace Exprc.Meaning

open Syntax IR Lowering

/-- A frame holds the value of a variable in its temporary. -/
structure Holds (frame : Frame) (l : Local) (cell : String × Value) : Prop where
  name : cell.1 = l.name
  read : frame.read? (.temp l.temp) = some cell.2
  ty : cell.2.ty = l.ty

/-- A frame holds the values of all variables in scope. -/
def Related (Δ : Locals) (env : Env) (frame : Frame) : Prop :=
  List.Forall₂ (List.Forall₂ (Holds frame)) Δ env

section

variable {Δ : Locals} {ls : List Local} {env : Env} {cells : List (String × Value)}
  {frame frame' : Frame} {x : String} {l : Local} {v : Value}

/-! ## Looking up -/

theorem lookup_cells (h : List.Forall₂ (Holds frame) ls cells) (x : String) :
    (∃ l v, ls.find? (·.name == x) = some l ∧ cells.lookup x = some v ∧ Holds frame l (x, v)) ∨
      (ls.find? (·.name == x) = none ∧ cells.lookup x = none) := by
  induction h with
  | nil => exact .inr ⟨rfl, rfl⟩
  | @cons l cell ls cells hl _ ih =>
    obtain ⟨y, v⟩ := cell
    obtain rfl : y = l.name := hl.name
    by_cases hx : l.name = x
    · subst hx
      exact .inl ⟨l, v, by simp, by simp, hl⟩
    · have h₁ : (l.name == x) = false := by simpa using hx
      have h₂ : (x == l.name) = false := by simpa using Ne.symm hx
      simpa only [List.find?_cons, List.lookup_cons, h₁, h₂] using ih

/-- The evaluator finds a variable where lowering finds its temporary. -/
theorem Related.find? (h : Related Δ env frame) (hl : Δ.find? x = some l) :
    ∃ v, env.find? x = some v ∧ frame.read? (.temp l.temp) = some v ∧ v.ty = l.ty := by
  induction h with
  | nil => cases hl
  | @cons ls cells Δ env hls _ ih =>
    rw [Locals.find?_cons] at hl
    rw [Stack.find?_cons]
    rcases lookup_cells hls x with ⟨l', v, hl', hv, hh⟩ | ⟨hn, hn'⟩
    · rw [hl'] at hl
      obtain rfl : l' = l := Option.some.inj hl
      exact ⟨v, by rw [hv]; rfl, hh.read, hh.ty⟩
    · rw [hn, Option.none_or] at hl
      rw [hn', Option.none_or]
      exact ih hl

/-! ## Frames that agree -/

theorem holds_congr (h : List.Forall₂ (Holds frame) ls cells)
    (hr : ∀ l ∈ ls, frame'.read? (.temp l.temp) = frame.read? (.temp l.temp)) :
    List.Forall₂ (Holds frame') ls cells := by
  induction h with
  | nil => exact .nil
  | cons hl _ ih =>
    rw [List.forall_mem_cons] at hr
    exact .cons ⟨hl.name, hr.1.trans hl.read, hl.ty⟩ (ih hr.2)

theorem Related.congr (h : Related Δ env frame)
    (hr : ∀ ls ∈ Δ, ∀ l ∈ ls, frame'.read? (.temp l.temp) = frame.read? (.temp l.temp)) :
    Related Δ env frame' := by
  induction h with
  | nil => exact .nil
  | cons hls _ ih =>
    rw [List.forall_mem_cons] at hr
    exact .cons (holds_congr hls hr.1) (ih hr.2)

theorem Related.tail (h : Related Δ env frame) : Related Δ.tail env.tail frame := by
  cases h with
  | nil => exact .nil
  | cons _ h => exact h

/-- A write to a temporary that no variable in scope owns changes no variable. -/
theorem Related.write (h : Related Δ env frame) {n : Nat} (hn : ∀ ls ∈ Δ, ∀ l ∈ ls, l.temp ≠ n)
    (v : Value) : Related Δ env (frame.write (.temp n) v) :=
  h.congr fun ls hls l hl =>
    Frame.read?_write_of_ne frame (fun he => hn ls hls l hl (Var.temp.inj he)) v

/-! ## Assigning and declaring -/

theorem holds_assignIn (h : List.Forall₂ (Holds frame) ls cells)
    (hl : ls.find? (·.name == x) = some l) (hn : (ls.map (·.temp)).Nodup) (hv : v.ty = l.ty) :
    List.Forall₂ (Holds (frame.write (.temp l.temp) v)) ls (Env.assignIn x v cells) := by
  induction h with
  | nil => cases hl
  | @cons l' cell ls cells hl' hls ih =>
    obtain ⟨y, old⟩ := cell
    obtain rfl : y = l'.name := hl'.name
    rw [List.map_cons, List.nodup_cons] at hn
    rw [List.find?_cons] at hl
    by_cases hx : l'.name = x
    · rw [beq_iff_eq.2 hx] at hl
      obtain rfl : l' = l := Option.some.inj hl
      rw [Env.assignIn, if_pos hx]
      refine .cons ⟨rfl, Frame.read?_write_temp .., hv⟩ (holds_congr hls fun k hk => ?_)
      exact Frame.read?_write_of_ne _
        (fun he => hn.1 (List.mem_map.2 ⟨k, hk, Var.temp.inj he⟩)) v
    · rw [beq_eq_false_iff_ne.2 hx] at hl
      have hmem := List.mem_of_find?_eq_some hl
      rw [Env.assignIn, if_neg hx]
      refine .cons ⟨rfl, ?_, hl'.ty⟩ (ih hl hn.2)
      rw [Frame.read?_write_of_ne _
        (fun he => hn.1 (List.mem_map.2 ⟨l, hmem, (Var.temp.inj he).symm⟩)) v]
      exact hl'.read

/-- Assigning to a variable is writing to its temporary. -/
theorem Related.assign (h : Related Δ env frame) (hl : Δ.find? x = some l)
    (hn : (Δ.flatten.map (·.temp)).Nodup) (hv : v.ty = l.ty) :
    Related Δ (env.assign x v) (frame.write (.temp l.temp) v) := by
  induction h with
  | nil => cases hl
  | @cons ls cells Δ env hls hΔ ih =>
    rw [List.flatten_cons, List.map_append, List.nodup_append] at hn
    rw [Locals.find?_cons] at hl
    rw [Env.assign]
    rcases lookup_cells hls x with ⟨l', old, hl', hold, -⟩ | ⟨hnone, hnone'⟩
    · rw [hl'] at hl
      obtain rfl : l' = l := Option.some.inj hl
      rw [if_pos (by rw [hold]; rfl)]
      refine .cons (holds_assignIn hls hl' hn.1 hv) (Related.write hΔ (fun ks hks k hk he => ?_) v)
      exact hn.2.2 _ (List.mem_map_of_mem (List.mem_of_find?_eq_some hl')) _
        (List.mem_map_of_mem (List.mem_flatten.2 ⟨ks, hks, hk⟩)) he.symm
    · rw [hnone, Option.none_or] at hl
      rw [if_neg (by rw [hnone']; exact Bool.false_ne_true)]
      obtain ⟨-, ks, hks, hmem⟩ := Locals.mem_of_find? hl
      refine .cons (holds_congr hls fun k hk => ?_) (ih hl hn.2.1)
      refine Frame.read?_write_of_ne _ (fun he => ?_) v
      exact hn.2.2 _ (List.mem_map_of_mem hk) _
        (List.mem_map_of_mem (List.mem_flatten.2 ⟨ks, hks, hmem⟩)) (Var.temp.inj he)

end

/-- A variable that is declared owns a temporary that no other variable has. -/
theorem Related.declare {s : Stage} {env : Env} {frame : Frame} (hs : s.WF)
    (h : Related s.locals env frame) (x : String) {τ : Ty} {v : Value} (hv : v.ty = τ) :
    Related (s.declare x τ).locals (env.declare x v) (frame.write (.temp s.nextTemp) v) := by
  have hw := h.write (fun ls hls l hl => Nat.ne_of_lt (hs.temp_lt hls hl)) v
  obtain ⟨ls, below, hd⟩ := List.exists_cons_of_ne_nil hs.isOpen
  have hnew : Holds (frame.write (.temp s.nextTemp) v) ⟨x, s.nextTemp, τ⟩ (x, v) :=
    ⟨rfl, Frame.read?_write_temp .., hv⟩
  rw [hd] at hw
  cases hw with
  | cons hls hΔ =>
    simp only [Stage.declare, hd, Locals.bind, Env.declare]
    exact .cons (.cons hnew hls) hΔ

end Exprc.Meaning
