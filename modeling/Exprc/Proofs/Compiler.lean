/-
What the compiler has done when it succeeds. A source text that lowers was parsed, its check
succeeded, and the lowered module is that of the checked tree.
-/
import Exprc.Compiler
import Mathlib

namespace Exprc.Compiler

open Typing

section Work

variable {α β ε : Type} {r r' : List Report}

theorem bind_ok {x : Work α} {next : α → Work β} {b : β}
    (h : (x >>= next).run r = (.ok b, r')) :
    ∃ a r₁, x.run r = (.ok a, r₁) ∧ (next a).run r₁ = (.ok b, r') := by
  rw [ExceptT.run_bind] at h
  change StateT.bind x.run _ r = _ at h
  unfold StateT.bind at h
  cases hx : x.run r with
  | mk o r₁ =>
    simp only [hx] at h
    cases o with
    | ok a => exact ⟨a, r₁, rfl, h⟩
    | error d => cases h

theorem run_bind {x : Work α} {a : α} (h : x.run r = (.ok a, r')) (next : α → Work β) :
    (x >>= next).run r = (next a).run r' := by
  rw [ExceptT.run_bind]
  change StateT.bind x.run _ r = _
  unfold StateT.bind
  rw [h]
  rfl

theorem bind_error {x : Work α} {next : α → Work β} {d : Diagnostic}
    (h : (x >>= next).run r = (.error d, r')) :
    x.run r = (.error d, r') ∨ ∃ a r₁, x.run r = (.ok a, r₁) ∧ (next a).run r₁ = (.error d, r') := by
  rw [ExceptT.run_bind] at h
  change StateT.bind x.run _ r = _ at h
  unfold StateT.bind at h
  cases hx : x.run r with
  | mk o r₁ =>
    simp only [hx] at h
    cases o with
    | ok a => exact .inr ⟨a, r₁, rfl, h⟩
    | error d =>
      cases h
      exact .inl rfl

theorem stage_ok [Cause ε] {result : Except (Fault ε) α} {a : α}
    (h : (stage result).run r = (.ok a, r')) : result = .ok a ∧ r' = r := by
  cases result with
  | ok b => cases h; exact ⟨rfl, rfl⟩
  | error fault => cases h

theorem stage_error [Cause ε] {result : Except (Fault ε) α} {d : Diagnostic}
    (h : (stage result).run r = (.error d, r')) : ∃ fault, result = .error fault ∧ d = fault.diagnostic := by
  cases result with
  | ok b => cases h
  | error fault => cases h; exact ⟨fault, rfl, rfl⟩

theorem report_ok {rep : Report} {u : Unit} (h : (report rep).run r = (.ok u, r')) :
    r' = r ++ [rep] := by
  cases h; rfl

end Work

/-- A source text that the compiler accepts. -/
theorem check_ok {source : Source} {tree : Syntax.Module} {r r' : List Report}
    (h : (check source).run r = (.ok tree, r')) :
    ∃ m τ, Syntax.Parser.module.readSource source = .ok m ∧ (checkModule m).outcome = .ok τ ∧
      tree = (checkModule m).tree ∧
      r' = r ++ [.parsed m.functions.length, .checked τ] := by
  unfold check at h
  obtain ⟨m, r₁, hm, h⟩ := bind_ok h
  obtain ⟨_, r₂, hr₂, h⟩ := bind_ok h
  obtain ⟨τ, r₃, hr₃, h⟩ := bind_ok h
  obtain ⟨_, r₄, hr₄, h⟩ := bind_ok h
  obtain ⟨hτ, rfl⟩ := stage_ok hr₃
  obtain rfl := report_ok hr₂
  obtain rfl := report_ok hr₄
  cases h
  obtain ⟨hp, rfl⟩ := Prod.mk.inj hm
  exact ⟨m, τ, hp, hτ, rfl, by simp⟩

/-- A source text that the compiler lowers. -/
theorem lower_ok {source : Source} {M : IR.Module} {reports : List Report}
    (h : (lower source).run [] = (.ok M, reports)) :
    ∃ m τ, Syntax.Parser.module.readSource source = .ok m ∧ (checkModule m).outcome = .ok τ ∧
      Exprc.lower (checkModule m).tree = .ok M ∧
      reports = [.parsed m.functions.length, .checked τ, .lowered M.size] := by
  unfold lower at h
  obtain ⟨tree, r₁, htree, h⟩ := bind_ok h
  obtain ⟨m, τ, hm, hτ, rfl, rfl⟩ := check_ok htree
  obtain ⟨M', r₂, hr₂, h⟩ := bind_ok h
  obtain ⟨_, r₃, hr₃, h⟩ := bind_ok h
  obtain ⟨hM, rfl⟩ := stage_ok hr₂
  obtain rfl := report_ok hr₃
  cases h
  exact ⟨m, τ, hm, hτ, hM, by simp⟩

end Exprc.Compiler
