/-
The layout of a source text never influences its program. Two texts that are parsed to the same tree, but for
places, are checked, lowered, made into assembly and run alike: every stage does the same without places, and
what it does then does not depend on the text any more.
-/
import Exprc.Proofs.Compiler
import Exprc.Proofs.Places.Checking
import Exprc.Proofs.Places.Generation
import Exprc.Proofs.Places.Lowering
import Exprc.Proofs.Places.Running
import Exprc.Proofs.Syntax.Written

namespace Exprc.Compiler

open Syntax Typing

variable {α β ε : Type}

/-! ## Attempts that end alike -/

/-- Two attempts have both succeeded, with results that are the same, or both failed, with errors of the same
kind and with the same message. -/
def SameOutcome (same : α → α → Prop) : Except Diagnostic α → Except Diagnostic α → Prop
  | .ok a, .ok b => same a b
  | .error d, .error e => d.kind = e.kind ∧ d.message = e.message
  | _, _ => False

theorem SameOutcome.mono {same same' : α → α → Prop} (h : ∀ a b, same a b → same' a b) :
    ∀ {x y : Except Diagnostic α}, SameOutcome same x y → SameOutcome same' x y
  | .ok a, .ok b, hxy => h a b hxy
  | .error _, .error _, hxy => hxy

/-- Faults that are the same without places. -/
theorem SameOutcome.error [Cause ε] {same : α → α → Prop} {f g : Fault ε} (h : f.unplaced = g.unplaced) :
    SameOutcome same (.error f.diagnostic) (.error g.diagnostic) := by
  have hcause : f.cause = g.cause := (Fault.mk.inj h).2
  exact ⟨congrArg Cause.kind hcause, congrArg Cause.message hcause⟩

/-- Runs that end alike: with the same value or with errors of the same kind and with the same message, with
the same output, the same input left and the same reports. -/
def SameExecution (x y : Execution) : Prop :=
  SameOutcome (· = ·) x.outcome y.outcome ∧ x.world = y.world ∧ x.reports = y.reports

/-- Work that ends alike and leaves the same reports, whatever reports there were before. -/
def SameWork (same : α → α → Prop) (x y : Work α) : Prop :=
  ∀ r, SameOutcome same (x.run r).1 (y.run r).1 ∧ (x.run r).2 = (y.run r).2

namespace SameWork

variable {R : α → α → Prop} {S : β → β → Prop} {x y : Work α}

theorem pure {a b : α} (h : R a b) : SameWork R (Pure.pure a) (Pure.pure b) := fun _ => ⟨h, rfl⟩

theorem report {rep rep' : Report} (h : rep = rep') :
    SameWork (fun _ _ => True) (report rep) (report rep') := by
  subst h
  exact fun _ => ⟨trivial, rfl⟩

theorem bind {next next' : α → Work β} (h : SameWork R x y)
    (hnext : ∀ a b, R a b → SameWork S (next a) (next' b)) :
    SameWork S (x >>= next) (y >>= next') := by
  intro r
  have hx : (x >>= next).run r = ExceptT.bindCont next (x.run r).1 (x.run r).2 := rfl
  have hy : (y >>= next').run r = ExceptT.bindCont next' (y.run r).1 (y.run r).2 := rfl
  obtain ⟨hsame, hreports⟩ := h r
  rw [hx, hy, ← hreports]
  revert hsame
  cases (x.run r).1 with
  | ok a =>
    cases (y.run r).1 with
    | ok b => exact fun hab => hnext a b hab _
    | error e => exact False.elim
  | error d =>
    cases (y.run r).1 with
    | ok b => exact False.elim
    | error e => exact fun hde => ⟨hde, rfl⟩

/-- What a stage gives if its results are the same without places. -/
theorem stage [Cause ε] {result result' : Except (Fault ε) α} {f : α → β}
    (h : (result.map f).mapError Fault.unplaced = (result'.map f).mapError Fault.unplaced) :
    SameWork (fun a b => f a = f b) (stage result) (stage result') := by
  intro r
  cases result with
  | ok a =>
    cases result' with
    | ok b => exact ⟨Except.ok.inj h, rfl⟩
    | error fault' => cases h
  | error fault =>
    cases result' with
    | ok b => cases h
    | error fault' => exact ⟨SameOutcome.error (Except.error.inj h), rfl⟩

end SameWork

/-! ## Stages -/

section

variable {s t : Source} {m n : Module} (hs : Parser.module.readSource s = .ok m)
  (ht : Parser.module.readSource t = .ok n) (h : m.unplaced = n.unplaced)

include hs ht h

theorem check_same : SameWork (fun m n => m.unplaced = n.unplaced) (check s) (check t) := by
  have hchecked : (checkModule m).unplaced Module.unplaced = (checkModule n).unplaced Module.unplaced := by
    rw [← checkModule_unplaced, ← checkModule_unplaced, h]
  have hparsed : m.functions.length = n.functions.length := by
    simpa [Module.unplaced] using congrArg (fun m => m.functions.length) h
  unfold check
  rw [hs, ht]
  refine .bind (R := fun a b => a = m ∧ b = n) (fun r => ⟨⟨rfl, rfl⟩, rfl⟩) ?_
  rintro _ _ ⟨rfl, rfl⟩
  refine .bind (.report (congrArg Report.parsed hparsed)) fun _ _ _ => ?_
  refine .bind (.stage (f := id) ?_) ?_
  · simp only [Except.map_id, id]
    exact congrArg Checked.outcome hchecked
  · rintro τ _ rfl
    exact .bind (.report rfl) fun _ _ _ => .pure (congrArg Checked.tree hchecked)

theorem lower_same : SameWork (fun M N => M.unplaced = N.unplaced) (lower s) (lower t) := by
  refine .bind (check_same hs ht h) fun a b hab => .bind (.stage (f := IR.Module.unplaced) ?_) ?_
  · rw [← lower_unplaced, ← lower_unplaced, hab]
  · intro M N hMN
    refine .bind (.report (congrArg Report.lowered ?_)) fun _ _ _ => .pure hMN
    rw [← M.size_unplaced, hMN, N.size_unplaced]

theorem generate_same (o : Assembly.Options) : SameWork (· = ·) (generate o s) (generate o t) := by
  refine .bind (lower_same hs ht h) fun M N hMN => .bind (.stage (f := id) ?_) ?_
  · simp only [Except.map_id, id]
    rw [← Assembly.generate_unplaced, ← Assembly.generate_unplaced, hMN]
  · rintro lines _ rfl
    exact .bind (.report rfl) fun _ _ _ => .pure rfl

theorem interpret_same (sink : IR.Sink) (input : List UInt8) (steps : Nat) :
    Option.Rel SameExecution (interpret? s sink input steps) (interpret? t sink input steps) := by
  obtain ⟨hsame, hreports⟩ := lower_same hs ht h []
  unfold interpret?
  generalize (lower s).run [] = x at hsame hreports
  generalize (lower t).run [] = y at hsame hreports
  obtain ⟨d | M, reports⟩ := x <;> obtain ⟨d' | N, reports'⟩ := y
  · exact .some ⟨hsame, rfl, hreports⟩
  · exact hsame.elim
  · exact hsame.elim
  · have hrun : (M.run? sink input steps).map (·.unplaced) = (N.run? sink input steps).map (·.unplaced) := by
      rw [← M.run?_unplaced, ← N.run?_unplaced, show M.unplaced = N.unplaced from hsame]
    obtain rfl : reports = reports' := hreports
    dsimp only
    cases hM : M.run? sink input steps with
    | none =>
      rw [hM, Option.map_none] at hrun
      rw [Option.map_eq_none_iff.1 hrun.symm]
      exact .none
    | some e =>
      rw [hM, Option.map_some] at hrun
      obtain ⟨e', he', hunplaced⟩ := Option.map_eq_some_iff.1 hrun.symm
      rw [he']
      obtain ⟨o, w⟩ := e
      obtain ⟨o', w'⟩ := e'
      obtain ⟨houtcome, rfl⟩ := IR.Ending.mk.inj hunplaced.symm
      cases o <;> cases o'
      · exact .some ⟨.error (Except.error.inj houtcome), rfl, rfl⟩
      · cases houtcome
      · cases houtcome
      · obtain rfl := Except.ok.inj houtcome
        exact .some ⟨rfl, rfl, rfl⟩

end

/-- The layout of a source text never influences its program: two texts that are parsed to modules that are
the same but for places and types are checked, lowered, made into assembly and run alike. -/
theorem layout_irrelevant {s t : Source} {m n : Module} (hs : Parser.module.readSource s = .ok m)
    (ht : Parser.module.readSource t = .ok n) (h : m.alike n = true) :
    SameWork (fun a b => a.body.ty? = b.body.ty? ∧ a.unplaced = b.unplaced) (check s) (check t) ∧
    SameWork (fun M N => M.unplaced = N.unplaced) (lower s) (lower t) ∧
    (∀ o, SameWork (· = ·) (generate o s) (generate o t)) ∧
    ∀ sink input steps,
      Option.Rel SameExecution (interpret? s sink input steps) (interpret? t sink input steps) := by
  have hfresh : ∀ {s : Source} {m : Module}, Parser.module.readSource s = .ok m → m.untyped = m :=
    fun h => Module.untyped_eq fun a ha => ((Parser.readSource_module h).1 a ha).1
  have hplaces : m.unplaced = n.unplaced := by
    rw [← hfresh hs, ← hfresh ht]
    exact Module.unplaced_eq_of_alike h
  refine ⟨fun r => ?_, lower_same hs ht hplaces, generate_same hs ht hplaces, interpret_same hs ht hplaces⟩
  obtain ⟨hsame, hreports⟩ := check_same hs ht hplaces r
  refine ⟨hsame.mono fun a b hab => ⟨?_, hab⟩, hreports⟩
  have hty : a.unplaced.body.ty? = b.unplaced.body.ty? := by rw [hab]
  simpa only [Module.unplaced, Expr.ty?, Expr.note_unplaced, Note.unplaced] using hty

theorem layout_irrelevant_lines :
    ∃ m n : Module, Parser.module.readSource ⟨"1 + 2", .memory⟩ = .ok m ∧
      Parser.module.readSource ⟨"(1 +\n2)", .memory⟩ = .ok n ∧
      m.subexpressions.map (·.location) ≠ n.subexpressions.map (·.location) ∧
      ∀ o, SameWork (· = ·) (generate o ⟨"1 + 2", .memory⟩) (generate o ⟨"(1 +\n2)", .memory⟩) := by
  obtain ⟨m, n, hm, hn, halike, hplaces⟩ :
      ∃ m n : Module, Parser.module.readSource ⟨"1 + 2", .memory⟩ = .ok m ∧
        Parser.module.readSource ⟨"(1 +\n2)", .memory⟩ = .ok n ∧ m.alike n = true ∧
        m.subexpressions.map (·.location) ≠ n.subexpressions.map (·.location) := by
    refine ⟨?m, ?n, ?hm, ?hn, ?halike, ?hplaces⟩
    case hm => cbv; rfl
    case hn => cbv; rfl
    case halike => rfl
    case hplaces => decide
  exact ⟨m, n, hm, hn, hplaces, (layout_irrelevant hm hn halike).2.2.1⟩

end Exprc.Compiler
