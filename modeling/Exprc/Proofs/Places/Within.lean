/-
Places that a text has. A token stands behind some of the characters of its text, and what stands behind it does not
begin with a line feed; where a text is not read, the same holds of the place that is blamed. So it holds of all
places in a tree that was read (`readSource_within`), and of the place of every lexical or syntactic error.
-/
import Exprc.Proofs.Syntax.Decomposition
import Exprc.Proofs.Syntax.Written

namespace Exprc

/-- Whether a place is that of a character of a text, but not of a line feed, or the beginning of the text or its
end. -/
def Location.Within (cs : List Char) (l : Location) : Prop :=
  ∃ pre post, cs = pre ++ post ∧ l = .behind pre ∧ (pre = [] ∨ post.head? ≠ some '\n')

namespace Location

variable {cs pre post : List Char}

theorem within_start (cs : List Char) : Within cs .start := ⟨[], cs, rfl, rfl, .inl rfl⟩

theorem within_end (cs : List Char) : Within cs (.behind cs) := ⟨cs, [], (List.append_nil cs).symm, rfl, .inr nofun⟩

theorem within_behind {c : Char} (h : c ≠ '\n') (pre post : List Char) : Within (pre ++ c :: post) (.behind pre) :=
  ⟨pre, c :: post, rfl, rfl, .inr fun he => h (Option.some.inj he)⟩

end Location

namespace Syntax

variable {P : Location → Prop}

/-! ## Tokens -/

theorem Token.Lexed.head_ne {t : Token} (h : t.Lexed) : ∃ c cs, t.text.toList = c :: cs ∧ c ≠ '\n' := by
  unfold Token.Lexed at h
  cases htext : t.text.toList with
  | nil =>
    rw [htext] at h
    cases h
  | cons c cs =>
    refine ⟨c, cs, rfl, ?_⟩
    rintro rfl
    rw [htext] at h
    cases h

/-- A line feed is a blank. -/
theorem Stray.head_ne {c : Char} {cs : List Char} (h : Stray (c :: cs)) : c ≠ '\n' := by
  rintro rfl
  exact h.2 ['\n'] cs (.blank rfl) rfl

theorem Decomposed.within {rest before cs : List Char} {ts : List Token} (h : Decomposed rest before ts cs) :
    ∀ t ∈ ts, t.location.Within (before ++ cs ++ rest) := by
  induction h with
  | gap => exact nofun
  | @token before gap more t ts _ hlocation hlexed _ _ ih =>
    obtain ⟨c, cs, htext, hc⟩ := hlexed.head_ne
    refine List.forall_mem_cons.2 ⟨?_, ?_⟩
    · -- the token begins with a character that is not a line feed
      rw [hlocation, htext]
      have hwithin := Location.within_behind hc (before ++ gap) (cs ++ more ++ rest)
      simpa only [List.append_assoc, List.cons_append] using hwithin
    · simpa only [List.append_assoc] using ih

theorem Refused.within {text rest : List Char} {fault : Fault LexError} (h : Refused (.behind text) rest fault) :
    ∀ l ∈ fault.location?, l.Within (text ++ rest) := by
  cases h with
  | unclosed =>
    rintro _ ⟨⟩
    exact Location.within_behind (by decide) _ _
  | stray hstray =>
    rintro _ ⟨⟩
    exact Location.within_behind hstray.head_ne _ _

/-- Whether a token stands at a place of a text. -/
def Token.Placed (cs : List Char) (t : Token) : Prop := t.location.Within cs

theorem Token.placed_lasting (cs : List Char) : Token.Lasting (Token.Placed cs) :=
  ⟨fun h => h, Location.within_start cs⟩

/-- The tokens of a text stand at places of it. -/
theorem tokenize_placed {source : Source} {ts : List Token} (h : tokenize source = .ok ts) :
    ∀ t ∈ ts, t.Placed source.chars := by
  have hall := tokenize_decomposes source
  rw [h] at hall
  obtain ⟨ts, rfl, hts⟩ := hall
  refine List.forall_mem_append.2 ⟨?_, List.forall_mem_singleton.2 (Location.within_end _)⟩
  simpa [Token.Placed] using hts.within

/-- What is not read is blamed on a place of the text. -/
theorem tokenize_blames {source : Source} {fault : Fault LexError} (h : tokenize source = .error fault) :
    ∀ l ∈ fault.location?, l.Within source.chars := by
  have hall := tokenize_decomposes source
  rw [h] at hall
  obtain ⟨ts, text, rest, hchars, -, hrefused⟩ := hall
  rw [hchars]
  exact hrefused.within

/-! ## Trees -/

/-- Whether the places in a tree that can be blamed are of a kind: those of its expressions, and of the names that are
declared in it. -/
def Expr.Within (P : Location → Prop) (e : Expr) : Prop :=
  ∀ a ∈ e.subexpressions, P a.location ∧ ∀ x ∈ a.declared?, P x.location

/-- Whether the places in trees that can be blamed are of a kind. -/
def Expr.AllWithin (P : Location → Prop) (es : List Expr) : Prop :=
  ∀ a ∈ allSubexpressions es, P a.location ∧ ∀ x ∈ a.declared?, P x.location

/-- Whether the places in a definition that can be blamed are of a kind. -/
structure FunctionDefinition.Within (P : Location → Prop) (f : FunctionDefinition) : Prop where
  name : P f.name.location
  parameters : ∀ p ∈ f.parameters, P p.name.location
  body : f.body.Within P

/-- Whether the places in a module that can be blamed are of a kind. -/
structure Module.Within (P : Location → Prop) (m : Module) : Prop where
  functions : ∀ f ∈ m.functions, f.Within P
  body : m.body.Within P

theorem Expr.Within.location {e : Expr} (h : e.Within P) : P e.location := (h e e.self_mem_subexpressions).1

theorem Expr.within_untyped {e : Expr} : e.untyped.Within P ↔ e.Within P := by
  unfold Within
  rw [subexpressions_untyped, List.forall_mem_map]
  simp only [location_untyped, declared?_untyped]

theorem FunctionDefinition.within_untyped {f : FunctionDefinition} : f.untyped.Within P ↔ f.Within P :=
  ⟨fun h => ⟨h.name, h.parameters, Expr.within_untyped.1 h.body⟩,
    fun h => ⟨h.name, h.parameters, Expr.within_untyped.2 h.body⟩⟩

theorem Module.within_untyped {m : Module} : m.untyped.Within P ↔ m.Within P := by
  have hfunctions : (∀ f ∈ m.untyped.functions, f.Within P) ↔ ∀ f ∈ m.functions, f.Within P := by
    rw [untyped, List.forall_mem_map]
    exact forall₂_congr fun _ _ => FunctionDefinition.within_untyped
  exact ⟨fun h => ⟨hfunctions.1 h.functions, Expr.within_untyped.1 h.body⟩,
    fun h => ⟨hfunctions.2 h.functions, Expr.within_untyped.2 h.body⟩⟩

/-! ## Whole texts -/

section

variable {cs : List Char}

theorem IsPlace.within {l : Location} (h : IsPlace (Token.Placed cs) l) : l.Within cs := by
  obtain ⟨t, ht, rfl⟩ := h
  exact ht

theorem Name.From.within {x : Name} (h : x.From (Token.Placed cs)) : x.location.Within cs := by
  obtain ⟨t, ht, -, rfl⟩ := h
  exact ht

theorem Expr.AsWritten.within {e : Expr} (h : e.AsWritten (Token.Placed cs)) : e.Within (Location.Within cs) :=
  fun a ha => ⟨(h a ha).location.within, fun x hx => ((h a ha).declared x hx).within⟩

theorem Module.AsWritten.within {m : Module} (h : m.AsWritten (Token.Placed cs)) : m.Within (Location.Within cs) where
  functions f hf :=
    ⟨(h.functions f hf).name.within, fun p hp => ((h.functions f hf).parameters p hp).within,
      (h.functions f hf).body.within⟩
  body := h.body.within

end

namespace Parser

/-- All places in a module that was read from a text are places of it. -/
theorem readSource_within {source : Source} {m : Module} (h : module.readSource source = .ok m) :
    m.Within (Location.Within source.chars) := by
  obtain ⟨tokens, htokens⟩ := tokenize_of_readSource h
  have hyields := readSource_yields module_yields (Token.placed_lasting source.chars) htokens (tokenize_placed htokens)
  exact (hyields.1 m h).within

/-- Where a module cannot be read, a place of the text is blamed. -/
theorem readSource_blames {source : Source} {d : Diagnostic} (h : module.readSource source = .error d) :
    ∀ l ∈ d.location?, l.Within source.chars := by
  cases htokens : tokenize source with
  | error fault =>
    unfold readSource at h
    rw [htokens] at h
    cases h
    exact tokenize_blames htokens
  | ok tokens =>
    have hyields :=
      readSource_yields module_yields (Token.placed_lasting source.chars) htokens (tokenize_placed htokens)
    exact fun l hl => (hyields.2 d h l hl).within

end Parser

end Syntax

end Exprc
