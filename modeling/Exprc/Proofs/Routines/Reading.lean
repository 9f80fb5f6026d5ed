/-
Reading an integer. The routine goes through a line as a reader does: a line that a reader takes, and finds digits
in, makes it return, and any other line makes it end the program. So it reads what a run reads, with two
exceptions. Only spaces, tabs and line ends are blanks for the routine, and a number that does not fit into a
register is not refused: it is cut off.
-/
import Exprc.Proofs.Routines.Scanning

namespace Exprc.Assembly.Routines

open IR Text

section

variable (env : Platform) (console : Console) {allowed : Memory → Prop} {c₀ c : Cpu} {r : Reader}

/-! ## Lines -/

/-- The routine comes to the end of the line if a reader could take the whole of it, and otherwise the line is no
integer. Whether the number has ended makes no difference any more. -/
def Ends (env : Platform) (c₀ : Cpu) (s : Session) (console : Console) : Option Reader → Prop
  | some r => ∃ c ended, Leads env (Kept c₀ 56) s ⟨c, done, console⟩ ∧ Reading c₀ c { r with ended }
  | none => ∃ c console, Leads env (Kept c₀ 56) s ⟨c, invalid, console⟩

/-- A line is read as a reader reads it. -/
theorem line_ends (h : Reading c₀ c r) (hroom : 56 ≤ (c₀.reg .rsp).toNat)
    (hlength : r.digits.length + (splitLine console.input).1.length < 2 ^ 64) :
    Ends env c₀ ⟨c, next, console⟩ { console with input := (splitLine console.input).2 }
      (r.takeAll? ((splitLine console.input).1.map UInt8.toChar)) := by
  -- on the input, with what was read before as the invariant
  induction hinput : console.input generalizing c r console with
  | nil =>
    obtain ⟨c', hleads, hreading⟩ := end_leads env console h hinput
    obtain ⟨input, writes⟩ := console
    obtain rfl : input = [] := hinput
    exact ⟨c', r.ended, hleads, hreading⟩
  | cons b bs ih =>
    by_cases hb : b = 10
    · subst hb
      obtain ⟨c', hleads, hreading⟩ := lineFeed_leads env console h hroom hinput
      exact ⟨c', r.ended, hleads, hreading⟩
    · have hline : splitLine (b :: bs) = (b :: (splitLine bs).1, (splitLine bs).2) := if_neg hb
      rw [hinput, hline, List.length_cons] at hlength
      have hgoes := next_goes env console h hroom (by omega) hinput hb
      rw [hline, List.map_cons, Reader.takeAll?_cons]
      cases htake : r.take? b.toChar with
      | none =>
        rw [htake] at hgoes
        obtain ⟨c', hleads⟩ := hgoes
        exact ⟨c', _, hleads⟩
      | some r' =>
        rw [htake] at hgoes
        obtain ⟨c', hleads, hreading⟩ := hgoes
        have hlonger := Reader.length_of_take? htake
        have hrest := ih { console with input := bs } hreading (by dsimp only; omega) rfl
        cases hall : r'.takeAll? ((splitLine bs).1.map UInt8.toChar) with
        | none =>
          rw [hall] at hrest
          obtain ⟨c'', console', hinvalid⟩ := hrest
          rw [Option.bind_some, hall]
          exact ⟨c'', console', hleads.trans hinvalid⟩
        | some r'' =>
          rw [hall] at hrest
          obtain ⟨c'', ended, hdone, hreading'⟩ := hrest
          rw [Option.bind_some, hall]
          exact ⟨c'', ended, hleads.trans hdone, hreading'⟩

/-! ## Ends -/

/-- The routine begins with nothing read. -/
theorem start_reads (c : Cpu) (hroom : 56 ≤ (c.reg .rsp).toNat) :
    ∃ c', Leads env (Kept c 56) ⟨c, entry, console⟩ ⟨c', next, console⟩ ∧ Reading c c' {} := by
  let based := (c.push (c.reg .rbp)).set .rbp (c.reg .rsp - 8)
  let framed : Cpu := { based.set .rsp (c.reg .rsp - 8 - 16) with flags := .ofDifference (c.reg .rsp - 8) 16 }
  let saved₁ := framed.push (c.reg .rbx)
  let saved₂ := saved₁.push (c.reg .r12)
  let saved₃ := saved₂.push (c.reg .r13)
  let saved₄ := saved₃.push (c.reg .r14)
  let cleared₁ := saved₄.set .rbx (c.reg .rbx ^^^ c.reg .rbx)
  let cleared₂ := cleared₁.set .r12 (c.reg .r12 ^^^ c.reg .r12)
  let cleared₃ := cleared₂.set .r13 (c.reg .r13 ^^^ c.reg .r13)
  let cleared₄ : Cpu := { cleared₃.set .r14 (c.reg .r14 ^^^ c.reg .r14) with
    flags := .ofResult (c.reg .r14 ^^^ c.reg .r14) false false }
  have hnothing : Saved c c 0 [] := ⟨(BitVec.sub_zero _).symm, nofun, .refl⟩
  have hbased : Saved c (c.push (c.reg .rbp)) 8 [(8, .rbp)] := hnothing.push (q := .rbp) hroom (by decide) nofun rfl
  have hframed : Saved c framed 24 [(8, .rbp)] := by
    refine ⟨?_, hbased.saved, hbased.memory⟩
    show c.reg .rsp - 8 - 16 = _
    bv_omega
  have hsaved₁ : Saved c saved₁ 32 _ := hframed.push (q := .rbx) hroom (by decide) (by decide) rfl
  have hsaved₂ : Saved c saved₂ 40 _ := hsaved₁.push (q := .r12) hroom (by decide) (by decide) rfl
  have hsaved₃ : Saved c saved₃ 48 _ := hsaved₂.push (q := .r13) hroom (by decide) (by decide) rfl
  have hsaved₄ : Saved c saved₄ 56 saves := hsaved₃.push (q := .r14) hroom (by decide) (by decide) rfl
  refine ⟨cleared₄, ?_, ?_⟩
  · exact .step .refl rfl (.step hbased.memory rfl (.step hbased.memory rfl (.step hbased.memory rfl
      (.step hsaved₁.memory rfl (.step hsaved₂.memory rfl (.step hsaved₃.memory rfl (.step hsaved₄.memory rfl
      (.step hsaved₄.memory rfl (.step hsaved₄.memory rfl (.single hsaved₄.memory hsaved₄.memory rfl))))))))))
  · exact
      { rsp := hsaved₄.rsp
        saved := hsaved₄.saved
        memory := hsaved₄.memory
        rbp := rfl
        rbx := BitVec.xor_self
        r12 := BitVec.xor_self
        r13 := BitVec.xor_self
        r14 := BitVec.xor_self }

/-- The number of digits is tested for zero. -/
theorem count_leads (h : Reading c₀ c r) (hlength : r.digits.length < 2 ^ 64) :
    ∃ flags, Leads env (Kept c₀ 56) ⟨c, done, console⟩
      ⟨{ c with flags }, if r.digits = [] then invalid else result, console⟩ := by
  refine Leads.test env c done invalid console rfl rfl find?_invalid ?_ h.memory
  rw [holds?_test_zero]
  exact congrArg some (decide_eq_decide.2 (h.r13_eq_zero hlength))

/-- The number gets its sign. -/
theorem result_leads (h : Reading c₀ c r) :
    ∃ c', Leads env (Kept c₀ 56) ⟨c, result, console⟩ ⟨c', exit, console⟩ ∧ Reading c₀ c' r ∧
      c'.reg .rax = .ofInt 64 r.number := by
  let compared : Cpu := { c.set .rax (c.reg .rbx) with flags := .ofDifference (c.reg .r12) 1 }
  have hminus : (c.reg .r12 = 1) ↔ r.sign = some '-' := by
    rw [h.r12]
    exact signCode_eq_one
  have hjump := Session.step_jumpIf env ⟨compared, 102, console⟩ exit rfl rfl
    (Flags.holds?_notEqual (c.reg .r12) 1)
  have hrbx : c.reg .rbx = .ofInt 64 (Nat.ofDigitChars 10 r.digits 0 : Int) := by
    rw [h.rbx, BitVec.ofInt_natCast]
  by_cases hsign : r.sign = some '-'
  · rw [decide_eq_false (not_not.2 (hminus.2 hsign))] at hjump
    let negated : Cpu := { compared.set .rax (-c.reg .rbx) with flags := .ofDifference 0 (c.reg .rbx) }
    refine ⟨negated, ?_, h.congr rfl fun q hq => by fin_cases hq <;> rfl, ?_⟩
    · exact .step h.memory rfl (.step h.memory rfl (.step h.memory hjump (.single h.memory h.memory rfl)))
    · show -c.reg .rbx = _
      rw [hrbx, Reader.number, numberOf, if_pos hsign, BitVec.ofInt_neg]
  · rw [decide_eq_true (hminus.not.2 hsign)] at hjump
    refine ⟨compared, ?_, h.congr rfl fun q hq => by fin_cases hq <;> rfl, ?_⟩
    · exact .step h.memory rfl (.step h.memory rfl (.single h.memory h.memory hjump))
    · show c.reg .rbx = _
      rw [hrbx, Reader.number, numberOf, if_neg hsign]

/-- The saved registers are restored, and the routine returns. -/
theorem exit_leads (h : Reading c₀ c r) (hroom : 56 ≤ (c₀.reg .rsp).toNat) :
    ∃ s c', Leads env (Kept c₀ 56) ⟨c, exit, console⟩ s ∧ Leaves env 56 c₀ s c' console ∧
      c'.reg .rax = c.reg .rax := by
  let popped₁ := c.pop.2.set .r14 (c.memory.word (c.reg .rsp).toNat)
  let popped₂ := popped₁.pop.2.set .r13 (c.memory.word (c.reg .rsp + 8).toNat)
  let popped₃ := popped₂.pop.2.set .r12 (c.memory.word (c.reg .rsp + 8 + 8).toNat)
  let popped₄ := popped₃.pop.2.set .rbx (c.memory.word (c.reg .rsp + 8 + 8 + 8).toNat)
  let based := popped₄.set .rsp (c.reg .rbp)
  let popped₅ := based.pop.2.set .rbp (c.memory.word (c.reg .rbp).toNat)
  have hleads : Leads env (Kept c₀ 56) ⟨c, exit, console⟩ ⟨popped₅, 110, console⟩ :=
    .step h.memory rfl (.step h.memory rfl (.step h.memory rfl (.step h.memory rfl (.step h.memory rfl
      (.single h.memory h.memory rfl)))))
  have hrsp := h.rsp
  have hreturn : c.reg .rbp + 8 = c₀.reg .rsp := by
    rw [h.rbp, BitVec.sub_add_cancel]
  -- each word is popped from where its register was saved
  have hpopped (below : Nat) {q : Reg} {w : Word} (hp : (below, q) ∈ saves)
      (hw : w = c₀.reg .rsp - .ofNat 64 below) (hbelow : below ≤ 56) : c.memory.word w.toNat = c₀.reg q := by
    rw [hw, toNat_sub_ofNat (by omega)]
    exact h.saved (below, q) hp
  refine ⟨_, popped₅.pop.2, hleads, ⟨?_, ?_, fun q hq => ?_, h.memory⟩, rfl⟩
  · show Status.returned (c.memory.word (c.reg .rbp + 8).toNat) popped₅.pop.2 console = _
    rw [hreturn, h.memory.word]
  · show c.reg .rbp + 8 + 8 = _
    rw [hreturn]
  · fin_cases hq
    · exact hpopped 32 (by decide) (by rw [hrsp]; bv_omega) (by decide)
    · exact hpopped 8 (by decide) h.rbp (by decide)
    · exact hpopped 40 (by decide) (by rw [hrsp]; bv_omega) (by decide)
    · exact hpopped 48 (by decide) (by rw [hrsp]; bv_omega) (by decide)
    · exact hpopped 56 (by decide) hrsp (by decide)

/-- A line that is no integer ends the program. -/
theorem invalid_leads (hc : allowed c.memory) :
    ∃ s console', Leads env allowed ⟨c, invalid, console⟩ s ∧ s.step env = .exited 1 console' := by
  obtain ⟨text, htext⟩ : ∃ text, env.names (.plain "read_int_error") = some text := ⟨_, rfl⟩
  obtain ⟨length, hlength⟩ : ∃ length, env.names (.plain "read_int_error_len") = some length := ⟨_, rfl⟩
  let aimed := ((c.set .rax 1).set .rdi 2).set .rsi text
  let asked := aimed.set .rdx (length.setWidth 64)
  have haim : ((c.set .rax 1).set .rdi 2).exec env.names (.binary .lea (.reg .rsi) (.data (.plain "read_int_error"))) =
      some aimed := by
    simp only [Cpu.exec, Cpu.execBinary, Cpu.address?, htext]
    rfl
  have hask : aimed.exec env.names (.binary .mov (.reg .rdx) (.constant (.plain "read_int_error_len"))) =
      some asked := by
    have hwidth : (Operand.reg .rdx).commonWidth? (.constant (.plain "read_int_error_len")) = some .qword := rfl
    simp only [Cpu.exec, Cpu.execBinary, hwidth, Cpu.read?, hlength]
    rfl
  have hwrite := Session.step_write env ⟨asked, 115, console⟩ rfl rfl rfl
  have hleads : Leads env allowed ⟨c, invalid, console⟩ ⟨asked, 115, console⟩ :=
    .step hc rfl (.step hc rfl (.step hc (Session.step_exec rfl haim) (.single hc hc (Session.step_exec rfl hask))))
  exact ⟨_, _, hleads.trans (.step hc hwrite (.step hc rfl (.single hc hc rfl))), Session.step_exit rfl rfl⟩

/-! ## Reading -/

/-- From a line that holds an integer between spaces, tabs and line ends the routine reads that integer, as far as
it goes into a register. -/
theorem readInt_returns (c : Cpu) (hroom : 56 ≤ (c.reg .rsp).toNat)
    (hlength : (splitLine console.input).1.length < 2 ^ 64) {n : Int}
    (hline : HoldsInteger Char.isWhitespace (splitLine console.input).1 n) :
    ∃ c', Returns env "read_int" 56 c console c' { console with input := (splitLine console.input).2 } ∧
      c'.reg .rax = .ofInt 64 n := by
  obtain ⟨r, htake, hdigits, rfl⟩ := holdsInteger_iff.1 hline
  have hcount : r.digits.length < 2 ^ 64 := by
    have hle := (Reader.takeAll?_eq_some.1 htake).length_le
    rw [List.length_map] at hle
    exact Nat.lt_of_le_of_lt hle hlength
  let console' : Console := { console with input := (splitLine console.input).2 }
  obtain ⟨c₁, hstart, hreading⟩ := start_reads env console c hroom
  have hends := line_ends env console hreading hroom (by simpa using hlength)
  rw [htake] at hends
  obtain ⟨c₂, ended, hline, hreading⟩ := hends
  obtain ⟨flags, hcounted⟩ := count_leads env console' hreading hcount
  rw [if_neg hdigits] at hcounted
  have hreading : Reading c { c₂ with flags } { r with ended } := hreading.congr rfl fun _ _ => rfl
  obtain ⟨c₃, hresult, hreading, hrax⟩ := result_leads env console' hreading
  obtain ⟨s, c', hexit, hleaves, hrax'⟩ := exit_leads env console' hreading hroom
  have hleads := hstart.trans (hline.trans (hcounted.trans (hresult.trans hexit)))
  exact ⟨c', hleads.returns rfl hleaves, hrax'.trans hrax⟩

/-- Any other line ends the program. -/
theorem readInt_exits (c : Cpu) (hroom : 56 ≤ (c.reg .rsp).toNat)
    (hlength : (splitLine console.input).1.length < 2 ^ 64)
    (hline : ∀ n, ¬HoldsInteger Char.isWhitespace (splitLine console.input).1 n) :
    Exits env "read_int" c console 1 := by
  let console' : Console := { console with input := (splitLine console.input).2 }
  obtain ⟨c₁, hstart, hreading⟩ := start_reads env console c hroom
  have hends := line_ends env console hreading hroom (by simpa using hlength)
  obtain ⟨c₂, console₂, hinvalid⟩ :
      ∃ c₂ console₂, Leads env (Kept c 56) ⟨c₁, next, console⟩ ⟨c₂, invalid, console₂⟩ := by
    cases htake : ({} : Reader).takeAll? ((splitLine console.input).1.map UInt8.toChar) with
    | none =>
      rw [htake] at hends
      exact hends
    | some r =>
      -- the whole line was taken, so it lacks digits
      have hdigits : r.digits = [] := by
        by_contra hdigits
        exact hline r.number (holdsInteger_iff.2 ⟨r, htake, hdigits, rfl⟩)
      rw [htake] at hends
      obtain ⟨c₂, ended, hdone, hreading⟩ := hends
      obtain ⟨flags, hcounted⟩ := count_leads env console' hreading (by rw [hdigits]; decide)
      rw [if_pos hdigits] at hcounted
      exact ⟨_, _, hdone.trans hcounted⟩
  obtain ⟨s, console₃, hexit, hstep⟩ := invalid_leads env console₂ hinvalid.last
  exact (hstart.trans (hinvalid.trans hexit)).exits rfl hstep

/-! ## The routine and a run -/

/-- The routine takes the line that a run takes. Where a run reads an integer between spaces, tabs and line ends, the
routine returns the same integer, and where a line holds no integer at all, it ends the program. There are two
exceptions: the routine ends the program if there are other blanks, and it returns the low bits of an integer that
does not fit. -/
theorem readInt_agrees (c : Cpu) (w : World) (writes : List Write) (hroom : 56 ≤ (c.reg .rsp).toNat)
    (hlength : (splitLine w.input).1.length < 2 ^ 64) :
    (∀ value, w.readInt.1 = .ok value →
      (BlanksAre Char.isWhitespace (splitLine w.input).1 →
        ∃ c', Returns env "read_int" 56 c ⟨w.input, writes⟩ c' ⟨w.readInt.2.input, writes⟩ ∧
          c'.reg .rax = value.toBitVec) ∧
      (¬BlanksAre Char.isWhitespace (splitLine w.input).1 → Exits env "read_int" c ⟨w.input, writes⟩ 1)) ∧
    ∀ e, w.readInt.1 = .error e →
      (∀ n, HoldsInteger Char.isWhitespace (splitLine w.input).1 n → fit? n = none ∧
        ∃ c', Returns env "read_int" 56 c ⟨w.input, writes⟩ c' ⟨w.readInt.2.input, writes⟩ ∧
          c'.reg .rax = .ofInt 64 n) ∧
      ((∀ n, ¬HoldsInteger Char.isWhitespace (splitLine w.input).1 n) →
        Exits env "read_int" c ⟨w.input, writes⟩ 1) := by
  have hreturns {n : Int} (hn : HoldsInteger Char.isWhitespace (splitLine w.input).1 n) :=
    readInt_returns env ⟨w.input, writes⟩ c hroom hlength hn
  have hexits := readInt_exits env ⟨w.input, writes⟩ c hroom hlength
  refine ⟨fun value hvalue => ?_, fun e he => ⟨fun n hn => ⟨?_, hreturns hn⟩, hexits⟩⟩
  · obtain ⟨n, hn, hfit⟩ := integerOfLine_eq_ok.1 hvalue
    refine ⟨fun hblanks => ?_, fun hblanks => hexits fun n' hn' => hblanks hn'.blanksAre⟩
    obtain ⟨c', hreturn, hrax⟩ := hreturns (hn.of_blanksAre hblanks)
    refine ⟨c', hreturn, ?_⟩
    rw [hrax, ← toInt_of_fit? hfit]
    exact BitVec.ofInt_toInt
  · -- if the integer had fitted, the run would have read it
    by_contra hfit
    obtain ⟨value, hvalue⟩ := Option.ne_none_iff_exists'.1 hfit
    have hok := integerOfLine_eq_ok.2 ⟨n, hn.mono fun _ => isBlank_of_isWhitespace, hvalue⟩
    cases hok.symm.trans he

/-- The integer 7 between blanks, and another line behind it. -/
theorem readInt_agrees_seven :
    ∃ c', Returns default "read_int" 56 (caller 0) ⟨encodeUtf8 " \t+7 \r\n-2\n", []⟩ c' ⟨encodeUtf8 "-2\n", []⟩ ∧
      c'.reg .rax = 7 := by
  let w : World := { input := encodeUtf8 " \t+7 \r\n-2\n" }
  have hline : (splitLine w.input).1 = encodeUtf8 " \t+7 \r\n" := by cbv
  have hread : w.readInt = (.ok 7, { input := encodeUtf8 "-2\n" }) := by cbv
  have hlength : (splitLine w.input).1.length < 2 ^ 64 := by
    rw [hline]
    decide
  have hholds : HoldsInteger Char.isWhitespace (splitLine w.input).1 7 := by
    rw [hline]
    exact holdsInteger_iff.2 ⟨⟨some '+', ['7'], true⟩, by cbv, by decide, by decide⟩
  have hagrees := readInt_agrees default (caller 0) w [] (by decide) hlength
  rw [hread] at hagrees
  exact (hagrees.1 7 rfl).1 hholds.blanksAre

/-- A line with the number 2^63. -/
def tooLarge : List UInt8 := encodeUtf8 "9223372036854775808\n"

/-- A line with the number 7 behind a vertical tab. -/
def behindTab : List UInt8 := encodeUtf8 "\x0b7\n"

/-- A run refuses the number 2^63, which does not fit, but the routine returns the lowest integer for it. A run
takes a vertical tab for a blank, but the routine ends the program. -/
theorem readInt_wraps :
    ((World.readInt { input := tooLarge }).1 = .error (.notInteger "9223372036854775808") ∧
      ∃ c', Returns default "read_int" 56 (caller 0) ⟨tooLarge, []⟩ c' ⟨[], []⟩ ∧
        c'.reg .rax = Int64.minValue.toBitVec) ∧
    (World.readInt { input := behindTab }).1 = .ok 7 ∧
      Exits default "read_int" (caller 0) ⟨behindTab, []⟩ 1 := by
  have hlarge : splitLine tooLarge = (tooLarge, []) := by cbv
  have htab : splitLine behindTab = (behindTab, []) := by cbv
  have hholds : HoldsInteger Char.isWhitespace tooLarge (2 ^ 63) :=
    holdsInteger_iff.2 ⟨⟨none, "9223372036854775808".toList, true⟩, by cbv, by decide, by cbv⟩
  have hnone : ∀ n, ¬HoldsInteger Char.isWhitespace behindTab n := by
    intro n hn
    obtain ⟨r, hr, -⟩ := holdsInteger_iff.1 hn
    have hstuck : ({} : Reader).takeAll? (behindTab.map UInt8.toChar) = none := by cbv
    cases hstuck.symm.trans hr
  have hlength : tooLarge.length = 20 := by cbv
  refine ⟨⟨by cbv, ?_⟩, by cbv, ?_⟩
  · obtain ⟨c', hreturn, hrax⟩ := readInt_returns default ⟨tooLarge, []⟩ (caller 0) (by decide)
      (by rw [hlarge, hlength]; decide) (by rw [hlarge]; exact hholds)
    rw [hlarge] at hreturn
    exact ⟨c', hreturn, hrax⟩
  · exact readInt_exits default ⟨behindTab, []⟩ (caller 0) (by decide) (by rw [htab]; decide)
      (by rw [htab]; exact hnone)

end

end Exprc.Assembly.Routines
