/-
The slots of a module as they are given out. A scan meets the variables of a module one by one and gives each
the next slot, unless it has one or is a name; so the first occurrence of a variable decides its slot, and the
slots of the different variables fill the multiples of eight bytes up to their number. Code generation never
misses a slot of a variable that is not a name, so names in place of variables are what it demands not to meet.
-/
import Exprc.Proofs.Assembly.Demands

namespace Exprc

namespace Assembly

open IR

namespace StackLayout

/-! ## Scans -/

/-- Gives a variable the next slot, unless it has one or is a name. -/
def assign (l : StackLayout) (v : Var) : StackLayout :=
  if v.isNamed = true ∨ v ∈ l.slots then l else ⟨l.slots ++ [v]⟩

/-- The layout behind a scan of some variables. -/
def scan (vs : List Var) : StackLayout := vs.foldl assign ⟨[]⟩

/-- The number of different variables among some variables, names aside. -/
def distinct (vs : List Var) : Nat := (vs.filter (!·.isNamed)).toFinset.card

section

variable {l : StackLayout} {v w : Var} {vs : List Var} {below : Nat}

theorem scan_concat (vs : List Var) (v : Var) : scan (vs ++ [v]) = (scan vs).assign v := by
  rw [scan, List.foldl_append]
  rfl

theorem assign_of_named (h : v.isNamed = true) : l.assign v = l := if_pos (.inl h)

theorem assign_of_mem (h : v ∈ l.slots) : l.assign v = l := if_pos (.inr h)

theorem assign_new (hn : v.isNamed = false) (h : v ∉ l.slots) : l.assign v = ⟨l.slots ++ [v]⟩ := by
  refine if_neg ?_
  rintro (hnamed | hmem)
  · rw [hn] at hnamed
    cases hnamed
  · exact h hmem

/-- A variable that has a slot keeps it. -/
theorem offset?_assign (h : l.offset? v = some below) (w : Var) : (l.assign w).offset? v = some below := by
  unfold assign
  split
  · exact h
  · obtain ⟨i, hi, rfl⟩ := Option.map_eq_some_iff.1 h
    rw [List.idxOf?] at hi
    rw [offset?, List.idxOf?, List.findIdx?_append, hi]
    rfl

/-- The next slot lies below the others. -/
theorem offset?_assign_new (hn : v.isNamed = false) (h : v ∉ l.slots) :
    (l.assign v).offset? v = some ((l.size + 1) * slotSize) := by
  have hnone := List.idxOf?_eq_none_iff.2 h
  rw [List.idxOf?] at hnone
  rw [assign_new hn h, offset?, List.idxOf?, List.findIdx?_append, hnone, List.findIdx?_singleton, beq_self_eq_true]
  simp [size]

theorem offset?_scan_append (h : (scan vs).offset? v = some below) (ws : List Var) :
    (scan (vs ++ ws)).offset? v = some below := by
  induction ws using List.reverseRecOn with
  | nil => rwa [List.append_nil]
  | append_singleton ws w ih =>
    rw [← List.append_assoc, scan_concat]
    exact offset?_assign ih w

/-- A scan gives slots to the variables that it meets, names aside. -/
theorem mem_scan : v ∈ (scan vs).slots ↔ v ∈ vs ∧ v.isNamed = false := by
  induction vs using List.reverseRecOn with
  | nil => simp [scan]
  | append_singleton vs w ih =>
    rw [scan_concat]
    by_cases hn : w.isNamed = true
    · rw [assign_of_named hn, ih]
      grind
    · rw [Bool.not_eq_true] at hn
      by_cases hw : w ∈ (scan vs).slots
      · rw [assign_of_mem hw, ih]
        grind
      · rw [assign_new hn hw]
        grind

/-- No variable gets two slots. -/
theorem nodup_scan (vs : List Var) : (scan vs).slots.Nodup := by
  induction vs using List.reverseRecOn with
  | nil => exact List.nodup_nil
  | append_singleton vs w ih =>
    rw [scan_concat]
    unfold assign
    split
    · exact ih
    · rename_i h
      rw [not_or] at h
      exact List.nodup_append.2 ⟨ih, List.nodup_singleton w, by grind⟩

theorem size_scan (vs : List Var) : (scan vs).size = distinct vs := by
  rw [size, ← List.toFinset_card_of_nodup (nodup_scan vs), distinct]
  congr 1
  ext v
  simp [mem_scan]

/-- The layout of a module is what a scan of its variables gives. -/
theorem ofModule_eq_scan (m : Module) : ofModule m = scan m.vars := by
  -- a scan keeps first occurrences, and so does removing duplicates
  have hscan : ∀ vs : List Var, scan vs = ⟨(vs.filter (!·.isNamed)).eraseDups⟩ := by
    intro vs
    induction vs using List.reverseRecOn with
    | nil => rfl
    | append_singleton vs v ih =>
      rw [scan_concat, ih, List.filter_append, List.eraseDups_append]
      by_cases hn : v.isNamed = true
      · simp [assign_of_named hn, hn]
      · rw [Bool.not_eq_true] at hn
        by_cases hv : v ∈ vs
        · rw [assign_of_mem (by simp [hv, hn])]
          simp [hn, hv, List.removeAll]
        · rw [assign_new hn (by simp [hv])]
          simp [hn, hv, List.removeAll, List.eraseDups_cons]
  exact (hscan m.vars).symm

theorem nodup_ofModule (m : Module) : (ofModule m).slots.Nodup := by
  rw [ofModule_eq_scan]
  exact nodup_scan m.vars

theorem size_ofModule (m : Module) : (ofModule m).size = distinct m.vars := by
  rw [ofModule_eq_scan, size_scan]

/-! ## Layouts -/

/-- Two variables have two slots. -/
theorem offset?_injective (h : l.offset? v = some below) (h' : l.offset? w = some below) : v = w := by
  by_contra hne
  have hapart := offset?_apart h h' hne
  unfold slotSize at hapart
  omega

/-- The slots lie one below the other. -/
theorem offset?_getElem (h : l.slots.Nodup) {i : Nat} (hi : i < l.slots.length) :
    l.offset? l.slots[i] = some ((i + 1) * slotSize) := by
  have hindex : l.slots.idxOf? l.slots[i] = some i := by
    refine List.idxOf?_eq_some_iff.2 ⟨hi, rfl, fun j hj he => ?_⟩
    exact absurd (h.getElem_inj_iff.1 he) (Nat.ne_of_lt hj)
  rw [offset?, hindex]
  rfl

/-- The slots fill the multiples of eight bytes up to their number. -/
theorem exists_offset?_iff (h : l.slots.Nodup) :
    (∃ v, l.offset? v = some below) ↔ 8 ∣ below ∧ 8 ≤ below ∧ below ≤ 8 * l.size := by
  constructor
  · rintro ⟨v, hv⟩
    obtain ⟨i, -, hi, rfl⟩ := offset?_eq_some hv
    unfold slotSize
    omega
  · rintro ⟨⟨k, rfl⟩, hlow, hhigh⟩
    have hk : k - 1 < l.slots.length := by
      change 8 * k ≤ 8 * l.slots.length at hhigh
      omega
    refine ⟨l.slots[k - 1], ?_⟩
    rw [offset?_getElem h hk, slotSize, Nat.sub_add_cancel (by omega), Nat.mul_comm]

theorem covers_iff : l.Covers v ↔ v ∈ l.slots := by
  refine ⟨?_, offset?_of_mem⟩
  rintro ⟨below, h⟩
  obtain ⟨i, hi, -⟩ := offset?_eq_some h
  exact List.mem_of_getElem? hi

/-- The variables of a module have slots, names aside. -/
theorem covers_ofModule {m : Module} : (ofModule m).Covers v ↔ v ∈ m.vars ∧ v.isNamed = false := by
  rw [covers_iff, ofModule_eq_scan, mem_scan]

/-- A frame is the smallest that has room for all slots and keeps the stack pointer aligned. -/
theorem frameSize_isLeast (l : StackLayout) : IsLeast {n | 16 ∣ n ∧ 8 * l.size ≤ n} l.frameSize := by
  obtain ⟨hdvd, hroom, hlt⟩ := l.frameSize_eq
  unfold frameAlignment at hdvd hlt
  unfold slotSize at hroom hlt
  refine ⟨⟨hdvd, by omega⟩, ?_⟩
  rintro n ⟨hn, hle⟩
  omega

end

end StackLayout

/-! ## Uses -/

/-- Whether the code of a function uses the slot of a variable: in some layout it is for want of this slot
that the function has no code. -/
def Uses (f : IR.Function) (v : Var) : Prop :=
  ∃ o l location?, functionLines o l f = .error ⟨location?, .noSlot v⟩

/-- The code of a function uses no slots but those of its variables. -/
theorem Uses.mem_vars {f : IR.Function} {v : Var} (h : Uses f v) : v ∈ f.vars := by
  obtain ⟨o, l, location?, h⟩ := h
  exact ((functionLines_meets fun _ hv => hv).lacks location? v h).1

/-- A function uses the slots of its parameters, among others. -/
example : Uses ⟨"f", [.temp 1], [], .unit⟩ (.temp 1) := ⟨{}, ⟨[]⟩, _, rfl⟩

/-- The slots of a module. The variables of every module that have slots are those that occur in it, names
aside; a variable whose first occurrence in the order of the text has `i` different such variables before it
has the slot at `8 * (i + 1)`; so with `n` different variables the slots are the `n` first multiples of eight,
each that of one variable; frames have the least size that is a multiple of sixteen and has room for them;
and the code of a function uses no slot that is not there, unless it takes a name for a variable, so that the
slot for want of which a module has no code is always that of a name. -/
theorem StackLayout.ofModule_enumerates (m : IR.Module) :
    (∀ v, (ofModule m).Covers v ↔ v ∈ m.vars ∧ v.isNamed = false) ∧
      (∀ before v after, m.vars = before ++ v :: after → v ∉ before → v.isNamed = false →
        (ofModule m).offset? v = some (8 * (distinct before + 1))) ∧
      (∀ v w below, (ofModule m).offset? v = some below → (ofModule m).offset? w = some below → v = w) ∧
      (∀ below, (∃ v, (ofModule m).offset? v = some below) ↔
        8 ∣ below ∧ 8 ≤ below ∧ below ≤ 8 * distinct m.vars) ∧
      (ofModule m).size = distinct m.vars ∧
      IsLeast {n | 16 ∣ n ∧ 8 * distinct m.vars ≤ n} (ofModule m).frameSize ∧
      (∀ f ∈ m.functions, ∀ v, Uses f v → v.isNamed = false → (ofModule m).Covers v) ∧
      ∀ o location? v, generate o m = .error ⟨location?, .noSlot v⟩ → v.isNamed = true := by
  refine ⟨fun v => covers_ofModule, ?_, fun v w below => offset?_injective, ?_, size_ofModule m, ?_, ?_, ?_⟩
  · intro before v after hvars hfirst hn
    have hnew : v ∉ (scan before).slots := fun h => hfirst (mem_scan.1 h).1
    -- what comes behind the first occurrence does not change the slot
    have hslot : (scan (before ++ [v])).offset? v = some (((scan before).size + 1) * slotSize) := by
      rw [scan_concat]
      exact offset?_assign_new hn hnew
    rw [ofModule_eq_scan, hvars, List.append_cons, offset?_scan_append hslot after, size_scan, slotSize,
      Nat.mul_comm]
  · intro below
    rw [exists_offset?_iff (nodup_ofModule m), size_ofModule]
  · rw [← size_ofModule]
    exact frameSize_isLeast (ofModule m)
  · intro f hf v hv hn
    exact covers_ofModule.2 ⟨List.mem_flatMap.2 ⟨f, hf, hv.mem_vars⟩, hn⟩
  · intro o location? v hlacks
    obtain ⟨hv, hslot⟩ := (generate_meets o m).lacks location? v hlacks
    rw [covers_ofModule, not_and, Bool.not_eq_false] at hslot
    exact hslot hv

/-! ## Modules that have code -/

/-- What a function demands of slots it demands of its variables alone. -/
theorem translatable_mono {f : IR.Function} {P Q : Var → Prop} (h : f.Translatable P)
    (hPQ : ∀ v ∈ f.vars, P v → Q v) : f.Translatable Q where
  count := h.count
  parameters v hv := hPQ v (mem_vars_of_parameter hv) (h.parameters v hv)
  code i hi := by
    refine ⟨fun v hv => hPQ v (mem_vars_of_code hi ?_) ((h.code i hi).accesses v hv), (h.code i hi).calls⟩
    rcases List.mem_append.1 hv with hv | hv
    · exact vars_of_reads hv
    · exact vars_of_writes hv
  result hleave hentry := hPQ _ (result_mem_vars f) (h.result hleave hentry)

/-- There is code for a module if and only if each of its functions has at most six parameters, takes no name
for a variable, and calls nothing for which there is no code. Otherwise it is code generation that fails. -/
theorem generate_ok_iff (o : Options) (m : IR.Module) :
    ((∃ text, generate o m = .ok text) ↔ ∀ f ∈ m.functions, f.Translatable fun v => v.isNamed = false) ∧
      ∀ fault, generate o m = .error fault → fault.diagnostic.kind = .codegen := by
  refine ⟨(generate_meets o m).ok_iff.trans (forall₂_congr fun f hf => ?_), fun _ _ => rfl⟩
  have hslots : ∀ v ∈ f.vars, ((StackLayout.ofModule m).Covers v ↔ v.isNamed = false) := fun v hv =>
    StackLayout.covers_ofModule.trans (and_iff_right (List.mem_flatMap.2 ⟨f, hf, hv⟩))
  constructor
  · intro h
    exact translatable_mono h fun v hv => (hslots v hv).1
  · intro h
    exact translatable_mono h fun v hv => (hslots v hv).2

end Assembly

end Exprc
