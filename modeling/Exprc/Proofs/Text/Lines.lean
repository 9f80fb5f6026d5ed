/-
The lines of a text. A line feed ends a line, and so does the end of the text where the line is not empty. A place
in a text is a place in the line that its number stands for, unless nothing is left of the text there and it stands
at the beginning of a line (`linesOf_place`).
-/
import Exprc.Proofs.Syntax.Decomposition
import Exprc.Source

namespace Exprc

variable {cs rest pre post : List Char}

/-! ## Lines -/

/-- A line without the carriage return at its end. -/
def chomp : List Char → List Char
  | [] => []
  | ['\r'] => []
  | c :: cs => c :: chomp cs

theorem chomp_cons {c : Char} (h : c = '\r' → cs ≠ []) : chomp (c :: cs) = c :: chomp cs := by
  rw [chomp]
  rintro rfl rfl
  exact h rfl rfl

theorem chomp_of_notMem (h : '\r' ∉ cs) : chomp cs = cs := by
  induction cs with
  | nil => rfl
  | cons c cs ih =>
    rw [List.mem_cons, not_or] at h
    rw [chomp_cons fun hc => absurd hc.symm h.1, ih h.2]

theorem length_le_chomp (cs : List Char) : cs.length ≤ (chomp cs).length + 1 := by
  fun_induction chomp cs with
  | case1 => exact Nat.zero_le _
  | case2 => exact Nat.le_refl _
  | case3 c cs _ ih =>
    rw [List.length_cons, List.length_cons]
    exact Nat.succ_le_succ ih

/-- A character that ends no line is the first of its line. -/
theorem linesOf_cons {c : Char} (hc : c ≠ '\n') (hr : c = '\r' → cs.head? ≠ some '\n') :
    linesOf (c :: cs) = (c :: (linesOf cs).headD []) :: (linesOf cs).tail := by
  rw [linesOf]
  · cases linesOf cs <;> rfl
  · exact hc
  · rintro cs rfl rfl
    exact hr rfl rfl

/-- A line feed ends a line. -/
theorem linesOf_line (h : '\n' ∉ cs) (rest : List Char) :
    linesOf (cs ++ '\n' :: rest) = chomp cs :: linesOf rest := by
  induction cs with
  | nil => rfl
  | cons c cs ih =>
    rw [List.mem_cons, not_or] at h
    by_cases hc : c = '\r' ∧ cs = []
    · obtain ⟨rfl, rfl⟩ := hc
      rfl
    · rw [List.cons_append, linesOf_cons (Ne.symm h.1), ih h.2, List.headD_cons, List.tail_cons, chomp_cons]
      · rintro rfl rfl
        exact hc ⟨rfl, rfl⟩
      · rintro rfl
        cases cs with
        | nil => exact absurd ⟨rfl, rfl⟩ hc
        | cons d cs =>
          rintro ⟨⟩
          exact h.2 List.mem_cons_self

/-- A text without line feeds is a line, unless it is empty. -/
theorem linesOf_last (h : '\n' ∉ cs) (hne : cs ≠ []) : linesOf cs = [cs] := by
  induction cs with
  | nil => exact absurd rfl hne
  | cons c cs ih =>
    rw [List.mem_cons, not_or] at h
    rw [linesOf_cons (Ne.symm h.1)]
    · cases cs with
      | nil => rfl
      | cons d cs => rw [ih h.2 (List.cons_ne_nil d cs), List.headD_cons, List.tail_cons]
    · rintro rfl hhead
      exact h.2 (List.mem_of_head? hhead)

/-- The lines of a text with whole lines before it. -/
theorem linesOf_append (cs rest : List Char) :
    linesOf (cs ++ '\n' :: rest) = linesOf (cs ++ ['\n']) ++ linesOf rest ∧
      (linesOf (cs ++ ['\n'])).length = cs.count '\n' + 1 := by
  -- by induction on the length, from one line feed to the next
  induction hn : cs.length using Nat.strong_induction_on generalizing cs with
  | _ n ih =>
    by_cases hmem : '\n' ∈ cs
    · obtain ⟨line, more, rfl, hline⟩ := List.eq_append_cons_of_mem hmem
      have hshorter : more.length < n := by
        rw [← hn, List.length_append, List.length_cons]
        omega
      obtain ⟨hlines, hlength⟩ := ih _ hshorter more rfl
      rw [List.append_assoc, List.cons_append, linesOf_line hline, hlines, List.append_assoc, List.cons_append,
        linesOf_line hline, List.cons_append]
      refine ⟨rfl, ?_⟩
      rw [List.length_cons, hlength, List.count_append, List.count_cons_self, List.count_eq_zero_of_not_mem hline,
        Nat.zero_add]
    · rw [linesOf_line hmem, linesOf_line hmem, List.count_eq_zero_of_not_mem hmem]
      exact ⟨rfl, rfl⟩

/-! ## Places -/

/-- A place in the first line of a text is a place in a line, if there is one. -/
theorem linesOf_first (h : '\n' ∉ pre) (hpost : pre = [] ∨ post.head? ≠ some '\n') :
    (∃ line ∈ (linesOf (pre ++ post)).head?, pre.length ≤ line.length) ∨ pre = [] ∧ post = [] := by
  by_cases hmem : '\n' ∈ post
  · obtain ⟨line, more, rfl, hline⟩ := List.eq_append_cons_of_mem hmem
    left
    rw [← List.append_assoc, linesOf_line]
    · refine ⟨_, rfl, ?_⟩
      have hchomp := length_le_chomp (pre ++ line)
      rw [List.length_append] at hchomp
      rcases hpost with rfl | hpost
      · exact Nat.zero_le _
      · -- the line feed is not the first of what is left
        have hpos : 0 < line.length := by
          refine List.length_pos_of_ne_nil ?_
          rintro rfl
          exact hpost rfl
        omega
    · rw [List.mem_append, not_or]
      exact ⟨h, hline⟩
  · by_cases hnil : pre ++ post = []
    · exact .inr (List.append_eq_nil_iff.1 hnil)
    · left
      have hnot : '\n' ∉ pre ++ post := by
        rw [List.mem_append, not_or]
        exact ⟨h, hmem⟩
      rw [linesOf_last hnot hnil]
      refine ⟨_, rfl, ?_⟩
      rw [List.length_append]
      exact Nat.le_add_right _ _

/-- The last line feed of a text, if there is one, stands before its last line. -/
theorem lastLine (cs : List Char) :
    '\n' ∉ cs ∨ ∃ front line, cs = front ++ '\n' :: line ∧ '\n' ∉ line := by
  by_cases hmem : '\n' ∈ cs
  · obtain ⟨back, front, hreverse, hback⟩ := List.eq_append_cons_of_mem (List.mem_reverse.2 hmem)
    refine .inr ⟨front.reverse, back.reverse, ?_, fun h => hback (List.mem_reverse.1 h)⟩
    rw [← cs.reverse_reverse, hreverse]
    simp
  · exact .inl hmem

theorem Location.behind_firstLine (h : '\n' ∉ cs) : behind cs = ⟨1, cs.length + 1⟩ := by
  have hline : cs.rtakeWhile (· ≠ '\n') = cs :=
    List.rtakeWhile_eq_self_iff.2 fun c hc => decide_eq_true (ne_of_mem_of_not_mem hc h)
  rw [behind, hline, List.count_eq_zero_of_not_mem h]

theorem Location.behind_line {front line : List Char} (h : '\n' ∉ line) :
    behind (front ++ '\n' :: line) = ⟨front.count '\n' + 2, line.length + 1⟩ := by
  have hline : (front ++ '\n' :: line).rtakeWhile (· ≠ '\n') = line := by
    have hall : ∀ c ∈ line.reverse, decide (c ≠ '\n') = true :=
      fun c hc => decide_eq_true (ne_of_mem_of_not_mem (List.mem_reverse.1 hc) h)
    rw [List.rtakeWhile, List.reverse_append, List.reverse_cons, List.append_assoc, List.singleton_append,
      List.takeWhile_append_of_pos hall, List.takeWhile_cons_of_neg (by decide), List.append_nil,
      List.reverse_reverse]
  rw [behind, hline, List.count_append, List.count_cons_self, List.count_eq_zero_of_not_mem h]

/-- A place that does not stand before a line feed is a place in the line with its number, or it is the end of a text
that has no such line. -/
theorem linesOf_place (hpost : pre = [] ∨ post.head? ≠ some '\n') :
    (∃ line, (linesOf (pre ++ post))[pre.count '\n']? = some line ∧
        (Location.behind pre).column ≤ line.length + 1) ∨
      post = [] ∧ (pre = [] ∨ pre.getLast? = some '\n') ∧ (linesOf (pre ++ post))[pre.count '\n']? = none := by
  rcases lastLine pre with hpre | ⟨front, line, rfl, hline⟩
  · rw [Location.behind_firstLine hpre, List.count_eq_zero_of_not_mem hpre, ← List.head?_eq_getElem?]
    rcases linesOf_first hpre hpost with ⟨first, hfirst, hle⟩ | ⟨rfl, rfl⟩
    · exact .inl ⟨first, hfirst, Nat.succ_le_succ hle⟩
    · exact .inr ⟨rfl, .inl rfl, rfl⟩
  · -- the place is in the first line behind the last line feed before it
    have hhead : (linesOf (front ++ '\n' :: line ++ post))[(front ++ '\n' :: line).count '\n']? =
        (linesOf (line ++ post)).head? := by
      obtain ⟨hlines, hlength⟩ := linesOf_append front (line ++ post)
      have hcount : (front ++ '\n' :: line).count '\n' = (linesOf (front ++ ['\n'])).length := by
        rw [hlength, List.count_append, List.count_cons_self, List.count_eq_zero_of_not_mem hline]
      rw [hcount, List.append_assoc, List.cons_append, hlines, List.getElem?_append_right (Nat.le_refl _),
        Nat.sub_self, List.head?_eq_getElem?]
    rw [hhead, Location.behind_line hline]
    have hpost : line = [] ∨ post.head? ≠ some '\n' := .inr (hpost.resolve_left (by simp))
    rcases linesOf_first hline hpost with ⟨first, hfirst, hle⟩ | ⟨rfl, rfl⟩
    · exact .inl ⟨first, hfirst, Nat.succ_le_succ hle⟩
    · exact .inr ⟨rfl, .inr (by simp), rfl⟩

end Exprc
