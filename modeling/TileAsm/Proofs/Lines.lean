import TileAsm.Text.Lines

/-!
# Lines that are put together

A text that is put together from lines is cut into the same lines again, up to two details. A
carriage return at the end of a line is taken for a part of the line feed behind it, and an empty
last line is no line. Where neither can happen the lines are found as they were
(`lines_intercalate`); a function of lines that does not tell the difference finds the same anyway
(`flatMap_lines_intercalate`).

Whatever the text, no line of it holds a line feed (`newline_notMem_of_mem_lines`). A text can be
gone through line by line (`lines_induction`). Where a text ends with the end of a line, the lines
of what follows are apart from its own (`lines_append`), which are as many as its line feeds
(`length_lines`).
-/

namespace TileAsm.Text

/-! ### One line -/

theorem pieces_of_notMem {line : List Char} (h : '\n' ∉ line) (hne : line ≠ []) :
    pieces line = [line] := by
  induction line with
  | nil => exact absurd rfl hne
  | cons c line ih =>
    rw [List.mem_cons, not_or] at h
    have hc : c ≠ '\n' := fun heq ↦ h.1 heq.symm
    rw [pieces_cons]
    by_cases hline : line = []
    · rw [hline, pieces_nil, consPiece, if_neg hc]
    · rw [ih h.2 hline, consPiece, if_neg hc]

theorem pieces_append_newline {line : List Char} (h : '\n' ∉ line) (rest : List Char) :
    pieces (line ++ '\n' :: rest) = (line ++ ['\n']) :: pieces rest := by
  induction line with
  | nil => rfl
  | cons c line ih =>
    rw [List.mem_cons, not_or] at h
    have hc : c ≠ '\n' := fun heq ↦ h.1 heq.symm
    rw [List.cons_append, pieces_cons, ih h.2, consPiece, if_neg hc]
    rfl

theorem dropLineEnd_of_notMem {line : List Char} (h : '\n' ∉ line) : dropLineEnd line = line := by
  rw [dropLineEnd]
  split
  · rename_i rest heq
    exact absurd (List.mem_reverse.1 (heq ▸ List.mem_cons_self)) h
  · rename_i rest heq
    exact absurd (List.mem_reverse.1 (heq ▸ List.mem_cons_self)) h
  · rfl

theorem dropLineEnd_append_newline {line : List Char} (h : line.getLast? ≠ some '\r') :
    dropLineEnd (line ++ ['\n']) = line := by
  have hreverse : (line ++ ['\n']).reverse = '\n' :: line.reverse := by simp
  rw [dropLineEnd, hreverse]
  split
  · rename_i rest heq
    have hhead : line.reverse.head? = some '\r' := by rw [(List.cons.inj heq).2]; rfl
    exact absurd (List.head?_reverse ▸ hhead) h
  · rename_i rest hne heq
    rw [← (List.cons.inj heq).2, List.reverse_reverse]
  · rename_i hne
    exact absurd rfl (hne line.reverse)

/-- The line feed that ends a line takes at most a carriage return with it. -/
theorem apply_dropLineEnd {β : Sort _} {f : List Char → β}
    (hf : ∀ line, f (line ++ ['\r']) = f line) (line : List Char) :
    f (dropLineEnd (line ++ ['\n'])) = f line := by
  by_cases hlast : line.getLast? = some '\r'
  · obtain ⟨front, rfl⟩ := List.getLast?_eq_some_iff.1 hlast
    have hdrop : dropLineEnd (front ++ ['\r'] ++ ['\n']) = front := by simp [dropLineEnd]
    rw [hdrop, hf]
  · rw [dropLineEnd_append_newline hlast]

/-- A last line that no line feed ends. -/
theorem lines_of_notMem {line : List Char} (h : '\n' ∉ line) (hne : line ≠ []) :
    lines line = [line] := by
  rw [lines, pieces_of_notMem h hne, List.map_singleton, dropLineEnd_of_notMem h]

/-- A first line that a line feed ends, with or without a carriage return in front of that. -/
theorem lines_append_newline_eq {line : List Char} (h : '\n' ∉ line) (rest : List Char) :
    lines (line ++ '\n' :: rest) = dropLineEnd (line ++ ['\n']) :: lines rest := by
  rw [lines, pieces_append_newline h, List.map_cons]
  rfl

/-- A first line that a line feed ends. -/
theorem lines_append_newline {line : List Char} (h : '\n' ∉ line)
    (hlast : line.getLast? ≠ some '\r') (rest : List Char) :
    lines (line ++ '\n' :: rest) = line :: lines rest := by
  rw [lines_append_newline_eq h, dropLineEnd_append_newline hlast]

/-- A first line that a carriage return and a line feed end. -/
theorem lines_append_return_newline {line : List Char} (h : '\n' ∉ line) (rest : List Char) :
    lines (line ++ '\r' :: '\n' :: rest) = line :: lines rest := by
  have hreturn : '\n' ∉ line ++ ['\r'] := by simp [h]
  have hdrop : dropLineEnd (line ++ ['\r'] ++ ['\n']) = line := by simp [dropLineEnd]
  rw [List.append_cons, lines_append_newline_eq hreturn, hdrop]

/-! ### Line by line -/

/-- Induction over a text line by line, from its last line up to its first. -/
@[elab_as_elim]
theorem lines_induction {motive : List Char → Prop} (last : ∀ line, '\n' ∉ line → motive line)
    (next : ∀ line rest, '\n' ∉ line → motive rest → motive (line ++ '\n' :: rest))
    (s : List Char) : motive s := by
  -- the part of a line that has been passed already is carried along
  have hfrom : ∀ line, '\n' ∉ line → motive (line ++ s) := by
    induction s with
    | nil =>
      intro line hline
      rw [List.append_nil]
      exact last line hline
    | cons c s ih =>
      intro line hline
      by_cases hc : c = '\n'
      · rw [hc]
        exact next line s hline (ih [] (by simp))
      · rw [List.append_cons]
        exact ih (line ++ [c]) (by simp [hline, Ne.symm hc])
  exact hfrom [] (by simp)

/-- Induction over a text whose last line is ended. -/
theorem ended_induction {motive : List Char → Prop} (nil : motive [])
    (next : ∀ line rest, '\n' ∉ line → motive rest → motive (line ++ '\n' :: rest))
    {s : List Char} (h : s = [] ∨ s.getLast? = some '\n') : motive s := by
  induction s using lines_induction with
  | last line hline =>
    rcases h with rfl | hlast
    · exact nil
    · exact absurd (List.mem_of_getLast? hlast) hline
  | next line rest hline ih =>
    refine next line rest hline (ih ?_)
    rcases rest with _ | ⟨c, rest⟩
    · exact .inl rfl
    · simpa using h

/-- The lines of a text whose last line is ended are not touched by what follows. -/
theorem lines_append {s : List Char} (h : s = [] ∨ s.getLast? = some '\n') (t : List Char) :
    lines (s ++ t) = lines s ++ lines t := by
  have hpieces : pieces (s ++ t) = pieces s ++ pieces t := by
    refine ended_induction (motive := fun s ↦ pieces (s ++ t) = pieces s ++ pieces t) rfl ?_ h
    intro line rest hline ih
    rw [List.append_assoc, List.cons_append, pieces_append_newline hline,
      pieces_append_newline hline, ih]
    rfl
  rw [lines, hpieces, List.map_append]
  rfl

/-- There is a line for each line feed, if the last line is ended. -/
theorem length_lines {s : List Char} (h : s = [] ∨ s.getLast? = some '\n') :
    (lines s).length = s.count '\n' := by
  rw [lines, List.length_map]
  refine ended_induction (motive := fun s ↦ (pieces s).length = s.count '\n') rfl ?_ h
  intro line rest hline ih
  rw [pieces_append_newline hline, List.length_cons, ih, List.count_append,
    List.count_eq_zero.2 hline, List.count_cons_self, Nat.zero_add]

/-! ### Many lines -/

theorem toList_intercalate_newline (first second : String) (others : List String) :
    ("\n".intercalate (first :: second :: others)).toList =
      first.toList ++ '\n' :: ("\n".intercalate (second :: others)).toList := by
  rw [String.intercalate_cons_cons]
  simp

/-- Lines put together with line feeds are found again, apart from an empty last line. -/
theorem exists_lines_intercalate_append {texts : List String}
    (h : ∀ t ∈ texts, '\n' ∉ t.toList ∧ t.toList.getLast? ≠ some '\r') :
    ∃ k, texts.map String.toList =
      lines ("\n".intercalate texts).toList ++ List.replicate k [] := by
  induction texts with
  | nil => exact ⟨0, rfl⟩
  | cons first others ih =>
    obtain ⟨hnewline, hreturn⟩ := h first (by simp)
    obtain ⟨k, hk⟩ := ih fun t ht ↦ h t (by simp [ht])
    -- a line feed stands between two lines, so the last one has none behind it
    cases others with
    | nil =>
      rw [String.intercalate_singleton]
      by_cases hempty : first.toList = []
      · exact ⟨1, by simp [hempty]⟩
      · exact ⟨0, by simp [lines_of_notMem hnewline hempty]⟩
    | cons second others =>
      refine ⟨k, ?_⟩
      rw [toList_intercalate_newline, lines_append_newline hnewline hreturn, List.map_cons, hk]
      rfl

/-- Lines put together with line feeds are found again, if none of them is empty. -/
theorem lines_intercalate {texts : List String}
    (h : ∀ t ∈ texts, t.toList ≠ [] ∧ '\n' ∉ t.toList ∧ '\r' ∉ t.toList) :
    lines ("\n".intercalate texts).toList = texts.map String.toList := by
  have hlines : ∀ t ∈ texts, '\n' ∉ t.toList ∧ t.toList.getLast? ≠ some '\r' := fun t ht ↦
    ⟨(h t ht).2.1, fun hlast ↦ (h t ht).2.2 (List.mem_of_getLast? hlast)⟩
  obtain ⟨k, hk⟩ := exists_lines_intercalate_append hlines
  cases k with
  | zero => rw [hk, List.replicate_zero, List.append_nil]
  | succ k =>
    have hempty : [] ∈ texts.map String.toList := by
      rw [hk]
      simp
    obtain ⟨t, ht, hnil⟩ := List.mem_map.1 hempty
    exact absurd hnil (h t ht).1

/-- Lines put together with line feeds give what they gave before, if nothing is made of an empty
line or of a carriage return at the end of a line. -/
theorem flatMap_lines_intercalate {β : Type} {f : List Char → List β} (hnil : f [] = [])
    (hf : ∀ line, f (line ++ ['\r']) = f line) {texts : List String}
    (h : ∀ t ∈ texts, '\n' ∉ t.toList) :
    (lines ("\n".intercalate texts).toList).flatMap f = texts.flatMap fun t ↦ f t.toList := by
  induction texts with
  | nil => rfl
  | cons first others ih =>
    have hnewline := h first (by simp)
    have ih := ih fun t ht ↦ h t (by simp [ht])
    match others with
    | [] =>
      rw [String.intercalate_singleton]
      by_cases hempty : first.toList = []
      · simp [hempty, hnil]
      · simp [lines_of_notMem hnewline hempty]
    | second :: others =>
      rw [toList_intercalate_newline, lines_append_newline_eq hnewline, List.flatMap_cons,
        apply_dropLineEnd hf, List.flatMap_cons, ih]

/-- Lines that are all ended give what they gave before, if nothing is made of a carriage return at
the end of a line. -/
theorem filterMap_lines_ended {β : Type} {f : List Char → Option β}
    (hf : ∀ line, f (line ++ ['\r']) = f line) {texts : List (List Char)}
    (h : ∀ t ∈ texts, '\n' ∉ t) :
    (lines (texts.flatMap (· ++ ['\n']))).filterMap f = texts.filterMap f := by
  induction texts with
  | nil => rfl
  | cons first others ih =>
    have hnewline := h first (by simp)
    have ih := ih fun t ht ↦ h t (by simp [ht])
    rw [List.flatMap_cons, List.append_assoc, List.singleton_append,
      lines_append_newline_eq hnewline, List.filterMap_cons, apply_dropLineEnd hf,
      List.filterMap_cons, ih]

/-! ### Every line -/

/-- A piece has no line feed but at its end. -/
theorem exists_of_mem_pieces {s piece : List Char} (h : piece ∈ pieces s) :
    ∃ line, '\n' ∉ line ∧ (piece = line ∨ piece = line ++ ['\n']) := by
  induction s generalizing piece with
  | nil => exact absurd h (by simp)
  | cons c s ih =>
    rw [pieces_cons] at h
    unfold consPiece at h
    split at h
    · rename_i hc
      rcases List.mem_cons.1 h with rfl | h
      · exact ⟨[], by simp, .inr (by simp [hc])⟩
      · exact ih h
    · rename_i hc
      have hcons : ∀ {line : List Char}, '\n' ∉ line → '\n' ∉ c :: line := fun hline ↦
        List.not_mem_cons_of_ne_of_not_mem (Ne.symm hc) hline
      split at h
      · rw [List.mem_singleton.1 h]
        exact ⟨[c], hcons (by simp), .inl rfl⟩
      · rename_i first rest hpieces
        rcases List.mem_cons.1 h with rfl | h
        · obtain ⟨line, hline, hfirst⟩ := ih (hpieces ▸ List.mem_cons_self)
          refine ⟨c :: line, hcons hline, ?_⟩
          exact hfirst.imp (congrArg (c :: ·)) (congrArg (c :: ·))
        · exact ih (hpieces ▸ List.mem_cons_of_mem _ h)

theorem newline_notMem_of_mem_lines {s line : List Char} (h : line ∈ lines s) : '\n' ∉ line := by
  obtain ⟨piece, hpiece, rfl⟩ := List.mem_map.1 h
  obtain ⟨line, hline, rfl | rfl⟩ := exists_of_mem_pieces hpiece
  · rwa [dropLineEnd_of_notMem hline]
  · rwa [apply_dropLineEnd (f := ('\n' ∉ ·)) fun line ↦ by simp]

end TileAsm.Text
