import Mathlib.Data.List.DropRight
import TileAsm.Name
import TileAsm.Proofs.WellFormed

/-!
# Texts made of tokens

The readers take a line apart at its blanks: `cutToken` at the first one, `words` at all of them,
and `trim` at the ends. A printer works the other way round and puts a space between tokens. What is
shown here is that the two fit together: tokens put together with spaces (`spaced`) are taken apart
into the same tokens (`cutToken_spaced`, `words_spaced`), and there is nothing to trim from a text
whose ends are no blanks (`IsTrimmed.trim_eq_self`).

A **token** is a row of letters, digits, underscores and stars. All that is printed is made of
tokens, apart from quoted strings.
-/

namespace TileAsm.Text

/-! ### Tokens -/

/-- The characters of tokens. -/
def isTokenChar (c : Char) : Bool := Name.isWordChar c || c == '*'

/-- At least one token character and nothing else. -/
def IsToken (s : List Char) : Prop := s ≠ [] ∧ ∀ c ∈ s, isTokenChar c = true

theorem isToken_of_all {s : List Char} (h : (!s.isEmpty && s.all isTokenChar) = true) :
    IsToken s := by
  rw [Bool.and_eq_true, List.all_eq_true] at h
  exact ⟨by simpa using h.1, h.2⟩

/-- A name is a token, whatever it names. -/
theorem isToken_of_isName {first : Char} {s : List Char} (hfirst : isTokenChar first = true)
    (h : Name.isName first s = true) : IsToken s := by
  obtain ⟨word, -, hword, rfl⟩ := Name.isName_iff.1 h
  refine ⟨by simp, List.forall_mem_cons.2 ⟨hfirst, fun c hc ↦ ?_⟩⟩
  rw [isTokenChar, hword c hc, Bool.true_or]

/-- Token characters lie between the space and the end of ASCII, and are neither `:` nor `;`. -/
theorem toNat_of_isTokenChar {c : Char} (h : isTokenChar c = true) :
    0x20 < c.toNat ∧ c.toNat < 0x7F ∧ c.toNat ≠ 0x3A ∧ c.toNat ≠ 0x3B := by
  rw [isTokenChar, Name.isWordChar, Bool.or_eq_true, Bool.or_eq_true, beq_iff_eq, beq_iff_eq] at h
  rcases h with (h | rfl) | rfl
  · have hclass : ((c.isUpper || c.isLower) || c.isDigit) = true := h
    rw [Bool.or_eq_true, Bool.or_eq_true] at hclass
    rcases hclass with (hupper | hlower) | hdigit
    · obtain ⟨hlow, hhigh⟩ : 65 ≤ c.toNat ∧ c.toNat ≤ 90 := of_decide_eq_true hupper
      omega
    · obtain ⟨hlow, hhigh⟩ := Bool.and_eq_true_iff.1 hlower
      have hlow : 97 ≤ c.toNat := of_decide_eq_true hlow
      have hhigh : c.toNat ≤ 122 := of_decide_eq_true hhigh
      omega
    · obtain ⟨hlow, hhigh⟩ : 48 ≤ c.toNat ∧ c.toNat ≤ 57 := Char.isDigit_iff_toNat.1 hdigit
      omega
  · decide
  · decide

/-- No blank lies strictly between the space and the last ASCII character. -/
theorem isBlank_eq_false {c : Char} (hlow : 0x20 < c.toNat) (hhigh : c.toNat < 0x7F) :
    isBlank c = false := by
  have hranges : ∀ r ∈ blankRanges, r.2 ≤ 0x20 ∨ 0x7F ≤ r.1 := by decide
  rw [isBlank, List.any_eq_false]
  intro r hr
  have := hranges r hr
  simp only [Bool.and_eq_true, decide_eq_true_eq]
  omega

/-- There is no blank in a token. -/
theorem IsToken.isBlank_eq_false {s : List Char} (h : IsToken s) {c : Char} (hc : c ∈ s) :
    isBlank c = false := by
  obtain ⟨hlow, hhigh, -⟩ := toNat_of_isTokenChar (h.2 c hc)
  exact Text.isBlank_eq_false hlow hhigh

theorem IsToken.append {s t : List Char} (hs : IsToken s) (ht : IsToken t) : IsToken (s ++ t) := by
  refine ⟨by simp [hs.1], fun c hc ↦ ?_⟩
  rcases List.mem_append.1 hc with hc | hc
  · exact hs.2 c hc
  · exact ht.2 c hc

/-! ### Trimming -/

@[simp] theorem isBlankText_cons (c : Char) (s : List Char) :
    isBlankText (c :: s) = (isBlank c && isBlankText s) := rfl

@[simp] theorem isBlankText_append (s t : List Char) :
    isBlankText (s ++ t) = (isBlankText s && isBlankText t) := List.all_append

theorem trimStart_of_isBlank {c : Char} (h : isBlank c = true) (s : List Char) :
    trimStart (c :: s) = trimStart s := by
  rw [trimStart, List.dropWhile_cons, if_pos h]
  rfl

theorem trimStart_eq_self {c : Char} (h : isBlank c = false) (s : List Char) :
    trimStart (c :: s) = c :: s := by
  rw [trimStart, List.dropWhile_cons, if_neg (by simp [h])]

/-- A blank in front is trimmed. -/
theorem trim_of_isBlank {c : Char} (h : isBlank c = true) (s : List Char) :
    trim (c :: s) = trim s := by
  rw [trim, trimStart_of_isBlank h, trim]

/-- A blank at the end is trimmed. -/
theorem trim_append_of_isBlank {c : Char} (h : isBlank c = true) (s : List Char) :
    trim (s ++ [c]) = trim s := by
  have hend : ∀ t : List Char, trimEnd (t ++ [c]) = trimEnd t := fun t ↦ by
    rw [trimEnd, List.reverse_append, List.reverse_singleton, List.singleton_append,
      trimStart_of_isBlank h, trimEnd]
  rw [trim, trim, trimStart, List.dropWhile_append]
  split
  · rename_i hblank
    rw [trimStart, List.isEmpty_iff.1 hblank, List.dropWhile_cons, if_pos h, List.dropWhile_nil]
  · exact hend _

theorem trimStart_append {blanks : List Char} (h : isBlankText blanks = true) (s : List Char) :
    trimStart (blanks ++ s) = trimStart s :=
  List.dropWhile_append_of_pos (List.all_eq_true.1 h)

/-- What is trimmed from the front is blank. -/
theorem exists_eq_append_trimStart (s : List Char) :
    ∃ blanks, isBlankText blanks = true ∧ s = blanks ++ trimStart s :=
  ⟨s.takeWhile isBlank, List.all_takeWhile, List.takeWhile_append_dropWhile.symm⟩

theorem trimEnd_eq_rdropWhile (s : List Char) : trimEnd s = s.rdropWhile isBlank := rfl

@[simp] theorem trimEnd_trim (s : List Char) : trimEnd (trim s) = trim s :=
  List.rdropWhile_idempotent _ _

/-- Nothing is left only of blanks. -/
theorem isBlankText_of_trim_eq_nil {s : List Char} (h : trim s = []) : isBlankText s = true := by
  obtain ⟨blanks, hblanks, hs⟩ := exists_eq_append_trimStart s
  have hstart : isBlankText (trimStart s) = true :=
    List.all_eq_true.2 (List.rdropWhile_eq_nil_iff.1 h)
  rw [hs, isBlankText_append, hblanks, hstart]
  rfl

/-- Nothing is trimmed in front of a character that is no blank. -/
theorem trimEnd_append_cons {c : Char} (h : isBlank c = false) (s t : List Char) :
    trimEnd (s ++ c :: t) = s ++ c :: trimEnd t := by
  have hstop : trimStart (c :: s.reverse) = c :: s.reverse := trimStart_eq_self h _
  rw [trimEnd, List.reverse_append, List.reverse_cons, List.append_assoc, List.singleton_append,
    trimStart, List.dropWhile_append]
  split
  · rename_i hblank
    rw [trimEnd, trimStart, List.isEmpty_iff.1 hblank]
    show (trimStart _).reverse = _
    rw [hstop]
    simp
  · rw [trimEnd, trimStart]
    simp

/-- Nothing is trimmed from the end of a part that a text without trailing blanks ends with. -/
theorem trimEnd_eq_self_of_suffix {s t : List Char} (h : s <:+ t) (ht : trimEnd t = t) :
    trimEnd s = s := by
  rw [trimEnd_eq_rdropWhile, List.rdropWhile_eq_self_iff] at ht ⊢
  intro hne
  rw [h.getLast hne]
  exact ht _

/-- A text that starts and ends with a character that is no blank. -/
def IsTrimmed (s : List Char) : Prop :=
  (∃ c ∈ s.head?, isBlank c = false) ∧ ∃ c ∈ s.getLast?, isBlank c = false

theorem IsTrimmed.ne_nil {s : List Char} (h : IsTrimmed s) : s ≠ [] := by
  obtain ⟨⟨c, hc, -⟩, -⟩ := h
  rintro rfl
  cases hc

/-- There is nothing to trim. -/
theorem IsTrimmed.trim_eq_self {s : List Char} (h : IsTrimmed s) : trim s = s := by
  have hstart : ∀ t : List Char, (∃ c ∈ t.head?, isBlank c = false) → trimStart t = t := by
    rintro t ⟨c, hc, hblank⟩
    rw [List.eq_cons_of_mem_head? hc]
    exact trimStart_eq_self hblank t.tail
  rw [trim, hstart s h.1, trimEnd, hstart s.reverse (by simpa using h.2), List.reverse_reverse]

/-- A text without blanks has none at its ends. -/
theorem isTrimmed_of_forall {s : List Char} (hne : s ≠ []) (h : ∀ c ∈ s, isBlank c = false) :
    IsTrimmed s :=
  ⟨⟨s.head hne, List.head_mem_head? hne, h _ (List.head_mem hne)⟩,
    ⟨s.getLast hne, List.getLast_mem_getLast? hne, h _ (List.getLast_mem hne)⟩⟩

/-- What is left of a text is trimmed if the text starts with a character that is no blank. -/
theorem isTrimmed_trimEnd_cons {c : Char} (h : isBlank c = false) (s : List Char) :
    IsTrimmed (trimEnd (c :: s)) := by
  have hcons : trimEnd (c :: s) = c :: trimEnd s := trimEnd_append_cons h [] s
  have hne : trimEnd (c :: s) ≠ [] := by simp [hcons]
  refine ⟨⟨c, by simp [hcons], h⟩, ⟨_, List.getLast_mem_getLast? hne, ?_⟩⟩
  exact Bool.eq_false_iff.2 (List.rdropWhile_last_not isBlank (c :: s) hne)

/-- Something is left of a text only between characters that are no blanks. -/
theorem trim_eq_nil_or_isTrimmed (s : List Char) : trim s = [] ∨ IsTrimmed (trim s) := by
  rcases hstart : trimStart s with _ | ⟨c, rest⟩
  · exact .inl (by rw [trim, hstart, trimEnd_nil])
  · have hc := List.head?_dropWhile_not isBlank s
    rw [← trimStart, hstart] at hc
    refine .inr ?_
    rw [trim, hstart]
    exact isTrimmed_trimEnd_cons hc rest

@[simp] theorem trim_trim (s : List Char) : trim (trim s) = trim s := by
  rcases trim_eq_nil_or_isTrimmed s with hnil | htrimmed
  · rw [hnil, trim_nil]
  · exact htrimmed.trim_eq_self

theorem IsToken.isTrimmed {s : List Char} (h : IsToken s) : IsTrimmed s :=
  isTrimmed_of_forall h.1 fun _ ↦ h.isBlank_eq_false

/-! ### Cutting -/

/-- A text without blanks is one token. -/
theorem cutToken_of_forall {s : List Char} (h : ∀ c ∈ s, isBlank c = false) :
    cutToken s = (s, []) := by
  have hpos : ∀ c ∈ s, (!isBlank c) = true := fun c hc ↦ by simp [h c hc]
  rw [cutToken, List.takeWhile_eq_self_iff.2 hpos, List.dropWhile_eq_nil_iff.2 hpos, trim_nil]

theorem cutToken_of_isToken {s : List Char} (h : IsToken s) : cutToken s = (s, []) :=
  cutToken_of_forall fun _ ↦ h.isBlank_eq_false

/-- A token in front of a blank is what is cut off, and what follows is trimmed. -/
theorem cutToken_append_cons {s : List Char} (h : IsToken s) {c : Char} (hc : isBlank c = true)
    (rest : List Char) : cutToken (s ++ c :: rest) = (s, trim rest) := by
  have hpos : ∀ c ∈ s, (!isBlank c) = true := fun c hc ↦ by simp [h.isBlank_eq_false hc]
  rw [cutToken, List.takeWhile_append_of_pos hpos, List.dropWhile_append_of_pos hpos,
    List.takeWhile_cons, List.dropWhile_cons]
  simp [hc, trim_of_isBlank hc]

/-- A text without blanks is one word. -/
theorem words_of_forall {s : List Char} (hne : s ≠ []) (h : ∀ c ∈ s, isBlank c = false) :
    words s = [s] := by
  rw [words, List.splitOnP_eq_singleton h]
  simp [hne]

theorem words_of_isToken {s : List Char} (h : IsToken s) : words s = [s] :=
  words_of_forall h.1 fun _ ↦ h.isBlank_eq_false

/-- The words of a text are those in front of a blank and those behind it. -/
theorem words_append_cons {c : Char} (hc : isBlank c = true) (s t : List Char) :
    words (s ++ c :: t) = words s ++ words t := by
  rw [words, List.splitOnP_append_cons s t hc, List.filter_append]
  rfl

/-- Blanks in front are part of no word. -/
theorem words_blanks_append {blanks : List Char} (h : isBlankText blanks = true) (s : List Char) :
    words (blanks ++ s) = words s := by
  induction blanks with
  | nil => rfl
  | cons c blanks ih =>
    rw [isBlankText_cons, Bool.and_eq_true] at h
    exact (words_append_cons h.1 [] (blanks ++ s)).trans (ih h.2)

theorem words_of_isBlankText {blanks : List Char} (h : isBlankText blanks = true) :
    words blanks = [] := by
  rw [← List.append_nil blanks, words_blanks_append h]
  rfl

/-- Trimming does not change the words. -/
theorem words_trim (s : List Char) : words (trim s) = words s := by
  have hend : ∀ t : List Char, words (trimEnd t) = words t := by
    intro t
    obtain ⟨blanks, hblanks, heq⟩ := exists_eq_append_trimStart t.reverse
    have ht : t = trimEnd t ++ blanks.reverse := by
      rw [trimEnd, ← List.reverse_append, ← heq, List.reverse_reverse]
    have hreverse : isBlankText blanks.reverse = true := by rwa [isBlankText, List.all_reverse]
    rcases hcons : blanks.reverse with _ | ⟨c, rest⟩
    · rw [hcons, List.append_nil] at ht
      rw [← ht]
    · rw [hcons, isBlankText_cons, Bool.and_eq_true] at hreverse
      conv_rhs => rw [ht, hcons, words_append_cons hreverse.1, words_of_isBlankText hreverse.2,
        List.append_nil]
  obtain ⟨blanks, hblanks, heq⟩ := exists_eq_append_trimStart s
  conv_rhs => rw [heq, words_blanks_append hblanks, ← hend]
  rfl

/-! ### Texts put together -/

/-- Texts with a space in front of each but the first. -/
def spaced (first : List Char) (others : List (List Char)) : List Char :=
  first ++ others.flatMap (' ' :: ·)

@[simp] theorem spaced_nil (first : List Char) : spaced first [] = first := by simp [spaced]

/-- A space stands between the first text and the others. -/
theorem spaced_cons (first second : List Char) (others : List (List Char)) :
    spaced first (second :: others) = first ++ ' ' :: spaced second others := by
  simp [spaced]

theorem toList_intercalate_space (first : String) (others : List String) :
    (" ".intercalate (first :: others)).toList =
      spaced first.toList (others.map String.toList) := by
  rw [String.toList_intercalate]
  induction others generalizing first with
  | nil => simp [List.intercalate]
  | cons second others ih =>
    have ih := ih second
    rw [List.map_cons] at ih
    rw [List.map_cons, List.map_cons, spaced_cons, ← ih]
    simp [List.intercalate]

/-- Texts that are put together hold nothing but their characters and spaces. -/
theorem mem_spaced {first : List Char} {others : List (List Char)} {c : Char}
    (h : c ∈ spaced first others) : c = ' ' ∨ ∃ s ∈ first :: others, c ∈ s := by
  rw [spaced, List.mem_append, List.mem_flatMap] at h
  rcases h with h | ⟨s, hs, h⟩
  · exact .inr ⟨first, by simp, h⟩
  · rcases List.mem_cons.1 h with rfl | h
    · exact .inl rfl
    · exact .inr ⟨s, by simp [hs], h⟩

/-- There is nothing to trim from texts that there was nothing to trim from. -/
theorem IsTrimmed.spaced {first : List Char} {others : List (List Char)}
    (h : ∀ s ∈ first :: others, IsTrimmed s) : IsTrimmed (spaced first others) := by
  induction others generalizing first with
  | nil => simpa using h first (by simp)
  | cons second others ih =>
    have ih : IsTrimmed (Text.spaced second others) := ih fun s hs ↦ h s (List.mem_cons_of_mem _ hs)
    have hfirst := h first (by simp)
    rw [spaced_cons]
    constructor
    · rw [List.head?_append_of_ne_nil _ hfirst.ne_nil]
      exact hfirst.1
    · rw [List.getLast?_append_of_ne_nil _ (by simp), List.getLast?_cons_of_ne_nil ih.ne_nil]
      exact ih.2

theorem isTrimmed_intercalate {first : String} {others : List String}
    (h : ∀ w ∈ first :: others, IsTrimmed w.toList) :
    IsTrimmed (" ".intercalate (first :: others)).toList := by
  rw [toList_intercalate_space]
  refine IsTrimmed.spaced fun s hs ↦ ?_
  rw [← List.map_cons (f := String.toList)] at hs
  obtain ⟨w, hw, rfl⟩ := List.mem_map.1 hs
  exact h w hw

/-- Cutting takes off the first of the texts if it is a token. -/
theorem cutToken_spaced {first second : List Char} {others : List (List Char)}
    (hfirst : IsToken first) (h : ∀ s ∈ second :: others, IsTrimmed s) :
    cutToken (spaced first (second :: others)) = (first, spaced second others) := by
  rw [spaced_cons, cutToken_append_cons hfirst (by decide), (IsTrimmed.spaced h).trim_eq_self]

/-- Tokens put together are taken apart again. -/
theorem words_spaced {first : List Char} {others : List (List Char)}
    (h : ∀ s ∈ first :: others, IsToken s) : words (spaced first others) = first :: others := by
  induction others generalizing first with
  | nil => simpa using words_of_isToken (h first (by simp))
  | cons second others ih =>
    have hfirst := h first (by simp)
    have ih : words (spaced second others) = second :: others :=
      ih fun s hs ↦ h s (List.mem_cons_of_mem _ hs)
    rw [spaced_cons, words_append_cons (by decide), words_of_isToken hfirst, ih]
    rfl

end TileAsm.Text
