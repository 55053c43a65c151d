import TileAsm.Proofs.Tokens

/-!
# The grammar of strings

A string literal is a row of items between quotes. An item is a character other than a quote and a
backslash, or a backslash and any character behind it. The relations below say this without a
reader, each between a text and what it stands for:

* `Quoted.Escape` for the character behind a backslash,
* `Quoted.Items` for a row of items,
* `Quoted.IsLiteral` for a literal,
* `StringLiteral.Row` for one or more literals, with blanks between them and after them.

The readers accept exactly these texts. Each reader gets one equivalence, and the next one rests on
it: `Quoted.body?_eq_some_iff`, `StringLiteral.parse_eq_ok_iff_isLiteral`,
`StringLiteral.parseMany_eq_ok_iff`. A text may follow what the first two read, so they say where a
literal ends: at the first quote that is no part of an item.
-/

namespace TileAsm

open Text

namespace Text.Quoted

/-! ### Items -/

/-- What a backslash stands for together with the character behind it. -/
inductive Escape : Char → List Char → Prop
  /-- A quote, an apostrophe and a backslash stand for themselves. -/
  | mark {c : Char} (h : c ∈ ['"', '\'', '\\']) : Escape c [c]
  /-- A tab and a line break stand for a space. -/
  | space {c : Char} (h : c ∈ ['\t', '\x0b', '\r', '\n']) : Escape c [' ']
  /-- In front of any other character the backslash stands for itself. -/
  | other {c : Char} (hmark : c ∉ ['"', '\'', '\\']) (hspace : c ∉ ['\t', '\x0b', '\r', '\n']) :
    Escape c ['\\', c]

/-- A row of items and its contents. -/
inductive Items : List Char → List Char → Prop
  | nil : Items [] []
  /-- A character other than a quote and a backslash is an item. -/
  | plain {c : Char} {s t : List Char} (hquote : c ≠ '"') (hslash : c ≠ '\\') (h : Items s t) :
    Items (c :: s) (c :: t)
  /-- A backslash and any character behind it are an item. -/
  | escape {c : Char} {u s t : List Char} (hc : Escape c u) (h : Items s t) :
    Items ('\\' :: c :: s) (u ++ t)

/-- A literal and its contents. -/
inductive IsLiteral : List Char → List Char → Prop
  | intro {items contents : List Char} (h : Items items contents) :
    IsLiteral ('"' :: items ++ ['"']) contents

theorem escape_iff {c : Char} {t : List Char} : Escape c t ↔ t = unescape c := by
  have hunescape : unescape c =
      if c ∈ ['"', '\'', '\\'] then [c]
      else if c ∈ ['\t', '\x0b', '\r', '\n'] then [' '] else ['\\', c] := by
    simp [unescape, or_assoc]
  have hdisjoint : ∀ d ∈ ['\t', '\x0b', '\r', '\n'], d ∉ ['"', '\'', '\\'] := by simp
  rw [hunescape]
  constructor
  · rintro (hmark | hspace | ⟨hmark, hspace⟩)
    · rw [if_pos hmark]
    · rw [if_neg (hdisjoint c hspace), if_pos hspace]
    · rw [if_neg hmark, if_neg hspace]
  · rintro rfl
    by_cases hmark : c ∈ ['"', '\'', '\\']
    · rw [if_pos hmark]
      exact .mark hmark
    · rw [if_neg hmark]
      by_cases hspace : c ∈ ['\t', '\x0b', '\r', '\n']
      · rw [if_pos hspace]
        exact .space hspace
      · rw [if_neg hspace]
        exact .other hmark hspace

theorem body?_cons {c : Char} (hquote : c ≠ '"') (hslash : c ≠ '\\') (rest : List Char) :
    body? (c :: rest) = (body? rest).map fun (contents, after) ↦ (c :: contents, after) := by
  rw [body?]
  · exact hquote
  · rintro rfl
    exact absurd rfl hslash
  · intro _ _ hc
    exact absurd hc hslash

/-- **A literal ends at the first quote that is no part of an item.** -/
theorem body?_eq_some_iff {s contents after : List Char} :
    body? s = some (contents, after) ↔
      ∃ items, Items items contents ∧ s = items ++ '"' :: after := by
  constructor
  · intro h
    fun_induction body? s generalizing contents after with
    | case1 => exact absurd h (by simp)
    | case2 rest =>
      obtain ⟨rfl, rfl⟩ := Prod.mk.inj (Option.some.inj h)
      exact ⟨[], .nil, rfl⟩
    | case3 => exact absurd h (by simp)
    | case4 c rest ih =>
      obtain ⟨⟨contents, after⟩, hrest, heq⟩ := Option.map_eq_some_iff.1 h
      obtain ⟨rfl, rfl⟩ := Prod.mk.inj heq
      obtain ⟨items, hitems, rfl⟩ := ih hrest
      exact ⟨_, .escape (escape_iff.2 rfl) hitems, rfl⟩
    | case5 c rest hquote hlast hescape ih =>
      -- a backslash is the last character or escapes the next one
      have hslash : c ≠ '\\' := by
        rintro rfl
        rcases rest with _ | ⟨d, rest⟩
        · exact hlast rfl rfl
        · exact hescape d rest rfl rfl
      obtain ⟨⟨contents, after⟩, hrest, heq⟩ := Option.map_eq_some_iff.1 h
      obtain ⟨rfl, rfl⟩ := Prod.mk.inj heq
      obtain ⟨items, hitems, rfl⟩ := ih hrest
      exact ⟨_, .plain hquote hslash hitems, rfl⟩
  · rintro ⟨items, hitems, rfl⟩
    induction hitems with
    | nil => rfl
    | plain hquote hslash _ ih =>
      rw [List.cons_append, body?_cons hquote hslash, ih]
      rfl
    | escape hc _ ih =>
      rw [List.cons_append, List.cons_append, body?, ih, escape_iff.1 hc]
      rfl

/-- **A literal that is cut off before its closing quote has no end.** Otherwise the whole literal
would end where its part does. -/
theorem body?_eq_none_of_prefix {items contents part : List Char} (h : Items items contents)
    (hpart : part <+: items) : body? part = none := by
  obtain ⟨rest, rfl⟩ := hpart
  have hwhole : body? (part ++ rest ++ ['"']) = some (contents, []) :=
    body?_eq_some_iff.2 ⟨_, h, rfl⟩
  by_contra hsome
  obtain ⟨⟨contents', after⟩, hpart⟩ := Option.ne_none_iff_exists'.1 hsome
  obtain ⟨items', hitems', rfl⟩ := body?_eq_some_iff.1 hpart
  have hearly : body? (items' ++ '"' :: after ++ rest ++ ['"']) =
      some (contents', after ++ rest ++ ['"']) :=
    body?_eq_some_iff.2 ⟨items', hitems', by simp⟩
  exact absurd (hwhole.symm.trans hearly) (by simp)

end Text.Quoted

namespace StringLiteral

open Quoted

/-! ### Literals -/

theorem parse_of_isLiteral {blanks literal contents : List Char}
    (hblanks : isBlankText blanks = true) (hliteral : IsLiteral literal contents)
    (hprint : contents.all isPrintable = true) (rest : List Char) :
    parse (blanks ++ (literal ++ rest)) = .ok (terminated contents, rest) := by
  obtain @⟨items, _, hitems⟩ := hliteral
  refine parse_eq_ok_iff.2 ⟨items ++ '"' :: rest, contents, ?_, ?_, hprint, rfl⟩
  · rw [trimStart_append hblanks, List.cons_append, List.cons_append,
      trimStart_eq_self (by decide), List.append_assoc, List.singleton_append]
  · exact body?_eq_some_iff.2 ⟨items, hitems, rfl⟩

/-- **What is read as one string**: a literal that can be printed, behind blanks and in front of any
text. -/
theorem parse_eq_ok_iff_isLiteral {text rest : List Char} {bytes : List UInt8} :
    parse text = .ok (bytes, rest) ↔
      ∃ blanks literal contents, text = blanks ++ (literal ++ rest) ∧ isBlankText blanks = true ∧
        IsLiteral literal contents ∧ contents.all isPrintable = true ∧
        bytes = terminated contents := by
  constructor
  · intro h
    obtain ⟨body, contents, htrim, hbody, hprint, rfl⟩ := parse_eq_ok_iff.1 h
    obtain ⟨blanks, hblanks, htext⟩ := exists_eq_append_trimStart text
    obtain ⟨items, hitems, rfl⟩ := body?_eq_some_iff.1 hbody
    refine ⟨blanks, _, contents, ?_, hblanks, .intro hitems, hprint, rfl⟩
    rw [htext, htrim, List.cons_append, List.cons_append, List.append_assoc,
      List.singleton_append]
  · rintro ⟨blanks, literal, contents, rfl, hblanks, hliteral, hprint, rfl⟩
    exact parse_of_isLiteral hblanks hliteral hprint rest

/-- A quote that begins a text and that no other one closes. -/
theorem parse_of_body?_eq_none {body : List Char} (h : body? body = none) :
    parse ('"' :: body) = .error (.notString (String.ofList ('"' :: body))) := by
  rw [parse, trimStart_eq_self (by decide)]
  simp only [h]

/-! ### Rows of literals -/

/-- One or more literals and their contents. Blanks may stand between literals and after the last
one. -/
inductive Row : List Char → List (List Char) → Prop
  | single {literal contents blanks : List Char} (h : IsLiteral literal contents)
    (hblanks : isBlankText blanks = true) : Row (literal ++ blanks) [contents]
  | cons {literal contents blanks row : List Char} {others : List (List Char)}
    (h : IsLiteral literal contents) (hblanks : isBlankText blanks = true)
    (hrow : Row row others) : Row (literal ++ (blanks ++ row)) (contents :: others)

theorem Row.exists_eq_cons {row : List Char} {contents : List (List Char)} (h : Row row contents) :
    ∃ rest, row = '"' :: rest := by
  rcases h with ⟨⟨-⟩, -⟩ | ⟨⟨-⟩, -, -⟩
  · exact ⟨_, rfl⟩
  · exact ⟨_, rfl⟩

theorem parseMany_of_row {row : List Char} {contents : List (List Char)} (h : Row row contents)
    (hprint : ∀ s ∈ contents, s.all isPrintable = true) {blanks : List Char}
    (hblanks : isBlankText blanks = true) :
    parseMany (blanks ++ row) = .ok (contents.map terminated) := by
  induction h generalizing blanks with
  | single hliteral hafter =>
    rw [parseMany_eq_bind, parse_of_isLiteral hblanks hliteral (hprint _ (by simp))]
    exact if_pos hafter
  | @cons literal contents between row others hliteral hbetween hrow ih =>
    obtain ⟨hfirst, hothers⟩ := List.forall_mem_cons.1 hprint
    -- the quote of the next literal keeps the rest from being blank
    have hrest : ¬ isBlankText (between ++ row) = true := by
      obtain ⟨rest, rfl⟩ := hrow.exists_eq_cons
      simp [isBlankText, show isBlank '"' = false by decide]
    rw [parseMany_eq_bind, parse_of_isLiteral hblanks hliteral hfirst]
    show (if isBlankText (between ++ row) = true then _
      else (parseMany (between ++ row)).map (terminated contents :: ·)) = _
    rw [if_neg hrest, ih hothers hbetween]
    rfl

/-- **What is read as strings**: a row of literals that can be printed, behind blanks. The recursion
of `parseMany` follows the text that is left, and so does this induction. -/
theorem parseMany_eq_ok_iff {text : List Char} {options : List (List UInt8)} :
    parseMany text = .ok options ↔
      ∃ blanks row contents, text = blanks ++ row ∧ isBlankText blanks = true ∧ Row row contents ∧
        (∀ s ∈ contents, s.all isPrintable = true) ∧ options = contents.map terminated := by
  constructor
  · intro h
    induction hlength : text.length using Nat.strongRecOn generalizing text options with
    | ind n ih =>
      rw [parseMany_eq_bind] at h
      obtain ⟨⟨bytes, rest⟩, hfirst, h⟩ := bind_eq_ok_iff.1 h
      have hlt : rest.length < n := hlength ▸ length_rest_lt hfirst
      obtain ⟨blanks, literal, contents, rfl, hblanks, hliteral, hprint, rfl⟩ :=
        parse_eq_ok_iff_isLiteral.1 hfirst
      dsimp only at h
      split at h
      · rename_i hrest
        obtain rfl := Except.ok.inj h
        exact ⟨blanks, _, [contents], rfl, hblanks, .single hliteral hrest, by simpa using hprint,
          rfl⟩
      · obtain ⟨options, hoptions, rfl⟩ := map_eq_ok_iff.1 h
        obtain ⟨between, row, others, rfl, hbetween, hrow, hothers, rfl⟩ := ih _ hlt hoptions rfl
        exact ⟨blanks, _, contents :: others, rfl, hblanks, .cons hliteral hbetween hrow,
          List.forall_mem_cons.2 ⟨hprint, hothers⟩, rfl⟩
  · rintro ⟨blanks, row, contents, rfl, hblanks, hrow, hprint, rfl⟩
    exact parseMany_of_row hrow hprint hblanks

/-- One string and nothing but blanks behind it is a row of one string. -/
theorem parseMany_eq_singleton_iff {text : List Char} {bytes : List UInt8} :
    parseMany text = .ok [bytes] ↔
      ∃ tail, parse text = .ok (bytes, tail) ∧ isBlankText tail = true := by
  rw [parseMany_eq_bind]
  constructor
  · intro h
    obtain ⟨⟨bytes', tail⟩, hparse, h⟩ := bind_eq_ok_iff.1 h
    dsimp only at h
    split at h
    · rename_i htail
      obtain rfl := List.singleton_inj.1 (Except.ok.inj h)
      exact ⟨tail, hparse, htail⟩
    · -- another row would follow, and a row is not empty
      obtain ⟨others, hothers, heq⟩ := map_eq_ok_iff.1 h
      obtain ⟨-, row, contents, -, -, hrow, -, rfl⟩ := parseMany_eq_ok_iff.1 hothers
      rcases hrow
      · exact absurd heq (by simp)
      · exact absurd heq (by simp)
  · rintro ⟨tail, hparse, htail⟩
    rw [hparse]
    exact if_pos htail

end StringLiteral

end TileAsm
