import TileAsm.Compilation
import TileAsm.Proofs.Lines
import TileAsm.Proofs.Reading

/-!
# Sources that hold nothing but code

A source without comments, labels and blanks around its code is compiled line by line: each line
gives its instruction and nothing else happens (`compile_intercalate`). Two things are shown on the
way: a line of code is its own code (`SourceLine.ofText_of_isCodeLine`), and a line that does not
start with a colon is an instruction (`ParsedLine.parse_of_head?_ne`).

A source of one line may have a comment behind its code, and the line may be rejected
(`compile_of_line`).
-/

namespace TileAsm

open Text

/-! ### Lines of code -/

/-- A text that is all code, and an instruction rather than a label. -/
structure IsCodeLine (text : List Char) : Prop where
  /-- No blank stands around the code. -/
  isTrimmed : IsTrimmed text
  /-- There is no line break and no comment. -/
  isCodeChar : ∀ c ∈ text, Quoted.isCodeChar c = true
  /-- It does not start with a label. -/
  head_ne : text.head? ≠ some ':'

namespace IsCodeLine

variable {text : List Char} (h : IsCodeLine text)

include h

theorem notMem {c : Char} (hc : Quoted.isCodeChar c = false) : c ∉ text := fun hmem ↦ by
  simp [h.isCodeChar c hmem] at hc

end IsCodeLine

/-- A mnemonic and operands with spaces between them are a line of code. -/
theorem isCodeLine_intercalate (op : Opcode) {operands : List String}
    (h : ∀ w ∈ operands, IsTrimmed w.toList ∧ ∀ c ∈ w.toList, Quoted.isCodeChar c = true) :
    IsCodeLine (" ".intercalate (op.mnemonic :: operands)).toList := by
  have htoken := op.isToken_mnemonic
  have hword : ∀ s ∈ op.mnemonic.toList :: operands.map String.toList,
      IsTrimmed s ∧ ∀ c ∈ s, Quoted.isCodeChar c = true := by
    intro s hs
    rcases List.mem_cons.1 hs with rfl | hs
    · exact ⟨htoken.isTrimmed, fun c hc ↦ Quoted.isCodeChar_of_isTokenChar (htoken.2 c hc)⟩
    · obtain ⟨w, hw, rfl⟩ := List.mem_map.1 hs
      exact h w hw
  rw [toList_intercalate_space]
  refine ⟨IsTrimmed.spaced fun s hs ↦ (hword s hs).1, ?_, ?_⟩
  · intro c hc
    rcases mem_spaced hc with rfl | ⟨s, hs, hc⟩
    · decide
    · exact (hword s hs).2 c hc
  · rw [spaced, List.head?_append_of_ne_nil _ htoken.1]
    intro hcolon
    exact absurd (htoken.2 ':' (List.mem_of_mem_head? hcolon)) (by decide)

/-- A line of code is all code. -/
theorem SourceLine.ofText_of_isCodeLine {text : List Char} (h : IsCodeLine text) (number : Nat) :
    ofText number text = { number, code := text, comment? := none, isBlank := false } := by
  have hblank : isBlankText text = false := by
    obtain ⟨⟨c, hc, hblank⟩, -⟩ := h.isTrimmed
    rw [isBlankText, List.all_eq_false]
    exact ⟨c, List.mem_of_mem_head? hc, by simp [hblank]⟩
  rw [ofText_of_notMem (h.notMem rfl), h.isTrimmed.trim_eq_self, hblank]

theorem ParsedLine.parse_of_head?_ne {text : List Char} (h : text.head? ≠ some ':')
    (doc : List String) : parse text doc = ofInstruction (Instruction.parse text) := by
  rw [parse]
  split
  · rename_i name params hcut
    -- a token that starts with a colon is one that the text starts with
    have htoken : text.takeWhile (!isBlank ·) = ':' :: name := congrArg Prod.fst hcut
    have hhead : text.head? = some ':' := by
      rw [← List.takeWhile_append_dropWhile (p := (!isBlank ·)) (l := text), htoken]
      rfl
    exact absurd hhead h
  · rfl

/-! ### Sources -/

section Sources

variable {α : Type*} {text : α → String} {result : α → Instruction}

/-- Lines of code are collected one by one, and nothing documents them. -/
theorem CodeLine.collect_of_isCodeLine {as : List α} (h : ∀ a ∈ as, IsCodeLine (text a).toList)
    (n : Nat) :
    collect [] .empty (((as.map fun a ↦ (text a).toList).zipIdx n).map fun (raw, number) ↦
        SourceLine.ofText number raw) =
      (as.zipIdx n).map fun (a, number) ↦ ⟨number, (text a).toList, []⟩ := by
  induction as generalizing n with
  | nil => rfl
  | cons a as ih =>
    have ha := h a (by simp)
    have ih := ih (fun b hb ↦ h b (by simp [hb])) (n + 1)
    have hne : (text a).toList.isEmpty = false := by simpa using ha.isTrimmed.ne_nil
    rw [List.map_cons, List.zipIdx_cons, List.map_cons]
    dsimp only
    rw [SourceLine.ofText_of_isCodeLine ha, collect]
    dsimp only [Option.elim_none]
    rw [hne, if_neg (by decide), collect_eq_append, ih]
    rfl

/-- Lines that give one instruction each are put together to a program without errors. -/
theorem Compilation.ofParsed_of_accepted (as : List α) (n : Nat) :
    ofParsed ((as.zipIdx n).map fun (a, number) ↦ (number, { instructions := [result a] })) =
      { program := as.map result, errors := [] } := by
  induction as generalizing n with
  | nil => rfl
  | cons a as ih =>
    have ih := ih (n + 1)
    have hstep : ∀ rest, ofParsed ((n, { instructions := [result a] }) :: rest) =
        { program := result a :: (ofParsed rest).program, errors := (ofParsed rest).errors } :=
      fun _ ↦ rfl
    rw [List.zipIdx_cons, List.map_cons, hstep, ih]
    rfl

/-- **A source of one line** gives what its code is read as, if this is no label. -/
theorem compile_of_line {line : String} (hbreak : '\n' ∉ line.toList)
    (hne : (SourceLine.ofText 0 line.toList).code ≠ [])
    (hhead : (SourceLine.ofText 0 line.toList).code.head? ≠ some ':') :
    compile line = .ofParsed
      [(0, .ofInstruction (Instruction.parse (SourceLine.ofText 0 line.toList).code))] := by
  have hline : line.toList ≠ [] := by
    intro hnil
    rw [hnil] at hne
    exact hne rfl
  have hempty : (SourceLine.ofText 0 line.toList).code.isEmpty = false := by simpa using hne
  have hscan : SourceLine.scan line = [.ofText 0 line.toList] := by
    rw [SourceLine.scan, lines_of_notMem hbreak hline]
    rfl
  rw [compile, hscan, CodeLine.ofLines, CodeLine.collect, if_neg (by simp [hempty]),
    ← ParsedLine.parse_of_head?_ne hhead]
  rfl

/-- **A source of code lines** gives the instruction of each line, and no errors. -/
theorem compile_intercalate {as : List α} (hcode : ∀ a ∈ as, IsCodeLine (text a).toList)
    (hparse : ∀ a ∈ as, Instruction.parse (text a).toList = .ok (result a)) :
    compile ("\n".intercalate (as.map text)) = { program := as.map result, errors := [] } := by
  have hlines : lines ("\n".intercalate (as.map text)).toList =
      as.map fun a ↦ (text a).toList := by
    rw [lines_intercalate, List.map_map]
    · rfl
    · intro t ht
      obtain ⟨a, ha, rfl⟩ := List.mem_map.1 ht
      exact ⟨(hcode a ha).isTrimmed.ne_nil, (hcode a ha).notMem rfl, (hcode a ha).notMem rfl⟩
  have hparsed : ∀ a ∈ as,
      ParsedLine.parse (text a).toList [] = { instructions := [result a] } := by
    intro a ha
    rw [ParsedLine.parse_of_head?_ne (hcode a ha).head_ne, hparse a ha]
    rfl
  rw [compile, CodeLine.ofLines, SourceLine.scan, hlines, CodeLine.collect_of_isCodeLine hcode,
    List.map_map]
  have hmap : (as.zipIdx.map ((fun line : CodeLine ↦
      (line.number, ParsedLine.parse line.code line.doc)) ∘ fun (a, number) ↦
        ⟨number, (text a).toList, []⟩)) =
      as.zipIdx.map fun (a, number) ↦ (number, { instructions := [result a] }) := by
    refine List.map_congr_left fun (a, number) ha ↦ ?_
    exact congrArg (number, ·) (hparsed a (List.fst_mem_of_mem_zipIdx ha))
  rw [hmap, Compilation.ofParsed_of_accepted]

end Sources

end TileAsm
