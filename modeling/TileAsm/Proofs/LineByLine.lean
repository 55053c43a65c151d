import TileAsm.Proofs.Assembly
import TileAsm.Proofs.Lines
import TileAsm.Proofs.Tokens

/-!
# Compiling line by line

A comment can stand far above the label that it documents, and this is the only thing that ties the
lines of a source together. **Without documentation** the lines do not know of each other. What a
line gives is then a function of its text (`ParsedLine.ofLine`), the errors of a source are those of
its lines (`map_error_errors_compile`, `exists_error_iff`) in their order
(`pairwise_line_errors_compile`), and its instructions are those of its lines
(`undocumented_compile`).

An image never depends on documentation (`image_assemble_undocumented`). So whatever is done to a
source, its image can be followed line by line.
-/

namespace TileAsm

open Text

/-! ### Programs without documentation -/

/-- The instruction without the comments that document it. -/
def Instruction.undocumented : Instruction → Instruction
  | label name _ => label name []
  | i => i

/-- The program without its documentation. -/
def Program.undocumented (p : Program) : Program := p.map Instruction.undocumented

theorem Instruction.undocumented_of_isLabel {i : Instruction} (h : i.isLabel = false) :
    i.undocumented = i := by
  match i with
  | label _ _ => exact absurd h (by simp [isLabel])
  | bare _ | register _ _ | address _ _ | pair _ _ _ | tile _ _ | text _ _ | selector _ _ => rfl

namespace Program

variable (p : Program)

theorem allocate_undocumented : p.undocumented.allocate = p.allocate :=
  allocate_map (fun i ↦ by cases i <;> rfl) p

theorem layout_undocumented : p.undocumented.layout = p.layout :=
  layoutFrom_map (fun i ↦ by cases i <;> rfl) (fun _ _ i ↦ by cases i <;> rfl) _ _ _

/-- Comments are not part of the image. -/
theorem emit_resolve_undocumented (registers : RegisterTable) (labels : LabelTable) :
    (p.undocumented.resolve registers labels).emit = (p.resolve registers labels).emit := by
  rw [undocumented, resolve, resolve, List.map_map]
  exact emit_map_congr fun i _ ↦ by cases i <;> rfl

/-- **Comments cannot influence an image**, nor the error in its place. -/
theorem image_assemble_undocumented :
    Assembly.image <$> p.undocumented.assemble = Assembly.image <$> p.assemble := by
  simp only [image_assemble, allocate_undocumented, layout_undocumented, emit_resolve_undocumented]

variable {p} {q : Program}

/-- Programs that differ only in documentation have the same image. -/
theorem image_assemble_eq_of_undocumented_eq (h : p.undocumented = q.undocumented) :
    Assembly.image <$> p.assemble = Assembly.image <$> q.assemble := by
  rw [← image_assemble_undocumented, h, image_assemble_undocumented]

end Program

/-! ### What a line gives -/

namespace ParsedLine

/-- What a line without a label can give: nothing, an error, or an instruction. -/
inductive IsUnlabelled : ParsedLine → Prop
  | nothing : IsUnlabelled {}
  | rejected (e : ParseError) : IsUnlabelled { error? := some e }
  | accepted {i : Instruction} (h : i.isLabel = false) : IsUnlabelled { instructions := [i] }

/-- The line with a label in front of it. -/
def labelled (p : ParsedLine) (name : List Char) (doc : List String) : ParsedLine :=
  { p with instructions := .label (String.ofList name) doc :: p.instructions }

theorem isUnlabelled_ofInstruction (text : List Char) :
    (ofInstruction (Instruction.parse text)).IsUnlabelled := by
  rcases h : Instruction.parse text with e | i
  · exact .rejected e
  · exact .accepted (Instruction.isLabel_of_parse h)

/-- **What a line of code can give.** The documentation goes into its label and nowhere else. -/
theorem parse_cases (text : List Char) :
    ∃ p : ParsedLine, p.IsUnlabelled ∧
      ((∀ doc, parse text doc = p) ∨
        ∃ name, Name.isLabel name = true ∧ ∀ doc, parse text doc = p.labelled name doc) := by
  unfold parse
  split
  · rename_i name params hcut
    by_cases hname : Name.isLabel name = true
    · simp only [hname, if_true]
      refine ⟨_, ?_, .inr ⟨name, hname, fun doc ↦ rfl⟩⟩
      split
      · exact .nothing
      · exact isUnlabelled_ofInstruction params
    · exact ⟨_, .rejected _, .inl fun doc ↦ if_neg hname⟩
  · exact ⟨_, isUnlabelled_ofInstruction text, .inl fun doc ↦ rfl⟩

theorem parse_doc (text : List Char) (doc : List String) :
    (parse text doc).error? = (parse text []).error? ∧
      Program.undocumented (parse text doc).instructions = (parse text []).instructions := by
  obtain ⟨p, hp, h⟩ := parse_cases text
  have hinstructions : Program.undocumented p.instructions = p.instructions := by
    rcases hp with _ | e | hlabel
    · rfl
    · rfl
    · exact congrArg ([·]) (Instruction.undocumented_of_isLabel hlabel)
  rcases h with h | ⟨name, -, h⟩
  · rw [h, h]
    exact ⟨rfl, hinstructions⟩
  · rw [h, h]
    exact ⟨rfl, congrArg (Instruction.label (String.ofList name) [] :: ·) hinstructions⟩

end ParsedLine

/-- What a line of code gives, together with its number. -/
def CodeLine.parsed (line : CodeLine) : Nat × ParsedLine :=
  (line.number, ParsedLine.parse line.code line.doc)

/-- Compiling goes through the lines of code with the comments in front of them. -/
theorem compile_eq (source : String) :
    compile source =
      .ofParsed ((CodeLine.collect [] .empty (SourceLine.scan source)).map CodeLine.parsed) :=
  rfl

/-- What a line gives on its own, if it has any code. -/
def SourceLine.parsed (line : SourceLine) : ParsedLine :=
  if line.code.isEmpty then {} else ParsedLine.parse line.code []

/-- The error of a line, with the number of the line. -/
def SourceLine.lineError? (line : SourceLine) : Option LineError :=
  line.parsed.error?.map fun error ↦ { line := line.number, error }

/-- What the text of a line gives on its own. -/
def ParsedLine.ofLine (raw : List Char) : ParsedLine := (SourceLine.ofText 0 raw).parsed

/-- A carriage return at the end of a line does not matter. -/
theorem ParsedLine.ofLine_append_return (raw : List Char) :
    ofLine (raw ++ ['\r']) = ofLine raw := by
  have hcode : (SourceLine.ofText 0 (raw ++ ['\r'])).code = (SourceLine.ofText 0 raw).code := by
    show trim _ = trim _
    rw [List.takeWhile_append]
    split
    · -- there is no comment, and the code is trimmed
      rename_i hlength
      rw [(List.takeWhile_prefix _).eq_of_length hlength]
      exact trim_append_of_isBlank (by decide) raw
    · rfl
  rw [ofLine, ofLine, SourceLine.parsed, hcode]
  rfl

namespace Compilation

/-- What two parts of a source give, one after the other. -/
def append (c d : Compilation) : Compilation where
  program := c.program ++ d.program
  errors := c.errors ++ d.errors

/-- Two parts of a source are put together from what each gives. -/
theorem ofParsed_append (front back : List (Nat × ParsedLine)) :
    ofParsed (front ++ back) = (ofParsed front).append (ofParsed back) := by
  simp [ofParsed, append]

theorem ofParsed_singleton (number : Nat) (p : ParsedLine) :
    ofParsed [(number, p)] =
      { program := p.instructions,
        errors := (p.error?.map fun error ↦ { line := number, error }).toList } := by
  rcases h : p.error? with _ | error <;> simp [ofParsed, h]

/-- Whatever comments wait, each line gives what it gives on its own, apart from documentation. -/
theorem ofParsed_collect (pending : PendingComments) (lines : List SourceLine) :
    let c := ofParsed ((CodeLine.collect [] pending lines).map CodeLine.parsed)
    c.errors = lines.flatMap (fun line ↦ line.lineError?.toList) ∧
      c.program.undocumented = lines.flatMap fun line ↦ line.parsed.instructions := by
  induction lines generalizing pending with
  | nil => exact ⟨rfl, rfl⟩
  | cons line rest ih =>
    rw [CodeLine.collect]
    dsimp only
    rw [List.flatMap_cons, List.flatMap_cons]
    split
    · rename_i hempty
      -- a line without code gives nothing
      have hparsed : line.parsed = {} := by rw [SourceLine.parsed, if_pos hempty]
      rw [SourceLine.lineError?, hparsed]
      exact ih _
    · rename_i hcode
      have hparsed : line.parsed = ParsedLine.parse line.code [] := by
        rw [SourceLine.parsed, if_neg hcode]
      obtain ⟨herrors, hprogram⟩ := ih .empty
      obtain ⟨herror, hinstructions⟩ :=
        ParsedLine.parse_doc line.code (line.comment?.elim pending pending.push).toList
      rw [CodeLine.collect_eq_append, List.reverse_singleton, List.map_append, ofParsed_append,
        List.map_singleton, CodeLine.parsed, ofParsed_singleton, SourceLine.lineError?, hparsed,
        ← herror, ← hinstructions, ← herrors, ← hprogram]
      exact ⟨rfl, List.map_append⟩

end Compilation

/-- What does not depend on the number of a line is a function of its text. -/
theorem SourceLine.map_scan {β : Type} {f : SourceLine → β} {g : List Char → β}
    (h : ∀ number raw, f (ofText number raw) = g raw) (source : String) :
    (scan source).map f = (lines source.toList).map g := by
  rw [scan, List.map_map]
  calc (lines source.toList).zipIdx.map _
    _ = (lines source.toList).zipIdx.map (g ∘ Prod.fst) :=
      List.map_congr_left fun line _ ↦ h line.2 line.1
    _ = (lines source.toList).map g := by rw [← List.map_map, List.zipIdx_map_fst]

theorem SourceLine.flatMap_scan {β : Type} (f : ParsedLine → List β) (source : String) :
    ((scan source).flatMap fun line ↦ f line.parsed) =
      (lines source.toList).flatMap fun raw ↦ f (.ofLine raw) := by
  have hscan : (scan source).map parsed = (lines source.toList).map ParsedLine.ofLine :=
    map_scan (fun _ _ ↦ rfl) source
  rw [← List.flatMap_map parsed, hscan, List.flatMap_map]

/-- **The errors of a source are those of its lines.** -/
theorem map_error_errors_compile (source : String) :
    (compile source).errors.map LineError.error =
      (lines source.toList).flatMap fun raw ↦ (ParsedLine.ofLine raw).error?.toList := by
  rw [← SourceLine.flatMap_scan (·.error?.toList) source, compile_eq,
    (Compilation.ofParsed_collect .empty _).1, List.map_flatMap]
  congr 1
  funext line
  rw [SourceLine.lineError?]
  rcases line.parsed.error? with _ | error <;> rfl

/-- A line is listed with an error exactly if its text is rejected. -/
theorem exists_error_iff {source : String} {number : Nat} :
    (∃ e ∈ (compile source).errors, e.line = number) ↔
      ∃ raw, (lines source.toList)[number]? = some raw ∧ (ParsedLine.ofLine raw).error? ≠ none := by
  rw [compile_eq, (Compilation.ofParsed_collect .empty _).1]
  constructor
  · intro ⟨e, he, hnumber⟩
    obtain ⟨line, hline, he⟩ := List.mem_flatMap.1 he
    obtain ⟨⟨raw, n⟩, hraw, rfl⟩ := List.mem_map.1 hline
    obtain ⟨error, herror, rfl⟩ := Option.map_eq_some_iff.1 (Option.mem_toList.1 he)
    obtain rfl : n = number := hnumber
    have herror : (ParsedLine.ofLine raw).error? = some error := herror
    exact ⟨raw, List.mem_zipIdx_iff_getElem?.1 hraw, by simp [herror]⟩
  · intro ⟨raw, hraw, hne⟩
    obtain ⟨error, herror⟩ := Option.ne_none_iff_exists'.1 hne
    refine ⟨{ line := number, error }, List.mem_flatMap.2 ⟨.ofText number raw, ?_, ?_⟩, rfl⟩
    · exact List.mem_map.2 ⟨(raw, number), List.mem_zipIdx_iff_getElem?.2 hraw, rfl⟩
    · exact Option.mem_toList.2 (Option.map_eq_some_iff.2 ⟨error, herror, rfl⟩)

/-- The errors are listed in the order of the lines, at most one for each. -/
theorem pairwise_line_errors_compile (source : String) :
    (compile source).errors.Pairwise (·.line < ·.line) := by
  have hnumber : (SourceLine.scan source).Pairwise (·.number < ·.number) := by
    have hindex : ((lines source.toList).zipIdx.map Prod.snd).Pairwise (· < ·) := by
      rw [List.zipIdx_map_snd]
      exact List.pairwise_lt_range'
    exact List.pairwise_map.2 (List.pairwise_map.1 hindex)
  have hline : ∀ {line : SourceLine} {e}, e ∈ line.lineError?.toList → e.line = line.number := by
    intro line e he
    obtain ⟨error, -, rfl⟩ := Option.map_eq_some_iff.1 (Option.mem_toList.1 he)
    rfl
  rw [compile_eq, (Compilation.ofParsed_collect .empty _).1, List.pairwise_flatMap]
  refine ⟨fun line _ ↦ ?_, hnumber.imp fun {a b} hlt e he e' he' ↦ ?_⟩
  · rcases line.lineError? with - | e
    · exact List.Pairwise.nil
    · exact List.pairwise_singleton _ e
  · rw [hline he, hline he']
    exact hlt

/-- **The instructions of a source are those of its lines**, apart from documentation. -/
theorem undocumented_compile (source : String) :
    (compile source).program.undocumented =
      (lines source.toList).flatMap fun raw ↦ (ParsedLine.ofLine raw).instructions := by
  rw [← SourceLine.flatMap_scan ParsedLine.instructions source]
  exact (Compilation.ofParsed_collect .empty _).2

end TileAsm
