import TileAsm.Proofs.Documentation

/-!
# Text that does not count

Two things can be done to a source without a change of what is made of it.

* **Line feeds may have carriage returns in front of them**, all of them or some (`withReturns`).
  The lines of the source stay the same (`lines_withReturns`), and nothing but its lines is read.
* **Comments may be left out** (`withoutComments`). This takes the documentation away from the
  labels and changes nothing else. Every line keeps its number and its code, and a line of code that
  is read again is its own code and has no comment (`SourceLine.ofText_code`). Only an empty last
  line is lost, which gives nothing (`Compilation.ofParsed_append_of_nothing`).

For the second part a source is compared with another one apart from documentation. What is left of
it then is a function of the texts of its lines, each read on its own (`undocumented_compile_eq`).
-/

namespace TileAsm

open Text

/-! ### Line endings -/

/-- A character, with a carriage return in front of it if it is a line feed and chosen. -/
def withReturn (chosen : Bool) (c : Char) : List Char :=
  if c = '\n' ∧ chosen = true then ['\r', '\n'] else [c]

/-- The source with a carriage return in front of the line feeds at the chosen places. -/
def withReturns (chosen : Nat → Bool) (source : String) : String :=
  String.ofList (source.toList.zipIdx.flatMap fun c ↦ withReturn (chosen c.2) c.1)

theorem flatMap_withReturn_of_notMem (chosen : Nat → Bool) {line : List Char} (h : '\n' ∉ line)
    (start : Nat) :
    ((line.zipIdx start).flatMap fun c ↦ withReturn (chosen c.2) c.1) = line := by
  induction line generalizing start with
  | nil => rfl
  | cons c line ih =>
    rw [List.mem_cons, not_or] at h
    have hc : ¬ (c = '\n' ∧ chosen start = true) := fun hboth ↦ h.1 hboth.1.symm
    rw [List.zipIdx_cons, List.flatMap_cons, ih h.2, withReturn, if_neg hc]
    rfl

/-- Carriage returns in front of line feeds do not change the lines. -/
theorem lines_withReturns (chosen : Nat → Bool) {s : List Char} (h : '\r' ∉ s) (start : Nat) :
    lines ((s.zipIdx start).flatMap fun c ↦ withReturn (chosen c.2) c.1) = lines s := by
  induction s using lines_induction generalizing start with
  | last line hline => rw [flatMap_withReturn_of_notMem chosen hline]
  | next line rest hline ih =>
    rw [List.mem_append, List.mem_cons, not_or, not_or] at h
    have hlast : line.getLast? ≠ some '\r' := fun hlast ↦ h.1 (List.mem_of_getLast? hlast)
    rw [List.zipIdx_append, List.flatMap_append, flatMap_withReturn_of_notMem chosen hline,
      List.zipIdx_cons, List.flatMap_cons, lines_append_newline hline hlast, withReturn]
    split
    · rw [List.cons_append, List.singleton_append, lines_append_return_newline hline, ih h.2.2]
    · rw [List.singleton_append, lines_append_newline hline hlast, ih h.2.2]

/-- **Line endings do not matter.** In a source without carriage returns any of the line feeds can
be given one, and the source is compiled to the same instructions, documented by the same comments,
and the same errors in the same lines. -/
theorem compile_withReturns {source : String} (h : '\r' ∉ source.toList) (chosen : Nat → Bool) :
    compile (withReturns chosen source) = compile source := by
  have hlines : lines (withReturns chosen source).toList = lines source.toList := by
    rw [withReturns, String.toList_ofList, lines_withReturns chosen h]
  rw [compile, SourceLine.scan, hlines]
  rfl

/-- Two of three line feeds behind a comment, a rejected operand and an unknown instruction. -/
theorem compile_withReturns_of_mixed_endings :
    let source := "; note\n:la JUMP x\nBAD\nEXIT"
    '\r' ∉ source.toList ∧ withReturns (· != 17) source = "; note\r\n:la JUMP x\nBAD\r\nEXIT" ∧
      compile "; note\r\n:la JUMP x\nBAD\r\nEXIT" =
        { program := [.label "la" ["note"], .bare .exit],
          errors := [⟨1, .notLabel "x"⟩, ⟨2, .unknownInstruction "BAD"⟩] } := by
  intro source
  have hreturn : '\r' ∉ source.toList := by decide
  have htext : withReturns (· != 17) source = "; note\r\n:la JUMP x\nBAD\r\nEXIT" := by
    decide +kernel
  have hcompile := compile_withReturns hreturn (· != 17)
  rw [htext] at hcompile
  refine ⟨hreturn, htext, hcompile.trans ?_⟩
  decide +kernel

/-! ### What lines give on their own -/

/-- What a source gives, apart from documentation. -/
def Compilation.undocumented (c : Compilation) : Compilation :=
  { c with program := c.program.undocumented }

theorem Compilation.undocumented_eq_iff {c d : Compilation} :
    c.undocumented = d.undocumented ↔
      c.program.undocumented = d.program.undocumented ∧ c.errors = d.errors := by
  rw [undocumented, undocumented, mk.injEq]

/-- What lines give on their own, each with its number. -/
def ParsedLine.ofLines (raws : List (List Char)) : List (Nat × ParsedLine) :=
  raws.zipIdx.map fun line ↦ (line.2, .ofLine line.1)

/-- **Apart from documentation a source gives what its lines give on their own.** -/
theorem undocumented_compile_eq (source : String) :
    (compile source).undocumented = .ofParsed (ParsedLine.ofLines (lines source.toList)) := by
  obtain ⟨herrors, hprogram⟩ := Compilation.ofParsed_collect .empty (SourceLine.scan source)
  rw [Compilation.undocumented, compile_eq, herrors, hprogram, SourceLine.scan, List.flatMap_map,
    List.flatMap_map, Compilation.ofParsed, ParsedLine.ofLines, List.flatMap_map,
    List.filterMap_map, List.filterMap_eq_flatMap_toList]
  rfl

/-- Lines that give nothing can be added at the end. -/
theorem Compilation.ofParsed_append_of_nothing {front back : List (Nat × ParsedLine)}
    (h : ∀ p ∈ back, p.2 = {}) : ofParsed (front ++ back) = ofParsed front := by
  have hprogram : (back.flatMap fun p ↦ p.2.instructions) = [] :=
    List.flatMap_eq_nil_iff.2 fun p hp ↦ by rw [h p hp]
  have herrors : (back.filterMap fun p ↦ p.2.error?.map fun error ↦
      ({ line := p.1, error } : LineError)) = [] :=
    List.filterMap_eq_nil_iff.2 fun p hp ↦ by rw [h p hp]; rfl
  have hback : ofParsed back = {} := by
    rw [ofParsed, hprogram, herrors]
  rw [ofParsed_append, hback, append, List.append_nil, List.append_nil]

theorem ParsedLine.ofLines_append (front back : List (List Char)) :
    ofLines (front ++ back) =
      ofLines front ++ (back.zipIdx front.length).map fun line ↦ (line.2, .ofLine line.1) := by
  rw [ofLines, List.zipIdx_append, List.map_append, Nat.zero_add]
  rfl

theorem ParsedLine.ofLines_map {f : List Char → List Char} (hf : ∀ raw, ofLine (f raw) = ofLine raw)
    (raws : List (List Char)) : ofLines (raws.map f) = ofLines raws := by
  rw [ofLines, ofLines, List.zipIdx_map, List.map_map]
  exact List.map_congr_left fun line _ ↦ congrArg (line.2, ·) (hf line.1)

/-! ### Comments -/

/-- The code of the lines of a source, without the comments. -/
def withoutComments (source : String) : String :=
  "\n".intercalate ((SourceLine.scan source).map fun line ↦ String.ofList line.code)

namespace SourceLine

/-- The code of a line is all code. -/
theorem ofText_code (number n : Nat) (raw : List Char) :
    ofText number (ofText n raw).code =
      { number, code := (ofText n raw).code, comment? := none,
        isBlank := isBlankText (ofText n raw).code } := by
  have htrim : trim (ofText n raw).code = (ofText n raw).code := trim_trim _
  rw [ofText_of_notMem (semicolon_notMem_code_ofText n raw), htrim]

theorem newline_notMem_code {source : String} {line : SourceLine} (h : line ∈ scan source) :
    '\n' ∉ line.code := by
  obtain ⟨⟨raw, number⟩, hraw, rfl⟩ := List.mem_map.1 h
  intro hmem
  have hline := newline_notMem_of_mem_lines (List.fst_mem_of_mem_zipIdx hraw)
  exact hline ((List.takeWhile_prefix _).subset (mem_of_mem_trim hmem))

/-- Code has no carriage return that could be taken for a part of a line feed behind it. -/
theorem getLast?_code_ne_return (number : Nat) (raw : List Char) :
    (ofText number raw).code.getLast? ≠ some '\r' := by
  intro hlast
  rcases trim_eq_nil_or_isTrimmed (raw.takeWhile (· != ';')) with hnil | ⟨-, c, hc, hblank⟩
  · exact absurd (hlast.symm.trans (congrArg _ hnil)) (by simp)
  · obtain rfl : '\r' = c := Option.some.inj (hlast.symm.trans hc)
    exact absurd hblank (by decide)

end SourceLine

theorem ParsedLine.ofLine_code (raw : List Char) :
    ofLine (SourceLine.ofText 0 raw).code = ofLine raw := by
  rw [ofLine, ofLine, SourceLine.parsed, SourceLine.ofText_code]
  rfl

/-- The lines of a source without comments are the code of its lines. -/
theorem exists_lines_withoutComments (source : String) :
    ∃ k, (SourceLine.scan source).map SourceLine.code =
      lines (withoutComments source).toList ++ List.replicate k [] := by
  have hlines : ∀ t ∈ (SourceLine.scan source).map fun line ↦ String.ofList line.code,
      '\n' ∉ t.toList ∧ t.toList.getLast? ≠ some '\r' := by
    intro t ht
    obtain ⟨line, hline, rfl⟩ := List.mem_map.1 ht
    rw [String.toList_ofList]
    refine ⟨SourceLine.newline_notMem_code hline, ?_⟩
    obtain ⟨⟨raw, number⟩, -, rfl⟩ := List.mem_map.1 hline
    exact SourceLine.getLast?_code_ne_return number raw
  obtain ⟨k, hk⟩ := exists_lines_intercalate_append hlines
  refine ⟨k, ?_⟩
  rw [withoutComments, ← hk, List.map_map]
  simp [Function.comp_def]

theorem undocumented_compile_withoutComments (source : String) :
    (compile (withoutComments source)).undocumented = (compile source).undocumented := by
  obtain ⟨k, hk⟩ := exists_lines_withoutComments source
  have hcode : (SourceLine.scan source).map SourceLine.code =
      (lines source.toList).map fun raw ↦ (SourceLine.ofText 0 raw).code :=
    SourceLine.map_scan (fun _ _ ↦ rfl) source
  calc (compile (withoutComments source)).undocumented
    _ = .ofParsed (ParsedLine.ofLines (lines (withoutComments source).toList)) :=
      undocumented_compile_eq _
    _ = .ofParsed (ParsedLine.ofLines
          (lines (withoutComments source).toList ++ List.replicate k [])) := by
      rw [ParsedLine.ofLines_append, Compilation.ofParsed_append_of_nothing]
      intro p hp
      obtain ⟨line, hline, rfl⟩ := List.mem_map.1 hp
      rw [List.eq_of_mem_replicate (List.fst_mem_of_mem_zipIdx hline)]
      rfl
    _ = .ofParsed (ParsedLine.ofLines (lines source.toList)) := by
      rw [← hk, hcode, ParsedLine.ofLines_map ParsedLine.ofLine_code]
    _ = (compile source).undocumented := (undocumented_compile_eq source).symm

/-- Where there are no comments nothing is documented. -/
theorem undocumented_program_of_no_comments {source : String}
    (h : ∀ line ∈ SourceLine.scan source, line.comment? = none) :
    (compile source).program.undocumented = (compile source).program := by
  have hself : ∀ i ∈ (compile source).program, i.undocumented = i := by
    intro i hi
    rw [program_compile] at hi
    obtain ⟨part, hpart, hi⟩ := List.mem_flatten.1 hi
    obtain ⟨k, hk, rfl⟩ := List.mem_mapIdx.1 hpart
    rcases hlabel : i.isLabel with _ | _
    · exact Instruction.undocumented_of_isLabel hlabel
    · obtain ⟨name, doc, rfl⟩ := Instruction.eq_label_of_isLabel hlabel
      rw [SourceLine.eq_of_label_mem_instructionsWith hi, SourceLine.documentation,
        List.filterMap_eq_nil_iff.2]
      · rfl
      · intro line hline
        rcases List.mem_append.1 hline with hline | hline
        · exact h line (List.mem_of_mem_take ((List.rtakeWhile_suffix _ _).subset hline))
        · rw [List.mem_singleton.1 hline]
          exact h _ (List.getElem_mem hk)
  exact (List.map_congr_left hself).trans (List.map_id _)

theorem comment?_of_mem_scan_withoutComments {source : String} {line : SourceLine}
    (h : line ∈ SourceLine.scan (withoutComments source)) : line.comment? = none := by
  obtain ⟨⟨raw, number⟩, hraw, rfl⟩ := List.mem_map.1 h
  obtain ⟨k, hk⟩ := exists_lines_withoutComments source
  have hcode : raw ∈ (SourceLine.scan source).map SourceLine.code := by
    rw [hk]
    exact List.mem_append_left _ (List.fst_mem_of_mem_zipIdx hraw)
  obtain ⟨commented, hcommented, rfl⟩ := List.mem_map.1 hcode
  have hsemi := SourceLine.semicolon_notMem_code hcommented
  exact congrArg _ (SourceLine.ofText_of_notMem hsemi number)

/-- **Comments do not count.** Without its comments a source has the same errors in the same lines,
and the same instructions, whose labels are no longer documented. So it is assembled to the same
image, or fails with the same error, whether it is to go on after rejected lines or not. -/
theorem comments_are_inert (source : String) :
    (compile (withoutComments source)).errors = (compile source).errors ∧
      (compile (withoutComments source)).program = (compile source).program.undocumented ∧
      ∀ keepGoing, assemble (withoutComments source) keepGoing = assemble source keepGoing := by
  obtain ⟨hundocumented, herrors⟩ :=
    Compilation.undocumented_eq_iff.1 (undocumented_compile_withoutComments source)
  refine ⟨herrors, ?_, fun keepGoing ↦ ?_⟩
  · rw [← hundocumented]
    exact (undocumented_program_of_no_comments fun _ ↦ comment?_of_mem_scan_withoutComments).symm
  · rw [assemble_source_eq, assemble_source_eq, herrors,
      Program.image_assemble_eq_of_undocumented_eq hundocumented]

-- a line that was a comment stays as an empty one, so the lines below keep their numbers
example : withoutComments "; note\n:la  ; here\r\n\tEXIT;\n;\n" = "\n:la\nEXIT\n" := by
  decide +kernel

end TileAsm
