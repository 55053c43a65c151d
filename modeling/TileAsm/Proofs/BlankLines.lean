import TileAsm.Proofs.Documentation

/-!
# Sources with a blank line between them

Two sources with a blank line between them are compiled as if each stood alone:

```
compile (a ++ "\n" ++ b) = compile a, and then compile b with its errors further down
```

Comments are all that one line of a source hands on to the next, so the lines of a source can be
scanned in two parts if the second part starts with the comments that wait below the first one
(`CodeLine.collect_append`). **No comments wait below a blank line**, whatever stands above it
(`CodeLine.collect_blank`). From there on a source is scanned as if it started there, apart from the
numbers of its lines, which are passed on to the errors and to nothing else
(`Compilation.ofParsed_movedDown`).

The source in front has to end with the end of a line, or the line feed that is put behind it would
end its last line and not be a line of its own.
-/

namespace TileAsm

open Text

/-! ### Lines that are moved down -/

/-- The line with some more lines above it. -/
def SourceLine.movedDown (k : Nat) (line : SourceLine) : SourceLine :=
  { line with number := line.number + k }

/-- The line of code with some more lines above it. -/
def CodeLine.movedDown (k : Nat) (line : CodeLine) : CodeLine :=
  { line with number := line.number + k }

/-- The error of a line with some more lines above it. -/
def LineError.movedDown (k : Nat) (e : LineError) : LineError :=
  { e with line := e.line + k }

/-- What a source gives if some more lines without instructions stand above it. -/
def Compilation.movedDown (k : Nat) (c : Compilation) : Compilation :=
  { c with errors := c.errors.map (LineError.movedDown k) }

/-- The number of a line is passed on to its error, and to nothing else. -/
theorem Compilation.ofParsed_movedDown (k : Nat) (lines : List CodeLine) :
    ofParsed ((lines.map (CodeLine.movedDown k)).map CodeLine.parsed) =
      (ofParsed (lines.map CodeLine.parsed)).movedDown k := by
  induction lines with
  | nil => rfl
  | cons line rest ih =>
    rw [List.map_cons, List.map_cons, List.map_cons, ← List.singleton_append, ofParsed_append, ih,
      ← List.singleton_append (l := rest.map _), ofParsed_append, CodeLine.parsed, CodeLine.parsed,
      ofParsed_singleton, ofParsed_singleton]
    rcases h : (ParsedLine.parse line.code line.doc).error? with _ | error <;>
      simp [append, movedDown, CodeLine.movedDown, LineError.movedDown, h]

namespace CodeLine

theorem collect_map_movedDown (k : Nat) (pending : PendingComments) (lines : List SourceLine) :
    collect [] pending (lines.map (SourceLine.movedDown k)) =
      (collect [] pending lines).map (movedDown k) := by
  induction lines generalizing pending with
  | nil => rfl
  | cons line rest ih =>
    simp only [List.map_cons, collect, SourceLine.movedDown]
    split
    · exact ih _
    · rw [collect_eq_append, ih, collect_eq_append [_]]
      rfl

/-- Below a blank line no comments wait. -/
theorem collect_blank (pending : PendingComments) (number : Nat) (below : List SourceLine) :
    collect [] pending (.ofText number [] :: below) = collect [] .empty below := rfl

end CodeLine

/-! ### Sources in two parts -/

theorem SourceLine.map_ofText_zipIdx (k : Nat) (raws : List (List Char)) :
    (raws.zipIdx k).map (fun line ↦ ofText line.2 line.1) =
      (raws.zipIdx.map fun line ↦ ofText line.2 line.1).map (movedDown k) := by
  rw [List.zipIdx_eq_map_add, List.map_map, List.map_map]
  refine List.map_congr_left fun line _ ↦ ?_
  show ofText (k + line.2) line.1 = ofText (line.2 + k) line.1
  rw [Nat.add_comm]

theorem SourceLine.scan_across_blank_line {a : String}
    (h : a = "" ∨ a.toList.getLast? = some '\n') (b : String) :
    scan (a ++ "\n" ++ b) =
      scan a ++ ofText (a.toList.count '\n') [] ::
        (scan b).map (movedDown (a.toList.count '\n' + 1)) := by
  have hend : a.toList = [] ∨ a.toList.getLast? = some '\n' := h.imp_left (by rintro rfl; rfl)
  have htext : (a ++ "\n" ++ b).toList = a.toList ++ '\n' :: b.toList := by simp
  have hlines : lines (a ++ "\n" ++ b).toList = lines a.toList ++ [] :: lines b.toList := by
    rw [htext, lines_append hend]
    rfl
  have hscan : ∀ source, scan source =
      (lines source.toList).zipIdx.map fun line ↦ ofText line.2 line.1 := fun _ ↦ rfl
  rw [hscan, hscan, hscan, hlines, List.zipIdx_append, Nat.zero_add, length_lines hend,
    List.zipIdx_cons, List.map_append, List.map_cons, map_ofText_zipIdx (_ + 1)]

/-- **A blank line keeps two sources apart.** With a blank line between them they give the
instructions of the first one and then those of the second one, each with the documentation that it
has on its own, and likewise the errors, where those of the second one are as many lines further
down as there are lines above. In every source the errors are in the order of their lines, and no
line has two. -/
theorem compile_across_blank_line :
    (∀ a b : String, a = "" ∨ a.toList.getLast? = some '\n' →
      compile (a ++ "\n" ++ b) =
        (compile a).append ((compile b).movedDown (a.toList.count '\n' + 1))) ∧
    ∀ source : String, (compile source).errors.Pairwise (·.line < ·.line) := by
  refine ⟨fun a b h ↦ ?_, pairwise_line_errors_compile⟩
  rw [compile_eq, SourceLine.scan_across_blank_line h, CodeLine.collect_append,
    CodeLine.collect_blank, CodeLine.collect_map_movedDown, List.map_append,
    Compilation.ofParsed_append, Compilation.ofParsed_movedDown]
  rfl

/-- The comment that the first source ends with does not reach the label that the second one starts
with, and the second error is three lines further down than it would be on its own. -/
theorem compile_across_blank_line_behind_comment :
    compile ("BAD\r\n; note\r\n" ++ "\n" ++ ":la WORSE ; here\n") =
      { program := [.label "la" ["here"]],
        errors := [⟨0, .unknownInstruction "BAD"⟩, ⟨3, .unknownInstruction "WORSE"⟩] } := by
  rw [compile_across_blank_line.1 _ _ (.inr (by decide))]
  decide +kernel

end TileAsm
