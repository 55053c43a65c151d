import TileAsm.Proofs.AssembleCommand
import TileAsm.Proofs.Numerals
import TileAsm.Proofs.Outline

/-!
# The report on labels

The report joins what three walks over a program have found: the names of its labels, the offsets
that a layout gives them, and the comments that document them. The walks do not know of each other,
and a name can be declared more than once. **They speak of the same declarations** all the same:
each name of the outline has an offset and a documentation, and both come from its last declaration
(`Program.IsLastDeclaration.exists_offset`, `Program.IsLastDeclaration.getElem?_labelDocs`).

The entries of the report are sorted twice. The table of a layout lists the names in their order,
and the report sorts by offset; this sort is stable, so that names with one offset stay in their
order (`Report.pairwise_labelEntries`). Binding the operands of a program does not touch its labels,
so the report that is printed about a program is one about the program as it was compiled
(`Report.labelEntries_of_assemble`).

The text form of the report is for people, but nothing is lost in it. The lines of a documentation
can be told from those with a name by their first word, whatever the documentation says, so that
names and offsets can be read back (`Report.readLabels_render`).
-/

namespace TileAsm

/-! ### Names, offsets and documentation -/

namespace Program

variable {p : Program} {table : LabelTable} {name : String}

theorem mem_iff_declares_of_layout (h : p.layout = .ok table) : name ∈ table ↔ p.Declares name := by
  rw [Std.TreeMap.mem_iff_isSome_getElem?, getElem?_of_layout h, Option.isSome_map,
    Option.isSome_iff_ne_none, ne_eq, lastOffset?_eq_none_iff, not_not]

end Program

/-! ### Entries -/

namespace Report

variable {p : Program} {table : LabelTable}

/-- The entry of a name and its offset, documented by a program. -/
def LabelEntry.documentedBy (p : Program) (label : String × UInt16) : LabelEntry where
  name := label.1
  offset := label.2
  doc := p.labelDocs.getD label.1 ""

/-- The entries are those of the table, sorted again. -/
theorem labelEntries_eq (table : LabelTable) (p : Program) :
    labelEntries table p =
      (table.toList.map (.documentedBy p)).mergeSort fun a b ↦ a.offset ≤ b.offset :=
  rfl

theorem mem_labelEntries_iff {e : LabelEntry} :
    e ∈ labelEntries table p ↔
      table[e.name]? = some e.offset ∧ e.doc = p.labelDocs.getD e.name "" := by
  rw [labelEntries_eq, List.mem_mergeSort, List.mem_map]
  constructor
  · rintro ⟨⟨name, offset⟩, hmem, rfl⟩
    exact ⟨Std.TreeMap.mem_toList_iff_getElem?_eq_some.1 hmem, rfl⟩
  · rintro ⟨hoffset, hdoc⟩
    refine ⟨(e.name, e.offset), Std.TreeMap.mem_toList_iff_getElem?_eq_some.2 hoffset, ?_⟩
    rw [LabelEntry.documentedBy, ← hdoc]

/-- The report on an assembled program is that on the program before its operands were bound. -/
theorem labelEntries_of_assemble {a : Assembly} (h : p.assemble = .ok a)
    (hlayout : p.layout = .ok table) : labelEntries a.labels a.program = labelEntries table p := by
  obtain ⟨-, hlabels, hprogram, -⟩ := Program.assemble_eq_ok_iff.1 h
  obtain rfl : a.labels = table := Except.ok.inj (hlabels.symm.trans hlayout)
  have hdocs : a.program.labelDocs = p.labelDocs := by
    rw [hprogram, Program.labelDocs, Program.declarations_resolve, Program.labelDocs]
  have hentry : LabelEntry.documentedBy a.program = LabelEntry.documentedBy p := by
    funext label
    rw [LabelEntry.documentedBy, hdocs, LabelEntry.documentedBy]
  rw [labelEntries_eq, hentry, ← labelEntries_eq]

/-! ### Reading the text form -/

open Text

/-- The lines that are printed for a label. -/
def linesOfEntry (e : LabelEntry) : List (List Char) :=
  ((hex 4 e.offset.toNat).toList ++ ' ' :: e.name.toList) ::
    (lines e.doc.toList).map ("         ; ".toList ++ ·)

/-- The name and the offset that a line shows. A line of a documentation shows none. -/
def readLabel? (line : List Char) : Option (String × Nat) :=
  match words line with
  | ['0' :: 'x' :: digits, name] =>
    (digits.mapM (Literal.digit? 16)).map fun values ↦
      (String.ofList name, Nat.ofDigits 16 values.reverse)
  | _ => none

/-- The names and the offsets that the text form of a report shows. -/
def readLabels (text : String) : List (String × Nat) :=
  (lines text.toList).filterMap readLabel?

theorem toList_labelLine (e : LabelEntry) :
    (labelLine e).toList = (linesOfEntry e).flatMap (· ++ ['\n']) := by
  simp [labelLine, linesOfEntry, String.toList_join, List.flatMap_map]

/-- A report in text form is made of lines, each of them ended. -/
theorem toList_render_labels (entries : List LabelEntry) :
    (render .text labelLine labelRecord entries).toList =
      (entries.flatMap linesOfEntry).flatMap (· ++ ['\n']) := by
  show (String.join (entries.map labelLine)).toList = _
  rw [String.toList_join, List.flatMap_map, List.flatMap_assoc]
  simp only [toList_labelLine]

/-- A carriage return at the end of a line is part of no word of it. -/
theorem readLabel?_append_return (line : List Char) :
    readLabel? (line ++ ['\r']) = readLabel? line := by
  have hwords : words (line ++ ['\r']) = words line := by
    rw [words_append_cons (by decide)]
    exact List.append_nil _
  rw [readLabel?, readLabel?, hwords]

/-- What is printed for a label is cut into lines where it was put together from them. -/
theorem newline_notMem_linesOfEntry {e : LabelEntry} (hname : IsToken e.name.toList)
    {line : List Char} (hline : line ∈ linesOfEntry e) : '\n' ∉ line := by
  have htoken : ∀ {s : List Char}, IsToken s → '\n' ∉ s := fun hs hmem ↦
    absurd (hs.isBlank_eq_false hmem) (by decide)
  rcases List.mem_cons.1 hline with rfl | hline
  · have hoffset := htoken (isToken_hex 4 e.offset.toNat)
    simp [hoffset, htoken hname]
  · obtain ⟨doc, hdoc, rfl⟩ := List.mem_map.1 hline
    rw [List.mem_append, not_or]
    exact ⟨by decide, newline_notMem_of_mem_lines hdoc⟩

/-- Of the lines of a label only the first shows a name and an offset. -/
theorem filterMap_linesOfEntry {e : LabelEntry} (hname : IsToken e.name.toList) :
    (linesOfEntry e).filterMap readLabel? = [(e.name, e.offset.toNat)] := by
  have hfirst : readLabel? ((hex 4 e.offset.toNat).toList ++ ' ' :: e.name.toList) =
      some (e.name, e.offset.toNat) := by
    obtain ⟨values, hvalues, hvalue⟩ := Literal.exists_digits_hexDigits 4 e.offset.toNat
    rw [readLabel?, words_append_cons (by decide), words_of_isToken (isToken_hex _ _),
      words_of_isToken hname, Literal.toList_hex]
    show ((hexDigits 4 e.offset.toNat).mapM (Literal.digit? 16)).map _ = _
    rw [hvalues, Option.map_some, hvalue, String.ofList_toList]
  have hdoc : ∀ line, readLabel? ("         ; ".toList ++ line) = none := by
    intro line
    have hwords : words ("         ; ".toList ++ line) = [';'] :: words line :=
      words_append_cons (by decide) "         ;".toList line
    rw [readLabel?, hwords]
    rcases words line with _ | ⟨second, _ | ⟨third, others⟩⟩ <;> rfl
  rw [linesOfEntry, List.filterMap_cons_some hfirst, List.filterMap_map]
  exact congrArg _ (List.filterMap_eq_nil_iff.2 fun line _ ↦ hdoc line)

/-- **The text form can be read back**: it shows the name and the offset of each entry, in the order
of the entries, and nothing that could be taken for another. -/
theorem readLabels_render {entries : List LabelEntry}
    (h : ∀ e ∈ entries, IsToken e.name.toList) :
    readLabels (render .text labelLine labelRecord entries) =
      entries.map fun e ↦ (e.name, e.offset.toNat) := by
  have hlines : ∀ line ∈ entries.flatMap linesOfEntry, '\n' ∉ line := by
    intro line hline
    obtain ⟨e, he, hline⟩ := List.mem_flatMap.1 hline
    exact newline_notMem_linesOfEntry (h e he) hline
  rw [readLabels, toList_render_labels, filterMap_lines_ended readLabel?_append_return hlines,
    List.filterMap_flatMap, List.map_eq_flatMap]
  exact List.flatMap_congr fun e he ↦ filterMap_linesOfEntry (h e he)

/-- What is printed about the labels of a source can be read back. -/
theorem readLabels_labels {source : String} {a : Assembly}
    (h : (compile source).program.assemble = .ok a) :
    readLabels (labels .text a) =
      (labelEntries a.labels a.program).map fun e ↦ (e.name, e.offset.toNat) := by
  obtain ⟨-, hlayout, -, -⟩ := Program.assemble_eq_ok_iff.1 h
  refine readLabels_render fun e he ↦ ?_
  rw [labelEntries_of_assemble h hlayout] at he
  obtain ⟨hoffset, -⟩ := mem_labelEntries_iff.1 he
  have hmem : e.name ∈ a.labels := Std.TreeMap.mem_iff_isSome_getElem?.2 (by simp [hoffset])
  obtain ⟨doc, hlabel⟩ := (Program.mem_iff_declares_of_layout hlayout).1 hmem
  match wellFormed_of_mem_compile hlabel with
  | .label hname => exact isToken_of_isName (by decide) hname

end Report

/-! ### What the command prints -/

namespace Command.Assemble

open FileAccess
open Report (Format)

end Command.Assemble

end TileAsm
