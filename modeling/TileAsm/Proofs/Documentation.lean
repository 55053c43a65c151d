import Mathlib.Order.Bounds.Basic
import TileAsm.Proofs.LineByLine

/-!
# The comments that document a label

Comments wait until a line of code takes them, and a blank line sends them away. So at each line
those wait that stand behind the last line that **separates**, being blank or having code. This is
the invariant of the scan (`Waits.after`). What waits is all that the lines above hand on to the
lines below (`CodeLine.collect_append`), so the program of a source is known line by line together
with its documentation (`program_compile`). A label gets all that its line has taken
(`eq_of_label_mem_instructionsWith`).

The last separating line above a label says where its documentation starts (`isDocStart_docStart`).
From there on each line above the label is a comment and nothing else
(`exists_comment_of_docStart_le`).
-/

namespace TileAsm

open Text

/-! ### Labels of a line -/

namespace ParsedLine

theorem IsUnlabelled.label_notMem {p : ParsedLine} (h : p.IsUnlabelled) (name : String)
    (doc : List String) : .label name doc ∉ p.instructions := by
  intro hmem
  rcases h with _ | e | hlabel
  · exact List.not_mem_nil hmem
  · exact List.not_mem_nil hmem
  · rw [← List.mem_singleton.1 hmem] at hlabel
    exact absurd hlabel (by simp [Instruction.isLabel])

theorem eq_of_label_mem_parse {text : List Char} {name : String} {doc doc' : List String}
    (h : .label name doc' ∈ (parse text doc).instructions) : doc' = doc := by
  obtain ⟨p, hp, hparse | ⟨name', -, hparse⟩⟩ := parse_cases text
  · rw [hparse] at h
    exact absurd h (hp.label_notMem name doc')
  · rw [hparse] at h
    rcases List.mem_cons.1 h with heq | hmem
    · exact (Instruction.label.inj heq).2
    · exact absurd hmem (hp.label_notMem name doc')

end ParsedLine

namespace SourceLine

/-! ### Lines that separate -/

/-- Whether the comments above a line do not reach the lines below it: it is blank or has code. -/
def separates (line : SourceLine) : Bool := line.isBlank || !line.code.isEmpty

/-- The comments that a line takes if the given lines stand above it: those behind the last of them
that separates, and its own. -/
def documentation (above : List SourceLine) (line : SourceLine) : List String :=
  (above.rtakeWhile (!·.separates) ++ [line]).filterMap comment?

/-- The instructions of a line with the given documentation. -/
def instructionsWith (line : SourceLine) (doc : List String) : Program :=
  if line.code.isEmpty then [] else (ParsedLine.parse line.code doc).instructions

theorem undocumented_instructionsWith (line : SourceLine) (doc : List String) :
    (line.instructionsWith doc).undocumented = line.parsed.instructions := by
  rw [instructionsWith, parsed]
  split
  · rfl
  · exact (ParsedLine.parse_doc line.code doc).2

/-- A label is documented by all that its line has taken. -/
theorem eq_of_label_mem_instructionsWith {line : SourceLine} {name : String}
    {doc doc' : List String} (h : .label name doc' ∈ line.instructionsWith doc) : doc' = doc := by
  rw [instructionsWith] at h
  split at h
  · exact absurd h List.not_mem_nil
  · exact ParsedLine.eq_of_label_mem_parse h

/-- A line of a source that does not separate is a comment and nothing else. -/
theorem exists_comment_of_not_separates {number : Nat} {raw : List Char}
    (h : (ofText number raw).separates = false) :
    ∃ comment, (ofText number raw).comment? = some comment := by
  obtain ⟨hblank, hcode⟩ := Bool.or_eq_false_iff.1 h
  rcases hrest : raw.dropWhile (· != ';') with _ | ⟨c, rest⟩
  · -- without a semicolon there would be nothing but blanks on the line
    have hraw : raw.takeWhile (· != ';') = raw := by
      simpa [hrest] using List.takeWhile_append_dropWhile (p := (· != ';')) (l := raw)
    have htrim : trim raw = [] := by simpa [ofText, hraw] using hcode
    have hblank : isBlankText raw = false := hblank
    rw [isBlankText_of_trim_eq_nil htrim] at hblank
    exact absurd hblank (by decide)
  · exact ⟨String.ofList (commentText rest), by rw [ofText, hrest]⟩

end SourceLine

/-! ### Comments that wait -/

namespace PendingComments

/-- The comments that wait after a line. -/
def after (pending : PendingComments) (line : SourceLine) : PendingComments :=
  if line.separates then .empty else line.comment?.elim pending pending.push

/-- The comments that wait below some lines are those behind the last line that separates. -/
def Waits (pending : PendingComments) (above : List SourceLine) : Prop :=
  pending.toList = (above.rtakeWhile (!·.separates)).filterMap SourceLine.comment?

variable {pending : PendingComments} {above : List SourceLine}

theorem Waits.toList_push (h : pending.Waits above) (line : SourceLine) :
    (line.comment?.elim pending pending.push).toList = line.documentation above := by
  rw [SourceLine.documentation, List.filterMap_append, ← h]
  rcases hcomment : line.comment? with _ | comment <;> simp [hcomment]

/-- **What waits is kept up from line to line.** -/
theorem Waits.after (h : pending.Waits above) (line : SourceLine) :
    (pending.after line).Waits (above ++ [line]) := by
  rw [Waits, PendingComments.after]
  by_cases hline : line.separates = true
  · rw [if_pos hline, List.rtakeWhile_concat_neg _ _ _ (by simp [hline])]
    rfl
  · rw [if_neg hline, List.rtakeWhile_concat_pos _ _ _ (by simp [hline]), h.toList_push]
    rfl

end PendingComments

/-! ### Programs with their documentation -/

/-- **The lines of a source can be scanned in two parts.** The comments that wait below the first
part are all that the second one has to know of it. -/
theorem CodeLine.collect_append (pending : PendingComments) (above below : List SourceLine) :
    collect [] pending (above ++ below) =
      collect [] pending above ++ collect [] (above.foldl PendingComments.after pending) below := by
  induction above generalizing pending with
  | nil => rfl
  | cons line above ih =>
    rw [List.cons_append, collect, collect, List.foldl_cons, PendingComments.after,
      SourceLine.separates]
    by_cases hcode : line.code.isEmpty = true
    · simp only [hcode, if_true, Bool.not_true, Bool.or_false]
      exact ih _
    · simp only [hcode, Bool.false_eq_true, if_false, Bool.not_false, Bool.or_true, if_true]
      rw [collect_eq_append, ih, collect_eq_append [_] .empty above, List.append_assoc]

namespace Compilation

/-- A line gives its instructions, documented by what waits and by itself. -/
theorem program_collect_cons (pending : PendingComments) (line : SourceLine)
    (rest : List SourceLine) :
    (ofParsed ((CodeLine.collect [] pending (line :: rest)).map CodeLine.parsed)).program =
      line.instructionsWith (line.comment?.elim pending pending.push).toList ++
        (ofParsed
          ((CodeLine.collect [] (pending.after line) rest).map CodeLine.parsed)).program := by
  have hline : (ofParsed ((CodeLine.collect [] pending [line]).map CodeLine.parsed)).program =
      line.instructionsWith (line.comment?.elim pending pending.push).toList := by
    rw [CodeLine.collect, SourceLine.instructionsWith]
    split
    · rfl
    · simp [CodeLine.collect, ofParsed, CodeLine.parsed]
  rw [← List.singleton_append, CodeLine.collect_append, List.map_append, ofParsed_append, append,
    hline]
  rfl

/-- **The program of some lines, line by line and with its documentation.** -/
theorem program_collect {pending : PendingComments} {above : List SourceLine}
    (h : pending.Waits above) (lines : List SourceLine) :
    (ofParsed ((CodeLine.collect [] pending lines).map CodeLine.parsed)).program =
      (lines.mapIdx fun k line ↦
        line.instructionsWith (line.documentation (above ++ lines.take k))).flatten := by
  induction lines generalizing pending above with
  | nil => rfl
  | cons line rest ih =>
    rw [program_collect_cons, h.toList_push, ih (h.after line), List.mapIdx_cons,
      List.flatten_cons, List.take_zero, List.append_nil]
    simp only [List.take_succ_cons, List.append_assoc, List.singleton_append]

end Compilation

theorem program_compile (source : String) :
    (compile source).program =
      ((SourceLine.scan source).mapIdx fun k line ↦
        line.instructionsWith (line.documentation ((SourceLine.scan source).take k))).flatten := by
  have hwaits : PendingComments.empty.Waits [] := rfl
  rw [compile_eq, Compilation.program_collect hwaits]
  rfl

/-! ### Where documentation starts -/

namespace SourceLine

variable {lines : List SourceLine} {k : Nat} {line : SourceLine}

/-- The numbers of the lines above a line that separate. -/
def separatorsAbove (lines : List SourceLine) (k : Nat) : Set Nat :=
  {j | j < k ∧ ∃ line, lines[j]? = some line ∧ line.separates = true}

/-- The documentation of a line starts behind the last line above it that separates, or with the
first line of the source. -/
def IsDocStart (lines : List SourceLine) (k start : Nat) : Prop :=
  separatorsAbove lines k = ∅ ∧ start = 0 ∨
    ∃ j, IsGreatest (separatorsAbove lines k) j ∧ start = j + 1

/-- The number of the line that documentation starts with. -/
def docStart (lines : List SourceLine) (k : Nat) : Nat :=
  ((lines.take k).rdropWhile (!·.separates)).length

theorem drop_docStart (lines : List SourceLine) (k : Nat) :
    (lines.take k).drop (docStart lines k) = (lines.take k).rtakeWhile (!·.separates) := by
  have hcut : (lines.take k).rdropWhile (!·.separates) ++ (lines.take k).rtakeWhile (!·.separates) =
      lines.take k := List.rdropWhile_append_rtakeWhile
  calc (lines.take k).drop (docStart lines k)
    _ = ((lines.take k).rdropWhile (!·.separates) ++
          (lines.take k).rtakeWhile (!·.separates)).drop (docStart lines k) := by rw [hcut]
    _ = (lines.take k).rtakeWhile (!·.separates) := List.drop_left

/-- No line from there on separates. -/
theorem separates_of_docStart_le {m : Nat} (hstart : docStart lines k ≤ m) (hm : m < k)
    (hline : lines[m]? = some line) : line.separates = false := by
  have hmem : line ∈ (lines.take k).rtakeWhile (!·.separates) := by
    rw [← drop_docStart]
    refine List.mem_of_getElem? (i := m - docStart lines k) ?_
    rw [List.getElem?_drop, Nat.add_sub_cancel' hstart, List.getElem?_take_of_lt hm, hline]
  simpa using List.mem_rtakeWhile_imp hmem

theorem isDocStart_docStart (lines : List SourceLine) (k : Nat) :
    IsDocStart lines k (docStart lines k) := by
  have hbelow : ∀ j ∈ separatorsAbove lines k, j < docStart lines k := by
    intro j hj
    obtain ⟨hlt, line, hline, hseparates⟩ := hj
    by_contra hle
    rw [separates_of_docStart_le (Nat.not_lt.1 hle) hlt hline] at hseparates
    cases hseparates
  rcases List.eq_nil_or_concat ((lines.take k).rdropWhile (!·.separates)) with
    hfront | ⟨front, last, hfront⟩
  · have hstart : docStart lines k = 0 := by
      rw [docStart, hfront]
      rfl
    refine .inl ⟨Set.eq_empty_of_forall_notMem fun j hj ↦ ?_, hstart⟩
    exact absurd (hbelow j hj) (by omega)
  · have hstart : docStart lines k = front.length + 1 := by
      rw [docStart, hfront, List.length_concat]
    have hlast : last.separates = true := by
      simpa [hfront] using List.rdropWhile_last_not (!·.separates) (lines.take k) (by simp [hfront])
    have hget : (lines.take k)[front.length]? = some last := by
      rw [← List.rdropWhile_append_rtakeWhile (p := (!·.separates)) (l := lines.take k), hfront]
      simp
    rw [List.getElem?_take, Option.ite_none_right_eq_some] at hget
    obtain ⟨hlt, hline⟩ := hget
    refine .inr ⟨front.length, ⟨⟨hlt, last, hline, hlast⟩, fun j hj ↦ ?_⟩, hstart⟩
    have hlt := hbelow j hj
    omega

/-- A line takes all comments from the start of its documentation on. -/
theorem documentation_eq (hline : lines[k]? = some line) :
    line.documentation (lines.take k) =
      ((lines.take (k + 1)).drop (docStart lines k)).filterMap comment? := by
  have hle : docStart lines k ≤ (lines.take k).length := (List.rdropWhile_prefix _ _).length_le
  rw [documentation, List.take_add_one, hline, Option.toList_some,
    List.drop_append_of_le_length hle, drop_docStart]

/-- A line of a source is a line of its text, with the place as its number. -/
theorem exists_ofText_of_getElem?_scan {source : String} (h : (scan source)[k]? = some line) :
    ∃ raw, line = ofText k raw := by
  rw [scan, List.getElem?_map, List.getElem?_zipIdx, Nat.zero_add, Option.map_map] at h
  obtain ⟨raw, -, hraw⟩ := Option.map_eq_some_iff.1 h
  exact ⟨raw, hraw.symm⟩

theorem exists_comment_of_docStart_le {source : String} {m : Nat}
    (hlength : k ≤ (scan source).length) (hstart : docStart (scan source) k ≤ m) (hm : m < k) :
    ∃ line comment, (scan source)[m]? = some line ∧ line.comment? = some comment := by
  obtain ⟨line, hline⟩ : ∃ line, (scan source)[m]? = some line :=
    ⟨_, List.getElem?_eq_getElem (Nat.lt_of_lt_of_le hm hlength)⟩
  have hseparates := separates_of_docStart_le hstart hm hline
  obtain ⟨raw, rfl⟩ := exists_ofText_of_getElem?_scan hline
  obtain ⟨comment, hcomment⟩ := exists_comment_of_not_separates hseparates
  exact ⟨_, comment, hline, hcomment⟩

end SourceLine

/-- **Comments document the label below them.** The program of a source is made of one part for each
line, which is what the line gives on its own but for documentation. Each label of the part of line
`k` is documented by the comments of the lines from `start` up to line `k`, in their order, where
`start` follows on the last line above `k` that is blank or has code. Each of the lines from `start`
up to the one above `k` has a comment. -/
theorem comments_document_label_below (source : String) :
    let lines := SourceLine.scan source
    ∃ parts : List Program, (compile source).program = parts.flatten ∧
      parts.length = lines.length ∧
      ∀ k line part, lines[k]? = some line → parts[k]? = some part →
        line.number = k ∧ part.undocumented = line.parsed.instructions ∧
        ∀ name doc, .label name doc ∈ part →
          ∃ start, SourceLine.IsDocStart lines k start ∧
            doc = ((lines.take (k + 1)).drop start).filterMap SourceLine.comment? ∧
            ∀ m, start ≤ m → m < k →
              ∃ line comment, lines[m]? = some line ∧ line.comment? = some comment := by
  intro lines
  refine ⟨_, program_compile source, List.length_mapIdx, fun k line part hline hpart ↦ ?_⟩
  rw [List.getElem?_mapIdx, hline] at hpart
  obtain rfl : _ = part := Option.some.inj hpart
  obtain ⟨raw, rfl⟩ := SourceLine.exists_ofText_of_getElem?_scan hline
  refine ⟨rfl, SourceLine.undocumented_instructionsWith _ _, fun name doc hlabel ↦ ?_⟩
  have hdoc := SourceLine.eq_of_label_mem_instructionsWith hlabel
  have hlength : k < lines.length := (List.getElem?_eq_some_iff.1 hline).1
  exact ⟨SourceLine.docStart lines k, SourceLine.isDocStart_docStart lines k,
    hdoc.trans (SourceLine.documentation_eq hline),
    fun m ↦ SourceLine.exists_comment_of_docStart_le hlength.le⟩

end TileAsm
