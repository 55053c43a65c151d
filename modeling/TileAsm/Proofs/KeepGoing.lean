import TileAsm.Outline
import TileAsm.Proofs.LineByLine

/-!
# Going on after rejected lines

To go on after rejected lines is to assemble what is left of a source once the rejected text is
deleted from it:

```
assemble source true = assemble (withoutRejected source) false
```

Two facts carry this. A rejected line leaves a label behind, or nothing
(`ParsedLine.instructions_of_error`), and the label alone would be an accepted line
(`ParsedLine.ofLine_colon`). So each line of the new source gives what the line in its place gave,
and no error with it (`Compilation.ofLine_kept`). That the errors vanish is part of the statement:
it is what makes the strict run on the right go through.

The comment on a deleted line is deleted with it and can have documented a label further down, so
the two programs are the same apart from their documentation only.
-/

namespace TileAsm

open Text

/-! ### What a rejected line leaves behind -/

namespace ParsedLine

/-- The label that a line declares, written as a line of its own. -/
def remainder (p : ParsedLine) : String :=
  ((Program.declarations p.instructions).head?.map fun declaration ↦ ":" ++ declaration.1).getD ""

/-- A rejected line leaves nothing behind, or a label. -/
theorem instructions_of_error {raw : List Char} (h : (ofLine raw).error? ≠ none) :
    (ofLine raw).instructions = [] ∨
      ∃ name, Name.isLabel name = true ∧
        (ofLine raw).instructions = [.label (String.ofList name) []] := by
  rw [ofLine, SourceLine.parsed] at h ⊢
  split
  · exact .inl rfl
  · rename_i hcode
    rw [if_neg hcode] at h
    obtain ⟨p, hp, hparse⟩ := parse_cases (SourceLine.ofText 0 raw).code
    have hinstructions : p.error? ≠ none → p.instructions = [] := by
      rcases hp with _ | e | hlabel
      · exact fun _ ↦ rfl
      · exact fun _ ↦ rfl
      · exact fun hne ↦ absurd rfl hne
    rcases hparse with hparse | ⟨name, hname, hparse⟩
    · rw [hparse] at h ⊢
      exact .inl (hinstructions h)
    · rw [hparse] at h ⊢
      exact .inr ⟨name, hname, congrArg (Instruction.label _ [] :: ·) (hinstructions h)⟩

/-- A label alone is an accepted line. -/
theorem ofLine_colon {name : List Char} (h : Name.isLabel name = true) :
    ofLine (':' :: name) = { instructions := [.label (String.ofList name) []] } := by
  have htoken : IsToken name := isToken_of_isName (by decide) h
  have hblank : ∀ c ∈ ':' :: name, isBlank c = false :=
    List.forall_mem_cons.2 ⟨by decide, fun c hc ↦ htoken.isBlank_eq_false hc⟩
  have hsemi : ';' ∉ ':' :: name := by
    rw [List.mem_cons, not_or]
    exact ⟨by decide, fun hmem ↦ absurd (htoken.2 _ hmem) (by decide)⟩
  have hcode : (SourceLine.ofText 0 (':' :: name)).code = ':' :: name := by
    rw [SourceLine.ofText_of_notMem hsemi]
    exact (isTrimmed_of_forall (by simp) hblank).trim_eq_self
  rw [ofLine, SourceLine.parsed, hcode, if_neg (by simp), parse, cutToken_of_forall hblank]
  simp [h]

/-- What is left of a rejected line is the text of an accepted one with the same instructions. -/
theorem ofLine_remainder {raw : List Char} (h : (ofLine raw).error? ≠ none) :
    '\n' ∉ (ofLine raw).remainder.toList ∧
      ofLine (ofLine raw).remainder.toList = { instructions := (ofLine raw).instructions } := by
  rcases instructions_of_error h with hnil | ⟨name, hname, hlabel⟩
  · rw [remainder, hnil]
    exact ⟨by decide, rfl⟩
  · have hremainder : (ofLine raw).remainder.toList = ':' :: name := by
      rw [remainder, hlabel]
      simp [Program.declarations]
    have htoken : IsToken name := isToken_of_isName (by decide) hname
    rw [hremainder, ofLine_colon hname, hlabel]
    refine ⟨fun hmem ↦ ?_, rfl⟩
    rcases List.mem_cons.1 hmem with hcolon | hmem
    · exact absurd hcolon (by decide)
    · exact absurd (htoken.2 _ hmem) (by decide)

end ParsedLine

/-! ### Sources without rejected text -/

namespace Compilation

/-- Whether a line is listed with an error. -/
def rejects (c : Compilation) (number : Nat) : Bool := c.errors.any (·.line == number)

/-- What is kept of a line: the whole of it, unless it is listed with an error. -/
def kept (c : Compilation) (number : Nat) (raw : List Char) : String :=
  if c.rejects number then (ParsedLine.ofLine raw).remainder else String.ofList raw

/-- What is kept of a line gives the same instructions, and no error. -/
theorem ofLine_kept {source : String} {raw : List Char} {number : Nat}
    (h : (lines source.toList)[number]? = some raw) :
    '\n' ∉ ((compile source).kept number raw).toList ∧
      ParsedLine.ofLine ((compile source).kept number raw).toList =
        { instructions := (ParsedLine.ofLine raw).instructions } := by
  have hrejects : (compile source).rejects number = true ↔
      (ParsedLine.ofLine raw).error? ≠ none := by
    rw [rejects, List.any_eq_true]
    simp only [beq_iff_eq]
    rw [exists_error_iff, h]
    simp
  rw [kept]
  split
  · rename_i hlisted
    exact ParsedLine.ofLine_remainder (hrejects.1 hlisted)
  · rename_i hlisted
    have herror : (ParsedLine.ofLine raw).error? = none := by
      rwa [hrejects, not_not] at hlisted
    rw [String.toList_ofList, ← herror]
    exact ⟨newline_notMem_of_mem_lines (List.mem_of_getElem? h), rfl⟩

end Compilation

/-- The source without the text of its rejected lines, apart from the labels that they declare. -/
def withoutRejected (source : String) : String :=
  "\n".intercalate <| (lines source.toList).zipIdx.map fun line ↦
    (compile source).kept line.2 line.1

/-- Line by line, a source without rejected text gives the same instructions, and no errors. -/
theorem flatMap_lines_withoutRejected {β : Type} {f : ParsedLine → List β} (hf : f {} = [])
    (source : String) :
    ((lines (withoutRejected source).toList).flatMap fun raw ↦ f (.ofLine raw)) =
      (lines source.toList).flatMap fun raw ↦
        f { instructions := (ParsedLine.ofLine raw).instructions } := by
  have hkept : ∀ line ∈ (lines source.toList).zipIdx, _ := fun line hline ↦
    Compilation.ofLine_kept (List.mem_zipIdx_iff_getElem?.1 hline)
  rw [withoutRejected, flatMap_lines_intercalate (f := fun raw ↦ f (.ofLine raw)) hf
    fun line ↦ congrArg f (ParsedLine.ofLine_append_return line)]
  · rw [List.flatMap_map]
    calc (lines source.toList).zipIdx.flatMap _
      _ = (lines source.toList).zipIdx.flatMap fun line ↦
            f { instructions := (ParsedLine.ofLine line.1).instructions } :=
        List.flatMap_congr fun line hline ↦ congrArg f (hkept line hline).2
      _ = ((lines source.toList).zipIdx.map Prod.fst).flatMap fun raw ↦
            f { instructions := (ParsedLine.ofLine raw).instructions } := by
        rw [List.flatMap_map]
      _ = _ := by rw [List.zipIdx_map_fst]
  · intro t ht
    obtain ⟨line, hline, rfl⟩ := List.mem_map.1 ht
    exact (hkept line hline).1

/-- **To go on is to delete.** Without the text that was rejected no line is, and assembling what is
left gives what going on after the errors gives, an image or an error. -/
theorem assemble_withoutRejected (source : String) :
    (compile (withoutRejected source)).errors = [] ∧
      assemble (withoutRejected source) false = assemble source true := by
  have herrors : (compile (withoutRejected source)).errors = [] := by
    rw [← List.map_eq_nil_iff, map_error_errors_compile,
      flatMap_lines_withoutRejected (f := (·.error?.toList)) rfl]
    simp
  have hprogram : (compile (withoutRejected source)).program.undocumented =
      (compile source).program.undocumented := by
    rw [undocumented_compile, undocumented_compile,
      flatMap_lines_withoutRejected (f := ParsedLine.instructions) rfl]
  refine ⟨herrors, ?_⟩
  rw [assemble_source_eq, assemble_source_eq, if_neg (by simp [herrors]), if_neg (by simp)]
  exact Program.image_assemble_eq_of_undocumented_eq hprogram

end TileAsm
