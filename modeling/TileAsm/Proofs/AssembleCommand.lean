import TileAsm.Command.Assemble
import TileAsm.Proofs.Files
import TileAsm.Proofs.LineByLine

/-!
# The assembler command and its files

The command goes from a source to its image by steps of its own. They are those that
`TileAsm.assemble` takes, with the errors put into words (`build_compile`), so the two agree on
every image and on every failure (`image_build`).

Around these steps the command reads, prints and writes. It is followed here on any lawful file
system: reading and printing leave the files alone (`run_readText`, `run_diagnostics`), and of what
comes after them only the last thing writes. So a run that fails changes no file
(`run_assemble_of_error`), and one that succeeds changes the files by one write
(`run_assemble_of_ok`).

Whatever the outcome, the rejected lines have been printed before it is known. Every combination of
options can be asked for (`ofWords_commandLine`).
-/

namespace TileAsm.Command.Assemble

open FileAccess
open Report (Format)

/-! ### Command lines -/

/-- The name of a form of reports. -/
def formatName : Format → String
  | .text => "text"
  | .json => "json"

/-- A command line that asks for an image. -/
def commandLine (source output : String) (keepGoing labels registers : Bool) (format : Format) :
    List String :=
  (if keepGoing then ["--keep-going"] else []) ++ (if labels then ["--labels"] else []) ++
    (if registers then ["--registers"] else []) ++
    ["--format=" ++ formatName format, "--output=" ++ output, "--", source]

/-- A word that is read on its own is the next argument. -/
theorem argument_ofWords_cons {word : String} {argument : Argument Key}
    (h : Argument.readWord forms word = .complete [argument]) (hword : word ≠ "--")
    (rest : List String) :
    Argument.ofWords forms (word :: rest) = argument :: Argument.ofWords forms rest := by
  rw [Argument.ofWords, if_neg hword, h]
  rfl

theorem argument_ofWords_output (output : String) (rest : List String) :
    Argument.ofWords forms (("--output=" ++ output) :: rest) =
      .setting .output output :: Argument.ofWords forms rest := by
  have htext : ("--output=" ++ output).toList = "--output=".toList ++ output.toList :=
    String.toList_append
  refine argument_ofWords_cons ?_ (fun heq ↦ ?_) rest
  · rw [Argument.readWord, htext]
    show Argument.Reading.complete [.setting Key.output (String.ofList output.toList)] = _
    rw [String.ofList_toList]
  · rw [heq] at htext
    exact absurd htext (by simp)

/-- Whatever is to be done with a source can be asked for. -/
theorem ofWords_commandLine {source output : String} (hsource : source ≠ "") (houtput : output ≠ "")
    (keepGoing labels registers : Bool) (format : Format) :
    Request.ofWords (commandLine source output keepGoing labels registers format) =
      .ok (.assemble source output keepGoing labels registers format) := by
  have hkeepGoing : ∀ rest, Argument.ofWords forms ("--keep-going" :: rest) =
      .flag .keepGoing :: Argument.ofWords forms rest := argument_ofWords_cons rfl (by decide)
  have hlabels : ∀ rest, Argument.ofWords forms ("--labels" :: rest) =
      .flag .labels :: Argument.ofWords forms rest := argument_ofWords_cons rfl (by decide)
  have hregisters : ∀ rest, Argument.ofWords forms ("--registers" :: rest) =
      .flag .registers :: Argument.ofWords forms rest := argument_ofWords_cons rfl (by decide)
  have hformat : ∀ rest, Argument.ofWords forms (("--format=" ++ formatName format) :: rest) =
      .setting .format (formatName format) :: Argument.ofWords forms rest := by
    rcases format
    · exact argument_ofWords_cons rfl (by decide)
    · exact argument_ofWords_cons rfl (by decide)
  have hname : Format.ofName? (formatName format) = some format := by
    rcases format <;> rfl
  have hend : Argument.ofWords forms ["--", source] = [.operand source] := rfl
  rw [Request.ofWords]
  rcases keepGoing <;> rcases labels <;> rcases registers <;>
    simp [commandLine, hkeepGoing, hlabels, hregisters, hformat, argument_ofWords_output, hend,
      Options.add, hname, hsource, houtput]

/-! ### From a compiled source to its image -/

/-- The sentence in which a failed assembly is reported. -/
def failureMessage : AsmError → String
  | .rejectedLines errors => toString errors.length ++ " line(s) failed to assemble"
  | e => e.message

/-- The command words the errors of a program as the assembler does. -/
theorem failureMessage_of_assemble {text : String} {e : AsmError}
    (h : (compile text).program.assemble = .error e) : failureMessage e = e.message := by
  have hunbound : ∀ i ∈ (compile text).program, i.Unbound := fun i hi ↦ unbound_of_mem_compile hi
  rcases (Program.assemble_eq_error_iff hunbound).1 h with ⟨-, rfl⟩ | ⟨-, s, -, rfl⟩ |
    ⟨-, -, name, -, rfl⟩
  · rfl
  · rfl
  · rfl

/-- Assembling goes on with the whole program, unless rejected lines stop it. -/
theorem selected_eq (c : Compilation) (keepGoing : Bool) :
    c.selected keepGoing =
      if c.hasErrors && !keepGoing then .error (.rejectedLines c.errors) else .ok c.program := by
  rcases keepGoing
  · rw [Bool.not_false, Bool.and_true]
    rfl
  · rw [Bool.not_true, Bool.and_false]
    rfl

/-- After its check for rejected lines the command takes the steps of `Program.assemble`. -/
theorem build_eq (c : Compilation) (keepGoing : Bool) :
    build c keepGoing =
      if c.hasErrors && !keepGoing then
        .error (toString c.errors.length ++ " line(s) failed to assemble")
      else c.program.assemble.mapError AsmError.message := by
  rw [build]
  split
  · rfl
  · rw [Program.assemble]
    rcases c.program.resolveRegisters with ⟨e | registers, p⟩
    · rfl
    · simp only [ok_bind, Except.mapError]
      rcases p.resolveLabels with ⟨e | labels, q⟩
      · rfl
      · rcases q.emit with e | image <;> rfl

/-- **The command takes the steps of the assembler**, and puts their errors into words. -/
theorem build_compile (text : String) (keepGoing : Bool) :
    build (compile text) keepGoing =
      ((compile text).selected keepGoing >>= Program.assemble).mapError failureMessage := by
  rw [build_eq, selected_eq]
  split
  · rfl
  · rw [ok_bind]
    rcases h : (compile text).program.assemble with e | a
    · show Except.error e.message = Except.error (failureMessage e)
      rw [failureMessage_of_assemble h]
    · rfl

/-- So they agree on the image of a source and on when there is none. -/
theorem image_build (text : String) (keepGoing : Bool) :
    Assembly.image <$> build (compile text) keepGoing =
      (TileAsm.assemble text keepGoing).mapError failureMessage := by
  rw [build_compile, TileAsm.assemble]
  rcases (compile text).selected keepGoing with e | program
  · rfl
  · rw [ok_bind, ok_bind]
    rcases program.assemble with e | a <;> rfl

/-! ### Steps of a run -/

/-- The bytes of a text. -/
def utf8 (text : String) : List UInt8 := text.toUTF8.data.toList

theorem fromUTF8?_utf8 (text : String) : String.fromUTF8? (utf8 text).toByteArray = some text := by
  have hbytes : (utf8 text).toByteArray = text.toUTF8 := by
    refine ByteArray.ext ?_
    rw [List.data_toByteArray, utf8, Array.toArray_toList]
  rw [hbytes, String.fromUTF8?]
  exact dif_pos text.isValidUTF8

section Run

variable {σ α β : Type} {s s' : σ}

theorem run_bind_of_run_eq {x : StateM σ α} {f : α → StateM σ β} {a : α} (h : x.run s = (a, s')) :
    (x >>= f).run s = (f a).run s' := by
  rw [StateT.run_bind, h]
  rfl

variable [FileAccess (StateM σ)] [LawfulFileAccess σ] {source output text : String}
  {keepGoing labels registers : Bool} {format : Format} {image : List UInt8}

theorem run_readText (h : contents s source = .ok (utf8 text)) :
    (readText source : StateM σ (Except String String)).run s = (.ok text, s) := by
  rw [readText, run_bind_of_run_eq (LawfulFileAccess.run_read source s), h]
  dsimp only
  rw [fromUTF8?_utf8]
  rfl

theorem run_diagnostics (c : Compilation) :
    (diagnostics source c : StateM σ String).run s =
      (String.join (c.errors.map (diagnostic (location s source))), s) := by
  rw [diagnostics, Compilation.hasErrors]
  rcases c.errors with - | ⟨e, errors⟩
  · rfl
  · show StateT.run (absolute source >>= _) s = _
    rw [run_bind_of_run_eq (LawfulFileAccess.run_absolute source s)]
    rfl

/-! ### Runs -/

/-- What the command prints about the rejected lines of a source. -/
def report (s : σ) (source text : String) : String :=
  String.join ((compile text).errors.map (diagnostic (location s source)))

/-- A run without an image ends before anything is written. -/
theorem run_assemble_of_error (hsource : contents s source = .ok (utf8 text)) {e : AsmError}
    (h : TileAsm.assemble text keepGoing = .error e) :
    (assemble source output keepGoing labels registers format : StateM σ Outcome).run s =
      (.failure (report s source text) (failureMessage e), s) := by
  have hbuild : build (compile text) keepGoing = .error (failureMessage e) := by
    refine map_eq_error_iff.1 ((image_build text keepGoing).trans ?_)
    rw [h]
    rfl
  rw [assemble, run_bind_of_run_eq (run_readText hsource)]
  dsimp only
  rw [run_bind_of_run_eq (run_diagnostics (compile text)), hbuild]
  rfl

/-- A run that gets as far as an image writes it and prints the reports. -/
theorem run_assemble_of_build {a : Assembly} (hsource : contents s source = .ok (utf8 text))
    (hbuild : build (compile text) keepGoing = .ok a)
    (hwrite : (write output a.image : StateM σ (Except FileError Unit)).run s = (.ok (), s')) :
    (assemble source output keepGoing labels registers format : StateM σ Outcome).run s =
      ({ output := reports labels registers format a, errors := report s source text }, s') := by
  rw [assemble, run_bind_of_run_eq (run_readText hsource)]
  dsimp only
  rw [run_bind_of_run_eq (run_diagnostics (compile text)), hbuild]
  dsimp only
  rw [run_bind_of_run_eq hwrite]
  rfl

/-- A run with an image writes it, and nothing else. -/
theorem run_assemble_of_ok (hsource : contents s source = .ok (utf8 text))
    (h : TileAsm.assemble text keepGoing = .ok image)
    (hwrite : (write output image : StateM σ (Except FileError Unit)).run s = (.ok (), s')) :
    ∃ a : Assembly, a.image = image ∧
      (assemble source output keepGoing labels registers format : StateM σ Outcome).run s =
        ({ output := reports labels registers format a, errors := report s source text }, s') := by
  obtain ⟨a, hbuild, rfl⟩ : ∃ a, build (compile text) keepGoing = .ok a ∧ a.image = image := by
    refine map_eq_ok_iff.1 ((image_build text keepGoing).trans ?_)
    rw [h]
    rfl
  exact ⟨a, rfl, run_assemble_of_build hsource hbuild hwrite⟩

/-- **The command refines assembling.** If the text of the source has an image, the run succeeds and
the output file then holds the image; the files are otherwise as they were, since they are what this
one write makes of them. If it has none, the run fails and leaves all files as they were. Either way
the rejected lines are printed first, each with its number and its place, in the order of the
source, also when the run goes on without them. -/
theorem run_refines_assemble {words : List String}
    (hwords : Request.ofWords words =
      .ok (.assemble source output keepGoing labels registers format))
    (hsource : contents s source = .ok (utf8 text)) (houtput : IsWritable s output) :
    let result := (run words : StateM σ Outcome).run s
    let errors := (compile text).errors
    let printed := String.join (errors.map fun e ↦
      "> Line " ++ toString (e.line + 1) ++ ": " ++ e.error.message ++
        "\n  at (file://" ++ location s source ++ ":" ++ toString (e.line + 1) ++ ":0)\n")
    errors.Pairwise (·.line < ·.line) ∧
    (∀ image, TileAsm.assemble text keepGoing = .ok image →
      result.1.status = 0 ∧ result.1.errors = printed ∧ contents result.2 output = .ok image ∧
        (write output image : StateM σ (Except FileError Unit)).run s = (.ok (), result.2)) ∧
    ∀ e, TileAsm.assemble text keepGoing = .error e →
      result.1.status = 1 ∧ result.1.errors = printed ++ "Error: " ++ failureMessage e ++ "\n" ∧
        result.2 = s := by
  intro result errors printed
  have hresult : result =
      (assemble source output keepGoing labels registers format : StateM σ Outcome).run s := by
    show StateT.run (run words) s = _
    rw [run, hwords]
  have hprinted : report s source text = printed := rfl
  refine ⟨pairwise_line_errors_compile text, fun image himage ↦ ?_, fun e he ↦ ?_⟩
  · obtain ⟨s', hwrite⟩ := houtput image
    obtain ⟨a, -, hrun⟩ := run_assemble_of_ok hsource himage hwrite
    rw [hresult, hrun]
    exact ⟨rfl, hprinted, LawfulFileAccess.contents_of_write hwrite, hwrite⟩
  · rw [hresult, run_assemble_of_error hsource he]
    refine ⟨rfl, ?_, rfl⟩
    rw [← hprinted]
    simp [Outcome.failure]

end Run

/-- A rejected line is printed by a run that goes on without it and by one that stops. Only the
first replaces the image. -/
theorem run_refines_assemble_of_rejected_line :
    let source := "FROB r1\n:last NOPE\nJUMP last"
    let folder : Folder :=
      { location := "/work", files := [(["src", "main.asm"], utf8 source), (["image"], [7])] }
    let words := fun keepGoing ↦ commandLine "./src/main.asm" "image" keepGoing true false .json
    let line := "> Line 1: Unknown instruction: FROB r1\n  at (file:///work/src/main.asm:1:0)\n"
    let going := (run (words true) : StateM Folder Outcome).run folder
    let stopped := (run (words false) : StateM Folder Outcome).run folder
    (going.1.status = 0 ∧ going.1.errors = line ∧
      contents going.2 "image" = .ok [0x00, 0x10, 0x00, 0x00]) ∧
    stopped.1.status = 1 ∧ stopped.1.errors = line ++ "Error: 1 line(s) failed to assemble\n" ∧
      stopped.2 = folder := by
  intro source folder words line going stopped
  have hsource : contents folder "./src/main.asm" = .ok (utf8 source) := by
    show folder.read "./src/main.asm" = _
    decide +kernel
  have hwrite : folder.write "image" [] = .ok (folder.put ["image"] []) := by decide +kernel
  have h := fun keepGoing ↦ run_refines_assemble
    (ofWords_commandLine (by decide) (by decide) keepGoing true false .json) hsource
    (Folder.isWritable_of_write hwrite)
  obtain ⟨hstatus, herrors, himage, -⟩ := (h true).2.1 [0x00, 0x10, 0x00, 0x00] (by decide +kernel)
  obtain ⟨hstatus', herrors', hfolder⟩ := (h false).2.2
    (.rejectedLines [{ line := 0, error := .unknownInstruction "FROB r1" }]) (by decide +kernel)
  exact ⟨⟨hstatus, herrors.trans (by decide +kernel), himage⟩, hstatus',
    herrors'.trans (by decide +kernel), hfolder⟩

end TileAsm.Command.Assemble
