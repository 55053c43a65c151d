import TileAsm.Proofs.JumpTargets
import TileAsm.Proofs.LineByLine
import TileAsm.Proofs.Renaming

/-!
# Moving a program

Code that mentions no names can be put in front of a program, and the program moves as a whole: its
registers keep their numbers, each label moves by the size of what was put in front, and so does the
address in each jump. No other byte changes. `Program.relocate` says this about an image, cut where
the instructions of its program end, and `assemble_append` says that it is right.

An address is moved in 16 bits. It does not overflow there, since a label of a program that fits
with the code in front of it is an offset that fits.

What is put in front of a source is a row of `NOPE` lines. They stand before all comments, so they
take none of them.
-/

namespace TileAsm

open Text

/-! ### Moved images -/

/-- The bytes of an instruction with the address in them moved, if there is one. -/
def Instruction.relocate (k : Nat) : Instruction → List UInt8 → List UInt8
  | address _ _, [code, high, low] =>
    code :: Address.toBytes (UInt16.ofNat ((Address.ofBytes high low).toNat + k))
  | _, bytes => bytes

/-- The image of a program with the addresses of its jumps moved. -/
def Program.relocate (k : Nat) : Program → List UInt8 → List UInt8
  | [], image => image
  | i :: rest, image =>
    i.relocate k (image.take i.size) ++ Program.relocate k rest (image.drop i.size)

namespace Instruction

variable {i : Instruction} {k : Nat}

/-- The address in a jump is moved. -/
theorem relocate_address (op : Opcode) (t : LabelRef) (a : UInt16) :
    (address op t).relocate k (op.code :: Address.toBytes a) =
      op.code :: Address.toBytes (UInt16.ofNat (a.toNat + k)) := by
  rw [Address.toBytes, relocate, Address.ofBytes_toBytes]

/-- An instruction that is no jump keeps its bytes. -/
theorem relocate_of_target?_eq_none (h : i.target? = none) (bytes : List UInt8) :
    i.relocate k bytes = bytes := by
  match i with
  | address _ _ => exact absurd h (by simp [target?])
  | label _ _ | bare _ | register _ _ | pair _ _ _ | tile _ _ | text _ _ | selector _ _ => rfl

/-- An instruction that mentions no names: neither a register nor a label. -/
structure IsNameless (i : Instruction) : Prop where
  /-- It has no register operand. -/
  registers_eq : i.registers = []
  /-- It jumps nowhere. -/
  target?_eq : i.target? = none
  /-- It is no label. -/
  isLabel_eq : i.isLabel = false

/-- Without names there is nothing to bind. -/
theorem IsNameless.resolve_eq (h : i.IsNameless) (registers : RegisterTable) (labels : LabelTable) :
    i.resolve registers labels = i := by
  have hregisters := h.registers_eq
  rw [resolve_of_target?_eq_none h.target?_eq]
  match i with
  | label _ _ | bare _ | address _ _ | tile _ _ => rfl
  | register _ _ | pair _ _ _ | text _ _ | selector _ _ =>
    exact absurd hregisters (by simp [Instruction.registers])

end Instruction

namespace Program

/-! ### Code in front of a program -/

section Append

variable {front p : Program}

/-- A label moves by the size of what is put in front, unless it is declared there only. -/
theorem lastOffset?_append (name : String) (front p : Program) :
    (front ++ p).lastOffset? name =
      ((p.lastOffset? name).map (front.size + ·)).or (front.lastOffset? name) := by
  induction front with
  | nil => simp [lastOffset?]
  | cons i front ih =>
    rw [List.cons_append, lastOffset?, ih, lastOffset?, Option.map_or, Option.map_map,
      Option.or_assoc]
    simp [Function.comp_def, Nat.add_assoc]

variable (hfront : ∀ i ∈ front, i.IsNameless)

include hfront

/-- Instructions without names take no numbers. -/
theorem allocate_append : (front ++ p).allocate = p.allocate := by
  refine allocate_congr (congrArg _ ?_)
  rw [registers, List.flatMap_append,
    List.flatMap_eq_nil_iff.2 fun i hi ↦ (hfront i hi).registers_eq]
  rfl

/-- Instructions without names push all labels behind them down by their size. -/
theorem lastOffset?_append_of_isNameless (name : String) :
    (front ++ p).lastOffset? name = (p.lastOffset? name).map (front.size + ·) := by
  have hnone : front.lastOffset? name = none := by
    rw [lastOffset?_eq_none_iff]
    intro ⟨doc, hmem⟩
    exact absurd (hfront _ hmem).isLabel_eq (by simp [Instruction.isLabel])
  rw [lastOffset?_append, hnone, Option.or_none]

theorem resolve_append (registers : RegisterTable) (labels : LabelTable) :
    (front ++ p).resolve registers labels = front ++ p.resolve registers labels := by
  have hsame : front.map (Instruction.resolve registers labels) = front.map id :=
    List.map_congr_left fun i hi ↦ (hfront i hi).resolve_eq registers labels
  rw [resolve, List.map_append, hsame, List.map_id, resolve]

/-- One instruction of a program that moves. -/
theorem encode_resolve_append {registers : RegisterTable} {labels labels' : LabelTable}
    (hlabels : p.layout = .ok labels) (hlabels' : (front ++ p).layout = .ok labels')
    {i : Instruction} (hi : ∀ l, i.targets l = true → p.Declares l) {bytes : List UInt8}
    (h : (i.resolve registers labels).encode = .ok bytes) :
    (i.resolve registers labels').encode = .ok (i.relocate front.size bytes) := by
  rcases htarget : i.target? with _ | t
  · have hresolve : ∀ table : LabelTable, i.resolve registers table = _ := fun _ ↦
      Instruction.resolve_of_target?_eq_none htarget
    rw [Instruction.relocate_of_target?_eq_none htarget, ← h, hresolve, hresolve]
  · obtain ⟨op, rfl⟩ := Instruction.eq_address_of_target? htarget
    obtain ⟨n, hn⟩ := exists_lastOffset?_of_declares (hi t.label (targets_iff.2 ⟨t, rfl, rfl⟩))
    have hn' : (front ++ p).lastOffset? t.label = some (front.size + n) := by
      rw [lastOffset?_append_of_isNameless hfront, hn]
      rfl
    rw [encode_resolve_address hlabels hn] at h
    obtain rfl := Except.ok.inj h
    rw [encode_resolve_address hlabels' hn', Instruction.relocate_address,
      toNat_of_lastOffset? (layout_eq_ok_iff.1 ⟨_, hlabels⟩) hn, Nat.add_comm]

end Append

/-- A whole program moves as each of its instructions does. -/
theorem emit_relocate {f g : Instruction → Instruction} {k : Nat} {p : Program} {image : List UInt8}
    (h : emit (p.map f) = .ok image) (hsize : ∀ i, (f i).size = i.size)
    (hstep : ∀ i ∈ p, ∀ bytes, (f i).encode = .ok bytes → (g i).encode = .ok (i.relocate k bytes)) :
    emit (p.map g) = .ok (p.relocate k image) := by
  induction p generalizing image with
  | nil => exact h
  | cons i p ih =>
    obtain ⟨bytes, rest, hbytes, hrest, rfl⟩ := emit_cons_eq_ok_iff.1 h
    have hlength : bytes.length = i.size := (Instruction.length_of_encode hbytes).trans (hsize i)
    rw [List.map_cons, relocate, List.take_left' hlength, List.drop_left' hlength]
    exact emit_cons_eq_ok_iff.2 ⟨_, _, hstep i (by simp) bytes hbytes,
      ih hrest fun j hj ↦ hstep j (by simp [hj]), rfl⟩

/-- **A program moves as a whole** when code without names is put in front of it. -/
theorem assemble_append {front p : Program} {bytes : List UInt8} {a : Assembly}
    (hfront : ∀ i ∈ front, i.IsNameless) (hbytes : front.emit = .ok bytes)
    (hunbound : ∀ i ∈ p, i.Unbound) (ha : p.assemble = .ok a)
    (hsize : front.size + p.size ≤ maxOffset) :
    ∃ a', (front ++ p).assemble = .ok a' ∧ a'.image = bytes ++ p.relocate front.size a.image := by
  obtain ⟨hregisters, hlabels, hprogram, himage⟩ := assemble_eq_ok_iff.1 ha
  obtain ⟨-, -, hdeclares⟩ := (exists_assemble_eq_ok_iff hunbound).1 ⟨a, ha⟩
  obtain ⟨labels', hlabels'⟩ : ∃ labels, (front ++ p).layout = .ok labels := by
    rwa [layout_eq_ok_iff, size_append]
  have hemit : (p.resolve a.registers labels').emit = .ok (p.relocate front.size a.image) := by
    rw [hprogram, resolve] at himage
    rw [resolve]
    refine emit_relocate himage (fun _ ↦ Instruction.size_resolve) fun i hi bytes hbytes ↦ ?_
    exact encode_resolve_append hfront hlabels hlabels' (hdeclares i hi) hbytes
  have hregisters' : (front ++ p).allocate = .ok a.registers := by
    rw [allocate_append hfront, hregisters]
  have himage' : ((front ++ p).resolve a.registers labels').emit =
      .ok (bytes ++ p.relocate front.size a.image) := by
    rw [resolve_append hfront]
    exact emit_append_eq_ok_iff.2 ⟨bytes, _, hbytes, hemit, rfl⟩
  exact ⟨⟨a.registers, labels', _, _⟩,
    assemble_eq_ok_iff.2 ⟨hregisters', hlabels', Eq.refl ((front ++ p).resolve _ _), himage'⟩, rfl⟩

/-- The address in a jump lies within its program. -/
theorem address_le_size {p : Program} {a : Assembly} (hunbound : ∀ i ∈ p, i.Unbound)
    (ha : p.assemble = .ok a) {i : Nat} {op : Opcode} {t : LabelRef}
    (hi : p[i]? = some (.address op t)) :
    ∃ high low, a.image[size (p.take i) + 1]? = some high ∧
      a.image[size (p.take i) + 2]? = some low ∧ (Address.ofBytes high low).toNat ≤ p.size := by
  obtain ⟨-, hsize, hdeclares⟩ := (exists_assemble_eq_ok_iff hunbound).1 ⟨a, ha⟩
  obtain ⟨n, hn⟩ := exists_lastOffset?_of_declares
    (hdeclares _ (List.mem_of_getElem? hi) t.label (targets_iff.2 ⟨t, rfl, rfl⟩))
  obtain ⟨rest, hrest⟩ := drop_image_of_address ha hi hn
  have hget : ∀ d, a.image[size (p.take i) + d]? = (a.image.drop (size (p.take i)))[d]? := fun d ↦
    List.getElem?_drop.symm
  rw [hrest] at hget
  refine ⟨_, _, hget 1, hget 2, ?_⟩
  rw [Address.ofBytes_toBytes, toNat_of_lastOffset? hsize hn]
  exact le_size_of_lastOffset? hn

end Program

/-! ### Lines in front of a source -/

/-- A row of lines that do nothing. -/
def nopeLines (k : Nat) : String := String.join (List.replicate k "NOPE\n")

namespace Program

/-- A row of instructions that do nothing. -/
def nopes (k : Nat) : Program := List.replicate k (.bare .nope)

variable (k : Nat)

theorem isNameless_of_mem_nopes : ∀ i ∈ nopes k, i.IsNameless := by
  intro i hi
  rw [List.eq_of_mem_replicate hi]
  exact ⟨rfl, rfl, rfl⟩

theorem size_nopes : (nopes k).size = k := by
  induction k with
  | zero => rfl
  | succ k ih => rw [nopes, List.replicate_succ, size_cons, ← nopes, ih, Nat.add_comm]; rfl

theorem emit_nopes : (nopes k).emit = .ok (List.replicate k 0) := by
  induction k with
  | zero => rfl
  | succ k ih => exact emit_cons_eq_ok_iff.2 ⟨[0], _, rfl, ih, rfl⟩

end Program

/-- A source behind lines of `NOPE` keeps its lines. -/
theorem lines_nopeLines_append (k : Nat) (source : String) :
    lines (nopeLines k ++ source).toList =
      List.replicate k "NOPE".toList ++ lines source.toList := by
  induction k with
  | zero => simp [nopeLines]
  | succ k ih =>
    have hfirst : (nopeLines (k + 1) ++ source).toList =
        "NOPE".toList ++ '\n' :: (nopeLines k ++ source).toList := by
      simp [nopeLines, List.replicate_succ]
    rw [hfirst, lines_append_newline (by decide) (by decide), ih, List.replicate_succ]
    rfl

theorem ParsedLine.ofLine_nope : ofLine "NOPE".toList = { instructions := [.bare .nope] } := rfl

/-- No line of `NOPE` is rejected. -/
theorem errors_compile_nopeLines_append {k : Nat} {source : String}
    (h : (compile source).errors = []) : (compile (nopeLines k ++ source)).errors = [] := by
  rw [← List.map_eq_nil_iff, map_error_errors_compile] at h ⊢
  rw [lines_nopeLines_append, List.flatMap_append, h, List.flatMap_replicate,
    ParsedLine.ofLine_nope]
  simp

/-- Each of the lines in front is one more instruction, up to the documentation of labels. -/
theorem undocumented_compile_nopeLines_append (k : Nat) (source : String) :
    (compile (nopeLines k ++ source)).program.undocumented =
      Program.undocumented (.nopes k ++ (compile source).program) := by
  have hnopes : Program.undocumented (.nopes k) = (List.replicate k [.bare .nope]).flatten := by
    simp [Program.undocumented, Program.nopes, Instruction.undocumented]
  rw [undocumented_compile, lines_nopeLines_append, List.flatMap_append, List.flatMap_replicate,
    ParsedLine.ofLine_nope, ← undocumented_compile, ← hnopes]
  exact List.map_append.symm

/-- **Relocation.** With lines that do nothing in front of a source, its image stands behind as many
zero bytes. The address in each jump has moved by their number, without leaving the address space,
and every other byte is the same. -/
theorem assemble_relocate {source : String} {keepGoing : Bool} {image : List UInt8}
    (h : assemble source keepGoing = .ok image) {k : Nat} (hk : k + image.length ≤ 65535) :
    let p : Program := (compile source).program
    assemble (nopeLines k ++ source) keepGoing = .ok (List.replicate k 0 ++ p.relocate k image) ∧
      ∀ i op t, p[i]? = some (.address op t) →
        ∃ high low, image[Program.size (p.take i) + 1]? = some high ∧
          image[Program.size (p.take i) + 2]? = some low ∧
          (Address.ofBytes high low).toNat + k ≤ 65535 := by
  intro p
  have hunbound : ∀ i ∈ p, i.Unbound := fun i hi ↦ unbound_of_mem_compile hi
  obtain ⟨a, ha, rfl⟩ := exists_assembly_of_assemble h
  obtain ⟨-, -, hprogram, himage⟩ := Program.assemble_eq_ok_iff.1 ha
  have hlength : a.image.length = p.size := by
    rw [Program.length_of_emit himage, hprogram, Program.size_resolve]
  rw [hlength] at hk
  refine ⟨?_, fun i op t hi ↦ ?_⟩
  · obtain ⟨a', ha', himage'⟩ := Program.assemble_append (Program.isNameless_of_mem_nopes k)
      (Program.emit_nopes k) hunbound ha (by rwa [Program.size_nopes])
    rw [Program.size_nopes] at himage'
    -- the lines in front are not rejected, so they stop nothing
    have hgo : ¬ ((compile (nopeLines k ++ source)).errors ≠ [] ∧ keepGoing = false) := by
      intro ⟨herrors, hstop⟩
      rw [assemble_source_eq, hstop] at h
      refine herrors (errors_compile_nopeLines_append ?_)
      by_contra hne
      rw [if_pos ⟨hne, rfl⟩] at h
      exact absurd h (by simp)
    rw [assemble_source_eq, if_neg hgo, Program.image_assemble_eq_of_undocumented_eq
      (undocumented_compile_nopeLines_append k source), ha', ← himage']
    rfl
  · obtain ⟨high, low, hhigh, hlow, hle⟩ := Program.address_le_size hunbound ha hi
    exact ⟨high, low, hhigh, hlow, by omega⟩

/-- A jump moves from the start of the address space to its end, across a byte. -/
theorem assemble_relocate_to_end :
    let source := "JUMP la\nDTXT rx \"a\"\n:la EXIT"
    assemble source false = .ok [0x10, 0x00, 0x07, 0x18, 0x05, 0x61, 0x00, 0x01] ∧
      65527 + 8 ≤ 65535 ∧
      assemble (nopeLines 65527 ++ source) false =
        .ok (List.replicate 65527 0 ++ [0x10, 0xff, 0xfe, 0x18, 0x05, 0x61, 0x00, 0x01]) := by
  intro source
  have h : assemble source false = .ok [0x10, 0x00, 0x07, 0x18, 0x05, 0x61, 0x00, 0x01] := by
    decide +kernel
  have hrelocate : (compile source).program.relocate 65527
      [0x10, 0x00, 0x07, 0x18, 0x05, 0x61, 0x00, 0x01] =
        [0x10, 0xff, 0xfe, 0x18, 0x05, 0x61, 0x00, 0x01] := by
    decide +kernel
  have hmoved := (assemble_relocate h (k := 65527) (by decide)).1
  rw [hrelocate] at hmoved
  exact ⟨h, by decide, hmoved⟩

end TileAsm
