import TileAsm.Proofs.Emission

/-!
# Operands without a value

The registers and the labels that an instruction refers to have to be bound before it can be
written. Listed in the order in which they are encoded, they say all there is to say about failure:

* an instruction fails on the first of its references that is unbound (`encode_eq_error_iff`), so
  that with its registers bound it can fail only on its label (`encode_eq_error_iff_of_bound`), and
  it has bytes if and only if it is resolved (`exists_encode_eq_ok_iff`);
* a program fails on the first unbound reference of the whole (`emit_eq_unresolved_iff`), since the
  first instruction that fails is the first with an unbound reference;
* an instruction that fails has written nothing yet (`run_write`), so what an image holds is always
  the encodings of whole instructions.
-/

namespace TileAsm

/-! ### References -/

/-- An operand that has to be bound before it can be encoded. -/
inductive Reference where
  /-- A register, in one of its modes. -/
  | register (r : RegisterRef)
  /-- The target of a jump. -/
  | label (t : LabelRef)
  deriving DecidableEq, Repr

namespace Reference

/-- Whether the operand has no value yet. -/
def isUnbound : Reference → Bool
  | register r => r.value.isNone
  | label t => t.value.isNone

/-- The operand as it is written in a source. -/
def written : Reference → String
  | register ⟨name, .direct, _⟩ => name
  | register ⟨name, .indirect, _⟩ => "*" ++ name
  | register ⟨name, .addressOf, _⟩ => "&" ++ name
  | label t => t.label

theorem written_register (r : RegisterRef) : (register r).written = r.written := by
  match r with
  | ⟨name, .direct, _⟩ => exact String.empty_append.symm
  | ⟨_, .indirect, _⟩ | ⟨_, .addressOf, _⟩ => rfl

end Reference

/-- The operands of an instruction that have to be bound, in the order in which they are encoded. -/
def Instruction.references : Instruction → List Reference
  | label _ _ | bare _ | tile _ _ => []
  | register _ r | text r _ | selector r _ => [.register r]
  | address _ t => [.label t]
  | pair _ (.literal _) dest => [.register dest]
  | pair _ (.register source) dest => [.register source, .register dest]

/-- The operands of a program that have to be bound, in the order of the image. -/
def Program.references (p : Program) : List Reference := p.flatMap Instruction.references

/-! ### One instruction -/

theorem RegisterRef.resolved_eq_error_iff {r : RegisterRef} {e : AsmError} :
    r.resolved = .error e ↔
      (Reference.register r).isUnbound ∧ e = .unresolved (Reference.register r).written := by
  rw [resolved, Reference.written_register, Reference.isUnbound]
  rcases r.value with _ | b <;> simp [eq_comm]

theorem LabelRef.resolved_eq_error_iff {t : LabelRef} {e : AsmError} :
    t.resolved = .error e ↔
      (Reference.label t).isUnbound ∧ e = .unresolved (Reference.label t).written := by
  rw [resolved, Reference.isUnbound]
  rcases t.value with _ | a <;> simp [Reference.written, eq_comm]

namespace Instruction

variable {i : Instruction} {e : AsmError}

/-- **An instruction fails on the first of its operands that has no value.** -/
theorem encode_eq_error_iff :
    i.encode = .error e ↔
      ∃ ref, i.references.find? Reference.isUnbound = some ref ∧ e = .unresolved ref.written := by
  match i with
  | label _ _ | bare _ | tile _ _ => simp [encode, references]
  | register _ r | text r _ | selector r _ =>
    simp [encode, references, bind_eq_error_iff, RegisterRef.resolved_eq_error_iff,
      List.find?_singleton]
  | address _ t =>
    simp [encode, references, bind_eq_error_iff, LabelRef.resolved_eq_error_iff,
      List.find?_singleton]
  | pair _ (.literal b) dest =>
    simp [encode, references, bind_eq_error_iff, RegisterRef.resolved_eq_error_iff,
      Source.resolved, List.find?_singleton]
  | pair _ (.register r) dest =>
    have hunbound : (Reference.register r).isUnbound = r.value.isNone := rfl
    rcases hr : r.value with _ | b
    · simp [encode, references, bind_eq_error_iff, RegisterRef.resolved_eq_error_iff,
        RegisterRef.resolved_eq_ok_iff, Source.resolved, hunbound, hr]
    · simp [encode, references, bind_eq_error_iff, RegisterRef.resolved_eq_error_iff,
        RegisterRef.resolved_eq_ok_iff, Source.resolved, List.find?_singleton, hunbound, hr]

/-- With its registers bound, an instruction can fail only on its label. -/
theorem encode_eq_error_iff_of_bound (h : ∀ r ∈ i.registers, ∃ b, r.value = some b) :
    i.encode = .error e ↔
      ∃ t, i.target? = some t ∧ t.value = none ∧ e = .unresolved t.label := by
  have hbound : ∀ r ∈ i.registers, (Reference.register r).isUnbound = false := fun r hr ↦ by
    obtain ⟨b, hb⟩ := h r hr
    rw [Reference.isUnbound, hb]
    rfl
  rw [encode_eq_error_iff]
  match i with
  | label _ _ | bare _ | tile _ _ => simp [references, target?]
  | address _ t =>
    simp [references, target?, Reference.isUnbound, Reference.written, List.find?_singleton]
  | register _ r | text r _ | selector r _ =>
    simp [references, target?, hbound r (by simp [registers])]
  | pair _ (.literal _) dest => simp [references, target?, hbound dest (by simp [registers])]
  | pair _ (.register r) dest =>
    simp [references, target?, hbound dest (by simp [registers]),
      hbound r (by simp [registers, Source.register?])]

/-- An instruction is resolved if none of its operands is in want of a value. -/
theorem isResolved_iff :
    i.isResolved = true ↔ i.references.find? Reference.isUnbound = none := by
  rw [List.find?_eq_none]
  match i with
  | label _ _ | bare _ | tile _ _ => simp [isResolved, references, target?, registers]
  | address _ t =>
    simp [isResolved, references, target?, registers, LabelRef.isResolved, Reference.isUnbound]
  | register _ r | text r _ | selector r _ | pair _ (.literal _) r | pair _ (.register _) r =>
    simp [isResolved, references, target?, registers, Source.register?, RegisterRef.isResolved,
      Reference.isUnbound]

theorem exists_encode_eq_ok_iff : (∃ bytes, i.encode = .ok bytes) ↔ i.isResolved = true := by
  rw [isResolved_iff, exists_eq_ok_iff_of_error_iff fun _ ↦ encode_eq_error_iff]

/-- **An instruction adds all its bytes to an image or none of them.** -/
theorem run_write (i : Instruction) (image : Array UInt8) :
    (∃ bytes, i.encode = .ok bytes ∧ i.write.run.run image = (.ok (), image ++ bytes)) ∨
      ∃ e, i.encode = .error e ∧ i.write.run.run image = (.error e, image) := by
  rw [write_eq]
  rcases i.encode with e | bytes
  · exact .inr ⟨e, rfl, rfl⟩
  · exact .inl ⟨bytes, rfl, rfl⟩

end Instruction

/-! ### Programs -/

namespace Program

variable {p : Program} {e : AsmError} {image : List UInt8}

/-- **A program fails on the first operand of the whole that has no value.** -/
theorem emit_eq_unresolved_iff :
    p.emit = .error e ↔
      ∃ ref, p.references.find? Reference.isUnbound = some ref ∧ e = .unresolved ref.written := by
  have hok : ∀ i : Instruction, (∃ bytes, i.encode = .ok bytes) ↔
      i.references.find? Reference.isUnbound = none := fun i ↦
    Instruction.exists_encode_eq_ok_iff.trans Instruction.isResolved_iff
  simp only [emit_eq_error_iff, references, List.find?_flatMap, List.findSome?_eq_some_iff,
    Instruction.encode_eq_error_iff, hok]
  constructor
  · intro h
    obtain ⟨before, i, after, hp, hbefore, ref, href, he⟩ := h
    exact ⟨ref, ⟨before, i, after, hp, href, hbefore⟩, he⟩
  · intro h
    obtain ⟨ref, ⟨before, i, after, hp, href, hbefore⟩, he⟩ := h
    exact ⟨before, i, after, hp, hbefore, ref, href, he⟩

theorem exists_emit_eq_ok_iff : (∃ image, p.emit = .ok image) ↔ ∀ i ∈ p, i.isResolved = true := by
  rw [exists_eq_ok_iff_of_error_iff fun _ ↦ emit_eq_unresolved_iff, references, List.find?_flatMap,
    List.findSome?_eq_none_iff]
  simp only [Instruction.isResolved_iff]

/-- An image is the encodings of the instructions one after the other. -/
theorem emit_eq_ok_iff :
    p.emit = .ok image ↔
      ∃ encodings, List.Forall₂ (fun i bytes ↦ i.encode = .ok bytes) p encodings ∧
        image = encodings.flatten := by
  induction p generalizing image with
  | nil => simp [eq_comm]
  | cons i p ih =>
    simp only [emit_cons_eq_ok_iff, ih, List.forall₂_cons_left_iff]
    constructor
    · intro h
      obtain ⟨bytes, rest, hbytes, ⟨encodings, hencodings, hrest⟩, himage⟩ := h
      exact ⟨bytes :: encodings, ⟨bytes, encodings, hbytes, hencodings, rfl⟩, by
        rw [himage, hrest, List.flatten_cons]⟩
    · intro h
      obtain ⟨_, ⟨bytes, encodings, hbytes, hencodings, rfl⟩, himage⟩ := h
      exact ⟨bytes, encodings.flatten, hbytes, ⟨encodings, hencodings, rfl⟩, himage⟩

end Program

/-- **Emission is exact and all-or-nothing.** A program has an image if and only if each of its
instructions is resolved. The image is the encodings of the instructions one after the other and has
the size of the program. Otherwise the first operand without a value is reported, as it is written.
An instruction that cannot be encoded leaves the image that it should be written to as it was. -/
theorem emission_is_all_or_nothing (p : Program) :
    ((∃ image, p.emit = .ok image) ↔ ∀ i ∈ p, i.isResolved = true) ∧
    (∀ image, p.emit = .ok image →
      image.length = p.size ∧
      ∃ encodings, List.Forall₂ (fun i bytes ↦ i.encode = .ok bytes) p encodings ∧
        image = encodings.flatten) ∧
    (∀ e, p.emit = .error e ↔
      ∃ ref, p.references.find? Reference.isUnbound = some ref ∧ e = .unresolved ref.written) ∧
    ∀ (i : Instruction) (image : Array UInt8),
      (∃ bytes, i.encode = .ok bytes ∧ i.write.run.run image = (.ok (), image ++ bytes)) ∨
        ∃ e, i.encode = .error e ∧ i.write.run.run image = (.error e, image) :=
  ⟨Program.exists_emit_eq_ok_iff, fun _ h ↦ ⟨Program.length_of_emit h, Program.emit_eq_ok_iff.1 h⟩,
    fun _ ↦ Program.emit_eq_unresolved_iff, Instruction.run_write⟩

end TileAsm
