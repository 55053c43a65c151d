import TileAsm.Proofs.Bindings
import TileAsm.Proofs.NameIndependence

/-!
# Which labels matter

Most labels of a program could be left out. Of those with one name only the last one counts, and it
counts only if something jumps to that name. `Program.pruned` leaves out all others, and the outcome
stays what it is, an image or an error with all that it says:

```
p.pruned.run = p.run
```

What a run looks at is the code of a program and the last offset of each label that is jumped to
(`run_eq_of_code_eq`). The code decides the registers, and it decides where a program gets too
large: the size is checked behind each instruction, also behind a label, but a label ends where it
starts, so that check never is the first to fail (`layoutFrom_code_eq_error_iff`). A last offset
stays where it is, since labels take no room (`lastOffset?_keepNeeded`).

Nothing is said about bindings, so the operands need not be unbound. A jump whose label is declared
nowhere keeps its value with and without the other labels.
-/

namespace TileAsm

/-! ### Leaving out labels -/

/-- Whether an instruction is needed in front of `rest`: a label only if its name is `used` and not
declared again, everything else in any case. -/
def Instruction.isNeeded (used : String → Bool) (rest : Program) : Instruction → Bool
  | label name _ => used name && !rest.any (·.declares name)
  | _ => true

/-- An instruction that is not needed is a label, and one that is used is declared again. -/
theorem Instruction.eq_label_of_not_isNeeded {used : String → Bool} {rest : Program}
    {i : Instruction} (h : ¬ i.isNeeded used rest = true) :
    ∃ name doc, i = label name doc ∧ (used name = true → rest.Declares name) := by
  match i with
  | label name doc =>
    refine ⟨name, doc, rfl, fun hused ↦ ?_⟩
    rw [isNeeded, hused, Bool.true_and, Bool.not_eq_true', Bool.not_eq_false, List.any_eq_true] at h
    obtain ⟨j, hj, hdeclares⟩ := h
    obtain ⟨doc', rfl⟩ := declares_iff.1 hdeclares
    exact ⟨doc', hj⟩
  | bare _ | register _ _ | address _ _ | pair _ _ _ | tile _ _ | text _ _ | selector _ _ =>
    exact absurd rfl h

namespace Program

/-- Whether an instruction of the program jumps to the given label. -/
def isTarget (p : Program) (name : String) : Bool := p.any (·.targets name)

/-- The program without the labels that are not used or are declared again behind. -/
def keepNeeded (used : String → Bool) : Program → Program
  | [] => []
  | i :: rest =>
    if i.isNeeded used rest then i :: keepNeeded used rest else keepNeeded used rest

/-- The program without its labels, apart from the last declaration of each label that it jumps
to. -/
def pruned (p : Program) : Program := p.keepNeeded p.isTarget

variable {used : String → Bool} {p q : Program}

/-- Nothing but labels is left out. -/
theorem code_keepNeeded : (p.keepNeeded used).code = p.code := by
  induction p with
  | nil => rfl
  | cons i p ih =>
    rw [keepNeeded]
    split
    · rw [code_cons, code_cons, ih]
    · rename_i hneeded
      obtain ⟨name, doc, rfl, -⟩ := Instruction.eq_label_of_not_isNeeded hneeded
      exact ih

/-- The last declaration of a label that is used stays, and it stays where it is. -/
theorem lastOffset?_keepNeeded {name : String} (hused : used name = true) :
    (p.keepNeeded used).lastOffset? name = p.lastOffset? name := by
  induction p with
  | nil => rfl
  | cons i p ih =>
    rw [keepNeeded]
    split
    · rw [lastOffset?, lastOffset?, ih]
    · rename_i hneeded
      obtain ⟨other, doc, rfl, hagain⟩ := Instruction.eq_label_of_not_isNeeded hneeded
      have hsize : (lastOffset? name p).map ((Instruction.label other doc).size + ·) =
          lastOffset? name p := by
        simp [Instruction.size]
      rw [ih, lastOffset?, hsize]
      by_cases hname : other = name
      · -- the label is declared again, and the later declaration is the one that counts
        obtain ⟨k, hk⟩ := exists_lastOffset?_of_declares (hagain (hname ▸ hused))
        rw [← hname, hk]
        rfl
      · have hdeclares : (Instruction.label other doc).declares name = false := by
          simpa [Instruction.declares] using hname
        rw [hdeclares]
        simp

/-! ### What a run looks at -/

/-- A program gets too large where its code does. -/
theorem layoutFrom_code_eq_error_iff {offset : Nat} {table table' : LabelTable} {e : AsmError}
    (hoffset : offset ≤ maxOffset) :
    layoutFrom offset table p.code = .error e ↔ layoutFrom offset table' p = .error e := by
  induction p generalizing offset table table' with
  | nil => simp [code, layoutFrom]
  | cons i p ih =>
    rw [code_cons]
    rcases hlabel : i.isLabel with - | -
    · simp only [layoutFrom, Bool.false_eq_true, if_false]
      split
      · rfl
      · rename_i hle
        exact ih (Nat.le_of_not_lt hle)
    · -- a label ends where it starts, so the check behind it passes
      obtain ⟨name, doc, rfl⟩ := Instruction.eq_label_of_isLabel hlabel
      have hpass : ¬ offset + (Instruction.label name doc).size > maxOffset := Nat.not_lt.2 hoffset
      rw [if_pos rfl, layoutFrom, if_neg hpass]
      exact ih hoffset

theorem layout_eq_error_iff_of_code_eq (hcode : q.code = p.code) {e : AsmError} :
    q.layout = .error e ↔ p.layout = .error e := by
  have hzero : 0 ≤ maxOffset := Nat.zero_le _
  calc layoutFrom 0 ∅ q = .error e
    _ ↔ layoutFrom 0 ∅ q.code = .error e := (layoutFrom_code_eq_error_iff hzero).symm
    _ ↔ layoutFrom 0 ∅ p = .error e := by rw [hcode, layoutFrom_code_eq_error_iff hzero]

theorem emit_resolve_code (p : Program) (registers : RegisterTable) (labels : LabelTable) :
    (p.code.resolve registers labels).emit = (p.resolve registers labels).emit := by
  rw [← code_resolve, emit_code]

/-- Tables that agree on the label of a jump bind it alike. -/
theorem resolve_congr {registers : RegisterTable} {labels labels' : LabelTable}
    (h : ∀ i ∈ p, ∀ t, i.target? = some t → labels'[t.label]? = labels[t.label]?) :
    p.resolve registers labels' = p.resolve registers labels := by
  refine List.map_congr_left fun i hi ↦ Instruction.mapTarget_congr fun t ht ↦ ?_
  rw [Instruction.target?_mapRegisters] at ht
  rw [h i hi t ht]

/-- **A run looks at the code of a program and at the labels that it jumps to.** -/
theorem run_eq_of_code_eq (hcode : q.code = p.code)
    (hlast : ∀ name, p.isTarget name = true → q.lastOffset? name = p.lastOffset? name) :
    q.run = p.run := by
  have hallocate : q.allocate = p.allocate := by
    rw [← allocate_code, hcode, allocate_code]
  rw [run_eq, run_eq, hallocate]
  rcases p.allocate with e | registers
  · rfl
  · rcases hlabels : p.layout with e | labels
    · rw [(layout_eq_error_iff_of_code_eq hcode).2 hlabels]
      rfl
    · obtain ⟨labels', hlabels'⟩ : ∃ labels', q.layout = .ok labels' := by
        rw [layout_eq_ok_iff, ← size_code, hcode, size_code]
        exact layout_eq_ok_iff.1 ⟨labels, hlabels⟩
      have hagree : ∀ i ∈ p.code, ∀ t, i.target? = some t →
          labels'[t.label]? = labels[t.label]? := by
        intro i hi t ht
        rw [getElem?_of_layout hlabels', getElem?_of_layout hlabels, hlast]
        exact List.any_eq_true.2 ⟨i, (List.mem_filter.1 hi).1, targets_iff.2 ⟨t, ht, rfl⟩⟩
      rw [hlabels']
      refine congrArg (Except.mapError (Stage.emission, ·)) ?_
      calc (q.resolve registers labels').emit
        _ = (p.code.resolve registers labels').emit := by rw [← hcode, emit_resolve_code]
        _ = (p.code.resolve registers labels).emit := by rw [resolve_congr hagree]
        _ = (p.resolve registers labels).emit := p.emit_resolve_code registers labels

/-- **Only the last declaration of a label matters, and only if something jumps to it.** Without all
other labels a program has the same image, or fails at the same stage with the same error. -/
theorem run_pruned (p : Program) : p.pruned.run = p.run :=
  run_eq_of_code_eq code_keepNeeded fun _ hname ↦ lastOffset?_keepNeeded hname

/-- Of three labels the last one is kept. A jump to a label that is declared nowhere fails with and
without the other two. -/
theorem run_pruned_of_redeclared_label :
    let p : Program := [.label "la" [], .bare .nope, .label "lb" [], .address .jump ⟨"la", none⟩,
      .label "la" [], .bare .exit]
    let failing : Program := p ++ [.address .jump ⟨"lc", none⟩]
    let image : List UInt8 := [0x00, 0x10, 0x00, 0x04, 0x01]
    p.pruned = [.bare .nope, .address .jump ⟨"la", none⟩, .label "la" [], .bare .exit] ∧
      p.run = .ok image ∧ p.pruned.run = .ok image ∧
      failing.run = .error (.emission, .unresolved "lc") ∧
      failing.pruned.run = .error (.emission, .unresolved "lc") := by
  intro p failing image
  have hrun : p.run = .ok image := by decide +kernel
  have hfail : failing.run = .error (.emission, .unresolved "lc") := by decide +kernel
  refine ⟨by decide, hrun, ?_, hfail, ?_⟩
  · rw [run_pruned, hrun]
  · rw [run_pruned, hfail]

end Program

end TileAsm
