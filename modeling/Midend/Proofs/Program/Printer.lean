import Midend.Proofs.Action.Laws
import Midend.Proofs.Program.WellFormed

/-!
# Printing well-formed programs

A well-formed program can always be printed: its operand slots hold values, and the types of the
results of its functions have names.

## Main results

* `Coherent.exists_text`: the text of a program.
-/

namespace Midend.Program

variable {p : Program}

theorem Coherent.exists_instrText (h : p.Coherent) {i : InstrId} {b : BlockRef}
    (hi : (p.instr i).place = .inBlock b) : ∃ t, p.instrText i = .ok t := by
  have hops : ∃ t, p.operandsText (p.instr i) = .ok t := by
    refine Act.exists_bind_ok (Act.exists_mapM_ok _ fun v hv => ?_) fun _ => ⟨_, rfl⟩
    obtain ⟨w, rfl, -⟩ := h.usable i b hi v hv
    exact ⟨_, rfl⟩
  refine Act.exists_bind_ok hops fun ops => ?_
  dsimp only
  split
  case h_8 => split <;> exact ⟨_, rfl⟩
  all_goals exact ⟨_, rfl⟩

theorem Coherent.exists_blockText (h : p.Coherent) (b : BlockRef) :
    ∃ t, p.blockText (p.block b) = .ok t := by
  refine Act.exists_bind_ok (Act.exists_mapM_ok _ fun i hi => ?_) fun _ => ⟨_, rfl⟩
  exact h.exists_instrText ((h.listed b i).mp hi)

theorem Coherent.exists_funcText (h : p.Coherent) (f : FuncId) :
    ∃ t, p.funcText (p.func f) = .ok t := by
  have hret : ∃ t, (p.func f).ret.name = .ok t := by
    obtain ⟨t, ht⟩ := Option.isSome_iff_exists.mp (h.named f)
    refine ⟨t, ?_⟩
    unfold Ty.name
    rw [ht]
  have hblocks : ∃ ts, (p.func f).blocks.toList.mapM p.blockText = .ok ts := by
    refine Act.exists_mapM_ok _ fun blk hblk => ?_
    obtain ⟨k, hk⟩ := List.getElem?_of_mem hblk
    have hblock : p.block ⟨f, k⟩ = blk := by
      rw [block, Array.getD_eq_getD_getElem?, ← Array.getElem?_toList, hk]
      rfl
    rw [← hblock]
    exact h.exists_blockText ⟨f, k⟩
  dsimp only [funcText]
  split
  · exact Act.exists_bind_ok ⟨"", rfl⟩ fun _ => Act.exists_bind_ok hblocks fun _ => ⟨_, rfl⟩
  · exact Act.exists_bind_ok hret fun _ => Act.exists_bind_ok ⟨_, rfl⟩ fun _ =>
      Act.exists_bind_ok hblocks fun _ => ⟨_, rfl⟩

/-- **A well-formed program has a text.** -/
theorem Coherent.exists_text (h : p.Coherent) : ∃ t, p.text = .ok t := by
  refine Act.exists_bind_ok (Act.exists_mapM_ok _ fun fn hfn => ?_) fun _ => ⟨_, rfl⟩
  obtain ⟨f, hf⟩ := List.getElem?_of_mem hfn
  have hfunc : p.func f = fn := by
    rw [func, Array.getD_eq_getD_getElem?, ← Array.getElem?_toList, hf]
    rfl
  rw [← hfunc]
  exact h.exists_funcText f

end Midend.Program
