import JavaLift.Load
import JavaLift.Proofs.Insn.Printing

namespace JavaLift

open Text

namespace Dalvik

variable {code : Code} {pool : Pool}

def Item.names : Item → List String
  | .insn i => i.op.names
  | _ => []

theorem Reads.closes_render {d : Decoded} (h : Reads d) :
    Closes d.item.render.toList ↔ ∃ s ∈ d.item.names, Closes s.toList := by
  obtain ⟨item, tail⟩ := d
  cases item with
  | insn i => exact (h i rfl).closes_render
  | moveResult reg wide =>
      have htext : Inert (Item.moveResult reg wide).render.toList :=
        inert_append (inert_of_all (by simp)) (inert_repr reg)
      simp [Item.names, htext.not_closes]
  | payload =>
      have htext : Inert Item.payload.render.toList := inert_of_all (by simp [Item.render])
      simp [Item.names, htext.not_closes]

def namesFrom (code : Code) (pool : Pool) (pc : Nat) : List String :=
  if pc < code.size then
    match decodeAt code pool pc with
    | .ok d => d.item.names ++ namesFrom code pool (pc + 1 + d.tail)
    | .error _ => namesFrom code pool (pc + 1)
  else []
termination_by code.size - pc

theorem closes_listFrom (pc : Nat) :
    (∃ entry ∈ listFrom code pool pc, Closes entry.2.toList) ↔ ∃ s ∈ namesFrom code pool pc, Closes s.toList := by
  fun_induction listFrom code pool pc with
  | case1 pc hlt d hd ih =>
      rw [namesFrom, if_pos hlt, hd]
      simp only [List.exists_mem_cons_iff, List.mem_append, or_and_right, exists_or]
      rw [(decodeAt_unfolded code pool pc d hd).closes_render, ih]
  | case2 pc hlt e he ih =>
      have hword : Inert (".word " ++ offset code[pc].toNat).toList :=
        inert_append (inert_of_all (by simp)) (inert_offset _)
      rw [namesFrom, if_pos hlt, he]
      simp only [List.exists_mem_cons_iff]
      rw [or_iff_right hword.not_closes, ih]
  | case3 pc hend =>
      rw [namesFrom, if_neg hend]
      simp

theorem closes_listing :
    (∃ line ∈ listing code pool, Closes line.toList) ↔ ∃ s ∈ namesFrom code pool 0, Closes s.toList := by
  have hline (pc : Nat) (line : String) : Closes (offset pc ++ ": " ++ line).toList ↔ Closes line.toList := by
    rw [String.toList_append]
    exact closes_inert_append (inert_append (inert_offset pc) (inert_of_all (by simp)))
  rw [← closes_listFrom 0, listing]
  simp only [List.mem_map, exists_exists_and_eq_and, hline]

theorem ofBytes_error {bytes : Array UInt8} {e : DecodeFault} (h : Code.ofBytes bytes = .error e) :
    ∃ position, e = .truncated position := by
  unfold Code.ofBytes at h
  split at h
  · exact ⟨_, (Except.error.inj h).symm⟩
  · cases h

end Dalvik

namespace ClassFile

theorem Operand.inert_render (operand : Operand) : Inert operand.render.toList := by
  have hword (before after : String) {text : String} (hbefore : Inert before.toList) (hafter : Inert after.toList)
      (htext : Inert text.toList) : Inert (before ++ text ++ after).toList :=
    inert_append (inert_append hbefore htext) hafter
  have hall {α : Type} (f : α → Int) (cases : List α) :
      Inert (bracketed (cases.map fun c => toString (f c))).toList := by
    simpa [List.map_map, Function.comp_def] using Op.inert_bracketed (cases.map f)
  cases operand with
  | none =>
      change Inert "None".toList
      exact inert_of_all (by simp)
  | «local» index => exact hword "Local(" ")" (inert_of_all (by simp)) (inert_of_all (by simp)) (inert_repr index)
  | pool index => exact hword "Pool(" ")" (inert_of_all (by simp)) (inert_of_all (by simp)) (inert_repr index)
  | branch target => exact hword "Branch(" ")" (inert_of_all (by simp)) (inert_of_all (by simp)) (inert_repr target)
  | arrayType code => exact hword "ArrayType(" ")" (inert_of_all (by simp)) (inert_of_all (by simp)) (inert_repr code)
  | int value => exact hword "Int(" ")" (inert_of_all (by simp)) (inert_of_all (by simp)) (inert_int value)
  | increment index delta =>
      refine hword ("Iinc \x7b local: " ++ toString index ++ ", delta: ") " \x7d" ?_ (inert_of_all (by simp))
        (inert_int delta)
      exact hword "Iinc \x7b local: " ", delta: " (inert_of_all (by simp)) (inert_of_all (by simp)) (inert_repr index)
  | switch cases default =>
      have hkeys := hword "Switch \x7b keys: " ", targets: " (inert_of_all (by simp)) (inert_of_all (by simp))
        (hall (·.1) cases)
      have htargets := inert_append hkeys (hall (fun c => (c.2 : Int)) cases)
      exact hword _ " \x7d" (inert_append htargets (inert_of_all (by simp))) (inert_of_all (by simp))
        (inert_repr default)

namespace Code

variable {code : Code}

theorem inert_byteLines (pc : Nat) (bytes : List UInt8) : ∀ line ∈ byteLines pc bytes, Inert line.toList := by
  fun_induction byteLines pc bytes with
  | case1 => nofun
  | case2 pc b rest ih =>
      refine List.forall_mem_cons.mpr ⟨?_, ih⟩
      refine inert_append (inert_append (inert_offset pc) (inert_of_all (by simp)))
        (inert_intercalate (inert_of_all (by simp)) fun s hs => ?_)
      obtain ⟨b, -, rfl⟩ := List.mem_map.mp hs
      exact inert_hex 2 _

theorem inert_listFrom (pc : Nat) : ∀ line ∈ code.listFrom pc, Inert line.toList := by
  fun_induction listFrom code pc with
  | case1 pc hlt op hop ih =>
      refine List.forall_mem_cons.mpr ⟨?_, ih⟩
      refine inert_append (inert_append (inert_append ?_ (inert_hex 2 op.opcode)) (inert_of_all (by simp)))
        op.operand.inert_render
      exact inert_append (inert_offset pc) (inert_of_all (by simp))
  | case2 pc hlt e he => exact inert_byteLines pc _
  | case3 => nofun

end Code

end ClassFile

namespace RawCode

def names (code : RawCode) (pool : Pool) : List String :=
  match code.format with
  | .dalvik => match Dalvik.Code.ofBytes code.bytes with
    | .ok units => Dalvik.namesFrom units pool 0
    | .error _ => []
  | .classFile => []

theorem closes_listing (code : RawCode) (pool : Pool) :
    (∃ line ∈ code.listing pool, Closes line.toList) ↔ ∃ s ∈ code.names pool, Closes s.toList := by
  unfold listing names
  cases code.format with
  | classFile =>
      have hnone : ∀ line ∈ ClassFile.Code.listing code.bytes, ¬ Closes line.toList := fun line hline =>
        (ClassFile.Code.inert_listFrom 0 line hline).not_closes
      simpa using hnone
  | dalvik =>
      cases hunits : Dalvik.Code.ofBytes code.bytes with
      | ok units => exact Dalvik.closes_listing
      | error e =>
          obtain ⟨position, rfl⟩ := Dalvik.ofBytes_error hunits
          have hmessage : Inert (DecodeFault.truncated position).message.toList :=
            inert_append (inert_of_all (by simp)) (inert_offset position)
          have hline : ¬ Closes ("// " ++ (DecodeFault.truncated position).message).toList := by
            rw [String.toList_append, closes_append_inert hmessage]
            simp [closes_cons]
          simpa using hline

end RawCode

end JavaLift
