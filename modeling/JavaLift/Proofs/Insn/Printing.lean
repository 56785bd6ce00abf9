import JavaLift.Proofs.Dalvik.Items
import JavaLift.Proofs.Text.Comment

namespace JavaLift

open Text

def Undotted (s : String) : Prop := s.toList.head?.any (· != '.') = true

theorem Undotted.append {s : String} (h : Undotted s) (t : String) : Undotted (s ++ t) := by
  unfold Undotted at h ⊢
  rw [String.toList_append, List.head?_append]
  cases hs : s.toList.head? with
  | none => simp [hs] at h
  | some c => simpa [hs] using h

theorem Undotted.not_word {s : String} (h : Undotted s) : ¬ ".word".toList <+: s.toList := by
  rintro ⟨t, ht⟩
  unfold Undotted at h
  rw [← ht] at h
  simp at h

theorem Op.undotted_mnemonic {op : Op} (hternary : op.isTernary = false)
    (hcast : ∀ source target, op ≠ .cast source target) (conditions : List String) :
    Undotted (op.mnemonic conditions) := by
  -- The texts are given with each operation, because the equations of the printer are slow to come by.
  have hword (word : String) {text s : String} (htext : text = word ++ s) (hword : Undotted word) : Undotted text :=
    htext ▸ hword.append s
  cases op with
  | ternary => cases hternary
  | cast source target => exact absurd rfl (hcast source target)
  | nop => exact show Undotted "nop" by simp [Undotted]
  | const => exact show Undotted "const" by simp [Undotted]
  | move => exact show Undotted "move" by simp [Undotted]
  | ret => exact show Undotted "return" by simp [Undotted]
  | throw => exact show Undotted "throw" by simp [Undotted]
  | monitorEnter => exact show Undotted "monitor-enter" by simp [Undotted]
  | monitorExit => exact show Undotted "monitor-exit" by simp [Undotted]
  | arrayLength => exact show Undotted "array-length" by simp [Undotted]
  | arrayGet => exact show Undotted "aget" by simp [Undotted]
  | arrayPut => exact show Undotted "aput" by simp [Undotted]
  | constString => exact hword "const-string " rfl (by simp [Undotted])
  | constClass => exact hword "const-class " rfl (by simp [Undotted])
  | moveException caught =>
      cases caught with
      | none => exact show Undotted "move-exception" by simp [Undotted]
      | some t => exact hword "move-exception " rfl (by simp [Undotted])
  | checkCast => exact hword "check-cast " rfl (by simp [Undotted])
  | instanceOf => exact hword "instance-of " rfl (by simp [Undotted])
  | newInstance => exact hword "new-instance " rfl (by simp [Undotted])
  | newArray => exact hword "new-array " rfl (by simp [Undotted])
  | filledNewArray => exact hword "filled-new-array " rfl (by simp [Undotted])
  | goto => exact hword "goto " rfl (by simp [Undotted])
  | compare => exact hword "cmp-" rfl (by simp [Undotted])
  | neg => exact hword "neg-" rfl (by simp [Undotted])
  | not => exact hword "not-" rfl (by simp [Undotted])
  | instanceGet => exact hword "iget " rfl (by simp [Undotted])
  | instancePut => exact hword "iput " rfl (by simp [Undotted])
  | staticGet => exact hword "sget " rfl (by simp [Undotted])
  | staticPut => exact hword "sput " rfl (by simp [Undotted])
  | construct => exact hword "construct " rfl (by simp [Undotted])
  | fillArray width data =>
      exact hword (_ ++ _ ++ _) rfl (((show Undotted "fill-array-data width=" by simp [Undotted]).append _).append _)
  | jumpIf cmp target =>
      exact hword (_ ++ _ ++ _) rfl (((show Undotted "if-" by simp [Undotted]).append _).append _)
  | switchOn keys targets default =>
      exact hword (_ ++ _ ++ _) rfl (((show Undotted "switch \x7b" by simp [Undotted]).append _).append _)
  | arith op t =>
      refine hword (op.name ++ "-") rfl ?_
      cases op <;> simp [Undotted, ArithOp.name]
  | invoke kind m =>
      exact hword (_ ++ _ ++ _) rfl (((show Undotted "invoke-" by simp [Undotted]).append _).append _)

theorem Insn.undotted_render {i : Insn} (hfresh : i.isFresh = true) (hunfolded : i.Unfolded) : Undotted i.render := by
  rw [render, Head.render]
  refine Undotted.append ?_ _
  cases hresult : i.result with
  | some r => exact (show Undotted "r" by simp [Undotted]).append (toString r.reg) |>.append " = " |>.append _
  | none =>
      have hcast (source target : Ty) : i.op ≠ .cast source target := by
        intro hop
        simp [isFresh, hop, hresult] at hfresh
      change Undotted ("" ++ _)
      rw [String.empty_append]
      exact Op.undotted_mnemonic hunfolded.op hcast _

namespace Op

/-- What an operation is listed with and comes from outside: a string, or names of types and members. -/
def names : Op → List String
  | .constString s => [s]
  | .constClass t | .moveException (some t) | .checkCast t | .instanceOf t | .newInstance t | .newArray t
  | .filledNewArray t => [t.render]
  | .compare t | .arith _ t | .neg t | .not t => [t.javaName]
  | .cast source target => [source.javaName, target.javaName]
  | .instanceGet f | .instancePut f | .staticGet f | .staticPut f => [f.render]
  | .invoke _ m | .construct m => [m.render]
  | _ => []

theorem inert_switch (keys : List Int) (targets : List Nat) :
    Inert (", ".intercalate (List.zipWith caseText keys targets)).toList := by
  refine inert_intercalate (inert_of_all (by simp)) fun s hs => ?_
  rw [← List.map_uncurry_zip_eq_zipWith] at hs
  obtain ⟨⟨key, target⟩, -, rfl⟩ := List.mem_map.mp hs
  exact inert_append (inert_append (inert_int key) (inert_of_all (by simp))) (inert_offset target)

theorem inert_bracketed (data : List Int) : Inert (bracketed (data.map toString)).toList := by
  have hitems : Inert (", ".intercalate (data.map toString)).toList := by
    refine inert_intercalate (inert_of_all (by simp)) fun s hs => ?_
    obtain ⟨k, -, rfl⟩ := List.mem_map.mp hs
    exact inert_int k
  exact inert_append (inert_append (inert_of_all (by simp)) hitems) (inert_of_all (by simp))

/-- All that an operation is listed with, apart from the names, is inert. -/
theorem closes_mnemonic {op : Op} (h : op.isTernary = false) (conditions : List String) :
    Closes (op.mnemonic conditions).toList ↔ ∃ s ∈ op.names, Closes s.toList := by
  -- The texts are given with each operation, because the equations of the printer are slow to come by.
  have hword (word : String) {text s : String} (htext : text = word ++ s) (hword : Inert word.toList) :
      Closes text.toList ↔ ∃ t ∈ [s], Closes t.toList := by
    rw [htext, String.toList_append, closes_inert_append hword]
    simp
  have hnone (text : String) (htext : Inert text.toList) :
      Closes text.toList ↔ ∃ t ∈ ([] : List String), Closes t.toList := by
    simp [htext.not_closes]
  cases op with
  | ternary => cases h
  | nop => exact hnone "nop" (inert_of_all (by simp))
  | const => exact hnone "const" (inert_of_all (by simp))
  | move => exact hnone "move" (inert_of_all (by simp))
  | ret => exact hnone "return" (inert_of_all (by simp))
  | throw => exact hnone "throw" (inert_of_all (by simp))
  | monitorEnter => exact hnone "monitor-enter" (inert_of_all (by simp))
  | monitorExit => exact hnone "monitor-exit" (inert_of_all (by simp))
  | arrayLength => exact hnone "array-length" (inert_of_all (by simp))
  | arrayGet => exact hnone "aget" (inert_of_all (by simp))
  | arrayPut => exact hnone "aput" (inert_of_all (by simp))
  | constString s =>
      refine (hword "const-string " rfl (inert_of_all (by simp))).trans ?_
      simp [names, closes_quoted]
  | constClass t => exact hword "const-class " rfl (inert_of_all (by simp))
  | moveException caught =>
      cases caught with
      | none => exact hnone "move-exception" (inert_of_all (by simp))
      | some t => exact hword "move-exception " rfl (inert_of_all (by simp))
  | checkCast t => exact hword "check-cast " rfl (inert_of_all (by simp))
  | instanceOf t => exact hword "instance-of " rfl (inert_of_all (by simp))
  | newInstance t => exact hword "new-instance " rfl (inert_of_all (by simp))
  | newArray t => exact hword "new-array " rfl (inert_of_all (by simp))
  | filledNewArray t => exact hword "filled-new-array " rfl (inert_of_all (by simp))
  | compare t => exact hword "cmp-" rfl (inert_of_all (by simp))
  | neg t => exact hword "neg-" rfl (inert_of_all (by simp))
  | not t => exact hword "not-" rfl (inert_of_all (by simp))
  | instanceGet f => exact hword "iget " rfl (inert_of_all (by simp))
  | instancePut f => exact hword "iput " rfl (inert_of_all (by simp))
  | staticGet f => exact hword "sget " rfl (inert_of_all (by simp))
  | staticPut f => exact hword "sput " rfl (inert_of_all (by simp))
  | construct m => exact hword "construct " rfl (inert_of_all (by simp))
  | arith op t =>
      refine hword (op.name ++ "-") rfl ?_
      cases op <;> exact inert_of_all (by simp [ArithOp.name])
  | invoke kind m =>
      refine hword ("invoke-" ++ kind.name ++ " ") rfl ?_
      cases kind <;> exact inert_of_all (by simp [InvokeKind.name])
  | cast source target =>
      have hboth : Closes (source.javaName ++ "-to-" ++ target.javaName).toList ↔
          Closes source.javaName.toList ∨ Closes target.javaName.toList := by
        rw [String.toList_append, String.toList_append, List.append_assoc]
        exact closes_between (inert_of_all (by simp)) (by simp)
      refine hboth.trans ?_
      simp [names]
  | goto target =>
      exact hnone ("goto " ++ offset target) (inert_append (inert_of_all (by simp)) (inert_offset target))
  | jumpIf cmp target =>
      have hcmp : Inert ("if-" ++ cmp.name ++ " -> ").toList := by
        cases cmp <;> exact inert_of_all (by simp [CmpOp.name])
      exact hnone ("if-" ++ cmp.name ++ " -> " ++ offset target) (inert_append hcmp (inert_offset target))
  | switchOn keys targets default =>
      have hdefault : Inert (default.elim "" fun d => " default " ++ offset d).toList := by
        cases default with
        | none => exact inert_of_all (by simp)
        | some d => exact inert_append (inert_of_all (by simp)) (inert_offset d)
      refine hnone ("switch \x7b" ++ ", ".intercalate (List.zipWith caseText keys targets) ++ "\x7d"
        ++ default.elim "" fun d => " default " ++ offset d) (inert_append ?_ hdefault)
      exact inert_append (inert_append (inert_of_all (by simp)) (inert_switch keys targets)) (inert_of_all (by simp))
  | fillArray width data =>
      refine hnone ("fill-array-data width=" ++ toString width ++ " " ++ bracketed (data.map toString))
        (inert_append ?_ (inert_bracketed data))
      exact inert_append (inert_append (inert_of_all (by simp)) (inert_repr width)) (inert_of_all (by simp))

end Op

namespace Insn

theorem inert_arg {a : Arg} (h : a.insn? = none) : Inert a.render.toList := by
  cases a with
  | tree => cases h
  | reg r =>
      rw [Arg.render]
      exact inert_append (inert_of_all (by simp)) (inert_repr r.reg)
  | lit value type =>
      rw [Arg.render]
      exact inert_append (inert_of_all (by simp)) (inert_int value)

theorem renderAll_eq (args : List Arg) : Arg.renderAll args = args.map Arg.render := by
  induction args with
  | nil => simp [Arg.renderAll]
  | cons a rest ih => simp [Arg.renderAll, ih]

/-- Around the operation only registers and literals are listed. -/
theorem Unfolded.closes_render {i : Insn} (h : i.Unfolded) :
    Closes i.render.toList ↔ ∃ s ∈ i.op.names, Closes s.toList := by
  have hresult : Inert (i.result.elim "" fun r => r.render ++ " = ").toList := by
    cases i.result with
    | none => exact inert_of_all (by simp)
    | some r => exact inert_append (inert_append (inert_of_all (by simp)) (inert_repr r.reg)) (inert_of_all (by simp))
  have hvalues (values : List String) (hvalues : ∀ s ∈ values, Inert s.toList) :
      Inert (if values.isEmpty then "" else " " ++ ", ".intercalate values).toList := by
    split
    · exact inert_of_all (by simp)
    · exact inert_append (inert_of_all (by simp)) (inert_intercalate (inert_of_all (by simp)) hvalues)
  have hargs : ∀ s ∈ (Arg.renderAll i.args).drop i.op.conditions, Inert s.toList := by
    intro s hs
    rw [renderAll_eq] at hs
    obtain ⟨a, ha, rfl⟩ := List.mem_map.mp (List.mem_of_mem_drop hs)
    exact inert_arg (h.args a ha)
  rw [render, Head.render, String.toList_append, String.toList_append, closes_append_inert (hvalues _ hargs),
    closes_inert_append hresult, Op.closes_mnemonic h.op]

end Insn

end JavaLift
