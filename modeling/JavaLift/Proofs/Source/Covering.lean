import JavaLift.Proofs.Source.Touches

namespace JavaLift.Source

namespace Phrase

def Covered (p : Phrase) : Prop := ∀ r, .name r ∈ p.pieces → .read r ∈ p.events

variable {p q : Phrase}

theorem Covered.text (s : String) : (Phrase.text s).Covered := by simp [Covered, Phrase.text]

theorem Covered.name (r : Register) : (Phrase.name r).Covered := by simp [Covered, Phrase.name]

theorem Covered.remark (kind : DiagnosticKind) (message : String) : (Phrase.remark kind message).Covered := by
  simp [Covered, Phrase.remark]

theorem pieces_append (p q : Phrase) : (p ++ q).pieces = p.pieces ++ q.pieces := rfl

theorem events_append (p q : Phrase) : (p ++ q).events = p.events ++ q.events := rfl

theorem Covered.append (hp : p.Covered) (hq : q.Covered) : (p ++ q).Covered := by
  intro r hr
  rw [pieces_append, List.mem_append] at hr
  rw [events_append, List.mem_append]
  exact hr.imp (hp r) (hq r)

theorem Covered.after (hp : p.Covered) (s : String) : (s ++ p : Phrase).Covered := (Covered.text s).append hp

theorem Covered.before (hp : p.Covered) (s : String) : (p ++ s : Phrase).Covered := hp.append (.text s)

theorem Covered.commaList : ∀ {ps : List Phrase}, (∀ p ∈ ps, p.Covered) → (Phrase.commaList ps).Covered
  | [], _ => by simp [Covered, Phrase.commaList]
  | [p], h => h p (by simp)
  | p :: q :: rest, h =>
      ((h p List.mem_cons_self).before ", ").append (.commaList fun r hr => h r (List.mem_cons_of_mem _ hr))

/-- Evaluating the parts in another order reads the same registers. -/
theorem Covered.inOrder {parts : List Phrase} (hp : p.Covered) (h : ∀ e ∈ p.events, ∃ q ∈ parts, e ∈ q.events) :
    (p.inOrder parts).Covered := fun r hr => List.mem_flatMap.mpr (h _ (hp r hr))

theorem Covered.reads {r : Register} {v : Nat} (hp : p.Covered) (h : .name r ∈ p.pieces) (hv : r.var = some v) :
    v ∈ p.reads := List.mem_filterMap.mpr ⟨.read r, hp r h, hv⟩

end Phrase

open Phrase

variable {e f : Expr} {o : Operand} {os : List Operand} {s : Place}

theorem covered_within (h : e.Covered) (demand : Prec) : (e.within demand).Covered := by
  unfold Expr.within
  split_ifs
  · exact (h.after "(").before ")"
  · exact h

theorem covered_binary (he : e.Covered) (hf : f.Covered) (symbol : String) (prec : Prec) :
    (Expr.binary e symbol f prec).Covered := ((covered_within he _).before _).append (covered_within hf _)

theorem covered_unary (h : e.Covered) (symbol : Char) : (Expr.unary symbol e).Covered := by
  have hinner := covered_within h Prec.unary
  dsimp only [Expr.unary]
  split_ifs
  · exact (hinner.after _).before _
  · exact hinner.after _

theorem covered_cast (h : e.Covered) (type : Ty) : (Expr.cast type e).Covered := (covered_within h _).after _

theorem covered_arguments {es : List Expr} (h : ∀ e ∈ es, e.Covered) : (Expr.arguments es).Covered := by
  refine .commaList fun p hp => ?_
  obtain ⟨e, he, rfl⟩ := List.mem_map.mp hp
  exact covered_within (h e he) _

structure Operand.Covered (o : Operand) : Prop where
  expr : o.expr.Covered
  inner : ∀ e ∈ o.inner, e.Covered

theorem covered_values (h : ∀ o ∈ os, o.Covered) : (Expr.arguments (os.map (·.expr))).Covered := by
  refine covered_arguments fun e he => ?_
  obtain ⟨o, ho, rfl⟩ := List.mem_map.mp he
  exact (h o ho).expr

theorem covered_zeroTest (cmp : CmpOp) (h : o.Covered) : (zeroTest cmp o).Covered := by
  dsimp only [zeroTest]
  split_ifs
  · exact covered_unary h.expr _
  · exact h.expr
  · exact (covered_within h.expr _).before _
  · exact (covered_within h.expr _).before _

theorem covered_condition (cmp : CmpOp) (h : ∀ o ∈ os, o.Covered) : (condition cmp os).Covered := by
  unfold condition
  split
  next x y => exact covered_binary (h x (by simp)).expr (h y (by simp)).expr _ _
  next o =>
    have ho := h o (by simp)
    split
    next x y hcompared =>
      have hinner : o.inner = [x, y] := by
        unfold Operand.compared? at hcompared
        split at hcompared
        next hargs =>
          split at hcompared
          · cases hcompared
            assumption
          · cases hcompared
        next => cases hcompared
      exact covered_binary (ho.inner x (by simp [hinner])) (ho.inner y (by simp [hinner])) _ _
    next => exact covered_zeroTest cmp ho
  next => exact .text "false"

theorem covered_choice (cmp : CmpOp) (h : ∀ o ∈ os, o.Covered) {a b : Operand} (ha : a.Covered) (hb : b.Covered) :
    (choice cmp os a b).Covered := by
  unfold choice
  split
  · exact covered_condition cmp h
  · exact covered_condition cmp.negate h
  · have hcondition := (covered_within (covered_condition cmp h) (Prec.conditional + 1)).before " ? "
    have hthen := (hcondition.append (covered_within ha.expr (Prec.conditional + 1))).before " : "
    exact hthen.append (covered_within hb.expr _)

theorem covered_onTarget {target values : Phrase} {order : List Phrase} (ht : target.Covered) (hv : values.Covered)
    (text : String) (htarget : target ∈ order) (hvalues : values ∈ order) :
    ((target ++ text ++ values ++ ")").inOrder order).Covered := by
  refine .inOrder (((ht.before _).append hv).before _) fun e he => ?_
  change e ∈ target.events ++ [] ++ values.events ++ [] at he
  rw [List.append_nil, List.append_nil, List.mem_append] at he
  rcases he with he | he
  · exact ⟨target, htarget, he⟩
  · exact ⟨values, hvalues, he⟩

theorem covered_callOn {target values : Phrase} (ht : target.Covered) (hv : values.Covered) (name : String) :
    (callOn target name values).Covered :=
  covered_onTarget ht hv _ (by simp) (by simp)

theorem covered_constructorCall {values : Phrase} (m : MethodRef) (ho : o.Covered) (hv : values.Covered) :
    (constructorCall s m o values).Covered := by
  unfold constructorCall
  split_ifs
  · exact ((hv.before ")").after "(").after _
  · exact ((hv.before ")").after "(").after _
  · exact covered_onTarget (covered_within ho.expr Prec.primary) hv _ (by simp) (by simp)

theorem covered_call (kind : InvokeKind) (m : MethodRef) (h : ∀ o ∈ os, o.Covered) :
    (call s kind m os).Covered := by
  have hclass (os : List Operand) (h : ∀ o ∈ os, o.Covered) :
      (Expr.primary ((s.classText m.className ++ "." ++ m.name ++ "(") ++ Expr.arguments (os.map (·.expr)) ++ ")")).Covered :=
    ((covered_values h).after _).before _
  unfold call
  split
  next => exact hclass os h
  next =>
    split_ifs
    · exact .text _
    · exact hclass [] (by simp)
  next receiver os _ =>
    have hreceiver := h receiver List.mem_cons_self
    have hvalues := covered_values fun o ho => h o (List.mem_cons_of_mem _ ho)
    dsimp only
    split_ifs
    · exact covered_constructorCall m hreceiver hvalues
    · exact (hvalues.after _).before _
    · exact covered_callOn (covered_within hreceiver.expr _) hvalues _

theorem covered_one {g : List Operand → Expr} (h : ∀ o ∈ os, (g [o]).Covered) (hnone : (g []).Covered)
    (hmore : ∀ x y rest, (g (x :: y :: rest)).Covered) : (g os).Covered := by
  match os, h with
  | [], _ => exact hnone
  | [o], h => exact h o List.mem_cons_self
  | x :: y :: rest, _ => exact hmore x y rest

theorem covered_two {g : List Operand → Expr} (h : ∀ x ∈ os, ∀ y ∈ os, (g [x, y]).Covered) (hnone : (g []).Covered)
    (hone : ∀ x, (g [x]).Covered) (hmore : ∀ x y z rest, (g (x :: y :: z :: rest)).Covered) : (g os).Covered := by
  match os, h with
  | [], _ => exact hnone
  | [x], _ => exact hone x
  | [x, y], h => exact h x (by simp) y (by simp)
  | x :: y :: z :: rest, _ => exact hmore x y z rest

theorem covered_compare {x y : Operand} (hx : x.Covered) (hy : y.Covered) (t : Ty) :
    (Expr.primary ((comparingClass t ++ ".compare(") ++ Expr.arguments [x.expr, y.expr] ++ ")")).Covered := by
  refine ((covered_arguments fun e he => ?_).after _).before _
  simp only [List.mem_cons, List.not_mem_nil, or_false] at he
  rcases he with rfl | rfl
  · exact hx.expr
  · exact hy.expr

theorem covered_node (head : Head) (args : List Arg) (h : ∀ o ∈ os, o.Covered) : (node s head args os).Covered := by
  obtain ⟨op, result, offset, line⟩ := head
  have hone {f : Operand → Expr} (hf : ∀ o ∈ os, (f o).Covered)
      (heq : ∀ o, node s ⟨op, result, offset, line⟩ args [o] = f o)
      (hnone : (node s ⟨op, result, offset, line⟩ args []).Covered)
      (hmore : ∀ x y rest, (node s ⟨op, result, offset, line⟩ args (x :: y :: rest)).Covered) :=
    covered_one (g := node s ⟨op, result, offset, line⟩ args) (fun o ho => by rw [heq]; exact hf o ho) hnone hmore
  have htwo {f : Operand → Operand → Expr} (hf : ∀ x ∈ os, ∀ y ∈ os, (f x y).Covered)
      (heq : ∀ x y, node s ⟨op, result, offset, line⟩ args [x, y] = f x y)
      (hnone : (node s ⟨op, result, offset, line⟩ args []).Covered)
      (hone : ∀ x, (node s ⟨op, result, offset, line⟩ args [x]).Covered)
      (hmore : ∀ x y z rest, (node s ⟨op, result, offset, line⟩ args (x :: y :: z :: rest)).Covered) :=
    covered_two (g := node s ⟨op, result, offset, line⟩ args) (fun x hx y hy => by rw [heq]; exact hf x hx y hy)
      hnone hone hmore
  cases op with
  | const | move => exact hone (fun o ho => (h o ho).expr) (fun _ => rfl) (.text _) fun _ _ _ => .text _
  | checkCast t | cast source t =>
      exact hone (fun o ho => covered_cast (h o ho).expr t) (fun _ => rfl) (.text _) fun _ _ _ => .text _
  | instanceOf t | arrayLength | instanceGet f =>
      exact hone (fun o ho => (covered_within (h o ho).expr _).before _) (fun _ => rfl) (.text _) fun _ _ _ => .text _
  | newArray t =>
      exact hone (fun o ho => ((covered_within (h o ho).expr _).after _).before _) (fun _ => rfl) (.text _)
        fun _ _ _ => .text _
  | neg t | not t =>
      exact hone (fun o ho => covered_unary (h o ho).expr _) (fun _ => rfl) (.text _) fun _ _ _ => .text _
  | compare t =>
      exact htwo (fun x hx y hy => covered_compare (h x hx) (h y hy) t) (fun _ _ => rfl) (.text _) (fun _ => .text _)
        fun _ _ _ _ => .text _
  | arith op t =>
      exact htwo (fun x hx y hy => covered_binary (h x hx).expr (h y hy).expr _ _) (fun _ _ => rfl) (.text _)
        (fun _ => .text _) fun _ _ _ _ => .text _
  | arrayGet t =>
      exact htwo (fun x hx y hy => (((covered_within (h x hx).expr _).before _).append
        (covered_within (h y hy).expr _)).before _) (fun _ _ => rfl) (.text _) (fun _ => .text _)
        fun _ _ _ _ => .text _
  | newInstance t => exact (Covered.remark _ _).append (.text _)
  | filledNewArray t => exact ((covered_values h).after _).before _
  | invoke kind m => exact covered_call kind m h
  | construct m => exact ((covered_values h).after _).before _
  | ternary cmp n =>
      simp only [node]
      split
      next a b hab =>
        have hdrop (o : Operand) (ho : o ∈ [a, b]) : o.Covered := h o (List.mem_of_mem_drop (hab ▸ ho))
        exact covered_choice cmp (fun o ho => h o (List.mem_of_mem_take ho)) (hdrop a (by simp)) (hdrop b (by simp))
      next => exact .text _
  | _ => exact .text _

mutual

theorem covered_operand (s : Place) (a : Arg) : (operand s a).Covered := by
  cases a with
  | reg r => exact ⟨.name r, by simp [operand]⟩
  | lit value type => exact ⟨.text _, by simp [operand]⟩
  | tree head args =>
      have hargs := covered_operands s args
      refine ⟨covered_node head args hargs, fun e he => ?_⟩
      obtain ⟨o, ho, rfl⟩ := List.mem_map.mp he
      exact (hargs o ho).expr

theorem covered_operands (s : Place) (args : List Arg) : ∀ o ∈ operands s args, o.Covered := by
  cases args with
  | nil => simp [operands]
  | cons a args =>
      rintro o (_ | ⟨_, ho⟩)
      · exact covered_operand s a
      · exact covered_operands s args o ho

end

theorem covered_insnExpr (s : Place) (i : Insn) : (insnExpr s i).Covered := (covered_operand s i.toArg).expr

namespace Lifted

variable (m : Lifted)

theorem covered_selector (i : Insn) : (m.selector i).Covered := by
  have h := covered_operands m.place i.args
  unfold selector
  split
  next o _ ho => exact covered_within (h o (by simp [ho])).expr _
  next => exact .text _

theorem covered_comparison (cmp : CmpOp) (negated : Bool) (i : Insn) : (m.comparison cmp negated i).Covered :=
  covered_condition _ (covered_operands m.place i.args)

theorem covered_statement {i : Insn} {p : Phrase} (h : m.statement? i = some p) : p.Covered := by
  have hos := covered_operands m.place i.args
  unfold statement? at h
  dsimp only at h
  split at h
  case h_1 => cases h; exact .text _
  case h_2 o os _ heq => cases h; exact (hos o (by simp [heq])).expr.after _
  case h_3 o os _ heq => cases h; exact (covered_within (hos o (by simp [heq])).expr _).after _
  case h_4 o os _ heq => cases h; exact ((covered_within (hos o (by simp [heq])).expr _).after _).before _
  case h_5 o os _ heq => cases h; exact ((covered_within (hos o (by simp [heq])).expr _).after _).before _
  case h_6 a index value _ heq =>
    cases h
    have hplace := (covered_within (hos a (by simp [heq])).expr Prec.primary).before "["
    exact ((hplace.append (covered_within (hos index (by simp [heq])).expr _)).before _).append
      (covered_within (hos value (by simp [heq])).expr _)
  case h_7 f o value _ heq =>
    cases h
    exact ((covered_within (hos o (by simp [heq])).expr _).before _).append
      (covered_within (hos value (by simp [heq])).expr _)
  case h_8 f value os _ heq => cases h; exact (covered_within (hos value (by simp [heq])).expr _).after _
  case h_9 data o os _ heq =>
    cases h
    exact ((covered_within (hos o (by simp [heq])).expr _).before _).after _
  case h_10 => cases h

end Lifted

end JavaLift.Source
