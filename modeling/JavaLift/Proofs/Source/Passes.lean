import JavaLift.Proofs.Source.Touches
import JavaLift.Source.Layout

/-!
A method is laid out twice, and the second time a comparison after an `else` stands in braces where its scope begins
with declarations. It is the same layout as far as variables and scopes go, unless nothing is written for the
comparison in braces; and nothing is declared in the scope of such a comparison if a variable is declared only where
it is assigned.
-/

namespace JavaLift.Source

def entered (ts : List Touch) : List Nat := ts.filterMap fun
  | .enter id => some id
  | _ => none

@[simp] theorem entered_append (ts us : List Touch) : entered (ts ++ us) = entered ts ++ entered us :=
  List.filterMap_append

def around (S : List Nat) : List Touch → List Nat
  | [] => S
  | .enter id :: ts => around (id :: S) ts
  | .leave :: ts => around S.tail ts
  | .read _ :: ts | .assign _ :: ts | .clause _ :: ts => around S ts

theorem around_append (S : List Nat) (ts us : List Touch) : around S (ts ++ us) = around (around S ts) us := by
  induction ts generalizing S with
  | nil => rfl
  | cons t ts ih => cases t <;> exact ih _

def AssignedIn (id : Nat) (S : List Nat) : List Touch → Prop
  | [] => False
  | .assign _ :: ts => id ∈ S ∨ AssignedIn id S ts
  | .enter j :: ts => AssignedIn id (j :: S) ts
  | .leave :: ts => AssignedIn id S.tail ts
  | .read _ :: ts | .clause _ :: ts => AssignedIn id S ts

variable {id : Nat} {S T : List Nat} {ts us : List Touch}

theorem assignedIn_append : AssignedIn id S (ts ++ us) ↔ AssignedIn id S ts ∨ AssignedIn id (around S ts) us := by
  induction ts generalizing S with
  | nil => simp [AssignedIn, around]
  | cons t ts ih =>
      cases t with
      | assign v => exact (or_congr_right ih).trans or_assoc.symm
      | read v | clause c | enter j | leave => exact ih

theorem AssignedIn.entered (h : AssignedIn id S ts) : id ∈ S ∨ id ∈ entered ts := by
  induction ts generalizing S with
  | nil => exact h.elim
  | cons t ts ih =>
      cases t with
      | assign v => exact h.elim .inl ih
      | read v | clause c => exact ih h
      | enter j =>
          rcases ih h with hS | hts
          · rcases List.mem_cons.mp hS with rfl | hS
            · exact .inr List.mem_cons_self
            · exact .inl hS
          · exact .inr (List.mem_cons_of_mem _ hts)
      | leave => exact (ih h).imp_left List.mem_of_mem_tail

/-- Scopes further out count only if they are the one in question. -/
theorem AssignedIn.inner (h : AssignedIn id (S ++ T) ts) (hT : id ∉ T) : AssignedIn id S ts := by
  induction ts generalizing S T with
  | nil => exact h
  | cons t ts ih =>
      cases t with
      | assign v => exact h.imp (fun hmem => (List.mem_append.mp hmem).resolve_right hT) fun h => ih h hT
      | read v | clause c => exact ih (S := S) (T := T) h hT
      | enter j => exact ih (S := j :: S) (T := T) h hT
      | leave =>
          cases S with
          | nil => exact ih (S := []) (T := T.tail) h fun hmem => hT (List.mem_of_mem_tail hmem)
          | cons j S => exact ih (S := S) (T := T) h hT

theorem AssignedIn.assign (h : AssignedIn id S ts) : ∃ v, .assign v ∈ ts := by
  induction ts generalizing S with
  | nil => exact h.elim
  | cons t ts ih =>
      cases t with
      | assign v => exact ⟨v, List.mem_cons_self⟩
      | read v | clause c | enter j | leave =>
          obtain ⟨v, hv⟩ := ih h
          exact ⟨v, List.mem_cons_of_mem _ hv⟩

namespace Layout

def touchesAt (l : Layout) (next : Nat) : List Touch := touches (l.run next).1

/-- The scopes of a layout have the numbers from the next one on, and are left again. -/
structure Tidy (l : Layout) : Prop where
  grows : ∀ next, next ≤ (l.run next).2
  range : ∀ next, ∀ id ∈ entered (l.touchesAt next), next ≤ id ∧ id < (l.run next).2
  once : ∀ next, (entered (l.touchesAt next)).Nodup
  balanced : ∀ next S, around S (l.touchesAt next) = S

def Quiet (l : Layout) : Prop := ∀ next v, .assign v ∉ l.touchesAt next

/-- Two layouts do the same to variables and scopes, if each scope that the condition is about has an assignment. -/
structure Parallel (p : Nat → Bool) (a b : Layout) : Prop where
  tidy : b.Tidy
  agree : ∀ next, (∀ id, next ≤ id → id < (b.run next).2 → p id = true → AssignedIn id [] (b.touchesAt next)) →
    a.touchesAt next = b.touchesAt next ∧ (a.run next).2 = (b.run next).2

variable {p : Nat → Bool} {a b a' b' l k : Layout}

theorem touchesAt_append (a b : Layout) (next : Nat) :
    (a ++ b).touchesAt next = a.touchesAt next ++ b.touchesAt (a.run next).2 := touches_append _ _

theorem touchesAt_inScope (l : Layout) (next : Nat) :
    (inScope l).touchesAt next = .enter next :: (l.touchesAt (next + 1) ++ [.leave]) :=
  congrArg (Touch.enter next :: ·) (touches_append _ _)

theorem entered_inScope (l : Layout) (next : Nat) :
    entered ((inScope l).touchesAt next) = next :: entered (l.touchesAt (next + 1)) := by
  rw [touchesAt_inScope]
  exact congrArg (next :: ·) ((entered_append _ _).trans (List.append_nil _))

theorem touchesAt_block (l : Layout) (next : Nat) : (block l).touchesAt next = (inScope l).touchesAt next := by
  unfold block
  rw [touchesAt_append, touchesAt_append]
  exact List.append_nil _

theorem tidy_of {items : List Item} (h : ∀ id, .enter id ∉ touches items) (h' : .leave ∉ touches items) :
    (of items).Tidy where
  grows _ := le_rfl
  range next id hid := by
    obtain ⟨t, ht, hsome⟩ := List.mem_filterMap.mp hid
    cases t with
    | enter j => exact absurd ht (h j)
    | read v | assign v | clause c | leave => cases hsome
  once next := by
    have hnil : entered ((of items).touchesAt next) = [] := by
      refine List.filterMap_eq_nil_iff.mpr fun t ht => ?_
      cases t with
      | enter j => exact absurd ht (h j)
      | read v | assign v | clause c | leave => rfl
    rw [hnil]
    exact List.nodup_nil
  balanced next S := by
    change around S (touches items) = S
    generalize touches items = ts at h h'
    induction ts with
    | nil => rfl
    | cons t ts ih =>
        have hrest := ih (fun j hj => h j (List.mem_cons_of_mem _ hj)) fun hmem => h' (List.mem_cons_of_mem _ hmem)
        cases t with
        | enter j => exact absurd List.mem_cons_self (h j)
        | leave => exact absurd List.mem_cons_self h'
        | read v | assign v | clause c => exact hrest

theorem Tidy.append (h : a.Tidy) (h' : b.Tidy) : (a ++ b).Tidy where
  grows next := (h.grows next).trans (h'.grows _)
  range next id hid := by
    rw [touchesAt_append, entered_append, List.mem_append] at hid
    rcases hid with hid | hid
    · have hrange := h.range next id hid
      exact ⟨hrange.1, hrange.2.trans_le (h'.grows _)⟩
    · have hrange := h'.range _ id hid
      exact ⟨(h.grows next).trans hrange.1, hrange.2⟩
  once next := by
    rw [touchesAt_append, entered_append, List.nodup_append]
    refine ⟨h.once next, h'.once _, fun i hi j hj => ?_⟩
    have hle := (h'.range _ j hj).1
    exact ((h.range next i hi).2.trans_le hle).ne
  balanced next S := by rw [touchesAt_append, around_append, h.balanced, h'.balanced]

theorem Tidy.inScope (h : l.Tidy) : (inScope l).Tidy where
  grows next := (Nat.le_succ next).trans (h.grows (next + 1))
  range next id hid := by
    rw [entered_inScope, List.mem_cons] at hid
    rcases hid with rfl | hid
    · exact ⟨le_rfl, h.grows (id + 1)⟩
    · have hrange := h.range (next + 1) id hid
      exact ⟨(Nat.le_succ next).trans hrange.1, hrange.2⟩
  once next := by
    rw [entered_inScope, List.nodup_cons]
    exact ⟨fun hmem => absurd (h.range (next + 1) next hmem).1 (by omega), h.once _⟩
  balanced next S := by
    rw [touchesAt_inScope]
    change around (next :: S) (l.touchesAt (next + 1) ++ [.leave]) = S
    rw [around_append, h.balanced]
    rfl

theorem tidy_items {items : List Item} (h : touches items = []) : (of items).Tidy :=
  tidy_of (fun id => by rw [h]; exact List.not_mem_nil) (by rw [h]; exact List.not_mem_nil)

theorem Parallel.of {items items' : List Item} (h : touches items = touches items') (hid : ∀ id, .enter id ∉ touches items')
    (hleave : .leave ∉ touches items') : Parallel p (of items) (of items') :=
  ⟨tidy_of hid hleave, fun _ _ => ⟨h, rfl⟩⟩

theorem Parallel.silent {items items' : List Item} (h : touches items = []) (h' : touches items' = []) :
    Parallel p (Layout.of items) (Layout.of items') :=
  ⟨tidy_items h', fun _ _ => ⟨h.trans h'.symm, rfl⟩⟩

theorem Parallel.append (h : Parallel p a b) (h' : Parallel p a' b') : Parallel p (a ++ a') (b ++ b') := by
  refine ⟨h.tidy.append h'.tidy, fun next hall => ?_⟩
  have hassigned (id : Nat) (hid : AssignedIn id [] ((b ++ b').touchesAt next)) :
      AssignedIn id [] (b.touchesAt next) ∨ AssignedIn id [] (b'.touchesAt (b.run next).2) := by
    rw [touchesAt_append, assignedIn_append, h.tidy.balanced] at hid
    exact hid
  obtain ⟨htouches, hnext⟩ := h.agree next fun id hle hlt hp => by
    refine (hassigned id (hall id hle (hlt.trans_le (h'.tidy.grows _)) hp)).resolve_right fun hid => ?_
    have hmem := hid.entered.resolve_left List.not_mem_nil
    exact absurd (h'.tidy.range _ id hmem).1 (by omega)
  obtain ⟨htouches', hnext'⟩ := h'.agree (b.run next).2 fun id hle hlt hp => by
    refine (hassigned id (hall id ((h.tidy.grows next).trans hle) hlt hp)).resolve_left fun hid => ?_
    have hmem := hid.entered.resolve_left List.not_mem_nil
    exact absurd (h.tidy.range _ id hmem).2 (by omega)
  rw [touchesAt_append, touchesAt_append, hnext, htouches, htouches']
  refine ⟨rfl, ?_⟩
  change (a'.run (a.run next).2).2 = _
  rw [hnext]
  exact hnext'

theorem Parallel.inScope (h : Parallel p a b) : Parallel p (inScope a) (inScope b) := by
  refine ⟨h.tidy.inScope, fun next hall => ?_⟩
  obtain ⟨htouches, hnext⟩ := h.agree (next + 1) fun id hle hlt hp => by
    have hid := hall id (by omega) hlt hp
    rw [touchesAt_inScope] at hid
    change AssignedIn id ([] ++ [next]) (b.touchesAt (next + 1) ++ [.leave]) at hid
    rw [assignedIn_append] at hid
    refine (hid.resolve_right fun hleave => ?_).inner (by rw [List.mem_singleton]; omega)
    exact hleave
  rw [touchesAt_inScope, touchesAt_inScope, htouches]
  exact ⟨rfl, hnext⟩

theorem Parallel.block (h : Parallel p a b) : Parallel p (block a) (block b) :=
  ((Parallel.silent rfl rfl).append h.inScope).append (Parallel.silent rfl rfl)

theorem Parallel.concat {ls ks : List Layout} (h : List.Forall₂ (Parallel p) ls ks) : Parallel p (concat ls) (concat ks) := by
  induction h with
  | nil => exact .silent rfl rfl
  | cons hl _ ih => exact hl.append ih

theorem Quiet.append (h : a.Quiet) (h' : b.Quiet) : (a ++ b).Quiet := by
  intro next v hv
  rw [touchesAt_append, List.mem_append] at hv
  exact hv.elim (h next v) (h' _ v)

theorem Quiet.inScope (h : l.Quiet) : (inScope l).Quiet := by
  intro next v hv
  rw [touchesAt_inScope, List.mem_cons, List.mem_append, List.mem_singleton] at hv
  rcases hv with hv | hv | hv
  · cases hv
  · exact h _ v hv
  · cases hv

theorem quiet_of {items : List Item} (h : ∀ v, .assign v ∉ touches items) : (Layout.of items).Quiet := fun _ => h

theorem Quiet.block (h : l.Quiet) : (Layout.block l).Quiet :=
  ((quiet_of fun _ => List.not_mem_nil).append h.inScope).append (quiet_of fun _ => List.not_mem_nil)

end Layout

namespace Lifted

open Layout

variable (m : Lifted) (hasDecls : Nat → Bool)

theorem touches_label (b : Nat) : touches (m.labelItems b) = [] := by
  unfold labelItems
  split_ifs <;> rfl

theorem touches_map {α : Type} {f : α → Item} (h : ∀ a, (f a).touches = []) (xs : List α) : touches (xs.map f) = [] := by
  induction xs with
  | nil => rfl
  | cons a xs ih => rw [List.map_cons, touches_cons, h, ih, List.append_nil]

def Plain (ts : List Touch) : Prop := ∀ t ∈ ts, (∃ v, t = .read v) ∨ ∃ v, t = .assign v

theorem Plain.append (h : Plain ts) (h' : Plain us) : Plain (ts ++ us) := by
  intro t ht
  exact (List.mem_append.mp ht).elim (h t) (h' t)

theorem plain_reads (vs : List Nat) : Plain (vs.map .read) := by
  intro t ht
  obtain ⟨v, -, rfl⟩ := List.mem_map.mp ht
  exact .inl ⟨v, rfl⟩

theorem plain_marked (c : Marked) : Plain (touches [.marked c]) := by
  rw [touches_cons, touches_nil, List.append_nil]
  exact plain_reads _

theorem plain_nil : Plain [] := fun _ ht => by cases ht

theorem plain_statement (i : Insn) : Plain (touches (m.statementItems i)) := by
  unfold statementItems
  split
  · exact plain_nil
  split
  · exact plain_marked _
  split
  · exact plain_nil
  dsimp only
  split
  · rw [touches_cons, touches_nil, List.append_nil]
    refine (plain_reads _).append fun t ht => ?_
    obtain ⟨v, -, rfl⟩ := List.mem_map.mp ht
    exact .inr ⟨v, rfl⟩
  · exact plain_marked _

theorem plain_flatMap {α : Type} {f : α → List Item} (h : ∀ a, Plain (touches (f a))) (xs : List α) :
    Plain (touches (xs.flatMap f)) := by
  induction xs with
  | nil => exact plain_nil
  | cons a xs ih =>
      rw [List.flatMap_cons, touches_append]
      exact (h a).append ih

theorem plain_block (b : Nat) : Plain (touches (m.blockItems b)) := by
  rw [blockItems, touches_append, touches_label, List.nil_append]
  refine plain_flatMap (fun x => ?_) _
  obtain ⟨i, pos⟩ := x
  dsimp only
  split_ifs
  · exact plain_nil
  · exact m.plain_statement i

theorem plain_rawInsn (i : Insn) : Plain (touches (m.rawInsnItems i)) := by
  unfold rawInsnItems
  dsimp only
  split
  · exact plain_marked _
  · exact plain_marked _
  · simp only [touches_append, touches_cons, touches_nil, touches_indent, touches_dedent, touches_line,
      touches_map (fun _ => touches_line _), List.append_nil]
    exact plain_reads _
  · exact m.plain_statement i

theorem plain_raw (b : Nat) : Plain (touches (m.rawItems b)) := by
  rw [rawItems, touches_append, touches_label, List.nil_append]
  exact plain_flatMap m.plain_rawInsn _

variable {p : Nat → Bool}

theorem parallel_items {items : List Item} (h : Plain (touches items)) : Parallel p (Layout.of items) (Layout.of items) := by
  refine .of rfl (fun id hid => ?_) fun hleave => ?_
  · obtain ⟨v, hv⟩ | ⟨v, hv⟩ := h _ hid <;> cases hv
  · obtain ⟨v, hv⟩ | ⟨v, hv⟩ := h _ hleave <;> cases hv

theorem touches_silentOps {b : Nat} (h : ∀ i ∈ (m.graph.block b).insns, isSilentOp i.op = true) :
    touches (m.blockItems b) = [] := by
  rw [blockItems, touches_append, touches_label, List.nil_append]
  refine List.flatMap_eq_nil_iff.mpr fun x hx => ?_
  obtain ⟨⟨i, pos⟩, hi, hx⟩ := List.mem_flatMap.mp hx
  dsimp only at hx
  split_ifs at hx
  · cases hx
  · rw [statementItems, if_pos (h i (List.fst_mem_of_mem_zipIdx hi))] at hx
    cases hx

theorem touches_silentBlock {b : Nat} (h : m.isSilent (.block b) = true) : touches (m.blockItems b) = [] := by
  rw [isSilent, Bool.and_eq_true, List.all_eq_true] at h
  refine m.touches_silentOps fun i hi => ?_
  have hop := h.2 i hi
  split at hop
  next heq => rw [heq]; rfl
  next heq => rw [heq]; rfl
  next => cases hop

mutual

theorem quiet_silent {r : Region} (h : m.isSilent r = true) (chained : Bool) :
    (m.layout hasDecls chained r).Quiet := by
  cases r with
  | seq items => exact quiet_allSilent h
  | block b =>
      refine quiet_of fun v => ?_
      rw [m.touches_silentBlock h]
      exact List.not_mem_nil
  | branch | loop | switch | guarded | brk | cont | goto | raw => cases h

theorem quiet_allSilent {items : List Region} (h : m.allSilent items = true) :
    (m.layoutAll hasDecls items).Quiet := by
  cases items with
  | nil => exact quiet_of fun _ => List.not_mem_nil
  | cons r rest =>
      rw [allSilent, Bool.and_eq_true] at h
      exact (quiet_silent h.1 false).append (quiet_allSilent h.2)

end

theorem touches_bareBlock {b : Nat} (h : m.isBareComparison b = true) : touches (m.blockItems b) = [] := by
  rw [isBareComparison, Bool.and_eq_true, Bool.and_eq_true, List.all_eq_true] at h
  obtain ⟨⟨-, hif⟩, hnop⟩ := h
  obtain ⟨last, hlast, hop⟩ : ∃ i, (m.graph.block b).terminator? = some i ∧ i.op.isIf = true := by
    unfold Block.endsInIf at hif
    cases hlast : (m.graph.block b).terminator? with
    | none => rw [hlast] at hif; cases hif
    | some i => exact ⟨i, rfl, by rwa [hlast] at hif⟩
  have hgetLast : (m.graph.block b).insns.getLast? = some last :=
    (Option.filter_eq_some_iff.mp hlast).1
  rw [Block.statements, hlast, Option.isSome_some, if_pos rfl] at hnop
  refine m.touches_silentOps fun i hi => ?_
  rw [← List.dropLast_append_getLast? last hgetLast, List.mem_append, List.mem_singleton] at hi
  rcases hi with hi | rfl
  · rw [eq_of_beq (hnop i hi)]
    rfl
  · unfold Op.isIf at hop
    split at hop
    next heq => rw [heq]; rfl
    next => cases hop

structure Arm.Matches (hasDecls : Nat → Bool) (a b : Arm) : Prop where
  silent : a.silent = b.silent
  quiet : b.silent = true → b.braced.Quiet ∧ b.chained = none
  braced : Parallel hasDecls a.braced b.braced
  chained : (a.chained = none ∧ b.chained = none) ∨ ∃ k l, a.chained = some k ∧ b.chained = some l ∧
    Parallel hasDecls k l ∧ (l.Quiet ∨ ∀ next, b.braced.touchesAt next = l.touchesAt next ∧
      (b.braced.run next).2 = (l.run next).2)

variable {hasDecls}

theorem Arm.Matches.orderArms (negated : Bool) {thenArm thenArm' : Arm} {elseArm elseArm' : Option Arm}
    (h : thenArm.Matches hasDecls thenArm') (h' : Option.Rel (Arm.Matches hasDecls) elseArm elseArm') :
    (orderArms negated thenArm elseArm).1 = (Lifted.orderArms negated thenArm' elseArm').1 ∧
      (orderArms negated thenArm elseArm).2.1.Matches hasDecls (Lifted.orderArms negated thenArm' elseArm').2.1 ∧
      Option.Rel (Arm.Matches hasDecls) (Lifted.orderArms negated thenArm elseArm).2.2
        (Lifted.orderArms negated thenArm' elseArm').2.2 := by
  cases h' with
  | none => exact ⟨rfl, h, .none⟩
  | some he =>
      unfold Lifted.orderArms
      dsimp only
      rw [h.silent, he.silent]
      split_ifs
      · exact ⟨rfl, he, .none⟩
      · exact ⟨rfl, h, .none⟩
      · exact ⟨rfl, h, .some he⟩

/-- In braces or after the `else`, what stands in the scope is the same. -/
theorem same_else {a b : Layout} (h : ∀ next, a.touchesAt next = b.touchesAt next ∧ (a.run next).2 = (b.run next).2)
    (s t u : String) (next : Nat) :
    (Layout.of [.line s] ++ .block a ++ .of [.line t]).touchesAt next =
        (Layout.of [.line u] ++ Layout.inScope b).touchesAt next ∧
      ((Layout.of [.line s] ++ .block a ++ .of [.line t]).run next).2 =
        ((Layout.of [.line u] ++ Layout.inScope b).run next).2 := by
  obtain ⟨htouches, hnext⟩ := h (next + 1)
  refine ⟨?_, hnext⟩
  have hbraced : (Layout.of [.line s] ++ .block a ++ .of [.line t]).touchesAt next = (Layout.inScope a).touchesAt next := by
    rw [touchesAt_append, touchesAt_append]
    exact (List.append_nil _).trans (touchesAt_block a next)
  rw [hbraced, touchesAt_append, touchesAt_inScope, touchesAt_inScope, htouches]
  rfl

theorem parallel_else {elseArm elseArm' : Option Arm} (h : Option.Rel (Arm.Matches hasDecls) elseArm elseArm') :
    Parallel hasDecls (elseLayout hasDecls elseArm) (elseLayout (fun _ => false) elseArm') := by
  have hline (s : String) : Parallel hasDecls (Layout.of [.line s]) (Layout.of [.line s]) := .silent rfl rfl
  cases h with
  | none => exact hline _
  | @some e e' he =>
      have hbraced := ((hline "\x7d else \x7b").append he.braced.block).append (hline "\x7d")
      obtain ⟨hnone, hnone'⟩ | ⟨k, l, hk, hl, hchained, hagree⟩ := he.chained
      · simp only [elseLayout, hnone, hnone']
        exact hbraced
      simp only [elseLayout, hk, hl]
      have hscope := (hline "\x7d else ").append hchained.inScope
      refine ⟨hscope.tidy, fun next hall => ?_⟩
      change ∀ id, next ≤ id → id < ((Layout.of [.line "\x7d else "] ++ Layout.inScope l).run next).2 →
        hasDecls id = true → AssignedIn id [] ((Layout.of [.line "\x7d else "] ++ Layout.inScope l).touchesAt next) at hall
      unfold byScope touchesAt
      dsimp only
      by_cases hdecls : hasDecls next = true
      · rw [if_pos hdecls]
        rcases hagree with hquiet | hagree
        · -- declarations come with an assignment in the scope, and the comparison has none
          obtain ⟨v, hv⟩ := (hall next le_rfl (hchained.tidy.grows (next + 1)) hdecls).assign
          exact absurd hv (((quiet_of fun _ => List.not_mem_nil).append hquiet.inScope) next v)
        · obtain ⟨htouches, hnext⟩ := same_else hagree "\x7d else \x7b" "\x7d" "\x7d else " next
          obtain ⟨hsame, hsame'⟩ := hbraced.agree next (by rwa [htouches, hnext])
          exact ⟨hsame.trans htouches, hsame'.trans hnext⟩
      · rw [if_neg hdecls]
        exact hscope.agree next hall

theorem parallel_arms (chained : Bool) (header : Nat) (negated : Bool) {first first' : Arm} {second second' : Option Arm}
    (h : first.Matches hasDecls first') (h' : Option.Rel (Arm.Matches hasDecls) second second') :
    Parallel hasDecls (match (m.graph.block header).terminator?.map fun i : Insn => (i, i.op) with
      | some (i, .jumpIf cmp _) =>
        .of [.marked ⟨chained, i.offset, i.line, true, "if (" ++ m.comparison cmp negated i ++ ") \x7b"⟩]
          ++ .block first.braced ++ elseLayout hasDecls second
      | _ => first.braced ++ (second.elim (.of []) Arm.braced))
    (match (m.graph.block header).terminator?.map fun i : Insn => (i, i.op) with
      | some (i, .jumpIf cmp _) =>
        .of [.marked ⟨chained, i.offset, i.line, true, "if (" ++ m.comparison cmp negated i ++ ") \x7b"⟩]
          ++ .block first'.braced ++ elseLayout (fun _ => false) second'
      | _ => first'.braced ++ (second'.elim (.of []) Arm.braced)) := by
  split
  next i cmp _ _ => exact ((parallel_items (plain_marked _)).append h.braced.block).append (parallel_else h')
  next =>
    refine h.braced.append ?_
    cases h' with
    | none => exact .silent rfl rfl
    | some he => exact he.braced

theorem parallel_branch (chained : Bool) (header : Nat) (negated : Bool) {thenArm thenArm' : Arm}
    {elseArm elseArm' : Option Arm} (h : thenArm.Matches hasDecls thenArm')
    (h' : Option.Rel (Arm.Matches hasDecls) elseArm elseArm') :
    Parallel hasDecls (m.branchLayout hasDecls chained header negated thenArm elseArm)
      (m.branchLayout (fun _ => false) chained header negated thenArm' elseArm') := by
  obtain ⟨hnegated, hfirst, hsecond⟩ := h.orderArms negated h'
  unfold branchLayout
  dsimp only
  rw [hnegated, hfirst.silent]
  have hblock := parallel_items (p := hasDecls) (m.plain_block header)
  have harms := m.parallel_arms chained header (Lifted.orderArms negated thenArm' elseArm').1 hfirst hsecond
  split_ifs
  · exact hblock
  · exact (Parallel.silent rfl rfl).append harms
  · exact hblock.append harms

theorem quiet_marked (c : Marked) : (Layout.of [.marked c]).Quiet := by
  refine quiet_of fun v hv => ?_
  rw [touches_cons, touches_nil, List.append_nil] at hv
  obtain ⟨w, -, hw⟩ := List.mem_map.mp hv
  cases hw

theorem quiet_else {elseArm : Option Arm} (h : ∀ e ∈ elseArm, e.braced.Quiet ∧ e.chained = none) :
    (elseLayout hasDecls elseArm).Quiet := by
  cases elseArm with
  | none => exact quiet_of fun _ => List.not_mem_nil
  | some e =>
      obtain ⟨hquiet, hnone⟩ := h e rfl
      simp only [elseLayout, hnone]
      exact ((quiet_of fun _ => List.not_mem_nil).append hquiet.block).append (quiet_of fun _ => List.not_mem_nil)

theorem quiet_arms (chained : Bool) (header : Nat) (negated : Bool) {first : Arm} {second : Option Arm}
    (h : first.braced.Quiet) (h' : ∀ e ∈ second, e.braced.Quiet ∧ e.chained = none) :
    Quiet (match (m.graph.block header).terminator?.map fun i : Insn => (i, i.op) with
      | some (i, .jumpIf cmp _) =>
        .of [.marked ⟨chained, i.offset, i.line, true, "if (" ++ m.comparison cmp negated i ++ ") \x7b"⟩]
          ++ .block first.braced ++ elseLayout hasDecls second
      | _ => first.braced ++ (second.elim (.of []) Arm.braced)) := by
  split
  next => exact ((quiet_marked _).append h.block).append (quiet_else h')
  next =>
    refine h.append ?_
    cases second with
    | none => exact quiet_of fun _ => List.not_mem_nil
    | some e => exact (h' e rfl).1

/-- Where the first arm is silent, so is the other one. -/
theorem orderArms_silent {negated : Bool} {thenArm : Arm} {elseArm : Option Arm} {q : Arm → Prop}
    (h : (orderArms negated thenArm elseArm).2.1.silent = true) (hthen : thenArm.silent = true → q thenArm)
    (helse : ∀ e ∈ elseArm, e.silent = true → q e) :
    q (orderArms negated thenArm elseArm).2.1 ∧ ∀ e ∈ (orderArms negated thenArm elseArm).2.2, q e := by
  cases elseArm with
  | none => exact ⟨hthen h, by simp [orderArms]⟩
  | some e =>
      unfold orderArms at h ⊢
      dsimp only at h ⊢
      split_ifs at h ⊢ with hthenOnly helseOnly
      · rw [h, Bool.not_true, Bool.and_false] at hthenOnly
        cases hthenOnly
      · rw [h, Bool.not_true, Bool.false_and] at helseOnly
        cases helseOnly
      · refine ⟨hthen h, fun e' he' => ?_⟩
        cases he'
        refine helse e rfl ?_
        rw [h, Bool.true_and, Bool.not_eq_true', Bool.not_eq_false] at hthenOnly
        exact hthenOnly

/-- Whether it goes on with a line makes no difference to variables and scopes. -/
theorem same_arms (hasDecls : Nat → Bool) (header : Nat) (negated : Bool) (first : Arm) (second : Option Arm) (next : Nat) :
    let arms (chained : Bool) : Layout := match (m.graph.block header).terminator?.map fun i : Insn => (i, i.op) with
      | some (i, .jumpIf cmp _) =>
        .of [.marked ⟨chained, i.offset, i.line, true, "if (" ++ m.comparison cmp negated i ++ ") \x7b"⟩]
          ++ .block first.braced ++ elseLayout hasDecls second
      | _ => first.braced ++ (second.elim (.of []) Arm.braced)
    (arms false).touchesAt next = (arms true).touchesAt next ∧ ((arms false).run next).2 = ((arms true).run next).2 := by
  dsimp only
  split <;> exact ⟨rfl, rfl⟩

/-- A comparison that nothing precedes: after an `else` it is what it is in braces, or nothing is assigned in it. -/
theorem same_bare {header : Nat} (hbare : m.isBareComparison header = true) (negated : Bool) {thenArm : Arm}
    {elseArm : Option Arm} (h : thenArm.silent = true → thenArm.braced.Quiet ∧ thenArm.chained = none)
    (h' : ∀ e ∈ elseArm, e.silent = true → e.braced.Quiet ∧ e.chained = none) :
    (m.branchLayout hasDecls true header negated thenArm elseArm).Quiet ∨ ∀ next,
      (m.branchLayout hasDecls false header negated thenArm elseArm).touchesAt next =
          (m.branchLayout hasDecls true header negated thenArm elseArm).touchesAt next ∧
        ((m.branchLayout hasDecls false header negated thenArm elseArm).run next).2 =
          ((m.branchLayout hasDecls true header negated thenArm elseArm).run next).2 := by
  by_cases hsilent : (orderArms negated thenArm elseArm).2.1.silent = true
  · left
    obtain ⟨hfirst, hsecond⟩ := orderArms_silent (q := fun e => e.braced.Quiet ∧ e.chained = none) hsilent h h'
    unfold branchLayout
    simp only [Bool.not_true, Bool.and_false, Bool.false_and, Bool.false_eq_true, if_false, if_true]
    exact (quiet_of fun _ => List.not_mem_nil).append (m.quiet_arms true header _ hfirst.1 hsecond)
  · right
    intro next
    unfold branchLayout
    simp only [hsilent, Bool.not_true, Bool.and_false, Bool.false_and, Bool.false_eq_true, if_false, if_true]
    obtain ⟨htouches, hnext⟩ := m.same_arms hasDecls header (orderArms negated thenArm elseArm).1
      (orderArms negated thenArm elseArm).2.1 (orderArms negated thenArm elseArm).2.2 next
    refine ⟨?_, hnext⟩
    rw [touchesAt_append, touchesAt_append]
    change touches (m.blockItems header) ++ _ = _
    rw [m.touches_bareBlock hbare]
    exact htouches

theorem parallel_loop (kind : LoopKind) (header : Nat) (cond : Option Nat) (negated : Bool) {body body' : Layout}
    (h : Parallel hasDecls body body') :
    Parallel hasDecls (m.loopLayout kind header cond negated body) (m.loopLayout kind header cond negated body') := by
  have hplain {items : List Item} (hitems : Plain (touches items)) :
      Parallel hasDecls (Layout.of items) (Layout.of items) := parallel_items hitems
  have hline (s : String) : Parallel hasDecls (Layout.of [.line s]) (Layout.of [.line s]) := hplain plain_nil
  have hclosed {l l' : Layout} (hl : Parallel hasDecls l l') := hl.block.append (hline "\x7d")
  unfold loopLayout
  refine (hplain (by rw [touches_label]; exact plain_nil)).append ?_
  dsimp only
  split
  next i cmp _ =>
    split_ifs
    · exact (hplain (plain_marked _)).append (hclosed h)
    · refine (hline _).append (hclosed ((hplain ?_).append h))
      rw [touches_append, touches_append]
      exact ((m.plain_block header).append (plain_marked _)).append plain_nil
  next => exact ((hline _).append h.block).append (hplain (plain_marked _))
  next => exact (hline _).append (hclosed h)

theorem parallel_case (head : CaseHead) {body body' : Layout} (h : Parallel hasDecls body body') :
    Parallel hasDecls (caseLayout head body) (caseLayout head body') := by
  refine (parallel_items ?_).append h.block
  rw [touches_append, touches_map (fun _ => touches_line _), List.nil_append]
  split_ifs
  · exact plain_nil
  · exact plain_nil

theorem parallel_switch (header : Nat) {cases cases' : List (CaseHead × Layout)}
    (h : List.Forall₂ (fun c c' => c.1 = c'.1 ∧ Parallel hasDecls c.2 c'.2) cases cases') :
    Parallel hasDecls (m.switchLayout header cases) (m.switchLayout header cases') := by
  refine (parallel_items (m.plain_block header)).append ?_
  split
  next i _ _ _ _ =>
    have hhead : Plain (touches [marked i.toHead true ("switch (" ++ m.selector i ++ ") \x7b"), .indent]) := by
      rw [touches_cons, touches_cons, touches_indent, List.nil_append]
      exact plain_marked ⟨false, i.offset, i.line, true, "switch (" ++ m.selector i ++ ") \x7b"⟩
    refine ((parallel_items hhead).append (.concat ?_)).append (.silent rfl rfl)
    rw [List.forall₂_map_left_iff, List.forall₂_map_right_iff]
    refine h.imp fun c c' hc => ?_
    obtain ⟨head, body⟩ := c
    obtain ⟨head', body'⟩ := c'
    obtain ⟨rfl, hbody⟩ := hc
    exact parallel_case _ hbody
  next =>
    refine .concat ?_
    rw [List.forall₂_map_left_iff, List.forall₂_map_right_iff]
    exact h.imp fun _ _ hc => hc.2

theorem parallel_guarded {body body' : Layout} (h : Parallel hasDecls body body')
    {catches catches' : List (CatchHead × Layout)}
    (h' : List.Forall₂ (fun c c' => c.1 = c'.1 ∧ Parallel hasDecls c.2 c'.2) catches catches') :
    Parallel hasDecls (m.guardedLayout body catches) (m.guardedLayout body' catches') := by
  have hline (s : String) : Parallel hasDecls (Layout.of [.line s]) (Layout.of [.line s]) := .silent rfl rfl
  refine (((hline _).append h.block).append (.concat ?_)).append (hline _)
  rw [List.forall₂_map_left_iff, List.forall₂_map_right_iff]
  refine h'.imp fun c c' hc => ?_
  obtain ⟨head, body⟩ := c
  obtain ⟨head', body'⟩ := c'
  obtain ⟨rfl, hbody⟩ := hc
  refine Parallel.append ⟨tidy_of (fun id hid => ?_) fun hleave => ?_, fun _ _ => ⟨rfl, rfl⟩⟩ hbody.block
  · cases List.mem_singleton.mp hid
  · cases List.mem_singleton.mp hleave

mutual

theorem parallel_layout (chained : Bool) (r : Region) :
    Parallel hasDecls (m.layout hasDecls chained r) (m.layout (fun _ => false) chained r) := by
  cases r with
  | seq items => exact parallel_layoutAll items
  | block b => exact parallel_items (m.plain_block b)
  | raw b => exact parallel_items (m.plain_raw b)
  | branch header negated thenPart elsePart =>
      have hthen : Arm.Matches hasDecls ⟨m.isSilent thenPart, .lazily fun _ => m.layout hasDecls false thenPart, none⟩
          ⟨m.isSilent thenPart, .lazily fun _ => m.layout (fun _ => false) false thenPart, none⟩ :=
        ⟨rfl, fun h => ⟨m.quiet_silent _ h false, rfl⟩, parallel_layout false thenPart, .inl ⟨rfl, rfl⟩⟩
      cases elsePart with
      | none => exact m.parallel_branch chained header negated hthen .none
      | some elsePart =>
          have hbraced := parallel_layout false elsePart
          -- A comparison goes on with the line of an `else` only if nothing comes before it.
          have hchained := parallel_layout true elsePart
          refine m.parallel_branch chained header negated hthen (.some ?_)
          refine Arm.Matches.mk rfl (fun h => ?_) hbraced ?_
          · refine ⟨m.quiet_silent _ h false, ?_⟩
            cases elsePart with
            | branch => cases h
            | _ => rfl
          · cases elsePart with
            | branch inner negated' thenPart' elsePart' =>
                dsimp only
                split_ifs with hbare
                · refine .inr ⟨_, _, rfl, rfl, hchained, ?_⟩
                  cases elsePart' with
                  | none =>
                      exact m.same_bare hbare negated' (fun h => ⟨m.quiet_silent _ h false, rfl⟩) (by simp)
                  | some elsePart' =>
                      refine m.same_bare hbare negated' (fun h => ⟨m.quiet_silent _ h false, rfl⟩) ?_
                      rintro e ⟨⟩ h
                      refine ⟨m.quiet_silent _ h false, ?_⟩
                      cases elsePart' with
                      | branch => cases h
                      | _ => rfl
                · exact .inl ⟨rfl, rfl⟩
            | _ => exact .inl ⟨rfl, rfl⟩
  | loop kind header cond negated body => exact m.parallel_loop kind header cond negated (parallel_layout false body)
  | switch header cases => exact m.parallel_switch header (parallel_layoutCases cases)
  | guarded body catches => exact m.parallel_guarded (parallel_layout false body) (parallel_layoutCatches catches)
  | brk target => exact .silent rfl rfl
  | cont target => exact .silent rfl rfl
  | goto target => exact .silent rfl rfl

theorem parallel_layoutAll (items : List Region) :
    Parallel hasDecls (m.layoutAll hasDecls items) (m.layoutAll (fun _ => false) items) := by
  cases items with
  | nil => exact .silent rfl rfl
  | cons r rest => exact (parallel_layout false r).append (parallel_layoutAll rest)

theorem parallel_layoutCases (cases : List (CaseHead × Region)) :
    List.Forall₂ (fun c c' => c.1 = c'.1 ∧ Parallel hasDecls c.2 c'.2) (m.layoutCases hasDecls cases)
      (m.layoutCases (fun _ => false) cases) := by
  cases cases with
  | nil => exact .nil
  | cons c rest =>
      obtain ⟨head, r⟩ := c
      exact .cons ⟨rfl, parallel_layout false r⟩ (parallel_layoutCases rest)

theorem parallel_layoutCatches (catches : List (CatchHead × Region)) :
    List.Forall₂ (fun c c' => c.1 = c'.1 ∧ Parallel hasDecls c.2 c'.2) (m.layoutCatches hasDecls catches)
      (m.layoutCatches (fun _ => false) catches) := by
  cases catches with
  | nil => exact .nil
  | cons c rest =>
      obtain ⟨head, r⟩ := c
      exact .cons ⟨rfl, parallel_layout false r⟩ (parallel_layoutCatches rest)

end

theorem touches_items (next : Nat → Bool) :
    touches (m.items next) = (Layout.inScope (m.layout next false m.tree.root)).touchesAt 0 := rfl

/-- The scopes of a method are all different. -/
theorem entered_nodup : (entered (touches (m.items fun _ => false))).Nodup :=
  (m.parallel_layout false m.tree.root : Parallel (fun _ => false) _ _).tidy.inScope.once 0

/-- The layout that is written does to variables and scopes what the surveyed one does, if something is assigned in
each scope that begins with declarations. -/
theorem touches_same (h : ∀ id, 0 < id → hasDecls id = true → AssignedIn id [] (touches (m.items fun _ => false))) :
    touches (m.items hasDecls) = touches (m.items fun _ => false) := by
  have halike : Parallel hasDecls _ _ := m.parallel_layout false m.tree.root
  obtain ⟨htouches, -⟩ := halike.agree 1 fun id hle _ hid => by
    have hassigned := h id hle hid
    rw [touches_items, touchesAt_inScope] at hassigned
    change AssignedIn id ([] ++ [0]) ((m.layout (fun _ => false) false m.tree.root).touchesAt 1 ++ [.leave]) at hassigned
    rw [assignedIn_append] at hassigned
    refine (hassigned.resolve_right fun hleave => ?_).inner (by rw [List.mem_singleton]; omega)
    exact hleave
  rw [touches_items, touches_items, touchesAt_inScope, touchesAt_inScope, htouches]

end Lifted

end JavaLift.Source
