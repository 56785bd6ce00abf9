import JavaLift.Proofs.Source.Covering
import JavaLift.Proofs.Source.Signs

namespace JavaLift.Source

/-- What is open: a block in braces, the block of a handler before its scope opens and from then on, or a scope. -/
inductive Bracket where
  | block
  | clause (c : Catcher)
  | handler (c : Catcher)
  | scope (id : Nat)

def Settled : List Bracket → Prop
  | .clause _ :: _ | .handler _ :: _ => False
  | _ => True

def closesBlock (s : String) : Bool := s.toList.head? == some '\x7d'

def opensBlock (s : String) : Bool := s.toList.getLast? == some '\x7b'

inductive Moves : Item → List Bracket → List Bracket → Prop where
  | indent (S : List Bracket) : Moves .indent S S
  | dedent (S : List Bracket) : Moves .dedent S S
  | label (b : Nat) (name : String) (S : List Bracket) : Moves (.label b name) S S
  | line {s : String} (S : List Bracket) (hc : closesBlock s = false) (ho : opensBlock s = false) : Moves (.line s) S S
  | lineOpens {s : String} {S : List Bracket} (hc : closesBlock s = false) (ho : opensBlock s = true)
      (hS : Settled S) : Moves (.line s) S (.block :: S)
  | lineCloses {s : String} (S : List Bracket) (hc : closesBlock s = true) (ho : opensBlock s = false) :
      Moves (.line s) (.block :: S) S
  | lineEnds {s : String} (c : Catcher) (S : List Bracket) (hc : closesBlock s = true) (ho : opensBlock s = false) :
      Moves (.line s) (.handler c :: S) S
  | lineTurns {s : String} (S : List Bracket) (hc : closesBlock s = true) (ho : opensBlock s = true) :
      Moves (.line s) (.block :: S) (.block :: S)
  | statement {c : Marked} {S : List Bracket} (hp : c.phrase.Covered) (hf : c.phrase.isFoot = false)
      (hh : c.phrase.isHead = false) (hS : Settled S) : Moves (.marked c) S S
  | head {c : Marked} {S : List Bracket} (hp : c.phrase.Covered) (hf : c.phrase.isFoot = false)
      (hh : c.phrase.isHead = true) (hS : Settled S) : Moves (.marked c) S (.block :: S)
  | foot {c : Marked} (S : List Bracket) (hp : c.phrase.Covered) (hf : c.phrase.isFoot = true) :
      Moves (.marked c) (.block :: S) S
  | assign (head : Head) (result : Register) {value : Phrase} (id : Nat) (S : List Bracket) (hp : value.Covered) :
      Moves (.assign head result value) (.scope id :: S) (.scope id :: S)
  | handler (offset : Nat) (type : Ty) (c : Catcher) (S : List Bracket) :
      Moves (.handler offset type c) (.block :: S) (.clause c :: S)
  | nextHandler (offset : Nat) (type : Ty) (before c : Catcher) (S : List Bracket) :
      Moves (.handler offset type c) (.handler before :: S) (.clause c :: S)
  | enter (id : Nat) {S : List Bracket} (hS : Settled S) : Moves (.openScope id) S (.scope id :: S)
  | enterClause (id : Nat) (c : Catcher) (S : List Bracket) :
      Moves (.openScope id) (.clause c :: S) (.scope id :: .handler c :: S)
  | leave (id : Nat) {S : List Bracket} (hS : S ≠ []) : Moves .closeScope (.scope id :: S) S

inductive Nests : List Item → List Bracket → List Bracket → Prop where
  | nil (S : List Bracket) : Nests [] S S
  | cons {x : Item} {xs : List Item} {S S' S'' : List Bracket} (h : Moves x S S') (h' : Nests xs S' S'') :
      Nests (x :: xs) S S''

namespace Nests

variable {xs ys : List Item} {S S' S'' : List Bracket}

theorem append (h : Nests xs S S') (h' : Nests ys S' S'') : Nests (xs ++ ys) S S'' := by
  induction h with
  | nil => exact h'
  | cons hx _ ih => exact .cons hx (ih h')

theorem single {x : Item} (h : Moves x S S') : Nests [x] S S' := .cons h (.nil _)

theorem all (h : ∀ x ∈ xs, Moves x S S) : Nests xs S S := by
  induction xs with
  | nil => exact .nil S
  | cons x xs ih => exact .cons (h x List.mem_cons_self) (ih fun y hy => h y (List.mem_cons_of_mem _ hy))

end Nests

theorem opensBlock_append {s t : String} (h : t ≠ "") : opensBlock (s ++ t) = opensBlock t := by
  have hne : t.toList ≠ [] := fun hnil => h (String.toList_eq_nil_iff.mp hnil)
  rw [opensBlock, String.toList_append, List.getLast?_append_of_ne_nil _ hne, opensBlock]

namespace Phrase

variable {p : Phrase} {s : String}

theorem lastText?_before (p : Phrase) (s : String) : (p ++ s : Phrase).lastText? = some s := by
  have hlast : (p ++ s : Phrase).pieces.getLast? = some (.text s) :=
    List.getLast?_append_of_ne_nil _ (List.cons_ne_nil _ _)
  rw [lastText?, hlast]

theorem isFoot_of_last (h : p.lastText? = some s) (hs : s ≠ ");") : p.isFoot = false := by
  rw [isFoot, h]
  simp [hs]

theorem isHead_of_last (h : p.lastText? = some s) (hs : s ≠ ") \x7b") : p.isHead = false := by
  rw [isHead, h]
  simp [hs]

theorem isFoot_foot (p : Phrase) : ("\x7d while (" ++ p ++ ");" : Phrase).isFoot = true := by
  rw [isFoot, lastText?_before]
  rfl

end Phrase

section
variable {c : Marked} {S : List Bracket} {s : String}

theorem Moves.ofStatement (hp : c.phrase.Covered) (hlast : c.phrase.lastText? = some s) (hf : s ≠ ");")
    (hh : s ≠ ") \x7b") (hS : Settled S) : Moves (.marked c) S S :=
  .statement hp (Phrase.isFoot_of_last hlast hf) (Phrase.isHead_of_last hlast hh) hS

theorem Moves.ofHead {p : Phrase} (hphrase : c.phrase = p ++ ") \x7b") (hp : p.Covered) (hS : Settled S) :
    Moves (.marked c) S (.block :: S) := by
  have hlast : c.phrase.lastText? = some ") \x7b" := hphrase ▸ Phrase.lastText?_before p _
  refine .head (hphrase ▸ hp.before _) (Phrase.isFoot_of_last hlast (by decide)) ?_ hS
  rw [Phrase.isHead, hlast]
  rfl

theorem Moves.lineEnd {S : List Bracket} : Moves (.line "\x7d") (.block :: S) S := .lineCloses S rfl rfl

end

namespace Layout

variable {a b l : Layout} {S S' S'' : List Bracket}

def Takes (l : Layout) (S S' : List Bracket) : Prop := ∀ next, Nests (l.run next).1 S S'

def Level (l : Layout) : Prop := ∀ id S, l.Takes (.scope id :: S) (.scope id :: S)

theorem Takes.append (h : a.Takes S S') (h' : b.Takes S' S'') : (a ++ b).Takes S S'' :=
  fun next => (h next).append (h' (a.run next).2)

theorem takes_of {items : List Item} (h : Nests items S S') : (of items).Takes S S' := fun _ => h

theorem takes_nil (S : List Bracket) : (of []).Takes S S := takes_of (.nil S)

theorem Level.append (h : a.Level) (h' : b.Level) : (a ++ b).Level := fun id S => (h id S).append (h' id S)

theorem level_nil : (of []).Level := fun _ _ => takes_nil _

theorem Level.inScope (h : l.Level) (hS : Settled S) (hne : S ≠ []) : (inScope l).Takes S S :=
  fun next => .cons (.enter next hS) ((h next S (next + 1)).append (.single (.leave next hne)))

theorem Level.block (h : l.Level) : (block l).Takes (.block :: S) (.block :: S) :=
  ((takes_of (.single (.indent _))).append (h.inScope (S := .block :: S) trivial (by simp))).append
    (takes_of (.single (.dedent _)))

theorem Level.clause (h : l.Level) (c : Catcher) : (Layout.block l).Takes (.clause c :: S) (.handler c :: S) := by
  have hscope : (Layout.inScope l).Takes (.clause c :: S) (.handler c :: S) := fun next =>
    .cons (.enterClause next c S) ((h next (.handler c :: S) (next + 1)).append (.single (.leave next (by simp))))
  exact ((takes_of (.single (.indent _))).append hscope).append (takes_of (.single (.dedent _)))

theorem Level.closed (h : l.Level) (id : Nat) :
    (Layout.block l ++ of [.line "\x7d"]).Takes (.block :: .scope id :: S) (.scope id :: S) :=
  h.block.append (takes_of (.single .lineEnd))

theorem Level.concat {ls : List Layout} (h : ∀ l ∈ ls, l.Level) : (Layout.concat ls).Level := by
  induction ls with
  | nil => exact level_nil
  | cons l ls ih => exact (h l List.mem_cons_self).append (ih fun k hk => h k (List.mem_cons_of_mem _ hk))

theorem takes_concat {ls : List Layout} (h : ∀ l ∈ ls, l.Takes S S) : (Layout.concat ls).Takes S S := by
  induction ls with
  | nil => exact takes_nil S
  | cons l ls ih => exact (h l List.mem_cons_self).append (ih fun k hk => h k (List.mem_cons_of_mem _ hk))

end Layout

namespace Lifted

open Layout

variable (m : Lifted) (hasDecls : Nat → Bool)

theorem moves_statement (i : Insn) (id : Nat) (S : List Bracket) {x : Item} (hx : x ∈ m.statementItems i) :
    Moves x (.scope id :: S) (.scope id :: S) := by
  have hstatement {p : Phrase} (hp : p.Covered) :
      Moves (marked i.toHead true (p ++ ";")) (.scope id :: S) (.scope id :: S) :=
    .ofStatement (hp.before _) (Phrase.lastText?_before p ";") (by decide) (by decide) trivial
  unfold statementItems at hx
  split at hx
  · cases hx
  split at hx
  next p hp =>
    cases List.mem_singleton.mp hx
    exact hstatement (m.covered_statement hp)
  next =>
    split at hx
    · cases hx
    dsimp only at hx
    split at hx
    next r _ =>
      cases List.mem_singleton.mp hx
      exact .assign _ _ id S (covered_insnExpr m.place i)
    next =>
      cases List.mem_singleton.mp hx
      exact hstatement (covered_insnExpr m.place i)

theorem moves_label (b : Nat) (S : List Bracket) {x : Item} (hx : x ∈ m.labelItems b) : Moves x S S := by
  unfold labelItems at hx
  split at hx
  · cases List.mem_singleton.mp hx
    exact .label _ _ S
  · cases hx

theorem moves_block (b id : Nat) (S : List Bracket) {x : Item} (hx : x ∈ m.blockItems b) :
    Moves x (.scope id :: S) (.scope id :: S) := by
  rcases List.mem_append.mp hx with hx | hx
  · exact m.moves_label b _ hx
  · obtain ⟨⟨i, pos⟩, -, hx⟩ := List.mem_flatMap.mp hx
    dsimp only at hx
    split at hx
    · cases hx
    · exact m.moves_statement i id S hx

theorem level_block (b : Nat) : (Layout.of (m.blockItems b)).Level :=
  fun id S => takes_of (.all fun _ hx => m.moves_block b id S hx)

theorem moves_jump {s t : String} (hs : closesBlock s = false) (hne : s ≠ "") (S : List Bracket) :
    Moves (.line (s ++ ("goto " ++ t ++ ";"))) S S := by
  refine .line S ?_ ?_
  · have hcons : s.toList ≠ [] := fun hnil => hne (String.toList_eq_nil_iff.mp hnil)
    rw [closesBlock, String.toList_append, List.head?_append_of_ne_nil _ hcons]
    exact hs
  · rw [opensBlock_append (by simp), opensBlock_append (by decide)]
    rfl

theorem nests_rawInsn (i : Insn) (id : Nat) (S : List Bracket) :
    Nests (m.rawInsnItems i) (.scope id :: S) (.scope id :: S) := by
  unfold rawInsnItems
  dsimp only
  split
  next target _ =>
    refine .single (.ofStatement (.text _) rfl ?_ ?_ trivial) <;>
    · intro h
      have hlist := congrArg String.toList h
      simp at hlist
  next cmp target _ =>
    have hp := ((m.covered_comparison cmp false i).after "if (").before (") " ++ ("goto " ++ labelName target ++ ";"))
    refine .single (.ofStatement hp (Phrase.lastText?_before _ _) ?_ ?_ trivial) <;>
    · intro h
      have hlist := congrArg String.toList h
      simp at hlist
  next keys targets default _ =>
    have hhead : Nests [marked i.toHead true ("switch (" ++ m.selector i ++ ") \x7b"), .indent] (.scope id :: S)
        (.block :: .scope id :: S) :=
      .cons (.ofHead rfl ((m.covered_selector i).after _) trivial) (.single (.indent _))
    have hcases : Nests ((keys.zip targets).map fun c =>
        Item.line ("case " ++ toString c.1 ++ ": " ++ ("goto " ++ labelName c.2 ++ ";")))
        (.block :: .scope id :: S) (.block :: .scope id :: S) := by
      refine .all fun x hx => ?_
      obtain ⟨⟨key, target⟩, -, rfl⟩ := List.mem_map.mp hx
      exact moves_jump (by simp [closesBlock]) (by simp) _
    have hdefault : Nests (default.toList.map fun target =>
        Item.line ("default: " ++ ("goto " ++ labelName target ++ ";")))
        (.block :: .scope id :: S) (.block :: .scope id :: S) := by
      refine .all fun x hx => ?_
      obtain ⟨target, -, rfl⟩ := List.mem_map.mp hx
      exact moves_jump rfl (by decide) _
    exact ((hhead.append hcases).append hdefault).append (.cons (.dedent _) (.single .lineEnd))
  next => exact .all fun _ hx => m.moves_statement i id S hx

theorem level_raw (b : Nat) : (Layout.of (m.rawItems b)).Level := by
  intro id S
  refine takes_of ((Nests.all fun _ hx => m.moves_label b _ hx).append ?_)
  generalize (m.graph.block b).insns = insns
  induction insns with
  | nil => exact .nil _
  | cons i insns ih => exact (m.nests_rawInsn i id S).append ih

structure Arm.Fits (e : Arm) : Prop where
  braced : e.braced.Level
  chained : ∀ l ∈ e.chained, l.Level

theorem orderArms_fits (negated : Bool) {thenArm : Arm} {elseArm : Option Arm} (h : thenArm.Fits)
    (h' : ∀ e ∈ elseArm, e.Fits) : (orderArms negated thenArm elseArm).2.1.Fits ∧
      ∀ e ∈ (orderArms negated thenArm elseArm).2.2, e.Fits := by
  cases elseArm with
  | none => exact ⟨h, by simp [orderArms]⟩
  | some e =>
      have he := h' e rfl
      unfold orderArms
      dsimp only
      split_ifs
      · exact ⟨he, by simp⟩
      · exact ⟨h, by simp⟩
      · exact ⟨h, fun e' he' => Option.some.inj he' ▸ he⟩

theorem takes_else {elseArm : Option Arm} (h : ∀ e ∈ elseArm, e.Fits) (id : Nat) (S : List Bracket) :
    (elseLayout hasDecls elseArm).Takes (.block :: .scope id :: S) (.scope id :: S) := by
  cases elseArm with
  | none => exact takes_of (.single .lineEnd)
  | some e =>
      obtain ⟨hbraced, hchained⟩ := h e rfl
      have hopen : (Layout.of [.line "\x7d else \x7b"]).Takes (.block :: .scope id :: S) (.block :: .scope id :: S) :=
        takes_of (.single (.lineTurns _ (by decide) (by decide)))
      have hbraces := (hopen.append hbraced.block).append (takes_of (.single (.lineEnd (S := .scope id :: S))))
      unfold elseLayout
      dsimp only
      split
      next l hl =>
        have hclose : (Layout.of [.line "\x7d else "]).Takes (.block :: .scope id :: S) (.scope id :: S) :=
          takes_of (.single (.lineCloses _ (by decide) (by decide)))
        intro next
        unfold byScope
        dsimp only
        split_ifs
        · exact hbraces next
        · exact hclose.append ((hchained l hl).inScope trivial (by simp)) next
      next => exact hbraces

theorem level_arms (chained : Bool) (header : Nat) (negated : Bool) {first : Arm} {second : Option Arm}
    (h : first.Fits) (h' : ∀ e ∈ second, e.Fits) :
    Level (match (m.graph.block header).terminator?.map fun i : Insn => (i, i.op) with
      | some (i, .jumpIf cmp _) =>
        .of [.marked ⟨chained, i.offset, i.line, true, "if (" ++ m.comparison cmp negated i ++ ") \x7b"⟩]
          ++ .block first.braced ++ elseLayout hasDecls second
      | _ => first.braced ++ (second.elim (.of []) Arm.braced)) := by
  intro id S
  split
  next i cmp _ _ =>
    have hhead : (Layout.of [.marked ⟨chained, i.offset, i.line, true,
        "if (" ++ m.comparison cmp negated i ++ ") \x7b"⟩]).Takes (.scope id :: S) (.block :: .scope id :: S) :=
      takes_of (.single (.ofHead rfl ((m.covered_comparison cmp negated i).after _) trivial))
    exact (hhead.append h.braced.block).append (takes_else hasDecls h' id S)
  next =>
    refine (h.braced id S).append ?_
    cases second with
    | none => exact takes_nil _
    | some e => exact (h' e rfl).braced id S

theorem level_branch (chained : Bool) (header : Nat) (negated : Bool) {thenArm : Arm} {elseArm : Option Arm}
    (h : thenArm.Fits) (h' : ∀ e ∈ elseArm, e.Fits) :
    (m.branchLayout hasDecls chained header negated thenArm elseArm).Level := by
  obtain ⟨hfirst, hsecond⟩ := orderArms_fits negated h h'
  unfold branchLayout
  dsimp only
  split_ifs
  · exact m.level_block header
  · exact level_nil.append (m.level_arms hasDecls _ header _ hfirst hsecond)
  · exact (m.level_block header).append (m.level_arms hasDecls _ header _ hfirst hsecond)

theorem closes_loopMark {s : String} (header : Nat) (hs : closesBlock s = false) :
    closesBlock (m.loopMark header ++ s) = false := by
  unfold loopMark labelOf labelName
  split_ifs
  · simp [closesBlock]
  · simpa using hs

theorem takes_loopHead {s : String} (header id : Nat) (S : List Bracket) (hs : closesBlock s = false)
    (ho : opensBlock s = true) :
    (Layout.of [.line (m.loopMark header ++ s)]).Takes (.scope id :: S) (.block :: .scope id :: S) := by
  have hne : s ≠ "" := by
    rintro rfl
    cases ho
  exact takes_of (.single (.lineOpens (m.closes_loopMark header hs) ((opensBlock_append hne).trans ho) trivial))

theorem level_loop (kind : LoopKind) (header : Nat) (cond : Option Nat) (negated : Bool) {body : Layout}
    (h : body.Level) : (m.loopLayout kind header cond negated body).Level := by
  intro id S
  have hlabel : (Layout.of (m.labelItems header)).Takes (.scope id :: S) (.scope id :: S) :=
    takes_of (.all fun _ hx => m.moves_label header _ hx)
  have hendless := (m.takes_loopHead header id S (s := "while (true) \x7b") (by decide) (by decide)).append
    (h.closed id)
  refine hlabel.append ?_
  dsimp only
  split
  next i cmp _ =>
    split_ifs
    · have hhead : (Layout.of (loopLine i true ((m.loopMark header ++ "while (") ++ m.comparison cmp negated i
          ++ ") \x7b"))).Takes (.scope id :: S) (.block :: .scope id :: S) :=
        takes_of (.single (.ofHead rfl ((m.covered_comparison cmp negated i).after _) trivial))
      exact hhead.append (h.closed id)
    · have htest : (Layout.of (m.blockItems header
          ++ loopLine i false ("if (" ++ m.comparison cmp (!negated) i ++ ") \x7b")
          ++ [.indent, .line "break;", .dedent, .line "\x7d"])).Level := by
        intro id S
        have hif := Nests.single (Moves.ofHead (c := ⟨false, i.offset, none, false,
          "if (" ++ m.comparison cmp (!negated) i ++ ") \x7b"⟩) (S := .scope id :: S) rfl
          ((m.covered_comparison cmp (!negated) i).after _) trivial)
        exact takes_of (((Nests.all fun _ hx => m.moves_block header id S hx).append hif).append
          (.cons (.indent _) (.cons (.line _ rfl rfl) (.cons (.dedent _) (.single .lineEnd)))))
      exact (m.takes_loopHead header id S (s := "while (true) \x7b") (by decide) (by decide)).append
        ((htest.append h).closed id)
  next i cmp _ =>
    have hfoot : (Layout.of (loopLine i true ("\x7d while (" ++ m.comparison cmp negated i ++ ");"))).Takes
        (.block :: .scope id :: S) (.scope id :: S) :=
      takes_of (.single (.foot _ (((m.covered_comparison cmp negated i).after _).before _) (Phrase.isFoot_foot _)))
    exact ((m.takes_loopHead header id S (s := "do \x7b") (by decide) (by decide)).append h.block).append hfoot
  next => exact hendless

theorem takes_case (head : CaseHead) {body : Layout} (h : body.Level) (S : List Bracket) :
    (caseLayout head body).Takes (.block :: S) (.block :: S) := by
  refine Takes.append (takes_of (.all fun x hx => ?_)) h.block
  rcases List.mem_append.mp hx with hx | hx
  · obtain ⟨key, -, rfl⟩ := List.mem_map.mp hx
    refine .line _ (by simp [closesBlock]) ?_
    rw [opensBlock_append (by decide)]
    rfl
  · split_ifs at hx
    · cases List.mem_singleton.mp hx
      exact .line _ rfl rfl
    · cases hx

theorem level_switch (header : Nat) {cases : List (CaseHead × Layout)} (h : ∀ c ∈ cases, c.2.Level) :
    (m.switchLayout header cases).Level := by
  refine (m.level_block header).append fun id S => ?_
  split
  next i _ _ _ _ =>
    have hhead : (Layout.of [marked i.toHead true ("switch (" ++ m.selector i ++ ") \x7b"), .indent]).Takes
        (.scope id :: S) (.block :: .scope id :: S) :=
      takes_of (.cons (.ofHead rfl ((m.covered_selector i).after _) trivial) (.single (.indent _)))
    have hcases : (Layout.concat (cases.map fun c => caseLayout c.1 c.2)).Takes
        (.block :: .scope id :: S) (.block :: .scope id :: S) := by
      refine takes_concat fun l hl => ?_
      obtain ⟨c, hc, rfl⟩ := List.mem_map.mp hl
      exact takes_case c.1 (h c hc) _
    exact (hhead.append hcases).append (takes_of (.cons (.dedent _) (.single .lineEnd)))
  next =>
    refine Level.concat (fun l hl => ?_) id S
    obtain ⟨c, hc, rfl⟩ := List.mem_map.mp hl
    exact h c hc

theorem takes_clause (head : CatchHead) {body : Layout} (h : body.Level) (before : Option Catcher)
    (S : List Bracket) : ∃ c : Catcher,
      (Layout.of [m.handlerItem head] ++ .block body).Takes (before.elim .block .handler :: S) (.handler c :: S) := by
  obtain ⟨offset, type, c, hitem⟩ : ∃ offset type c, m.handlerItem head = .handler offset type c := ⟨_, _, _, rfl⟩
  rw [hitem]
  refine ⟨c, Takes.append (takes_of (.single ?_)) (h.clause c)⟩
  cases before with
  | none => exact .handler offset type c S
  | some before => exact .nextHandler offset type before c S

theorem level_guarded {body : Layout} (h : body.Level) {catches : List (CatchHead × Layout)}
    (h' : ∀ c ∈ catches, c.2.Level) : (m.guardedLayout body catches).Level := by
  intro id S
  have hopen : (Layout.of [.line "try \x7b"]).Takes (.scope id :: S) (.block :: .scope id :: S) :=
    takes_of (.single (.lineOpens (by decide) (by decide) trivial))
  -- The last block is that of the body or of the last handler.
  have hcatches (before : Option Catcher) : ∃ last : Option Catcher,
      (Layout.concat (catches.map fun c => .of [m.handlerItem c.1] ++ .block c.2)).Takes
        (before.elim .block .handler :: .scope id :: S) (last.elim .block .handler :: .scope id :: S) := by
    induction catches generalizing before with
    | nil => exact ⟨before, takes_nil _⟩
    | cons c rest ih =>
        rw [List.forall_mem_cons] at h'
        obtain ⟨catcher, hclause⟩ := m.takes_clause c.1 h'.1 before (.scope id :: S)
        obtain ⟨last, hrest⟩ := ih h'.2 (some catcher)
        exact ⟨last, hclause.append hrest⟩
  obtain ⟨last, hclauses⟩ := hcatches none
  refine ((hopen.append h.block).append hclauses).append (takes_of (.single ?_))
  cases last with
  | none => exact .lineEnd
  | some c => exact .lineEnds c _ rfl rfl

theorem level_jump (verb : String) (target : Option Nat) (h : closesBlock verb = false) (hne : verb ≠ "") :
    (Layout.of [jumpItem m verb target]).Level := by
  intro id S
  have hcons : verb.toList ≠ [] := fun hnil => hne (String.toList_eq_nil_iff.mp hnil)
  refine takes_of (.single (.line _ ?_ ?_))
  · rw [closesBlock, String.toList_append, String.toList_append, List.append_assoc,
      List.head?_append_of_ne_nil _ hcons]
    exact h
  · rw [opensBlock_append (by decide)]
    rfl

mutual

theorem level_layout (chained : Bool) (r : Region) : (m.layout hasDecls chained r).Level := by
  cases r with
  | seq items => exact level_layoutAll items
  | block b => exact m.level_block b
  | raw b => exact m.level_raw b
  | branch header negated thenPart elsePart =>
      cases elsePart with
      | none => exact m.level_branch hasDecls chained header negated ⟨level_layout false thenPart, by simp⟩ (by simp)
      | some elsePart =>
          refine m.level_branch hasDecls chained header negated ⟨level_layout false thenPart, by simp⟩ ?_
          have hchained := level_layout true elsePart
          rintro e ⟨⟩
          refine ⟨level_layout false elsePart, fun l hl => ?_⟩
          dsimp only at hl
          split at hl
          next =>
            split_ifs at hl
            · cases hl
              exact hchained
            · cases hl
          next => cases hl
  | loop kind header cond negated body => exact m.level_loop kind header cond negated (level_layout false body)
  | switch header cases => exact m.level_switch header (level_layoutCases cases)
  | guarded body catches => exact m.level_guarded (level_layout false body) (level_layoutCatches catches)
  | brk target => exact m.level_jump "break" target rfl (by decide)
  | cont target => exact m.level_jump "continue" target rfl (by decide)
  | goto target => exact m.level_jump "goto" (some target) rfl (by decide)

theorem level_layoutAll (items : List Region) : (m.layoutAll hasDecls items).Level := by
  cases items with
  | nil => exact level_nil
  | cons r rest => exact (level_layout false r).append (level_layoutAll rest)

theorem level_layoutCases (cases : List (CaseHead × Region)) : ∀ c ∈ m.layoutCases hasDecls cases, c.2.Level := by
  cases cases with
  | nil => simp [layoutCases]
  | cons c rest =>
      obtain ⟨head, r⟩ := c
      rintro c' (_ | ⟨_, hc'⟩)
      · exact level_layout false r
      · exact level_layoutCases rest c' hc'

theorem level_layoutCatches (catches : List (CatchHead × Region)) :
    ∀ c ∈ m.layoutCatches hasDecls catches, c.2.Level := by
  cases catches with
  | nil => simp [layoutCatches]
  | cons c rest =>
      obtain ⟨head, r⟩ := c
      rintro c' (_ | ⟨_, hc'⟩)
      · exact level_layout false r
      · exact level_layoutCatches rest c' hc'

end

def bodyItems : List Item := ((m.layout hasDecls false m.tree.root).run 1).1

theorem items_eq : m.items hasDecls = .openScope 0 :: (m.bodyItems hasDecls ++ [.closeScope]) := rfl

theorem nests_body : Nests (m.bodyItems hasDecls) [.scope 0] [.scope 0] :=
  m.level_layout hasDecls false m.tree.root 0 [] 1

end Lifted

end JavaLift.Source
