import JavaLift.Proofs.Source.LabelLines
import JavaLift.Proofs.Region.Labelling

namespace JavaLift.Source

open Region

/-- The targets of the jumps that are written for an operation. A case of a switch is written with its key. -/
def writtenTargets : Op → List Nat
  | .switchOn keys targets default => (keys.zip targets).map (·.2) ++ default.toList
  | op => op.targets

theorem mem_targets_of_written {op : Op} {t : Nat} (h : t ∈ writtenTargets op) : t ∈ op.targets := by
  unfold writtenTargets at h
  split at h
  · rcases List.mem_append.mp h with h | h
    · obtain ⟨c, hc, rfl⟩ := List.mem_map.mp h
      exact List.mem_append_left _ (List.of_mem_zip hc).2
    · exact List.mem_append_right _ h
  · exact h

namespace Lifted

variable (m : Lifted)

def targetsIn (b : Nat) : List Nat := (m.graph.block b).insns.flatMap fun i => writtenTargets i.op

def usesOf : Landmark → List LabelUse
  | .loop header => if m.tree.loopLabels.contains header then [.begins (m.labelOf header)] else []
  | .leaves header => [.jumps (m.labelOf header)]
  | .goes target => [.jumps (m.labelOf target)]
  | .raw b => (m.targetsIn b).map fun t => .jumps (labelName t)

structure Shows (ms : List Landmark) (bs : List Nat) (items : List Item) : Prop where
  uses : (items.filterMap Item.labelUse?).Perm (ms.flatMap m.usesOf)
  labels : ∀ b name, .label b name ∈ items ↔ b ∈ m.tree.labels ∧ b ∈ bs ∧ name = m.labelOf b

def Unlabelled (x : Item) : Prop := x.labelUse? = none ∧ ∀ b name, x ≠ .label b name

namespace Shows

variable {m} {ms ms' : List Landmark} {bs bs' : List Nat} {xs ys : List Item} {b : Nat}

theorem append (h : m.Shows ms bs xs) (h' : m.Shows ms' bs' ys) : m.Shows (ms ++ ms') (bs ++ bs') (xs ++ ys) where
  uses := by
    rw [List.filterMap_append, List.flatMap_append]
    exact h.uses.append h'.uses
  labels b name := by
    rw [List.mem_append, h.labels, h'.labels, List.mem_append]
    tauto

theorem perm (h : m.Shows ms bs xs) (hms : ms.Perm ms') (hbs : ∀ b, b ∈ bs ↔ b ∈ bs') : m.Shows ms' bs' xs where
  uses := h.uses.trans (hms.flatMap_right _)
  labels b name := by rw [h.labels, hbs]

theorem without (h : ∀ x ∈ xs, Unlabelled x) : m.Shows [] [] xs where
  uses := by
    rw [List.filterMap_eq_nil_iff.mpr fun x hx => (h x hx).1]
    exact .refl _
  labels b name := by
    refine ⟨fun hx => absurd rfl ((h _ hx).2 b name), fun hb => absurd hb.2.1 List.not_mem_nil⟩

theorem nil : m.Shows [] [] [] := without (List.forall_mem_nil _)

theorem single {x : Item} {k : Landmark} (h : x.labelUse?.toList = m.usesOf k) (hx : ∀ b name, x ≠ .label b name) :
    m.Shows [k] [] [x] where
  uses := by
    have hfilter : [x].filterMap Item.labelUse? = x.labelUse?.toList := by
      cases hu : x.labelUse? <;> simp [hu]
    rw [hfilter, h, List.flatMap_singleton]
  labels b name := by
    refine ⟨fun hmem => absurd (List.mem_singleton.mp hmem).symm (hx b name), fun hb => absurd hb.2.1 List.not_mem_nil⟩

theorem label (m : Lifted) (b : Nat) : m.Shows [] [b] (m.labelItems b) := by
  unfold labelItems
  split_ifs with hb
  · refine ⟨.refl _, fun c name => ?_⟩
    rw [List.mem_singleton, List.mem_singleton, Item.label.injEq]
    constructor
    · rintro ⟨rfl, rfl⟩
      exact ⟨hb, rfl, rfl⟩
    · rintro ⟨-, rfl, rfl⟩
      exact ⟨rfl, rfl⟩
  · refine ⟨.refl _, fun c name => ⟨nofun, ?_⟩⟩
    rintro ⟨hc, hmem, -⟩
    cases List.mem_singleton.mp hmem
    exact absurd hc hb

theorem unlabelled (h : m.tree.labels.contains b = false) : m.Shows [] [b] [] := by
  have hlabel := label m b
  rwa [labelItems, h] at hlabel

end Shows

theorem unlabelled_indent : Unlabelled .indent := ⟨rfl, nofun⟩

theorem unlabelled_dedent : Unlabelled .dedent := ⟨rfl, nofun⟩

theorem unlabelled_line {s : String} (h : LabelUse.ofLine? s s = none) : Unlabelled (.line s) := ⟨h, nofun⟩

theorem unlabelled_marked {c : Marked} {front back : String} (hfront : c.phrase.firstText = front)
    (hback : c.phrase.lastText? = some back) (h : LabelUse.ofLine? front back = none) : Unlabelled (.marked c) := by
  refine ⟨?_, nofun⟩
  rw [Item.labelUse?, hfront, hback]
  exact h

theorem unlabelled_head {c : Marked} {p : Phrase} {s : String} (h : c.phrase = s ++ p ++ ") \x7b")
    (hs : LabelUse.ofLine? s ") \x7b" = none) : Unlabelled (.marked c) :=
  unlabelled_marked (by rw [h]; rfl) (by rw [h]; exact Phrase.lastText?_before _ _) hs

theorem unlabelled_foot (i : Insn) (p : Phrase) :
    Unlabelled (.marked ⟨false, i.offset, none, true, "\x7d while (" ++ p ++ ");"⟩) :=
  unlabelled_marked rfl (Phrase.lastText?_before _ _) (LabelUse.ofLine?_of_lastWord (by decide) (by decide))

theorem unlabelled_statement (i : Insn) : ∀ x ∈ m.statementItems i, Unlabelled x := by
  have hstatement (p : Phrase) : Unlabelled (marked i.toHead true (p ++ ";")) :=
    unlabelled_marked rfl (Phrase.lastText?_before p ";") (LabelUse.ofLine?_of_lastWord (by decide) (by decide))
  intro x hx
  unfold statementItems at hx
  split at hx
  · cases hx
  split at hx
  · cases List.mem_singleton.mp hx
    exact hstatement _
  · split at hx
    · cases hx
    dsimp only at hx
    split at hx
    · cases List.mem_singleton.mp hx
      exact ⟨rfl, nofun⟩
    · cases List.mem_singleton.mp hx
      exact hstatement _

theorem shows_block (b : Nat) : m.Shows [] [b] (m.blockItems b) := by
  refine (Shows.label m b).append (.without fun x hx => ?_)
  obtain ⟨⟨i, pos⟩, -, hx⟩ := List.mem_flatMap.mp hx
  dsimp only at hx
  split at hx
  · cases hx
  · exact m.unlabelled_statement i x hx

theorem labelUses_map {α : Type} {f : α → Item} {t : α → Nat} (cs : List α)
    (h : ∀ c, (f c).labelUse? = some (.jumps (labelName (t c)))) :
    (cs.map f).filterMap Item.labelUse? = cs.map fun c => .jumps (labelName (t c)) := by
  have hall : Item.labelUse? ∘ f = some ∘ fun c => LabelUse.jumps (labelName (t c)) := funext h
  rw [List.filterMap_map, hall, List.filterMap_eq_map]

theorem labelUse?_goto (s : String) (n : Nat) :
    (Item.line (s ++ ("goto " ++ labelName n ++ ";"))).labelUse? = some (.jumps (labelName n)) :=
  LabelUse.ofLine?_goto s n

/-- The jumps of an instruction are written with its targets. -/
theorem labelUses_rawInsn (i : Insn) :
    (m.rawInsnItems i).filterMap Item.labelUse? = (writtenTargets i.op).map fun t => .jumps (labelName t) := by
  unfold rawInsnItems
  dsimp only
  split
  next target hop =>
    have hjump (s : String) := (LabelUse.ofLine?_goto "" target : LabelUse.ofLine? s _ = _)
    rw [String.empty_append] at hjump
    rw [hop]
    exact List.filterMap_cons_some (hjump _)
  next cmp target hop =>
    rw [hop]
    refine List.filterMap_cons_some ?_
    change LabelUse.ofLine? _ ((Phrase.lastText? (_ ++ (_ : String))).getD "") = _
    rw [Phrase.lastText?_before]
    exact LabelUse.ofLine?_goto ") " target
  next keys targets default hop =>
    have hhead : Unlabelled (marked i.toHead true ("switch (" ++ m.selector i ++ ") \x7b")) :=
      unlabelled_head rfl (by decide)
    have hopen : [marked i.toHead true ("switch (" ++ m.selector i ++ ") \x7b"), .indent].filterMap Item.labelUse? = [] :=
      List.filterMap_cons_none hhead.1
    have hclose : [Item.dedent, .line "\x7d"].filterMap Item.labelUse? = [] :=
      List.filterMap_cons_none (unlabelled_line (s := "\x7d") (by decide)).1
    have hcases := labelUses_map (keys.zip targets) fun c => labelUse?_goto ("case " ++ toString c.1 ++ ": ") c.2
    have hdefault := labelUses_map default.toList fun target => labelUse?_goto "default: " target
    rw [hop, writtenTargets, List.filterMap_append, List.filterMap_append, List.filterMap_append, hopen, hclose]
    rw [List.map_append, List.map_map]
    refine (List.append_nil _).trans ?_
    exact congrArg₂ (· ++ ·) hcases hdefault
  next hgoto hif hswitch =>
    have hnone : writtenTargets i.op = [] := by
      cases hop : i.op with
      | goto target => exact absurd hop (hgoto target)
      | jumpIf cmp target => exact absurd hop (hif cmp target)
      | switchOn keys targets default => exact absurd hop (hswitch keys targets default)
      | _ => rfl
    rw [hnone, List.filterMap_eq_nil_iff.mpr fun x hx => (m.unlabelled_statement i x hx).1]
    rfl

theorem not_label_rawInsn (i : Insn) {x : Item} (hx : x ∈ m.rawInsnItems i) (b : Nat) (name : String) :
    x ≠ .label b name := by
  unfold rawInsnItems at hx
  dsimp only at hx
  split at hx
  · cases List.mem_singleton.mp hx
    rintro ⟨⟩
  · cases List.mem_singleton.mp hx
    rintro ⟨⟩
  · simp only [List.mem_append, List.mem_cons, List.not_mem_nil, or_false, List.mem_map, Option.mem_toList] at hx
    rcases hx with (((rfl | rfl) | ⟨c, -, rfl⟩) | ⟨target, -, rfl⟩) | rfl | rfl
    all_goals rintro ⟨⟩
  · exact (m.unlabelled_statement i x hx).2 b name

theorem shows_raw (b : Nat) : m.Shows [.raw b] [b] (m.rawItems b) := by
  suffices m.Shows [.raw b] [] ((m.graph.block b).insns.flatMap m.rawInsnItems) from (Shows.label m b).append this
  refine ⟨?_, fun c name => ⟨fun hx => ?_, ?_⟩⟩
  · rw [List.filterMap_flatMap, List.flatMap_singleton, usesOf, targetsIn, List.map_flatMap]
    rw [List.flatMap_congr fun i _ => m.labelUses_rawInsn i]
  · obtain ⟨i, -, hx⟩ := List.mem_flatMap.mp hx
    exact absurd rfl (m.not_label_rawInsn i hx c name)
  · exact fun hb => absurd hb.2.1 List.not_mem_nil

end Lifted

namespace Layout

variable {m : Lifted} {ms ms' : List Landmark} {bs bs' : List Nat} {a b l : Layout}

def Shows (m : Lifted) (ms : List Landmark) (bs : List Nat) (l : Layout) : Prop := ∀ next, m.Shows ms bs (l.run next).1

theorem shows_of {items : List Item} (h : m.Shows ms bs items) : Shows m ms bs (of items) := fun _ => h

namespace Shows

theorem append (h : Shows m ms bs a) (h' : Shows m ms' bs' b) : Shows m (ms ++ ms') (bs ++ bs') (a ++ b) :=
  fun next => (h next).append (h' (a.run next).2)

theorem perm (h : Shows m ms bs l) (hms : ms.Perm ms') (hbs : ∀ b, b ∈ bs ↔ b ∈ bs') : Shows m ms' bs' l :=
  fun next => (h next).perm hms hbs

theorem before (h : Shows m ms bs l) {items : List Item} (hitems : ∀ x ∈ items, Lifted.Unlabelled x) :
    Shows m ms bs (of items ++ l) := (shows_of (.without hitems)).append h

theorem after (h : Shows m ms bs l) {items : List Item} (hitems : ∀ x ∈ items, Lifted.Unlabelled x) :
    Shows m ms bs (l ++ of items) := by
  have hall := h.append (shows_of (.without hitems))
  rwa [List.append_nil, List.append_nil] at hall

theorem inScope (h : Shows m ms bs l) : Shows m ms bs (inScope l) := by
  intro next
  have hopen : m.Shows [] [] [.openScope next] := .without (List.forall_mem_singleton.mpr ⟨rfl, nofun⟩)
  have hclose : m.Shows [] [] [.closeScope] := .without (List.forall_mem_singleton.mpr ⟨rfl, nofun⟩)
  have hall := (hopen.append (h (next + 1))).append hclose
  rwa [List.append_nil, List.append_nil] at hall

theorem block (h : Shows m ms bs l) : Shows m ms bs (block l) :=
  (h.inScope.before (List.forall_mem_singleton.mpr Lifted.unlabelled_indent)).after
    (List.forall_mem_singleton.mpr Lifted.unlabelled_dedent)

theorem closed (h : Shows m ms bs l) : Shows m ms bs (Layout.block l ++ of [.line "\x7d"]) :=
  h.block.after (List.forall_mem_singleton.mpr (Lifted.unlabelled_line (by decide)))

theorem byScope {p : Nat → Bool} (h : Shows m ms bs a) (h' : Shows m ms bs b) : Shows m ms bs (byScope p a b) := by
  intro next
  unfold Layout.byScope
  dsimp only
  split_ifs
  · exact h next
  · exact h' next

end Shows

end Layout

namespace Lifted

open Layout

variable (m : Lifted) (hasDecls : Nat → Bool)

mutual

/-- A region for which nothing is written has no jumps, and none of its blocks needs a label. -/
theorem shows_silent : (r : Region) → m.isSilent r = true → m.Shows r.marks (r.nodes.filterMap own?) []
  | .seq items, h => allSilent_shows items h
  | .block b, h => by
      rw [isSilent, Bool.and_eq_true, Bool.not_eq_true'] at h
      exact .unlabelled h.1
  | .raw _, h | .branch .., h | .loop .., h | .switch .., h | .guarded .., h | .brk _, h | .cont _, h | .goto _, h => by
      cases h

theorem allSilent_shows : (items : List Region) → m.allSilent items = true →
    m.Shows (marksOf items) ((nodesOf items).filterMap own?) []
  | [], _ => .nil
  | r :: rest, h => by
      rw [allSilent, Bool.and_eq_true] at h
      rw [marksOf_cons, nodesOf, List.filterMap_append]
      exact (shows_silent r h.1).append (allSilent_shows rest h.2)

end

structure Arm.Shows (ms : List Landmark) (bs : List Nat) (e : Arm) : Prop where
  braced : e.braced.Shows m ms bs
  chained : ∀ l ∈ e.chained, l.Shows m ms bs
  silent : e.silent = true → m.Shows ms bs []

def SecondShows (ms : List Landmark) (bs : List Nat) : Option Arm → Prop
  | none => m.Shows ms bs []
  | some e => e.Shows m ms bs

variable {m} in
theorem orderArms_shows (negated : Bool) {ms ms' : List Landmark} {bs bs' : List Nat} {thenArm : Arm}
    {elseArm : Option Arm} (h : thenArm.Shows m ms bs) (h' : m.SecondShows ms' bs' elseArm) :
    ∃ ks ks' cs cs', (ks ++ ks').Perm (ms ++ ms') ∧ (∀ b, b ∈ cs ++ cs' ↔ b ∈ bs ++ bs') ∧
      (orderArms negated thenArm elseArm).2.1.Shows m ks cs ∧
      m.SecondShows ks' cs' (orderArms negated thenArm elseArm).2.2 ∧
      ((orderArms negated thenArm elseArm).2.1.silent = true → m.Shows ks' cs' []) := by
  cases elseArm with
  | none => exact ⟨ms, ms', bs, bs', .refl _, fun _ => .rfl, h, h', fun _ => h'⟩
  | some e =>
      unfold orderArms
      dsimp only
      split_ifs with hthen helse
      · rw [Bool.and_eq_true, Bool.not_eq_true'] at hthen
        refine ⟨ms', ms, bs', bs, List.perm_append_comm, fun b => ?_, h', h.silent hthen.1, fun _ => h.silent hthen.1⟩
        rw [List.mem_append, List.mem_append, or_comm]
      · rw [Bool.and_eq_true] at helse
        exact ⟨ms, ms', bs, bs', .refl _, fun _ => .rfl, h, h'.silent helse.2, fun _ => h'.silent helse.2⟩
      · refine ⟨ms, ms', bs, bs', .refl _, fun _ => .rfl, h, h', fun hsilent => h'.silent ?_⟩
        rw [Bool.and_eq_true, Bool.not_eq_true', not_and, Bool.not_eq_false] at hthen
        exact hthen hsilent

theorem shows_else {ms : List Landmark} {bs : List Nat} {elseArm : Option Arm} (h : m.SecondShows ms bs elseArm) :
    (elseLayout hasDecls elseArm).Shows m ms bs := by
  have hend : ∀ x ∈ [Item.line "\x7d"], Unlabelled x := List.forall_mem_singleton.mpr (unlabelled_line (by decide))
  cases elseArm with
  | none =>
      intro next
      have hall := (Shows.without hend).append h
      rwa [List.append_nil] at hall
  | some e =>
      have hbraces := (h.braced.block.before (List.forall_mem_singleton.mpr
        (unlabelled_line (s := "\x7d else \x7b") (by decide)))).after hend
      unfold elseLayout
      dsimp only
      split
      next l hl =>
        exact hbraces.byScope ((h.chained l hl).inScope.before (List.forall_mem_singleton.mpr (unlabelled_line (by decide))))
      next => exact hbraces

theorem shows_arms (chained : Bool) (header : Nat) (negated : Bool) {ms ms' : List Landmark} {bs bs' : List Nat}
    {first : Arm} {second : Option Arm} (h : first.Shows m ms bs) (h' : m.SecondShows ms' bs' second) :
    Layout.Shows m (ms ++ ms') (bs ++ bs') (match (m.graph.block header).terminator?.map fun i : Insn => (i, i.op) with
      | some (i, .jumpIf cmp _) =>
        .of [.marked ⟨chained, i.offset, i.line, true, "if (" ++ m.comparison cmp negated i ++ ") \x7b"⟩]
          ++ .block first.braced ++ elseLayout hasDecls second
      | _ => first.braced ++ (second.elim (.of []) Arm.braced)) := by
  split
  · refine (h.braced.block.before (List.forall_mem_singleton.mpr ?_)).append (m.shows_else hasDecls h')
    exact unlabelled_head rfl (by decide)
  · refine h.braced.append ?_
    cases second with
    | none => exact shows_of h'
    | some e => exact h'.braced

theorem shows_branch (chained : Bool) (header : Nat) (negated : Bool) {ms ms' : List Landmark} {bs bs' : List Nat}
    {thenArm : Arm} (elseArm : Option Arm) (h : thenArm.Shows m ms bs) (h' : m.SecondShows ms' bs' elseArm)
    (hchained : chained = true → m.tree.labels.contains header = false) :
    (m.branchLayout hasDecls chained header negated thenArm elseArm).Shows m (ms ++ ms') (header :: (bs ++ bs')) := by
  obtain ⟨ks, ks', cs, cs', hks, hcs, hfirst, hsecond, hsilent⟩ := orderArms_shows negated h h'
  have hheader (b : Nat) : b ∈ header :: (cs ++ cs') ↔ b ∈ header :: (bs ++ bs') := by
    rw [List.mem_cons, List.mem_cons, hcs]
  unfold branchLayout
  dsimp only
  split_ifs with hpure hchain
  · rw [Bool.and_eq_true, Bool.and_eq_true] at hpure
    refine shows_of (Shows.perm ?_ hks hheader)
    have hall := (m.shows_block header).append ((hfirst.silent hpure.1.1).append (hsilent hpure.1.1))
    rwa [List.append_nil, List.append_nil] at hall
  · exact ((shows_of (.unlabelled (hchained hchain))).append (m.shows_arms hasDecls _ _ _ hfirst hsecond)).perm hks hheader
  · exact ((shows_of (m.shows_block header)).append (m.shows_arms hasDecls _ _ _ hfirst hsecond)).perm hks hheader

theorem ofLine?_loop (header : Nat) {s back : String} (hopens : opensBlock back = true)
    (hs : labelBefore? ':' (firstWord s) = none) :
    (LabelUse.ofLine? (m.loopMark header ++ s) back).toList = m.usesOf (.loop header) := by
  by_cases hlabel : m.tree.loopLabels.contains header = true
  · rw [loopMark, if_pos hlabel, labelOf, LabelUse.ofLine?_begins hopens]
    exact (if_pos hlabel).symm
  · rw [loopMark, if_neg hlabel, String.empty_append, LabelUse.ofLine?, hopens, hs]
    exact (if_neg hlabel).symm

theorem shows_loopLine (header : Nat) {s : String} (hopens : opensBlock s = true)
    (hs : labelBefore? ':' (firstWord s) = none) : m.Shows [.loop header] [] [.line (m.loopMark header ++ s)] := by
  have hne : s ≠ "" := by
    rintro rfl
    cases hopens
  exact .single (m.ofLine?_loop header ((opensBlock_append hne).trans hopens) hs) nofun

theorem shows_loop (kind : LoopKind) (header : Nat) (cond : Option Nat) (negated : Bool) {ms : List Landmark}
    {bs : List Nat} {body : Layout} (h : body.Shows m ms bs) :
    (m.loopLayout kind header cond negated body).Shows m (.loop header :: ms) (header :: bs) := by
  have hlabel : (Layout.of (m.labelItems header)).Shows m [] [header] := shows_of (.label m header)
  have hendless := (shows_of (m.shows_loopLine header (s := "while (true) \x7b") (by decide) (by decide))).append h.closed
  unfold loopLayout
  dsimp only
  split
  next i cmp _ =>
    split_ifs
    · have hhead : m.Shows [.loop header] [] (loopLine i true ((m.loopMark header ++ "while (") ++ m.comparison cmp negated i
          ++ ") \x7b")) := by
        refine .single ?_ nofun
        change (LabelUse.ofLine? _ ((Phrase.lastText? (_ ++ (_ : String))).getD "")).toList = _
        rw [Phrase.lastText?_before]
        exact m.ofLine?_loop header (s := "while (") (by decide) (by decide)
      exact hlabel.append ((shows_of hhead).append h.closed)
    · have hleave : ∀ x ∈ loopLine i false ("if (" ++ m.comparison cmp (!negated) i ++ ") \x7b")
          ++ [.indent, .line "break;", .dedent, .line "\x7d"], Unlabelled x := by
        refine List.forall_mem_cons.mpr ⟨unlabelled_head rfl (by decide), ?_⟩
        refine List.forall_mem_cons.mpr ⟨unlabelled_indent, List.forall_mem_cons.mpr ⟨unlabelled_line (by decide), ?_⟩⟩
        exact List.forall_mem_cons.mpr ⟨unlabelled_dedent, List.forall_mem_singleton.mpr (unlabelled_line (by decide))⟩
      have htest := (m.shows_block header).append (.without hleave)
      rw [← List.append_assoc] at htest
      have hinner := (shows_of (m.shows_loopLine header (s := "while (true) \x7b") (by decide) (by decide))).append
        ((shows_of htest).append h).closed
      -- The statements of the header, and with them its label, stand in the loop once more.
      exact (hlabel.append hinner).perm (.refl _) (by simp)
  next i cmp _ =>
    have hbody := ((shows_of (m.shows_loopLine header (s := "do \x7b") (by decide) (by decide))).append h.block).after
      (List.forall_mem_singleton.mpr (unlabelled_foot i (m.comparison cmp negated i)))
    exact hlabel.append hbody
  next => exact hlabel.append hendless

theorem shows_case (head : CaseHead) {ms : List Landmark} {bs : List Nat} {body : Layout} (h : body.Shows m ms bs) :
    (caseLayout head body).Shows m ms bs := by
  refine h.block.before fun x hx => ?_
  rcases List.mem_append.mp hx with hx | hx
  · obtain ⟨key, -, rfl⟩ := List.mem_map.mp hx
    refine unlabelled_line (LabelUse.ofLine?_of_getLast? (c := ':') ?_ (by decide) (by decide) (by decide))
    rw [String.toList_append]
    exact List.getLast?_concat
  · split_ifs at hx
    · cases List.mem_singleton.mp hx
      exact unlabelled_line (by decide)
    · cases hx

theorem shows_clause (head : CatchHead) {ms : List Landmark} {bs : List Nat} {body : Layout} (h : body.Shows m ms bs) :
    (Layout.of [m.handlerItem head] ++ .block body).Shows m ms bs :=
  h.block.before (List.forall_mem_singleton.mpr ⟨rfl, nofun⟩)

theorem labelUse?_jump (verb : String) (b : Nat) : (m.jumpItem verb (some b)).labelUse? = some (.jumps (m.labelOf b)) := by
  refine LabelUse.ofLine?_jump verb.toList ?_
  simp [labelOf]

theorem unlabelled_jump (verb : String) (h : LabelUse.ofLine? (verb ++ "" ++ ";") (verb ++ "" ++ ";") = none) :
    Unlabelled (m.jumpItem verb none) := unlabelled_line h

theorem shows_concat {α : Type} {f : α × Layout → Layout} (hf : ∀ head l ms bs, Layout.Shows m ms bs l →
    (f (head, l)).Shows m ms bs) {head : α} {l : Layout} {rest : List (α × Layout)} {ms ms' : List Landmark}
    {bs bs' : List Nat} (h : l.Shows m ms bs) (h' : (Layout.concat (rest.map f)).Shows m ms' bs') :
    (Layout.concat (((head, l) :: rest).map f)).Shows m (ms ++ ms') (bs ++ bs') := (hf head l ms bs h).append h'

theorem shows_switch (header : Nat) {cases : List (CaseHead × Layout)} {ms : List Landmark} {bs : List Nat}
    (h : ∀ f : CaseHead × Layout → Layout, (∀ head l ms bs, Layout.Shows m ms bs l → (f (head, l)).Shows m ms bs) →
      (Layout.concat (cases.map f)).Shows m ms bs) :
    (m.switchLayout header cases).Shows m ms (header :: bs) := by
  rw [← List.nil_append ms, ← List.singleton_append]
  refine (shows_of (m.shows_block header)).append ?_
  split
  next i _ _ _ _ =>
    have hcases := h (fun c => caseLayout c.1 c.2) fun head _ _ _ => m.shows_case head
    refine Layout.Shows.after (Layout.Shows.before hcases ?_) ?_
    · exact List.forall_mem_cons.mpr ⟨unlabelled_head rfl (by decide), List.forall_mem_singleton.mpr unlabelled_indent⟩
    · exact List.forall_mem_cons.mpr ⟨unlabelled_dedent, List.forall_mem_singleton.mpr (unlabelled_line (by decide))⟩
  next => exact h (·.2) fun _ _ _ _ hl => hl

theorem shows_guarded {body : Layout} {catches : List (CatchHead × Layout)} {ms ms' : List Landmark} {bs bs' : List Nat}
    (h : body.Shows m ms bs)
    (h' : (Layout.concat (catches.map fun c => .of [m.handlerItem c.1] ++ .block c.2)).Shows m ms' bs') :
    (m.guardedLayout body catches).Shows m (ms ++ ms') (bs ++ bs') :=
  ((h.block.before (List.forall_mem_singleton.mpr (unlabelled_line (s := "try \x7b") (by decide)))).append h').after
    (List.forall_mem_singleton.mpr (unlabelled_line (by decide)))

mutual

/-- The layout of a region uses labels as the marks of the region do, and has the labels of the blocks that stand there. -/
theorem shows_layout (chained : Bool) (r : Region)
    (h : chained = true → ∀ b, r.own? = some b → m.tree.labels.contains b = false) :
    (m.layout hasDecls chained r).Shows m r.marks (r.nodes.filterMap own?) := by
  cases r with
  | seq items => exact shows_layoutAll items
  | block b => exact shows_of (m.shows_block b)
  | raw b => exact shows_of (m.shows_raw b)
  | branch header negated thenPart elsePart =>
      have hthen : Arm.Shows m thenPart.marks (thenPart.nodes.filterMap own?)
          ⟨m.isSilent thenPart, .lazily fun _ => m.layout hasDecls false thenPart, none⟩ :=
        ⟨shows_layout false thenPart nofun, nofun, m.shows_silent thenPart⟩
      have hchained (hc : chained = true) := h hc header rfl
      cases elsePart with
      | none =>
          have hbranch := m.shows_branch hasDecls chained header negated none hthen .nil hchained
          rwa [List.append_nil, List.append_nil] at hbranch
      | some elsePart =>
          have hbraced := shows_layout false elsePart nofun
          have hnext := shows_layout true elsePart
          rw [marks_branchElse, nodes, List.filterMap_cons, List.filterMap_append]
          refine m.shows_branch hasDecls chained header negated (some _) hthen
            ⟨hbraced, fun l hl => ?_, m.shows_silent elsePart⟩ hchained
          dsimp only at hl
          split at hl
          next inner _ _ _ =>
            split_ifs at hl with hbare
            · cases hl
              refine hnext fun _ b hb => ?_
              cases hb
              rw [isBareComparison, Bool.and_eq_true, Bool.and_eq_true, Bool.not_eq_true'] at hbare
              exact hbare.1.1
            · cases hl
          next => cases hl
  | loop kind header cond negated body => exact m.shows_loop kind header cond negated (shows_layout false body nofun)
  | switch header cases =>
      rw [marks_switch]
      exact m.shows_switch header fun f hf => shows_layoutCases cases f hf
  | guarded body catches =>
      rw [marks_guarded, nodes, List.filterMap_cons, List.filterMap_append]
      exact m.shows_guarded (shows_layout false body nofun)
        (shows_layoutCatches catches (fun c => .of [m.handlerItem c.1] ++ .block c.2) fun head _ _ _ => m.shows_clause head)
  | brk target =>
      cases target with
      | none => exact shows_of (.without (List.forall_mem_singleton.mpr (m.unlabelled_jump "break" (by decide))))
      | some b => exact shows_of (.single (congrArg Option.toList (m.labelUse?_jump _ b)) nofun)
  | cont target =>
      cases target with
      | none => exact shows_of (.without (List.forall_mem_singleton.mpr (m.unlabelled_jump "continue" (by decide))))
      | some b => exact shows_of (.single (congrArg Option.toList (m.labelUse?_jump _ b)) nofun)
  | goto target => exact shows_of (.single (congrArg Option.toList (m.labelUse?_jump _ target)) nofun)

theorem shows_layoutAll (items : List Region) :
    (m.layoutAll hasDecls items).Shows m (marksOf items) ((nodesOf items).filterMap own?) := by
  cases items with
  | nil => exact shows_of .nil
  | cons r rest =>
      rw [marksOf_cons, nodesOf, List.filterMap_append]
      exact (shows_layout false r nofun).append (shows_layoutAll rest)

theorem shows_layoutCases (cases : List (CaseHead × Region)) (f : CaseHead × Layout → Layout)
    (hf : ∀ head l ms bs, Layout.Shows m ms bs l → (f (head, l)).Shows m ms bs) :
    (Layout.concat ((m.layoutCases hasDecls cases).map f)).Shows m (marksOf (cases.map (·.2)))
      ((nodesOfCases cases).filterMap own?) := by
  cases cases with
  | nil => exact shows_of .nil
  | cons c rest =>
      obtain ⟨head, r⟩ := c
      rw [List.map_cons, marksOf_cons, nodesOfCases, List.filterMap_append]
      exact m.shows_concat hf (shows_layout false r nofun) (shows_layoutCases rest f hf)

theorem shows_layoutCatches (catches : List (CatchHead × Region)) (f : CatchHead × Layout → Layout)
    (hf : ∀ head l ms bs, Layout.Shows m ms bs l → (f (head, l)).Shows m ms bs) :
    (Layout.concat ((m.layoutCatches hasDecls catches).map f)).Shows m (marksOf (catches.map (·.2)))
      ((nodesOfCatches catches).filterMap own?) := by
  cases catches with
  | nil => exact shows_of .nil
  | cons c rest =>
      obtain ⟨head, r⟩ := c
      rw [List.map_cons, marksOf_cons, nodesOfCatches, List.filterMap_append]
      exact m.shows_concat hf (shows_layout false r nofun) (shows_layoutCatches rest f hf)

end

theorem shows_items : m.Shows m.tree.root.marks (m.tree.root.nodes.filterMap own?) (m.items hasDecls) :=
  (m.shows_layout hasDecls false m.tree.root nofun).inScope 0

end Lifted

end JavaLift.Source
