import JavaLift.Proofs.Source.Positions
import JavaLift.Proofs.Source.Passes

namespace JavaLift.Source

open Layout

namespace Lifted

variable (m : Lifted) (hasDecls : Nat → Bool)

/-- What is written in the scope with the number is the region at the position, after the decision of a loop that has
moved into its body. -/
def Holds (items : List Item) (id : Nat) (pos : Position) : Prop :=
  ∃ r chained before front after, m.tree.root.at? pos = some r ∧
    items = before ++ .openScope id ::
      (front ++ ((m.layout hasDecls chained r).run (id + 1)).1 ++ .closeScope :: after)

variable {m hasDecls} {items : List Item} {id next : Nat} {pos : Position} {ps qs : List Position} {a b l : Layout}

theorem Holds.append (h : m.Holds hasDecls items id pos) (before after : List Item) :
    m.Holds hasDecls (before ++ items ++ after) id pos := by
  obtain ⟨r, chained, before', front, after', hr, rfl⟩ := h
  exact ⟨r, chained, before ++ before', front, after' ++ after, hr, by simp [List.append_assoc]⟩

variable (m hasDecls)

theorem entered_plain {ts : List Touch} (h : Plain ts) : entered ts = [] := by
  refine List.filterMap_eq_nil_iff.mpr fun t ht => ?_
  obtain ⟨v, rfl⟩ | ⟨v, rfl⟩ := h t ht <;> rfl

theorem entered_block (b : Nat) : entered (touches (m.blockItems b)) = [] := entered_plain (m.plain_block b)

/-- From a number on, a layout opens scopes for the positions, one after the other. -/
structure Opens (l : Layout) (next : Nat) (ps : List Position) : Prop where
  after : (l.run next).2 = next + ps.length
  ids : entered (l.touchesAt next) = List.range' next ps.length
  holds : ∀ k pos, ps[k]? = some pos → m.Holds hasDecls (l.run next).1 (next + k) pos

variable {m hasDecls}

namespace Opens

theorem of (h : entered (touches items) = []) : m.Opens hasDecls (Layout.of items) next [] where
  after := rfl
  ids := h
  holds := nofun

theorem append (h : m.Opens hasDecls a next ps) (h' : m.Opens hasDecls b (next + ps.length) qs) :
    m.Opens hasDecls (a ++ b) next (ps ++ qs) := by
  have hrun : (a ++ b).run next = ((a.run next).1 ++ (b.run (next + ps.length)).1, (b.run (next + ps.length)).2) := by
    rw [← h.after]
    rfl
  refine ⟨?_, ?_, fun k pos hk => ?_⟩
  · rw [hrun, h'.after, List.length_append, Nat.add_assoc]
  · rw [touchesAt_append, entered_append, h.ids, h.after, h'.ids, List.length_append, List.range'_append_1]
  · rw [hrun]
    rcases Nat.lt_or_ge k ps.length with hlt | hle
    · rw [List.getElem?_append_left hlt] at hk
      simpa using (h.holds k pos hk).append [] _
    · rw [List.getElem?_append_right hle] at hk
      have hholds := (h'.holds _ pos hk).append (a.run next).1 []
      rwa [List.append_nil, Nat.add_assoc, Nat.add_sub_cancel' hle] at hholds

theorem inScope {r : Region} {chained : Bool} {front : List Item} (h : m.Opens hasDecls l (next + 1) ps)
    (hr : m.tree.root.at? pos = some r)
    (hl : (l.run (next + 1)).1 = front ++ ((m.layout hasDecls chained r).run (next + 1)).1) :
    m.Opens hasDecls (Layout.inScope l) next (pos :: ps) := by
  refine ⟨?_, ?_, fun k pos' hk => ?_⟩
  · change (l.run (next + 1)).2 = _
    rw [h.after, List.length_cons]
    omega
  · rw [entered_inScope, h.ids, List.length_cons, List.range'_succ]
  · cases k with
    | zero =>
        cases hk
        refine ⟨r, chained, [], front, [], hr, ?_⟩
        rw [← hl]
        rfl
    | succ k =>
        have hholds := (h.holds k pos' hk).append [.openScope next] [.closeScope]
        rwa [Nat.add_assoc, Nat.add_comm 1] at hholds

theorem block {r : Region} {chained : Bool} {front : List Item} (h : m.Opens hasDecls l (next + 1) ps)
    (hr : m.tree.root.at? pos = some r)
    (hl : (l.run (next + 1)).1 = front ++ ((m.layout hasDecls chained r).run (next + 1)).1) :
    m.Opens hasDecls (Layout.block l) next (pos :: ps) := by
  have hscope : m.Opens hasDecls (Layout.of [.indent] ++ Layout.inScope l ++ Layout.of [.dedent]) next
      ([] ++ (pos :: ps) ++ []) :=
    ((of rfl).append (h.inScope hr hl)).append (.of rfl)
  rwa [List.nil_append, List.append_nil] at hscope

theorem congr (h : m.Opens hasDecls a next ps) (hrun : b.run next = a.run next) : m.Opens hasDecls b next ps where
  after := by rw [hrun, h.after]
  ids := by rw [touchesAt, hrun, ← touchesAt, h.ids]
  holds := by rw [hrun]; exact h.holds

theorem after_items (h : m.Opens hasDecls l next ps) (hitems : entered (touches items) = []) :
    m.Opens hasDecls (Layout.of items ++ l) next ps := by
  have hall : m.Opens hasDecls (Layout.of items ++ l) next ([] ++ ps) := (of hitems).append h
  rwa [List.nil_append] at hall

theorem before_items (h : m.Opens hasDecls l next ps) (hitems : entered (touches items) = []) :
    m.Opens hasDecls (l ++ Layout.of items) next ps := by
  have hall : m.Opens hasDecls (l ++ Layout.of items) next (ps ++ []) := h.append (of hitems)
  rwa [List.append_nil] at hall

end Opens

theorem opens_inBraces {body : Layout} {r : Region} {s : ScopeTree} (hr : m.tree.root.at? pos = some r)
    (hstays : m.fleeting pos = false) (hrun : body.run = (m.layout hasDecls false r).run)
    (h : ∀ next, m.Opens hasDecls body next (s.opened m.fleeting hasDecls next)) (next : Nat) :
    m.Opens hasDecls (.block body) next ((ScopeTree.scope pos s).opened m.fleeting hasDecls next) := by
  rw [ScopeTree.opened, hstays, Bool.false_and, if_neg Bool.false_ne_true]
  exact (h _).block hr (by rw [hrun, List.nil_append])

variable (m hasDecls)

structure Arm.Grows (e : Arm) (limb : Limb) (r : Region) : Prop where
  silent : e.silent = limb.silent
  region : m.tree.root.at? limb.pos = some r
  braced : e.braced.run = (m.layout hasDecls false r).run
  opens : ∀ next, m.Opens hasDecls e.braced next (limb.braced.opened m.fleeting hasDecls next)

inductive Arm.Follows (e : Arm) (limb : Limb) (r : Region) : Prop where
  | braced (harm : e.chained = none) (hlimb : limb.chained = none) (hstays : m.fleeting limb.pos = false)
  | chained (l : Layout) (s : ScopeTree) (harm : e.chained = some l) (hlimb : limb.chained = some s)
      (hrun : l.run = (m.layout hasDecls true r).run)
      (hopens : ∀ next, m.Opens hasDecls l next (s.opened m.fleeting hasDecls next))
      (hbraced : limb.braced = if m.fleeting limb.pos then .none else s)

variable {m hasDecls}

theorem opens_else {e : Arm} {limb : Limb} {r : Region} (h : e.Grows m hasDecls limb r)
    (h' : e.Follows m hasDecls limb r) (next : Nat) :
    m.Opens hasDecls (elseLayout hasDecls (some e)) next
      ((ScopeTree.scope limb.pos (limb.chained.getD limb.braced)).opened m.fleeting hasDecls next) := by
  have hline (s : String) : entered (touches [.line s]) = [] := rfl
  have hbraces {ps : List Position} (hps : m.Opens hasDecls e.braced (next + 1) ps) :
      m.Opens hasDecls (.of [.line "\x7d else \x7b"] ++ .block e.braced ++ .of [.line "\x7d"]) next (limb.pos :: ps) :=
    ((hps.block h.region (by rw [h.braced, List.nil_append])).after_items (hline _)).before_items (hline _)
  cases h' with
  | braced harm hlimb hstays =>
      simp only [elseLayout, harm, hlimb, ScopeTree.opened, hstays, Bool.false_and, Option.getD_none]
      exact hbraces (h.opens _)
  | chained l s harm hlimb hrun hopens hbraced =>
      simp only [elseLayout, harm, hlimb, ScopeTree.opened, Option.getD_some]
      by_cases hdecls : hasDecls next = true
      · -- In braces the comparison has the same scopes, or it fades and has none.
        have hsame : limb.braced.opened m.fleeting hasDecls (next + 1) =
            if m.fleeting limb.pos then [] else s.opened m.fleeting hasDecls (next + 1) := by
          rw [hbraced]
          split_ifs <;> rfl
        rw [hdecls, Bool.and_true, ← hsame]
        exact (hbraces (h.opens _)).congr (if_pos hdecls)
      · rw [Bool.not_eq_true] at hdecls
        rw [hdecls, Bool.and_false]
        have hscope : m.Opens hasDecls (Layout.inScope l) next (limb.pos :: s.opened m.fleeting hasDecls (next + 1)) :=
          (hopens _).inScope h.region (by rw [hrun, List.nil_append])
        exact (hscope.after_items (hline _)).congr (if_neg (by simp [hdecls]))

variable (m hasDecls)

structure Arm.Continues (e : Arm) (thenSilent : Bool) (limb : Limb) (r : Region) : Prop
    extends e.Grows m hasDecls limb r where
  first : thenSilent = true → m.fleeting limb.pos = false
  second : thenSilent = limb.silent → e.Follows m hasDecls limb r

variable {m hasDecls}

/-- The limbs are put in the same order as the arms. -/
theorem grows_ordered {thenArm : Arm} {elseArm : Option Arm} {thenLimb : Limb} {elseLimb : Option Limb} {r : Region}
    (negated : Bool) (h : thenArm.Grows m hasDecls thenLimb r) (hstays : m.fleeting thenLimb.pos = false)
    (h' : Option.Rel (fun e limb => ∃ r, e.Continues m hasDecls thenLimb.silent limb r) elseArm elseLimb) :
    (∃ r, (orderArms negated thenArm elseArm).2.1.Grows m hasDecls (orderLimbs thenLimb elseLimb).1 r) ∧
      m.fleeting (orderLimbs thenLimb elseLimb).1.pos = false ∧
      Option.Rel (fun e limb => ∃ r, e.Grows m hasDecls limb r ∧ e.Follows m hasDecls limb r)
        (orderArms negated thenArm elseArm).2.2 (orderLimbs thenLimb elseLimb).2 := by
  cases h' with
  | none => exact ⟨⟨r, h⟩, hstays, .none⟩
  | @some e limb he =>
      obtain ⟨r', he⟩ := he
      unfold orderArms orderLimbs
      dsimp only
      rw [h.silent, he.silent]
      split_ifs with hthen helse
      · rw [Bool.and_eq_true] at hthen
        exact ⟨⟨r', he.toGrows⟩, he.first hthen.1, .none⟩
      · exact ⟨⟨r, h⟩, hstays, .none⟩
      · refine ⟨⟨r, h⟩, hstays, .some ⟨r', he.toGrows, he.second ?_⟩⟩
        revert hthen helse
        cases thenLimb.silent <;> cases limb.silent <;> simp

theorem opens_second {second : Option Arm} {limb : Option Limb}
    (h : Option.Rel (fun e limb => ∃ r, e.Grows m hasDecls limb r ∧ e.Follows m hasDecls limb r) second limb)
    (next : Nat) :
    m.Opens hasDecls (elseLayout hasDecls second) next
      ((limb.elim .none fun e => ScopeTree.scope e.pos (e.chained.getD e.braced)).opened m.fleeting hasDecls next) := by
  cases h with
  | none => exact .of rfl
  | some he =>
      obtain ⟨r, hgrows, hfollows⟩ := he
      exact opens_else hgrows hfollows next

theorem opens_arms (chained : Bool) (header : Nat) (negated : Bool) {first : Arm} {limb : Limb} {r : Region}
    {second : Option Arm} {limb' : Option Limb} (h : first.Grows m hasDecls limb r)
    (hstays : m.fleeting limb.pos = false)
    (h' : Option.Rel (fun e limb => ∃ r, e.Grows m hasDecls limb r ∧ e.Follows m hasDecls limb r) second limb')
    (next : Nat) :
    m.Opens hasDecls
      (match (m.graph.block header).terminator?.map fun i : Insn => (i, i.op) with
        | some (i, .jumpIf cmp _) =>
          .of [.marked ⟨chained, i.offset, i.line, true, "if (" ++ m.comparison cmp negated i ++ ") \x7b"⟩]
            ++ .block first.braced ++ elseLayout hasDecls second
        | _ => first.braced ++ (second.elim (.of []) Arm.braced)) next
      (ScopeTree.opened m.fleeting hasDecls next
        (match (m.graph.block header).terminator?.map fun i : Insn => (i, i.op) with
          | some (_, .jumpIf ..) =>
            .append (.scope limb.pos limb.braced) (limb'.elim .none fun e => .scope e.pos (e.chained.getD e.braced))
          | _ => .append limb.braced (limb'.elim .none Limb.braced))) := by
  split
  next i cmp target _ =>
    have hfirst : m.Opens hasDecls (.of [.marked ⟨chained, i.offset, i.line, true,
        "if (" ++ m.comparison cmp negated i ++ ") \x7b"⟩] ++ .block first.braced) next
        ((ScopeTree.scope limb.pos limb.braced).opened m.fleeting hasDecls next) :=
      (opens_inBraces h.region hstays h.braced h.opens next).after_items (entered_plain (plain_marked _))
    exact hfirst.append (opens_second h' _)
  next =>
    refine (h.opens next).append ?_
    cases h' with
    | none => exact .of rfl
    | some he =>
        obtain ⟨r', hgrows, -⟩ := he
        exact hgrows.opens _

theorem opens_branch {thenArm : Arm} {elseArm : Option Arm} {thenLimb : Limb} {elseLimb : Option Limb} {r : Region}
    (chained : Bool) (header : Nat) (negated : Bool) (h : thenArm.Grows m hasDecls thenLimb r)
    (hstays : m.fleeting thenLimb.pos = false)
    (h' : Option.Rel (fun e limb => ∃ r, e.Continues m hasDecls thenLimb.silent limb r) elseArm elseLimb)
    (next : Nat) :
    m.Opens hasDecls (m.branchLayout hasDecls chained header negated thenArm elseArm) next
      ((m.branchScopes chained header thenLimb elseLimb).opened m.fleeting hasDecls next) := by
  obtain ⟨⟨r', hfirst⟩, hfirstStays, hsecond⟩ := grows_ordered negated h hstays h'
  unfold branchLayout branchScopes
  dsimp only
  rw [hfirst.silent]
  split_ifs
  · exact .of (m.entered_block header)
  · exact (opens_arms chained header _ hfirst hfirstStays hsecond next).after_items rfl
  · exact (opens_arms chained header _ hfirst hfirstStays hsecond next).after_items (m.entered_block header)

theorem opens_loop (kind : LoopKind) (header : Nat) (cond : Option Nat) (negated : Bool) {body : Layout} {r : Region}
    {s : ScopeTree} (hr : m.tree.root.at? pos = some r) (hstays : m.fleeting pos = false)
    (hrun : body.run = (m.layout hasDecls false r).run)
    (h : ∀ next, m.Opens hasDecls body next (s.opened m.fleeting hasDecls next)) (next : Nat) :
    m.Opens hasDecls (m.loopLayout kind header cond negated body) next
      ((ScopeTree.scope pos s).opened m.fleeting hasDecls next) := by
  have hline (text : String) : entered (touches [.line text]) = [] := rfl
  have hblock := opens_inBraces hr hstays hrun h next
  unfold loopLayout
  refine Opens.after_items ?_ (by rw [touches_label]; rfl)
  dsimp only
  split
  next i cmp _ =>
    split_ifs
    · exact (hblock.before_items (hline _)).after_items (entered_plain (plain_marked _))
    · -- The decision has moved into the body, where it stands before all else.
      have hfront : entered (touches (m.blockItems header
          ++ loopLine i false ("if (" ++ m.comparison cmp (!negated) i ++ ") \x7b")
          ++ [.indent, .line "break;", .dedent, .line "\x7d"])) = [] := by
        rw [touches_append, touches_append]
        exact entered_plain (((m.plain_block header).append (plain_marked _)).append plain_nil)
      generalize m.blockItems header ++ loopLine i false ("if (" ++ m.comparison cmp (!negated) i ++ ") \x7b")
        ++ [.indent, .line "break;", .dedent, .line "\x7d"] = front at hfront ⊢
      have hinner : ((Layout.of front ++ body).run (next + 1)).1 =
          front ++ ((m.layout hasDecls false r).run (next + 1)).1 := by
        rw [← hrun]
        rfl
      rw [ScopeTree.opened, hstays, Bool.false_and, if_neg Bool.false_ne_true]
      have hbody := ((h (next + 1)).after_items hfront).block hr hinner
      exact (hbody.before_items (hline _)).after_items (hline _)
  next => exact (hblock.after_items (hline _)).before_items (entered_plain (plain_marked _))
  next => exact (hblock.before_items (hline _)).after_items (hline _)

theorem opens_switch (header : Nat) {cases : List (CaseHead × Layout)} {braced bare : ScopeTree}
    (hbraced : ∀ next, m.Opens hasDecls (.concat (cases.map fun c => caseLayout c.1 c.2)) next
      (braced.opened m.fleeting hasDecls next))
    (hbare : ∀ next, m.Opens hasDecls (.concat (cases.map (·.2))) next (bare.opened m.fleeting hasDecls next))
    (next : Nat) :
    m.Opens hasDecls (m.switchLayout header cases) next
      (ScopeTree.opened m.fleeting hasDecls next
        (match (m.graph.block header).terminator?.map fun i : Insn => (i, i.op) with
          | some (_, .switchOn ..) => braced
          | _ => bare)) := by
  refine Opens.after_items ?_ (m.entered_block header)
  generalize (m.graph.block header).terminator?.map (fun i : Insn => (i, i.op)) = last
  rcases last with _ | ⟨i, op⟩
  · exact hbare next
  cases op
  case switchOn =>
    have hhead : entered (touches [marked i.toHead true ("switch (" ++ m.selector i ++ ") \x7b"), .indent]) = [] :=
      entered_plain (plain_marked ⟨false, i.offset, i.line, true, "switch (" ++ m.selector i ++ ") \x7b"⟩)
    have hfoot : entered (touches [.dedent, .line "\x7d"]) = [] := rfl
    exact ((hbraced next).after_items hhead).before_items hfoot
  all_goals exact hbare next

variable (m hasDecls)

mutual

/-- The scopes of a region are opened for the positions that they have in the tree. -/
theorem opens_layout (pos : Position) (chained : Bool) (r : Region) (hr : m.tree.root.at? pos = some r) (next : Nat) :
    m.Opens hasDecls (m.layout hasDecls chained r) next ((m.scopes pos chained r).opened m.fleeting hasDecls next) := by
  cases r with
  | seq items =>
      rw [layout, scopes]
      exact opens_layoutAll pos 0 items (.seq hr) next
  | block b =>
      rw [layout, scopes]
      exact .of (m.entered_block b)
  | raw b =>
      rw [layout, scopes]
      exact .of (entered_plain (m.plain_raw b))
  | branch header negated thenPart elsePart =>
      have hthen : m.tree.root.at? (pos ++ [0]) = some thenPart := Region.at?_concat hr 0
      have hthenStays : m.fleeting (pos ++ [0]) = false := fleeting_other hr (by simp)
      have hgrows : Arm.Grows m hasDecls ⟨m.isSilent thenPart, .lazily fun _ => m.layout hasDecls false thenPart, none⟩
          ⟨m.isSilent thenPart, pos ++ [0], m.scopes (pos ++ [0]) false thenPart, none⟩ thenPart :=
        ⟨rfl, hthen, rfl, opens_layout (pos ++ [0]) false thenPart hthen⟩
      cases elsePart with
      | none =>
          rw [layout, scopes]
          exact opens_branch chained header negated hgrows hthenStays .none next
      | some elsePart =>
          have helse : m.tree.root.at? (pos ++ [1]) = some elsePart := Region.at?_concat hr 1
          have helseStays := fleeting_else hr
          unfold layout scopes
          refine opens_branch chained header negated hgrows hthenStays (.some ⟨elsePart, ?_⟩) next
          refine ⟨⟨rfl, helse, rfl, opens_layout (pos ++ [1]) false elsePart helse⟩, fun hsilent => ?_, fun hsame => ?_⟩
          · have hthenSilent : m.isSilent thenPart = true := hsilent
            rw [helseStays, hthenSilent]
            rfl
          · have hthenSame : m.isSilent thenPart = m.isSilent elsePart := hsame
            cases elsePart with
            | branch inner negated' thenPart' elsePart' =>
                dsimp only
                split_ifs with hbare
                · -- A comparison has text, so the first arm has, too, and this one fades exactly if it is fleeting.
                  refine .chained _ _ rfl rfl rfl (opens_layout (pos ++ [1]) true _ helse) ?_
                  change m.scopes (pos ++ [1]) false _ = if m.fleeting (pos ++ [1]) then _ else _
                  rw [helseStays, hthenSame, scopes_braced hbare]
                  rfl
                · have hwritten : m.fades (.branch inner negated' thenPart' elsePart') = false := by simp [fades, hbare]
                  exact .braced rfl rfl (by rw [helseStays, hwritten, Bool.and_false])
            | _ => exact .braced rfl rfl (by rw [helseStays]; simp [fades])
  | loop kind header cond negated body =>
      have hbody : m.tree.root.at? (pos ++ [0]) = some body := Region.at?_concat hr 0
      rw [layout, scopes]
      exact opens_loop kind header cond negated hbody (fleeting_other hr (by simp)) rfl
        (opens_layout (pos ++ [0]) false body hbody) next
  | switch header cases =>
      have hstays (j : Nat) : m.fleeting (pos ++ [j]) = false := fleeting_other hr (by simp)
      rw [layout, scopes]
      exact opens_switch header (opens_layoutCases true pos 0 cases (.cases hr) hstays)
        (opens_layoutCases false pos 0 cases (.cases hr) hstays) next
  | guarded body catches =>
      have hbody : m.tree.root.at? (pos ++ [0]) = some body := Region.at?_concat hr 0
      have hstays (j : Nat) : m.fleeting (pos ++ [j]) = false := fleeting_other hr (by simp)
      rw [layout, guardedLayout, scopes]
      have htry := opens_inBraces hbody (hstays 0) rfl (opens_layout (pos ++ [0]) false body hbody) next
      have hline (s : String) : entered (touches [.line s]) = [] := rfl
      exact ((htry.after_items (hline _)).append (opens_layoutCatches pos 1 catches (.catches hr) hstays _)).before_items
        (hline _)
  | brk target | cont target | goto target =>
      rw [layout, scopes]
      exact .of rfl

theorem opens_layoutAll (pos : Position) (i : Nat) (items : List Region)
    (hparts : m.tree.root.PartsAt pos i items) (next : Nat) :
    m.Opens hasDecls (m.layoutAll hasDecls items) next
      ((m.scopesAll pos i items).opened m.fleeting hasDecls next) := by
  cases items with
  | nil =>
      rw [layoutAll, scopesAll]
      exact .of rfl
  | cons r rest =>
      rw [layoutAll, scopesAll]
      exact (opens_layout (pos ++ [i]) false r hparts.head next).append (opens_layoutAll pos (i + 1) rest hparts.tail _)

theorem opens_layoutCases (braces : Bool) (pos : Position) (i : Nat) (cases : List (CaseHead × Region))
    (hparts : m.tree.root.PartsAt pos i (cases.map (·.2))) (hstays : ∀ j, m.fleeting (pos ++ [j]) = false)
    (next : Nat) :
    m.Opens hasDecls
      (.concat ((m.layoutCases hasDecls cases).map fun c => if braces then caseLayout c.1 c.2 else c.2)) next
      ((m.scopesCases braces pos i cases).opened m.fleeting hasDecls next) := by
  cases cases with
  | nil =>
      rw [layoutCases, scopesCases]
      exact .of rfl
  | cons c rest =>
      obtain ⟨head, r⟩ := c
      have hr := hparts.head
      have hinner := opens_layout (pos ++ [i]) false r hr
      rw [layoutCases, scopesCases]
      refine Opens.append (a := if braces then caseLayout head (m.layout hasDecls false r) else
        m.layout hasDecls false r) ?_ ?_
      · cases braces with
        | false => exact hinner next
        | true =>
            have hlabels : entered (touches ((head.keys.map fun key => .line ("case " ++ toString key ++ ":"))
                ++ if head.isDefault then [.line "default:"] else [])) = [] := by
              rw [touches_append, touches_map (fun _ => touches_line _), List.nil_append]
              split_ifs <;> rfl
            exact (opens_inBraces hr (hstays i) rfl hinner next).after_items hlabels
      · exact opens_layoutCases braces pos (i + 1) rest hparts.tail hstays _

theorem opens_layoutCatches (pos : Position) (i : Nat) (catches : List (CatchHead × Region))
    (hparts : m.tree.root.PartsAt pos i (catches.map (·.2))) (hstays : ∀ j, m.fleeting (pos ++ [j]) = false)
    (next : Nat) :
    m.Opens hasDecls
      (.concat ((m.layoutCatches hasDecls catches).map fun (head, body) => .of [m.handlerItem head] ++ .block body)) next
      ((m.scopesCatches pos i catches).opened m.fleeting hasDecls next) := by
  cases catches with
  | nil =>
      rw [layoutCatches, scopesCatches]
      exact .of rfl
  | cons c rest =>
      obtain ⟨head, r⟩ := c
      have hr := hparts.head
      have hclause : entered (touches [m.handlerItem head]) = [] := rfl
      rw [layoutCatches, scopesCatches]
      refine Opens.append ((opens_inBraces hr (hstays i) rfl (opens_layout (pos ++ [i]) false r hr) next).after_items
        hclause) ?_
      exact opens_layoutCatches pos (i + 1) rest hparts.tail hstays _

end

/-- The scopes of the whole body are opened for the positions: they are numbered from zero on in the order in which they
open, and each holds the region at its position. -/
structure OpensBody (m : Lifted) (hasDecls : Nat → Bool) (ps : List Position) : Prop where
  ids : entered (touches (m.items hasDecls)) = List.range ps.length
  holds : ∀ id pos, ps[id]? = some pos → m.Holds hasDecls (m.items hasDecls) id pos

theorem opensBody_openings (m : Lifted) (hasDecls : Nat → Bool) : m.OpensBody hasDecls (m.openings hasDecls) := by
  have hbody : m.Opens hasDecls (Layout.inScope (m.layout hasDecls false m.tree.root)) 0 (m.openings hasDecls) := by
    rw [openings, bodyScopes, ScopeTree.opened]
    exact (opens_layout m hasDecls [] false m.tree.root rfl 1).inScope rfl (List.nil_append _).symm
  refine ⟨?_, fun id pos hid => ?_⟩
  · rw [List.range_eq_range']
    exact hbody.ids
  · have hholds := hbody.holds id pos hid
    rwa [Nat.zero_add] at hholds

end Lifted

end JavaLift.Source
