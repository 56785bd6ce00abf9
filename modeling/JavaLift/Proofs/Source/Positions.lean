import JavaLift.Source.Method
import Mathlib

/-!
Which region of the tree a scope is opened for. A comparison that follows an `else` opens its own scopes only where it
is written: in braces nothing is written for it if its arms have no text and it has no effect.
-/

namespace JavaLift

/-- The way to a region from the root of the tree: the number of the part at each step. -/
abbrev Position := List Nat

namespace Region

def part? : Region → Nat → Option Region
  | .seq items, i => items[i]?
  | .branch _ _ thenPart _, 0 => some thenPart
  | .branch _ _ _ elsePart, 1 => elsePart
  | .loop _ _ _ _ body, 0 => some body
  | .switch _ cases, i => (cases[i]?).map (·.2)
  | .guarded body _, 0 => some body
  | .guarded _ catches, i + 1 => (catches[i]?).map (·.2)
  | _, _ => none

def at? (r : Region) (pos : Position) : Option Region := pos.foldlM part? r

theorem at?_concat {root r : Region} {pos : Position} (h : root.at? pos = some r) (i : Nat) :
    root.at? (pos ++ [i]) = r.part? i := by
  unfold at? at h ⊢
  rw [List.foldlM_append, h]
  simp

def PartsAt (root : Region) (pos : Position) (i : Nat) (parts : List Region) : Prop :=
  ∀ j r, parts[j]? = some r → root.at? (pos ++ [i + j]) = some r

namespace PartsAt

variable {root r : Region} {pos : Position} {i : Nat} {parts : List Region}

theorem head (h : root.PartsAt pos i (r :: parts)) : root.at? (pos ++ [i]) = some r := h 0 r rfl

theorem tail (h : root.PartsAt pos i (r :: parts)) : root.PartsAt pos (i + 1) parts := by
  intro j r' hj
  rw [Nat.add_assoc, Nat.add_comm 1]
  exact h (j + 1) r' hj

theorem seq {items : List Region} (h : root.at? pos = some (.seq items)) : root.PartsAt pos 0 items := by
  intro j r' hj
  rw [at?_concat h, Nat.zero_add]
  exact hj

theorem cases {header : Nat} {cases : List (CaseHead × Region)} (h : root.at? pos = some (.switch header cases)) :
    root.PartsAt pos 0 (cases.map (·.2)) := by
  intro j r' hj
  rw [at?_concat h, Nat.zero_add]
  rwa [List.getElem?_map] at hj

theorem catches {body : Region} {catches : List (CatchHead × Region)} (h : root.at? pos = some (.guarded body catches)) :
    root.PartsAt pos 1 (catches.map (·.2)) := by
  intro j r' hj
  rw [at?_concat h, Nat.add_comm]
  rwa [List.getElem?_map] at hj

end PartsAt

end Region

namespace Source

/-- The scopes of a part of a layout, in the order in which they open, each with the position it is for. -/
inductive ScopeTree where
  | none
  | append (a b : ScopeTree)
  | scope (pos : Position) (inner : ScopeTree)

namespace ScopeTree

def all : ScopeTree → List Position
  | .none => []
  | .append a b => a.all ++ b.all
  | .scope pos inner => pos :: inner.all

variable (fleeting : Position → Bool) (p : Nat → Bool)

/-- The positions of the scopes that are opened, the next one by a given number. A fleeting scope is empty where the
condition holds of its number. -/
def opened (next : Nat) : ScopeTree → List Position
  | .none => []
  | .append a b => a.opened next ++ b.opened (next + (a.opened next).length)
  | .scope pos inner => pos :: if fleeting pos && p next then [] else inner.opened (next + 1)

def Solid : ScopeTree → Prop
  | .none => True
  | .append a b => a.Solid ∧ b.Solid
  | .scope pos inner => inner.Solid ∧ (fleeting pos = true → inner.all ≠ [])

variable {fleeting p} {s : ScopeTree}

theorem opened_sublist (next : Nat) (s : ScopeTree) : (s.opened fleeting p next).Sublist s.all := by
  induction s generalizing next with
  | none => exact List.Sublist.refl _
  | append a b iha ihb => exact (iha next).append (ihb _)
  | scope pos inner ih =>
      rw [opened, all]
      split_ifs
      · exact (List.nil_sublist _).cons_cons pos
      · exact (ih _).cons_cons pos

theorem opened_never (next : Nat) (s : ScopeTree) : s.opened fleeting (fun _ => false) next = s.all := by
  induction s generalizing next with
  | none => rfl
  | append a b iha ihb => rw [opened, iha, ihb, all]
  | scope pos inner ih => simp [opened, all, ih]

/-- No scope is missing exactly if no fleeting one meets the condition: the first one that does would be followed by
another scope than it is. -/
theorem opened_eq_all (h : s.Solid fleeting) (next : Nat) :
    s.opened fleeting p next = s.all ↔
      ∀ k pos, s.all[k]? = some pos → p (next + k) = true → fleeting pos = false := by
  induction s generalizing next with
  | none => simp [opened, all]
  | append a b iha ihb =>
      have hsplit : (append a b).opened fleeting p next = (append a b).all ↔
          a.opened fleeting p next = a.all ∧ b.opened fleeting p (next + a.all.length) = b.all := by
        rw [opened, all]
        constructor
        · intro heq
          have hlength := congrArg List.length heq
          rw [List.length_append, List.length_append] at hlength
          have ha : (a.opened fleeting p next).length ≤ a.all.length := (opened_sublist next a).length_le
          have hb : (b.opened fleeting p (next + (a.opened fleeting p next).length)).length ≤ b.all.length :=
            (opened_sublist _ b).length_le
          have heqa : a.opened fleeting p next = a.all := (opened_sublist next a).eq_of_length (by omega)
          rw [heqa] at heq
          exact ⟨heqa, List.append_cancel_left heq⟩
        · rintro ⟨ha, hb⟩
          rw [ha, hb]
      rw [hsplit, iha h.1, ihb h.2, all]
      constructor
      · rintro ⟨ha, hb⟩ k pos hk hp
        rcases Nat.lt_or_ge k a.all.length with hlt | hle
        · exact ha k pos (by rwa [List.getElem?_append_left hlt] at hk) hp
        · refine hb (k - a.all.length) pos (by rwa [List.getElem?_append_right hle] at hk) ?_
          rwa [Nat.add_assoc, Nat.add_sub_cancel' hle]
      · intro hall
        refine ⟨fun k pos hk => hall k pos ?_, fun k pos hk hp => hall (a.all.length + k) pos ?_ ?_⟩
        · rwa [List.getElem?_append_left (List.getElem?_eq_some_iff.mp hk).1]
        · rwa [List.getElem?_append_right (Nat.le_add_right _ _), Nat.add_sub_cancel_left]
        · rwa [← Nat.add_assoc]
  | scope pos inner ih =>
      have hfirst : (scope pos inner).opened fleeting p next = (scope pos inner).all ↔
          (p next = true → fleeting pos = false) ∧ inner.opened fleeting p (next + 1) = inner.all := by
        rw [opened, all, List.cons_inj_right]
        cases hfleeting : fleeting pos with
        | false => simp
        | true =>
            cases hp : p next with
            | false => simp
            | true => simpa [hp] using (h.2 hfleeting).symm
      rw [hfirst, ih h.1, all]
      constructor
      · rintro ⟨hhead, hrest⟩ k pos' hk hp
        cases k with
        | zero =>
            cases hk
            exact hhead hp
        | succ k => exact hrest k pos' hk (by rwa [Nat.add_assoc, Nat.add_comm 1])
      · intro hall
        refine ⟨hall 0 pos rfl, fun k pos' hk hp => hall (k + 1) pos' hk ?_⟩
        rwa [Nat.add_assoc, Nat.add_comm 1] at hp

end ScopeTree

namespace Lifted

variable (m : Lifted)

/-- Nothing is written for the region in braces, though it can follow an `else`. -/
def fades : Region → Bool
  | .branch header _ thenPart elsePart =>
    m.isBareComparison header && m.isPureComparison header && m.isSilent thenPart
      && match elsePart with
        | none => true
        | some r => m.isSilent r
  | _ => false

/-- The position is that of a comparison that stands after an `else`, and for which nothing is written in braces. -/
def fleeting (pos : Position) : Bool :=
  match pos.getLast?, m.tree.root.at? pos.dropLast with
  | some 1, some (.branch _ _ thenPart (some elsePart)) => !m.isSilent thenPart && m.fades elsePart
  | _, _ => false

/-- An arm of a comparison with its scopes: how it is laid out in braces, and how after an `else`. -/
structure Limb where
  silent : Bool
  pos : Position
  braced : ScopeTree
  chained : Option ScopeTree

def orderLimbs (thenLimb : Limb) (elseLimb : Option Limb) : Limb × Option Limb :=
  match elseLimb with
  | none => (thenLimb, none)
  | some e =>
    if thenLimb.silent && !e.silent then (e, none)
    else if !thenLimb.silent && e.silent then (thenLimb, none)
    else (thenLimb, some e)

def branchScopes (chained : Bool) (header : Nat) (thenLimb : Limb) (elseLimb : Option Limb) : ScopeTree :=
  let (first, second) := orderLimbs thenLimb elseLimb
  if first.silent && !chained && m.isPureComparison header then .none
  else match (m.graph.block header).terminator?.map fun i : Insn => (i, i.op) with
    | some (_, .jumpIf ..) =>
      .append (.scope first.pos first.braced)
        (second.elim .none fun e => .scope e.pos (e.chained.getD e.braced))
    | _ => .append first.braced (second.elim .none Limb.braced)

mutual

def scopes (pos : Position) (chained : Bool) : Region → ScopeTree
  | .seq items => scopesAll pos 0 items
  | .branch header _ thenPart none =>
    m.branchScopes chained header ⟨m.isSilent thenPart, pos ++ [0], scopes (pos ++ [0]) false thenPart, none⟩ none
  | .branch header _ thenPart (some elsePart) =>
    let next := match elsePart with
      | .branch inner .. => if m.isBareComparison inner then some (scopes (pos ++ [1]) true elsePart) else none
      | _ => none
    m.branchScopes chained header ⟨m.isSilent thenPart, pos ++ [0], scopes (pos ++ [0]) false thenPart, none⟩
      (some ⟨m.isSilent elsePart, pos ++ [1], scopes (pos ++ [1]) false elsePart, next⟩)
  | .loop _ _ _ _ body => .scope (pos ++ [0]) (scopes (pos ++ [0]) false body)
  | .switch header cases =>
    match (m.graph.block header).terminator?.map fun i : Insn => (i, i.op) with
    | some (_, .switchOn ..) => scopesCases true pos 0 cases
    | _ => scopesCases false pos 0 cases
  | .guarded body catches =>
    .append (.scope (pos ++ [0]) (scopes (pos ++ [0]) false body)) (scopesCatches pos 1 catches)
  | .block _ | .raw _ | .brk _ | .cont _ | .goto _ => .none

def scopesAll (pos : Position) (i : Nat) : List Region → ScopeTree
  | [] => .none
  | r :: rest => .append (scopes (pos ++ [i]) false r) (scopesAll pos (i + 1) rest)

/-- The scopes of the cases of a switch, which stand in braces of their own unless the switch has no head. -/
def scopesCases (braces : Bool) (pos : Position) (i : Nat) : List (CaseHead × Region) → ScopeTree
  | [] => .none
  | (_, r) :: rest =>
    let inner := scopes (pos ++ [i]) false r
    .append (if braces then .scope (pos ++ [i]) inner else inner) (scopesCases braces pos (i + 1) rest)

def scopesCatches (pos : Position) (i : Nat) : List (CatchHead × Region) → ScopeTree
  | [] => .none
  | (_, r) :: rest => .append (.scope (pos ++ [i]) (scopes (pos ++ [i]) false r)) (scopesCatches pos (i + 1) rest)

end

def bodyScopes : ScopeTree := .scope [] (m.scopes [] false m.tree.root)

/-- The positions for which scopes are opened, in the order in which they open, given which scopes begin with
declarations. -/
def openings (hasDecls : Nat → Bool) : List Position := m.bodyScopes.opened m.fleeting hasDecls 0

variable {m} {pos : Position}

theorem fleeting_else {header : Nat} {negated : Bool} {thenPart elsePart : Region}
    (h : m.tree.root.at? pos = some (.branch header negated thenPart (some elsePart))) :
    m.fleeting (pos ++ [1]) = (!m.isSilent thenPart && m.fades elsePart) := by
  rw [fleeting, List.getLast?_concat, List.dropLast_concat, h]
  rfl

theorem fleeting_other {r : Region} (h : m.tree.root.at? pos = some r) {i : Nat}
    (hother : ∀ header negated thenPart elsePart, r = .branch header negated thenPart (some elsePart) → i ≠ 1) :
    m.fleeting (pos ++ [i]) = false := by
  rw [fleeting, List.getLast?_concat, List.dropLast_concat, h]
  split
  next hi hr =>
    cases hi
    cases hr
    exact absurd rfl (hother _ _ _ _ rfl)
  next => rfl

/-- A branch has the same scopes in braces as after an `else`, unless nothing is written for it. -/
theorem branchScopes_braced (header : Nat) (thenLimb : Limb) (elseLimb : Option Limb) :
    m.branchScopes false header thenLimb elseLimb =
      if (orderLimbs thenLimb elseLimb).1.silent && m.isPureComparison header then .none
      else m.branchScopes true header thenLimb elseLimb := by
  unfold branchScopes
  dsimp only
  rw [Bool.not_false, Bool.and_true, Bool.not_true, Bool.and_false, Bool.false_and, if_neg Bool.false_ne_true]

theorem scopes_braced {header : Nat} (hbare : m.isBareComparison header = true) (pos : Position) (negated : Bool)
    (thenPart : Region) (elsePart : Option Region) :
    m.scopes pos false (.branch header negated thenPart elsePart) =
      if m.fades (.branch header negated thenPart elsePart) then .none
      else m.scopes pos true (.branch header negated thenPart elsePart) := by
  cases elsePart with
  | none =>
      have hfades : m.fades (.branch header negated thenPart none) =
          (m.isSilent thenPart && m.isPureComparison header) := by
        simp [fades, hbare, Bool.and_comm]
      rw [hfades]
      unfold scopes
      exact branchScopes_braced _ _ _
  | some elsePart =>
      have hfades (p q : Position) (s t : ScopeTree) (c d : Option ScopeTree) :
          m.fades (.branch header negated thenPart (some elsePart)) =
            ((orderLimbs ⟨m.isSilent thenPart, p, s, c⟩ (some ⟨m.isSilent elsePart, q, t, d⟩)).1.silent
              && m.isPureComparison header) := by
        rw [fades, hbare]
        cases hthen : m.isSilent thenPart <;> cases helse : m.isSilent elsePart <;> simp [orderLimbs]
      unfold scopes
      dsimp only
      rw [branchScopes_braced, ← hfades]

theorem solid_inBraces {s : ScopeTree} (h : s.Solid m.fleeting) (hstays : m.fleeting pos = false) :
    (ScopeTree.scope pos s).Solid m.fleeting :=
  ⟨h, fun hfleeting => absurd hfleeting (by simp [hstays])⟩

/-- After an `else` a bare comparison always opens a scope, if only for its first arm. -/
theorem all_chained_ne_nil {header : Nat} (hbare : m.isBareComparison header = true) (pos : Position) (negated : Bool)
    (thenPart : Region) (elsePart : Option Region) :
    (m.scopes pos true (.branch header negated thenPart elsePart)).all ≠ [] := by
  have hbranch (thenLimb : Limb) (elseLimb : Option Limb) : (m.branchScopes true header thenLimb elseLimb).all ≠ [] := by
    obtain ⟨i, cmp, target, hlast⟩ : ∃ i cmp target,
        ((m.graph.block header).terminator?.map fun i : Insn => (i, i.op)) = some (i, .jumpIf cmp target) := by
      rw [isBareComparison, Bool.and_eq_true, Bool.and_eq_true] at hbare
      obtain ⟨i, hi, hop⟩ := (Option.any_eq_true _ _).mp hbare.1.2
      unfold Op.isIf at hop
      split at hop
      next cmp target hjump => exact ⟨i, cmp, target, by rw [hi, Option.map_some, hjump]⟩
      next => cases hop
    unfold branchScopes
    dsimp only
    rw [Bool.not_true, Bool.and_false, Bool.false_and, if_neg Bool.false_ne_true, hlast]
    simp [ScopeTree.all]
  unfold scopes
  cases elsePart <;> exact hbranch _ _

theorem solid_branch (chained : Bool) (header : Nat) {thenLimb : Limb} {elseLimb : Option Limb}
    (h : thenLimb.braced.Solid m.fleeting) (hstays : m.fleeting thenLimb.pos = false)
    (h' : ∀ e ∈ elseLimb, e.braced.Solid m.fleeting ∧ (thenLimb.silent = true → m.fleeting e.pos = false) ∧
      (ScopeTree.scope e.pos (e.chained.getD e.braced)).Solid m.fleeting) :
    (m.branchScopes chained header thenLimb elseLimb).Solid m.fleeting := by
  have hfirst : (orderLimbs thenLimb elseLimb).1.braced.Solid m.fleeting ∧
      m.fleeting (orderLimbs thenLimb elseLimb).1.pos = false ∧
      ∀ e ∈ (orderLimbs thenLimb elseLimb).2, e ∈ elseLimb := by
    cases elseLimb with
    | none => exact ⟨h, hstays, nofun⟩
    | some e =>
        obtain ⟨hbraced, hfirst, -⟩ := h' e rfl
        unfold orderLimbs
        dsimp only
        split_ifs with hthen
        · exact ⟨hbraced, hfirst (Bool.and_eq_true_iff.mp hthen).1, nofun⟩
        · exact ⟨h, hstays, nofun⟩
        · exact ⟨h, hstays, fun _ he => he⟩
  obtain ⟨hbraced, hfirstStays, hsecond⟩ := hfirst
  unfold branchScopes
  dsimp only
  split_ifs
  · trivial
  · split
    · refine ⟨solid_inBraces hbraced hfirstStays, ?_⟩
      cases he : (orderLimbs thenLimb elseLimb).2 with
      | none => trivial
      | some e => exact (h' e (hsecond e he)).2.2
    · refine ⟨hbraced, ?_⟩
      cases he : (orderLimbs thenLimb elseLimb).2 with
      | none => trivial
      | some e => exact (h' e (hsecond e he)).1

mutual

theorem solid_scopes (pos : Position) (chained : Bool) (r : Region) (hr : m.tree.root.at? pos = some r) :
    (m.scopes pos chained r).Solid m.fleeting := by
  cases r with
  | seq items =>
      rw [scopes]
      exact solid_scopesAll pos 0 items (.seq hr)
  | block | raw | brk | cont | goto =>
      rw [scopes]
      trivial
  | branch header negated thenPart elsePart =>
      have hthen := solid_scopes (pos ++ [0]) false thenPart (Region.at?_concat hr 0)
      have hthenStays : m.fleeting (pos ++ [0]) = false := fleeting_other hr (by simp)
      cases elsePart with
      | none =>
          rw [scopes]
          exact solid_branch chained header hthen hthenStays nofun
      | some elsePart =>
          have helse : m.tree.root.at? (pos ++ [1]) = some elsePart := Region.at?_concat hr 1
          have hbraced := solid_scopes (pos ++ [1]) false elsePart helse
          have hchained := solid_scopes (pos ++ [1]) true elsePart helse
          have helseStays := fleeting_else hr
          unfold scopes
          refine solid_branch chained header hthen hthenStays fun e he => ?_
          cases he
          refine ⟨hbraced, fun hsilent => ?_, ?_⟩
          · have hthenSilent : m.isSilent thenPart = true := hsilent
            rw [helseStays, hthenSilent]
            rfl
          cases elsePart with
          | branch inner negated' thenPart' elsePart' =>
              dsimp only
              split_ifs with hbare
              · exact ⟨hchained, fun _ => all_chained_ne_nil hbare _ _ _ _⟩
              · have hwritten : m.fades (.branch inner negated' thenPart' elsePart') = false := by simp [fades, hbare]
                exact solid_inBraces hbraced (by rw [helseStays, hwritten, Bool.and_false])
          | _ => exact solid_inBraces hbraced (by rw [helseStays]; simp [fades])
  | loop kind header cond negated body =>
      rw [scopes]
      exact solid_inBraces (solid_scopes (pos ++ [0]) false body (Region.at?_concat hr 0)) (fleeting_other hr (by simp))
  | switch header cases =>
      have hall (braces : Bool) := solid_scopesCases braces pos 0 cases (.cases hr) fun j => fleeting_other hr (by simp)
      rw [scopes]
      split
      · exact hall true
      · exact hall false
  | guarded body catches =>
      have hstays (j : Nat) : m.fleeting (pos ++ [j]) = false := fleeting_other hr (by simp)
      rw [scopes]
      exact ⟨solid_inBraces (solid_scopes (pos ++ [0]) false body (Region.at?_concat hr 0)) (hstays 0),
        solid_scopesCatches pos 1 catches (.catches hr) hstays⟩

theorem solid_scopesAll (pos : Position) (i : Nat) (items : List Region)
    (hparts : m.tree.root.PartsAt pos i items) :
    (m.scopesAll pos i items).Solid m.fleeting := by
  cases items with
  | nil =>
      rw [scopesAll]
      trivial
  | cons r rest =>
      rw [scopesAll]
      exact ⟨solid_scopes (pos ++ [i]) false r hparts.head, solid_scopesAll pos (i + 1) rest hparts.tail⟩

theorem solid_scopesCases (braces : Bool) (pos : Position) (i : Nat) (cases : List (CaseHead × Region))
    (hparts : m.tree.root.PartsAt pos i (cases.map (·.2))) (hstays : ∀ j, m.fleeting (pos ++ [j]) = false) :
    (m.scopesCases braces pos i cases).Solid m.fleeting := by
  cases cases with
  | nil =>
      rw [scopesCases]
      trivial
  | cons c rest =>
      obtain ⟨head, r⟩ := c
      have hinner := solid_scopes (pos ++ [i]) false r hparts.head
      rw [scopesCases]
      refine ⟨?_, solid_scopesCases braces pos (i + 1) rest hparts.tail hstays⟩
      cases braces with
      | false => exact hinner
      | true => exact solid_inBraces hinner (hstays i)

theorem solid_scopesCatches (pos : Position) (i : Nat) (catches : List (CatchHead × Region))
    (hparts : m.tree.root.PartsAt pos i (catches.map (·.2))) (hstays : ∀ j, m.fleeting (pos ++ [j]) = false) :
    (m.scopesCatches pos i catches).Solid m.fleeting := by
  cases catches with
  | nil =>
      rw [scopesCatches]
      trivial
  | cons c rest =>
      obtain ⟨head, r⟩ := c
      rw [scopesCatches]
      exact ⟨solid_inBraces (solid_scopes (pos ++ [i]) false r hparts.head) (hstays i),
        solid_scopesCatches pos (i + 1) rest hparts.tail hstays⟩

end

theorem solid_body (m : Lifted) : m.bodyScopes.Solid m.fleeting :=
  solid_inBraces (solid_scopes [] false m.tree.root rfl) rfl

end Lifted

end Source

end JavaLift
