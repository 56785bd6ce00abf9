import JavaLift.Proofs.Region.Machine
import JavaLift.Proofs.Region.Shapes

namespace JavaLift

open Region

/-- A construct around a region: its label, if it is a loop, and the blocks at which `break` and `continue` go on. -/
structure Around where
  label : Option Nat
  brk : Option Nat
  cont : Option Nat

namespace Around

def breakTo (c : List Around) : Option Nat → Option Nat
  | none => c.head?.bind (·.brk)
  | some label => (c.find? (·.label == some label)).bind (·.brk)

def continueTo (c : List Around) : Option Nat → Option Nat
  | none => (c.find? (·.label.isSome)).bind (·.cont)
  | some label => (c.find? (·.label == some label)).bind (·.cont)

end Around

open Around

namespace Graph

variable (g : Graph)

def caseOf (b n : Nat) (heads : List CaseHead) : Option Nat :=
  (heads.findIdx? fun h => (g.entryOf b n).any fun e => h.target == e.1 && h.keys.contains e.2)
    <|> heads.findIdx? (·.isDefault)

end Graph

/-- A region that never comes to its end may stand before any block. -/
def Passes (m k : Option Nat) : Prop := ∀ b ∈ m, k = some b

theorem Passes.of_none {m k : Option Nat} (h : Passes m none) : Passes m k := fun b hb => nomatch h b hb

def caseStart : List (CaseHead × Region) → Option Nat → Option Nat
  | [], k => k
  | c :: _, _ => some c.1.target

def Region.isOpening : Region → Bool
  | .block _ | .branch .. | .switch .. => true
  | _ => false

def Region.opens (r : Region) : Bool := r.toList.head?.any isOpening

section

variable (g : Graph) (latches : List Nat)

mutual

/-- Inside the given constructs, the region begins at block `b`, and goes on at `k` after it. -/
def Fits (c : List Around) (b : Nat) : Region → Option Nat → Prop
  | .seq items, k => FitsAll c b items k
  | .block x, k => x = b ∧ ((g.block b).isExit = true ∨ (∃ n, g.after b = .entering n ∧ k = some n) ∨ b ∈ latches)
  | .branch header negated thenPart none, k =>
    header = b ∧ (g.block b).endsInIf = true ∧ (∃ n ∈ g.branchTo b !negated, ∃ m, Passes m k ∧ Fits c n thenPart m) ∧
      ∃ n ∈ g.branchTo b negated, k = some n
  | .branch header negated thenPart (some elsePart), k =>
    header = b ∧ (g.block b).endsInIf = true ∧ (∃ n ∈ g.branchTo b !negated, ∃ m, Passes m k ∧ Fits c n thenPart m) ∧
      ∃ n ∈ g.branchTo b negated, ∃ m, Passes m k ∧ Fits c n elsePart m
  | .loop .whileDo header cond negated body, k =>
    header = b ∧ cond = some b ∧ (g.block b).endsInIf = true ∧
      (∃ n ∈ g.branchTo b !negated, ∃ m, Passes m (some b) ∧ Fits (⟨some b, k, some b⟩ :: c) n body m) ∧
      ∃ n ∈ g.branchTo b negated, k = some n
  | .loop .doWhile header cond negated body, k =>
    header = b ∧ (∃ latch ∈ latches, cond = some latch ∧ g.branchTo latch (!negated) = some b ∧
      ∃ n ∈ g.branchTo latch negated, k = some n) ∧ Fits (⟨some b, k, none⟩ :: c) b body none
  | .loop .endless header _ _ body, k =>
    header = b ∧ body.opens = true ∧ ∃ m, Passes m (some b) ∧ Fits (⟨some b, k, some b⟩ :: c) b body m
  | .switch header cases, k =>
    header = b ∧ (g.block b).endsInSwitch = true ∧
      (∀ n, ∃ t ∈ g.selectTo b n, match g.caseOf b n (cases.map (·.1)) with
        | some i => caseStart (cases.drop i) none = some t
        | none => k = some t) ∧
      FitsCases (⟨none, k, none⟩ :: c) cases k
  | .guarded .., _ | .raw _, _ => False
  | .brk label, _ => breakTo c label = some b
  | .cont label, _ => continueTo c label = some b
  | .goto target, _ => target = b ∧ b < g.size

def FitsAll (c : List Around) (b : Nat) : List Region → Option Nat → Prop
  | [], k => k = some b
  | r :: rest, k => ∃ m, Fits c b r m ∧ (m = none ∧ rest = [] ∨ ∃ n, Passes m (some n) ∧ FitsAll c n rest k)

def FitsCases (c : List Around) : List (CaseHead × Region) → Option Nat → Prop
  | [], _ => True
  | (head, r) :: rest, k => (∃ m, Passes m (caseStart rest k) ∧ Fits c head.target r m) ∧ FitsCases c rest k

end

end

namespace Around

variable {c c' : List Around} {label : Option Nat} {b : Nat}

theorem breakTo_append (h : breakTo c label = some b) : breakTo (c ++ c') label = some b := by
  cases label with
  | none =>
      cases c with
      | nil => cases h
      | cons a c => exact h
  | some l =>
      obtain ⟨a, ha, hb⟩ := Option.bind_eq_some_iff.mp h
      simpa [breakTo, ha] using hb

theorem continueTo_append (h : continueTo c label = some b) : continueTo (c ++ c') label = some b := by
  cases label with
  | none =>
      obtain ⟨a, ha, hb⟩ := Option.bind_eq_some_iff.mp h
      simpa [continueTo, ha] using hb
  | some l =>
      obtain ⟨a, ha, hb⟩ := Option.bind_eq_some_iff.mp h
      simpa [continueTo, ha] using hb

end Around

section

variable {g : Graph} {latches : List Nat}

mutual

theorem Fits.append (c' : List Around) : (r : Region) → ∀ (c : List Around) (b : Nat) (k : Option Nat),
    Fits g latches c b r k → Fits g latches (c ++ c') b r k
  | .seq items, c, b, k, h => FitsAll.append c' items c b k h
  | .block x, _, _, _, h => h
  | .branch header negated thenPart none, c, b, k, h => by
      obtain ⟨hb, hif, ⟨n, hn, m, hm, hthen⟩, hout⟩ := h
      exact ⟨hb, hif, ⟨n, hn, m, hm, Fits.append c' thenPart c n m hthen⟩, hout⟩
  | .branch header negated thenPart (some elsePart), c, b, k, h => by
      obtain ⟨hb, hif, ⟨n, hn, m, hm, hthen⟩, n', hn', m', hm', helse⟩ := h
      exact ⟨hb, hif, ⟨n, hn, m, hm, Fits.append c' thenPart c n m hthen⟩, n', hn', m', hm',
        Fits.append c' elsePart c n' m' helse⟩
  | .loop .whileDo header cond negated body, c, b, k, h => by
      obtain ⟨hb, hcond, hif, ⟨n, hn, m, hm, hbody⟩, hout⟩ := h
      exact ⟨hb, hcond, hif, ⟨n, hn, m, hm, Fits.append c' body (_ :: c) n m hbody⟩, hout⟩
  | .loop .doWhile header cond negated body, c, b, k, h => ⟨h.1, h.2.1, Fits.append c' body (_ :: c) b none h.2.2⟩
  | .loop .endless header cond negated body, c, b, k, h => by
      obtain ⟨hb, hopens, m, hm, hbody⟩ := h
      exact ⟨hb, hopens, m, hm, Fits.append c' body (_ :: c) b m hbody⟩
  | .switch header cases, c, b, k, h => ⟨h.1, h.2.1, h.2.2.1, FitsCases.append c' cases (_ :: c) k h.2.2.2⟩
  | .guarded .., _, _, _, h | .raw _, _, _, _, h => h
  | .brk label, c, b, _, h => breakTo_append h
  | .cont label, c, b, _, h => continueTo_append h
  | .goto target, _, _, _, h => h

theorem FitsAll.append (c' : List Around) : (items : List Region) → ∀ (c : List Around) (b : Nat) (k : Option Nat),
    FitsAll g latches c b items k → FitsAll g latches (c ++ c') b items k
  | [], _, _, _, h => h
  | r :: rest, c, b, k, h => by
      obtain ⟨m, hr, hrest⟩ := h
      refine ⟨m, Fits.append c' r c b m hr, hrest.imp_right ?_⟩
      rintro ⟨n, hm, hrest⟩
      exact ⟨n, hm, FitsAll.append c' rest c n k hrest⟩

theorem FitsCases.append (c' : List Around) : (cases : List (CaseHead × Region)) → ∀ (c : List Around) (k : Option Nat),
    FitsCases g latches c cases k → FitsCases g latches (c ++ c') cases k
  | [], _, _, _ => trivial
  | (head, r) :: rest, c, k, h => by
      obtain ⟨⟨m, hm, hr⟩, hrest⟩ := h
      exact ⟨⟨m, hm, Fits.append c' r c head.target m hr⟩, FitsCases.append c' rest c k hrest⟩

end

variable {c : List Around} {b n : Nat} {k : Option Nat} {xs ys : List Region}

theorem Fits.all {r : Region} (h : Fits g latches c b r k) : FitsAll g latches c b [r] k := by
  cases k with
  | none => exact ⟨none, h, .inl ⟨rfl, rfl⟩⟩
  | some n => exact ⟨some n, h, .inr ⟨n, fun _ hn => hn, rfl⟩⟩

/-- What never comes to its end may stand before any block. -/
theorem FitsAll.anywhere (h : FitsAll g latches c b xs none) : FitsAll g latches c b xs k := by
  induction xs generalizing b with
  | nil => cases h
  | cons x xs ih =>
      obtain ⟨m, hx, hxs⟩ := h
      refine ⟨m, hx, hxs.imp_right ?_⟩
      rintro ⟨n, hm, hxs⟩
      exact ⟨n, hm, ih hxs⟩

theorem FitsAll.then (h : FitsAll g latches c b xs (some n)) (h' : FitsAll g latches c n ys k) :
    FitsAll g latches c b (xs ++ ys) k := by
  induction xs generalizing b with
  | nil =>
      obtain rfl : n = b := Option.some.inj h
      exact h'
  | cons x xs ih =>
      obtain ⟨m, hx, hxs⟩ := h
      refine ⟨m, hx, .inr ?_⟩
      rcases hxs with ⟨rfl, rfl⟩ | ⟨n', hm, hxs⟩
      · exact ⟨n, nofun, h'⟩
      · exact ⟨n', hm, ih hxs⟩

theorem fits_ofList (h : FitsAll g latches c b xs k) : ∃ m, Passes m k ∧ Fits g latches c b (ofList xs) m := by
  unfold ofList
  split
  · obtain ⟨m, hr, hrest⟩ := h
    refine ⟨m, ?_, hr⟩
    rcases hrest with ⟨rfl, -⟩ | ⟨n, hm, hk⟩
    · exact nofun
    · obtain rfl : k = some n := hk
      exact hm
  · exact ⟨k, fun _ hk => hk, h⟩

/-- Without the last `continue`, control comes to the end of the body where it went on by it. -/
theorem FitsAll.dropLast (h : FitsAll g latches c b (xs ++ [.cont none]) k) :
    FitsAll g latches c b xs (continueTo c none) := by
  induction xs generalizing b with
  | nil =>
      obtain ⟨m, hr, -⟩ := h
      exact hr
  | cons x xs ih =>
      obtain ⟨m, hx, hxs⟩ := h
      refine ⟨m, hx, ?_⟩
      rcases hxs with ⟨-, hxs⟩ | ⟨n, hm, hxs⟩
      · simp at hxs
      · exact .inr ⟨n, hm, ih hxs⟩

theorem withoutLastContinue_cases (xs : List Region) :
    withoutLastContinue xs = xs ∨ xs = withoutLastContinue xs ++ [.cont none] := by
  unfold withoutLastContinue
  split
  · rename_i h
    exact .inr (List.dropLast_append_getLast? _ h).symm
  · exact .inl rfl

theorem Fits.mem_carriers {r : Region} (h : Fits g latches c b r k) (hr : r.isOpening = true) : b ∈ carriers r := by
  cases r with
  | block x => simp [carriers, h.1]
  | branch header negated thenPart elsePart =>
      cases elsePart with
      | none => simp [carriers, h.1]
      | some e => simp [carriers, h.1]
  | switch header cases => simp [carriers, h.1]
  | _ => cases hr

end

end JavaLift
