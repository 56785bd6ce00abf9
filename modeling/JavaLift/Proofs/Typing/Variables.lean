import JavaLift.Proofs.DefUse.Uses
import JavaLift.Proofs.DefUse.Webs
import JavaLift.Proofs.Lookup
import JavaLift.Proofs.Typing.WriteBack

namespace JavaLift

open Relation

/-- A place where a register stands: a parameter, the result of an instruction, or a read in one. -/
inductive Occurrence where
  | entry (k : Nat)
  | result (block pos : Nat)
  | read (block pos : Nat) (path : ArgPath)
deriving DecidableEq

namespace Occurrence

def register? (g : Graph) (entry : List Register) : Occurrence → Option Register
  | .entry k => entry[k]?
  | .result b pos => ((g.block b).insns[pos]?).bind fun i => i.result
  | .read b pos path => ((g.block b).insns[pos]?).bind fun i => i.reads.lookup path

def def? (g : Graph) (entry : List Register) : Occurrence → Option Def
  | .entry k => entry[k]?.map fun r => ⟨r.reg, r.wide, .entry⟩
  | .result b pos => ((g.block b).insns[pos]?).bind (Chain.defOf b pos)
  | .read .. => none

def number? (c : Chain) : Occurrence → Option Nat
  | .entry k => some k
  | .result b pos => c.defAt? b pos
  | .read .. => none

/-- The definition at the one place is carried to a read of its register at the other. -/
inductive Reaches (g : Graph) (entry : List Register) : Occurrence → Occurrence → Prop
  | intro {o : Occurrence} {d : Def} {r : Register} {b pos : Nat} {path : ArgPath} (defined : o.def? g entry = some d)
      (read : (Occurrence.read b pos path).register? g entry = some r) (same : d.reg = r.reg)
      (carried : g.Carried d b pos) : Reaches g entry o (.read b pos path)

/-- The places that have a variable: the definitions, and the reads that one is carried to. -/
def Occurs (g : Graph) (entry : List Register) (o : Occurrence) : Prop :=
  (o.def? g entry).isSome ∨ ∃ source, Reaches g entry source o

end Occurrence

namespace Typing

def var? (t : Typing) (g : Graph) : Occurrence → Option Nat
  | .entry k => t.entryVars[k]?
  | o => (o.register? g []).bind (·.var)

def type? (t : Typing) (g : Graph) : Occurrence → Option Ty
  | .entry k => t.entryVars[k]?.bind (t.types[·]?)
  | o => (o.register? g []).map (·.type)

/-- The variables of a typed graph are the chains of reads of the graph before it. They are numbered by their first
definitions, and every place of a variable has its register and its type. -/
structure Variables (g : Graph) (entry : List Register) (g' : Graph) (t : Typing) : Prop where
  size : t.types.size = t.regs.size
  labelled : ∀ o : Occurrence, o.Occurs g entry → ∃ v < t.regs.size, t.var? g' o = some v ∧ t.type? g' o = t.types[v]? ∧
    (o.register? g entry).map (·.reg) = t.regs[v]? ∧ (o.register? g' entry).map (·.reg) = t.regs[v]?
  same_iff : ∀ o o' : Occurrence, o.Occurs g entry → o'.Occurs g entry →
    (t.var? g' o = t.var? g' o' ↔ EqvGen (Occurrence.Reaches g entry) o o')
  numbered : ∃ first : Nat → Nat, (∀ v w, v < w → w < t.regs.size → first v < first w) ∧ ∀ v < t.regs.size,
    IsLeast {d | ∃ o : Occurrence, o.Occurs g entry ∧ o.number? (Chain.build g entry) = some d ∧ t.var? g' o = some v}
      (first v)
  untouched : ∀ (b pos : Nat) (path : ArgPath) (r : Register), ¬ (Occurrence.read b pos path).Occurs g entry →
    (Occurrence.read b pos path).register? g entry = some r → (Occurrence.read b pos path).register? g' entry = some r

end Typing

namespace Occurrence

variable {g : Graph} {entry : List Register} {o o' : Occurrence} {b pos d e : Nat} {path : ArgPath} {x : Def}
  {r : Register}

theorem register?_read : (Occurrence.read b pos path).register? g entry = some r ↔
    ∃ i, (g.block b).insns[pos]? = some i ∧ (path, r) ∈ i.reads := by
  simp only [register?, Option.bind_eq_some_iff]
  exact exists_congr fun i => and_congr_right fun _ => Assoc.lookup_eq_some i.nodup_reads

def ofNumber (c : Chain) (d : Nat) : Occurrence :=
  match (c.defs[d]?).map Def.site with
  | some (.insn b pos) => .result b pos
  | _ => .entry d

theorem ofNumber_spec (hx : (Chain.build g entry).defs[d]? = some x) :
    (ofNumber (Chain.build g entry) d).def? g entry = some x ∧
      (ofNumber (Chain.build g entry) d).number? (Chain.build g entry) = some d := by
  unfold ofNumber
  rw [hx, Option.map_some]
  rw [Chain.getElem?_defs] at hx
  cases hsite : x.site with
  | entry =>
      have hlt := (Chain.lt_length_iff_site hx).mpr hsite
      refine ⟨?_, rfl⟩
      rw [Chain.collectDefs_eq, List.getElem?_append_left (by simpa using hlt), List.getElem?_map] at hx
      exact hx
  | insn b pos =>
      refine ⟨?_, Chain.defAt?_eq_some.mpr ⟨x, by rwa [Chain.getElem?_defs], hsite⟩⟩
      rcases Chain.mem_collectDefs.mp (List.mem_of_getElem? hx) with ⟨r, -, rfl⟩ | ⟨b', pos', i, hi, hxi⟩
      · cases hsite
      · rw [Chain.defOf_site hxi] at hsite
        cases hsite
        exact Option.bind_eq_some_iff.mpr ⟨i, hi, hxi⟩

theorem exists_number (hx : o.def? g entry = some x) :
    ∃ d, (Chain.build g entry).defs[d]? = some x ∧ o = ofNumber (Chain.build g entry) d := by
  cases o with
  | entry k =>
      obtain ⟨r, hr, rfl⟩ := Option.map_eq_some_iff.mp hx
      have hd : (Chain.build g entry).defs[k]? = some ⟨r.reg, r.wide, .entry⟩ := by
        have hlt : k < (entry.map fun r => (⟨r.reg, r.wide, .entry⟩ : Def)).length := by
          simpa using (List.getElem?_eq_some_iff.mp hr).1
        rw [Chain.getElem?_defs, Chain.collectDefs_eq, List.getElem?_append_left hlt, List.getElem?_map, hr,
          Option.map_some]
      exact ⟨k, hd, by rw [ofNumber, hd]; rfl⟩
  | result b pos =>
      obtain ⟨i, hi, hxi⟩ := Option.bind_eq_some_iff.mp hx
      obtain ⟨d, hd⟩ := List.mem_iff_getElem?.mp (Chain.mem_collectDefs.mpr (.inr ⟨b, pos, i, hi, hxi⟩))
      rw [← Chain.getElem?_defs] at hd
      exact ⟨d, hd, by rw [ofNumber, hd, Option.map_some, Chain.defOf_site hxi]⟩
  | read => cases hx

def Holds (c : Chain) (d : Nat) : Occurrence → Prop
  | .read b pos path => ∃ u ∈ c.uses, u.block = b ∧ u.pos = pos ∧ u.path = path ∧ d ∈ u.reaching
  | o => d < c.defs.size ∧ o = ofNumber c d

theorem closed_build (g : Graph) (entry : List Register) : Webs.Closed (Chain.build g entry) := by
  intro u hu d hd
  obtain ⟨x, hx, -⟩ := (Chain.exact_of_mem hu).reaching d |>.mp hd
  rw [← Chain.getElem?_defs] at hx
  exact (Array.getElem?_eq_some_iff.mp hx).1

theorem holds_ofNumber (hd : d < (Chain.build g entry).defs.size) :
    Holds (Chain.build g entry) d (ofNumber (Chain.build g entry) d) := by
  obtain ⟨hdef, -⟩ := ofNumber_spec (Array.getElem?_eq_getElem hd)
  cases he : ofNumber (Chain.build g entry) d with
  | entry | result => exact ⟨hd, he.symm⟩
  | read =>
      rw [he] at hdef
      cases hdef

theorem Holds.number_eq (h : Holds (Chain.build g entry) d o) (hnumber : o.number? (Chain.build g entry) = some e) :
    e = d := by
  cases o with
  | entry | result =>
      obtain ⟨hd, he⟩ := h
      rw [he, (ofNumber_spec (Array.getElem?_eq_getElem hd)).2] at hnumber
      exact (Option.some.inj hnumber).symm
  | read => cases hnumber

theorem reaches_iff : Reaches g entry o (.read b pos path) ↔
    ∃ d < (Chain.build g entry).defs.size,
      o = ofNumber (Chain.build g entry) d ∧ Holds (Chain.build g entry) d (.read b pos path) := by
  constructor
  · intro h
    cases h with
    | intro defined read same carried =>
        obtain ⟨d, hd, rfl⟩ := exists_number defined
        obtain ⟨i, hi, hr⟩ := register?_read.mp read
        obtain ⟨id, u, huse, hu, -, hreaching⟩ := Chain.exists_exact_use entry hi hr
        obtain ⟨u', hu', hblock, hpos, hpath⟩ := Chain.useAt?_build huse
        obtain rfl : u = u' := Option.some.inj (hu.symm.trans hu')
        refine ⟨d, (Array.getElem?_eq_some_iff.mp hd).1, rfl, u, Array.mem_of_getElem? hu, hblock, hpos, hpath, ?_⟩
        rw [Chain.getElem?_defs] at hd
        exact (hreaching d).mpr ⟨_, hd, same, carried⟩
  · rintro ⟨d, hd, rfl, u, hu, rfl, rfl, rfl, hreaching⟩
    have hexact := Chain.exact_of_mem hu
    obtain ⟨x, hx, hreg, hcarried⟩ := (hexact.reaching d).mp hreaching
    obtain ⟨i, r, hi, hr, hr'⟩ := hexact.read
    rw [← Chain.getElem?_defs] at hx
    exact .intro (ofNumber_spec hx).1 (register?_read.mpr ⟨i, hi, hr⟩) (hreg.trans hr'.symm) hcarried

theorem exists_holds (h : o.Occurs g entry) : ∃ d < (Chain.build g entry).defs.size, Holds (Chain.build g entry) d o := by
  rcases h with h | ⟨source, h⟩
  · obtain ⟨x, hx⟩ := Option.isSome_iff_exists.mp h
    obtain ⟨d, hd, rfl⟩ := exists_number hx
    have hlt := (Array.getElem?_eq_some_iff.mp hd).1
    exact ⟨d, hlt, holds_ofNumber hlt⟩
  · cases h with
    | intro defined read same carried =>
        obtain ⟨d, hd, -, hholds⟩ := reaches_iff.mp (.intro defined read same carried)
        exact ⟨d, hd, hholds⟩

theorem Holds.lt (h : Holds (Chain.build g entry) d o) : d < (Chain.build g entry).defs.size := by
  cases o with
  | entry | result => exact h.1
  | read =>
      obtain ⟨u, hu, -, -, -, hd⟩ := h
      exact closed_build g entry u hu d hd

theorem Holds.occurs (h : Holds (Chain.build g entry) d o) : o.Occurs g entry := by
  cases o with
  | entry | result =>
      obtain ⟨hd, he⟩ := h
      exact .inl (Option.isSome_iff_exists.mpr ⟨_, he ▸ (ofNumber_spec (Array.getElem?_eq_getElem hd)).1⟩)
  | read => exact .inr ⟨_, reaches_iff.mpr ⟨d, h.lt, rfl, h⟩⟩

theorem Holds.shares (h : Holds (Chain.build g entry) d o) (h' : Holds (Chain.build g entry) e o) :
    EqvGen (Webs.Shares (Chain.build g entry)) d e := by
  cases o with
  | entry | result =>
      obtain ⟨he, heq⟩ := h'
      obtain rfl : e = d := h.number_eq (heq ▸ (ofNumber_spec (Array.getElem?_eq_getElem he)).2)
      exact .refl e
  | read =>
      obtain ⟨u, hu, rfl, rfl, rfl, hd⟩ := h
      obtain ⟨u', hu', hblock, hpos, hpath, he⟩ := h'
      have hexact := Chain.exact_of_mem hu
      have hexact' := Chain.exact_of_mem hu'
      obtain ⟨i, r, hi, hr, hreg⟩ := hexact.read
      have hi' : (g.block u'.block).insns[u'.pos]? = some i := by rwa [hblock, hpos]
      have hr' : (u'.path, r) ∈ i.reads := by rwa [hpath]
      have hreg' := hexact'.reg_eq hi' hr'
      -- Two uses at one place have the same definitions.
      have hmem : e ∈ u.reaching := by
        rw [hexact.reaching e, ← hblock, ← hpos, ← hreg, ← hreg']
        exact (hexact'.reaching e).mp he
      exact .rel _ _ ⟨u, hu, hd, hmem⟩

theorem Holds.joined (h : Holds (Chain.build g entry) d o) :
    EqvGen (Reaches g entry) (ofNumber (Chain.build g entry) d) o := by
  cases o with
  | entry | result => exact h.2 ▸ .refl _
  | read => exact .rel _ _ (reaches_iff.mpr ⟨d, h.lt, rfl, h⟩)

theorem eqvGen_of_shares (h : EqvGen (Webs.Shares (Chain.build g entry)) d e) :
    EqvGen (Reaches g entry) (ofNumber (Chain.build g entry) d) (ofNumber (Chain.build g entry) e) := by
  induction h with
  | rel d e h =>
      obtain ⟨u, hu, hd, he⟩ := h
      have hread {k : Nat} (hk : k ∈ u.reaching) : Holds (Chain.build g entry) k (.read u.block u.pos u.path) :=
        ⟨u, hu, rfl, rfl, rfl, hk⟩
      exact (hread hd).joined.trans _ _ _ ((hread he).joined.symm _ _)
  | refl => exact .refl _
  | symm _ _ _ ih => exact ih.symm _ _
  | trans _ _ _ _ _ ih ih' => exact ih.trans _ _ _ ih'

theorem shares_of_eqvGen (h : EqvGen (Reaches g entry) o o') :
    (∀ d, Holds (Chain.build g entry) d o →
      ∃ e, Holds (Chain.build g entry) e o' ∧ EqvGen (Webs.Shares (Chain.build g entry)) d e) ∧
    ∀ e, Holds (Chain.build g entry) e o' →
      ∃ d, Holds (Chain.build g entry) d o ∧ EqvGen (Webs.Shares (Chain.build g entry)) d e := by
  -- The definitions at the two ends of a single read share its use, and this passes along the chain both ways.
  induction h with
  | rel o o' h =>
      have hread := h
      cases h with
      | intro =>
          obtain ⟨k, hk, rfl, hholds⟩ := reaches_iff.mp hread
          exact ⟨fun d hd => ⟨k, hholds, hd.shares (holds_ofNumber hk)⟩,
            fun e he => ⟨k, holds_ofNumber hk, hholds.shares he⟩⟩
  | refl => exact ⟨fun d hd => ⟨d, hd, .refl d⟩, fun e he => ⟨e, he, .refl e⟩⟩
  | symm _ _ _ ih =>
      refine ⟨fun d hd => ?_, fun e he => ?_⟩
      · obtain ⟨e, he, hde⟩ := ih.2 d hd
        exact ⟨e, he, hde.symm _ _⟩
      · obtain ⟨d, hd, hde⟩ := ih.1 e he
        exact ⟨d, hd, hde.symm _ _⟩
  | trans _ _ _ _ _ ih ih' =>
      refine ⟨fun d hd => ?_, fun e he => ?_⟩
      · obtain ⟨k, hk, hdk⟩ := ih.1 d hd
        obtain ⟨e, he, hke⟩ := ih'.1 k hk
        exact ⟨e, he, hdk.trans _ _ _ hke⟩
      · obtain ⟨k, hk, hke⟩ := ih'.2 e he
        obtain ⟨d, hd, hdk⟩ := ih.2 k hk
        exact ⟨d, hd, hdk.trans _ _ _ hke⟩

theorem eqvGen_iff (h : Holds (Chain.build g entry) d o) (h' : Holds (Chain.build g entry) e o') :
    EqvGen (Reaches g entry) o o' ↔ EqvGen (Webs.Shares (Chain.build g entry)) d e := by
  constructor
  · intro hreads
    obtain ⟨k, hk, hdk⟩ := (shares_of_eqvGen hreads).1 d h
    exact hdk.trans _ _ _ (hk.shares h')
  · intro hshares
    exact ((h.joined.symm _ _).trans _ _ _ (eqvGen_of_shares hshares)).trans _ _ _ h'.joined

theorem reg_eq_of_shares (h : EqvGen (Webs.Shares (Chain.build g entry)) d e) :
    ((Chain.build g entry).defs[d]?).map Def.reg = ((Chain.build g entry).defs[e]?).map Def.reg := by
  induction h with
  | rel d e h =>
      obtain ⟨u, hu, hd, he⟩ := h
      have hexact := Chain.exact_of_mem hu
      obtain ⟨x, hx, hreg, -⟩ := (hexact.reaching d).mp hd
      obtain ⟨y, hy, hreg', -⟩ := (hexact.reaching e).mp he
      rw [Chain.getElem?_defs, Chain.getElem?_defs, hx, hy, Option.map_some, Option.map_some, hreg, hreg']
  | refl => rfl
  | symm _ _ _ ih => exact ih.symm
  | trans _ _ _ _ _ ih ih' => exact ih.trans ih'

theorem reg_of_def? (hx : o.def? g entry = some x) : (o.register? g entry).map (·.reg) = some x.reg := by
  cases o with
  | entry k =>
      obtain ⟨r, hr, rfl⟩ := Option.map_eq_some_iff.mp hx
      exact Option.map_eq_some_iff.mpr ⟨r, hr, rfl⟩
  | result b pos =>
      obtain ⟨i, hi, hxi⟩ := Option.bind_eq_some_iff.mp hx
      obtain ⟨r, hr, rfl⟩ := Option.map_eq_some_iff.mp hxi
      exact Option.map_eq_some_iff.mpr ⟨r, Option.bind_eq_some_iff.mpr ⟨i, hi, hr⟩, rfl⟩
  | read => cases hx

theorem Holds.reg_eq (h : Holds (Chain.build g entry) d o) :
    (o.register? g entry).map (·.reg) = ((Chain.build g entry).defs[d]?).map Def.reg := by
  cases o with
  | entry | result =>
      obtain ⟨hd, he⟩ := h
      rw [Array.getElem?_eq_getElem hd, Option.map_some]
      exact reg_of_def? (he ▸ (ofNumber_spec (Array.getElem?_eq_getElem hd)).1)
  | read =>
      obtain ⟨u, hu, rfl, rfl, rfl, hd⟩ := h
      have hexact := Chain.exact_of_mem hu
      obtain ⟨x, hx, hreg, -⟩ := (hexact.reaching d).mp hd
      obtain ⟨i, r, hi, hr, hr'⟩ := hexact.read
      rw [register?_read.mpr ⟨i, hi, hr⟩, Chain.getElem?_defs, hx, Option.map_some, Option.map_some, hr', hreg]

theorem Holds.exists_register (h : Holds (Chain.build g entry) d o) : ∃ r, o.register? g entry = some r := by
  have hreg := h.reg_eq
  rw [Array.getElem?_eq_getElem h.lt, Option.map_some] at hreg
  obtain ⟨r, hr, -⟩ := Option.map_eq_some_iff.mp hreg
  exact ⟨r, hr⟩

theorem Holds.entry_eq {k : Nat} (h : Holds (Chain.build g entry) d (.entry k)) : d = k ∧ k < entry.length := by
  refine ⟨(h.number_eq rfl).symm, ?_⟩
  obtain ⟨r, hr⟩ := h.exists_register
  exact (List.getElem?_eq_some_iff.mp hr).1

end Occurrence

namespace Typing

open Occurrence

variable {g : Graph} {entry : List Register} {o o' : Occurrence} {b pos d e v : Nat} {path : ArgPath} {r : Register}
  {types : Array Ty}

theorem register?_read_writeBack (types : Array Ty) (c : Chain) (w : Webs) (g : Graph) (entry : List Register) :
    (Occurrence.read b pos path).register? (writeBack types c w g) entry =
      ((Occurrence.read b pos path).register? g entry).map (usesChange types c w (usesAt c b pos) path) := by
  simp only [register?, insns_writeBack]
  cases (g.block b).insns[pos]? with
  | none => rfl
  | some i => simp [reads_typeInsn, Arg.onReads, Assoc.lookup_map]

theorem use_of_mem_usesAt {id : Nat} (h : id ∈ usesAt (Chain.build g entry) b pos) :
    ∃ u, (Chain.build g entry).uses[id]? = some u ∧ u.block = b ∧ u.pos = pos := by
  unfold usesAt at h
  cases hcell : ((Chain.build g entry).useTable[b]?).bind (·[pos]?) with
  | none => simp [hcell] at h
  | some cell =>
      obtain ⟨row, hrow, hcell'⟩ := Option.bind_eq_some_iff.mp hcell
      rw [hcell, Option.getD_some] at h
      obtain ⟨u, hu, hblock, hpos⟩ := Chain.tableOfUses_filed g _ b row hrow pos cell hcell' id h
      exact ⟨u, by rwa [← Array.getElem?_toList], hblock, hpos⟩

theorem mem_usesAt {id : Nat} {u : Use} (hu : (Chain.build g entry).uses[id]? = some u) :
    id ∈ usesAt (Chain.build g entry) u.block u.pos := by
  obtain ⟨i, r, hi, -, -⟩ := (Chain.exact_of_mem (Array.mem_of_getElem? hu)).read
  obtain ⟨row, cell, hrow, hcell, hmem⟩ := Chain.mem_tableOfUses (by rwa [Array.getElem?_toList]) hi
  unfold usesAt
  rw [Chain.useTable_build, hrow, Option.bind_some, hcell]
  exact hmem

/-- The uses of an instruction write nothing at a path that no definition reaches. -/
theorem usesChange_untouched (h : ¬ (Occurrence.read b pos path).Occurs g entry) :
    usesChange types (Chain.build g entry) (Webs.of (Chain.build g entry)) (usesAt (Chain.build g entry) b pos) path r =
      r := by
  refine usesChange_none fun id hid r => ?_
  obtain ⟨u, hu, rfl, rfl⟩ := use_of_mem_usesAt hid
  cases hreaching : u.reaching with
  | nil => rw [useChange_eq hu (Webs.getElem?_useVar_nil hu hreaching), Option.elim_none]
  | cons d rest =>
      have hd : d ∈ u.reaching := hreaching ▸ List.mem_cons_self
      rw [useChange_eq hu (Webs.getElem?_useVar (closed_build g entry) hu hd), Option.elim_some, if_neg]
      exact fun hpath => h (Holds.occurs ⟨u, Array.mem_of_getElem? hu, rfl, rfl, hpath.symm, hd⟩)

/-- The uses of an instruction write the variable of the definitions that reach a path. -/
theorem usesChange_typed (h : Holds (Chain.build g entry) d (.read b pos path)) :
    usesChange types (Chain.build g entry) (Webs.of (Chain.build g entry)) (usesAt (Chain.build g entry) b pos) path r =
      typeRegister types (Webs.varOf (Chain.build g entry) d) r := by
  have hclosed := closed_build g entry
  -- Every use at the path writes this variable, so it does not matter which one is the last.
  refine usesChange_some (fun id hid => ?_) ?_
  · obtain ⟨u, hu, rfl, rfl⟩ := use_of_mem_usesAt hid
    cases hreaching : u.reaching with
    | nil =>
        left
        intro r
        rw [useChange_eq hu (Webs.getElem?_useVar_nil hu hreaching), Option.elim_none]
    | cons e rest =>
        have he : e ∈ u.reaching := hreaching ▸ List.mem_cons_self
        have hchange (path : ArgPath) (r : Register) : useChange types _ _ id path r = _ :=
          useChange_eq hu (Webs.getElem?_useVar hclosed hu he) path r
        by_cases hpath : path = u.path
        · right
          intro r
          have hholds : Holds (Chain.build g entry) e (.read u.block u.pos path) :=
            ⟨u, Array.mem_of_getElem? hu, rfl, rfl, hpath.symm, he⟩
          have hsame := (Webs.varOf_eq_iff hclosed hholds.lt h.lt).mpr (hholds.shares h)
          rw [hchange, Option.elim_some, if_pos hpath, hsame]
        · left
          intro r
          rw [hchange, Option.elim_some, if_neg hpath]
  · obtain ⟨u, hu, rfl, rfl, rfl, hd⟩ := h
    obtain ⟨id, hid⟩ := Array.mem_iff_getElem?.mp hu
    refine ⟨id, mem_usesAt hid, fun r => ?_⟩
    rw [useChange_eq hid (Webs.getElem?_useVar hclosed hid hd), Option.elim_some, if_pos rfl]

theorem register?_writeBack (types : Array Ty) (h : Holds (Chain.build g entry) d o) (hentry : ∀ k, o ≠ .entry k) :
    o.register? (writeBack types (Chain.build g entry) (Webs.of (Chain.build g entry)) g) [] =
      (o.register? g entry).map (typeRegister types (Webs.varOf (Chain.build g entry) d)) := by
  cases o with
  | entry k => exact absurd rfl (hentry k)
  | result b pos =>
      obtain ⟨hd, he⟩ := h
      have hnumber := (ofNumber_spec (Array.getElem?_eq_getElem hd)).2
      rw [← he] at hnumber
      have hvar : ((Chain.build g entry).defAt? b pos).bind (fun d => (Webs.of (Chain.build g entry)).defVar[d]?) =
          some (Webs.varOf (Chain.build g entry) d) :=
        Option.bind_eq_some_iff.mpr ⟨d, hnumber, Webs.getElem?_defVar (closed_build g entry) hd⟩
      simp only [register?, insns_writeBack]
      cases (g.block b).insns[pos]? with
      | none => rfl
      | some i => rw [Option.map_some, Option.bind_some, Option.bind_some, result_typeInsn, hvar, Option.elim_some]
  | read b pos path =>
      rw [register?_read_writeBack types _ _ g []]
      change ((Occurrence.read b pos path).register? g entry).map _ = _
      exact congrArg (Option.map · _) (funext fun r => usesChange_typed h)

section

variable (h : Hierarchy) (limit : Nat) (g : Graph) (entry : List Register) (entryTypes : List Ty) (returned : Ty)

/-- Every place has the variable of its definitions, with the type of the variable, and keeps its register. -/
theorem infer_labels (hlen : entryTypes.length = entry.length) (hholds : Holds (Chain.build g entry) d o) :
    let (g', t) := infer h limit g (Chain.build g entry) entryTypes returned
    t.var? g' o = some (Webs.varOf (Chain.build g entry) d) ∧
      t.type? g' o = t.types[Webs.varOf (Chain.build g entry) d]? ∧
      (o.register? g' entry).map (·.reg) = (o.register? g entry).map (·.reg) := by
  obtain ⟨hgraph, hsize, -, hvars⟩ := infer_spec h limit g (Chain.build g entry) entryTypes returned
  generalize infer h limit g (Chain.build g entry) entryTypes returned = result at hgraph hsize hvars
  obtain ⟨g', t⟩ := result
  dsimp only at hgraph hsize hvars ⊢
  have hlt : Webs.varOf (Chain.build g entry) d < t.types.size :=
    hsize ▸ Webs.varOf_lt (closed_build g entry) hholds.lt
  by_cases hentry : ∃ k, o = .entry k
  · obtain ⟨k, rfl⟩ := hentry
    obtain ⟨rfl, hk⟩ := hholds.entry_eq
    have hvar : t.entryVars[d]? = some (Webs.varOf (Chain.build g entry) d) := by
      rw [hvars, List.getElem?_take_of_lt (hlen ▸ hk), Array.getElem?_toList,
        Webs.getElem?_defVar (closed_build g entry) hholds.lt]
    exact ⟨hvar, by rw [type?, hvar, Option.bind_some], rfl⟩
  · obtain ⟨r, hr⟩ := hholds.exists_register
    have hregister := register?_writeBack t.types hholds fun k he => hentry ⟨k, he⟩
    rw [← hgraph, hr, Option.map_some] at hregister
    cases o with
    | entry k => exact absurd ⟨k, rfl⟩ hentry
    | result b pos | read b pos path =>
        refine ⟨?_, ?_, ?_⟩
        · change (register? g' [] _).bind (·.var) = _
          rw [hregister, Option.bind_some, typeRegister]
        · change (register? g' [] _).map (·.type) = _
          rw [hregister, Option.map_some, typeRegister, Array.getElem?_eq_getElem hlt, Option.getD_some]
        · refine (congrArg (Option.map Register.reg) hregister).trans ?_
          rw [hr]
          rfl

/-- The variables that types are inferred for are exactly the chains of definitions and reads. Places have one variable
just when such a chain leads from one to the other. All places of a variable have its register and its type, and the
variables are numbered by their first definitions. What no definition reaches stays as it is. -/
theorem variables_exact (hlen : entryTypes.length = entry.length) :
    Variables g entry (infer h limit g (Chain.build g entry) entryTypes returned).1
      (infer h limit g (Chain.build g entry) entryTypes returned).2 := by
  obtain ⟨hgraph, hsize, hregs, -⟩ := infer_spec h limit g (Chain.build g entry) entryTypes returned
  have hlabels {o : Occurrence} {d : Nat} (hholds : Holds (Chain.build g entry) d o) :=
    infer_labels h limit g entry entryTypes returned hlen hholds
  generalize infer h limit g (Chain.build g entry) entryTypes returned = result at hgraph hsize hregs hlabels
  obtain ⟨g', t⟩ := result
  dsimp only at hgraph hsize hregs hlabels ⊢
  have hclosed := closed_build g entry
  have hcount : t.regs.size = (Webs.of (Chain.build g entry)).size := by rw [hregs]; rfl
  refine ⟨hsize.trans hcount.symm, fun o ho => ?_, fun o o' ho ho' => ?_, ?_, fun b pos path r hnot hr => ?_⟩
  · obtain ⟨d, hd, hholds⟩ := exists_holds ho
    obtain ⟨hvar, htype, hreg⟩ := hlabels hholds
    have hlt := Webs.varOf_lt hclosed hd
    have hfirst := (Webs.isLeast_first hclosed hlt).1
    have hshares := (Webs.varOf_eq_iff hclosed hfirst.1 hd).mp hfirst.2
    have hown : (o.register? g entry).map (·.reg) = t.regs[Webs.varOf (Chain.build g entry) d]? := by
      rw [hholds.reg_eq, hregs, Webs.getElem?_varRegs hclosed hlt, reg_eq_of_shares hshares]
    exact ⟨_, hcount ▸ hlt, hvar, htype, hown, hreg.trans hown⟩
  · obtain ⟨d, hd, hholds⟩ := exists_holds ho
    obtain ⟨e, he, hholds'⟩ := exists_holds ho'
    rw [(hlabels hholds).1, (hlabels hholds').1, Option.some.injEq, Webs.varOf_eq_iff hclosed hd he,
      eqvGen_iff hholds hholds']
  · refine ⟨Webs.first (Chain.build g entry), fun v w hvw hw => Webs.first_lt_first (hcount ▸ hw) hvw, fun v hv => ?_⟩
    obtain ⟨⟨hlt, hvar⟩, hleast⟩ := Webs.isLeast_first hclosed (hcount ▸ hv)
    refine ⟨?_, fun d hd => ?_⟩
    · have hholds := holds_ofNumber hlt
      refine ⟨_, hholds.occurs, (ofNumber_spec (Array.getElem?_eq_getElem hlt)).2, ?_⟩
      rw [(hlabels hholds).1, hvar]
    · obtain ⟨o, ho, hnumber, hvar⟩ := hd
      obtain ⟨e, he, hholds⟩ := exists_holds ho
      obtain rfl := hholds.number_eq hnumber
      rw [(hlabels hholds).1] at hvar
      exact hleast ⟨he, Option.some.inj hvar⟩
  · rw [hgraph, register?_read_writeBack, hr, Option.map_some, usesChange_untouched hnot]

end

/-- The sum starts as the constant and goes on as itself, so both have one variable, and the parameter has another. -/
theorem variables_exact_sumUntil :
    let (g', t) := infer ⟨[]⟩ 10 Chain.sumUntil (Chain.build Chain.sumUntil [.plain 0]) [.int] .int
    [Ty.int].length = [Register.plain 0].length ∧ Variables Chain.sumUntil [.plain 0] g' t ∧
      t.var? g' (.result 0 0) = t.var? g' (.result 1 0) ∧ t.var? g' (.entry 0) ≠ t.var? g' (.result 1 0) := by
  have h := variables_exact ⟨[]⟩ 10 Chain.sumUntil [.plain 0] [.int] .int rfl
  refine ⟨rfl, h, (h.same_iff _ _ (.inl rfl) (.inl rfl)).mpr ?_, by decide +kernel⟩
  have hconst : Reaches Chain.sumUntil [.plain 0] (.result 0 0) (.read 1 0 [.arg 0]) :=
    .intro rfl rfl rfl (.edge (b := 0) (.made rfl) (by decide))
  have hsum : Reaches Chain.sumUntil [.plain 0] (.result 1 0) (.read 1 0 [.arg 0]) :=
    .intro rfl rfl rfl (.edge (b := 1) (.next (.made rfl) rfl (by rintro ⟨r, hr, -⟩; cases hr)) (by decide))
  exact (EqvGen.rel _ _ hconst).trans _ _ _ ((EqvGen.rel _ _ hsum).symm _ _)

end Typing

end JavaLift
