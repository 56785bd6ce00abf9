import JavaLift.Proofs.Flow.Addresses
import JavaLift.Proofs.Source.Labelling
import JavaLift.Proofs.Source.Referents

namespace JavaLift.Source

open Region

/-- The items with each label only where it is met first, other than those met before. -/
def firstLabels (met : List Nat) : List Item → List Item
  | [] => []
  | .label b name :: rest => if met.contains b then firstLabels met rest else .label b name :: firstLabels (b :: met) rest
  | x :: rest => x :: firstLabels met rest

namespace Item

def labelled? : Item → Option Nat
  | .label b _ => some b
  | _ => none

def defines? : Item → Option String
  | .label _ name => some name
  | x => x.labelUse?.bind LabelUse.begun?

def jumpsTo? (x : Item) : Option String := x.labelUse?.bind LabelUse.target?

end Item

theorem firstLabels_of_none {met : List Nat} {x : Item} {rest : List Item} (h : x.labelled? = none) :
    firstLabels met (x :: rest) = x :: firstLabels met rest := by
  cases x <;> first | rfl | cases h

namespace Draft

variable {m : Lifted} {style : Style} {ds : List (Nat × Declaration)}

theorem labels_events (d : Draft) (es : List Event) : (es.foldl (event m) d).labels = d.labels := by
  induction es generalizing d with
  | nil => rfl
  | cons e es ih =>
      rw [List.foldl_cons, ih]
      cases e with
      | read r =>
          unfold event
          dsimp only
          cases r.var with
          | some v => rfl
          | none =>
              rw [remark]
              split_ifs <;> rfl
      | remark r =>
          rw [event, remark]
          split_ifs <;> rfl

theorem labels_assign (d : Draft) (head : Head) (result : Register) (value : Phrase) :
    (d.assign m style ds head result value).labels = d.labels := by
  have hassigned : (d.assigned m result value).labels = d.labels := by
    rw [← labels_events d value.events, assigned]
    cases result.var <;> rfl
  rw [assign_eq, ← hassigned]
  split
  · rfl
  · split_ifs <;> rfl

theorem labels_item (d : Draft) {x : Item} (hx : x.labelled? = none) : (d.item m style ds x).labels = d.labels := by
  cases x with
  | line s | indent | dedent | closeScope => rfl
  | label b name => cases hx
  | marked c => exact labels_events d _
  | assign head result value => exact labels_assign d _ _ _
  | handler offset type c => cases c <;> rfl
  | openScope id =>
      unfold item openScope
      dsimp only
      generalize ds.filter _ = opened
      induction opened generalizing d with
      | nil => rfl
      | cons x opened ih => exact ih _

variable (m style ds) in
theorem written_firstLabels (d : Draft) (items : List Item) :
    partsAlong (itemParts m style ds) (item m style ds) d (firstLabels d.labels items) =
        partsAlong (itemParts m style ds) (item m style ds) d items ∧
      (firstLabels d.labels items).foldl (item m style ds) d = items.foldl (item m style ds) d := by
  induction items generalizing d with
  | nil => exact ⟨rfl, rfl⟩
  | cons x rest ih =>
      cases hx : x.labelled? with
      | none =>
          obtain ⟨hparts, hlast⟩ := ih (d.item m style ds x)
          rw [labels_item d hx] at hparts hlast
          rw [firstLabels_of_none hx]
          exact ⟨congrArg (d.itemParts m style ds x ++ ·) hparts, hlast⟩
      | some b =>
          cases x with
          | label c name =>
              rw [firstLabels]
              by_cases hmet : d.labels.contains c = true
              · have hsame : d.item m style ds (.label c name) = d := if_pos hmet
                have hnothing : d.itemParts m style ds (.label c name) = [] := if_pos hmet
                rw [if_pos hmet, partsAlong, List.foldl_cons, hsame, hnothing]
                exact ih d
              · have hmore : (d.item m style ds (.label c name)).labels = c :: d.labels := by
                  rw [item, label, if_neg hmet]
                obtain ⟨hparts, hlast⟩ := ih (d.item m style ds (.label c name))
                rw [hmore] at hparts hlast
                rw [if_neg hmet]
                exact ⟨congrArg (d.itemParts m style ds (.label c name) ++ ·) hparts, hlast⟩
          | _ => cases hx

end Draft

section

variable {met : List Nat} {items : List Item} {b : Nat} {name : String}

def labelledIn (items : List Item) : List Nat := items.filterMap Item.labelled?

theorem labelUses_firstLabels (met : List Nat) (items : List Item) :
    (firstLabels met items).filterMap Item.labelUse? = items.filterMap Item.labelUse? := by
  fun_induction firstLabels met items with
  | case1 => rfl
  | case2 met b name rest hmet ih => exact ih
  | case3 met b name rest hmet ih => exact ih
  | case4 met x rest hx ih => rw [List.filterMap_cons, List.filterMap_cons, ih]

theorem firstLabels_subset (met : List Nat) (items : List Item) : firstLabels met items ⊆ items := by
  fun_induction firstLabels met items with
  | case1 => exact List.Subset.refl _
  | case2 met b name rest hmet ih => exact List.subset_cons_of_subset _ ih
  | case3 met b name rest hmet ih => exact List.cons_subset_cons _ ih
  | case4 met x rest hx ih => exact List.cons_subset_cons _ ih

theorem labelledIn_firstLabels (met : List Nat) (items : List Item) :
    (labelledIn (firstLabels met items)).Nodup ∧
      ∀ b, b ∈ labelledIn (firstLabels met items) ↔ b ∈ labelledIn items ∧ b ∉ met := by
  fun_induction firstLabels met items with
  | case1 => exact ⟨.nil, by simp [labelledIn]⟩
  | case2 met b name rest hmet ih =>
      refine ⟨ih.1, fun c => ?_⟩
      have hsplit : labelledIn (.label b name :: rest) = b :: labelledIn rest := rfl
      rw [ih.2, hsplit, List.mem_cons]
      have hb : b ∈ met := by simpa using hmet
      constructor
      · exact And.imp_left .inr
      · rintro ⟨rfl | hc, hnot⟩
        · exact absurd hb hnot
        · exact ⟨hc, hnot⟩
  | case3 met b name rest hmet ih =>
      have hsplit (items : List Item) : labelledIn (.label b name :: items) = b :: labelledIn items := rfl
      have hb : b ∉ met := by simpa using hmet
      refine ⟨?_, fun c => ?_⟩
      · rw [hsplit, List.nodup_cons, ih.2]
        exact ⟨fun h => h.2 List.mem_cons_self, ih.1⟩
      · rw [hsplit, hsplit, List.mem_cons, List.mem_cons, ih.2, List.mem_cons, not_or]
        by_cases hc : c = b
        · simp [hc, hb]
        · simp [hc]
  | case4 met x rest hx ih =>
      have hnone : x.labelled? = none := by
        cases x with
        | label b name => exact absurd rfl (hx b name)
        | _ => rfl
      have hsplit (items : List Item) : labelledIn (x :: items) = labelledIn items := by
        rw [labelledIn, List.filterMap_cons_none hnone]
        rfl
      rw [hsplit, hsplit]
      exact ih

end

namespace Lifted

variable (m : Lifted)

def lines : List Item := firstLabels [] m.writtenItems

/-- The labels that the text defines, each as often as it does. -/
def definedLabels : List String := m.lines.filterMap Item.defines?

def namedLabels : List String := m.lines.filterMap Item.jumpsTo?

/-- Every label that a jump names is defined exactly once. -/
def JumpsLabelled : Prop := ∀ name ∈ m.namedLabels, m.definedLabels.count name = 1

instance : Decidable m.JumpsLabelled := inferInstanceAs (Decidable (∀ name ∈ m.namedLabels, _))

def partsOf (style : Style) (items : List Item) : List Part :=
  m.headParts style ++ .text " \x7b" :: partsAlong (Draft.itemParts m style m.survey.declarations)
    (Draft.item m style m.survey.declarations) (m.firstDraft style) items
    ++ [.text (lead (items.foldl (Draft.item m style m.survey.declarations) (m.firstDraft style)).writer.shallower
      ++ "\x7d")]

theorem spellParts_lines (style : Style) : spellParts (m.partsOf style m.lines) = (m.render style).1.code := by
  have hparts : m.partsOf style m.lines = m.partsOf style m.writtenItems := by
    obtain ⟨hparts, hlast⟩ :=
      Draft.written_firstLabels m style m.survey.declarations (m.firstDraft style) m.writtenItems
    unfold partsOf lines
    rw [show (m.firstDraft style).labels = [] from rfl] at hparts hlast
    rw [hparts, hlast]
  rw [hparts]
  exact m.spellParts_parts style

/-- The jumps of the tree name loops that stand there once and blocks of the graph, and the blocks of the graph are known
by their offsets. -/
structure Founded (m : Lifted) : Prop where
  apart : m.graph.Apart
  stands_lt : ∀ b, m.tree.root.Stands b → b < m.graph.size
  headers : (headersOf m.tree.root.marks).Nodup
  loop_of_leaves : ∀ h, .leaves h ∈ m.tree.root.marks → h ∈ m.tree.loopLabels ∧ .loop h ∈ m.tree.root.marks
  leaves_of_label : ∀ h ∈ m.tree.loopLabels, .leaves h ∈ m.tree.root.marks
  goes : ∀ b, .goes b ∈ m.tree.root.marks → b ∈ m.tree.labels ∧ b < m.graph.size
  raw : ∀ b, .raw b ∈ m.tree.root.marks → ∀ h, .loop h ∉ m.tree.root.marks

/-- Each block that a jump names is in the tree and needs a label, and no loop at such a block has one too. -/
structure LabelsStand (m : Lifted) : Prop where
  goto : ∀ t, .goto t ∈ m.tree.root.nodes → m.tree.root.Stands t
  raw : ∀ b, .raw b ∈ m.tree.root.nodes → ∀ t ∈ m.targetsIn b,
    ∃ n ∈ m.tree.labels, m.tree.root.Stands n ∧ (m.graph.block n).start = t
  apart : ∀ b ∈ m.tree.labels, b ∉ m.tree.loopLabels

def labelledHeaders : List Nat := (headersOf m.tree.root.marks).filter m.tree.loopLabels.contains

variable {m} {b c : Nat} {name : String}

theorem mem_labelledHeaders : b ∈ m.labelledHeaders ↔ .loop b ∈ m.tree.root.marks ∧ b ∈ m.tree.loopLabels := by
  rw [labelledHeaders, List.mem_filter, Naming.mem_headersOf]
  rfl

theorem mem_labelledIn_lines : b ∈ labelledIn m.lines ↔ b ∈ m.tree.labels ∧ m.tree.root.Stands b := by
  have hshows := m.shows_items (hasDeclarations m.survey.declarations)
  have hmem : b ∈ labelledIn m.writtenItems ↔ ∃ name, .label b name ∈ m.writtenItems := by
    constructor
    · intro h
      obtain ⟨x, hx, hb⟩ := List.mem_filterMap.mp h
      cases x with
      | label c name =>
          cases hb
          exact ⟨name, hx⟩
      | _ => cases hb
    · rintro ⟨name, hx⟩
      exact List.mem_filterMap.mpr ⟨_, hx, rfl⟩
  rw [lines, (labelledIn_firstLabels [] m.writtenItems).2, hmem]
  have hstands : m.tree.root.Stands b ↔ b ∈ m.tree.root.nodes.filterMap own? := List.mem_filterMap.symm
  rw [hstands]
  constructor
  · rintro ⟨⟨name, hx⟩, -⟩
    obtain ⟨hlabel, hown, -⟩ := (hshows.labels b name).mp hx
    exact ⟨hlabel, hown⟩
  · rintro ⟨hlabel, hown⟩
    exact ⟨⟨m.labelOf b, (hshows.labels b _).mpr ⟨hlabel, hown, rfl⟩⟩, List.not_mem_nil⟩

theorem labelUses_lines : (m.lines.filterMap Item.labelUse?).Perm (m.tree.root.marks.flatMap m.usesOf) := by
  rw [lines, labelUses_firstLabels]
  exact (m.shows_items _).uses

theorem defines_perm {f : Nat → String} {items : List Item} (h : ∀ b name, .label b name ∈ items → name = f b) :
    (items.filterMap Item.defines?).Perm
      ((labelledIn items).map f ++ (items.filterMap Item.labelUse?).filterMap LabelUse.begun?) := by
  induction items with
  | nil => exact .refl _
  | cons x rest ih =>
      have hrest := ih fun b name hx => h b name (List.mem_cons_of_mem _ hx)
      cases hx : x.labelled? with
      | some b =>
          cases x with
          | label c name =>
              obtain rfl := h c name List.mem_cons_self
              exact hrest.cons _
          | _ => cases hx
      | none =>
          have hdefines : x.defines? = x.labelUse?.bind LabelUse.begun? := by cases x <;> first | rfl | cases hx
          rw [labelledIn, List.filterMap_cons_none hx, List.filterMap_cons, List.filterMap_cons, hdefines]
          cases x.labelUse? with
          | none => exact hrest
          | some u =>
              cases u with
              | jumps name => exact hrest
              | begins name => exact (hrest.cons name).trans List.perm_middle.symm

/-- The text defines the labels of the blocks that stand there and those of the loops that begin with one. -/
theorem definedLabels_perm :
    m.definedLabels.Perm ((labelledIn m.lines).map m.labelOf ++ m.labelledHeaders.map m.labelOf) := by
  have hnames (b : Nat) (name : String) (hx : .label b name ∈ m.lines) : name = m.labelOf b :=
    (((m.shows_items _).labels b name).mp (firstLabels_subset _ _ hx)).2.2
  have hbegun (ms : List Landmark) : (ms.flatMap m.usesOf).filterMap LabelUse.begun? =
      ((headersOf ms).filter m.tree.loopLabels.contains).map m.labelOf := by
    induction ms with
    | nil => rfl
    | cons k ms ih =>
        rw [List.flatMap_cons, List.filterMap_append, ih]
        cases k with
        | loop header =>
            have hcons : headersOf (.loop header :: ms) = header :: headersOf ms := rfl
            rw [hcons, usesOf]
            by_cases hlabel : m.tree.loopLabels.contains header = true
            · rw [if_pos hlabel, List.filter_cons_of_pos hlabel]
              rfl
            · rw [if_neg hlabel, List.filter_cons_of_neg hlabel]
              rfl
        | leaves header | goes target => rfl
        | raw b =>
            have hnone : (m.usesOf (.raw b)).filterMap LabelUse.begun? = [] := by
              refine List.filterMap_eq_nil_iff.mpr fun u hu => ?_
              obtain ⟨t, -, rfl⟩ := List.mem_map.mp hu
              rfl
            rw [hnone]
            rfl
  refine (defines_perm hnames).trans (List.Perm.append_left _ ?_)
  rw [labelledHeaders, ← hbegun]
  exact labelUses_lines.filterMap _

theorem mem_namedLabels : name ∈ m.namedLabels ↔ ∃ k ∈ m.tree.root.marks, .jumps name ∈ m.usesOf k := by
  have hmem : name ∈ m.namedLabels ↔ .jumps name ∈ m.lines.filterMap Item.labelUse? := by
    rw [namedLabels, List.mem_filterMap, List.mem_filterMap]
    refine exists_congr fun x => and_congr_right fun _ => ?_
    rw [Item.jumpsTo?]
    cases x.labelUse? with
    | none => simp
    | some u => cases u <;> simp [LabelUse.target?]
  rw [hmem, labelUses_lines.mem_iff, List.mem_flatMap]

namespace Founded

variable (h : m.Founded)
include h

theorem labelOf_inj (hb : m.tree.root.Stands b) (hc : c < m.graph.size) (hname : m.labelOf b = m.labelOf c) : b = c :=
  h.apart b (h.stands_lt b hb) c hc (labelName_injective hname)

/-- The label of a block is among those of some standing blocks once, if the block is one of them. -/
theorem count_labelOf {bs : List Nat} (hnodup : bs.Nodup) (hbs : ∀ b ∈ bs, m.tree.root.Stands b) (hc : c < m.graph.size) :
    (bs.map m.labelOf).count (m.labelOf c) = if c ∈ bs then 1 else 0 := by
  have hmapped : (bs.map m.labelOf).Nodup := by
    refine (List.nodup_map_iff_inj_on hnodup).mpr fun b hb b' hb' hname => ?_
    exact h.labelOf_inj (hbs b hb) (h.stands_lt b' (hbs b' hb')) hname
  have hmem : m.labelOf c ∈ bs.map m.labelOf ↔ c ∈ bs := by
    refine ⟨fun hname => ?_, List.mem_map_of_mem⟩
    obtain ⟨b, hb, hname⟩ := List.mem_map.mp hname
    exact h.labelOf_inj (hbs b hb) hc hname ▸ hb
  rw [hmapped.count]
  exact if_congr hmem rfl rfl

theorem count_definedLabels (hc : c < m.graph.size) : m.definedLabels.count (m.labelOf c) =
    (if c ∈ labelledIn m.lines then 1 else 0) + if c ∈ m.labelledHeaders then 1 else 0 := by
  have hlines : (labelledIn m.lines).Nodup := (labelledIn_firstLabels [] m.writtenItems).1
  have hheaders : m.labelledHeaders.Nodup := h.headers.filter _
  rw [definedLabels_perm.count_eq, List.count_append,
    h.count_labelOf hlines (fun b hb => (mem_labelledIn_lines.mp hb).2) hc,
    h.count_labelOf hheaders (fun b hb => stands_of_loop (mem_labelledHeaders.mp hb).1) hc]

/-- Where every label that a jump names is defined once, so is that of each block that a jump names. -/
theorem labelsStand (hall : m.JumpsLabelled) : m.LabelsStand where
  goto t ht := by
    have hgoes := goes_mem_marks.mpr ht
    have hcount := hall _ (mem_namedLabels.mpr ⟨_, hgoes, List.mem_singleton_self _⟩)
    rw [h.count_definedLabels (h.goes t hgoes).2] at hcount
    by_contra hout
    have hlabelled : t ∉ labelledIn m.lines := fun hmem => hout (mem_labelledIn_lines.mp hmem).2
    have hheader : t ∉ m.labelledHeaders := fun hmem => hout (stands_of_loop (mem_labelledHeaders.mp hmem).1)
    rw [if_neg hlabelled, if_neg hheader] at hcount
    cases hcount
  raw b hb t ht := by
    have hraw := raw_mem_marks.mpr hb
    have hcount := hall _ (mem_namedLabels.mpr ⟨_, hraw, List.mem_map_of_mem ht⟩)
    have hdefined : labelName t ∈ m.definedLabels := List.count_pos_iff.mp (hcount ▸ Nat.one_pos)
    rcases List.mem_append.mp (definedLabels_perm.mem_iff.mp hdefined) with hname | hname
    · obtain ⟨n, hn, hname⟩ := List.mem_map.mp hname
      obtain ⟨hlabel, hstands⟩ := mem_labelledIn_lines.mp hn
      exact ⟨n, hlabel, hstands, labelName_injective hname⟩
    · -- Next to blocks whose jumps are written out there are no loops.
      obtain ⟨n, hn, -⟩ := List.mem_map.mp hname
      exact absurd (mem_labelledHeaders.mp hn).1 (h.raw b hraw n)
  apart b hb hloop := by
    have hleaves := h.leaves_of_label b hloop
    have hmark := (h.loop_of_leaves b hleaves).2
    have hstands := stands_of_loop hmark
    have hcount := hall _ (mem_namedLabels.mpr ⟨_, hleaves, List.mem_singleton_self _⟩)
    rw [h.count_definedLabels (h.stands_lt b hstands), if_pos (mem_labelledIn_lines.mpr ⟨hb, hstands⟩),
      if_pos (mem_labelledHeaders.mpr ⟨hmark, hloop⟩)] at hcount
    cases hcount

/-- The label of a block that stands is defined there only, where no loop has it too. -/
theorem count_of_block (hall : m.LabelsStand) (hb : b ∈ m.tree.labels) (hstands : m.tree.root.Stands b) :
    m.definedLabels.count (m.labelOf b) = 1 := by
  rw [h.count_definedLabels (h.stands_lt b hstands), if_pos (mem_labelledIn_lines.mpr ⟨hb, hstands⟩),
    if_neg fun hmem => hall.apart b hb (mem_labelledHeaders.mp hmem).2]

/-- The label of a loop is defined at its head only, where its block needs none. -/
theorem count_of_loop (hall : m.LabelsStand) (hb : b ∈ m.tree.loopLabels) (hmark : .loop b ∈ m.tree.root.marks) :
    m.definedLabels.count (m.labelOf b) = 1 := by
  rw [h.count_definedLabels (h.stands_lt b (stands_of_loop hmark)),
    if_neg fun hmem => hall.apart b (mem_labelledIn_lines.mp hmem).1 hb, if_pos (mem_labelledHeaders.mpr ⟨hmark, hb⟩)]

theorem jumpsLabelled (hall : m.LabelsStand) : m.JumpsLabelled := by
  intro name hname
  obtain ⟨k, hk, hname⟩ := mem_namedLabels.mp hname
  cases k with
  | loop header =>
      rw [usesOf] at hname
      split_ifs at hname
      · cases List.mem_singleton.mp hname
      · cases hname
  | leaves header =>
      cases List.mem_singleton.mp hname
      obtain ⟨hlabel, hmark⟩ := h.loop_of_leaves header hk
      exact h.count_of_loop hall hlabel hmark
  | goes target =>
      cases List.mem_singleton.mp hname
      exact h.count_of_block hall (h.goes target hk).1 (hall.goto target (goes_mem_marks.mp hk))
  | raw b =>
      obtain ⟨t, ht, hname⟩ := List.mem_map.mp hname
      cases hname
      obtain ⟨n, hn, hstands, rfl⟩ := hall.raw b (raw_mem_marks.mp hk) t ht
      exact h.count_of_block hall hn hstands

/-- Every label that a jump names is defined exactly once, exactly if each block that a jump names has its label and no
loop has the same one. -/
theorem jumpsLabelled_iff : m.JumpsLabelled ↔ m.LabelsStand := ⟨h.labelsStand, h.jumpsLabelled⟩

end Founded

end Lifted

end JavaLift.Source
