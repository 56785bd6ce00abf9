import JavaLift.Proofs.Decompile.Shaping
import JavaLift.Proofs.Source.Labels

namespace JavaLift

open Region Source

namespace Shaped

variable {o : Options} {entry : List Register} {g : Graph} {n : Nat} {shaped : Shaped}

def lifted (s : Signature) (g : Graph) (shaped : Shaped) (typing : Typing) : Lifted :=
  .of s shaped.graph { Structured.of g with root := shaped.root } typing

/-- Shaping keeps what the jumps of a tree name. -/
theorem lifted_founded (s : Signature) (typing : Typing) (hapart : g.Apart) (hg : g.Ranged (Dominance.of g))
    (h : of o entry g (Structured.of g).root n = .ok shaped) : (shaped.lifted s g typing).Founded := by
  have hkeeps := of_keeps h
  have hnamed := Structured.named_of hg
  have hmarks : shaped.root.marks = (Structured.of g).root.marks := hkeeps.sheds.marks_eq
  have hsize : shaped.graph.size = g.size := hkeeps.aligned.size
  refine ⟨hkeeps.aligned.apart hapart, fun b hb => ?_, ?_, ?_, ?_, ?_, fun b hb x hx => ?_⟩
  · exact hsize ▸ (hnamed.stands b).mp (hkeeps.sheds.stands hb)
  · exact hmarks ▸ hnamed.headers
  · exact hmarks ▸ hnamed.loop_of_leaves
  · exact hmarks ▸ hnamed.leaves_of_label
  · exact hmarks ▸ hsize ▸ hnamed.goes
  · change _ ∈ shaped.root.marks at hb hx
    rw [hmarks] at hb hx
    obtain ⟨bs, hroot⟩ := hnamed.plain b hb
    rw [hroot, marks_seq, marksOf_raw] at hx
    obtain ⟨_, -, hx⟩ := List.mem_map.mp hx
    cases hx

/-- Where all jumps are written out, the blocks at their targets have labels. -/
theorem exists_labelled_of_raw (s : Signature) (typing : Typing) (haddressed : g.Addressed)
    (hg : g.Ranged (Dominance.of g)) (h : of o entry g (Structured.of g).root n = .ok shaped) {b : Nat}
    (hb : .raw b ∈ shaped.root.nodes) : ∀ t ∈ (shaped.lifted s g typing).targetsIn b,
      ∃ c ∈ (Structured.of g).labels, shaped.root.Stands c ∧ (shaped.graph.block c).start = t := by
  have hkeeps := of_keeps h
  have hnamed := Structured.named_of hg
  have hmark : .raw b ∈ (Structured.of g).root.marks := by
    rw [← hkeeps.sheds.marks_eq]
    exact raw_mem_marks.mpr hb
  obtain ⟨bs, hplain⟩ := hnamed.plain b hmark
  obtain ⟨hroot, hreworked⟩ := hkeeps.raw bs hplain
  intro t ht
  obtain ⟨i, hi, ht⟩ := List.mem_flatMap.mp ht
  obtain ⟨c, hc, hstart⟩ := hreworked.addressed haddressed b i hi t (mem_targets_of_written ht)
  have hexit : c ∈ g.exits b := List.mem_append_left _ (hreworked.succs b ▸ hc)
  refine ⟨c, hnamed.raw b hmark c hexit, ?_, hstart⟩
  exact hroot ▸ (hnamed.stands c).mpr (hg.exits_lt b c hexit)

/-- If no conditional value has been folded, the blocks that the tree jumps to are in the tree. -/
theorem stands_of_goto (hg : g.Ranged (Dominance.of g)) (h : of o entry g (Structured.of g).root n = .ok shaped)
    (hnone : shaped.ternaries = 0) {t : Nat} (ht : .goto t ∈ shaped.root.nodes) : shaped.root.Stands t := by
  have hnamed := Structured.named_of hg
  have hmark := goes_mem_marks.mpr ht
  rw [(of_keeps h).sheds.marks_eq] at hmark
  exact (stands_iff h hnone).mpr ((hnamed.stands t).mpr (hnamed.goes t hmark).2)

end Shaped

namespace Decompiler

def lifted (c : Decompiler) (s : Signature) (body : MethodBody) : Except Inconsistency Lifted := do
  let entry := body.entryRegisters s.className
  let (g, constructors) ← c.graphOf body entry
  let (g, typing) := Typing.infer c.hierarchy c.options.maxTypeIterations g (Chain.build g entry)
    (entry.map (·.type)) s.ret
  let shaped ← Shaped.of c.options entry g (Structured.of g).root constructors
  return shaped.lifted s g typing

variable {c : Decompiler} {s : Signature} {body : MethodBody}

theorem graphOf_eq_ok {entry : List Register} {g : Graph} {n : Nat} (h : c.graphOf body entry = .ok (g, n)) :
    ∃ built, Graph.build body.insns body.tries body.length = .ok built ∧ built.Reworked g ∧ g.entry = built.entry ∧
      g.tries = built.tries := by
  obtain ⟨built, hbuilt, h⟩ := bind_eq_ok.mp h
  refine ⟨built, hbuilt, ?_⟩
  split at h
  · have hreworked := Construction.foldAll_reworked built (Chain.build built entry)
    cases h
    exact ⟨hreworked, rfl, rfl⟩
  · cases h
    exact ⟨.refl _, rfl, rfl⟩

theorem renderBody_eq_ok {depth : Nat} {r : MethodResult} (h : c.renderBody s depth body = .ok r) :
    ∃ built g typing n shaped, Graph.build body.insns body.tries body.length = .ok built ∧ built.Reworked g ∧
      g.Ranged (Dominance.of g) ∧
      Shaped.of c.options (body.entryRegisters s.className) g (Structured.of g).root n = .ok shaped ∧
      c.lifted s body = .ok (shaped.lifted s g typing) ∧
      r.text = ((shaped.lifted s g typing).render (c.options.style depth)).1 ∧ r.stats.ternaries = shaped.ternaries := by
  obtain ⟨⟨g, n⟩, hg, h⟩ := bind_eq_ok.mp h
  obtain ⟨shaped, hshaped, h⟩ := bind_eq_ok.mp h
  obtain ⟨built, hbuilt, hreworked, hentry, htries⟩ := graphOf_eq_ok hg
  cases h
  have hall := hreworked.trans (Typing.infer_reworked c.hierarchy c.options.maxTypeIterations g
    (Chain.build g (body.entryRegisters s.className)) ((body.entryRegisters s.className).map (·.type)) s.ret)
  have hclosed := hall.closed hentry htries (Graph.build_closed hbuilt)
  exact ⟨built, _, _, n, shaped, hbuilt, hall, { hclosed with ipdom_lt := fun _ _ => Dominance.ipdomOf_lt }, hshaped,
    bind_eq_ok.mpr ⟨_, hg, bind_eq_ok.mpr ⟨_, hshaped, rfl⟩⟩, rfl, rfl⟩

/-- In the text of a method every label that a jump names is defined exactly once, exactly if each block that a jump names
is in the text, and none that needs a label is the header of a loop with a label. No such block is missing where all jumps
are written out from code whose offsets are in order, and elsewhere none unless a conditional value has been folded. -/
theorem jumpsLabelled_renderBody {depth : Nat} {r : MethodResult} (h : c.renderBody s depth body = .ok r) :
    ∃ m, c.lifted s body = .ok m ∧
      spellParts (m.partsOf (c.options.style depth) m.lines) = r.text.code ∧
      (m.JumpsLabelled ↔ m.LabelsStand) ∧
      (Graph.InOrder body.insns body.length → ∀ b, .raw b ∈ m.tree.root.nodes → ∀ t ∈ m.targetsIn b,
        ∃ n ∈ m.tree.labels, m.tree.root.Stands n ∧ (m.graph.block n).start = t) ∧
      (r.stats.ternaries = 0 → ∀ t, .goto t ∈ m.tree.root.nodes → m.tree.root.Stands t) := by
  obtain ⟨built, g, typing, n, shaped, hbuilt, hreworked, hg, hshaped, hlifted, htext, hternaries⟩ := renderBody_eq_ok h
  have hfounded : (shaped.lifted s g typing).Founded :=
    Shaped.lifted_founded s typing (hreworked.aligned.apart (Graph.build_apart hbuilt)) hg hshaped
  refine ⟨_, hlifted, ?_, hfounded.jumpsLabelled_iff, fun hin b hb => ?_, fun hnone t ht => ?_⟩
  · rw [htext]
    exact Lifted.spellParts_lines _ _
  · exact Shaped.exists_labelled_of_raw s typing (hreworked.addressed (Graph.build_addressed hin hbuilt)) hg hshaped hb
  · exact Shaped.stands_of_goto hg hshaped (hternaries.symm.trans hnone) ht

/-- A static method with an argument in register zero. -/
def ofInt (insns : List Insn) (tries : List TryRange) : MethodBody := ⟨insns, 1, none, [.typed 0 .int], tries, insns.length⟩

/-- A switch that goes on with the return behind it. -/
def leaving (start : Nat) : List Insn :=
  [.of (.switchOn [0] [start + 1] none) [.ofReg 0] none start, .of .ret [] none (start + 1)]

def skipZero (target : Nat) : Insn := .of (.jumpIf .eq target) [.ofReg 0, .lit 0 .int] none 0

/-- The switch is its own handler. -/
def retry : MethodBody := ofInt (leaving 0) [⟨0, 1, [⟨none, 0⟩]⟩]

def retryUnlessZero : MethodBody := ofInt (skipZero 2 :: leaving 1) [⟨1, 2, [⟨none, 1⟩]⟩]

/-- A comparison in a guarded range with one of its arms outside. -/
def armOutside : MethodBody :=
  ofInt [skipZero 2, .of .ret [.lit 1 .int] none 1, .of .ret [.lit 2 .int] none 2, .of .ret [.lit 3 .int] none 3]
    [⟨0, 2, [⟨none, 3⟩]⟩]

def plainDecompiler : Decompiler := ⟨⟨[]⟩, .default⟩

def intMethod (ret : Ty) : Signature := ⟨"a.B", "m", [.int], ret, ⟨8⟩⟩

/-- The handler of the switch jumps to it, and its label stands before the loop. -/
theorem jumpsLabelled_retry :
    ∃ r m, plainDecompiler.renderBody (intMethod .void) 0 retry = .ok r ∧
      plainDecompiler.lifted (intMethod .void) retry = .ok m ∧ "L_0x0000" ∈ m.namedLabels ∧ m.LabelsStand := by
  have hrendered : (plainDecompiler.renderBody (intMethod .void) 0 retry).toOption.any (fun _ => true) = true := by
    decide +kernel
  have hlifted : (plainDecompiler.lifted (intMethod .void) retry).toOption.any
      (fun m => decide ("L_0x0000" ∈ m.namedLabels ∧ m.JumpsLabelled)) = true := by decide +kernel
  obtain ⟨r, hr, -⟩ := exists_ok_of_any hrendered
  obtain ⟨m, hm, hjumps⟩ := exists_ok_of_any hlifted
  obtain ⟨hname, hjumps⟩ := of_decide_eq_true hjumps
  obtain ⟨m', hm', -, hiff, -⟩ := jumpsLabelled_renderBody hr
  cases hm.symm.trans hm'
  exact ⟨r, m, hr, hm, hname, hiff.mp hjumps⟩

/-- Where the switch also leaves the loop that begins there, its label stands before the loop and again at the head of the
loop. The arm outside of the range becomes part of a value inside, and its label is gone. -/
theorem not_jumpsLabelled :
    (∃ m, plainDecompiler.lifted (intMethod .void) retryUnlessZero = .ok m ∧ ¬ m.JumpsLabelled ∧
      "L_0x0001" ∈ m.namedLabels ∧ m.definedLabels = ["L_0x0001", "L_0x0001"]) ∧
    ∃ m, plainDecompiler.lifted (intMethod .int) armOutside = .ok m ∧ ¬ m.JumpsLabelled ∧
      "L_0x0002" ∈ m.namedLabels ∧ m.definedLabels = [] := by
  have htwice : (plainDecompiler.lifted (intMethod .void) retryUnlessZero).toOption.any (fun m => decide
      ("L_0x0001" ∈ m.namedLabels ∧ m.definedLabels = ["L_0x0001", "L_0x0001"])) = true := by decide +kernel
  have hnever : (plainDecompiler.lifted (intMethod .int) armOutside).toOption.any (fun m => decide
      ("L_0x0002" ∈ m.namedLabels ∧ m.definedLabels = [])) = true := by decide +kernel
  obtain ⟨m, hm, hlabels⟩ := exists_ok_of_any htwice
  obtain ⟨hname, hdefined⟩ := of_decide_eq_true hlabels
  obtain ⟨m', hm', hlabels⟩ := exists_ok_of_any hnever
  obtain ⟨hname', hdefined'⟩ := of_decide_eq_true hlabels
  refine ⟨⟨m, hm, fun h => ?_, hname, hdefined⟩, m', hm', fun h => ?_, hname', hdefined'⟩
  · have hcount := h _ hname
    rw [hdefined] at hcount
    cases hcount
  · have hcount := h _ hname'
    rw [hdefined'] at hcount
    cases hcount

end Decompiler

end JavaLift
