import JavaLift.Proofs.Code.Lookup
import JavaLift.Code.Writer

namespace JavaLift

namespace Writer

variable {w w' : Writer} {a : Mark} {ms : List (Option Mark)} {es : List MetadataEntry}

/-- What can be done with a writer. -/
inductive Action where
  | startLine | newline | deeper | shallower | close
  | add (text : String)
  | addLine (text : String)
  | addMarked (text : String) (a : Mark)
  | begin (a : Mark)
  | attachSource (source : Nat)

def act (w : Writer) : Action → Writer
  | .startLine => w.startLine
  | .newline => w.newline
  | .deeper => w.deeper
  | .shallower => w.shallower
  | .close => w.close
  | .add text => w.add text
  | .addLine text => w.addLine text
  | .addMarked text a => w.addMarked text a
  | .begin a => w.begin a
  | .attachSource source => w.attachSource source

/-- The marks that are open after an action, the innermost first. -/
def openAfter (opened : List Mark) : Action → List Mark
  | .begin a => a :: opened
  | .close => opened.tail
  | _ => opened

/-- The innermost open mark of each byte that an action writes. The indentation before marked text is outside the
mark. -/
def marksOf (opened : List Mark) (w : Writer) : Action → List (Option Mark)
  | .addMarked text a =>
    List.replicate ((w.ready text).pos - w.pos) opened.head? ++ List.replicate text.utf8ByteSize (some a)
  | action => List.replicate ((w.act action).pos - w.pos) opened.head?

/-- The innermost open mark of each byte that a run of actions writes. -/
def ledger (opened : List Mark) (w : Writer) : List Action → List (Option Mark)
  | [] => []
  | action :: rest => marksOf opened w action ++ ledger (openAfter opened action) (w.act action) rest

def Shows (es : List MetadataEntry) (p : Nat) (a : Mark) : Prop := ∃ e ∈ es, e.Covers p ∧ e.mark = a

/-- The ranges record the marks of the bytes up to a position. -/
structure Recorded (es : List MetadataEntry) (ms : List (Option Mark)) (upTo : Nat) : Prop where
  apart : Apart es
  inside : ∀ e ∈ es, e.stop ≤ upTo
  shows : ∀ p < upTo, ∀ a, ms[p]? = some (some a) ↔ Shows es p a

/-- A writer whose text has the given marks, of which the last ones are still to be recorded. -/
structure Keeps (w : Writer) (ms : List (Option Mark)) : Prop where
  length : ms.length = w.pos
  le : w.recorded ≤ w.pos
  recorded : Recorded w.metadata.entries.toList ms w.recorded
  pending : ∀ p, w.recorded ≤ p → p < w.pos → ms[p]? = some w.opened.head?

theorem keeps_start (indent depth : Nat) : Keeps (start indent depth) [] where
  length := rfl
  le := le_rfl
  recorded := ⟨⟨.nil, nofun⟩, nofun, nofun⟩
  pending := nofun

/-- Text has been added and nothing else that counts for the marks has changed. -/
structure Extends (w w' : Writer) : Prop where
  opened : w'.opened = w.opened
  recorded : w'.recorded = w.recorded
  entries : w'.metadata.entries = w.metadata.entries
  pos : w.pos ≤ w'.pos

theorem Extends.refl (w : Writer) : Extends w w := ⟨rfl, rfl, rfl, le_rfl⟩

theorem Extends.trans {u v : Writer} (h : Extends u v) (h' : Extends v w) : Extends u w :=
  ⟨h'.opened.trans h.opened, h'.recorded.trans h.recorded, h'.entries.trans h.entries, h.pos.trans h'.pos⟩

@[simp] theorem pos_push (w : Writer) (text : String) : (w.push text).pos = w.pos + text.utf8ByteSize :=
  String.utf8ByteSize_append

theorem extends_push (w : Writer) (text : String) : Extends w (w.push text) :=
  ⟨rfl, rfl, rfl, by rw [pos_push]; exact Nat.le_add_right _ _⟩

theorem extends_newline (w : Writer) : Extends w w.newline := by
  have h := extends_push w "\n"
  exact ⟨h.opened, h.recorded, h.entries, h.pos⟩

theorem extends_startLine (w : Writer) : Extends w w.startLine := by
  have hpush (u : Writer) (text : String) : Extends u { u.push text with fresh := false } := by
    have h := extends_push u text
    exact ⟨h.opened, h.recorded, h.entries, h.pos⟩
  unfold startLine
  by_cases hfresh : w.fresh
  · rw [if_pos hfresh]
    exact hpush _ _
  · rw [if_neg hfresh]
    exact (extends_newline w).trans (hpush _ _)

theorem extends_ready (w : Writer) (text : String) : Extends w (w.ready text) := by
  unfold ready
  split
  · exact extends_startLine w
  · exact .refl w

theorem extends_add (w : Writer) (text : String) : Extends w (w.add text) :=
  (extends_ready w text).trans (extends_push _ _)

theorem extends_addLine (w : Writer) (text : String) : Extends w (w.addLine text) :=
  (extends_startLine w).trans (extends_push _ _)

/-- What is added has the innermost open mark and waits to be recorded. -/
theorem Keeps.extend (h : Keeps w ms) (he : Extends w w') :
    Keeps w' (ms ++ List.replicate (w'.pos - w.pos) w.opened.head?) := by
  have hpos := he.pos
  have hlen := h.length
  have hle := h.le
  constructor
  · rw [List.length_append, List.length_replicate]
    omega
  · rw [he.recorded]
    omega
  · rw [he.recorded, he.entries]
    refine ⟨h.recorded.apart, h.recorded.inside, fun p hp a => ?_⟩
    rw [List.getElem?_append_left (by omega)]
    exact h.recorded.shows p hp a
  · rw [he.recorded, he.opened]
    intro p hlo hhi
    by_cases hp : p < w.pos
    · rw [List.getElem?_append_left (by omega)]
      exact h.pending p hlo hp
    · rw [List.getElem?_append_right (by omega), List.getElem?_replicate, if_pos (by omega)]

/-- The bytes from `start` up to `stop` have no mark. -/
theorem Recorded.skip {start stop : Nat} (h : Recorded es ms start) (hle : start ≤ stop)
    (hms : ∀ p, start ≤ p → p < stop → ms[p]? = some none) : Recorded es ms stop := by
  refine ⟨h.apart, fun e he => (h.inside e he).trans hle, fun p hp a => ?_⟩
  by_cases hlt : p < start
  · exact h.shows p hlt a
  · rw [hms p (Nat.le_of_not_lt hlt) hp]
    refine iff_of_false nofun ?_
    rintro ⟨e, he, hcov, -⟩
    exact hlt (Nat.lt_of_lt_of_le hcov.2 (h.inside e he))

/-- The bytes of a new range behind the others have its mark. -/
theorem Recorded.push {e : MetadataEntry} (h : Recorded es ms e.start) (hlt : e.start < e.stop)
    (hms : ∀ p, e.start ≤ p → p < e.stop → ms[p]? = some (some e.mark)) : Recorded (es ++ [e]) ms e.stop := by
  have hshows (p : Nat) (a : Mark) : Shows (es ++ [e]) p a ↔ Shows es p a ∨ e.Covers p ∧ e.mark = a := by
    simp only [Shows, List.mem_append, List.mem_singleton, or_and_right, exists_or, exists_eq_left]
  constructor
  · constructor
    · rw [List.pairwise_append]
      refine ⟨h.apart.ordered, List.pairwise_singleton _ _, fun b hb c hc => ?_⟩
      rw [List.mem_singleton.mp hc]
      exact h.inside b hb
    · intro b hb
      rcases List.mem_append.mp hb with hb | hb
      · exact h.apart.nonempty b hb
      · rwa [List.mem_singleton.mp hb]
  · intro b hb
    rcases List.mem_append.mp hb with hb | hb
    · exact (h.inside b hb).trans hlt.le
    · rw [List.mem_singleton.mp hb]
  · intro p hp a
    rw [hshows]
    by_cases hold : p < e.start
    · rw [h.shows p hold a, or_iff_left]
      exact fun hcov => absurd hcov.1.1 (Nat.not_le_of_lt hold)
    · rw [hms p (Nat.le_of_not_lt hold) hp, Option.some_inj, Option.some_inj, or_iff_right]
      · exact (and_iff_right ⟨Nat.le_of_not_lt hold, hp⟩).symm
      · rintro ⟨b, hb, hcov, -⟩
        exact hold (Nat.lt_of_lt_of_le hcov.2 (h.inside b hb))

/-- A range with a longer end covers as much as one joined to it. -/
theorem Recorded.grow {last : MetadataEntry} {stop : Nat} (h : Recorded (es ++ [last]) ms last.stop)
    (hlt : last.stop < stop) (hms : ∀ p, last.stop ≤ p → p < stop → ms[p]? = some (some last.mark)) :
    Recorded (es ++ [{ last with stop := stop }]) ms stop := by
  have hlast : last ∈ es ++ [last] := List.mem_append_right _ List.mem_cons_self
  have hnonempty := h.apart.nonempty last hlast
  have hbefore : ∀ e ∈ es, e.stop ≤ last.start := fun e he =>
    (List.pairwise_append.mp h.apart.ordered).2.2 e he last List.mem_cons_self
  have hstart : Recorded es ms last.start := by
    refine ⟨⟨(List.pairwise_append.mp h.apart.ordered).1, fun e he =>
      h.apart.nonempty e (List.mem_append_left _ he)⟩, hbefore, fun p hp a => ?_⟩
    rw [h.shows p (by omega) a]
    simp only [Shows, List.mem_append, List.mem_singleton, or_and_right, exists_or, exists_eq_left]
    exact or_iff_left fun hcov => absurd hcov.1.1 (Nat.not_le_of_lt hp)
  refine hstart.push (e := { last with stop := stop }) (hnonempty.trans hlt) fun p hlo hhi => ?_
  by_cases hp : p < last.stop
  · exact (h.shows p hp last.mark).mpr ⟨last, hlast, ⟨hlo, hp⟩, rfl⟩
  · exact hms p (Nat.le_of_not_lt hp) hhi

theorem Recorded.join {entries : Array MetadataEntry} {e : MetadataEntry} (h : Recorded entries.toList ms e.start)
    (hlt : e.start < e.stop) (hms : ∀ p, e.start ≤ p → p < e.stop → ms[p]? = some (some e.mark)) :
    Recorded (joinEntry entries e).toList ms e.stop := by
  unfold joinEntry
  split
  · rename_i last hlast
    split
    · rename_i hsame
      obtain ⟨hstop, hmark⟩ := hsame
      have hsplit : entries.toList = entries.toList.dropLast ++ [last] := by
        rw [← Array.getLast?_toList] at hlast
        exact (List.dropLast_append_getLast? last hlast).symm
      rw [hsplit, ← hstop] at h
      rw [Array.toList_push, Array.toList_pop]
      exact h.grow (hstop ▸ hlt) fun p hlo hhi => hmark ▸ hms p (hstop ▸ hlo) hhi
    · rw [Array.toList_push]
      exact h.push hlt hms
  · rw [Array.toList_push]
    exact h.push hlt hms

theorem Keeps.record (h : Keeps w ms) : Recorded w.record.metadata.entries.toList ms w.pos := by
  unfold Writer.record
  have hpending := h.pending
  cases hopen : w.opened with
  | nil =>
      rw [hopen] at hpending
      exact h.recorded.skip h.le hpending
  | cons top rest =>
      rw [hopen] at hpending
      by_cases hlt : w.recorded < w.pos
      · simp only [if_pos hlt]
        exact h.recorded.join (e := ⟨w.recorded, w.pos, top⟩) hlt hpending
      · simp only [if_neg hlt]
        have heq : w.recorded = w.pos := le_antisymm h.le (Nat.le_of_not_lt hlt)
        exact heq ▸ h.recorded

/-- Once everything is recorded, the open marks are free to change. -/
theorem Keeps.reopen (h : Keeps w ms) (opened : List Mark) : Keeps { w.record with opened := opened } ms where
  length := h.length
  le := le_rfl
  recorded := h.record
  pending := fun _ hlo hhi => absurd hlo (Nat.not_le_of_lt hhi)

theorem act_cases (w : Writer) (action : Action) :
    (∃ a, action = .begin a) ∨ action = .close ∨ (∃ text a, action = .addMarked text a) ∨
      Extends w (w.act action) ∧ (∀ opened, openAfter opened action = opened) ∧
        ∀ opened, marksOf opened w action = List.replicate ((w.act action).pos - w.pos) opened.head? := by
  cases action with
  | begin a => exact .inl ⟨a, rfl⟩
  | close => exact .inr (.inl rfl)
  | addMarked text a => exact .inr (.inr (.inl ⟨text, a, rfl⟩))
  | startLine => exact .inr (.inr (.inr ⟨extends_startLine w, fun _ => rfl, fun _ => rfl⟩))
  | newline => exact .inr (.inr (.inr ⟨extends_newline w, fun _ => rfl, fun _ => rfl⟩))
  | add text => exact .inr (.inr (.inr ⟨extends_add w text, fun _ => rfl, fun _ => rfl⟩))
  | addLine text => exact .inr (.inr (.inr ⟨extends_addLine w text, fun _ => rfl, fun _ => rfl⟩))
  | deeper | shallower | attachSource source =>
      exact .inr (.inr (.inr ⟨⟨rfl, rfl, rfl, le_rfl⟩, fun _ => rfl, fun _ => rfl⟩))

theorem keeps_addMarked (h : Keeps w ms) (text : String) (a : Mark) :
    Keeps (w.addMarked text a) (ms ++ marksOf w.opened w (.addMarked text a)) := by
  have hready := extends_ready w text
  have hopened := (h.extend hready).reopen (a :: (w.ready text).opened)
  have hpushed := (hopened.extend (extends_push _ text)).reopen (w.ready text).opened
  rw [pos_push, Nat.add_sub_cancel_left, List.append_assoc] at hpushed
  exact hpushed

theorem keeps_act (h : Keeps w ms) (action : Action) :
    Keeps (w.act action) (ms ++ marksOf w.opened w action) ∧
      (w.act action).opened = openAfter w.opened action := by
  rcases act_cases w action with ⟨a, rfl⟩ | rfl | ⟨text, a, rfl⟩ | ⟨he, hopen, hmarks⟩
  · have hnone : marksOf w.opened w (.begin a) = [] := by
      change List.replicate (w.pos - w.pos) _ = []
      rw [Nat.sub_self, List.replicate_zero]
    rw [hnone, List.append_nil]
    exact ⟨h.reopen _, rfl⟩
  · have hnone : marksOf w.opened w .close = [] := by
      change List.replicate (w.pos - w.pos) _ = []
      rw [Nat.sub_self, List.replicate_zero]
    rw [hnone, List.append_nil]
    exact ⟨h.reopen _, rfl⟩
  · exact ⟨keeps_addMarked h text a, (extends_ready w text).opened⟩
  · rw [hmarks, hopen]
    exact ⟨h.extend he, he.opened⟩

theorem keeps_foldl (h : Keeps w ms) (actions : List Action) :
    Keeps (actions.foldl act w) (ms ++ ledger w.opened w actions) := by
  induction actions generalizing w ms with
  | nil => simpa [ledger] using h
  | cons action rest ih =>
      obtain ⟨hkeeps, hopened⟩ := keeps_act h action
      have hrest := ih hkeeps
      rw [hopened, List.append_assoc] at hrest
      exact hrest

theorem keeps_close (h : Keeps w ms) (l : List Mark) :
    Keeps (l.foldl (fun w _ => w.close) w) ms ∧
      (l.foldl (fun w _ => w.close) w).opened = w.opened.drop l.length ∧
        (l.foldl (fun w _ => w.close) w).code = w.code := by
  induction l generalizing w with
  | nil => exact ⟨h, rfl, rfl⟩
  | cons a rest ih =>
      obtain ⟨hkeeps, hdrop, hcode⟩ := ih (h.reopen w.opened.tail)
      exact ⟨hkeeps, hdrop.trans List.drop_tail, hcode⟩

theorem Keeps.finish (h : Keeps w ms) :
    Recorded w.finish.metadata.entries.toList ms ms.length ∧ ms.length = w.finish.code.utf8ByteSize := by
  obtain ⟨hkeeps, hdrop, hcode⟩ := keeps_close h w.opened
  rw [List.drop_length] at hdrop
  have hpending := hkeeps.pending
  rw [hdrop] at hpending
  have hlength : ms.length = w.finish.code.utf8ByteSize := hkeeps.length
  exact ⟨hkeeps.length ▸ hkeeps.recorded.skip hkeeps.le hpending, hlength⟩

theorem Recorded.mark_at? {m : Metadata} (h : Recorded m.entries.toList ms ms.length) (p : Nat) :
    (m.at? p).map (·.mark) = ms[p]?.join := by
  have hshows (a : Mark) : (m.at? p).map (·.mark) = some a ↔ Shows m.entries.toList p a := by
    simp only [Option.map_eq_some_iff, Metadata.at?_eq_some h.apart, Shows, and_assoc]
  apply Option.ext
  intro a
  rw [hshows, Option.join_eq_some_iff]
  by_cases hp : p < ms.length
  · exact (h.shows p hp a).symm
  · rw [List.getElem?_eq_none (Nat.le_of_not_lt hp)]
    refine iff_of_false ?_ nofun
    rintro ⟨e, he, hcov, -⟩
    exact hp (Nat.lt_of_lt_of_le hcov.2 (h.inside e he))

/-- Whatever is written, the ranges are exact and inside the text, and the look-up of a byte gives the innermost mark
that was open when the byte was written, if there was one. -/
theorem metadata_innermost (indent depth : Nat) (actions : List Action) :
    let text := (actions.foldl act (start indent depth)).finish
    let marks := ledger [] (start indent depth) actions
    text.metadata.isExact = true ∧ Apart text.metadata.entries.toList ∧
      (∀ e ∈ text.metadata.entries, e.stop ≤ text.code.utf8ByteSize) ∧
      marks.length = text.code.utf8ByteSize ∧
      ∀ p, (text.metadata.at? p).map (·.mark) = marks[p]?.join := by
  intro text marks
  obtain ⟨hrecorded, hlength⟩ := (keeps_foldl (keeps_start indent depth) actions).finish
  change Recorded text.metadata.entries.toList marks marks.length at hrecorded
  change marks.length = text.code.utf8ByteSize at hlength
  refine ⟨Metadata.isExact_iff.mpr hrecorded.apart, hrecorded.apart, fun e he => ?_, hlength, hrecorded.mark_at?⟩
  rw [← Array.mem_toList_iff] at he
  exact hlength ▸ hrecorded.inside e he

end Writer

end JavaLift
