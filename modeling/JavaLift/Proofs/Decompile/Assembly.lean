import JavaLift.Decompile.Class
import JavaLift.Proofs.Code.Writer

namespace JavaLift

open Assembly

def bytesOf (text : String) (start stop : Nat) : ByteArray := text.toByteArray.extract start stop

/-- A line of a text, counted from one. -/
def lineOf? (text : String) (n : Nat) : Option (List Char) := (text.toList.splitOn '\n')[n - 1]?

def MetadataEntry.shift (base : Nat) (e : MetadataEntry) : MetadataEntry :=
  { e with start := e.start + base, stop := e.stop + base }

/-- What is said of a text is exact and inside it: the ranges of bytes, and the lines that have source lines, each of
them once. -/
structure CodeText.Sound (t : CodeText) : Prop where
  exact : t.metadata.isExact = true
  inside : ∀ e ∈ t.metadata.entries, e.stop ≤ t.code.utf8ByteSize
  keyed : t.metadata.lines.Pairwise fun l l' => l.1 < l'.1
  numbered : ∀ l ∈ t.metadata.lines, 1 ≤ l.1 ∧ l.1 ≤ breaksIn t.code + 1

theorem breaksIn_append (s t : String) : breaksIn (s ++ t) = breaksIn s + breaksIn t := by
  simp [breaksIn, String.toList_append, List.count_append]

theorem length_splitOn (x : Char) (xs : List Char) : (xs.splitOn x).length = xs.count x + 1 := by
  induction xs with
  | nil => rfl
  | cons c xs ih =>
      rw [List.splitOn_cons_eq_if_modifyHead, List.count_cons]
      split_ifs <;> simp_all

/-- A piece of a text that begins and ends with a line has its lines. -/
theorem lineOf?_between (above part : String) {below : String} (hbelow : below = "" ∨ ∃ rest, below = "\n" ++ rest)
    {n : Nat} (hlo : 1 ≤ n) (hhi : n ≤ breaksIn part + 1) :
    lineOf? (above ++ "\n" ++ part ++ below) (n + breaksIn (above ++ "\n")) = lineOf? part n := by
  have hsplit : (above ++ "\n" ++ part ++ below).toList.splitOn '\n' =
      above.toList.splitOn '\n' ++ (part.toList ++ below.toList).splitOn '\n' := by
    rw [← List.splitOn_append_cons_self]
    simp [String.toList_append]
  have hpart : n - 1 < (part.toList.splitOn '\n').length := by
    rw [length_splitOn]
    change n - 1 < breaksIn part + 1
    omega
  have habove : n + breaksIn (above ++ "\n") - 1 = (above.toList.splitOn '\n').length + (n - 1) := by
    rw [length_splitOn, breaksIn_append]
    change n + (above.toList.count '\n' + 1) - 1 = _
    omega
  rw [lineOf?, lineOf?, hsplit, habove, List.getElem?_append_right (Nat.le_add_right _ _), Nat.add_sub_cancel_left]
  rcases hbelow with rfl | ⟨rest, rfl⟩
  · simp
  · have hcut : part.toList ++ ("\n" ++ rest).toList = part.toList ++ '\n' :: rest.toList := by
      simp [String.toList_append]
    rw [hcut, List.splitOn_append_cons_self, List.getElem?_append_left hpart]

theorem bytesOf_between (before part after : String) {start stop : Nat} (hstop : stop ≤ part.utf8ByteSize) :
    bytesOf (before ++ part ++ after) (start + before.utf8ByteSize) (stop + before.utf8ByteSize) =
      bytesOf part start stop := by
  have hnone : after.toByteArray.extract (start - part.toByteArray.size) 0 = ByteArray.empty :=
    ByteArray.extract_eq_empty_iff.mpr (by omega)
  rw [bytesOf, bytesOf, String.append_assoc, String.toByteArray_append, Nat.add_comm start, Nat.add_comm stop,
    ← String.size_toByteArray, ByteArray.extract_append_size_add, String.toByteArray_append, ByteArray.extract_append,
    String.size_toByteArray, Nat.sub_eq_zero_of_le hstop]
  rw [String.size_toByteArray] at hnone
  rw [hnone, ByteArray.append_empty]

namespace Metadata

theorem setLine_last (source : Nat) {line : Nat} {lines : List (Nat × Nat)} (h : ∀ l ∈ lines, l.1 < line) :
    setLine line source lines = lines ++ [(line, source)] := by
  induction lines with
  | nil => rfl
  | cons l rest ih =>
      rw [List.forall_mem_cons] at h
      simp only [setLine, if_neg (Nat.lt_asymm h.1), if_neg (Nat.ne_of_gt h.1), ih h.2, List.cons_append]

variable {m other : Metadata} {above : Nat} (base : Nat)

theorem lines_append (hkeyed : other.lines.Pairwise fun l l' => l.1 < l'.1)
    (h : ∀ l ∈ m.lines, ∀ l' ∈ other.lines, l.1 < l'.1 + above) :
    (m.append other base above).lines = m.lines ++ other.lines.map fun l => (l.1 + above, l.2) := by
  change other.lines.foldl (fun lines l => setLine (l.1 + above) l.2 lines) m.lines = _
  generalize m.lines = lines at h
  generalize other.lines = added at hkeyed h
  induction added generalizing lines with
  | nil => simp
  | cons l added ih =>
      rw [List.pairwise_cons] at hkeyed
      have hlast := setLine_last l.2 fun k hk => h k hk l List.mem_cons_self
      rw [List.foldl_cons, hlast, ih _ hkeyed.2]
      · simp
      · intro k hk l' hl'
        rcases List.mem_append.mp hk with hk | hk
        · exact h k hk l' (List.mem_cons_of_mem _ hl')
        · rw [List.mem_singleton.mp hk]
          exact Nat.add_lt_add_right (hkeyed.1 l' hl') _

theorem entries_append : (m.append other base above).entries.toList =
    m.entries.toList ++ other.entries.toList.map (MetadataEntry.shift base) := by
  simp [append, MetadataEntry.shift]

end Metadata

theorem Apart.append_shift {es es' : List MetadataEntry} {base : Nat} (h : Apart es) (hbase : ∀ e ∈ es, e.stop ≤ base)
    (h' : Apart es') : Apart (es ++ es'.map (MetadataEntry.shift base)) where
  ordered := by
    refine List.pairwise_append.mpr ⟨h.ordered, List.pairwise_map.mpr ?_, fun e he e' he' => ?_⟩
    · exact h'.ordered.imp fun hab => Nat.add_le_add_right hab base
    · obtain ⟨e', -, rfl⟩ := List.mem_map.mp he'
      exact (hbase e he).trans (Nat.le_add_left _ _)
  nonempty e he := by
    rcases List.mem_append.mp he with he | he
    · exact h.nonempty e he
    · obtain ⟨e', he', rfl⟩ := List.mem_map.mp he
      exact Nat.add_lt_add_right (h'.nonempty e' he') base

theorem keyed_append {t t' : CodeText} (h : t.Sound) (h' : t'.Sound) {above : Nat} (habove : breaksIn t.code < above) :
    ∀ l ∈ t.metadata.lines, ∀ l' ∈ t'.metadata.lines, l.1 < l'.1 + above := by
  intro l hl l' hl'
  have hle := (h.numbered l hl).2
  have hpos := (h'.numbered l' hl').1
  omega

theorem CodeText.Sound.below {t t' : CodeText} (h : t.Sound) (h' : t'.Sound) {gap : String} (hgap : 1 ≤ breaksIn gap) :
    (⟨t.code ++ gap ++ t'.code,
      t.metadata.append t'.metadata (t.code ++ gap).utf8ByteSize (breaksIn (t.code ++ gap))⟩ : CodeText).Sound := by
  have habove : breaksIn t.code < breaksIn (t.code ++ gap) := by
    rw [breaksIn_append]
    omega
  have hbase : ∀ e ∈ t.metadata.entries, e.stop ≤ (t.code ++ gap).utf8ByteSize := fun e he => by
    rw [String.utf8ByteSize_append]
    exact (h.inside e he).trans (Nat.le_add_right _ _)
  have hlines := Metadata.lines_append (t.code ++ gap).utf8ByteSize h'.keyed (keyed_append h h' habove)
  refine ⟨?_, fun e he => ?_, ?_, fun l hl => ?_⟩
  · rw [Metadata.isExact_iff, Metadata.entries_append]
    exact (Metadata.isExact_iff.mp h.exact).append_shift (fun e he => hbase e (Array.mem_toList_iff.mp he))
      (Metadata.isExact_iff.mp h'.exact)
  · rw [String.utf8ByteSize_append]
    rw [← Array.mem_toList_iff, Metadata.entries_append, List.mem_append, List.mem_map] at he
    rcases he with he | ⟨e', he', rfl⟩
    · exact (hbase e (Array.mem_toList_iff.mp he)).trans (Nat.le_add_right _ _)
    · have hinside := h'.inside e' (Array.mem_toList_iff.mp he')
      change e'.stop + _ ≤ _
      omega
  · rw [hlines]
    refine List.pairwise_append.mpr ⟨h.keyed, List.pairwise_map.mpr ?_, fun l hl l' hl' => ?_⟩
    · exact h'.keyed.imp fun hlt => Nat.add_lt_add_right hlt _
    · obtain ⟨k, hk, rfl⟩ := List.mem_map.mp hl'
      exact keyed_append h h' habove l hl k hk
  · rw [hlines, List.mem_append, List.mem_map] at hl
    rw [breaksIn_append (t.code ++ gap)]
    rcases hl with hl | ⟨l', hl', rfl⟩
    · have hnumbered := h.numbered l hl
      omega
    · have hnumbered := h'.numbered l' hl'
      change 1 ≤ l'.1 + _ ∧ l'.1 + _ ≤ _
      omega

/-- A text has a part behind some of its lines, and says of it what the part itself says. -/
structure CodeText.Holds (t : CodeText) (before : String) (part : CodeText) : Prop where
  code : ∃ above below, before = above ++ "\n" ∧ t.code = before ++ part.code ++ below ∧
    (below = "" ∨ ∃ rest, below = "\n" ++ rest)
  entries : ∀ e ∈ part.metadata.entries, e.shift before.utf8ByteSize ∈ t.metadata.entries
  lines : ∀ l ∈ part.metadata.lines, (l.1 + breaksIn before, l.2) ∈ t.metadata.lines

namespace CodeText.Holds

variable {t t' part : CodeText} {before : String}

theorem extend (h : t.Holds before part) (more : String) (hcode : t'.code = t.code ++ ("\n" ++ more))
    (hentries : ∀ e ∈ t.metadata.entries, e ∈ t'.metadata.entries)
    (hlines : ∀ l ∈ t.metadata.lines, l ∈ t'.metadata.lines) : t'.Holds before part := by
  obtain ⟨above, below, hbefore, htext, hbelow⟩ := h.code
  refine ⟨⟨above, below ++ ("\n" ++ more), hbefore, by rw [hcode, htext, String.append_assoc], .inr ?_⟩,
    fun e he => hentries _ (h.entries e he), fun l hl => hlines _ (h.lines l hl)⟩
  rcases hbelow with rfl | ⟨rest, rfl⟩
  · exact ⟨more, String.empty_append⟩
  · exact ⟨rest ++ ("\n" ++ more), String.append_assoc⟩

theorem bytes (h : t.Holds before part) (start : Nat) {stop : Nat} (hstop : stop ≤ part.code.utf8ByteSize) :
    bytesOf t.code (start + before.utf8ByteSize) (stop + before.utf8ByteSize) = bytesOf part.code start stop := by
  obtain ⟨above, below, -, htext, -⟩ := h.code
  rw [htext, bytesOf_between before part.code below hstop]

theorem line (h : t.Holds before part) {n : Nat} (hlo : 1 ≤ n) (hhi : n ≤ breaksIn part.code + 1) :
    lineOf? t.code (n + breaksIn before) = lineOf? part.code n := by
  obtain ⟨above, below, hbefore, htext, hbelow⟩ := h.code
  rw [htext, hbefore, lineOf?_between above part.code hbelow hlo hhi]

end CodeText.Holds

namespace Assembly

variable {a : Assembly} {m : MethodResult} {before : String} {part : CodeText}

def text (a : Assembly) : CodeText := ⟨a.code, a.metadata⟩

def gap (a : Assembly) : String := if a.methods.isEmpty then "\n" else "\n\n"

def front (a : Assembly) : String := a.code ++ a.gap

theorem gap_cases (a : Assembly) : ∃ more, a.gap = "\n" ++ more ∧ a.gap = more ++ "\n" ∧
    breaksIn a.gap = a.gap.length := by
  unfold gap
  split
  · exact ⟨"", rfl, rfl, rfl⟩
  · exact ⟨"\n", rfl, rfl, rfl⟩

theorem one_le_breaksIn_gap (a : Assembly) : 1 ≤ breaksIn a.gap := by
  obtain ⟨more, hgap, -⟩ := a.gap_cases
  rw [hgap, breaksIn_append]
  exact Nat.le_add_right 1 _

/-- The breaks have been counted, and what has been said of the text is sound. -/
structure Ready (a : Assembly) : Prop where
  breaks : a.breaks = breaksIn a.code
  sound : a.text.Sound

theorem Ready.text_add (h : a.Ready) (m : MethodResult) : (a.add m).text =
    ⟨a.code ++ a.gap ++ m.text.code,
      a.metadata.append m.text.metadata (a.code ++ a.gap).utf8ByteSize (breaksIn (a.code ++ a.gap))⟩ := by
  obtain ⟨-, -, -, hlength⟩ := a.gap_cases
  rw [breaksIn_append, hlength, ← h.breaks]
  rfl

theorem Ready.add (h : a.Ready) (hm : m.text.Sound) : (a.add m).Ready where
  breaks := by
    obtain ⟨-, -, -, hlength⟩ := a.gap_cases
    change a.breaks + a.gap.length + breaksIn m.text.code = breaksIn (a.code ++ a.gap ++ m.text.code)
    rw [breaksIn_append, breaksIn_append, hlength, h.breaks]
  sound := by
    rw [h.text_add]
    exact h.sound.below hm a.one_le_breaksIn_gap

theorem Ready.entries_add (h : a.Ready) (m : MethodResult) : (a.add m).text.metadata.entries.toList =
    a.metadata.entries.toList ++ m.text.metadata.entries.toList.map (MetadataEntry.shift a.front.utf8ByteSize) := by
  rw [h.text_add]
  exact Metadata.entries_append _

theorem Ready.lines_add (h : a.Ready) (hm : m.text.Sound) : (a.add m).text.metadata.lines =
    a.metadata.lines ++ m.text.metadata.lines.map fun l => (l.1 + breaksIn a.front, l.2) := by
  rw [h.text_add]
  refine Metadata.lines_append _ hm.keyed (keyed_append h.sound hm ?_)
  rw [breaksIn_append]
  exact Nat.lt_add_of_pos_right a.one_le_breaksIn_gap

/-- A method that is added stands behind what has been written. -/
theorem Ready.holds_add (h : a.Ready) (hm : m.text.Sound) : (a.add m).text.Holds a.front m.text where
  code := by
    obtain ⟨more, -, hgap, -⟩ := a.gap_cases
    exact ⟨a.code ++ more, "", by rw [front, hgap, String.append_assoc], by rw [String.append_empty]; rfl, .inl rfl⟩
  entries e he := by
    rw [← Array.mem_toList_iff, h.entries_add, List.mem_append, List.mem_map]
    exact .inr ⟨e, Array.mem_toList_iff.mpr he, rfl⟩
  lines l hl := by
    rw [h.lines_add hm, List.mem_append, List.mem_map]
    exact .inr ⟨l, hl, rfl⟩

theorem Ready.keeps (h : a.Ready) (hm : m.text.Sound) (hpart : a.text.Holds before part) :
    (a.add m).text.Holds before part := by
  obtain ⟨more, hgap, -⟩ := a.gap_cases
  refine hpart.extend (more ++ m.text.code) ?_ (fun e he => ?_) fun l hl => ?_
  · change a.code ++ a.gap ++ m.text.code = _
    rw [hgap, String.append_assoc, String.append_assoc]
    rfl
  · rw [← Array.mem_toList_iff, h.entries_add]
    exact List.mem_append_left _ (Array.mem_toList_iff.mpr he)
  · rw [h.lines_add hm]
    exact List.mem_append_left _ hl

theorem Ready.foldl (h : a.Ready) {ms : List MethodResult} (hms : ∀ m ∈ ms, m.text.Sound) :
    (ms.foldl Assembly.add a).Ready ∧ ∀ before part, a.text.Holds before part → (ms.foldl Assembly.add a).text.Holds before part := by
  induction ms generalizing a with
  | nil => exact ⟨h, fun _ _ hpart => hpart⟩
  | cons m ms ih =>
      rw [List.forall_mem_cons] at hms
      obtain ⟨hready, hholds⟩ := ih (h.add hms.1) hms.2
      exact ⟨hready, fun before part hpart => hholds before part (h.keeps hms.1 hpart)⟩

theorem methods_foldl (a : Assembly) (ms : List MethodResult) :
    a.methods <+: (ms.foldl add a).methods ∧ (ms.foldl add a).methods.length = a.methods.length + ms.length := by
  induction ms generalizing a with
  | nil => exact ⟨List.prefix_rfl, rfl⟩
  | cons m ms ih =>
      obtain ⟨hstart, hlength⟩ := ih (a.add m)
      refine ⟨(List.prefix_append _ _).trans hstart, hlength.trans ?_⟩
      simp [add]
      omega

theorem breaks_le_foldl (a : Assembly) (ms : List MethodResult) : a.breaks ≤ (ms.foldl add a).breaks := by
  induction ms generalizing a with
  | nil => exact Nat.le_refl _
  | cons m ms ih => exact (Nat.le_add_right_of_le (Nat.le_add_right _ _)).trans (ih (a.add m))

end Assembly

theorem sound_head (c : ClassInput) (indent : Nat) : (c.head indent).Sound := by
  have hsound (actions : List Writer.Action)
      (hlines : ((actions.foldl Writer.act (.start indent 0)).finish).metadata.lines = []) :
      ((actions.foldl Writer.act (.start indent 0)).finish).Sound := by
    obtain ⟨hexact, -, hinside, -⟩ := Writer.metadata_innermost indent 0 actions
    exact ⟨hexact, hinside, by rw [hlines]; exact .nil, by rw [hlines]; nofun⟩
  unfold ClassInput.head
  dsimp only
  split
  next before after _ =>
    exact hsound [.startLine, .add (String.ofList before ++ " "), .addMarked (Ty.simpleClassName c.name)
      (.declaration .cls c.name), .add (" " ++ String.ofList after)] rfl
  next => exact hsound [.startLine, .add (Source.classHeader c.name c.superClass c.interfaces c.access)] rfl

theorem Assembly.ready_ofHead {t : CodeText} (h : t.Sound) : (Assembly.ofHead t).Ready := ⟨rfl, h⟩

theorem CodeText.Sound.close {t : CodeText} (h : t.Sound) : (⟨t.code ++ "\n\x7d", t.metadata⟩ : CodeText).Sound where
  exact := h.exact
  inside e he := (h.inside e he).trans (by rw [String.utf8ByteSize_append]; exact Nat.le_add_right _ _)
  keyed := h.keyed
  numbered l hl := by
    have hnumbered := h.numbered l hl
    rw [breaksIn_append]
    omega

theorem CodeText.Holds.close {t part : CodeText} {before : String} (h : t.Holds before part) :
    (⟨t.code ++ "\n\x7d", t.metadata⟩ : CodeText).Holds before part :=
  h.extend "\x7d" rfl (fun _ he => he) fun _ hl => hl

/-- What a summary says of a method is so in the text of the class, in which the method stands behind `before`. -/
structure Stands (whole : CodeText) (before : String) (m : MethodResult) (s : MethodSummary) : Prop where
  key : s.key = m.key
  code : ∃ after, whole.code = before ++ m.text.code ++ after
  start : s.start = before.utf8ByteSize
  slice : bytesOf whole.code s.start s.stop = m.text.code.toByteArray
  entries : ∀ e ∈ m.text.metadata.entries, e.shift s.start ∈ whole.metadata.entries ∧
    bytesOf whole.code (e.start + s.start) (e.stop + s.start) = bytesOf m.text.code e.start e.stop
  lines : ∀ l ∈ m.text.metadata.lines, (l.1 + breaksIn before, l.2) ∈ whole.metadata.lines ∧
    ∃ line ∈ lineOf? m.text.code l.1, lineOf? whole.code (l.1 + breaksIn before) = some line

namespace ClassInput

def upTo (c : ClassInput) (indent : Nat) (methods : List MethodResult) (i : Nat) : Assembly :=
  (methods.take i).foldl Assembly.add (.ofHead (c.head indent))

variable (c : ClassInput) (indent : Nat) {i j : Nat} {methods : List MethodResult} {m : MethodResult}

theorem ready_upTo (h : ∀ m ∈ methods, m.text.Sound) (i : Nat) : (c.upTo indent methods i).Ready :=
  ((ready_ofHead (sound_head c indent)).foldl fun m hm => h m (List.mem_of_mem_take hm)).1

theorem upTo_succ (hm : methods[i]? = some m) :
    c.upTo indent methods (i + 1) = (c.upTo indent methods i).add m := by
  simp [upTo, List.take_add_one, hm]

theorem upTo_add (methods : List MethodResult) (hle : i ≤ j) :
    ∃ more : List MethodResult, (∀ m ∈ more, m ∈ methods) ∧
      c.upTo indent methods j = more.foldl Assembly.add (c.upTo indent methods i) := by
  refine ⟨(methods.take j).drop i, fun m hm => List.mem_of_mem_take (List.mem_of_mem_drop hm), ?_⟩
  have hsplit := List.take_append_drop i (methods.take j)
  rw [List.take_take, Nat.min_eq_left hle] at hsplit
  rw [upTo, upTo, ← List.foldl_append, hsplit]

theorem upTo_length : c.upTo indent methods methods.length = methods.foldl Assembly.add (.ofHead (c.head indent)) := by
  rw [upTo, List.take_length]

theorem length_methods_upTo (hle : i ≤ methods.length) : (c.upTo indent methods i).methods.length = i := by
  rw [upTo, (methods_foldl _ _).2, List.length_take, Nat.min_eq_left hle]
  exact Nat.zero_add i

/-- A method stands in the class behind what has been written before it. -/
theorem holds_assemble (h : ∀ m ∈ methods, m.text.Sound) (hm : methods[i]? = some m) :
    (c.assemble indent methods).text.Holds (c.upTo indent methods i).front m.text := by
  have hlt := (List.getElem?_eq_some_iff.mp hm).1
  have hsound := h m (List.mem_of_getElem? hm)
  have hready := ready_upTo c indent h
  have hplaced := (hready i).holds_add hsound
  rw [← upTo_succ c indent hm] at hplaced
  obtain ⟨more, hmore, hrest⟩ := upTo_add c indent methods hlt
  have hkept := ((hready (i + 1)).foldl fun m hm => h m (hmore m hm)).2 _ _ hplaced
  rw [← hrest, upTo_length] at hkept
  exact hkept.close

theorem getElem?_methods_assemble (hm : methods[i]? = some m) : (c.assemble indent methods).methods[i]? =
    some ⟨m.key, (c.upTo indent methods i).front.utf8ByteSize,
      ((c.upTo indent methods i).front ++ m.text.code).utf8ByteSize, m.diagnostics, m.failure, m.stats⟩ := by
  have hlt := (List.getElem?_eq_some_iff.mp hm).1
  obtain ⟨more, -, hrest⟩ := upTo_add c indent methods hlt
  have hstart := (methods_foldl (c.upTo indent methods (i + 1)) more).1
  rw [← hrest, upTo_length, upTo_succ c indent hm] at hstart
  obtain ⟨later, hlater⟩ := hstart
  have hi := length_methods_upTo c indent hlt.le
  change (methods.foldl Assembly.add (.ofHead (c.head indent))).methods[i]? = _
  rw [← hlater, List.getElem?_append_left (by simp [Assembly.add, hi])]
  simp only [Assembly.add]
  rw [List.getElem?_append_right hi.le, hi, Nat.sub_self]
  rfl

/-- A method ends above the line on which the next one begins. -/
theorem breaksIn_front_lt (h : ∀ m ∈ methods, m.text.Sound) (hlt : i < j) (hm : methods[i]? = some m) :
    breaksIn (c.upTo indent methods i).front + breaksIn m.text.code < breaksIn (c.upTo indent methods j).front := by
  have hready := ready_upTo c indent h
  have hle : (c.upTo indent methods (i + 1)).breaks ≤ (c.upTo indent methods j).breaks := by
    obtain ⟨more, -, hrest⟩ := upTo_add c indent methods hlt
    rw [hrest]
    exact breaks_le_foldl _ _
  have hgap := (c.upTo indent methods j).one_le_breaksIn_gap
  rw [(hready (i + 1)).breaks, (hready j).breaks, upTo_succ c indent hm] at hle
  change breaksIn ((c.upTo indent methods i).front ++ m.text.code) ≤ _ at hle
  rw [breaksIn_append] at hle
  rw [front, front, breaksIn_append, breaksIn_append] at *
  omega

theorem stands_assemble (h : ∀ m ∈ methods, m.text.Sound) (hm : methods[i]? = some m) {s : MethodSummary}
    (hs : (c.assemble indent methods).methods[i]? = some s) :
    Stands (c.assemble indent methods).text (c.upTo indent methods i).front m s := by
  have hholds := holds_assemble c indent h hm
  have hsound := h m (List.mem_of_getElem? hm)
  rw [getElem?_methods_assemble c indent hm] at hs
  obtain rfl := Option.some.inj hs
  refine ⟨rfl, ?_, rfl, ?_, fun e he => ⟨hholds.entries e he, hholds.bytes e.start (hsound.inside e he)⟩,
    fun l hl => ⟨hholds.lines l hl, ?_⟩⟩
  · obtain ⟨-, below, -, hcode, -⟩ := hholds.code
    exact ⟨below, hcode⟩
  · have hbytes := hholds.bytes 0 (Nat.le_refl m.text.code.utf8ByteSize)
    rw [Nat.zero_add, Nat.add_comm, ← String.utf8ByteSize_append] at hbytes
    rw [hbytes, bytesOf, ← String.size_toByteArray, ByteArray.extract_zero_size]
  · obtain ⟨hlo, hhi⟩ := hsound.numbered l hl
    have hin : l.1 - 1 < (m.text.code.toList.splitOn '\n').length := by
      rw [length_splitOn]
      change l.1 - 1 < breaksIn m.text.code + 1
      omega
    have hline : lineOf? m.text.code l.1 = some _ := List.getElem?_eq_getElem hin
    exact ⟨_, hline, (hholds.line hlo hhi).trans hline⟩

/-- The class gives each method's text at the bytes of its summary, with all that is said of the bytes and the lines of
the method, no two methods on one line; and what is said of the text of the class is sound. -/
theorem assemble_stands (c : ClassInput) (indent : Nat) (methods : List MethodResult)
    (h : ∀ m ∈ methods, m.text.Sound) :
    (c.assemble indent methods).text.Sound ∧ (c.assemble indent methods).methods.length = methods.length ∧
    ∃ before : Nat → String,
      (∀ i m s, methods[i]? = some m → (c.assemble indent methods).methods[i]? = some s →
        Stands (c.assemble indent methods).text (before i) m s) ∧
      ∀ i j m m', i < j → methods[i]? = some m → methods[j]? = some m' →
        ∀ l ∈ m.text.metadata.lines, ∀ l' ∈ m'.text.metadata.lines,
          l.1 + breaksIn (before i) < l'.1 + breaksIn (before j) := by
  refine ⟨?_, ?_, fun i => (c.upTo indent methods i).front, fun i m s hm hs => stands_assemble c indent h hm hs,
    fun i j m m' hlt hm hm' l hl l' hl' => ?_⟩
  · have hsound := (ready_upTo c indent h methods.length).sound
    rw [upTo_length] at hsound
    exact hsound.close
  · have hlength := length_methods_upTo c indent (Nat.le_refl methods.length)
    rw [upTo_length] at hlength
    exact hlength
  · have hbreaks := breaksIn_front_lt c indent h hlt hm
    have hhi := ((h m (List.mem_of_getElem? hm)).numbered l hl).2
    have hlo := ((h m' (List.mem_of_getElem? hm')).numbered l' hl').1
    change l.1 + breaksIn (c.upTo indent methods i).front < l'.1 + breaksIn (c.upTo indent methods j).front
    omega

/-- A method of three lines. The second one has a source line. -/
def threeLines : CodeText :=
  ⟨"    int f() \x7b\n        return 1;\n    \x7d", ⟨#[⟨8, 9, .declaration .method "f"⟩, ⟨22, 31, .offset 1⟩], [(2, 7)]⟩⟩

theorem sound_threeLines : threeLines.Sound := ⟨by decide +kernel, by decide +kernel, by decide, by decide⟩

def pairOfMethods : ClassInput := ⟨"a.B", none, [], ⟨1⟩, .tables ⟨#[], #[], #[], #[]⟩, []⟩

def twoMethods : List MethodResult :=
  [⟨"f()I", threeLines, [], none, .none⟩, ⟨"g()I", threeLines, [], none, .none⟩]

theorem assemble_stands_twoMethods :
    (∀ m ∈ twoMethods, m.text.Sound) ∧ ∃ before s, (pairOfMethods.assemble 4 twoMethods).methods[1]? = some s ∧
      Stands (pairOfMethods.assemble 4 twoMethods).text before ⟨"g()I", threeLines, [], none, .none⟩ s := by
  have hsound : ∀ m ∈ twoMethods, m.text.Sound := by
    intro m hm
    simp only [twoMethods, List.mem_cons, List.not_mem_nil, or_false] at hm
    rcases hm with rfl | rfl <;> exact sound_threeLines
  obtain ⟨-, hlength, before, hstands, -⟩ := assemble_stands pairOfMethods 4 twoMethods hsound
  have hlt : 1 < (pairOfMethods.assemble 4 twoMethods).methods.length := by
    rw [hlength]
    decide
  have hsecond := List.getElem?_eq_getElem hlt
  exact ⟨hsound, before 1, _, hsecond, hstands 1 _ _ rfl hsecond⟩

end ClassInput

end JavaLift
