import JavaLift.Proofs.ClassFile.StackMachine
import JavaLift.Proofs.ClassFile.Transfers

namespace JavaLift.ClassFile

variable {α β : Type}

/-- How many values of a stack a shuffle takes. Where it is about two slots, it takes a wide value or two values. -/
def Shuffle.depth : Shuffle → Shape → Nat
  | .dup, _ => 1
  | .dupX1, _ | .swap, _ => 2
  | .dupX2, _ :: .two :: _ => 2
  | .dupX2, _ => 3
  | .dup2, .two :: _ => 1
  | .dup2, _ => 2
  | .dup2X1, .two :: _ => 2
  | .dup2X1, _ => 3
  | .dup2X2, .two :: .two :: _ => 2
  | .dup2X2, .two :: _ | .dup2X2, _ :: _ :: .two :: _ => 3
  | .dup2X2, _ => 4

/-- What takes the place of the values that a shuffle takes, the topmost first: the same values, and below them the
topmost one again, or two of them. -/
def Shuffle.arrange (size : β → Category) (kind : Shuffle) (taken : List β) : List β :=
  match kind with
  | .swap => taken.reverse
  | .dup | .dupX1 | .dupX2 => taken ++ taken.take 1
  | .dup2 | .dup2X1 | .dup2X2 => taken ++ taken.take (if taken.head?.map size = some .two then 1 else 2)

/-- What the registers of the values on the stack hold, the topmost value first. -/
def stackValues (f : Frame) (regs : Nat → α) : Shape → List (Category × List α)
  | [] => []
  | c :: rest =>
    (c, (List.range c.slots).map fun k => regs (f.locals + slotCount rest + k)) :: stackValues f regs rest

/-- A shuffle has arranged the values on the stack, and changed no register below those that it has taken. -/
structure Shuffled (f : Frame) (kind : Shuffle) (s t : Shape) (regs regs' : Nat → α) : Prop where
  values : stackValues f regs' t = kind.arrange Prod.fst ((stackValues f regs s).take (kind.depth s)) ++
    (stackValues f regs s).drop (kind.depth s)
  below : ∀ r < f.locals + slotCount (s.drop (kind.depth s)), regs' r = regs r

section

variable {f : Frame} {regs regs' : Nat → α}

def Held.read (regs : Nat → α) (v : Held) : Category × List α :=
  (v.category, (List.range v.category.slots).map fun k => regs (v.reg + k))

theorem stackValues_append (f : Frame) (regs : Nat → α) (top rest : Shape) :
    stackValues f regs (top ++ rest) =
      ((heldFrom (f.locals + slotCount rest) top.reverse).map (Held.read regs)).reverse ++ stackValues f regs rest := by
  induction top with
  | nil => rfl
  | cons c top ih =>
      rw [List.cons_append, stackValues, ih, List.reverse_cons, heldFrom_append, slotCount_reverse, slotCount_append,
        Nat.add_comm (slotCount top), ← Nat.add_assoc]
      simp [heldFrom, Held.read]

theorem stackValues_congr {rest : Shape} (h : ∀ r < f.locals + slotCount rest, regs' r = regs r) :
    stackValues f regs' rest = stackValues f regs rest := by
  induction rest with
  | nil => rfl
  | cons c rest ih =>
      rw [slotCount_cons] at h
      rw [stackValues, stackValues, ih fun r hr => h r (by omega)]
      congr 2
      exact List.map_congr_left fun k hk => h _ (by have := List.mem_range.mp hk; omega)

theorem heldFrom_categories (reg : Nat) (values : List Held) :
    heldFrom reg (values.map (·.category)) = (placementsFrom reg values).map fun w => ⟨w.value.category, w.target⟩ := by
  induction values generalizing reg with
  | nil => rfl
  | cons v values ih => rw [List.map_cons, heldFrom, placementsFrom, List.map_cons, ih]

theorem held_within {reg : Nat} {values : List Category} : ∀ v ∈ heldFrom reg values,
    reg ≤ v.reg ∧ v.reg + v.category.slots ≤ reg + slotCount values := by
  induction values generalizing reg with
  | nil => exact nofun
  | cons c values ih =>
      rw [slotCount_cons]
      refine List.forall_mem_cons.mpr ⟨by dsimp only; omega, fun v hv => ?_⟩
      have hlater := ih v hv
      omega

end

section

variable {f : Frame} {pc : Nat} {pattern : List Nat} {taken rest t : Shape} {insns : List Insn}

def picked (f : Frame) (taken rest : Shape) (pattern : List Nat) : List Held :=
  pattern.filterMap fun k => (heldFrom (f.locals + slotCount rest) taken.reverse)[k]?

def pickedPlacements (f : Frame) (taken rest : Shape) (pattern : List Nat) : List Placement :=
  placementsFrom (f.locals + slotCount rest) (picked f taken rest pattern)

theorem permute_ok (h : (permute f pc taken.length pattern).run (taken ++ rest) = .ok (insns, t)) :
    insns = movesFor pc (f.locals + f.maxStack) (pickedPlacements f taken rest pattern) ∧
      slotCount rest + slotCount ((picked f taken rest pattern).map (·.category)) ≤ f.maxStack ∧
      t = ((picked f taken rest pattern).map (·.category)).reverse ++ rest := by
  obtain ⟨-, values, hvalues, hinsns, hroom, ht⟩ := permute_eq_ok h
  rw [List.drop_left, List.take_left] at hvalues
  rw [List.drop_left] at hinsns hroom ht
  subst hvalues
  exact ⟨hinsns, hroom, ht⟩

theorem picked_within {v : Held} (hv : v ∈ picked f taken rest pattern) :
    f.locals + slotCount rest ≤ v.reg ∧ v.reg + v.category.slots ≤ f.locals + slotCount (taken ++ rest) := by
  obtain ⟨k, -, hk⟩ := List.mem_filterMap.mp hv
  have hwithin := held_within v (List.mem_of_getElem? hk)
  rw [slotCount_reverse] at hwithin
  rw [slotCount_append]
  omega

theorem picked_below (hroom : slotCount (taken ++ rest) ≤ f.maxStack)
    (hnew : slotCount rest + slotCount ((picked f taken rest pattern).map (·.category)) ≤ f.maxStack) :
    Below (f.locals + f.maxStack) (f.locals + slotCount rest) (picked f taken rest pattern) := by
  refine ⟨fun v hv => ?_, by omega⟩
  have hwithin := (picked_within hv).2
  omega

theorem permute_values (h : (permute f pc taken.length pattern).run (taken ++ rest) = .ok (insns, t))
    (hroom : slotCount (taken ++ rest) ≤ f.maxStack)
    (hfit : TempsFit (f.locals + f.maxStack) (pickedPlacements f taken rest pattern)) (regs : Nat → α) :
    ∃ regs', runMoves insns regs = some regs' ∧
      stackValues f regs' t = ((picked f taken rest pattern).map (Held.read regs)).reverse ++ stackValues f regs rest ∧
      ∀ r < f.locals + slotCount rest, regs' r = regs r := by
  obtain ⟨rfl, hnew, rfl⟩ := permute_ok h
  obtain ⟨regs', hrun, hmoved, hkept⟩ := movesFor_moves pc (picked_below hroom hnew) hfit regs
  refine ⟨regs', hrun, ?_, hkept⟩
  have hread : ∀ w ∈ pickedPlacements f taken rest pattern,
      Held.read regs' ⟨w.value.category, w.target⟩ = Held.read regs w.value := fun w hw =>
    congrArg (Prod.mk _) (List.map_congr_left fun k hk => hmoved w hw k (List.mem_range.mp hk))
  rw [stackValues_append, List.reverse_reverse, heldFrom_categories, List.map_map, stackValues_congr hkept,
    ← map_value_placementsFrom (f.locals + slotCount rest) (picked f taken rest pattern), List.map_map]
  rw [map_value_placementsFrom]
  exact congrArg (List.reverse · ++ _) (List.map_congr_left hread)

end

def Picks (kind : Shuffle) (taken : Shape) (pattern : List Nat) : Prop :=
  ∀ {β : Type} (size : β → Category) (vs : List β), vs.map size = taken →
    (pattern.filterMap fun k => vs.reverse[k]?).reverse = kind.arrange size vs

section

variable {kind : Shuffle} {pattern : List Nat} {a b c d : Category}

theorem picks_one (h : ∀ {β : Type} (size : β → Category) (v : β), size v = a →
    (pattern.filterMap fun k => [v][k]?).reverse = kind.arrange size [v]) : Picks kind [a] pattern := by
  intro β size vs hvs
  obtain ⟨v, rfl⟩ := List.length_eq_one_iff.mp (by simpa using congrArg List.length hvs)
  exact h size v (List.singleton_inj.mp hvs)

theorem picks_two (h : ∀ {β : Type} (size : β → Category) (v w : β), size v = a →
    (pattern.filterMap fun k => [w, v][k]?).reverse = kind.arrange size [v, w]) : Picks kind [a, b] pattern := by
  intro β size vs hvs
  obtain ⟨v, w, rfl⟩ := List.length_eq_two.mp (by simpa using congrArg List.length hvs)
  exact h size v w (List.cons_eq_cons.mp hvs).1

theorem picks_three (h : ∀ {β : Type} (size : β → Category) (v w x : β), size v = a →
    (pattern.filterMap fun k => [x, w, v][k]?).reverse = kind.arrange size [v, w, x]) :
    Picks kind [a, b, c] pattern := by
  intro β size vs hvs
  obtain ⟨v, w, x, rfl⟩ := List.length_eq_three.mp (by simpa using congrArg List.length hvs)
  exact h size v w x (List.cons_eq_cons.mp hvs).1

theorem picks_four (h : ∀ {β : Type} (size : β → Category) (v w x y : β), size v = a →
    (pattern.filterMap fun k => [y, x, w, v][k]?).reverse = kind.arrange size [v, w, x, y]) :
    Picks kind [a, b, c, d] pattern := by
  intro β size vs hvs
  match vs, hvs with
  | [v, w, x, y], hvs => exact h size v w x y (List.cons_eq_cons.mp hvs).1

end

theorem shuffleOf_ok {pc take : Nat} {pattern : List Nat} {kind : Shuffle} {s u : Shape}
    (h : (shuffleOf pc kind).run s = .ok ((take, pattern), u)) (htake : take ≤ s.length) :
    take = kind.depth s ∧ Picks kind (s.take take) pattern := by
  cases kind with
  | dup =>
      cases h
      match s, htake with
      | a :: rest, _ => exact ⟨rfl, picks_one fun _ _ _ => rfl⟩
  | dupX1 | swap =>
      cases h
      match s, htake with
      | a :: b :: rest, _ => exact ⟨rfl, picks_two fun _ _ _ _ => rfl⟩
  | dupX2 =>
      match s, h with
      | a :: .two :: rest, h =>
          cases h
          exact ⟨rfl, picks_two fun _ _ _ _ => rfl⟩
      | a :: .one :: rest, h =>
          cases h
          match rest, htake with
          | c :: rest, _ => exact ⟨rfl, picks_three fun _ _ _ _ _ => rfl⟩
  | dup2 =>
      match s, h with
      | .two :: rest, h =>
          cases h
          exact ⟨rfl, picks_one fun _ _ hv => by simp [Shuffle.arrange, hv]⟩
      | .one :: rest, h =>
          cases h
          match rest, htake with
          | b :: rest, _ => exact ⟨rfl, picks_two fun _ _ _ hv => by simp [Shuffle.arrange, hv]⟩
  | dup2X1 =>
      match s, h with
      | .two :: rest, h =>
          cases h
          match rest, htake with
          | b :: rest, _ => exact ⟨rfl, picks_two fun _ _ _ hv => by simp [Shuffle.arrange, hv]⟩
      | .one :: rest, h =>
          cases h
          match rest, htake with
          | b :: c :: rest, _ => exact ⟨rfl, picks_three fun _ _ _ _ hv => by simp [Shuffle.arrange, hv]⟩
  | dup2X2 =>
      match s, h with
      | .two :: .two :: rest, h =>
          cases h
          exact ⟨rfl, picks_two fun _ _ _ hv => by simp [Shuffle.arrange, hv]⟩
      | .two :: .one :: rest, h =>
          cases h
          match rest, htake with
          | c :: rest, _ => exact ⟨rfl, picks_three fun _ _ _ _ hv => by simp [Shuffle.arrange, hv]⟩
      | .one :: b :: .two :: rest, h =>
          cases h
          exact ⟨rfl, picks_three fun _ _ _ _ hv => by simp [Shuffle.arrange, hv]⟩
      | .one :: b :: .one :: rest, h =>
          cases h
          match rest, htake with
          | d :: rest, _ => exact ⟨rfl, picks_four fun _ _ _ _ _ hv => by simp [Shuffle.arrange, hv]⟩

theorem heldFrom_shift (d reg : Nat) (values : List Category) :
    heldFrom (reg + d) values = (heldFrom reg values).map (Held.shift d) := by
  induction values generalizing reg with
  | nil => rfl
  | cons c values ih => rw [heldFrom, heldFrom, List.map_cons, ← ih, Nat.add_right_comm, Held.shift]

theorem placementsFrom_shift (d reg : Nat) (values : List Held) :
    placementsFrom (reg + d) (values.map (Held.shift d)) = (placementsFrom reg values).map (Placement.shift d) := by
  induction values generalizing reg with
  | nil => rfl
  | cons v values ih =>
      rw [List.map_cons, placementsFrom, placementsFrom, List.map_cons, ← ih, Nat.add_right_comm]
      rfl

theorem moved_shift (d : Nat) (placements : List Placement) :
    moved (placements.map (Placement.shift d)) = (moved placements).map (Placement.shift d) := by
  rw [moved, List.filter_map]
  refine congrArg (List.map _) (List.filter_congr fun w _ => ?_)
  simp [Placement.shift, Held.shift]

/-- The values that are saved when those on top of an otherwise empty stack are exchanged. -/
def savedOf (taken : Shape) (pattern : List Nat) : List Held :=
  savedValues (moved (placementsFrom 0 (pattern.filterMap fun k => (heldFrom 0 taken.reverse)[k]?)))

theorem savedValues_picked (f : Frame) (taken rest : Shape) (pattern : List Nat) :
    savedValues (moved (pickedPlacements f taken rest pattern)) =
      (savedOf taken pattern).map (Held.shift (f.locals + slotCount rest)) := by
  have hheld := heldFrom_shift (f.locals + slotCount rest) 0 taken.reverse
  rw [Nat.zero_add] at hheld
  have hpicked : picked f taken rest pattern =
      (pattern.filterMap fun k => (heldFrom 0 taken.reverse)[k]?).map (Held.shift (f.locals + slotCount rest)) := by
    simp [picked, hheld, List.map_filterMap]
  have hplaced := placementsFrom_shift (f.locals + slotCount rest) 0
    (pattern.filterMap fun k => (heldFrom 0 taken.reverse)[k]?)
  rw [Nat.zero_add] at hplaced
  rw [pickedPlacements, hpicked, hplaced, moved_shift, savedValues_shift, savedOf]

theorem savedOf_exchange {taken : Shape} {pattern : List Nat} (h : (taken.length, pattern) ∈ exchanges) :
    slotCount ((savedOf taken pattern).map (·.category)) ≤ slotCount taken ∧
      (tempSlots < slotCount taken → (savedOf taken pattern).map (·.category) = taken.reverse) := by
  rcases mem_exchanges.mp h with ⟨hlen, rfl⟩ | ⟨hlen, rfl⟩ | ⟨hlen, rfl⟩ | ⟨hlen, rfl⟩ | ⟨hlen, rfl⟩ | ⟨hlen, rfl⟩ | ⟨hlen, rfl⟩
  · match taken, hlen with
    | [a], _ => cases a <;> decide
  · match taken, hlen with
    | [a, b], _ => cases a <;> cases b <;> decide
  · match taken, hlen with
    | [a, b, c], _ => cases a <;> cases b <;> cases c <;> decide
  · match taken, hlen with
    | [a, b], _ => cases a <;> cases b <;> decide
  · match taken, hlen with
    | [a, b, c], _ => cases a <;> cases b <;> cases c <;> decide
  · match taken, hlen with
    | [a, b, c, d], _ => cases a <;> cases b <;> cases c <;> cases d <;> decide
  · match taken, hlen with
    | [a, b], _ => cases a <;> cases b <;> decide

theorem picked_map {γ : Type} (f : Frame) (taken rest : Shape) (pattern : List Nat) (g : Held → γ) :
    (picked f taken rest pattern).map g =
      pattern.filterMap fun k => ((heldFrom (f.locals + slotCount rest) taken.reverse).map g)[k]? := by
  simp [picked, List.map_filterMap]

section

variable {c : Context} {pc : Nat} {kind : Shuffle} {s t : Shape} {e : Effect}

theorem shuffle_permutes (h : (perform c pc (.shuffle kind)).run s = .ok (e, t)) :
    ∃ taken rest pattern, s = taken ++ rest ∧ taken.length = kind.depth s ∧ (taken.length, pattern) ∈ exchanges ∧
      Picks kind taken pattern ∧ (permute c.frame pc taken.length pattern).run s = .ok (e.insns, t) := by
  obtain ⟨⟨take, pattern⟩, u, hshuffle, h⟩ := StackM.bind_ok.mp h
  obtain rfl := shuffleOf_keeps hshuffle
  obtain ⟨insns, v, hpermute, h⟩ := StackM.bind_ok.mp h
  obtain ⟨rfl, rfl⟩ := StackM.pure_ok.mp h
  have htake := (permute_eq_ok hpermute).1
  have hlen : (s.take take).length = take := List.length_take_of_le htake
  obtain ⟨hdepth, hpicks⟩ := shuffleOf_ok hshuffle htake
  refine ⟨s.take take, s.drop take, pattern, (List.take_append_drop ..).symm, hlen.trans hdepth, ?_, hpicks, ?_⟩
  · rw [hlen]
    exact shuffleOf_mem pc kind s _ hshuffle
  · rwa [hlen]

theorem slotCount_arrange (kind : Shuffle) (taken : Shape) : slotCount taken ≤ slotCount (kind.arrange id taken) := by
  cases kind with
  | swap => exact (slotCount_reverse taken).ge
  | dup | dupX1 | dupX2 | dup2 | dup2X1 | dup2X2 =>
      exact (Nat.le_add_right ..).trans_eq (slotCount_append taken _).symm

theorem categories_picked {taken rest : Shape} {pattern : List Nat} (hpicks : Picks kind taken pattern) (f : Frame) :
    ((picked f taken rest pattern).map (·.category)).reverse = kind.arrange id taken := by
  rw [picked_map, category_heldFrom]
  exact hpicks id taken (List.map_id _)

/-- A shuffle drops nothing: where the new stack fits, so did the old one. -/
theorem room_before {taken rest : Shape} {pattern : List Nat} {f : Frame} {insns : List Insn}
    (hpicks : Picks kind taken pattern)
    (h : (permute f pc taken.length pattern).run (taken ++ rest) = .ok (insns, t)) :
    slotCount (taken ++ rest) ≤ f.maxStack := by
  have hnew := (permute_ok h).2.1
  rw [← slotCount_reverse ((picked ..).map _), categories_picked hpicks] at hnew
  have hgrows := slotCount_arrange kind taken
  rw [slotCount_append]
  omega

theorem read_picked {taken rest : Shape} {pattern : List Nat} (hpicks : Picks kind taken pattern) (f : Frame)
    (regs : Nat → α) : ((picked f taken rest pattern).map (Held.read regs)).reverse =
      kind.arrange Prod.fst ((heldFrom (f.locals + slotCount rest) taken.reverse).map (Held.read regs)).reverse := by
  have hsizes : ((heldFrom (f.locals + slotCount rest) taken.reverse).map (Held.read regs)).reverse.map Prod.fst =
      taken := by
    rw [List.map_reverse, List.map_map]
    exact (congrArg List.reverse (category_heldFrom _ _)).trans (List.reverse_reverse _)
  have hpicked := hpicks Prod.fst _ hsizes
  rw [List.reverse_reverse] at hpicked
  rw [picked_map, hpicked]

/-- The moves of a shuffle whose temporaries are registers arrange the values on the stack. -/
theorem shuffle_arranges (h : (perform c pc (.shuffle kind)).run s = .ok (e, t))
    (hfit : c.frame.locals + c.frame.maxStack + slotCount (s.take (kind.depth s)) ≤ 65536) (regs : Nat → α) :
    ∃ regs', runMoves e.insns regs = some regs' ∧ Shuffled c.frame kind s t regs regs' := by
  obtain ⟨taken, rest, pattern, rfl, hlen, hexchange, hpicks, hpermute⟩ := shuffle_permutes h
  rw [← hlen, List.take_left] at hfit
  have hroom := room_before hpicks hpermute
  have htemps : TempsFit (c.frame.locals + c.frame.maxStack) (pickedPlacements c.frame taken rest pattern) := by
    have hle := (savedOf_exchange hexchange).1
    rw [TempsFit, savedValues_picked, List.map_map]
    exact (Nat.add_le_add_left hle _).trans hfit
  obtain ⟨regs', hrun, hvalues, hbelow⟩ := permute_values hpermute hroom htemps regs
  refine ⟨regs', hrun, ?_, ?_⟩
  · have htops : ((heldFrom (c.frame.locals + slotCount rest) taken.reverse).map (Held.read regs)).reverse.length =
        kind.depth (taken ++ rest) := by
      rw [← hlen, List.length_reverse, List.length_map, ← List.length_map (·.category), category_heldFrom,
        List.length_reverse]
    rw [hvalues, read_picked hpicks, stackValues_append, List.take_left' htops, List.drop_left' htops]
  · rwa [← hlen, List.drop_left]

end

section

variable {f : Frame} {rest : Shape} {regs : Nat → α}

/-- What is laid out by the one form of a shuffle that takes more than five slots. -/
def longest (f : Frame) (rest : Shape) : List Placement :=
  pickedPlacements f [.one, .two, .one, .two] rest [2, 3, 0, 1, 2, 3]

theorem slotCount_take_depth (kind : Shuffle) (s : Shape) :
    slotCount (s.take (kind.depth s)) ≤ 6 ∧
      (slotCount (s.take (kind.depth s)) = 6 → kind = .dup2X2 ∧ ∃ rest, s = .one :: .two :: .one :: .two :: rest) := by
  rcases s with _ | ⟨a, _ | ⟨b, _ | ⟨c, _ | ⟨d, rest⟩⟩⟩⟩
  · simp [slotCount]
  · cases kind <;> cases a <;> simp [Shuffle.depth, slotCount, Category.slots]
  · cases kind <;> cases a <;> cases b <;> simp [Shuffle.depth, slotCount, Category.slots]
  · cases kind <;> cases a <;> cases b <;> cases c <;> simp [Shuffle.depth, slotCount, Category.slots]
  · cases kind <;> cases a <;> cases b <;> cases c <;> cases d <;> simp [Shuffle.depth, slotCount, Category.slots]

theorem saves_longest (htemp : f.locals + f.maxStack = 65531) :
    saves (f.locals + f.maxStack) (longest f rest) =
      [⟨65531, .two, f.locals + slotCount rest⟩, ⟨65533, .one, f.locals + slotCount rest + 2⟩,
        ⟨65534, .two, f.locals + slotCount rest + 3⟩, ⟨0, .one, f.locals + slotCount rest + 5⟩] := by
  have hsaved : savedOf [.one, .two, .one, .two] [2, 3, 0, 1, 2, 3] = [⟨.two, 0⟩, ⟨.one, 2⟩, ⟨.two, 3⟩, ⟨.one, 5⟩] := by
    decide
  rw [saves, longest, savedValues_picked, hsaved, htemp]
  simp [placementsFrom, Held.shift, Category.slots, Nat.add_comm]

/-- The last temporary is register 0, which lies below the values that are moved. -/
theorem longest_first (htemp : f.locals + f.maxStack = 65531) (hroom : slotCount rest + 9 ≤ f.maxStack)
    (hstart : 0 < f.locals + slotCount rest) (regs : Nat → α) :
    (saves (f.locals + f.maxStack) (longest f rest) ++ arrivals (f.locals + f.maxStack) (longest f rest)).foldl
      Placement.write regs 0 = regs (f.locals + slotCount rest + 5) := by
  rw [List.foldl_append, foldl_write_of_not_covers, saves_longest htemp]
  · have hlast (held : Nat → α) : Placement.write held ⟨0, .one, f.locals + slotCount rest + 5⟩ 0 =
        held (f.locals + slotCount rest + 5) := Placement.write_target (k := 0) held Nat.one_pos
    rw [List.foldl_cons, List.foldl_cons, List.foldl_cons, List.foldl_cons, List.foldl_nil, hlast]
    change [_, _, _].foldl Placement.write regs _ = _
    refine foldl_write_of_not_covers _ fun w hw hcovers => ?_
    have htemps : 65531 ≤ w.target := by
      simp only [List.mem_cons, List.not_mem_nil, or_false] at hw
      rcases hw with rfl | rfl | rfl <;> dsimp only <;> omega
    have hle := hcovers.1
    omega
  · intro w hw hcovers
    obtain ⟨x, hx, rfl⟩ := List.mem_map.mp hw
    have hfrom := (placementsFrom_within (List.mem_of_mem_filter hx)).1
    have hle : x.target ≤ 0 := hcovers.1
    omega

/-- Where register 0 holds one of the values that are moved, the last temporary is written over. -/
theorem longest_third (hlocals : f.locals = 0) (htemp : f.locals + f.maxStack = 65531) (regs : Nat → α) :
    (saves (f.locals + f.maxStack) (longest f []) ++ arrivals (f.locals + f.maxStack) (longest f [])).foldl
      Placement.write regs 2 = regs 3 := by
  obtain ⟨locals, maxStack⟩ := f
  dsimp only at hlocals
  subst hlocals
  have hplaced : longest ⟨0, maxStack⟩ [] = [⟨0, .two, 3⟩, ⟨2, .one, 5⟩, ⟨3, .two, 0⟩, ⟨5, .one, 2⟩, ⟨6, .two, 3⟩,
      ⟨8, .one, 5⟩] := rfl
  have harrivals : arrivals 65531 (longest ⟨0, maxStack⟩ []) = [⟨0, .two, 65534⟩, ⟨2, .one, 0⟩, ⟨3, .two, 65531⟩,
      ⟨5, .one, 65533⟩, ⟨6, .two, 65534⟩, ⟨8, .one, 0⟩] := by
    rw [hplaced]
    decide
  rw [saves_longest htemp, htemp, harrivals]
  rfl

theorem Shuffled.third {regs' : Nat → α} (hstart : f.locals + slotCount rest = 0)
    (h : Shuffled f .dup2X2 (.one :: .two :: .one :: .two :: rest)
      (.one :: .two :: .one :: .two :: .one :: .two :: rest) regs regs') : regs' 2 = regs 5 := by
  obtain ⟨hlocals, hrest⟩ := Nat.add_eq_zero_iff.mp hstart
  have hfifth := congrArg (·[4]?) h.values
  simpa [stackValues, Shuffle.arrange, Shuffle.depth, slotCount_cons, Category.slots, hlocals, hrest] using hfifth

end

section

variable {c : Context} {f : Frame} {pc n : Nat} {kind : Shuffle} {s t : Shape} {e : Effect}

theorem registerCount_ok (hn : registerCount f = .ok n) :
    f.locals + f.maxStack + tempSlots = n ∧ f.locals + f.maxStack ≤ 65531 := by
  unfold registerCount at hn
  dsimp only at hn
  split at hn
  · rename_i hlt
    unfold tempSlots at hlt
    exact ⟨Except.ok.inj hn, by omega⟩
  · cases hn

theorem longest_not_shuffled [Nontrivial α] {rest : Shape} (htemp : c.frame.locals + c.frame.maxStack = 65531)
    (h : (perform c pc (.shuffle .dup2X2)).run (.one :: .two :: .one :: .two :: rest) = .ok (e, t)) :
    ∃ regs : Nat → α, ∀ regs', runMoves e.insns regs = some regs' →
      ¬Shuffled c.frame .dup2X2 (.one :: .two :: .one :: .two :: rest) t regs regs' := by
  obtain ⟨⟨take, pattern⟩, u, hshuffle, h⟩ := StackM.bind_ok.mp h
  cases hshuffle
  obtain ⟨insns, v, hpermute, h⟩ := StackM.bind_ok.mp h
  obtain ⟨rfl, rfl⟩ := StackM.pure_ok.mp h
  replace hpermute : (permute c.frame pc [Category.one, .two, .one, .two].length [2, 3, 0, 1, 2, 3]).run
      ([.one, .two, .one, .two] ++ rest) = .ok (insns, v) := hpermute
  obtain ⟨rfl, hroom, rfl⟩ := permute_ok hpermute
  have hrun (regs : Nat → α) : runMoves (movesFor pc (c.frame.locals + c.frame.maxStack) (longest c.frame rest)) regs =
      some ((saves (c.frame.locals + c.frame.maxStack) (longest c.frame rest) ++
        arrivals (c.frame.locals + c.frame.maxStack) (longest c.frame rest)).foldl Placement.write regs) := by
    rw [movesFor_eq, runMoves_map]
  obtain ⟨x, y, hxy⟩ := exists_pair_ne α
  rcases Nat.eq_zero_or_pos (c.frame.locals + slotCount rest) with hstart | hstart
  · obtain ⟨hlocals, hrest⟩ := Nat.add_eq_zero_iff.mp hstart
    obtain rfl : rest = [] := by
      rcases rest with _ | ⟨a, rest⟩
      · rfl
      · rw [slotCount_cons] at hrest
        have hpos := a.slots_pos
        omega
    refine ⟨fun r => if r = 3 then x else y, fun regs' hregs' hshuffled => hxy ?_⟩
    obtain rfl := Option.some.inj ((hrun _).symm.trans hregs')
    have hthird := hshuffled.third hstart
    rw [longest_third hlocals htemp] at hthird
    simpa using hthird
  · refine ⟨fun r => if r = 0 then x else y, fun regs' hregs' hshuffled => hxy ?_⟩
    obtain rfl := Option.some.inj ((hrun _).symm.trans hregs')
    have hfirst := hshuffled.below 0 hstart
    rw [longest_first htemp hroom hstart] at hfirst
    simpa using hfirst.symm

/-- The moves of a shuffle arrange the values on the stack if and only if the temporaries that it may need are among
the registers that an instruction can name. -/
theorem shuffled_iff [Nontrivial α] (hn : registerCount c.frame = .ok n)
    (h : (perform c pc (.shuffle kind)).run s = .ok (e, t)) :
    (∀ regs : Nat → α, ∃ regs', runMoves e.insns regs = some regs' ∧ Shuffled c.frame kind s t regs regs') ↔
      c.frame.locals + c.frame.maxStack + slotCount (s.take (kind.depth s)) ≤ 65536 := by
  refine ⟨fun hall => ?_, fun hfit => shuffle_arranges h hfit⟩
  by_contra hover
  obtain ⟨-, hfew⟩ := registerCount_ok hn
  obtain ⟨hsix, hform⟩ := slotCount_take_depth kind s
  obtain ⟨rfl, rest, rfl⟩ := hform (by omega)
  have htemp : c.frame.locals + c.frame.maxStack = 65531 := by omega
  obtain ⟨regs, hwrong⟩ := longest_not_shuffled (α := α) htemp h
  obtain ⟨regs', hrun, hshuffled⟩ := hall regs
  exact hwrong regs' hrun hshuffled

end

/-- A small value is copied below a wide one. -/
theorem shuffled_iff_dupX1 : ∃ e t regs',
    (perform ⟨⟨2, 4⟩, .numbered [], "a.B"⟩ 0 (.shuffle .dupX1)).run [.one, .two] = .ok (e, t) ∧
      runMoves e.insns (id : Nat → Nat) = some regs' ∧
        Shuffled ⟨2, 4⟩ .dupX1 [.one, .two] t id regs' := by
  have h : (perform ⟨⟨2, 4⟩, .numbered [], "a.B"⟩ 0 (.shuffle .dupX1)).run [.one, .two] = .ok (_, _) := rfl
  have hn : registerCount ⟨2, 4⟩ = .ok 10 := rfl
  obtain ⟨regs', hrun, hshuffled⟩ := (shuffled_iff hn h).mpr (by decide) (id : Nat → Nat)
  exact ⟨_, _, regs', rfl, hrun, hshuffled⟩

/-- Six slots are saved from register 65531 on: the last one goes to register 0. -/
theorem not_shuffled_dup2X2 : registerCount ⟨65522, 9⟩ = .ok 65535 ∧ ∃ e t regs',
    (perform ⟨⟨65522, 9⟩, .numbered [], "a.B"⟩ 4 (.shuffle .dup2X2)).run [.one, .two, .one, .two] = .ok (e, t) ∧
      runMoves e.insns (id : Nat → Nat) = some regs' ∧ regs' 0 = 65527 ∧
        ¬Shuffled ⟨65522, 9⟩ .dup2X2 [.one, .two, .one, .two] t id regs' := by
  refine ⟨rfl, _, _, _, rfl, rfl, rfl, fun h => ?_⟩
  exact absurd (h.below 0 (by decide)) (by decide)

end JavaLift.ClassFile
