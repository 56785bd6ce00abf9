import JavaLift.Proofs.Inline.Apply

namespace JavaLift

namespace Slot

def Before : Slot → Slot → Prop
  | .cond i, .cond j => i < j
  | .cond _, .arg _ => True
  | .arg _, .cond _ => False
  | .arg i, .arg j => i < j

theorem ofIndex_before (conditions : Nat) {i j : Nat} (h : i < j) :
    (ofIndex conditions i).Before (ofIndex conditions j) := by
  unfold ofIndex
  split <;> split <;> simp only [Before] <;> omega

theorem ofIndex_of_index? {conditions i : Nat} {s : Slot} (h : s.index? conditions = some i) :
    ofIndex conditions i = s := index?_inj (index?_ofIndex conditions i) h

end Slot

def ArgPath.Before : ArgPath → ArgPath → Prop := List.Lex Slot.Before

namespace Arg

inductive Top where
  | reg (r : Register)
  | lit (value : Int) (type : Ty)
  | node (head : Head)

def top : Arg → Top
  | .reg r => .reg r
  | .lit value type => .lit value type
  | .tree head _ => .node head

def topAt? (a : Arg) (path : ArgPath) : Option Top := (a.atPath? path).map top

mutual

theorem reads_pairwise : (a : Arg) → (reads a).Pairwise fun x y => x.1.Before y.1
  | .reg _ => List.pairwise_singleton _ _
  | .lit .. => .nil
  | .tree head args => readsFrom_pairwise head.op.conditions 0 args

theorem readsFrom_pairwise (conditions i : Nat) : (args : List Arg) →
    (readsFrom conditions i args).Pairwise fun x y => x.1.Before y.1
  | [] => .nil
  | a :: rest => by
      rw [readsFrom, List.pairwise_append, List.pairwise_map]
      refine ⟨(reads_pairwise a).imp .cons, readsFrom_pairwise conditions (i + 1) rest, ?_⟩
      intro x hx y hy
      obtain ⟨read, -, rfl⟩ := List.mem_map.mp hx
      obtain ⟨j, hj, tail, ht⟩ := readsFrom_head conditions (i + 1) rest (List.mem_map_of_mem hy)
      rw [ht]
      exact .rel (Slot.ofIndex_before conditions (by omega))

end

theorem readsFrom_append (conditions i : Nat) (args args' : List Arg) :
    readsFrom conditions i (args ++ args') =
      readsFrom conditions i args ++ readsFrom conditions (i + args.length) args' := by
  induction args generalizing i with
  | nil => rfl
  | cons a args ih =>
      rw [List.cons_append, readsFrom, readsFrom, ih, List.append_assoc, List.length_cons, Nat.add_assoc, Nat.add_comm 1]

theorem eq_take_append_drop {args : List Arg} {i : Nat} {a : Arg} (h : args[i]? = some a) :
    args = args.take i ++ a :: args.drop (i + 1) ∧ (args.take i).length = i ∧
      ∀ b, args.set i b = args.take i ++ b :: args.drop (i + 1) := by
  obtain ⟨hi, rfl⟩ := List.getElem?_eq_some_iff.mp h
  refine ⟨?_, List.length_take_of_le hi.le, fun b => List.set_eq_take_append_cons_drop.trans (if_pos hi)⟩
  rw [List.getElem_cons_drop, List.take_append_drop]

namespace Replaced

variable {r : Register} {t a b : Arg} {path : ArgPath}

theorem atPath?_eq (h : Replaced r t path a b) : a.atPath? path = some (.reg r) := by
  induction h with
  | here => rfl
  | under slot found inner ih => simp only [atPath?, slot, found, Option.bind_eq_bind, Option.bind_some, ih]

/-- The reads of the new part stand where the read that they replace stood, below its path. -/
theorem reads_eq (h : Replaced r t path a b) : ∃ before after, a.reads = before ++ (path, r) :: after ∧
    b.reads = before ++ t.reads.map (fun read => (path ++ read.1, read.2)) ++ after := by
  induction h with
  | here => exact ⟨[], [], rfl, by simp⟩
  | @under s path head args i a b slot found inner ih =>
      obtain ⟨before, after, ha, hb⟩ := ih
      obtain ⟨hargs, hlength, hset⟩ := eq_take_append_drop found
      have hslot := Slot.ofIndex_of_index? slot
      have hreads (x : Arg) : readsFrom head.op.conditions 0 (args.take i ++ x :: args.drop (i + 1)) =
          readsFrom head.op.conditions 0 (args.take i) ++ (x.reads.map (fun read => (s :: read.1, read.2)) ++
            readsFrom head.op.conditions (i + 1) (args.drop (i + 1))) := by
        rw [readsFrom_append, hlength, Nat.zero_add, readsFrom, hslot]
      refine ⟨readsFrom head.op.conditions 0 (args.take i) ++ before.map (fun read => (s :: read.1, read.2)),
        after.map (fun read => (s :: read.1, read.2)) ++ readsFrom head.op.conditions (i + 1) (args.drop (i + 1)), ?_, ?_⟩
      · calc
          (Arg.tree head args).reads = readsFrom head.op.conditions 0 (args.take i ++ a :: args.drop (i + 1)) := by
            rw [← hargs, reads]
          _ = _ := by
            rw [hreads, ha]
            simp only [List.map_append, List.map_cons, List.append_assoc, List.cons_append]
      · rw [reads, hset, hreads, hb]
        simp only [List.map_append, List.map_map, List.append_assoc, Function.comp_def, List.cons_append]

/-- The nodes of the new part come in among the others. -/
theorem heads_eq (h : Replaced r t path a b) : ∃ before after, a.heads = before ++ after ∧
    b.heads = before ++ t.heads ++ after := by
  induction h with
  | here => exact ⟨[], [], rfl, by simp⟩
  | @under s path head args i a b slot found inner ih =>
      obtain ⟨before, after, ha, hb⟩ := ih
      obtain ⟨hargs, -, hset⟩ := eq_take_append_drop found
      refine ⟨head :: ((args.take i).flatMap heads ++ before), after ++ (args.drop (i + 1)).flatMap heads, ?_, ?_⟩
      · calc
          (Arg.tree head args).heads = head :: (args.take i ++ a :: args.drop (i + 1)).flatMap heads := by
            rw [← hargs, heads, headsOf_eq]
          _ = _ := by simp only [List.flatMap_append, List.flatMap_cons, ha, List.append_assoc, List.cons_append]
      · simp only [heads, headsOf_eq, hset, List.flatMap_append, List.flatMap_cons, hb, List.append_assoc,
          List.cons_append]

/-- Below the path there stands the new part, and everywhere else what stood there before. -/
theorem topAt?_eq (h : Replaced r t path a b) (q : ArgPath) :
    b.topAt? q = if path <+: q then t.topAt? (q.drop path.length) else a.topAt? q := by
  induction h generalizing q with
  | here => rw [if_pos (List.nil_prefix), List.length_nil, List.drop_zero]
  | @under s path head args i a b slot found inner ih =>
      cases q with
      | nil => rw [if_neg (by simp)]; rfl
      | cons s' q =>
          have hi : i < args.length := (List.getElem?_eq_some_iff.mp found).1
          by_cases hs : s' = s
          · subst hs
            have hnew : (Arg.tree head (args.set i b)).topAt? (s' :: q) = b.topAt? q := by
              simp only [topAt?, atPath?, slot, Option.bind_eq_bind, Option.bind_some, List.getElem?_set_self hi]
            have hold : (Arg.tree head args).topAt? (s' :: q) = a.topAt? q := by
              simp only [topAt?, atPath?, slot, Option.bind_eq_bind, Option.bind_some, found]
            simp only [hnew, hold, ih, List.prefix_cons_inj, List.length_cons, List.drop_succ_cons]
          · rw [if_neg fun hprefix => hs (List.cons_prefix_cons.mp hprefix).1.symm]
            simp only [topAt?, atPath?, Option.bind_eq_bind]
            cases hindex : s'.index? head.op.conditions with
            | none => rfl
            | some j =>
                have hne : i ≠ j := by
                  rintro rfl
                  exact hs (Slot.index?_inj hindex slot)
                rw [Option.bind_some, Option.bind_some, List.getElem?_set_ne hne]

end Replaced

end Arg

namespace Insn

/-- The second tree is the first one with `d` in the place of the register `r` at a path: what `d` reads is read instead
of the register, the nodes of `d` come to those of the tree, and nothing else changes anywhere. -/
structure Grafted (i whole : Insn) (path : ArgPath) (r : Register) (d : Insn) : Prop where
  reads : ∃ before after, i.reads = before ++ (path, r) :: after ∧
    whole.reads = before ++ d.reads.map (fun read => (path ++ read.1, read.2)) ++ after
  heads : ∃ before after, i.heads = before ++ after ∧ whole.heads = before ++ d.heads ++ after
  tops : ∀ q, whole.toArg.topAt? q =
    if path <+: q then d.toArg.topAt? (q.drop path.length) else i.toArg.topAt? q

theorem exists_grafted {i : Insn} {path : ArgPath} {r : Register} (h : (path, r) ∈ i.reads) (d : Insn) :
    ∃ whole, i.wrapAt? path d = some whole ∧ i.Grafted whole path r d := by
  obtain ⟨whole, hwrap, hreplaced⟩ := wrapAt?_eq h d
  exact ⟨whole, hwrap, hreplaced.reads_eq, hreplaced.heads_eq, hreplaced.topAt?_eq⟩

theorem argAt?_of_reads {i : Insn} {path : ArgPath} {r : Register} (h : (path, r) ∈ i.reads) :
    i.argAt? path = some (.reg r) := by
  obtain ⟨b, hb⟩ := Arg.replaced_of_reads h i.toArg
  have hat := hb.atPath?_eq
  unfold argAt?
  rw [if_neg, hat]
  intro hempty
  obtain rfl := List.isEmpty_iff.mp hempty
  cases hat

/-- The positions of the registers that an instruction reads are different and in order. The register stands at its
position, and putting an instruction there changes nothing else. A tree is free in its place if all its nodes are. -/
theorem reads_positions (i : Insn) :
    (i.reads.map Prod.fst).Nodup ∧ (i.reads.Pairwise fun x y => x.1.Before y.1) ∧
    (∀ path r, (path, r) ∈ i.reads → i.argAt? path = some (.reg r) ∧
      ∀ d, ∃ whole, i.wrapAt? path d = some whole ∧ i.Grafted whole path r d) ∧
    (i.canReorder = true ↔ ∀ head ∈ i.heads, head.op.canReorder = true) := by
  refine ⟨i.nodup_reads, Arg.reads_pairwise i.toArg, ?_, ?_⟩
  · intro path r h
    exact ⟨argAt?_of_reads h, exists_grafted h⟩
  · rw [canReorder, Arg.canReorder_eq, List.all_eq_true]
    rfl

def returnChoice : Insn :=
  .of .ret [.tree ⟨.ternary .eq 1, none, 0, none⟩
    [.ofReg 0, .lit 1 .int, .tree ⟨.arith .add .int, some (.plain 5), 1, none⟩ [.ofReg 3, .ofReg 0]]] none 2

def product : Insn := .of (.arith .mul .int) [.ofReg 6, .ofReg 7] (some (.plain 0)) 1

theorem reads_positions_returnChoice :
    ([.arg 0, .arg 1, .arg 1], .plain 0) ∈ returnChoice.reads ∧
      returnChoice.argAt? [.arg 0, .arg 1, .arg 1] = some (.ofReg 0) ∧
      ∃ whole, returnChoice.wrapAt? [.arg 0, .arg 1, .arg 1] product = some whole ∧
        returnChoice.Grafted whole [.arg 0, .arg 1, .arg 1] (.plain 0) product := by
  have hread : ([.arg 0, .arg 1, .arg 1], .plain 0) ∈ returnChoice.reads := by decide
  obtain ⟨-, -, hreads, -⟩ := reads_positions returnChoice
  obtain ⟨hat, hgraft⟩ := hreads _ _ hread
  exact ⟨hread, hat, hgraft product⟩

end Insn

end JavaLift
