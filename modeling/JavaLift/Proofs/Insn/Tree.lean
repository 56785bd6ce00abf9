import JavaLift.Insn.Tree
import Mathlib

namespace JavaLift

/-- The branches of a conditional value. Only one of them is computed. -/
def Head.branches (head : Head) (args : List Arg) : List Arg :=
  match head.op with
  | .ternary _ n => args.drop n
  | _ => []

def Head.isBranch (head : Head) : Slot → Bool
  | .arg _ => match head.op with
    | .ternary .. => true
    | _ => false
  | .cond _ => false

theorem flatMap_set_perm_append {α β : Type} (f : α → List β) (xs ys : List β) {l : List α} {i : Nat} {a b : α}
    (ha : l[i]? = some a) (hb : (f b ++ ys).Perm (f a ++ xs)) :
    ((l.set i b).flatMap f ++ ys).Perm (l.flatMap f ++ xs) := by
  induction l generalizing i with
  | nil => simp at ha
  | cons c l ih =>
      cases i with
      | zero =>
          cases ha
          simp only [List.set_cons_zero, List.flatMap_cons, List.append_assoc]
          refine (List.perm_append_comm.append_left _).trans ?_
          rw [← List.append_assoc]
          refine (hb.append_right _).trans ?_
          rw [List.append_assoc]
          exact List.perm_append_comm.append_left _
      | succ i =>
          simp only [List.set_cons_succ, List.flatMap_cons, List.append_assoc]
          exact (ih ha).append_left _

theorem flatMap_set_perm {α β : Type} (f : α → List β) (xs : List β) {l : List α} {i : Nat} {a b : α}
    (ha : l[i]? = some a) (hb : (f b).Perm (f a ++ xs)) : ((l.set i b).flatMap f).Perm (l.flatMap f ++ xs) := by
  simpa using flatMap_set_perm_append f xs [] ha (by simpa using hb)

namespace Slot

theorem ofIndex_injective (conditions : Nat) : Function.Injective (ofIndex conditions) := by
  intro i j h
  unfold ofIndex at h
  split at h <;> split at h
  · simpa using h
  · cases h
  · cases h
  · have : i - conditions = j - conditions := by simpa using h
    omega

@[simp] theorem index?_ofIndex (conditions i : Nat) : (ofIndex conditions i).index? conditions = some i := by
  unfold ofIndex
  split
  · simp [index?, *]
  · simp only [index?, Option.some.injEq]
    omega

theorem index?_inj {conditions i : Nat} {s t : Slot} (hs : s.index? conditions = some i)
    (ht : t.index? conditions = some i) : s = t := by
  cases s <;> cases t <;> grind [index?]

end Slot

namespace Arg

/-- The nodes of a tree that are not free in their place. -/
def effects (a : Arg) : List Head := a.heads.filter fun h => !h.op.canReorder

mutual

def branchEffects : Arg → List (Head × Head)
  | .reg _ | .lit .. => []
  | .tree head args => ((head.branches args).flatMap effects).map (head, ·) ++ branchEffectsOf args

def branchEffectsOf : List Arg → List (Head × Head)
  | [] => []
  | a :: rest => branchEffects a ++ branchEffectsOf rest

end

def leaves (a : Arg) : List Register := a.reads.map Prod.snd

/-- The conditional values that a path enters a branch of, outermost first. -/
def entered : ArgPath → Arg → List Head
  | s :: rest, .tree head args =>
    (if head.isBranch s then [head] else [])
      ++ ((s.index? head.op.conditions).bind fun i => args[i]?).elim [] (entered rest)
  | _, _ => []

@[simp] theorem headsOf_eq (args : List Arg) : headsOf args = args.flatMap heads := by
  induction args with
  | nil => rfl
  | cons a rest ih => simp [headsOf, ih]

@[simp] theorem branchEffectsOf_eq (args : List Arg) : branchEffectsOf args = args.flatMap branchEffects := by
  induction args with
  | nil => rfl
  | cons a rest ih => simp [branchEffectsOf, ih]

theorem leaves_readsFrom (conditions i : Nat) (args : List Arg) :
    (readsFrom conditions i args).map Prod.snd = args.flatMap leaves := by
  induction args generalizing i with
  | nil => rfl
  | cons a rest ih => simp [readsFrom, leaves, ih, Function.comp_def]

@[simp] theorem leaves_tree (head : Head) (args : List Arg) : leaves (.tree head args) = args.flatMap leaves :=
  leaves_readsFrom head.op.conditions 0 args

mutual

theorem canReorder_eq : (a : Arg) → a.canReorder = a.heads.all fun h => h.op.canReorder
  | .reg _ | .lit .. => rfl
  | .tree head args => by simp only [canReorder, heads, List.all_cons, allReorder_heads args]

theorem allReorder_heads : (args : List Arg) → allReorder args = (headsOf args).all fun h => h.op.canReorder
  | [] => rfl
  | a :: rest => by simp only [allReorder, headsOf, List.all_append, canReorder_eq a, allReorder_heads rest]

end

theorem effects_eq_nil {a : Arg} : a.effects = [] ↔ a.canReorder = true := by
  simp [effects, canReorder_eq]

theorem mem_readsFrom {conditions i : Nat} {args : List Arg} {path : ArgPath} {r : Register} :
    (path, r) ∈ readsFrom conditions i args ↔ ∃ j a tail, args[j]? = some a ∧ (tail, r) ∈ reads a ∧
      path = Slot.ofIndex conditions (i + j) :: tail := by
  induction args generalizing i with
  | nil => simp [readsFrom]
  | cons a rest ih =>
      simp only [readsFrom, List.mem_append, List.mem_map, Prod.mk.injEq, Prod.exists, ih]
      constructor
      · rintro (⟨tail, r', h, rfl, rfl⟩ | ⟨j, b, tail, hj, h, rfl⟩)
        · exact ⟨0, a, tail, rfl, h, rfl⟩
        · exact ⟨j + 1, b, tail, hj, h, by rw [Nat.add_right_comm, Nat.add_assoc]⟩
      · rintro ⟨_ | j, b, tail, hj, h, rfl⟩
        · cases hj
          exact .inl ⟨tail, r, h, rfl, rfl⟩
        · exact .inr ⟨j, b, tail, hj, h, by rw [Nat.add_right_comm, Nat.add_assoc]⟩

mutual

theorem nodup_reads : (a : Arg) → ((reads a).map Prod.fst).Nodup
  | .reg _ => by simp [reads]
  | .lit .. => by simp [reads]
  | .tree head args => by simpa [reads] using nodup_readsFrom head.op.conditions 0 args

theorem nodup_readsFrom (conditions i : Nat) : (args : List Arg) →
    ((readsFrom conditions i args).map Prod.fst).Nodup
  | [] => by simp [readsFrom]
  | a :: rest => by
      simp only [readsFrom, List.map_append, List.map_map, List.nodup_append]
      refine ⟨?_, nodup_readsFrom conditions (i + 1) rest, ?_⟩
      · have h := (nodup_reads a).map (List.cons_injective (a := Slot.ofIndex conditions i))
        simpa [List.map_map, Function.comp_def] using h
      · intro path hp other ho he
        obtain ⟨read, -, rfl⟩ := List.mem_map.mp hp
        obtain ⟨j, hj, tail, ht⟩ := readsFrom_head conditions (i + 1) rest ho
        have := Slot.ofIndex_injective conditions (List.head_eq_of_cons_eq (he.trans ht))
        omega

theorem readsFrom_head (conditions i : Nat) : (args : List Arg) → {path : ArgPath} →
    path ∈ (readsFrom conditions i args).map Prod.fst → ∃ j, i ≤ j ∧ ∃ tail, path = Slot.ofIndex conditions j :: tail
  | [], _, h => by simp [readsFrom] at h
  | a :: rest, path, h => by
      simp only [readsFrom, List.map_append, List.map_map, List.mem_append] at h
      rcases h with h | h
      · obtain ⟨read, -, rfl⟩ := List.mem_map.mp h
        exact ⟨i, Nat.le_refl i, _, rfl⟩
      · obtain ⟨j, hj, tail, ht⟩ := readsFrom_head conditions (i + 1) rest h
        exact ⟨j, by omega, tail, ht⟩

end

/-- The second tree is the first one with `t` in the place of the register `r` at a path. -/
inductive Replaced (r : Register) (t : Arg) : ArgPath → Arg → Arg → Prop
  | here : Replaced r t [] (.reg r) t
  | under {s : Slot} {path : ArgPath} {head : Head} {args : List Arg} {i : Nat} {a b : Arg}
      (slot : s.index? head.op.conditions = some i) (found : args[i]? = some a) (inner : Replaced r t path a b) :
      Replaced r t (s :: path) (.tree head args) (.tree head (args.set i b))

theorem replaced_of_reads {a : Arg} {path : ArgPath} {r : Register} (h : (path, r) ∈ a.reads) (t : Arg) :
    ∃ b, Replaced r t path a b := by
  induction path generalizing a with
  | nil =>
      cases a with
      | reg r' =>
          obtain rfl : r = r' := by simpa [reads] using h
          exact ⟨t, .here⟩
      | lit => simp [reads] at h
      | tree head args =>
          obtain ⟨_, _, _, _, _, hpath⟩ := mem_readsFrom.mp h
          cases hpath
  | cons s path ih =>
      cases a with
      | reg => simp [reads] at h
      | lit => simp [reads] at h
      | tree head args =>
          obtain ⟨j, a, tail, hj, htail, hpath⟩ := mem_readsFrom.mp h
          cases hpath
          obtain ⟨b, hb⟩ := ih htail
          exact ⟨_, .under (Slot.index?_ofIndex _ _) (by rwa [Nat.zero_add]) hb⟩

namespace Replaced

variable {r : Register} {t a b : Arg} {path : ArgPath}

theorem modifyAt?_eq (h : Replaced r t path a b) {f : Arg → Option Arg} (hf : f (.reg r) = some t) :
    a.modifyAt? f path = some b := by
  induction h with
  | here => simpa [modifyAt?] using hf
  | under slot found inner ih => simp [modifyAt?, slot, found, ih]

theorem heads_perm (h : Replaced r t path a b) : b.heads.Perm (a.heads ++ t.heads) := by
  induction h with
  | here => simp [heads]
  | under slot found inner ih =>
      simp only [heads, headsOf_eq, List.cons_append]
      exact (flatMap_set_perm heads _ found ih).cons _

theorem leaves_perm (h : Replaced r t path a b) : (b.leaves ++ [r]).Perm (a.leaves ++ t.leaves) := by
  induction h with
  | here => exact List.perm_append_comm
  | under slot found inner ih =>
      rw [leaves_tree, leaves_tree]
      exact flatMap_set_perm_append leaves t.leaves [r] found ih

theorem effects_perm (h : Replaced r t path a b) : b.effects.Perm (a.effects ++ t.effects) := by
  simpa [effects] using h.heads_perm.filter fun h => !h.op.canReorder

theorem branches_perm {head : Head} {s : Slot} {args : List Arg} {i : Nat} (slot : s.index? head.op.conditions = some i)
    (found : args[i]? = some a) (hb : b.effects.Perm (a.effects ++ t.effects)) :
    ((head.branches (args.set i b)).flatMap effects).Perm
      ((head.branches args).flatMap effects ++ if head.isBranch s then t.effects else []) := by
  obtain ⟨op, _, _, _⟩ := head
  cases op with
  | ternary _ n =>
      cases s with
      | cond k =>
          obtain ⟨hk, rfl⟩ : k < n ∧ k = i := by
            change (if k < n then some k else none) = some i at slot
            simpa using slot
          simp [Head.branches, Head.isBranch, List.drop_set, hk]
      | arg k =>
          obtain rfl : n + k = i := by simpa [Slot.index?, Op.conditions] using slot
          simp only [Head.branches, Head.isBranch, List.drop_set, Nat.add_sub_cancel_left, if_true]
          rw [if_neg (by omega)]
          exact flatMap_set_perm effects _ (by rwa [List.getElem?_drop]) hb
  | _ => cases s <;> simp [Head.branches, Head.isBranch]

/-- What is new in the branches of conditional values is what was there in the new part, and the effects of the new
part in the branches that the path enters. -/
theorem branchEffects_perm (h : Replaced r t path a b) :
    b.branchEffects.Perm
      (a.branchEffects ++ (t.branchEffects ++ (a.entered path).flatMap fun head => t.effects.map (head, ·))) := by
  induction h with
  | here => simp [branchEffects, entered]
  | @under s path head args i a b slot found inner ih =>
      have hhere := (branches_perm slot found inner.effects_perm).map (head, ·)
      have hbelow := flatMap_set_perm branchEffects _ found ih
      simp only [branchEffects, branchEffectsOf_eq, entered, slot, Option.bind_some, found, Option.elim_some]
      refine (hhere.append hbelow).trans ?_
      split
      · simp only [List.map_append, List.flatMap_append, List.flatMap_cons, List.flatMap_nil, List.append_nil]
        grind
      · simp [List.append_assoc]

theorem reads_frame (h : Replaced r t path a b) {other : ArgPath} {r' : Register} (hr : (other, r') ∈ a.reads)
    (hne : other ≠ path) : (other, r') ∈ b.reads ∧ b.entered other = a.entered other := by
  induction h generalizing other with
  | here => simp_all [reads]
  | @under s path head args i a b slot found inner ih =>
      obtain ⟨j, c, tail, hj, htail, rfl⟩ := mem_readsFrom.mp hr
      rw [Nat.zero_add] at hne ⊢
      simp only [reads, mem_readsFrom, entered, Slot.index?_ofIndex, Option.bind_some, Nat.zero_add]
      by_cases hji : j = i
      · subst hji
        obtain rfl : a = c := Option.some.inj (found.symm.trans hj)
        obtain rfl := Slot.index?_inj (Slot.index?_ofIndex head.op.conditions j) slot
        obtain ⟨hread, hentered⟩ := ih htail fun he => hne (he ▸ rfl)
        have hset : (args.set j b)[j]? = some b := by simp [(List.getElem?_eq_some_iff.mp found).1]
        exact ⟨⟨j, b, tail, hset, hread, rfl⟩, by simp [hset, found, hentered]⟩
      · have hset : (args.set i b)[j]? = some c := by rwa [List.getElem?_set_ne (Ne.symm hji)]
        exact ⟨⟨j, c, tail, hset, htail, rfl⟩, by simp [hset, hj]⟩

end Replaced

end Arg

theorem Insn.toHead_replaced {i whole : Insn} {r : Register} {t : Arg} {path : ArgPath}
    (h : Arg.Replaced r t path i.toArg whole.toArg) : whole.toHead = i.toHead := by
  generalize hi : i.toArg = a at h
  generalize hw : whole.toArg = b at h
  cases h with
  | here => cases hi
  | under slot found inner =>
      cases hi
      exact (Arg.tree.inj hw).1

theorem Insn.nodup_reads (i : Insn) : (i.reads.map Prod.fst).Nodup := Arg.nodup_reads i.toArg

end JavaLift
