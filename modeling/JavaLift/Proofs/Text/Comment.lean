import JavaLift.Proofs.Text.Hex
import JavaLift.Text.Quoted

namespace JavaLift.Text

/-- The text has in it what closes a comment. -/
def Closes (cs : List Char) : Prop := ['*', '/'] <:+: cs

/-- No part of what closes a comment is in the text. -/
def Inert (cs : List Char) : Prop := ∀ c ∈ cs, c ≠ '*' ∧ c ≠ '/'

variable {cs ds mid : List Char} {c : Char} {s t : String}

@[simp] theorem not_closes_nil : ¬ Closes [] := by simp [Closes]

theorem closes_cons : Closes (c :: cs) ↔ c = '*' ∧ cs.head? = some '/' ∨ Closes cs := by
  unfold Closes
  rw [List.infix_cons_iff, List.cons_prefix_cons, List.singleton_prefix_iff_head?_eq_some, eq_comm]

theorem closes_append :
    Closes (cs ++ ds) ↔ Closes cs ∨ Closes ds ∨ cs.getLast? = some '*' ∧ ds.head? = some '/' := by
  induction cs with
  | nil => simp
  | cons c cs ih =>
      rw [List.cons_append, closes_cons, closes_cons, ih]
      cases cs with
      | nil =>
          have hlast : some c = some '*' ↔ c = '*' := Option.some_inj
          simp only [List.nil_append, not_closes_nil, List.getLast?_nil, List.head?_nil, List.getLast?_singleton, hlast,
            reduceCtorEq, and_false, false_and, or_false, false_or]
          tauto
      | cons d cs =>
          rw [List.cons_append, List.head?_cons, List.head?_cons, List.getLast?_cons_cons]
          tauto

theorem inert_of_all (h : cs.all (fun c => c != '*' && c != '/') = true) : Inert cs := by
  simpa [Inert] using h

theorem Inert.not_closes (h : Inert cs) : ¬ Closes cs := fun hwithin =>
  (h '*' (hwithin.subset List.mem_cons_self)).1 rfl

theorem Inert.getLast? (h : Inert cs) : cs.getLast? ≠ some '*' := fun hlast => (h '*' (List.mem_of_getLast? hlast)).1 rfl

theorem Inert.head? (h : Inert cs) : cs.head? ≠ some '/' := fun hhead => (h '/' (List.mem_of_head? hhead)).2 rfl

theorem Inert.append (h : Inert cs) (h' : Inert ds) : Inert (cs ++ ds) := fun c hc =>
  (List.mem_append.mp hc).elim (h c) (h' c)

theorem inert_append (hs : Inert s.toList) (ht : Inert t.toList) : Inert (s ++ t).toList := by
  rw [String.toList_append]
  exact hs.append ht

/-- Nothing closes a comment across a border that the first part does not lead up to or the second does not go on. -/
theorem closes_apart (h : cs.getLast? ≠ some '*' ∨ ds.head? ≠ some '/') : Closes (cs ++ ds) ↔ Closes cs ∨ Closes ds := by
  rw [closes_append]
  have hnot : ¬ (cs.getLast? = some '*' ∧ ds.head? = some '/') := fun hboth => h.elim (· hboth.1) (· hboth.2)
  tauto

theorem closes_inert_append (h : Inert cs) : Closes (cs ++ ds) ↔ Closes ds := by
  rw [closes_apart (.inl h.getLast?), or_iff_right h.not_closes]

theorem closes_append_inert (h : Inert ds) : Closes (cs ++ ds) ↔ Closes cs := by
  rw [closes_apart (.inr h.head?), or_iff_left h.not_closes]

/-- With something between them two texts are apart. -/
theorem closes_between (h : Inert mid) (hne : mid ≠ []) : Closes (cs ++ (mid ++ ds)) ↔ Closes cs ∨ Closes ds := by
  have hhead : (mid ++ ds).head? ≠ some '/' := by
    rw [List.head?_append_of_ne_nil mid hne]
    exact h.head?
  rw [closes_apart (.inr hhead), closes_inert_append h]

/-- A comment that goes on with a text and the sign that closes it is closed there, unless that is done before. -/
theorem first_closes_iff {inside rest : List Char} :
    (∀ before after, inside ++ ['*', '/'] ++ rest = before ++ ['*', '/'] ++ after → inside.length ≤ before.length) ↔
      ¬ Closes inside := by
  constructor
  · rintro h ⟨before, after, rfl⟩
    have hle := h before (after ++ ['*', '/'] ++ rest) (by simp [List.append_assoc])
    simp at hle
  · intro h before after heq
    by_contra! hlt
    have hborder : Closes (inside ++ ['*']) ↔ Closes inside ∨ Closes ['*'] := closes_apart (.inr (by simp))
    have hprefix : before ++ ['*', '/'] <+: inside ++ ['*'] := by
      refine List.prefix_of_prefix_length_le ⟨after, rfl⟩ ⟨'/' :: rest, ?_⟩ ?_
      · simpa [List.append_assoc] using heq
      · simp only [List.length_append, List.length_cons, List.length_nil]
        omega
    have hcloses : Closes (inside ++ ['*']) := (List.suffix_append before _).isInfix.trans hprefix.isInfix
    rw [hborder] at hcloses
    exact h (hcloses.resolve_right (by simp [closes_cons]))

/-- Character by character nothing else is written, as long as the two characters stay what they are. -/
theorem closes_flatMap {f : Char → List Char} (hstar : f '*' = ['*']) (hslash : f '/' = ['/'])
    (hf : ∀ c, c ≠ '*' → c ≠ '/' → Inert (f c) ∧ f c ≠ []) : Closes (cs.flatMap f) ↔ Closes cs := by
  have hhead (cs : List Char) : (cs.flatMap f).head? = some '/' ↔ cs.head? = some '/' := by
    cases cs with
    | nil => simp
    | cons c cs =>
        rw [List.flatMap_cons]
        by_cases hc : c = '*'
        · subst hc
          simp [hstar]
        by_cases hc' : c = '/'
        · subst hc'
          simp [hslash]
        obtain ⟨hinert, hne⟩ := hf c hc hc'
        rw [List.head?_append_of_ne_nil _ hne, List.head?_cons, Option.some_inj]
        exact ⟨fun h => absurd h hinert.head?, fun h => absurd h hc'⟩
  induction cs with
  | nil => simp
  | cons c cs ih =>
      have hrest : Closes (cs.flatMap f) ↔ Closes cs := ih
      rw [List.flatMap_cons, closes_cons, ← hrest]
      by_cases hc : c = '*'
      · subst hc
        rw [hstar, List.singleton_append, closes_cons, hhead]
      by_cases hc' : c = '/'
      · subst hc'
        rw [hslash, List.singleton_append, closes_cons]
        simp
      rw [closes_inert_append (hf c hc hc').1]
      simp [hc]

theorem inert_hex (width n : Nat) : Inert (hex width n).toList := forall_mem_hex (by decide) width n

theorem inert_offset (n : Nat) : Inert (offset n).toList := forall_mem_offset (by decide) (by decide) n

theorem inert_repr (n : Nat) : Inert n.repr.toList := by
  rw [Nat.repr_eq_ofList_toDigits, String.toList_ofList]
  intro c hc
  have hdigit := Nat.isDigit_of_mem_toDigits (by decide) le_rfl hc
  constructor
  · rintro rfl
    cases hdigit
  · rintro rfl
    cases hdigit

theorem inert_int (k : Int) : Inert (toString k).toList := by
  cases k with
  | ofNat n => exact inert_repr n
  | negSucc n =>
      have htext : (toString (Int.negSucc n)).toList = '-' :: (n + 1).repr.toList := by
        change ("-" ++ (n + 1).repr).toList = _
        rw [String.toList_append]
        rfl
      rw [htext]
      exact @Inert.append ['-'] _ (inert_of_all (by simp)) (inert_repr (n + 1))

theorem inert_intercalate {sep : String} {parts : List String} (hsep : Inert sep.toList)
    (h : ∀ s ∈ parts, Inert s.toList) : Inert (sep.intercalate parts).toList := by
  induction parts with
  | nil => simp [Inert]
  | cons s rest ih =>
      have hs := h s List.mem_cons_self
      cases rest with
      | nil => simpa using hs
      | cons t rest =>
          rw [String.intercalate_cons_cons]
          exact inert_append (inert_append hs hsep) (ih fun u hu => h u (List.mem_cons_of_mem _ hu))

/-- Quoting leaves the two characters as they are. -/
theorem closes_quoted (s : String) : Closes (quoted s).toList ↔ Closes s.toList := by
  have hhidden (c : Char) : Inert ("\\u\x7b".toList ++ Nat.toDigits 16 c.toNat ++ ['\x7d']) := by
    refine .append (.append ?_ (forall_mem_toDigits (by decide) _)) ?_ <;> exact inert_of_all (by simp)
  have hother (c : Char) (hc : c ≠ '*') (hc' : c ≠ '/') : Inert (escapeChar '"' c) ∧ escapeChar '"' c ≠ [] := by
    unfold escapeChar
    split_ifs
    all_goals
      first
        | exact ⟨hhidden c, by simp⟩
        | simp [Inert, hc, hc']
  rw [quoted, String.toList_ofList, closes_append_inert (inert_of_all (by simp))]
  rw [← List.singleton_append, closes_inert_append (inert_of_all (by simp))]
  exact closes_flatMap (by decide +kernel) (by decide +kernel) hother

end JavaLift.Text
