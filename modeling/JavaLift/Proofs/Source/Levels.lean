import JavaLift.Proofs.Source.Grammar

namespace JavaLift.Source

/-- No token follows that goes on with an expression of the level or a tighter one. -/
def Loose (k : Nat) (rest : List Token) : Prop := ∀ tok, rest.head? = some tok → ∀ j, joins tok = some j → j < k

/-- The tokens stand for a tree wherever an expression of the level is looked for. -/
def ReadAt (k : Nat) (ts : List Token) (t : Tree) : Prop :=
  ∀ rest u out, Loose (k + 1) rest → Parses (.after k t) rest u out → Parses (.level k) (ts ++ rest) u out

theorem Loose.mono {j k : Nat} {rest : List Token} (h : Loose j rest) (hle : j ≤ k) : Loose k rest :=
  fun tok htok i hi => lt_of_lt_of_le (h tok htok i hi) hle

theorem Loose.done {k : Nat} {rest : List Token} {t : Tree} (h : Loose k rest) : Parses (.after k t) rest t rest :=
  .done fun tok htok hk => lt_irrefl k (h tok htok k hk)

theorem binaryLevel?_le {s : String} {k : Nat} (h : binaryLevel? s = some k) : 3 ≤ k ∧ k ≤ 12 := by
  unfold binaryLevel? at h
  split at h <;> simp at h <;> omega

theorem joins_le {tok : Token} {k : Nat} (h : joins tok = some k) : k ≤ 15 ∧ k ≠ 13 := by
  cases tok with
  | op s =>
      have := binaryLevel?_le h
      omega
  | word w =>
      rw [joins, Option.ite_none_right_eq_some] at h
      cases h.2
      decide
  | question | dot | lbracket | lparen => cases h; decide
  | _ => cases h

theorem loose_all (rest : List Token) : Loose 16 rest := fun _ _ _ h => Nat.lt_succ_of_le (joins_le h).1

/-- No token goes on with an operand of unary operators alone. -/
theorem Loose.operand {rest : List Token} (h : Loose 14 rest) : Loose 13 rest := by
  intro tok htok j hj
  have := h tok htok j hj
  have := (joins_le hj).2
  omega

/-- A sign that closes something ends every expression. -/
theorem loose_of_none {k : Nat} {tok : Token} {rest : List Token} (h : joins tok = none) : Loose k (tok :: rest) := by
  intro _ htok j hj
  cases htok
  rw [h] at hj
  cases hj

theorem loose_cons {k j : Nat} {tok : Token} {rest : List Token} (h : joins tok = some j) (hlt : j < k) :
    Loose k (tok :: rest) := by
  intro _ htok i hi
  cases htok
  rw [h] at hi
  cases hi
  exact hlt

namespace ReadAt

variable {j k : Nat} {ts : List Token} {t : Tree}

theorem down (hk : 2 ≤ k ∧ k ≤ 12) (h : ReadAt (k + 1) ts t) : ReadAt k ts t := fun rest _ _ hrest hafter =>
  .operand hk (h rest t rest (hrest.mono (Nat.le_succ _)) hrest.done) hafter

theorem le (hj : 2 ≤ j) (hk : k ≤ 13) (hle : j ≤ k) (h : ReadAt k ts t) : ReadAt j ts t := by
  induction hle with
  | refl => exact h
  | @step k hle ih => exact ih (by omega) (h.down ⟨le_trans hj hle, by omega⟩)

theorem whole (h : ReadAt k ts t) {rest : List Token} (hrest : Loose k rest) : Parses (.level k) (ts ++ rest) t rest :=
  h rest t rest (hrest.mono (Nat.le_succ _)) hrest.done

end ReadAt

/-- Nothing goes on with an operand of unary operators. -/
theorem Parses.after_unary {t u : Tree} {rest out : List Token} (h : Parses (.after 13 t) rest u out) :
    u = t ∧ out = rest := by
  cases h with
  | done => exact ⟨rfl, rfl⟩
  | binary hs => have := binaryLevel?_le hs; omega

def wordTokens : List String → List Token
  | [] => []
  | w :: words => .word w :: words.flatMap fun v => [.dot, .word v]

def bracketTokens (n : Nat) : List Token := (List.replicate n [.lbracket, .rbracket]).flatten

structure IsTypeName (words : List String) : Prop where
  ne_nil : words ≠ []
  words : ∀ w ∈ words, isTypeWord w = true

def TypeName.tokens (type : TypeName) : List Token := wordTokens type.words ++ bracketTokens type.dims

section
variable {words : List String} {rest : List Token}

theorem moreWords_tokens (hwords : ∀ w ∈ words, isTypeWord w = true) (hrest : rest.head? ≠ some .dot) :
    moreWords (words.flatMap (fun v => [.dot, .word v]) ++ rest) = (words, rest) := by
  induction words with
  | nil =>
      cases rest with
      | nil => rfl
      | cons tok rest =>
          rw [List.flatMap_nil, List.nil_append, moreWords]
          rintro w left hw
          cases hw
          exact hrest rfl
  | cons w words ih =>
      rw [List.forall_mem_cons] at hwords
      simp only [List.flatMap_cons, List.cons_append, List.nil_append, moreWords, hwords.1, if_true, ih hwords.2]

theorem name?_tokens (h : IsTypeName words) (hrest : rest.head? ≠ some .dot) :
    name? (wordTokens words ++ rest) = some (words, rest) := by
  obtain ⟨w, words, rfl⟩ := List.exists_cons_of_ne_nil h.ne_nil
  have hwords := List.forall_mem_cons.mp h.words
  simp only [wordTokens, List.cons_append, name?, hwords.1, if_true, moreWords_tokens hwords.2 hrest]

theorem brackets_tokens (n : Nat) (hrest : ∀ us, rest ≠ .lbracket :: .rbracket :: us) :
    brackets (bracketTokens n ++ rest) = (n, rest) := by
  induction n with
  | zero =>
      rw [bracketTokens, List.replicate_zero, List.flatten_nil, List.nil_append, brackets]
      exact hrest
  | succ n ih =>
      simp only [bracketTokens, List.replicate_succ, List.flatten_cons, List.cons_append, List.nil_append] at ih ⊢
      rw [brackets, ih]

theorem typeName?_tokens {type : TypeName} (h : IsTypeName type.words) (hdot : rest.head? ≠ some .dot)
    (hbracket : rest.head? ≠ some .lbracket) : typeName? (type.tokens ++ rest) = some (type, rest) := by
  have hhead : (bracketTokens type.dims ++ rest).head? ≠ some .dot := by
    cases type.dims with
    | zero => exact hdot
    | succ n => simp [bracketTokens, List.replicate_succ]
  have hbrackets := brackets_tokens type.dims (show ∀ us, rest ≠ _ by rintro us rfl; exact hbracket rfl)
  simp only [typeName?, TypeName.tokens, List.append_assoc, name?_tokens h hhead, Option.map_some, hbrackets]

end

def isTypePart : Token → Bool
  | .word w => isTypeWord w
  | .dot | .lbracket | .rbracket => true
  | _ => false

def OnlyType (ts : List Token) : Prop := ts.find? (!isTypePart ·) = none

/-- A token that can be no part of a type is there, and the first one is no closing bracket. -/
def NoType (ts : List Token) : Prop := ∃ tok, ts.find? (!isTypePart ·) = some tok ∧ tok ≠ .rparen

theorem NoType.append {ts us : List Token} (h : NoType ts) : NoType (ts ++ us) := by
  obtain ⟨tok, hfind, hne⟩ := h
  exact ⟨tok, by rw [List.find?_append, hfind, Option.some_or], hne⟩

theorem OnlyType.noType {ts us : List Token} (h : OnlyType ts) (h' : NoType us) : NoType (ts ++ us) := by
  obtain ⟨tok, hfind, hne⟩ := h'
  exact ⟨tok, by rw [List.find?_append, h, Option.none_or, hfind], hne⟩

theorem OnlyType.append {a b : List Token} (h : OnlyType a) (h' : OnlyType b) : OnlyType (a ++ b) := by
  rw [OnlyType, List.find?_append, h, Option.none_or, h']

theorem noType_cons {tok : Token} {ts : List Token} (h : isTypePart tok = false) (hne : tok ≠ .rparen) :
    NoType (tok :: ts) := ⟨tok, by simp [h], hne⟩

theorem moreWords_split (ts : List Token) : ∃ us, ts = us ++ (moreWords ts).2 ∧ OnlyType us := by
  fun_induction moreWords ts with
  | case1 w rest hw words left heq ih =>
      obtain ⟨us, hus, honly⟩ := ih
      rw [heq] at hus
      exact ⟨.dot :: .word w :: us, congrArg (.dot :: .word w :: ·) hus,
        OnlyType.append (a := [.dot, .word w]) (by simp [OnlyType, isTypePart, hw]) honly⟩
  | case2 => exact ⟨[], rfl, rfl⟩
  | case3 => exact ⟨[], rfl, rfl⟩

theorem brackets_split (ts : List Token) : ∃ us, ts = us ++ (brackets ts).2 ∧ OnlyType us := by
  fun_induction brackets ts with
  | case1 rest n left heq ih =>
      obtain ⟨us, hus, honly⟩ := ih
      rw [heq] at hus
      exact ⟨.lbracket :: .rbracket :: us, congrArg (.lbracket :: .rbracket :: ·) hus,
        OnlyType.append (a := [.lbracket, .rbracket]) rfl honly⟩
  | case2 => exact ⟨[], rfl, rfl⟩

theorem typeName?_split {ts rest : List Token} {type : TypeName} (h : typeName? ts = some (type, rest)) :
    ∃ us, ts = us ++ rest ∧ OnlyType us := by
  rw [typeName?, Option.map_eq_some_iff] at h
  obtain ⟨⟨words, mid⟩, hname, htype⟩ := h
  cases htype
  cases ts with
  | nil => cases hname
  | cons tok ts =>
      cases tok with
      | word w =>
          rw [name?, Option.ite_none_right_eq_some] at hname
          obtain ⟨hw, hname⟩ := hname
          cases hname
          obtain ⟨us, hus, honly⟩ := moreWords_split ts
          obtain ⟨vs, hvs, honly'⟩ := brackets_split (moreWords ts).2
          refine ⟨[.word w] ++ us ++ vs, ?_, .append (.append (by simp [OnlyType, isTypePart, hw]) honly) honly'⟩
          rw [List.append_assoc, ← hvs, List.append_assoc, ← hus]
          rfl
      | _ => cases hname

/-- What does not look like a type is no cast. -/
theorem NoType.castType? {ts : List Token} (h : NoType ts) : castType? ts = none := by
  rw [Source.castType?]
  split
  · rename_i type rest htype
    obtain ⟨us, hsplit, honly⟩ := typeName?_split htype
    obtain ⟨tok, hfind, hne⟩ := h
    rw [hsplit, List.find?_append, honly, Option.none_or] at hfind
    cases hfind
    exact absurd rfl hne
  · rfl

def Tree.isNewArray : Tree → Bool
  | .newArray .. => true
  | _ => false

/-- The tokens of an expression that holds together as tightly as `prec` says. -/
structure Written (prec : Nat) (ts : List Token) (t : Tree) : Prop where
  level : 2 ≤ prec ∧ prec ≤ 13 ∨ prec = 15
  first : ∃ tok us, ts = tok :: us ∧ (beginsOperand tok = true ∨ tok = .op "-")
  sign : 13 ≤ prec → ∀ s, ts.head? = some (.op s) → prec = 13 ∧ ∃ u, t = .unary s u
  shape : NoType ts ∨ prec = 15 ∧ OnlyType ts
  brackets : prec = 15 → ∀ us, ts = .lparen :: us → NoType us
  reads : ∀ rest u out, Loose (prec + 1) rest → (prec = 2 → Loose 2 rest) →
    (t.isNewArray = true → rest.head? ≠ some .lbracket) →
    Parses (.after prec t) rest u out → Parses (.level prec) (ts ++ rest) u out

namespace Written

variable {p k : Nat} {ts us : List Token} {t : Tree}

theorem head (h : Written p ts t) (rest : List Token) : (ts ++ rest).head? = ts.head? := by
  obtain ⟨tok, us, rfl, -⟩ := h.first
  rfl

theorem not_close (h : Written p ts t) {tok : Token} (htok : beginsOperand tok = false) (hne : tok ≠ .op "-") :
    ts.head? ≠ some tok := by
  obtain ⟨tok', us, rfl, hfirst⟩ := h.first
  rintro heq
  cases heq
  rcases hfirst with hfirst | rfl
  · rw [htok] at hfirst
    cases hfirst
  · exact hne rfl

theorem readAt_self (h : Written p ts t) (hp : 3 ≤ p ∧ p ≤ 13) : ReadAt p ts t := by
  intro rest u out hrest hafter
  exact h.reads rest u out hrest (by omega) (fun _ hbracket => by have := hrest _ hbracket 15 rfl; omega) hafter

/-- A primary expression is an operand of unary operators. -/
theorem readAt_unary (h : Written 15 ts t) : ReadAt 13 ts t := by
  intro rest u out hrest hafter
  obtain ⟨rfl, rfl⟩ := hafter.after_unary
  refine .plain ?_ ?_ (h.reads _ _ _ (loose_all _) (by omega) ?_ (hrest.mono (by omega)).done)
  · intro s _ hs
    rw [h.head] at hs
    exact absurd (h.sign (by omega) s hs).1 (by omega)
  · intro us hus
    obtain ⟨tok, vs, rfl, -⟩ := h.first
    cases hus
    exact (h.brackets rfl vs rfl).append.castType?
  · intro _ hbracket
    have := hrest _ hbracket 15 rfl
    omega

theorem readAt (h : Written p ts t) (hk : 2 ≤ k ∧ k ≤ 13) (hle : k ≤ p) (hp : 3 ≤ p) : ReadAt k ts t := by
  rcases h.level with hlevel | rfl
  · exact (h.readAt_self ⟨hp, hlevel.2⟩).le hk.1 hlevel.2 hle
  · exact h.readAt_unary.le hk.1 le_rfl hk.2

theorem whole (h : Written p ts t) (hk : 2 ≤ k ∧ k ≤ 13) (hle : k ≤ p) {rest : List Token} (hrest : Loose k rest) :
    Parses (.level k) (ts ++ rest) t rest := by
  by_cases hp : 3 ≤ p
  · exact (h.readAt hk hle hp).whole hrest
  obtain rfl : k = 2 := by omega
  obtain rfl : p = 2 := by omega
  refine h.reads rest t rest (hrest.mono (by decide)) (fun _ => hrest) (fun _ hbracket => ?_) hrest.done
  have := hrest _ hbracket 15 rfl
  omega

theorem free (h : Written p ts t) {a : Token} {rest : List Token} (ha : joins a = none) :
    Parses (.level 2) (ts ++ a :: rest) t (a :: rest) :=
  h.whole ⟨le_rfl, by decide⟩ (by rcases h.level with hlevel | rfl <;> omega) (loose_of_none ha)

theorem fine (h : Written p ts t) : NoType ts ∨ OnlyType ts := h.shape.imp_right And.right

/-- What holds together less tightly than a primary expression is no type. -/
theorem noType (h : Written p ts t) (hp : p < 15) : NoType ts :=
  h.shape.resolve_right fun hshape => by omega

theorem append_noType (h : Written p ts t) (hus : NoType us) : NoType (ts ++ us) :=
  h.fine.elim NoType.append fun honly => honly.noType hus

end Written

section
variable {p q k : Nat} {ts us : List Token} {t u : Tree}

/-- A primary expression is known by its first token, unless that is a bracket. -/
theorem written_primary {tok : Token} (hfirst : beginsOperand tok = true) (hop : ∀ s, tok ≠ .op s)
    (hparen : tok ≠ .lparen) (hshape : NoType (tok :: us) ∨ OnlyType (tok :: us))
    (hreads : ∀ rest v out, (t.isNewArray = true → rest.head? ≠ some .lbracket) → Parses (.after 15 t) rest v out →
      Parses (.level 15) (tok :: (us ++ rest)) v out) : Written 15 (tok :: us) t where
  level := .inr rfl
  first := ⟨_, _, rfl, .inl hfirst⟩
  sign := fun _ s hs => absurd (Option.some.inj hs) (hop s)
  shape := hshape.imp_right fun honly => ⟨rfl, honly⟩
  brackets := fun _ _ hvs => absurd (List.cons.inj hvs).1 hparen
  reads := fun rest v out _ _ hnew hafter => hreads rest v out hnew hafter

theorem written_word {w : String} (hw : isOperandWord w = true) : Written 15 [.word w] (.word w) := by
  have hne : w ≠ "instanceof" := by rintro rfl; cases hw
  refine written_primary (bne_iff_ne.mpr hne) nofun nofun ?_ fun rest u out _ hafter => .word hw hafter
  by_cases htype : isTypeWord w = true
  · exact .inr (by simp [OnlyType, isTypePart, htype])
  · exact .inl (noType_cons (Bool.not_eq_true _ ▸ htype) (by simp))

theorem written_number (s : String) : Written 15 [.number s] (.number s) :=
  written_primary rfl nofun nofun (.inl (noType_cons rfl (by simp))) fun _ _ _ _ hafter => .number hafter

theorem written_char (unit : Nat) : Written 15 [.char unit] (.char unit) :=
  written_primary rfl nofun nofun (.inl (noType_cons rfl (by simp))) fun _ _ _ _ hafter => .char hafter

theorem Written.parens (h : Written p ts t) (hp : p < 15) : Written 15 (.lparen :: (ts ++ [.rparen])) t where
  level := .inr rfl
  first := ⟨_, _, rfl, .inl rfl⟩
  sign := by rintro - s ⟨⟩
  shape := .inl (noType_cons rfl (by simp))
  brackets := by
    rintro - us ⟨⟩
    exact (h.noType hp).append
  reads := by
    intro rest u out _ _ _ hafter
    rw [List.cons_append, List.append_assoc]
    exact .parens (h.free (a := .rparen) rfl) hafter

theorem Written.binary {s : String} (h : Written p ts t) (h' : Written q us u) (hs : binaryLevel? s = some k)
    (hp : k ≤ p) (hq : k + 1 ≤ q) : Written k (ts ++ .op s :: us) (.binary s t u) where
  level := by have := binaryLevel?_le hs; omega
  first := by
    obtain ⟨tok, vs, rfl, hfirst⟩ := h.first
    exact ⟨tok, _, rfl, hfirst⟩
  sign := by have := binaryLevel?_le hs; omega
  shape := .inl (h.append_noType (noType_cons rfl (by simp)))
  brackets := by have := binaryLevel?_le hs; omega
  reads := by
    intro rest v out hrest _ _ hafter
    have hk := binaryLevel?_le hs
    rw [List.append_assoc, List.cons_append]
    refine h.readAt ⟨by omega, by omega⟩ hp (by omega) _ v out (loose_cons (j := k) hs (Nat.lt_succ_self k)) ?_
    exact .binary hs (h'.whole ⟨by omega, by omega⟩ hq hrest) hafter

theorem Written.instanceOf {type : TypeName} (h : Written p ts t) (hp : 9 ≤ p) (htype : IsTypeName type.words) :
    Written 9 (ts ++ .word "instanceof" :: type.tokens) (.instanceOf t type) where
  level := by omega
  first := by
    obtain ⟨tok, vs, rfl, hfirst⟩ := h.first
    exact ⟨tok, _, rfl, hfirst⟩
  sign := by omega
  shape := .inl (h.append_noType (noType_cons rfl (by simp)))
  brackets := by omega
  reads := by
    intro rest v out hrest _ _ hafter
    rw [List.append_assoc, List.cons_append]
    refine h.readAt (by decide) hp (by omega) _ v out (loose_cons (j := 9) rfl (by decide)) (.instanceOf ?_ hafter)
    refine typeName?_tokens htype ?_ ?_ <;>
    · intro htok
      have := hrest _ htok 15 rfl
      omega

theorem Written.unary {s : String} (h : Written p ts t) (hs : s = "-" ∨ s = "!" ∨ s = "~") (hp : 13 ≤ p) :
    Written 13 (.op s :: ts) (.unary s t) where
  level := by omega
  first := ⟨_, _, rfl, by rcases hs with rfl | rfl | rfl <;> simp [beginsOperand]⟩
  sign := by
    rintro - s' hs'
    cases hs'
    exact ⟨rfl, t, rfl⟩
  shape := .inl (noType_cons rfl (by simp))
  brackets := by omega
  reads := by
    intro rest v out hrest _ _ hafter
    obtain ⟨rfl, rfl⟩ := hafter.after_unary
    exact .unary (by rcases hs with rfl | rfl | rfl <;> decide) (h.whole (by decide) hp hrest.operand)

/-- The operand of a cast to a type that is not primitive has no sign. -/
theorem Written.cast {type : TypeName} (h : Written p ts t) (htype : IsTypeName type.words)
    (hsign : type.isPrimitive = true ∨ ts.head? ≠ some (.op "-")) (hp : 13 ≤ p) :
    Written 13 (.lparen :: (type.tokens ++ .rparen :: ts)) (.cast type t) where
  level := by omega
  first := ⟨_, _, rfl, .inl rfl⟩
  sign := by rintro - s ⟨⟩
  shape := .inl (noType_cons rfl (by simp))
  brackets := by omega
  reads := by
    intro rest v out hrest _ _ hafter
    obtain ⟨rfl, rfl⟩ := hafter.after_unary
    rw [List.cons_append, List.append_assoc, List.cons_append]
    refine .cast ?_ (h.whole (by decide) hp hrest.operand)
    have hcast : type.isPrimitive = true ∨ (ts ++ out).head?.any beginsOperand = true := by
      refine hsign.imp_right fun hsign => ?_
      obtain ⟨tok, us, rfl, hfirst⟩ := h.first
      exact hfirst.resolve_right fun heq => hsign (congrArg some heq)
    rw [castType?, typeName?_tokens htype (by simp) (by simp)]
    exact if_pos (Bool.or_eq_true _ _ ▸ hcast)

theorem Written.choice {r : Nat} {vs : List Token} {v : Tree} (h : Written p ts t) (h' : Written q us u)
    (h'' : Written r vs v) (hp : 3 ≤ p) :
    Written 2 (ts ++ .question :: (us ++ .colon :: vs)) (.choice t u v) where
  level := by omega
  first := by
    obtain ⟨tok, vs, rfl, hfirst⟩ := h.first
    exact ⟨tok, _, rfl, hfirst⟩
  sign := by omega
  shape := .inl (h.append_noType (noType_cons rfl (by simp)))
  brackets := by omega
  reads := by
    intro rest w out _ hloose _ hafter
    have hrest := hloose rfl
    obtain ⟨rfl, rfl⟩ := (hrest.done (t := .choice t u v)).functional hafter
    have hr : 2 ≤ r := by rcases h''.level with hlevel | rfl <;> omega
    simp only [List.append_assoc, List.cons_append]
    refine h.readAt ⟨le_rfl, by decide⟩ (by omega) hp _ _ _ (loose_cons (j := 2) rfl (by decide)) ?_
    exact .choice (h'.free (a := .colon) rfl) (h''.whole ⟨le_rfl, by decide⟩ hr hrest)

theorem Written.suffix (h : Written 15 ts t) (hfine : NoType us ∨ OnlyType us)
    (hbracket : t.isNewArray = true → us.head? ≠ some .lbracket) (hne : us ≠ [])
    (hreads : ∀ rest v out, Parses (.after 15 u) rest v out → Parses (.after 15 t) (us ++ rest) v out) :
    Written 15 (ts ++ us) u where
  level := .inr rfl
  first := by
    obtain ⟨tok, vs, rfl, hfirst⟩ := h.first
    exact ⟨tok, _, rfl, hfirst⟩
  sign := by
    intro _ s hs
    rw [h.head] at hs
    exact absurd (h.sign (by omega) s hs).1 (by omega)
  shape := by
    rcases hfine with hno | honly
    · exact .inl (h.append_noType hno)
    · exact h.shape.imp NoType.append fun hshape => ⟨rfl, hshape.2.append honly⟩
  brackets := by
    intro _ vs hvs
    obtain ⟨tok, ts', rfl, -⟩ := h.first
    cases hvs
    exact (h.brackets rfl ts' rfl).append
  reads := by
    intro rest v out _ _ _ hafter
    rw [List.append_assoc]
    refine h.reads _ v out (loose_all _) (by omega) ?_ (hreads rest v out hafter)
    intro hnew
    obtain ⟨tok, us, rfl⟩ := List.exists_cons_of_ne_nil hne
    exact hbracket hnew

theorem Written.field {w : String} (h : Written 15 ts t) (hw : keywords.contains w = false) :
    Written 15 (ts ++ [.dot, .word w]) (.field t w) := by
  have hword : isTypeWord w = true := by rw [isTypeWord, hw]; rfl
  have honly : OnlyType [.dot, .word w] := by simp [OnlyType, isTypePart, hword]
  exact h.suffix (.inr honly) (by simp) (by simp) fun _ _ _ hafter => .field hw hafter

theorem Written.index (h : Written 15 ts t) (hnew : t.isNewArray = false) (h' : Written p us u) :
    Written 15 (ts ++ .lbracket :: (us ++ [.rbracket])) (.index t u) := by
  have hopen : OnlyType [.lbracket] := rfl
  have hfine : NoType (.lbracket :: (us ++ [.rbracket])) ∨ OnlyType (.lbracket :: (us ++ [.rbracket])) :=
    h'.fine.imp (fun hno => hopen.noType hno.append) fun honly => hopen.append (honly.append rfl)
  refine h.suffix hfine (by simp [hnew]) (by simp) fun rest v out hafter => ?_
  rw [List.cons_append, List.append_assoc]
  exact .index (h'.free (a := .rbracket) rfl) hafter

def commaTokens : List (List Token) → List Token
  | [] => []
  | [ts] => ts
  | ts :: rest => ts ++ .comma :: commaTokens rest

abbrev WrittenAll (es : List (List Token)) (trees : List Tree) : Prop :=
  List.Forall₂ (fun ts t => ∃ p, Written p ts t) es trees

section
variable {es : List (List Token)} {trees : List Tree} {rest out : List Token} {v : Tree} {l : Listed}

theorem Listed.close_ends (l : Listed) : joins l.close = none ∧ beginsOperand l.close = false ∧ l.close ≠ .op "-" := by
  cases l <;> simp [close, joins, beginsOperand]

theorem list_goesOn (h : WrittenAll es trees) (hne : es ≠ []) (done : List Tree)
    (hafter : Parses (.after 15 (l.tree (done ++ trees))) rest v out) :
    Parses (.list l done) (commaTokens es ++ l.close :: rest) v out := by
  obtain ⟨hjoins, hbegins, hsign⟩ := l.close_ends
  induction h generalizing done with
  | nil => exact absurd rfl hne
  | @cons e t es trees he hes ih =>
      obtain ⟨p, he⟩ := he
      have hfirst (us : List Token) : done = [] → (e ++ us).head? ≠ some l.close := fun _ => by
        rw [he.head]
        exact he.not_close hbegins hsign
      cases hes with
      | nil => exact .last (hfirst _) (he.free hjoins) hafter
      | cons he' hes =>
          rw [commaTokens, List.append_assoc, List.cons_append]
          · refine .more (hfirst _) (he.free (a := .comma) rfl) (ih (List.cons_ne_nil _ _) _ ?_)
            rwa [List.append_assoc]
          · exact List.cons_ne_nil _ _

theorem list_reads (h : WrittenAll es trees) (hafter : Parses (.after 15 (l.tree trees)) rest v out) :
    Parses (.list l []) (commaTokens es ++ l.close :: rest) v out := by
  cases h with
  | nil => exact .none hafter
  | cons he hes => exact list_goesOn (.cons he hes) (List.cons_ne_nil _ _) [] hafter

theorem Written.call (h : Written 15 ts t) (ht : t.isCallable = true) (h' : WrittenAll es trees) :
    Written 15 (ts ++ .lparen :: (commaTokens es ++ [.rparen])) (.call t trees) := by
  refine h.suffix (.inl (noType_cons rfl (by simp))) (by simp) (by simp) fun rest v out hafter => ?_
  rw [List.cons_append, List.append_assoc]
  exact .call ht (list_reads h' hafter)

theorem written_new (hreads : ∀ rest v out, (t.isNewArray = true → rest.head? ≠ some .lbracket) →
    Parses (.after 15 t) rest v out → Parses (.level 15) (.word "new" :: (us ++ rest)) v out) :
    Written 15 (.word "new" :: us) t :=
  written_primary rfl nofun nofun (.inl (noType_cons rfl (by simp))) hreads

theorem written_create {words : List String} (hwords : IsTypeName words) (h : WrittenAll es trees) :
    Written 15 (.word "new" :: (wordTokens words ++ .lparen :: (commaTokens es ++ [.rparen])))
      (.create words trees) := by
  refine written_new fun rest v out _ hafter => ?_
  rw [List.append_assoc, List.cons_append, List.append_assoc]
  exact .create (name?_tokens hwords (by simp)) (list_reads h hafter)

theorem written_fill {type : TypeName} (htype : IsTypeName type.words) (hdims : type.dims ≠ 0)
    (h : WrittenAll es trees) :
    Written 15 (.word "new" :: (type.tokens ++ .lbrace :: (commaTokens es ++ [.rbrace]))) (.fill type trees) := by
  refine written_new fun rest v out _ hafter => ?_
  rw [List.append_assoc, List.cons_append, List.append_assoc]
  exact .fill (typeName?_tokens htype (by simp) (by simp)) hdims (list_reads h hafter)

def sizeTokens (es : List (List Token)) : List Token := es.flatMap fun e => .lbracket :: (e ++ [.rbracket])

theorem sizes_read {words : List String} (h : WrittenAll es trees) (done : List Tree) (hne : done ++ trees ≠ [])
    (hstop : (brackets rest).2.head? ≠ some .lbracket)
    (hafter : Parses (.after 15 (.newArray words (done ++ trees) (brackets rest).1)) (brackets rest).2 v out) :
    Parses (.sizes words done) (sizeTokens es ++ rest) v out := by
  induction h generalizing done with
  | nil =>
      rw [List.append_nil] at hne hafter
      exact .sized hne hstop hafter
  | @cons e t es trees he _ ih =>
      obtain ⟨p, he⟩ := he
      have hsize : (e ++ .rbracket :: (sizeTokens es ++ rest)).head? ≠ some .rbracket := by
        rw [he.head]
        exact he.not_close rfl (by simp)
      have hrest := ih (done ++ [t]) (by simp) (by rwa [List.append_assoc])
      simpa [sizeTokens] using Parses.size hsize (he.free (a := .rbracket) rfl) hrest

theorem written_newArray {words : List String} (hwords : IsTypeName words) (h : WrittenAll es trees) (hne : es ≠ [])
    (dims : Nat) :
    Written 15 (.word "new" :: (wordTokens words ++ (sizeTokens es ++ bracketTokens dims)))
      (.newArray words trees dims) := by
  refine written_new fun rest v out hnew hafter => ?_
  have hbrackets := brackets_tokens dims (show ∀ us, rest ≠ _ by rintro us rfl; exact hnew rfl rfl)
  have hsizes : Parses (.sizes words []) (sizeTokens es ++ (bracketTokens dims ++ rest)) v out := by
    refine sizes_read h [] ?_ ?_ ?_
    · cases h with
      | nil => exact absurd rfl hne
      | cons he hes => simp
    · rw [hbrackets]
      exact hnew rfl
    · rwa [hbrackets]
  cases h with
  | nil => exact absurd rfl hne
  | @cons e t es trees he hes =>
      obtain ⟨p, he⟩ := he
      simp only [sizeTokens, List.flatMap_cons, List.append_assoc, List.cons_append] at hsizes ⊢
      refine .newArray (name?_tokens hwords (by simp)) ?_ hsizes
      rw [he.head]
      exact he.not_close rfl (by simp)

end

end

end JavaLift.Source
