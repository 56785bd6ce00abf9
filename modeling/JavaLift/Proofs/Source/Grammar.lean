import JavaLift.Proofs.Source.Tokens
import JavaLift.Source.Expr
import JavaLift.Source.Name

namespace JavaLift.Source

/-- The name of a type: its words, and how many pairs of brackets follow. -/
structure TypeName where
  words : List String
  dims : Nat
deriving DecidableEq

/-- The operators of an expression, without its round brackets. -/
inductive Tree where
  | word (s : String)
  | number (s : String)
  | char (unit : Nat)
  | field (t : Tree) (name : String)
  | call (target : Tree) (arguments : List Tree)
  | index (t i : Tree)
  | create (words : List String) (arguments : List Tree)
  | newArray (words : List String) (sizes : List Tree) (dims : Nat)
  | fill (type : TypeName) (elements : List Tree)
  | unary (symbol : String) (t : Tree)
  | cast (type : TypeName) (t : Tree)
  | binary (symbol : String) (left right : Tree)
  | instanceOf (t : Tree) (type : TypeName)
  | choice (c a b : Tree)

def primitives : List String := ["boolean", "byte", "short", "char", "int", "long", "float", "double"]

def isTypeWord (w : String) : Bool := !keywords.contains w || primitives.contains w

def isOperandWord (w : String) : Bool :=
  !keywords.contains w || ["this", "super", "true", "false", "null"].contains w

def moreWords : List Token → List String × List Token
  | .dot :: .word w :: rest =>
    if isTypeWord w then
      let (words, left) := moreWords rest
      (w :: words, left)
    else ([], .dot :: .word w :: rest)
  | ts => ([], ts)

def name? : List Token → Option (List String × List Token)
  | .word w :: rest =>
    if isTypeWord w then
      let (words, left) := moreWords rest
      some (w :: words, left)
    else none
  | _ => none

def brackets : List Token → Nat × List Token
  | .lbracket :: .rbracket :: rest =>
    let (n, left) := brackets rest
    (n + 1, left)
  | ts => (0, ts)

def typeName? (ts : List Token) : Option (TypeName × List Token) :=
  (name? ts).map fun (words, rest) => (⟨words, (brackets rest).1⟩, (brackets rest).2)

def TypeName.isPrimitive (type : TypeName) : Bool := primitives.any fun w => type == ⟨[w], 0⟩

def beginsOperand : Token → Bool
  | .word w => w != "instanceof"
  | .number _ | .char _ | .lparen => true
  | .op s => s == "!" || s == "~"
  | _ => false

/-- The type of a cast behind its opening bracket, and its operand. Behind a type that is not primitive, a sign is
an operator on two operands, and the type was a variable in brackets. -/
def castType? (ts : List Token) : Option (TypeName × List Token) :=
  match typeName? ts with
  | some (type, .rparen :: rest) =>
    if type.isPrimitive || rest.head?.any beginsOperand then some (type, rest) else none
  | _ => none

def binaryLevel? : String → Option Nat
  | "||" => some 3
  | "&&" => some 4
  | "|" => some 5
  | "^" => some 6
  | "&" => some 7
  | "==" | "!=" => some 8
  | "<" | ">" | "<=" | ">=" => some 9
  | "<<" | ">>" | ">>>" => some 10
  | "+" | "-" => some 11
  | "*" | "/" | "%" => some 12
  | _ => none

def joins : Token → Option Nat
  | .op s => binaryLevel? s
  | .word w => if w = "instanceof" then some 9 else none
  | .question => some 2
  | .dot | .lbracket | .lparen => some 15
  | _ => none

def prefixes : List String := ["+", "-", "++", "--", "!", "~"]

inductive Listed where
  | call (target : Tree)
  | create (words : List String)
  | fill (type : TypeName)

namespace Listed

def close : Listed → Token
  | .call _ | .create _ => .rparen
  | .fill _ => .rbrace

def tree : Listed → List Tree → Tree
  | .call target, ts => .call target ts
  | .create words, ts => .create words ts
  | .fill type, ts => .fill type ts

end Listed

def Tree.isCallable : Tree → Bool
  | .word _ | .field .. => true
  | _ => false

/-- What is looked for: an expression of a level, more of an expression whose first operand has been read, more of a
list, or more sizes of a new array. -/
inductive Goal where
  | level (k : Nat)
  | after (k : Nat) (left : Tree)
  | list (l : Listed) (done : List Tree)
  | sizes (words : List String) (done : List Tree)

/-- The tokens begin with what is looked for, and go on with what is left. -/
inductive Parses : Goal → List Token → Tree → List Token → Prop
  | operand {k : Nat} {ts mid out : List Token} {l t : Tree} (hk : 2 ≤ k ∧ k ≤ 12) :
    Parses (.level (k + 1)) ts l mid → Parses (.after k l) mid t out → Parses (.level k) ts t out
  | done {k : Nat} {ts : List Token} {t : Tree} (hstop : ∀ tok, ts.head? = some tok → joins tok ≠ some k) :
    Parses (.after k t) ts t ts
  | choice {ts mid out : List Token} {c a b : Tree} :
    Parses (.level 2) ts a (.colon :: mid) → Parses (.level 2) mid b out →
      Parses (.after 2 c) (.question :: ts) (.choice c a b) out
  | binary {k : Nat} {s : String} {ts mid out : List Token} {l r t : Tree} (hs : binaryLevel? s = some k) :
    Parses (.level (k + 1)) ts r mid → Parses (.after k (.binary s l r)) mid t out →
      Parses (.after k l) (.op s :: ts) t out
  | instanceOf {ts mid out : List Token} {type : TypeName} {l t : Tree} (htype : typeName? ts = some (type, mid)) :
    Parses (.after 9 (.instanceOf l type)) mid t out → Parses (.after 9 l) (.word "instanceof" :: ts) t out
  | unary {s : String} {ts out : List Token} {t : Tree} (hs : s ∈ prefixes) :
    Parses (.level 13) ts t out → Parses (.level 13) (.op s :: ts) (.unary s t) out
  | cast {ts mid out : List Token} {type : TypeName} {t : Tree} (htype : castType? ts = some (type, mid)) :
    Parses (.level 13) mid t out → Parses (.level 13) (.lparen :: ts) (.cast type t) out
  | plain {ts out : List Token} {t : Tree} (hsign : ∀ s ∈ prefixes, ts.head? ≠ some (.op s))
    (hcast : ∀ us, ts = .lparen :: us → castType? us = none) :
    Parses (.level 15) ts t out → Parses (.level 13) ts t out
  | word {w : String} {ts out : List Token} {t : Tree} (hw : isOperandWord w = true) :
    Parses (.after 15 (.word w)) ts t out → Parses (.level 15) (.word w :: ts) t out
  | number {s : String} {ts out : List Token} {t : Tree} :
    Parses (.after 15 (.number s)) ts t out → Parses (.level 15) (.number s :: ts) t out
  | char {unit : Nat} {ts out : List Token} {t : Tree} :
    Parses (.after 15 (.char unit)) ts t out → Parses (.level 15) (.char unit :: ts) t out
  | parens {ts mid out : List Token} {e t : Tree} :
    Parses (.level 2) ts e (.rparen :: mid) → Parses (.after 15 e) mid t out →
      Parses (.level 15) (.lparen :: ts) t out
  | create {words : List String} {ts mid out : List Token} {t : Tree}
    (hname : name? ts = some (words, .lparen :: mid)) :
    Parses (.list (.create words) []) mid t out → Parses (.level 15) (.word "new" :: ts) t out
  | fill {type : TypeName} {ts mid out : List Token} {t : Tree} (htype : typeName? ts = some (type, .lbrace :: mid))
    (hdims : type.dims ≠ 0) :
    Parses (.list (.fill type) []) mid t out → Parses (.level 15) (.word "new" :: ts) t out
  | newArray {words : List String} {ts mid out : List Token} {t : Tree}
    (hname : name? ts = some (words, .lbracket :: mid)) (hsize : mid.head? ≠ some .rbracket) :
    Parses (.sizes words []) (.lbracket :: mid) t out → Parses (.level 15) (.word "new" :: ts) t out
  | field {w : String} {ts out : List Token} {l t : Tree} (hw : keywords.contains w = false) :
    Parses (.after 15 (.field l w)) ts t out → Parses (.after 15 l) (.dot :: .word w :: ts) t out
  | index {ts mid out : List Token} {l i t : Tree} :
    Parses (.level 2) ts i (.rbracket :: mid) → Parses (.after 15 (.index l i)) mid t out →
      Parses (.after 15 l) (.lbracket :: ts) t out
  | call {ts out : List Token} {l t : Tree} (hl : l.isCallable = true) :
    Parses (.list (.call l) []) ts t out → Parses (.after 15 l) (.lparen :: ts) t out
  | none {l : Listed} {ts out : List Token} {t : Tree} :
    Parses (.after 15 (l.tree [])) ts t out → Parses (.list l []) (l.close :: ts) t out
  | last {l : Listed} {done : List Tree} {ts mid out : List Token} {e t : Tree}
    (hfirst : done = [] → ts.head? ≠ some l.close) :
    Parses (.level 2) ts e (l.close :: mid) → Parses (.after 15 (l.tree (done ++ [e]))) mid t out →
      Parses (.list l done) ts t out
  | more {l : Listed} {done : List Tree} {ts mid out : List Token} {e t : Tree}
    (hfirst : done = [] → ts.head? ≠ some l.close) :
    Parses (.level 2) ts e (.comma :: mid) → Parses (.list l (done ++ [e])) mid t out →
      Parses (.list l done) ts t out
  | size {words : List String} {done : List Tree} {ts mid out : List Token} {e t : Tree}
    (hsize : ts.head? ≠ some .rbracket) :
    Parses (.level 2) ts e (.rbracket :: mid) → Parses (.sizes words (done ++ [e])) mid t out →
      Parses (.sizes words done) (.lbracket :: ts) t out
  | sized {words : List String} {done : List Tree} {ts out : List Token} {t : Tree} (hdone : done ≠ [])
    (hstop : (brackets ts).2.head? ≠ some .lbracket) :
    Parses (.after 15 (.newArray words done (brackets ts).1)) (brackets ts).2 t out →
      Parses (.sizes words done) ts t out

theorem name?_of_dims {ts rest : List Token} {type : TypeName} (h : typeName? ts = some (type, rest))
    (hdims : type.dims ≠ 0) : ∃ mid, name? ts = some (type.words, .lbracket :: .rbracket :: mid) := by
  rw [typeName?, Option.map_eq_some_iff] at h
  obtain ⟨⟨words, mid⟩, hname, htype⟩ := h
  cases htype
  revert hname hdims
  fun_cases brackets mid with
  | case1 => exact fun hname _ => ⟨_, hname⟩
  | case2 => exact fun _ hdims => absurd rfl hdims

theorem brackets_size {ts : List Token} (h : ts.head? ≠ some .rbracket) :
    brackets (.lbracket :: ts) = (0, .lbracket :: ts) := by
  cases ts with
  | nil => rfl
  | cons tok ts =>
      rw [brackets]
      rintro rest hrest
      cases hrest
      exact h rfl

theorem Parses.functional {g : Goal} {ts out out' : List Token} {t t' : Tree} (h : Parses g ts t out)
    (h' : Parses g ts t' out') : t' = t ∧ out' = out := by
  induction h generalizing t' out' with
  | operand hk _ _ ih₁ ih₂ =>
      cases h' with
      | operand _ h₁ h₂ =>
          obtain ⟨rfl, rfl⟩ := ih₁ h₁
          exact ih₂ h₂
      | _ => omega
  | done hstop =>
      cases h' with
      | done => exact ⟨rfl, rfl⟩
      | binary hs => exact absurd hs (hstop _ rfl)
      | _ => exact absurd rfl (hstop _ rfl)
  | choice _ _ ih₁ ih₂ =>
      cases h' with
      | done hstop => exact absurd rfl (hstop _ rfl)
      | choice h₁ h₂ =>
          obtain ⟨rfl, hmid⟩ := ih₁ h₁
          cases hmid
          obtain ⟨rfl, rfl⟩ := ih₂ h₂
          exact ⟨rfl, rfl⟩
  | binary hs _ _ ih₁ ih₂ =>
      cases h' with
      | done hstop => exact absurd hs (hstop _ rfl)
      | binary _ h₁ h₂ =>
          obtain ⟨rfl, rfl⟩ := ih₁ h₁
          exact ih₂ h₂
  | instanceOf htype _ ih =>
      cases h' with
      | done hstop => exact absurd rfl (hstop _ rfl)
      | instanceOf htype' h =>
          cases htype.symm.trans htype'
          exact ih h
  | unary hs _ ih =>
      cases h' with
      | operand hk => omega
      | unary _ h =>
          obtain ⟨rfl, rfl⟩ := ih h
          exact ⟨rfl, rfl⟩
      | plain hsign => exact absurd rfl (hsign _ hs)
  | cast htype _ ih =>
      cases h' with
      | operand hk => omega
      | cast htype' h =>
          cases htype.symm.trans htype'
          obtain ⟨rfl, rfl⟩ := ih h
          exact ⟨rfl, rfl⟩
      | plain _ hcast => cases htype.symm.trans (hcast _ rfl)
  | plain hsign hcast _ ih =>
      cases h' with
      | operand hk => omega
      | unary hs => exact absurd rfl (hsign _ hs)
      | cast htype => cases htype.symm.trans (hcast _ rfl)
      | plain _ _ h => exact ih h
  | word hw _ ih =>
      cases h' with
      | operand hk => omega
      | word _ h => exact ih h
      | create | fill | newArray => cases hw
  | number _ ih =>
      cases h' with
      | operand hk => omega
      | number h => exact ih h
  | char _ ih =>
      cases h' with
      | operand hk => omega
      | char h => exact ih h
  | parens _ _ ih₁ ih₂ =>
      cases h' with
      | operand hk => omega
      | parens h₁ h₂ =>
          obtain ⟨rfl, hmid⟩ := ih₁ h₁
          cases hmid
          exact ih₂ h₂
  | create hname _ ih =>
      cases h' with
      | operand hk => omega
      | word hw => cases hw
      | create hname' h =>
          cases hname.symm.trans hname'
          exact ih h
      | fill htype hdims =>
          obtain ⟨_, hname'⟩ := name?_of_dims htype hdims
          cases hname.symm.trans hname'
      | newArray hname' => cases hname.symm.trans hname'
  | fill htype hdims _ ih =>
      cases h' with
      | operand hk => omega
      | word hw => cases hw
      | create hname =>
          obtain ⟨_, hname'⟩ := name?_of_dims htype hdims
          cases hname.symm.trans hname'
      | fill htype' _ h =>
          cases htype.symm.trans htype'
          exact ih h
      | newArray hname hsize =>
          obtain ⟨_, hname'⟩ := name?_of_dims htype hdims
          cases hname.symm.trans hname'
          exact absurd rfl hsize
  | newArray hname hsize _ ih =>
      cases h' with
      | operand hk => omega
      | word hw => cases hw
      | create hname' => cases hname.symm.trans hname'
      | fill htype hdims =>
          obtain ⟨_, hname'⟩ := name?_of_dims htype hdims
          cases hname.symm.trans hname'
          exact absurd rfl hsize
      | newArray hname' _ h =>
          cases hname.symm.trans hname'
          exact ih h
  | field _ _ ih =>
      cases h' with
      | done hstop => exact absurd rfl (hstop _ rfl)
      | field _ h => exact ih h
  | index _ _ ih₁ ih₂ =>
      cases h' with
      | done hstop => exact absurd rfl (hstop _ rfl)
      | index h₁ h₂ =>
          obtain ⟨rfl, hmid⟩ := ih₁ h₁
          cases hmid
          exact ih₂ h₂
  | call _ _ ih =>
      cases h' with
      | done hstop => exact absurd rfl (hstop _ rfl)
      | call _ h => exact ih h
  | none _ ih =>
      cases h' with
      | none h => exact ih h
      | last hfirst | more hfirst => exact absurd rfl (hfirst rfl)
  | @last l _ _ _ _ _ _ hfirst _ _ ih₁ ih₂ =>
      cases h' with
      | none => exact absurd rfl (hfirst rfl)
      | last _ h₁ h₂ =>
          obtain ⟨rfl, hmid⟩ := ih₁ h₁
          cases hmid
          exact ih₂ h₂
      | more _ h₁ =>
          have hmid := (ih₁ h₁).2
          cases l <;> cases hmid
  | @more l _ _ _ _ _ _ hfirst _ _ ih₁ ih₂ =>
      cases h' with
      | none => exact absurd rfl (hfirst rfl)
      | last _ h₁ =>
          have hmid := (ih₁ h₁).2
          cases l <;> cases hmid
      | more _ h₁ h₂ =>
          obtain ⟨rfl, hmid⟩ := ih₁ h₁
          cases hmid
          exact ih₂ h₂
  | size hsize _ _ ih₁ ih₂ =>
      cases h' with
      | size _ h₁ h₂ =>
          obtain ⟨rfl, hmid⟩ := ih₁ h₁
          cases hmid
          exact ih₂ h₂
      | sized _ hstop => exact absurd rfl (brackets_size hsize ▸ hstop)
  | sized hdone hstop _ ih =>
      cases h' with
      | size hsize => exact absurd rfl (brackets_size hsize ▸ hstop)
      | sized _ _ h => exact ih h

def Reads (text : List Char) (t : Tree) : Prop := ∃ ts, Lexes text ts ∧ Parses (.level 2) ts t []

theorem Reads.functional {text : List Char} {t t' : Tree} (h : Reads text t) (h' : Reads text t') : t' = t := by
  obtain ⟨ts, hlexes, hparses⟩ := h
  obtain ⟨us, hlexes', hparses'⟩ := h'
  rw [hlexes.functional hlexes'] at hparses'
  exact (hparses.functional hparses').1

end JavaLift.Source
