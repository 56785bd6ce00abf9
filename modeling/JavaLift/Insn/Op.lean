import JavaLift.Member

namespace JavaLift

/-- A comparison. With a single argument it compares with zero or null. -/
inductive CmpOp where
  | eq | ne | lt | ge | gt | le
deriving DecidableEq

namespace CmpOp

def all : List CmpOp := [.eq, .ne, .lt, .ge, .gt, .le]

def ofIndex? (i : Nat) : Option CmpOp := all[i]?

def index : CmpOp → Nat
  | .eq => 0
  | .ne => 1
  | .lt => 2
  | .ge => 3
  | .gt => 4
  | .le => 5

def negate : CmpOp → CmpOp
  | .eq => .ne
  | .ne => .eq
  | .lt => .ge
  | .ge => .lt
  | .gt => .le
  | .le => .gt

def symbol : CmpOp → String
  | .eq => "=="
  | .ne => "!="
  | .lt => "<"
  | .ge => ">="
  | .gt => ">"
  | .le => "<="

def name : CmpOp → String
  | .eq => "eq"
  | .ne => "ne"
  | .lt => "lt"
  | .ge => "ge"
  | .gt => "gt"
  | .le => "le"

end CmpOp

inductive ArithOp where
  | add | sub | mul | div | rem | and | or | xor | shl | shr | ushr
deriving DecidableEq

namespace ArithOp

def all : List ArithOp := [.add, .sub, .mul, .div, .rem, .and, .or, .xor, .shl, .shr, .ushr]

def ofIndex? (i : Nat) : Option ArithOp := all[i]?

def index : ArithOp → Nat
  | .add => 0
  | .sub => 1
  | .mul => 2
  | .div => 3
  | .rem => 4
  | .and => 5
  | .or => 6
  | .xor => 7
  | .shl => 8
  | .shr => 9
  | .ushr => 10

def symbol : ArithOp → String
  | .add => "+"
  | .sub => "-"
  | .mul => "*"
  | .div => "/"
  | .rem => "%"
  | .and => "&"
  | .or => "|"
  | .xor => "^"
  | .shl => "<<"
  | .shr => ">>"
  | .ushr => ">>>"

def name : ArithOp → String
  | .add => "add"
  | .sub => "sub"
  | .mul => "mul"
  | .div => "div"
  | .rem => "rem"
  | .and => "and"
  | .or => "or"
  | .xor => "xor"
  | .shl => "shl"
  | .shr => "shr"
  | .ushr => "ushr"

def isShift : ArithOp → Bool
  | .shl | .shr | .ushr => true
  | _ => false

def isBitwise : ArithOp → Bool
  | .and | .or | .xor => true
  | _ => false

end ArithOp

inductive InvokeKind where
  | virtual | super | direct | static | interface
deriving DecidableEq

namespace InvokeKind

def all : List InvokeKind := [.virtual, .super, .direct, .static, .interface]

def ofIndex? (i : Nat) : Option InvokeKind := all[i]?

def index : InvokeKind → Nat
  | .virtual => 0
  | .super => 1
  | .direct => 2
  | .static => 3
  | .interface => 4

def isStatic (k : InvokeKind) : Bool := k == .static

def name : InvokeKind → String
  | .virtual => "virtual"
  | .super => "super"
  | .direct => "direct"
  | .static => "static"
  | .interface => "interface"

end InvokeKind

/-- An operation. A jump with a `target` goes to that offset; a `switchOn` without a default falls through when
no key fits. `moveException none` is the entry of a handler for everything. The first `conditions` arguments of
a `ternary` are those of its comparison, and the two after them are its branches. -/
inductive Op where
  | nop
  | const
  | constString (text : String)
  | constClass (type : Ty)
  | move
  | moveException (caught : Option Ty)
  | ret
  | throw
  | monitorEnter
  | monitorExit
  | checkCast (type : Ty)
  | instanceOf (type : Ty)
  | arrayLength
  | newInstance (type : Ty)
  | newArray (type : Ty)
  | filledNewArray (type : Ty)
  | fillArray (width : Nat) (data : List Int)
  | goto (target : Nat)
  | jumpIf (cmp : CmpOp) (target : Nat)
  | switchOn (keys : List Int) (targets : List Nat) (default : Option Nat)
  | compare (type : Ty)
  | arith (op : ArithOp) (type : Ty)
  | neg (type : Ty)
  | not (type : Ty)
  | cast (source target : Ty)
  | arrayGet (type : Ty)
  | arrayPut (type : Ty)
  | instanceGet (field : FieldRef)
  | instancePut (field : FieldRef)
  | staticGet (field : FieldRef)
  | staticPut (field : FieldRef)
  | invoke (kind : InvokeKind) (method : MethodRef)
  | construct (method : MethodRef)
  | ternary (cmp : CmpOp) (conditions : Nat)
deriving DecidableEq, Inhabited

namespace Op

def isTerminator : Op → Bool
  | .goto _ | .jumpIf .. | .switchOn .. | .ret | .throw => true
  | _ => false

def isIf : Op → Bool
  | .jumpIf .. => true
  | _ => false

/-- Control may go on to the next instruction. -/
def fallsThrough : Op → Bool
  | .goto _ | .ret | .throw => false
  | .switchOn _ _ default => default.isNone
  | _ => true

def targets : Op → List Nat
  | .goto target | .jumpIf _ target => [target]
  | .switchOn _ targets default => targets ++ default.toList
  | _ => []

def isConst : Op → Bool
  | .const | .constString _ | .constClass _ => true
  | _ => false

/-- The operation has no effect but its result and cannot fail, so its place among others is free. Division of
integers fails on zero. -/
def canReorder : Op → Bool
  | .const | .constString _ | .constClass _ | .move | .neg _ | .not _ | .cast .. | .compare _ | .instanceOf _
  | .newArray _ | .ternary .. => true
  | .arith op type => !((op == .div || op == .rem) && type != .float && type != .double)
  | _ => false

/-- How many of the first arguments belong to the comparison of a `ternary`. -/
def conditions : Op → Nat
  | .ternary _ n => n
  | _ => 0

end Op

end JavaLift
