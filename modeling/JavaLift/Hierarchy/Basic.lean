import JavaLift.Body

namespace JavaLift

/-- The known classes. Of two with one name the first counts. -/
structure Hierarchy where
  classes : List ClassInfo

namespace Hierarchy

def standard : List ClassInfo :=
  let runtime (name : String) : ClassInfo := ⟨name, some "java.lang.RuntimeException", []⟩
  let number (name : String) : ClassInfo := ⟨name, some "java.lang.Number", ["java.lang.Comparable"]⟩
  let below (name above : String) : ClassInfo := ⟨name, some above, []⟩
  let ofRoot (name : String) (interfaces : List String) : ClassInfo := ⟨name, some Ty.objectClass, interfaces⟩
  [ofRoot Ty.stringClass ["java.lang.CharSequence", "java.lang.Comparable", "java.io.Serializable"],
    ofRoot "java.lang.StringBuilder" ["java.lang.CharSequence"],
    ofRoot Ty.throwableClass ["java.io.Serializable"],
    below "java.lang.Exception" Ty.throwableClass, below "java.lang.Error" Ty.throwableClass,
    below "java.lang.RuntimeException" "java.lang.Exception", below "java.io.IOException" "java.lang.Exception",
    runtime "java.lang.IllegalArgumentException", runtime "java.lang.IllegalStateException",
    runtime "java.lang.NullPointerException", runtime "java.lang.ClassCastException",
    runtime "java.lang.ArithmeticException", runtime "java.lang.IndexOutOfBoundsException",
    number "java.lang.Integer", number "java.lang.Long", number "java.lang.Float", number "java.lang.Double",
    number "java.lang.Short", number "java.lang.Byte",
    ofRoot "java.lang.Number" ["java.io.Serializable"],
    ofRoot "java.lang.Boolean" ["java.lang.Comparable", "java.io.Serializable"],
    ofRoot "java.lang.Character" ["java.lang.Comparable", "java.io.Serializable"]]

/-- The hierarchy of a list of classes in which a later entry replaces an earlier one of the same name. -/
def ofClasses (classes : List ClassInfo) : Hierarchy := ⟨classes.reverse⟩

def find? (h : Hierarchy) (name : String) : Option ClassInfo :=
  h.classes.find? (·.name == name) <|> standard.find? (·.name == name)

def parents (c : ClassInfo) : List String := c.superClass.getD Ty.objectClass :: c.interfaces

def above (h : Hierarchy) (name : String) : List String :=
  if name = Ty.objectClass then [] else (h.find? name).elim [] parents

def addNew (known : List String) (names : List String) : List String :=
  names.foldl (fun known n => if known.contains n then known else known ++ [n]) known

/-- Goes on with entry number `i` of the known classes, and adds what stands above it. -/
def climb (h : Hierarchy) : Nat → Nat → List String → List String
  | 0, _, known => known
  | rounds + 1, i, known => match known[i]? with
    | none => known
    | some name => h.climb rounds (i + 1) (addNew known (h.above name))

def bound (h : Hierarchy) : Nat := ((h.classes ++ standard).flatMap parents).length + 2

/-- A class and those above it, as far as they are known, the nearest first. -/
def reached (h : Hierarchy) (name : String) : List String := h.climb h.bound 0 [name]

def isComplete (h : Hierarchy) (name : String) : Bool :=
  (h.reached name).all fun n => n == Ty.objectClass || (h.find? n).isSome

/-- A class and those above it, the nearest first. A class whose super classes run in a circle stands below the
root too. -/
def ancestors (h : Hierarchy) (name : String) : List String :=
  let reached := h.reached name
  if h.isComplete name && !reached.contains Ty.objectClass then reached ++ [Ty.objectClass] else reached

/-- Every class is below itself and below the root. -/
def isSubtype (h : Hierarchy) (sub sup : String) : Bool :=
  sub == sup || sup == Ty.objectClass || (h.ancestors sub).contains sup

def common? (h : Hierarchy) (a b : String) : Option String :=
  if h.isSubtype a b then some b
  else if h.isSubtype b a then some a
  else
    let right := h.ancestors b
    (h.ancestors a).find? right.contains

end Hierarchy

end JavaLift
