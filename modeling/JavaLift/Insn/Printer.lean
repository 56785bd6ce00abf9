import JavaLift.Insn.Tree
import JavaLift.Text.Lowercase
import JavaLift.Text.Quoted

namespace JavaLift

def Register.render (r : Register) : String := "r" ++ toString r.reg

namespace Op

def caseText (key : Int) (target : Nat) : String := toString key ++ ": " ++ Text.offset target

def mnemonic (conditions : List String) : Op → String
  | .nop => "nop"
  | .const => "const"
  | .constString s => "const-string " ++ Text.quoted s
  | .constClass t => "const-class " ++ t.render
  | .move => "move"
  | .moveException (some t) => "move-exception " ++ t.render
  | .moveException none => "move-exception"
  | .ret => "return"
  | .throw => "throw"
  | .monitorEnter => "monitor-enter"
  | .monitorExit => "monitor-exit"
  | .checkCast t => "check-cast " ++ t.render
  | .instanceOf t => "instance-of " ++ t.render
  | .arrayLength => "array-length"
  | .newInstance t => "new-instance " ++ t.render
  | .newArray t => "new-array " ++ t.render
  | .filledNewArray t => "filled-new-array " ++ t.render
  | .fillArray w data => "fill-array-data width=" ++ toString w ++ " " ++ Text.bracketed (data.map toString)
  | .goto target => "goto " ++ Text.offset target
  | .jumpIf cmp target => "if-" ++ cmp.name ++ " -> " ++ Text.offset target
  | .switchOn keys targets default =>
    "switch \x7b" ++ ", ".intercalate (List.zipWith caseText keys targets) ++ "\x7d"
      ++ default.elim "" fun d => " default " ++ Text.offset d
  | .compare t => "cmp-" ++ t.javaName
  | .arith op t => op.name ++ "-" ++ t.javaName
  | .neg t => "neg-" ++ t.javaName
  | .not t => "not-" ++ t.javaName
  | .cast source target => source.javaName ++ "-to-" ++ target.javaName
  | .arrayGet _ => "aget"
  | .arrayPut _ => "aput"
  | .instanceGet f => "iget " ++ f.render
  | .instancePut f => "iput " ++ f.render
  | .staticGet f => "sget " ++ f.render
  | .staticPut f => "sput " ++ f.render
  | .invoke kind m => "invoke-" ++ kind.name ++ " " ++ m.render
  | .construct m => "construct " ++ m.render
  | .ternary cmp _ => Text.lower ("ternary if-" ++ cmp.name ++ "(" ++ ", ".intercalate conditions ++ ")")

end Op

def Head.render (h : Head) (args : List String) : String :=
  let values := args.drop h.op.conditions
  h.result.elim "" (fun r => r.render ++ " = ") ++ h.op.mnemonic (args.take h.op.conditions)
    ++ (if values.isEmpty then "" else " " ++ ", ".intercalate values)

namespace Arg

mutual

def render : Arg → String
  | .reg r => r.render
  | .lit value _ => "#" ++ toString value
  | .tree head args => "(" ++ head.render (renderAll args) ++ ")"

def renderAll : List Arg → List String
  | [] => []
  | a :: rest => render a :: renderAll rest

end

mutual

/-- The operations of the nodes of a tree, outermost first, as listings show them. -/
def mnemonics : Arg → List String
  | .reg _ | .lit .. => []
  | .tree head args => head.op.mnemonic ((renderAll args).take head.op.conditions) :: mnemonicsOf args

def mnemonicsOf : List Arg → List String
  | [] => []
  | a :: rest => mnemonics a ++ mnemonicsOf rest

end

end Arg

namespace Insn

def mnemonic (i : Insn) : String := i.op.mnemonic (Arg.renderAll i.conditionArgs)

def render (i : Insn) : String := i.toHead.render (Arg.renderAll i.args)

end Insn

end JavaLift
