import StructLang.Ir.Basic

namespace StructLang.Ir

def Ty.render : Ty → String
  | .void => "void"
  | .int width => "i" ++ toString width
  | .float width => "f" ++ toString width
  | .ptr => "ptr"
  | .struct name => "%" ++ name

def Reg.render (r : Reg) : String := "%" ++ toString r.id

def Value.render : Value → String
  | .reg r => r.ty.render ++ " " ++ r.render
  | .int value width => "i" ++ toString width ++ " " ++ toString value.toInt
  | .float value width => "f" ++ toString width ++ " " ++ value.render
  | .arg index ty => ty.render ++ " %arg" ++ toString index
  | .global name => "ptr @" ++ name

def BinOp.render : BinOp → String
  | .add => "add"
  | .sub => "sub"
  | .mul => "mul"
  | .sdiv => "sdiv"
  | .fadd => "fadd"
  | .fsub => "fsub"
  | .fmul => "fmul"
  | .fdiv => "fdiv"

def IntPred.render : IntPred → String
  | .eq => "eq"
  | .ne => "ne"
  | .slt => "slt"
  | .sgt => "sgt"
  | .sle => "sle"
  | .sge => "sge"

def FloatPred.render : FloatPred → String
  | .ueq => "ueq"
  | .ult => "ult"
  | .ugt => "ugt"
  | .ule => "ule"
  | .uge => "uge"

def commaSeparated (parts : List String) : String := ", ".intercalate parts

def Instruction.render : Instruction → String
  | .alloca dest ty => dest.render ++ " = alloca " ++ ty.render
  | .load dest ty addr => dest.render ++ " = load " ++ ty.render ++ ", " ++ addr.render
  | .store value addr => "store " ++ value.render ++ ", " ++ addr.render
  | .fieldAddr dest struct base index =>
    dest.render ++ " = getelementptr %" ++ struct ++ ", " ++ base.render ++ ", i32 0, i32 " ++ toString index
  | .elementAddr dest element base index =>
    dest.render ++ " = getelementptr " ++ element.render ++ ", " ++ base.render ++ ", " ++ index.render
  | .binary dest op lhs rhs =>
    dest.render ++ " = " ++ op.render ++ " " ++ lhs.render ++ ", " ++ rhs.render
  | .neg dest operand => dest.render ++ " = neg " ++ operand.render
  | .fneg dest operand => dest.render ++ " = fneg " ++ operand.render
  | .icmp dest pred lhs rhs =>
    dest.render ++ " = icmp " ++ pred.render ++ " " ++ lhs.render ++ ", " ++ rhs.render
  | .fcmp dest pred lhs rhs =>
    dest.render ++ " = fcmp " ++ pred.render ++ " " ++ lhs.render ++ ", " ++ rhs.render
  | .call none callee args =>
    "call void @" ++ callee ++ "(" ++ commaSeparated (args.map Value.render) ++ ")"
  | .call (some dest) callee args =>
    dest.render ++ " = call " ++ dest.ty.render ++ " @" ++ callee ++ "(" ++
      commaSeparated (args.map Value.render) ++ ")"

def Function.labelOf (f : Function) (id : Nat) : String :=
  match f.block? id with
  | some b => b.label
  | none => "bb" ++ toString id

def Terminator.render (f : Function) : Terminator → String
  | .ret (some value) => "ret " ++ value.render
  | .ret none => "ret void"
  | .br target => "br label %" ++ f.labelOf target
  | .condBr cond onTrue onFalse =>
    "br " ++ cond.render ++ ", label %" ++ f.labelOf onTrue ++ ", label %" ++ f.labelOf onFalse
  | .unreachable => "unreachable"

def Block.render (f : Function) (b : Block) : String :=
  let terminator :=
    match b.terminator with
    | some t => t.render f
    | none => "; missing terminator"
  b.label ++ ":\n" ++ String.join (b.instructions.map fun i => "  " ++ i.render ++ "\n") ++
    "  " ++ terminator ++ "\n"

def Param.render (p : Param) : String := p.ty.render ++ " %" ++ p.name

def Function.render (f : Function) : String :=
  let header := f.returns.render ++ " @" ++ f.name ++ "(" ++ commaSeparated (f.params.map Param.render) ++ ")"
  if f.isDeclaration then "declare " ++ header ++ "\n"
  else "define " ++ header ++ " \x7b\n" ++ String.join (f.blocks.map (·.render f)) ++ "\x7d\n"

def hexDigit (n : Nat) : Char := if n < 10 then Char.ofNat (48 + n) else Char.ofNat (55 + n)

def escapeByte (byte : UInt8) : List Char :=
  if 0x20 ≤ byte ∧ byte ≤ 0x7e ∧ byte ≠ 0x22 ∧ byte ≠ 0x5c then [Char.ofNat byte.toNat]
  else ['\\', hexDigit (byte.toNat / 16), hexDigit (byte.toNat % 16)]

def escape (text : String) : List Char := text.toUTF8.toList.flatMap escapeByte

def Layout.render (l : Layout) : String :=
  "%" ++ l.name ++ " = type \x7b " ++ commaSeparated (l.fields.map (·.2.render)) ++ " \x7d\n"

def Global.render (g : Global) : String :=
  "@" ++ g.name ++ " = constant c\"" ++ String.ofList (escape g.text) ++ "\\00\"\n"

def Module.render (m : Module) : String :=
  "; module " ++ m.name ++ "\n" ++ String.join (m.structs.map Layout.render) ++
    String.join (m.globals.map Global.render) ++
    String.join (m.functions.map fun f => "\n" ++ f.render)

end StructLang.Ir
