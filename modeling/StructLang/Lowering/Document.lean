import StructLang.Check.Checker
import StructLang.Lowering.Expr

namespace StructLang

namespace Lower

def condition (scope : Scope) (e : Expr) : Lower Ir.Value := do
  let typed ← valueOf e (expr scope .value e)
  match typed.value.ty with
  | .int 1 => return typed.value
  | .int width => build (·.icmp .ne typed.value (.int 0 width))
  | _ => throw (.unsupported "condition" typed.ty)

def evaluate (scope : Scope) (e : Expr) : Lower Unit := do
  let _ ← expr scope .value e

def loop (scope : Scope) (test : Expr) (body step : Lower Unit) : Lower Unit := do
  let testBlock ← build (·.attach "loop.cond")
  let bodyBlock ← build (·.attach "loop.body")
  let exit ← build (·.create "loop.end")
  terminate (.br testBlock)
  write (·.switchTo testBlock)
  let cond ← condition scope test
  terminate (.condBr cond bodyBlock exit)
  write (·.switchTo bodyBlock)
  body
  unless ← isTerminated do
    step
    terminate (.br testBlock)
  continueIn exit

mutual

def stmt (scope : Scope) (blockScoping : Bool) : Stmt → Lower Unit
  | .letIn _ name ty init => do
    let slot ← build (·.alloca (.ofSource ty))
    match init with
    | none => pure ()
    | some e => do
      let typed ← valueOf e (expr scope .value e)
      write (·.store typed.value slot)
    bindLocal name slot ty
  | .ret _ none => terminate (.ret none)
  | .ret _ (some e) => do
    let typed ← valueOf e (expr scope .value e)
    terminate (.ret (some typed.value))
  | .cond _ chain => do
    let merge ← build (·.create "if.end")
    ifChain scope blockScoping merge chain
    continueIn merge
  | .while _ test body => loop scope test (block scope blockScoping body) (pure ())
  | .for _ init test step body =>
    inScope blockScoping do
      stmt scope blockScoping init
      loop scope test (block scope blockScoping body) (evaluate scope step)
  | .expr e => evaluate scope e
termination_by structural s => s

def ifChain (scope : Scope) (blockScoping : Bool) (merge : Nat) : IfChain → Lower Unit
  | .branch test body rest => do
    let cond ← condition scope test
    let onTrue ← build (·.attach "if.then")
    let onFalse ← build (·.create "if.else")
    terminate (.condBr cond onTrue onFalse)
    write (·.switchTo onTrue)
    block scope blockScoping body
    branchTo merge
    continueIn onFalse
    ifChain scope blockScoping merge rest
  | .otherwise body => do
    block scope blockScoping body
    branchTo merge
  | .done => branchTo merge
termination_by structural chain => chain

def block (scope : Scope) (blockScoping : Bool) : Block → Lower Unit
  | ⟨body, _⟩ => inScope blockScoping (stmts scope blockScoping body)
termination_by structural b => b

def stmts (scope : Scope) (blockScoping : Bool) : List Stmt → Lower Unit
  | [] => return
  | s :: rest => do
    stmt scope blockScoping s
    stmts scope blockScoping rest
termination_by structural body => body

end

/-- Each parameter is stored into a slot of its own, so that the body can assign to it. -/
def params : Nat → List Param → Lower Unit
  | _, [] => return
  | index, p :: rest => do
    let slot ← build (·.alloca (.ofSource p.ty))
    write (·.store (.arg index (.ofSource p.ty)) slot)
    bindLocal p.name slot p.ty
    params (index + 1) rest

/-- A body that ends without a return returns nothing, or is never left there. -/
def body (scope : Scope) (blockScoping : Bool) (f : FunctionDecl) : Lower Unit := do
  let entry ← build (·.attach "entry")
  write (·.switchTo entry)
  params 0 f.signature.params
  block scope blockScoping f.body
  unless ← isTerminated do
    terminate (if f.signature.returns = .void then .ret none else .unreachable)

end Lower

def Signature.irParams (f : Signature) : List Ir.Param :=
  f.params.map fun p => ⟨p.name, .ofSource p.ty⟩

def StructDecl.layout (d : StructDecl) : Ir.Layout :=
  ⟨d.name, d.fields.map fun field => (field.name, .ofSource field.ty)⟩

abbrev ModuleLower := EStateM LoweringError Ir.ModuleBuilder

namespace ModuleLower

def function (scope : Scope) (blockScoping : Bool) (f : FunctionDecl) : ModuleLower Ir.Function :=
  fun m =>
    let start : FunctionState :=
      ⟨m, .start f.signature.name f.signature.irParams (.ofSource f.signature.returns), .empty⟩
    match Lower.body scope blockScoping f start with
    | .error e s => .error e s.module
    | .ok _ s =>
      let written := s.function.build
      match written.validate with
      | .error e => .error (.invalid e) s.module
      | .ok _ => .ok written s.module

mutual

def addStructsOf (m : Ir.ModuleBuilder) : Decl → Ir.ModuleBuilder
  | .struct d => m.addStruct d.layout
  | .imported _ _ document => addStructs m document
  | _ => m
termination_by structural d => d

def addStructs (m : Ir.ModuleBuilder) : List Decl → Ir.ModuleBuilder
  | [] => m
  | d :: rest => addStructs (addStructsOf m d) rest
termination_by structural document => document

end

def declare (m : Ir.ModuleBuilder) (f : Signature) : Ir.ModuleBuilder :=
  m.declare f.name f.irParams (.ofSource f.returns)

mutual

/-- Of an import only the signatures are declared; its bodies belong to another module. -/
def declareOf (m : Ir.ModuleBuilder) : Decl → Ir.ModuleBuilder
  | .function f => declare m f.signature
  | .external f _ => declare m f
  | .imported _ _ document => declareAll m document
  | _ => m
termination_by structural d => d

def declareAll (m : Ir.ModuleBuilder) : List Decl → Ir.ModuleBuilder
  | [] => m
  | d :: rest => declareAll (declareOf m d) rest
termination_by structural document => document

end

def document (scope : Scope) (blockScoping : Bool) (d : Document) : ModuleLower Unit := do
  modify (addStructs · d)
  modify (declareAll · d)
  d.functions.forM fun f => do
    let written ← function scope blockScoping f
    modify (·.addFunction written)

end ModuleLower

def Document.lower (d : Document) (scope : Scope) (blockScoping : Bool) (name : String) :
    Except LoweringError Ir.Module :=
  match ModuleLower.document scope blockScoping d (.start name) with
  | .error e _ => .error e
  | .ok _ m =>
    match m.module.validate with
    | .error e => .error (.invalid e)
    | .ok _ => .ok m.module

end StructLang
