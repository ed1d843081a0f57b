import Ilang.Util.Container
import Ilang.Vtarget.WireNames
import Mathlib.Data.Char
import Mathlib.Data.List.Lex
import Mathlib.Data.List.Sort

/-!
# Hierarchical names

`VerilogAnalyzer` answers queries about names of signals and instances in a parsed design, such as `top.sub.clk`. A query is split at
the dots, and the walk through the instances starts at the top module. Two buffers keep answers for later queries.

The parser makes the syntax trees. It resolves an instantiation if there is a module of that name. A call that fails an assertion,
or reads an element of a vector or a map that is not there, has no value.
-/

namespace Ilang

namespace VerilogAnalyzer

open WireNames (split)

abbrev Text := List Char

/-! ### The parsed design -/

/-- A place in a file. Lines are counted from 1. -/
structure Meta where
  file : Text
  line : ℕ
  line_pos : 0 < line
  deriving DecidableEq, Repr

structure Identifier where
  name : Text
  pos : Meta
  nonempty : name ≠ []
  deriving DecidableEq, Repr

inductive Direction
  | input
  | output
  | inout
  | none
  deriving DecidableEq, Repr

structure PortDecl where
  names : List Identifier
  isReg : Bool
  direction : Direction
  pos : Meta
  deriving DecidableEq, Repr

structure RegDecl where
  identifier : Identifier
  pos : Meta
  deriving DecidableEq, Repr

structure NetDecl where
  identifier : Identifier
  pos : Meta
  deriving DecidableEq, Repr

/-- Instances of one module. The declaration is there if the instantiation is resolved. -/
structure Instantiation where
  moduleIdentifier : Identifier
  declaration : Option Identifier
  instances : List Identifier
  resolved : ∀ i ∈ declaration, i.name = moduleIdentifier.name
  deriving DecidableEq, Repr

structure Module where
  identifier : Identifier
  instantiations : List Instantiation
  ports : List PortDecl
  regs : List RegDecl
  nets : List NetDecl
  pos : Meta
  deriving DecidableEq, Repr

/-- `vlg_loc_t`. -/
abbrev Loc := Text × ℕ

/-- `vlg_loc_t()`. -/
def noLoc : Loc := ([], 0)

/-- `Meta2Loc`. -/
def Meta.toLoc (m : Meta) : Loc := (m.file, m.line)

/-! ### The maps -/

/-- The name of the module that is instantiated. -/
def Instantiation.submodName (s : Instantiation) : Text :=
  match s.declaration with
  | some i => i.name
  | none => s.moduleIdentifier.name

namespace Module

variable (m : Module)

def instances : List (Identifier × Instantiation) := m.instantiations.flatMap fun s => s.instances.map fun i => (i, s)

/-- `modules_to_submodules_map` and `modules_to_submodule_inst_ast_map` for a module: `insert` keeps the first entry. -/
def submodule (x : Text) : Option (Identifier × Instantiation) := m.instances.find? fun e => e.1.name = x

end Module

/-- A top module may be given by name, and is else one that has no instance. It gets a name as an instance. -/
structure Design where
  modules : List Module
  topInstName : Text
  optionalTopModule : Text
  named : topInstName ≠ []
  deriving DecidableEq, Repr

namespace Design

variable (d : Design)

/-- `name_module_map`. -/
def nameModuleMap (n : Text) : Option Module := d.modules.find? fun m => m.identifier.name = n

/-- The modules of `name_module_map`, in which a module that comes again is ignored. -/
def registered : List Module := d.modules.filter fun m => d.nameModuleMap m.identifier.name = some m

/-- The keys of `module_to_whereuses_map`. -/
def used : List Text := d.registered.flatMap fun m => m.instantiations.map Instantiation.submodName

def topModuleCandidates : List Text :=
  ((d.modules.map fun m => m.identifier.name).filter fun n => n ∉ d.used).insertionSort (· ≤ ·)

/-- `find_top_module`, without a value if the analyzer gets into its bad state. -/
def findTopModule : Option Text :=
  match d.topModuleCandidates with
  | [] => none
  | n :: _ =>
    if d.optionalTopModule ≠ [] then
      if (d.nameModuleMap d.optionalTopModule).isSome then some d.optionalTopModule else none
    else some n

/-- `_bad_state` -/
def badState : Bool := d.findTopModule.isNone

def topModuleName : Text := d.findTopModule.getD []

end Design

/-! ### The answers -/

/-- `hierarchical_name_type`. -/
inductive NameType
  | none
  | module
  | iWireWoInternalDef
  | oWireWoInternalDef
  | ioWireWoInternalDef
  | iWireWInternalDef
  | oWireWInternalDef
  | ioWireWInternalDef
  | oRegWoInternalDef
  | oRegWInternalDef
  | reg
  | wire
  | others
  deriving DecidableEq, Repr

/-- What the declaration pointer points to. -/
inductive Decl
  | module (m : Module)
  | port (p : PortDecl)
  | reg (r : RegDecl)
  | net (n : NetDecl)
  deriving DecidableEq, Repr

/-- Why a declaration pointer is `NULL`. -/
inductive DeclError
  | badState
  | unknownType
  | notFound
  deriving DecidableEq, Repr

/-- `name_type_buffer` and `name_decl_buffer`. -/
structure Cache where
  type : Text → Option NameType
  decl : Text → Option Decl

def Cache.empty : Cache := ⟨fun _ => none, fun _ => none⟩

def Cache.insertType (σ : Cache) (q : Text) (t : NameType) : Cache := { σ with type := Function.update σ.type q (some t) }

/-- The declaration of a name is overwritten, if there is one to write. -/
def Cache.writeDecl (σ : Cache) (q : Text) (decl : Option Decl) : Cache :=
  match decl with
  | some x => { σ with decl := Function.update σ.decl q (some x) }
  | none => σ

/-! ### A signal of a module -/

namespace Module

variable (m : Module) (x : Text)

/-- The last port of the name. -/
def findPort : Option PortDecl := m.ports.reverse.find? fun p => p.names.any fun i => i.name = x

/-- The last register of the name, or else the last net: a net that is also a register is ignored. -/
def findInternal : Option (RegDecl ⊕ NetDecl) :=
  match m.regs.reverse.find? fun r => r.identifier.name = x with
  | some r => some (.inl r)
  | none => (m.nets.reverse.find? fun n => n.identifier.name = x).map .inr

def internalDecl : RegDecl ⊕ NetDecl → Decl
  | .inl r => .reg r
  | .inr n => .net n

/-- The type of a name, and the declaration that is written into the buffer. -/
def signalType : NameType × Option Decl :=
  match m.findPort x, m.findInternal x with
  | some p, some i =>
    if i.isLeft && (p.direction == .input || p.direction == .inout) then (.others, none)
    else if p.isReg && !i.isLeft then (.others, none)
    else if i.isLeft then (.oRegWInternalDef, some (internalDecl i))
    else
      match p.direction with
      | .input => (.iWireWInternalDef, some (internalDecl i))
      | .output => (.oWireWInternalDef, some (internalDecl i))
      | .inout => (.ioWireWInternalDef, some (internalDecl i))
      | .none => (.others, some (internalDecl i))
  | some p, none =>
    if p.isReg then (.oRegWoInternalDef, some (.port p))
    else
      match p.direction with
      | .input => (.iWireWoInternalDef, some (.port p))
      | .output => (.oWireWoInternalDef, some (.port p))
      | .inout => (.ioWireWoInternalDef, some (.port p))
      | .none => (.others, some (.port p))
  | none, some i => (if i.isLeft then .reg else .wire, some (internalDecl i))
  | none, none => (.none, none)

end Module

/-! ### The walks -/

namespace Design

variable (d : Design)

/-- The walk of `check_hierarchical_name_type` and `get_module_inst_loc` down to the last level. The inner value is there unless an
instance does not exist, and the outer one unless the map has no such module. -/
def descend : Text → List Text → Option (Option Text)
  | curr, [] => some (some curr)
  | curr, x :: xs =>
    match d.nameModuleMap curr with
    | none => none
    | some m =>
      match m.submodule x with
      | none => some none
      | some e => descend e.2.submodName xs

/-- The last level of `_check_hierarchical_name_type`. -/
def checkLast (curr x : Text) : Option (NameType × Option Decl) :=
  match d.nameModuleMap curr with
  | none => none
  | some m =>
    match m.submodule x with
    | some e => (d.nameModuleMap e.2.submodName).map fun sub => (.module, some (.module sub))
    | none => some (m.signalType x)

/-- `_check_hierarchical_name_type`, with the declaration that it writes into the buffer. -/
def checkUncached (q : Text) : Option (NameType × Option Decl) :=
  match split q '.' with
  | [] => none
  | [t] =>
    if t ≠ d.topInstName then some (.none, none)
    else (d.nameModuleMap d.topModuleName).map fun m => (.module, some (.module m))
  | t :: x :: xs =>
    if t ≠ d.topInstName then some (.none, none)
    else
      match d.descend d.topModuleName (x :: xs).dropLast with
      | none => none
      | some none => some (.none, none)
      | some (some curr) => d.checkLast curr ((x :: xs).getLast (List.cons_ne_nil x xs))

def checkHierarchicalNameType (q : Text) (σ : Cache) : Option (NameType × Cache) :=
  if d.badState then some (.none, σ)
  else
    match σ.type q with
    | some t => some (t, σ)
    | none =>
      match d.checkUncached q with
      | none => none
      | some (t, decl) =>
        let σ := σ.writeDecl q decl
        some (t, if t ≠ .none then σ.insertType q t else σ)

def findDeclarationOfName (q : Text) (σ : Cache) : Option (Except DeclError Decl × Cache) :=
  if d.badState then some (.error .badState, σ)
  else
    match d.checkHierarchicalNameType q σ with
    | none => none
    | some (t, σ) =>
      if t = .others then some (.error .unknownType, σ)
      else if t = .none then some (.error .notFound, σ)
      else (σ.decl q).map fun x => (.ok x, σ)

def isReg (t : NameType) : Bool := t = .oRegWoInternalDef || t = .oRegWInternalDef || t = .reg

def isWire (t : NameType) : Bool :=
  [.iWireWoInternalDef, .oWireWoInternalDef, .ioWireWoInternalDef, .iWireWInternalDef, .oWireWInternalDef, .ioWireWInternalDef,
    NameType.wire].contains t

def noInternalDef (t : NameType) : Bool :=
  [.iWireWoInternalDef, .oWireWoInternalDef, .ioWireWoInternalDef, NameType.oRegWoInternalDef].contains t

/-- The location in `name2loc`, which reads the pointer at the class that the type stands for. -/
def declLoc (t : NameType) (x : Decl) : Option Loc :=
  if t = .module then match x with | .module m => some m.identifier.pos.toLoc | _ => none
  else if noInternalDef t then match x with | .port p => some p.pos.toLoc | _ => none
  else if isReg t then match x with | .reg r => some r.pos.toLoc | _ => none
  else if isWire t then match x with | .net n => some n.pos.toLoc | _ => none
  else none

def name2loc (q : Text) (σ : Cache) : Option (Loc × Cache) :=
  if d.badState then some (noLoc, σ)
  else
    match d.checkHierarchicalNameType q σ with
    | none => none
    | some (t, σ) =>
      match d.findDeclarationOfName q σ with
      | some (.ok x, σ) => (declLoc t x).map fun l => (l, σ)
      | _ => none

/-- The first instance of the name, looked for in the syntax tree. -/
def findInstance (m : Module) (x : Text) : Option Identifier :=
  m.instantiations.findSome? fun s => s.instances.find? fun i => i.name = x

def getModuleInstLoc (q : Text) (σ : Cache) : Option (Loc × Cache) :=
  if d.badState then some (noLoc, σ)
  else
    match split q '.' with
    | [] => none
    | [t] =>
      if t ≠ d.topInstName then some (noLoc, σ)
      else
        match d.nameModuleMap d.topModuleName with
        | none => none
        | some m => d.name2loc q (σ.writeDecl q (some (.module m)))
    | t :: x :: xs =>
      if t ≠ d.topInstName then some (noLoc, σ)
      else
        match d.descend d.topModuleName (x :: xs).dropLast with
        | none => none
        | some none => some (noLoc, σ)
        | some (some curr) =>
          let last := (x :: xs).getLast (List.cons_ne_nil x xs)
          match d.nameModuleMap curr with
          | none => none
          | some m =>
            if (m.submodule last).isNone then some (noLoc, σ) else (findInstance m last).map fun i => (i.pos.toLoc, σ)

/-- The walk of `get_hierarchy_from_full_name`, which collects the modules and the instantiations on the way. -/
def walkHierarchy : Text → List Text → List (Module × Instantiation) → Option (Option (List (Module × Instantiation) × Module))
  | curr, [], hier => (d.nameModuleMap curr).map fun m => some (hier, m)
  | curr, x :: xs, hier =>
    match d.nameModuleMap curr with
    | none => none
    | some m =>
      match m.submodule x with
      | none => some none
      | some e => walkHierarchy e.2.submodName xs (hier ++ [(m, e.2)])

/-- It returns false, or the hierarchy and the module at the lowest level. The last level names a signal and is dropped. -/
def getHierarchyFromFullName (q : Text) : Option (Option (List (Module × Instantiation) × Module)) :=
  match split q '.' with
  | [] => none
  | t :: xs =>
    match (t :: xs).dropLast with
    | [] => some none
    | t :: xs => if t ≠ d.topInstName then some none else d.walkHierarchy d.topModuleName xs []

/-! ### Runs -/

/-- A query to one of the four functions. -/
inductive Query
  | check (q : Text)
  | find (q : Text)
  | instLoc (q : Text)
  | hierarchy (q : Text)

def Query.run : Query → Cache → Option Cache
  | .check q, σ => (d.checkHierarchicalNameType q σ).map Prod.snd
  | .find q, σ => (d.findDeclarationOfName q σ).map Prod.snd
  | .instLoc q, σ => (d.getModuleInstLoc q σ).map Prod.snd
  | .hierarchy q, σ => (d.getHierarchyFromFullName q).map fun _ => σ

/-- The buffers after some queries, none of which failed. -/
def runQueries : List Query → Cache → Option Cache
  | [], σ => some σ
  | r :: rs, σ => (r.run d σ).bind (runQueries rs)

end Design

end VerilogAnalyzer

end Ilang
