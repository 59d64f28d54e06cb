import Mathlib.Data.Nat.Notation

/-!
# What the analysis reads of a GCC node (`include/si_gcc.h`)

The parts of types, functions and variables that decide which symbol an object stands for:
whether it is defined here, its name and its place in the source.  Names are C strings without
the final zero.

A failed `BUG_ON` is `none`.
-/

namespace Srcinv.Analysis

abbrev Name := List UInt8

def NAME_MAX : Nat := 255

def FIELD_NAME_MAX : Nat := 8

/-- `expanded_location`. -/
structure XLoc where
  file : Option Name
  line : Int
  column : Int
  deriving DecidableEq, Repr

/-- `TYPE_NAME` of a type: an `IDENTIFIER_NODE` or a declaration. -/
inductive TypeName where
  | null
  | identifier (id : Name)
  | decl (name : Option Name) (loc : XLoc)
  deriving DecidableEq, Repr

/-- The type codes that are told apart. -/
inductive TypeKind where
  | record
  | union
  | other
  deriving DecidableEq, Repr

/-- A field, with its `DECL_NAME`. -/
structure FieldTree where
  name : Option Name
  loc : XLoc
  deriving DecidableEq, Repr

/-- A type node; `canonical` is the address in `TYPE_CANONICAL`, 0 for `NULL`. -/
structure TypeTree where
  code : Nat
  kind : TypeKind
  canonical : Nat
  hasValues : Bool
  name : TypeName
  fields : List FieldTree
  deriving DecidableEq, Repr

/-- A `FUNCTION_DECL`; `structFunction` is `DECL_STRUCT_FUNCTION` with whether it has a `cfg`. -/
structure FuncTree where
  name : Option Name
  external : Bool
  isPublic : Bool
  static : Bool
  weak : Bool
  structFunction : Option Bool
  loc : XLoc
  deriving DecidableEq, Repr

/-- A `VAR_DECL`. -/
structure VarTree where
  name : Option Name
  external : Bool
  isPublic : Bool
  static : Bool
  weak : Bool
  loc : XLoc
  deriving DecidableEq, Repr

/-- A node by the `is_type`, `is_function` and `is_global_var` of its object. -/
inductive TreeNode where
  | type (t : TypeTree)
  | function (f : FuncTree)
  | globalVar (v : VarTree)
  | other
  deriving DecidableEq, Repr

/-- An entry of the object table with the node it stands for. -/
structure TreeObj where
  realAddr : Nat
  gccGlobalVaridx : Nat
  node : TreeNode
  deriving DecidableEq, Repr

/-! ## Is it defined here -/

inductive FileType where
  | undefined
  | defined
  | canonicaled
  deriving DecidableEq, Repr

inductive FileFunc where
  | external
  | global
  | static
  deriving DecidableEq, Repr

inductive FileVar where
  | external
  | global
  | static
  | local
  deriving DecidableEq, Repr

/-- `check_file_type` of the type at `node`. -/
def checkFileType (node : Nat) (t : TypeTree) : FileType :=
  if t.canonical = 0 then .defined
  else if t.canonical ≠ node then .canonicaled
  else if (t.kind = .record ∨ t.kind = .union) ∧ !t.hasValues then .undefined
  else .defined

/-- `check_file_func`. -/
def checkFileFunc (f : FuncTree) : Option FileFunc :=
  if f.name.isNone then none
  else if !f.external || f.structFunction = some true then
    if f.isPublic then some .global
    else if f.static then some .static
    else none
  else some .external

/-- `check_file_var`. -/
def checkFileVar (v : VarTree) : Option FileVar :=
  if !v.external then
    if v.isPublic then
      if v.name.isNone then none else some .global
    else if v.static then some .static
    else some .local
  else if v.name.isNone then none
  else some .external

/-! ## Names -/

/-- The characters of a string. -/
def bytesOf (s : String) : Name := s.toList.map fun c => c.toNat.toUInt8

/-- `get_node_name` of an identifier. -/
def getNodeName (id : Name) : Option Name :=
  if id.length = 0 ∨ NAME_MAX ≤ id.length then none else some id

/-- `get_function_name`. -/
def getFunctionName (f : FuncTree) : Option Name := f.name.bind getNodeName

/-- `get_var_name`: a variable without a name is called after its address, `"_%08lx"`. -/
def getVarName (addr : Nat) (v : VarTree) : Option Name :=
  match v.name with
  | some id => getNodeName id
  | none =>
    let digits := Nat.toDigits 16 addr
    some (bytesOf ("_" ++ String.ofList (List.replicate (8 - digits.length) '0' ++ digits)))

/-- `get_type_name`: empty for a type without a name. -/
def getTypeName (t : TypeTree) : Option Name :=
  match t.name with
  | .null => some []
  | .identifier id => getNodeName id
  | .decl none _ => some []
  | .decl (some id) _ => getNodeName id

/-- `get_location` of a type. -/
def getLocation (t : TypeTree) : Option XLoc :=
  match t.name with
  | .decl _ loc => some loc
  | _ =>
    if t.kind = .record ∨ t.kind = .union then t.fields.head?.map FieldTree.loc
    else none

/-- The loop of `gen_type_name` over the fields: `copied` names are in the name already. -/
def genFieldNames : Nat → List FieldTree → Option Name
  | _, [] => some []
  | copied, f :: fs =>
    match f.name with
    | none => genFieldNames copied fs
    | some id =>
      if copied < FIELD_NAME_MAX then
        (getNodeName id).bind fun id =>
          (genFieldNames (copied + 1) fs).map fun rest => bytesOf "_" ++ id ++ rest
      else genFieldNames copied fs

/-- `gen_type_name`; `locFile` is the address of the file's sinode. -/
def genTypeName (t : TypeTree) (locFile : Nat) (xloc : XLoc) : Option Name :=
  if t.kind = .other then some []
  else
    (genFieldNames 0 t.fields).map fun p =>
      p ++ bytesOf ("_" ++ toString t.code ++ "_" ++ toString t.fields.length ++ "_" ++
        toString locFile ++ "_" ++ toString xloc.line ++ "_" ++ toString xloc.column)

end Srcinv.Analysis
