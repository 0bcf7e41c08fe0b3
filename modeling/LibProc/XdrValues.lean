import LibProc.Xdr
import Mathlib.Data.List.Forall2

/-! The values of a field list and the bytes that stand for them. This is what the codec
is for, said without it: `wireOf` relates a cell to its encoding, `enter` relates the
object behind a union to its own. Which values a statement is about is left to `Rules`. -/
namespace LibProc.Xdr
open XdrBytes XdrDict

/- What is asked of a field at an index of its object, of a string's length, of a
registered type, and whether an empty object or opaque array may be a NULL pointer. -/
structure Rules where
  field : TypeFunctions → Nat → Nat → List Val → Prop
  string : Nat → Prop
  definition : StructDefinition → Prop
  nullObject : Prop
  nullBytes : Prop

inductive ScalarWire : Scalar → Val → List Byte → Prop where
  | int32 (w : BitVec 32) : ScalarWire .int32 (.word w) (beBytes w)
  | uint32 (w : BitVec 32) : ScalarWire .uint32 (.word w) (beBytes w)
  | int64 (d : BitVec 64) : ScalarWire .int64 (.dword d) (beBytes64 d)
  | uint64 (d : BitVec 64) : ScalarWire .uint64 (.dword d) (beBytes64 d)
  | float (w : BitVec 32) : ScalarWire .float (.word w) (hostBytes w)
  | double (d : BitVec 64) : ScalarWire .double (.dword d) (hostBytes64 d)

def zeros (n : Nat) : List Byte := List.replicate n 0

def stringWire (s : List Byte) : List Byte := beBytes (BitVec.ofNat 32 s.length) ++ s ++ zeros (pad s.length)

inductive StringWire (rules : Rules) : Val → List Byte → Prop where
  | null : StringWire rules .null (stringWire [])
  | chars (s : List Byte) (clean : 0 ∉ s) (short : rules.string s.length) : StringWire rules (.chars s) (stringWire s)

inductive BytesWire (rules : Rules) (len : Int) : Val → List Byte → Prop where
  | chars (s : List Byte) (counted : len = s.length) (fits : s.length + pad s.length < 2 ^ 31) :
      BytesWire rules len (.chars s) (s ++ zeros (pad s.length))
  | null (allowed : rules.nullBytes) (none : len = 0) : BytesWire rules len .null []

inductive ArrayWire (wire : Val → List Byte → Prop) (len : Int) : Val → List Byte → Prop where
  | array (vs : List Val) (es : List (List Byte)) (counted : len.toNat = vs.length) (each : List.Forall₂ wire vs es) :
      ArrayWire wire len (.array vs) es.flatten
  | null (none : len.toNat = 0) : ArrayWire wire len .null []

inductive UnionWire (env : Env) (rules : Rules) (enter : StructDefinition → Val → List Byte → Prop) :
    Val → List Byte → Prop where
  | union (type : BitVec 32) (data : Val) (definition : StructDefinition) (body : List Byte)
      (registered : env.definitionForType type = some definition) (admitted : rules.definition definition)
      (inner : enter definition data body) : UnionWire env rules enter (.union type data) (beBytes type ++ body)

def entryWire (env : Env) (rules : Rules) (enter : StructDefinition → Val → List Byte → Prop) :
    Entry → Val → List Byte → Prop
  | .scalar s => ScalarWire s
  | .stringArr => StringWire rules
  | .byteArr => fun v e => ∃ len, BytesWire rules len v e
  | .union => UnionWire env rules enter

def NodeWire (rules : Rules) (wire : Val → List Byte → Prop) (node : Key × Val) (e : List Byte) : Prop :=
  ∃ key value, StringWire rules (.chars node.1) key ∧ wire node.2 value ∧ e = key ++ value

inductive DictWire (rules : Rules) (wire : Val → List Byte → Prop) : Val → List Byte → Prop where
  | dict (table : Dictionary Val) (es : List (List Byte)) (counted : table.length = BitVec.ofNat 32 (entries table).length)
      (each : List.Forall₂ (NodeWire rules wire) (entries table) es) :
      DictWire rules wire (.dict table) (beBytes table.length ++ es.flatten)

mutual
def wireOf (env : Env) (rules : Rules) (enter : StructDefinition → Val → List Byte → Prop) :
    TypeFunctions → BitVec 32 → Val → List Byte → Prop
  | .scalar s,_ => ScalarWire s
  | .array s,len => ArrayWire (ScalarWire s) len.toInt
  | .dict e,_ => DictWire rules (entryWire env rules enter e)
  | .string,_ => StringWire rules
  | .stringArr,_ => StringWire rules
  | .byteArr,len => BytesWire rules len.toInt
  | .union,_ => UnionWire env rules enter
  | .unionArr,_ => UnionWire env rules enter
  | .uint32Bitfield,_ => ScalarWire .uint32
  | .int32Bitfield,_ => ScalarWire .int32
  | .struct fields,_ => fun v e => ∃ cells, v = .struct cells ∧ wiresOf env rules enter cells fields 0 cells e
  | .structArr fields,len =>
      ArrayWire (fun v e => ∃ cells, v = .struct cells ∧ wiresOf env rules enter cells fields 0 cells e) len.toInt
def wiresOf (env : Env) (rules : Rules) (enter : StructDefinition → Val → List Byte → Prop) (cells : List Val) :
    FieldList → Nat → List Val → List Byte → Prop
  | .nil,_,vs,e => vs = [] ∧ e = []
  | .cons funcs lenOffset _ rest,i,vs,e => ∃ v vs' a b, vs = v :: vs' ∧ e = a ++ b ∧
      rules.field funcs i lenOffset cells ∧ wireOf env rules enter funcs (wordAt env cells[lenOffset]?) v a ∧
      wiresOf env rules enter cells rest (i + 1) vs' b
end

/- Objects of a registered type with unions nested less than `depth` deep. -/
def objectWire (env : Env) (rules : Rules) : Nat → StructDefinition → Val → List Byte → Prop
  | 0,_,_,_ => False
  | depth + 1,definition,v,e => match definition.coder with
    | .struct => (∃ cells, v = .struct cells ∧
        wiresOf env rules (objectWire env rules depth) cells definition.fields 0 cells e) ∨
        (rules.nullObject ∧ v = .null ∧ definition.fields = .nil ∧ e = [])
    | .bitfieldStruct => ∃ cells val, v = .struct cells ∧
        bitfieldWord definition.fields cells 0 = .ok val ∧ e = beBytes val

def Value (env : Env) (rules : Rules) (depth : Nat) (fields : FieldList) (cells : List Val) (e : List Byte) : Prop :=
  wiresOf env rules (objectWire env rules depth) cells fields 0 cells e

mutual
def Fits : TypeFunctions → Val → Prop
  | .union,v => ∃ type data, v = .union type data
  | .unionArr,v => ∃ type data, v = .union type data
  | .dict _,v => ∃ table, v = .dict table
  | .struct fields,v => ∃ cells, v = .struct cells ∧ FitsAll fields cells
  | _,_ => True
def FitsAll : FieldList → List Val → Prop
  | .nil,vs => vs = []
  | .cons funcs _ _ rest,vs => ∃ v vs', vs = v :: vs' ∧ Fits funcs v ∧ FitsAll rest vs'
end

mutual
theorem zeroFits : ∀ funcs, Fits funcs (zeroOf funcs)
  | .scalar _ => trivial
  | .array _ => trivial
  | .dict _ => ⟨zeroed,rfl⟩
  | .string => trivial
  | .stringArr => trivial
  | .byteArr => trivial
  | .union => ⟨0,.null,rfl⟩
  | .unionArr => ⟨0,.null,rfl⟩
  | .uint32Bitfield => trivial
  | .int32Bitfield => trivial
  | .struct fields => ⟨zerosOf fields,rfl,zerosFit fields⟩
  | .structArr _ => trivial
theorem zerosFit : ∀ fields, FitsAll fields (zerosOf fields)
  | .nil => rfl
  | .cons funcs _ _ rest => ⟨zeroOf funcs,zerosOf rest,rfl,zeroFits funcs,zerosFit rest⟩
end

def sampleEnv : Env where
  definitionForType type := if type = 7 then some ⟨4,.struct,.cons (.scalar .uint32) 0 0 .nil⟩ else none
  alloc _ := true
  address _ := 0
  firstPointerNull _ := true

end LibProc.Xdr
