import LibProc.XdrBytes

/-! struct XDR_Dictionary: a hash table of 29 buckets, each a list kept in strcmp order.
Keys are the bytes before the terminating NUL. -/
namespace LibProc.XdrDict
open XdrBytes

abbrev Key := List Byte

def hashLen : Nat := 29

structure Dictionary (V : Type) where
  length : BitVec 32
  node : List (List (Key × V))

section
variable {V : Type}

def zeroed : Dictionary V := ⟨0,List.replicate hashLen []⟩

/- MurmurOAAT32; a char is signed. -/
def bucketHash : BitVec 32 → Key → BitVec 32
  | h,[] => h
  | h,c :: rest =>
    let h := (h ^^^ c.signExtend 32) * 0x5bd1e995
    bucketHash (h ^^^ (h >>> 15)) rest

def dictBucket (key : Key) : Nat := (bucketHash 3323198485 key).toNat % hashLen

def strLess : Key → Key → Bool
  | [],[] => false
  | [],_ :: _ => true
  | _ :: _,[] => false
  | a :: as,b :: bs => if a = b then strLess as bs else decide (a.toNat < b.toNat)

def bucketOf (table : Dictionary V) (b : Nat) : List (Key × V) := table.node.getD b []

def dictLookup (table : Dictionary V) (key : Key) : Option V :=
  (bucketOf table (dictBucket key)).lookup key

def insertNode (key : Key) (value : V) : List (Key × V) → List (Key × V)
  | [] => [(key,value)]
  | (k,v) :: rest => if strLess key k then (key,value) :: (k,v) :: rest else (k,v) :: insertNode key value rest

def dictAdd (malloc : Bool) (table : Dictionary V) (key : Key) (value : V) : Int × Dictionary V :=
  if (dictLookup table key).isSome then (-1,table)
  else if malloc then
    (0,{table with
      length := table.length + 1
      node := table.node.set (dictBucket key) (insertNode key value (bucketOf table (dictBucket key)))})
  else (-2,table)

def entries (table : Dictionary V) : List (Key × V) := table.node.flatten

def removeNode (key : Key) : List (Key × V) → List (Key × V)
  | [] => []
  | (k,v) :: rest => if k = key then rest else (k,v) :: removeNode key rest

def dictRemove (table : Dictionary V) (key : Key) : Option V × Dictionary V :=
  match dictLookup table key with
  | none => (none,table)
  | some result =>
    (some result,{table with
      length := table.length - 1
      node := table.node.set (dictBucket key) (removeNode key (bucketOf table (dictBucket key)))})

def dictRemoveAll (table : Dictionary V) : Int × List (Key × V) × Dictionary V :=
  (0,entries table,⟨0,table.node.map fun _ => []⟩)

end

end LibProc.XdrDict
