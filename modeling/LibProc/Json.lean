import LibProc.Config

/-! The flat objects of json.c. `json_iterate_props` goes over the bytes once, keeps where the key and
the value of a property start and end, and gives each property to a callback in two buffers. A pointer
is an offset into the text. -/
namespace LibProc.Json
open Config (Text nul)

def quote : Char := '\x22'
def openBrace : Char := '\x7b'
def closeBrace : Char := '\x7d'

def isWhitespace (c : Char) : Bool := c ∈ [' ','\x09','\x0a','\x0d']

inductive Mode where
  | startObj
  | endObj
  | startProp
  | endProp
  | endJson
  | keyQuotedAccum
  | valQuotedAccum
  | kvpSep
  | startVal
  | valAccum
  deriving DecidableEq, Repr

inductive ParserResult where
  | good
  | noRootObj
  | strayObj
  | unknownErr
  | strayEndObj
  | strayQuote
  | strayColin
  deriving DecidableEq, Repr

structure Call where
  key : Text
  val : Text
  deriving DecidableEq, Repr

structure Parse where
  mode : Mode
  keyStart : Option Nat
  keyEnd : Option Nat
  valStart : Option Nat
  valEnd : Option Nat
  calls : List Call
  deriving DecidableEq, Repr

def Parse.init : Parse := ⟨.startObj,none,none,none,none,[]⟩

def keySize : Nat := 512
def valSize : Nat := 2048

def clamp (size len : Nat) : Nat := if size ≤ len then size - 1 else len

/- `none` is a NULL pointer that is followed. -/
def jsonSetupCb (json : Text) (keyStart keyEnd valStart valEnd : Option Nat) : Option Call := do
  let keyStart ← keyStart
  let keyEnd ← keyEnd
  let valStart ← valStart
  let valEnd ← valEnd
  let key := (json.drop (keyStart + 1)).take (clamp keySize (keyEnd - keyStart - 1))
  let first ← json[valStart]?
  let val :=
    if first = quote then (json.drop (valStart + 1)).take (clamp valSize (valEnd - valStart - 1))
    else (json.drop valStart).take (clamp valSize (valEnd - valStart + 1))
  some ⟨key ++ [nul],val ++ [nul]⟩

def Parse.value (p : Parse) (json : Text) (valEnd : Nat) : Option Parse := do
  let call ← jsonSetupCb json p.keyStart p.keyEnd p.valStart (some valEnd)
  some { p with valEnd := some valEnd, mode := .endProp, calls := p.calls ++ [call] }

def Parse.bare (p : Parse) (json : Text) (curr : Nat) : Option Parse :=
  if p.mode = .valAccum then p.value json (curr - 1) else some p

def Parse.quoted (p : Parse) : Bool := p.mode = .keyQuotedAccum || p.mode = .valQuotedAccum

def turn (json : Text) (curr : Nat) (c : Char) (p : Parse) : Option (Except ParserResult Parse) :=
  if isWhitespace c = true then do
    let p ← p.bare json curr
    some (.ok p)
  else if c = openBrace then
    if p.mode = .startObj then some (.ok { p with mode := .startProp })
    else if p.quoted = true then some (.ok p)
    else some (.error .strayObj)
  else if c = closeBrace then do
    let p ← p.bare json curr
    if p.mode = .startProp ∨ p.mode = .endProp then some (.ok { p with mode := .endJson })
    else if p.quoted = true then some (.ok p)
    else some (.error .strayEndObj)
  else if c = quote then
    if p.mode = .startProp then
      some (.ok { p with mode := .keyQuotedAccum, keyStart := some curr, keyEnd := none, valStart := none, valEnd := none })
    else if p.mode = .keyQuotedAccum then some (.ok { p with mode := .kvpSep, keyEnd := some curr })
    else if p.mode = .startVal then some (.ok { p with mode := .valQuotedAccum, valStart := some curr })
    else if p.mode = .valQuotedAccum then do
      let p ← p.value json curr
      some (.ok p)
    else some (.error .strayQuote)
  else if c = ',' then do
    let p ← p.bare json curr
    some (.ok (if p.mode = .endProp then { p with mode := .startProp } else p))
  else if c = ':' then
    if p.mode = .kvpSep then some (.ok { p with mode := .startVal })
    else if p.quoted = true then some (.ok p)
    else some (.error .strayColin)
  else if p.mode = .startVal then some (.ok { p with mode := .valAccum, valStart := some curr })
  else some (.ok p)

def Mode.result : Mode → ParserResult
  | .endJson => .good
  | .startObj => .noRootObj
  | _ => .unknownErr

def scan (json : Text) : Nat → Text → Parse → Option (ParserResult × List Call)
  | _,[],p => some (p.mode.result,p.calls)
  | curr,c :: rest,p => do
    match ← turn json curr c p with
    | .error err => some (err,p.calls)
    | .ok p => scan json (curr + 1) rest p

def jsonIterateProps (json : Text) : Option (ParserResult × List Call) := scan json 0 json .init

structure Pointed (json : Text) (p : Parse) : Prop where
  keyStart : p.mode ∈ [.keyQuotedAccum,.kvpSep,.startVal,.valQuotedAccum,.valAccum] → ∃ at_, p.keyStart = some at_
  keyEnd : p.mode ∈ [.kvpSep,.startVal,.valQuotedAccum,.valAccum] → ∃ at_, p.keyEnd = some at_
  valStart : p.mode ∈ [.valQuotedAccum,.valAccum] → ∃ at_, p.valStart = some at_ ∧ at_ < json.length

def Turned (json : Text) (turned : Option (Except ParserResult Parse)) : Prop :=
  (∃ err, turned = some (.error err)) ∨ ∃ p', turned = some (.ok p') ∧ Pointed json p'

section
variable {json : Text} {p : Parse} {curr : Nat} {c : Char}

theorem initPointed (json : Text) : Pointed json .init := ⟨by simp [Parse.init],by simp [Parse.init],by simp [Parse.init]⟩

theorem Pointed.value (pointed : Pointed json p) (mode : p.mode ∈ [.valQuotedAccum,.valAccum]) (valEnd : Nat) :
    ∃ p', p.value json valEnd = some p' ∧ p'.mode = .endProp := by
  have later : p.mode ∈ [.kvpSep,.startVal,.valQuotedAccum,.valAccum] := List.mem_cons_of_mem _ (List.mem_cons_of_mem _ mode)
  obtain ⟨keyStart,start⟩ := pointed.keyStart (List.mem_cons_of_mem _ later)
  obtain ⟨keyEnd,finish⟩ := pointed.keyEnd later
  obtain ⟨valStart,value,inside⟩ := pointed.valStart mode
  rw [Parse.value, jsonSetupCb, start, finish, value]
  simp only [Option.bind_eq_bind,Option.bind_some,List.getElem?_eq_getElem inside]
  exact ⟨_,rfl,rfl⟩

theorem pointedAt (mode : Mode) (at_ : p.mode = mode) (out : mode ∉ [.keyQuotedAccum,.kvpSep,.startVal,.valQuotedAccum,.valAccum]) :
    Pointed json p := by
  subst at_
  exact ⟨fun inside => absurd inside out,fun inside => absurd (List.mem_cons_of_mem _ inside) out,
    fun inside => absurd (List.mem_cons_of_mem _ (List.mem_cons_of_mem _ (List.mem_cons_of_mem _ inside))) out⟩

theorem Pointed.bare (pointed : Pointed json p) (curr : Nat) : ∃ p', p.bare json curr = some p' ∧ Pointed json p' := by
  unfold Parse.bare
  split
  · rename_i mode
    obtain ⟨p',ends,mode'⟩ := pointed.value (by rw [mode]; decide) (curr - 1)
    exact ⟨p',ends,pointedAt .endProp mode' (by decide)⟩
  · exact ⟨p,rfl,pointed⟩

theorem turnKeeps (pointed : Pointed json p) (inside : curr < json.length) (c : Char) : Turned json (turn json curr c p) := by
  obtain ⟨ended,bare,pointed'⟩ := pointed.bare curr
  unfold turn
  split
  · rw [bare]
    exact .inr ⟨ended,rfl,pointed'⟩
  split
  · split
    · exact .inr ⟨_,rfl,pointedAt .startProp rfl (by decide)⟩
    split
    · exact .inr ⟨p,rfl,pointed⟩
    · exact .inl ⟨_,rfl⟩
  split
  · rw [bare]
    simp only [Option.bind_eq_bind,Option.bind_some]
    split
    · exact .inr ⟨_,rfl,pointedAt .endJson rfl (by decide)⟩
    split
    · exact .inr ⟨ended,rfl,pointed'⟩
    · exact .inl ⟨_,rfl⟩
  split
  · split
    · exact .inr ⟨_,rfl,fun _ => ⟨curr,rfl⟩,by simp,by simp⟩
    split
    · rename_i mode
      exact .inr ⟨_,rfl,fun _ => pointed.keyStart (by rw [mode]; decide),fun _ => ⟨curr,rfl⟩,by simp⟩
    split
    · rename_i mode
      exact .inr ⟨_,rfl,fun _ => pointed.keyStart (by rw [mode]; decide),fun _ => pointed.keyEnd (by rw [mode]; decide),fun _ => ⟨curr,rfl,inside⟩⟩
    split
    · rename_i mode
      obtain ⟨p',ends,mode'⟩ := pointed.value (by rw [mode]; decide) curr
      rw [ends]
      exact .inr ⟨p',rfl,pointedAt .endProp mode' (by decide)⟩
    · exact .inl ⟨_,rfl⟩
  split
  · rw [bare]
    simp only [Option.bind_eq_bind,Option.bind_some]
    split
    · exact .inr ⟨_,rfl,pointedAt .startProp rfl (by decide)⟩
    · exact .inr ⟨ended,rfl,pointed'⟩
  split
  · split
    · rename_i mode
      exact .inr ⟨_,rfl,fun _ => pointed.keyStart (by rw [mode]; decide),fun _ => pointed.keyEnd (by rw [mode]; decide),by simp⟩
    split
    · exact .inr ⟨p,rfl,pointed⟩
    · exact .inl ⟨_,rfl⟩
  split
  · rename_i mode
    exact .inr ⟨_,rfl,fun _ => pointed.keyStart (by rw [mode]; decide),fun _ => pointed.keyEnd (by rw [mode]; decide),fun _ => ⟨curr,rfl,inside⟩⟩
  · exact .inr ⟨p,rfl,pointed⟩

theorem scanReturns (pointed : Pointed json p) (rest : Text) (inside : curr + rest.length ≤ json.length) :
    ∃ result calls, scan json curr rest p = some (result,calls) := by
  induction rest generalizing curr p with
  | nil => exact ⟨_,_,rfl⟩
  | cons c rest ih =>
    rw [List.length_cons] at inside
    rcases turnKeeps pointed (by omega : curr < json.length) c with ⟨err,stops⟩ | ⟨p',goes,pointed'⟩
    · rw [scan, stops]
      exact ⟨err,p.calls,rfl⟩
    · obtain ⟨result,calls,returns⟩ := ih pointed' (by omega : curr + 1 + rest.length ≤ json.length)
      exact ⟨result,calls,by rw [scan, goes]; exact returns⟩

theorem iterateReturns (json : Text) : ∃ result calls, jsonIterateProps json = some (result,calls) :=
  scanReturns (initPointed json) json (by rw [Nat.zero_add])

end
end LibProc.Json
