import LibProc.XdrBytes

/-! The walk over a multi-struct response. An array announces each element's length in
the packet; the walk takes it as the element's range and as its own advance and compares
it with nothing. Addresses count from the packet's first byte, `mem` is what stands there
and behind the packet, and a length is a `size_t`. -/
namespace LibProc.IterateStructs
open XdrBytes

def opaqueStructArr : BitVec 32 := 0x01000102

inductive IterEvent where
  | read (src : Nat)
  | callback (type : BitVec 32) (src len : Nat)
  deriving DecidableEq, Repr

structure Iter where
  events : List IterEvent
  result : Option Int
  deriving DecidableEq, Repr

def word (mem : Nat → Byte) (src : Nat) : BitVec 32 :=
  beWord [mem src,mem (src + 1),mem (src + 2),mem (src + 3)]

def decodeUint32 (mem : Nat → Byte) (src max : Nat) : Option (BitVec 32) :=
  if max < 4 then none else some (word mem src)

def iterateElements (mem : Nat → Byte) (iter : Nat → Nat → Iter) : Nat → Nat → Nat → Iter
  | 0,_,_ => ⟨[],some 0⟩
  | left + 1,src,len =>
    match decodeUint32 mem src len with
    | none => ⟨[],some (-2)⟩
    | some byteLen =>
      let inner := iter (src + 4) byteLen.toNat
      match inner.result with
      | none => ⟨.read src :: inner.events,none⟩
      | some res =>
        if res < 0 then ⟨.read src :: inner.events,some (-3)⟩
        else
          -- the subtraction is unsigned and may wrap
          let rest := iterateElements mem iter left (src + 4 + byteLen.toNat)
            ((len - 4 + 2 ^ 64 - byteLen.toNat) % 2 ^ 64)
          ⟨.read src :: inner.events ++ rest.events,rest.result⟩

/- `fuel` bounds the depth: nothing in the code does, since a length may exceed the range
it is read in. -/
def cmdIterateStructs (mem : Nat → Byte) : Nat → Nat → Nat → Iter
  | 0,_,_ => ⟨[],none⟩
  | fuel + 1,src,len =>
    match decodeUint32 mem src len with
    | none => ⟨[],some (-1)⟩
    | some type =>
      if type ≠ opaqueStructArr then ⟨[.read src,.callback type (src + 4) (len - 4)],some 0⟩
      else
        match decodeUint32 mem (src + 4) (len - 4) with
        | none => ⟨[.read src],some (-1)⟩
        | some arrEnts =>
          let rest := iterateElements mem (cmdIterateStructs mem fuel) arrEnts.toNat (src + 8)
            (len - 8)
          ⟨.read src :: .read (src + 4) :: rest.events,rest.result⟩

def IterEvent.Inside (stop : Nat) : IterEvent → Prop
  | .read src => src + 4 ≤ stop
  | .callback _ src len => src + len ≤ stop

instance decideInside (stop : Nat) : ∀ event : IterEvent, Decidable (event.Inside stop)
  | .read _ => inferInstanceAs (Decidable (_ ≤ _))
  | .callback _ _ _ => inferInstanceAs (Decidable (_ ≤ _))

def Inside (stop : Nat) (iter : Iter) : Prop := ∀ event ∈ iter.events, event.Inside stop

/- What the announced lengths delimit: one structure or array, or the elements left of an array. -/
inductive Span where
  | range
  | elements (left : Nat)

/- The lengths of a packet nest. An element with a type announces at most what is left of its array behind the length;
`whole` is whether the span has all that is announced, and where it has not, nothing is looked for behind it. -/
inductive Delimited (mem : Nat → Byte) : Span → Nat → Nat → Bool → Prop where
  | short {src len : Nat} (few : len < 4) : Delimited mem .range src len false
  | single {src len : Nat} (room : 4 ≤ len) (type : word mem src ≠ opaqueStructArr) : Delimited mem .range src len true
  | bare {src len : Nat} (room : 4 ≤ len) (few : len < 8) (type : word mem src = opaqueStructArr) : Delimited mem .range src len false
  | array {src len : Nat} {whole : Bool} (room : 8 ≤ len) (type : word mem src = opaqueStructArr)
      (inner : Delimited mem (.elements (word mem (src + 4)).toNat) (src + 8) (len - 8) whole) : Delimited mem .range src len whole
  | done {src len : Nat} : Delimited mem (.elements 0) src len true
  | cut {left src len : Nat} (few : len < 4) : Delimited mem (.elements (left + 1)) src len false
  | typeless {left src len : Nat} (room : 4 ≤ len) (few : (word mem src).toNat < 4) : Delimited mem (.elements (left + 1)) src len false
  | partial_ {left src len : Nat} (room : 4 ≤ len) (fits : (word mem src).toNat ≤ len - 4)
      (inner : Delimited mem .range (src + 4) (word mem src).toNat false) : Delimited mem (.elements (left + 1)) src len false
  | next {left src len : Nat} {whole : Bool} (room : 4 ≤ len) (fits : (word mem src).toNat ≤ len - 4)
      (inner : Delimited mem .range (src + 4) (word mem src).toNat true)
      (rest : Delimited mem (.elements left) (src + 4 + (word mem src).toNat) (len - 4 - (word mem src).toNat) whole) :
      Delimited mem (.elements (left + 1)) src len whole

def place (mem : Nat → Byte) : Nat → Nat
  | 0 => 8
  | k + 1 => place mem k + 4 + (word mem (place mem k)).toNat

def Flat (mem : Nat → Byte) (len : Nat) : Prop := ∀ k, place mem k + 8 ≤ len → word mem (place mem k + 4) ≠ opaqueStructArr

theorem insideCons {stop : Nat} {event : IterEvent} {events : List IterEvent} {result : Option Int} :
    Inside stop ⟨event :: events,result⟩ ↔ event.Inside stop ∧ Inside stop ⟨events,result⟩ :=
  List.forall_mem_cons

theorem insideAppend {stop : Nat} {a b : List IterEvent} {result : Option Int} :
    Inside stop ⟨a ++ b,result⟩ ↔ Inside stop ⟨a,result⟩ ∧ Inside stop ⟨b,result⟩ :=
  List.forall_mem_append

theorem insideNil {stop : Nat} {result : Option Int} : Inside stop ⟨[],result⟩ := by
  intro event member
  cases member

def Succeeds (iter : Iter) : Prop := ∃ res, iter.result = some res ∧ 0 ≤ res

section
variable {mem : Nat → Byte} {stop : Nat} {iter : Nat → Nat → Iter} {whole : Nat → Nat → Bool}

theorem iterateElementsShort (left src : Nat) {len : Nat} (short : len < 4) :
    iterateElements mem iter (left + 1) src len = ⟨[],some (-2)⟩ := by
  simp only [iterateElements,decodeUint32,if_pos short]

theorem iterateElementsFailed (left : Nat) {src len : Nat} (room : ¬len < 4)
    (failed : ¬Succeeds (iter (src + 4) (word mem src).toNat)) :
    ∃ result, iterateElements mem iter (left + 1) src len =
        ⟨.read src :: (iter (src + 4) (word mem src).toNat).events,result⟩ ∧
      ¬Succeeds ⟨[],result⟩ := by
  simp only [iterateElements,decodeUint32,if_neg room]
  cases inner : (iter (src + 4) (word mem src).toNat).result with
  | none => exact ⟨none,rfl,by simp [Succeeds]⟩
  | some res =>
    have negative : res < 0 := by
      by_contra fine
      exact failed ⟨res,inner,by omega⟩
    exact ⟨some (-3),if_pos negative,by simp [Succeeds]⟩

theorem iterateElementsNext (left : Nat) {src len : Nat} (room : ¬len < 4)
    (fine : Succeeds (iter (src + 4) (word mem src).toNat)) :
    iterateElements mem iter (left + 1) src len =
      ⟨.read src :: (iter (src + 4) (word mem src).toNat).events ++
          (iterateElements mem iter left (src + 4 + (word mem src).toNat)
            ((len - 4 + 2 ^ 64 - (word mem src).toNat) % 2 ^ 64)).events,
        (iterateElements mem iter left (src + 4 + (word mem src).toNat)
          ((len - 4 + 2 ^ 64 - (word mem src).toNat) % 2 ^ 64)).result⟩ := by
  obtain ⟨res,inner,positive⟩ := fine
  simp only [iterateElements,decodeUint32,if_neg room,inner,if_neg (not_lt.mpr positive)]

end

def Span.Walked (mem : Nat → Byte) (src len : Nat) (whole : Bool) : Span → Prop
  | .range => ∀ fuel stop, src + len ≤ stop →
    Inside stop (cmdIterateStructs mem fuel src len) ∧ (Succeeds (cmdIterateStructs mem fuel src len) → whole = true)
  | .elements left => ∀ fuel stop, src + len ≤ stop →
    Inside stop (iterateElements mem (cmdIterateStructs mem fuel) left src len) ∧
      (Succeeds (iterateElements mem (cmdIterateStructs mem fuel) left src len) → whole = true)

theorem failedNot (result : Int) (negative : result < 0) : ¬Succeeds ⟨[],some result⟩ := by
  rintro ⟨res,is,positive⟩
  cases Option.some.inj is
  omega

theorem delimitedWalked {mem : Nat → Byte} {span : Span} {src len : Nat} {whole : Bool}
    (delimited : Delimited mem span src len whole) (size : len < 2 ^ 64) : span.Walked mem src len whole := by
  induction delimited with
  | short few =>
    intro fuel stop ends
    cases fuel with
    | zero => exact ⟨insideNil,fun ⟨_,is,_⟩ => nomatch is⟩
    | succ fuel =>
      rw [cmdIterateStructs, decodeUint32, if_pos few]
      exact ⟨insideNil,fun fine => absurd fine (failedNot _ (by decide))⟩
  | @single src len room type =>
    intro fuel stop ends
    refine ⟨?_,fun _ => rfl⟩
    cases fuel with
    | zero => exact insideNil
    | succ fuel =>
      have few : ¬len < 4 := by omega
      simp only [cmdIterateStructs,decodeUint32,if_neg few,if_pos type]
      refine insideCons.mpr ⟨?_,insideCons.mpr ⟨?_,insideNil⟩⟩
      · exact (by omega : src + 4 ≤ stop)
      · exact (by omega : src + 4 + (len - 4) ≤ stop)
  | @bare src len room few type =>
    intro fuel stop ends
    cases fuel with
    | zero => exact ⟨insideNil,fun ⟨_,is,_⟩ => nomatch is⟩
    | succ fuel =>
      have some_ : ¬len < 4 := by omega
      have none_ : len - 4 < 4 := by omega
      simp only [cmdIterateStructs,decodeUint32,if_neg some_,type,ne_eq,not_true,if_false,if_pos none_]
      refine ⟨insideCons.mpr ⟨?_,insideNil⟩,fun fine => absurd fine (failedNot _ (by decide))⟩
      exact (by omega : src + 4 ≤ stop)
  | @array src len whole room type inner ih =>
    intro fuel stop ends
    cases fuel with
    | zero => exact ⟨insideNil,fun ⟨_,is,_⟩ => nomatch is⟩
    | succ fuel =>
      obtain ⟨inside,fine⟩ := ih (by omega) fuel stop (by omega)
      have first : ¬len < 4 := by omega
      have second : ¬len - 4 < 4 := by omega
      simp only [cmdIterateStructs,decodeUint32,if_neg first,type,ne_eq,not_true,if_false,if_neg second]
      refine ⟨insideCons.mpr ⟨?_,insideCons.mpr ⟨?_,inside⟩⟩,fine⟩
      · exact (by omega : src + 4 ≤ stop)
      · exact (by omega : src + 4 + 4 ≤ stop)
  | done =>
    intro fuel stop ends
    exact ⟨insideNil,fun _ => rfl⟩
  | @cut left src len few =>
    intro fuel stop ends
    rw [iterateElementsShort left src few]
    exact ⟨insideNil,fun fine => absurd fine (failedNot _ (by decide))⟩
  | @typeless left src len room few =>
    intro fuel stop ends
    have some_ : ¬len < 4 := by omega
    have short : (cmdIterateStructs mem fuel (src + 4) (word mem src).toNat).events = [] ∧
        ¬Succeeds (cmdIterateStructs mem fuel (src + 4) (word mem src).toNat) := by
      cases fuel with
      | zero => exact ⟨rfl,fun ⟨_,is,_⟩ => nomatch is⟩
      | succ fuel =>
        rw [cmdIterateStructs, decodeUint32, if_pos few]
        exact ⟨rfl,failedNot _ (by decide)⟩
    obtain ⟨result,is,failed⟩ := iterateElementsFailed left some_ short.2
    rw [is, short.1]
    refine ⟨insideCons.mpr ⟨?_,insideNil⟩,fun fine => absurd fine failed⟩
    exact (by omega : src + 4 ≤ stop)
  | @partial_ left src len room fits inner ih =>
    intro fuel stop ends
    have some_ : ¬len < 4 := by omega
    obtain ⟨inside,fine⟩ := ih (by omega) fuel stop (by omega)
    obtain ⟨result,is,failed⟩ := iterateElementsFailed left some_ fun good => Bool.noConfusion (fine good)
    rw [is]
    refine ⟨insideCons.mpr ⟨?_,inside⟩,fun good => absurd good failed⟩
    exact (by omega : src + 4 ≤ stop)
  | @next left src len whole room fits inner rest ih ihRest =>
    intro fuel stop ends
    have some_ : ¬len < 4 := by omega
    obtain ⟨inside,-⟩ := ih (by omega) fuel stop (by omega)
    by_cases good : Succeeds (cmdIterateStructs mem fuel (src + 4) (word mem src).toNat)
    · have wrap : (len - 4 + 2 ^ 64 - (word mem src).toNat) % 2 ^ 64 = len - 4 - (word mem src).toNat := by omega
      obtain ⟨behind,fine⟩ := ihRest (by omega) fuel stop (by omega)
      rw [iterateElementsNext left some_ good, wrap]
      refine ⟨?_,fine⟩
      rw [List.cons_append, insideCons, insideAppend]
      exact ⟨(by omega : src + 4 ≤ stop),inside,behind⟩
    · obtain ⟨result,is,failed⟩ := iterateElementsFailed left some_ good
      rw [is]
      refine ⟨insideCons.mpr ⟨?_,inside⟩,fun good => absurd good failed⟩
      exact (by omega : src + 4 ≤ stop)

theorem flatDelimited {mem : Nat → Byte} {stop : Nat} (flat : Flat mem stop) (left k : Nat) {len : Nat}
    (ends : place mem k + len = stop) (size : stop < 2 ^ 64)
    (inside : Inside stop (iterateElements mem (cmdIterateStructs mem 1) left (place mem k) len)) :
    ∃ whole, Delimited mem (.elements left) (place mem k) len whole := by
  induction left generalizing k len with
  | zero => exact ⟨_,.done⟩
  | succ left ih =>
    by_cases few : len < 4
    · exact ⟨_,.cut few⟩
    by_cases typeless : (word mem (place mem k)).toNat < 4
    · exact ⟨_,.typeless (by omega) typeless⟩
    have some_ : ¬len < 4 := by omega
    by_cases array : word mem (place mem k + 4) = opaqueStructArr
    · have read : .read (place mem k + 4) ∈ (cmdIterateStructs mem 1 (place mem k + 4) (word mem (place mem k)).toNat).events := by
        simp only [cmdIterateStructs,decodeUint32,if_neg typeless,array,ne_eq,not_true,if_false]
        split <;> exact List.mem_cons_self
      have there : .read (place mem k + 4) ∈ (iterateElements mem (cmdIterateStructs mem 1) (left + 1) (place mem k) len).events := by
        by_cases fine : Succeeds (cmdIterateStructs mem 1 (place mem k + 4) (word mem (place mem k)).toNat)
        · rw [iterateElementsNext left some_ fine]
          exact List.mem_append_left _ (List.mem_cons_of_mem _ read)
        · obtain ⟨result,is,-⟩ := iterateElementsFailed left some_ fine
          rw [is]
          exact List.mem_cons_of_mem _ read
      have close : place mem k + 4 + 4 ≤ stop := inside _ there
      exact absurd array (flat k close)
    · have single : cmdIterateStructs mem 1 (place mem k + 4) (word mem (place mem k)).toNat =
          ⟨[.read (place mem k + 4),.callback (word mem (place mem k + 4)) (place mem k + 4 + 4) ((word mem (place mem k)).toNat - 4)],
            some 0⟩ := by
        simp only [cmdIterateStructs,decodeUint32,if_neg typeless,if_pos (show _ ≠ _ from array)]
      have fine : Succeeds (cmdIterateStructs mem 1 (place mem k + 4) (word mem (place mem k)).toNat) := by
        rw [single]
        exact ⟨0,rfl,le_rfl⟩
      rw [iterateElementsNext left some_ fine, single, List.cons_append, insideCons, insideAppend, insideCons, insideCons] at inside
      obtain ⟨-,⟨-,given,-⟩,rest⟩ := inside
      have close : place mem k + 4 + 4 + ((word mem (place mem k)).toNat - 4) ≤ stop := given
      have fits : (word mem (place mem k)).toNat ≤ len - 4 := by omega
      have wrap : (len - 4 + 2 ^ 64 - (word mem (place mem k)).toNat) % 2 ^ 64 = len - 4 - (word mem (place mem k)).toNat := by omega
      rw [wrap] at rest
      have next : place mem k + 4 + (word mem (place mem k)).toNat = place mem (k + 1) := by
        rw [place]
      rw [next] at rest
      obtain ⟨whole,behind⟩ := ih (k + 1) (by omega) rest
      exact ⟨whole,.next (by omega) fits (.single (by omega) array) (next ▸ behind)⟩

/- A packet whose lengths nest is walked inside, whatever stands behind it and however deep its arrays are; where no
element is an array itself, only such a packet is. -/
theorem nestedInside (mem : Nat → Byte) {len : Nat} (size : len < 2 ^ 64) :
    ((∃ whole, Delimited mem .range 0 len whole) → ∀ fuel, Inside len (cmdIterateStructs mem fuel 0 len)) ∧
    (Flat mem len → (∀ fuel, Inside len (cmdIterateStructs mem fuel 0 len)) → ∃ whole, Delimited mem .range 0 len whole) := by
  refine ⟨?_,fun flat inside => ?_⟩
  · rintro ⟨whole,delimited⟩ fuel
    have walked : Span.Walked mem 0 len whole .range := delimitedWalked delimited size
    exact (walked fuel len (by omega)).1
  · by_cases few : len < 4
    · exact ⟨_,.short few⟩
    by_cases single : word mem 0 ≠ opaqueStructArr
    · exact ⟨_,.single (by omega) single⟩
    have array := not_not.mp single
    by_cases bare : len < 8
    · exact ⟨_,.bare (by omega) bare array⟩
    have there := inside 2
    have second : ¬len - 4 < 4 := by omega
    simp only [cmdIterateStructs,decodeUint32,if_neg few,array,ne_eq,not_true,if_false,if_neg second] at there
    obtain ⟨-,-,elements⟩ := (insideCons.trans (and_congr_right fun _ => insideCons)).mp there
    have ends : place mem 0 + (len - 8) = len := by
      rw [place]
      omega
    obtain ⟨whole,inner⟩ := flatDelimited flat (word mem (0 + 4)).toNat 0 ends size elements
    exact ⟨whole,.array (by omega) array inner⟩

def nested : Nat → Byte := fun i =>
  ([1,0,1,2, 0,0,0,1, 0,0,0,16, 1,0,1,2, 0,0,0,1, 0,0,0,4, 0,0,0,7] : List Byte).getD i 0

theorem nestedArrayInside : Inside 28 (cmdIterateStructs nested 3 0 28) := by
  have type : Delimited nested .range 24 4 true := .single (by decide) (by decide)
  have inner : Delimited nested .range 12 16 true := .array (by decide) (by decide) (.next (by decide) (by decide) type .done)
  exact (nestedInside nested (by decide)).1 ⟨true,.array (by decide) (by decide) (.next (by decide) (by decide) inner .done)⟩ 3

def overlong : Nat → Byte := fun i =>
  ([1,0,1,2, 0,0,0,1, 0,0,3,232, 0,0,0,7] : List Byte).getD i 0

theorem responseIterationOverrun : ¬∀ fuel, Inside 16 (cmdIterateStructs overlong fuel 0 16) := by
  intro inside
  have event : .callback 7 16 996 ∈ (cmdIterateStructs overlong 2 0 16).events := by decide
  exact absurd (inside 2 _ event) (by decide)

end LibProc.IterateStructs
