import LibProc.XdrValues

/-! Encoders write at their destination and behind it. What stands before the destination is
left as it was, and so is the buffer's size, whatever the encoder makes of its value and of
the room it is told of. -/
namespace LibProc.Xdr
open XdrBytes XdrDict

def Dst.From (k : Nat) (dst : Dst) : Prop := ∀ pos, dst = .at pos → k ≤ pos

def Kept (k : Nat) (buf buf' : List Byte) : Prop := buf'.take k = buf.take k ∧ buf'.length = buf.length

def Leaves (k : Nat) (buf : List Byte) (x : Except Stop Encoded) : Prop := ∀ r, x = .ok r → Kept k buf r.buf

def Frames (enc : Encoder) : Prop :=
  ∀ k v dst used max len buf, dst.From k → Leaves k buf (enc v dst used max len buf)

section
variable {k : Nat} {buf : List Byte}

theorem keptSame : Kept k buf buf := ⟨rfl,rfl⟩

theorem Kept.trans {buf' buf'' : List Byte} (second : Kept k buf' buf'') (first : Kept k buf buf') : Kept k buf buf'' :=
  ⟨second.1.trans first.1,second.2.trans first.2⟩

theorem fromNull : Dst.null.From k := by
  intro pos same
  cases same

theorem fromAdvance {dst : Dst} (behind : dst.From k) (n : Nat) : (dst.advance n).From k := by
  intro pos same
  cases dst with
  | null => cases n <;> cases same
  | wild => cases same
  | «at» start =>
    have := behind start rfl
    cases same
    omega

theorem leavesError {stop : Stop} : Leaves k buf (.error stop) := by
  intro r same
  cases same

theorem leavesOk {buf' : List Byte} (kept : Kept k buf buf') {res : Int} {used : Nat} :
    Leaves k buf (.ok ⟨res,used,buf'⟩) := by
  intro r same
  cases same
  exact kept

theorem Leaves.next {α : Type} {x : Except Stop α} {f : α → Except Stop Encoded}
    (each : ∀ a, x = .ok a → Leaves k buf (f a)) : Leaves k buf (x >>= f) := by
  cases x with
  | error stop => exact leavesError
  | ok a => exact each a rfl

theorem putKeeps {bs buf' : List Byte} {dst : Dst} (behind : dst.From k) (done : put bs dst buf = .ok buf') :
    Kept k buf buf' := by
  by_cases empty : bs = []
  · simp only [put.eq_def,empty,if_true] at done
    cases done
    exact keptSame
  cases dst with
  | null =>
    simp only [put,empty,if_false] at done
    cases done
  | wild =>
    simp only [put,empty,if_false] at done
    cases done
  | «at» pos =>
    simp only [put,empty,if_false] at done
    split at done
    · rename_i fits
      cases done
      have here := behind pos rfl
      have inside : k ≤ (buf.take pos).length := by
        rw [List.length_take]
        omega
      refine ⟨?_,spliceLength fits⟩
      rw [splice, List.append_assoc, List.take_append_of_le_length inside, List.take_take, Nat.min_eq_left here]
    · cases done

theorem encodeWordLeaves {w : BitVec 32} {dst : Dst} (behind : dst.From k) (max : Nat) :
    Leaves k buf (encodeWord w dst max buf) := by
  rw [encodeWord]
  split
  · exact leavesOk keptSame
  split
  · exact leavesOk keptSame
  · exact Leaves.next fun buf' done => leavesOk (putKeeps behind done)

end

theorem encodeNullLeaves {k : Nat} {buf : List Byte} (width : Nat) (dst : Dst) :
    Leaves k buf (encodeNull width dst buf) := by
  rw [encodeNull]
  split
  · exact leavesOk keptSame
  · exact leavesOk keptSame

theorem encodeUint32Frames : Frames encodeUint32 := by
  intro k v dst used max len buf behind
  cases v with
  | word w => exact encodeWordLeaves behind max
  | null => exact encodeNullLeaves 4 dst
  | _ => exact leavesError

theorem encodeInt64Frames : Frames encodeInt64 := by
  intro k v dst used max len buf behind
  cases v with
  | dword d =>
    rw [encodeInt64]
    split
    · exact leavesOk keptSame
    split
    · exact leavesOk keptSame
    refine Leaves.next fun hi first => ?_
    have kept := encodeWordLeaves behind max hi first
    split
    · exact leavesOk kept
    refine Leaves.next fun lo second => ?_
    have kept' := encodeWordLeaves (fromAdvance behind hi.used) (sizeSub max hi.used) lo second
    split
    · exact leavesOk (kept'.trans kept)
    · exact leavesOk (kept'.trans kept)
  | null => exact encodeNullLeaves 8 dst
  | _ => exact leavesError

theorem copyNumberFrames (width : Nat) : Frames (copyNumber width) := by
  intro k v dst used max len buf behind
  rw [copyNumber]
  split
  · exact leavesError
  split
  · exact leavesOk keptSame
  split
  · exact leavesError
  · exact Leaves.next fun buf' done => leavesOk (putKeeps behind done)

theorem encodeScalarFrames (s : Scalar) : Frames (encodeScalar s) := by
  cases s with
  | int32 => exact encodeUint32Frames
  | uint32 => exact encodeUint32Frames
  | int64 => exact encodeInt64Frames
  | uint64 => exact encodeInt64Frames
  | float => exact copyNumberFrames 4
  | double => exact copyNumberFrames 8

theorem encodeElementFrames (s : Scalar) : Frames (encodeElement s) := by
  cases s with
  | double => exact copyNumberFrames 4
  | float => exact encodeScalarFrames .float
  | int32 => exact encodeScalarFrames .int32
  | uint32 => exact encodeScalarFrames .uint32
  | int64 => exact encodeScalarFrames .int64
  | uint64 => exact encodeScalarFrames .uint64

theorem encodeByteArrayFrames : Frames encodeByteArray := by
  intro k v dst used max len buf behind
  cases len with
  | none => exact leavesError
  | some len =>
    simp only [encodeByteArray]
    split
    · exact leavesError
    split
    · exact leavesOk keptSame
    · split
      · exact leavesOk keptSame
      split
      · exact leavesError
      refine Leaves.next fun copied first => Leaves.next fun padded second => ?_
      exact leavesOk ((putKeeps (fromAdvance behind _) second).trans (putKeeps behind first))
    · exact leavesError

theorem encodeStringArrayFrames : Frames encodeStringArray := by
  intro k v dst used max len buf behind
  simp only [encodeStringArray]
  split
  · exact leavesError
  refine Leaves.next fun head first => ?_
  have kept := encodeWordLeaves behind max head first
  split
  · exact leavesOk kept
  split
  · exact leavesOk kept
  refine Leaves.next fun copied second => Leaves.next fun padded third => ?_
  have after := fromAdvance behind head.used
  exact leavesOk ((putKeeps (fromAdvance after _) third).trans ((putKeeps after second).trans kept))

theorem arrayLoopLeaves {enc : Encoder} (frames : Frames enc) {k : Nat} {dst : Dst} (behind : dst.From k) (max : Nat)
    (count : Nat) (vs : List Val) (res : Int) (encLen : Nat) (buf : List Byte) :
    Leaves k buf (arrayEncodeLoop enc max count vs dst res encLen buf) := by
  induction count generalizing vs dst res encLen buf with
  | zero => exact leavesOk keptSame
  | succ count ih =>
    cases vs with
    | nil => exact leavesError
    | cons v vs =>
      have gone : ∀ negative : Prop, [Decidable negative] → (if negative then Dst.null else dst).From k := by
        intro negative decided
        split
        · exact fromNull
        · exact behind
      simp only [arrayEncodeLoop]
      split
      · refine Leaves.next fun r done last after => ?_
        exact (ih (gone _) vs r.res _ r.buf last after).trans (frames k v _ 0 _ none buf (fromAdvance behind _) r done)
      · refine Leaves.next fun r done last after => ?_
        exact (ih (gone _) vs res _ r.buf last after).trans (frames k v _ 0 _ none buf fromNull r done)

theorem encodeArrayFrames {enc : Encoder} (frames : Frames enc) : Frames (encodeArray enc) := by
  intro k v dst used max len buf behind
  cases len with
  | none => exact leavesOk keptSame
  | some len =>
    simp only [encodeArray,arrayEncoder]
    split
    · exact leavesError
    · exact arrayLoopLeaves frames behind max _ _ 0 0 buf

def DictionaryParams.Leaves (k : Nat) (buf : List Byte) (p : DictionaryParams) : Prop :=
  p.dst.From k ∧ Kept k buf p.buf

theorem takeLeaves {k : Nat} {buf : List Byte} {p : DictionaryParams} {r : Encoded} (behind : p.dst.From k)
    (kept : Kept k buf r.buf) : (p.take r).Leaves k buf := by
  rw [DictionaryParams.take]
  split
  · exact ⟨fromNull,kept⟩
  · exact ⟨fromAdvance behind r.used,kept⟩

theorem encodeOneLeaves {enc : Encoder} (frames : Frames enc) {k : Nat} {buf : List Byte} {p q : DictionaryParams}
    (before : p.Leaves k buf) {v : Val} (done : dictionaryEncodeOne enc p v = .ok q) : q.Leaves k buf := by
  rw [dictionaryEncodeOne] at done
  split at done
  · cases called : enc v p.dst 0 p.max none p.buf with
    | error stop => simp [called,bind,Except.bind] at done
    | ok r =>
      simp only [called,bind,Except.bind,Except.ok.injEq] at done
      subst done
      exact takeLeaves before.1 ((frames k v p.dst 0 p.max none p.buf before.1 r called).trans before.2)
  · cases called : enc v .null 0 p.max none p.buf with
    | error stop => simp [called,bind,Except.bind] at done
    | ok r =>
      simp only [called,bind,Except.bind,Except.ok.injEq] at done
      subst done
      exact ⟨before.1,(frames k v .null 0 p.max none p.buf fromNull r called).trans before.2⟩

theorem encodeKeyFrames : Frames encodeKey := by
  intro k v dst used max len buf behind
  cases dst with
  | null => exact leavesError
  | wild => exact encodeStringArrayFrames k v _ used max len buf behind
  | «at» pos => exact encodeStringArrayFrames k v _ used max len buf behind

theorem entriesLeave {enc : Encoder} (frames : Frames enc) {k : Nat} {buf : List Byte} (nodes : List (Key × Val))
    {p q : DictionaryParams} (before : p.Leaves k buf) (done : nodes.foldlM (dictionaryEncoderItr enc) p = .ok q) :
    q.Leaves k buf := by
  induction nodes generalizing p with
  | nil =>
    cases done
    exact before
  | cons node nodes ih =>
    rw [List.foldlM_cons] at done
    cases key : dictionaryEncodeOne encodeKey p (.chars node.1) with
    | error stop => simp [dictionaryEncoderItr,key,bind,Except.bind] at done
    | ok named =>
      cases value : dictionaryEncodeOne enc named node.2 with
      | error stop => simp [dictionaryEncoderItr,key,value,bind,Except.bind] at done
      | ok whole =>
        simp only [dictionaryEncoderItr,key,value,bind,Except.bind] at done
        exact ih (encodeOneLeaves frames (encodeOneLeaves encodeKeyFrames before key) value) done

theorem dictionaryEncoderFrames {enc : Encoder} (frames : Frames enc) : Frames (dictionaryEncoder enc) := by
  intro k v dst used max len buf behind
  cases v with
  | dict table =>
    simp only [dictionaryEncoder]
    refine Leaves.next fun head first => Leaves.next fun p folded => ?_
    have start : (DictionaryParams.take ⟨0,dst,max,0,buf⟩ head).Leaves k buf :=
      takeLeaves behind (encodeWordLeaves behind max head first)
    exact leavesOk (entriesLeave frames _ start folded).2
  | _ => exact leavesError

theorem decodeUint32AsEncoderFrames : Frames decodeUint32AsEncoder := by
  intro k v dst used max len buf behind
  cases v with
  | word w =>
    simp only [decodeUint32AsEncoder]
    split
    · exact leavesOk keptSame
    · exact Leaves.next fun buf' done => leavesOk (putKeeps behind done)
  | _ => exact leavesError

theorem decodeStringArrayAsEncoderFrames : Frames decodeStringArrayAsEncoder := by
  intro k v dst used max len buf behind
  cases v with
  | chars s =>
    simp only [decodeStringArrayAsEncoder]
    split
    · exact leavesOk keptSame
    split
    · exact leavesError
    split
    · exact leavesOk keptSame
    · split <;> exact leavesError
  | null =>
    simp only [decodeStringArrayAsEncoder]
    split
    · exact leavesOk keptSame
    · exact leavesError
  | _ => exact leavesError

theorem encodebfUint32Frames : Frames encodebfUint32 := by
  intro k v dst used max len buf behind
  cases v with
  | word w =>
    simp only [encodebfUint32]
    split
    · exact leavesError
    · exact Leaves.next fun buf' done => leavesOk (putKeeps behind done)
  | _ => exact leavesError

section
variable {env : Env} {into : StructDefinition → Encoder}

theorem encodeUnionFrames (inner : ∀ d, Frames (into d)) : Frames (encodeUnion env into) := by
  intro k v dst used max len buf behind
  cases v with
  | union type data =>
    simp only [encodeUnion]
    refine Leaves.next fun head first => ?_
    have kept := encodeWordLeaves behind max head first
    split
    · exact leavesOk kept
    · refine Leaves.next fun body second => ?_
      have after : ∀ inside : Prop, [Decidable inside] → (if inside then dst.advance head.used else .null).From k := by
        intro inside decided
        split
        · exact fromAdvance behind head.used
        · exact fromNull
      exact leavesOk ((inner _ k data _ 0 _ none head.buf (after _) body second).trans kept)
  | _ => exact leavesError

theorem encodeEntryFrames (inner : ∀ d, Frames (into d)) (e : Entry) : Frames (encodeEntry env into e) := by
  cases e with
  | scalar s =>
    cases s with
    | uint32 => exact decodeUint32AsEncoderFrames
    | int32 => exact encodeScalarFrames .int32
    | int64 => exact encodeScalarFrames .int64
    | uint64 => exact encodeScalarFrames .uint64
    | float => exact encodeScalarFrames .float
    | double => exact encodeScalarFrames .double
  | stringArr => exact decodeStringArrayAsEncoderFrames
  | byteArr => exact encodeByteArrayFrames
  | union => exact encodeUnionFrames inner

theorem structLoopLeaves {fields : List (Encoder × Nat)} (each : ∀ field ∈ fields, Frames field.1) {k : Nat} {dst : Dst}
    (behind : dst.From k) (cells : List Val) (max : Nat) (vs : List Val) (res : Int) (used len : Nat) (buf : List Byte) :
    Leaves k buf (structEncodeLoop env cells max fields vs dst res used len buf) := by
  induction fields generalizing vs res used len buf with
  | nil => exact leavesOk keptSame
  | cons field fields ih =>
    obtain ⟨enc,lenOffset⟩ := field
    have frames := each (enc,lenOffset) List.mem_cons_self
    have more := fun field member => each field (List.mem_cons_of_mem _ member)
    cases vs with
    | nil => exact leavesError
    | cons v vs =>
      simp only [structEncodeLoop]
      split
      · refine Leaves.next fun r done last after => ?_
        exact (ih more vs res _ _ r.buf last after).trans (frames k v _ _ _ _ buf fromNull r done)
      · refine Leaves.next fun r done last after => ?_
        exact (ih more vs r.res _ _ r.buf last after).trans (frames k v _ _ _ _ buf (fromAdvance behind _) r done)

theorem structEncoderFrames {fields : List (Encoder × Nat)} (each : ∀ field ∈ fields, Frames field.1) :
    Frames (structEncoder env fields) := by
  intro k v dst used max len buf behind
  cases v with
  | struct cells => exact structLoopLeaves each behind cells max cells 0 0 0 buf
  | null =>
    simp only [structEncoder]
    split
    · exact leavesOk keptSame
    · exact leavesError
  | _ => exact leavesError

mutual
theorem tableFrames (inner : ∀ d, Frames (into d)) : ∀ funcs, Frames (encoderOf env into funcs)
  | .scalar s => encodeScalarFrames s
  | .array s => encodeArrayFrames (encodeElementFrames s)
  | .dict e => dictionaryEncoderFrames (encodeEntryFrames inner e)
  | .string => fun _ _ _ _ _ _ _ _ => leavesError
  | .stringArr => encodeStringArrayFrames
  | .byteArr => encodeByteArrayFrames
  | .union => encodeUnionFrames inner
  | .unionArr => encodeUnionFrames inner
  | .uint32Bitfield => encodebfUint32Frames
  | .int32Bitfield => encodebfUint32Frames
  | .struct fields => structEncoderFrames (fieldsFrame inner fields)
  | .structArr fields => encodeArrayFrames (structEncoderFrames (fieldsFrame inner fields))
theorem fieldsFrame (inner : ∀ d, Frames (into d)) : ∀ fields, ∀ field ∈ encodersOf env into fields, Frames field.1
  | .nil => fun _ member => by cases member
  | .cons funcs lenOffset _ rest => fun field member => by
    rcases List.mem_cons.mp member with rfl | later
    · exact tableFrames inner funcs
    · exact fieldsFrame inner rest field later
end

end

theorem enterEncoderFrames (env : Env) (fuel : Nat) (d : StructDefinition) : Frames (enterEncoder env fuel d) := by
  induction fuel generalizing d with
  | zero => exact fun _ _ _ _ _ _ _ _ => leavesError
  | succ fuel ih =>
    intro k v dst used max len buf behind
    cases coder : d.coder with
    | struct =>
      simp only [enterEncoder,coder]
      exact structEncoderFrames (fieldsFrame ih d.fields) k v dst used max len buf behind
    | bitfieldStruct =>
      simp only [enterEncoder,coder]
      cases v with
      | struct cells =>
        simp only [bitfieldStructEncoder]
        exact Leaves.next fun val _ => encodeWordLeaves behind max
      | _ => exact leavesError

end LibProc.Xdr
