import LibProc.Ipc
import LibProc.XdrFrame

/-! The first two words of the messages of ipc.c. Whatever the parameters behind them are, a message
that is sent begins with its command and its number; whatever follows, a message that decodes is
read with the two words it begins with. -/
namespace LibProc.Ipc
open XdrBytes Xdr

def header (command ipcref : BitVec 32) : List Byte := beBytes command ++ beBytes ipcref

theorem beBytesInj {w v : BitVec 32} (same : beBytes w = beBytes v) : w = v := by
  rw [← beWordBytes w, same, beWordBytes]

theorem headerInj {command ipcref command' ipcref' : BitVec 32} (same : header command ipcref = header command' ipcref') :
    command = command' ∧ ipcref = ipcref' := by
  obtain ⟨first,second⟩ := List.append_inj same rfl
  exact ⟨beBytesInj first,beBytesInj second⟩

theorem readBack {bytes : List Byte} (four : bytes.length = 4) : beBytes (beWord bytes) = bytes := by
  match bytes, four with
  | [a,b,c,d], _ => exact beBytesWord a b c d

section Encoding
variable {env : Env} {cells : List Val} {max : Nat}

theorem advanceBehind {k used : Nat} {dst : Dst} (behind : (dst.advance used).From k) (n : Nat) :
    (dst.advance (used + n)).From k := by
  intro pos same
  cases dst with
  | null =>
    generalize used + n = further at same
    cases further <;> cases same
  | wild => cases same
  | «at» start =>
    have := behind (start + used) rfl
    cases same
    omega

theorem loopLeaves {fields : List (Encoder × Nat)} (each : ∀ field ∈ fields, Frames field.1) {k : Nat} {dst : Dst} (vs : List Val)
    (res : Int) {used : Nat} (behind : (dst.advance used).From k) (len : Nat) (buf : List Byte) :
    Leaves k buf (structEncodeLoop env cells max fields vs dst res used len buf) := by
  induction fields generalizing vs res used len buf with
  | nil => exact leavesOk keptSame
  | cons field fields ih =>
    obtain ⟨enc,lenOffset⟩ := field
    have frames := each (enc,lenOffset) List.mem_cons_self
    have more := fun field member => each field (List.mem_cons_of_mem _ member)
    cases vs with
    | nil => exact leavesError
    | cons v vs =>
      simp only [structEncodeLoop]
      split
      · refine Leaves.next fun r done last after => ?_
        exact (ih more vs res (advanceBehind behind _) _ r.buf last after).trans (frames k v _ _ _ _ buf fromNull r done)
      · refine Leaves.next fun r done last after => ?_
        exact (ih more vs r.res (advanceBehind behind _) _ r.buf last after).trans (frames k v _ _ _ _ buf behind r done)

theorem loopGrows {fields : List (Encoder × Nat)} {vs : List Val} {dst : Dst} {res : Int} {used len : Nat} {buf : List Byte}
    {r : Encoded} (done : structEncodeLoop env cells max fields vs dst res used len buf = .ok r) :
    used ≤ r.used ∧ (res < 0 → r.res < 0) := by
  induction fields generalizing vs res used len buf with
  | nil =>
    cases done
    exact ⟨le_rfl,id⟩
  | cons field fields ih =>
    obtain ⟨enc,lenOffset⟩ := field
    cases vs with
    | nil => cases done
    | cons v vs =>
      simp only [structEncodeLoop] at done
      split at done
      · cases here : enc v .null len max (some (wordAt env cells[lenOffset]?)) buf with
        | error stop =>
          rw [here] at done
          cases done
        | ok first =>
          rw [here] at done
          obtain ⟨more,fails⟩ := ih done
          exact ⟨by omega,fails⟩
      · rename_i writes
        cases here : enc v (dst.advance used) len (sizeSub max used) (some (wordAt env cells[lenOffset]?)) buf with
        | error stop =>
          rw [here] at done
          cases done
        | ok first =>
          rw [here] at done
          obtain ⟨more,-⟩ := ih done
          exact ⟨by omega,fun failed => absurd (.inr failed) writes⟩

theorem wordFirst {fuel : Nat} {s : Scalar} (word : s = .int32 ∨ s = .uint32) {lenOffset : Nat}
    {rest : List (Encoder × Nat)} {w : BitVec 32} {vs : List Val} {used len : Nat}
    {buf : List Byte} {r : Encoded} (sent : 0 ≤ r.res)
    (done : structEncodeLoop env cells max ((encoderOf env (enterEncoder env fuel) (.scalar s),lenOffset) :: rest) (.word w :: vs)
      (.at 0) 0 used len buf = .ok r) :
    used + 4 ≤ buf.length ∧ used + 4 ≤ r.used ∧
      structEncodeLoop env cells max rest vs (.at 0) 0 (used + 4) 4 (splice buf used (beBytes w)) = .ok r := by
  have coder : encoderOf env (enterEncoder env fuel) (.scalar s) = encodeUint32 := by
    rcases word with rfl | rfl <;> rfl
  rw [coder] at done
  simp only [structEncodeLoop,encodeUint32] at done
  have writes : ¬(Dst.at 0 = .null ∨ (0 : Int) < 0) := by simp
  rw [if_neg writes] at done
  unfold encodeWord put at done
  simp only [Dst.advance,Nat.zero_add,beBytesLength] at done
  have filled : beBytes w ≠ [] := by simp [beBytes]
  rw [if_neg Dst.noConfusion, if_neg filled] at done
  by_cases room : sizeSub max used < 4
  · rw [if_pos room] at done
    have failed : (-2 : Int) < 0 := by decide
    have fails := (loopGrows done).2 failed
    omega
  · rw [if_neg room] at done
    by_cases fits : used + 4 ≤ buf.length
    · simp only [fits,if_true] at done
      exact ⟨fits,(loopGrows done).1,done⟩
    · simp only [fits,if_false] at done
      cases done

end Encoding

section Sending
variable {env : Env} {fuel : Nat} {heap : Heap} {command ipcref : BitVec 32}

def Headed (fields : FieldList) : Prop :=
  ∃ rest, fields = .cons (.scalar .int32) 0 0 (.cons (.scalar .uint32) 0 0 rest)

theorem commandHeaded : Headed commandFields := ⟨_,rfl⟩

theorem responseHeaded : Headed responseFields := ⟨_,rfl⟩

def Packet.Begins (packet : Packet) (command ipcref : BitVec 32) : Prop :=
  ∀ buff, packet.buff = some buff → (buff.take packet.len).take 8 = header command ipcref

theorem encodeBegins {fields : FieldList} (headed : Headed fields) {vs : List Val} {buff : Option (List Byte)} {max : Nat} {res : Int}
    {packet : Packet} (sent : 0 ≤ res)
    (done : encodeInto env fuel fields (.word command :: .word ipcref :: vs) buff max = .ok (res,packet)) :
    packet.Begins command ipcref := by
  obtain ⟨rest,rfl⟩ := headed
  cases buff with
  | none =>
    simp only [encodeInto] at done
    cases out : xdrStructEncoder env fuel (.cons (.scalar .int32) 0 0 (.cons (.scalar .uint32) 0 0 rest))
        (.struct (.word command :: .word ipcref :: vs)) .null max [] with
    | error stop =>
      rw [out] at done
      cases done
    | ok r =>
      rw [out] at done
      cases done
      intro buff there
      cases there
  | some bytes =>
    simp only [encodeInto] at done
    cases out : xdrStructEncoder env fuel (.cons (.scalar .int32) 0 0 (.cons (.scalar .uint32) 0 0 rest))
        (.struct (.word command :: .word ipcref :: vs)) (.at 0) max bytes with
    | error stop =>
      rw [out] at done
      cases done
    | ok r =>
      rw [out] at done
      cases done
      simp only [xdrStructEncoder,structEncoder,encodersOf] at out
      obtain ⟨fits,-,later⟩ := wordFirst (.inl rfl) sent out
      obtain ⟨fits',used,last⟩ := wordFirst (.inr rfl) sent later
      have frames := @fieldsFrame env _ (enterEncoderFrames env fuel) rest
      have behind : ((Dst.at 0).advance (0 + 4 + 4)).From 8 := by
        intro pos same
        cases same
        omega
      have kept := (loopLeaves frames vs 0 behind 4 _ r last).1
      have front : (splice bytes 0 (beBytes command)).take 4 = beBytes command := by
        have all := @spliceTake _ (beBytes command) _ fits
        rw [beBytesLength, List.take_zero, List.nil_append] at all
        exact all
      have both : (splice (splice bytes 0 (beBytes command)) (0 + 4) (beBytes ipcref)).take 8 = header command ipcref := by
        have all := @spliceTake _ (beBytes ipcref) (0 + 4) fits'
        rw [beBytesLength, front] at all
        exact all
      intro buff there
      cases there
      rw [List.take_take, Nat.min_eq_left (by omega), kept, both]

/- Every way the retry ends in a packet ends in an encoding that did not fail. -/
theorem retryBegins {fields : FieldList} (headed : Headed fields) {vs : List Val} {packet : Packet}
    (done : growAndRetry env fuel heap fields (.word command :: .word ipcref :: vs) = .ok (some packet)) :
    packet.Begins command ipcref := by
  unfold growAndRetry at done
  cases first : encodeInto env fuel fields (.word command :: .word ipcref :: vs) (block heap 0 buffLen) buffLen with
  | error stop =>
    rw [first] at done
    cases done
  | ok r =>
    rw [first] at done
    simp only [bind,Except.bind] at done
    split at done
    · split at done
      · unfold encodeAgain at done
        split at done
        · cases done
        rename_i bytes _
        cases second : encodeInto env fuel fields (.word command :: .word ipcref :: vs) (some bytes) r.2.len with
        | error stop =>
          rw [second] at done
          cases done
        | ok again =>
          rw [second] at done
          simp only [bind,Except.bind] at done
          split at done
          · cases done
          · rename_i sent
            cases done
            exact encodeBegins headed (not_lt.mp sent) second
      · cases done
    · rename_i sent
      cases done
      exact encodeBegins headed (not_lt.mp sent) first

def Handed.packet : Handed → Packet
  | .rawSockaddr packet _ => packet
  | .blocking packet _ => packet

def Handed.dest : Handed → Address
  | .rawSockaddr _ dest => dest
  | .blocking _ dest => dest

theorem handOverPacket (proc : Bool) (dest : Address) (packet : Packet) :
    (handOver proc dest packet).packet = packet ∧ (handOver proc dest packet).dest = dest := by
  cases proc <;> exact ⟨rfl,rfl⟩

theorem commandBegins {nextCmdRef next paramType : BitVec 32} {proc : Bool} {params : Val} {dest : Address} {handed : Handed}
    (done : ipcCommandInternal env fuel heap nextCmdRef proc command paramType params dest = .ok (some handed,next)) :
    handed.packet.Begins command nextCmdRef ∧ handed.dest = dest ∧ next = nextCmdRef + 1 := by
  simp only [ipcCommandInternal] at done
  cases sent : growAndRetry env fuel heap commandFields [.word command,.word nextCmdRef,.union paramType params] with
  | error stop =>
    rw [sent] at done
    cases done
  | ok packet =>
    rw [sent] at done
    cases packet with
    | none => cases done
    | some packet =>
      cases done
      obtain ⟨same,goes⟩ := handOverPacket proc dest packet
      rw [same]
      exact ⟨retryBegins commandHeaded sent,goes,rfl⟩

theorem responseBegins {paramType : BitVec 32} {params : Val} {dest : Address} {handed : Handed}
    (done : ipcResponse env fuel heap ipcref paramType params dest = .ok (some handed)) :
    handed.packet.Begins cmdsResponse ipcref ∧ handed.dest = dest := by
  simp only [ipcResponse] at done
  cases sent : growAndRetry env fuel heap responseFields
      [.word cmdsResponse,.word ipcref,.word resultcodeSuccess,.union paramType params] with
  | error stop =>
    rw [sent] at done
    cases done
  | ok packet =>
    rw [sent] at done
    cases packet with
    | none => cases done
    | some packet =>
      cases done
      obtain ⟨same,goes⟩ := handOverPacket true dest packet
      rw [same]
      exact ⟨retryBegins responseHeaded sent,goes⟩

theorem errorBegins {errCode : BitVec 32} {dest : Address} {handed : Handed}
    (done : ipcError env fuel heap ipcref errCode dest = .ok (some handed)) :
    handed.packet.Begins cmdsResponse ipcref ∧ handed.dest = dest := by
  simp only [ipcError] at done
  cases sent : encodeInto env fuel responseFields [.word cmdsResponse,.word ipcref,.word errCode,.union 0 .null]
      (block heap 0 errorLen) errorLen with
  | error stop =>
    rw [sent] at done
    cases done
  | ok r =>
    rw [sent] at done
    simp only [bind,Except.bind,Except.ok.injEq] at done
    split at done
    · cases done
    · rename_i good
      cases done
      obtain ⟨same,goes⟩ := handOverPacket true dest r.2
      rw [same]
      exact ⟨encodeBegins responseHeaded (not_lt.mp good) sent,goes⟩

end Sending

section Decoding
variable {env : Env} {fuel max : Nat} {data : List Byte} {path : List Nat}

theorem decodeLoopKeeps {fields : List (Decoder × Nat)} {cells vs : List Val} {used : Nat} {r : Decoded}
    (done : structDecodeLoop env data max path fields cells vs used = .ok r) : ∃ later, r.dst = .struct (cells ++ later) := by
  induction fields generalizing cells vs used with
  | nil =>
    cases done
    exact ⟨vs,rfl⟩
  | cons field fields ih =>
    obtain ⟨dec,lenOffset⟩ := field
    cases vs with
    | nil => cases done
    | cons v vs =>
      simp only [structDecodeLoop] at done
      cases here : dec (data.drop used) v 0 (sizeSub max used) (some (wordAt env (cells ++ v :: vs)[lenOffset]?))
          (cells.length :: path) with
      | error stop =>
        rw [here] at done
        cases done
      | ok first =>
        rw [here] at done
        simp only [bind,Except.bind] at done
        split at done
        · cases done
          exact ⟨first.dst :: vs,rfl⟩
        · obtain ⟨later,is⟩ := ih done
          exact ⟨first.dst :: later,by rw [is, List.append_assoc]; rfl⟩

theorem negative : ¬(0 : Int) ≤ -1 := by decide

theorem wordRead {dst : Val} {inc : Nat} {len : Option (BitVec 32)} {r : Decoded}
    (done : decodeUint32 data dst inc max len path = .ok r) (good : 0 ≤ r.res) :
    4 ≤ max ∧ 4 ≤ data.length ∧ r.inc = 4 ∧ r.dst = .word (beWord (data.take 4)) := by
  simp only [decodeUint32] at done
  unfold decodeWord Xdr.get at done
  by_cases room : max < 4
  · rw [if_pos room] at done
    cases done
    exact absurd good negative
  · rw [if_neg room] at done
    by_cases there : 4 ≤ data.length
    · rw [if_pos there] at done
      cases done
      exact ⟨not_lt.mp room,there,rfl,rfl⟩
    · rw [if_neg there] at done
      cases done

theorem wordDecoded {s : Scalar} (word : s = .int32 ∨ s = .uint32) {lenOffset : Nat} {rest : List (Decoder × Nat)}
    {cells vs : List Val} {v : Val} {used : Nat} {r : Decoded} (good : 0 ≤ r.res)
    (done : structDecodeLoop env data max path ((decoderOf env (enterDecoder env fuel) (.scalar s),lenOffset) :: rest) cells
      (v :: vs) used = .ok r) :
    4 ≤ sizeSub max used ∧ used + 4 ≤ data.length ∧
      structDecodeLoop env data max path rest (cells ++ [.word (beWord ((data.drop used).take 4))]) vs (used + 4) = .ok r := by
  have coder : decoderOf env (enterDecoder env fuel) (.scalar s) = decodeUint32 := by
    rcases word with rfl | rfl <;> rfl
  rw [coder] at done
  simp only [structDecodeLoop] at done
  cases here : decodeUint32 (data.drop used) v 0 (sizeSub max used) (some (wordAt env (cells ++ v :: vs)[lenOffset]?))
      (cells.length :: path) with
  | error stop =>
    rw [here] at done
    cases done
  | ok first =>
    rw [here] at done
    simp only [bind,Except.bind] at done
    split at done
    · cases done
      exact absurd good negative
    · rename_i fine
      obtain ⟨room,there,inc,dst⟩ := wordRead here (not_lt.mp fine)
      rw [List.length_drop] at there
      rw [inc, dst] at done
      exact ⟨room,by omega,done⟩

theorem headerDecoded {fields : FieldList} (headed : Headed fields) {a b : Val} {cells : List Val}
    {r : Decoded} (good : 0 ≤ r.res)
    (done : xdrStructDecoder env fuel fields data (.struct (a :: b :: cells)) max = .ok r) :
    8 ≤ max ∧ ∃ command ipcref later, r.dst = .struct (.word command :: .word ipcref :: later) ∧
      data.take 8 = header command ipcref := by
  obtain ⟨rest,rfl⟩ := headed
  simp only [xdrStructDecoder,structDecoder,decodersOf] at done
  cases loop : structDecodeLoop env data max []
      ((decoderOf env (enterDecoder env fuel) (.scalar .int32),0) ::
        (decoderOf env (enterDecoder env fuel) (.scalar .uint32),0) :: decodersOf env (enterDecoder env fuel) rest) []
      (a :: b :: cells) 0 with
  | error stop =>
    rw [loop] at done
    cases done
  | ok out =>
    rw [loop] at done
    simp only [bind,Except.bind] at done
    split at done
    · rename_i failed
      cases done
      exact absurd good (not_le.mpr failed)
    · cases done
      obtain ⟨room,-,later⟩ := wordDecoded (.inl rfl) good loop
      obtain ⟨room',there,last⟩ := wordDecoded (.inr rfl) good later
      obtain ⟨behind,is⟩ := decodeLoopKeeps last
      have first : (data.take 4).length = 4 := by
        rw [List.length_take]
        omega
      have second : ((data.drop 4).take 4).length = 4 := by
        rw [List.length_take, List.length_drop]
        omega
      unfold sizeSub at room room'
      refine ⟨?_,_,_,behind,is,?_⟩
      · split at room <;> split at room' <;> omega
      · rw [header, List.drop_zero, readBack first, readBack second, ← List.take_add]

end Decoding
end LibProc.Ipc
