import LibProc.DictRoundTrip

/-! Dictionaries of strings. The table for them encodes with XDR_decode_string_array, which
takes the first bytes of a string for a length: it gives up, or it stores a pointer. So only
the empty dictionary goes through. -/
namespace LibProc.Xdr
open XdrBytes XdrDict Runs

def StringDictTrips (env : Env) (fuel : Nat) (table : Dictionary Val) : Prop :=
  ∃ bound, ∀ pos used max len buf, bound ≤ max → pos + max ≤ buf.length →
    ∃ r, encoderOf env (enterEncoder env fuel) (.dict .stringArr) (.dict table) (.at pos) used max len buf = .ok r ∧
      0 ≤ r.res ∧ r.used ≤ max ∧ ∀ inc path, ∃ d,
        decoderOf env (enterDecoder env fuel) (.dict .stringArr) (r.buf.drop pos) (.dict zeroed) inc max len path = .ok d ∧
          0 ≤ d.res ∧ d.inc = r.used ∧ ∃ table', d.dst = .dict table' ∧ ∀ key, dictLookup table' key = dictLookup table key

/- The decoder that encodes the values never reports success. -/
theorem valueNeverEncodes {v : Val} {dst : Dst} {used max : Nat} {len : Option (BitVec 32)} {buf : List Byte} {r : Encoded}
    (done : decodeStringArrayAsEncoder v dst used max len buf = .ok r) : r.res < 0 := by
  cases v with
  | chars s =>
    simp only [decodeStringArrayAsEncoder] at done
    split at done
    · cases done
      exact Int.negSucc_lt_zero 0
    split at done
    · cases done
    split at done
    · cases done
      exact Int.negSucc_lt_zero 0
    · split at done <;> cases done
  | null =>
    simp only [decodeStringArrayAsEncoder] at done
    split at done
    · cases done
      exact Int.negSucc_lt_zero 0
    · cases done
  | _ => cases done

def DictionaryParams.Aimed (p : DictionaryParams) : Prop := p.dst = .null → p.res < 0

theorem advanceThere {dst : Dst} (there : dst ≠ .null) (n : Nat) : dst.advance n ≠ .null := by
  cases dst with
  | null => exact absurd rfl there
  | wild | «at» => simp [Dst.advance]

theorem takeAimed {p : DictionaryParams} (there : p.dst ≠ .null) (r : Encoded) : (p.take r).Aimed := by
  intro gone
  rw [DictionaryParams.take] at gone ⊢
  split at gone
  · rename_i negative
    rw [if_pos negative]
    exact negative
  · exact absurd gone (advanceThere there r.used)

theorem keyAims {p q : DictionaryParams} {v : Val} (done : dictionaryEncodeOne encodeKey p v = .ok q) : q.Aimed := by
  rw [dictionaryEncodeOne] at done
  split at done
  · rename_i there
    cases one : encodeKey v p.dst 0 p.max none p.buf with
    | error stop =>
      rw [one] at done
      cases done
    | ok r =>
      rw [one] at done
      cases done
      exact takeAimed there.1 r
  · cases done

theorem valueFails {p q : DictionaryParams} {v : Val} (aimed : p.Aimed)
    (done : dictionaryEncodeOne decodeStringArrayAsEncoder p v = .ok q) : q.res < 0 := by
  rw [dictionaryEncodeOne] at done
  split at done
  · cases one : decodeStringArrayAsEncoder v p.dst 0 p.max none p.buf with
    | error stop =>
      rw [one] at done
      cases done
    | ok r =>
      rw [one] at done
      cases done
      have negative := valueNeverEncodes one
      rw [DictionaryParams.take, if_pos negative]
      exact negative
  · rename_i gone
    cases one : decodeStringArrayAsEncoder v .null 0 p.max none p.buf with
    | error stop =>
      rw [one] at done
      cases done
    | ok r =>
      rw [one] at done
      cases done
      by_cases here : p.dst = .null
      · exact aimed here
      · by_contra good
        exact gone ⟨here,not_lt.mp good⟩

theorem entryFails {p q : DictionaryParams} {entry : Key × Val}
    (done : dictionaryEncoderItr decodeStringArrayAsEncoder p entry = .ok q) : q.res < 0 := by
  rw [dictionaryEncoderItr] at done
  cases key : dictionaryEncodeOne encodeKey p (.chars entry.1) with
  | error stop =>
    rw [key] at done
    cases done
  | ok next =>
    rw [key] at done
    exact valueFails (keyAims key) done

theorem entriesFail {nodes : List (Key × Val)} (some_ : nodes ≠ []) {p q : DictionaryParams}
    (done : nodes.foldlM (dictionaryEncoderItr decodeStringArrayAsEncoder) p = .ok q) : q.res < 0 := by
  induction nodes generalizing p with
  | nil => exact absurd rfl some_
  | cons node rest ih =>
    rw [List.foldlM_cons] at done
    cases first : dictionaryEncoderItr decodeStringArrayAsEncoder p node with
    | error stop =>
      rw [first] at done
      cases done
    | ok next =>
      rw [first] at done
      cases rest with
      | nil =>
        cases done
        exact entryFails first
      | cons other rest => exact ih (List.cons_ne_nil _ _) done

theorem stringsNeverEncode {table : Dictionary Val} (some_ : entries table ≠ []) {dst : Dst} {used max : Nat}
    {len : Option (BitVec 32)} {buf : List Byte} {r : Encoded}
    (done : dictionaryEncoder decodeStringArrayAsEncoder (.dict table) dst used max len buf = .ok r) : r.res < 0 := by
  rw [dictionaryEncoder] at done
  cases head : encodeWord table.length dst max buf with
  | error stop =>
    rw [head] at done
    cases done
  | ok first =>
    rw [head] at done
    simp only [Except.bind,bind] at done
    split at done
    · cases done
    · rename_i q fold
      cases done
      exact entriesFail some_ fold

theorem historyEmpty {calls : List (Call Val)} :
    entries (answers call zeroed calls).2 = [] ↔ ∀ key, dictLookup (answers call zeroed calls).2 key = none := by
  have laid := (historyRefines calls).2.1
  constructor
  · intro none key
    rw [← entriesLookup laid key, none]
    rfl
  · intro none
    rw [List.eq_nil_iff_forall_not_mem]
    intro node member
    have found : dictLookup (answers call zeroed calls).2 node.1 = some node.2 :=
      (SortedBuckets.memFlatten strLessLinear laid.bucketed).mp member
    rw [none node.1] at found
    cases found

/- A dictionary of strings comes back just when it is empty. -/
theorem stringDictTripsIff (env : Env) (fuel : Nat) (calls : List (Call Val)) :
    StringDictTrips env fuel (answers call zeroed calls).2 ↔ ∀ key, dictLookup (answers call zeroed calls).2 key = none := by
  rw [← historyEmpty]
  constructor
  · rintro ⟨bound,trips⟩
    by_contra some_
    obtain ⟨r,done,good,-⟩ := trips 0 0 bound none (List.replicate bound 0) le_rfl (by simp)
    simp only [encoderOf,encodeEntry] at done
    exact absurd good (not_le.mpr (stringsNeverEncode some_ done))
  · intro empty
    have lost : ∀ key, dictLookup (answers call zeroed calls).2 key = .none := historyEmpty.mp empty
    have counted := (historyRefines calls).2.1.counted
    generalize (answers call zeroed calls).2 = table at empty lost counted ⊢
    have wire : DictWire entryRules (fun _ _ => False) (.dict table) (beBytes table.length ++ List.flatten []) :=
      .dict table [] counted (by rw [empty]; exact .nil)
    have zero : table.length = 0 := by rw [counted, empty]; rfl
    refine ⟨4,fun pos used max len buf wide bounds => ?_⟩
    have room : pos + (beBytes table.length).length ≤ buf.length := by rw [beBytesLength]; omega
    have encodes : ∀ v e, False → Encodes decodeStringArrayAsEncoder v none e := fun _ _ never => never.elim
    have encoded := dictionaryEncodes encodes wire len pos used max buf wide (by simpa using room)
    rw [List.flatten_nil, List.append_nil] at encoded
    refine ⟨_,by simpa only [encoderOf,encodeEntry] using encoded,le_rfl,wide,
      fun inc path => ⟨⟨0,4,.dict zeroed⟩,?_,le_rfl,rfl,zeroed,rfl,fun key => ?_⟩⟩
    · simp only [decoderOf,dictionaryDecoder]
      rw [spliceDrop (by omega), decodeWordReads wide, zero]
      rfl
    · rw [dictLookupZeroed, lost key]

/- The letters of the value are taken for a length. -/
theorem greetingLost : ¬StringDictTrips sampleEnv 0 (answers call zeroed [.add true [97] (.chars [104,101,108,108,111])]).2 := by
  rintro ⟨bound,trips⟩
  obtain ⟨r,done,good,-⟩ := trips 0 0 bound none (List.replicate bound 0) le_rfl (by simp)
  simp only [encoderOf,encodeEntry] at done
  exact absurd good (not_le.mpr (stringsNeverEncode (by decide) done))

end LibProc.Xdr
