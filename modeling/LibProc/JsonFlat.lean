import LibProc.Json
import Mathlib.Tactic.Ring

/-! Texts of flat objects, and what the scan of json.c makes of them. -/
namespace LibProc.Json
open Config (Text nul)

structure Spaces where
  text : Text
  blank : ∀ c ∈ text, isWhitespace c = true

def isBare (c : Char) : Bool := !isWhitespace c && decide (c ∉ [openBrace,closeBrace,quote,',',':'])

inductive Value where
  | quoted (text : Text) (noQuote : quote ∉ text) (short : text.length < valSize)
  | bare (first : Char) (more : Text) (plain : ∀ c ∈ first :: more, isBare c = true) (short : (first :: more).length < valSize)

def Value.text : Value → Text
  | .quoted text _ _ => text
  | .bare first more _ _ => first :: more

def Value.written : Value → Text
  | .quoted text _ _ => quote :: (text ++ [quote])
  | .bare first more _ _ => first :: more

structure Pair where
  key : Text
  noQuote : quote ∉ key
  short : key.length < keySize
  val : Value

structure Member extends Pair where
  beforeKey : Spaces
  afterKey : Spaces
  beforeVal : Spaces
  afterVal : Spaces

def Member.written (member : Member) : Text :=
  member.beforeKey.text ++ quote :: (member.key ++ quote :: (member.afterKey.text ++ ':' :: (member.beforeVal.text ++
    (member.val.written ++ member.afterVal.text))))

def Pair.call (pair : Pair) : Call := ⟨pair.key ++ [nul],pair.val.text ++ [nul]⟩

def membersWritten : List Member → Text
  | [] => []
  | [member] => member.written
  | member :: rest => member.written ++ ',' :: membersWritten rest

def objectWritten (before inner after : Spaces) (members : List Member) : Text :=
  before.text ++ openBrace :: ((if members = [] then inner.text else membersWritten members) ++ closeBrace :: after.text)

def Goes (json : Text) (curr : Nat) (piece : Text) (p p' : Parse) : Prop :=
  ∀ rest, scan json curr (piece ++ rest) p = scan json (curr + piece.length) rest p'

section
variable {json piece : Text} {p p' p'' : Parse} {curr : Nat} {c : Char}

theorem Goes.nil (json : Text) (curr : Nat) (p : Parse) : Goes json curr [] p p := fun _ => rfl

theorem Goes.append {more : Text} (first : Goes json curr piece p p') (second : Goes json (curr + piece.length) more p' p'') :
    Goes json curr (piece ++ more) p p'' := by
  intro rest
  rw [List.append_assoc, first, second, List.length_append, Nat.add_assoc]

theorem Goes.cons {more : Text} (first : turn json curr c p = some (.ok p')) (later : Goes json (curr + 1) more p' p'') :
    Goes json curr (c :: more) p p'' := by
  intro rest
  rw [List.cons_append, scan, first]
  have goes := later rest
  rw [List.length_cons, show curr + (more.length + 1) = curr + 1 + more.length by omega]
  exact goes

theorem Goes.stays (same : ∀ c ∈ piece, ∀ curr, turn json curr c p = some (.ok p)) (curr : Nat) : Goes json curr piece p p := by
  induction piece generalizing curr with
  | nil => exact .nil json curr p
  | cons c piece ih =>
    exact .cons (same c List.mem_cons_self curr) (ih (fun d member => same d (List.mem_cons_of_mem c member)) (curr + 1))

theorem bareStays (mode : p.mode ≠ .valAccum) (json : Text) (curr : Nat) : p.bare json curr = some p := if_neg mode

theorem turnSpace (space : isWhitespace c = true) (mode : p.mode ≠ .valAccum) (curr : Nat) : turn json curr c p = some (.ok p) := by
  rw [turn, if_pos space, bareStays mode]
  rfl

theorem spacesGo (spaces : Spaces) (mode : p.mode ≠ .valAccum) (json : Text) (curr : Nat) : Goes json curr spaces.text p p :=
  .stays (fun _ member => turnSpace (spaces.blank _ member) mode) curr

theorem turnQuoted (other : c ≠ quote) (mode : p.quoted = true) (curr : Nat) : turn json curr c p = some (.ok p) := by
  have modes : p.mode = .keyQuotedAccum ∨ p.mode = .valQuotedAccum := by simpa [Parse.quoted] using mode
  have bare : p.bare json curr = some p := bareStays (by rcases modes with is | is <;> rw [is] <;> decide) json curr
  unfold turn
  rw [bare]
  rcases modes with is | is <;> simp [is,mode,other]

theorem quotedGo {text : Text} (noQuote : quote ∉ text) (mode : p.quoted = true) (json : Text) (curr : Nat) : Goes json curr text p p :=
  .stays (fun _ member => turnQuoted (fun same => noQuote (same ▸ member)) mode) curr

theorem bareChar (plain : isBare c = true) : isWhitespace c = false ∧ c ≠ openBrace ∧ c ≠ closeBrace ∧
    c ≠ quote ∧ c ≠ ',' ∧ c ≠ ':' := by
  simpa [isBare] using plain

theorem turnBare (plain : isBare c = true) (mode : p.mode = .valAccum) (curr : Nat) : turn json curr c p = some (.ok p) := by
  obtain ⟨space,open_,close,quote_,comma,colon⟩ := bareChar plain
  simp [turn,space,open_,close,quote_,comma,colon,mode]

theorem turnFirst (plain : isBare c = true) (mode : p.mode = .startVal) (curr : Nat) :
    turn json curr c p = some (.ok { p with mode := .valAccum, valStart := some curr }) := by
  obtain ⟨space,open_,close,quote_,comma,colon⟩ := bareChar plain
  simp [turn,space,open_,close,quote_,comma,colon,mode]

theorem sliceOf (before mid after : Text) (at_ len : Nat) (place : at_ = before.length) (size : len = mid.length) :
    ((before ++ (mid ++ after)).drop at_).take len = mid := by
  rw [place, size, List.drop_left, List.take_left]

theorem clampFits {size len : Nat} (short : len < size) : clamp size len = len := if_neg (not_le.mpr short)

def pairWritten (pair : Pair) (gap : Text) : Text := quote :: (pair.key ++ quote :: (gap ++ pair.val.written))

theorem setupReads (pair : Pair) (front gap after : Text) {keyEnd valStart : Nat} (valEnd : Nat) (key : keyEnd = front.length + 1 + pair.key.length)
    (start : valStart = keyEnd + 1 + gap.length) (finish : valEnd + 1 = valStart + pair.val.written.length) :
    jsonSetupCb (front ++ (pairWritten pair gap ++ after)) (some front.length) (some keyEnd) (some valStart) (some valEnd) =
      some pair.call := by
  have keyIs := sliceOf (front ++ [quote]) pair.key (quote :: (gap ++ (pair.val.written ++ after))) (front.length + 1)
    (clamp keySize (keyEnd - front.length - 1)) (by simp)
    (by rw [show keyEnd - front.length - 1 = pair.key.length by omega, clampFits pair.short])
  have place : valStart = (front ++ quote :: (pair.key ++ quote :: gap)).length := by
    simp
    omega
  have split : front ++ (pairWritten pair gap ++ after) = front ++ quote :: (pair.key ++ quote :: gap) ++ (pair.val.written ++ after) := by
    simp [pairWritten]
  have split' : front ++ (pairWritten pair gap ++ after) =
      front ++ [quote] ++ (pair.key ++ quote :: (gap ++ (pair.val.written ++ after))) := by simp [pairWritten]
  simp only [jsonSetupCb,Option.bind_eq_bind,Option.bind_some]
  rw [split', keyIs, ← split', split]
  cases is : pair.val with
  | quoted text noQuote short =>
    have first : (front ++ quote :: (pair.key ++ quote :: gap) ++ ((Value.quoted text noQuote short).written ++ after))[valStart]? = some quote := by
      rw [place, List.getElem?_append_right (le_refl _), Nat.sub_self]
      rfl
    rw [is] at finish
    have valIs := sliceOf (front ++ quote :: (pair.key ++ quote :: gap) ++ [quote]) text (quote :: after) (valStart + 1)
      (clamp valSize (valEnd - valStart - 1)) (by rw [List.length_append, ← place]; rfl) (by
        have width : (Value.quoted text noQuote short).written.length = text.length + 2 := by simp [Value.written]
        rw [show valEnd - valStart - 1 = text.length by omega, clampFits short])
    have join : front ++ quote :: (pair.key ++ quote :: gap) ++ ((Value.quoted text noQuote short).written ++ after) =
        front ++ quote :: (pair.key ++ quote :: gap) ++ [quote] ++ (text ++ quote :: after) := by simp [Value.written]
    rw [first]
    simp only [Option.bind_some,if_true]
    rw [join, valIs, Pair.call, is]
    rfl
  | bare firstChar more plain short =>
    obtain ⟨-,-,-,other,-,-⟩ := bareChar (plain firstChar List.mem_cons_self)
    have first : (front ++ quote :: (pair.key ++ quote :: gap) ++ ((Value.bare firstChar more plain short).written ++ after))[valStart]? =
        some firstChar := by
      rw [place, List.getElem?_append_right (le_refl _), Nat.sub_self]
      rfl
    rw [is] at finish
    have valIs := sliceOf (front ++ quote :: (pair.key ++ quote :: gap)) (firstChar :: more) after valStart
      (clamp valSize (valEnd - valStart + 1)) place (by
        have width : (Value.bare firstChar more plain short).written.length = (firstChar :: more).length := rfl
        have some_ : 0 < (firstChar :: more).length := Nat.succ_pos _
        rw [show valEnd - valStart + 1 = (firstChar :: more).length by omega, clampFits short])
    rw [first]
    simp only [Option.bind_some,if_neg other]
    rw [Value.written, valIs, Pair.call, is]
    rfl

def Ends (json : Text) (curr : Nat) (piece : Text) (p p' : Parse) : Prop :=
  ∀ c rest, (c = ',' ∨ c = closeBrace) → scan json curr (piece ++ c :: rest) p = scan json (curr + piece.length) (c :: rest) p'

theorem Goes.ends {more : Text} (first : Goes json curr piece p p') (second : Ends json (curr + piece.length) more p' p'') :
    Ends json curr (piece ++ more) p p'' := by
  intro c rest stop
  rw [List.append_assoc, first, second c rest stop, List.length_append, Nat.add_assoc]

theorem Goes.toEnds (goes : Goes json curr piece p p') : Ends json curr piece p p' := fun c rest _ => goes (c :: rest)

theorem bareEnds (spaces : Spaces) (mode : p.mode = .valAccum) (ended : p.value json (curr - 1) = some p') (mode' : p'.mode = .endProp) :
    Ends json curr spaces.text p p' := by
  have bare : p.bare json curr = some p' := by rw [Parse.bare, if_pos mode, ended]
  have stays : p'.mode ≠ .valAccum := by rw [mode']; decide
  have blank := spaces.blank
  intro c rest stop
  cases text : spaces.text with
  | nil =>
    have bare' := bareStays stays json curr
    have same : turn json curr c p = turn json curr c p' := by
      rcases stop with rfl | rfl <;> simp [turn,bare,bare',isWhitespace,closeBrace,openBrace,quote]
    have goes : ∃ q, turn json curr c p' = some (.ok q) := by
      rcases stop with rfl | rfl
      · exact ⟨{ p' with mode := .startProp },by simp [turn,bare',mode',isWhitespace,closeBrace,openBrace,quote]⟩
      · exact ⟨{ p' with mode := .endJson },by simp [turn,bare',mode',isWhitespace,closeBrace,openBrace]⟩
    obtain ⟨q,goes⟩ := goes
    rw [List.nil_append, List.length_nil, Nat.add_zero, scan, same, scan, goes]
    rfl
  | cons space more =>
    rw [text] at blank
    have first : turn json curr space p = some (.ok p') := by
      rw [turn, if_pos (blank space List.mem_cons_self), bare]
      rfl
    have later : Goes json (curr + 1) more p' p' :=
      .stays (fun d member => turnSpace (blank d (List.mem_cons_of_mem space member)) stays) _
    exact Goes.cons first later (c :: rest)

theorem valueEnds (pair : Pair) (front gap after : Text) (spaces : Spaces) {keyEnd valStart : Nat}
    (key : keyEnd = front.length + 1 + pair.key.length) (start : valStart = keyEnd + 1 + gap.length) (calls : List Call) :
    ∃ p', p'.mode = .endProp ∧ p'.calls = calls ++ [pair.call] ∧
      Ends (front ++ (pairWritten pair gap ++ after)) valStart (pair.val.written ++ spaces.text)
        ⟨.startVal,some front.length,some keyEnd,none,none,calls⟩ p' := by
  have setup := fun valEnd : Nat => setupReads pair front gap after valEnd key start
  generalize front ++ (pairWritten pair gap ++ after) = json at setup ⊢
  cases is : pair.val with
  | quoted text noQuote short =>
    have reads := setup (valStart + 1 + text.length) (by simp [is,Value.written]; ring)
    have opens : turn json valStart quote ⟨.startVal,some front.length,some keyEnd,none,none,calls⟩ =
        some (.ok ⟨.valQuotedAccum,some front.length,some keyEnd,some valStart,none,calls⟩) := by
      simp [turn,isWhitespace,openBrace,closeBrace,quote]
    have closes : turn json (valStart + 1 + text.length) quote ⟨.valQuotedAccum,some front.length,some keyEnd,some valStart,none,calls⟩ =
        some (.ok ⟨.endProp,some front.length,some keyEnd,some valStart,some (valStart + 1 + text.length),calls ++ [pair.call]⟩) := by
      simp [turn,isWhitespace,openBrace,closeBrace,quote,Parse.value,reads]
    refine ⟨⟨.endProp,some front.length,some keyEnd,some valStart,some (valStart + 1 + text.length),calls ++ [pair.call]⟩,rfl,rfl,
      Goes.ends (.cons opens ((quotedGo noQuote (by rfl) json _).append (.cons closes (.nil json _ _)))) ?_⟩
    exact (spacesGo spaces (by simp) json _).toEnds
  | bare first more plain short =>
    have reads := setup (valStart + (first :: more).length - 1) (by simp [is,Value.written]; omega)
    have opens : turn json valStart first ⟨.startVal,some front.length,some keyEnd,none,none,calls⟩ =
        some (.ok ⟨.valAccum,some front.length,some keyEnd,some valStart,none,calls⟩) :=
      turnFirst (plain first List.mem_cons_self) rfl valStart
    have stays : Goes json (valStart + 1) more ⟨.valAccum,some front.length,some keyEnd,some valStart,none,calls⟩
        ⟨.valAccum,some front.length,some keyEnd,some valStart,none,calls⟩ :=
      .stays (fun c member => turnBare (plain c (List.mem_cons_of_mem first member)) rfl) _
    have ended : Parse.value ⟨.valAccum,some front.length,some keyEnd,some valStart,none,calls⟩ json (valStart + (first :: more).length - 1) =
        some ⟨.endProp,some front.length,some keyEnd,some valStart,some (valStart + (first :: more).length - 1),calls ++ [pair.call]⟩ := by
      rw [Parse.value, reads]
      rfl
    exact ⟨⟨.endProp,some front.length,some keyEnd,some valStart,some (valStart + (first :: more).length - 1),calls ++ [pair.call]⟩,
      rfl,rfl,Goes.ends (.cons opens stays) (bareEnds spaces rfl ended rfl)⟩

def Member.gap (member : Member) : Text := member.afterKey.text ++ ':' :: member.beforeVal.text

theorem memberSplit (member : Member) : member.written =
    member.beforeKey.text ++ (pairWritten member.toPair member.gap ++ member.afterVal.text) := by
  simp [Member.written,pairWritten,Member.gap]

theorem gapGoes (member : Member) (mode : p.mode = .kvpSep) (json : Text) (curr : Nat) :
    Goes json curr member.gap p { p with mode := .startVal } := by
  have before := spacesGo member.afterKey (p := p) (by rw [mode]; decide) json curr
  have colon : turn json (curr + member.afterKey.text.length) ':' p = some (.ok { p with mode := .startVal }) := by
    simp [turn,isWhitespace,openBrace,closeBrace,quote,mode]
  exact before.append (.cons colon (spacesGo member.beforeVal (by simp) json _))

theorem keyGoes (member : Member) (mode : p.mode = .startProp) (json : Text) (curr : Nat) :
    Goes json curr (member.beforeKey.text ++ quote :: (member.key ++ quote :: member.gap)) p
      ⟨.startVal,some (curr + member.beforeKey.text.length),some (curr + member.beforeKey.text.length + 1 + member.key.length),none,none,
        p.calls⟩ := by
  have before := spacesGo member.beforeKey (p := p) (by rw [mode]; decide) json curr
  have opens : turn json (curr + member.beforeKey.text.length) quote p =
      some (.ok ⟨.keyQuotedAccum,some (curr + member.beforeKey.text.length),none,none,none,p.calls⟩) := by
    simp [turn,isWhitespace,openBrace,closeBrace,quote,mode]
  have closes : turn json (curr + member.beforeKey.text.length + 1 + member.key.length) quote
      ⟨.keyQuotedAccum,some (curr + member.beforeKey.text.length),none,none,none,p.calls⟩ =
      some (.ok ⟨.kvpSep,some (curr + member.beforeKey.text.length),
        some (curr + member.beforeKey.text.length + 1 + member.key.length),none,none,p.calls⟩) := by
    simp [turn,isWhitespace,openBrace,closeBrace,quote]
  exact before.append (.cons opens ((quotedGo member.noQuote (by rfl) json _).append (.cons closes (gapGoes member (by rfl) json _))))

theorem memberEnds (member : Member) (front after : Text) (mode : p.mode = .startProp) : ∃ p', p'.mode = .endProp ∧
    p'.calls = p.calls ++ [member.call] ∧ Ends (front ++ (member.written ++ after)) front.length member.written p p' := by
  have json : front ++ (member.written ++ after) =
      front ++ member.beforeKey.text ++ (pairWritten member.toPair member.gap ++ (member.afterVal.text ++ after)) := by
    simp [memberSplit]
  have written : member.written = member.beforeKey.text ++ quote :: (member.key ++ quote :: member.gap) ++
      (member.val.written ++ member.afterVal.text) := by simp [memberSplit,pairWritten]
  rw [json]
  obtain ⟨p',mode',calls,ends⟩ := valueEnds member.toPair (front ++ member.beforeKey.text) member.gap (member.afterVal.text ++ after)
    member.afterVal rfl rfl p.calls
  have key := keyGoes member mode
    (front ++ member.beforeKey.text ++ (pairWritten member.toPair member.gap ++ (member.afterVal.text ++ after))) front.length
  rw [List.length_append] at ends
  refine ⟨p',mode',calls,?_⟩
  rw [written]
  refine key.ends ?_
  have place : front.length + (member.beforeKey.text ++ quote :: (member.key ++ quote :: member.gap)).length =
      front.length + member.beforeKey.text.length + 1 + member.key.length + 1 + member.gap.length := by
    simp
    omega
  rw [place]
  exact ends

theorem turnComma (mode : p.mode = .endProp) (json : Text) (curr : Nat) :
    turn json curr ',' p = some (.ok { p with mode := .startProp }) := by
  have bare := bareStays (p := p) (by rw [mode]; decide) json curr
  simp [turn,bare,mode,isWhitespace,closeBrace,openBrace,quote]

theorem turnClose (mode : p.mode = .startProp ∨ p.mode = .endProp) (json : Text) (curr : Nat) :
    turn json curr closeBrace p = some (.ok { p with mode := .endJson }) := by
  have bare := bareStays (p := p) (by rcases mode with is | is <;> rw [is] <;> decide) json curr
  simp [turn,bare,mode,isWhitespace,closeBrace,openBrace]

theorem membersEnd (members : List Member) (some_ : members ≠ []) (front after : Text) (mode : p.mode = .startProp) :
    ∃ p', p'.mode = .endProp ∧ p'.calls = p.calls ++ members.map (fun member => member.call) ∧
      Ends (front ++ (membersWritten members ++ after)) front.length (membersWritten members) p p' := by
  induction members generalizing front p with
  | nil => exact absurd rfl some_
  | cons member rest ih =>
    cases rest with
    | nil => exact memberEnds member front after mode
    | cons next rest =>
      obtain ⟨p',mode',calls,ends⟩ := memberEnds member front (',' :: (membersWritten (next :: rest) ++ after)) mode
      obtain ⟨last,mode'',calls',ends'⟩ := ih (List.cons_ne_nil next rest) (front ++ member.written ++ [','])
        (p := { p' with mode := .startProp }) rfl
      have json : front ++ (membersWritten (member :: next :: rest) ++ after) =
          front ++ (member.written ++ ',' :: (membersWritten (next :: rest) ++ after)) := by simp [membersWritten]
      have json' : front ++ (membersWritten (member :: next :: rest) ++ after) =
          front ++ member.written ++ [','] ++ (membersWritten (next :: rest) ++ after) := by simp [membersWritten]
      rw [← json'] at ends'
      rw [← json] at ends
      refine ⟨last,mode'',?_,fun c more stop => ?_⟩
      · rw [calls']
        change p'.calls ++ _ = _
        rw [calls, List.append_assoc]
        rfl
      · have first := ends ',' (membersWritten (next :: rest) ++ c :: more) (.inl rfl)
        have later := ends' c more stop
        have written : membersWritten (member :: next :: rest) ++ c :: more =
            member.written ++ ',' :: (membersWritten (next :: rest) ++ c :: more) := by simp [membersWritten]
        rw [written, first, scan, turnComma mode']
        rw [List.length_append, List.length_append, List.length_singleton] at later
        simp only [Option.bind_eq_bind,Option.bind_some]
        rw [later]
        congr 1
        simp [membersWritten]
        omega

/- The object of the pairs is parsed, and the callback is called on them in their order. -/
theorem flatParsed (before inner after : Spaces) (members : List Member) :
    jsonIterateProps (objectWritten before inner after members) = some (.good,members.map fun member => member.call) := by
  have opens : ∀ json curr, turn json curr openBrace .init = some (.ok { Parse.init with mode := .startProp }) := by
    intro json curr
    simp [turn,isWhitespace,openBrace,Parse.init]
  have spaces := spacesGo before (p := .init) (by simp [Parse.init]) (objectWritten before inner after members) 0
  have front := spaces.append (.cons (opens _ _) (.nil _ _ _))
  have closing : ∀ curr (p : Parse), p.mode = .startProp ∨ p.mode = .endProp →
      scan (objectWritten before inner after members) curr (closeBrace :: after.text) p = some (.good,p.calls) := by
    intro curr p mode
    have last := spacesGo after (p := { p with mode := .endJson }) (by simp) (objectWritten before inner after members) (curr + 1) []
    rw [List.append_nil] at last
    rw [scan, turnClose mode]
    simp only [Option.bind_eq_bind,Option.bind_some]
    rw [last, scan]
    rfl
  by_cases none_ : members = []
  · have text : objectWritten before inner after members = before.text ++ [openBrace] ++ (inner.text ++ closeBrace :: after.text) := by
      simp [objectWritten,none_]
    have middle := spacesGo inner (p := { Parse.init with mode := .startProp }) (by simp) (objectWritten before inner after members)
    have goes := front (inner.text ++ closeBrace :: after.text)
    rw [← text] at goes
    rw [jsonIterateProps, goes, middle, closing _ _ (.inl rfl), none_]
    rfl
  · have text : objectWritten before inner after members = before.text ++ [openBrace] ++ (membersWritten members ++ closeBrace :: after.text) := by
      simp [objectWritten,none_]
    obtain ⟨p',mode,calls,ends⟩ := membersEnd members none_ (before.text ++ [openBrace]) (closeBrace :: after.text)
      (p := { Parse.init with mode := .startProp }) rfl
    have goes := front (membersWritten members ++ closeBrace :: after.text)
    rw [← text] at goes ends
    have last := ends closeBrace after.text (.inr rfl)
    rw [jsonIterateProps, goes, show 0 + (before.text ++ [openBrace]).length = (before.text ++ [openBrace]).length by omega, last,
      closing _ _ (.inr mode), calls]
    rfl

end
end LibProc.Json
