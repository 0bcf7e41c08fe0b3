import LibProc.ConfigReader

/-! Reading a kept text again. The replay has no end that the reader sees: after the last line `NextLine` answers 1 and leaves
the buffer as it is, so the reader returns just when the tags of the text close. A line that is kept during the replay is given the
room it needs here, so that a buffer that is too small need not end the run. -/
namespace LibProc.Replay
open Config ConfigTree ConfigReader

variable {V : Type}

def accumulateRoomy (ctx : Context V) : Option (Context V) :=
  let line := cstr ctx.buff 0
  let fresh := ctx.accum.isNone || ctx.len = 0
  let accum := if fresh then [] else ctx.accum.getD []
  let len := if fresh then 1024 else ctx.len
  let len := if accum.length + 3 ≤ len ∧ len - accum.length - 3 ≤ line.length then len * 2 else len
  some { ctx with accum := some (accum ++ line ++ ['\n']), len := len }

theorem roomyExtends {ctx ctx' : Context V} (kept : accumulateLine ctx = some ctx') : accumulateRoomy ctx = some ctx' := by
  rw [accumulateLine] at kept
  exact (Option.ite_none_right_eq_some.mp kept).2

def roomySteps (program : Program V) : Steps V := { sourceSteps program with keep := accumulateRoomy }

theorem roomyStepsExtend (program : Program V) : StepsExtend (sourceSteps program) (roomySteps program) :=
  ⟨fun _ _ => roomyExtends,fun _ _ _ _ _ => id,fun _ _ => id,fun _ _ => id⟩

section Closing

/- The open objects, the innermost first, after the lines up to the one that ends the last of them: what is left of the lines,
if that line is among them. -/
def unwind : List Text → List Text → Option (List Text)
  | [],lines => some lines
  | _ :: _,[] => none
  | name :: outer,line :: rest =>
    if line.take 2 = ['<', '/'] then
      if line.dropLast.length < 3 || !strcaseEq (line.dropLast.drop 2) name then unwind (name :: outer) rest else unwind outer rest
    else if line.take 1 = ['<'] then
      match cutTag (line ++ [nul]) with
      | none => unwind (name :: outer) rest
      | some tag => unwind (tag.obj :: name :: outer) rest
    else unwind (name :: outer) rest

def closes : List Text → Bool
  | [] => true
  | first :: rest =>
    match cutTag (first ++ [nul]) with
    | none => true
    | some tag => (unwind [tag.obj] rest).isSome

theorem unwindAppend (inner outer lines : List Text) : unwind (inner ++ outer) lines = (unwind inner lines).bind (unwind outer) := by
  induction lines generalizing inner with
  | nil =>
    cases inner with
    | nil => rfl
    | cons name inner => rfl
  | cons line rest ih =>
    cases inner with
    | nil => rfl
    | cons name inner =>
      rw [List.cons_append, unwind, unwind]
      split
      · split
        · exact ih (name :: inner)
        · exact ih inner
      · split
        · split
          · exact ih (name :: inner)
          · exact ih (_ :: name :: inner)
        · exact ih (name :: inner)

theorem unwindSuffix {names lines after : List Text} (ends : unwind names lines = some after) : after <:+ lines := by
  induction lines generalizing names with
  | nil =>
    cases names with
    | nil => exact Option.some.inj ends ▸ List.suffix_rfl
    | cons name outer => exact absurd ends (Option.some_ne_none _).symm
  | cons line rest ih =>
    cases names with
    | nil => exact Option.some.inj ends ▸ List.suffix_rfl
    | cons name outer =>
      rw [unwind] at ends
      refine List.IsSuffix.trans ?_ (List.suffix_cons line rest)
      split at ends
      · split at ends
        · exact ih ends
        · exact ih ends
      · split at ends
        · split at ends
          · exact ih ends
          · exact ih ends
        · exact ih ends

structure LineRead (line : Text) : Prop where
  ended : nul ∉ line
  whole : '\n' ∉ line
  fits : line.length ≤ buffSize - 1

def Replaying (source : Source) (lines : List Text) : Prop := source.replay = some (linesText lines) ∧ source.stop = false

def Over (source : Source) : Prop := source.replay = none ∧ source.stop = true

end Closing

section Steps
variable {program : Program V} {nested : V → Context V → Option (Parsed V)} {ctx : Context V} {line : Text} {rest : List Text}
  {depth count fuel : Nat} {child : Option ParseObj} {objLcl : Text} {data : V} {next : Source}

theorem roomyKeeps (program : Program V) (ctx : Context V) : ∃ ctx', (roomySteps program).keep ctx = some ctx' ∧
    ctx'.source = ctx.source ∧ ctx'.buff = ctx.buff :=
  ⟨_,rfl,rfl,rfl⟩

theorem roomyIfKept (program : Program V) (ctx : Context V) : ∃ ctx', keepIfKept (roomySteps program) ctx = some ctx' ∧
    ctx'.source = ctx.source ∧ ctx'.buff = ctx.buff := by
  rw [keepIfKept]
  split
  · exact roomyKeeps program ctx
  · exact ⟨ctx,rfl,rfl,rfl⟩

theorem replayNext {source : Source} (replaying : Replaying source (line :: rest)) (clean : ∀ other ∈ line :: rest, LineRead other) :
    ∃ next, (∀ buff, source.nextLine buff = (true,line ++ [nul],next)) ∧ Replaying next rest := by
  have text := clean line List.mem_cons_self
  have ended : nul ∉ linesText (line :: rest) := by
    simp only [linesText,List.mem_flatMap,List.mem_append,not_exists,not_and]
    exact fun other member => not_or.mpr ⟨(clean other member).ended,by decide⟩
  have split : linesText (line :: rest) = line ++ '\n' :: linesText rest := by simp [linesText]
  have read : replayLine (cstr (linesText (line :: rest)) 0) = (line,some (linesText rest)) := by
    rw [cstrWhole ended, split, replayLineAt _ text.whole]
  refine ⟨{ source with replay := some (linesText rest) },fun buff => ?_,rfl,replaying.2⟩
  simp [Source.nextLine,replaying.1,read,List.take_of_length_le text.fits]

theorem replayOver {source : Source} (replaying : Replaying source []) :
    ∃ next, (∀ buff, source.nextLine buff = (true,[] ++ [nul],next)) ∧ Over next := by
  refine ⟨{ source with replay := none, stop := true },fun buff => ?_,rfl,rfl⟩
  simp [Source.nextLine,replaying.1,linesText,cstr,replayLine]

theorem overNext (spent : Over ctx.source) : nextLine ctx = (true,ctx) := by
  simp only [nextLine,Source.nextLine,spent.1,spent.2,if_true]

theorem plainStep (program : Program V) (nested : V → Context V → Option (Parsed V)) (depth : Nat) (child : Option ParseObj) (objLcl : Text)
    (count : Nat) (data : V) {ctx' : Context V} (reads : nextLine ctx = (true,ctx')) (holds : cstr ctx'.buff 0 = line)
    (plain : line.take 1 ≠ ['<']) :
    ∃ data' ctx'', ctx''.source = ctx'.source ∧ (line = [] → cstr ctx''.buff 0 = []) ∧
      readLinesWith (roomySteps program) nested depth child objLcl (count + 1) data ctx =
        readLinesWith (roomySteps program) nested depth child objLcl count data' ctx'' := by
  rw [readLinesWith, reads]
  simp only [holds,if_neg (plainNotEnd plain),if_neg plain]
  by_cases idle : ctx'.accum.isNone = true
  · rw [if_pos idle]
    refine ⟨_,(processKeyValueLine program depth (keysOf child) data ctx').2,rfl,fun empty => ?_,rfl⟩
    subst empty
    simp [processKeyValueLine,Context.logged,cutKeyValue,holds]
  · rw [if_neg idle]
    obtain ⟨kept,keeps,source,buff⟩ := roomyKeeps program ctx'
    refine ⟨data,kept,source,fun empty => by rw [buff, holds, empty],?_⟩
    rw [keeps]
    rfl

theorem overNever (spent : Over ctx.source) (empty : cstr ctx.buff 0 = []) (count : Nat) (data : V) :
    readLinesWith (roomySteps program) nested depth child objLcl count data ctx = none := by
  induction count generalizing ctx data with
  | zero => rfl
  | succ count ih =>
    obtain ⟨data',ctx',source,still,same⟩ := plainStep program nested depth child objLcl count data (overNext spent) empty (by decide)
    rw [same]
    exact ih (source ▸ spent) (still rfl) data'

theorem emptyNever (replaying : Replaying ctx.source []) (count : Nat) (data : V) :
    readLinesWith (roomySteps program) nested depth child objLcl count data ctx = none := by
  cases count with
  | zero => rfl
  | succ count =>
    obtain ⟨next,reads,spent⟩ := replayOver replaying
    obtain ⟨data',ctx',source,still,same⟩ := plainStep program nested depth child objLcl count data (nextLineHolding reads)
      (holdingLine (by decide)) (by decide)
    rw [same]
    exact overNever (source ▸ spent) (still rfl) count data'

theorem endStep (program : Program V) (nested : V → Context V → Option (Parsed V)) (depth : Nat) (child : Option ParseObj) (objLcl : Text)
    (count : Nat) (data : V) (reads : ∀ buff, ctx.source.nextLine buff = (true,line ++ [nul],next)) (text : LineRead line)
    (ends : line.take 2 = ['<', '/']) : ∃ ctx' : Context V, ctx'.source = next ∧
      readLinesWith (roomySteps program) nested depth child objLcl (count + 1) data ctx =
        if line.dropLast.length < 3 || !strcaseEq (line.dropLast.drop 2) objLcl then
          readLinesWith (roomySteps program) nested depth child objLcl count data ctx'
        else some (data,ctx') := by
  have here : cstr (holding ctx line next).buff 0 = line := holdingLine text.ended
  obtain ⟨kept,keeps,source,buff⟩ := roomyIfKept program (holding ctx line next)
  refine ⟨{ kept with buff := kept.buff.set (line.length - 1) nul },source,?_⟩
  have some_ : line ≠ [] := by
    rintro rfl
    exact absurd ends (by decide)
  have cut : cstr ((line ++ [nul]).set (line.length - 1) nul) 0 = line.dropLast := by
    obtain ⟨body,last,rfl⟩ : ∃ body last, line = body ++ [last] := ⟨_,_,(List.dropLast_append_getLast some_).symm⟩
    have ended : nul ∉ body := fun member => text.ended (List.mem_append_left _ member)
    rw [List.length_append, List.length_singleton, Nat.add_sub_cancel, List.append_assoc, List.singleton_append,
      setAfter body [nul] last nul rfl, List.dropLast_concat]
    exact cstrTerminated body [nul] ended
  have left : kept.buff = line ++ [nul] := buff
  rw [readLinesWith, nextLineHolding reads]
  simp only [here,if_pos ends,keeps,Option.bind_eq_bind,Option.bind_some,left,cut]

theorem tagStep (program : Program V) (nested : V → Context V → Option (Parsed V)) (depth : Nat) (child : Option ParseObj) (objLcl : Text)
    (count : Nat) (data : V) (reads : ∀ buff, ctx.source.nextLine buff = (true,line ++ [nul],next)) (text : LineRead line)
    (notEnd : line.take 2 ≠ ['<', '/']) (opens : line.take 1 = ['<']) :
    readLinesWith (roomySteps program) nested depth child objLcl (count + 1) data ctx =
      (nested data { holding ctx line next with allowBuffering := true }).bind fun inner =>
        readLinesWith (roomySteps program) nested depth child objLcl count inner.result
          { inner.ctx with allowBuffering := ctx.allowBuffering } := by
  rw [readLinesWith, nextLineHolding reads]
  simp only [holdingLine text.ended,if_neg notEnd,if_pos opens]
  rfl

theorem parseStep (program : Program V) {tag : CutTag} (cut : cutTag ctx.buff = some tag) (fuel : Nat) (look : Lookup)
    (depth : Nat) (parObj : Option ParseObj)
    (data : V) : ∃ (child : Option ParseObj) (data' : V) (ctx' : Context V) (finish : V × Context V → Parsed V),
      ctx'.source = ctx.source ∧ (∀ body, (finish body).ctx.source = body.2.source) ∧
      parseObjectWith (roomySteps program) program (fuel + 1) look depth parObj data ctx =
        (readLinesWith (roomySteps program) (parseObjectWith (roomySteps program) program fuel program.lookup (depth + 1) child)
          (depth + 1) child tag.obj fuel data' ctx').bind fun body => some (finish body) := by
  rw [parseObjectWith, cut]
  dsimp only
  generalize (if ctx.accum.isNone then findObject look parObj tag.obj tag.paramsLcl ctx.allowBuffering else Found.nothing) = found
  obtain ⟨kept,keeps,source⟩ : ∃ kept, keepTag (roomySteps program) found tag ctx = some kept ∧ kept.source = ctx.source := by
    rw [keepTag]
    split
    · exact ⟨_,rfl,rfl⟩
    · exact ⟨_,rfl,rfl⟩
  rw [keeps]
  refine ⟨found.child,_,kept.logged _,_,source,?_,rfl⟩
  intro body
  simp only [released,Context.logged]
  split <;> rfl

/- Reading lines to the end tag: where there is one it ends, given the turns, and it ends nowhere but behind it. -/
structure Replays (program : Program V) (lines : List Text) (fuel : Nat) (depth : Nat) (child : Option ParseObj) (objLcl : Text)
    (count : Nat) (data : V) (ctx : Context V) : Prop where
  ends : ∀ after, unwind [objLcl] lines = some after → lines.length < fuel → lines.length < count →
    ∃ result, readLinesWith (roomySteps program) (parseObjectWith (roomySteps program) program fuel program.lookup depth child)
      depth child objLcl count data ctx = some result
  behind : ∀ result, readLinesWith (roomySteps program) (parseObjectWith (roomySteps program) program fuel program.lookup depth child)
    depth child objLcl count data ctx = some result → ∃ after, unwind [objLcl] lines = some after ∧ Replaying result.2.source after

theorem objectReplays (program : Program V) (fuel : Nat) (ctx : Context V) {lines : List Text} {tag : CutTag} (cut : cutTag ctx.buff = some tag)
    (replaying : Replaying ctx.source lines)
    (inner : ∀ depth child data (ctx : Context V), Replaying ctx.source lines → Replays program lines fuel depth child tag.obj fuel data ctx)
    (look : Lookup) (depth : Nat) (parObj : Option ParseObj) (data : V) :
    (∀ after, unwind [tag.obj] lines = some after → lines.length < fuel →
      ∃ parsed, parseObjectWith (roomySteps program) program (fuel + 1) look depth parObj data ctx = some parsed) ∧
    ∀ parsed, parseObjectWith (roomySteps program) program (fuel + 1) look depth parObj data ctx = some parsed →
      ∃ after, unwind [tag.obj] lines = some after ∧ Replaying parsed.ctx.source after := by
  obtain ⟨child,data',ctx',finish,source,keepsSource,step⟩ := parseStep program cut fuel look depth parObj data
  have replays := inner (depth + 1) child data' ctx' (source ▸ replaying)
  rw [step]
  refine ⟨fun after unwinds enough => ?_,fun parsed returns => ?_⟩
  · obtain ⟨body,reads⟩ := replays.ends after unwinds enough enough
    exact ⟨finish body,by rw [reads]; rfl⟩
  · obtain ⟨body,reads,same⟩ := Option.bind_eq_some_iff.mp returns
    rw [← Option.some.inj same, keepsSource]
    exact replays.behind body reads

theorem Replays.step {data' : V} {ctx' : Context V} (goes : Replays program rest fuel depth child objLcl count data' ctx')
    (step : readLinesWith (roomySteps program) (parseObjectWith (roomySteps program) program fuel program.lookup depth child)
        depth child objLcl (count + 1) data ctx =
      readLinesWith (roomySteps program) (parseObjectWith (roomySteps program) program fuel program.lookup depth child)
        depth child objLcl count data' ctx')
    (same : unwind [objLcl] (line :: rest) = unwind [objLcl] rest) :
    Replays program (line :: rest) fuel depth child objLcl (count + 1) data ctx := by
  refine ⟨fun after unwinds turns enough => ?_,fun result returns => ?_⟩
  · rw [List.length_cons] at turns enough
    rw [step]
    exact goes.ends after (same ▸ unwinds) (by omega) (by omega)
  · rw [same]
    exact goes.behind result (step ▸ returns)

theorem linesReplay (program : Program V) (lines : List Text) (clean : ∀ line ∈ lines, LineRead line) (fuel depth : Nat)
    (child : Option ParseObj) (objLcl : Text) (count : Nat) (data : V) (ctx : Context V) (replaying : Replaying ctx.source lines) :
    Replays program lines fuel depth child objLcl count data ctx := by
  induction size : lines.length using Nat.strong_induction_on generalizing lines fuel depth child objLcl count data ctx with
  | h n ih =>
  subst size
  cases lines with
  | nil =>
    refine ⟨fun _ unwinds => absurd unwinds (Option.some_ne_none _).symm,fun result returns => ?_⟩
    rw [emptyNever replaying] at returns
    exact absurd returns (Option.some_ne_none _).symm
  | cons line rest =>
    have text := clean line List.mem_cons_self
    have others : ∀ other ∈ rest, LineRead other := fun other member => clean other (List.mem_cons_of_mem _ member)
    cases count with
    | zero => exact ⟨fun _ _ _ enough => absurd enough (Nat.not_lt_zero _),fun _ returns => absurd returns (Option.some_ne_none _).symm⟩
    | succ count =>
      obtain ⟨next,reads,replaying'⟩ := replayNext replaying clean
      have later : ∀ (data : V) (ctx : Context V), ctx.source = next → Replays program rest fuel depth child objLcl count data ctx :=
        fun data ctx source => ih rest.length (by simp) rest others _ _ _ _ _ _ _ (source ▸ replaying') rfl
      by_cases ending : line.take 2 = ['<', '/']
      · obtain ⟨ctx',source,step⟩ := endStep program (parseObjectWith (roomySteps program) program fuel program.lookup depth child)
          depth child objLcl count data reads text ending
        by_cases other : (line.dropLast.length < 3 || !strcaseEq (line.dropLast.drop 2) objLcl) = true
        · rw [if_pos other] at step
          exact (later data ctx' source).step step (by rw [unwind, if_pos ending, if_pos other])
        · rw [if_neg other] at step
          refine ⟨fun _ _ _ _ => ⟨_,step⟩,fun result returns => ⟨rest,?_,?_⟩⟩
          · rw [unwind, if_pos ending, if_neg other, unwind]
          · rw [step] at returns
            rw [← Option.some.inj returns, source]
            exact replaying'
      by_cases opening : line.take 1 = ['<']
      · have step := tagStep program (parseObjectWith (roomySteps program) program fuel program.lookup depth child) depth child objLcl count
          data reads text ending opening
        cases fuel with
        | zero =>
          refine ⟨fun _ _ turns => absurd turns (Nat.not_lt_zero _),fun result returns => ?_⟩
          rw [step] at returns
          exact absurd returns (Option.some_ne_none _).symm
        | succ fuel =>
        cases cut : cutTag (line ++ [nul]) with
        | none =>
          have left : parseObjectWith (roomySteps program) program (fuel + 1) program.lookup depth child data
              { holding ctx line next with allowBuffering := true } =
              some ⟨data,program.null,{ holding ctx line next with allowBuffering := true }⟩ := by
            rw [parseObjectWith, show cutTag ({ holding ctx line next with allowBuffering := true } : Context V).buff = none from cut]
            rfl
          rw [left, Option.bind_some] at step
          exact (later _ _ rfl).step step (by rw [unwind, if_neg ending, if_pos opening, cut])
        | some tag =>
          have unwound : unwind [objLcl] (line :: rest) = (unwind [tag.obj] rest).bind (unwind [objLcl]) := by
            rw [unwind, if_neg ending, if_pos opening, cut]
            exact unwindAppend [tag.obj] [objLcl] rest
          obtain ⟨ends,behind⟩ := objectReplays program fuel { holding ctx line next with allowBuffering := true } cut replaying'
            (fun depth child data ctx source => ih rest.length (by simp) rest others _ _ _ _ _ _ _ source rfl)
            program.lookup depth child data
          have beyond : ∀ middle, unwind [tag.obj] rest = some middle → ∀ data (ctx : Context V), Replaying ctx.source middle →
              Replays program middle (fuel + 1) depth child objLcl count data ctx := by
            intro middle inside data ctx source
            have suffix := unwindSuffix inside
            exact ih middle.length (Nat.lt_succ_of_le suffix.length_le) middle (fun other member => others other (suffix.subset member))
              _ _ _ _ _ _ _ source rfl
          refine ⟨fun after unwinds turns enough => ?_,fun result returns => ?_⟩
          · rw [List.length_cons] at turns enough
            obtain ⟨middle,inside,unwinds⟩ := Option.bind_eq_some_iff.mp (unwound ▸ unwinds)
            obtain ⟨parsed,parses⟩ := ends middle inside (by omega)
            obtain ⟨middle',inside',source⟩ := behind parsed parses
            rw [inside, Option.some.injEq] at inside'
            subst inside'
            have shorter := (unwindSuffix inside).length_le
            rw [step, parses]
            exact (beyond middle inside parsed.result { parsed.ctx with allowBuffering := ctx.allowBuffering } source).ends after
              unwinds (by omega) (by omega)
          · rw [step] at returns
            obtain ⟨parsed,parses,returns⟩ := Option.bind_eq_some_iff.mp returns
            obtain ⟨middle,inside,source⟩ := behind parsed parses
            obtain ⟨after,unwinds,left⟩ :=
              (beyond middle inside parsed.result { parsed.ctx with allowBuffering := ctx.allowBuffering } source).behind result returns
            exact ⟨after,by rw [unwound, inside, Option.bind_some, unwinds],left⟩
      · obtain ⟨data',ctx',source,-,step⟩ := plainStep program (parseObjectWith (roomySteps program) program fuel program.lookup depth child)
          depth child objLcl count data (nextLineHolding reads) (holdingLine text.ended) opening
        exact (later data' ctx' source).step step (by rw [unwind, if_neg ending, if_neg opening])

end Steps

def unread (program : Program V) (lines : List Text) (val : ParseValue) : BufferedObj V :=
  ⟨program.null,some (linesText lines),(linesText lines).length,val⟩

theorem bufferReads [DecidableEq V] (program : Program V) (look : Lookup) (val : ParseValue) (fuel : Nat) {lines : List Text} {line : Text}
    {next : Source} (reads : ∀ buff, (⟨[],some (linesText lines),false⟩ : Source).nextLine buff = (true,line ++ [nul],next)) :
    cfgForObjectBufferWith (roomySteps program) program fuel look (unread program lines val) =
      (parseObjectWith (roomySteps program) program fuel look 0 (some ⟨none,none,[{ val with cb := some .ptrCpy }]⟩) program.null
        ⟨next,line ++ [nul],none,0,false,[]⟩).bind fun parsed =>
          some ({ unread program lines val with parsedCfg := parsed.left, buff := none },parsed.ctx.log) := by
  rw [cfgForObjectBufferWith]
  simp only [unread,ne_eq,not_true,if_false,Option.bind_eq_bind,Option.bind_some,nextLine,reads]

section
variable [DecidableEq V] (program : Program V) (look : Lookup) (val : ParseValue) {lines : List Text}

theorem firstReplays {first : Text} {rest : List Text} (clean : ∀ line ∈ first :: rest, LineRead line) {tag : CutTag}
    (cut : cutTag (first ++ [nul]) = some tag) (fuel : Nat) :
    (∀ after, unwind [tag.obj] rest = some after → rest.length < fuel →
      ∃ result, cfgForObjectBufferWith (roomySteps program) program (fuel + 1) look (unread program (first :: rest) val) = some result) ∧
    ∀ result, cfgForObjectBufferWith (roomySteps program) program (fuel + 1) look (unread program (first :: rest) val) = some result →
      (unwind [tag.obj] rest).isSome = true := by
  obtain ⟨next,reads,replaying⟩ := replayNext (show Replaying ⟨[],some (linesText (first :: rest)),false⟩ _ from ⟨rfl,rfl⟩) clean
  have others : ∀ other ∈ rest, LineRead other := fun other member => clean other (List.mem_cons_of_mem _ member)
  obtain ⟨ends,behind⟩ := objectReplays program fuel ⟨next,first ++ [nul],none,0,false,[]⟩ cut replaying
    (fun depth child data ctx source => linesReplay program rest others fuel depth child tag.obj fuel data ctx source)
    look 0 (some ⟨none,none,[{ val with cb := some .ptrCpy }]⟩) program.null
  rw [bufferReads program look val _ reads]
  refine ⟨fun after unwinds enough => ?_,fun result returns => ?_⟩
  · obtain ⟨parsed,parses⟩ := ends after unwinds enough
    exact ⟨_,by rw [parses]; rfl⟩
  · obtain ⟨parsed,parses,-⟩ := Option.bind_eq_some_iff.mp returns
    obtain ⟨after,unwinds,-⟩ := behind parsed parses
    exact Option.isSome_iff_exists.mpr ⟨after,unwinds⟩

theorem aloneReturns {line : Text} {next : Source} (cut : cutTag (line ++ [nul]) = none)
    (reads : ∀ buff, (⟨[],some (linesText lines),false⟩ : Source).nextLine buff = (true,line ++ [nul],next)) :
    ∃ fuel result, cfgForObjectBufferWith (roomySteps program) program fuel look (unread program lines val) = some result := by
  refine ⟨1,?_⟩
  rw [bufferReads program look val 1 reads, parseObjectWith]
  simp only [cut]
  exact ⟨_,rfl⟩

theorem returnsCloses (clean : ∀ line ∈ lines, LineRead line) {fuel : Nat} {result : BufferedObj V × List (Call V)}
    (returns : cfgForObjectBufferWith (roomySteps program) program fuel look (unread program lines val) = some result) :
    closes lines = true := by
  cases lines with
  | nil => rfl
  | cons first rest =>
    rw [closes]
    cases cut : cutTag (first ++ [nul]) with
    | none => rfl
    | some tag =>
      cases fuel with
      | zero =>
        obtain ⟨next,reads,-⟩ := replayNext (show Replaying ⟨[],some (linesText (first :: rest)),false⟩ _ from ⟨rfl,rfl⟩) clean
        rw [bufferReads program look val 0 reads] at returns
        exact absurd returns (Option.some_ne_none _).symm
      | succ fuel => exact (firstReplays program look val clean cut fuel).2 result returns

theorem closesReturns (clean : ∀ line ∈ lines, LineRead line) (ends : closes lines = true) :
    ∃ fuel result, cfgForObjectBufferWith (roomySteps program) program fuel look (unread program lines val) = some result := by
  cases lines with
  | nil =>
    obtain ⟨next,reads,-⟩ := replayOver (show Replaying ⟨[],some (linesText []),false⟩ [] from ⟨rfl,rfl⟩)
    exact aloneReturns program look val rfl reads
  | cons first rest =>
    rw [closes] at ends
    cases cut : cutTag (first ++ [nul]) with
    | none =>
      obtain ⟨next,reads,-⟩ := replayNext (show Replaying ⟨[],some (linesText (first :: rest)),false⟩ _ from ⟨rfl,rfl⟩) clean
      exact aloneReturns program look val cut reads
    | some tag =>
      rw [cut] at ends
      obtain ⟨after,unwinds⟩ := Option.isSome_iff_exists.mp ends
      exact ⟨_,(firstReplays program look val clean cut (rest.length + 1)).1 after unwinds (Nat.lt_succ_self _)⟩

end

theorem sourceRoomy [DecidableEq V] {program : Program V} {fuel : Nat} {look : Lookup} {obj : BufferedObj V}
    {result : BufferedObj V × List (Call V)} (returns : cfgForObjectBuffer program fuel look obj = some result) :
    cfgForObjectBufferWith (roomySteps program) program fuel look obj = some result :=
  bufferExtends (roomyStepsExtend program) returns

/- Reading the object returns just when the tags of its text close. Where the source's own reader returns, it returns the same. -/
theorem replayReturnsIff [DecidableEq V] (program : Program V) (look : Lookup) (lines : List Text) (val : ParseValue)
    (clean : ∀ line ∈ lines, LineRead line) :
    ((∃ fuel result, cfgForObjectBufferWith (roomySteps program) program fuel look (unread program lines val) = some result) ↔
      closes lines = true) ∧
    ∀ fuel result, cfgForObjectBuffer program fuel look (unread program lines val) = some result →
      cfgForObjectBufferWith (roomySteps program) program fuel look (unread program lines val) = some result :=
  ⟨⟨fun ⟨_,_,returns⟩ => returnsCloses program look val clean returns,closesReturns program look val clean⟩,fun _ _ => sourceRoomy⟩

def cutOffLines : List Text := ["<net>".toList, "port=80".toList]

theorem cutOffClean : ∀ line ∈ cutOffLines, LineRead line := by
  intro line member
  rw [cutOffLines, List.mem_cons, List.mem_singleton] at member
  rcases member with rfl | rfl
  · exact ⟨by decide,by decide,by decide⟩
  · exact ⟨by decide,by decide,by decide⟩

theorem replayCutOff : (∃ fuel result, cfgForObjectBufferWith (roomySteps sampleProgram) sampleProgram fuel (fun _ _ _ => (some sampleObj,false))
    (unread sampleProgram cutOffLines sampleKey) = some result) ↔ closes cutOffLines = true :=
  (replayReturnsIff sampleProgram _ cutOffLines sampleKey cutOffClean).1

theorem cutOffNever : ¬∃ fuel result, cfgForObjectBuffer sampleProgram fuel (fun _ _ _ => (some sampleObj,false))
    (unread sampleProgram cutOffLines sampleKey) = some result := by
  rintro ⟨fuel,result,returns⟩
  have ends := returnsCloses sampleProgram _ sampleKey cutOffClean (sourceRoomy returns)
  exact absurd ends (by decide)

end LibProc.Replay
