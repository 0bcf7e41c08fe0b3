import LibProc.Config

/-! Well-nested configuration texts and what they mean. An object that is kept as text and read
again later gives the configuration and the calls that it gives when its description is known
at once. -/
namespace LibProc.ConfigTree
open Config

/- The tags of an object: the end tag need not be written as the tag that opens it. -/
structure Tag where
  name : Text
  params : Option Text
  close : Text
  deriving DecidableEq, Repr

def Tag.paramsLcl (tag : Tag) : Text := tag.params.getD []

def Tag.opening (tag : Tag) : Text := openLine tag.name tag.params

def Tag.closing (tag : Tag) : Text := ['<', '/'] ++ tag.close ++ ['>']

inductive Items where
  | nil
  | pair (line : Text) (rest : Items)
  | object (tag : Tag) (inner rest : Items)
  deriving DecidableEq, Repr

def Items.lines : Items → List Text
  | .nil => []
  | .pair line rest => line :: rest.lines
  | .object tag inner rest => tag.opening :: (inner.lines ++ tag.closing :: rest.lines)

structure LineText (line : Text) : Prop where
  ended : nul ∉ line
  whole : '\n' ∉ line
  short : line.length ≤ 1000

instance (line : Text) : Decidable (LineText line) :=
  decidable_of_iff (nul ∉ line ∧ '\n' ∉ line ∧ line.length ≤ 1000)
    ⟨fun ⟨ended,whole,short⟩ => ⟨ended,whole,short⟩,fun text => ⟨text.ended,text.whole,text.short⟩⟩

structure Tag.WellFormed (tag : Tag) : Prop where
  solid : ' ' ∉ tag.name
  opens : tag.name.take 1 ≠ ['/']
  named : tag.name ≠ []
  closes : strcaseEq tag.close tag.name = true
  openText : LineText tag.opening
  closeText : LineText tag.closing

instance (tag : Tag) : Decidable tag.WellFormed :=
  decidable_of_iff (' ' ∉ tag.name ∧ tag.name.take 1 ≠ ['/'] ∧ tag.name ≠ [] ∧
      strcaseEq tag.close tag.name = true ∧ LineText tag.opening ∧ LineText tag.closing)
    ⟨fun ⟨solid,opens,named,closes,openText,closeText⟩ => ⟨solid,opens,named,closes,openText,closeText⟩,
      fun well => ⟨well.solid,well.opens,well.named,well.closes,well.openText,well.closeText⟩⟩

/- A line that does not begin with '<' is a key and its value. -/
def Items.WellFormed : Items → Prop
  | .nil => True
  | .pair line rest => line.take 1 ≠ ['<'] ∧ LineText line ∧ rest.WellFormed
  | .object tag inner rest => tag.WellFormed ∧ inner.WellFormed ∧ rest.WellFormed

def Items.decWellFormed : (items : Items) → Decidable items.WellFormed
  | .nil => .isTrue trivial
  | .pair line rest =>
    have := rest.decWellFormed
    inferInstanceAs (Decidable (line.take 1 ≠ ['<'] ∧ LineText line ∧ rest.WellFormed))
  | .object tag inner rest =>
    have := inner.decWellFormed
    have := rest.decWellFormed
    inferInstanceAs (Decidable (tag.WellFormed ∧ inner.WellFormed ∧ rest.WellFormed))

instance (items : Items) : Decidable items.WellFormed := items.decWellFormed

def linesText (lines : List Text) : Text := lines.flatMap (· ++ ['\n'])

def Tag.lines (tag : Tag) (inner : Items) : List Text := tag.opening :: (inner.lines ++ [tag.closing])

def Yields : List Text → Source → Source → Prop
  | [], source, last => source = last
  | line :: rest, source, last =>
    ∃ next, (∀ buff, source.nextLine buff = (true,line ++ [nul],next)) ∧ Yields rest next last

theorem yieldsAppend {lines more : List Text} {source last : Source} :
    Yields (lines ++ more) source last ↔ ∃ middle, Yields lines source middle ∧ Yields more middle last := by
  induction lines generalizing source with
  | nil => simp [Yields]
  | cons line rest ih =>
    simp only [List.cons_append, Yields, ih]
    constructor
    · rintro ⟨next,reads,middle,first,second⟩
      exact ⟨middle,⟨next,reads,first⟩,second⟩
    · rintro ⟨middle,⟨next,reads,first⟩,second⟩
      exact ⟨next,reads,middle,first,second⟩

theorem yieldsObject {tag outer : Tag} {inner rest : Items} {source last : Source}
    (yields : Yields ((Items.object tag inner rest).lines ++ [outer.closing]) source last) :
    ∃ next middle, (∀ buff, source.nextLine buff = (true,tag.opening ++ [nul],next)) ∧
      Yields (inner.lines ++ [tag.closing]) next middle ∧ Yields (rest.lines ++ [outer.closing]) middle last := by
  obtain ⟨next,reads,after⟩ := yields
  have parts : (inner.lines ++ tag.closing :: rest.lines).append [outer.closing] =
      (inner.lines ++ [tag.closing]) ++ (rest.lines ++ [outer.closing]) := by simp
  rw [parts, yieldsAppend] at after
  obtain ⟨middle,within,beyond⟩ := after
  exact ⟨next,middle,reads,within,beyond⟩

section Meaning
variable {V : Type} (program : Program V)

structure Built (V : Type) where
  object : V
  parData : V
  calls : List (Call V)

def build (depth : Nat) (found : Found) (parObj : Option ParseObj) (tag : Tag) (text : Text)
    (inner : V → V × List (Call V)) (parData : V) : Built V :=
  let opened := openObject program depth found parObj tag.name tag.paramsLcl parData
  let body := if found.keeps then (opened.data,[]) else inner opened.data
  let fini := finiObject program depth found tag.name tag.paramsLcl body.1
  ⟨handed program found (if found.keeps then some text else none) fini.result,opened.parData,
    opened.calls ++ body.2 ++ fini.calls⟩

def Items.eval : Items → Nat → Option ParseObj → V → V × List (Call V)
  | .nil, _, _, data => (data,[])
  | .pair line rest, depth, child, data =>
    let cut := cutKeyValue (line ++ [nul])
    let fired := fireValue program depth (keysOf child) cut.1 cut.2.1 data
    let after := rest.eval depth child fired.result
    (after.1,fired.calls ++ after.2)
  | .object tag inner rest, depth, child, data =>
    let found := findObject program.lookup child tag.name tag.paramsLcl true
    let built := build program depth found child tag (linesText (tag.lines inner)) (inner.eval (depth + 1) found.child)
      data
    let above := deliver program depth found.curr built.object built.parData
    let after := rest.eval depth child above.result
    (after.1,built.calls ++ above.calls ++ after.2)

end Meaning

section Replay

theorem cstrWhole {text : Text} (ended : nul ∉ text) : cstr text 0 = text := by
  rw [cstr, List.drop_zero, List.takeWhile_eq_self_iff]
  exact nulClean ended

theorem replayLineAt {line : Text} (rest : Text) (whole : '\n' ∉ line) :
    replayLine (line ++ '\n' :: rest) = (line,some rest) := by
  have kept : ∀ c ∈ line, decide (c ≠ '\n') = true := by
    intro c inside
    exact decide_eq_true fun same => whole (same ▸ inside)
  have front : (line ++ '\n' :: rest).takeWhile (· ≠ '\n') = line := by
    rw [List.takeWhile_append_of_pos kept]
    simp
  have back : (line ++ '\n' :: rest).drop (line.length + 1) = rest := by
    simp [← List.drop_drop]
  simp only [replayLine, front, back]
  simp

theorem nulLinesText {lines : List Text} (clean : ∀ line ∈ lines, LineText line) : nul ∉ linesText lines := by
  simp only [linesText, List.mem_flatMap, List.mem_append, not_exists, not_and]
  intro line inside
  exact not_or.mpr ⟨(clean line inside).ended,by decide⟩

theorem replayYields {lines : List Text} (clean : ∀ line ∈ lines, LineText line) (file : Text) (stop : Bool) :
    Yields lines ⟨file,some (linesText lines),stop⟩ ⟨file,some [],stop⟩ := by
  induction lines with
  | nil => rfl
  | cons line rest ih =>
    have text := clean line (List.mem_cons_self ..)
    have others : ∀ more ∈ rest, LineText more := fun more inside => clean more (List.mem_cons_of_mem _ inside)
    refine ⟨⟨file,some (linesText rest),stop⟩,?_,ih others⟩
    intro buff
    have whole := cstrWhole (nulLinesText clean)
    have split : linesText (line :: rest) = line ++ '\n' :: linesText rest := by simp [linesText]
    have fits : line.take (buffSize - 1) = line := List.take_of_length_le (by have := text.short; simp [buffSize]; omega)
    simp only [Source.nextLine, whole]
    rw [split, replayLineAt _ text.whole]
    simp [fits]

end Replay

section Steps
variable {V : Type} {program : Program V} {nested : V → Context V → Option (Parsed V)} {depth fuel : Nat}
  {child : Option ParseObj} {objLcl line : Text} {data : V} {ctx : Context V} {next : Source}

def holding (ctx : Context V) (line : Text) (next : Source) : Context V :=
  { ctx with buff := line ++ [nul], source := next }

theorem nextLineHolding (reads : ∀ buff, ctx.source.nextLine buff = (true,line ++ [nul],next)) :
    nextLine ctx = (true,holding ctx line next) := by
  simp [nextLine, reads, holding]

theorem holdingLine (ended : nul ∉ line) : cstr (holding ctx line next).buff 0 = line :=
  cstrTerminated line [] ended

theorem holdingGathers {text : Text} (held : Gathering ctx text) (lineText : LineText line) :
    ∃ kept, accumulateLine (holding ctx line next) = some kept ∧
      Gathers (holding ctx line next) kept (text ++ line ++ ['\n']) :=
  accumulateLineGathers (holdingLine lineText.ended) lineText.short (.inr ⟨held.accum,held.room,held.least⟩)

theorem plainNotEnd (plain : line.take 1 ≠ ['<']) : line.take 2 ≠ ['<', '/'] := by
  intro both
  apply plain
  have first := congrArg (List.take 1) both
  simpa [List.take_take] using first

theorem readLinesPair (reads : ∀ buff, ctx.source.nextLine buff = (true,line ++ [nul],next)) (ended : nul ∉ line)
    (plain : line.take 1 ≠ ['<']) (idle : ctx.accum = none) :
    readLines program nested depth child objLcl (fuel + 1) data ctx =
      (let after := processKeyValueLine program depth (keysOf child) data (holding ctx line next)
       readLines program nested depth child objLcl fuel after.1 after.2) := by
  have still : (holding ctx line next).accum.isNone = true := by simp [holding, idle]
  rw [readLines, readLinesWith, nextLineHolding reads]
  simp only [holdingLine ended, if_neg (plainNotEnd plain), if_neg plain, if_pos still]
  rfl

theorem readLinesKept {text : Text} (reads : ∀ buff, ctx.source.nextLine buff = (true,line ++ [nul],next))
    (ended : nul ∉ line) (plain : line.take 1 ≠ ['<']) (held : ctx.accum = some text) :
    readLines program nested depth child objLcl (fuel + 1) data ctx =
      (accumulateLine (holding ctx line next)).bind (readLines program nested depth child objLcl fuel data) := by
  have busy : ¬(holding ctx line next).accum.isNone = true := by simp [holding, held]
  rw [readLines, readLinesWith, nextLineHolding reads]
  simp only [holdingLine ended, if_neg (plainNotEnd plain), if_neg plain, if_neg busy]
  rfl

theorem readLinesObject {tag : Tag} (well : tag.WellFormed)
    (reads : ∀ buff, ctx.source.nextLine buff = (true,tag.opening ++ [nul],next)) :
    readLines program nested depth child objLcl (fuel + 1) data ctx =
      (nested data { holding ctx tag.opening next with allowBuffering := true }).bind fun inner =>
        readLines program nested depth child objLcl fuel inner.result
          { inner.ctx with allowBuffering := ctx.allowBuffering } := by
  have opens : tag.opening.take 1 = ['<'] := by simp [Tag.opening, openLine]
  have notEnd : tag.opening.take 2 ≠ ['<', '/'] := by
    have first := well.opens
    cases named : tag.name with
    | nil => exact absurd named well.named
    | cons c rest =>
      rw [named] at first
      simpa [Tag.opening, openLine, named] using first
  rw [readLines, readLinesWith, nextLineHolding reads]
  simp only [holdingLine well.openText.ended, if_neg notEnd, if_pos opens]
  rfl

theorem closingCut (tag : Tag) :
    (tag.closing ++ [nul]).set (tag.closing.length - 1) nul = ['<', '/'] ++ tag.close ++ [nul, nul] := by
  have start : tag.closing.length - 1 = (['<', '/'] ++ tag.close).length := by simp [Tag.closing]
  have parts : tag.closing ++ [nul] = (['<', '/'] ++ tag.close) ++ '>' :: [nul] := by simp [Tag.closing]
  rw [parts, setAfter _ _ _ _ start]

theorem closingName {tag : Tag} (well : tag.WellFormed) :
    cstr (['<', '/'] ++ tag.close ++ [nul, nul]) 0 = ['<', '/'] ++ tag.close := by
  have ended : nul ∉ ['<', '/'] ++ tag.close := fun inside => well.closeText.ended (List.mem_append_left _ inside)
  exact cstrTerminated (['<', '/'] ++ tag.close) [nul] ended

theorem closeNonempty {tag : Tag} (well : tag.WellFormed) : tag.close ≠ [] := by
  intro empty
  have same : tag.close.map Char.toLower = tag.name.map Char.toLower := by
    simpa [strcaseEq] using well.closes
  rw [empty, List.map_nil] at same
  exact well.named (List.map_eq_nil_iff.mp same.symm)

theorem readLinesEnd {tag : Tag} {kept : Context V} (well : tag.WellFormed)
    (reads : ∀ buff, ctx.source.nextLine buff = (true,tag.closing ++ [nul],next))
    (gathered : keepIfKept (sourceSteps program) (holding ctx tag.closing next) = some kept) (same : kept.buff = tag.closing ++ [nul]) :
    readLines program nested depth child tag.name (fuel + 1) data ctx =
      some (data,{ kept with buff := ['<', '/'] ++ tag.close ++ [nul, nul] }) := by
  have ends : tag.closing.take 2 = ['<', '/'] := by simp [Tag.closing]
  have long : 0 < tag.close.length := List.length_pos_iff.mpr (closeNonempty well)
  have fits : (decide ((['<', '/'] ++ tag.close).length < 3) || !strcaseEq tag.close tag.name) = false := by
    rw [well.closes]
    simp
    omega
  rw [readLines, readLinesWith, nextLineHolding reads]
  simp only [holdingLine well.closeText.ended, if_pos ends, gathered, Option.bind_eq_bind, Option.bind_some, same, closingCut,
    closingName well]
  rw [show (['<', '/'] ++ tag.close).drop 2 = tag.close from rfl, fits]
  rfl

end Steps

section Runs
variable {V : Type} {program : Program V}

structure Moved (ctx ctx' : Context V) (last : Source) (calls : List (Call V)) : Prop where
  source : ctx'.source = last
  allowBuffering : ctx'.allowBuffering = ctx.allowBuffering
  log : ctx'.log = ctx.log ++ calls

/- An object that is being kept has no description, and neither has anything in it. -/
def ItemsGather (program : Program V) (items : Items) : Prop :=
  ∀ (tag : Tag) (depth fuel count : Nat) (data : V) (ctx : Context V) (text : Text) (last : Source),
    tag.WellFormed → Gathering ctx text → Yields (items.lines ++ [tag.closing]) ctx.source last →
    items.lines.length ≤ fuel → items.lines.length < count →
    ∃ ctx', readLines program (parseObject program fuel program.lookup depth none) depth none tag.name count data ctx =
        some (data,ctx') ∧
      Gathering ctx' (text ++ linesText (items.lines ++ [tag.closing])) ∧ Moved ctx ctx' last []

def ItemsRead (program : Program V) (items : Items) : Prop :=
  ∀ (tag : Tag) (depth fuel count : Nat) (child : Option ParseObj) (data : V) (ctx : Context V) (last : Source),
    tag.WellFormed → ctx.accum = none → Yields (items.lines ++ [tag.closing]) ctx.source last →
    items.lines.length ≤ fuel → items.lines.length < count →
    ∃ ctx', readLines program (parseObject program fuel program.lookup depth child) depth child tag.name count data ctx =
        some ((items.eval program depth child data).1,ctx') ∧
      ctx'.accum = none ∧ Moved ctx ctx' last (items.eval program depth child data).2

theorem tagText {tag : Tag} (well : tag.WellFormed) : TagText tag.name tag.params := by
  have ended := well.openText.ended
  refine ⟨fun inside => ended ?_,well.solid,fun text given inside => ended ?_⟩
  · simp [Tag.opening, openLine, inside]
  · simp [Tag.opening, openLine, Option.mem_def.mp given, inside]

theorem linesTextCons (line : Text) (more : List Text) : linesText (line :: more) = line ++ ['\n'] ++ linesText more := by
  simp [linesText]

def finished (program : Program V) (depth : Nat) (found : Found) (tag : Tag) (opened : Opened V) (body : V × Context V) :
    Parsed V :=
  let fini := finiObject program depth found tag.name tag.paramsLcl body.1
  let above := deliver program depth found.curr (handed program found body.2.accum fini.result) opened.parData
  ⟨above.left,above.result,(released found (body.2.logged fini.calls)).logged above.calls⟩

theorem finishedSource (depth : Nat) (found : Found) (tag : Tag) (opened : Opened V) (body : V × Context V) :
    (finished program depth found tag opened body).ctx.source = body.2.source := by
  simp only [finished, released, Context.logged]
  split <;> rfl

theorem finishedAllow (depth : Nat) (found : Found) (tag : Tag) (opened : Opened V) (body : V × Context V) :
    (finished program depth found tag opened body).ctx.allowBuffering = body.2.allowBuffering := by
  simp only [finished, released, Context.logged]
  split <;> rfl

theorem parseObjectOpened {tag : Tag} (well : tag.WellFormed) {look : Lookup} {depth fuel : Nat} {parObj : Option ParseObj}
    {parData : V} {ctx mid : Context V} {found : Found} {opened : Opened V} {body : V × Context V}
    (stored : ctx.buff = tag.opening ++ [nul])
    (finds : (if ctx.accum.isNone then findObject look parObj tag.name tag.paramsLcl ctx.allowBuffering
      else Found.nothing) = found)
    (keeps : keepTag (sourceSteps program) found (cutOf tag.name tag.params) ctx = some mid)
    (opens : openObject program depth found parObj tag.name tag.paramsLcl parData = opened)
    (reads : readLines program (parseObject program fuel program.lookup (depth + 1) found.child) (depth + 1) found.child
      tag.name fuel opened.data (mid.logged opened.calls) = some body) :
    parseObject program (fuel + 1) look depth parObj parData ctx = some (finished program depth found tag opened body) := by
  have clean := tagText well
  have params : (cutOf tag.name tag.params).paramsLcl = tag.paramsLcl := cutOfParams clean
  rw [parseObject, parseObjectWith, stored, Tag.opening, cutOpenLine clean]
  rw [readLines, parseObject] at reads
  have source : (sourceSteps program).opens opened = some opened := rfl
  simp only [cutOfObj clean, params, finds, opens, keeps, Option.bind_eq_bind, Option.bind_some, source, reads, finished]

theorem keepTagGathers {tag : Tag} (well : tag.WellFormed) {ctx : Context V} {found : Found} {text : Text}
    (keeps : (ctx.accum.isSome || found.keeps) = true) (begun : ctx.accum = none ∧ text = [] ∨ Gathering ctx text) :
    ∃ mid, keepTag (sourceSteps program) found (cutOf tag.name tag.params) ctx = some mid ∧ mid.source = ctx.source ∧
      mid.allowBuffering = ctx.allowBuffering ∧ mid.log = ctx.log ∧ Gathering mid (text ++ tag.opening ++ ['\n']) := by
  have clean := tagText well
  have line : cstr { ctx with buff := (cutOf tag.name tag.params).patched }.buff 0 = tag.opening := by
    rw [patchedOpenLine clean]
    exact cstrTerminated _ [] well.openText.ended
  have begins : ctx.accum = none ∧ text = [] ∨ Gathering { ctx with buff := (cutOf tag.name tag.params).patched } text :=
    begun.imp_right fun held => ⟨held.accum,held.room,held.least⟩
  obtain ⟨kept,gathered,goes⟩ := accumulateLineGathers line well.openText.short begins
  refine ⟨{ kept with buff := (cutOf tag.name tag.params).recut kept.buff },?_,goes.source,goes.allowBuffering,goes.log,
    ⟨goes.text.accum,goes.text.room,goes.text.least⟩⟩
  have source : (sourceSteps program).keep = accumulateLine := rfl
  rw [keepTag, if_pos keeps, source, gathered]
  rfl

theorem objectGathers {inner : Items} (gathers : ItemsGather program inner) {tag : Tag} (well : tag.WellFormed)
    (look : Lookup) (depth : Nat) (parData : V) {fuel : Nat} {ctx : Context V} {text : Text} {last : Source}
    (stored : ctx.buff = tag.opening ++ [nul]) (held : Gathering ctx text)
    (yields : Yields (inner.lines ++ [tag.closing]) ctx.source last) (enough : inner.lines.length + 2 ≤ fuel) :
    ∃ ctx', parseObject program fuel look depth none parData ctx = some ⟨parData,parData,ctx'⟩ ∧
      Gathering ctx' (text ++ linesText (tag.lines inner)) ∧ Moved ctx ctx' last [] := by
  obtain ⟨f,rfl⟩ : ∃ f, fuel = f + 1 := ⟨fuel - 1,by omega⟩
  have busy : (if ctx.accum.isNone then findObject look none tag.name tag.paramsLcl ctx.allowBuffering
      else Found.nothing) = Found.nothing := by simp [held.accum]
  have keeping : (ctx.accum.isSome || Found.nothing.keeps) = true := by simp [held.accum]
  have opens : openObject program depth Found.nothing none tag.name tag.paramsLcl parData =
      ⟨program.null,parData,(program.null,parData),[]⟩ := rfl
  obtain ⟨mid,keeps,source,allow,log,full⟩ := keepTagGathers well keeping (.inr held)
  obtain ⟨ctx',read,all,moved⟩ := gathers tag (depth + 1) f f program.null (mid.logged []) (text ++ tag.opening ++ ['\n'])
    last well ⟨full.accum,full.room,full.least⟩ (by rw [← source] at yields; exact yields) (by omega) (by omega)
  refine ⟨(ctx'.logged []).logged [],?_,?_,?_⟩
  · rw [parseObjectOpened well stored busy keeps opens read]
    rfl
  · have whole : text ++ linesText (tag.lines inner) =
        text ++ tag.opening ++ ['\n'] ++ linesText (inner.lines ++ [tag.closing]) := by
      simp [Tag.lines, linesTextCons]
    rw [whole]
    exact ⟨all.accum,all.room,all.least⟩
  · refine ⟨moved.source,moved.allowBuffering.trans allow,?_⟩
    have same := moved.log
    simp only [Context.logged, List.append_nil] at same ⊢
    exact same.trans log

theorem itemsGather (program : Program V) {items : Items} (well : items.WellFormed) : ItemsGather program items := by
  induction items with
  | nil =>
    intro tag depth fuel count data ctx text last closed held yields enough more
    obtain ⟨next,reads,rfl⟩ := yields
    obtain ⟨n,rfl⟩ : ∃ n, count = n + 1 := ⟨count - 1,by omega⟩
    obtain ⟨kept,gathered,goes⟩ := holdingGathers held closed.closeText
    have busy : (holding ctx tag.closing next).accum.isSome = true := by simp [holding, held.accum]
    have ending : keepIfKept (sourceSteps program) (holding ctx tag.closing next) = some kept := by
      rw [keepIfKept, if_pos busy]
      exact gathered
    have whole : text ++ linesText (Items.nil.lines ++ [tag.closing]) = text ++ tag.closing ++ ['\n'] := by
      simp [linesText, Items.lines]
    refine ⟨_,readLinesEnd closed reads ending goes.buff,?_,goes.source,goes.allowBuffering,?_⟩
    · rw [whole]
      exact ⟨goes.text.accum,goes.text.room,goes.text.least⟩
    · exact goes.log.trans (List.append_nil _).symm
  | pair line rest ih =>
    intro tag depth fuel count data ctx text last closed held yields enough more
    obtain ⟨plain,lineText,restWell⟩ := well
    obtain ⟨next,reads,after⟩ := yields
    obtain ⟨n,rfl⟩ : ∃ n, count = n + 1 := ⟨count - 1,by omega⟩
    simp only [Items.lines, List.length_cons] at enough more
    obtain ⟨kept,gathered,goes⟩ := holdingGathers held lineText
    obtain ⟨ctx',read,full,moved⟩ := ih restWell tag depth fuel n data kept _ last closed goes.text
      (by rw [goes.source]; exact after) (by omega) (by omega)
    refine ⟨ctx',?_,?_,moved.source,moved.allowBuffering.trans goes.allowBuffering,?_⟩
    · rw [readLinesKept reads lineText.ended plain held.accum, gathered]
      exact read
    · simpa [Items.lines, linesTextCons] using full
    · exact moved.log.trans (congrArg (· ++ []) goes.log)
  | object tag inner rest innerIh restIh =>
    intro outer depth fuel count data ctx text last closed held yields enough more
    obtain ⟨tagWell,innerWell,restWell⟩ := well
    obtain ⟨next,middle,reads,within,beyond⟩ := yieldsObject yields
    obtain ⟨n,rfl⟩ : ∃ n, count = n + 1 := ⟨count - 1,by omega⟩
    simp only [Items.lines, List.length_cons, List.length_append] at enough more
    have opening : Gathering { holding ctx tag.opening next with allowBuffering := true } text :=
      ⟨held.accum,held.room,held.least⟩
    obtain ⟨innerCtx,parsed,innerFull,innerMoved⟩ := objectGathers (innerIh innerWell) tagWell program.lookup depth data rfl
      opening within (show inner.lines.length + 2 ≤ fuel by omega)
    obtain ⟨ctx',read,full,moved⟩ := restIh restWell outer depth fuel n data
      { innerCtx with allowBuffering := ctx.allowBuffering } _ last closed
      ⟨innerFull.accum,innerFull.room,innerFull.least⟩ (by rw [innerMoved.source]; exact beyond) (by omega) (by omega)
    refine ⟨ctx',?_,?_,moved.source,moved.allowBuffering,?_⟩
    · rw [readLinesObject tagWell reads, parsed]
      exact read
    · simpa [Items.lines, Tag.lines, linesText] using full
    · exact moved.log.trans (congrArg (· ++ []) (innerMoved.log.trans (List.append_nil _)))

theorem keepsChild {found : Found} (keeps : found.keeps = true) : found.child = none := by
  simp only [Found.keeps, Bool.and_eq_true, Option.isNone_iff_eq_none] at keeps
  exact keeps.1

/- An object read outside of a kept text: it is built, or its lines are kept from here to its end. -/
theorem objectReads {inner : Items} (readable : ItemsRead program inner) (gathers : ItemsGather program inner) {tag : Tag}
    (well : tag.WellFormed) (look : Lookup) (depth : Nat) (parObj : Option ParseObj) (parData : V) {fuel : Nat}
    {ctx : Context V} {last : Source} {found : Found} {built : Built V} {above : Fired V}
    (stored : ctx.buff = tag.opening ++ [nul]) (idle : ctx.accum = none)
    (yields : Yields (inner.lines ++ [tag.closing]) ctx.source last) (enough : inner.lines.length + 2 ≤ fuel)
    (finds : findObject look parObj tag.name tag.paramsLcl ctx.allowBuffering = found)
    (builds : build program depth found parObj tag (linesText (tag.lines inner)) (inner.eval program (depth + 1) found.child)
      parData = built)
    (delivers : deliver program depth found.curr built.object built.parData = above) :
    ∃ ctx', parseObject program fuel look depth parObj parData ctx = some ⟨above.left,above.result,ctx'⟩ ∧
      ctx'.accum = none ∧ Moved ctx ctx' last (built.calls ++ above.calls) := by
  obtain ⟨f,rfl⟩ : ∃ f, fuel = f + 1 := ⟨fuel - 1,by omega⟩
  have free : (if ctx.accum.isNone then findObject look parObj tag.name tag.paramsLcl ctx.allowBuffering
      else Found.nothing) = found := by simpa [idle] using finds
  obtain ⟨opened,opens⟩ : ∃ opened, openObject program depth found parObj tag.name tag.paramsLcl parData = opened :=
    ⟨_,rfl⟩
  cases keeps : found.keeps with
  | true =>
    have bare := keepsChild keeps
    have begins : (ctx.accum.isSome || found.keeps) = true := by simp [keeps]
    obtain ⟨mid,keeping,source,allow,log,full⟩ := keepTagGathers well begins (.inl ⟨idle,rfl⟩)
    obtain ⟨ctx',read,all,moved⟩ := gathers tag (depth + 1) f f opened.data (mid.logged opened.calls) _ last well
      ⟨full.accum,full.room,full.least⟩ (by rw [← source] at yields; exact yields) (by omega) (by omega)
    have whole : ctx'.accum = some (linesText (tag.lines inner)) := by
      simpa [Tag.lines, linesTextCons] using all.accum
    rw [← bare] at read
    subst builds delivers
    refine ⟨(finished program depth found tag opened (opened.data,ctx')).ctx,?_,?_,(finishedSource ..).trans moved.source,
      (finishedAllow ..).trans (moved.allowBuffering.trans allow),?_⟩
    · rw [parseObjectOpened well stored free keeping opens read]
      simp only [finished, build, opens, keeps, if_true, whole]
    · simp [finished, released, keeps, Context.logged]
    · have same := moved.log
      simp only [finished, build, opens, keeps, if_true, finiObject, bare, Option.bind_none, fire, released, Context.logged,
        List.append_nil, whole] at same ⊢
      rw [same, log, List.append_assoc]
  | false =>
    have keeping : keepTag (sourceSteps program) found (cutOf tag.name tag.params) ctx =
      some { ctx with buff := (cutOf tag.name tag.params).buff } := by
      simp [keepTag, idle, keeps]
    obtain ⟨ctx',read,still,moved⟩ := readable tag (depth + 1) f f found.child opened.data
      ({ ctx with buff := (cutOf tag.name tag.params).buff }.logged opened.calls) last well idle yields (by omega) (by omega)
    subst builds delivers
    refine ⟨(finished program depth found tag opened ((inner.eval program (depth + 1) found.child opened.data).1,ctx')).ctx,
      ?_,?_,(finishedSource ..).trans moved.source,(finishedAllow ..).trans moved.allowBuffering,?_⟩
    · rw [parseObjectOpened well stored free keeping opens read]
      simp only [finished, build, opens, keeps, Bool.false_eq_true, if_false, still]
    · simpa [finished, released, keeps, Context.logged] using still
    · have same := moved.log
      simp only [finished, build, opens, keeps, Bool.false_eq_true, if_false, released, Context.logged, still] at same ⊢
      rw [same]
      simp

theorem itemsRead (program : Program V) {items : Items} (well : items.WellFormed) : ItemsRead program items := by
  induction items with
  | nil =>
    intro tag depth fuel count child data ctx last closed idle yields enough more
    obtain ⟨next,reads,rfl⟩ := yields
    obtain ⟨n,rfl⟩ : ∃ n, count = n + 1 := ⟨count - 1,by omega⟩
    have ending : keepIfKept (sourceSteps program) (holding ctx tag.closing next) = some (holding ctx tag.closing next) := by
      simp [keepIfKept, holding, idle]
    exact ⟨_,readLinesEnd closed reads ending rfl,idle,rfl,rfl,(List.append_nil _).symm⟩
  | pair line rest ih =>
    intro tag depth fuel count child data ctx last closed idle yields enough more
    obtain ⟨plain,lineText,restWell⟩ := well
    obtain ⟨next,reads,after⟩ := yields
    obtain ⟨n,rfl⟩ : ∃ n, count = n + 1 := ⟨count - 1,by omega⟩
    simp only [Items.lines, List.length_cons] at enough more
    obtain ⟨value,process⟩ : ∃ value, processKeyValueLine program depth (keysOf child) data (holding ctx line next) = value :=
      ⟨_,rfl⟩
    have source : value.2.source = next := by rw [← process]; rfl
    obtain ⟨ctx',read,still,moved⟩ := ih restWell tag depth fuel n child value.1 value.2 last closed
      (by rw [← process]; exact idle) (by rw [source]; exact after) (by omega) (by omega)
    refine ⟨ctx',?_,still,moved.source,?_,?_⟩
    · rw [readLinesPair reads lineText.ended plain idle]
      simp only [process]
      rw [read, ← process]
      rfl
    · rw [moved.allowBuffering, ← process]
      rfl
    · rw [moved.log, ← process]
      simp [processKeyValueLine, Context.logged, holding, Items.eval]
  | object tag inner rest innerIh restIh =>
    intro outer depth fuel count child data ctx last closed idle yields enough more
    obtain ⟨tagWell,innerWell,restWell⟩ := well
    obtain ⟨next,middle,reads,within,beyond⟩ := yieldsObject yields
    obtain ⟨n,rfl⟩ : ∃ n, count = n + 1 := ⟨count - 1,by omega⟩
    simp only [Items.lines, List.length_cons, List.length_append] at enough more
    have opening : ({ holding ctx tag.opening next with allowBuffering := true } : Context V).accum = none := idle
    obtain ⟨innerCtx,parsed,innerIdle,innerMoved⟩ := objectReads (innerIh innerWell) (itemsGather program innerWell) tagWell
      program.lookup depth child data rfl opening within (show inner.lines.length + 2 ≤ fuel by omega) rfl rfl rfl
    obtain ⟨ctx',read,still,moved⟩ := restIh restWell outer depth fuel n child _
      { innerCtx with allowBuffering := ctx.allowBuffering } last closed innerIdle
      (by rw [innerMoved.source]; exact beyond) (by omega) (by omega)
    refine ⟨ctx',?_,still,moved.source,moved.allowBuffering,?_⟩
    · rw [readLinesObject tagWell reads, parsed]
      exact read
    · rw [moved.log, innerMoved.log]
      simp only [holding, Items.eval, List.append_assoc]

end Runs

section Depths
variable {V : Type} (program : Program V)

theorem fireDepth {depth : Nat} {cb : Option ParseCB} {key : Text} {value : Value V} {data : V} :
    ∀ call ∈ (fire program depth cb key value data).calls, call.depth = depth := by
  cases cb with
  | none => simp [fire]
  | some cb => simp [fire]

theorem fireValueDepth {depth : Nat} {keys : List ParseValue} {key : Text} {value : Option Text} {data : V} :
    ∀ call ∈ (fireValue program depth keys key value data).calls, call.depth = depth := by
  unfold fireValue
  split
  · simp
  · split
    · simp
    · exact fireDepth program

theorem deliverDepth {depth : Nat} {curr : Option ParseValue} {data parData : V} :
    ∀ call ∈ (deliver program depth curr data parData).calls, call.depth = depth := by
  cases curr with
  | none => simp [deliver]
  | some key => exact fireDepth program

theorem buildDepth {depth : Nat} {found : Found} {parObj : Option ParseObj} {tag : Tag} {text : Text}
    {inner : V → V × List (Call V)} {parData : V} (deep : ∀ data, ∀ call ∈ (inner data).2, depth + 1 ≤ call.depth) :
    ∀ call ∈ (build program depth found parObj tag text inner parData).calls, depth ≤ call.depth := by
  intro call inside
  simp only [build, openObject, fireKey, finiObject, List.mem_append] at inside
  rcases inside with (((first | second) | third) | body) | last
  · have := fireDepth program call first; omega
  · have := fireDepth program call second; omega
  · have := fireDepth program call third; omega
  · split at body
    · simp at body
    · have := deep _ call body; omega
  · have := fireDepth program call last; omega

theorem evalDepth (items : Items) :
    ∀ (depth : Nat) (child : Option ParseObj) (data : V), ∀ call ∈ (items.eval program depth child data).2,
      depth ≤ call.depth := by
  induction items with
  | nil => simp [Items.eval]
  | pair line rest ih =>
    intro depth child data call inside
    simp only [Items.eval, List.mem_append] at inside
    rcases inside with here | later
    · exact (fireValueDepth program call here).ge
    · exact ih depth child _ call later
  | object tag inner rest innerIh restIh =>
    intro depth child data call inside
    simp only [Items.eval, List.mem_append] at inside
    rcases inside with (made | above) | later
    · exact buildDepth program (innerIh (depth + 1) _) call made
    · exact (deliverDepth program call above).ge
    · exact restIh depth child _ call later

end Depths

section Meanings
variable {V : Type} (program : Program V)

def onObject (calls : List (Call V)) : List (Call V) := calls.filter (fun call => 1 ≤ call.depth)

theorem onObjectAppend (calls more : List (Call V)) : onObject (calls ++ more) = onObject calls ++ onObject more :=
  List.filter_append ..

theorem onObjectAll {calls : List (Call V)} (deep : ∀ call ∈ calls, 1 ≤ call.depth) : onObject calls = calls :=
  List.filter_eq_self.mpr fun call inside => decide_eq_true (deep call inside)

theorem onObjectNone {calls : List (Call V)} (shallow : ∀ call ∈ calls, call.depth = 0) : onObject calls = [] :=
  List.filter_eq_nil_iff.mpr fun call inside => by simp [shallow call inside]

def meaning (description : ParseObj) (tag : Tag) (inner : Items) : V × List (Call V) :=
  let init := fire program 1 description.initCb tag.name (.string tag.paramsLcl) program.null
  let type := fireKey program 1 description.keys typeKey (.string tag.paramsLcl) init.result
  let body := inner.eval program 1 (some description) type.left
  let fini := fire program 1 description.finiCb tag.name (.string tag.paramsLcl) body.1
  (fini.result,init.calls ++ type.calls ++ body.2 ++ fini.calls)

/- An object whose description is known is wrapped all the same when its lookup asks for it. -/
def wrapped (key : ParseValue) (flag : Bool) (cfg : V) : V :=
  if flag then program.buffered ⟨cfg,none,0,key⟩ else cfg

variable {program}

theorem onObjectOwn {cb : Option ParseCB} {name : Text} {value : Value V} {data : V} :
    onObject (fire program 1 cb name value data).calls = (fire program 1 cb name value data).calls :=
  onObjectAll fun call inside => (fireDepth program call inside).ge

theorem onObjectEnclosing {cb : Option ParseCB} {name : Text} {value : Value V} {data : V} :
    onObject (fire program 0 cb name value data).calls = [] :=
  onObjectNone (fireDepth program)

theorem builtKnown {found : Found} {parObj : Option ParseObj} {tag : Tag} {text : Text} {inner : Items} {parData : V}
    {description : ParseObj} {key : ParseValue} {flag : Bool} {built : Built V}
    (builds : build program 0 found parObj tag text (inner.eval program 1 found.child) parData = built)
    (known : found.child = some description) (wraps : found.objBuff = if flag then some key else none) :
    built.object = wrapped program key flag (meaning program description tag inner).1 ∧
      onObject built.calls = (meaning program description tag inner).2 := by
  have keeps : found.keeps = false := by simp [Found.keeps, known]
  subst builds
  simp only [build, keeps, Bool.false_eq_true, if_false, openObject, finiObject, known, Option.bind_some, fireKey, keysOf,
    Option.map_some, Option.getD_some]
  constructor
  · cases flag with
    | true => simp [handed, wraps, known, wrapped, meaning, fireKey]
    | false => simp [handed, wraps, wrapped, meaning, fireKey]
  · simp only [onObjectAppend, Nat.zero_add, onObjectOwn, onObjectEnclosing, List.append_nil,
      onObjectAll (evalDepth program inner 1 _ _)]
    rfl

theorem builtKept {found : Found} {parObj : Option ParseObj} {tag : Tag} {text : Text} {inner : V → V × List (Call V)}
    {parData : V} {key : ParseValue} {built : Built V} (builds : build program 0 found parObj tag text inner parData = built)
    (unknown : found.child = none) (wraps : found.objBuff = some key) :
    built.object = program.buffered ⟨program.null,some text,text.length,key⟩ ∧ onObject built.calls = [] := by
  have keeps : found.keeps = true := by simp [Found.keeps, unknown, wraps]
  subst builds
  simp only [build, keeps, if_true, openObject, finiObject, unknown, Option.bind_none, fireKey, keysOf, Option.map_none,
    Option.getD_none]
  constructor
  · simp [handed, wraps, unknown]
  · simp only [onObjectAppend, Nat.zero_add, onObjectOwn, onObjectEnclosing, List.append_nil]
    rfl

def Delivers (program : Program V) (fuel : Nat) (look : Lookup) (par : ParseObj) (key : ParseValue) (parData : V)
    (ctx : Context V) (last : Source) (object above : V) (calls : List (Call V)) : Prop :=
  ∃ ctx' earlier,
    let fired := fire program 0 key.cb key.name (.pointer object) above
    parseObject program fuel look 0 (some par) parData ctx = some ⟨fired.left,fired.result,ctx'⟩ ∧
      ctx'.source = last ∧ ctx'.log = ctx.log ++ (earlier ++ fired.calls) ∧ onObject earlier = calls

theorem foundTag {look : Lookup} {par : ParseObj} {key : ParseValue} {tag : Tag} {lookupCb : Nat} {allow flag : Bool}
    {child : Option ParseObj} (named : findKey par.keys tag.name = some key) (looks : key.lookupCb = some lookupCb)
    (answer : look lookupCb tag.paramsLcl allow = (child,flag)) :
    findObject look (some par) tag.name tag.paramsLcl allow =
      ⟨some key,(typePrefix ++ tag.name).take 255,child,if flag then some key else none⟩ := by
  have keys : findKey (keysOf (some par)) tag.name = some key := named
  simp only [findObject, keys, looks, answer]

def kept (program : Program V) (key : ParseValue) (tag : Tag) (inner : Items) : BufferedObj V :=
  ⟨program.null,some (linesText (tag.lines inner)),(linesText (tag.lines inner)).length,key⟩

def aboveTag (program : Program V) (par : ParseObj) (tag : Tag) (parData : V) : V :=
  (fireKey program 0 par.keys ((typePrefix ++ tag.name).take 255) (.string tag.paramsLcl) parData).left

variable {par : ParseObj} {key : ParseValue} {lookupCb : Nat} {tag : Tag} {inner : Items}

theorem deliversTag (tagWell : tag.WellFormed) (innerWell : inner.WellFormed) {look : Lookup} {child : Option ParseObj}
    {objBuff : Option ParseValue} {ctx : Context V} {last : Source} {parData object : V} {calls : List (Call V)} {fuel : Nat}
    (finds : findObject look (some par) tag.name tag.paramsLcl ctx.allowBuffering =
      ⟨some key,(typePrefix ++ tag.name).take 255,child,objBuff⟩)
    (stored : ctx.buff = tag.opening ++ [nul]) (idle : ctx.accum = none)
    (yields : Yields (inner.lines ++ [tag.closing]) ctx.source last) (enough : inner.lines.length + 2 ≤ fuel)
    (builds : ∀ built, build program 0 ⟨some key,(typePrefix ++ tag.name).take 255,child,objBuff⟩ (some par) tag
      (linesText (tag.lines inner)) (inner.eval program 1 child) parData = built →
        built.object = object ∧ onObject built.calls = calls) :
    Delivers program fuel look par key parData ctx last object (aboveTag program par tag parData) calls := by
  obtain ⟨ctx',parsed,_,moved⟩ := objectReads (itemsRead program innerWell) (itemsGather program innerWell) tagWell look 0
    (some par) parData stored idle yields enough finds rfl rfl
  obtain ⟨same,made⟩ := builds _ rfl
  refine ⟨ctx',_,?_,moved.source,?_,made⟩
  · rw [parsed, same]
    rfl
  · rw [moved.log, same]
    rfl

theorem deliversKnown (tagWell : tag.WellFormed) (innerWell : inner.WellFormed)
    (named : findKey par.keys tag.name = some key) (looks : key.lookupCb = some lookupCb) {look : Lookup}
    {description : ParseObj} {flag : Bool} {ctx : Context V} {last : Source} {parData : V} {fuel : Nat}
    (known : look lookupCb tag.paramsLcl ctx.allowBuffering = (some description,flag))
    (stored : ctx.buff = tag.opening ++ [nul]) (idle : ctx.accum = none)
    (yields : Yields (inner.lines ++ [tag.closing]) ctx.source last) (enough : inner.lines.length + 2 ≤ fuel) :
    Delivers program fuel look par key parData ctx last
      (wrapped program key flag (meaning program description tag inner).1) (aboveTag program par tag parData)
      (meaning program description tag inner).2 :=
  deliversTag tagWell innerWell (foundTag named looks known) stored idle yields enough
    fun _ builds => builtKnown builds rfl rfl

theorem deliversKept (tagWell : tag.WellFormed) (innerWell : inner.WellFormed)
    (named : findKey par.keys tag.name = some key) (looks : key.lookupCb = some lookupCb) {look : Lookup}
    {ctx : Context V} {last : Source} {parData : V} {fuel : Nat}
    (unknown : look lookupCb tag.paramsLcl ctx.allowBuffering = (none,true))
    (stored : ctx.buff = tag.opening ++ [nul]) (idle : ctx.accum = none)
    (yields : Yields (inner.lines ++ [tag.closing]) ctx.source last) (enough : inner.lines.length + 2 ≤ fuel) :
    Delivers program fuel look par key parData ctx last (program.buffered (kept program key tag inner))
      (aboveTag program par tag parData) [] :=
  deliversTag tagWell innerWell (foundTag named looks unknown) stored idle yields enough
    fun _ builds => builtKept builds rfl rfl

theorem linesClean (items : Items) (well : items.WellFormed) : ∀ line ∈ items.lines, LineText line := by
  induction items with
  | nil => simp [Items.lines]
  | pair line rest ih =>
    obtain ⟨_,lineText,restWell⟩ := well
    simp only [Items.lines, List.forall_mem_cons]
    exact ⟨lineText,ih restWell⟩
  | object tag inner rest innerIh restIh =>
    obtain ⟨tagWell,innerWell,restWell⟩ := well
    simp only [Items.lines, List.forall_mem_cons, List.forall_mem_append]
    exact ⟨tagWell.openText,innerIh innerWell,tagWell.closeText,restIh restWell⟩

theorem tagLinesClean (tagWell : tag.WellFormed) (innerWell : inner.WellFormed) :
    ∀ line ∈ tag.lines inner, LineText line := by
  simp only [Tag.lines, List.forall_mem_cons, List.forall_mem_append]
  exact ⟨tagWell.openText,linesClean inner innerWell,tagWell.closeText,by simp⟩

variable [DecidableEq V]

theorem replayKept (program : Program V) (tagWell : tag.WellFormed) (innerWell : inner.WellFormed)
    (named : findKey par.keys tag.name = some key) (looks : key.lookupCb = some lookupCb) {look : Lookup}
    {description : ParseObj} {flag : Bool} {fuel : Nat}
    (known : look lookupCb tag.paramsLcl false = (some description,flag)) (enough : inner.lines.length + 2 ≤ fuel) :
    ∃ log, cfgForObjectBuffer program fuel look (kept program key tag inner) =
        some ({ kept program key tag inner with
          parsedCfg := wrapped program { key with cb := some .ptrCpy } flag (meaning program description tag inner).1
          buff := none },log) ∧
      onObject log = (meaning program description tag inner).2 := by
  obtain ⟨next,reads,yields⟩ := replayYields (tagLinesClean tagWell innerWell) [] false
  have fake : findKey [{ key with cb := some ParseCB.ptrCpy }] tag.name = some { key with cb := some .ptrCpy } := by
    simp [findKey, findKeyNamed named]
  have same : ({ key with cb := some ParseCB.ptrCpy } : ParseValue).lookupCb = some lookupCb := looks
  have delivered : Delivers program fuel look ⟨none,none,[{ key with cb := some .ptrCpy }]⟩ { key with cb := some .ptrCpy }
      program.null (holding ⟨⟨[],some (linesText (tag.lines inner)),false⟩,[],none,0,false,[]⟩ tag.opening next)
      ⟨[],some [],false⟩ _ _ _ :=
    deliversKnown tagWell innerWell fake same known rfl rfl yields enough
  obtain ⟨ctx',earlier,parsed,_,log,calls⟩ := delivered
  refine ⟨ctx'.log,?_,?_⟩
  · rw [parseObject] at parsed
    rw [cfgForObjectBuffer, cfgForObjectBufferWith]
    simp only [kept, ne_eq, not_true_eq_false, if_false, Option.bind_eq_bind, Option.bind_some]
    rw [nextLineHolding reads]
    simp only [parsed, Option.bind_some]
    rfl
  · rw [log, onObjectAppend, onObjectAppend, calls, onObjectEnclosing, List.append_nil]
    rfl

/- The three readings of one object: with its description known, kept as text, and from that text
once the description is known. The configuration and the calls on the object are the same. -/
theorem keptMeansDirect (program : Program V) (par : ParseObj) (key : ParseValue) (lookupCb : Nat) (tag : Tag)
    (inner : Items) (description : ParseObj) (direct now later : Lookup) (directFlag laterFlag : Bool) (ctx : Context V)
    (last : Source) (parData : V) (tagWell : tag.WellFormed) (innerWell : inner.WellFormed)
    (named : findKey par.keys tag.name = some key) (looks : key.lookupCb = some lookupCb)
    (known : direct lookupCb tag.paramsLcl ctx.allowBuffering = (some description,directFlag))
    (unknown : now lookupCb tag.paramsLcl ctx.allowBuffering = (none,true))
    (learnt : later lookupCb tag.paramsLcl false = (some description,laterFlag))
    (stored : ctx.buff = tag.opening ++ [nul]) (idle : ctx.accum = none)
    (yields : Yields (inner.lines ++ [tag.closing]) ctx.source last) :
    ∀ fuel, inner.lines.length + 2 ≤ fuel →
      Delivers program fuel direct par key parData ctx last
        (wrapped program key directFlag (meaning program description tag inner).1) (aboveTag program par tag parData)
        (meaning program description tag inner).2 ∧
      ∃ buffered,
        Delivers program fuel now par key parData ctx last (program.buffered buffered) (aboveTag program par tag parData) [] ∧
        ∃ after log, cfgForObjectBuffer program fuel later buffered = some (after,log) ∧
          after.parsedCfg = wrapped program { key with cb := some .ptrCpy } laterFlag
            (meaning program description tag inner).1 ∧
          onObject log = (meaning program description tag inner).2 := by
  intro fuel enough
  obtain ⟨log,replayed,calls⟩ := replayKept program tagWell innerWell named looks learnt enough
  refine ⟨deliversKnown tagWell innerWell named looks known stored idle yields enough,kept program key tag inner,?_,?_⟩
  · exact deliversKept tagWell innerWell named looks unknown stored idle yields enough
  · exact ⟨_,log,replayed,rfl,calls⟩

end Meanings

def sampleTag : Tag := ⟨"net".toList,some "a b".toList,"NET".toList⟩

def sampleItems : Items :=
  .pair "port=80".toList (.object ⟨"host".toList,none,"host".toList⟩ (.pair "x=1".toList .nil) .nil)

def sampleKey : ParseValue := ⟨"Net".toList,some 0,some (.user 0)⟩

def sampleObj : ParseObj :=
  ⟨some (.user 1),some (.user 2),[⟨"port".toList,none,some (.user 3)⟩, ⟨"host".toList,some 1,some (.user 4)⟩]⟩

def sampleProgram : Program Nat where
  null := 0
  buffered obj := 100 + obj.len
  string text := (text.getD []).length
  lookup _ _ allow := (none,allow)
  run n _ _ data := (data + 1,data + n)

def sampleContext : Context Nat where
  source := ⟨"  port=80\n# note\n<host>\n\n\tx=1\r\n</host>\n</NET>\nlast\n".toList,none,false⟩
  buff := "<net a b>".toList ++ [nul]
  accum := none
  len := 0
  allowBuffering := true
  log := []

theorem sampleMeansDirect :
    Delivers sampleProgram 6 (fun _ _ _ => (some sampleObj,true)) ⟨none,none,[sampleKey]⟩ sampleKey 7 sampleContext
      ⟨"last\n".toList,none,false⟩
      (wrapped sampleProgram sampleKey true (meaning sampleProgram sampleObj sampleTag sampleItems).1)
      (aboveTag sampleProgram ⟨none,none,[sampleKey]⟩ sampleTag 7) (meaning sampleProgram sampleObj sampleTag sampleItems).2 ∧
    ∃ buffered,
      Delivers sampleProgram 6 (fun _ _ _ => (none,true)) ⟨none,none,[sampleKey]⟩ sampleKey 7 sampleContext
        ⟨"last\n".toList,none,false⟩ (sampleProgram.buffered buffered) (aboveTag sampleProgram ⟨none,none,[sampleKey]⟩ sampleTag 7) [] ∧
      ∃ after log, cfgForObjectBuffer sampleProgram 6 (fun _ _ _ => (some sampleObj,false)) buffered = some (after,log) ∧
        after.parsedCfg = wrapped sampleProgram { sampleKey with cb := some .ptrCpy } false
          (meaning sampleProgram sampleObj sampleTag sampleItems).1 ∧
        onObject log = (meaning sampleProgram sampleObj sampleTag sampleItems).2 :=
  keptMeansDirect sampleProgram ⟨none,none,[sampleKey]⟩ sampleKey 0 sampleTag sampleItems sampleObj
    (fun _ _ _ => (some sampleObj,true)) (fun _ _ _ => (none,true)) (fun _ _ _ => (some sampleObj,false)) true false
    sampleContext ⟨"last\n".toList,none,false⟩ 7 (by decide) (by decide) (by decide) rfl rfl rfl rfl rfl rfl
    ⟨_,fun _ => rfl,_,fun _ => rfl,_,fun _ => rfl,_,fun _ => rfl,_,fun _ => rfl,rfl⟩ 6 (by decide)

end LibProc.ConfigTree
