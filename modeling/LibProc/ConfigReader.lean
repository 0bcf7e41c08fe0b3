import LibProc.ConfigTree

/-! The configuration reader with one set of steps and with another: a run that comes back with steps that stop earlier comes back
with the same. With steps that never stop it comes back from every file, as each line takes a character of it at least. -/
namespace LibProc.ConfigReader
open Config ConfigTree

variable {V : Type}

section Extending
variable {steps wider : Steps V} {program : Program V}

def Extends {α β : Type} (first second : α → Option β) : Prop := ∀ a b, first a = some b → second a = some b

structure StepsExtend (steps wider : Steps V) : Prop where
  keep : Extends steps.keep wider.keep
  pair : ∀ depth keys data, Extends (steps.pair depth keys data) (wider.pair depth keys data)
  opens : Extends steps.opens wider.opens
  broken : Extends steps.broken wider.broken

theorem keepTagExtends (more : StepsExtend steps wider) (found : Found) (tag : CutTag) :
    Extends (keepTag steps found tag) (keepTag wider found tag) := by
  intro ctx kept keeps
  rw [keepTag] at keeps ⊢
  split at keeps
  · rename_i keeping
    rw [if_pos keeping]
    obtain ⟨middle,line,rfl⟩ := Option.map_eq_some_iff.mp keeps
    rw [more.keep _ _ line]
    rfl
  · rename_i idle
    rw [if_neg idle]
    exact keeps

theorem readLinesExtends (more : StepsExtend steps wider) {nested nested' : V → Context V → Option (Parsed V)}
    (inner : ∀ data, Extends (nested data) (nested' data)) (depth : Nat) (child : Option ParseObj) (objLcl : Text) (fuel : Nat) (data : V) :
    Extends (readLinesWith steps nested depth child objLcl fuel data)
      (readLinesWith wider nested' depth child objLcl fuel data) := by
  induction fuel generalizing data with
  | zero => exact fun _ _ returns => absurd returns (Option.some_ne_none _).symm
  | succ fuel ih =>
    intro ctx result returns
    rw [readLinesWith] at returns ⊢
    cases next : nextLine ctx with
    | mk read ctx =>
      rw [next] at returns
      cases read with
      | false => exact returns
      | true =>
        dsimp only at returns ⊢
        split
        · rename_i ends
          rw [if_pos ends] at returns
          obtain ⟨kept,keeps,returns⟩ := Option.bind_eq_some_iff.mp returns
          have keeps' : keepIfKept wider ctx = some kept := by
            rw [keepIfKept] at keeps ⊢
            split at keeps
            · rename_i busy
              rw [if_pos busy]
              exact more.keep _ _ keeps
            · rename_i idle
              rw [if_neg idle]
              exact keeps
          simp only [keeps',Option.bind_eq_bind,Option.bind_some]
          split
          · rename_i other
            rw [if_pos other] at returns
            exact ih data _ _ returns
          · rename_i own
            rw [if_neg own] at returns
            exact returns
        · rename_i tag
          rw [if_neg tag] at returns
          split
          · rename_i opens
            rw [if_pos opens] at returns
            obtain ⟨parsed,parses,returns⟩ := Option.bind_eq_some_iff.mp returns
            simp only [inner data _ _ parses,Option.bind_eq_bind,Option.bind_some]
            exact ih _ _ _ returns
          · rename_i plain
            rw [if_neg plain] at returns
            split
            · rename_i idle
              rw [if_pos idle] at returns
              obtain ⟨line,pairs,returns⟩ := Option.bind_eq_some_iff.mp returns
              simp only [more.pair _ _ _ _ _ pairs,Option.bind_eq_bind,Option.bind_some]
              exact ih _ _ _ returns
            · rename_i busy
              rw [if_neg busy] at returns
              obtain ⟨kept,keeps,returns⟩ := Option.bind_eq_some_iff.mp returns
              simp only [more.keep _ _ keeps,Option.bind_eq_bind,Option.bind_some]
              exact ih _ _ _ returns

theorem parseObjectExtends (more : StepsExtend steps wider) (fuel : Nat) (look : Lookup) (depth : Nat) (parObj : Option ParseObj) (parData : V) :
    Extends (parseObjectWith steps program fuel look depth parObj parData) (parseObjectWith wider program fuel look depth parObj parData) := by
  induction fuel generalizing look depth parObj parData with
  | zero => exact fun _ _ returns => absurd returns (Option.some_ne_none _).symm
  | succ fuel ih =>
    intro ctx result returns
    rw [parseObjectWith] at returns ⊢
    split
    · rename_i none_
      rw [none_] at returns
      obtain ⟨left,gives,same⟩ := Option.map_eq_some_iff.mp returns
      rw [more.broken _ _ gives, ← same]
      rfl
    · rename_i tag cut
      rw [cut] at returns
      obtain ⟨kept,keeps,returns⟩ := Option.bind_eq_some_iff.mp returns
      obtain ⟨opened,opens,returns⟩ := Option.bind_eq_some_iff.mp returns
      obtain ⟨body,reads,returns⟩ := Option.bind_eq_some_iff.mp returns
      have keeps' := keepTagExtends more _ _ _ _ keeps
      have opens' := more.opens _ _ opens
      have reads' := readLinesExtends more (fun data => ih program.lookup _ _ data) _ _ _ _ _ _ _ reads
      simp only [keeps',opens',reads',Option.bind_eq_bind,Option.bind_some]
      exact returns

theorem bufferExtends [DecidableEq V] (more : StepsExtend steps wider) {fuel : Nat} {look : Lookup} {obj : BufferedObj V}
    {result : BufferedObj V × List (Call V)} (returns : cfgForObjectBufferWith steps program fuel look obj = some result) :
    cfgForObjectBufferWith wider program fuel look obj = some result := by
  rw [cfgForObjectBufferWith] at returns ⊢
  split
  · rename_i parsed
    rw [if_pos parsed] at returns
    exact returns
  · rename_i kept
    rw [if_neg kept] at returns
    obtain ⟨text,holds,returns⟩ := Option.bind_eq_some_iff.mp returns
    simp only [holds,Option.bind_eq_bind,Option.bind_some]
    dsimp only at returns ⊢
    split
    · rename_i next
      rw [next] at returns
      exact returns
    · rename_i next
      rw [next] at returns
      obtain ⟨parsed,parses,returns⟩ := Option.bind_eq_some_iff.mp returns
      rw [parseObjectExtends more _ _ _ _ _ _ _ parses]
      exact returns

end Extending

section Files
variable {steps : Steps V} {program : Program V}

def Filed (left : Nat) (source : Source) : Prop := source.replay = none ∧ source.stop = false ∧ source.file.length ≤ left

theorem Filed.more {left more : Nat} {source : Source} (filed : Filed left source) (less : left ≤ more) : Filed more source :=
  ⟨filed.1,filed.2.1,le_trans filed.2.2 less⟩

structure Total (steps : Steps V) : Prop where
  keep : ∀ ctx, ∃ ctx', steps.keep ctx = some ctx' ∧ ctx'.source = ctx.source
  pair : ∀ depth keys data ctx, ∃ line, steps.pair depth keys data ctx = some line ∧ line.2.source = ctx.source
  opens : ∀ opened, ∃ opened', steps.opens opened = some opened'
  broken : ∀ data, ∃ result, steps.broken data = some result

theorem Total.tag (total : Total steps) (found : Found) (tag : CutTag) (ctx : Context V) :
    ∃ ctx', keepTag steps found tag ctx = some ctx' ∧ ctx'.source = ctx.source := by
  rw [keepTag]
  split
  · obtain ⟨kept,keeps,source⟩ := total.keep { ctx with buff := tag.patched }
    exact ⟨{ kept with buff := tag.recut kept.buff },by rw [keeps]; rfl,source⟩
  · exact ⟨_,rfl,rfl⟩

end Files
end LibProc.ConfigReader
