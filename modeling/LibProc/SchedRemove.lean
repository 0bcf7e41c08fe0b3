import LibProc.SchedulerSpec

/-! EVT_sched_remove on a queue of added events. `ps_pqueue_remove` copies the last
slot into the hole and compares what it finds there with the removed event; when the
hole is the last slot itself it compares the event with itself. -/
namespace LibProc.SchedRemove
open PriorityQueue HeapOrder Scheduler

variable {A : Type} {ctx : EventState A} {e : EventId}

structure AddCall (A : Type) where
  malloc : Bool
  grow : Bool
  now : Timeval
  time : Timeval
  call : A

def addAll (ctx : EventState A) : List (AddCall A) → EventState A
  | [] => ctx
  | a :: rest => addAll (evtSchedAdd ctx a.malloc a.grow a.now a.time a.call).2 rest

theorem addAllocated (allocated : Allocated ctx.queue) (a : AddCall A) :
    Allocated (evtSchedAdd ctx a.malloc a.grow a.now a.time a.call).2.queue := by
  unfold evtSchedAdd evtSchedAddWithTimestep
  cases a.malloc with
  | false => exact allocated
  | true =>
    simp only [if_true]
    split <;> exact insertAllocated allocated

theorem addAllReady (ready : Ready ctx) (allocated : Allocated ctx.queue) (adds : List (AddCall A)) :
    Ready (addAll ctx adds) ∧ Allocated (addAll ctx adds).queue := by
  induction adds generalizing ctx with
  | nil => exact ⟨ready,allocated⟩
  | cons a rest ih =>
    exact ih (addSpec ready a.malloc a.grow a.now a.time a.time a.call).ready (addAllocated allocated a)

theorem initReady (hashSize : Nat) (events : Memory A) (d dbg : Nat → EventId) :
    Ready (evtInitWithSize hashSize events d dbg) := by
  have none : ∀ i, 1 ≤ i → i < (evtInitWithSize hashSize events d dbg).queue.size → False := by
    intro i first last
    simp only [evtInitWithSize,init] at last
    omega
  have nobody : ∀ x, ¬ Queued (evtInitWithSize hashSize events d dbg).queue x := by
    intro x queued
    obtain ⟨i,first,last,_⟩ := queued
    exact none i first last
  exact ⟨⟨le_rfl,fun i first last => (none i first last).elim,fun i first last => (none i (by omega) last).elim⟩,
    fun x queued => (nobody x queued).elim,fun x queued => (nobody x queued).elim,rfl⟩

theorem schedRemoveQueued (idle : Idle (ctx.events e)) (slot : (ctx.events e).pos ≠ sizeMax) :
    (evtSchedRemove ctx e).2.queue = (remove callbacks (ctx.events,ctx.queue) e).2 ∧
    (evtSchedRemove ctx e).2.fresh = ctx.fresh ∧
    (evtSchedRemove ctx e).2.breakOnNext = ctx.breakOnNext ∧
    ∀ x, x ≠ e →
      (evtSchedRemove ctx e).2.events x = (remove callbacks (ctx.events,ctx.queue) e).1 x := by
  obtain ⟨done,queue,_⟩ := idle
  simp only [evtSchedRemove,done,queue,slot,EventState.setHeap,EventState.heap,EventState.modify]
  simp only [ne_eq,not_true_eq_false,if_false]
  cases (ctx.events e).critical <;> by_cases held : ctx.nextTimedEvent = some e <;>
    simp +contextual [held]

theorem slotInMemory (ready : Ready ctx) (allocated : Allocated ctx.queue) (queued : Queued ctx.queue e) :
    (ctx.events e).pos ≠ sizeMax := by
  have slot := (ready.sound.placed.slotOf queued).2.1
  have size := allocated.size
  have bytes := allocated.bytes
  simp only [callbacks,getPos] at slot
  unfold sizeMax
  omega

structure RemovedAlone (ctx ctx' : EventState A) (e : EventId) : Prop where
  members : ∀ x, Queued ctx'.queue x ↔ Queued ctx.queue x ∧ x ≠ e
  once : ∀ i j, 1 ≤ i → i < ctx'.queue.size → 1 ≤ j → j < ctx'.queue.size →
    ctx'.queue.d i = ctx'.queue.d j → i = j
  placed : ∀ i, 1 ≤ i → i < ctx'.queue.size → (ctx'.events (ctx'.queue.d i)).pos = i
  ordered : ∀ i, 1 < i → i < ctx'.queue.size →
    (ctx'.events (ctx'.queue.d (i / 2))).nextAwake ≤ (ctx'.events (ctx'.queue.d i)).nextAwake

def TiedWithParent (ctx : EventState A) (e : EventId) : Prop :=
  (ctx.events e).pos = ctx.queue.size - 1 ∧ 1 < (ctx.events e).pos ∧
    (ctx.events (ctx.queue.d ((ctx.events e).pos / 2))).nextAwake = (ctx.events e).nextAwake

theorem removeUntied (ready : Ready ctx) (allocated : Allocated ctx.queue) (queued : Queued ctx.queue e)
    (untied : ¬ TiedWithParent ctx e) :
    RemovedAlone ctx (evtSchedRemove ctx e).2 e ∧ Ready (evtSchedRemove ctx e).2 ∧
      ∀ x, x ≠ e → body ((evtSchedRemove ctx e).2.events x) = body (ctx.events x) := by
  obtain ⟨queue,fresh,off,events⟩ :=
    schedRemoveQueued (ready.idle e queued) (slotInMemory ready allocated queued)
  have settled := (removeSettled lawful ready.sound queued).mpr untied
  have bodies : ∀ x, x ≠ e → body ((evtSchedRemove ctx e).2.events x) = body (ctx.events x) := by
    intro x ne
    rw [events x ne]
    exact removeBody x
  have gone : ∀ x, Queued (remove callbacks (ctx.events,ctx.queue) e).2 x → x ≠ e :=
    fun x q => ((settled.members x).mp q).2
  have sound : Sound callbacks ((evtSchedRemove ctx e).2.events,(evtSchedRemove ctx e).2.queue) := by
    rw [queue]
    refine soundModify (m := (remove callbacks (ctx.events,ctx.queue) e).1) (fun x q => ?_) (fun x q => ?_)
      settled.sound
    · rw [events x (gone x q)]
    · rw [events x (gone x q)]
  have members : ∀ x, Queued (evtSchedRemove ctx e).2.queue x ↔ Queued ctx.queue x ∧ x ≠ e := by
    rw [queue]
    exact settled.members
  refine ⟨⟨members,?_,sound.placed,sound.ordered⟩,⟨sound,?_,?_,off.trans ready.running⟩,bodies⟩
  · intro i j hi hi' hj hj' same
    exact sound.placed.slotUnique ⟨hi,hi'⟩ ⟨hj,hj'⟩ same
  · intro x q
    rw [fresh]
    exact ready.bound x ((members x).mp q).1
  · intro x q
    obtain ⟨old,ne⟩ := (members x).mp q
    exact (ready.idle x old).ofBody (bodies x ne)

theorem removeTied (ready : Ready ctx) (allocated : Allocated ctx.queue) (queued : Queued ctx.queue e)
    (tied : TiedWithParent ctx e) : Queued (evtSchedRemove ctx e).2.queue e := by
  obtain ⟨queue,_⟩ := schedRemoveQueued (ready.idle e queued) (slotInMemory ready allocated queued)
  obtain ⟨last,inner,same⟩ := tied
  rw [last] at inner same
  rw [queue]
  exact removeLastTied lawful ready.sound queued last inner same

theorem removedAloneIff {hashSize : Nat} {events : Memory A} {d dbg : Nat → EventId} (adds : List (AddCall A))
    (fits : 8 * (hashSize + 1) < 2 ^ 64)
    (queued : Queued (addAll (evtInitWithSize hashSize events d dbg) adds).queue e) :
    RemovedAlone (addAll (evtInitWithSize hashSize events d dbg) adds)
        (evtSchedRemove (addAll (evtInitWithSize hashSize events d dbg) adds) e).2 e ↔
      ¬ TiedWithParent (addAll (evtInitWithSize hashSize events d dbg) adds) e := by
  obtain ⟨ready,allocated⟩ := addAllReady (initReady hashSize events d dbg) (initAllocated d fits) adds
  constructor
  · intro alone tied
    exact ((alone.members e).mp (removeTied ready allocated queued tied)).2 rfl
  · intro untied
    exact (removeUntied ready allocated queued untied).1

def second (n : Int) : AddCall Unit := ⟨true,true,⟨0,0⟩,⟨n,0⟩,()⟩

def empty : EventState Unit :=
  evtInitWithSize 19 (fun _ => newSchedCB ⟨0,0⟩ ⟨0,0⟩ ⟨0,0⟩ ()) (fun _ => 0) (fun _ => 0)

instance (ctx : EventState A) (e : EventId) : Decidable (TiedWithParent ctx e) :=
  inferInstanceAs (Decidable (_ ∧ _ ∧ _))

theorem removedAloneRoot :
    RemovedAlone (addAll empty [second 1,second 2,second 2])
      (evtSchedRemove (addAll empty [second 1,second 2,second 2]) 1).2 1 :=
  (removedAloneIff [second 1,second 2,second 2] (show 8 * (19 + 1) < 2 ^ 64 by decide)
    ⟨1,by decide +kernel,by decide +kernel,by decide +kernel⟩).mpr (by decide +kernel)

/- Two events with the same time: removing the one in the last slot keeps it and loses
the other. -/
theorem tiedRemovalLosesParent :
    Queued (addAll empty [second 1,second 1]).queue 1 ∧
    ¬ Queued (evtSchedRemove (addAll empty [second 1,second 1]) 1).2.queue 2 ∧
    ¬ RemovedAlone (addAll empty [second 1,second 1])
      (evtSchedRemove (addAll empty [second 1,second 1]) 1).2 1 := by
  have lost : ¬ Queued (evtSchedRemove (addAll empty [second 1,second 1]) 1).2.queue 2 := by decide +kernel
  refine ⟨by decide +kernel,lost,?_⟩
  intro alone
  exact lost ((alone.members 2).mpr ⟨by decide +kernel,by decide⟩)

end LibProc.SchedRemove
