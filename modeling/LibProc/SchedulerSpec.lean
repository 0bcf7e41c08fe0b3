import LibProc.Scheduler

/-! What each scheduler call does to the events and to the main queue. Every result
about runs is derived from these; the functions are not unfolded again. -/
namespace LibProc.Scheduler
open PriorityQueue HeapOrder

variable {A : Type} {ctx : EventState A} {e : EventId}

def body (cb : ScheduleCB A) : ScheduleCB A := {cb with pos := 0}

theorem sameField {X : Type} {a b : ScheduleCB A} (same : body a = body b) (f : ScheduleCB A → X)
    (keep : ∀ cb, f (body cb) = f cb) : f a = f b := by
  rw [← keep a, same, keep b]

theorem bodySetPos (m : Memory A) (e : EventId) (n : Nat) (x : EventId) :
    body (callbacks.setpos m e n x) = body (m x) := by
  by_cases same : x = e
  · subst same; simp [callbacks,setPos,body]
  · simp [callbacks,setPos,same]

theorem insertBody {grow : Bool} {s : Memory A × Queue EventId} {e : EventId} (x : EventId) :
    body ((insert callbacks grow s e).2.1 x) = body (s.1 x) :=
  insertFrame (fun m => body (m x)) fun m e n => bodySetPos m e n x

theorem popBody {s : Memory A × Queue EventId} (x : EventId) :
    body ((pop callbacks s).2.1 x) = body (s.1 x) :=
  popFrame (fun m => body (m x)) fun m e n => bodySetPos m e n x

theorem removeBody {s : Memory A × Queue EventId} {e : EventId} (x : EventId) :
    body ((remove callbacks s e).1 x) = body (s.1 x) :=
  removeFrame (fun m => body (m x)) fun m e n => bodySetPos m e n x

theorem placedModify {m m' : Memory A} {q : Queue EventId} (pos : ∀ x, Queued q x → (m' x).pos = (m x).pos)
    (placed : Placed callbacks (m,q)) : Placed callbacks (m',q) :=
  fun i first last => (pos _ ⟨i,first,last,rfl⟩).trans (placed i first last)

theorem soundModify {m : Memory A} {q : Queue EventId} {m' : Memory A}
    (pos : ∀ x, Queued q x → (m' x).pos = (m x).pos)
    (pri : ∀ x, Queued q x → (m' x).nextAwake = (m x).nextAwake)
    (sound : Sound callbacks (m,q)) : Sound callbacks (m',q) where
  one := sound.one
  placed := placedModify pos sound.placed
  ordered i inner last := by
    have up := sound.ordered i inner last
    have here := pri _ ⟨i,by omega,last,rfl⟩
    have parent := pri _ ⟨i / 2,by omega,by simp only at last; omega,rfl⟩
    simpa only [key,callbacks,getPri,here,parent] using up


def Idle (cb : ScheduleCB A) : Prop := cb.inCallback = 0 ∧ cb.queue = .queue ∧ cb.breakpoint = false
def Busy (cb : ScheduleCB A) : Prop := cb.inCallback ≠ 0 ∧ cb.queue = .queue ∧ cb.breakpoint = false

theorem Idle.ofBody {a b : ScheduleCB A} (idle : Idle b) (same : body a = body b) : Idle a := by
  have h : Idle (body b) := idle
  rw [← same] at h
  exact h

theorem Busy.ofBody {a b : ScheduleCB A} (busy : Busy b) (same : body a = body b) : Busy a := by
  have h : Busy (body b) := busy
  rw [← same] at h
  exact h

structure Ready (ctx : EventState A) : Prop where
  sound : Sound callbacks (ctx.events,ctx.queue)
  bound : ∀ e, Queued ctx.queue e → e < ctx.fresh
  idle : ∀ e, Queued ctx.queue e → Idle (ctx.events e)
  running : ctx.breakOnNext = false

structure Added (ctx ctx' : EventState A) (r : Option EventId) (cb : ScheduleCB A) : Prop where
  result : r = none ∨ r = some ctx.fresh
  fresh : ctx.fresh ≤ ctx'.fresh
  used : r = some ctx.fresh → ctx.fresh < ctx'.fresh
  old : ∀ x, x < ctx.fresh → body (ctx'.events x) = body (ctx.events x)
  new : r = some ctx.fresh → body (ctx'.events ctx.fresh) = cb
  members : ∀ x, Queued ctx'.queue x ↔ r = some x ∨ Queued ctx.queue x
  ready : Ready ctx'

theorem addSpec (ready : Ready ctx) (malloc grow : Bool) (now time timestep : Timeval) (call : A) :
    Added ctx (evtSchedAddWithTimestep ctx malloc grow now time timestep call).2
      (evtSchedAddWithTimestep ctx malloc grow now time timestep call).1
      (newSchedCB now time timestep call) := by
  cases malloc with
  | false =>
    simp only [evtSchedAddWithTimestep]
    exact ⟨.inl rfl,le_rfl,by simp,fun _ _ => rfl,by simp,by simp,ready⟩
  | true =>
    let made : Memory A := Function.update ctx.events ctx.fresh (newSchedCB now time timestep call)
    have absent : ¬ Queued ctx.queue ctx.fresh := fun q => absurd (ready.bound _ q) (lt_irrefl _)
    have other : ∀ x, Queued ctx.queue x → x ≠ ctx.fresh := fun x q same => absent (same ▸ q)
    have sound : Sound callbacks (made,ctx.queue) := by
      refine soundModify (fun x q => ?_) (fun x q => ?_) ready.sound
      · simp [made,Function.update_of_ne (other x q)]
      · simp [made,Function.update_of_ne (other x q)]
    have old : ∀ x, x ≠ ctx.fresh →
        body ((insert callbacks grow (made,ctx.queue) ctx.fresh).2.1 x) = body (ctx.events x) := by
      intro x ne
      rw [insertBody]
      simp [made,ne]
    have new : body ((insert callbacks grow (made,ctx.queue) ctx.fresh).2.1 ctx.fresh) =
        newSchedCB now time timestep call := by
      rw [insertBody]
      simp [made,body,newSchedCB]
    have later : ∀ x, x < ctx.fresh → x ≠ ctx.fresh := fun x less => less.ne
    have bound : ∀ x, Queued ctx.queue x → x < ctx.fresh + 1 := fun x q => (ready.bound x q).trans (Nat.lt_succ_self _)
    by_cases full : Full grow ctx.queue
    · have failed := insertFull (c := callbacks) (s := (made,ctx.queue)) (e := ctx.fresh) full
      have result : evtSchedAddWithTimestep ctx true grow now time timestep call =
          (none,{ctx with events := made, fresh := ctx.fresh + 1}) := by
        simp [evtSchedAddWithTimestep,EventState.heap,EventState.setHeap,made,failed]
      rw [result]
      rw [failed] at old
      exact ⟨.inl rfl,Nat.le_succ _,by simp,fun x less => old x (later x less),by simp,by simp,
        sound,bound,fun x q => (ready.idle x q).ofBody (old x (other x q)),ready.running⟩
    · obtain ⟨done,settled⟩ := insertSettled lawful sound absent full
      have result : evtSchedAddWithTimestep ctx true grow now time timestep call =
          (some ctx.fresh,{ctx with
            events := (insert callbacks grow (made,ctx.queue) ctx.fresh).2.1, fresh := ctx.fresh + 1,
            queue := (insert callbacks grow (made,ctx.queue) ctx.fresh).2.2,
            criticalSchedCount := ctx.criticalSchedCount + 1}) := by
        simp [evtSchedAddWithTimestep,EventState.heap,EventState.setHeap,made,done]
      rw [result]
      refine ⟨.inr rfl,Nat.le_succ _,fun _ => Nat.lt_succ_self _,fun x less => old x (later x less),
        fun _ => new,?_,settled.sound,?_,?_,ready.running⟩
      · intro x
        rw [settled.members x]
        simp [eq_comm]
      · intro x q
        rcases (settled.members x).mp q with rfl | q
        · exact Nat.lt_succ_self _
        · exact bound x q
      · intro x q
        rcases (settled.members x).mp q with rfl | q
        · exact Idle.ofBody (b := newSchedCB now time timestep call) ⟨rfl,rfl,rfl⟩ new
        · exact (ready.idle x q).ofBody (old x (other x q))

@[simp] theorem modifySelf (f : ScheduleCB A → ScheduleCB A) : (ctx.modify e f).events e = f (ctx.events e) := by
  simp [EventState.modify]

@[simp] theorem modifyOther {x : EventId} (f : ScheduleCB A → ScheduleCB A) (ne : x ≠ e) :
    (ctx.modify e f).events x = ctx.events x := by
  simp [EventState.modify,ne]

theorem peekQueued (sound : Sound callbacks (ctx.events,ctx.queue)) {head : EventId}
    (found : peek ctx.queue = some head) : ctx.queue.size ≠ 1 ∧ ctx.queue.d 1 = head ∧ Queued ctx.queue head := by
  have one := sound.one
  unfold peek at found
  split at found
  · contradiction
  · rename_i more
    cases Option.some.inj found
    simp only at one
    exact ⟨more,rfl,1,le_rfl,by omega,rfl⟩

theorem beginUnbroken (off : ctx.breakOnNext = false) (none : (ctx.events e).breakpoint = false)
    (stepping : Bool) : beginTimedEvent ctx e stepping = (true,enterCallback ctx e) := by
  simp [beginTimedEvent,off,none]

structure Taken (ctx ctx' : EventState A) (head : EventId) (f : ScheduleCB A → ScheduleCB A) : Prop where
  members : ∀ x, Queued ctx'.queue x ↔ Queued ctx.queue x ∧ x ≠ head
  others : ∀ x, x ≠ head → body (ctx'.events x) = body (ctx.events x)
  self : body (ctx'.events head) = body (f (ctx.events head))
  fresh : ctx'.fresh = ctx.fresh
  ready : Ready ctx'

theorem popSpec (ready : Ready ctx) {head : EventId} (found : peek ctx.queue = some head) :
    Taken ctx (popTimedEvent ctx head) head id := by
  obtain ⟨more,root,queued⟩ := peekQueued ready.sound found
  obtain ⟨_,settled⟩ := popSettled lawful ready.sound more
  rw [show (ctx.events,ctx.queue).2.d 1 = head from root] at settled
  have gone : ∀ x, Queued (pop callbacks (ctx.events,ctx.queue)).2.2 x → x ≠ head :=
    fun x q => ((settled.members x).mp q).2
  have others : ∀ x, x ≠ head → (popTimedEvent ctx head).events x =
      (pop callbacks (ctx.events,ctx.queue)).2.1 x := fun x ne => modifyOther _ ne
  refine ⟨settled.members,?_,?_,rfl,?_,?_,?_,ready.running⟩
  · intro x ne
    rw [others x ne]
    exact popBody x
  · simp only [popTimedEvent,modifySelf]
    exact popBody (s := (ctx.events,ctx.queue)) head
  · refine soundModify (fun x q => ?_) (fun x q => ?_) settled.sound
    · rw [others x (gone x q)]
    · rw [others x (gone x q)]
  · intro x q
    exact ready.bound x ((settled.members x).mp q).1
  · intro x q
    rw [others x (gone x q)]
    exact (ready.idle x ((settled.members x).mp q).1).ofBody (popBody x)

theorem Taken.modify {ctx' : EventState A} {head : EventId} {f : ScheduleCB A → ScheduleCB A}
    (taken : Taken ctx ctx' head f) (g : ScheduleCB A → ScheduleCB A)
    (stable : ∀ a b, body a = body b → body (g a) = body (g b)) :
    Taken ctx (ctx'.modify head g) head (g ∘ f) := by
  have gone : ∀ x, Queued ctx'.queue x → x ≠ head := fun x q => ((taken.members x).mp q).2
  refine ⟨taken.members,?_,?_,taken.fresh,?_,taken.ready.bound,?_,taken.ready.running⟩
  · intro x ne
    rw [modifyOther g ne]
    exact taken.others x ne
  · rw [modifySelf]
    exact stable _ _ taken.self
  · refine soundModify (fun x q => ?_) (fun x q => ?_) taken.ready.sound
    · rw [modifyOther g (gone x q)]
    · rw [modifyOther g (gone x q)]
  · intro x q
    rw [modifyOther g (gone x q)]
    exact taken.ready.idle x q

def entered (cb : ScheduleCB A) : ScheduleCB A := {cb with count := (cb.count + 1) % 2 ^ 32, inCallback := 1}

theorem fireSpec (ready : Ready ctx) (now : Timeval) :
    (fireTimedEvent ctx now = (none,ctx) ∧
      ∀ head, peek ctx.queue = some head → now < (ctx.events head).nextAwake) ∨
    ∃ head ctx', fireTimedEvent ctx now = (some (head,true),ctx') ∧ peek ctx.queue = some head ∧
      (ctx.events head).nextAwake ≤ now ∧ Taken ctx ctx' head entered := by
  cases found : peek ctx.queue with
  | none => exact .inl ⟨by simp [fireTimedEvent,found],by simp⟩
  | some head =>
    by_cases late : Timeval.timercmp (· > ·) (ctx.events head).nextAwake now = true
    · refine .inl ⟨by simp [fireTimedEvent,found,late],?_⟩
      intro x same
      cases same
      exact Timeval.timercmpGt.mp late
    · have taken := popSpec ready found
      have idle := ready.idle head (peekQueued ready.sound found).2.2
      have unbroken : ((popTimedEvent ctx head).events head).breakpoint = false :=
        (sameField taken.self ScheduleCB.breakpoint fun _ => rfl).trans idle.2.2
      have due := not_lt.mp fun less => late (Timeval.timercmpGt.mpr less)
      refine .inr ⟨head,enterCallback (popTimedEvent ctx head) head,?_,rfl,due,?_⟩
      · simp only [fireTimedEvent,found]
        rw [if_neg late, beginUnbroken taken.ready.running unbroken]
      · have entry := taken.modify entered fun a b same => by
          simpa [entered,body] using congrArg entered same
        exact ⟨entry.members,entry.others,entry.self,entry.fresh,
          entry.ready.sound,entry.ready.bound,entry.ready.idle,entry.ready.running⟩

structure Returned (ctx ctx' : EventState A) (e : EventId) (f : ScheduleCB A → ScheduleCB A)
    (room : Prop) : Prop where
  members : ∀ x, Queued ctx'.queue x ↔ (room ∧ x = e) ∨ Queued ctx.queue x
  others : ∀ x, x ≠ e → body (ctx'.events x) = body (ctx.events x)
  self : body (ctx'.events e) = body (f (ctx.events e))
  fresh : ctx'.fresh = ctx.fresh
  ready : Ready ctx'

theorem keptQueue (curTime : Timeval) (cb : ScheduleCB A) :
    (keptEvent curTime cb).queue = cb.queue ∧ (keptEvent curTime cb).breakpoint = cb.breakpoint ∧
      (keptEvent curTime cb).inCallback = 0 := by
  by_cases first : cb.inCallback = 1 <;> simp [keptEvent,first]

theorem keepSpec (ready : Ready ctx) (busy : Busy (ctx.events e)) (absent : ¬ Queued ctx.queue e)
    (bound : e < ctx.fresh) (curTime : Timeval) (grow : Bool) :
    Returned ctx (finishTimedEvent ctx e curTime true grow) e (keptEvent curTime)
      (¬ Full grow ctx.queue) := by
  obtain ⟨queue,breakpoint,done⟩ := keptQueue curTime (ctx.events e)
  let moved : Memory A := Function.update ctx.events e (keptEvent curTime (ctx.events e))
  have other : ∀ x, Queued ctx.queue x → x ≠ e := fun x q same => absent (same ▸ q)
  have idle : Idle (keptEvent curTime (ctx.events e)) :=
    ⟨done,queue.trans busy.2.1,breakpoint.trans busy.2.2⟩
  have result : finishTimedEvent ctx e curTime true grow = {ctx with
      events := (insert callbacks grow (moved,ctx.queue) e).2.1
      queue := (insert callbacks grow (moved,ctx.queue) e).2.2} := by
    simp only [finishTimedEvent,if_true,modifySelf,idle.2.1]
    rfl
  have sound : Sound callbacks (moved,ctx.queue) := by
    refine soundModify (fun x q => ?_) (fun x q => ?_) ready.sound
    · simp [moved,Function.update_of_ne (other x q)]
    · simp [moved,Function.update_of_ne (other x q)]
  have others : ∀ x, x ≠ e →
      body ((insert callbacks grow (moved,ctx.queue) e).2.1 x) = body (ctx.events x) := by
    intro x ne
    rw [insertBody]
    simp [moved,ne]
  have self : body ((insert callbacks grow (moved,ctx.queue) e).2.1 e) =
      body (keptEvent curTime (ctx.events e)) := by
    rw [insertBody]
    simp [moved]
  rw [result]
  by_cases full : Full grow ctx.queue
  · have failed := insertFull (c := callbacks) (s := (moved,ctx.queue)) (e := e) full
    rw [failed] at others self ⊢
    exact ⟨by simp [full],others,self,rfl,sound,ready.bound,
      fun x q => (ready.idle x q).ofBody (others x (other x q)),ready.running⟩
  · obtain ⟨_,settled⟩ := insertSettled lawful sound absent full
    refine ⟨?_,others,self,rfl,settled.sound,?_,?_,ready.running⟩
    · intro x
      rw [settled.members x]
      simp [full]
    · intro x q
      rcases (settled.members x).mp q with rfl | q
      · exact bound
      · exact ready.bound x q
    · intro x q
      rcases (settled.members x).mp q with rfl | q
      · exact idle.ofBody self
      · exact (ready.idle x q).ofBody (others x (other x q))

theorem dropSpec (ready : Ready ctx) (curTime : Timeval) (grow : Bool) :
    (finishTimedEvent ctx e curTime false grow).events = ctx.events ∧
      (finishTimedEvent ctx e curTime false grow).queue = ctx.queue ∧
      (finishTimedEvent ctx e curTime false grow).fresh = ctx.fresh ∧
      Ready (finishTimedEvent ctx e curTime false grow) := by
  simp only [finishTimedEvent]
  cases (ctx.events e).critical with
  | false => exact ⟨rfl,rfl,rfl,ready⟩
  | true => exact ⟨rfl,rfl,rfl,ready.sound,ready.bound,ready.idle,ready.running⟩

structure Rescheduling (f : ScheduleCB A → ScheduleCB A) : Prop where
  pos : ∀ cb, (f cb).pos = cb.pos
  queue : ∀ cb, (f cb).queue = cb.queue
  breakpoint : ∀ cb, (f cb).breakpoint = cb.breakpoint
  inCallback : ∀ cb, (f cb).inCallback = cb.inCallback

theorem updateRescheduling (now time : Timeval) : Rescheduling (A := A) fun evt =>
    {evt with scheduleTime := now, nextAwake := Timeval.timeradd now time, timeStep := time} :=
  ⟨fun _ => rfl,fun _ => rfl,fun _ => rfl,fun _ => rfl⟩

theorem creditRescheduling (now time : Timeval) : Rescheduling (A := A) fun evt =>
    {evt with nextAwake := creditedAwake now evt.scheduleTime time, timeStep := time} :=
  ⟨fun _ => rfl,fun _ => rfl,fun _ => rfl,fun _ => rfl⟩

theorem requeueRunning {f : ScheduleCB A → ScheduleCB A} (r : Rescheduling f) (busy : (ctx.events e).inCallback ≠ 0) :
    requeue (ctx.modify e f) e = ctx.modify e fun evt => {f evt with inCallback := 2} := by
  have : (f (ctx.events e)).inCallback ≠ 0 := by
    rw [r.inCallback]
    exact busy
  simp [requeue,EventState.modify,this]

/- An update of an idle event stores the new time first, so the queue compares it with itself
and only ever sifts up. -/
theorem requeueIdle {f : ScheduleCB A → ScheduleCB A} (r : Rescheduling f) (idle : (ctx.events e).inCallback = 0) :
    requeue (ctx.modify e f) e = (ctx.modify e f).setHeap (ctx.events e).queue
      (bubbleUp callbacks ((ctx.modify e f).heap (ctx.events e).queue) (ctx.events e).pos) := by
  let moved : Memory A := Function.update ctx.events e (f (ctx.events e))
  have stored : setPri moved e (f (ctx.events e)).nextAwake = moved := by
    simp [setPri,moved]
  have changed : ∀ q : Queue EventId, changePriority callbacks (moved,q) (f (ctx.events e)).nextAwake e =
      bubbleUp callbacks (moved,q) (ctx.events e).pos := by
    intro q
    have h := changePriorityStored lawful moved q e
    simp only [callbacks,getPri,getPos] at h stored ⊢
    simp only [moved,Function.update_self] at h stored ⊢
    rw [h, stored, r.pos]
  simp only [requeue,modifySelf,r.inCallback,r.queue,idle,if_true]
  cases (ctx.events e).queue with
  | queue => exact congrArg ((ctx.modify e f).setHeap .queue) (changed ctx.queue)
  | dbgQueue => exact congrArg ((ctx.modify e f).setHeap .dbgQueue) (changed ctx.dbgQueue)

theorem requeueQueued {f : ScheduleCB A → ScheduleCB A} (r : Rescheduling f) (ready : Ready ctx)
    (queued : Queued ctx.queue e) :
    (Settled callbacks ((requeue (ctx.modify e f) e).heap .queue) (Queued ctx.queue) ↔
      Below (key callbacks (ctx.events,ctx.queue)) ctx.queue.size (ctx.events e).pos (f (ctx.events e)).nextAwake) ∧
    (∀ x, body ((requeue (ctx.modify e f) e).events x) = body ((ctx.modify e f).events x)) ∧
    (requeue (ctx.modify e f) e).fresh = ctx.fresh ∧
    (requeue (ctx.modify e f) e).breakOnNext = ctx.breakOnNext := by
  have idle := ready.idle e queued
  let moved : Memory A := Function.update ctx.events e (f (ctx.events e))
  have position : (f (ctx.events e)).pos = (ctx.events e).pos := r.pos _
  have result : requeue (ctx.modify e f) e = {ctx with
      events := (bubbleUp callbacks (moved,ctx.queue) (ctx.events e).pos).1
      queue := (bubbleUp callbacks (moved,ctx.queue) (ctx.events e).pos).2} := by
    rw [requeueIdle r idle.1, idle.2.1]
    rfl
  rw [result]
  refine ⟨?_,?_,rfl,rfl⟩
  · have iff := bubbleUpSettled lawful ready.sound queued (m := moved) ?_ ?_
    · simpa [moved,callbacks,getPri,getPos,EventState.heap] using iff
    · intro x
      by_cases same : x = e
      · subst same; simp [callbacks,getPos,moved,position]
      · simp [callbacks,getPos,moved,same]
    · intro x ne
      simp [callbacks,getPri,moved,ne]
  · intro x
    exact riseSifted.frame (fun m => body (m x)) fun m e n => bodySetPos m e n x

end LibProc.Scheduler
