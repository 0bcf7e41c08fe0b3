import LibProc.PriorityQueue
import LibProc.Selection
import LibProc.Timeval
import LibProc.XdrBytes
import Mathlib.Order.Interval.Finset.Nat

/-! The main loop of UTIL_cleanup_dir. The priority queue holds addresses of records, here
their places in the array of `max_entries + 1`, and the record that leaves a full queue is
the one the next directory entry is read into. Which entries a run keeps is a selection of
the ones with the greatest scores. -/
namespace LibProc.CleanupDir
open PriorityQueue Selection
open XdrBytes (Byte)

structure CleanupState where
  name : List Byte
  score : Timeval
  pos : Nat
  deriving DecidableEq, Repr

abbrev Records := Nat → CleanupState

def getPriCleanupState (m : Records) (a : Nat) : Timeval := (m a).score
def setPriCleanupState (m : Records) (a : Nat) (pri : Timeval) : Records := Function.update m a {m a with score := pri}
def cmpPriCleanupState (next curr : Timeval) : Bool := Timeval.timercmp (· ≥ ·) next curr
def getPosCleanupState (m : Records) (a : Nat) : Nat := (m a).pos
def setPosCleanupState (m : Records) (a : Nat) (pos : Nat) : Records := Function.update m a {m a with pos := pos}

def callbacks : Callbacks Records Nat Timeval :=
  ⟨cmpPriCleanupState,getPriCleanupState,setPriCleanupState,getPosCleanupState,setPosCleanupState⟩

theorem lawful : Lawful callbacks :=
  lawfulRecords CleanupState.score CleanupState.pos (fun r pri => {r with score := pri}) (fun r pos => {r with pos := pos})
    (fun _ _ => Timeval.timercmpGe) (fun _ _ => rfl) (fun _ _ => rfl) (fun _ _ => rfl) fun _ _ => rfl

structure Call where
  folder : List Byte
  maxEntries : Int
  ignoreHidden : Bool
  modtimeCb : Bool

def Call.limit (call : Call) : Nat := if call.maxEntries ≤ 0 then 1 else call.maxEntries.toNat

/- One turn: the name readdir_r copies out, the st_mtime that stat finds (if it does), what
modtime_cb answers, and whether there is memory for a greater queue, for an UnlinkNode and
for the copy of its path. -/
structure Turn where
  name : List Byte
  stat : Option Int
  modtime : Timeval
  grow : Bool
  node : Bool
  path : Bool
  deriving DecidableEq, Repr

structure Cleanup where
  records : Records
  queue : Queue Nat
  nextRec : Nat
  unlinkList : List (Option (List Byte))

def score (call : Call) (turn : Turn) (mtime : Int) : Timeval := if call.modtimeCb then turn.modtime else ⟨mtime,0⟩

/- What the list of files to delete gets for one name. Without memory for the node it gets
nothing, and a node without a path is passed over in the end. -/
def unlinkNode (call : Call) (turn : Turn) (name : List Byte) : Option (Option (List Byte)) :=
  if turn.node then some (if turn.path then some (call.folder ++ name) else none) else none

def cleanupInsert (call : Call) (s : Cleanup) (turn : Turn) (mtime : Int) : Records × Queue Nat :=
  let records := Function.update s.records s.nextRec
    {s.records s.nextRec with score := score call turn mtime}
  (insert callbacks turn.grow (records,s.queue) s.nextRec).2

def cleanupKeep (call : Call) (s : Cleanup) (turn : Turn) (added : Records × Queue Nat) : Option Cleanup :=
  if call.limit < added.2.size - 1 then
    match pop callbacks added with
    | (none,_) => none
    | (some old,after) =>
      some ⟨after.1,after.2,old,(unlinkNode call turn (after.1 old).name).toList ++ s.unlinkList⟩
  else some ⟨added.1,added.2,s.nextRec + 1,s.unlinkList⟩

def readdir (s : Cleanup) (turn : Turn) : Cleanup :=
  {s with records := Function.update s.records s.nextRec {s.records s.nextRec with name := turn.name}}

def dot : Byte := 46

def cleanupTurn (call : Call) (s : Cleanup) (turn : Turn) : Option Cleanup :=
  let s := readdir s turn
  if turn.name = [dot] then some s
  else if turn.name = [dot,dot] then some s
  else if call.ignoreHidden = true ∧ turn.name.head? = some dot then some s
  else match turn.stat with
    | none => some s
    | some mtime => cleanupKeep call s turn (cleanupInsert call s turn mtime)

def cleanupLoop (call : Call) : Cleanup → List Turn → Option Cleanup
  | s,[] => some s
  | s,turn :: turns => do cleanupLoop call (← cleanupTurn call s turn) turns

def cleanupStart (call : Call) (records : Records) (d : Nat → Nat) : Cleanup :=
  ⟨records,init (call.limit + 5) d,0,[]⟩

structure Entry where
  name : List Byte
  score : Timeval
  deriving DecidableEq, Repr

def entry (call : Call) (turn : Turn) : Option Entry :=
  if turn.name = [dot] ∨ turn.name = [dot,dot] ∨ call.ignoreHidden = true ∧ turn.name.head? = some dot then none
  else turn.stat.map fun mtime => ⟨turn.name,score call turn mtime⟩

def eligible (call : Call) (turns : List Turn) : List Entry := turns.filterMap (entry call)

def entryAt (m : Records) (a : Nat) : Entry := ⟨(m a).name,(m a).score⟩

def queuedRecords (q : Queue Nat) : Finset Nat := (Finset.Ico 1 q.size).image q.d

def kept (s : Cleanup) : Multiset Entry := (queuedRecords s.queue).val.map (entryAt s.records)

theorem memQueued {q : Queue Nat} {a : Nat} : a ∈ queuedRecords q ↔ Queued q a := by
  simp [queuedRecords,Queued,and_assoc]

theorem queuedCard {s : Records × Queue Nat} (placed : Placed callbacks s) :
    (queuedRecords s.2).card = s.2.size - 1 := by
  rw [queuedRecords, Finset.card_image_of_injOn, Nat.card_Ico]
  intro i hi j hj same
  rw [Finset.coe_Ico] at hi hj
  exact placed.slotUnique hi hj same

/- The records are used in order until there are enough; from then on all but one of them
are in the queue, and that one is free. -/
structure Ready (call : Call) (s : Cleanup) : Prop where
  sound : Sound callbacks (s.records,s.queue)
  avail : s.queue.avail = call.limit + 6
  inside : s.nextRec ≤ call.limit
  used : queuedRecords s.queue = Finset.range s.nextRec ∨
    queuedRecords s.queue = (Finset.range (call.limit + 1)).erase s.nextRec

theorem startReady (call : Call) (records : Records) (d : Nat → Nat) : Ready call (cleanupStart call records d) where
  sound := ⟨le_rfl,fun i first last => absurd last (by simp only [cleanupStart,init]; omega),
    fun i first last => absurd last (by simp only [cleanupStart,init]; omega)⟩
  avail := rfl
  inside := Nat.zero_le _
  used := .inl (by simp [queuedRecords,cleanupStart,init])

theorem Ready.free {call : Call} {s : Cleanup} (ready : Ready call s) : s.nextRec ∉ queuedRecords s.queue := by
  rcases ready.used with used | used
  · rw [used]
    simp
  · rw [used]
    simp

theorem Ready.size {call : Call} {s : Cleanup} (ready : Ready call s) :
    (queuedRecords s.queue).card = s.queue.size - 1 ∧ (queuedRecords s.queue).card ≤ call.limit := by
  refine ⟨queuedCard ready.sound.placed,?_⟩
  have inside := ready.inside
  rcases ready.used with used | used
  · rw [used, Finset.card_range]
    exact inside
  · rw [used, Finset.card_erase_of_mem (Finset.mem_range.mpr (by omega)), Finset.card_range]
    omega

theorem freeWrite {m : Records} {q : Queue Nat} {a : Nat} (sound : Sound callbacks (m,q)) (free : a ∉ queuedRecords q)
    (r : CleanupState) : Sound callbacks (Function.update m a r,q) ∧
      (queuedRecords q).val.map (entryAt (Function.update m a r)) = (queuedRecords q).val.map (entryAt m) := by
  have other : ∀ x, x ∈ queuedRecords q → Function.update m a r x = m x := by
    intro x queued
    exact Function.update_of_ne (ne_of_mem_of_not_mem queued free) _ _
  have slot : ∀ i, 1 ≤ i → i < q.size → Function.update m a r (q.d i) = m (q.d i) := fun i first last =>
    other _ (memQueued.mpr ⟨i,first,last,rfl⟩)
  refine ⟨⟨sound.one,?_,?_⟩,?_⟩
  · intro i first last
    show (Function.update m a r (q.d i)).pos = i
    rw [slot i first last]
    exact sound.placed i first last
  · intro i first last
    show (Function.update m a r (q.d (i / 2))).score ≤ (Function.update m a r (q.d i)).score
    rw [slot i (by omega) last, slot (i / 2) (by omega) (lt_of_le_of_lt (Nat.div_le_self i 2) last)]
    exact sound.ordered i first last
  · refine Multiset.map_congr rfl fun x queued => ?_
    rw [entryAt, entryAt, other x queued]

theorem entryKept (m : Records) (e n a : Nat) : entryAt (callbacks.setpos m e n) a = entryAt m a := by
  by_cases same : a = e
  · subst same
    simp [entryAt,callbacks,setPosCleanupState]
  · simp [entryAt,callbacks,setPosCleanupState,same]

structure Added (call : Call) (s : Cleanup) (e : Entry) (added : Records × Queue Nat) : Prop where
  sound : Sound callbacks added
  avail : added.2.avail = call.limit + 6
  queued : queuedRecords added.2 = insert s.nextRec (queuedRecords s.queue)
  entries : (queuedRecords added.2).val.map (entryAt added.1) = e ::ₘ kept s

theorem Added.count {call : Call} {s : Cleanup} {e : Entry} {added : Records × Queue Nat} (adds : Added call s e added)
    (ready : Ready call s) : (queuedRecords s.queue).card + 1 = added.2.size - 1 := by
  have count := queuedCard adds.sound.placed
  rwa [adds.queued, Finset.card_insert_of_notMem ready.free] at count

theorem insertAdded {call : Call} {s : Cleanup} {turn : Turn} {mtime : Int} (ready : Ready call s)
    (name : (s.records s.nextRec).name = turn.name) :
    Added call s ⟨turn.name,score call turn mtime⟩ (cleanupInsert call s turn mtime) := by
  obtain ⟨sound,same⟩ := freeWrite ready.sound ready.free {s.records s.nextRec with score := score call turn mtime}
  have size := ready.size
  have one := sound.one
  have avail := ready.avail
  have room : ¬s.queue.avail ≤ s.queue.size := by
    simp only at one
    omega
  obtain ⟨-,settled⟩ := insertSettled lawful sound (fun queued => ready.free (memQueued.mpr queued))
    (show ¬Full turn.grow s.queue from fun full => room full.1)
  have queued : queuedRecords (cleanupInsert call s turn mtime).2 = insert s.nextRec (queuedRecords s.queue) := by
    ext a
    rw [memQueued, Finset.mem_insert, memQueued]
    exact settled.members a
  refine ⟨settled.sound,?_,queued,?_⟩
  · rw [cleanupInsert, PriorityQueue.insert, if_neg (fun full => room full.1)]
    refine riseSifted.avail.trans ?_
    rw [if_neg room, avail]
  · have frame : ∀ a, entryAt (cleanupInsert call s turn mtime).1 a =
        entryAt (Function.update s.records s.nextRec {s.records s.nextRec with score := score call turn mtime}) a :=
      fun a => insertFrame (fun m => entryAt m a) fun m e n => entryKept m e n a
    rw [queued, Finset.insert_val_of_notMem ready.free, Multiset.map_cons, kept, ← same]
    congr 1
    · rw [frame, entryAt, Function.update_self, name]
    · exact Multiset.map_congr rfl fun a _ => frame a

structure Cleaned (call : Call) (seen : List Turn) (popped : List (Entry × Turn)) (s : Cleanup) : Prop where
  ready : Ready call s
  selected : Selected Entry.score call.limit (eligible call seen) (kept s) (popped.map Prod.fst)
  marked : s.unlinkList = popped.filterMap fun gone => unlinkNode call gone.2 gone.1.name
  turns : ∀ gone ∈ popped, gone.2 ∈ seen

theorem startCleaned (call : Call) (records : Records) (d : Nat → Nat) : Cleaned call [] [] (cleanupStart call records d) where
  ready := startReady call records d
  selected := by
    have none : kept (cleanupStart call records d) = 0 := by
      simp [kept,queuedRecords,cleanupStart,init]
    rw [none]
    exact selectedNone
  marked := rfl
  turns := List.forall_mem_nil _

theorem eligibleSnoc (call : Call) (seen : List Turn) (turn : Turn) :
    eligible call (seen ++ [turn]) = eligible call seen ++ (entry call turn).toList := by
  rw [eligible, List.filterMap_append]
  cases is : entry call turn <;> simp [eligible,is]

theorem eligibleAdds {call : Call} {turn : Turn} {e : Entry} (is : entry call turn = some e) (seen : List Turn) :
    (eligible call (seen ++ [turn]) : Multiset Entry) = e ::ₘ eligible call seen := by
  rw [eligibleSnoc, is, Option.toList_some, ← Multiset.coe_add, Multiset.coe_singleton, Multiset.add_comm,
    Multiset.singleton_add]

theorem Cleaned.read {call : Call} {seen : List Turn} {popped : List (Entry × Turn)} {s : Cleanup}
    (cleaned : Cleaned call seen popped s) (turn : Turn) : Cleaned call seen popped (readdir s turn) := by
  have ready := cleaned.ready
  obtain ⟨sound,same⟩ := freeWrite ready.sound ready.free {s.records s.nextRec with name := turn.name}
  refine ⟨⟨sound,ready.avail,ready.inside,ready.used⟩,?_,cleaned.marked,cleaned.turns⟩
  rw [show kept (readdir s turn) = kept s from same]
  exact cleaned.selected

theorem Cleaned.pass {call : Call} {seen : List Turn} {popped : List (Entry × Turn)} {s : Cleanup} {turn : Turn}
    (cleaned : Cleaned call seen popped s) (none : entry call turn = none) : Cleaned call (seen ++ [turn]) popped s := by
  refine ⟨cleaned.ready,?_,cleaned.marked,fun gone member => List.mem_append_left _ (cleaned.turns gone member)⟩
  rw [eligibleSnoc, none, Option.toList_none, List.append_nil]
  exact cleaned.selected

theorem keepAdvances {call : Call} {seen : List Turn} {popped : List (Entry × Turn)} {s : Cleanup} {turn : Turn} {e : Entry}
    {added : Records × Queue Nat} (cleaned : Cleaned call seen popped s) (is : entry call turn = some e)
    (adds : Added call s e added) (room : ¬call.limit < added.2.size - 1) :
    Cleaned call (seen ++ [turn]) popped ⟨added.1,added.2,s.nextRec + 1,s.unlinkList⟩ := by
  have ready := cleaned.ready
  have count := adds.count ready
  have inside := ready.inside
  have used : queuedRecords s.queue = Finset.range s.nextRec := by
    rcases ready.used with used | used
    · exact used
    · rw [used, Finset.card_erase_of_mem (Finset.mem_range.mpr (by omega)), Finset.card_range] at count
      omega
  rw [used, Finset.card_range] at count
  refine ⟨⟨adds.sound,adds.avail,by simp only; omega,.inl ?_⟩,?_,cleaned.marked,?_⟩
  · rw [adds.queued, used, ← Finset.range_add_one]
  · rw [eligibleAdds is]
    have full : (kept s).card < call.limit := by
      rw [kept, Multiset.card_map, Finset.card_val, used, Finset.card_range]
      omega
    rw [show kept ⟨added.1,added.2,s.nextRec + 1,s.unlinkList⟩ = e ::ₘ kept s from adds.entries]
    exact cleaned.selected.admit full e
  · intro gone member
    exact List.mem_append_left _ (cleaned.turns gone member)

structure Dropped (call : Call) (added after : Records × Queue Nat) (old : Nat) : Prop where
  sound : Sound callbacks after
  avail : after.2.avail = added.2.avail
  member : old ∈ queuedRecords added.2
  queued : queuedRecords after.2 = (queuedRecords added.2).erase old
  least : ∀ a ∈ queuedRecords added.2, (added.1 old).score ≤ (added.1 a).score
  frame : ∀ a, entryAt after.1 a = entryAt added.1 a

theorem popDrops {added : Records × Queue Nat} (call : Call) (sound : Sound callbacks added) (some_ : added.2.size ≠ 1) :
    ∃ old after, pop callbacks added = (some old,after) ∧ Dropped call added after old := by
  obtain ⟨head,settled⟩ := popSettled lawful sound some_
  have one := sound.one
  refine ⟨added.2.d 1,(pop callbacks added).2,Prod.ext head rfl,settled.sound,?_,?_,?_,?_,?_⟩
  · rw [pop, if_neg some_]
    exact sinkSifted.avail
  · exact memQueued.mpr ⟨1,le_rfl,by omega,rfl⟩
  · ext a
    rw [memQueued, Finset.mem_erase, memQueued, settled.members, and_comm]
  · intro a queued
    exact peekLeast sound (by rw [peek, if_neg some_]) (memQueued.mp queued)
  · intro a
    exact popFrame (fun m => entryAt m a) fun m e n => entryKept m e n a

theorem keepPops {call : Call} {seen : List Turn} {popped : List (Entry × Turn)} {s : Cleanup} {turn : Turn} {e : Entry}
    {added after : Records × Queue Nat} {old : Nat} (cleaned : Cleaned call seen popped s) (is : entry call turn = some e)
    (adds : Added call s e added) (full : call.limit < added.2.size - 1) (drops : Dropped call added after old) :
    Cleaned call (seen ++ [turn]) ((entryAt added.1 old,turn) :: popped)
      ⟨after.1,after.2,old,(unlinkNode call turn (after.1 old).name).toList ++ s.unlinkList⟩ := by
  have ready := cleaned.ready
  have count := adds.count ready
  have size := ready.size.2
  have inside := ready.inside
  have all : queuedRecords added.2 = Finset.range (call.limit + 1) := by
    rw [adds.queued]
    rcases ready.used with used | used
    · rw [used, Finset.card_range] at count
      rw [used, ← Finset.range_add_one, show s.nextRec = call.limit by omega]
    · rw [used, Finset.insert_erase (Finset.mem_range.mpr (by omega))]
  have held : (kept s).card = call.limit := by
    rw [kept, Multiset.card_map, Finset.card_val]
    omega
  have rest : kept ⟨after.1,after.2,old,(unlinkNode call turn (after.1 old).name).toList ++ s.unlinkList⟩ =
      ((queuedRecords added.2).erase old).val.map (entryAt added.1) := by
    rw [kept, drops.queued]
    exact Multiset.map_congr rfl fun a _ => drops.frame a
  have parts : e ::ₘ kept s = entryAt added.1 old ::ₘ ((queuedRecords added.2).erase old).val.map (entryAt added.1) := by
    rw [← adds.entries, ← Multiset.map_cons, Finset.erase_val, Multiset.cons_erase drops.member]
  refine ⟨⟨drops.sound,drops.avail.trans adds.avail,?_,.inr ?_⟩,?_,?_,?_⟩
  · have member := drops.member
    rw [all, Finset.mem_range] at member
    exact Nat.lt_succ_iff.mp member
  · rw [drops.queued, all]
  · rw [eligibleAdds is, List.map_cons, ← Multiset.cons_coe, rest]
    refine cleaned.selected.replace held parts fun a among => ?_
    rw [← adds.entries] at among
    obtain ⟨i,queued,rfl⟩ := Multiset.mem_map.mp among
    exact drops.least i queued
  · have name : (after.1 old).name = (entryAt added.1 old).name := congrArg Entry.name (drops.frame old)
    simp only
    rw [cleaned.marked, List.filterMap_cons, name]
    cases unlinkNode call turn (entryAt added.1 old).name <;> rfl
  · intro gone member
    rcases List.mem_cons.mp member with rfl | before
    · simp
    · exact List.mem_append_left _ (cleaned.turns gone before)

theorem keepCleaned {call : Call} {seen : List Turn} {popped : List (Entry × Turn)} {s : Cleanup} {turn : Turn} {e : Entry}
    {added : Records × Queue Nat} (cleaned : Cleaned call seen popped s) (is : entry call turn = some e)
    (adds : Added call s e added) :
    ∃ s' popped', cleanupKeep call s turn added = some s' ∧ Cleaned call (seen ++ [turn]) popped' s' := by
  rw [cleanupKeep]
  by_cases full : call.limit < added.2.size - 1
  · obtain ⟨old,after,pops,drops⟩ := popDrops call adds.sound (by omega)
    rw [if_pos full, pops]
    exact ⟨_,_,rfl,keepPops cleaned is adds full drops⟩
  · rw [if_neg full]
    exact ⟨_,_,rfl,keepAdvances cleaned is adds full⟩

theorem turnCleaned {call : Call} {seen : List Turn} {popped : List (Entry × Turn)} {s : Cleanup}
    (cleaned : Cleaned call seen popped s) (turn : Turn) :
    ∃ s' popped', cleanupTurn call s turn = some s' ∧ Cleaned call (seen ++ [turn]) popped' s' := by
  by_cases skipped : turn.name = [dot] ∨ turn.name = [dot,dot] ∨ call.ignoreHidden = true ∧ turn.name.head? = some dot
  · have none : entry call turn = none := by rw [entry, if_pos skipped]
    refine ⟨_,_,?_,(cleaned.read turn).pass none⟩
    rw [cleanupTurn]
    split_ifs with self parent hidden
    · rfl
    · rfl
    · rfl
    · exact absurd skipped (by simp only [self,parent,hidden,or_self,not_false_iff])
  have is : entry call turn = turn.stat.map fun mtime => ⟨turn.name,score call turn mtime⟩ := by rw [entry, if_neg skipped]
  simp only [not_or] at skipped
  rw [cleanupTurn, if_neg skipped.1, if_neg skipped.2.1, if_neg skipped.2.2]
  cases found : turn.stat with
  | none =>
    rw [found] at is
    exact ⟨_,_,rfl,(cleaned.read turn).pass is⟩
  | some mtime =>
    rw [found] at is
    have read := cleaned.read turn
    have name : ((readdir s turn).records (readdir s turn).nextRec).name = turn.name := by
      simp only [readdir,Function.update_self]
    exact keepCleaned read is (insertAdded read.ready name)

theorem loopCleaned {call : Call} {seen : List Turn} {popped : List (Entry × Turn)} {s : Cleanup}
    (cleaned : Cleaned call seen popped s) (turns : List Turn) :
    ∃ s' popped', cleanupLoop call s turns = some s' ∧ Cleaned call (seen ++ turns) popped' s' := by
  induction turns generalizing seen popped s with
  | nil =>
    rw [List.append_nil]
    exact ⟨s,popped,rfl,cleaned⟩
  | cons turn turns ih =>
    obtain ⟨next,gone,turned,now⟩ := turnCleaned cleaned turn
    obtain ⟨s',popped',ran,later⟩ := ih now
    refine ⟨s',popped',?_,?_⟩
    · rw [cleanupLoop, turned]
      exact ran
    · rwa [List.append_assoc, List.singleton_append] at later

theorem runCleaned (call : Call) (records : Records) (d : Nat → Nat) (turns : List Turn) :
    ∃ s popped, cleanupLoop call (cleanupStart call records d) turns = some s ∧ Cleaned call turns popped s :=
  loopCleaned (startCleaned call records d) turns

/- Whatever the directory holds and whatever is in the records and the queue's slots at
first: the entries that stay are a selection of the eligible ones, and the list of files to
delete names each of the others for which there was memory. The statement is about every
head of the loop, since any number of turns may have been made. -/
theorem cleanupKeepsNewest (call : Call) (records : Records) (d : Nat → Nat) (turns : List Turn) :
    ∃ (s : Cleanup) (popped : List (Entry × Turn)), cleanupLoop call (cleanupStart call records d) turns = some s ∧
      Selected Entry.score call.limit (eligible call turns) (kept s) (popped.map Prod.fst) ∧
      s.unlinkList = (popped.filterMap fun gone => unlinkNode call gone.2 gone.1.name) ∧ (∀ gone ∈ popped, gone.2 ∈ turns) ∧
      ((∀ turn ∈ turns, turn.node = true ∧ turn.path = true) →
        s.unlinkList = popped.map fun gone => some (call.folder ++ gone.1.name)) ∧
      s.nextRec < call.limit + 1 ∧ ¬Queued s.queue s.nextRec := by
  obtain ⟨s,popped,ran,cleaned⟩ := runCleaned call records d turns
  refine ⟨s,popped,ran,cleaned.selected,cleaned.marked,cleaned.turns,fun memory => ?_,
    Nat.lt_succ_of_le cleaned.ready.inside,fun queued => cleaned.ready.free (memQueued.mpr queued)⟩
  rw [cleaned.marked, ← List.filterMap_eq_map]
  refine List.filterMap_congr fun gone member => ?_
  obtain ⟨node,path⟩ := memory _ (cleaned.turns gone member)
  rw [unlinkNode, if_pos node, if_pos path]
  rfl

def starved : List Turn := [⟨[97],some 1,⟨0,0⟩,true,false,true⟩,⟨[98],some 2,⟨0,0⟩,true,false,true⟩]

def oneStays : Call := ⟨[47],1,false,false⟩

theorem starvedMarksNone : ¬∃ s : Cleanup,
    cleanupLoop oneStays (cleanupStart oneStays (fun _ => ⟨[],⟨0,0⟩,0⟩) id) starved = some s ∧
      s.unlinkList.length = (eligible oneStays starved).length - min (eligible oneStays starved).length oneStays.limit := by
  rintro ⟨s,ran,marks⟩
  obtain ⟨s',popped,same,cleaned⟩ := runCleaned oneStays (fun _ => ⟨[],⟨0,0⟩,0⟩) id starved
  cases Option.some.inj (ran.symm.trans same)
  have without : ∀ turn ∈ starved, turn.node = false := by decide
  have none : s.unlinkList = [] := by
    rw [cleaned.marked, List.filterMap_eq_nil_iff]
    intro gone member
    rw [unlinkNode, without _ (cleaned.turns gone member)]
    rfl
  have two : (eligible oneStays starved).length = 2 := by decide
  rw [none, two] at marks
  exact absurd marks (by decide)

end LibProc.CleanupDir
