import LibProc.Dictionaries
import LibProc.VisitLoops

/-! XDR_dict_iterate: two nested loops over the buckets, with a break where the callback returns a
negative value. The break leaves the bucket, and the next one is gone through all the same. -/
namespace LibProc.XdrDict
open XdrBytes Runs VisitLoops
open Xdr (Stop Val Encoder DictionaryParams dictionaryEncoderItr)

section
variable {S V : Type}

def visitEntry (cb : S → Key → V → Int × S) (s : S) (node : Key × V) : Int × S := cb s node.1 node.2

def dictIterate (cb : S → Key → V → Int × S) (table : Dictionary V) (s : S) : List (Key × V) × S :=
  nested (visitEntry cb) table.node s

def Before (x y : Key × V) : Prop :=
  dictBucket x.1 < dictBucket y.1 ∨ dictBucket x.1 = dictBucket y.1 ∧ strLess x.1 y.1 = true

/- The callback is called on the entries in their order, each at most once, up to and including the
first it answers with a negative value. -/
structure Iterates (cb : S → Key → V → Int × S) (table : Dictionary V) (s : S) (visited : List (Key × V)) : Prop where
  order : visited.Pairwise Before
  upTo : ∃ s', Visits (visitEntry cb) s (entries table) visited s'

variable {table : Dictionary V}

theorem nodePlaced (laid : Laid table) {b : Nat} (inside : b < table.node.length) {x : Key × V} (member : x ∈ table.node[b]) :
    dictBucket x.1 = b :=
  laid.placed b x (by rwa [bucketOf, List.getD_eq_getElem _ _ inside])

theorem entriesOrdered (laid : Laid table) : (entries table).Pairwise Before := by
  refine List.pairwise_flatten.mpr ⟨fun chain inside => ?_,List.pairwise_iff_getElem.mpr fun b c left right before => ?_⟩
  · obtain ⟨b,bound,rfl⟩ := List.mem_iff_getElem.mp inside
    have increasing := laid.increasing b
    rw [bucketOf, List.getD_eq_getElem _ _ bound] at increasing
    refine increasing.imp_of_mem fun first second less => .inr ⟨?_,less⟩
    rw [nodePlaced laid bound first, nodePlaced laid bound second]
  · intro x first y second
    left
    rw [nodePlaced laid left first, nodePlaced laid right second]
    exact before

theorem bucketsGroup (laid : Laid table) :
    (∀ chain ∈ table.node, ∀ x ∈ chain, ∀ y ∈ chain, dictBucket x.1 = dictBucket y.1) ∧
      table.node.Pairwise fun first second => ∀ x ∈ first, ∀ y ∈ second, dictBucket y.1 ≠ dictBucket x.1 := by
  constructor
  · intro chain inside x first y second
    obtain ⟨b,bound,rfl⟩ := List.mem_iff_getElem.mp inside
    rw [nodePlaced laid bound first, nodePlaced laid bound second]
  · refine List.pairwise_iff_getElem.mpr fun b c left right before x first y second => ?_
    rw [nodePlaced laid left first, nodePlaced laid right second]
    omega

theorem iterateAll (f : S → Key × V → S) (table : Dictionary V) (s : S) :
    dictIterate (fun s key value => (0,f s (key,value))) table s = (entries table,(entries table).foldl f s) := by
  have chainAll : ∀ (chain : List (Key × V)) s,
      loop (visitEntry fun s key value => (0,f s (key,value))) chain s = (chain,chain.foldl f s) := by
    intro chain
    induction chain with
    | nil => exact fun s => rfl
    | cons x rest ih =>
      intro s
      rw [loopNext (by simp [visitEntry]), ih]
      rfl
  unfold dictIterate entries
  induction table.node generalizing s with
  | nil => rfl
  | cons chain rest ih =>
    rw [nested, chainAll, ih, List.flatten_cons, List.foldl_append]

end

theorem encoderIterates (enc : Encoder) (table : Dictionary Val) (p : DictionaryParams) :
    (entries table).foldlM (dictionaryEncoderItr enc) p =
      (dictIterate (fun (s : Except Stop DictionaryParams) key value => (0,s >>= fun p => dictionaryEncoderItr enc p (key,value)))
        table (.ok p)).2 := by
  have fold : ∀ (nodes : List (Key × Val)) (s : Except Stop DictionaryParams),
      (s >>= fun p => nodes.foldlM (dictionaryEncoderItr enc) p) =
        nodes.foldl (fun s node => s >>= fun p => dictionaryEncoderItr enc p node) s := by
    intro nodes
    induction nodes with
    | nil =>
      intro s
      cases s <;> rfl
    | cons node rest ih =>
      intro s
      rw [List.foldl_cons, ← ih]
      cases s <;> rfl
  rw [iterateAll fun (s : Except Stop DictionaryParams) node => s >>= fun p => dictionaryEncoderItr enc p node]
  exact fold (entries table) (.ok p)

/- The callback is stopped where it asks, just when all that follows is in the bucket of the entry it
stops at: any dictionary, any callback, whatever it keeps at `arg`. -/
theorem iteratesIff {S V : Type} (cb : S → Key → V → Int × S) (calls : List (Call V)) (s : S) :
    Iterates cb (answers call zeroed calls).2 s (dictIterate cb (answers call zeroed calls).2 s).1 ↔
      StopsLast (visitEntry cb) (fun node => dictBucket node.1) s (entries (answers call zeroed calls).2) := by
  have laid := (historyRefines calls).2.1
  generalize (answers call zeroed calls).2 = table at laid
  obtain ⟨alike,apart⟩ := bucketsGroup laid
  rw [entries, ← nestedIff alike apart s]
  constructor
  · rintro ⟨-,s',visits⟩
    exact (congrArg Prod.fst visits.unique).symm
  · intro same
    have visits := loopVisits (visitEntry cb) (entries table) s
    have first : (dictIterate cb table s).1 = (loop (visitEntry cb) (entries table) s).1 := same
    rw [first]
    exact ⟨(entriesOrdered laid).sublist visits.first.sublist,_,visits⟩

def twoBuckets : List (Call Unit) := [.add true [97] (),.add true [98] ()]

/- The callback counts its calls and wants no more of them; it is called on both entries. -/
theorem stopPassedOver :
    (dictIterate (fun (n : Nat) _ _ => (-1,n + 1)) (answers call zeroed twoBuckets).2 0).2 = 2 ∧
      ¬Iterates (fun (n : Nat) _ _ => (-1,n + 1)) (answers call zeroed twoBuckets).2 0
        (dictIterate (fun (n : Nat) _ _ => (-1,n + 1)) (answers call zeroed twoBuckets).2 0).1 := by
  refine ⟨by decide,?_⟩
  rintro ⟨-,s',visits⟩
  have once : (loop _ (entries (answers call zeroed twoBuckets).2) 0).1.length = _ :=
    congrArg (fun visited => visited.1.length) visits.unique
  dsimp only at once
  exact absurd once (by decide)

end LibProc.XdrDict
