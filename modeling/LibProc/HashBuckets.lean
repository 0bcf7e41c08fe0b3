import Mathlib.Data.List.Nodup
import Mathlib.Logic.Function.Basic

/-! Hash buckets: a list of elements for each residue of the key. `visit` walks a bucket
and offers every element that has the key to a function, which threads a state and may
drop the element; `visitFirst` stops at the first one. Where keys are placed and distinct,
the table is a finite map and either walk acts on one entry of it. -/
namespace LibProc.HashBuckets

variable {α σ : Type} (key : α → Nat)

def seek (k : Nat) (bucket : List α) : Option α := bucket.find? fun a => key a = k

def visit (k : Nat) (f : σ → α → σ × Option α) : σ → List α → σ × List α
  | s,[] => (s,[])
  | s,a :: rest =>
    if key a = k then
      let now := f s a
      let later := visit k f now.1 rest
      (later.1,now.2.toList ++ later.2)
    else
      let later := visit k f s rest
      (later.1,a :: later.2)

def visitFirst (k : Nat) (f : σ → α → σ × Option α) (s : σ) : List α → σ × List α
  | [] => (s,[])
  | a :: rest =>
    if key a = k then
      let now := f s a
      (now.1,now.2.toList ++ rest)
    else
      let later := visitFirst k f s rest
      (later.1,a :: later.2)

section
variable {key} {k : Nat} {f : σ → α → σ × Option α} {bucket : List α} {a : α}

theorem seekSome (found : seek key k bucket = some a) : a ∈ bucket ∧ key a = k :=
  ⟨List.mem_of_find?_eq_some found,by simpa using List.find?_some found⟩

theorem seekNone : seek key k bucket = none ↔ k ∉ bucket.map key := by
  simp only [seek,List.find?_eq_none,List.mem_map,not_exists,not_and,decide_eq_true_eq]

theorem seekMem (distinct : (bucket.map key).Nodup) (member : a ∈ bucket) :
    seek key (key a) bucket = some a := by
  induction bucket with
  | nil => cases member
  | cons head rest ih =>
    rw [List.map_cons, List.nodup_cons] at distinct
    rcases List.mem_cons.mp member with rfl | inside
    · simp [seek]
    · have other : key head ≠ key a := fun same => distinct.1 (same ▸ List.mem_map_of_mem inside)
      rw [seek, List.find?_cons_of_neg (by simpa using other)]
      exact ih distinct.2 inside

theorem seekSplit (before after : List α) :
    seek key k (before ++ after) = (seek key k before).or (seek key k after) := List.find?_append

theorem visitOthers (member : a ∈ bucket) (apart : key a ≠ k) (s : σ) : a ∈ (visit key k f s bucket).2 := by
  induction bucket generalizing s with
  | nil => cases member
  | cons head rest ih =>
    rcases List.mem_cons.mp member with rfl | inside
    · simp only [visit,if_neg apart]
      exact List.mem_cons_self
    · by_cases here : key head = k
      · simp only [visit,if_pos here]
        exact List.mem_append_right _ (ih inside _)
      · simp only [visit,if_neg here]
        exact List.mem_cons_of_mem _ (ih inside _)

theorem visitAbsent (absent : k ∉ bucket.map key) (s : σ) : visit key k f s bucket = (s,bucket) := by
  induction bucket with
  | nil => rfl
  | cons head rest ih =>
    rw [List.map_cons, List.mem_cons, not_or] at absent
    simp only [visit,if_neg (Ne.symm absent.1),ih absent.2]

theorem visitOnce (distinct : (bucket.map key).Nodup) (found : seek key k bucket = some a) (s : σ) :
    ∃ before after, bucket = before ++ a :: after ∧ k ∉ before.map key ∧ k ∉ after.map key ∧
      visit key k f s bucket = ((f s a).1,before ++ (f s a).2.toList ++ after) := by
  induction bucket with
  | nil => cases found
  | cons head rest ih =>
    rw [List.map_cons, List.nodup_cons] at distinct
    by_cases here : key head = k
    · have same : head = a := by simpa [seek,here] using found
      subst same
      rw [here] at distinct
      refine ⟨[],rest,rfl,List.not_mem_nil,distinct.1,?_⟩
      simp only [visit,if_pos here,visitAbsent distinct.1,List.nil_append]
    · rw [seek, List.find?_cons_of_neg (by simpa using here)] at found
      obtain ⟨before,after,split,first,last,result⟩ := ih distinct.2 found
      refine ⟨head :: before,after,by rw [split, List.cons_append],?_,last,?_⟩
      · rw [List.map_cons, List.mem_cons, not_or]
        exact ⟨Ne.symm here,first⟩
      · simp only [visit,if_neg here,result,List.cons_append]

section
variable (distinct : (bucket.map key).Nodup) (found : seek key k bucket = some a) {s : σ}
  (keeps : ∀ b, (f s a).2 = some b → key b = k)
include distinct found keeps

theorem visitDistinct : ((visit key k f s bucket).2.map key).Nodup := by
  obtain ⟨before,after,split,-,-,walked⟩ := visitOnce (f := f) distinct found s
  rw [split, List.map_append, List.map_cons, (seekSome found).2] at distinct
  rw [walked]
  cases result : (f s a).2 with
  | none =>
    simp only [Option.toList_none,List.append_nil,List.map_append]
    exact distinct.sublist ((List.Sublist.refl _).append (List.sublist_cons_self _ _))
  | some b =>
    rw [Option.toList_some, List.append_assoc, List.singleton_append, List.map_append, List.map_cons,
      keeps b result]
    exact distinct

theorem visitSeek (other : Nat) : seek key other (visit key k f s bucket).2 =
    if other = k then (f s a).2 else seek key other bucket := by
  obtain ⟨before,after,split,first,last,walked⟩ := visitOnce (f := f) distinct found s
  rw [walked]
  dsimp only
  rw [List.append_assoc, seekSplit]
  by_cases here : other = k
  · subst here
    rw [if_pos rfl, seekNone.mpr first, Option.none_or]
    cases result : (f s a).2 with
    | none => exact seekNone.mpr last
    | some b => simp [seek,keeps b result]
  · have skip : ∀ {b : α}, key b = k → ∀ rest, seek key other (b :: rest) = seek key other rest := by
      intro b is rest
      rw [seek, List.find?_cons_of_neg (by simpa [is] using Ne.symm here)]
      rfl
    rw [if_neg here, split, seekSplit before (a :: after), skip (seekSome found).2]
    congr 1
    cases result : (f s a).2 with
    | none => rfl
    | some b => exact skip (keeps b result) after

omit keeps in
theorem visitMem {b : α} (member : b ∈ (visit key k f s bucket).2) : b ∈ bucket ∨ (f s a).2 = some b := by
  obtain ⟨before,after,split,-,-,walked⟩ := visitOnce (f := f) distinct found s
  rw [walked, List.mem_append, List.mem_append] at member
  rw [split]
  rcases member with (first | new) | last
  · exact .inl (List.mem_append_left _ first)
  · exact .inr (Option.mem_toList.mp new)
  · exact .inl (List.mem_append_right _ (List.mem_cons_of_mem _ last))

end

theorem visitCongr {g : σ → α → σ × Option α} (distinct : (bucket.map key).Nodup)
    (found : seek key k bucket = some a) {s : σ} (same : f s a = g s a) :
    visit key k f s bucket = visit key k g s bucket := by
  induction bucket with
  | nil => rfl
  | cons head rest ih =>
    rw [List.map_cons, List.nodup_cons] at distinct
    by_cases here : key head = k
    · have is : head = a := by simpa [seek,here] using found
      subst is
      rw [here] at distinct
      simp only [visit,if_pos here,visitAbsent distinct.1,same]
    · rw [seek, List.find?_cons_of_neg (by simpa using here)] at found
      simp only [visit,if_neg here,ih distinct.2 found]

theorem visitFirstAll (distinct : (bucket.map key).Nodup) (s : σ) :
    visitFirst key k f s bucket = visit key k f s bucket := by
  induction bucket with
  | nil => rfl
  | cons head rest ih =>
    rw [List.map_cons, List.nodup_cons] at distinct
    by_cases here : key head = k
    · rw [here] at distinct
      simp only [visitFirst,visit,if_pos here,visitAbsent distinct.1]
    · simp only [visitFirst,visit,if_neg here,ih distinct.2]

end

structure Placed (size : Nat) (table : Nat → List α) : Prop where
  place : ∀ i a, a ∈ table i → key a % size = i
  distinct : ∀ i, ((table i).map key).Nodup

def lookup (size : Nat) (table : Nat → List α) (k : Nat) : Option α := seek key k (table (k % size))

def change (size : Nat) (table : Nat → List α) (k : Nat) (f : σ → α → σ × Option α) (s : σ) :
    σ × (Nat → List α) :=
  let walked := visit key k f s (table (k % size))
  (walked.1,Function.update table (k % size) walked.2)

def changeFirst (size : Nat) (table : Nat → List α) (k : Nat) (f : σ → α → σ × Option α) (s : σ) :
    σ × (Nat → List α) :=
  let walked := visitFirst key k f s (table (k % size))
  (walked.1,Function.update table (k % size) walked.2)

def append (size : Nat) (table : Nat → List α) (a : α) : Nat → List α :=
  Function.update table (key a % size) (table (key a % size) ++ [a])

section
variable {key} {size : Nat} {table : Nat → List α} (placed : Placed key size table)
include placed

theorem lookupMem {i : Nat} {a : α} (member : a ∈ table i) : lookup key size table (key a) = some a := by
  have here := placed.place i a member
  subst here
  exact seekMem (placed.distinct _) member

omit placed in
theorem lookupSome {k : Nat} {a : α} (found : lookup key size table k = some a) :
    a ∈ table (k % size) ∧ key a = k := seekSome found

omit placed in
theorem lookupOther {k other : Nat} {bucket : List α}
    (same : seek key other bucket = seek key other (table (k % size))) :
    lookup key size (Function.update table (k % size) bucket) other = lookup key size table other := by
  rw [lookup, lookup]
  by_cases here : other % size = k % size
  · rw [here, Function.update_self, same]
  · rw [Function.update_of_ne here]

theorem placedUpdate {k : Nat} {bucket : List α} (distinct : (bucket.map key).Nodup)
    (place : ∀ a ∈ bucket, key a % size = k % size) :
    Placed key size (Function.update table (k % size) bucket) := by
  refine ⟨?_,?_⟩
  · intro i a member
    by_cases here : i = k % size
    · subst here
      rw [Function.update_self] at member
      exact place a member
    · rw [Function.update_of_ne here] at member
      exact placed.place i a member
  · intro i
    by_cases here : i = k % size
    · subst here
      rw [Function.update_self]
      exact distinct
    · rw [Function.update_of_ne here]
      exact placed.distinct i

omit placed in
theorem changeAbsent {k : Nat} {f : σ → α → σ × Option α} (absent : lookup key size table k = none)
    (s : σ) : change key size table k f s = (s,table) := by
  rw [change, visitAbsent (seekNone.mp absent)]
  simp only [Function.update_eq_self]

theorem changeFirstAll {k : Nat} {f : σ → α → σ × Option α} (s : σ) :
    changeFirst key size table k f s = change key size table k f s := by
  rw [changeFirst, change, visitFirstAll (placed.distinct _)]

theorem changeCongr {k : Nat} {f g : σ → α → σ × Option α} {a : α}
    (found : lookup key size table k = some a) {s : σ} (same : f s a = g s a) :
    change key size table k f s = change key size table k g s := by
  rw [change, change, visitCongr (placed.distinct _) found same]

/- On a key that is there, a walk is one step of the function on its element: the entry
becomes what the function leaves, and every other entry stays. -/
theorem changeFound {k : Nat} {f : σ → α → σ × Option α} {a : α}
    (found : lookup key size table k = some a) (s : σ)
    (keeps : ∀ b, (f s a).2 = some b → key b = k) :
    (change key size table k f s).1 = (f s a).1 ∧
      Placed key size (change key size table k f s).2 ∧
      lookup key size (change key size table k f s).2 =
        Function.update (lookup key size table) k (f s a).2 := by
  have distinct := placed.distinct (k % size)
  refine ⟨?_,placedUpdate placed (visitDistinct distinct found keeps) ?_,funext fun other => ?_⟩
  · obtain ⟨_,_,-,-,-,walked⟩ := visitOnce (f := f) distinct found s
    rw [change, walked]
  · intro b member
    rcases visitMem distinct found member with old | new
    · exact placed.place (k % size) b old
    · rw [keeps b new]
  · have sought := visitSeek distinct found keeps other
    by_cases here : other = k
    · subst here
      rw [if_pos rfl] at sought
      rw [lookup, change]
      dsimp only
      rw [Function.update_self, Function.update_self]
      exact sought
    · rw [if_neg here] at sought
      rw [Function.update_of_ne here]
      exact lookupOther sought

theorem appendFresh {a : α} (absent : lookup key size table (key a) = none) :
    Placed key size (append key size table a) ∧
      lookup key size (append key size table a) =
        Function.update (lookup key size table) (key a) (some a) := by
  have fresh := seekNone.mp absent
  refine ⟨placedUpdate placed ?_ ?_,funext fun other => ?_⟩
  · rw [List.map_append]
    refine List.nodup_append.mpr ⟨placed.distinct _,List.nodup_singleton _,?_⟩
    intro x left y right same
    have last : y = key a := by simpa using right
    rw [same, last] at left
    exact fresh left
  · intro b member
    rcases List.mem_append.mp member with old | new
    · exact placed.place _ b old
    · rw [List.mem_singleton.mp new]
  · by_cases here : other = key a
    · subst here
      rw [lookup] at absent
      rw [lookup, append, Function.update_self, Function.update_self, seekSplit, absent,
        Option.none_or]
      simp [seek]
    · rw [Function.update_of_ne here]
      refine lookupOther ?_
      rw [seekSplit]
      simp [seek,Ne.symm here]

end
end LibProc.HashBuckets
