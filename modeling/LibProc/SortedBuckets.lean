import Mathlib.Data.List.GetD
import Mathlib.Data.List.Pairwise
import Mathlib.Data.Set.Card

/-! Hash buckets whose chains are kept in strict order of the key. A chain is determined by
what it looks up, and so is a table: the layout is a function of the map it stands for. -/
namespace LibProc.SortedBuckets

variable {K V : Type} [BEq K] [LawfulBEq K]

structure Linear (less : K → K → Bool) : Prop where
  irrefl : ∀ a, less a a = false
  trans : ∀ a b c, less a b = true → less b c = true → less a c = true
  total : ∀ a b, a ≠ b → less a b = true ∨ less b a = true

def Ordered (less : K → K → Bool) (chain : List (K × V)) : Prop :=
  chain.Pairwise fun a b => less a.1 b.1 = true

def insert (less : K → K → Bool) (k : K) (v : V) : List (K × V) → List (K × V)
  | [] => [(k,v)]
  | x :: rest => if less k x.1 then (k,v) :: x :: rest else x :: insert less k v rest

def erase (k : K) : List (K × V) → List (K × V)
  | [] => []
  | x :: rest => if x.1 == k then rest else x :: erase k rest

section Chains
variable {less : K → K → Bool} {chain other : List (K × V)} {k : K} {v : V}

omit [BEq K] [LawfulBEq K] in
theorem insertPerm : (insert less k v chain).Perm ((k,v) :: chain) := by
  induction chain with
  | nil => exact .refl _
  | cons x rest ih =>
    unfold insert
    by_cases first : less k x.1 = true
    · rw [if_pos first]
    · rw [if_neg first]
      exact (List.Perm.cons x ih).trans (List.Perm.swap _ _ _)

omit [BEq K] [LawfulBEq K] in
theorem insertOrdered (linear : Linear less) (ordered : Ordered less chain) (absent : ∀ x ∈ chain, x.1 ≠ k) :
    Ordered less (insert less k v chain) := by
  induction chain with
  | nil => exact List.pairwise_singleton _ _
  | cons x rest ih =>
    obtain ⟨head,tail⟩ := List.pairwise_cons.mp ordered
    unfold insert
    by_cases first : less k x.1 = true
    · rw [if_pos first]
      refine List.pairwise_cons.mpr ⟨fun y member => ?_,ordered⟩
      rcases List.mem_cons.mp member with rfl | later
      · exact first
      · exact linear.trans _ _ _ first (head y later)
    · rw [if_neg first]
      have before : less x.1 k = true :=
        (linear.total x.1 k (absent x List.mem_cons_self)).resolve_right first
      refine List.pairwise_cons.mpr ⟨fun y member => ?_,ih tail fun y m => absent y (List.mem_cons_of_mem _ m)⟩
      rcases List.mem_cons.mp (insertPerm.mem_iff.mp member) with rfl | later
      · exact before
      · exact head y later

omit [LawfulBEq K] in
theorem eraseSublist : (erase k chain).Sublist chain := by
  induction chain with
  | nil => exact .refl _
  | cons x rest ih =>
    unfold erase
    by_cases here : (x.1 == k) = true
    · rw [if_pos here]
      exact List.sublist_cons_self _ _
    · rw [if_neg here]
      exact ih.cons_cons x

omit [BEq K] [LawfulBEq K] in
theorem Ordered.apart (linear : Linear less) {x y : K × V} {rest : List (K × V)}
    (ordered : Ordered less (x :: rest)) (member : y ∈ rest) : y.1 ≠ x.1 := by
  intro same
  have below := (List.pairwise_cons.mp ordered).1 y member
  rw [same, linear.irrefl] at below
  cases below

theorem erasePerm (found : (k,v) ∈ chain) (linear : Linear less) (ordered : Ordered less chain) :
    chain.Perm ((k,v) :: erase k chain) := by
  induction chain with
  | nil => cases found
  | cons x rest ih =>
    unfold erase
    by_cases here : (x.1 == k) = true
    · rw [if_pos here]
      rcases List.mem_cons.mp found with same | later
      · rw [same]
      · exact absurd (eq_of_beq here).symm (ordered.apart linear later)
    · rw [if_neg here]
      rcases List.mem_cons.mp found with same | later
      · rw [← same] at here
        exact absurd (beq_self_eq_true k) here
      · exact (List.Perm.cons x (ih later (List.pairwise_cons.mp ordered).2)).trans (List.Perm.swap _ _ _)

omit [BEq K] [LawfulBEq K] in
theorem Ordered.distinct (linear : Linear less) (ordered : Ordered less chain) : (chain.map Prod.fst).Nodup :=
  List.pairwise_map.mpr (ordered.imp fun below same => by
    rw [same, linear.irrefl] at below
    cases below)

theorem lookupMem (distinct : (chain.map Prod.fst).Nodup) : chain.lookup k = some v ↔ (k,v) ∈ chain := by
  induction chain with
  | nil => simp
  | cons x rest ih =>
    obtain ⟨k',v'⟩ := x
    rw [List.map_cons, List.nodup_cons] at distinct
    rw [List.lookup_cons]
    cases here : k == k' with
    | true =>
      have same := eq_of_beq here
      subst same
      refine ⟨fun found => ?_,fun member => ?_⟩
      · rw [Option.some.inj found]
        exact List.mem_cons_self
      · rcases List.mem_cons.mp member with same | later
        · rw [(Prod.mk.inj same).2]
        · exact absurd (List.mem_map_of_mem later) distinct.1
    | false =>
      rw [ih distinct.2]
      refine ⟨List.mem_cons_of_mem _,fun member => ?_⟩
      rcases List.mem_cons.mp member with same | later
      · rw [(Prod.mk.inj same).1, beq_self_eq_true] at here
        cases here
      · exact later

theorem lookupAbsent : chain.lookup k = none ↔ ∀ x ∈ chain, x.1 ≠ k := by
  rw [List.lookup_eq_none_iff]
  refine forall₂_congr fun x _ => ?_
  rw [bne_iff_ne]
  exact ne_comm

theorem chainEq (linear : Linear less) (first : Ordered less chain) (second : Ordered less other)
    (same : ∀ k, chain.lookup k = other.lookup k) : chain = other := by
  have members : ∀ x, x ∈ chain ↔ x ∈ other := fun ⟨k,v⟩ => by
    rw [← lookupMem (first.distinct linear), same k, lookupMem (second.distinct linear)]
  refine List.Perm.eq_of_pairwise (fun a b _ _ ab ba => ?_) first second
    ((List.perm_ext_iff_of_nodup (first.distinct linear).of_map (second.distinct linear).of_map).mpr members)
  have loop := linear.trans _ _ _ ab ba
  rw [linear.irrefl] at loop
  cases loop

end Chains

structure Bucketed (less : K → K → Bool) (hash : K → Nat) (table : List (List (K × V))) : Prop where
  ordered : ∀ i, Ordered less (table.getD i [])
  placed : ∀ i, ∀ x ∈ table.getD i [], hash x.1 = i
  room : ∀ k, hash k < table.length

def lookup (hash : K → Nat) (table : List (List (K × V))) (k : K) : Option V := (table.getD (hash k) []).lookup k

omit [BEq K] [LawfulBEq K] in
theorem setGet {table : List (List (K × V))} {j : Nat} (inside : j < table.length) (chain : List (K × V)) (i : Nat) :
    (table.set j chain).getD i [] = if i = j then chain else table.getD i [] := by
  rw [List.getD_eq_getElem?_getD, List.getElem?_set, List.getD_eq_getElem?_getD]
  by_cases same : i = j
  · subst same
    rw [if_pos rfl, if_pos inside, if_pos rfl, Option.getD_some]
  · rw [if_neg (Ne.symm same), if_neg same]

omit [BEq K] [LawfulBEq K] in
theorem setCount {table : List (List (K × V))} {j : Nat} (inside : j < table.length) (chain : List (K × V)) :
    (table.set j chain).flatten.length + (table.getD j []).length = table.flatten.length + chain.length := by
  induction table generalizing j with
  | nil => cases inside
  | cons first rest ih =>
    cases j with
    | zero =>
      simp only [List.set_cons_zero,List.flatten_cons,List.length_append,List.getD_cons_zero]
      omega
    | succ j =>
      have tail := ih (Nat.lt_of_succ_lt_succ inside)
      simp only [List.set_cons_succ,List.flatten_cons,List.length_append,List.getD_cons_succ]
      omega

section Tables
variable {less : K → K → Bool} {hash : K → Nat} {table other : List (List (K × V))} {k : K} {v : V}

theorem memFlatten (linear : Linear less) (good : Bucketed less hash table) :
    (k,v) ∈ table.flatten ↔ lookup hash table k = some v := by
  rw [lookup, lookupMem ((good.ordered _).distinct linear), List.mem_flatten]
  refine ⟨fun ⟨chain,inside,member⟩ => ?_,fun member => ⟨_,?_,member⟩⟩
  · obtain ⟨i,bound,rfl⟩ := List.mem_iff_getElem.mp inside
    rw [← List.getD_eq_getElem table [] bound] at member
    have here : hash k = i := good.placed i _ member
    rw [here]
    exact member
  · rw [List.getD_eq_getElem table [] (good.room k)]
    exact List.getElem_mem _

omit [BEq K] [LawfulBEq K] in
theorem keysNodup (linear : Linear less) (good : Bucketed less hash table) :
    (table.flatten.map Prod.fst).Nodup := by
  refine List.pairwise_map.mpr (List.pairwise_flatten.mpr ⟨fun chain inside => ?_,?_⟩)
  · obtain ⟨i,bound,rfl⟩ := List.mem_iff_getElem.mp inside
    rw [← List.getD_eq_getElem table [] bound]
    exact List.pairwise_map.mp ((good.ordered i).distinct linear)
  · refine List.pairwise_iff_getElem.mpr fun i j left right before x inLeft y inRight same => ?_
    rw [← List.getD_eq_getElem table [] left] at inLeft
    rw [← List.getD_eq_getElem table [] right] at inRight
    have first := good.placed i x inLeft
    have second := good.placed j y inRight
    rw [same] at first
    omega

theorem flattenCard (linear : Linear less) (good : Bucketed less hash table) :
    {k | lookup hash table k ≠ none}.ncard = table.flatten.length := by
  classical
  have keys : {k | lookup hash table k ≠ none} = ((table.flatten.map Prod.fst).toFinset : Set K) := by
    ext k
    simp only [Set.mem_ofPred_eq,List.coe_toFinset,List.mem_map,Option.ne_none_iff_exists']
    refine ⟨fun ⟨v,found⟩ => ⟨(k,v),(memFlatten linear good).mpr found,rfl⟩,?_⟩
    rintro ⟨⟨k,v⟩,member,rfl⟩
    exact ⟨v,(memFlatten linear good).mp member⟩
  rw [keys, Set.ncard_coe_finset, List.toFinset_card_of_nodup (keysNodup linear good), List.length_map]

omit [BEq K] [LawfulBEq K] in
theorem setBucketed (good : Bucketed less hash table) {chain : List (K × V)} (ordered : Ordered less chain)
    (placed : ∀ x ∈ chain, hash x.1 = hash k) : Bucketed less hash (table.set (hash k) chain) := by
  refine ⟨fun i => ?_,fun i => ?_,fun k' => ?_⟩
  · rw [setGet (good.room k)]
    split
    · exact ordered
    · exact good.ordered i
  · rw [setGet (good.room k)]
    split
    case isTrue same => exact same ▸ placed
    case isFalse => exact good.placed i
  · rw [List.length_set]
    exact good.room k'

theorem setLookup (linear : Linear less) (good : Bucketed less hash table) {chain : List (K × V)}
    (ordered : Ordered less chain) {k' : K} {r : Option V} (inside : hash k' = hash k → ∀ v, (k',v) ∈ chain ↔ r = some v)
    (outside : hash k' ≠ hash k → lookup hash table k' = r) : lookup hash (table.set (hash k) chain) k' = r := by
  rw [lookup, setGet (good.room k)]
  by_cases here : hash k' = hash k
  · rw [if_pos here]
    refine Option.ext fun v => ?_
    rw [lookupMem (ordered.distinct linear)]
    exact inside here v
  · rw [if_neg here]
    exact outside here

theorem insertTable (linear : Linear less) (good : Bucketed less hash table) (absent : lookup hash table k = none)
    (v : V) :
    let after := table.set (hash k) (insert less k v (table.getD (hash k) []))
    Bucketed less hash after ∧ lookup hash after k = some v ∧
      (∀ k', k' ≠ k → lookup hash after k' = lookup hash table k') ∧
      after.flatten.length = table.flatten.length + 1 := by
  have fresh := lookupAbsent.mp absent
  have ordered := insertOrdered (v := v) linear (good.ordered (hash k)) fresh
  have members : ∀ x, x ∈ insert less k v (table.getD (hash k) []) ↔ x = (k,v) ∨ x ∈ table.getD (hash k) [] :=
    fun x => insertPerm.mem_iff.trans List.mem_cons
  refine ⟨setBucketed good ordered ?_,setLookup linear good ordered ?_ ?_,fun k' apart => ?_,?_⟩
  · intro x member
    rcases (members x).mp member with rfl | old
    · rfl
    · exact good.placed _ x old
  · intro _ v'
    rw [members]
    refine ⟨fun member => ?_,fun same => .inl (by rw [Option.some.inj same])⟩
    rcases member with new | old
    · rw [(Prod.mk.inj new).2]
    · exact absurd rfl (fresh _ old)
  · exact fun other => absurd rfl other
  · refine setLookup linear good ordered (fun here v' => ?_) fun _ => rfl
    rw [members, lookup, here, lookupMem ((good.ordered _).distinct linear)]
    exact or_iff_right fun new => apart (Prod.mk.inj new).1
  · have count := setCount (good.room k) (insert less k v (table.getD (hash k) []))
    rw [insertPerm.length_eq, List.length_cons] at count
    omega

theorem eraseTable (linear : Linear less) (good : Bucketed less hash table) (found : lookup hash table k = some v) :
    let after := table.set (hash k) (erase k (table.getD (hash k) []))
    Bucketed less hash after ∧ lookup hash after k = none ∧
      (∀ k', k' ≠ k → lookup hash after k' = lookup hash table k') ∧
      after.flatten.length + 1 = table.flatten.length := by
  have perm := erasePerm ((lookupMem ((good.ordered _).distinct linear)).mp found) linear (good.ordered _)
  have sub : (erase k (table.getD (hash k) [])).Sublist (table.getD (hash k) []) := eraseSublist
  have ordered : Ordered less (erase k (table.getD (hash k) [])) := (good.ordered _).sublist sub
  refine ⟨setBucketed good ordered fun x member => good.placed _ x (sub.mem member),
    setLookup linear good ordered ?_ ?_,fun k' apart => ?_,?_⟩
  · intro _ v'
    refine ⟨fun member => ?_,fun same => by cases same⟩
    have twice : (k,v) ∈ erase k (table.getD (hash k) []) := by
      have same := (lookupMem ((good.ordered _).distinct linear)).mpr (sub.mem member)
      rw [lookup] at found
      rw [← Option.some.inj (same.symm.trans found)]
      exact member
    have distinct := ((good.ordered (hash k)).distinct linear).of_map
    exact absurd twice (List.nodup_cons.mp (perm.nodup_iff.mp distinct)).1
  · exact fun other => absurd rfl other
  · refine setLookup linear good ordered (fun here v' => ?_) fun _ => rfl
    rw [lookup, here, lookupMem ((good.ordered _).distinct linear), perm.mem_iff, List.mem_cons]
    exact (or_iff_right fun new => apart (Prod.mk.inj new).1).symm
  · have count := setCount (good.room k) (erase k (table.getD (hash k) []))
    have one := perm.length_eq
    rw [List.length_cons] at one
    omega

theorem tableEq (linear : Linear less) (first : Bucketed less hash table) (second : Bucketed less hash other)
    (size : table.length = other.length) (same : ∀ k, lookup hash table k = lookup hash other k) : table = other := by
  have chains : ∀ i, table.getD i [] = other.getD i [] := fun i =>
    chainEq linear (first.ordered i) (second.ordered i) fun k => by
      by_cases here : hash k = i
      · subst here
        exact same k
      · have none : ∀ {t : List (List (K × V))}, Bucketed less hash t → (t.getD i []).lookup k = none :=
          fun good => lookupAbsent.mpr fun x member is => here (is.symm ▸ good.placed i x member)
        rw [none first, none second]
  refine List.ext_getElem size fun i left right => ?_
  have here := chains i
  rwa [List.getD_eq_getElem _ _ left, List.getD_eq_getElem _ _ right] at here

end Tables
end LibProc.SortedBuckets
