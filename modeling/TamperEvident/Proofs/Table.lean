import TamperEvident.Table

/-! Tables put together from their own entries, and their last entries; members of
sets of keys. -/

namespace TamperEvident.Table

open Std

variable {κ ν : Type} [Ord κ] [TransOrd κ] [LawfulEqOrd κ]

theorem mem_toList_ofEntries {l : List (κ × ν)}
    (h : l.Pairwise fun a b => compare a.1 b.1 = .lt) {x : κ × ν} :
    x ∈ (ofEntries l).toList ↔ x ∈ l := by
  refine ⟨mem_of_mem_ofEntries, fun hx => ?_⟩
  have hdistinct : l.Pairwise fun a b => ¬ compare a.1 b.1 = .eq :=
    h.imp fun hlt heq => by simp [hlt] at heq
  have hofList : ofEntries l = ExtTreeMap.ofList l compare := ExtTreeMap.ofList_eq_foldl.symm
  rw [hofList]
  exact ExtTreeMap.mem_toList_iff_getElem?_eq_some.mpr
    (ExtTreeMap.getElem?_ofList_of_mem ReflCmp.compare_self hdistinct hx)

theorem getElem?_insertAll [BEq κ] [LawfulBEq κ] (t : Table κ ν) (l : List (κ × ν)) (k : κ) :
    (insertAll t l)[k]? = ((l.findRev? fun e => e.1 == k).map Prod.snd).or t[k]? := by
  induction l generalizing t with
  | nil => rfl
  | cons e rest ih =>
    have hstep : insertAll t (e :: rest) = insertAll (t.insert e.1 e.2) rest := rfl
    rw [hstep, ih, List.findRev?]
    cases hlater : rest.findRev? fun e => e.1 == k with
    | some later => rfl
    | none =>
      rw [ExtTreeMap.getElem?_insert]
      by_cases hk : e.1 = k
      · simp [hk]
      · simp [hk, beq_iff_eq]

/-- Of entries with the same key the last one counts. -/
theorem getElem?_ofEntries [BEq κ] [LawfulBEq κ] (l : List (κ × ν)) (k : κ) :
    (ofEntries l)[k]? = (l.findRev? fun e => e.1 == k).map Prod.snd := by
  rw [ofEntries, getElem?_insertAll]
  exact Option.or_none

omit [TransOrd κ] in
theorem nodup_of_increasing {l : List (κ × ν)} (h : l.Pairwise fun a b => compare a.1 b.1 = .lt) :
    l.Nodup := by
  refine h.imp ?_
  rintro a b hlt rfl
  have hself : compare a.1 a.1 = .eq := ReflCmp.compare_self
  rw [hself] at hlt
  cases hlt

theorem toList_ofEntries {l : List (κ × ν)} (h : l.Pairwise fun a b => compare a.1 b.1 = .lt) :
    (ofEntries l).toList = l := by
  have hsorted : (ofEntries l).toList.Pairwise fun a b => compare a.1 b.1 = .lt :=
    ExtTreeMap.ordered_keys_toList
  have hperm : (ofEntries l).toList.Perm l :=
    (List.perm_ext_iff_of_nodup (nodup_of_increasing hsorted) (nodup_of_increasing h)).mpr
      fun _ => mem_toList_ofEntries h
  refine hperm.eq_of_pairwise ?_ hsorted h
  intro a b _ _ hlt hgt
  have hswap : compare a.1 b.1 = (compare b.1 a.1).swap := OrientedCmp.eq_swap
  rw [hswap, hgt] at hlt
  cases hlt

theorem ofEntries_toList (t : Table κ ν) : ofEntries t.toList = t :=
  ExtTreeMap.toList_inj.mp (toList_ofEntries ExtTreeMap.ordered_keys_toList)

theorem toList_insert_empty (k : κ) (v : ν) : ((∅ : Table κ ν).insert k v).toList = [(k, v)] :=
  toList_ofEntries (List.pairwise_singleton _ (k, v))

omit [TransOrd κ] [LawfulEqOrd κ] [Ord κ] in
theorem getLast?_toList_impl {l : DTreeMap.Internal.Impl κ fun _ => ν} :
    DTreeMap.Internal.Impl.Const.maxEntry? l =
      (DTreeMap.Internal.Impl.Const.toList l).getLast? := by
  rw [DTreeMap.Internal.Impl.Const.toList_eq_toListModel_map]
  induction l using DTreeMap.Internal.Impl.Const.maxEntry?.induct_unfolding with
  | case1 => rfl
  | case2 size k v left =>
    rw [DTreeMap.Internal.Impl.toListModel_inner, DTreeMap.Internal.Impl.toListModel_leaf,
      List.map_append, List.map_cons, List.map_nil, List.getLast?_concat]
  | case3 size k v left size' k' v' left' right' ih =>
    rw [ih, DTreeMap.Internal.Impl.toListModel_inner, List.map_append, List.map_cons,
      List.getLast?_append, List.getLast?_cons]
    simp [DTreeMap.Internal.Impl.toListModel_inner, List.getLast?_cons]

omit [LawfulEqOrd κ] in
theorem maxEntry?_eq_getLast? (t : Table κ ν) : t.maxEntry? = t.toList.getLast? := by
  obtain ⟨t⟩ := t
  induction t using ExtDTreeMap.inductionOn with
  | mk t => exact getLast?_toList_impl

theorem getElem?_of_maxEntry? {t : Table κ ν} {k : κ} {v : ν} (h : t.maxEntry? = some (k, v)) :
    t[k]? = some v := by
  rw [maxEntry?_eq_getLast?] at h
  exact ExtTreeMap.mem_toList_iff_getElem?_eq_some.mp (List.mem_of_getLast? h)

theorem compare_maxEntry? {t : Table κ ν} {last : κ × ν} (hlast : t.maxEntry? = some last) {k : κ}
    {v : ν} (hk : t[k]? = some v) : k = last.1 ∨ compare k last.1 = .lt := by
  have hsorted : t.toList.Pairwise fun a b => compare a.1 b.1 = .lt :=
    ExtTreeMap.ordered_keys_toList
  rw [maxEntry?_eq_getLast?] at hlast
  obtain ⟨before, hbefore⟩ := List.getLast?_eq_some_iff.mp hlast
  have hmem : (k, v) ∈ t.toList := ExtTreeMap.mem_toList_iff_getElem?_eq_some.mpr hk
  rw [hbefore] at hsorted hmem
  rcases List.mem_append.mp hmem with hmem | hmem
  · exact .inr ((List.pairwise_append.mp hsorted).2.2 _ hmem _ List.mem_cons_self)
  · exact .inl (congrArg Prod.fst (List.mem_singleton.mp hmem))

theorem getElem?_of_maxEntry?_eq_none {t : Table κ ν} (h : t.maxEntry? = none) (k : κ) :
    t[k]? = none := by
  rw [maxEntry?_eq_getLast?, List.getLast?_eq_none_iff] at h
  rw [Option.eq_none_iff_forall_ne_some]
  intro v hv
  have hmem := ExtTreeMap.mem_toList_iff_getElem?_eq_some.mpr hv
  rw [h] at hmem
  cases hmem

end TamperEvident.Table

namespace TamperEvident.KeySet

open Std

variable {κ : Type} [Ord κ] [TransOrd κ] [LawfulEqOrd κ] {keys : KeySet κ}

theorem mem_insert {k x : κ} : x ∈ keys.insert k ↔ x = k ∨ x ∈ keys := by
  rw [ExtTreeSet.mem_insert, LawfulEqCmp.compare_eq_iff_eq, eq_comm]

theorem union_empty : keys ∪ ∅ = keys := ExtTreeSet.ext_mem fun x => by simp

theorem empty_union : ∅ ∪ keys = keys := ExtTreeSet.ext_mem fun x => by simp

theorem union_insert_empty (k : κ) : keys ∪ (∅ : KeySet κ).insert k = keys.insert k :=
  ExtTreeSet.ext_mem fun x => by simp [or_comm]

theorem union_insertMany_empty [BEq κ] [LawfulBEq κ] (l : List κ) :
    keys ∪ (∅ : KeySet κ).insertMany l = keys.insertMany l := ExtTreeSet.ext_mem fun x => by simp

theorem union_assoc (others more : KeySet κ) : keys ∪ others ∪ more = keys ∪ (others ∪ more) :=
  ExtTreeSet.ext_mem fun x => by simp [or_assoc]

end TamperEvident.KeySet
