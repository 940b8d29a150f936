import TamperEvident.Merkle.Checker
import TamperEvident.Proofs.Merkle.ListRoot

/-! What a root tells about its leaves when only the pairs of some set are known
to have different joins, say those that were joined on the way to it. The set of
all pairs is the case of a join that can be taken apart. -/

namespace TamperEvident

variable {α : Type}

/-- The leaves have this root, and every pair joined on the way to it is in `J`. -/
inductive RootWithin (combine : α → α → α) (J : α → α → Prop) : List α → α → Prop
  | leaf (x : α) : RootWithin combine J [x] x
  | join {as bs : List α} {a b : α} (ha : RootWithin combine J as a)
      (hb : RootWithin combine J bs b) (hcut : as.length = splitPoint (as ++ bs).length)
      (hab : J a b) : RootWithin combine J (as ++ bs) (combine a b)

def InjectiveWithin (combine : α → α → α) (J : α → α → Prop) : Prop :=
  ∀ ⦃a b a' b' : α⦄, J a b → J a' b' → combine a b = combine a' b' → a = a' ∧ b = b'

/-- No pair of `J` is joined to one of the values. -/
def Apart (combine : α → α → α) (J : α → α → Prop) (values : List α) : Prop :=
  ∀ x ∈ values, ∀ a b, J a b → combine a b ≠ x

def FoldWithin (combine : α → α → α) (J : α → α → Prop) : α → List (Step α) → Prop
  | _, [] => True
  | value, step :: rest =>
    (if step.onLeft then J step.entry value else J value step.entry) ∧
      FoldWithin combine J (step.apply combine value) rest

variable {combine : α → α → α} {J : α → α → Prop}

theorem Apart.append {as bs : List α} (h : Apart combine J (as ++ bs)) :
    Apart combine J as ∧ Apart combine J bs :=
  ⟨fun x hx => h x (List.mem_append_left _ hx), fun x hx => h x (List.mem_append_right _ hx)⟩

namespace RootWithin

theorem mono {K : α → α → Prop} (hK : ∀ a b, J a b → K a b) {leaves : List α} {root : α}
    (h : RootWithin combine J leaves root) : RootWithin combine K leaves root := by
  induction h with
  | leaf x => exact .leaf x
  | join _ _ hcut hab iha ihb => exact .join iha ihb hcut (hK _ _ hab)

theorem ne_nil {leaves : List α} {root : α} (h : RootWithin combine J leaves root) :
    leaves ≠ [] := by
  induction h with
  | leaf x => exact List.cons_ne_nil x []
  | join _ _ _ _ iha _ => exact List.append_ne_nil_of_left_ne_nil iha _

theorem eq_singleton {leaves : List α} {x : α} (h : RootWithin combine J leaves x)
    (hx : Apart combine J [x]) : leaves = [x] := by
  cases h with
  | leaf => rfl
  | join _ _ _ hab => exact absurd rfl (hx _ (List.mem_singleton_self _) _ _ hab)

/-- The parts of a root that is a join are the roots of the parts of the list. -/
theorem cut (hinj : InjectiveWithin combine J) {leaves : List α} {a b : α}
    (hleaves : Apart combine J leaves) (hab : J a b)
    (h : RootWithin combine J leaves (combine a b)) :
    ∃ as bs, leaves = as ++ bs ∧ as.length = splitPoint leaves.length ∧
      RootWithin combine J as a ∧ RootWithin combine J bs b := by
  generalize hroot : combine a b = root at h
  cases h with
  | leaf => exact absurd hroot (hleaves _ (List.mem_singleton_self _) a b hab)
  | @join as bs _ _ ha hb hcut hab' =>
    obtain ⟨rfl, rfl⟩ := hinj hab hab' hroot
    exact ⟨as, bs, rfl, hcut, ha, hb⟩

theorem injective (hinj : InjectiveWithin combine J) {as bs : List α} {root : α}
    (has : Apart combine J as) (hbs : Apart combine J bs) (ha : RootWithin combine J as root)
    (hb : RootWithin combine J bs root) : as = bs := by
  induction ha generalizing bs with
  | leaf x => exact (hb.eq_singleton has).symm
  | join _ _ _ hab ih ih' =>
    obtain ⟨cs, cs', rfl, _, hc, hc'⟩ := hb.cut hinj hbs hab
    rw [ih has.append.1 hbs.append.1 hc, ih' has.append.2 hbs.append.2 hc']

end RootWithin

theorem foldl_apply_concat (steps : List (Step α)) (last : Step α) (first : α) :
    (steps ++ [last]).foldl (Step.apply combine) first =
      if last.onLeft then combine last.entry (steps.foldl (Step.apply combine) first)
      else combine (steps.foldl (Step.apply combine) first) last.entry := by
  rw [List.foldl_append]
  rfl

theorem foldWithin_concat {steps : List (Step α)} {last : Step α} {first : α} :
    FoldWithin combine J first (steps ++ [last]) ↔ FoldWithin combine J first steps ∧
      if last.onLeft then J last.entry (steps.foldl (Step.apply combine) first)
      else J (steps.foldl (Step.apply combine) first) last.entry := by
  induction steps generalizing first with
  | nil => simp [FoldWithin]
  | cons step rest ih => rw [List.cons_append, FoldWithin, ih, FoldWithin, and_assoc]; rfl

/-- Steps that lead to the root of one list, and those on the left alone to the
root of another, make the second a prefix of the first. -/
theorem isPrefix_of_foldsWithin (hinj : InjectiveWithin combine J) {as bs : List α}
    (has : Apart combine J as) (hbs : Apart combine J bs) (first : α) (steps : List (Step α))
    (hjoinsOld : FoldWithin combine J first (steps.filter (·.onLeft)))
    (hjoinsNew : FoldWithin combine J first steps)
    (hold : RootWithin combine J as ((steps.filter (·.onLeft)).foldl (Step.apply combine) first))
    (hnew : RootWithin combine J bs (steps.foldl (Step.apply combine) first)) : as <+: bs := by
  induction steps using List.reverseRecOn generalizing as bs with
  | nil =>
    obtain rfl := RootWithin.injective hinj has hbs hold hnew
    exact List.prefix_rfl
  | append_singleton steps last ih =>
    rw [foldWithin_concat] at hjoinsNew
    rw [foldl_apply_concat] at hnew
    rw [List.filter_append] at hold hjoinsOld
    obtain ⟨hbefore, hlast⟩ := hjoinsNew
    cases hleft : last.onLeft with
    | true =>
      -- Both roots end in this join: the left parts agree, and the right parts go on.
      rw [List.filter_cons_of_pos hleft, List.filter_nil, foldWithin_concat, if_pos hleft]
        at hjoinsOld
      rw [List.filter_cons_of_pos hleft, List.filter_nil, foldl_apply_concat, if_pos hleft] at hold
      rw [if_pos hleft] at hnew hlast
      obtain ⟨as, as', rfl, _, hal, har⟩ := hold.cut hinj has hjoinsOld.2
      obtain ⟨bs, bs', rfl, _, hbl, hbr⟩ := hnew.cut hinj hbs hlast
      rw [hal.injective hinj has.append.1 hbs.append.1 hbl]
      exact (List.prefix_append_right_inj bs).mpr
        (ih has.append.2 hbs.append.2 hjoinsOld.1 hbefore har hbr)
    | false =>
      -- Only the longer list has this join, and the other is within its left part.
      have hfilter : [last].filter (·.onLeft) = [] := by simp [hleft]
      rw [hfilter, List.append_nil] at hold hjoinsOld
      rw [if_neg (by simp [hleft])] at hnew hlast
      obtain ⟨bs, bs', rfl, _, hbl, _⟩ := hnew.cut hinj hbs hlast
      exact (ih has hbs.append.1 hjoinsOld hbefore hold hbl).trans (List.prefix_append bs bs')

/-! A join that can be taken apart is one whose pairs are all different. -/

theorem rootWithin_of_listRoot {leaves : List α} {root : α}
    (h : listRoot combine leaves = some root) :
    RootWithin combine (fun _ _ => True) leaves root := by
  have hne := ne_nil_of_listRoot h
  induction leaves, hne using cutInduction generalizing root with
  | leaf x =>
    rw [listRoot_singleton] at h
    obtain rfl := Option.some.inj h
    exact .leaf x
  | join as bs has hbs hcut iha ihb =>
    obtain ⟨left, right, hl, hr, hroot⟩ := exists_listRoot_append combine has hbs hcut
    obtain rfl := Option.some.inj (hroot.symm.trans h)
    exact .join (iha hl) (ihb hr) hcut trivial

theorem RootWithin.listRoot_eq {leaves : List α} {root : α}
    (h : RootWithin combine J leaves root) : listRoot combine leaves = some root := by
  induction h with
  | leaf x => exact listRoot_singleton x
  | join ha hb hcut _ iha ihb => rw [listRoot_append ha.ne_nil hb.ne_nil hcut, iha, ihb]; rfl

theorem foldWithin_true (value : α) (steps : List (Step α)) :
    FoldWithin combine (fun _ _ => True) value steps := by
  induction steps generalizing value with
  | nil => trivial
  | cons step rest ih => exact ⟨by simp, ih _⟩

theorem injectiveWithin_true (hinj : Function.Injective2 combine) :
    InjectiveWithin combine fun _ _ => True := fun _ _ _ _ _ _ h => hinj h

theorem apart_of_unjoined {values : List α} (h : ∀ x ∈ values, Unjoined combine x) :
    Apart combine (fun _ _ => True) values := fun x hx a b _ => h x hx a b

theorem eq_singleton_of_listRoot {leaves : List α} {x : α}
    (h : listRoot combine leaves = some x) (hx : Unjoined combine x) : leaves = [x] :=
  (rootWithin_of_listRoot h).eq_singleton
    (apart_of_unjoined fun _ hy => List.mem_singleton.mp hy ▸ hx)

theorem cut_of_listRoot (hinj : Function.Injective2 combine) {leaves : List α} {a b : α}
    (hu : ∀ x ∈ leaves, Unjoined combine x) (h : listRoot combine leaves = some (combine a b)) :
    ∃ as bs, leaves = as ++ bs ∧ as.length = splitPoint leaves.length ∧
      listRoot combine as = some a ∧ listRoot combine bs = some b := by
  obtain ⟨as, bs, hleaves, hcut, ha, hb⟩ :=
    (rootWithin_of_listRoot h).cut (injectiveWithin_true hinj) (apart_of_unjoined hu) trivial
  exact ⟨as, bs, hleaves, hcut, ha.listRoot_eq, hb.listRoot_eq⟩

end TamperEvident
