import Mathlib.Data.List.Forall2

/-!
# Merging trees so that the first writer wins

A tree is given by what stands at each path. Merging one into another fills in what is not decided
there yet and changes nothing else. Two trees that agree on everything that is still undecided can
be merged in either order (`Tree.merge_comm`), and so can any number of contributions to several
trees (`contributeAll_perm`), or groups of contributions, each from one source
(`foldl_useUp_perm`).
-/

open List Function

namespace FirstWins

variable {κ α ι : Type*}

/-- What stands at a path. -/
inductive Node (α : Type*)
  | branch
  | leaf (a : α)

/-- A tree: only below a branch there may stand something. -/
@[ext]
structure Tree (κ α : Type*) where
  node : List κ → Option (Node α)
  above : ∀ p k q x, node (p ++ k :: q) = some x → node p = some .branch

namespace Tree

def Decided (t : Tree κ α) (p : List κ) : Prop :=
  (∃ x, t.node p = some x) ∨ ∃ q k r a, p = q ++ k :: r ∧ t.node q = some (.leaf a)

def empty : Tree κ α where
  node p := if p.isEmpty then some .branch else none
  above p k q x h := by simp at h

theorem decided_below {t : Tree κ α} {p : List κ} {a : α} (h : t.node p = some (.leaf a)) (k : κ)
    (q : List κ) : t.Decided (p ++ k :: q) := .inr ⟨p, k, q, a, rfl, h⟩

theorem node_of_not_decided {t : Tree κ α} {p : List κ} {k : κ} {q : List κ}
    (h : ¬t.Decided (p ++ k :: q)) : t.node p = some .branch ∨ ¬t.Decided p := by
  by_cases hp : t.Decided p
  · left
    obtain ⟨x, hx⟩ | ⟨q', k', r, a, rfl, ha⟩ := hp
    · rcases x with - | a
      · exact hx
      · exact absurd (decided_below hx k q) h
    · refine absurd ?_ h
      rw [append_assoc, cons_append]
      exact decided_below ha k' _
  · exact .inr hp

open Classical in
/-- Fill in what `s` has and `t` has not decided. -/
noncomputable def merge (t s : Tree κ α) : Tree κ α where
  node p := if t.Decided p then t.node p else s.node p
  above p k q x h := by
    split_ifs at h with hd
    · have hp := t.above p k q x h
      rw [if_pos (.inl ⟨_, hp⟩), hp]
    · obtain hp | hp := node_of_not_decided hd
      · rw [if_pos (.inl ⟨_, hp⟩), hp]
      · rw [if_neg hp]
        exact s.above p k q x h

theorem node_merge_of_decided {t : Tree κ α} (s : Tree κ α) {p : List κ} (h : t.Decided p) :
    (t.merge s).node p = t.node p := if_pos h

theorem node_merge_of_not_decided {t : Tree κ α} (s : Tree κ α) {p : List κ} (h : ¬t.Decided p) :
    (t.merge s).node p = s.node p := if_neg h

theorem Decided.merge {t : Tree κ α} (s : Tree κ α) {p : List κ} (h : t.Decided p) :
    (t.merge s).Decided p := by
  obtain ⟨x, hx⟩ | ⟨q, k, r, a, rfl, ha⟩ := id h
  · exact .inl ⟨x, by rw [node_merge_of_decided s h, hx]⟩
  · exact decided_below ((node_merge_of_decided s (.inl ⟨_, ha⟩)).trans ha) k r

/-- Two trees have nothing different to say about what `t` leaves undecided. -/
def Compatible (t a b : Tree κ α) : Prop :=
  ∀ p, ¬t.Decided p → ∀ x y, a.node p = some x → b.node p = some y → x = y

theorem Compatible.symm {t a b : Tree κ α} (h : Compatible t a b) : Compatible t b a :=
  fun p hp x y hx hy ↦ (h p hp y x hy hx).symm

theorem Compatible.merge {t a b : Tree κ α} (h : Compatible t a b) (c : Tree κ α) :
    Compatible (t.merge c) a b :=
  fun p hp ↦ h p fun hd ↦ hp (hd.merge c)

theorem Compatible.node_eq {t a b : Tree κ α} (h : Compatible t a b) {p : List κ}
    (hp : ¬t.Decided p) (hd : (t.merge a).Decided p) : b.node p = none ∨ b.node p = a.node p := by
  rcases hb : b.node p with - | y
  · exact .inl rfl
  right
  obtain ⟨x, hx⟩ | ⟨q, k, r, c, rfl, hc⟩ := hd
  · rw [node_merge_of_not_decided a hp] at hx
    rw [hx, h p hp x y hx hb]
  · -- a leaf above the path would be a branch of `b`
    by_cases hq : t.Decided q
    · rw [node_merge_of_decided a hq] at hc
      exact absurd (decided_below hc k r) hp
    · rw [node_merge_of_not_decided a hq] at hc
      cases h q hq _ _ hc (b.above q k r y hb)

theorem merge_comm {t a b : Tree κ α} (h : Compatible t a b) :
    (t.merge a).merge b = (t.merge b).merge a := by
  ext1
  funext p
  by_cases hp : t.Decided p
  · rw [node_merge_of_decided b (hp.merge a), node_merge_of_decided a (hp.merge b),
      node_merge_of_decided a hp, node_merge_of_decided b hp]
  by_cases ha : (t.merge a).Decided p <;> by_cases hb : (t.merge b).Decided p
  · rw [node_merge_of_decided b ha, node_merge_of_decided a hb, node_merge_of_not_decided a hp,
      node_merge_of_not_decided b hp]
    obtain hnone | heq := h.node_eq hp ha
    · obtain hnone' | heq' := h.symm.node_eq hp hb
      · rw [hnone, hnone']
      · exact heq'
    · exact heq.symm
  · rw [node_merge_of_decided b ha, node_merge_of_not_decided a hb, node_merge_of_not_decided a hp]
  · rw [node_merge_of_not_decided b ha, node_merge_of_decided a hb, node_merge_of_not_decided b hp]
  · have hnone : a.node p = none := by
      by_contra hne
      obtain ⟨x, hx⟩ := Option.ne_none_iff_exists'.mp hne
      exact ha (.inl ⟨x, by rw [node_merge_of_not_decided a hp, hx]⟩)
    have hnone' : b.node p = none := by
      by_contra hne
      obtain ⟨x, hx⟩ := Option.ne_none_iff_exists'.mp hne
      exact hb (.inl ⟨x, by rw [node_merge_of_not_decided b hp, hx]⟩)
    rw [node_merge_of_not_decided b ha, node_merge_of_not_decided a hb, hnone, hnone']

end Tree

/-! ## Contributions to several trees -/

def Agree (s : ι → Option (Tree κ α)) (c c' : ι × Tree κ α) : Prop :=
  c.1 = c'.1 → Tree.Compatible ((s c.1).getD .empty) c.2 c'.2

theorem Agree.symm {s : ι → Option (Tree κ α)} {c c' : ι × Tree κ α} (h : Agree s c c') :
    Agree s c' c := fun heq ↦ heq ▸ (h heq.symm).symm

variable [DecidableEq ι]

/-- Merge a contribution into the tree it is for, which starts out empty if there is none. -/
noncomputable def contribute (s : ι → Option (Tree κ α)) (c : ι × Tree κ α) :
    ι → Option (Tree κ α) :=
  Function.update s c.1 (some (((s c.1).getD .empty).merge c.2))

variable {s : ι → Option (Tree κ α)} {c c' : ι × Tree κ α}

theorem getD_contribute (s : ι → Option (Tree κ α)) (c : ι × Tree κ α) (i : ι) :
    (contribute s c i).getD .empty =
      if i = c.1 then ((s i).getD .empty).merge c.2 else (s i).getD .empty := by
  rw [contribute, update_apply]
  split_ifs with h
  · rw [h, Option.getD_some]
  · rfl

theorem contribute_self {i : ι} (h : i = c.1) :
    contribute s c i = some (((s i).getD .empty).merge c.2) := by
  rw [h]
  exact update_self _ _ _

theorem contribute_of_ne {i : ι} (h : i ≠ c.1) : contribute s c i = s i :=
  update_of_ne h _ _

theorem Agree.contribute (h : Agree s c c') (d : ι × Tree κ α) : Agree (contribute s d) c c' := by
  intro heq
  rw [getD_contribute]
  split_ifs
  · exact (h heq).merge d.2
  · exact h heq

theorem Agree.update (h : Agree s c c') {i : ι} (hi : c.1 ≠ i) (t : Option (Tree κ α)) :
    Agree (Function.update s i t) c c' := by
  intro heq
  rw [update_of_ne hi]
  exact h heq

theorem contribute_comm (h : Agree s c c') :
    contribute (contribute s c) c' = contribute (contribute s c') c := by
  funext i
  by_cases hc : i = c.1 <;> by_cases hc' : i = c'.1
  · have hcomm := Tree.merge_comm (h (hc.symm.trans hc'))
    rw [← hc] at hcomm
    rw [contribute_self hc', contribute_self hc, contribute_self hc, contribute_self hc',
      Option.getD_some, Option.getD_some, hcomm]
  · rw [contribute_of_ne hc', contribute_self hc, contribute_self hc, contribute_of_ne hc']
  · rw [contribute_self hc', contribute_of_ne hc, contribute_of_ne hc, contribute_self hc']
  · rw [contribute_of_ne hc', contribute_of_ne hc, contribute_of_ne hc, contribute_of_ne hc']

noncomputable def contributeAll (s : ι → Option (Tree κ α)) (g : List (ι × Tree κ α)) :
    ι → Option (Tree κ α) := g.foldl contribute s

theorem Agree.contributeAll (h : Agree s c c') (g : List (ι × Tree κ α)) :
    Agree (contributeAll s g) c c' := by
  induction g generalizing s with
  | nil => exact h
  | cons d g ih => exact ih (h.contribute d)

theorem contributeAll_update {g : List (ι × Tree κ α)} {i : ι} (hg : ∀ c ∈ g, c.1 ≠ i)
    (t : Option (Tree κ α)) :
    contributeAll (Function.update s i t) g = Function.update (contributeAll s g) i t := by
  induction g generalizing s with
  | nil => rfl
  | cons c g ih =>
    obtain ⟨hc, hg⟩ := forall_mem_cons.mp hg
    have hcomm : contribute (Function.update s i t) c = Function.update (contribute s c) i t := by
      rw [contribute, update_of_ne hc, update_comm hc.symm]
      rfl
    rw [contributeAll, foldl_cons, hcomm]
    exact ih hg

theorem contributeAll_perm {g g' : List (ι × Tree κ α)} (hperm : g.Perm g')
    (h : ∀ c ∈ g, ∀ c' ∈ g, Agree s c c') : contributeAll s g = contributeAll s g' := by
  induction hperm generalizing s with
  | nil => rfl
  | cons d _ ih =>
    exact ih fun c hc c' hc' ↦
      (h c (mem_cons_of_mem d hc) c' (mem_cons_of_mem d hc')).contribute d
  | swap d e l =>
    rw [contributeAll, contributeAll, foldl_cons, foldl_cons, foldl_cons,
      foldl_cons, contribute_comm]
    exact h e mem_cons_self d (mem_cons_of_mem e mem_cons_self)
  | trans hp _ ih ih' =>
    rw [ih h, ih' fun c hc c' hc' ↦ h c (hp.mem_iff.mpr hc) c' (hp.mem_iff.mpr hc')]

theorem contributeAll_comm {g g' : List (ι × Tree κ α)}
    (h : ∀ c ∈ g, ∀ c' ∈ g', Agree s c c') :
    contributeAll (contributeAll s g) g' = contributeAll (contributeAll s g') g := by
  have hone (c : ι × Tree κ α) (g' : List (ι × Tree κ α)) {s : ι → Option (Tree κ α)}
      (h : ∀ c' ∈ g', Agree s c c') :
      contributeAll (contribute s c) g' = contribute (contributeAll s g') c := by
    induction g' generalizing s with
    | nil => rfl
    | cons c' g' ih =>
      obtain ⟨hc', hg'⟩ := forall_mem_cons.mp h
      change contributeAll (contribute (contribute s c) c') g' = _
      rw [contribute_comm hc']
      exact ih fun d hd ↦ (hg' d hd).contribute c'
  induction g generalizing s with
  | nil => rfl
  | cons c g ih =>
    obtain ⟨hc, hg⟩ := forall_mem_cons.mp h
    change contributeAll (contributeAll (contribute s c) g) g' = contributeAll (contribute _ c) g
    rw [ih fun d hd d' hd' ↦ (hg d hd d' hd').contribute c, hone c g' hc]

/-! ## Sources -/

abbrev Source (ι κ α : Type*) := ι × List (ι × Tree κ α)

noncomputable def useUp (s : ι → Option (Tree κ α)) (a : Source ι κ α) : ι → Option (Tree κ α) :=
  contributeAll (Function.update s a.1 none) a.2

/-- Two sources do not contribute to each other, and agree on what they both contribute to. -/
structure Separate (s : ι → Option (Tree κ α)) (a b : Source ι κ α) : Prop where
  ne : a.1 ≠ b.1
  left : ∀ c ∈ a.2, c.1 ≠ b.1
  right : ∀ c ∈ b.2, c.1 ≠ a.1
  agree : ∀ c ∈ a.2, ∀ c' ∈ b.2, Agree s c c'

variable {a b d : Source ι κ α}

omit [DecidableEq ι] in
theorem Separate.symm (h : Separate s a b) : Separate s b a :=
  ⟨h.ne.symm, h.right, h.left, fun c hc c' hc' ↦ (h.agree c' hc' c hc).symm⟩

theorem Separate.useUp (h : Separate s a b) (ha : Separate s d a) : Separate (useUp s d) a b where
  ne := h.ne
  left := h.left
  right := h.right
  agree c hc c' hc' :=
    ((h.agree c hc c' hc').update (ha.right c hc) none).contributeAll d.2

omit [DecidableEq ι] in
theorem Separate.of_perm (h : Separate s a b) {g : List (ι × Tree κ α)} (hperm : b.2.Perm g) :
    Separate s a (b.1, g) where
  ne := h.ne
  left := h.left
  right c hc := h.right c (hperm.mem_iff.mpr hc)
  agree c hc c' hc' := h.agree c hc c' (hperm.mem_iff.mpr hc')

omit [DecidableEq ι] in
theorem pairwise_separate_of_perm {l l' : List (Source ι κ α)}
    (hperm : List.Forall₂ (fun a b ↦ a.1 = b.1 ∧ a.2.Perm b.2) l l')
    (h : l.Pairwise (Separate s)) : l'.Pairwise (Separate s) := by
  induction hperm with
  | nil => exact .nil
  | @cons a b l l' hab hl ih =>
    obtain ⟨ha, hrest⟩ := pairwise_cons.mp h
    refine pairwise_cons.mpr ⟨fun y hy ↦ ?_, ih hrest⟩
    obtain ⟨i, hi, rfl⟩ := mem_iff_getElem.mp hy
    have hi' : i < l.length := hl.length_eq ▸ hi
    have hxy := forall₂_iff_get.mp hl |>.2 i hi' hi
    have hsep := (ha l[i] (getElem_mem hi')).of_perm hxy.2
    have hsep' := hsep.symm.of_perm hab.2
    rw [hab.1] at hsep'
    have hkey : (l[i].1, l'[i].2) = l'[i] := Prod.ext hxy.1 rfl
    exact hkey ▸ hsep'.symm

theorem useUp_comm (h : Separate s a b) : useUp (useUp s a) b = useUp (useUp s b) a := by
  rw [useUp, useUp, useUp, useUp, ← contributeAll_update h.left, ← contributeAll_update h.right,
    update_comm h.ne]
  refine contributeAll_comm fun c hc c' hc' heq ↦ ?_
  have hne : c.1 ≠ a.1 := heq ▸ h.right c' hc'
  exact ((h.agree c hc c' hc').update (h.left c hc) none).update hne none heq

theorem foldl_useUp_perm {l l' : List (Source ι κ α)} (hperm : l.Perm l')
    (h : l.Pairwise (Separate s)) : l.foldl useUp s = l'.foldl useUp s := by
  induction hperm generalizing s with
  | nil => rfl
  | cons a _ ih =>
    obtain ⟨ha, hl⟩ := pairwise_cons.mp h
    refine ih (hl.imp_of_mem fun hb _ hsep ↦ ?_)
    exact hsep.useUp (ha _ hb)
  | swap a b l =>
    obtain ⟨hb, -⟩ := pairwise_cons.mp h
    rw [foldl_cons, foldl_cons, foldl_cons, foldl_cons,
      useUp_comm (hb a mem_cons_self)]
  | trans hp _ ih ih' =>
    rw [ih h, ih' ((hp.pairwise_iff fun h ↦ h.symm).mp h)]

theorem foldl_useUp_congr {l l' : List (Source ι κ α)}
    (hperm : List.Forall₂ (fun a b ↦ a.1 = b.1 ∧ a.2.Perm b.2) l l')
    (heq : ∀ a b, (a, b) ∈ l.zip l' → useUp s a = useUp s b)
    (hsep : l.Pairwise (Separate s)) : l.foldl useUp s = l'.foldl useUp s := by
  induction hperm generalizing s with
  | nil => rfl
  | @cons a b l l' hab hl ih =>
    obtain ⟨ha, hrest⟩ := pairwise_cons.mp hsep
    rw [foldl_cons, foldl_cons, ← heq a b mem_cons_self]
    refine ih (fun x y hxy ↦ ?_) (hrest.imp_of_mem fun hb _ h ↦ h.useUp (ha _ hb))
    have hx : Separate s a x := ha x (of_mem_zip hxy).1
    have hy : Separate s a y := by
      obtain ⟨hkey, hperm⟩ := forall₂_zip hl hxy
      have hy := hx.of_perm hperm
      rwa [hkey] at hy
    calc useUp (useUp s a) x = useUp (useUp s x) a := useUp_comm hx
      _ = useUp (useUp s y) a := by rw [heq x y (mem_cons_of_mem _ hxy)]
      _ = useUp (useUp s a) y := (useUp_comm hy).symm

end FirstWins
