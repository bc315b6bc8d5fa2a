import Mathlib.Data.Finset.Lattice.Fold
import Mathlib.Data.Set.Finite.Basic

/-!
# Directory trees

A tree of directories and files over paths, which are lists of names. What stands at a path stands
in a directory, so nothing stands below a file, and the tree is finite. The operations of a
filesystem that change a tree keep that, and each is described by the paths it changes
(`place_eq_ok`, `node_makeDirs`).
-/

open List Function

namespace FileTree

/-- What stands at a path. -/
inductive Node (δ : Type*)
  | file (data : δ)
  | dir
deriving DecidableEq, Repr

instance {δ : Type*} : (n : Option (Node δ)) → Decidable (n = some .dir)
  | none => isFalse nofun
  | some (.file _) => isFalse nofun
  | some .dir => isTrue rfl

inductive Refusal
  | missing
  | notDirectory
  | isDirectory
deriving DecidableEq, Repr

structure Tree (σ δ : Type*) where
  node : List σ → Option (Node δ)
  root : node [] = some .dir
  /-- Whatever is there stands in a directory. -/
  closed : ∀ path name, node (path ++ [name]) ≠ none → node path = some .dir
  finite : {path | node path ≠ none}.Finite

namespace Tree

variable {σ δ : Type*} (t : Tree σ δ)

def refusal (path : List σ) : Refusal :=
  if path.inits.any fun q ↦ t.node q matches some (.file _) then .notDirectory else .missing

def stat (path : List σ) : Except Refusal (Node δ) :=
  match t.node path with
  | some n => .ok n
  | none => .error (t.refusal path)

variable {t}

theorem node_of_append {path rest : List σ} (hrest : rest ≠ []) (h : t.node (path ++ rest) ≠ none) :
    t.node path = some .dir := by
  induction rest using List.reverseRecOn with
  | nil => exact absurd rfl hrest
  | append_singleton rest name ih =>
    have hdir := t.closed (path ++ rest) name (by rwa [append_assoc])
    rcases eq_or_ne rest [] with rfl | hne
    · rwa [append_nil] at hdir
    · exact ih hne (by rw [hdir]; nofun)

theorem stat_eq_ok {path : List σ} {n : Node δ} : t.stat path = .ok n ↔ t.node path = some n := by
  unfold stat
  split
  · rename_i m hm
    rw [hm, Except.ok.injEq, Option.some.injEq]
  · rename_i hnone
    rw [hnone]
    exact ⟨nofun, nofun⟩

variable (t) in
theorem exists_height : ∃ height : ℕ, ∀ path, t.node path ≠ none → path.length ≤ height :=
  ⟨t.finite.toFinset.sup List.length,
    fun _ h ↦ Finset.le_sup (f := List.length) (t.finite.mem_toFinset.mpr h)⟩

/-- The entries of a directory, each once, in some order. -/
def Lists (t : Tree σ δ) (dir : List σ) (entries : List (σ × Node δ)) : Prop :=
  (entries.map Prod.fst).Nodup ∧
    ∀ name n, (name, n) ∈ entries ↔ t.node (dir ++ [name]) = some n

variable (t) in
theorem exists_lists (dir : List σ) : ∃ entries, t.Lists dir entries := by
  have hfinite : {name | t.node (dir ++ [name]) ≠ none}.Finite :=
    t.finite.preimage fun x _ y _ hxy ↦ singleton_injective (append_cancel_left hxy)
  -- every name of the directory with what stands under it
  refine ⟨hfinite.toFinset.toList.filterMap fun name ↦
    (t.node (dir ++ [name])).map (Prod.mk name), ?_, fun name n ↦ ?_⟩
  · rw [map_filterMap]
    refine List.Nodup.filterMap (fun a b c ha hb ↦ ?_) hfinite.toFinset.nodup_toList
    simp only [Option.map_map, Option.mem_def, Option.map_eq_some_iff, comp_apply] at ha hb
    obtain ⟨_, -, rfl⟩ := ha
    obtain ⟨_, -, rfl⟩ := hb
    rfl
  · simp only [mem_filterMap, Finset.mem_toList, Set.Finite.mem_toFinset, Set.mem_ofPred_eq,
      Option.map_eq_some_iff, Prod.mk.injEq]
    constructor
    · rintro ⟨_, -, m, hm, rfl, rfl⟩
      exact hm
    · intro h
      exact ⟨name, by rw [h]; nofun, n, h, rfl, rfl⟩

section Operations

variable [DecidableEq σ] (t)

/-- Put a file or an empty directory at a path, where a file may be replaced. -/
def place (path : List σ) (n : Node δ) : Except Refusal (Tree σ δ) :=
  if hdir : t.node path.dropLast = some .dir then
    if hfree : t.node path = some .dir then .error .isDirectory
    else .ok {
      node := Function.update t.node path (some n)
      root := by
        rw [update_of_ne, t.root]
        rintro rfl
        exact hfree t.root
      closed := by
        intro front name h
        rcases eq_or_ne (front ++ [name]) path with rfl | hne
        · rw [dropLast_concat] at hdir
          rw [update_of_ne (by simp), hdir]
        · rw [update_of_ne hne] at h
          have hfront := t.closed front name h
          rw [update_of_ne, hfront]
          rintro rfl
          exact hfree hfront
      finite := by
        refine (t.finite.insert path).subset fun q hq ↦ ?_
        rcases eq_or_ne q path with rfl | hne
        · exact Set.mem_insert _ _
        · rw [Set.mem_ofPred_eq, update_of_ne hne] at hq
          exact Set.mem_insert_of_mem _ hq }
  else .error (t.refusal path.dropLast)

def prune (path : List σ) (hpath : path ≠ []) : Tree σ δ where
  node q := if path <+: q then none else t.node q
  root := by rw [if_neg (fun h ↦ hpath (prefix_nil.mp h)), t.root]
  closed := by
    intro front name h
    split at h
    · exact absurd rfl h
    · rename_i hnot
      rw [if_neg fun hfront ↦ hnot (hfront.trans (prefix_append _ _))]
      exact t.closed front name h
  finite := by
    refine t.finite.subset fun q hq ↦ ?_
    rw [Set.mem_ofPred_eq] at hq ⊢
    split at hq
    · exact absurd rfl hq
    · exact hq

/-- Make every directory of a path that is missing, below those that are there. -/
def makeDirs (t : Tree σ δ) (done : List σ) : List σ → Except Refusal (Tree σ δ)
  | [] => .ok t
  | name :: rest =>
    match t.node (done ++ [name]) with
    | some .dir => makeDirs t (done ++ [name]) rest
    | some (.file _) => .error .notDirectory
    | none => (t.place (done ++ [name]) .dir).bind fun t' ↦ makeDirs t' (done ++ [name]) rest

def removeFile (path : List σ) : Except Refusal (Tree σ δ) :=
  match t.node path with
  | some (.file _) => if hpath : path ≠ [] then .ok (t.prune path hpath) else .error .isDirectory
  | some .dir => .error .isDirectory
  | none => .error (t.refusal path)

def removeDirAll (path : List σ) : Except Refusal (Tree σ δ) :=
  match t.node path with
  | some .dir => if hpath : path ≠ [] then .ok (t.prune path hpath) else .error .isDirectory
  | some (.file _) => .error .notDirectory
  | none => .error (t.refusal path)

/-- Move a file onto a path. -/
def rename (source target : List σ) : Except Refusal (Tree σ δ) :=
  match t.node source with
  | some (.file data) => (t.removeFile source).bind fun t' ↦ t'.place target (.file data)
  | some .dir => .error .isDirectory
  | none => .error (t.refusal source)

variable {t} {t' : Tree σ δ} {path : List σ}

theorem place_eq_ok {n : Node δ} (h : t.place path n = .ok t') :
    t.node path.dropLast = some .dir ∧ t.node path ≠ some .dir ∧
      t'.node = Function.update t.node path (some n) := by
  unfold place at h
  split at h
  · rename_i hdir
    split at h
    · cases h
    · rename_i hfree
      cases h
      exact ⟨hdir, hfree, rfl⟩
  · cases h

/-- What `makeDirs` changes: the path it was given is one of directories. -/
theorem node_makeDirs {done rest : List σ} (hdone : t.node done = some .dir)
    (h : t.makeDirs done rest = .ok t') (q : List σ) :
    t'.node q = if done <+: q ∧ q <+: done ++ rest then some .dir else t.node q := by
  induction rest generalizing t done with
  | nil =>
    obtain rfl := Except.ok.inj h
    split
    · rename_i hq
      rw [append_nil] at hq
      rw [hq.2.eq_of_length_le hq.1.length_le, hdone]
    · rfl
  | cons name rest ih =>
    -- below `done` the path goes on with the name
    have hnext : (done <+: q ∧ q <+: done ++ name :: rest) ↔
        q = done ∨ (done ++ [name] <+: q ∧ q <+: done ++ [name] ++ rest) := by
      rw [append_assoc, singleton_append]
      constructor
      · rintro ⟨⟨tail, rfl⟩, hq⟩
        rcases tail with _ | ⟨x, tail⟩
        · exact .inl (append_nil done)
        · rw [prefix_append_right_inj, cons_prefix_cons] at hq
          obtain ⟨rfl, htail⟩ := hq
          refine .inr ⟨⟨tail, by rw [append_assoc]; rfl⟩, ?_⟩
          rw [prefix_append_right_inj, cons_prefix_cons]
          exact ⟨rfl, htail⟩
      · rintro (rfl | ⟨hfront, hq⟩)
        · exact ⟨prefix_rfl, prefix_append _ _⟩
        · exact ⟨(prefix_append _ _).trans hfront, hq⟩
    have hstep {s : Tree σ δ} (hs : ∀ p, s.node p = if p = done ++ [name] then some .dir
        else t.node p) (hmake : s.makeDirs (done ++ [name]) rest = .ok t') :
        t'.node q = if done <+: q ∧ q <+: done ++ name :: rest then some .dir else t.node q := by
      rw [ih (by rw [hs, if_pos rfl]) hmake, hs]
      simp only [hnext]
      by_cases hlast : done ++ [name] <+: q ∧ q <+: done ++ [name] ++ rest
      · rw [if_pos hlast, if_pos (.inr hlast)]
      · rw [if_neg hlast]
        have hne : q ≠ done ++ [name] := by
          rintro rfl
          exact hlast ⟨prefix_rfl, prefix_append _ _⟩
        rw [if_neg hne]
        split
        · rename_i hq
          rcases hq with rfl | hq
          · exact hdone
          · exact absurd hq hlast
        · rfl
    unfold makeDirs at h
    split at h
    · rename_i hdir
      refine hstep (fun p ↦ ?_) h
      split
      · rename_i hp
        rw [hp, hdir]
      · rfl
    · cases h
    · rcases hplace : t.place (done ++ [name]) .dir with _ | s
      · rw [hplace] at h
        cases h
      · rw [hplace] at h
        obtain ⟨-, -, hnode⟩ := place_eq_ok hplace
        refine hstep (fun p ↦ ?_) h
        rw [hnode, update_apply]

theorem removeFile_eq_ok (h : t.removeFile path = .ok t') :
    (∃ data, t.node path = some (.file data)) ∧
      ∀ q, t'.node q = if path <+: q then none else t.node q := by
  unfold removeFile at h
  split at h
  · rename_i data hdata
    split at h
    · cases h
      exact ⟨⟨data, hdata⟩, fun _ ↦ rfl⟩
    · cases h
  · cases h
  · cases h

theorem removeDirAll_eq_ok (h : t.removeDirAll path = .ok t') :
    t.node path = some .dir ∧ ∀ q, t'.node q = if path <+: q then none else t.node q := by
  unfold removeDirAll at h
  split at h
  · rename_i hdir
    split at h
    · cases h
      exact ⟨hdir, fun _ ↦ rfl⟩
    · cases h
  · cases h
  · cases h

theorem rename_eq_ok {source target : List σ} (h : t.rename source target = .ok t') :
    ∃ data, t.node source = some (.file data) ∧
      ∀ q, t'.node q = if q = target then some (.file data) else
        if source <+: q then none else t.node q := by
  unfold rename at h
  split at h
  · rename_i data hdata
    rcases hremove : t.removeFile source with _ | s
    · rw [hremove] at h
      cases h
    · rw [hremove] at h
      obtain ⟨-, hnode⟩ := removeFile_eq_ok hremove
      obtain ⟨-, -, hplace⟩ := place_eq_ok h
      refine ⟨data, hdata, fun q ↦ ?_⟩
      rw [hplace, update_apply, hnode]
  · cases h
  · cases h

end Operations

end Tree

end FileTree
