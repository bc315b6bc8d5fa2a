import Mathlib.Data.Finset.Card
import Mathlib.Data.List.Chain

/-!
# Depth-first search in a graph of owned nodes

A graph in which every node has at most one *owner* and every owner points at a list of nodes:
`owner : β → Option κ`, `succ : κ → List β`. The question is whether a given owner is reached from
a node by alternating the two maps, and the algorithm is the recursive depth-first search that
shares one `seen` set of owners over the whole search and pushes and pops the nodes it walks on one
path.

The `seen` set is shared between siblings, so a `false` from a subtree does not say that the goal is
out of reach of that node: it may have been cut off at an owner that is still on the stack. What
survives is a statement about the *returned* set, `search_false`: the owners the call added have all
their successors inside it. At the top of the search nothing is on the stack, so the returned set
is closed and misses the goal (`search_exact`).

Fuel bounds the depth of the recursion. Each level adds an owner to `seen`, so one more than the
number of owners always suffices (`search_isSome`).

The last section is about cycles of a relation that grows by edges with a common source, or by edges
into a vertex that has no way out.
-/

open Relation

open List

namespace Search

variable {β κ : Type*} [DecidableEq κ]

/-! ## The search -/

section Search

variable (owner : β → Option κ) (succ : κ → List β) (goal : κ)

/-- The loop over the successors: push, search, pop. `rec` is the search one level down. -/
def searchAny (rec : β → List β → Finset κ → Option (Bool × List β × Finset κ)) :
    List β → List β → Finset κ → Option (Bool × List β × Finset κ)
  | [], path, seen => some (false, path, seen)
  | b :: bs, path, seen =>
    match rec b (path ++ [b]) seen with
    | none => none
    | some (true, path', seen') => some (true, path', seen')
    | some (false, path', seen') => searchAny rec bs path'.dropLast seen'

/-- Is `goal` reached from the owner of `b`? Returns the verdict, the path and the `seen` set as
the search leaves them; `none` when the fuel runs out. -/
def search : ℕ → β → List β → Finset κ → Option (Bool × List β × Finset κ)
  | 0, _, _, _ => none
  | n + 1, b, path, seen =>
    match owner b with
    | none => some (false, path, seen)
    | some k =>
      if k = goal then some (true, path, seen)
      else if k ∈ seen then some (false, path, seen)
      else searchAny (search n) (succ k) path (insert k seen)

/-- One hop of a walk: the owner of `b` points at `b'`. -/
def Hop (b b' : β) : Prop := ∃ k, owner b = some k ∧ b' ∈ succ k

/-- Nothing outside `seen` is reached from `b` in one step, and the goal is not its owner. -/
def Stuck (seen : Finset κ) (b : β) : Prop := ∀ k, owner b = some k → k ∈ seen ∧ k ≠ goal

variable {owner succ goal}

/-- What a `false` answer guarantees: the path is as it was, and the owners the call added have all
their successors inside the returned set. -/
structure Exhausted (owner : β → Option κ) (succ : κ → List β) (goal : κ) (path : List β)
    (seen : Finset κ) (path' : List β) (seen' : Finset κ) : Prop where
  path_eq : path' = path
  subset : seen ⊆ seen'
  closed : ∀ k ∈ seen', k ∉ seen → ∀ b ∈ succ k, Stuck owner goal seen' b

/-- The walks a `true` answer exhibits: from `b` along `tail` to a node `goal` owns. -/
def Witness (owner : β → Option κ) (succ : κ → List β) (goal : κ) (b : β) (tail : List β) : Prop :=
  List.IsChain (Hop owner succ) (b :: tail) ∧
    owner ((b :: tail).getLast (cons_ne_nil _ _)) = some goal

omit [DecidableEq κ] in
theorem Stuck.mono {seen seen' : Finset κ} (h : seen ⊆ seen') {b : β}
    (hb : Stuck owner goal seen b) : Stuck owner goal seen' b :=
  fun k hk ↦ ⟨h (hb k hk).1, (hb k hk).2⟩

theorem Exhausted.trans {p p' p'' : List β} {s s' s'' : Finset κ}
    (h : Exhausted owner succ goal p s p' s')
    (h' : Exhausted owner succ goal p' s' p'' s'') :
    Exhausted owner succ goal p s p'' s'' where
  path_eq := h'.path_eq.trans h.path_eq
  subset := h.subset.trans h'.subset
  closed k hk hks b hb := by
    by_cases hk' : k ∈ s'
    · exact (h.closed k hk' hks b hb).mono h'.subset
    · exact h'.closed k hk hk' b hb

private theorem searchAny_false
    {rec : β → List β → Finset κ → Option (Bool × List β × Finset κ)}
    (hrec : ∀ b p s p' s', rec b p s = some (false, p', s') →
      Exhausted owner succ goal p s p' s' ∧
        Stuck owner goal s' b) :
    ∀ (bs path : List β) (seen : Finset κ) (path' : List β) (seen' : Finset κ),
      searchAny rec bs path seen = some (false, path', seen') →
      Exhausted owner succ goal path seen path' seen' ∧
        ∀ b ∈ bs, Stuck owner goal seen' b := by
  intro bs
  induction bs with
  | nil =>
    intro path seen path' seen' h
    obtain ⟨rfl, rfl⟩ : path = path' ∧ seen = seen' := by simpa [searchAny] using h
    exact ⟨⟨rfl, Finset.Subset.refl _, fun k hk hks ↦ absurd hk hks⟩, by simp⟩
  | cons b bs ih =>
    intro path seen path' seen' h
    rw [searchAny] at h
    split at h
    · cases h
    · cases h
    · next p₁ s₁ hb =>
      obtain ⟨hex, hstuck⟩ := hrec _ _ _ _ _ hb
      rw [hex.path_eq, dropLast_concat] at h
      obtain ⟨hex', hrest⟩ := ih _ _ _ _ h
      -- the pop restores the path, so the first call reads as leaving it alone
      have hfirst : Exhausted owner succ goal path seen path s₁ :=
        ⟨rfl, hex.subset, hex.closed⟩
      refine ⟨hfirst.trans hex', fun b' hb' ↦ ?_⟩
      rcases mem_cons.mp hb' with rfl | hb'
      · exact hstuck.mono hex'.subset
      · exact hrest b' hb'

/-- **A `false` answer.** -/
theorem search_false (n : ℕ) : ∀ (b : β) (path : List β) (seen : Finset κ) (path' : List β)
    (seen' : Finset κ), search owner succ goal n b path seen = some (false, path', seen') →
      Exhausted owner succ goal path seen path' seen' ∧
        Stuck owner goal seen' b := by
  induction n with
  | zero => intro b path seen path' seen' h; cases h
  | succ n ih =>
    intro b path seen path' seen' h
    rw [search] at h
    split at h
    · next hb =>
      obtain ⟨rfl, rfl⟩ : path = path' ∧ seen = seen' := by simpa using h
      exact ⟨⟨rfl, Finset.Subset.refl _, fun k hk hks ↦ absurd hk hks⟩, by simp [Stuck, hb]⟩
    · next k hb =>
      split at h
      · cases h
      next hgoal =>
      split at h
      · next hseen =>
        obtain ⟨rfl, rfl⟩ : path = path' ∧ seen = seen' := by simpa using h
        refine ⟨⟨rfl, Finset.Subset.refl _, fun k hk hks ↦ absurd hk hks⟩, fun k' hk' ↦ ?_⟩
        obtain rfl : k = k' := by simpa [hb] using hk'
        exact ⟨hseen, hgoal⟩
      · obtain ⟨hex, hsucc⟩ := searchAny_false ih _ _ _ _ _ h
        have hk : k ∈ seen' := hex.subset (Finset.mem_insert_self _ _)
        refine ⟨⟨hex.path_eq, (Finset.subset_insert _ _).trans hex.subset, ?_⟩, ?_⟩
        · intro k' hk' hseen b' hb'
          by_cases hkk : k' = k
          · exact hsucc b' (hkk ▸ hb')
          · exact hex.closed k' hk' (by simp [hkk, hseen]) b' hb'
        · intro k' hk'
          obtain rfl : k = k' := by simpa [hb] using hk'
          exact ⟨hk, hgoal⟩

omit [DecidableEq κ] in
private theorem searchAny_true
    {rec : β → List β → Finset κ → Option (Bool × List β × Finset κ)}
    (hfalse : ∀ b p s p' s', rec b p s = some (false, p', s') → p' = p)
    (htrue : ∀ b p s p' s', rec b p s = some (true, p', s') →
      ∃ tail, p' = p ++ tail ∧ Witness owner succ goal b tail) :
    ∀ (bs path : List β) (seen : Finset κ) (path' : List β) (seen' : Finset κ),
      searchAny rec bs path seen = some (true, path', seen') →
      ∃ b ∈ bs, ∃ tail, path' = path ++ b :: tail ∧ Witness owner succ goal b tail := by
  intro bs
  induction bs with
  | nil => intro path seen path' seen' h; simp [searchAny] at h
  | cons b bs ih =>
    intro path seen path' seen' h
    rw [searchAny] at h
    split at h
    · cases h
    · next p₁ s₁ hb =>
      obtain ⟨rfl, rfl⟩ : p₁ = path' ∧ s₁ = seen' := by simpa using h
      obtain ⟨tail, rfl, hw⟩ := htrue _ _ _ _ _ hb
      exact ⟨b, mem_cons_self, tail, by simp, hw⟩
    · next p₁ s₁ hb =>
      rw [hfalse _ _ _ _ _ hb, dropLast_concat] at h
      obtain ⟨b', hb', tail, hpath, hw⟩ := ih _ _ _ _ h
      exact ⟨b', mem_cons_of_mem _ hb', tail, hpath, hw⟩

theorem search_true (n : ℕ) : ∀ (b : β) (path : List β) (seen : Finset κ) (path' : List β)
    (seen' : Finset κ), search owner succ goal n b path seen = some (true, path', seen') →
      ∃ tail, path' = path ++ tail ∧ Witness owner succ goal b tail := by
  induction n with
  | zero => intro b path seen path' seen' h; cases h
  | succ n ih =>
    intro b path seen path' seen' h
    rw [search] at h
    split at h
    · cases h
    · next k hb =>
      split at h
      · next hgoal =>
        obtain ⟨rfl, rfl⟩ : path = path' ∧ seen = seen' := by simpa using h
        exact ⟨[], by simp, isChain_singleton _, by simpa [hgoal] using hb⟩
      split at h
      · cases h
      · obtain ⟨b', hb', tail, hpath, hchain, hlast⟩ :=
          searchAny_true (fun b p s p' s' h ↦ (search_false n b p s p' s' h).1.path_eq) ih
            _ _ _ _ _ h
        refine ⟨b' :: tail, hpath, isChain_cons_cons.mpr ⟨⟨k, hb, hb'⟩, hchain⟩, ?_⟩
        rwa [getLast_cons_cons]

omit [DecidableEq κ] in
private theorem searchAny_isSome
    {rec : β → List β → Finset κ → Option (Bool × List β × Finset κ)} {P : Finset κ → Prop}
    (hrec : ∀ b p s, P s → (rec b p s).isSome)
    (hsub : ∀ b p s p' s', P s → rec b p s = some (false, p', s') → P s') :
    ∀ (bs path : List β) (seen : Finset κ), P seen → (searchAny rec bs path seen).isSome := by
  intro bs
  induction bs with
  | nil => intro path seen _; rfl
  | cons b bs ih =>
    intro path seen hP
    rw [searchAny]
    split
    · next h => simpa [h] using hrec b (path ++ [b]) seen hP
    · rfl
    · next h => exact ih _ _ (hsub _ _ _ _ _ hP h)

/-- Fuel above the number of owners not yet seen is enough. -/
theorem search_isSome {owners : Finset κ} (howners : ∀ b k, owner b = some k → k ∈ owners) (n : ℕ) :
    ∀ (b : β) (path : List β) (seen : Finset κ), (owners \ seen).card < n →
      (search owner succ goal n b path seen).isSome := by
  induction n with
  | zero => intro b path seen h; omega
  | succ n ih =>
    intro b path seen h
    rw [search]
    split
    · rfl
    · next k hb =>
      split
      · rfl
      split
      · rfl
      next hseen =>
      refine searchAny_isSome (P := fun s ↦ (owners \ s).card < n) (fun b p s hs ↦ ih b p s hs)
        (fun b p s p' s' hs hrec ↦ ?_) _ _ _ ?_
      · exact lt_of_le_of_lt (Finset.card_le_card
          (Finset.sdiff_subset_sdiff (Finset.Subset.refl _) (search_false n _ _ _ _ _ hrec).1.subset))
          hs
      · have hlt : (owners \ insert k seen).card < (owners \ seen).card := by
          refine Finset.card_lt_card ⟨Finset.sdiff_subset_sdiff (Finset.Subset.refl _)
            (Finset.subset_insert _ _), fun hsub ↦ ?_⟩
          have hk := hsub (Finset.mem_sdiff.mpr ⟨howners b k hb, hseen⟩)
          exact (Finset.mem_sdiff.mp hk).2 (Finset.mem_insert_self _ _)
        omega

/-- **Exactness.** A search that starts with nothing seen answers `true` exactly when a walk to the
goal exists, and then the path it returns is such a walk. -/
theorem search_exact (succ : κ → List β) (goal : κ) {owners : Finset κ}
    (howners : ∀ b k, owner b = some k → k ∈ owners) {n : ℕ} (hn : owners.card < n) (b : β)
    (path : List β) :
    ∃ found path' seen', search owner succ goal n b path ∅ = some (found, path', seen') ∧
      (found = true ↔ ∃ tail, Witness owner succ goal b tail) ∧
      (found = true → ∃ tail, path' = path ++ tail ∧ Witness owner succ goal b tail) := by
  have hsome : (search owner succ goal n b path ∅).isSome :=
    search_isSome howners n b path ∅ (by simpa using hn)
  obtain ⟨⟨found, path', seen'⟩, h⟩ := Option.isSome_iff_exists.mp hsome
  refine ⟨found, path', seen', h, ⟨fun hf ↦ ?_, fun ⟨tail, hw⟩ ↦ ?_⟩, fun hf ↦ ?_⟩
  · subst hf
    obtain ⟨tail, -, hw⟩ := search_true n _ _ _ _ _ h
    exact ⟨tail, hw⟩
  · -- a `false` answer leaves a closed set that the whole walk would have to stay inside
    by_contra hf
    obtain rfl : found = false := by simpa using hf
    obtain ⟨hex, hstuck⟩ := search_false n _ _ _ _ _ h
    have hwalk : ∀ (tail : List β) (b : β), Stuck owner goal seen' b →
        ¬Witness owner succ goal b tail := by
      intro tail
      induction tail with
      | nil => intro b hb hw; exact (hb goal hw.2).2 rfl
      | cons b' tail ih =>
        intro b hb hw
        obtain ⟨⟨k, hk, hb'⟩, hchain⟩ := isChain_cons_cons.mp hw.1
        refine ih b' (hex.closed k (hb k hk).1 (Finset.notMem_empty k) b' hb') ⟨hchain, ?_⟩
        have hlast := hw.2
        rwa [getLast_cons_cons] at hlast
    exact hwalk tail b hstuck hw
  · subst hf
    exact search_true n _ _ _ _ _ h

end Search

section Walks

variable {owner : β → Option κ} {succ : κ → List β}

def Edge (owner : β → Option κ) (succ : κ → List β) (k k' : κ) : Prop :=
  ∃ b ∈ succ k, owner b = some k'

omit [DecidableEq κ] in
theorem exists_witness_iff {goal : κ} {b : β} :
    (∃ tail, Witness owner succ goal b tail) ↔
      ∃ k, owner b = some k ∧ ReflTransGen (Edge owner succ) k goal := by
  constructor
  · rintro ⟨tail, hw⟩
    induction tail generalizing b with
    | nil => exact ⟨goal, hw.2, .refl⟩
    | cons b' tail ih =>
      obtain ⟨⟨k, hk, hb'⟩, hchain⟩ := isChain_cons_cons.mp hw.1
      have hlast := hw.2
      rw [getLast_cons_cons] at hlast
      obtain ⟨k', hk', hpath⟩ := ih ⟨hchain, hlast⟩
      exact ⟨k, hk, hpath.head ⟨b', hb', hk'⟩⟩
  · rintro ⟨k, hk, hpath⟩
    induction hpath using ReflTransGen.head_induction_on generalizing b with
    | refl => exact ⟨[], isChain_singleton _, hk⟩
    | head hedge _ ih =>
      obtain ⟨b', hb', hk'⟩ := hedge
      obtain ⟨tail, hchain, hlast⟩ := ih hk'
      refine ⟨b' :: tail, isChain_cons_cons.mpr ⟨⟨_, hk, hb'⟩, hchain⟩, ?_⟩
      rwa [getLast_cons_cons]

end Walks

/-! ## Cycles -/

section Cycles

variable {α : Type*} {r r' : α → α → Prop}

/-- No vertex reaches itself by one edge or more. -/
def Acyclic (r : α → α → Prop) : Prop := ∀ a, ¬TransGen r a a

theorem Acyclic.mono (h : Acyclic r) (hsub : ∀ a b, r' a b → r a b) : Acyclic r' :=
  fun a ha ↦ h a (TransGen.mono hsub _ _ ha)

/-- A path that may use new edges from `u` either uses none, or goes through `u` and ends with a
stretch of old edges after its last new one. -/
theorem transGen_of_added_source {u : α} {P : α → Prop}
    (hadd : ∀ a b, r' a b → r a b ∨ a = u ∧ P b) {x y : α} (h : TransGen r' x y) :
    TransGen r x y ∨ ∃ v, P v ∧ r' u v ∧ ReflTransGen r' x u ∧ ReflTransGen r v y := by
  induction h with
  | single hxy =>
    rcases hadd _ _ hxy with hr | ⟨rfl, hP⟩
    · exact .inl (.single hr)
    · exact .inr ⟨_, hP, hxy, .refl, .refl⟩
  | tail hxb hbc ih =>
    rcases hadd _ _ hbc with hr | ⟨rfl, hP⟩
    · rcases ih with ih | ⟨v, hv, huv, hxu, hvb⟩
      · exact .inl (ih.tail hr)
      · exact .inr ⟨v, hv, huv, hxu, hvb.tail hr⟩
    · exact .inr ⟨_, hP, hbc, hxb.to_reflTransGen, .refl⟩

/-- An acyclic relation stays acyclic under new edges from `u`, unless one of their targets reaches
`u` already. -/
theorem Acyclic.add_source {u : α} {P : α → Prop} (h : Acyclic r) (hsub : ∀ a b, r a b → r' a b)
    (hadd : ∀ a b, r' a b → r a b ∨ a = u ∧ P b) (hP : ∀ v, P v → ¬ReflTransGen r v u) :
    Acyclic r' := by
  have hu : ¬TransGen r' u u := fun hc ↦ by
    rcases transGen_of_added_source hadd hc with hc | ⟨v, hv, -, -, hvu⟩
    · exact h u hc
    · exact hP v hv hvu
  intro a ha
  rcases transGen_of_added_source hadd ha with hc | ⟨v, hv, huv, hau, hva⟩
  · exact h a hc
  · -- a cycle that uses a new edge passes through `u`
    have hva' : ReflTransGen r' v a := ReflTransGen.mono hsub _ _ hva
    exact hu (TransGen.head' huv (hva'.trans hau))

theorem Acyclic.add_sink {v : α} (h : Acyclic r) (hadd : ∀ a b, r' a b → r a b ∨ b = v)
    (hsink : ∀ b, ¬r' v b) : Acyclic r' := by
  have hold : ∀ {x y : α}, TransGen r' x y → y ≠ v → TransGen r x y := by
    intro x y hxy
    induction hxy with
    | single hxy => exact fun hv ↦ .single ((hadd _ _ hxy).resolve_right hv)
    | tail _ hbc ih =>
      exact fun hv ↦ (ih fun hb ↦ hsink _ (hb ▸ hbc)).tail ((hadd _ _ hbc).resolve_right hv)
  intro a ha
  by_cases hav : a = v
  · obtain ⟨b, hab, -⟩ := TransGen.head'_iff.mp ha
    exact hsink b (hav ▸ hab)
  · exact h a (hold ha hav)

end Cycles

end Search
