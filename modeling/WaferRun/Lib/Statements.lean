import WaferRun.Lib.Fallible

/-!
# Statements, in order and as one transaction

A store is changed by statements, each of which may fail and otherwise answers something and leaves
the store changed. They are run one after another, or as one transaction, which has no effect unless
every one of them succeeds.

The statements of a transaction may have been planned for other operations, which could have been
performed one at a time. If every statement leaves what its operation would have left, a transaction
that succeeds leaves what performing the operations in order leaves (`Replays`).
-/

namespace Statements

variable {ε ι ρ σ α ω : Type}

/-- Run statements one after another, with what each answers. -/
def runInOrder (step : ι → σ → Except ε (ρ × σ)) : List ι → σ → Except ε (List ρ × σ)
  | [], s => .ok ([], s)
  | i :: is, s => do
    let (r, s) ← step i s
    let (rs, s) ← runInOrder step is s
    return (r :: rs, s)

def transact (step : ι → σ → Except ε (ρ × σ)) (is : List ι) (s : σ) : Except ε (List ρ) × σ :=
  match runInOrder step is s with
  | .error e => (.error e, s)
  | .ok (rs, s') => (.ok rs, s')

/-- Performing operations one after another, `single a s` being what operation `a` leaves of the
store `s`: the outcomes describe the operations, each in the store that it found. -/
inductive Replays (single : α → σ → σ) (Describes : α → σ → ω → Prop) :
    List α → σ → List ω → σ → Prop
  | nil (s : σ) : Replays single Describes [] s [] s
  | cons {a : α} {s : σ} {w : ω} {as : List α} {ws : List ω} {s' : σ} (hdescribes : Describes a s w)
      (hrest : Replays single Describes as (single a s) ws s') :
      Replays single Describes (a :: as) s (w :: ws) s'

section

variable {single : α → σ → σ} {Describes : α → σ → ω → Prop} {as : List α} {s s' : σ} {ws : List ω}

theorem Replays.foldl_eq (h : Replays single Describes as s ws s') :
    as.foldl (fun s a ↦ single a s) s = s' := by
  induction h with
  | nil s => rfl
  | cons _ _ ih => exact ih

end

section

variable {step : ι → σ → Except ε (ρ × σ)} {i : ι} {is : List ι} {s s' : σ} {rs : List ρ}

theorem runInOrder_cons_eq_ok_iff {r : List ρ × σ} :
    runInOrder step (i :: is) s = .ok r ↔ ∃ a s₁ as s₂, step i s = .ok (a, s₁) ∧
      runInOrder step is s₁ = .ok (as, s₂) ∧ r = (a :: as, s₂) := by
  rw [runInOrder, Fallible.bind_eq_ok]
  constructor
  · rintro ⟨⟨a, s₁⟩, hstep, h⟩
    obtain ⟨⟨as, s₂⟩, hrest, h⟩ := Fallible.bind_eq_ok.mp h
    exact ⟨a, s₁, as, s₂, hstep, hrest, (Except.ok.inj h).symm⟩
  · rintro ⟨a, s₁, as, s₂, hstep, hrest, rfl⟩
    exact ⟨(a, s₁), hstep, Fallible.bind_eq_ok.mpr ⟨(as, s₂), hrest, rfl⟩⟩

theorem length_of_runInOrder (h : runInOrder step is s = .ok (rs, s')) : rs.length = is.length := by
  induction is generalizing s rs with
  | nil =>
    rw [← (Prod.mk.inj (Except.ok.inj h)).1]
    rfl
  | cons i is ih =>
    obtain ⟨a, s₁, as, s₂, _, hrest, hr⟩ := runInOrder_cons_eq_ok_iff.mp h
    obtain ⟨rfl, rfl⟩ := Prod.mk.inj hr
    rw [List.length_cons, List.length_cons, ih hrest]

theorem runInOrder_map {κ : Type} (f : κ → ι) (ks : List κ) :
    runInOrder step (ks.map f) s = runInOrder (fun k ↦ step (f k)) ks s := by
  induction ks generalizing s with
  | nil => rfl
  | cons k ks ih =>
    rw [List.map_cons, runInOrder, runInOrder]
    rcases step (f k) s with e | ⟨r, s₁⟩
    · rfl
    · exact congrArg (fun x ↦ x >>= fun (rs, s) ↦ Except.ok (r :: rs, s)) ih

/-- **A transaction replays the operations it was planned for**, if every statement leaves what its
operation leaves and answers what describes it. -/
theorem exists_replays_of_runInOrder {Plans : α → ι → Prop} {single : α → σ → σ}
    {Describes : α → σ → ω → Prop} (Decodes : ι → ρ → ω → Prop)
    (hstep : ∀ a i s r s', Plans a i → step i s = .ok (r, s') →
      single a s = s' ∧ ∃ w, Decodes i r w ∧ Describes a s w)
    {as : List α} (hplans : List.Forall₂ Plans as is) (h : runInOrder step is s = .ok (rs, s')) :
    ∃ ws, List.Forall₂ (fun (p : ι × ρ) w ↦ Decodes p.1 p.2 w) (is.zip rs) ws ∧
      Replays single Describes as s ws s' := by
  induction hplans generalizing s rs with
  | nil =>
    obtain ⟨rfl, rfl⟩ := Prod.mk.inj (Except.ok.inj h)
    exact ⟨[], .nil, .nil s⟩
  | cons hplan _ ih =>
    obtain ⟨r, s₁, rs', s₂, hi, hrest, hr⟩ := runInOrder_cons_eq_ok_iff.mp h
    obtain ⟨rfl, rfl⟩ := Prod.mk.inj hr
    obtain ⟨hsingle, w, hdecodes, hdescribes⟩ := hstep _ _ _ _ _ hplan hi
    obtain ⟨ws, hws, hreplays⟩ := ih hrest
    exact ⟨w :: ws, .cons hdecodes hws, .cons hdescribes (hsingle ▸ hreplays)⟩

end

end Statements
