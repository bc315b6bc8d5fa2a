import Mathlib.Algebra.Order.Monoid.Defs
import Mathlib.Data.List.Induction
import Mathlib.Data.List.Nodup
import Mathlib.Data.List.Perm.Subperm

/-!
# Fixed windows

Calls are counted in windows. A window starts with a call; a later call either falls into it and is
counted, or finds it expired and starts the next one. What has expired is for each call to say; if
the windows have a fixed length, it is a window that started more than this length ago.

The calls of one window have the numbers 1, 2, 3, … in turn, so of any window at most `m` calls have
a number up to `m`. Windows of a fixed length start more than that length apart, so a span of time
of the same length meets at most two of them.
-/

open List

namespace Windows

variable {T : Type*}

structure Window (T : Type*) where
  start : T
  calls : ℕ
deriving DecidableEq

/-- A call: when it is made, and which windows it finds expired. -/
structure Call (T : Type*) where
  time : T
  expired : T → Bool

def Window.next (c : Call T) : Option (Window T) → Window T
  | none => ⟨c.time, 1⟩
  | some w => if c.expired w.start then ⟨c.time, 1⟩ else ⟨w.start, w.calls + 1⟩

def run (w : Option (Window T)) : List (Call T) → List (T × Window T)
  | [] => []
  | c :: cs => (c.time, Window.next c w) :: run (some (Window.next c w)) cs

def after (w : Option (Window T)) (cs : List (Call T)) : Option (Window T) :=
  cs.foldl (fun w c ↦ some (Window.next c w)) w

@[simp]
theorem after_append_singleton (w : Option (Window T)) (cs : List (Call T)) (c : Call T) :
    after w (cs ++ [c]) = some (Window.next c (after w cs)) := by
  rw [after, foldl_append]
  rfl

def Starts (w : Option (Window T)) (c : Call T) : Prop := ∀ v ∈ w, c.expired v.start = true

theorem exists_starts_of_after {cs : List (Call T)} {w : Window T} (h : after none cs = some w) :
    ∃ before c rest, cs = before ++ c :: rest ∧ Starts (after none before) c ∧
      (∀ mid d rest', rest = mid ++ d :: rest' → ¬ Starts (after none (before ++ c :: mid)) d) ∧
      w = ⟨c.time, rest.length + 1⟩ := by
  induction cs using List.reverseRecOn generalizing w with
  | nil => cases h
  | append_singleton cs c ih =>
    obtain rfl := Option.some.inj ((after_append_singleton none cs c).symm.trans h)
    by_cases hstarts : Starts (after none cs) c
    · refine ⟨cs, c, [], rfl, hstarts, fun mid d rest' hrest ↦ ?_, ?_⟩
      · exact absurd hrest (by simp)
      · rcases hv : after none cs with - | v
        · rfl
        · exact if_pos (hstarts v hv)
    · obtain ⟨v, hv, hexp⟩ : ∃ v, after none cs = some v ∧ ¬ c.expired v.start = true := by
        by_contra hall
        exact hstarts fun v hv ↦ by_contra fun hexp ↦ hall ⟨v, hv, hexp⟩
      obtain ⟨before, c₀, rest, rfl, hc₀, hrest, rfl⟩ := ih hv
      refine ⟨before, c₀, rest ++ [c], by simp, hc₀, fun mid d rest' heq ↦ ?_, ?_⟩
      · -- the call is the last of the rest, or one that did not start a window before
        rcases eq_nil_or_concat rest' with rfl | ⟨rest', d', rfl⟩
        · obtain ⟨rfl, hd⟩ := List.append_inj' heq rfl
          rwa [← singleton_inj.mp hd]
        · refine hrest mid d rest' ?_
          rw [concat_eq_append, ← cons_append, ← append_assoc] at heq
          exact (List.append_inj' heq rfl).1
      · rw [hv, Window.next, if_neg hexp, length_append, length_singleton]

theorem run_map {S : Type*} (f : T → S) (g : Call T → Call S) {w : Option (Window T)}
    {cs : List (Call T)} (htime : ∀ c ∈ cs, (g c).time = f c.time)
    (hw : ∀ v ∈ w, ∀ c ∈ cs, (g c).expired (f v.start) = c.expired v.start)
    (hexp : ∀ c ∈ cs, ∀ d ∈ cs, (g d).expired (f c.time) = d.expired c.time) :
    run (w.map fun v ↦ ⟨f v.start, v.calls⟩) (cs.map g) =
      (run w cs).map fun e ↦ (f e.1, ⟨f e.2.start, e.2.calls⟩) := by
  induction cs generalizing w with
  | nil => rfl
  | cons c cs ih =>
    have hnext : Window.next (g c) (w.map fun v ↦ ⟨f v.start, v.calls⟩) =
        ⟨f (Window.next c w).start, (Window.next c w).calls⟩ := by
      rcases w with - | v
      · exact congrArg (Window.mk · 1) (htime c mem_cons_self)
      · simp only [Option.map_some, Window.next, hw v rfl c mem_cons_self]
        split
        · exact congrArg (Window.mk · 1) (htime c mem_cons_self)
        · rfl
    have hrest : ∀ v ∈ some (Window.next c w), ∀ d ∈ cs,
        (g d).expired (f v.start) = d.expired v.start := by
      intro v hv d hd
      obtain rfl := Option.mem_some.mp hv
      rcases w with - | v
      · exact hexp c mem_cons_self d (mem_cons_of_mem _ hd)
      · rw [Window.next]
        split
        · exact hexp c mem_cons_self d (mem_cons_of_mem _ hd)
        · exact hw v rfl d (mem_cons_of_mem _ hd)
    rw [map_cons, run, run, map_cons, hnext, htime c mem_cons_self]
    exact congrArg _ (ih (fun d hd ↦ htime d (mem_cons_of_mem _ hd)) hrest
      fun d hd d' hd' ↦ hexp d (mem_cons_of_mem _ hd) d' (mem_cons_of_mem _ hd'))

theorem countP_or_le {α : Type*} (p q : α → Bool) (l : List α) :
    (l.countP fun a ↦ p a || q a) ≤ l.countP p + l.countP q := by
  induction l with
  | nil => exact Nat.le_refl 0
  | cons a l ih =>
    rw [countP_cons, countP_cons, countP_cons]
    cases p a <;> cases q a <;> simp only [Bool.or_self, Bool.or_true, Bool.or_false, if_true,
      Bool.false_eq_true, if_false] <;> omega

theorem exists_mem_run_of_lt {w : Option (Window T)} {cs : List (Call T)} {e : T × Window T}
    (he : e ∈ run w cs) {k : ℕ} (hk : 0 < k) (hlt : k < e.2.calls) :
    (∃ e' ∈ run w cs, e'.2 = ⟨e.2.start, k⟩) ∨ ∃ v ∈ w, v.start = e.2.start ∧ k ≤ v.calls := by
  induction cs generalizing w with
  | nil => exact absurd he not_mem_nil
  | cons c cs ih =>
    -- a window that was carried into the call has reached one number less before it
    have hnext : (Window.next c w).start = e.2.start → k < (Window.next c w).calls →
        ∃ v ∈ w, v.start = e.2.start ∧ k ≤ v.calls := by
      intro hstart hcalls
      rcases w with - | v
      · exact absurd (Nat.lt_one_iff.mp hcalls) hk.ne'
      · by_cases hexp : c.expired v.start
        · rw [Window.next, if_pos hexp] at hcalls
          exact absurd (Nat.lt_one_iff.mp hcalls) hk.ne'
        · rw [Window.next, if_neg hexp] at hstart hcalls
          exact ⟨v, rfl, hstart, Nat.lt_succ_iff.mp hcalls⟩
    rcases mem_cons.mp he with rfl | he
    · exact .inr (hnext rfl hlt)
    · rcases ih he with ⟨e', he', heq⟩ | ⟨v, hv, hstart, hcalls⟩
      · exact .inl ⟨e', mem_cons_of_mem _ he', heq⟩
      · obtain rfl := Option.mem_some.mp hv
        rcases Nat.lt_or_ge k (Window.next c w).calls with hlt' | hge
        · exact .inr (hnext hstart hlt')
        · refine .inl ⟨(c.time, Window.next c w), mem_cons_self, ?_⟩
          have hk' : (Window.next c w).calls = k := le_antisymm hge hcalls
          rw [← hstart, ← hk']

theorem calls_pos_of_mem_run {w : Option (Window T)} {cs : List (Call T)} {e : T × Window T}
    (he : e ∈ run w cs) : 0 < e.2.calls := by
  induction cs generalizing w with
  | nil => exact absurd he not_mem_nil
  | cons c cs ih =>
    rcases mem_cons.mp he with rfl | he
    · unfold Window.next
      split
      · exact Nat.one_pos
      · split_ifs
        · exact Nat.one_pos
        · exact Nat.succ_pos _
    · exact ih he

/-- A call of a window numbered at least `k` follows one numbered `k`, if the window started in the
run. -/
theorem exists_mem_run {cs : List (Call T)} {e : T × Window T} (he : e ∈ run none cs) {k : ℕ}
    (hk : 0 < k) (hle : k ≤ e.2.calls) : ∃ e' ∈ run none cs, e'.2 = ⟨e.2.start, k⟩ := by
  rcases hle.eq_or_lt with rfl | hlt
  · exact ⟨e, he, rfl⟩
  · rcases exists_mem_run_of_lt he hk hlt with h | ⟨v, hv, -⟩
    · exact h
    · exact absurd hv (Option.not_mem_none v)

/-- If a call of a window is numbered at least as high as the numbers of a list, the window has that
many calls with such numbers. -/
theorem length_le_countP [DecidableEq T] {cs : List (Call T)} {e : T × Window T}
    (he : e ∈ run none cs) {p : ℕ → Bool} {ks : List ℕ} (hks : ks.Nodup)
    (hp : ∀ k ∈ ks, 0 < k ∧ k ≤ e.2.calls ∧ p k) :
    ks.length ≤ (run none cs).countP fun e' ↦ e'.2.start = e.2.start ∧ p e'.2.calls := by
  have hsub : ks ⊆ ((run none cs).filter fun e' ↦ e'.2.start = e.2.start ∧ p e'.2.calls).map
      fun e' ↦ e'.2.calls := by
    intro k hk
    obtain ⟨hpos, hle, hpk⟩ := hp k hk
    obtain ⟨e', he', heq⟩ := exists_mem_run he hpos hle
    refine mem_map.mpr ⟨e', mem_filter.mpr ⟨he', ?_⟩, by rw [heq]⟩
    rw [heq]
    exact decide_eq_true ⟨rfl, hpk⟩
  rw [countP_eq_length_filter]
  calc ks.length ≤ _ := (hks.subperm hsub).length_le
    _ = _ := length_map _

/-! ## Windows of a fixed length -/

variable [AddCommMonoid T] [LinearOrder T] [IsOrderedCancelAddMonoid T]

/-- A call that finds expired what started more than `length` ago. -/
def Call.fixed (length t : T) : Call T := ⟨t, fun start ↦ start + length < t⟩

omit [IsOrderedCancelAddMonoid T] in
theorem next_fixed_of_lt {length t : T} {w : Window T} (h : w.start + length < t) :
    Window.next (Call.fixed length t) (some w) = ⟨t, 1⟩ :=
  if_pos (decide_eq_true h)

omit [IsOrderedCancelAddMonoid T] in
theorem next_fixed_of_le {length t : T} {w : Window T} (h : t ≤ w.start + length) :
    Window.next (Call.fixed length t) (some w) = ⟨w.start, w.calls + 1⟩ :=
  if_neg fun hexp ↦ h.not_gt (of_decide_eq_true hexp)

section Fixed

variable {length : T} (hlength : 0 ≤ length)
include hlength

/-- A later call is in the same window with a higher number, or in a window that starts more than
the length later. -/
theorem same_or_later_of_mem_run {w : Window T} {ts : List T} {e : T × Window T}
    (he : e ∈ run (some w) (ts.map (Call.fixed length))) :
    (e.2.start = w.start ∧ w.calls < e.2.calls) ∨ w.start + length < e.2.start := by
  induction ts generalizing w with
  | nil => exact absurd he not_mem_nil
  | cons t ts ih =>
    have hnext : ((Window.next (Call.fixed length t) (some w)).start = w.start ∧
        w.calls < (Window.next (Call.fixed length t) (some w)).calls) ∨
        w.start + length < (Window.next (Call.fixed length t) (some w)).start := by
      rcases lt_or_ge (w.start + length) t with hlt | hle
      · rw [next_fixed_of_lt hlt]
        exact .inr hlt
      · rw [next_fixed_of_le hle]
        exact .inl ⟨rfl, Nat.lt_succ_self _⟩
    rcases mem_cons.mp he with rfl | he
    · exact hnext
    · rcases ih he, hnext with ⟨⟨hs, hc⟩ | hs, ⟨hs', hc'⟩ | hs'⟩
      · exact .inl ⟨hs.trans hs', hc'.trans hc⟩
      · exact .inr (hs ▸ hs')
      · exact .inr (hs' ▸ hs)
      · exact .inr (hs'.trans ((le_add_of_nonneg_right hlength).trans_lt hs))

/-- Any two calls are in the same window with rising numbers or in windows that start more than the
length apart. -/
theorem pairwise_run (w : Option (Window T)) (ts : List T) :
    (run w (ts.map (Call.fixed length))).Pairwise fun e e' ↦
      (e'.2.start = e.2.start ∧ e.2.calls < e'.2.calls) ∨ e.2.start + length < e'.2.start := by
  induction ts generalizing w with
  | nil => exact .nil
  | cons t ts ih => exact .cons (fun e he ↦ same_or_later_of_mem_run hlength he) (ih _)

theorem exists_mem_run_replicate (w : Window T) (n : ℕ) :
    ∃ e ∈ run (some w) ((List.replicate (n + 1) w.start).map (Call.fixed length)),
      e.2.calls = w.calls + (n + 1) := by
  induction n generalizing w with
  | zero =>
    refine ⟨_, mem_cons_self, ?_⟩
    rw [next_fixed_of_le (le_add_of_nonneg_right hlength)]
  | succ n ih =>
    obtain ⟨e, he, hcalls⟩ := ih ⟨w.start, w.calls + 1⟩
    refine ⟨e, ?_, by rw [hcalls, Nat.add_assoc, Nat.add_comm 1]⟩
    rw [replicate_succ, map_cons, run, next_fixed_of_le (le_add_of_nonneg_right hlength)]
    exact mem_cons_of_mem _ he

theorem nodup_calls (w : Option (Window T)) (ts : List T) (s : T) :
    (((run w (ts.map (Call.fixed length))).filter fun e ↦ e.2.start = s).map
      fun e ↦ e.2.calls).Nodup := by
  rw [List.Nodup, pairwise_map]
  refine ((pairwise_run hlength w ts).filter _).imp_of_mem fun he he' h ↦ ?_
  have hs := of_decide_eq_true (mem_filter.mp he).2
  have hs' := of_decide_eq_true (mem_filter.mp he').2
  rcases h with ⟨-, hc⟩ | h
  · exact hc.ne
  · rw [hs, hs'] at h
    exact absurd h (not_lt.mpr (le_add_of_nonneg_right hlength))

theorem countP_start_le (w : Option (Window T)) (ts : List T) (s : T) (m : ℕ) :
    ((run w (ts.map (Call.fixed length))).countP fun e ↦ e.2.start = s ∧ e.2.calls ≤ m) ≤ m := by
  have hfilter : (run w (ts.map (Call.fixed length))).filter
      (fun e ↦ e.2.start = s ∧ e.2.calls ≤ m) =
      ((run w (ts.map (Call.fixed length))).filter fun e ↦ e.2.start = s).filter
        fun e ↦ e.2.calls ≤ m := by
    rw [filter_filter]
    exact filter_congr fun e _ ↦ by rw [Bool.decide_and, Bool.and_comm]
  have hsub : (((run w (ts.map (Call.fixed length))).filter
      (fun e ↦ e.2.start = s ∧ e.2.calls ≤ m)).map fun e ↦ e.2.calls) ⊆ List.range' 1 m := by
    intro k hk
    obtain ⟨e, he, rfl⟩ := mem_map.mp hk
    obtain ⟨hmem, hle⟩ := mem_filter.mp he
    have hpos := calls_pos_of_mem_run hmem
    have hle := (of_decide_eq_true hle).2
    exact List.mem_range'_1.mpr ⟨hpos, by omega⟩
  have hnodup : (((run w (ts.map (Call.fixed length))).filter
      (fun e ↦ e.2.start = s ∧ e.2.calls ≤ m)).map fun e ↦ e.2.calls).Nodup := by
    rw [hfilter]
    exact (nodup_calls hlength w ts s).sublist (filter_sublist.map _)
  rw [countP_eq_length_filter]
  calc _ = _ := (length_map _).symm
    _ ≤ (List.range' 1 m).length := (hnodup.subperm hsub).length_le
    _ = m := List.length_range'

/-- A call falls into its window: it is made not before the window starts, and not more than the
length after. -/
theorem bounds_of_mem_run {w : Option (Window T)} {ts : List T} {e : T × Window T}
    (hts : ts.Pairwise (· ≤ ·)) (hw : ∀ v ∈ w, ∀ t ∈ ts, v.start ≤ t)
    (he : e ∈ run w (ts.map (Call.fixed length))) : e.2.start ≤ e.1 ∧ e.1 ≤ e.2.start + length := by
  induction ts generalizing w with
  | nil => exact absurd he not_mem_nil
  | cons t ts ih =>
    obtain ⟨hfirst, hrest⟩ := pairwise_cons.mp hts
    have hnext : (Window.next (Call.fixed length t) w).start ≤ t ∧
        t ≤ (Window.next (Call.fixed length t) w).start + length := by
      rcases w with - | v
      · exact ⟨le_rfl, le_add_of_nonneg_right hlength⟩
      · rcases lt_or_ge (v.start + length) t with hlt | hle
        · rw [next_fixed_of_lt hlt]
          exact ⟨le_rfl, le_add_of_nonneg_right hlength⟩
        · rw [next_fixed_of_le hle]
          exact ⟨hw v rfl t mem_cons_self, hle⟩
    rcases mem_cons.mp he with rfl | he
    · exact hnext
    · refine ih hrest (fun v hv t' ht' ↦ ?_) he
      obtain rfl := Option.mem_some.mp hv
      exact hnext.1.trans (hfirst t' ht')

theorem same_or_apart {w : Option (Window T)} {ts : List T} {e e' : T × Window T}
    (he : e ∈ run w (ts.map (Call.fixed length))) (he' : e' ∈ run w (ts.map (Call.fixed length))) :
    e.2.start = e'.2.start ∨ e.2.start + length < e'.2.start ∨
      e'.2.start + length < e.2.start := by
  have hpair := pairwise_iff_getElem.mp (pairwise_run hlength w ts)
  obtain ⟨i, hi, rfl⟩ := mem_iff_getElem.mp he
  obtain ⟨j, hj, rfl⟩ := mem_iff_getElem.mp he'
  rcases lt_trichotomy i j with hij | rfl | hij
  · rcases hpair i j hi hj hij with ⟨hs, -⟩ | hlt
    · exact .inl hs.symm
    · exact .inr (.inl hlt)
  · exact .inl rfl
  · rcases hpair j i hj hi hij with ⟨hs, -⟩ | hlt
    · exact .inl hs
    · exact .inr (.inr hlt)

/-- A span of the length of a window meets at most two windows. -/
theorem exists_two_starts {ts : List T} (hts : ts.Pairwise (· ≤ ·)) (t : T) :
    ∃ s s', ∀ e ∈ run none (ts.map (Call.fixed length)), t ≤ e.1 ∧ e.1 ≤ t + length →
      e.2.start = s ∨ e.2.start = s' := by
  have hbounds := fun {e} (he : e ∈ run none (ts.map (Call.fixed length))) ↦
    bounds_of_mem_run hlength hts (fun v hv ↦ absurd hv (Option.not_mem_none v)) he
  -- of two windows the span meets the later starts within it, so a third would start behind it
  have htwo : ∀ e ∈ run none (ts.map (Call.fixed length)),
      ∀ e₁ ∈ run none (ts.map (Call.fixed length)), ∀ e₂ ∈ run none (ts.map (Call.fixed length)),
      t ≤ e.1 → e₂.1 ≤ t + length → e.2.start + length < e₁.2.start →
      ¬ e₁.2.start + length < e₂.2.start := by
    intro e he e₁ _ e₂ he₂ ht ht₂ hlt hlt₂
    have hstart : t < e₁.2.start := ht.trans_lt ((hbounds he).2.trans_lt hlt)
    have hend : t + length < e₂.1 :=
      ((add_le_add_left hstart.le length).trans_lt hlt₂).trans_le (hbounds he₂).1
    exact absurd ht₂ hend.not_ge
  by_cases hgap : ∃ e ∈ run none (ts.map (Call.fixed length)),
      ∃ e₁ ∈ run none (ts.map (Call.fixed length)), (t ≤ e.1 ∧ e.1 ≤ t + length) ∧
        (t ≤ e₁.1 ∧ e₁.1 ≤ t + length) ∧ e.2.start + length < e₁.2.start
  · obtain ⟨e, he, e₁, he₁, ht, ht₁, hlt⟩ := hgap
    refine ⟨e.2.start, e₁.2.start, fun e₂ he₂ ht₂ ↦ ?_⟩
    rcases same_or_apart hlength he he₂ with heq | hafter | hbefore
    · exact .inl heq.symm
    · rcases same_or_apart hlength he₁ he₂ with heq | hlater | hbetween
      · exact .inr heq.symm
      · exact absurd hlater (htwo e he e₁ he₁ e₂ he₂ ht.1 ht₂.2 hlt)
      · exact absurd hbetween (htwo e he e₂ he₂ e₁ he₁ ht.1 ht₁.2 hafter)
    · exact absurd hlt (htwo e₂ he₂ e he e₁ he₁ ht₂.1 ht₁.2 hbefore)
  · by_cases hsome : ∃ e ∈ run none (ts.map (Call.fixed length)), t ≤ e.1 ∧ e.1 ≤ t + length
    · obtain ⟨e, he, ht⟩ := hsome
      refine ⟨e.2.start, e.2.start, fun e₁ he₁ ht₁ ↦ .inl ?_⟩
      rcases same_or_apart hlength he he₁ with heq | hlt | hlt
      · exact heq.symm
      · exact absurd ⟨e, he, e₁, he₁, ht, ht₁, hlt⟩ hgap
      · exact absurd ⟨e₁, he₁, e, he, ht₁, ht, hlt⟩ hgap
    · exact ⟨0, 0, fun e he ht ↦ absurd ⟨e, he, ht⟩ hsome⟩

theorem countP_span_le {ts : List T} (hts : ts.Pairwise (· ≤ ·)) (t : T) (m : ℕ) :
    ((run none (ts.map (Call.fixed length))).countP fun e ↦
      (t ≤ e.1 ∧ e.1 ≤ t + length) ∧ e.2.calls ≤ m) ≤ 2 * m := by
  obtain ⟨s, s', hs⟩ := exists_two_starts hlength hts t
  calc _ ≤ (run none (ts.map (Call.fixed length))).countP (fun e ↦
          decide (e.2.start = s ∧ e.2.calls ≤ m) || decide (e.2.start = s' ∧ e.2.calls ≤ m)) := by
        refine countP_mono_left fun e he h ↦ ?_
        obtain ⟨hspan, hle⟩ := of_decide_eq_true h
        rcases hs e he hspan with hstart | hstart
        · rw [decide_eq_true (And.intro hstart hle), Bool.true_or]
        · rw [decide_eq_true (And.intro hstart hle), Bool.or_true]
    _ ≤ ((run none (ts.map (Call.fixed length))).countP fun e ↦
          e.2.start = s ∧ e.2.calls ≤ m) +
        (run none (ts.map (Call.fixed length))).countP fun e ↦
          e.2.start = s' ∧ e.2.calls ≤ m := countP_or_le _ _ _
    _ ≤ m + m := Nat.add_le_add (countP_start_le hlength _ _ _ _) (countP_start_le hlength _ _ _ _)
    _ = 2 * m := (Nat.two_mul m).symm

end Fixed

end Windows
