import WaferRun.Storage.AtomicWrite

/-!
# Stored objects are whole

Outside of the staging directory every name is bound, now and after any power loss, to a file that
is finished: it is synced, no write works on it any more, and it holds the bytes of a write that
reached its rename onto this name or what was there at the start (`Sealed`). Writes work on files
and names of their own (`Staged`). One step keeps this (`Sound.step`), hence every run does.

It rests on paths not leading into the staging directory (`FileSystem.Shielded`): where a link does,
a read shows a file that is being written. And it rests on the counter of temp names not coming
round to a name that a write has (`Root.Fresh`), for which others would have to draw all its values
while that write is going on. A name left behind by a write that is over may be taken again: the
file it is bound to is no object's (`Root.Closed`).
-/

open List Option Function

namespace WaferRun.LocalStorage

open DurableDisk

variable {β : Type} {fs : FileSystem} {found : Found}

variable {tmp σ : Slot} {file : ℕ}

def Live (fs : FileSystem) (σ : Slot) : Prop := σ.dir ≠ fs.staging

/-- The bytes are those of a write that was renamed onto the slot, or were there at the start. -/
def Provenance (found : Found) (published : List (Publication β)) (σ : Slot) (bytes : Content) :
    Prop :=
  (∃ p ∈ published, p.slot = σ ∧ bodyBytes p.body = some bytes) ∨
    ∃ file, found.entry σ = some (.file file) ∧ found.content file = bytes

/-- No write works on the file, and while the process serves it is bound to no staged name. -/
structure Root.Closed (fs : FileSystem) (s : Root β) (file : ℕ) : Prop where
  released : ∀ id w, s.writers id = some w → w.phase.file? ≠ some file
  unstaged : s.stage = .serving → ∀ σ, ¬Live fs σ → s.disk.entry σ ≠ some (.file file)

/-- A file that is finished, bound to a name it belongs to. -/
structure Sealed (fs : FileSystem) (found : Found) (s : Root β) (σ : Slot) (file : ℕ) : Prop where
  lt : file < s.nextFile
  synced : s.disk.synced file = true
  closed : s.Closed fs file
  whole : Provenance found s.published σ (s.disk.content file)

/-- What a name outside of the staging directory may be bound to: no link is ever made. -/
def SealedNode (fs : FileSystem) (found : Found) (s : Root β) (σ : Slot) : Node Slot ℕ → Prop
  | .file file => Sealed fs found s σ file
  | .link τ => Live fs τ ∧ found.entry σ = some (.link τ)

def Found.Leads (fs : FileSystem) (found : Found) (path : List PathName) (σ : Slot) : Prop :=
  Live fs σ ∧ ∃ τ, fs.slot path = some τ ∧
    Relation.ReflTransGen (fun a b ↦ found.entry a = some (.link b)) τ σ

/-- A write has its temp name bound to its file, and the file, what is pending and the rest of the
body make up the whole body. -/
structure Filled (fs : FileSystem) (s : Root β) (tmp : Slot) (file : ℕ) (pending : Content)
    (body rest : Body β) : Prop where
  staged : ¬Live fs tmp
  entry : s.disk.entry tmp = some (.file file)
  lt : file < s.nextFile
  bytes : bodyBytes body = (bodyBytes rest).map ((s.disk.content file ++ pending) ++ ·)

def Staged (fs : FileSystem) (s : Root β) (w : Writer β) : Prop :=
  match w.phase with
  | .dirs | .stagingDirectory => w.rest = w.body
  | .create tmp => ¬Live fs tmp ∧ w.rest = w.body
  | .fill tmp file pending => Filled fs s tmp file pending w.body w.rest
  | .flush tmp file | .sync tmp file => Filled fs s tmp file [] w.body []
  | .rename tmp file => Filled fs s tmp file [] w.body [] ∧ s.disk.synced file = true
  | .cleanup tmp _ => ¬Live fs tmp
  | .syncDir | .finished _ => True

def Served (fs : FileSystem) (found : Found) (s : Root β) (r : Reader β) : Prop :=
  match r.phase with
  | .fstat σ file => found.Leads fs r.path σ ∧ Sealed fs found s σ file
  | .reading σ file data =>
    found.Leads fs r.path σ ∧ Sealed fs found s σ file ∧ data <+: s.disk.content file
  | .finished (.ok (σ, data)) =>
    found.Leads fs r.path σ ∧ Provenance found s.published σ data
  | .stat | .opening | .finished (.error _) => True

/-- **The invariant.** -/
structure Sound (fs : FileSystem) (found : Found) (s : Root β) : Prop where
  sealed : s.disk.Throughout (Live fs) (SealedNode fs found s)
  bound : s.disk.Throughout (fun _ ↦ True) fun _ n ↦ ∀ file, n = .file file → file < s.nextFile
  staged : ∀ id w, s.writers id = some w → Staged fs s w
  apart : ∀ id id' w w', id ≠ id' → s.writers id = some w → s.writers id' = some w' →
    (∀ tmp, w.phase.tmp? = some tmp → w'.phase.tmp? ≠ some tmp) ∧
      ∀ file, w.phase.file? = some file → w'.phase.file? ≠ some file
  single : s.stage = .serving → ∀ σ, ¬Live fs σ → ∀ n, s.disk.entry σ = some n →
    ∃ file, n = .file file ∧ ∀ τ, ¬Live fs τ → s.disk.entry τ = some (.file file) → τ = σ
  idle : s.stage ≠ .serving → (∀ id, s.writers id = none) ∧ ∀ id, s.readers id = none
  shielded : ∀ id w σ, s.writers id = some w → fs.slot w.path = some σ → Live fs σ
  addressed : ∀ id r σ, s.readers id = some r → fs.slot r.path = some σ → Live fs σ
  served : ∀ id r, s.readers id = some r → Served fs found s r

/-! ## What a step leaves alone -/

structure Keeps (fs : FileSystem) (s s' : Root β) : Prop where
  next : s.nextFile ≤ s'.nextFile
  published : s.published ⊆ s'.published
  file : ∀ i, i < s.nextFile → s.Closed fs i → s.disk.synced i = true →
    s'.Closed fs i ∧ s'.disk.content i = s.disk.content i ∧ s'.disk.synced i = true

theorem Provenance.mono {published published' : List (Publication β)} {bytes : Content}
    (h : Provenance found published σ bytes) (hpublished : published ⊆ published') :
    Provenance found published' σ bytes :=
  h.imp_left fun ⟨p, hp, hbytes⟩ ↦ ⟨p, hpublished hp, hbytes⟩

theorem Sealed.keep {s s' : Root β} (hkeeps : Keeps fs s s') (h : Sealed fs found s σ file) :
    Sealed fs found s' σ file := by
  obtain ⟨hclosed, hcontent, hsynced⟩ := hkeeps.file file h.lt h.closed h.synced
  exact ⟨h.lt.trans_le hkeeps.next, hsynced, hclosed, hcontent ▸ h.whole.mono hkeeps.published⟩

theorem SealedNode.keep {s s' : Root β} (hkeeps : Keeps fs s s') {n : Node Slot ℕ}
    (h : SealedNode fs found s σ n) : SealedNode fs found s' σ n := by
  rcases n with file | τ
  · exact Sealed.keep hkeeps h
  · exact h

theorem Served.keep {s s' : Root β} (hkeeps : Keeps fs s s') {r : Reader β}
    (h : Served fs found s r) : Served fs found s' r := by
  unfold Served at h ⊢
  split
  · rename_i σ file hphase
    rw [hphase] at h
    exact ⟨h.1, h.2.keep hkeeps⟩
  · rename_i σ file data hphase
    rw [hphase] at h
    obtain ⟨hleads, hsealed, hdata⟩ := h
    have hcontent := (hkeeps.file file hsealed.lt hsealed.closed hsealed.synced).2.1
    exact ⟨hleads, hsealed.keep hkeeps, hcontent ▸ hdata⟩
  · rename_i σ data hphase
    rw [hphase] at h
    exact ⟨h.1, h.2.mono hkeeps.published⟩
  all_goals trivial

theorem Filled.frame {s s' : Root β} {pending : Content} {body rest : Body β}
    (h : Filled fs s tmp file pending body rest) (hnext : s.nextFile ≤ s'.nextFile)
    (hentry : s'.disk.entry tmp = s.disk.entry tmp)
    (hcontent : s'.disk.content file = s.disk.content file) :
    Filled fs s' tmp file pending body rest :=
  ⟨h.staged, hentry ▸ h.entry, h.lt.trans_le hnext, hcontent ▸ h.bytes⟩

theorem Staged.frame {s s' : Root β} {w : Writer β} (h : Staged fs s w)
    (hnext : s.nextFile ≤ s'.nextFile)
    (hentry : ∀ tmp, w.phase.tmp? = some tmp → s'.disk.entry tmp = s.disk.entry tmp)
    (hfile : ∀ file, w.phase.file? = some file →
      s'.disk.content file = s.disk.content file ∧ s'.disk.synced file = s.disk.synced file) :
    Staged fs s' w := by
  rcases w with ⟨path, body, rest, phase⟩
  cases phase with
  | dirs | stagingDirectory | create tmp | cleanup tmp error => exact h
  | fill tmp file pending => exact Filled.frame h hnext (hentry tmp rfl) (hfile file rfl).1
  | flush tmp file => exact Filled.frame h hnext (hentry tmp rfl) (hfile file rfl).1
  | sync tmp file => exact Filled.frame h hnext (hentry tmp rfl) (hfile file rfl).1
  | rename tmp file =>
    exact ⟨h.1.frame hnext (hentry tmp rfl) (hfile file rfl).1, (hfile file rfl).2.trans h.2⟩
  | syncDir | finished result => trivial

theorem Staged.not_live {s : Root β} {w : Writer β} (h : Staged fs s w)
    (htmp : w.phase.tmp? = some tmp) : ¬Live fs tmp := by
  rcases w with ⟨path, body, rest, phase⟩
  cases phase with
  | create t => exact some.inj htmp ▸ h.1
  | fill t file pending => exact some.inj htmp ▸ Filled.staged h
  | flush t file => exact some.inj htmp ▸ Filled.staged h
  | sync t file => exact some.inj htmp ▸ Filled.staged h
  | rename t file => exact some.inj htmp ▸ h.1.staged
  | cleanup t error => exact some.inj htmp ▸ h
  | dirs | stagingDirectory | syncDir | finished result => exact absurd htmp nofun

theorem Staged.of_file {s : Root β} {w : Writer β} (h : Staged fs s w)
    (hfile : w.phase.file? = some file) : file < s.nextFile ∧
      ∃ tmp, w.phase.tmp? = some tmp ∧ ¬Live fs tmp ∧ s.disk.entry tmp = some (.file file) := by
  have hfilled {t : Slot} {i : ℕ} {pending : Content} {body rest : Body β}
      (h : Filled fs s t i pending body rest) (hi : i = file) (htmp : w.phase.tmp? = some t) :
      file < s.nextFile ∧
        ∃ tmp, w.phase.tmp? = some tmp ∧ ¬Live fs tmp ∧ s.disk.entry tmp = some (.file file) :=
    hi ▸ ⟨h.lt, t, htmp, h.staged, h.entry⟩
  rcases w with ⟨path, body, rest, phase⟩
  cases phase with
  | fill t i pending => exact hfilled h (some.inj hfile) rfl
  | flush t i => exact hfilled h (some.inj hfile) rfl
  | sync t i => exact hfilled h (some.inj hfile) rfl
  | rename t i => exact hfilled h.1 (some.inj hfile) rfl
  | create t | cleanup t error => exact absurd hfile nofun
  | dirs | stagingDirectory | syncDir | finished result => exact absurd hfile nofun

/-! ## Steps of a write -/

structure Move (fs : FileSystem) (found : Found) (s : Root β) (w : Writer β) (s' : Root β)
    (w' : Writer β) : Prop where
  stage : s'.stage = s.stage
  writers : s'.writers = s.writers
  readers : s'.readers = s.readers
  path : w'.path = w.path
  next : s.nextFile ≤ s'.nextFile
  published : s.published ⊆ s'.published
  content : ∀ i, i < s.nextFile → w.phase.file? ≠ some i →
    (∀ tmp, w.phase.tmp? = some tmp → s.disk.entry tmp ≠ some (.file i)) →
    s'.disk.content i = s.disk.content i ∧ s'.disk.synced i = s.disk.synced i
  entry : ∀ σ, ¬Live fs σ → w.phase.tmp? ≠ some σ → s'.disk.entry σ = s.disk.entry σ
  kept : s'.published = s.published → ∀ σ, Live fs σ → s'.disk.entry σ = s.disk.entry σ
  bound : ∀ σ n, s'.disk.Bound σ n → s.disk.Bound σ n ∨ ∃ file, n = .file file ∧
    file < s'.nextFile ∧ (Live fs σ → w.phase.file? = some file ∧ w'.phase.file? = none ∧
      s'.disk.synced file = true ∧ Provenance found s'.published σ (s'.disk.content file) ∧
        ∀ τ, ¬Live fs τ → s'.disk.entry τ ≠ some (.file file))
  tmp : ∀ tmp, w'.phase.tmp? = some tmp → w.phase.tmp? = some tmp ∨
    w.phase = .stagingDirectory ∧ tmp = fs.stagedSlot s.pid s.seq.toNat
  file : ∀ i, w'.phase.file? = some i → w.phase.file? = some i ∨ i = s.nextFile ∨
    ∃ tmp, w.phase.tmp? = some tmp ∧ s.disk.entry tmp = some (.file i)
  names : ∀ σ, ¬Live fs σ → ∀ n, s'.disk.entry σ = some n →
    s.disk.entry σ = some n ∨ n = .file s.nextFile ∧ w.phase.tmp? = some σ
  staged : Staged fs s' w'

section Move

variable {s s' : Root β} {w w' : Writer β} {id : ℕ}

/-- A move that keeps every entry. -/
theorem Move.of_entry (hroot : s' = { s with disk := s'.disk, seq := s'.seq })
    (hentry : s'.disk.entry = s.disk.entry) (hpath : w'.path = w.path)
    (hbound : ∀ σ n, s'.disk.Bound σ n → s.disk.Bound σ n)
    (hcontent : ∀ i, w.phase.file? ≠ some i →
      (∀ tmp, w.phase.tmp? = some tmp → s.disk.entry tmp ≠ some (.file i)) →
        s'.disk.content i = s.disk.content i ∧ s'.disk.synced i = s.disk.synced i)
    (htmp : ∀ tmp, w'.phase.tmp? = some tmp → w.phase.tmp? = some tmp ∨
      w.phase = .stagingDirectory ∧ tmp = fs.stagedSlot s.pid s.seq.toNat)
    (hfile : ∀ i, w'.phase.file? = some i → w.phase.file? = some i ∨
      ∃ tmp, w.phase.tmp? = some tmp ∧ s.disk.entry tmp = some (.file i))
    (hstaged : Staged fs s' w') : Move fs found s w s' w' where
  stage := hroot ▸ rfl
  writers := hroot ▸ rfl
  readers := hroot ▸ rfl
  path := hpath
  next := hroot ▸ le_rfl
  published := hroot ▸ List.Subset.refl _
  content i _ := hcontent i
  entry σ _ _ := congrFun hentry σ
  kept _ σ _ := congrFun hentry σ
  bound σ n h := Or.inl (hbound σ n h)
  tmp := htmp
  file i h := (hfile i h).imp_right Or.inr
  names σ _ _ h := Or.inl (congrFun hentry σ ▸ h)
  staged := hstaged

theorem Move.idle (hpath : w'.path = w.path)
    (htmp : ∀ tmp, w'.phase.tmp? = some tmp → w.phase.tmp? = some tmp)
    (hfile : ∀ i, w'.phase.file? = some i → w.phase.file? = some i) (hstaged : Staged fs s w') :
    Move fs found s w s w' :=
  .of_entry rfl rfl hpath (fun _ _ ↦ id) (fun _ _ _ ↦ ⟨rfl, rfl⟩) (fun t h ↦ .inl (htmp t h))
    (fun i h ↦ .inl (hfile i h)) hstaged

theorem Root.setWriter_eq_some {id' : ℕ} {v : Writer β} {o : Option (Writer β)}
    (h : (s.setWriter id o).writers id' = some v) :
    id' = id ∧ o = some v ∨ id' ≠ id ∧ s.writers id' = some v := by
  simp only [Root.setWriter] at h
  by_cases hid : id' = id
  · subst hid
    rw [update_self] at h
    exact Or.inl ⟨rfl, h⟩
  · rw [update_of_ne hid] at h
    exact Or.inr ⟨hid, h⟩

theorem Sound.serving (hs : Sound fs found s) (hw : s.writers id = some w) :
    s.stage = .serving := by
  by_contra hidle
  exact absurd (((hs.idle hidle).1 id).symm.trans hw) nofun

theorem Move.keeps (hs : Sound fs found s) (hw : s.writers id = some w)
    (h : Move fs found s w s' w') : Keeps fs s (s'.setWriter id (some w')) where
  next := h.next
  published := h.published
  file i hi hclosed hsynced := by
    have hunstaged : ∀ tmp, w.phase.tmp? = some tmp → s.disk.entry tmp ≠ some (.file i) :=
      fun tmp htmp ↦ hclosed.unstaged (hs.serving hw) tmp ((hs.staged id w hw).not_live htmp)
    obtain ⟨hcontent, hsame⟩ := h.content i hi (hclosed.released id w hw) hunstaged
    refine ⟨⟨fun id' v hv hfile ↦ ?_, fun hserving σ hσ hentry ↦ ?_⟩, hcontent,
      hsame.trans hsynced⟩
    · rcases Root.setWriter_eq_some hv with ⟨-, hv⟩ | ⟨-, hv⟩
      · obtain rfl := some.inj hv
        rcases h.file i hfile with hfile | rfl | ⟨tmp, htmp, hentry⟩
        · exact hclosed.released id w hw hfile
        · exact hi.false
        · exact hunstaged tmp htmp hentry
      · rw [h.writers] at hv
        exact hclosed.released id' v hv hfile
    · rcases h.names σ hσ _ hentry with hentry | ⟨hnew, -⟩
      · exact hclosed.unstaged (hs.serving hw) σ hσ hentry
      · exact hi.ne (Node.file.inj hnew)

/-- A staged file is bound to one staged name. -/
theorem Sound.eq_of_entry (hs : Sound fs found s) (hserving : s.stage = .serving) {σ τ : Slot}
    (hσ : ¬Live fs σ) (hτ : ¬Live fs τ) (hfile : s.disk.entry σ = some (.file file))
    (hentry : s.disk.entry τ = some (.file file)) : τ = σ := by
  obtain ⟨i, hi, honly⟩ := hs.single hserving σ hσ _ hfile
  exact honly τ hτ (Node.file.inj hi ▸ hentry)

/-- **The step lemma of writes.** A move keeps the invariant, if a temp name it draws is not one
that a write has. -/
theorem Sound.move (hs : Sound fs found s) (hw : s.writers id = some w)
    (h : Move fs found s w s' w') (hdraw : ∀ tmp, w'.phase.tmp? = some tmp →
      w.phase = .stagingDirectory → ∀ id' v, s.writers id' = some v → v.phase.tmp? ≠ some tmp) :
    Sound fs found (s'.setWriter id (some w')) := by
  have hkeeps := h.keeps hs hw
  have hserving := hs.serving hw
  have hother {id' : ℕ} {v : Writer β} (hid : id' ≠ id) (hv : s.writers id' = some v) :=
    hs.apart id id' w v hid.symm hw hv
  -- a live name that is bound anew is bound to the file the write has just finished
  have hclosed {file : ℕ} (hfile : w.phase.file? = some file) (hdone : w'.phase.file? = none)
      (hunstaged : ∀ τ, ¬Live fs τ → s'.disk.entry τ ≠ some (.file file)) :
      (s'.setWriter id (some w')).Closed fs file := by
    refine ⟨fun id' v hv hvfile ↦ ?_, fun _ ↦ hunstaged⟩
    rcases Root.setWriter_eq_some hv with ⟨-, hv⟩ | ⟨hid, hv⟩
    · obtain rfl := some.inj hv
      exact absurd (hdone.symm.trans hvfile) nofun
    · exact (hother hid (h.writers ▸ hv)).2 file hfile hvfile
  -- nor is the file that a temp name leads to another write's
  have hforeign {id' : ℕ} {v : Writer β} (hid : id' ≠ id) (hv : s.writers id' = some v) {tmp : Slot}
      (htmp : w.phase.tmp? = some tmp) {file : ℕ} (hvfile : v.phase.file? = some file) :
      s.disk.entry tmp ≠ some (.file file) := by
    intro hentry
    obtain ⟨-, tmp', htmp', hlive', hentry'⟩ := (hs.staged id' v hv).of_file hvfile
    have hlive := (hs.staged id w hw).not_live htmp
    obtain rfl := hs.eq_of_entry hserving hlive hlive' hentry hentry'
    exact (hother hid hv).1 _ htmp htmp'
  have hstaged : ∀ id' v, (s'.setWriter id (some w')).writers id' = some v →
      Staged fs (s'.setWriter id (some w')) v := by
    intro id' v hv
    rcases Root.setWriter_eq_some hv with ⟨-, hv⟩ | ⟨hid, hv⟩
    · exact some.inj hv ▸ h.staged.frame le_rfl (fun _ _ ↦ rfl) fun _ _ ↦ ⟨rfl, rfl⟩
    · rw [h.writers] at hv
      have hv' := hs.staged id' v hv
      refine hv'.frame h.next (fun tmp htmp ↦ ?_) fun file hfile ↦ ?_
      · exact h.entry _ (hv'.not_live htmp) fun hown ↦ (hother hid hv).1 _ hown htmp
      · exact h.content file (hv'.of_file hfile).1 (fun hown ↦ (hother hid hv).2 _ hown hfile)
          fun tmp htmp ↦ hforeign hid hv htmp hfile
  -- the temp name and the file of the write are its own, be they new or not
  have hfresh {id' : ℕ} {v : Writer β} (hid : id' ≠ id) (hv : s.writers id' = some v) :
      (∀ tmp, w'.phase.tmp? = some tmp → v.phase.tmp? ≠ some tmp) ∧
        ∀ file, w'.phase.file? = some file → v.phase.file? ≠ some file := by
    refine ⟨fun tmp htmp hvtmp ↦ ?_, fun file hfile hvfile ↦ ?_⟩
    · rcases h.tmp tmp htmp with hown | ⟨hphase, -⟩
      · exact (hother hid hv).1 tmp hown hvtmp
      · exact hdraw tmp htmp hphase id' v hv hvtmp
    · rcases h.file file hfile with hown | rfl | ⟨tmp, htmp, hentry⟩
      · exact (hother hid hv).2 file hown hvfile
      · exact ((hs.staged id' v hv).of_file hvfile).1.false
      · exact hforeign hid hv htmp hvfile hentry
  refine ⟨?_, ?_, hstaged, ?_, ?_, ?_, ?_, ?_, ?_⟩
  · intro σ hlive n hn
    rcases h.bound σ n hn with hn | ⟨file, rfl, hlt, hnew⟩
    · exact (hs.sealed σ hlive n hn).keep hkeeps
    · obtain ⟨hfile, hdone, hsynced, hwhole, hunstaged⟩ := hnew hlive
      exact ⟨hlt, hsynced, hclosed hfile hdone hunstaged, hwhole⟩
  · intro σ _ n hn file hfile
    rcases h.bound σ n hn with hn | ⟨file', rfl, hlt, -⟩
    · exact (hs.bound σ trivial n hn file hfile).trans_le h.next
    · exact (Node.file.inj hfile) ▸ hlt
  · intro id₁ id₂ v₁ v₂ hne h₁ h₂
    rcases Root.setWriter_eq_some h₁ with ⟨rfl, e₁⟩ | ⟨hid₁, e₁⟩ <;>
      rcases Root.setWriter_eq_some h₂ with ⟨rfl, e₂⟩ | ⟨hid₂, e₂⟩
    · exact absurd rfl hne
    · rw [← some.inj e₁]
      exact hfresh hid₂ (h.writers ▸ e₂)
    · rw [← some.inj e₂]
      obtain ⟨htmp, hfile⟩ := hfresh hid₁ (h.writers ▸ e₁)
      exact ⟨fun t ht ht' ↦ htmp t ht' ht, fun i hi hi' ↦ hfile i hi' hi⟩
    · exact hs.apart id₁ id₂ v₁ v₂ hne (h.writers ▸ e₁) (h.writers ▸ e₂)
  · intro _ σ hσ n hn
    have hold {τ : Slot} {i : ℕ} (hi : s.disk.entry τ = some (.file i)) : i ≠ s.nextFile :=
      (hs.bound τ trivial _ (Or.inl hi) i rfl).ne
    rcases h.names σ hσ n hn with hn | ⟨rfl, htmp⟩
    · obtain ⟨i, rfl, honly⟩ := hs.single hserving σ hσ n hn
      refine ⟨i, rfl, fun τ hτ hi ↦ ?_⟩
      rcases h.names τ hτ _ hi with hi | ⟨hnew, -⟩
      · exact honly τ hτ hi
      · exact absurd (Node.file.inj hnew) (hold hn)
    · refine ⟨_, rfl, fun τ hτ hi ↦ ?_⟩
      rcases h.names τ hτ _ hi with hi | ⟨-, hτtmp⟩
      · exact absurd rfl (hold hi)
      · exact some.inj (hτtmp.symm.trans htmp)
  · intro hidle
    have hnone := (hs.idle (fun hserving ↦ hidle (h.stage.trans hserving))).1 id
    exact absurd (hnone.symm.trans hw) nofun
  · intro id' v σ hv hσ
    rcases Root.setWriter_eq_some hv with ⟨-, hv⟩ | ⟨-, hv⟩
    · rw [← some.inj hv, h.path] at hσ
      exact hs.shielded id w σ hw hσ
    · exact hs.shielded id' v σ (h.writers ▸ hv) hσ
  · exact fun id' r σ hr ↦ hs.addressed id' r σ (h.readers ▸ hr)
  · exact fun id' r hr ↦ (hs.served id' r (h.readers ▸ hr)).keep hkeeps

theorem Move.fail (attempt : Attempt) (e : OsError) : Move fs found s w s (w.fail attempt e) :=
  Move.idle rfl (fun _ h ↦ absurd h nofun) (fun _ h ↦ absurd h nofun) trivial

theorem Move.abort (hstaged : Staged fs s w) (htmp : w.phase.tmp? = some tmp)
    (error : StorageError β) : Move fs found s w s (w.abort tmp error) :=
  Move.idle rfl (fun _ h ↦ h ▸ htmp) (fun _ h ↦ absurd h nofun) (hstaged.not_live htmp)

theorem Move.take (hphase : w.phase = .fill tmp file []) (hstaged : Staged fs s w) :
    Move fs found s w s (w.take tmp file) := by
  have htmp : w.phase.tmp? = some tmp := by rw [hphase]; rfl
  have hfile : w.phase.file? = some file := by rw [hphase]; rfl
  have hfilled : Filled fs s tmp file [] w.body w.rest := by
    unfold Staged at hstaged
    rwa [hphase] at hstaged
  unfold Writer.take
  split
  · rename_i hrest
    exact Move.idle rfl (fun _ h ↦ h ▸ htmp) (fun _ h ↦ h ▸ hfile) (hrest ▸ hfilled)
  · rename_i chunk rest hrest
    refine Move.idle rfl (fun _ h ↦ h ▸ htmp) (fun _ h ↦ h ▸ hfile)
      ⟨hfilled.staged, hfilled.entry, hfilled.lt, ?_⟩
    rw [hfilled.bytes, hrest, bodyBytes, Option.map_map]
    refine congrArg (Option.map · (bodyBytes rest)) (funext fun bytes ↦ ?_)
    simp only [comp_apply, append_nil, append_assoc]
  · exact Move.abort hstaged htmp _

/-- Opening the temp file: the file is new, or one that was left behind, which is emptied. -/
theorem Move.create {tmp : Slot} {created : Root β × ℕ} (hs : Sound fs found s)
    (hw : s.writers id = some w) (hphase : w.phase = .create tmp)
    (hcreated : s.createFile fs tmp = some created) :
    Move fs found s w created.1 { w with phase := .fill tmp created.2 [] } := by
  obtain ⟨hlive, hrest⟩ : ¬Live fs tmp ∧ w.rest = w.body := by
    have hstaged := hs.staged id w hw
    unfold Staged at hstaged
    rwa [hphase] at hstaged
  have htmp : w.phase.tmp? = some tmp := by rw [hphase]; rfl
  have hbytes {d : Disk Slot ℕ Content} {i : ℕ} : bodyBytes w.body =
      (bodyBytes w.rest).map (((d.write i []).content i ++ []) ++ ·) := by
    have hempty : (d.write i []).content i = [] := update_self ..
    simp only [hrest, hempty, append_nil, nil_append, Option.map_id']
  rcases hentry : s.disk.entry tmp with _ | n
  · have hfollow : s.disk.follow fs.maxLinks tmp = none := by
      cases fs.maxLinks with
      | zero => rfl
      | succ n => simp only [Disk.follow, hentry]
    simp only [Root.createFile, hfollow, hentry, if_true, Option.some.injEq] at hcreated
    subst hcreated
    have hother : ∀ σ, σ ≠ tmp →
        Function.update s.disk.entry tmp (some (.file s.nextFile)) σ = s.disk.entry σ :=
      fun σ hσ ↦ update_of_ne hσ _ _
    exact {
      stage := rfl
      writers := rfl
      readers := rfl
      path := rfl
      next := Nat.le_succ _
      published := List.Subset.refl _
      content := fun i hi _ _ ↦
        ⟨update_of_ne hi.ne _ _, update_of_ne hi.ne _ _⟩
      entry := fun σ _ hown ↦ hother σ fun hσ ↦ hown (hσ ▸ htmp)
      kept := fun _ σ hσ ↦ hother σ fun h ↦ hlive (h ▸ hσ)
      bound := fun σ n hn ↦ (Disk.bound_rebind hn).imp_right fun ⟨hσ, hnode⟩ ↦
        ⟨s.nextFile, (some.inj hnode).symm, Nat.lt_succ_self _,
          fun hσlive ↦ absurd (hσ ▸ hσlive) hlive⟩
      tmp := fun t ht ↦ Or.inl (htmp.trans ht)
      file := fun i hi ↦ Or.inr (Or.inl (some.inj hi).symm)
      names := fun σ _ n hn ↦ by
        by_cases hσ : σ = tmp
        · have hnew : Function.update s.disk.entry tmp (some (.file s.nextFile)) tmp = some n :=
            hσ ▸ hn
          rw [update_self] at hnew
          exact Or.inr ⟨(some.inj hnew).symm, hσ ▸ htmp⟩
        · exact Or.inl ((hother _ hσ).symm.trans hn)
      staged := ⟨hlive, update_self .., Nat.lt_succ_self _, hbytes⟩ }
  · obtain ⟨i, rfl, -⟩ := hs.single (hs.serving hw) tmp hlive n hentry
    have hcreated : some ({ s with disk := s.disk.write i [] }, i) = some created := by
      rw [Root.createFile] at hcreated
      cases hmax : fs.maxLinks with
      | zero => simp [hmax, Disk.follow, hentry] at hcreated
      | succ n => simpa only [hmax, Disk.follow, hentry] using hcreated
    obtain rfl := some.inj hcreated
    refine .of_entry rfl rfl rfl (fun _ _ h ↦ h) (fun j _ hj ↦ ?_) (fun t ht ↦ .inl (htmp.trans ht))
      (fun j hj ↦ .inr ⟨tmp, htmp, some.inj hj ▸ hentry⟩)
      ⟨hlive, hentry, hs.bound tmp trivial _ (Or.inl hentry) i rfl, hbytes⟩
    have hne : j ≠ i := fun h ↦ hj tmp htmp (h ▸ hentry)
    exact ⟨update_of_ne hne _ _, update_of_ne hne _ _⟩

theorem Move.append {tmp : Slot} {file : ℕ} {pending : Content} (n : ℕ)
    (hphase : w.phase = .fill tmp file pending) (hstaged : Staged fs s w) :
    Move fs found s w
      { s with disk := s.disk.write file (s.disk.content file ++ pending.take n) }
      { w with phase := .fill tmp file (pending.drop n) } := by
  have hfilled : Filled fs s tmp file pending w.body w.rest := by
    unfold Staged at hstaged
    rwa [hphase] at hstaged
  have hfile : w.phase.file? = some file := by rw [hphase]; rfl
  have htmp : w.phase.tmp? = some tmp := by rw [hphase]; rfl
  refine .of_entry rfl rfl rfl (fun _ _ h ↦ h) (fun i hi _ ↦ ?_) (fun t ht ↦ .inl (ht ▸ htmp))
    (fun i hi ↦ .inl (hi ▸ hfile))
    ⟨hfilled.staged, hfilled.entry, hfilled.lt, hfilled.bytes.trans ?_⟩
  · have hne : i ≠ file := fun h ↦ hi (hfile.trans (congrArg some h.symm))
    exact ⟨update_of_ne hne _ _, update_of_ne hne _ _⟩
  · have hwritten : (s.disk.write file (s.disk.content file ++ pending.take n)).content file =
        s.disk.content file ++ pending.take n := update_self ..
    rw [hwritten, append_assoc, take_append_drop]

theorem Move.sync {tmp : Slot} {file : ℕ} (hphase : w.phase = .sync tmp file)
    (hstaged : Staged fs s w) :
    Move fs found s w { s with disk := s.disk.fsync file }
      { w with phase := .rename tmp file } := by
  have hfilled : Filled fs s tmp file [] w.body [] := by
    unfold Staged at hstaged
    rwa [hphase] at hstaged
  have hfile : w.phase.file? = some file := by rw [hphase]; rfl
  have htmp : w.phase.tmp? = some tmp := by rw [hphase]; rfl
  refine .of_entry rfl rfl rfl (fun _ _ h ↦ h) (fun i hi _ ↦ ⟨rfl, ?_⟩) (fun t ht ↦ .inl (ht ▸ htmp))
    (fun i hi ↦ .inl (hi ▸ hfile))
    ⟨⟨hfilled.staged, hfilled.entry, hfilled.lt, hfilled.bytes⟩, update_self ..⟩
  exact update_of_ne (fun h ↦ hi (hfile.trans (congrArg some h.symm))) _ _

/-- **The rename.** The key is bound to the file of the write, whole and synced. -/
theorem Move.publish {tmp : Slot} {file : ℕ} (hs : Sound fs found s) (hw : s.writers id = some w)
    (hphase : w.phase = .rename tmp file) (hshield : ∀ σ, fs.slot w.path = some σ → Live fs σ)
    (hs' : s.publish fs w tmp = some s') :
    Move fs found s w s' { w with phase := .syncDir } := by
  obtain ⟨hfilled, hsynced⟩ : Filled fs s tmp file [] w.body [] ∧ s.disk.synced file = true := by
    have hstaged := hs.staged id w hw
    unfold Staged at hstaged
    rwa [hphase] at hstaged
  have hfile : w.phase.file? = some file := by rw [hphase]; rfl
  have htmp : w.phase.tmp? = some tmp := by rw [hphase]; rfl
  obtain ⟨target, htarget⟩ : ∃ target, fs.slot w.path = some target := by
    unfold Root.publish at hs'
    split at hs'
    · exact ⟨_, ‹_›⟩
    · exact absurd hs' nofun
  simp only [Root.publish, hfilled.entry, htarget, Option.some.injEq] at hs'
  subst hs'
  have hlive := hshield target htarget
  have hwhole : bodyBytes w.body = some (s.disk.content file) := by
    rw [hfilled.bytes, bodyBytes, map_some, append_nil, append_nil]
  have hentry {σ : Slot} (hσ : σ ≠ target) :
      ((s.disk.rebind tmp none).rebind target (some (.file file))).entry σ =
        Function.update s.disk.entry tmp none σ := update_of_ne hσ _ _
  have hold {σ : Slot} {n : Node Slot ℕ} (hσ : ¬Live fs σ)
      (hn : ((s.disk.rebind tmp none).rebind target (some (.file file))).entry σ = some n) :
      σ ≠ tmp ∧ s.disk.entry σ = some n := by
    rw [hentry fun h : σ = target ↦ hσ (h ▸ hlive)] at hn
    by_cases htmp : σ = tmp
    · rw [htmp, update_self] at hn
      exact absurd hn nofun
    · exact ⟨htmp, (update_of_ne htmp _ _).symm.trans hn⟩
  have hunstaged : ∀ τ, ¬Live fs τ →
      ((s.disk.rebind tmp none).rebind target (some (.file file))).entry τ ≠ some (.file file) := by
    intro τ hτ hn
    obtain ⟨hne, hn⟩ := hold hτ hn
    exact hne (hs.eq_of_entry (hs.serving hw) hfilled.staged hτ hfilled.entry hn)
  exact {
    stage := rfl
    writers := rfl
    readers := rfl
    path := rfl
    next := le_rfl
    published := subset_cons_self _ _
    content := fun _ _ _ _ ↦ ⟨rfl, rfl⟩
    entry := fun σ hσ hown ↦ by
      have htarget : σ ≠ target := fun h ↦ hσ (h ▸ hlive)
      have hother : σ ≠ tmp := fun h ↦ hown (h ▸ htmp)
      rw [hentry htarget]
      exact update_of_ne hother _ _
    kept := fun h ↦ absurd h (cons_ne_self _ _)
    bound := fun σ n hn ↦ by
      rcases Disk.bound_rebind hn with hn | ⟨rfl, hnode⟩
      · exact (Disk.bound_rebind hn).imp_right fun ⟨_, hnode⟩ ↦ absurd hnode nofun
      · exact Or.inr ⟨file, (some.inj hnode).symm, hfilled.lt, fun _ ↦
          ⟨hfile, rfl, hsynced, Or.inl ⟨_, mem_cons_self, rfl, hwhole⟩, hunstaged⟩⟩
    tmp := fun t ht ↦ absurd ht nofun
    file := fun i hi ↦ absurd hi nofun
    names := fun σ hσ n hn ↦ Or.inl (hold hσ hn).2
    staged := trivial }

theorem Move.settle {p : Slot → Bool} {result : Except (StorageError β) Unit} :
    Move fs found s w { s with disk := s.disk.settle p } { w with phase := .finished result } :=
  .of_entry rfl rfl rfl (fun _ _ ↦ Disk.bound_settle) (fun _ _ _ ↦ ⟨rfl, rfl⟩) (fun _ ↦ nofun)
    (fun _ ↦ nofun) trivial

theorem Move.cleanup {tmp : Slot} {error : StorageError β} {result : Except (StorageError β) Unit}
    (hphase : w.phase = .cleanup tmp error) (hstaged : Staged fs s w) :
    Move fs found s w { s with disk := s.disk.rebind tmp none }
      { w with phase := .finished result } := by
  have htmp : w.phase.tmp? = some tmp := by rw [hphase]; rfl
  have hlive := hstaged.not_live htmp
  have hentry {σ : Slot} (hσ : σ ≠ tmp) :
      (s.disk.rebind tmp none).entry σ = s.disk.entry σ := update_of_ne hσ _ _
  exact {
    stage := rfl
    writers := rfl
    readers := rfl
    path := rfl
    next := le_rfl
    published := List.Subset.refl _
    content := fun _ _ _ _ ↦ ⟨rfl, rfl⟩
    entry := fun σ _ hown ↦ hentry fun h ↦ hown (h ▸ htmp)
    kept := fun _ σ hσ ↦ hentry fun h ↦ hlive (h ▸ hσ)
    bound := fun _ _ hn ↦
      (Disk.bound_rebind hn).imp_right fun ⟨_, hnode⟩ ↦ absurd hnode nofun
    tmp := fun _ h ↦ absurd h nofun
    file := fun _ h ↦ absurd h nofun
    names := fun σ _ n hn ↦ by
      by_cases hσ : σ = tmp
      · have hnone : (s.disk.rebind tmp none).entry σ = none := hσ ▸ update_self ..
        exact absurd (hnone.symm.trans hn) nofun
      · exact Or.inl ((hentry hσ).symm.trans hn)
    staged := trivial }

theorem Move.number (hs : Sound fs found s) (hw : s.writers id = some w)
    (hphase : w.phase = .stagingDirectory) :
    Move fs found s w { s with seq := s.seq + 1 }
      { w with phase := .create (fs.stagedSlot s.pid s.seq.toNat) } := by
  have hrest : w.rest = w.body := by
    have hstaged := hs.staged id w hw
    unfold Staged at hstaged
    rwa [hphase] at hstaged
  exact .of_entry rfl rfl rfl (fun _ _ h ↦ h) (fun _ _ _ ↦ ⟨rfl, rfl⟩)
    (fun _ h ↦ .inr ⟨hphase, (some.inj h).symm⟩) (fun _ ↦ nofun) ⟨fun hlive ↦ hlive rfl, hrest⟩

/-- Every step of a write is a move. -/
theorem Root.write_move (hs : Sound fs found s) (hw : s.writers id = some w)
    {answer : Except OsError ℕ} (h : s.write fs w answer = some (s', w')) :
    Move fs found s w s' w' := by
  have hstaged := hs.staged id w hw
  unfold Staged at hstaged
  have htmp {phase : WritePhase β} (hphase : w.phase = phase) : w.phase.tmp? = phase.tmp? :=
    congrArg _ hphase
  have hfile {phase : WritePhase β} (hphase : w.phase = phase) : w.phase.file? = phase.file? :=
    congrArg _ hphase
  unfold Root.write at h
  split at h <;> rename_i hphase <;> simp only [hphase] at hstaged
  · obtain ⟨rfl, rfl⟩ := Prod.mk.inj (some.inj h)
    exact Move.idle rfl (fun _ h ↦ absurd h nofun) (fun _ h ↦ absurd h nofun) hstaged
  · obtain ⟨rfl, rfl⟩ := Prod.mk.inj (some.inj h)
    exact Move.fail _ _
  · obtain ⟨rfl, rfl⟩ := Prod.mk.inj (some.inj h)
    exact Move.number hs hw hphase
  · obtain ⟨rfl, rfl⟩ := Prod.mk.inj (some.inj h)
    exact Move.fail _ _
  · obtain ⟨created, hcreated, h⟩ := map_eq_some_iff.mp h
    obtain ⟨rfl, rfl⟩ := Prod.mk.inj h
    exact Move.create hs hw hphase hcreated
  · obtain ⟨rfl, rfl⟩ := Prod.mk.inj (some.inj h)
    exact Move.abort (hs.staged id w hw) (htmp hphase) _
  · obtain ⟨rfl, rfl⟩ := Prod.mk.inj (some.inj h)
    exact Move.take hphase (hs.staged id w hw)
  · obtain ⟨rfl, rfl⟩ := Prod.mk.inj (some.inj h)
    exact Move.append _ hphase (hs.staged id w hw)
  · obtain ⟨rfl, rfl⟩ := Prod.mk.inj (some.inj h)
    exact Move.abort (hs.staged id w hw) (htmp hphase) _
  · obtain ⟨rfl, rfl⟩ := Prod.mk.inj (some.inj h)
    exact Move.idle rfl (fun _ ↦ (htmp hphase).trans) (fun _ ↦ (hfile hphase).trans) hstaged
  · obtain ⟨rfl, rfl⟩ := Prod.mk.inj (some.inj h)
    exact Move.abort (hs.staged id w hw) (htmp hphase) _
  · obtain ⟨rfl, rfl⟩ := Prod.mk.inj (some.inj h)
    exact Move.sync hphase (hs.staged id w hw)
  · obtain ⟨rfl, rfl⟩ := Prod.mk.inj (some.inj h)
    exact Move.abort (hs.staged id w hw) (htmp hphase) _
  · obtain ⟨s'', hpublish, h⟩ := map_eq_some_iff.mp h
    obtain ⟨rfl, rfl⟩ := Prod.mk.inj h
    exact Move.publish hs hw hphase (fun σ ↦ hs.shielded id w σ hw) hpublish
  · obtain ⟨rfl, rfl⟩ := Prod.mk.inj (some.inj h)
    exact Move.abort (hs.staged id w hw) (htmp hphase) _
  · obtain ⟨rfl, rfl⟩ := Prod.mk.inj (some.inj h)
    exact Move.settle
  · obtain ⟨rfl, rfl⟩ := Prod.mk.inj (some.inj h)
    exact Move.fail _ _
  · obtain ⟨rfl, rfl⟩ := Prod.mk.inj (some.inj h)
    exact Move.cleanup hphase (hs.staged id w hw)
  · obtain ⟨rfl, rfl⟩ := Prod.mk.inj (some.inj h)
    exact Move.idle rfl (fun _ h ↦ absurd h nofun) (fun _ h ↦ absurd h nofun) trivial
  · exact absurd h nofun

end Move

/-! ## The other steps -/

theorem Sound.closed {s : Root β} (hs : Sound fs found s) : s.disk.Closed (Live fs) :=
  fun σ hσ _ hτ ↦ (hs.sealed σ hσ _ (Or.inl hτ)).1

theorem Sound.lookup {s : Root β} (hs : Sound fs found s) {path : List PathName}
    (hpath : ∀ σ, fs.slot path = some σ → Live fs σ) (h : s.lookup fs path = some (σ, file)) :
    found.Leads fs path σ ∧ Sealed fs found s σ file := by
  obtain ⟨τ, hτ, hfollow⟩ := bind_eq_some_iff.mp h
  obtain ⟨hlinks, hlive, hentry⟩ := hs.closed.follow (hpath τ hτ) hfollow
  have hstep : ∀ a b, s.disk.Step (Live fs) a b → found.entry a = some (.link b) := by
    rintro a b ⟨ha, hb⟩
    have hsealed : SealedNode fs found s a (.link b) := hs.sealed a ha _ (Or.inl hb)
    exact hsealed.2
  exact ⟨⟨hlive, τ, hτ, Relation.ReflTransGen.mono hstep τ σ hlinks⟩,
    hs.sealed σ hlive _ (Or.inl hentry)⟩

/-- A step of a read. -/
theorem Sound.read {s : Root β} (hs : Sound fs found s) {id : ℕ} {r r' : Reader β}
    (hr : s.readers id = some r) {answer : Except OsError ℕ}
    (h : s.read fs r answer = some r') : r'.path = r.path ∧ Served fs found s r' := by
  have hserved := hs.served id r hr
  have hfail (error : StorageError β) :
      (r.fail error).path = r.path ∧ Served fs found s (r.fail error) := ⟨rfl, trivial⟩
  have hchecked (len : ℕ) {next : ReadPhase β} (hnext : Served fs found s { r with phase := next }) :
      (r.checked len next).path = r.path ∧ Served fs found s (r.checked len next) := by
    unfold Reader.checked
    split
    · exact ⟨rfl, trivial⟩
    · exact ⟨rfl, hnext⟩
  unfold Served at hserved
  unfold Root.read at h
  split at h <;> rename_i hphase <;> simp only [hphase] at hserved
  · obtain ⟨target, -, rfl⟩ := map_eq_some_iff.mp h
    exact hchecked _ trivial
  · exact some.inj h ▸ hfail _
  · obtain ⟨⟨σ, file⟩, hlookup, rfl⟩ := map_eq_some_iff.mp h
    obtain ⟨hleads, hsealed⟩ := hs.lookup (fun τ ↦ hs.addressed id r τ hr) hlookup
    split
    · exact ⟨rfl, hleads, hsealed⟩
    · exact ⟨rfl, hleads, hsealed, nil_prefix⟩
  · exact some.inj h ▸ hfail _
  · rename_i σ file _
    rw [← some.inj h]
    exact hchecked _ ⟨hserved.1, hserved.2, nil_prefix⟩
  · exact some.inj h ▸ hfail _
  · rename_i σ file data n
    obtain ⟨hleads, hsealed, hdata⟩ := hserved
    rw [← some.inj h]
    obtain ⟨rest, hrest⟩ := hdata
    have hdrop : (s.disk.content file).drop data.length = rest := by
      rw [← hrest, drop_left]
    rw [hdrop]
    unfold Reader.readOn
    split
    · rename_i hend
      -- nothing is left: the window is not empty, so the file is at its end
      have hpos : min (n + 1) readWindow ≠ 0 := by simp [readWindow]
      have hnil : rest = [] := (take_eq_nil_iff.mp hend).resolve_left hpos
      rw [hnil, append_nil] at hrest
      exact ⟨rfl, hleads, hrest ▸ hsealed.whole⟩
    · refine ⟨rfl, hleads, hsealed, ?_⟩
      rw [← hrest, prefix_append_right_inj]
      exact take_prefix _ _
  · exact some.inj h ▸ hfail _
  · exact absurd h nofun

theorem Sound.setReader {s : Root β} (hs : Sound fs found s) (id : ℕ) {o : Option (Reader β)}
    (ho : ∀ r, o = some r → s.stage = .serving ∧ (∀ σ, fs.slot r.path = some σ → Live fs σ) ∧
      Served fs found s r) : Sound fs found (s.setReader id o) := by
  have hkeeps : Keeps fs s (s.setReader id o) :=
    ⟨le_rfl, List.Subset.refl _, fun i _ hclosed hsynced ↦
      ⟨⟨hclosed.released, hclosed.unstaged⟩, rfl, hsynced⟩⟩
  have hreaders {id' : ℕ} {r : Reader β} (hr : (s.setReader id o).readers id' = some r) :
      o = some r ∨ s.readers id' = some r := by
    simp only [Root.setReader] at hr
    by_cases hid : id' = id
    · subst hid
      rw [update_self] at hr
      exact Or.inl hr
    · rw [update_of_ne hid] at hr
      exact Or.inr hr
  refine ⟨hs.sealed.mono fun σ _ n ↦ SealedNode.keep hkeeps, hs.bound, ?_, hs.apart, hs.single, ?_,
    hs.shielded, ?_, ?_⟩
  · exact fun id' w hw ↦
      (hs.staged id' w hw).frame le_rfl (fun _ _ ↦ rfl) fun _ _ ↦ ⟨rfl, rfl⟩
  · intro hidle
    obtain ⟨hwriters, hnone⟩ := hs.idle hidle
    refine ⟨hwriters, fun id' ↦ eq_none_iff_forall_ne_some.mpr fun r hr ↦ ?_⟩
    rcases hreaders hr with hr | hr
    · exact hidle (ho r hr).1
    · exact absurd ((hnone id').symm.trans hr) nofun
  · intro id' r σ hr hσ
    rcases hreaders hr with hr | hr
    · exact (ho r hr).2.1 σ hσ
    · exact hs.addressed id' r σ hr hσ
  · intro id' r hr
    rcases hreaders hr with hr | hr
    · exact (ho r hr).2.2.keep hkeeps
    · exact (hs.served id' r hr).keep hkeeps

/-- A write that begins, or is dropped. -/
theorem Sound.setWriter {s : Root β} (hs : Sound fs found s) (id : ℕ) {o : Option (Writer β)}
    (ho : ∀ w, o = some w → s.stage = .serving ∧ w.phase.tmp? = none ∧ w.phase.file? = none ∧
      (∀ σ, fs.slot w.path = some σ → Live fs σ) ∧ Staged fs s w) :
    Sound fs found (s.setWriter id o) := by
  have hkeeps : Keeps fs s (s.setWriter id o) := by
    refine ⟨le_rfl, List.Subset.refl _,
      fun i _ hclosed hsynced ↦ ⟨⟨?_, hclosed.unstaged⟩, rfl, hsynced⟩⟩
    intro id' w hw hfile
    rcases Root.setWriter_eq_some hw with ⟨-, hw⟩ | ⟨-, hw⟩
    · exact absurd ((ho w hw).2.2.1.symm.trans hfile) nofun
    · exact hclosed.released id' w hw hfile
  refine ⟨hs.sealed.mono fun σ _ n ↦ SealedNode.keep hkeeps, hs.bound, ?_, ?_, hs.single, ?_, ?_,
    hs.addressed, fun id' r hr ↦ (hs.served id' r hr).keep hkeeps⟩
  · intro id' w hw
    have hstaged : Staged fs s w := by
      rcases Root.setWriter_eq_some hw with ⟨-, hw⟩ | ⟨-, hw⟩
      · exact (ho w hw).2.2.2.2
      · exact hs.staged id' w hw
    exact hstaged.frame le_rfl (fun _ _ ↦ rfl) fun _ _ ↦ ⟨rfl, rfl⟩
  · intro id₁ id₂ v₁ v₂ hne h₁ h₂
    rcases Root.setWriter_eq_some h₁ with ⟨-, e₁⟩ | ⟨-, e₁⟩
    · obtain ⟨-, htmp, hfile, -⟩ := ho v₁ e₁
      exact ⟨fun t ht ↦ absurd (htmp.symm.trans ht) nofun,
        fun i hi ↦ absurd (hfile.symm.trans hi) nofun⟩
    · rcases Root.setWriter_eq_some h₂ with ⟨-, e₂⟩ | ⟨-, e₂⟩
      · obtain ⟨-, htmp, hfile, -⟩ := ho v₂ e₂
        exact ⟨fun t _ ht ↦ absurd (htmp.symm.trans ht) nofun,
          fun i _ hi ↦ absurd (hfile.symm.trans hi) nofun⟩
      · exact hs.apart id₁ id₂ v₁ v₂ hne e₁ e₂
  · intro hidle
    obtain ⟨hnone, hreaders⟩ := hs.idle hidle
    refine ⟨fun id' ↦ eq_none_iff_forall_ne_some.mpr fun w hw ↦ ?_, hreaders⟩
    rcases Root.setWriter_eq_some hw with ⟨-, hw⟩ | ⟨-, hw⟩
    · exact hidle (ho w hw).1
    · exact absurd ((hnone id').symm.trans hw) nofun
  · intro id' w σ hw hσ
    rcases Root.setWriter_eq_some hw with ⟨-, hw⟩ | ⟨-, hw⟩
    · exact (ho w hw).2.2.2.1 σ hσ
    · exact hs.shielded id' w σ hw hσ

theorem Sound.idleStep {s s' : Root β} (hs : Sound fs found s) (hnext : s'.nextFile = s.nextFile)
    (hpublished : s'.published = s.published)
    (hcontent : ∀ i, s.disk.synced i = true → s'.disk.content i = s.disk.content i)
    (hsynced : s'.disk.synced = s.disk.synced)
    (hbound : ∀ σ n, s'.disk.Bound σ n → s.disk.Bound σ n)
    (hempty : s'.stage = .serving → ∀ σ, ¬Live fs σ → s'.disk.entry σ = none)
    (hwriters : ∀ id, s'.writers id = none) (hreaders : ∀ id, s'.readers id = none) :
    Sound fs found s' := by
  have hclosed (i : ℕ) : s'.Closed fs i :=
    ⟨fun id w hw ↦ absurd ((hwriters id).symm.trans hw) nofun,
      fun hserving σ hσ hi ↦ absurd ((hempty hserving σ hσ).symm.trans hi) nofun⟩
  have hkeeps : Keeps fs s s' :=
    ⟨hnext.ge, hpublished ▸ List.Subset.refl _,
      fun i _ _ hi ↦ ⟨hclosed i, hcontent i hi, hsynced ▸ hi⟩⟩
  refine ⟨?_, ?_, ?_, ?_, ?_, fun _ ↦ ⟨hwriters, hreaders⟩, ?_, ?_, ?_⟩
  · exact (hs.sealed.of_bound fun σ _ n hn ↦ Or.inl (hbound σ n hn)).mono
      fun σ _ n ↦ SealedNode.keep hkeeps
  · exact fun σ hσ n hn ↦ hnext ▸ hs.bound σ hσ n (hbound σ n hn)
  · exact fun id w hw ↦ absurd ((hwriters id).symm.trans hw) nofun
  · exact fun id _ w _ _ hw ↦ absurd ((hwriters id).symm.trans hw) nofun
  · exact fun hserving σ hσ n hn ↦ absurd ((hempty hserving σ hσ).symm.trans hn) nofun
  · exact fun id w _ hw ↦ absurd ((hwriters id).symm.trans hw) nofun
  · exact fun id r _ hr ↦ absurd ((hreaders id).symm.trans hr) nofun
  · exact fun id r hr ↦ absurd ((hreaders id).symm.trans hr) nofun

/-! ## Runs -/

/-- A call whose path leads into the staging directory only by a first name the service refuses. -/
def Action.Shielded (fs : FileSystem) : Action β → Prop
  | .put _ _ _ _ _ identified | .get _ _ _ _ _ identified => fs.Shielded identified
  | _ => True

theorem live_of_startWrite {folder key : List Char} {body : Body β}
    {canonical : Except OsError Unit} {identified : Bool} (hshield : fs.Shielded identified)
    (hσ : fs.slot (startWrite fs folder key body canonical identified).path = some σ) :
    Live fs σ := by
  unfold startWrite at hσ
  split at hσ
  · exact absurd hσ nofun
  · rename_i path hpath
    exact hshield.slot_dir_ne hpath hσ

theorem live_of_startRead {streaming : Bool} {folder key : List Char}
    {canonical : Except OsError Unit} {identified : Bool} (hshield : fs.Shielded identified)
    {σ : Slot}
    (hσ : fs.slot (startRead (β := β) fs streaming folder key canonical identified).path = some σ) :
    Live fs σ := by
  unfold startRead at hσ
  split at hσ
  · exact absurd hσ nofun
  · rename_i path hpath
    exact hshield.slot_dir_ne hpath hσ

/-- A write does not draw a temp name that a write has. -/
def Root.Fresh (fs : FileSystem) (s : Root β) : Action β → Prop
  | .write id (.ok _) => ∀ w, s.writers id = some w → w.phase = .stagingDirectory →
      ∀ id' v, s.writers id' = some v → v.phase.tmp? ≠ some (fs.stagedSlot s.pid s.seq.toNat)
  | _ => True

/-- No step of the run draws a temp name that a write has. -/
def Root.AllFresh (fs : FileSystem) (s : Root β) : List (Action β) → Prop
  | [] => True
  | a :: rest => s.Fresh fs a ∧ ∀ s', s.step fs a = some s' → s'.AllFresh fs rest

/-- A step while no process serves. -/
theorem Sound.step_idle {s s' : Root β} (hs : Sound fs found s) (hidle : s.stage ≠ .serving)
    {a : Action β} (h : s.step fs a = some s') : Sound fs found s' := by
  obtain ⟨hwriters, hreaders⟩ := hs.idle hidle
  cases a with
  | boot | bootFailed =>
    obtain ⟨-, h⟩ := ite_none_right_eq_some.mp h
    rw [← some.inj h]
    exact hs.idleStep rfl rfl (fun _ _ ↦ rfl) rfl (fun _ _ hn ↦ hn) nofun hwriters hreaders
  | sweep name =>
    obtain ⟨-, h⟩ := ite_none_right_eq_some.mp h
    rw [← some.inj h]
    refine hs.idleStep rfl rfl (fun _ _ ↦ rfl) rfl (fun σ n hn ↦ ?_)
      (fun hserving ↦ absurd hserving hidle) hwriters hreaders
    exact (Disk.bound_rebind hn).elim id fun ⟨_, hnode⟩ ↦ absurd hnode nofun
  | booted =>
    obtain ⟨-, h⟩ := ite_none_right_eq_some.mp h
    rw [← some.inj h]
    exact hs.idleStep rfl rfl (fun _ _ ↦ rfl) rfl (fun _ _ hn ↦ Disk.bound_remove hn)
      (fun _ _ hσ ↦ if_pos (decide_eq_true (not_not.mp hσ))) hwriters hreaders
  | revert slot k =>
    obtain ⟨-, h⟩ := ite_none_right_eq_some.mp h
    obtain ⟨d, hd, rfl⟩ := map_eq_some_iff.mp h
    obtain ⟨n, -, hreverted⟩ := map_eq_some_iff.mp hd
    refine hs.idleStep rfl rfl (fun i _ ↦ ?_) ?_ (fun _ _ hn ↦ Disk.bound_revert hd hn)
      (fun hserving ↦ absurd hserving hidle) hwriters hreaders
    · rw [← hreverted]
    · rw [← hreverted]
  | scramble file content =>
    obtain ⟨-, h⟩ := ite_none_right_eq_some.mp h
    obtain ⟨d, hd, rfl⟩ := map_eq_some_iff.mp h
    obtain ⟨hunsynced, hd⟩ := ite_none_left_eq_some.mp hd
    rw [← some.inj hd]
    refine hs.idleStep rfl rfl (fun i hi ↦ ?_) rfl (fun _ _ hn ↦ hn)
      (fun hserving ↦ absurd hserving hidle) hwriters hreaders
    have hne : i ≠ file := fun hfile ↦ hunsynced (hfile ▸ hi)
    exact update_of_ne hne _ _
  | crash =>
    rw [← some.inj h]
    exact hs.idleStep rfl rfl (fun _ _ ↦ rfl) rfl (fun _ _ hn ↦ hn) nofun (fun _ ↦ rfl)
      fun _ ↦ rfl
  | dropWrite id => exact some.inj h ▸ hs.setWriter id nofun
  | dropRead id => exact some.inj h ▸ hs.setReader id nofun
  | put | get => exact absurd (ite_none_right_eq_some.mp h).1.1 hidle
  | write id answer =>
    obtain ⟨w, hw, -⟩ := bind_eq_some_iff.mp h
    exact absurd ((hwriters id).symm.trans hw) nofun
  | read id answer =>
    obtain ⟨r, hr, -⟩ := bind_eq_some_iff.mp h
    exact absurd ((hreaders id).symm.trans hr) nofun

/-- **The step lemma.** Every step whose call is shielded, and that draws no name in use, keeps the
invariant. -/
theorem Sound.step {s s' : Root β} (hs : Sound fs found s) {a : Action β} (ha : a.Shielded fs)
    (hfresh : s.Fresh fs a) (h : s.step fs a = some s') : Sound fs found s' := by
  by_cases hserving : s.stage = .serving
  swap
  · exact hs.step_idle hserving h
  cases a with
  | boot | sweep | bootFailed | booted | revert | scramble =>
    have hstage := (ite_none_right_eq_some.mp h).1
    exact absurd (hserving.symm.trans hstage) nofun
  | crash =>
    rw [← some.inj h]
    exact hs.idleStep rfl rfl (fun _ _ ↦ rfl) rfl (fun _ _ hn ↦ hn) nofun (fun _ ↦ rfl)
      fun _ ↦ rfl
  | put id folder key body canonical identified =>
    obtain ⟨-, h⟩ := ite_none_right_eq_some.mp h
    rw [← some.inj h]
    refine hs.setWriter id fun w hw ↦ ?_
    rw [← some.inj hw]
    refine ⟨hserving, ?_, ?_, fun σ ↦ live_of_startWrite ha, ?_⟩
    all_goals
      unfold startWrite
      split
      · trivial
      · trivial
  | write id answer =>
    obtain ⟨w, hw, h⟩ := bind_eq_some_iff.mp h
    obtain ⟨⟨s₁, w'⟩, hmoved, h⟩ := bind_eq_some_iff.mp h
    rw [← some.inj h]
    have hmove : Move fs found s w s₁ w' := Root.write_move hs hw hmoved
    refine hs.move hw hmove fun tmp htmp hphase ↦ ?_
    rcases hmove.tmp tmp htmp with hown | ⟨-, rfl⟩
    · rw [hphase] at hown
      exact absurd hown nofun
    rcases answer with e | n
    · simp only [Root.write, hphase, Option.some.injEq, Prod.mk.injEq] at hmoved
      rw [← hmoved.2] at htmp
      exact absurd htmp nofun
    · exact hfresh w hw hphase
  | dropWrite id => exact some.inj h ▸ hs.setWriter id nofun
  | get id streaming folder key canonical identified =>
    obtain ⟨-, h⟩ := ite_none_right_eq_some.mp h
    rw [← some.inj h]
    refine hs.setReader id fun r hr ↦ ?_
    rw [← some.inj hr]
    refine ⟨hserving, fun σ ↦ live_of_startRead ha, ?_⟩
    unfold startRead
    split
    · trivial
    · rcases streaming with _ | _ <;> trivial
  | read id answer =>
    obtain ⟨r, hr, h⟩ := bind_eq_some_iff.mp h
    obtain ⟨r', hread, h⟩ := bind_eq_some_iff.mp h
    rw [← some.inj h]
    obtain ⟨hpath, hserved⟩ := hs.read hr hread
    refine hs.setReader id fun r'' hr'' ↦ ?_
    rw [← some.inj hr'']
    exact ⟨hserving, fun σ hσ ↦ hs.addressed id r σ hr (hpath ▸ hσ), hserved⟩
  | dropRead id => exact some.inj h ▸ hs.setReader id nofun

theorem Sound.run {s s' : Root β} (hs : Sound fs found s) {actions : List (Action β)}
    (hactions : ∀ a ∈ actions, a.Shielded fs) (hfresh : s.AllFresh fs actions)
    (h : s.run fs actions = some s') : Sound fs found s' := by
  induction actions generalizing s with
  | nil =>
    rw [← some.inj h]
    exact hs
  | cons a rest ih =>
    rw [Root.run, bind_eq_some_iff] at h
    obtain ⟨s₁, hstep, hrest⟩ := h
    exact ih (hs.step (hactions a mem_cons_self) hfresh.1 hstep)
      (fun b hb ↦ hactions b (mem_cons_of_mem _ hb)) (hfresh.2 s₁ hstep) hrest

def plainRoot : FileSystem where
  root := ["srv".toList]
  dirAt path := if path = [] then some 0 else if path = [stagingDir] then some 1 else none
  fold name := name
  maxLinks := 40
  staging := 1
  dirAt_stagingDir := by decide +kernel
  dirAt_nil_ne := by decide +kernel
  fold_stagedTempName _ _ := rfl

/-- What the read has returned, and how many writes have been published. -/
def outcome (s : Root Unit) : Option (Slot × Content) × ℕ :=
  (match s.readers 1 with
    | some ⟨_, _, .finished (.ok read)⟩ => some read
    | _ => none, s.published.length)

end WaferRun.LocalStorage
