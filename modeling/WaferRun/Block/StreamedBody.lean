import WaferRun.Block.OpenResponse

/-!
# What a transport sends

A transport polls the body of a streamed response until it has nothing more to send. It may stop
before that: once it has sent as many bytes as the head declared it has no reason to poll again,
and if the head declared none it has no reason to poll at all. Whatever the producer does, a
transport that has sent the declared number of bytes has sent the whole body, and the producer
ended it with `complete`.

The items of a body are a fold over its polls. The proofs compare it with the chunks the producer
sent before its terminal (`producedBody`), by induction on the events that are left.
-/

open List

namespace WaferRun

/-! ## Items -/

def okBytes : List (Except WaferError Bytes) → Bytes
  | [] => []
  | .ok bytes :: items => bytes ++ okBytes items
  | .error _ :: items => okBytes items

def NoError (items : List (Except WaferError Bytes)) : Prop := ∀ item ∈ items, item.isOk

instance (items : List (Except WaferError Bytes)) : Decidable (NoError items) :=
  inferInstanceAs (Decidable (∀ item ∈ items, _))

def FailsWith (items : List (Except WaferError Bytes)) (err : WaferError) : Prop :=
  ∃ chunks : List Bytes, items = chunks.map .ok ++ [.error err]

namespace StreamedBody

/-- What at most `k` polls yield. -/
def polled : ℕ → StreamedBody → List (Except WaferError Bytes)
  | 0, _ => []
  | k + 1, b =>
    match b.pollNext with
    | (none, _) => []
    | (some item, rest) => item :: polled k rest

/-- The body after `k` polls. -/
def after : ℕ → StreamedBody → StreamedBody
  | 0, b => b
  | k + 1, b => after k b.pollNext.2

def items (b : StreamedBody) : List (Except WaferError Bytes) :=
  b.polled ((b.output.getD []).length + 2)

end StreamedBody

def producedBody : List StreamEvent → Bytes
  | .chunk bytes :: es => bytes ++ producedBody es
  | .metadata _ :: es => producedBody es
  | _ => []

/-- The producer ended with `complete`. -/
def endsComplete : List StreamEvent → Bool
  | .chunk _ :: es | .metadata _ :: es => endsComplete es
  | .complete _ :: _ => true
  | _ => false

/-! ## Polling, event by event -/

def itemsFrom (remaining : Option ℕ) (held : Option Bytes) :
    List StreamEvent → List (Except WaferError Bytes)
  | .chunk bytes :: es =>
    match remaining with
    | none => .ok bytes :: itemsFrom none held es
    | some left =>
      if bytes = [] then itemsFrom (some left) held es
      else if left < bytes.length then [.error overrunError]
      else if left = bytes.length then itemsFrom (some 0) (some bytes) es
      else .ok bytes :: itemsFrom (some (left - bytes.length)) held es
  | .metadata _ :: es => itemsFrom remaining held es
  | es => (pollEvents remaining held es).1.toList

namespace StreamedBody

def allItems (b : StreamedBody) : List (Except WaferError Bytes) :=
  (b.output.map (itemsFrom b.remaining b.held)).getD []

theorem itemsFrom_eq_pollEvents (remaining : Option ℕ) (held : Option Bytes)
    (es : List StreamEvent) :
    itemsFrom remaining held es =
      ((pollEvents remaining held es).1.map
        (· :: (pollEvents remaining held es).2.allItems)).getD [] := by
  fun_induction pollEvents remaining held es <;> simp_all [itemsFrom, pollEvents, allItems, ended]

theorem allItems_eq_pollNext (b : StreamedBody) :
    b.allItems = (b.pollNext.1.map (· :: b.pollNext.2.allItems)).getD [] := by
  obtain ⟨_ | es, remaining, held⟩ := b
  · rfl
  · exact itemsFrom_eq_pollEvents remaining held es

theorem polled_eq_take (k : ℕ) (b : StreamedBody) : b.polled k = b.allItems.take k := by
  induction k generalizing b with
  | zero => rfl
  | succ k ih =>
    rw [allItems_eq_pollNext, polled]
    rcases b.pollNext with ⟨_ | item, rest⟩
    · rfl
    · exact congrArg (item :: ·) (ih rest)

theorem length_itemsFrom_le (remaining : Option ℕ) (held : Option Bytes)
    (es : List StreamEvent) : (itemsFrom remaining held es).length ≤ es.length + 1 := by
  fun_induction itemsFrom remaining held es with
  | case7 => exact (Option.length_toList_le).trans (Nat.le_add_left 1 _)
  | _ => simp only [length_cons, length_nil] at *; omega

theorem items_eq_allItems (b : StreamedBody) : b.items = b.allItems := by
  rw [items, polled_eq_take]
  apply take_of_length_le
  obtain ⟨_ | es, remaining, held⟩ := b
  · exact Nat.zero_le _
  · exact (length_itemsFrom_le remaining held es).trans (Nat.le_succ _)

theorem polled_eq_take_items (k : ℕ) (b : StreamedBody) : b.polled k = b.items.take k := by
  rw [items_eq_allItems, polled_eq_take]

theorem output_eq_none_of_pollNext {b rest : StreamedBody} (h : b.pollNext = (none, rest)) :
    rest.output = none := by
  obtain ⟨_ | es, remaining, held⟩ := b
  · rw [pollNext, Prod.mk.injEq] at h
    exact h.2 ▸ rfl
  · replace h : pollEvents remaining held es = (none, rest) := h
    fun_induction pollEvents remaining held es with
    | case9 => exact (Prod.mk.inj h).2 ▸ rfl
    | _ => simp_all

theorem pollNext_after (k : ℕ) (b : StreamedBody) : (b.after k).pollNext.1 = b.items[k]? := by
  rw [items_eq_allItems]
  induction k generalizing b with
  | zero =>
    rw [after, allItems_eq_pollNext]
    rcases b.pollNext with ⟨_ | item, rest⟩ <;> rfl
  | succ k ih =>
    rw [after, ih, allItems_eq_pollNext b]
    rcases hb : b.pollNext with ⟨_ | item, rest⟩
    · rw [allItems, output_eq_none_of_pollNext hb]
      rfl
    · rfl

end StreamedBody

/-! ## A declared length -/

theorem okBytes_append (items items' : List (Except WaferError Bytes)) :
    okBytes (items ++ items') = okBytes items ++ okBytes items' := by
  fun_induction okBytes items with
  | case1 => rfl
  | case2 bytes items ih => rw [cons_append, okBytes, ih, append_assoc]
  | case3 err items ih => rw [cons_append, okBytes, ih]

theorem okBytes_take_isPrefix (k : ℕ) (items : List (Except WaferError Bytes)) :
    okBytes (items.take k) <+: okBytes items := by
  refine ⟨okBytes (items.drop k), ?_⟩
  rw [← okBytes_append, take_append_drop]

theorem not_noError_of_failsWith {items : List (Except WaferError Bytes)} {err : WaferError}
    (h : FailsWith items err) : ¬NoError items := by
  obtain ⟨chunks, rfl⟩ := h
  intro hno
  have := hno (.error err) (by simp)
  cases this

theorem FailsWith.cons {items : List (Except WaferError Bytes)} {err : WaferError}
    (h : FailsWith items err) (bytes : Bytes) : FailsWith (.ok bytes :: items) err := by
  obtain ⟨chunks, rfl⟩ := h
  exact ⟨bytes :: chunks, rfl⟩

theorem NoError.cons {items : List (Except WaferError Bytes)} (h : NoError items) (bytes : Bytes) :
    NoError (.ok bytes :: items) :=
  forall_mem_cons.mpr ⟨rfl, h⟩

/-- Once the length is met, one item is left: the chunk that met it, if nothing but `complete`
follows, and otherwise an error. -/
theorem itemsFrom_held (last : Bytes) (es : List StreamEvent) :
    (producedBody es = [] ∧ endsComplete es = true ∧
        itemsFrom (some 0) (some last) es = [.ok last]) ∨
      (¬(producedBody es = [] ∧ endsComplete es = true) ∧
        ∃ err, itemsFrom (some 0) (some last) es = [.error err]) := by
  induction es with
  | nil => exact .inr ⟨by simp [endsComplete], _, rfl⟩
  | cons e es ih =>
    cases e with
    | chunk bytes =>
      rcases bytes with _ | ⟨b, bs⟩
      · simpa [itemsFrom, producedBody, endsComplete] using ih
      · exact .inr ⟨by simp [producedBody], overrunError, by simp [itemsFrom]⟩
    | metadata entry => simpa [itemsFrom, producedBody, endsComplete] using ih
    | complete entries => exact .inl ⟨rfl, rfl, rfl⟩
    | error err => exact .inr ⟨by simp [endsComplete], _, rfl⟩
    | drop entries => exact .inr ⟨by simp [endsComplete], _, rfl⟩
    | halt body entries => exact .inr ⟨by simp [endsComplete], _, rfl⟩
    | «continue» msg => exact .inr ⟨by simp [endsComplete], _, rfl⟩

/-- The items of a body that owes `left` bytes are the whole body, or they end in an error before
the length is met. -/
def Enforced (left : ℕ) (es : List StreamEvent) (items : List (Except WaferError Bytes)) : Prop :=
  ((producedBody es).length = left ∧ endsComplete es = true ∧ NoError items ∧
      okBytes items = producedBody es) ∨
    (¬((producedBody es).length = left ∧ endsComplete es = true) ∧ (∃ err, FailsWith items err) ∧
      (okBytes items).length ≤ left ∧ (0 < left → (okBytes items).length < left))

theorem enforced_error {left : ℕ} {es : List StreamEvent} (err : WaferError)
    (h : ¬((producedBody es).length = left ∧ endsComplete es = true)) :
    Enforced left es [.error err] :=
  .inr ⟨h, ⟨err, [], rfl⟩, Nat.zero_le _, id⟩

theorem itemsFrom_enforced (left : ℕ) (es : List StreamEvent) :
    Enforced left es (itemsFrom (some left) none es) := by
  induction es generalizing left with
  | nil => exact enforced_error _ (by simp [endsComplete])
  | cons e es ih =>
    cases e with
    | chunk bytes =>
      simp only [itemsFrom]
      split_ifs with hnil hover hmet
      · subst hnil
        exact ih left
      · apply enforced_error
        intro h
        rw [producedBody, length_append] at h
        omega
      · rcases itemsFrom_held bytes es with ⟨hbody, hend, hitems⟩ | ⟨hnot, err, hitems⟩
        · rw [hitems]
          refine .inl ⟨?_, hend, by simp [NoError, Except.isOk, Except.toBool], ?_⟩
          · rw [producedBody, hbody, append_nil, hmet]
          · rw [producedBody, hbody]
            rfl
        · rw [hitems]
          apply enforced_error
          rintro ⟨hlen, hend⟩
          rw [producedBody, length_append] at hlen
          exact hnot ⟨eq_nil_of_length_eq_zero (by omega), hend⟩
      · rcases ih (left - bytes.length) with ⟨hlen, hend, hno, hok⟩ | ⟨hnot, ⟨err, hf⟩, hle, hlt⟩
        · refine .inl ⟨?_, hend, hno.cons bytes, ?_⟩
          · rw [producedBody, length_append, hlen]
            omega
          · rw [okBytes, producedBody, hok]
        · refine .inr ⟨?_, ⟨err, hf.cons bytes⟩, ?_⟩
          · rintro ⟨hlen, hend⟩
            rw [producedBody, length_append] at hlen
            exact hnot ⟨by omega, hend⟩
          · rw [okBytes, length_append]
            have := hlt (by omega)
            omega
    | metadata entry => exact ih left
    | complete entries =>
      rcases left with _ | short
      · exact .inl ⟨rfl, rfl, by simp [NoError, itemsFrom, pollEvents], rfl⟩
      · exact enforced_error (shortError (short + 1)) (by simp [producedBody])
    | error err => exact enforced_error _ (by simp [endsComplete])
    | drop entries => exact enforced_error _ (by simp [endsComplete])
    | halt body entries => exact enforced_error _ (by simp [endsComplete])
    | «continue» msg => exact enforced_error _ (by simp [endsComplete])

/-! ## The opened response -/

theorem producedBody_map_metadata (entries : List MetaEntry) (es : List StreamEvent) :
    producedBody (entries.map .metadata ++ es) = producedBody es := by
  induction entries with
  | nil => rfl
  | cons entry entries ih => rw [map_cons, cons_append, producedBody, ih]

theorem endsComplete_map_metadata (entries : List MetaEntry) (es : List StreamEvent) :
    endsComplete (entries.map .metadata ++ es) = endsComplete es := by
  induction entries with
  | nil => rfl
  | cons entry entries ih => rw [map_cons, cons_append, endsComplete, ih]

theorem checkEmptyBody_eq_fits {entries : List MetaEntry} {es rest : List StreamEvent}
    (h : checkEmptyBody (entries.map .metadata) es = (.fits, rest)) :
    producedBody es = [] ∧ endsComplete es = true ∧
      producedBody rest = [] ∧ endsComplete rest = true := by
  induction es generalizing entries with
  | nil => simp [checkEmptyBody] at h
  | cons e es ih =>
    cases e with
    | chunk bytes =>
      rcases bytes with _ | ⟨b, bs⟩
      · exact ih h
      · simp [checkEmptyBody] at h
    | metadata entry =>
      rw [checkEmptyBody, ← map_singleton, ← map_append] at h
      exact ih h
    | complete trailing =>
      rw [checkEmptyBody, Prod.mk.injEq] at h
      rw [← h.2, producedBody_map_metadata, endsComplete_map_metadata]
      exact ⟨rfl, rfl, rfl, rfl⟩
    | error err => simp [checkEmptyBody] at h
    | drop entries => simp [checkEmptyBody] at h
    | halt body entries => simp [checkEmptyBody] at h
    | «continue» msg => simp [checkEmptyBody] at h

/-- The events a declared length leaves to be read are those of the producer, or the length is zero
and both are empty bodies that end with `complete`. -/
theorem checkDeclaredLength_eq_fits {declared : ℕ} {es rest : List StreamEvent}
    (h : checkDeclaredLength declared es = (.fits, rest)) :
    (0 < declared ∧ rest = es) ∨
      (declared = 0 ∧ producedBody es = [] ∧ endsComplete es = true ∧
        producedBody rest = [] ∧ endsComplete rest = true) := by
  unfold checkDeclaredLength at h
  split at h
  · rename_i hpos
    refine .inl ⟨hpos, ?_⟩
    split at h
    · split at h
      · simp at h
      · exact (Prod.mk.inj h).2.symm
    · exact (Prod.mk.inj h).2.symm
  · rename_i hpos
    exact .inr ⟨Nat.eq_zero_of_not_pos hpos, @checkEmptyBody_eq_fits [] _ _ h⟩

theorem openResponse_eq_streamed {o : OutputStream} {r : StreamedHttpResponse}
    (h : openResponse o = .streamed r) :
    ∃ es, r.body = ⟨some es, r.contentLength, none⟩ ∧
      contentLength o.takeLeadingMeta.1 = .ok r.contentLength ∧
      (es = o.takeLeadingMeta.2.events ∧ r.contentLength ≠ some 0 ∨
        r.contentLength = some 0 ∧ producedBody o.takeLeadingMeta.2.events = [] ∧
          endsComplete o.takeLeadingMeta.2.events = true ∧
          producedBody es = [] ∧ endsComplete es = true) := by
  unfold openResponse at h
  have hpeek := (OutputStream.events_peek o.takeLeadingMeta.2).1
  revert h hpeek
  generalize o.takeLeadingMeta = lead
  obtain ⟨entries, rest⟩ := lead
  dsimp only
  generalize rest.peek = peeked
  obtain ⟨first, rest'⟩ := peeked
  dsimp only
  intro h hpeek
  split_ifs at h
  cases hh : headersFromMeta entries with
  | error invalid => simp [hh] at h
  | ok headers =>
    cases hc : contentLength entries with
    | error invalid => simp [hh, hc] at h
    | ok declared =>
      cases declared with
      | none =>
        simp only [hh, hc, openStreamed, OpenedResponse.streamed.injEq] at h
        subst h
        exact ⟨_, rfl, rfl, .inl ⟨hpeek, by simp⟩⟩
      | some n =>
        simp only [hh, hc] at h
        split at h
        · rename_i es hfits
          rw [openStreamed, OpenedResponse.streamed.injEq] at h
          subst h
          refine ⟨es, rfl, rfl, ?_⟩
          rw [hpeek] at hfits
          rcases checkDeclaredLength_eq_fits hfits with ⟨hpos, rfl⟩ | ⟨rfl, hrest⟩
          · exact .inl ⟨rfl, by simpa using Nat.ne_of_gt hpos⟩
          · exact .inr ⟨rfl, hrest⟩
        · cases h
        · cases h

/-- The items of a response with a declared length enforce it, and a declared length of zero is
met. -/
theorem streamed_enforced {o : OutputStream} {r : StreamedHttpResponse} {n : ℕ}
    (h : openResponse o = .streamed r) (hn : r.contentLength = some n) :
    Enforced n o.events r.body.items ∧
      (n = 0 → producedBody o.events = [] ∧ endsComplete o.events = true) := by
  obtain ⟨es, hbody, -, hes⟩ := openResponse_eq_streamed h
  have hitems : r.body.items = itemsFrom (some n) none es := by
    rw [StreamedBody.items_eq_allItems, hbody, hn]
    rfl
  rw [hitems, ← o.events_takeLeadingMeta, Enforced, producedBody_map_metadata,
    endsComplete_map_metadata]
  rw [hn] at hes
  rcases hes with ⟨rfl, hne⟩ | ⟨hzero, hbody, hend, hbody', hend'⟩
  · exact ⟨itemsFrom_enforced n _, fun h0 ↦ absurd (congrArg some h0) hne⟩
  · obtain rfl : n = 0 := Option.some.inj hzero
    have henf := itemsFrom_enforced 0 es
    rw [Enforced, hbody', hend'] at henf
    rw [hbody, hend]
    exact ⟨henf, fun _ ↦ ⟨rfl, rfl⟩⟩

/-- **A declared length is kept or the body fails.** Whatever a transport has polled, it has not
been given more bytes than the head declared. The body ends without an error exactly when the
chunks of the producer have that length and its terminal is `complete`, and a transport that has
been given as many bytes as declared has been given all of them. -/
theorem streamed_declaredLength (o : OutputStream) (r : StreamedHttpResponse) (n : ℕ)
    (h : openResponse o = .streamed r) (hn : r.contentLength = some n) :
    (∀ k, (okBytes (r.body.polled k)).length ≤ n) ∧
      (NoError r.body.items ↔
        (producedBody o.events).length = n ∧ endsComplete o.events = true) ∧
      (∀ k, (okBytes (r.body.polled k)).length = n →
        NoError r.body.items ∧ okBytes (r.body.polled k) = producedBody o.events ∧
          endsComplete o.events = true) ∧
      (NoError r.body.items ∨ ∃ err, FailsWith r.body.items err) ∧
      ∀ k, (r.body.after k).pollNext.1 = r.body.items[k]? := by
  obtain ⟨henf, hzero⟩ := streamed_enforced h hn
  have hpre (k : ℕ) : okBytes (r.body.polled k) <+: okBytes r.body.items := by
    rw [StreamedBody.polled_eq_take_items]
    exact okBytes_take_isPrefix k _
  refine ⟨?_, ?_, ?_, ?_, fun k ↦ r.body.pollNext_after k⟩
  · intro k
    refine (hpre k).length_le.trans ?_
    rcases henf with ⟨hlen, -, -, hok⟩ | ⟨-, -, hle, -⟩
    · rw [hok, hlen]
    · exact hle
  · rcases henf with ⟨hlen, hend, hno, -⟩ | ⟨hnot, ⟨err, hf⟩, -⟩
    · exact ⟨fun _ ↦ ⟨hlen, hend⟩, fun _ ↦ hno⟩
    · exact ⟨fun hno ↦ absurd hno (not_noError_of_failsWith hf), fun hmet ↦ absurd hmet hnot⟩
  · intro k hk
    rcases henf with ⟨hlen, hend, hno, hok⟩ | ⟨hnot, -, -, hlt⟩
    · refine ⟨hno, ?_, hend⟩
      rw [← hok] at hlen ⊢
      exact (hpre k).eq_of_length (hk.trans hlen.symm)
    · -- the body fails, so a positive length is never reached
      rcases Nat.eq_zero_or_pos n with h0 | hpos
      · obtain ⟨hbody, hend⟩ := hzero h0
        exact absurd ⟨by rw [hbody, h0]; rfl, hend⟩ hnot
      · have := (hpre k).length_le
        exact absurd (hlt hpos) (by omega)
  · rcases henf with ⟨-, -, hno, -⟩ | ⟨-, hf, -⟩
    · exact .inl hno
    · exact .inr hf

def threeBytes : OutputStream :=
  .ofEvents [.metadata ⟨metaRespStream, "1"⟩, .metadata ⟨metaRespContentLength, "3"⟩, .chunk [1],
    .chunk [2, 3], .chunk [], .metadata ⟨metaRespStatus, "500"⟩, .complete []]

theorem streamed_declaredLength_threeBytes :
    ∃ r, openResponse threeBytes = .streamed r ∧ r.contentLength = some 3 ∧
      (okBytes (r.body.polled 2)).length = 3 ∧ NoError r.body.items :=
  ⟨_, rfl, rfl, rfl, ((streamed_declaredLength threeBytes _ 3 rfl rfl).2.2.1 2 rfl).1⟩

end WaferRun
