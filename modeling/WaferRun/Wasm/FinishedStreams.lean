import WaferRun.Wasm.InstancePool

/-!
# Reading past the end of an answer

A guest reads an answer frame by frame until it ends, well or with an error. The source expects that
an answer that has ended stays ended. It drops the stream of the answer then, but leaves the stream
of the call in the phase of reading: the next read finds no answer there and reports an internal
fault. So the end of an answer can be read once (`staysFinished_iff`). A frame that cannot be
transcoded closes the stream, and the reads after it report a read out of phase.
-/

namespace WaferRun.Wasm

/-- What the guest gets for a frame. `rmpToJson` transcodes a value; raw frames are handed over as
they are, and so are empty ones. -/
def handOver (codec : HostCodec) (rmpToJson : Bytes → Except WaferError Bytes) (raw : Bool)
    (bytes : Bytes) : Except WaferError Bytes :=
  if codec = .json ∧ bytes ≠ [] ∧ raw = false then rmpToJson bytes else .ok bytes

namespace StreamState

variable (codec : HostCodec) (rmpToJson : Bytes → Except WaferError Bytes)

/-- Read the next frame for the guest. A frame that cannot be transcoded fails the stream. -/
def read (st : StreamState) : Except WaferError (Option Bytes) × StreamState :=
  match st.nextChunk with
  | (.ok (some bytes), st) =>
    match handOver codec rmpToJson st.rawFrames bytes with
    | .ok bytes => (.ok (some bytes), st)
    | .error err => (.error err, st.recordErrorAndClose err)
  | (next, st) => (next, st)

def afterReads (st : StreamState) : ℕ → StreamState
  | 0 => st
  | n + 1 => afterReads (st.read codec rmpToJson).2 n

def answerOf (st : StreamState) (i : ℕ) : Except WaferError (Option Bytes) :=
  ((st.afterReads codec rmpToJson i).read codec rmpToJson).1

def Missing (st : StreamState) : Prop := st.phase = .readingResponse ∧ st.responseStream = none

/-- A read that has come to the end is answered again by every later one, and none of these finds
the answer missing. -/
def StaysFinished (st : StreamState) (n : ℕ) : Prop :=
  ∀ i j, i < j → j < n → (∀ bytes, st.answerOf codec rmpToJson i ≠ .ok (some bytes)) →
    st.answerOf codec rmpToJson j = st.answerOf codec rmpToJson i ∧
      ¬(st.afterReads codec rmpToJson j).Missing

end StreamState

def outOfPhaseErr : WaferError :=
  preconditionErr "read_chunk called outside ReadingResponse phase"

variable (codec : HostCodec) (rmpToJson : Bytes → Except WaferError Bytes)

/-- The number of frames the guest gets of an answer, and the error of the frame that cannot be
transcoded, if it ends with one. -/
def endOf : Bool → List StreamEvent → ℕ × Option WaferError
  | raw, .chunk bytes :: es =>
    match handOver codec rmpToJson raw bytes with
    | .ok _ => ((endOf raw es).1 + 1, (endOf raw es).2)
    | .error err => (0, some err)
  | raw, .metadata e :: es => endOf (raw || StreamState.isRawMarker e) es
  | _, [] | _, .complete _ :: _ | _, .error _ :: _ | _, .drop _ :: _ | _, .halt _ _ :: _
  | _, .continue _ :: _ => (0, none)

variable {codec rmpToJson}

structure StreamState.Reads (st : StreamState) (es : List StreamEvent) : Prop where
  phase : st.phase = .readingResponse
  stream : st.responseStream = some es

/-- What a read can come to: a frame, the end of the answer, or a frame that is refused. -/
inductive ReadMove (codec : HostCodec) (rmpToJson : Bytes → Except WaferError Bytes)
    (st : StreamState) (es : List StreamEvent) : Prop
  | frame (bytes : Bytes) (st' : StreamState) (rest : List StreamEvent)
      (hread : st.read codec rmpToJson = (.ok (some bytes), st')) (hrest : st'.Reads rest)
      (hend : endOf codec rmpToJson st.rawFrames es =
        ((endOf codec rmpToJson st'.rawFrames rest).1 + 1,
          (endOf codec rmpToJson st'.rawFrames rest).2))
  | ended (next : Except WaferError (Option Bytes)) (st' : StreamState)
      (hread : st.read codec rmpToJson = (next, st')) (hnext : ∀ bytes, next ≠ .ok (some bytes))
      (hmissing : st'.Missing) (hend : endOf codec rmpToJson st.rawFrames es = (0, none))
  | refused (err : WaferError) (st' : StreamState)
      (hread : st.read codec rmpToJson = (.error err, st')) (hphase : st'.phase = .closed)
      (hend : endOf codec rmpToJson st.rawFrames es = (0, some err))

theorem ReadMove.of_nextChunk {st st' : StreamState} {es : List StreamEvent}
    {next : Except WaferError (Option Bytes)} (hnext : st.nextChunk = (next, st'))
    (hend : endOf codec rmpToJson st.rawFrames es = (0, none))
    (hframe : ∀ bytes, next ≠ .ok (some bytes)) (hmissing : st'.Missing) :
    ReadMove codec rmpToJson st es := by
  refine .ended next st' ?_ hframe hmissing hend
  rw [StreamState.read, hnext]
  rcases next with _ | _ | bytes
  · rfl
  · rfl
  · exact absurd rfl (hframe bytes)

theorem readMove {st : StreamState} {es : List StreamEvent} (h : st.Reads es) :
    ReadMove codec rmpToJson st es := by
  have hnext : st.nextChunk = st.pull es := by
    rw [StreamState.nextChunk, if_neg (not_not_intro h.phase), h.stream]
  -- metadata is skipped, and shows in the flag for raw frames only
  have key : ∀ (s : List StreamEvent) (raw : Bool),
      endOf codec rmpToJson st.rawFrames es = endOf codec rmpToJson raw s →
      st.nextChunk = ({ st with rawFrames := raw } : StreamState).pull s →
      ReadMove codec rmpToJson st es := by
    intro s
    induction s with
    | nil =>
      exact fun raw hend hpull ↦ .of_nextChunk hpull hend (fun _ ↦ by rintro ⟨⟩) ⟨h.phase, rfl⟩
    | cons e s ih =>
      intro raw hend hpull
      cases e with
      | metadata entry => exact ih _ hend hpull
      | chunk bytes =>
        rw [endOf] at hend
        let st' : StreamState := { st with rawFrames := raw, responseStream := some s }
        have hread : st.nextChunk = (.ok (some bytes), st') := hpull
        rcases hover : handOver codec rmpToJson raw bytes with err | bytes'
        · rw [hover] at hend
          refine .refused err (st'.recordErrorAndClose err) ?_ rfl hend
          rw [StreamState.read, hread]
          simp only [st', hover]
        · rw [hover] at hend
          refine .frame bytes' st' s ?_ ⟨h.phase, rfl⟩ hend
          rw [StreamState.read, hread]
          simp only [st', hover]
      | complete entries => exact .of_nextChunk hpull hend (fun _ ↦ by rintro ⟨⟩) ⟨h.phase, rfl⟩
      | error err => exact .of_nextChunk hpull hend (fun _ ↦ by rintro ⟨⟩) ⟨h.phase, rfl⟩
      | drop entries => exact .of_nextChunk hpull hend (fun _ ↦ by rintro ⟨⟩) ⟨h.phase, rfl⟩
      | halt body entries => exact .of_nextChunk hpull hend (fun _ ↦ by rintro ⟨⟩) ⟨h.phase, rfl⟩
      | «continue» msg => exact .of_nextChunk hpull hend (fun _ ↦ by rintro ⟨⟩) ⟨h.phase, rfl⟩
  exact key es st.rawFrames rfl hnext

theorem read_closed {st : StreamState} (h : st.phase = .closed) :
    st.read codec rmpToJson = (.error outOfPhaseErr, st) := by
  have hphase : st.phase ≠ .readingResponse := by rw [h]; exact Phase.noConfusion
  rw [StreamState.read, StreamState.nextChunk, if_pos hphase]
  rfl

theorem afterReads_closed {st : StreamState} (h : st.phase = .closed) (n : ℕ) :
    st.afterReads codec rmpToJson n = st := by
  induction n with
  | zero => rfl
  | succ n ih => rw [StreamState.afterReads, read_closed h, ih]

namespace StreamState

theorem answerOf_succ (st : StreamState) (i : ℕ) :
    st.answerOf codec rmpToJson (i + 1) = (st.read codec rmpToJson).2.answerOf codec rmpToJson i :=
  rfl

theorem staysFinished_succ {st : StreamState} {bytes : Bytes}
    (h : (st.read codec rmpToJson).1 = .ok (some bytes)) (n : ℕ) :
    st.StaysFinished codec rmpToJson (n + 1) ↔
      (st.read codec rmpToJson).2.StaysFinished codec rmpToJson n := by
  refine ⟨fun hst i j hij hj ↦ hst (i + 1) (j + 1) (by omega) (by omega), fun hst i j hij hj ↦ ?_⟩
  obtain ⟨j, rfl⟩ := Nat.exists_eq_succ_of_ne_zero (Nat.ne_zero_of_lt hij)
  cases i with
  | zero => exact fun hend ↦ absurd h (hend bytes)
  | succ i => exact hst i j (by omega) (by omega)

end StreamState

theorem staysFinished_iff_of_reads (n : ℕ) : ∀ {st : StreamState} {es : List StreamEvent},
    st.Reads es → (st.StaysFinished codec rmpToJson n ↔
      n ≤ (endOf codec rmpToJson st.rawFrames es).1 + 1 ∨
        (endOf codec rmpToJson st.rawFrames es).2 = some outOfPhaseErr) := by
  induction n with
  | zero => exact fun _ ↦ iff_of_true (fun i j _ hj ↦ absurd hj j.not_lt_zero) (.inl (Nat.zero_le _))
  | succ n ih =>
    intro st es h
    have hmove : ReadMove codec rmpToJson st es := readMove h
    rcases hmove with
      ⟨bytes, st', rest, hread, hrest, hend⟩ | ⟨next, st', hread, hnext, hmissing, hend⟩ |
        ⟨err, st', hread, hphase, hend⟩
    · rw [StreamState.staysFinished_succ (by rw [hread]), hread, ih hrest, hend]
      exact or_congr_left (Nat.add_le_add_iff_right (n := 1)).symm
    · rw [hend]
      refine ⟨fun hst ↦ .inl ?_, fun hn ↦ ?_⟩
      · -- one more read would find the answer missing
        by_contra hn
        refine (hst 0 1 Nat.one_pos (by omega) fun bytes ↦ ?_).2 ?_
        · change (st.read codec rmpToJson).1 ≠ _
          rw [hread]
          exact hnext bytes
        · change (st.read codec rmpToJson).2.Missing
          rw [hread]
          exact hmissing
      · obtain hn | hn := hn
        · exact fun i j hij hj ↦ by omega
        · cases hn
    · have hanswer : ∀ j, st.answerOf codec rmpToJson (j + 1) = .error outOfPhaseErr := by
        intro j
        rw [StreamState.answerOf_succ, hread, StreamState.answerOf, afterReads_closed hphase,
          read_closed hphase]
      have hfirst : st.answerOf codec rmpToJson 0 = .error err := by
        change (st.read codec rmpToJson).1 = _
        rw [hread]
      rw [hend]
      refine ⟨fun hst ↦ ?_, fun hn i j hij hj hi ↦ ?_⟩
      · by_contra hn
        obtain ⟨hn, hne⟩ := not_or.mp hn
        have hsame := (hst 0 1 Nat.one_pos (by omega) fun bytes ↦ by rw [hfirst]; nofun).1
        rw [hanswer 0, hfirst] at hsame
        exact hne (congrArg some (Except.error.inj hsame).symm)
      · obtain hn | hn := hn
        · omega
        obtain ⟨j, rfl⟩ := Nat.exists_eq_succ_of_ne_zero (Nat.ne_zero_of_lt hij)
        rw [Option.some.inj hn] at hfirst
        refine ⟨?_, ?_⟩
        · cases i with
          | zero => rw [hanswer, hfirst]
          | succ i => rw [hanswer, hanswer]
        · rintro ⟨hreading, -⟩
          change ((st.read codec rmpToJson).2.afterReads codec rmpToJson j).phase = _ at hreading
          rw [hread, afterReads_closed hphase, hphase] at hreading
          exact Phase.noConfusion hreading

/-- An answer that has ended stays ended exactly if it is not read past its end. The other way out
is a frame that is refused with the very error of a read out of phase. -/
theorem staysFinished_iff (codec : HostCodec) (rmpToJson : Bytes → Except WaferError Bytes)
    (st : StreamState) (es : List StreamEvent) (n : ℕ) :
    (st.finishWithStream es).StaysFinished codec rmpToJson n ↔
      n ≤ (endOf codec rmpToJson st.rawFrames es).1 + 1 ∨
        (endOf codec rmpToJson st.rawFrames es).2 = some outOfPhaseErr :=
  staysFinished_iff_of_reads n ⟨rfl, rfl⟩

theorem second_end_missing :
    ¬((StreamState.new "callee" ⟨"kind", []⟩).finishWithStream [.complete []]).StaysFinished .rmp
      .ok 2 :=
  fun h ↦ (h 0 1 Nat.one_pos Nat.one_lt_two fun _ ↦ nofun).2 ⟨rfl, rfl⟩

end WaferRun.Wasm
