import Mathlib.Algebra.Order.Ring.Int
import Mathlib.Data.String.Basic
import WaferRun.Lib.Base64
import WaferRun.Lib.Cursors
import WaferRun.Lib.Paging
import WaferRun.Storage.Paths

/-!
# Pages of a listing

`list` collects the objects of a folder, sorts them by key and cuts a page out of them: behind the
key that a cursor encodes, or from an offset on. A cursor is the key of the last object of a page in
Base64; the empty cursor stands before the first object.

Following the cursors reads every key at most once, and each key that stays exactly once, whatever
is written and deleted between the pages. In a folder that does not change the reading ends, and the
pages make up the sorted keys, as the pages by offset do (`cursor_pages`).
-/

open List Option

namespace WaferRun.LocalStorage

/-- `ObjectInfo`, with the time of its last change as a number. -/
structure ObjectInfo where
  key : String
  size : ℤ
  contentType : String
  lastModified : ℤ
deriving DecidableEq, Repr

structure ListOptions where
  pre : String
  limit : ℤ
  offset : ℤ
  cursor : Option String
deriving DecidableEq, Repr

structure ObjectList where
  objects : List ObjectInfo
  totalCount : ℤ
  nextCursor : Option String
deriving DecidableEq, Repr

structure DecoderTexts where
  base64 : String → String
  utf8 : String → String

variable {β : Type} (texts : DecoderTexts)

def encodeCursor (key : String) : String := .ofList (Base64.encode key.toUTF8.data.toList)

def decodeCursor (cursor : String) : Except (StorageError β) String :=
  match Base64.decode cursor.toList with
  | none => .error (.invalidArgument ("invalid storage list cursor: " ++ texts.base64 cursor))
  | some bytes =>
    match String.fromUTF8? ⟨bytes.toArray⟩ with
    | none =>
      .error (.invalidArgument ("invalid storage list cursor (not utf-8): " ++ texts.utf8 cursor))
    | some key => .ok key

/-- `partition_point` of a list that is partitioned: how many objects satisfy the condition. -/
def partitionPoint (p : ObjectInfo → Bool) (objects : List ObjectInfo) : ℕ :=
  (objects.takeWhile p).length

def cursorStartIndex (objects : List ObjectInfo) (cursor : String) :
    Except (StorageError β) ℕ :=
  if cursor = "" then .ok 0
  else (decodeCursor texts cursor).map fun lastKey ↦
    partitionPoint (fun o ↦ o.key ≤ lastKey) objects

/-- An `i64` as a `usize`. -/
def asUsize (n : ℤ) : ℕ := if 0 ≤ n then n.toNat else (n + 2 ^ 64).toNat

/-- `sort_by` key. -/
def sortByKey (objects : List ObjectInfo) : List ObjectInfo :=
  objects.insertionSort fun a b ↦ a.key ≤ b.key

/-- Where a page begins in the sorted objects: a cursor comes before an offset. -/
def startIndex (objects : List ObjectInfo) (opts : ListOptions) : Except (StorageError β) ℕ :=
  match opts.cursor with
  | some token => cursorStartIndex texts objects token
  | none => .ok (min (asUsize opts.offset) objects.length)

/-- The page that begins at an index. The sum that saturates is cut off at the length of the list,
which a `usize` holds. -/
def pageFrom (objects : List ObjectInfo) (opts : ListOptions) (start : ℕ) : ObjectList :=
  let pageLimit := if 0 < opts.limit then opts.limit.toNat else objects.length
  let stop := min (start + pageLimit) objects.length
  let window := (objects.drop start).take (stop - start)
  { objects := window
    totalCount := objects.length
    nextCursor :=
      if opts.cursor.isSome ∧ stop < objects.length then
        window.getLast?.map fun o ↦ encodeCursor o.key
      else none }

/-- What `list` makes of the objects that the walk has collected. -/
def listCollected (collected : List ObjectInfo) (opts : ListOptions) :
    Except (StorageError β) ObjectList :=
  let objects := sortByKey collected
  (startIndex texts objects opts).map (pageFrom objects opts)

/-- The objects of a folder in the order in which the walk meets them. A key is a path below the
folder, so it is not empty. -/
structure Objects where
  all : List ObjectInfo
  distinct : (all.map ObjectInfo.key).Nodup
  nonempty : ∀ o ∈ all, o.key ≠ ""

def Objects.collect (s : Objects) (pre : String) : List ObjectInfo :=
  s.all.filter fun o ↦ pre = "" ∨ pre.toList <+: o.key.toList

/-! ## Cursors -/

theorem encode_eq_nil_iff {bytes : List UInt8} : Base64.encode bytes = [] ↔ bytes = [] := by
  constructor
  · intro h
    cases bytes using Base64.encode.induct with
    | case1 => rfl
    | case2 a => cases h
    | case3 a b => cases h
    | case4 a b c s => cases h
  · rintro rfl
    rfl

theorem decodeCursor_encodeCursor (key : String) :
    decodeCursor (β := β) texts (encodeCursor key) = .ok key := by
  have hutf8 : String.fromUTF8? ⟨key.toUTF8.data.toList.toArray⟩ = some key := by
    rw [Array.toArray_toList]
    exact dif_pos key.isValidUTF8
  rw [decodeCursor, encodeCursor, String.toList_ofList, Base64.decode_encode]
  dsimp only
  rw [hutf8]

theorem encodeCursor_ne_empty {key : String} (h : key ≠ "") : encodeCursor key ≠ "" := by
  intro hcursor
  rw [encodeCursor, ← String.ofList_nil, String.ofList_inj, encode_eq_nil_iff] at hcursor
  refine h (String.toByteArray_inj.mp (ByteArray.ext ?_))
  exact Array.toList_eq_nil_iff.mp hcursor

def Stands (cursor : String) : Option String → Prop
  | none => cursor = ""
  | some key => key ≠ "" ∧ cursor = encodeCursor key

theorem stands_start : Stands "" none := rfl

/-! ## One page -/

open Cursors (Ordered after page next)

theorem sortByKey_perm (objects : List ObjectInfo) : (sortByKey objects).Perm objects :=
  perm_insertionSort _ _

theorem ordered_sortByKey {objects : List ObjectInfo} (h : (objects.map ObjectInfo.key).Nodup) :
    Ordered ObjectInfo.key (sortByKey objects) := by
  have : Std.Total fun a b : ObjectInfo ↦ a.key ≤ b.key := ⟨fun a b ↦ le_total a.key b.key⟩
  have : IsTrans ObjectInfo fun a b ↦ a.key ≤ b.key := ⟨fun _ _ _ ↦ le_trans⟩
  have hsorted : (sortByKey objects).Pairwise fun a b ↦ a.key ≤ b.key :=
    pairwise_insertionSort _ objects
  have hdistinct : ((sortByKey objects).map ObjectInfo.key).Nodup :=
    ((sortByKey_perm objects).map _).nodup_iff.mpr h
  exact (hsorted.and (pairwise_map.mp hdistinct)).imp fun h ↦ lt_of_le_of_ne h.1 h.2

theorem Objects.distinct_collect (s : Objects) (pre : String) :
    ((s.collect pre).map ObjectInfo.key).Nodup :=
  s.distinct.sublist (filter_sublist.map _)

/-- The objects of a folder that match a prefix, in the order of their keys. -/
def Objects.sorted (s : Objects) (pre : String) : List ObjectInfo := sortByKey (s.collect pre)

theorem Objects.ordered_sorted (s : Objects) (pre : String) :
    Ordered ObjectInfo.key (s.sorted pre) := ordered_sortByKey (s.distinct_collect pre)

theorem Objects.nonempty_sorted {s : Objects} {pre : String} {o : ObjectInfo}
    (h : o ∈ s.sorted pre) : o.key ≠ "" :=
  s.nonempty o (mem_of_mem_filter ((sortByKey_perm _).mem_iff.mp h))

theorem drop_cursorStartIndex {objects : List ObjectInfo} (h : Ordered ObjectInfo.key objects)
    {cursor : String} {last : Option String} (hstands : Stands cursor last) :
    ∃ start, cursorStartIndex (β := β) texts objects cursor = .ok start ∧
      start ≤ objects.length ∧ objects.drop start = after ObjectInfo.key last objects := by
  cases last with
  | none =>
    rw [Stands] at hstands
    refine ⟨0, if_pos hstands, Nat.zero_le _, ?_⟩
    rw [Cursors.after_none, drop_zero]
  | some key =>
    obtain ⟨hkey, rfl⟩ := hstands
    refine ⟨partitionPoint (fun o ↦ o.key ≤ key) objects, ?_, ?_, h.drop_takeWhile key⟩
    · rw [cursorStartIndex, if_neg (encodeCursor_ne_empty hkey), decodeCursor_encodeCursor]
      rfl
    · exact (takeWhile_sublist _).length_le

/-- **A page by cursor**: what comes after the key the cursor stands behind, as much as the limit
allows, and a cursor behind the last of it if something is left. -/
theorem listCollected_cursor (s : Objects) (pre : String) {limit : ℤ} (hlimit : 0 < limit)
    (offset : ℤ) {cursor : String} {last : Option String} (hstands : Stands cursor last) :
    listCollected (β := β) texts (s.collect pre) ⟨pre, limit, offset, some cursor⟩ = .ok {
      objects := page ObjectInfo.key limit.toNat last (s.sorted pre)
      totalCount := (s.sorted pre).length
      nextCursor := (next ObjectInfo.key limit.toNat last (s.sorted pre)).map encodeCursor } := by
  obtain ⟨start, hstart, hle, hdrop⟩ :=
    drop_cursorStartIndex (β := β) texts (s.ordered_sorted pre) hstands
  have hafter : (after ObjectInfo.key last (s.sorted pre)).length =
      (s.sorted pre).length - start := by
    rw [← hdrop, length_drop]
  have hstop : min (start + limit.toNat) (s.sorted pre).length - start =
      min limit.toNat (after ObjectInfo.key last (s.sorted pre)).length := by
    omega
  have hpage : ((s.sorted pre).drop start).take
      (min (start + limit.toNat) (s.sorted pre).length - start) =
        page ObjectInfo.key limit.toNat last (s.sorted pre) := by
    rw [hstop, hdrop, page, ← take_take, take_length]
  have hmore : min (start + limit.toNat) (s.sorted pre).length < (s.sorted pre).length ↔
      limit.toNat < (after ObjectInfo.key last (s.sorted pre)).length := by
    omega
  have hrun : listCollected (β := β) texts (s.collect pre) ⟨pre, limit, offset, some cursor⟩ =
      .ok (pageFrom (s.sorted pre) ⟨pre, limit, offset, some cursor⟩ start) := by
    rw [listCollected, ← Except.map_ok, ← hstart]
    rfl
  rw [hrun, pageFrom]
  simp only [if_pos hlimit, isSome_some, true_and]
  rw [hpage, Cursors.next]
  congr 2
  split
  · rename_i h
    rw [if_pos (hmore.mp h), Option.map_map]
    rfl
  · rename_i h
    rw [if_neg (mt hmore.mpr h), map_none]

theorem listCollected_offset (s : Objects) (pre : String) {limit : ℤ} (hlimit : 0 < limit) (i : ℕ) :
    listCollected (β := β) texts (s.collect pre) ⟨pre, limit, i * limit, none⟩ = .ok {
      objects := ((s.sorted pre).drop (i * limit.toNat)).take limit.toNat
      totalCount := (s.sorted pre).length
      nextCursor := none } := by
  have hoffset : asUsize (i * limit) = i * limit.toNat := by
    have hnonneg : 0 ≤ (i : ℤ) * limit := mul_nonneg (Int.natCast_nonneg i) hlimit.le
    rw [asUsize, if_pos hnonneg]
    refine Int.ofNat.inj ?_
    change ((i * limit).toNat : ℤ) = ((i * limit.toNat : ℕ) : ℤ)
    rw [Int.toNat_of_nonneg hnonneg, Nat.cast_mul, Int.toNat_of_nonneg hlimit.le]
  change Except.ok (pageFrom (s.sorted pre) _ (min (asUsize (i * limit)) (s.sorted pre).length)) = _
  rw [pageFrom]
  simp only [if_pos hlimit, isSome_none, Bool.false_eq_true, false_and, if_false, hoffset]
  congr 2
  rcases le_total (i * limit.toNat) (s.sorted pre).length with h | h
  · rw [min_eq_left h]
    have hlength : ((s.sorted pre).drop (i * limit.toNat)).length =
        (s.sorted pre).length - i * limit.toNat := length_drop
    rw [show min (i * limit.toNat + limit.toNat) (s.sorted pre).length - i * limit.toNat =
      min limit.toNat ((s.sorted pre).drop (i * limit.toNat)).length by omega, ← take_take,
      take_length]
  · rw [min_eq_right h, drop_length, take_nil, drop_eq_nil_of_le h, take_nil]

/-! ## Following the cursors -/

/-- Ask for pages with the cursor that the page before returned, of a folder that is in one state
after the other: from a cursor, to the cursor it would go on with, or to `none` once a page returns
none. -/
inductive FollowsCursors (pre : String) (limit offset : ℤ) :
    String → List Objects → List ObjectList → Option String → Prop
  | start (cursor : String) : FollowsCursors pre limit offset cursor [] [] (some cursor)
  | last {cursor : String} {s : Objects} {answer : ObjectList}
    (h : listCollected (β := β) texts (s.collect pre) ⟨pre, limit, offset, some cursor⟩ = .ok answer)
    (hnext : answer.nextCursor = none) :
    FollowsCursors pre limit offset cursor [s] [answer] none
  | more {cursor cursor' : String} {s : Objects} {answer : ObjectList} {states : List Objects}
    {answers : List ObjectList} {rest : Option String}
    (h : listCollected (β := β) texts (s.collect pre) ⟨pre, limit, offset, some cursor⟩ = .ok answer)
    (hnext : answer.nextCursor = some cursor')
    (hrest : FollowsCursors pre limit offset cursor' states answers rest) :
    FollowsCursors pre limit offset cursor (s :: states) (answer :: answers) rest

def keysOf (answers : List ObjectList) : List String :=
  (answers.flatMap ObjectList.objects).map ObjectInfo.key

variable {texts} {pre : String} {limit offset : ℤ} {cursor : String} {states : List Objects}
  {answers : List ObjectList} {rest : Option String}

theorem FollowsCursors.follows (hlimit : 0 < limit)
    (h : FollowsCursors (β := β) texts pre limit offset cursor states answers rest)
    {last : Option String} (hstands : Stands cursor last) :
    ∃ stand, Cursors.Follows ObjectInfo.key limit.toNat last (states.map (·.sorted pre))
      (answers.map ObjectList.objects) stand ∧ Option.Rel Stands rest stand := by
  induction h generalizing last with
  | start cursor => exact ⟨some last, .start last, .some hstands⟩
  | @last cursor s answer h hnext =>
    rw [listCollected_cursor texts s pre hlimit offset hstands] at h
    cases Except.ok.inj h
    exact ⟨none, .last (map_eq_none_iff.mp hnext), .none⟩
  | @more cursor cursor' s answer states answers rest h hnext _ ih =>
    rw [listCollected_cursor texts s pre hlimit offset hstands] at h
    cases Except.ok.inj h
    obtain ⟨key, hkey, rfl⟩ := map_eq_some_iff.mp hnext
    obtain ⟨-, o, ho, rfl⟩ := Cursors.next_eq_some hkey
    have hmem : o ∈ s.sorted pre :=
      (Cursors.mem_after.mp (mem_of_mem_take (List.mem_of_getLast? ho))).1
    have hstands : Stands _ (some o.key) := ⟨Objects.nonempty_sorted hmem, rfl⟩
    obtain ⟨stand, hfollows, hrel⟩ := ih hstands
    exact ⟨stand, .more hkey hfollows, hrel⟩

theorem ordered_states (states : List Objects) (pre : String) :
    ∀ l ∈ states.map (·.sorted pre), Ordered ObjectInfo.key l := by
  intro l hl
  obtain ⟨s, -, rfl⟩ := List.mem_map.mp hl
  exact s.ordered_sorted pre

theorem FollowsCursors.pairwise (hlimit : 0 < limit)
    (h : FollowsCursors (β := β) texts pre limit offset "" states answers rest) :
    (keysOf answers).Pairwise (· < ·) := by
  obtain ⟨stand, hfollows, -⟩ := h.follows hlimit stands_start
  exact pairwise_map.mpr (hfollows.ordered (ordered_states states pre)).1

theorem FollowsCursors.answered (hlimit : 0 < limit)
    (h : FollowsCursors (β := β) texts pre limit offset "" states answers rest)
    (hcursor : rest = some cursor) (s : Objects) : ∃ answer,
      listCollected (β := β) texts (s.collect pre) ⟨pre, limit, offset, some cursor⟩ =
        .ok answer := by
  obtain ⟨stand, -, hrel⟩ := h.follows hlimit stands_start
  rw [hcursor] at hrel
  cases hrel with
  | some hstands => exact ⟨_, listCollected_cursor texts s pre hlimit offset hstands⟩

theorem FollowsCursors.count_eq_one (hlimit : 0 < limit)
    (h : FollowsCursors (β := β) texts pre limit offset "" states answers none) {key : String}
    (hkey : ∀ s ∈ states, key ∈ (s.collect pre).map ObjectInfo.key) :
    (keysOf answers).count key = 1 := by
  have hpairwise := h.pairwise hlimit
  obtain ⟨stand, hfollows, hrel⟩ := h.follows hlimit stands_start
  cases hrel
  have hpresent : ∀ l ∈ states.map (·.sorted pre), ∃ o ∈ l, ObjectInfo.key o = key := by
    intro l hl
    obtain ⟨s, hs, rfl⟩ := List.mem_map.mp hl
    obtain ⟨o, ho, hokey⟩ := List.mem_map.mp (hkey s hs)
    exact ⟨o, (sortByKey_perm _).mem_iff.mpr ho, hokey⟩
  obtain ⟨o, ho, hokey⟩ := hfollows.exists_mem rfl (ordered_states states pre) hpresent nofun
    (Int.pos_iff_toNat_pos.mp hlimit)
  exact count_eq_one_of_mem (hpairwise.imp ne_of_lt) (List.mem_map.mpr ⟨o, ho, hokey⟩)

theorem length_sorted (s : Objects) (pre : String) :
    (s.sorted pre).length = (s.collect pre).length := (sortByKey_perm _).length_eq

section Unchanged

variable {s : Objects} {n : ℕ}

theorem sorted_of_mem_replicate {l : List ObjectInfo}
    (h : l ∈ (List.replicate n s).map (·.sorted pre)) : l = s.sorted pre := by
  obtain ⟨s', hs', rfl⟩ := List.mem_map.mp h
  rw [eq_of_mem_replicate hs']

theorem FollowsCursors.mul_le (hlimit : 0 < limit)
    (h : FollowsCursors (β := β) texts pre limit offset "" (List.replicate n s) answers rest)
    (hrest : rest ≠ none) : n * limit ≤ (s.collect pre).length := by
  obtain ⟨stand, hfollows, hrel⟩ := h.follows hlimit stands_start
  have hstand : stand ≠ none := by
    rintro rfl
    cases hrel
    exact hrest rfl
  have hle := hfollows.mul_le (s.ordered_sorted pre) (fun _ ↦ sorted_of_mem_replicate) hstand
  rw [length_map, length_replicate, Cursors.after_none, length_sorted] at hle
  have hcast : ((n * limit.toNat : ℕ) : ℤ) ≤ (s.collect pre).length := Int.ofNat_le.mpr hle
  rwa [Nat.cast_mul, Int.toNat_of_nonneg hlimit.le] at hcast

theorem FollowsCursors.keysOf_eq (hlimit : 0 < limit)
    (h : FollowsCursors (β := β) texts pre limit offset "" (List.replicate n s) answers none) :
    keysOf answers = (s.sorted pre).map ObjectInfo.key := by
  obtain ⟨stand, hfollows, hrel⟩ := h.follows hlimit stands_start
  cases hrel
  have hflatten := hfollows.flatten_eq (s.ordered_sorted pre) (Int.pos_iff_toNat_pos.mp hlimit) rfl
    fun _ ↦ sorted_of_mem_replicate
  rw [Cursors.after_none] at hflatten
  exact congrArg (List.map ObjectInfo.key) hflatten

theorem exists_followsCursors (texts : DecoderTexts) (pre : String) (hlimit : 0 < limit)
    (offset : ℤ) (s : Objects) {m : ℕ} {cursor : String} {last : Option String}
    (hstands : Stands cursor last) (hm : (after ObjectInfo.key last (s.sorted pre)).length ≤ m) :
    ∃ n answers, FollowsCursors (β := β) texts pre limit offset cursor (List.replicate n s) answers
      none := by
  have hpage := listCollected_cursor (β := β) texts s pre hlimit offset hstands
  have hpos := Int.pos_iff_toNat_pos.mp hlimit
  induction m generalizing cursor last with
  | zero =>
    have hnext : next ObjectInfo.key limit.toNat last (s.sorted pre) = none :=
      (Cursors.next_eq_none hpos).mpr (hm.trans (Nat.zero_le _))
    exact ⟨1, _, .last hpage (by rw [hnext, map_none])⟩
  | succ m ih =>
    rcases hnext : next ObjectInfo.key limit.toNat last (s.sorted pre) with _ | key
    · exact ⟨1, _, .last hpage (by rw [hnext, map_none])⟩
    · obtain ⟨hlt, o, ho, rfl⟩ := Cursors.next_eq_some hnext
      have hmem : o ∈ s.sorted pre :=
        (Cursors.mem_after.mp (mem_of_mem_take (List.mem_of_getLast? ho))).1
      have hstands' : Stands (encodeCursor o.key) (some o.key) :=
        ⟨Objects.nonempty_sorted hmem, rfl⟩
      have hshorter : (after ObjectInfo.key (some o.key) (s.sorted pre)).length ≤ m := by
        rw [Cursors.after_next (s.ordered_sorted pre) hnext, length_drop]
        omega
      obtain ⟨n, answers, hrest⟩ := ih hstands' hshorter
        (listCollected_cursor texts s pre hlimit offset hstands')
      exact ⟨n + 1, _, .more hpage (by rw [hnext, map_some]) hrest⟩

theorem offset_pages (texts : DecoderTexts) (pre : String) (hlimit : 0 < limit) (s : Objects)
    {m : ℕ} (hm : (s.collect pre).length ≤ m * limit) : ∃ answers : List ObjectList,
      (List.range m).mapM (fun i : ℕ ↦
        listCollected (β := β) texts (s.collect pre) ⟨pre, limit, i * limit, none⟩) =
          .ok answers ∧
      keysOf answers = (s.sorted pre).map ObjectInfo.key ∧
      ∀ answer ∈ answers, answer.totalCount = (s.collect pre).length := by
  let answer (i : ℕ) : ObjectList := {
    objects := ((s.sorted pre).drop (i * limit.toNat)).take limit.toNat
    totalCount := (s.sorted pre).length
    nextCursor := none }
  have hmapM (l : List ℕ) : l.mapM (fun i : ℕ ↦
      listCollected (β := β) texts (s.collect pre) ⟨pre, limit, i * limit, none⟩) =
        .ok (l.map answer) := by
    induction l with
    | nil => rfl
    | cons i l ih =>
      rw [mapM_cons, listCollected_offset texts s pre hlimit i, ih]
      rfl
  have hlength : (s.sorted pre).length ≤ m * limit.toNat := by
    rw [length_sorted]
    refine Int.ofNat_le.mp ?_
    rwa [Nat.cast_mul, Int.toNat_of_nonneg hlimit.le]
  refine ⟨(List.range m).map answer, hmapM _, ?_, fun a ha ↦ ?_⟩
  · rw [keysOf, flatMap_map]
    change List.map _ ((List.range m).flatMap fun i ↦
      ((s.sorted pre).drop (i * limit.toNat)).take limit.toNat) = _
    rw [Paging.flatMap_pages, take_of_length_le hlength]
  · obtain ⟨i, -, rfl⟩ := List.mem_map.mp ha
    exact congrArg Nat.cast (length_sorted s pre)

end Unchanged

theorem totalCount_of_listCollected {collected : List ObjectInfo} {opts : ListOptions}
    {answer : ObjectList} (h : listCollected (β := β) texts collected opts = .ok answer) :
    answer.totalCount = collected.length := by
  obtain ⟨start, -, rfl⟩ := Fallible.map_eq_ok.mp h
  exact congrArg Nat.cast (sortByKey_perm collected).length_eq

theorem FollowsCursors.totalCount
    (h : FollowsCursors (β := β) texts pre limit offset cursor states answers rest) :
    List.Forall₂ (fun s answer ↦ ObjectList.totalCount answer = ((s : Objects).collect pre).length)
      states answers := by
  induction h with
  | start => exact .nil
  | last h => exact .cons (totalCount_of_listCollected h) .nil
  | more h _ _ ih => exact .cons (totalCount_of_listCollected h) ih

/-- **Cursors skip and repeat nothing.** For every prefix and positive limit: the keys read ascend,
every cursor that is returned is answered, a key that is there at every page is read exactly once by
the time the reading ends, and every page reports the number of the keys. In a folder that stays as
it is the reading ends, its pages make up the sorted keys, and so do the pages by offset. -/
theorem cursor_pages (texts : DecoderTexts) (pre : String) {limit : ℤ} (hlimit : 0 < limit)
    (offset : ℤ) :
    (∀ states answers rest,
      FollowsCursors (β := β) texts pre limit offset "" states answers rest →
        (keysOf answers).Pairwise (· < ·) ∧
        List.Forall₂ (fun s answer ↦
          ObjectList.totalCount answer = ((s : Objects).collect pre).length) states answers ∧
        (∀ cursor ∈ rest, ∀ s : Objects, ∃ answer,
          listCollected (β := β) texts (s.collect pre) ⟨pre, limit, offset, some cursor⟩ =
            .ok answer) ∧
        (rest = none → ∀ key, (∀ s ∈ states, key ∈ (s.collect pre).map ObjectInfo.key) →
          (keysOf answers).count key = 1)) ∧
    ∀ s : Objects,
      (∃ n answers,
        FollowsCursors (β := β) texts pre limit offset "" (List.replicate n s) answers none) ∧
      (∀ n answers rest,
        FollowsCursors (β := β) texts pre limit offset "" (List.replicate n s) answers rest →
          (rest ≠ none → n * limit ≤ (s.collect pre).length) ∧
          (rest = none → keysOf answers = (s.sorted pre).map ObjectInfo.key)) ∧
      ∀ m : ℕ, (s.collect pre).length ≤ m * limit → ∃ answers : List ObjectList,
        (List.range m).mapM (fun i : ℕ ↦
          listCollected (β := β) texts (s.collect pre) ⟨pre, limit, i * limit, none⟩) =
            .ok answers ∧
        keysOf answers = (s.sorted pre).map ObjectInfo.key ∧
        ∀ answer ∈ answers, answer.totalCount = (s.collect pre).length := by
  refine ⟨fun states answers rest h ↦ ⟨h.pairwise hlimit, h.totalCount, ?_, ?_⟩,
    fun s ↦ ⟨exists_followsCursors texts pre hlimit offset s stands_start le_rfl, ?_,
      fun m hm ↦ offset_pages texts pre hlimit s hm⟩⟩
  · intro cursor hcursor s
    exact h.answered hlimit hcursor s
  · rintro rfl key hkey
    exact h.count_eq_one hlimit hkey
  · intro n answers rest h
    refine ⟨h.mul_le hlimit, ?_⟩
    rintro rfl
    exact h.keysOf_eq hlimit

def threeObjects : Objects where
  all := ["b", "c", "a"].map fun key ↦ ⟨key, 1, "text/plain", 0⟩
  distinct := by decide
  nonempty := by decide

def twoObjects : Objects where
  all := ["c", "b"].map fun key ↦ ⟨key, 1, "text/plain", 0⟩
  distinct := by decide
  nonempty := by decide

/-- The object that the first page ends with is deleted before the second page. -/
theorem cursor_pages_deleted : ∃ answers,
    FollowsCursors (β := Empty) ⟨id, id⟩ "" 1 0 "" [threeObjects, twoObjects] answers
      (some (encodeCursor "b")) ∧ keysOf answers = ["a", "b"] ∧
    (keysOf answers).Pairwise (· < ·) := by
  have hfirst := listCollected_cursor (β := Empty) ⟨id, id⟩ threeObjects "" one_pos 0 stands_start
  have hstands : Stands (encodeCursor "a") (some "a") := ⟨by decide, rfl⟩
  have hsecond := listCollected_cursor (β := Empty) ⟨id, id⟩ twoObjects "" one_pos 0 hstands
  have hfollows : FollowsCursors (β := Empty) ⟨id, id⟩ "" 1 0 "" [threeObjects, twoObjects] _
      (some (encodeCursor "b")) :=
    .more hfirst (by decide +kernel) (.more hsecond (by decide +kernel) (.start _))
  exact ⟨_, hfollows, by decide +kernel,
    ((cursor_pages (β := Empty) ⟨id, id⟩ "" one_pos 0).1 _ _ _ hfollows).1⟩

end WaferRun.LocalStorage
