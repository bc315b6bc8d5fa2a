import Mathlib
import WaferRun.Flow.PermissionsPolicy
import WaferRun.Lib.StructuredFields

/-!
# Permissions policies and the dictionaries of RFC 8941

The reader of permissions policies is a reader of dictionaries that takes any run of digits and
points for a number and any run of the right characters for the content of a byte sequence
(`parsePermissions_eq`). So it gives what the algorithm of the RFC gives if the numbers and byte
sequences of a value are spelled as the RFC has them, and it accepts too much otherwise.
-/

open List Option Function

namespace WaferRun.RestrictiveHeaders

open Text
open StructuredFields (BareItem Leaves Member Spelled Value allMembers bareItem dictionary
  isSequenceChar overwrite)

/-! ## The reader is the lenient one -/

theorem parseKey_eq (s : List Char) : parseKey s = StructuredFields.key s := by
  cases s <;> rfl

theorem parseString_eq (s : List Char) :
    parseString s = (StructuredFields.string s).map fun tr ↦
      (StructuredFields.escape tr.1 ++ ['"'], tr.2) := by
  fun_induction parseString s with
  | case1 => rfl
  | case2 => rfl
  | case3 b s hb ih =>
    rw [StructuredFields.string.eq_def]
    dsimp only
    rw [if_pos rfl, if_pos hb, ih, Option.map_map, Option.map_map]
    congr 1
    funext tr
    rw [comp_apply, comp_apply, StructuredFields.escape_cons, if_pos hb]
    rfl
  | case4 b s hb =>
    rw [StructuredFields.string.eq_def]
    dsimp only
    rw [if_pos rfl, if_neg hb, map_none]
  | case5 s =>
    rw [StructuredFields.string.eq_def]
    rfl
  | case6 c s hc hq hrange ih =>
    rw [StructuredFields.string.eq_def]
    dsimp only
    rw [if_neg hc, if_neg hq, if_pos hrange, ih, Option.map_map, Option.map_map]
    congr 1
    funext tr
    rw [comp_apply, comp_apply, StructuredFields.escape_cons,
      if_neg (not_or.mpr ⟨hq, hc⟩)]
    rfl
  | case7 c s hc hq hrange =>
    rw [StructuredFields.string.eq_def]
    dsimp only
    rw [if_neg hc, if_neg hq, if_neg hrange, map_none]

theorem isDigit_eq_false_of_isAlpha {c : Char} (h : c.isAlpha = true) : c.isDigit = false := by
  simp only [Char.isAlpha, Char.isUpper, Char.isLower, Bool.or_eq_true, Bool.and_eq_true,
    decide_eq_true_eq, UInt32.le_iff_toNat_le] at h
  simp only [Char.isDigit, Bool.and_eq_false_iff, decide_eq_false_iff_not,
    UInt32.le_iff_toNat_le]
  simp at h ⊢
  omega

/-- The reader ends the content of a byte sequence at the first character that cannot be in it, the
algorithm at the next colon. -/
theorem bytes_run {t r : List Char} (ht : ∀ c ∈ t, isSequenceChar c = true)
    (hr : StructuredFields.Stops isSequenceChar r) :
    StructuredFields.bytes .lenient (t ++ r) =
      if r.head? = some ':' then some (.bytes t, r.tail) else none := by
  have hne : ∀ c ∈ t, decide (c ≠ ':') = true := by
    intro c hc
    refine decide_eq_true ?_
    rintro rfl
    exact absurd (ht ':' hc) (by decide)
  cases r with
  | nil =>
    rw [append_nil, StructuredFields.bytes, dropWhile_eq_nil_iff.mpr hne]
    rfl
  | cons b r =>
    split
    next hb =>
      cases hb
      exact StructuredFields.bytes_append (List.all_eq_true.mpr ht) rfl r
    next hb =>
      -- the character that ends the run is part of the content
      have hcontent : b ∈ (t ++ b :: r).takeWhile (· ≠ ':') := by
        have hb : decide (b ≠ ':') = true := decide_eq_true fun h ↦ hb (congrArg some h)
        rw [takeWhile_append_of_pos hne, takeWhile_cons, if_pos hb]
        exact mem_append_right t mem_cons_self
      have hall : ((t ++ b :: r).takeWhile (· ≠ ':')).all isSequenceChar =
          false := List.all_eq_false.mpr ⟨b, hcontent, Bool.eq_false_iff.mp (hr b rfl)⟩
      unfold StructuredFields.bytes
      split
      · rfl
      · dsimp only
        rw [hall]
        rfl

theorem parseBareItem_eq (s : List Char) :
    parseBareItem s =
      (bareItem .lenient s).map fun br ↦ (br.1.written, br.2) := by
  cases s with
  | nil => rfl
  | cons c s =>
    rw [parseBareItem.eq_def, bareItem]
    dsimp only
    by_cases hquote : c = '"'
    · subst hquote
      rw [if_pos rfl, if_neg (by decide), if_pos rfl, parseString_eq, Option.map_map,
        Option.map_map]
      rfl
    rw [if_neg hquote]
    by_cases htoken : (c.isAlpha || decide (c = '*')) = true
    · have hnumber : ¬(c.isDigit || decide (c = '-')) = true := by
        rw [Bool.or_eq_true, decide_eq_true_eq] at htoken
        rcases htoken with h | rfl
        · rw [isDigit_eq_false_of_isAlpha h, Bool.false_or, decide_eq_true_eq]
          rintro rfl
          exact absurd h (by decide)
        · decide
      have hcolon : c ≠ ':' := by
        rintro rfl
        exact absurd htoken (by decide)
      have hmark : c ≠ '?' := by
        rintro rfl
        exact absurd htoken (by decide)
      rw [if_pos htoken, if_neg hnumber, if_neg hquote, if_neg hcolon, if_neg hmark, if_pos htoken]
      rfl
    rw [if_neg htoken]
    by_cases hnumber : (c.isDigit || decide (c = '-')) = true
    · rw [if_pos hnumber, if_pos hnumber]
      rfl
    rw [if_neg hnumber, if_neg hnumber, if_neg hquote]
    by_cases hmark : c = '?'
    · subst hmark
      rw [if_pos rfl, if_neg (by decide), if_pos rfl]
      rcases s with - | ⟨b, s⟩
      · rfl
      dsimp only
      split
      next hb =>
        rcases hb with rfl | rfl <;> rfl
      next hb =>
        rw [not_or] at hb
        unfold StructuredFields.boolean
        split
        next heq => exact absurd (cons.inj heq).1 hb.2
        next heq => exact absurd (cons.inj heq).1 hb.1
        · rfl
    rw [if_neg hmark]
    by_cases hcolon : c = ':'
    · subst hcolon
      rw [if_pos rfl, if_pos rfl]
      have hrun := bytes_run (t := s.takeWhile isSequenceChar)
        (fun c hc ↦ mem_takeWhile_imp hc)
        (StructuredFields.stops_dropWhile isSequenceChar s)
      rw [takeWhile_append_dropWhile] at hrun
      rw [hrun]
      have hchar : (fun c : Char ↦ c.isAlphanum || decide (c ∈ ['+', '/', '='])) =
          isSequenceChar := rfl
      rw [hchar]
      rcases s.dropWhile isSequenceChar with - | ⟨b, r⟩
      · rfl
      · rw [List.head?_cons, tail_cons]
        dsimp only
        split
        next hb =>
          subst hb
          rfl
        next hb =>
          rw [if_neg fun h ↦ hb (some.inj h), map_none]
    rw [if_neg hcolon, if_neg hcolon, if_neg hmark, if_neg htoken, map_none]

theorem parseParams_eq (fuel : ℕ) (s : List Char) :
    parseParams fuel s = (StructuredFields.params .lenient fuel s).map Prod.snd := by
  induction fuel generalizing s with
  | zero => rfl
  | succ fuel ih =>
    rw [parseParams, StructuredFields.params]
    split
    · rw [parseKey_eq]
      cases StructuredFields.key (s.tail.dropWhile (· = ' ')) with
      | none => rfl
      | some ks =>
        dsimp only
        split
        · rw [parseBareItem_eq]
          cases bareItem .lenient ks.2.tail with
          | none => rfl
          | some br =>
            rw [map_some]
            dsimp only
            rw [ih, Option.map_map]
            rfl
        · rw [ih, Option.map_map]
          rfl
    · rfl

theorem parseInnerList_eq (fuel : ℕ) (acc : List (List Char)) (s : List Char) :
    parseInnerList fuel acc s = (StructuredFields.innerList .lenient fuel s).map fun lr ↦
      (acc ++ lr.1.1.map (·.bare.written), lr.2) := by
  induction fuel generalizing acc s with
  | zero => rfl
  | succ fuel ih =>
    rw [parseInnerList, StructuredFields.innerList]
    split
    · rfl
    split
    · rw [parseParams_eq, Option.map_map, Option.map_map]
      congr 1
      funext pr
      exact congrArg (·, pr.2) (append_nil acc).symm
    rw [parseBareItem_eq, StructuredFields.item]
    cases bareItem .lenient (s.dropWhile (· = ' ')) with
    | none => rfl
    | some br =>
      rw [map_some]
      dsimp only
      rw [parseParams_eq]
      cases StructuredFields.params .lenient (br.2.length + 1) br.2 with
      | none => rfl
      | some pr =>
        rw [map_some, map_some]
        dsimp only
        split
        · rw [ih, Option.map_map]
          congr 1
          funext lr
          exact congrArg (·, lr.2) (append_assoc acc _ _)
        · rfl

theorem parseItems_eq (s : List Char) :
    parseItems s = (StructuredFields.value .lenient s).map fun vr ↦
      (vr.1.items.map BareItem.written, vr.2) := by
  unfold parseItems StructuredFields.value
  split
  · dsimp only
    split
    · rw [parseInnerList_eq, Option.map_map]
      congr 1
      funext lr
      rw [comp_apply, Value.items, List.map_map]
      rfl
    · rw [parseBareItem_eq, StructuredFields.item]
      cases bareItem .lenient s.tail with
      | none => rfl
      | some br =>
        rw [map_some]
        dsimp only
        rw [parseParams_eq, Option.map_map, Option.map_map, Option.map_map]
        rfl
  · rw [parseParams_eq, Option.map_map, Option.map_map]
    rfl

/-! ## Members -/

/-- What a member of a dictionary says about a feature. -/
def permission (m : Member) : Permission :=
  ⟨m.key, .ofItems (m.value.items.map BareItem.written)⟩

theorem putMember_permission (dict : List Member) (m : Member) :
    putMember (dict.map permission) (permission m) =
      (overwrite dict m).map permission := by
  have hany : ((dict.map permission).any fun n ↦ n.feature = (permission m).feature) =
      dict.any fun n ↦ n.key = m.key := List.any_map
  unfold putMember overwrite
  rw [hany]
  split
  · rw [List.map_map, List.map_map]
    refine map_congr_left fun n _ ↦ ?_
    rw [comp_apply, comp_apply, apply_ite permission]
    rfl
  · rw [map_append, map_singleton]

theorem parseMembers_eq (fuel : ℕ) (dict : List Member) (s : List Char) :
    parseMembers fuel (dict.map permission) s =
      (StructuredFields.members .lenient fuel s).map fun ms ↦
        (ms.foldl overwrite dict).map permission := by
  induction fuel generalizing dict s with
  | zero => rfl
  | succ fuel ih =>
    rw [parseMembers, StructuredFields.members]
    split
    · rfl
    rw [parseKey_eq]
    cases StructuredFields.key s with
    | none => rfl
    | some ks =>
      dsimp only
      rw [parseItems_eq]
      cases StructuredFields.value .lenient ks.2 with
      | none => rfl
      | some vr =>
        rw [map_some]
        dsimp only
        have hput := putMember_permission dict ⟨ks.1, vr.1⟩
        rw [permission] at hput
        dsimp only at hput
        rw [hput]
        rw [show isBlank = StructuredFields.isOws from rfl]
        cases vr.2.dropWhile StructuredFields.isOws with
        | nil => rfl
        | cons c s' =>
          dsimp only
          split
          · rfl
          split
          · rfl
          rw [ih, Option.map_map]
          rfl

/-- **The reader of policies is the lenient reader of dictionaries.** -/
theorem parsePermissions_eq (value : List Char) :
    parsePermissions value =
      (dictionary .lenient value).map (·.map permission) := by
  rw [dictionary, allMembers, Option.map_map]
  exact parseMembers_eq (value.length + 1) [] (value.dropWhile isBlank)

/-! ## Where the reader is exact -/

/-- The reader gives what the algorithm gives, where `decodes` decides whether the content of a byte
sequence can be decoded. -/
def Exact (decodes : List Char → Bool) (value : List Char) : Prop :=
  parsePermissions value =
    (dictionary (.strict decodes) value).map (·.map permission)

/-- Each number in a value has at most fifteen digits, or at most twelve digits, a point and one to
three digits, and the content of each byte sequence can be decoded. -/
def AsSpelled (decodes : List Char → Bool) (value : List Char) : Prop :=
  ∀ ms, allMembers .lenient value = some ms →
    Spelled decodes (ms.flatMap Member.bareItems)

section Exactness

variable {decodes : List Char → Bool}

theorem parsePermissions_of_dictionary {value : List Char} {dict : List Member}
    (h : dictionary (.strict decodes) value = some dict) :
    parsePermissions value = some (dict.map permission) ∧ AsSpelled decodes value := by
  obtain ⟨ms, hms, rfl⟩ := map_eq_some_iff.mp h
  obtain ⟨hlenient, hspelled⟩ := StructuredFields.members_strict_iff.mp hms
  refine ⟨?_, fun ms' hms' ↦ ?_⟩
  · rw [parsePermissions_eq, dictionary, allMembers, hlenient]
    rfl
  · cases hlenient.symm.trans hms'
    exact hspelled

theorem foldl_overwrite_ne_nil {ms dict : List Member} (h : ms ≠ [] ∨ dict ≠ []) :
    ms.foldl overwrite dict ≠ [] := by
  induction ms generalizing dict with
  | nil => exact h.resolve_left fun h ↦ h rfl
  | cons m ms ih =>
    refine ih (.inr ?_)
    unfold overwrite
    split
    next hany =>
      obtain ⟨n, hn, -⟩ := List.any_eq_true.mp hany
      exact fun hnil ↦ ne_nil_of_mem hn (map_eq_nil_iff.mp hnil)
    · exact append_ne_nil_of_right_ne_nil _ (cons_ne_nil m [])

theorem parsePermissions_of_refused {value : List Char}
    (h : dictionary (.strict decodes) value = none) :
    (AsSpelled decodes value ∧ parsePermissions value = none) ∨
      (¬AsSpelled decodes value ∧ ∃ ps, parsePermissions value = some ps ∧ ps ≠ []) := by
  have hstrict := map_eq_none_iff.mp h
  rw [parsePermissions_eq, dictionary]
  cases hms : allMembers .lenient value with
  | none => exact .inl ⟨fun ms hms' ↦ absurd (hms.symm.trans hms') nofun, rfl⟩
  | some ms =>
    have hnot : ¬Spelled decodes (ms.flatMap Member.bareItems) := fun hspelled ↦
      absurd (hstrict.symm.trans (StructuredFields.members_strict_iff.mpr ⟨hms, hspelled⟩)) nofun
    refine .inr ⟨fun hall ↦ hnot (hall ms hms), _, rfl, fun hnil ↦ ?_⟩
    -- without a member there would be nothing to spell
    refine foldl_overwrite_ne_nil (.inl ?_) (map_eq_nil_iff.mp hnil)
    rintro rfl
    exact hnot StructuredFields.Spelled.nil

theorem exact_iff (value : List Char) : Exact decodes value ↔ AsSpelled decodes value := by
  unfold Exact
  cases h : dictionary (.strict decodes) value with
  | some dict =>
    obtain ⟨hparse, hspelled⟩ := parsePermissions_of_dictionary h
    exact iff_of_true hparse hspelled
  | none =>
    obtain ⟨hspelled, hparse⟩ | ⟨hnot, ps, hparse, -⟩ := parsePermissions_of_refused h
    · exact iff_of_true hparse hspelled
    · refine iff_of_false (fun hnone ↦ ?_) hnot
      rw [hparse] at hnone
      cases hnone

end Exactness

/-! ## Policies in writing

A list of permissions whose items can be read is what a dictionary says, and its intersection with
another one is again such a list.
-/

section Writing

variable {L : StructuredFields.Leaves}

/-- The items of a list can be read, and none is a star. -/
def Allowlist.Written (L : StructuredFields.Leaves) (l : Allowlist) : Prop :=
  ∀ items, l = .only items →
    ['*'] ∉ items ∧ ∀ i ∈ items, ∃ b, StructuredFields.Readable L b ∧ b.written = i

structure Policy (L : StructuredFields.Leaves) (ps : List Permission) : Prop where
  key : ∀ p ∈ ps, StructuredFields.IsKey p.feature
  written : ∀ p ∈ ps, p.allowlist.Written L
  nodup : (ps.map (·.feature)).Nodup

theorem Allowlist.Written.inter {a b : Allowlist} (ha : a.Written L) (hb : b.Written L) :
    (a.inter b).Written L := by
  rcases a with - | a
  · exact hb
  rcases b with - | b
  · exact ha
  intro items h
  cases h
  obtain ⟨hstar, hitems⟩ := ha a rfl
  exact ⟨fun hi ↦ hstar (mem_filter.mp hi).1, fun i hi ↦ hitems i (mem_filter.mp hi).1⟩

theorem written_default (hL : L.Stable) : defaultAllowlist.Written L := by
  intro items h
  cases h
  refine ⟨by decide, forall_mem_singleton.mpr ⟨.token "self".toList, ?_, rfl⟩⟩
  exact StructuredFields.readable_of_bareItem (s := "self".toList) (r := []) hL rfl

theorem Policy.allowlistFor (hL : L.Stable) {ps : List Permission} (hps : Policy L ps)
    (feature : List Char) : (RestrictiveHeaders.allowlistFor ps feature).Written L := by
  rw [RestrictiveHeaders.allowlistFor]
  rcases hp : ps.find? fun m ↦ m.feature = feature with - | p
  · rw [hp]
    exact written_default hL
  · rw [hp]
    exact hps.written p (mem_of_find?_eq_some hp)

theorem Policy.intersection (hL : L.Stable) {a b : List Permission} (ha : Policy L a)
    (hb : Policy L b) : Policy L (RestrictiveHeaders.intersection a b) := by
  have hfeatures (g : Permission → Allowlist) (l : List Permission) :
      (l.map fun m ↦ (⟨m.feature, g m⟩ : Permission)).map (·.feature) = l.map (·.feature) := by
    rw [List.map_map]
    rfl
  refine ⟨fun m hm ↦ ?_, fun m hm ↦ ?_, ?_⟩
  · rcases mem_append.mp hm with hm | hm
    · obtain ⟨n, hn, rfl⟩ := List.mem_map.mp hm
      exact ha.key n hn
    · obtain ⟨n, hn, rfl⟩ := List.mem_map.mp hm
      exact hb.key n (mem_filter.mp hn).1
  · rcases mem_append.mp hm with hm | hm
    · obtain ⟨n, hn, rfl⟩ := List.mem_map.mp hm
      exact (ha.written n hn).inter (hb.allowlistFor hL n.feature)
    · obtain ⟨n, hn, rfl⟩ := List.mem_map.mp hm
      exact (hb.written n (mem_filter.mp hn).1).inter (written_default hL)
  · rw [RestrictiveHeaders.intersection, map_append, hfeatures, hfeatures]
    refine nodup_append.mpr ⟨ha.nodup, hb.nodup.sublist (filter_sublist.map _), ?_⟩
    -- what is taken from the second value has a feature the first one does not name
    rintro f hf g hg rfl
    obtain ⟨n, hn, hfeature⟩ := List.mem_map.mp hg
    have hnew := of_decide_eq_true (mem_filter.mp hn).2
    obtain ⟨m, hm, hmf⟩ := List.mem_map.mp hf
    exact hnew (List.any_eq_true.mpr ⟨m, hm, decide_eq_true (hmf.trans hfeature.symm)⟩)

theorem written_permission {m : Member} (hm : m.Readable L) :
    (permission m).allowlist.Written L := by
  intro items h
  rw [permission, Allowlist.ofItems] at h
  split at h
  · cases h
  next hstar =>
    cases h
    refine ⟨hstar, fun i hi ↦ ?_⟩
    obtain ⟨b, hb, rfl⟩ := List.mem_map.mp hi
    exact ⟨b, hm.items b hb, rfl⟩

/-- What a dictionary says can be written. -/
theorem policy_of_dictionary (hL : L.Stable) {value : List Char} {dict : List Member}
    (h : dictionary L value = some dict) : Policy L (dict.map permission) := by
  have hread := StructuredFields.readable_of_dictionary hL h
  refine ⟨List.forall_mem_map.mpr fun m hm ↦ (hread m hm).key,
    List.forall_mem_map.mpr fun m hm ↦ written_permission (hread m hm), ?_⟩
  obtain ⟨ms, -, rfl⟩ := map_eq_some_iff.mp h
  rw [List.map_map]
  exact StructuredFields.nodup_foldl_overwrite nodup_nil

theorem exists_map_eq {α β : Type} {f : α → β} {P : α → Prop} {l : List β}
    (h : ∀ y ∈ l, ∃ x, P x ∧ f x = y) : ∃ xs : List α, (∀ x ∈ xs, P x) ∧ xs.map f = l := by
  induction l with
  | nil => exact ⟨[], nofun, rfl⟩
  | cons y l ih =>
    obtain ⟨hy, hl⟩ := forall_mem_cons.mp h
    obtain ⟨x, hx, rfl⟩ := hy
    obtain ⟨xs, hxs, rfl⟩ := ih hl
    exact ⟨x :: xs, forall_mem_cons.mpr ⟨hx, hxs⟩, rfl⟩

theorem exists_member (hL : L.Stable) {p : Permission} (hkey : StructuredFields.IsKey p.feature)
    (hw : p.allowlist.Written L) :
    ∃ m : Member, m.Printable L ∧ (m.written, permission m) = (p.print, p) := by
  obtain ⟨feature, allowlist⟩ := p
  cases allowlist with
  | all =>
    have hstar : StructuredFields.Readable L (.token ['*']) :=
      StructuredFields.readable_of_bareItem (s := ['*']) (r := []) hL rfl
    refine ⟨⟨feature, .item ⟨.token ['*'], []⟩⟩, ⟨⟨hkey, ?_⟩, rfl⟩, rfl⟩
    exact forall_mem_singleton.mpr hstar
  | only items =>
    obtain ⟨hstar, hitems⟩ := hw items rfl
    obtain ⟨bs, hbs, rfl⟩ := exists_map_eq hitems
    refine ⟨⟨feature, .inner (bs.map (⟨·, []⟩)) []⟩, ⟨⟨hkey, ?_⟩, ?_, rfl⟩, Prod.ext ?_ ?_⟩
    · rw [Value.items, List.map_map]
      exact fun b hb ↦ hbs b (by simpa using hb)
    · exact List.forall_mem_map.mpr fun _ _ ↦ rfl
    · rw [Member.written, Value.written, List.map_map, Permission.print]
      dsimp only
      rw [append_assoc, append_assoc]
      rfl
    · have hagain : (bs.map (⟨·, []⟩)).map StructuredFields.Item.bare = bs := by
        rw [List.map_map]
        exact List.map_id bs
      rw [permission, Value.items, hagain, Allowlist.ofItems, if_neg hstar]

/-- **A policy is read from its text.** -/
theorem Policy.exists_dictionary (hL : L.Stable) {ps : List Permission} (hps : Policy L ps) :
    ∃ dict, dictionary L (join ", ".toList (ps.map Permission.print)) =
      some dict ∧ dict.map permission = ps := by
  obtain ⟨ms, hms, hwritten⟩ := exists_map_eq (f := fun m ↦ (m.written, permission m))
    (l := ps.map fun p ↦ (p.print, p)) <| List.forall_mem_map.mpr fun p hp ↦
      exists_member hL (hps.key p hp) (hps.written p hp)
  have htext : ms.map Member.written = ps.map Permission.print := by
    simpa [comp_def] using congrArg (List.map Prod.fst) hwritten
  have hpolicy : ms.map permission = ps := by
    simpa [comp_def] using congrArg (List.map Prod.snd) hwritten
  refine ⟨ms, ?_, hpolicy⟩
  have hnodup : (ms.map Member.key).Nodup := by
    have := hps.nodup
    rwa [← hpolicy, List.map_map] at this
  rw [dictionary, ← htext]
  refine (congrArg _ (StructuredFields.allMembers_written hms)).trans ?_
  exact congrArg some (StructuredFields.foldl_overwrite_of_nodup hnodup)

theorem exists_dictionary_permissionsIntersection (hL : L.Stable) {earlier later : List Char}
    {a b : List Permission} (ha : parsePermissions earlier = some a)
    (hb : parsePermissions later = some b) (hwa : Policy L a) (hwb : Policy L b) :
    ∃ dict, dictionary L (permissionsIntersection earlier later) = some dict ∧
      dict.map permission = intersection a b := by
  rw [permissionsIntersection_eq ha hb]
  exact (hwa.intersection hL hwb).exists_dictionary hL

theorem policy_of_parsePermissions {value : List Char} {ps : List Permission}
    (h : parsePermissions value = some ps) : Policy Leaves.lenient ps := by
  rw [parsePermissions_eq] at h
  obtain ⟨dict, hdict, rfl⟩ := map_eq_some_iff.mp h
  exact policy_of_dictionary Leaves.stable_lenient hdict

/-- The reader reads what is written of an intersection. -/
theorem parsePermissions_permissionsIntersection {earlier later : List Char}
    {a b : List Permission} (ha : parsePermissions earlier = some a)
    (hb : parsePermissions later = some b) :
    parsePermissions (permissionsIntersection earlier later) = some (intersection a b) := by
  obtain ⟨dict, hdict, heq⟩ := exists_dictionary_permissionsIntersection Leaves.stable_lenient
    ha hb (policy_of_parsePermissions ha) (policy_of_parsePermissions hb)
  rw [parsePermissions_eq, hdict, ← heq]
  rfl

end Writing

section Exactness

variable {decodes : List Char → Bool}

/-! ## Values that a browser refuses -/

theorem permissionsIntersection_ne_nil {earlier later : List Char} {a b : List Permission}
    (ha : parsePermissions earlier = some a) (hb : parsePermissions later = some b)
    (hne : intersection a b ≠ []) : permissionsIntersection earlier later ≠ [] := by
  intro hnil
  have hread := parsePermissions_permissionsIntersection ha hb
  rw [hnil] at hread
  exact hne (some.inj hread).symm

theorem parsePermissions_nil : parsePermissions [] = some [] := rfl

theorem earlier_refused {value : List Char}
    (h : dictionary (.strict decodes) value = none) :
    (∀ later, permissionsIntersection value later = later) ↔ AsSpelled decodes value := by
  obtain ⟨hspelled, hparse⟩ | ⟨hnot, ps, hparse, hne⟩ := parsePermissions_of_refused h
  · refine iff_of_true (fun later ↦ ?_) hspelled
    rw [permissionsIntersection, hparse]
  · refine iff_of_false (fun hall ↦ ?_) hnot
    refine permissionsIntersection_ne_nil hparse parsePermissions_nil ?_ (hall [])
    rw [intersection, filter_nil, map_nil, append_nil]
    exact fun hnil ↦ hne (map_eq_nil_iff.mp hnil)

/-- A later value that a browser refuses leaves an earlier one that it reads whole if it is spelled
right. -/
theorem later_refused {value : List Char}
    (h : dictionary (.strict decodes) value = none) :
    (∀ earlier, dictionary (.strict decodes) earlier ≠ none →
      permissionsIntersection earlier value = earlier) ↔ AsSpelled decodes value := by
  obtain ⟨hspelled, hparse⟩ | ⟨hnot, ps, hparse, hne⟩ := parsePermissions_of_refused h
  · refine iff_of_true (fun earlier hread ↦ ?_) hspelled
    obtain ⟨dict, hdict⟩ := ne_none_iff_exists'.mp hread
    rw [permissionsIntersection, hparse, (parsePermissions_of_dictionary hdict).1]
  · refine iff_of_false (fun hall ↦ ?_) hnot
    refine permissionsIntersection_ne_nil parsePermissions_nil hparse ?_ (hall [] fun h ↦ (by cases h))
    rw [intersection, map_nil, nil_append]
    intro hnil
    rw [map_eq_nil_iff, filter_eq_nil_iff] at hnil
    obtain ⟨p, hp⟩ := exists_mem_of_ne_nil ps hne
    exact hnil p hp rfl

/-! ## Intersections of valid values -/

theorem dictionary_permissionsIntersection {earlier later : List Char} {a b : List Member}
    (ha : dictionary (.strict decodes) earlier = some a)
    (hb : dictionary (.strict decodes) later = some b) :
    ∃ c, dictionary (.strict decodes) (permissionsIntersection earlier later) =
        some c ∧ c.map permission = intersection (a.map permission) (b.map permission) :=
  have hL := Leaves.stable_strict decodes
  exists_dictionary_permissionsIntersection hL (parsePermissions_of_dictionary ha).1
    (parsePermissions_of_dictionary hb).1 (policy_of_dictionary hL ha) (policy_of_dictionary hL hb)

end Exactness

/-- The reader takes a number without digits, which the algorithm refuses. -/
theorem sign_read_as_number : ¬∃ decodes, Exact decodes "geolocation=-".toList := by
  rintro ⟨decodes, h⟩
  have hread : (parsePermissions "geolocation=-".toList).isSome = true := by decide +kernel
  rw [h] at hread
  cases hread

/-- **The reader of policies is exact where numbers and byte sequences are spelled right.** So is
what becomes of a value that a browser refuses, and the intersection of two values that it reads
is read as the intersection of the two. -/
theorem permissions_exact (decodes : List Char → Bool) :
    (∀ value, Exact decodes value ↔ AsSpelled decodes value) ∧
    (∀ value, dictionary (.strict decodes) value = none →
      ((∀ later, permissionsIntersection value later = later) ↔ AsSpelled decodes value) ∧
      ((∀ earlier, dictionary (.strict decodes) earlier ≠ none →
        permissionsIntersection earlier value = earlier) ↔ AsSpelled decodes value)) ∧
    ∀ earlier later a b, dictionary (.strict decodes) earlier = some a →
      dictionary (.strict decodes) later = some b →
      ∃ c, dictionary (.strict decodes) (permissionsIntersection earlier later) =
          some c ∧
        ∀ feature, (allowlistFor (c.map permission) feature).origins =
          (allowlistFor (a.map permission) feature).origins ∩
            (allowlistFor (b.map permission) feature).origins := by
  refine ⟨exact_iff, fun value h ↦ ⟨earlier_refused h, later_refused h⟩, ?_⟩
  intro earlier later a b ha hb
  obtain ⟨c, hc, hpolicy⟩ := dictionary_permissionsIntersection ha hb
  refine ⟨c, hc, fun feature ↦ ?_⟩
  rw [hpolicy]
  exact origins_allowlistFor_intersection (a.map permission) (b.map permission) feature

end WaferRun.RestrictiveHeaders
