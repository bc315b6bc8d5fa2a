import Mathlib.Algebra.GroupWithZero.Nat
import WaferRun.Discovery.Identity

/-!
# Hoisting is faithful

Each component comes from a document that was hoisted: it is the rewritten body whose identity its
key holds (`Components.Sound`). A key that a document was given holds the identity of what the
document names by it. So a rewritten reference unfolds as the reference did in its own document
(`Components.Sound.unfolding_eq`): where it leads into the rewritten body of another document, the
two bodies agree, and so do the bodies behind their references.

The search for a free key ends if the digests of the texts that it meets differ
(`isSome_freeKey`).
-/

open List Option

namespace WaferRun.Discovery

open Unfolding

/-! ## Keys -/

/-- `[A-Za-z0-9._-]+`. -/
def ValidKey (key : String) : Prop :=
  key ≠ "" ∧ ∀ c ∈ key.toList, isComponentKeyChar c = true

instance (key : String) : Decidable (ValidKey key) := inferInstanceAs (Decidable (_ ∧ _))

theorem isComponentKeyChar_digitChar : ∀ n < 16, isComponentKeyChar (Nat.digitChar n) = true := by
  decide

theorem isComponentKeyChar_shortSha256 (H : HoistTools) (text : String) :
    ∀ c ∈ (H.shortSha256 text).toList, isComponentKeyChar c = true := by
  intro c hc
  rw [HoistTools.shortSha256, String.toList_ofList, mem_flatMap] at hc
  obtain ⟨b, -, hc⟩ := hc
  have hlt : b.toNat < 256 := b.toNat_lt
  rcases mem_cons.mp hc with rfl | hc
  · exact isComponentKeyChar_digitChar _ (by omega)
  · rw [mem_singleton.mp hc]
    exact isComponentKeyChar_digitChar _ (by omega)

theorem validKey_suffixed (H : HoistTools) {base : String}
    (h : ∀ c ∈ base.toList, isComponentKeyChar c = true) (text : String) :
    ValidKey (base ++ "_" ++ H.shortSha256 text) := by
  have htext : (base ++ "_" ++ H.shortSha256 text).toList =
      base.toList ++ ['_'] ++ (H.shortSha256 text).toList := by
    rw [String.toList_append, String.toList_append]
    rfl
  refine ⟨fun hempty ↦ ?_, fun c hc ↦ ?_⟩
  · rw [hempty] at htext
    have hlength := congrArg List.length htext
    rw [length_append, length_append] at hlength
    have hsingle : ['_'].length = 1 := rfl
    have hnil : "".toList.length = 0 := rfl
    omega
  · rw [htext] at hc
    rcases mem_append.mp hc with hc | hc
    · rcases mem_append.mp hc with hc | hc
      · exact h c hc
      · rw [mem_singleton.mp hc]
        decide
    · exact isComponentKeyChar_shortSha256 H text c hc

theorem validKey_componentKey (H : HoistTools) (name : String) : ValidKey (H.componentKey name) := by
  unfold HoistTools.componentKey
  split_ifs with hname
  · exact ⟨hname.1, List.all_eq_true.mp hname.2⟩
  · refine validKey_suffixed H (fun c hc ↦ ?_) name
    rw [String.toList_ofList] at hc
    obtain ⟨d, -, rfl⟩ := List.mem_map.mp hc
    split_ifs with hd
    · exact hd
    · decide

theorem validKey_freeKey {H : HoistTools} {held : String → Option Json} {identity : Json}
    {base : String} (hbase : ValidKey base) {n salt : ℕ} {start key : String}
    (hstart : ValidKey start) (h : freeKey H held identity base n salt start = some key) :
    ValidKey key := by
  induction n generalizing salt start with
  | zero => exact absurd h nofun
  | succ n ih =>
    rw [freeKey] at h
    split at h
    · exact ih (validKey_suffixed H hbase.2 _) h
    · exact some.inj h ▸ hstart

/-- A document that was hoisted, and the names its references were given. -/
structure Source where
  doc : Document
  renames : Renames

structure Components.Sound (c : Components) (sources : List Source) : Prop where
  distinct : ∀ s ∈ sources, s.doc.Distinct
  closed : ∀ s ∈ sources, s.doc.Closed
  named : ∀ s ∈ sources, ∀ t key, s.renames.key? t = some key → ∃ v identity,
    s.doc.body t = some v ∧ c.published.lookup key = some identity ∧
      identity.Alike (s.doc.componentIdentity v)
  total : ∀ s ∈ sources, ∀ t w, s.doc.body t = some w →
    (t = .root → ∃ v ∈ s.doc.bodies, .root ∈ collectLocalRefs v) →
      ∃ key, s.renames.key? t = some key
  origin : ∀ key identity, c.published.lookup key = some identity → ∃ s ∈ sources,
    ∃ v ∈ s.doc.bodies, identity = s.doc.componentIdentity v ∧
      c.bodies.lookup key = some (rewriteLocalRefs s.renames v)
  vacant : ∀ key, c.published.lookup key = none → c.bodies.lookup key = none
  valid : ∀ e ∈ c.bodies, ValidKey e.1

/-! ## Unfolding the components -/

namespace Document

variable {d : Document} {p q : Position} {v : Json}

structure Within (d : Document) (p : Position) : Prop where
  distinct : p.Distinct
  refs : ∀ r ∈ p.refStrings, ∃ v ∈ d.bodies, r ∈ refStrings v

theorem within_schema (hd : d.Distinct) (hv : v ∈ d.bodies) : d.Within (.schema v) :=
  ⟨hd v hv, fun _ hr ↦ ⟨v, hv, hr⟩⟩

theorem Within.inner (h : d.Within p) {step : Step} (hq : p.inner step = some q) : d.Within q :=
  ⟨h.distinct.inner hq, fun r hr ↦
    h.refs r ((Position.mem_refStrings_iff h.distinct).mpr (Or.inr ⟨step, q, hq, hr⟩))⟩

theorem Within.reference (h : d.Within p) {r : String} (hr : p.reference = some r) :
    ∃ v ∈ d.bodies, r ∈ refStrings v :=
  h.refs r ((Position.mem_refStrings_iff h.distinct).mpr (Or.inl hr))

end Document

namespace Components.Sound

variable {c : Components} {sources : List Source}

def Mirrors (d : Document) (sources : List Source) (p q : Position) : Prop :=
  ∃ s ∈ sources, ∃ p', q = p'.rewrite s.renames ∧ d.Agree s.doc p p' ∧ d.Within p ∧
    s.doc.Within p'

theorem exists_mirror (hc : c.Sound sources) {d : Document} (hdistinct : d.Distinct)
    (hclosed : d.Closed) {v : Json} (hv : v ∈ d.bodies) {key : String} {identity : Json}
    (hkey : c.published.lookup key = some identity)
    (hsame : identity.Alike (d.componentIdentity v)) :
    ∃ component, c.bodies.lookup key = some component ∧
      Mirrors d sources (.schema v) (.schema component) := by
  obtain ⟨s, hs, w, hw, rfl, hbody⟩ := hc.origin key identity hkey
  refine ⟨_, hbody, s, hs, .schema w, rfl, ?_, Document.within_schema hdistinct hv,
    Document.within_schema (hc.distinct s hs) hw⟩
  exact Document.agree_of_componentIdentity hclosed (hc.closed s hs) hv hw hsame.symm

/-- **Where a reference leads**, before and after. -/
theorem mirrors_target (hc : c.Sound sources) {d : Document} (hclosed : d.Closed)
    (hdistinct : d.Distinct) {s : Source} (hs : s ∈ sources) {p p' : Position}
    (hagree : d.Agree s.doc p p') (hp : d.Within p) (hp' : s.doc.Within p') {r : String}
    (hr : p.reference = some r) :
    Mirrors d sources (Position.target d.resolve r)
      (Position.target c.resolve ((s.renames.rewriteRef r).getD r)) := by
  have hr' := hagree.alike.reference hr
  rcases hread : readLocalRef r with - | t
  · -- the reference names nothing here, so it does not start like a reference into a document
    obtain ⟨body, hbody, hmem⟩ := hp.reference hr
    have hhash : ¬['#'] <+: r.toList := by
      intro hhash
      have hsome := hclosed body hbody r hmem hhash
      rw [Document.resolve, hread] at hsome
      cases hsome
    have hleft : Position.target d.resolve r = .data (.string r) := by
      rw [Position.target, Document.resolve, hread]
      rfl
    have hright : Position.target c.resolve ((s.renames.rewriteRef r).getD r) =
        .data (.string r) := by
      rw [rewriteRef_of_not_local hread, getD_none, Position.target,
        resolve_of_not_hash c hhash]
    rw [hleft, hright]
    have hno : d.Within (.data (.string r)) := ⟨trivial, fun _ h ↦ absurd h not_mem_nil⟩
    have hno' : s.doc.Within (.data (.string r)) := ⟨trivial, fun _ h ↦ absurd h not_mem_nil⟩
    refine ⟨s, hs, .data (.string r), rfl, ⟨.data (.refl _), fun t ht ↦ ?_⟩, hno, hno'⟩
    obtain ⟨a, ha, -⟩ := ht
    exact absurd ha not_mem_nil
  · obtain ⟨v, w, hv, hw, hvw⟩ := hagree.target hp.distinct hr hread
    -- the source of the position has named what the reference names
    obtain ⟨body, hbody, hmem⟩ := hp'.reference hr'
    have hrefs : t ∈ collectLocalRefs body := by
      rw [collectLocalRefs_eq]
      exact mem_filterMap.mpr ⟨r, hmem, hread⟩
    obtain ⟨key, hkey⟩ := hc.total s hs t w hw fun hroot ↦ ⟨body, hbody, hroot ▸ hrefs⟩
    obtain ⟨w', identity, hw', hpublished, hsame⟩ := hc.named s hs t key hkey
    obtain rfl := some.inj (hw.symm.trans hw')
    obtain ⟨component, hcomponent, s', hs', q, hq, hagree', hwithin, hwithin'⟩ :=
      hc.exists_mirror (hc.distinct s hs) (hc.closed s hs) (Document.mem_bodies hw) hpublished hsame
    have hleft : Position.target d.resolve r = .schema v := by
      rw [Position.target, Document.resolve, hread, bind_some, hv]
    have hright : Position.target c.resolve ((s.renames.rewriteRef r).getD r) =
        .schema component := by
      rw [rewriteRef_of_key hread hkey, getD_some, Position.target, resolve_componentRef,
        hcomponent]
    rw [hleft, hright]
    have hwithin₀ := Document.within_schema hdistinct (Document.mem_bodies hv)
    exact ⟨s', hs', q, hq, hvw.trans hdistinct (hc.distinct s hs) hwithin₀.distinct
      hwithin.distinct hagree', hwithin₀, hwithin'⟩

theorem simulates (hc : c.Sound sources) {d : Document} (hclosed : d.Closed)
    (hdistinct : d.Distinct) :
    Simulates (schemaGraph d.resolve) (schemaGraph c.resolve) (Mirrors d sources) := by
  constructor
  · rintro p q ⟨s, -, p', rfl, hagree, -, -⟩
    exact hagree.alike.value.label.trans (Position.label_rewrite s.renames p').symm
  · rintro p q ⟨s, hs, p', rfl, hagree, hp, hp'⟩ step
    have hinner : Option.Rel (Mirrors d sources) (p.inner step)
        ((p'.rewrite s.renames).inner step) := by
      rw [Position.inner_rewrite]
      rcases hstep : p.inner step with - | p₁
      · rcases hstep' : p'.inner step with - | p₁'
        · exact .none
        · obtain ⟨p₁, hsome, -⟩ := hagree.alike.symm.inner hstep'
          exact absurd (hstep.symm.trans hsome) nofun
      · obtain ⟨p₁', hstep', hagree'⟩ := hagree.inner hp.distinct hstep
        rw [hstep']
        exact .some ⟨s, hs, p₁', rfl, hagree', hp.inner hstep, hp'.inner hstep'⟩
    change Option.Rel (Mirrors d sources) (p.next d.resolve step)
      ((p'.rewrite s.renames).next c.resolve step)
    rcases hr : p.reference with - | r
    · have hr' : p'.reference = none := by
        rcases hr' : p'.reference with - | r
        · rfl
        · exact absurd (hr.symm.trans (hagree.alike.symm.reference hr')) nofun
      rw [Position.next, hr, Position.next, Position.reference_rewrite, hr']
      exact hinner
    · rw [Position.next, hr, Position.next, Position.reference_rewrite,
        hagree.alike.reference hr, map_some]
      dsimp only
      split_ifs
      · exact .some (hc.mirrors_target hclosed hdistinct hs hagree hp hp' hr)
      · exact hinner

theorem unfolding_eq (hc : c.Sound sources) {d : Document} (hclosed : d.Closed)
    (hdistinct : d.Distinct) {v : Json} (hv : v ∈ d.bodies) {key : String} {identity : Json}
    (hkey : c.published.lookup key = some identity)
    (hsame : identity.Alike (d.componentIdentity v)) :
    ∃ component, c.bodies.lookup key = some component ∧
      unfolding c.resolve component = unfolding d.resolve v := by
  obtain ⟨component, hcomponent, hmirrors⟩ := hc.exists_mirror hdistinct hclosed hv hkey hsame
  exact ⟨component, hcomponent, ((hc.simulates hclosed hdistinct).unfold_eq hmirrors).symm⟩

theorem unfolding_rewriteLocalRefs (hc : c.Sound sources) {s : Source} (hs : s ∈ sources) {v : Json}
    (hv : v ∈ s.doc.bodies) :
    unfolding c.resolve (rewriteLocalRefs s.renames v) = unfolding s.doc.resolve v := by
  have hwithin := Document.within_schema (hc.distinct s hs) hv
  have hmirrors : Mirrors s.doc sources (.schema v) (.schema (rewriteLocalRefs s.renames v)) :=
    ⟨s, hs, .schema v, rfl, .refl (hc.closed s hs) hv, hwithin, hwithin⟩
  exact ((hc.simulates (hc.closed s hs) (hc.distinct s hs)).unfold_eq hmirrors).symm

end Components.Sound

/-! ## Deciding the names -/

def Holds (published : List (String × Json)) (pending : List Pending) (key : String)
    (identity : Json) : Prop :=
  ∃ held, holder published pending key = some held ∧ held.Alike identity

def PendingOf (d : Document) (pending : List Pending) : Prop :=
  ∀ p ∈ pending, p.body ∈ d.bodies ∧ p.identity = d.componentIdentity p.body ∧ ValidKey p.key

section Names

variable {H : HoistTools} {d : Document} {published : List (String × Json)}
  {pending pending' : List Pending} {name key title : String} {body : Json}

theorem holder_append {held : Json} (more : List Pending)
    (h : holder published pending key = some held) :
    holder published (pending ++ more) key = some held := by
  unfold holder at h ⊢
  rcases hpublished : published.lookup key with - | v
  · rw [hpublished, none_or] at h
    obtain ⟨p, hp, rfl⟩ := map_eq_some_iff.mp h
    rw [List.find?_append, hp]
    rfl
  · rw [hpublished, some_or] at h
    rw [some_or]
    exact h

theorem Holds.append {identity : Json} (more : List Pending)
    (h : Holds published pending key identity) :
    Holds published (pending ++ more) key identity :=
  h.imp fun _ ⟨hheld, hsame⟩ ↦ ⟨holder_append more hheld, hsame⟩

theorem freeKey_spec {held : String → Option Json} {identity : Json} {base : String}
    {n salt : ℕ} {start : String} (h : freeKey H held identity base n salt start = some key) :
    ∀ other, held key = some other → other.equal identity = true := by
  induction n generalizing salt start with
  | zero => exact absurd h nofun
  | succ n ih =>
    rw [freeKey] at h
    split at h
    · exact ih h
    · rename_i hfree
      obtain rfl := some.inj h
      intro other hother
      rw [hother, any_some, Bool.not_eq_true', Bool.not_eq_false] at hfree
      exact hfree

theorem nameFor_spec (hdistinct : d.Distinct) (hpending : PendingOf d pending)
    (hpublished : ∀ key v, published.lookup key = some v → KeysDistinct v)
    (hbody : body ∈ d.bodies)
    (h : nameFor H d published pending name body = some (key, pending')) :
    (∃ more, pending' = pending ++ more) ∧ PendingOf d pending' ∧
      Holds published pending' key (d.componentIdentity body) := by
  obtain ⟨key', hkey, heq⟩ := map_eq_some_iff.mp h
  obtain ⟨rfl, rfl⟩ := Prod.mk.inj heq
  refine ⟨⟨_, rfl⟩, fun p hp ↦ ?_, ?_⟩
  · rcases mem_append.mp hp with hp | hp
    · exact hpending p hp
    · rw [mem_singleton.mp hp]
      have hbase := validKey_componentKey H name
      exact ⟨hbody, rfl, validKey_freeKey hbase hbase hkey⟩
  · rcases hheld : holder published pending key' with - | other
    · refine ⟨d.componentIdentity body, ?_, .refl _⟩
      obtain ⟨hnone, hfind⟩ := or_eq_none_iff.mp hheld
      rw [holder, hnone, none_or, List.find?_append, map_eq_none_iff.mp hfind,
        none_or, List.find?_singleton, if_pos (decide_eq_true rfl)]
      rfl
    · refine ⟨other, holder_append _ hheld, ?_⟩
      have hother : KeysDistinct other := by
        rcases or_eq_some_iff.mp hheld with hold | ⟨-, hnew⟩
        · exact hpublished key' other hold
        · obtain ⟨p, hp, rfl⟩ := map_eq_some_iff.mp hnew
          obtain ⟨hmem, hidentity, -⟩ := hpending p (mem_of_find?_eq_some hp)
          rw [hidentity]
          exact Document.keysDistinct_componentIdentity hdistinct hmem
      exact Json.alike_of_equal hother (Document.keysDistinct_componentIdentity hdistinct hbody)
        (freeKey_spec hkey other hheld)

theorem nameAll_spec (hdistinct : d.Distinct)
    (hpublished : ∀ key v, published.lookup key = some v → KeysDistinct v)
    {table : List (String × Json)} (htable : ∀ e ∈ table, e.2 ∈ d.bodies)
    (hpending : PendingOf d pending) {defs : List (String × String)}
    (h : nameAll H d published table pending = some (defs, pending')) :
    (∃ more, pending' = pending ++ more) ∧ PendingOf d pending' ∧
      ∀ name v, table.lookup name = some v → ∃ key, defs.lookup name = some key ∧
        Holds published pending' key (d.componentIdentity v) := by
  induction table generalizing pending defs with
  | nil =>
    obtain ⟨-, rfl⟩ := Prod.mk.inj (some.inj h)
    exact ⟨⟨[], (append_nil _).symm⟩, hpending, fun _ _ hlookup ↦ absurd hlookup nofun⟩
  | cons e table ih =>
    obtain ⟨name, body⟩ := e
    obtain ⟨⟨key, pending₁⟩, hname, h⟩ := bind_eq_some_iff.mp h
    obtain ⟨⟨defs₁, pending₂⟩, hrest, h⟩ := bind_eq_some_iff.mp h
    obtain ⟨rfl, rfl⟩ := Prod.mk.inj (some.inj h)
    obtain ⟨⟨more₁, rfl⟩, hpending₁, hholds⟩ := nameFor_spec hdistinct hpending hpublished
      (htable _ mem_cons_self) hname
    obtain ⟨⟨more₂, rfl⟩, hpending₂, hall⟩ :=
      ih (fun e he ↦ htable e (mem_cons_of_mem _ he)) hpending₁ hrest
    refine ⟨⟨more₁ ++ more₂, append_assoc _ _ _⟩, hpending₂, fun name' v hlookup ↦ ?_⟩
    rw [lookup_cons] at hlookup ⊢
    by_cases hsame : name' = name
    · subst hsame
      rw [beq_self_eq_true] at hlookup ⊢
      obtain rfl := some.inj hlookup
      exact ⟨key, rfl, hholds.append more₂⟩
    · rw [beq_eq_false_iff_ne.mpr hsame] at hlookup ⊢
      exact hall name' v hlookup

theorem lookup_of_nameAll {table : List (String × Json)} {defs : List (String × String)}
    (h : nameAll H d published table pending = some (defs, pending')) {name key : String}
    (hkey : defs.lookup name = some key) : ∃ v, table.lookup name = some v := by
  induction table generalizing pending defs with
  | nil =>
    obtain ⟨rfl, -⟩ := Prod.mk.inj (some.inj h)
    exact absurd hkey nofun
  | cons e table ih =>
    obtain ⟨name', body⟩ := e
    obtain ⟨⟨key', pending₁⟩, -, h⟩ := bind_eq_some_iff.mp h
    obtain ⟨⟨defs₁, pending₂⟩, hrest, h⟩ := bind_eq_some_iff.mp h
    obtain ⟨rfl, rfl⟩ := Prod.mk.inj (some.inj h)
    rw [lookup_cons] at hkey ⊢
    by_cases hsame : name = name'
    · subst hsame
      rw [beq_self_eq_true]
      exact ⟨body, rfl⟩
    · rw [beq_eq_false_iff_ne.mpr hsame] at hkey ⊢
      exact ih hrest hkey

structure Decided (d : Document) (published : List (String × Json)) (renames : Renames)
    (pending : List Pending) : Prop where
  ofDocument : PendingOf d pending
  named : ∀ t key, renames.key? t = some key → ∃ v, d.body t = some v ∧
    Holds published pending key (d.componentIdentity v)
  total : ∀ t w, d.body t = some w →
    (t = .root → ∃ v ∈ d.bodies, .root ∈ collectLocalRefs v) →
      ∃ key, renames.key? t = some key

theorem decideNames_spec (hdistinct : d.Distinct)
    (hpublished : ∀ key v, published.lookup key = some v → KeysDistinct v) {renames : Renames}
    (h : decideNames H d title published = some (renames, pending)) :
    Decided d published renames pending := by
  obtain ⟨⟨defs, pending₁⟩, hdefs, h⟩ := bind_eq_some_iff.mp h
  have htable : ∀ e ∈ d.table, e.2 ∈ d.bodies := fun e he ↦
    mem_cons_of_mem _ (List.mem_map_of_mem he)
  obtain ⟨-, hpending₁, hall⟩ := nameAll_spec hdistinct hpublished htable (fun _ h ↦ absurd h not_mem_nil) hdefs
  have hdefined {pending : List Pending} (hgrows : ∃ more, pending = pending₁ ++ more)
      {name key : String} (hkey : defs.lookup name = some key) :
      ∃ v, d.body (.definition name) = some v ∧
        Holds published pending key (d.componentIdentity v) := by
    obtain ⟨more, rfl⟩ := hgrows
    obtain ⟨v, hv⟩ := lookup_of_nameAll hdefs hkey
    obtain ⟨key', hkey', hholds⟩ := hall name v hv
    obtain rfl := some.inj (hkey.symm.trans hkey')
    exact ⟨v, hv, hholds.append more⟩
  dsimp only at h
  split_ifs at h with hroot
  · obtain ⟨⟨key, pending₂⟩, hkey, h⟩ := bind_eq_some_iff.mp h
    obtain ⟨rfl, rfl⟩ := Prod.mk.inj (some.inj h)
    obtain ⟨hgrows, hpending₂, hholds⟩ :=
      nameFor_spec hdistinct hpending₁ hpublished mem_cons_self hkey
    refine ⟨hpending₂, ?_, ?_⟩
    · rintro (- | name) key' hkey'
      · obtain rfl := some.inj hkey'
        exact ⟨d.rootBody, rfl, hholds⟩
      · exact hdefined hgrows hkey'
    · rintro (- | name) w hw -
      · exact ⟨key, rfl⟩
      · obtain ⟨key', hkey', -⟩ := hall name w hw
        exact ⟨key', hkey'⟩
  · obtain ⟨rfl, rfl⟩ := Prod.mk.inj (some.inj h)
    refine ⟨hpending₁, ?_, ?_⟩
    · rintro (- | name) key' hkey'
      · exact absurd hkey' nofun
      · exact hdefined ⟨[], (append_nil _).symm⟩ hkey'
    · rintro (- | name) w hw hreferenced
      · obtain ⟨v, hv, ht⟩ := hreferenced rfl
        exact absurd (List.any_eq_true.mpr ⟨v, hv, decide_eq_true ht⟩) hroot
      · obtain ⟨key', hkey', -⟩ := hall name w hw
        exact ⟨key', hkey'⟩

end Names

/-! ## Publishing -/

theorem lookup_append_singleton {α : Type} (l : List (String × α)) (k key : String) (a : α) :
    (l ++ [(k, a)]).lookup key = (l.lookup key).or (if key = k then some a else none) := by
  rw [lookup_append, lookup_cons]
  by_cases hkey : key = k
  · rw [if_pos hkey, beq_iff_eq.mpr hkey]
  · rw [if_neg hkey, beq_eq_false_iff_ne.mpr hkey]
    rfl

theorem find?_key_cons (p : Pending) (pending : List Pending) (key : String) :
    ((p :: pending).find? fun p ↦ p.key = key) =
      if key = p.key then some p else pending.find? fun p ↦ p.key = key := by
  rw [List.find?_cons]
  by_cases hkey : key = p.key
  · rw [if_pos hkey, decide_eq_true hkey.symm]
  · rw [if_neg hkey, decide_eq_false fun h ↦ hkey h.symm]

theorem vacant_append {published bodies : List (String × Json)}
    (h : ∀ key, published.lookup key = none → bodies.lookup key = none) (k : String) (a b : Json) :
    ∀ key, (published ++ [(k, a)]).lookup key = none →
      (bodies ++ [(k, b)]).lookup key = none := by
  intro key hkey
  rw [lookup_append_singleton] at hkey ⊢
  obtain ⟨hkey, hne⟩ := or_eq_none_iff.mp hkey
  rw [h key hkey, none_or]
  split_ifs at hne ⊢
  rfl

theorem publish_spec (renames : Renames) (pending : List Pending) (c : Components)
    (hvacant : ∀ key, c.published.lookup key = none → c.bodies.lookup key = none) (key : String) :
    (publish renames pending c).published.lookup key = holder c.published pending key ∧
      (publish renames pending c).bodies.lookup key =
        match c.published.lookup key with
        | some _ => c.bodies.lookup key
        | none =>
          (pending.find? fun p ↦ p.key = key).map fun p ↦ rewriteLocalRefs renames p.body := by
  induction pending generalizing c with
  | nil =>
    rcases hkey : c.published.lookup key with - | v
    · exact ⟨by rw [publish, holder, hkey]; rfl, hvacant key hkey⟩
    · exact ⟨by rw [publish, holder, hkey]; rfl, rfl⟩
  | cons p pending ih =>
    rw [publish, holder, find?_key_cons]
    split_ifs with htaken hsame hsame
    · obtain ⟨hpublished, hbodies⟩ := ih c hvacant
      obtain ⟨v, hv⟩ := isSome_iff_exists.mp (hsame ▸ htaken)
      rw [hpublished, hbodies, holder, hv]
      exact ⟨rfl, rfl⟩
    · exact ih c hvacant
    · have hnone : c.published.lookup key = none := by
        rw [hsame]
        exact not_isSome_iff_eq_none.mp htaken
      obtain ⟨hpublished, hbodies⟩ := ih ⟨c.published ++ [(p.key, p.identity)],
        c.bodies ++ [(p.key, rewriteLocalRefs renames p.body)]⟩ (vacant_append hvacant _ _ _)
      rw [hpublished, hbodies, holder, lookup_append_singleton, lookup_append_singleton, hnone,
        hvacant key hnone, if_pos hsame, if_pos hsame]
      exact ⟨rfl, rfl⟩
    · obtain ⟨hpublished, hbodies⟩ := ih ⟨c.published ++ [(p.key, p.identity)],
        c.bodies ++ [(p.key, rewriteLocalRefs renames p.body)]⟩ (vacant_append hvacant _ _ _)
      rw [hpublished, hbodies, holder, lookup_append_singleton, lookup_append_singleton,
        if_neg hsame, if_neg hsame, or_none, or_none]
      exact ⟨rfl, rfl⟩

theorem mem_publish {renames : Renames} {pending : List Pending} {c : Components}
    {e : String × Json} (he : e ∈ (publish renames pending c).bodies) :
    e ∈ c.bodies ∨ ∃ p ∈ pending, e.1 = p.key := by
  induction pending generalizing c with
  | nil => exact Or.inl he
  | cons p pending ih =>
    rw [publish] at he
    rcases ih he with hold | ⟨q, hq, hkey⟩
    · split_ifs at hold
      · exact Or.inl hold
      · rcases mem_append.mp hold with hold | hnew
        · exact Or.inl hold
        · exact Or.inr ⟨p, mem_cons_self, congrArg Prod.fst (mem_singleton.mp hnew)⟩
    · exact Or.inr ⟨q, mem_cons_of_mem p hq, hkey⟩

/-! ## Hoisting -/

namespace Components

variable {H : HoistTools} {c c' : Components} {sources : List Source} {schema : Json}
  {hoisted : Hoisted}

def sourceOf (schema : Json) (hoisted : Hoisted) : Source := ⟨document schema, hoisted.renames⟩

theorem Sound.empty : Components.empty.Sound [] where
  distinct _ hs := absurd hs not_mem_nil
  closed _ hs := absurd hs not_mem_nil
  named _ hs := absurd hs not_mem_nil
  total _ hs := absurd hs not_mem_nil
  origin _ _ hkey := absurd hkey nofun
  vacant _ _ := rfl
  valid _ he := absurd he not_mem_nil

theorem Sound.keysDistinct (hc : c.Sound sources) {key : String} {v : Json}
    (h : c.published.lookup key = some v) : KeysDistinct v := by
  obtain ⟨s, hs, w, hw, rfl, -⟩ := hc.origin key v h
  exact Document.keysDistinct_componentIdentity (hc.distinct s hs) hw

/-- **Hoisting keeps the invariant.** -/
theorem Sound.hoist (hc : c.Sound sources) (hdistinct : (document schema).Distinct)
    (hclosed : (document schema).Closed) (h : hoist H schema c = some (hoisted, c')) :
    c'.Sound (sources ++ [sourceOf schema hoisted]) := by
  obtain ⟨⟨renames, pending⟩, hdecided, heq⟩ := map_eq_some_iff.mp h
  obtain ⟨rfl, rfl⟩ := Prod.mk.inj heq
  have hnames := decideNames_spec hdistinct (fun _ _ ↦ hc.keysDistinct) hdecided
  have hspec := publish_spec renames pending c hc.vacant
  have hsources {motive : Source → Prop} (hold : ∀ s ∈ sources, motive s)
      (hnew : motive ⟨document schema, renames⟩) :
      ∀ s ∈ sources ++ [⟨document schema, renames⟩], motive s := by
    intro s hs
    rcases mem_append.mp hs with hs | hs
    · exact hold s hs
    · exact mem_singleton.mp hs ▸ hnew
  refine ⟨hsources hc.distinct hdistinct, hsources hc.closed hclosed, hsources ?_ ?_,
    hsources hc.total hnames.total, fun key identity hkey ↦ ?_, fun key hkey ↦ ?_, fun e he ↦ ?_⟩
  · intro s hs t key hkey
    obtain ⟨v, identity, hv, hpublished, hsame⟩ := hc.named s hs t key hkey
    refine ⟨v, identity, hv, ?_, hsame⟩
    rw [(hspec key).1, holder, hpublished, some_or]
  · intro t key hkey
    obtain ⟨v, hv, held, hheld, hsame⟩ := hnames.named t key hkey
    exact ⟨v, held, hv, (hspec key).1.trans hheld, hsame⟩
  · rw [(hspec key).1] at hkey
    rw [(hspec key).2]
    rcases hold : c.published.lookup key with - | held
    · rw [holder, hold, none_or] at hkey
      obtain ⟨p, hp, rfl⟩ := map_eq_some_iff.mp hkey
      obtain ⟨hmem, hidentity, -⟩ := hnames.ofDocument p (mem_of_find?_eq_some hp)
      refine ⟨⟨document schema, renames⟩, mem_append_right _ mem_cons_self, p.body, hmem,
        hidentity, ?_⟩
      dsimp only
      rw [hp, map_some]
    · rw [holder, hold, some_or] at hkey
      obtain rfl := some.inj hkey
      obtain ⟨s, hs, v, hv, hidentity, hbody⟩ := hc.origin key held hold
      exact ⟨s, mem_append_left _ hs, v, hv, hidentity, hbody⟩
  · rw [(hspec key).1] at hkey
    rw [(hspec key).2]
    obtain ⟨hnone, hfind⟩ := or_eq_none_iff.mp hkey
    rw [hnone]
    dsimp only
    rw [map_eq_none_iff.mp hfind]
    rfl
  · rcases mem_publish he with hold | ⟨p, hp, hkey⟩
    · exact hc.valid e hold
    · exact hkey ▸ (hnames.ofDocument p hp).2.2

theorem schema_of_hoist (h : Discovery.hoist H schema c = some (hoisted, c')) :
    hoisted.schema = rewriteLocalRefs hoisted.renames (document schema).rootBody := by
  obtain ⟨⟨renames, pending⟩, -, heq⟩ := map_eq_some_iff.mp h
  rw [← (Prod.mk.inj heq).1]

theorem Sound.hoistAll {schemas : List Json} {results : List Hoisted} (hc : c.Sound sources)
    (hdistinct : ∀ schema ∈ schemas, (document schema).Distinct)
    (hclosed : ∀ schema ∈ schemas, (document schema).Closed)
    (h : hoistAll H schemas c = some (results, c')) :
    c'.Sound (sources ++ List.zipWith sourceOf schemas results) ∧
      List.Forall₂ (fun schema hoisted ↦
        hoisted.schema = rewriteLocalRefs hoisted.renames (document schema).rootBody)
        schemas results := by
  induction schemas generalizing c sources results with
  | nil =>
    obtain ⟨rfl, rfl⟩ := Prod.mk.inj (some.inj h)
    exact ⟨(append_nil sources).symm ▸ hc, .nil⟩
  | cons schema schemas ih =>
    obtain ⟨⟨hoisted, c₁⟩, hfirst, h⟩ := bind_eq_some_iff.mp h
    obtain ⟨⟨hoisteds, c₂⟩, hrest, h⟩ := bind_eq_some_iff.mp h
    obtain ⟨rfl, rfl⟩ := Prod.mk.inj (some.inj h)
    have hc₁ := hc.hoist (hdistinct schema mem_cons_self) (hclosed schema mem_cons_self)
      hfirst
    obtain ⟨hsound, hall⟩ := ih hc₁ (fun s hs ↦ hdistinct s (mem_cons_of_mem _ hs))
      (fun s hs ↦ hclosed s (mem_cons_of_mem _ hs)) hrest
    rw [append_assoc] at hsound
    exact ⟨hsound, .cons (schema_of_hoist hfirst) hall⟩

end Components

/-! ## A free key is found -/

section Free

variable {H : HoistTools} {d : Document} {identity : Json} {base : String} {n : ℕ}

def tried (H : HoistTools) (identity : Json) (base : String) : ℕ → String
  | 0 => base
  | salt + 1 => base ++ "_" ++ H.shortSha256 (H.saltedText identity salt)

theorem toList_tried_succ (H : HoistTools) (identity : Json) (base : String) (salt : ℕ) :
    (tried H identity base (salt + 1)).toList =
      base.toList ++ ('_' :: (H.shortSha256 (H.saltedText identity salt)).toList) := by
  rw [tried, String.toList_append, String.toList_append, append_assoc]
  rfl

def Distinguishes (H : HoistTools) (identity : Json) (n : ℕ) : Prop :=
  ∀ i < n, ∀ j < n, H.shortSha256 (H.saltedText identity i) =
    H.shortSha256 (H.saltedText identity j) → i = j

theorem tried_injective (h : Distinguishes H identity n) {i j : ℕ} (hi : i ≤ n) (hj : j ≤ n)
    (heq : tried H identity base i = tried H identity base j) : i = j := by
  have hne (salt : ℕ) : tried H identity base (salt + 1) ≠ base := by
    intro heq
    have hlength := congrArg (fun s : String ↦ s.toList.length) heq
    simp only [toList_tried_succ, length_append, length_cons] at hlength
    omega
  rcases i with - | i <;> rcases j with - | j
  · rfl
  · exact absurd heq.symm (hne j)
  · exact absurd heq (hne i)
  · have hlist := congrArg String.toList heq
    rw [toList_tried_succ, toList_tried_succ] at hlist
    have hdigest := String.toList_injective (cons_inj_right _ |>.mp
      (append_cancel_left hlist))
    rw [h i hi j hj hdigest]

theorem held_of_freeKey_eq_none {held : String → Option Json} {salt : ℕ}
    (h : freeKey H held identity base n salt (tried H identity base salt) = none) {k : ℕ}
    (hk : salt ≤ k ∧ k < salt + n) : (held (tried H identity base k)).isSome = true := by
  induction n generalizing salt with
  | zero => omega
  | succ n ih =>
    rw [freeKey] at h
    split at h
    · rename_i htaken
      rcases Nat.eq_or_lt_of_le hk.1 with rfl | hlt
      · obtain ⟨other, hother, -⟩ := Option.any_eq_true _ _ |>.mp htaken
        exact isSome_of_eq_some hother
      · exact ih h ⟨hlt, by omega⟩
    · exact absurd h nofun

/-- **A free key is found** if so many digests differ as keys are held. -/
theorem isSome_freeKey {held : String → Option Json} {keys : List String}
    (hkeys : ∀ key, (held key).isSome = true → key ∈ keys)
    (h : Distinguishes H identity keys.length) :
    ∃ key, freeKey H held identity base (keys.length + 1) 0 base = some key := by
  rcases hfree : freeKey H held identity base (keys.length + 1) 0 base with - | key
  · -- more keys were tried than are held
    have hsub : (List.range (keys.length + 1)).map (tried H identity base) ⊆ keys := by
      intro key hkey
      obtain ⟨k, hk, rfl⟩ := List.mem_map.mp hkey
      have hstart : freeKey H held identity base (keys.length + 1) 0 (tried H identity base 0) =
          none := hfree
      refine hkeys _ (held_of_freeKey_eq_none hstart ⟨Nat.zero_le _, ?_⟩)
      rw [Nat.zero_add]
      exact mem_range.mp hk
    have hnodup : ((List.range (keys.length + 1)).map (tried H identity base)).Nodup := by
      refine List.Nodup.map_on (fun i hi j hj heq ↦ ?_) nodup_range
      exact tried_injective h (Nat.le_of_lt_succ (mem_range.mp hi))
        (Nat.le_of_lt_succ (mem_range.mp hj)) heq
    have hlength := (subperm_of_subset hnodup hsub).length_le
    rw [length_map, length_range] at hlength
    omega
  · exact ⟨key, rfl⟩

variable {published : List (String × Json)} {pending : List Pending}

theorem exists_nameFor {name : String} {body : Json}
    (h : Distinguishes H (d.componentIdentity body) n)
    (hn : published.length + pending.length ≤ n) :
    ∃ key pending', nameFor H d published pending name body = some (key, pending') ∧
      pending'.length = pending.length + 1 := by
  have hlength : (published.map Prod.fst ++ pending.map Pending.key).length =
      published.length + pending.length := by
    rw [length_append, length_map, length_map]
  have hkeys : ∀ key, (holder published pending key).isSome = true →
      key ∈ published.map Prod.fst ++ pending.map Pending.key := by
    intro key hkey
    obtain ⟨held, hheld⟩ := isSome_iff_exists.mp hkey
    rcases or_eq_some_iff.mp hheld with hold | ⟨-, hnew⟩
    · obtain ⟨l, r, hsplit, -⟩ := lookup_eq_some_iff.mp hold
      refine mem_append_left _ (List.mem_map.mpr ⟨(key, held), ?_, rfl⟩)
      rw [hsplit]
      exact mem_append_right _ mem_cons_self
    · obtain ⟨p, hp, -⟩ := map_eq_some_iff.mp hnew
      exact mem_append_right _ (List.mem_map.mpr
        ⟨p, mem_of_find?_eq_some hp, by simpa using List.find?_some hp⟩)
  have hdistinguishes : Distinguishes H (d.componentIdentity body)
      (published.map Prod.fst ++ pending.map Pending.key).length := by
    rw [hlength]
    exact fun i hi j hj ↦ h i (hi.trans_le hn) j (hj.trans_le hn)
  obtain ⟨key, hkey⟩ := @isSome_freeKey H _ (H.componentKey name) _ _ hkeys hdistinguishes
  rw [hlength] at hkey
  refine ⟨key, pending ++ [⟨key, d.componentIdentity body, body⟩], ?_, length_append⟩
  rw [nameFor, hkey]
  rfl

theorem exists_nameAll {table : List (String × Json)}
    (h : ∀ e ∈ table, Distinguishes H (d.componentIdentity e.2) n)
    (hn : published.length + pending.length + table.length ≤ n) :
    ∃ defs pending', nameAll H d published table pending = some (defs, pending') ∧
      pending'.length = pending.length + table.length := by
  induction table generalizing pending with
  | nil => exact ⟨[], pending, rfl, rfl⟩
  | cons e table ih =>
    obtain ⟨name, body⟩ := e
    rw [length_cons] at hn
    obtain ⟨key, pending₁, hname, hlength₁⟩ := @exists_nameFor H d n published pending name body
      (h (name, body) mem_cons_self) (by omega)
    obtain ⟨defs, pending₂, hrest, hlength₂⟩ := @ih pending₁
      (fun e he ↦ h e (mem_cons_of_mem _ he)) (by omega)
    refine ⟨(name, key) :: defs, pending₂, ?_, ?_⟩
    · exact bind_eq_some_iff.mpr ⟨(key, pending₁), hname,
        bind_eq_some_iff.mpr ⟨(defs, pending₂), hrest, rfl⟩⟩
    · rw [length_cons]
      omega

theorem exists_decideNames {title : String}
    (h : ∀ body ∈ d.bodies, Distinguishes H (d.componentIdentity body) n)
    (hn : published.length + d.bodies.length ≤ n) :
    ∃ renames pending, decideNames H d title published = some (renames, pending) ∧
      pending.length ≤ d.bodies.length := by
  have hbodies : d.bodies.length = d.table.length + 1 := by
    rw [Document.bodies, length_cons, length_map]
  obtain ⟨defs, pending₁, hdefs, hlength₁⟩ := @exists_nameAll H d n published [] d.table
    (fun e he ↦ h e.2 (mem_cons_of_mem _ (List.mem_map_of_mem he)))
    (by rw [length_nil]; omega)
  rw [length_nil] at hlength₁
  by_cases hroot : d.rootReferenced = true
  · obtain ⟨key, pending₂, hkey, hlength₂⟩ := @exists_nameFor H d n published pending₁ title
      d.rootBody (h d.rootBody mem_cons_self) (by omega)
    refine ⟨⟨defs, some key⟩, pending₂, ?_, by omega⟩
    refine bind_eq_some_iff.mpr ⟨(defs, pending₁), hdefs, (if_pos hroot).trans ?_⟩
    exact bind_eq_some_iff.mpr ⟨(key, pending₂), hkey, rfl⟩
  · refine ⟨⟨defs, none⟩, pending₁, ?_, by omega⟩
    exact bind_eq_some_iff.mpr ⟨(defs, pending₁), hdefs, if_neg hroot⟩

theorem length_publish_le (renames : Renames) (pending : List Pending) (c : Components) :
    (publish renames pending c).published.length ≤ c.published.length + pending.length := by
  induction pending generalizing c with
  | nil => exact le_rfl
  | cons p pending ih =>
    rw [publish, length_cons]
    refine (ih _).trans ?_
    split_ifs
    · omega
    · rw [length_append, length_singleton]
      omega

def countBodies (schemas : List Json) : ℕ :=
  (schemas.map fun schema ↦ (document schema).bodies.length).sum

theorem exists_hoistAll {schemas : List Json} {c : Components}
    (h : ∀ schema ∈ schemas, ∀ body ∈ (document schema).bodies,
      Distinguishes H ((document schema).componentIdentity body) n)
    (hn : c.published.length + countBodies schemas ≤ n) :
    ∃ results c', hoistAll H schemas c = some (results, c') := by
  induction schemas generalizing c with
  | nil => exact ⟨[], c, rfl⟩
  | cons schema schemas ih =>
    rw [countBodies, map_cons, sum_cons, ← countBodies] at hn
    obtain ⟨renames, pending, hnames, hlength⟩ :=
      @exists_decideNames H (document schema) n c.published (rootTitle schema)
        (h schema mem_cons_self) (by omega)
    have hpublished := length_publish_le renames pending c
    obtain ⟨results, c', hrest⟩ := @ih (publish renames pending c)
      (fun s hs ↦ h s (mem_cons_of_mem _ hs)) (by omega)
    refine ⟨⟨rewriteLocalRefs renames (document schema).rootBody, renames⟩ :: results, c', ?_⟩
    refine bind_eq_some_iff.mpr ⟨_, map_eq_some_iff.mpr ⟨_, hnames, rfl⟩, ?_⟩
    exact bind_eq_some_iff.mpr ⟨(results, c'), hrest, rfl⟩

end Free

theorem saltedText_injective (H : HoistTools) (identity : Json) :
    Function.Injective (H.saltedText identity) := by
  have hlist (salt : ℕ) : (toString (salt + 1) ++ ":" ++ H.canonicalJson identity).toList =
      Nat.toDigits 10 (salt + 1) ++ (':' :: (H.canonicalJson identity).toList) := by
    rw [String.toList_append, String.toList_append, Nat.toString_eq_ofList_toDigits,
      String.toList_ofList, append_assoc]
    rfl
  have hne (salt : ℕ) : H.saltedText identity (salt + 1) ≠ H.saltedText identity 0 := by
    intro heq
    rw [HoistTools.saltedText, if_neg (Nat.succ_ne_zero salt), HoistTools.saltedText,
      if_pos rfl] at heq
    have hlength := congrArg (fun s : String ↦ s.toList.length) heq
    simp only [hlist, length_append, length_cons] at hlength
    omega
  intro i j heq
  rcases i with - | i <;> rcases j with - | j
  · rfl
  · exact absurd heq.symm (hne j)
  · exact absurd heq (hne i)
  · rw [HoistTools.saltedText, if_neg (Nat.succ_ne_zero i), HoistTools.saltedText,
      if_neg (Nat.succ_ne_zero j)] at heq
    have htext := congrArg String.toList heq
    rw [hlist, hlist] at htext
    have hdigits := congrArg (fun l ↦ Nat.ofDigitChars 10 l 0) (append_cancel_right htext)
    simpa only [Nat.ofDigitChars_toDigits (by decide : 1 < 10) (le_refl 10)] using hdigits

/-! ## The main result -/

theorem distinct_document {schema : Json} (h : KeysDistinct schema) :
    (document schema).Distinct := by
  intro body hbody
  rcases mem_cons.mp hbody with rfl | hbody
  · rcases schema with - | b | n | s | items | fields
    case object =>
      have hfields : ∀ l : List (String × Json), FieldsDistinct l →
          FieldsDistinct (l.filter fun f ↦ f.1 ≠ "$defs") := by
        intro l hl
        induction l with
        | nil => exact hl
        | cons f l ih =>
          rw [filter_cons]
          split
          · exact ⟨hl.1, ih hl.2⟩
          · exact ih hl.2
      exact ⟨h.1.sublist (filter_sublist.map Prod.fst), hfields fields h.2⟩
    all_goals exact h
  · obtain ⟨e, he, rfl⟩ := List.mem_map.mp hbody
    unfold document at he
    dsimp only at he
    split at he
    · rename_i table htable
      have hdefs := h.get htable
      exact FieldsDistinct.of_mem hdefs.2 (SortedKeys.mem_sortKeys.mp he)
    · exact absurd he not_mem_nil

/-- The texts that may be hashed: the identities of all schemas, with each salt that may be
needed. -/
def textsMet (H : HoistTools) (schemas : List Json) : List String :=
  schemas.flatMap fun schema ↦ (document schema).bodies.flatMap fun body ↦
    (List.range (countBodies schemas)).map
      (H.saltedText ((document schema).componentIdentity body))

theorem distinguishes_of_injective {H : HoistTools} {schemas : List Json}
    (h : ∀ x ∈ textsMet H schemas, ∀ y ∈ textsMet H schemas,
      H.shortSha256 x = H.shortSha256 y → x = y) {schema : Json} (hschema : schema ∈ schemas)
    {body : Json} (hbody : body ∈ (document schema).bodies) :
    Distinguishes H ((document schema).componentIdentity body) (countBodies schemas) := by
  have hmem {i : ℕ} (hi : i < countBodies schemas) :
      H.saltedText ((document schema).componentIdentity body) i ∈ textsMet H schemas :=
    mem_flatMap.mpr ⟨schema, hschema, mem_flatMap.mpr ⟨body, hbody,
      List.mem_map.mpr ⟨i, mem_range.mpr hi, rfl⟩⟩⟩
  exact fun i hi j hj heq ↦ saltedText_injective H _ (h _ (hmem hi) _ (hmem hj) heq)

theorem Components.Sound.resolve_key {c : Components} {sources : List Source}
    (hc : c.Sound sources) {s : Source} (hs : s ∈ sources) {t : LocalRef} {key : String}
    (hkey : s.renames.key? t = some key) {v : Json} (hv : s.doc.body t = some v) :
    ∃ component, c.resolve (componentRef key) = some component ∧
      unfolding c.resolve component = unfolding s.doc.resolve v := by
  obtain ⟨w, identity, hw, hpublished, hsame⟩ := hc.named s hs t key hkey
  obtain rfl := some.inj (hv.symm.trans hw)
  rw [resolve_componentRef]
  exact hc.unfolding_eq (hc.closed s hs) (hc.distinct s hs) (Document.mem_bodies hv) hpublished
    hsame

theorem Components.Sound.key_of_rewriteRef {c : Components} {sources : List Source}
    (hc : c.Sound sources) {s : Source} (hs : s ∈ sources) {reference rewritten : String}
    (h : s.renames.rewriteRef reference = some rewritten) {body : Json}
    (hbody : s.doc.resolve reference = some body) :
    ∃ t key, s.doc.body t = some body ∧ s.renames.key? t = some key ∧
      rewritten = componentRef key := by
  obtain ⟨t, ht, hv⟩ := bind_eq_some_iff.mp hbody
  rcases hkey : s.renames.key? t with - | key
  · -- only the root may have no key, and then the reference to it is not rewritten
    have hroot : t = .root := by
      by_contra hne
      obtain ⟨key, hsome⟩ := hc.total s hs t body hv fun hroot ↦ absurd hroot hne
      exact absurd (hkey.symm.trans hsome) nofun
    subst hroot
    unfold readLocalRef at ht
    split at ht
    · rename_i hreference
      rw [Renames.rewriteRef, if_pos hreference, show s.renames.root = none from hkey] at h
      exact absurd h nofun
    · obtain ⟨_, -, hname⟩ := map_eq_some_iff.mp ht
      exact absurd hname nofun
  · exact ⟨t, key, hv, hkey, some.inj (h.symm.trans (rewriteRef_of_key ht hkey))⟩

/-- **Hoisting is faithful.** Schemas whose references name something can be hoisted, one after the
other. In the components of the end, what a reference is rewritten to unfolds as the reference did
in its own document, and so does each schema as a whole. What shares a key unfolds alike. -/
theorem hoisting_faithful (H : HoistTools) (schemas : List Json)
    (hkeys : ∀ schema ∈ schemas, KeysDistinct schema)
    (hclosed : ∀ schema ∈ schemas, (document schema).Closed)
    (hinjective : ∀ x ∈ textsMet H schemas, ∀ y ∈ textsMet H schemas,
      H.shortSha256 x = H.shortSha256 y → x = y) :
    ∃ results c, hoistAll H schemas .empty = some (results, c) ∧
      results.length = schemas.length ∧
      (∀ (i : ℕ) schema hoisted, schemas[i]? = some schema → results[i]? = some hoisted →
        (∀ reference rewritten, hoisted.renames.rewriteRef reference = some rewritten →
          ∀ body, (document schema).resolve reference = some body →
            ∃ component, c.resolve rewritten = some component ∧
              unfolding c.resolve component = unfolding (document schema).resolve body) ∧
        unfolding c.resolve hoisted.schema =
          unfolding (document schema).resolve (document schema).rootBody) ∧
      (∀ (i j : ℕ) schema schema' hoisted hoisted', schemas[i]? = some schema →
        schemas[j]? = some schema' → results[i]? = some hoisted → results[j]? = some hoisted' →
          ∀ t t' key, hoisted.renames.key? t = some key → hoisted'.renames.key? t' = some key →
            ∀ v v', (document schema).body t = some v → (document schema').body t' = some v' →
              unfolding (document schema).resolve v = unfolding (document schema').resolve v') ∧
      ∀ e ∈ c.bodies, ValidKey e.1 := by
  obtain ⟨results, c, hall⟩ := @exists_hoistAll H (countBodies schemas) schemas .empty
    (fun schema hschema body hbody ↦ distinguishes_of_injective hinjective hschema hbody)
    (Nat.zero_add _).le
  obtain ⟨hsound, hforall⟩ := Components.Sound.empty.hoistAll
    (fun schema hschema ↦ distinct_document (hkeys schema hschema)) hclosed hall
  rw [nil_append] at hsound
  have hlength := hforall.length_eq.symm
  have hsource {i : ℕ} {schema : Json} {hoisted : Hoisted} (hschema : schemas[i]? = some schema)
      (hresult : results[i]? = some hoisted) :
      Components.sourceOf schema hoisted ∈ List.zipWith Components.sourceOf schemas results := by
    refine List.mem_of_getElem? (i := i) ?_
    rw [List.getElem?_zipWith, hschema, hresult]
  refine ⟨results, c, hall, hlength, fun i schema hoisted hschema hresult ↦ ⟨?_, ?_⟩, ?_,
    hsound.valid⟩
  · intro reference rewritten hrewritten body hbody
    have hs := hsource hschema hresult
    obtain ⟨t, key, hv, hkey, rfl⟩ := hsound.key_of_rewriteRef hs hrewritten hbody
    exact hsound.resolve_key hs hkey hv
  · have hrewritten := (forall₂_iff_get.mp hforall).2
    obtain ⟨hi, rfl⟩ := List.getElem?_eq_some_iff.mp hschema
    obtain ⟨hi', rfl⟩ := List.getElem?_eq_some_iff.mp hresult
    rw [show results[i].schema = _ from hrewritten i hi hi']
    exact hsound.unfolding_rewriteLocalRefs (hsource hschema hresult) mem_cons_self
  · intro i j schema schema' hoisted hoisted' hi hj hi' hj' t t' key hkey hkey' v v' hv hv'
    obtain ⟨w, hw, hunfold⟩ := hsound.resolve_key (hsource hi hi') hkey hv
    obtain ⟨w', hw', hunfold'⟩ := hsound.resolve_key (hsource hj hj') hkey' hv'
    obtain rfl := some.inj (hw.symm.trans hw')
    exact hunfold.symm.trans hunfold'

/-! ## Two definitions of one name -/

mutual

/-- Write a value whose strings need no escapes and whose numbers are naturals. -/
def compact : Json → String
  | .null => "null"
  | .bool b => if b then "true" else "false"
  | .number (.posInt n) => toString n
  | .number _ => ""
  | .string s => "\"" ++ s ++ "\""
  | .array items => "[" ++ String.intercalate "," (compactItems items) ++ "]"
  | .object fields => "\x7b" ++ String.intercalate "," (compactFields fields) ++ "\x7d"

def compactItems : List Json → List String
  | [] => []
  | item :: items => compact item :: compactItems items

def compactFields : List (String × Json) → List String
  | [] => []
  | (key, value) :: fields => ("\"" ++ key ++ "\":" ++ compact value) :: compactFields fields

end

def sampleTools : HoistTools where
  sha256 text :=
    if text = "\x7b\"body\":\x7b\"type\":\"string\"\x7d,\"reaches\":\x7b\x7d\x7d" then
      [110, 201, 200, 124, 74, 194, 97, 52, 143, 139, 166, 15, 14, 122, 199, 31, 30, 19, 131, 165,
        29, 43, 254, 54, 234, 201, 96, 137, 27, 93, 198, 2]
    else [UInt8.ofNat text.length, UInt8.ofNat (text.toList.head?.map Char.toNat |>.getD 0)]
  write := compact

def listSchema : Json :=
  .object [("$ref", .string "#/$defs/Node"), ("$defs", .object [("Node", .object [("properties",
    .object [("next", .object [("$ref", .string "#/$defs/Node")])])])])]

def otherListSchema : Json :=
  .object [("items", .object [("$ref", .string "#/$defs/Node")]),
    ("$defs", .object [("Node", .object [("type", .string "string")])])]

/-- The other `Node` is published under a key of its own, and unfolds as it did. -/
theorem hoisting_faithful_lists : ∃ results c,
    hoistAll sampleTools [listSchema, otherListSchema] .empty = some (results, c) ∧
      ∃ component, c.resolve "#/components/schemas/Node_6ec9c87c4ac26134" = some component ∧
        unfolding c.resolve component = unfolding (document otherListSchema).resolve
          (.object [("type", .string "string")]) := by
  have hkeys : ∀ schema ∈ [listSchema, otherListSchema], KeysDistinct schema := by
    simp [listSchema, otherListSchema, KeysDistinct, FieldsDistinct]
  obtain ⟨results, c, hall, -, hfaithful, -⟩ := hoisting_faithful sampleTools
    [listSchema, otherListSchema] hkeys (by decide +kernel) (by decide +kernel)
  have hnames : ((hoistAll sampleTools [listSchema, otherListSchema] .empty).bind fun x ↦
      x.1[1]?.bind fun h ↦ h.renames.rewriteRef "#/$defs/Node") =
        some "#/components/schemas/Node_6ec9c87c4ac26134" := by
    decide +kernel
  rw [hall, bind_some] at hnames
  obtain ⟨hoisted, hhoisted, hrewritten⟩ := bind_eq_some_iff.mp hnames
  have hbody : (document otherListSchema).resolve "#/$defs/Node" =
      some (.object [("type", .string "string")]) := by
    have hname := definitionNamed_pointer "Node"
    rw [show (LocalRef.definition "Node").pointer = "#/$defs/Node" by decide +kernel] at hname
    rw [Document.resolve, readLocalRef, if_neg (by decide), hname]
    rfl
  exact ⟨results, c, hall,
    (hfaithful 1 otherListSchema hoisted rfl hhoisted).1 _ _ hrewritten _ hbody⟩

end WaferRun.Discovery
