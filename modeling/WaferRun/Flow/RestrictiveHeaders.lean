import WaferRun.Block.HttpCodec

/-!
# Headers that only get stricter

Where two producers of a flow set the same security header, the result is at least as strict as
each of the two values instead of simply the later one. Six headers are treated this way, each
with a rule of its own, and `combine` selects the rule by the lower-case header name.

The readers of `Strict-Transport-Security` and `Permissions-Policy` values are part of the rules,
since a value a browser would ignore never counts as the stricter one. They consume text from the
left and return what remains. Their loops carry a bound on the number of rounds; every round
consumes at least one character, so a bound of one more than the length of the text is never
reached.

The result of a combination is made of pieces of the two values and of fixed punctuation, so it
can be sent if they can (`isFieldValue_combine`).
-/

open List

namespace WaferRun.RestrictiveHeaders

open Text

def stricter (rank : List Char → ℕ) (earlier later : List Char) : List Char :=
  if rank later < rank earlier then earlier else later

def pushNew {α : Type*} [DecidableEq α] (l : List α) (a : α) : List α :=
  if a ∈ l then l else l ++ [a]

/-! ## The ranked headers -/

def isAsciiWhitespace (c : Char) : Bool :=
  c = ' ' || c = '\t' || c = '\n' || c = '\x0c' || c = '\r'

def collapse (policy : List Char) : List Char :=
  join [' '] ((policy.splitOnP isAsciiWhitespace).filter (· ≠ []))

/-- Every policy of both values, each once. -/
def cspUnion (earlier later : List Char) : List Char :=
  join ", ".toList <| ((earlier.splitOn ',' ++ later.splitOn ',').map collapse).foldl
    (fun policies policy ↦ if policy = [] then policies else pushNew policies policy) []

/-- How much a value forbids framing: everything, other origins, or nothing. -/
def xFrameOptionsRank (value : List Char) : ℕ :=
  let values := ((value.splitOn ',').map fun v ↦ asciiLower (trim v)).foldl pushNew []
  if 1 < values.length then
    if values.any fun v ↦
        v = "deny".toList ∨ v = "allowall".toList ∨ v = "sameorigin".toList then 2 else 0
  else if values.head? = some "deny".toList then 2
  else if values.head? = some "sameorigin".toList then 1
  else 0

def isNosniff (value : List Char) : Bool :=
  eqIgnoreAsciiCase (trim ((value.splitOn ',').headD [])) "nosniff".toList

def referrerPolicies : List String :=
  ["no-referrer", "same-origin", "strict-origin", "strict-origin-when-cross-origin", "origin",
    "origin-when-cross-origin", "no-referrer-when-downgrade", "unsafe-url"]

/-- How little a value lets out; the last policy that is recognised counts. -/
def referrerRank (value : List Char) : ℕ :=
  let position token := referrerPolicies.findIdx? fun p ↦ eqIgnoreAsciiCase p.toList (trim token)
  match (value.splitOn ',').reverse.findSome? position with
  | some i => referrerPolicies.length - i
  | none => 0

/-! ## Strict-Transport-Security -/

/-- A transport-security value as a browser reads it. -/
structure Hsts where
  maxAge : ℕ
  includeSubdomains : Bool
  preload : Bool
deriving DecidableEq, Repr

/-- What has been read of a transport-security value so far. -/
structure HstsReader where
  seen : List (List Char) := []
  maxAge : Option ℕ := none
  includeSubdomains : Bool := false
  preload : Bool := false

/-- The number a `max-age` argument gives, cut off at the largest 64-bit one. Quotes around it are
optional. -/
def parseMaxAge (arg : List Char) : Option ℕ :=
  let digits :=
    if arg.head? = some '"' ∧ arg.tail.getLast? = some '"' then arg.tail.dropLast else arg
  if digits = [] ∨ ¬digits.all Char.isDigit then none
  else some (min (digits.foldl (fun n c ↦ 10 * n + (c.toNat - '0'.toNat)) 0) (2 ^ 64 - 1))

def HstsReader.read (r : HstsReader) (directive : List Char) : Option HstsReader :=
  let (name, arg) :=
    match splitOnce ['='] directive with
    | some (name, arg) => (trim name, some (trim arg))
    | none => (directive, none)
  let name := asciiLower name
  if name ∈ r.seen then none
  else
    let r := { r with seen := r.seen ++ [name] }
    if name = "max-age".toList then
      (arg.bind parseMaxAge).map fun n ↦ { r with maxAge := some n }
    else if name = "includesubdomains".toList then some { r with includeSubdomains := true }
    else if name = "preload".toList then some { r with preload := true }
    else some r

/-- Read a transport-security value; `none` if a browser ignores it. -/
def parseHsts (value : List Char) : Option Hsts :=
  let directives := ((value.splitOn ';').map trim).filter (· ≠ [])
  match directives.foldlM HstsReader.read {} with
  | none => none
  | some r => r.maxAge.map fun n ↦ ⟨n, r.includeSubdomains, r.preload⟩

/-- The longer age, and every extension one of the values has. -/
def hstsUnion (earlier later : List Char) : List Char :=
  match parseHsts earlier, parseHsts later with
  | some a, some b =>
    "max-age=".toList ++ (toString (max a.maxAge b.maxAge)).toList ++
      (if a.includeSubdomains || b.includeSubdomains then "; includeSubDomains".toList else []) ++
      (if (a.includeSubdomains && a.preload) || (b.includeSubdomains && b.preload) then
        "; preload".toList else [])
  | some _, none => earlier
  | none, _ => later

/-! ## Permissions-Policy -/

inductive Allowlist
  | all
  | only (items : List (List Char))
deriving DecidableEq, Repr

def Allowlist.ofItems (items : List (List Char)) : Allowlist :=
  if ['*'] ∈ items then .all else .only items

structure Permission where
  feature : List Char
  allowlist : Allowlist
deriving DecidableEq, Repr

def Permission.intersect (p : Permission) (other : Allowlist) : List Char :=
  let allowlist :=
    match p.allowlist, other with
    | .all, list => list
    | list, .all => list
    | .only a, .only b => .only (a.filter (· ∈ b))
  match allowlist with
  | .all => p.feature ++ "=*".toList
  | .only items => p.feature ++ "=(".toList ++ join [' '] items ++ [')']

def isKeyChar (c : Char) : Bool := c.isLower || c.isDigit || c ∈ ['_', '-', '.', '*']

def parseKey : List Char → Option (List Char × List Char)
  | [] => none
  | c :: s =>
    if c.isLower || c = '*' then some (c :: s.takeWhile isKeyChar, s.dropWhile isKeyChar) else none

/-- Read a string up to and including its closing quote. -/
def parseString : List Char → Option (List Char × List Char)
  | [] => none
  | c :: s =>
    if c = '\\' then
      match s with
      | [] => none
      | b :: s =>
        if b = '"' ∨ b = '\\' then (parseString s).map fun tr ↦ (c :: b :: tr.1, tr.2) else none
    else if c = '"' then some ([c], s)
    else if ' ' ≤ c ∧ c ≤ '~' then (parseString s).map fun tr ↦ (c :: tr.1, tr.2)
    else none

/-- Read a string, token, number, boolean or byte sequence as it is written. -/
def parseBareItem : List Char → Option (List Char × List Char)
  | [] => none
  | c :: s =>
    if c = '"' then (parseString s).map fun tr ↦ (c :: tr.1, tr.2)
    else if c.isAlpha || c = '*' then
      let p c := isTchar c || c = ':' || c = '/'
      some (c :: s.takeWhile p, s.dropWhile p)
    else if c.isDigit || c = '-' then
      let p c := c.isDigit || c = '.'
      some (c :: s.takeWhile p, s.dropWhile p)
    else if c = '?' then
      match s with
      | [] => none
      | b :: s => if b = '0' ∨ b = '1' then some ([c, b], s) else none
    else if c = ':' then
      let p c := c.isAlphanum || c ∈ ['+', '/', '=']
      match s.dropWhile p with
      | [] => none
      | b :: r => if b = ':' then some (c :: (s.takeWhile p ++ [b]), r) else none
    else none

/-- Skip the parameters of an item, at most `fuel` of them. -/
def parseParams : ℕ → List Char → Option (List Char)
  | 0, _ => none
  | fuel + 1, s =>
    if s.head? = some ';' then
      match parseKey (s.tail.dropWhile (· = ' ')) with
      | none => none
      | some (_, s) =>
        if s.head? = some '=' then
          match parseBareItem s.tail with
          | none => none
          | some (_, s) => parseParams fuel s
        else parseParams fuel s
    else some s

/-- Read the items of an inner list after its opening bracket, in at most `fuel` rounds. -/
def parseInnerList : ℕ → List (List Char) → List Char → Option (List (List Char) × List Char)
  | 0, _, _ => none
  | fuel + 1, items, s =>
    let s := s.dropWhile (· = ' ')
    if s = [] then none
    else if s.head? = some ')' then
      (parseParams (s.length + 1) s.tail).map fun s ↦ (items, s)
    else
      match parseBareItem s with
      | none => none
      | some (item, s) =>
        match parseParams (s.length + 1) s with
        | none => none
        | some s =>
          if s.head? = some ' ' ∨ s.head? = some ')' then
            parseInnerList fuel (items ++ [item]) s
          else none

def parseItems (s : List Char) : Option (List (List Char) × List Char) :=
  if s.head? = some '=' then
    let s := s.tail
    if s.head? = some '(' then parseInnerList (s.length + 1) [] s.tail
    else
      match parseBareItem s with
      | none => none
      | some (item, s) => (parseParams (s.length + 1) s).map fun s ↦ ([item], s)
  else (parseParams (s.length + 1) s).map fun s ↦ ([], s)

def putMember (out : List Permission) (m : Permission) : List Permission :=
  if out.any fun n ↦ n.feature = m.feature then
    out.map fun n ↦ if n.feature = m.feature then m else n
  else out ++ [m]

def isBlank (c : Char) : Bool := c = ' ' || c = '\t'

/-- Read the members of a permissions value, in at most `fuel` rounds. -/
def parseMembers : ℕ → List Permission → List Char → Option (List Permission)
  | 0, _, _ => none
  | fuel + 1, out, s =>
    if s = [] then some out
    else
      match parseKey s with
      | none => none
      | some (feature, s) =>
        match parseItems s with
        | none => none
        | some (items, s) =>
          let out := putMember out ⟨feature, .ofItems items⟩
          match s.dropWhile isBlank with
          | [] => some out
          | c :: s =>
            if c ≠ ',' then none
            else if s.dropWhile isBlank = [] then none
            else parseMembers fuel out (s.dropWhile isBlank)

/-- Read a permissions value; `none` if it is not a dictionary. -/
def parsePermissions (value : List Char) : Option (List Permission) :=
  parseMembers (value.length + 1) [] (value.dropWhile isBlank)

/-- The intersection of two permissions values, feature by feature. A feature that only one of them
names is intersected with `self`. -/
def permissionsIntersection (earlier later : List Char) : List Char :=
  match parsePermissions earlier, parsePermissions later with
  | some a, some b =>
    let default : Allowlist := .only ["self".toList]
    let ofA := a.map fun m ↦
      m.intersect (((b.find? fun n ↦ n.feature = m.feature).map (·.allowlist)).getD default)
    let ofB := (b.filter fun m ↦ ¬a.any fun n ↦ n.feature = m.feature).map (·.intersect default)
    join ", ".toList (ofA ++ ofB)
  | some _, none => earlier
  | none, _ => later

/-- The combination of an earlier and a later value of a header, or `none` if the later value
simply replaces the earlier. -/
def combine (lowerName earlier later : List Char) : Option (List Char) :=
  if lowerName = "content-security-policy".toList then some (cspUnion earlier later)
  else if lowerName = "x-frame-options".toList then
    some (stricter xFrameOptionsRank earlier later)
  else if lowerName = "x-content-type-options".toList then
    some (stricter (fun v ↦ (isNosniff v).toNat) earlier later)
  else if lowerName = "referrer-policy".toList then some (stricter referrerRank earlier later)
  else if lowerName = "strict-transport-security".toList then some (hstsUnion earlier later)
  else if lowerName = "permissions-policy".toList then some (permissionsIntersection earlier later)
  else none

/-! ## The readers return pieces of the text they read -/

theorem parseKey_subset {s k r : List Char} (h : parseKey s = some (k, r)) : k ⊆ s ∧ r ⊆ s := by
  cases s with
  | nil => cases h
  | cons c s =>
    rw [parseKey] at h
    split at h
    · obtain ⟨rfl, rfl⟩ := Prod.mk.inj (Option.some.inj h)
      exact ⟨cons_subset_cons c (takeWhile_subset _),
        subset_cons_of_subset c (dropWhile_subset _)⟩
    · cases h

theorem parseString_subset {s t r : List Char} (h : parseString s = some (t, r)) :
    t ⊆ s ∧ r ⊆ s := by
  fun_induction parseString s generalizing t with
  | case1 => cases h
  | case2 => cases h
  | case3 b s hb ih =>
    obtain ⟨⟨t', r'⟩, h', heq⟩ := Option.map_eq_some_iff.mp h
    obtain ⟨rfl, rfl⟩ := Prod.mk.inj heq
    obtain ⟨ht, hr⟩ := ih h'
    exact ⟨cons_subset_cons _ (cons_subset_cons _ ht),
      subset_cons_of_subset _ (subset_cons_of_subset _ hr)⟩
  | case4 => cases h
  | case5 s =>
    obtain ⟨rfl, rfl⟩ := Prod.mk.inj (Option.some.inj h)
    exact ⟨cons_subset_cons _ (nil_subset _), subset_cons_self _ _⟩
  | case6 c s _ _ _ ih =>
    obtain ⟨⟨t', r'⟩, h', heq⟩ := Option.map_eq_some_iff.mp h
    obtain ⟨rfl, rfl⟩ := Prod.mk.inj heq
    obtain ⟨ht, hr⟩ := ih h'
    exact ⟨cons_subset_cons _ ht, subset_cons_of_subset _ hr⟩
  | case7 => cases h

theorem parseBareItem_subset {s t r : List Char} (h : parseBareItem s = some (t, r)) :
    t ⊆ s ∧ r ⊆ s := by
  have htake (c : Char) (p : Char → Bool) (s : List Char) :
      c :: s.takeWhile p ⊆ c :: s ∧ s.dropWhile p ⊆ c :: s :=
    ⟨cons_subset_cons c (takeWhile_subset _),
      subset_cons_of_subset c (dropWhile_subset _)⟩
  cases s with
  | nil => cases h
  | cons c s =>
    rw [parseBareItem.eq_def] at h
    dsimp only at h
    split at h
    · obtain ⟨⟨t', r'⟩, h', heq⟩ := Option.map_eq_some_iff.mp h
      obtain ⟨rfl, rfl⟩ := Prod.mk.inj heq
      obtain ⟨ht, hr⟩ := parseString_subset h'
      exact ⟨cons_subset_cons _ ht, subset_cons_of_subset _ hr⟩
    split at h
    · obtain ⟨rfl, rfl⟩ := Prod.mk.inj (Option.some.inj h)
      exact htake c _ s
    split at h
    · obtain ⟨rfl, rfl⟩ := Prod.mk.inj (Option.some.inj h)
      exact htake c _ s
    split at h
    · split at h; · cases h
      split at h
      · obtain ⟨rfl, rfl⟩ := Prod.mk.inj (Option.some.inj h)
        exact ⟨cons_subset_cons _ (cons_subset_cons _ (nil_subset _)),
          subset_cons_of_subset _ (subset_cons_self _ _)⟩
      · cases h
    split at h
    · split at h; · cases h
      next b r' hdrop =>
        split at h
        · obtain ⟨rfl, rfl⟩ := Prod.mk.inj (Option.some.inj h)
          have hb : b :: r' ⊆ s := hdrop ▸ dropWhile_subset _
          refine ⟨cons_subset_cons _ (append_subset.mpr ⟨takeWhile_subset _, ?_⟩),
            subset_cons_of_subset _ (fun x hx ↦ hb (mem_cons_of_mem b hx))⟩
          exact cons_subset.mpr ⟨hb mem_cons_self, nil_subset _⟩
        · cases h
    · cases h

theorem parseParams_subset {fuel : ℕ} {s r : List Char} (h : parseParams fuel s = some r) :
    r ⊆ s := by
  induction fuel generalizing s with
  | zero => cases h
  | succ fuel ih =>
    rw [parseParams] at h
    split at h
    · split at h; · cases h
      next s1 hkey =>
        have h1 : s1 ⊆ s :=
          List.Subset.trans (parseKey_subset hkey).2
            (List.Subset.trans (dropWhile_subset _) (tail_subset s))
        split at h
        · split at h; · cases h
          next s2 hitem =>
            have h2 : s2 ⊆ s1 :=
              List.Subset.trans (parseBareItem_subset hitem).2 (tail_subset s1)
            exact List.Subset.trans (ih h) (List.Subset.trans h2 h1)
        · exact List.Subset.trans (ih h) h1
    · exact Option.some.inj h ▸ List.Subset.refl s

theorem parseInnerList_subset {fuel : ℕ} {items out : List (List Char)} {s r t : List Char}
    (h : parseInnerList fuel items s = some (out, r)) (hs : s ⊆ t) (hitems : ∀ i ∈ items, i ⊆ t) :
    (∀ i ∈ out, i ⊆ t) ∧ r ⊆ t := by
  induction fuel generalizing items s with
  | zero => cases h
  | succ fuel ih =>
    rw [parseInnerList] at h
    have hdrop : s.dropWhile (· = ' ') ⊆ t := List.Subset.trans (dropWhile_subset _) hs
    split at h; · cases h
    split at h
    · obtain ⟨r', hr', heq⟩ := Option.map_eq_some_iff.mp h
      obtain ⟨rfl, rfl⟩ := Prod.mk.inj heq
      refine ⟨hitems, List.Subset.trans (parseParams_subset hr') ?_⟩
      exact List.Subset.trans (tail_subset _) hdrop
    · split at h; · cases h
      next item s1 hitem =>
        obtain ⟨hi, h1⟩ := parseBareItem_subset hitem
        split at h; · cases h
        next s2 hparams =>
          split at h
          · refine ih h (List.Subset.trans (parseParams_subset hparams)
              (List.Subset.trans h1 hdrop)) ?_
            intro i hmem
            rcases mem_append.mp hmem with hmem | hmem
            · exact hitems i hmem
            · rw [mem_singleton.mp hmem]
              exact List.Subset.trans hi hdrop
          · cases h

theorem parseItems_subset {items : List (List Char)} {s r : List Char}
    (h : parseItems s = some (items, r)) : (∀ i ∈ items, i ⊆ s) ∧ r ⊆ s := by
  rw [parseItems] at h
  split at h
  · dsimp only at h
    split at h
    · exact parseInnerList_subset h (List.Subset.trans (tail_subset _) (tail_subset _))
        (fun i hi ↦ absurd hi not_mem_nil)
    · split at h; · cases h
      next item s1 hitem =>
        obtain ⟨hi, h1⟩ := parseBareItem_subset hitem
        obtain ⟨r', hr', heq⟩ := Option.map_eq_some_iff.mp h
        obtain ⟨rfl, rfl⟩ := Prod.mk.inj heq
        refine ⟨fun i hmem ↦ ?_, List.Subset.trans (parseParams_subset hr')
          (List.Subset.trans h1 (tail_subset s))⟩
        rw [mem_singleton.mp hmem]
        exact List.Subset.trans hi (tail_subset s)
  · obtain ⟨r', hr', heq⟩ := Option.map_eq_some_iff.mp h
    obtain ⟨rfl, rfl⟩ := Prod.mk.inj heq
    exact ⟨fun i hi ↦ absurd hi not_mem_nil, parseParams_subset hr'⟩

/-- A member whose feature and items are pieces of a text. -/
structure Permission.From (m : Permission) (t : List Char) : Prop where
  feature : m.feature ⊆ t
  items : ∀ items, m.allowlist = .only items → ∀ i ∈ items, i ⊆ t

theorem mem_putMember {out : List Permission} {m n : Permission} (h : n ∈ putMember out m) :
    n = m ∨ n ∈ out := by
  rw [putMember] at h
  split at h
  · obtain ⟨n', hn', heq⟩ := mem_map.mp h
    split at heq
    · exact Or.inl heq.symm
    · exact Or.inr (heq ▸ hn')
  · rcases mem_append.mp h with h | h
    · exact Or.inr h
    · exact Or.inl (mem_singleton.mp h)

theorem parseMembers_from {fuel : ℕ} {out ms : List Permission} {s t : List Char}
    (h : parseMembers fuel out s = some ms) (hs : s ⊆ t) (hout : ∀ m ∈ out, m.From t) :
    ∀ m ∈ ms, m.From t := by
  induction fuel generalizing out s with
  | zero => cases h
  | succ fuel ih =>
    rw [parseMembers] at h
    split at h; · exact Option.some.inj h ▸ hout
    split at h; · cases h
    next feature s1 hkey =>
      obtain ⟨hf, h1⟩ := parseKey_subset hkey
      split at h; · cases h
      next items s2 hitems =>
        obtain ⟨hi, h2⟩ := parseItems_subset hitems
        have hs1 : s1 ⊆ t := List.Subset.trans h1 hs
        have hs2 : s2 ⊆ t := List.Subset.trans h2 hs1
        have hput : ∀ m ∈ putMember out ⟨feature, .ofItems items⟩, m.From t := by
          intro m hm
          rcases mem_putMember hm with rfl | hm
          · refine ⟨List.Subset.trans hf hs, fun items' heq i hmem ↦ ?_⟩
            rw [Allowlist.ofItems] at heq
            split at heq
            · cases heq
            · cases heq
              exact List.Subset.trans (hi i hmem) hs1
          · exact hout m hm
        dsimp only at h
        split at h
        · exact Option.some.inj h ▸ hput
        next c s3 hdrop =>
          have hs3 : s3 ⊆ t := by
            have : c :: s3 ⊆ s2 := hdrop ▸ dropWhile_subset _
            exact fun x hx ↦ hs2 (this (mem_cons_of_mem c hx))
          split at h; · cases h
          split at h; · cases h
          exact ih h (List.Subset.trans (dropWhile_subset _) hs3) hput

/-! ## Combinations can be sent if the values can -/

theorem isFieldValue_iff {v : List Char} :
    isFieldValue v = true ↔ ∀ c ∈ v, isFieldChar c = true := all_eq_true

theorem isFieldValue_of_subset {v w : List Char} (hw : isFieldValue w = true) (h : v ⊆ w) :
    isFieldValue v = true :=
  isFieldValue_iff.mpr fun c hc ↦ isFieldValue_iff.mp hw c (h hc)

theorem isFieldValue_append {v w : List Char} (hv : isFieldValue v = true)
    (hw : isFieldValue w = true) : isFieldValue (v ++ w) = true := by
  rw [isFieldValue, all_append, Bool.and_eq_true]
  exact ⟨hv, hw⟩

theorem isFieldValue_join {sep : List Char} {l : List (List Char)} (hsep : isFieldValue sep = true)
    (h : ∀ x ∈ l, isFieldValue x = true) : isFieldValue (join sep l) = true :=
  isFieldValue_iff.mpr
    (forall_mem_join (isFieldValue_iff.mp hsep) fun x hx ↦ isFieldValue_iff.mp (h x hx))

theorem isFieldValue_collapse {policy : List Char} (h : isFieldValue policy = true) :
    isFieldValue (collapse policy) = true := by
  refine isFieldValue_join (by decide) fun x hx ↦ isFieldValue_of_subset h ?_
  exact mem_of_mem_splitOnP (mem_filter.mp hx).1

theorem mem_foldl_pushNew {l acc : List (List Char)} {x : List Char} :
    x ∈ l.foldl (fun ps p ↦ if p = [] then ps else pushNew ps p) acc ↔
      x ∈ acc ∨ x ∈ l ∧ x ≠ [] := by
  induction l generalizing acc with
  | nil => simp only [foldl_nil, not_mem_nil, false_and, or_false]
  | cons p l ih =>
    have hstep : x ∈ (if p = [] then acc else pushNew acc p) ↔ x ∈ acc ∨ x = p ∧ x ≠ [] := by
      unfold pushNew
      split_ifs with hp hmem
      · exact ⟨Or.inl, fun h ↦ h.resolve_right fun h ↦ h.2 (h.1.trans hp)⟩
      · exact ⟨Or.inl, fun h ↦ h.elim id fun h ↦ h.1 ▸ hmem⟩
      · rw [mem_append, mem_singleton]
        exact or_congr_right ⟨fun h ↦ ⟨h, h ▸ hp⟩, And.left⟩
    rw [foldl_cons, ih, hstep, mem_cons, or_and_right, or_assoc]

theorem isFieldValue_cspUnion {a b : List Char} (ha : isFieldValue a = true)
    (hb : isFieldValue b = true) : isFieldValue (cspUnion a b) = true := by
  refine isFieldValue_join (by decide) fun x hx ↦ ?_
  have hx := (mem_foldl_pushNew.mp hx).resolve_left not_mem_nil
  obtain ⟨policy, hp, rfl⟩ := mem_map.mp hx.1
  refine isFieldValue_collapse ?_
  rcases mem_append.mp hp with hp | hp
  · exact isFieldValue_of_subset ha (mem_of_mem_splitOn hp)
  · exact isFieldValue_of_subset hb (mem_of_mem_splitOn hp)

theorem isFieldValue_stricter {rank : List Char → ℕ} {a b : List Char} (ha : isFieldValue a = true)
    (hb : isFieldValue b = true) : isFieldValue (stricter rank a b) = true := by
  rw [stricter]
  split
  · exact ha
  · exact hb

theorem isFieldValue_hstsUnion {a b : List Char} (ha : isFieldValue a = true)
    (hb : isFieldValue b = true) : isFieldValue (hstsUnion a b) = true := by
  rw [hstsUnion]
  split
  · refine isFieldValue_append (isFieldValue_append (isFieldValue_append (by decide) ?_) ?_) ?_
    · refine isFieldValue_iff.mpr fun c hc ↦ isFieldChar_of_isDigit ?_
      rw [Nat.toString_eq_repr, Nat.toList_repr] at hc
      exact Nat.isDigit_of_mem_toDigits (by decide) (by decide) hc
    · split
      · decide
      · decide
    · split
      · decide
      · decide
  · exact ha
  · exact hb

theorem isFieldValue_intersect {m : Permission} {t : List Char} (hm : m.From t)
    (ht : isFieldValue t = true) (other : Allowlist)
    (ho : ∀ items, other = .only items → ∀ i ∈ items, isFieldValue i = true) :
    isFieldValue (m.intersect other) = true := by
  have hf := isFieldValue_of_subset ht hm.feature
  have hitems (items : List (List Char)) (h : ∀ i ∈ items, isFieldValue i = true) :
      isFieldValue (m.feature ++ "=(".toList ++ join [' '] items ++ [')']) = true :=
    isFieldValue_append (isFieldValue_append (isFieldValue_append hf (by decide))
      (isFieldValue_join (by decide) h)) (by decide)
  have hown (items : List (List Char)) (h : m.allowlist = .only items) :
      ∀ i ∈ items, isFieldValue i = true :=
    fun i hi ↦ isFieldValue_of_subset ht (hm.items items h i hi)
  unfold Permission.intersect
  cases hl : m.allowlist with
  | all =>
    cases other with
    | all => exact isFieldValue_append hf (by decide)
    | only b => exact hitems b (ho b rfl)
  | only a =>
    cases other with
    | all => exact hitems a (hown a hl)
    | only b => exact hitems _ fun i hi ↦ hown a hl i (mem_filter.mp hi).1

theorem isFieldValue_permissionsIntersection {a b : List Char} (ha : isFieldValue a = true)
    (hb : isFieldValue b = true) : isFieldValue (permissionsIntersection a b) = true := by
  have hfrom {v : List Char} {ms : List Permission} (h : parsePermissions v = some ms) :
      ∀ m ∈ ms, m.From v :=
    parseMembers_from h (dropWhile_subset _) fun m hm ↦ absurd hm not_mem_nil
  have hself : ∀ items, Allowlist.only ["self".toList] = .only items →
      ∀ i ∈ items, isFieldValue i = true := by
    intro items h i hi
    cases h
    rw [mem_singleton.mp hi]
    decide
  rw [permissionsIntersection]
  split
  · next ms ns hms hns =>
    refine isFieldValue_join (by decide) fun x hx ↦ ?_
    rcases mem_append.mp hx with hx | hx
    · obtain ⟨m, hm, rfl⟩ := mem_map.mp hx
      refine isFieldValue_intersect (hfrom hms m hm) ha _ ?_
      cases hfind : ns.find? fun n ↦ n.feature = m.feature with
      | none => exact hself
      | some n =>
        intro items h i hi
        exact isFieldValue_of_subset hb
          ((hfrom hns n (List.mem_of_find?_eq_some hfind)).items items h i hi)
    · obtain ⟨n, hn, rfl⟩ := mem_map.mp hx
      exact isFieldValue_intersect (hfrom hns n (mem_filter.mp hn).1) hb _ hself
  · exact ha
  · exact hb

/-- **A combination of two values that can be sent can be sent.** -/
theorem isFieldValue_combine {name a b v : List Char} (ha : isFieldValue a = true)
    (hb : isFieldValue b = true) (h : combine name a b = some v) : isFieldValue v = true := by
  unfold combine at h
  split_ifs at h
  · exact Option.some.inj h ▸ isFieldValue_cspUnion ha hb
  · exact Option.some.inj h ▸ isFieldValue_stricter ha hb
  · exact Option.some.inj h ▸ isFieldValue_stricter ha hb
  · exact Option.some.inj h ▸ isFieldValue_stricter ha hb
  · exact Option.some.inj h ▸ isFieldValue_hstsUnion ha hb
  · exact Option.some.inj h ▸ isFieldValue_permissionsIntersection ha hb

end WaferRun.RestrictiveHeaders
