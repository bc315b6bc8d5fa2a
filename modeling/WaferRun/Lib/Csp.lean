import WaferRun.Lib.Text

/-!
# Content security policies as a browser reads them

The value of a `Content-Security-Policy` header is a list of policies with commas between them. A
policy is a list of directives with semicolons between them, and a directive is a name, in any case
of its letters, and the sources after it (`read`). Of several directives of one name only the first
counts (`sourcesOf`).

A source is read by the grammar of the specification (`SourceExpression`): a quoted keyword, nonce
or hash, a scheme, or a host that may come with a scheme, a port and a path. No text is two of these
(`reads_unique`).

A reference in a policy is resolved against the page. A browser first drops some characters, and it
takes a backslash for a slash (`resolve`).
-/

open List

namespace Csp

open Text

/-! ## Words -/

def isSpace (c : Char) : Bool :=
  c = ' ' || c = '\t' || c = '\n' || c = '\x0c' || c = '\r'

def words (text : List Char) : List (List Char) := (text.splitOnP isSpace).filter (· ≠ [])

theorem words_space_cons (text : List Char) : words (' ' :: text) = words text := by
  rw [words, splitOnP_cons_eq_if_modifyHead, if_pos (by decide)]
  exact filter_cons_of_neg (by simp)

theorem words_of_forall {w : List Char} (hne : w ≠ []) (hw : ∀ c ∈ w, isSpace c = false) :
    words w = [w] := by
  rw [words, splitOnP_eq_singleton hw]
  exact filter_cons_of_pos (by simpa using hne)

theorem words_append_space {w : List Char} (hne : w ≠ []) (hw : ∀ c ∈ w, isSpace c = false)
    (text : List Char) : words (w ++ ' ' :: text) = w :: words text := by
  rw [words, splitOnP_append_cons_of_forall_mem hw ' ' (by decide)]
  exact filter_cons_of_pos (by simpa using hne)

theorem words_join {ws : List (List Char)}
    (h : ∀ w ∈ ws, w ≠ [] ∧ ∀ c ∈ w, isSpace c = false) : words (join [' '] ws) = ws := by
  fun_induction join [' '] ws with
  | case1 => rfl
  | case2 w =>
    obtain ⟨hne, hw⟩ := h w mem_cons_self
    exact words_of_forall hne hw
  | case3 w ws _ ih =>
    obtain ⟨hne, hw⟩ := h w mem_cons_self
    rw [append_assoc, singleton_append, words_append_space hne hw,
      ih fun x hx ↦ h x (mem_cons_of_mem w hx)]

theorem of_mem_words {text w : List Char} (h : w ∈ words text) :
    w ≠ [] ∧ ∀ c ∈ w, isSpace c = false := by
  obtain ⟨hmem, hne⟩ := mem_filter.mp h
  exact ⟨of_decide_eq_true hne, not_sep_of_mem_splitOnP hmem⟩

/-! ## Tokens -/

def isVisible (c : Char) : Bool := 0x21 ≤ c.toNat && c.toNat ≤ 0x7e

/-- A word that may stand in a directive. -/
structure IsToken (w : List Char) : Prop where
  ne_nil : w ≠ []
  visible : ∀ c ∈ w, isVisible c = true
  no_comma : ',' ∉ w
  no_semicolon : ';' ∉ w

instance (w : List Char) : Decidable (IsToken w) :=
  decidable_of_iff (w ≠ [] ∧ (∀ c ∈ w, isVisible c = true) ∧ ',' ∉ w ∧ ';' ∉ w)
    ⟨fun ⟨h₁, h₂, h₃, h₄⟩ ↦ ⟨h₁, h₂, h₃, h₄⟩,
      fun h ↦ ⟨h.ne_nil, h.visible, h.no_comma, h.no_semicolon⟩⟩

theorem ne_of_isVisible {c d : Char} (hc : isVisible c = true) (hd : isVisible d = false) :
    c ≠ d := by
  rintro rfl
  rw [hc] at hd
  cases hd

theorem isSpace_of_isVisible {c : Char} (h : isVisible c = true) : isSpace c = false := by
  simp only [isSpace, Bool.or_eq_false_iff, decide_eq_false_iff_not]
  exact ⟨⟨⟨⟨ne_of_isVisible h (by decide), ne_of_isVisible h (by decide)⟩,
    ne_of_isVisible h (by decide)⟩, ne_of_isVisible h (by decide)⟩, ne_of_isVisible h (by decide)⟩

theorem isWhiteSpace_of_isVisible {c : Char} (h : isVisible c = true) :
    isWhiteSpace c = false := by
  simp only [isVisible, Bool.and_eq_true, decide_eq_true_eq] at h
  simp only [isWhiteSpace, Bool.or_eq_false_iff, Bool.and_eq_false_iff, decide_eq_false_iff_not]
  omega

theorem IsToken.isSpace {w : List Char} (h : IsToken w) : ∀ c ∈ w, isSpace c = false :=
  fun c hc ↦ isSpace_of_isVisible (h.visible c hc)

theorem IsToken.trimmed {w : List Char} (h : IsToken w) : Trimmed w :=
  ⟨fun c hc ↦ isWhiteSpace_of_isVisible (h.visible c (List.mem_of_mem_head? hc)),
    fun c hc ↦ isWhiteSpace_of_isVisible (h.visible c (List.mem_of_getLast? hc))⟩

theorem ne_nil_and_trimmed_join {ws : List (List Char)} (h : ∀ w ∈ ws, IsToken w) (hne : ws ≠ []) :
    join [' '] ws ≠ [] ∧ Trimmed (join [' '] ws) := by
  fun_induction join [' '] ws with
  | case1 => exact absurd rfl hne
  | case2 w => exact ⟨(h w mem_cons_self).ne_nil, (h w mem_cons_self).trimmed⟩
  | case3 w ws hws ih =>
    have hw := h w mem_cons_self
    obtain ⟨hjoin, htrim⟩ := ih (fun x hx ↦ h x (mem_cons_of_mem w hx)) hws
    exact ⟨append_ne_nil_of_right_ne_nil _ hjoin,
      hw.trimmed.append htrim hw.ne_nil hjoin⟩

/-! ## Policies -/

structure Directive where
  name : List Char
  sources : List (List Char)
deriving DecidableEq, Repr

def policies (value : List Char) : List (List Char) := value.splitOn ','

/-- The directive between two semicolons, if there is one. -/
def readDirective (text : List Char) : Option Directive :=
  match words text with
  | [] => none
  | name :: sources => some ⟨asciiLower name, sources⟩

def read (policy : List Char) : List Directive := (policy.splitOn ';').filterMap readDirective

def sourcesOf (ds : List Directive) (name : List Char) : Option (List (List Char)) :=
  (ds.find? (·.name = name)).map (·.sources)

namespace Directive

def print (d : Directive) : List Char := join [' '] (d.name :: d.sources)

structure Plain (d : Directive) : Prop where
  name : IsToken d.name
  lower : asciiLower d.name = d.name
  sources : ∀ s ∈ d.sources, IsToken s

instance (d : Directive) : Decidable d.Plain :=
  decidable_of_iff (IsToken d.name ∧ asciiLower d.name = d.name ∧ ∀ s ∈ d.sources, IsToken s)
    ⟨fun ⟨h₁, h₂, h₃⟩ ↦ ⟨h₁, h₂, h₃⟩, fun h ↦ ⟨h.name, h.lower, h.sources⟩⟩

theorem Plain.isToken {d : Directive} (h : d.Plain) : ∀ w ∈ d.name :: d.sources, IsToken w :=
  forall_mem_cons.mpr ⟨h.name, h.sources⟩

theorem Plain.print_chars {d : Directive} (h : d.Plain) :
    ∀ c ∈ d.print, (isVisible c = true ∨ c = ' ') ∧ c ≠ ',' ∧ c ≠ ';' := by
  refine forall_mem_join (fun c hc ↦ ?_) fun w hw c hc ↦ ?_
  · rw [mem_singleton.mp hc]
    exact ⟨.inr rfl, by decide, by decide⟩
  · have htoken := h.isToken w hw
    exact ⟨.inl (htoken.visible c hc), fun hcomma ↦ htoken.no_comma (hcomma ▸ hc),
      fun hsemi ↦ htoken.no_semicolon (hsemi ▸ hc)⟩

theorem Plain.not_semicolon {d : Directive} (h : d.Plain) : ';' ∉ d.print :=
  fun hmem ↦ (h.print_chars _ hmem).2.2 rfl

theorem Plain.words_print {d : Directive} (h : d.Plain) : words d.print = d.name :: d.sources :=
  words_join fun w hw ↦ ⟨(h.isToken w hw).ne_nil, (h.isToken w hw).isSpace⟩

theorem Plain.readDirective_print {d : Directive} (h : d.Plain) :
    readDirective d.print = some d := by
  simp only [readDirective, h.words_print, h.lower]

theorem readDirective_space_cons (text : List Char) :
    readDirective (' ' :: text) = readDirective text := by
  rw [readDirective, words_space_cons, readDirective]

theorem Plain.print_ne_nil {d : Directive} (h : d.Plain) : d.print ≠ [] :=
  (ne_nil_and_trimmed_join h.isToken (cons_ne_nil _ _)).1

theorem Plain.trimmed_print {d : Directive} (h : d.Plain) : Trimmed d.print :=
  (ne_nil_and_trimmed_join h.isToken (cons_ne_nil _ _)).2

end Directive

/-- The text of a policy. -/
def print (ds : List Directive) : List Char := join "; ".toList (ds.map Directive.print)

/-- The texts between the semicolons, without the white space around them. -/
def pieces (policy : List Char) : List (List Char) :=
  ((policy.splitOn ';').map trim).filter (· ≠ [])

theorem print_cons_cons (d e : Directive) (ds : List Directive) :
    print (d :: e :: ds) = d.print ++ ';' :: ' ' :: print (e :: ds) := by
  rw [print, map_cons, map_cons, join, append_assoc, ← map_cons]
  · rfl
  · exact cons_ne_nil _ _

theorem splitOn_print {d : Directive} {ds : List Directive} (h : ∀ e ∈ d :: ds, e.Plain) :
    (print (d :: ds)).splitOn ';' = d.print :: ds.map fun e ↦ ' ' :: e.print := by
  induction ds generalizing d with
  | nil =>
    rw [print, map_singleton, join,
      splitOn_eq_singleton (h d mem_cons_self).not_semicolon, map_nil]
  | cons e ds ih =>
    obtain ⟨hd, htail⟩ := forall_mem_cons.mp h
    rw [print_cons_cons, splitOn_append_cons_self_of_not_mem hd.not_semicolon,
      splitOn_cons_eq_if_modifyHead, if_neg (by decide), ih htail, modifyHead_cons,
      map_cons]

theorem read_print {ds : List Directive} (h : ∀ d ∈ ds, d.Plain) : read (print ds) = ds := by
  rcases ds with _ | ⟨d, ds⟩
  · rfl
  · obtain ⟨hd, htail⟩ := forall_mem_cons.mp h
    have hrest : ∀ e ∈ ds, readDirective (' ' :: e.print) = some e :=
      fun e he ↦ (Directive.readDirective_space_cons _).trans (htail e he).readDirective_print
    have htail' : (ds.map fun e ↦ ' ' :: e.print).filterMap readDirective = ds := by
      rw [filterMap_map]
      exact (filterMap_congr hrest).trans filterMap_some
    rw [read, splitOn_print h, filterMap_cons_some hd.readDirective_print, htail']

theorem pieces_print {ds : List Directive} (h : ∀ d ∈ ds, d.Plain) :
    pieces (print ds) = ds.map Directive.print := by
  rcases ds with _ | ⟨d, ds⟩
  · rfl
  · obtain ⟨hd, htail⟩ := forall_mem_cons.mp h
    have hblank : Blank [' '] := fun c hc ↦ mem_singleton.mp hc ▸ rfl
    have hrest : ∀ e ∈ ds, trim (' ' :: e.print) = e.print := fun e he ↦
      (trim_blank_append hblank e.print).trans (htail e he).trimmed_print.trim_eq
    have hmap : ((print (d :: ds)).splitOn ';').map trim = (d :: ds).map Directive.print := by
      rw [splitOn_print h, map_cons, hd.trimmed_print.trim_eq, map_map, map_cons]
      exact congrArg (d.print :: ·) (map_congr_left hrest)
    rw [pieces, hmap]
    refine filter_eq_self.mpr fun piece hpiece ↦ ?_
    obtain ⟨e, he, rfl⟩ := mem_map.mp hpiece
    exact decide_eq_true (h e he).print_ne_nil

/-! ## Sources -/

def IsScheme (s : List Char) : Prop :=
  ∃ c t, s = c :: t ∧ c.isAlpha = true ∧ ∀ d ∈ t, d.isAlphanum = true ∨ d ∈ ['+', '-', '.']

def IsHostName (s : List Char) : Prop :=
  ∀ label ∈ s.splitOn '.', label ≠ [] ∧ ∀ c ∈ label, c.isAlphanum = true ∨ c = '-'

def IsHostPattern (s : List Char) : Prop :=
  s = ['*'] ∨ (∃ t, s = '*' :: '.' :: t ∧ IsHostName t) ∨ IsHostName s

def IsPort (s : List Char) : Prop := s = ['*'] ∨ s ≠ [] ∧ ∀ c ∈ s, c.isDigit = true

def IsPath (s : List Char) : Prop := s = [] ∨ ∃ t, s = '/' :: t

def IsBase64Value (s : List Char) : Prop :=
  ∃ body n, s = body ++ List.replicate n '=' ∧ n ≤ 2 ∧ body ≠ [] ∧
    ∀ c ∈ body, c.isAlphanum = true ∨ c ∈ ['+', '/', '-', '_']

inductive SourceExpression
  /-- A keyword, a nonce or a hash, without its quotes. -/
  | quoted (inner : List Char)
  | scheme (scheme : List Char)
  | host (scheme : Option (List Char)) (host : List Char) (port : Option (List Char))
      (path : List Char)
deriving DecidableEq, Repr

namespace SourceExpression

def portText (port : Option (List Char)) (path : List Char) : List Char :=
  match port with
  | none => path
  | some port => ':' :: (port ++ path)

def text : SourceExpression → List Char
  | quoted inner => '\'' :: (inner ++ ['\''])
  | scheme s => s ++ [':']
  | host none h port path => h ++ portText port path
  | host (some s) h port path => s ++ (':' :: '/' :: '/' :: (h ++ portText port path))

/-- The parts are those of the grammar. -/
inductive Valid : SourceExpression → Prop
  | quoted (inner : List Char) : Valid (.quoted inner)
  | scheme {s : List Char} (hs : IsScheme s) : Valid (.scheme s)
  | host {s : Option (List Char)} {h path : List Char} {port : Option (List Char)}
      (hs : ∀ x ∈ s, IsScheme x) (hh : IsHostPattern h) (hport : ∀ x ∈ port, IsPort x)
      (hpath : IsPath path) : Valid (.host s h port path)

def Reads (source : List Char) (e : SourceExpression) : Prop :=
  e.Valid ∧ e.text = asciiLower source

end SourceExpression

/-! ### No source is two expressions

A scheme and a host are made of characters that are no colon, no slash and no quote, so each ends
where the next part begins. -/

theorem exists_mem_splitOn {s : List Char} {c d : Char} (hc : c ∈ s) (hne : c ≠ d) :
    ∃ piece ∈ s.splitOn d, c ∈ piece := by
  induction s with
  | nil => exact absurd hc not_mem_nil
  | cons e s ih =>
    rw [splitOn_cons_eq_if_modifyHead]
    obtain ⟨x, xs, hs⟩ := exists_cons_of_ne_nil (splitOn_ne_nil d s)
    rcases mem_cons.mp hc with rfl | hc
    · rw [if_neg (by simpa using hne), hs, modifyHead_cons]
      exact ⟨c :: x, mem_cons_self, mem_cons_self⟩
    · obtain ⟨piece, hpiece, hmem⟩ := ih hc
      split
      · exact ⟨piece, mem_cons_of_mem _ hpiece, hmem⟩
      · rw [hs] at hpiece ⊢
        rw [modifyHead_cons]
        rcases mem_cons.mp hpiece with rfl | hpiece
        · exact ⟨e :: piece, mem_cons_self, mem_cons_of_mem e hmem⟩
        · exact ⟨piece, mem_cons_of_mem _ hpiece, hmem⟩

def isPart (c : Char) : Bool := c.isAlphanum || c ∈ ['+', '-', '.', '*']

theorem isPart_of_isAlphanum {c : Char} (h : c.isAlphanum = true) : isPart c = true := by
  rw [isPart, h, Bool.true_or]

theorem isPart_of_mem {c : Char} (h : c ∈ ['+', '-', '.', '*']) : isPart c = true := by
  rw [isPart, decide_eq_true h, Bool.or_true]

theorem IsScheme.ne_nil_and_parts {s : List Char} (h : IsScheme s) :
    s ≠ [] ∧ ∀ c ∈ s, isPart c = true := by
  obtain ⟨c, t, rfl, hc, ht⟩ := h
  refine ⟨cons_ne_nil _ _, forall_mem_cons.mpr ⟨isPart_of_isAlphanum ?_, fun d hd ↦ ?_⟩⟩
  · rw [Char.isAlphanum, hc, Bool.true_or]
  · exact (ht d hd).elim isPart_of_isAlphanum fun h ↦ isPart_of_mem (by grind)

theorem IsHostName.ne_nil_and_parts {s : List Char} (h : IsHostName s) :
    s ≠ [] ∧ ∀ c ∈ s, isPart c = true := by
  constructor
  · rintro rfl
    exact (h [] mem_cons_self).1 rfl
  · intro c hc
    by_cases hdot : c = '.'
    · exact isPart_of_mem (by simp [hdot])
    · -- a character that is no dot stands in one of the labels
      obtain ⟨label, hlabel, hmem⟩ := exists_mem_splitOn hc hdot
      exact ((h label hlabel).2 c hmem).elim isPart_of_isAlphanum
        fun h ↦ isPart_of_mem (by simp [h])

theorem IsHostPattern.ne_nil_and_parts {s : List Char} (h : IsHostPattern s) :
    s ≠ [] ∧ ∀ c ∈ s, isPart c = true := by
  rcases h with rfl | ⟨t, rfl, ht⟩ | h
  · exact ⟨cons_ne_nil _ _, by decide⟩
  · refine ⟨cons_ne_nil _ _, fun c hc ↦ ?_⟩
    rcases mem_cons.mp hc with rfl | hc
    · decide
    · rcases mem_cons.mp hc with rfl | hc
      · decide
      · exact ht.ne_nil_and_parts.2 c hc
  · exact h.ne_nil_and_parts

theorem IsPort.ne_nil_and_parts {s : List Char} (h : IsPort s) :
    s ≠ [] ∧ ∀ c ∈ s, isPart c = true := by
  rcases h with rfl | ⟨hne, h⟩
  · exact ⟨cons_ne_nil _ _, by decide⟩
  · refine ⟨hne, fun c hc ↦ isPart_of_isAlphanum ?_⟩
    rw [Char.isAlphanum, h c hc, Bool.or_true]

theorem parts_unique {a b r s : List Char} (ha : ∀ c ∈ a, isPart c = true)
    (hb : ∀ c ∈ b, isPart c = true) (hr : ∀ c ∈ r.head?, isPart c = false)
    (hs : ∀ c ∈ s.head?, isPart c = false) (h : a ++ r = b ++ s) : a = b ∧ r = s := by
  have htake : ∀ {x y : List Char}, (∀ c ∈ x, isPart c = true) →
      (∀ c ∈ y.head?, isPart c = false) → (x ++ y).takeWhile isPart = x := by
    intro x y hx hy
    rw [takeWhile_append_of_pos hx]
    rcases y with _ | ⟨c, y⟩
    · rw [takeWhile_nil, append_nil]
    · rw [takeWhile_cons_of_neg (by rw [hy c rfl]; decide), append_nil]
  have heq : a = b := by rw [← htake ha hr, h, htake hb hs]
  exact ⟨heq, append_cancel_left (heq ▸ h)⟩

namespace SourceExpression

theorem head_portText {port : Option (List Char)} {path : List Char} (hpath : IsPath path) :
    ∀ c ∈ (portText port path).head?, isPart c = false := by
  intro c hc
  rcases port with _ | port
  · rcases hpath with rfl | ⟨t, rfl⟩
    · cases hc
    · cases hc
      decide
  · cases hc
    decide

theorem portText_unique {p q : Option (List Char)} {x y : List Char} (hp : ∀ s ∈ p, IsPort s)
    (hq : ∀ s ∈ q, IsPort s) (hx : IsPath x) (hy : IsPath y) (h : portText p x = portText q y) :
    p = q ∧ x = y := by
  have hhead {z : List Char} (hz : IsPath z) : ∀ c ∈ z.head?, isPart c = false :=
    @head_portText none _ hz
  have hne {z t : List Char} (hz : IsPath z) : z ≠ ':' :: t := by
    rcases hz with rfl | ⟨u, rfl⟩
    · exact nofun
    · exact fun h ↦ absurd (cons.inj h).1 (by decide)
  rcases p with _ | p <;> rcases q with _ | q
  · exact ⟨rfl, h⟩
  · exact absurd h (hne hx)
  · exact absurd h.symm (hne hy)
  · obtain ⟨hpq, hxy⟩ := parts_unique (hp p rfl).ne_nil_and_parts.2 (hq q rfl).ne_nil_and_parts.2
      (hhead hx) (hhead hy) (cons.inj h).2
    exact ⟨congrArg some hpq, hxy⟩

theorem portText_ne {port : Option (List Char)} {path : List Char} (hport : ∀ s ∈ port, IsPort s)
    (hpath : IsPath path) (t : List Char) :
    portText port path ≠ '\'' :: t ∧ portText port path ≠ [':'] ∧
      portText port path ≠ ':' :: '/' :: t := by
  have hhead {c d : Char} {u v : List Char} (hne : c ≠ d) : c :: u ≠ d :: v :=
    fun h ↦ hne (cons.inj h).1
  rcases port with _ | port
  · rcases hpath with rfl | ⟨u, rfl⟩
    · exact ⟨nofun, nofun, nofun⟩
    · exact ⟨hhead (by decide), hhead (by decide), hhead (by decide)⟩
  · obtain ⟨hne, hparts⟩ := (hport port rfl).ne_nil_and_parts
    obtain ⟨c, u, rfl⟩ := exists_cons_of_ne_nil hne
    refine ⟨hhead (by decide), fun h ↦ absurd (cons.inj h).2 nofun, fun h ↦ ?_⟩
    have hslash := hparts c mem_cons_self
    rw [(cons.inj (cons.inj h).2).1] at hslash
    exact absurd hslash (by decide)

/-- The scheme, or else the host, that an expression starts with. -/
def lead : SourceExpression → List Char
  | quoted _ => []
  | scheme s => s
  | host none h _ _ => h
  | host (some s) _ _ _ => s

/-- What follows the lead. -/
def rest : SourceExpression → List Char
  | quoted inner => '\'' :: (inner ++ ['\''])
  | scheme _ => [':']
  | host none _ port path => portText port path
  | host (some _) h port path => ':' :: '/' :: '/' :: (h ++ portText port path)

theorem text_eq (e : SourceExpression) : e.text = e.lead ++ e.rest := by
  rcases e with inner | s | ⟨_ | s, h, port, path⟩ <;> rfl

theorem Valid.lead_parts {e : SourceExpression} (h : e.Valid) : ∀ c ∈ e.lead, isPart c = true := by
  rcases h with inner | hs | @⟨_ | s, h, path, port, hs, hh, hport, hpath⟩
  · exact fun c hc ↦ absurd hc not_mem_nil
  · exact hs.ne_nil_and_parts.2
  · exact hh.ne_nil_and_parts.2
  · exact (hs s rfl).ne_nil_and_parts.2

theorem Valid.head_rest {e : SourceExpression} (h : e.Valid) :
    ∀ c ∈ e.rest.head?, isPart c = false := by
  have hcons : ∀ d t, isPart d = false → ∀ c ∈ (d :: t : List Char).head?, isPart c = false :=
    fun d t hd c hc ↦ Option.some.inj hc ▸ hd
  rcases h with inner | hs | @⟨_ | s, h, path, port, hs, hh, hport, hpath⟩
  · exact hcons _ _ (by decide)
  · exact hcons _ _ (by decide)
  · exact head_portText hpath
  · exact hcons _ _ (by decide)

/-- **The grammar is unambiguous.** -/
theorem Valid.eq_of_text_eq {e f : SourceExpression} (he : e.Valid) (hf : f.Valid)
    (heq : e.text = f.text) : e = f := by
  rw [text_eq, text_eq] at heq
  obtain ⟨hlead, hrest⟩ := parts_unique he.lead_parts hf.lead_parts he.head_rest hf.head_rest heq
  rcases he with inner | @⟨s, -⟩ | @⟨_ | s, h, path, port, -, hh, hport, hpath⟩
  · rcases hf with inner' | _ | @⟨_ | _, _, _, _, -, -, hport, hpath⟩
    · exact congrArg SourceExpression.quoted (append_cancel_right (cons.inj hrest).2)
    · exact absurd (cons.inj hrest).1 (by decide)
    · exact absurd hrest.symm (portText_ne hport hpath _).1
    · exact absurd (cons.inj hrest).1 (by decide)
  · rcases hf with _ | _ | @⟨_ | _, _, _, _, -, -, hport, hpath⟩
    · exact absurd (cons.inj hrest).1 (by decide)
    · exact congrArg SourceExpression.scheme hlead
    · exact absurd hrest.symm (portText_ne hport hpath []).2.1
    · exact absurd (cons.inj hrest).2 nofun
  · rcases hf with _ | _ | @⟨_ | _, h', path', port', -, -, hport', hpath'⟩
    · exact absurd hrest (portText_ne hport hpath _).1
    · exact absurd hrest (portText_ne hport hpath []).2.1
    · obtain ⟨hp, hpath⟩ := portText_unique hport hport' hpath hpath' hrest
      have hhost : h = h' := hlead
      rw [hhost, hp, hpath]
    · exact absurd hrest (portText_ne hport hpath _).2.2
  · rcases hf with _ | _ | @⟨_ | s', h', path', port', -, hh', hport', hpath'⟩
    · exact absurd (cons.inj hrest).1 (by decide)
    · exact absurd (cons.inj hrest).2 nofun
    · exact absurd hrest.symm (portText_ne hport' hpath' _).2.2
    · have hscheme : s = s' := hlead
      have hafter : h ++ portText port path = h' ++ portText port' path' :=
        (cons.inj (cons.inj (cons.inj hrest).2).2).2
      obtain ⟨hhost, hafter⟩ := parts_unique hh.ne_nil_and_parts.2 hh'.ne_nil_and_parts.2
        (head_portText hpath) (head_portText hpath') hafter
      obtain ⟨hp, hpath⟩ := portText_unique hport hport' hpath hpath' hafter
      rw [hscheme, hhost, hp, hpath]

/-- No source reads as two expressions. -/
theorem reads_unique {source : List Char} {e f : SourceExpression} (he : Reads source e)
    (hf : Reads source f) : e = f :=
  he.1.eq_of_text_eq hf.1 (he.2.trans hf.2.symm)

end SourceExpression

/-! ## References -/

inductive Target
  /-- A path of the page's own origin. -/
  | ownOrigin (path : List Char)
  /-- The host that the reference names, on the page's scheme. -/
  | authority (text : List Char)
  | absolute (scheme text : List Char)
deriving DecidableEq, Repr

/-- The characters a browser drops at the ends of a reference. -/
def isControlOrSpace (c : Char) : Bool := c.toNat ≤ 0x20

/-- The characters a browser drops anywhere in a reference. -/
def isTabOrNewline (c : Char) : Bool := c = '\t' || c = '\n' || c = '\r'

def strip (reference : List Char) : List Char :=
  ((reference.dropWhile isControlOrSpace).reverse.dropWhile isControlOrSpace).reverse.filter
    fun c ↦ !isTabOrNewline c

def isSlash (c : Char) : Bool := c = '/' || c = '\\'

/-- Where a reference without a scheme leads: two slashes start an authority. -/
def resolveRelative : List Char → Target
  | a :: b :: text =>
    if isSlash a && isSlash b then .authority text else .ownOrigin (a :: b :: text)
  | text => .ownOrigin text

instance : DecidablePred IsScheme
  | [] => .isFalse fun ⟨_, _, h, _⟩ ↦ nomatch h
  | c :: t =>
    decidable_of_iff (c.isAlpha = true ∧ ∀ d ∈ t, d.isAlphanum = true ∨ d ∈ ['+', '-', '.'])
      ⟨fun h ↦ ⟨c, t, rfl, h⟩,
        fun ⟨_, _, heq, h⟩ ↦ (cons.inj heq).1 ▸ (cons.inj heq).2 ▸ h⟩

/-- Where a reference leads on a page with the scheme `http` or `https`. -/
def resolve (pageScheme reference : List Char) : Target :=
  let reference := strip reference
  match splitOnce [':'] reference with
  | none => resolveRelative reference
  | some (scheme, text) =>
    if IsScheme scheme then
      if asciiLower scheme = pageScheme then resolveRelative text
      else .absolute (asciiLower scheme) text
    else resolveRelative reference

theorem strip_eq_self {reference : List Char} (h : ∀ c ∈ reference, isVisible c = true) :
    strip reference = reference := by
  have hends : ∀ c, isVisible c = true → isControlOrSpace c = false := by
    intro c hc
    simp only [isVisible, Bool.and_eq_true, decide_eq_true_eq] at hc
    simp only [isControlOrSpace, decide_eq_false_iff_not]
    omega
  have hstay (t : List Char) (ht : ∀ c ∈ t, isVisible c = true) :
      t.dropWhile isControlOrSpace = t := by
    rcases t with _ | ⟨c, t⟩
    · rfl
    · exact dropWhile_cons_of_neg (by rw [hends c (ht c mem_cons_self)]; decide)
  rw [strip, hstay _ h, hstay _ fun c hc ↦ h c (mem_reverse.mp hc), reverse_reverse]
  refine filter_eq_self.mpr fun c hc ↦ ?_
  simp only [isTabOrNewline, Bool.not_eq_true', Bool.or_eq_false_iff, decide_eq_false_iff_not]
  exact ⟨⟨ne_of_isVisible (h c hc) (by decide), ne_of_isVisible (h c hc) (by decide)⟩,
    ne_of_isVisible (h c hc) (by decide)⟩

theorem resolve_of_rooted (pageScheme : List Char) {text : List Char}
    (hvisible : ∀ c ∈ '/' :: text, isVisible c = true) (h : ∀ c ∈ text.head?, isSlash c = false) :
    resolve pageScheme ('/' :: text) = .ownOrigin ('/' :: text) := by
  have hrelative : resolveRelative ('/' :: text) = .ownOrigin ('/' :: text) := by
    rcases text with _ | ⟨c, text⟩
    · rfl
    · rw [resolveRelative, h c rfl, Bool.and_false]
      rfl
  unfold resolve
  rw [strip_eq_self hvisible]
  dsimp only
  split
  · exact hrelative
  · rename_i scheme rest hsplit
    rw [if_neg, hrelative]
    -- what stands before the first colon starts with the slash
    rintro ⟨c, t, rfl, hc, -⟩
    have htext := eq_of_splitOnce hsplit
    rw [append_assoc, cons_append] at htext
    rw [← (cons.inj htext).1] at hc
    exact absurd hc (by decide)

end Csp
