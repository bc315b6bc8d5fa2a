import WaferRun.Headers.MergeCsp

/-!
# Sources an operator may add

The rules for sources are hand-written readers. Whatever `scriptSourceRefusal` lets through is, by
the grammar of the specification, a harmless keyword, a nonce, a hash, or one host named in full
(`admitted_of_scriptSourceRefusal`), and what `reportUriRefusal` lets through a browser resolves to
the page's own origin (`staysOnOrigin_of_reportUriRefusal`).
-/

open List

namespace WaferRun.SecurityHeaders

open Text Csp

/-! ## Sources of script -/

/-- The keywords a script directive takes, without their quotes. -/
def keywords : List Word :=
  ["self".toList, "none".toList, "unsafe-inline".toList, "unsafe-hashes".toList,
    "strict-dynamic".toList, "wasm-unsafe-eval".toList, "report-sample".toList]

def Admissible : SourceExpression → Prop
  | .quoted inner =>
    inner ∈ keywords ∨ ∃ kind ∈ valueKinds, ∃ v, IsBase64Value v ∧ inner = kind ++ v
  | .scheme _ => False
  | .host scheme host _ _ => IsHostName host ∧ (scheme = none ∨ scheme = some "https".toList)

def Admitted (source : Word) : Prop :=
  (∃ e, SourceExpression.Reads source e) ∧ ∀ e, SourceExpression.Reads source e → Admissible e

theorem isScheme_iff {s : Word} : SecurityHeaders.isScheme s = true ↔ IsScheme s := by
  rcases s with _ | ⟨c, s⟩
  · constructor
    · intro h
      cases h
    · rintro ⟨_, _, h, -⟩
      cases h
  · simp [SecurityHeaders.isScheme, IsScheme, or_assoc]

theorem isHostLabels_iff {s : Word} : isHostLabels s = true ↔ IsHostName s := by
  simp only [isHostLabels, IsHostName, Bool.and_eq_true, decide_eq_true_eq, all_eq_true,
    Bool.or_eq_true, ne_eq]
  refine ⟨fun h ↦ h.2, fun h ↦ ⟨?_, h⟩⟩
  rintro rfl
  exact (h [] mem_cons_self).1 rfl

theorem of_dropPrefix_eq_some {l p s : Word} (h : l.dropPrefix? p = some s) : l = p ++ s := by
  obtain ⟨p', heq, hp⟩ := List.dropPrefix?_eq_some_iff.mp h
  rw [heq, beq_iff_eq.mp hp]

theorem of_dropSuffix_eq_some {l p s : Word} (h : l.dropSuffix? p = some s) : l = s ++ p := by
  obtain ⟨p', heq, hp⟩ := List.dropSuffix?_eq_some_iff.mp h
  rw [heq, beq_iff_eq.mp hp]

theorem isBase64Value_of_eq_true {v : Word} (h : isBase64Value v = true) : IsBase64Value v := by
  simp only [isBase64Value, Bool.and_eq_true, decide_eq_true_eq, all_eq_true,
    Bool.or_eq_true, ne_eq] at h
  obtain ⟨⟨hne, hlength⟩, hbody⟩ := h
  refine ⟨v.rdropWhile (· = '='), (v.rtakeWhile (· = '=')).length, ?_, ?_, hne, fun c hc ↦ ?_⟩
  · have hpad : ∀ c ∈ v.rtakeWhile (· = '='), c = '=' :=
      fun c hc ↦ of_decide_eq_true (mem_rtakeWhile_imp (p := (· = '=')) hc)
    rw [← eq_replicate_of_mem hpad, rdropWhile_append_rtakeWhile]
  · have hsplit := congrArg List.length (@rdropWhile_append_rtakeWhile _ (· = '=') v)
    rw [length_append] at hsplit
    omega
  · simpa [or_assoc] using hbody c hc

/-! ### Unquoted sources -/

theorem parseHost_eq_some {host : Word} {h : Host} (hparse : parseHost host = some h) :
    IsHostPattern host ∧ (h = .exact → IsHostName host) := by
  unfold parseHost at hparse
  split at hparse
  · rename_i heq
    exact ⟨.inl heq, fun hh ↦ absurd (hh ▸ Option.some.inj hparse) nofun⟩
  · split at hparse
    · rename_i suffix hsuffix
      split at hparse
      · rename_i hlabels
        exact ⟨.inr (.inl ⟨suffix, of_dropPrefix_eq_some hsuffix, isHostLabels_iff.mp hlabels⟩),
          fun hh ↦ absurd (hh ▸ Option.some.inj hparse) nofun⟩
      · cases hparse
    · split at hparse
      · rename_i hlabels
        exact ⟨.inr (.inr (isHostLabels_iff.mp hlabels)), fun _ ↦ isHostLabels_iff.mp hlabels⟩
      · cases hparse

theorem parsePort_eq_some {afterHost path : Word} (h : parsePort afterHost = some path) :
    ∃ port : Option Word, (∀ x ∈ port, IsPort x) ∧
      afterHost = SourceExpression.portText port path := by
  unfold parsePort at h
  split at h
  · rename_i portAndPath
    dsimp only at h
    split at h
    · cases h
    · rename_i hport
      refine ⟨some (portAndPath.takeWhile (· ≠ '/')), ?_, ?_⟩
      · rintro x hx
        obtain rfl := Option.some.inj hx
        simp only [Bool.and_eq_true, decide_eq_true_eq, Bool.or_eq_true, Bool.not_eq_true',
          not_and, not_or, Bool.not_eq_false, all_eq_true] at hport
        exact or_iff_not_imp_left.mpr hport
      · rw [← Option.some.inj h, SourceExpression.portText, takeWhile_append_dropWhile]
  · exact ⟨none, nofun, Option.some.inj h⟩

theorem parseHostSource_eq_host {scheme scheme' : Option Word} {rest : Word} {h : Host}
    (hparse : parseHostSource scheme rest = .host scheme' h) :
    scheme' = scheme ∧ ∃ host port path, IsHostPattern host ∧ (h = .exact → IsHostName host) ∧
      (∀ x ∈ port, IsPort x) ∧ IsPath path ∧
        rest = host ++ SourceExpression.portText port path := by
  unfold parseHostSource at hparse
  split at hparse
  · cases hparse
  · rename_i path hport
    split at hparse
    · rename_i hpath
      split at hparse
      · rename_i host hhost
        obtain ⟨rfl, rfl⟩ := Source.host.inj hparse
        obtain ⟨hpattern, hexact⟩ := parseHost_eq_some hhost
        obtain ⟨port, hport, hafter⟩ := parsePort_eq_some hport
        refine ⟨rfl, _, port, path, hpattern, hexact, hport, ?_, ?_⟩
        · rcases path with _ | ⟨c, path⟩
          · exact .inl rfl
          · simp only [Bool.or_eq_true, decide_eq_true_eq, List.head?_cons, Option.some.injEq,
              reduceCtorEq, false_or] at hpath
            exact .inr ⟨path, hpath ▸ rfl⟩
        · rw [← hafter, takeWhile_append_dropWhile]
      · cases hparse
    · cases hparse

theorem parseSource_eq_host {s : Word} {scheme : Option Word} {h : Host}
    (hparse : parseSource s = .host scheme h) :
    ∃ host port path, (SourceExpression.host scheme host port path).Valid ∧
      (SourceExpression.host scheme host port path).text = s ∧ (h = .exact → IsHostName host) := by
  unfold parseSource at hparse
  split at hparse
  · cases hparse
  · split at hparse
    · split at hparse <;> cases hparse
    · split at hparse
      · rename_i scheme' rest hsplit
        split at hparse
        · rename_i hscheme
          obtain ⟨rfl, host, port, path, hpattern, hexact, hport, hpath, hrest⟩ :=
            parseHostSource_eq_host hparse
          refine ⟨host, port, path, .host ?_ hpattern hport hpath, ?_, hexact⟩
          · rintro x hx
            exact Option.some.inj hx ▸ isScheme_iff.mp hscheme
          · rw [eq_of_splitOnce hsplit, hrest, append_assoc]
            rfl
        · cases hparse
      · obtain ⟨rfl, host, port, path, hpattern, hexact, hport, hpath, hrest⟩ :=
          parseHostSource_eq_host hparse
        exact ⟨host, port, path, .host nofun hpattern hport hpath, hrest.symm, hexact⟩

/-! ### Quoted sources -/

theorem quotedValue_eq_some {s v : Word} (h : quotedValue s = some v) :
    ∃ kind ∈ valueKinds, s = '\'' :: ((kind ++ v) ++ ['\'']) := by
  obtain ⟨t, ht, h⟩ := Option.bind_eq_some_iff.mp h
  obtain ⟨inner, hinner, h⟩ := Option.bind_eq_some_iff.mp h
  obtain ⟨kind, hkind, h⟩ := exists_of_findSome?_eq_some h
  refine ⟨kind, hkind, ?_⟩
  rw [of_dropPrefix_eq_some ht, of_dropSuffix_eq_some hinner, of_dropPrefix_eq_some h]
  rfl

theorem admissible_of_keywordRefusal {s : Word} (h : keywordRefusal s = none) :
    ∃ inner, (SourceExpression.quoted inner).text = s ∧ Admissible (.quoted inner) := by
  unfold keywordRefusal at h
  split at h
  · rename_i hmem
    have hquotes : ∀ s ∈ acceptedKeywords,
        ∃ inner ∈ keywords, (SourceExpression.quoted inner).text = s := by decide
    obtain ⟨inner, hinner, htext⟩ := hquotes s hmem
    exact ⟨inner, htext, .inl hinner⟩
  · split at h
    · cases h
    · split at h
      · rename_i v hv
        split at h
        · rename_i hvalue
          obtain ⟨kind, hkind, hs⟩ := quotedValue_eq_some hv
          exact ⟨kind ++ v, hs.symm, .inr ⟨kind, hkind, v, isBase64Value_of_eq_true hvalue, rfl⟩⟩
        · cases h
      · cases h

/-- **A source that is not refused is admitted.** -/
theorem admitted_of_scriptSourceRefusal {source : Word} (h : scriptSourceRefusal source = none) :
    Admitted source := by
  have hreads : ∃ e, SourceExpression.Reads source e ∧ Admissible e := by
    unfold scriptSourceRefusal at h
    dsimp only at h
    split at h
    · obtain ⟨inner, htext, hadmissible⟩ := admissible_of_keywordRefusal h
      exact ⟨.quoted inner, ⟨.quoted inner, htext⟩, hadmissible⟩
    · -- of the classes of unquoted sources only two are not refused
      split at h
      case h_5 scheme hparse =>
        split at h
        · cases h
        · rename_i hscheme
          obtain ⟨host, port, path, hvalid, htext, hexact⟩ := parseSource_eq_host hparse
          exact ⟨_, ⟨hvalid, htext⟩, hexact rfl, .inr (congrArg some (not_not.mp hscheme))⟩
      case h_6 hparse =>
        obtain ⟨host, port, path, hvalid, htext, hexact⟩ := parseSource_eq_host hparse
        exact ⟨_, ⟨hvalid, htext⟩, hexact rfl, .inl rfl⟩
      all_goals cases h
  obtain ⟨e, he, hadmissible⟩ := hreads
  exact ⟨⟨e, he⟩, fun f hf ↦ SourceExpression.reads_unique he hf ▸ hadmissible⟩

def StaysOnOrigin (uri : Word) : Prop :=
  ∀ pageScheme, ∃ path, resolve pageScheme uri = .ownOrigin path

theorem staysOnOrigin_of_reportUriRefusal {sameOrigin : Word → Bool} {uri : Word}
    (htoken : ∀ c ∈ uri, isVisible c = true) (h : reportUriRefusal sameOrigin uri = none) :
    StaysOnOrigin uri := by
  unfold reportUriRefusal at h
  dsimp only at h
  split at h
  · cases h
  · rename_i hpath
    obtain ⟨hrooted, hslashes, hback⟩ := not_or.mp hpath |>.imp_right not_or.mp
    obtain ⟨text, rfl⟩ : ∃ text, uri = '/' :: text :=
      ⟨uri.tail, eq_cons_of_mem_head? (not_not.mp hrooted)⟩
    refine fun pageScheme ↦ ⟨_, resolve_of_rooted pageScheme htoken fun c hc ↦ ?_⟩
    rw [isSlash, Bool.or_eq_false_iff, decide_eq_false_iff_not, decide_eq_false_iff_not]
    obtain ⟨rest, rfl⟩ : ∃ rest, text = c :: rest := ⟨text.tail, eq_cons_of_mem_head? hc⟩
    exact ⟨fun hc ↦ hslashes ⟨rest, by rw [hc]; rfl⟩, fun hc ↦ hback (by simp [hc])⟩

end WaferRun.SecurityHeaders
