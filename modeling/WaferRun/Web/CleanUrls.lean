import WaferRun.Web.StaticFiles

/-!
# Clean URLs

A path without an extension may be answered from a file with one, or from the index file of a
directory. The body is that of the file, but its type and its cache policy are still chosen by the
key that was asked for. So the answer is that of the file's own path exactly if the file may be
asked for by its name, its type is recorded or has no extension to be seen from, and both names
have the same cache policy (`alike_iff`).
-/

open List

namespace WaferRun.Web

open LocalStorage

def handled (debug : List Char → String) (content : Storage) : Storage := fun folder key ↦
  if isTraversalSafePath (String.ofList key) then content folder key
  else .error (.new .invalidArgument ("invalid storage.get request: `key` must be a plain " ++
    "`/`-separated path with no empty, `.` or `..` segment and no `\\` (got " ++ debug key ++ ")"))

variable {storage : Storage} {config : WebConfig}

inductive Fallback (storage : Storage) (config : WebConfig) (key : List Char) :
    List Char → List UInt8 × ObjectInfo → Prop
  | html {object : List UInt8 × ObjectInfo}
      (h : storage config.folder (key ++ ".html".toList) = .ok object) :
      Fallback storage config key (key ++ ".html".toList) object
  | index {object : List UInt8 × ObjectInfo} {e : WaferError}
      (hhtml : storage config.folder (key ++ ".html".toList) = .error e) (hcode : e.code = .notFound)
      (h : storage config.folder (key ++ '/' :: config.indexFile) = .ok object) :
      Fallback storage config key (key ++ '/' :: config.indexFile) object

def IsPlain (key : List Char) : Prop :=
  ∀ name ∈ key.splitOn '/', name ≠ [] ∧ name ≠ ['.'] ∧ name ≠ ['.', '.']

theorem isPlain_of_handled {debug : List Char → String} {folder : String} {key : List Char}
    {object : List UInt8 × ObjectInfo} (h : handled debug storage folder key = .ok object) :
    IsPlain key := by
  rw [handled] at h
  split at h
  · rename_i hsafe
    rw [isTraversalSafePath, String.toList_ofList, Bool.not_eq_true', any_eq_false] at hsafe
    intro name hname
    have hplain := hsafe name hname
    simp only [Bool.or_eq_true, decide_eq_true_eq, not_or] at hplain
    exact ⟨hplain.1.1.1, hplain.1.1.2, hplain.1.2⟩
  · cases h

def response (config : WebConfig) (key : List Char) (object : List UInt8 × ObjectInfo) :
    Except WaferError (List UInt8 × List MetaEntry) :=
  .ok (object.1, responseMeta (servedType key object.2)
    (cacheControl key (servedType key object.2) config))

theorem Fallback.stored {key file : List Char} {object : List UInt8 × ObjectInfo}
    (h : Fallback storage config key file object) : storage config.folder file = .ok object := by
  cases h with
  | html h => exact h
  | index _ _ h => exact h

theorem serveFile_fallback {path key file : List Char} {object : List UInt8 × ObjectInfo}
    {e : WaferError} (hkey : requestKey config path = some key) (hne : key ≠ [])
    (hext : extension key = none) (hmissing : storage config.folder key = .error e)
    (hcode : e.code = .notFound) (hfile : Fallback storage config key file object) :
    (serveFile storage config path).2 = response config key object := by
  have hfound : (tryServeStatic storage config.folder key config.indexFile).2 = .ok object := by
    rw [tryServeStatic, hmissing]
    dsimp only
    rw [if_neg (not_not.mpr hcode), if_neg (by simp [hext, hne])]
    cases hfile with
    | html h => rw [h]
    | index hhtml hcode h =>
      rw [hhtml]
      dsimp only
      rwa [if_neg (not_not.mpr hcode)]
  rw [serveFile, hkey]
  dsimp only
  rw [hfound]
  rfl

/-- A file is asked for by its own path unless one of its names is hidden. -/
theorem requestKey_own {file : List Char} (h : IsPlain file) :
    requestKey config (config.webPrefix ++ '/' :: file) =
      if (file.splitOn '/').any isHidden then none else some file := by
  have hmade : MadeOf file (file.splitOn '/') :=
    ⟨splitOn_ne_nil '/' file, fun _ ↦ Text.not_mem_of_mem_splitOn, (slashed_splitOn file).symm⟩
  have hfile : file ≠ [] := by
    rintro rfl
    exact (h [] mem_cons_self).1 rfl
  have hstrip : stripWebPrefix (config.webPrefix ++ '/' :: file) config.webPrefix =
      some ('/' :: file) := by
    rw [stripWebPrefix, if_pos (prefix_append _ _), drop_left]
    rfl
  have hroot : ¬('/' :: file = [] ∨ '/' :: file = ['/']) := by simp [hfile]
  rw [requestKey, hstrip, Option.bind_some, if_neg hroot, keyOfClean_cleanPath,
    cleanNames_of_madeOf hmade h, if_neg hmade.1,
    splitOn_injective ((madeOf_join hmade.1 hmade.2.1).splitOn)]

theorem serveFile_own {file : List Char} {object : List UInt8 × ObjectInfo} (h : IsPlain file)
    (hstored : storage config.folder file = .ok object) :
    (serveFile storage config (config.webPrefix ++ '/' :: file)).2 =
      if (file.splitOn '/').any isHidden then .error (.new .notFound "Not found")
      else response config file object := by
  by_cases hhidden : (file.splitOn '/').any isHidden = true
  · rw [serveFile, requestKey_own h, if_pos hhidden, if_pos hhidden]
  · rw [serveFile, requestKey_own h, if_neg hhidden, if_neg hhidden]
    dsimp only
    rw [tryServeStatic, hstored]
    rfl

/-! ## Types and caches -/

theorem cacheControl_eq_iff (key file : List Char) (contentType : String) :
    cacheControl key contentType config = cacheControl file contentType config ↔
      config.cacheMode = .noCache ∨ "text/html".toList <+: contentType.toList ∨
        isHashedAsset key = isHashedAsset file := by
  -- a policy without `immutable` ends with a digit
  have hne : "public, max-age=" ++ toString config.immutableMaxAge.toNat ++ ", immutable" ≠
      "public, max-age=" ++ toString config.cacheMaxAge.toNat := by
    intro h
    have hlast := congrArg (fun s : String ↦ s.toList.getLast?) h
    have hdigits : (toString config.cacheMaxAge.toNat).toList =
        Nat.toDigits 10 config.cacheMaxAge.toNat := String.toList_ofList
    simp only [String.toList_append, hdigits] at hlast
    rw [getLast?_append_of_ne_nil _ (by decide), getLast?_append_of_ne_nil _ Nat.toDigits_ne_nil]
      at hlast
    have hmem := mem_of_getLast? hlast.symm
    exact absurd (Nat.isDigit_of_mem_toDigits (by decide) (by decide) hmem) (by decide)
  rw [cacheControl, cacheControl]
  by_cases hmode : config.cacheMode = .noCache
  · rw [if_pos hmode, if_pos hmode]
    exact iff_of_true rfl (.inl hmode)
  by_cases hhtml : "text/html".toList <+: contentType.toList
  · rw [if_neg hmode, if_neg hmode, if_pos hhtml, if_pos hhtml]
    exact iff_of_true rfl (.inr (.inl hhtml))
  rw [if_neg hmode, if_neg hmode, if_neg hhtml, if_neg hhtml, or_iff_right hmode,
    or_iff_right hhtml]
  cases isHashedAsset key <;> cases isHashedAsset file
  · exact iff_of_true rfl rfl
  · exact iff_of_false (fun h ↦ hne h.symm) Bool.false_ne_true
  · exact iff_of_false hne (fun h ↦ Bool.false_ne_true h.symm)
  · exact iff_of_true rfl rfl

theorem mimeForExt_eq_unknown {key : List Char} (h : extension key = none) :
    mimeForExt key = unknown := by
  rw [mimeForExt, h]
  decide

theorem response_eq_iff {key file : List Char} (hext : extension key = none)
    (object : List UInt8 × ObjectInfo) :
    response config key object = response config file object ↔
      ((object.2.contentType ≠ "" ∧ object.2.contentType ≠ unknown) ∨ mimeForExt file = unknown) ∧
        (config.cacheMode = .noCache ∨ "text/html".toList <+: object.2.contentType.toList ∨
          isHashedAsset key = isHashedAsset file) := by
  have hparts : response config key object = response config file object ↔
      servedType key object.2 = servedType file object.2 ∧
        cacheControl key (servedType key object.2) config =
          cacheControl file (servedType file object.2) config := by
    simp [response, responseMeta]
  have htype : servedType key object.2 = servedType file object.2 ↔
      (object.2.contentType ≠ "" ∧ object.2.contentType ≠ unknown) ∨ mimeForExt file = unknown := by
    rw [servedType, servedType, mimeForExt_eq_unknown hext, ← not_or]
    split
    · rename_i hrecorded
      rw [or_iff_right (not_not.mpr hrecorded)]
      exact eq_comm
    · rename_i hrecorded
      exact iff_of_true rfl (.inl hrecorded)
  have hhtml : "text/html".toList <+: (servedType key object.2).toList ↔
      "text/html".toList <+: object.2.contentType.toList := by
    rw [servedType, mimeForExt_eq_unknown hext]
    split
    · rename_i hrecorded
      refine iff_of_false (by decide) ?_
      rcases hrecorded with h | h <;> rw [h] <;> decide
    · rfl
  rw [hparts, ← htype]
  refine and_congr_right fun hsame ↦ ?_
  rw [← hsame, cacheControl_eq_iff, hhtml]

/-- **Clean URLs.** The answer from a file is that of its own path exactly if the file is not
hidden, its type is known, and both names have one cache policy. -/
theorem alike_iff {debug : List Char → String} {path key file : List Char}
    {object : List UInt8 × ObjectInfo} {e : WaferError}
    (hkey : requestKey config path = some key) (hne : key ≠ []) (hext : extension key = none)
    (hmissing : handled debug storage config.folder key = .error e) (hcode : e.code = .notFound)
    (hfile : Fallback (handled debug storage) config key file object) :
    (serveFile (handled debug storage) config path).2 =
        (serveFile (handled debug storage) config (config.webPrefix ++ '/' :: file)).2 ↔
      (file.splitOn '/').any isHidden = false ∧
        ((object.2.contentType ≠ "" ∧ object.2.contentType ≠ unknown) ∨ mimeForExt file = unknown) ∧
        (config.cacheMode = .noCache ∨ "text/html".toList <+: object.2.contentType.toList ∨
          isHashedAsset key = isHashedAsset file) := by
  rw [serveFile_fallback hkey hne hext hmissing hcode hfile,
    serveFile_own (isPlain_of_handled hfile.stored) hfile.stored]
  cases (file.splitOn '/').any isHidden with
  | true => exact iff_of_false (by rintro ⟨⟩) fun h ↦ Bool.false_ne_true h.1.symm
  | false =>
    rw [if_neg Bool.false_ne_true, response_eq_iff hext, and_iff_right rfl]

def pageSite (contentType : String) : Storage := handled (fun _ ↦ "") fun _ key ↦
  if key = "a.html".toList then .ok ([], ⟨"a.html", 0, contentType, 0⟩)
  else .error (.new .notFound "")

theorem alike_iff_page :
    (serveFile (pageSite "text/html") docsConfig "/docs/a".toList).2 =
        (serveFile (pageSite "text/html") docsConfig "/docs/a.html".toList).2 ↔
      ("a.html".toList.splitOn '/').any isHidden = false ∧
        (("text/html" ≠ "" ∧ "text/html" ≠ unknown) ∨ mimeForExt "a.html".toList = unknown) ∧
        (docsConfig.cacheMode = .noCache ∨ "text/html".toList <+: "text/html".toList ∨
          isHashedAsset "a".toList = isHashedAsset "a.html".toList) := by
  have hkey : requestKey docsConfig "/docs/a".toList = some "a".toList := by decide
  have hfile : Fallback (pageSite "text/html") docsConfig "a".toList "a.html".toList
      ([], ⟨"a.html", 0, "text/html", 0⟩) := .html rfl
  exact alike_iff hkey (by decide) (by decide) rfl rfl hfile

/-- A page without a recorded type is served as bytes of an unknown type under its clean URL. -/
theorem clean_url_untyped :
    (serveFile (pageSite "") docsConfig "/docs/a".toList).2 ≠
      (serveFile (pageSite "") docsConfig "/docs/a.html".toList).2 := by
  have hclean : (serveFile (pageSite "") docsConfig "/docs/a".toList).2 =
      response docsConfig "a".toList ([], ⟨"a.html", 0, "", 0⟩) :=
    serveFile_fallback (by decide) (by decide) (by decide) rfl rfl (.html rfl)
  have hown : (serveFile (pageSite "") docsConfig "/docs/a.html".toList).2 =
      response docsConfig "a.html".toList ([], ⟨"a.html", 0, "", 0⟩) :=
    serveFile_own (by unfold IsPlain; decide) rfl
  rw [hclean, hown]
  intro hsame
  exact absurd ((response_eq_iff (by decide) _).mp hsame).1 (by decide)

end WaferRun.Web
