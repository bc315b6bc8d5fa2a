import WaferRun.Flow.Overlay
import WaferRun.Headers.MergeCsp
import WaferRun.Runtime.ConfigExpand

/-!
# The security-headers block

The block adds a fixed set of response headers to every message that passes through it. Three of
them are configured when the block is initialised: the content security policy, who may frame the
site, and its cross-origin isolation (`SecurityHeadersBlock.lifecycle`). Each is written once, so a
later initialisation changes nothing.

The policy goes through three rewritings of its text. The operator's directives are merged into the
baseline (`mergeCsp`), `blob:` is added to the workers' sources if that is allowed
(`withBlobWorkers`), and the sources of `frame-ancestors` are set (`withFrameAncestors`).
-/

namespace WaferRun.SecurityHeaders

open Text

/-- The policy enforced whatever the operator configures. -/
def defaultCsp : List Char :=
  ("default-src 'self'; script-src 'self' 'unsafe-inline'; style-src 'self' 'unsafe-inline'; " ++
    "img-src 'self' data: blob: https:; font-src 'self' https:; connect-src 'self'; " ++
    "frame-ancestors 'none'; base-uri 'self'; form-action 'self'").toList

inductive FrameAncestors
  | none
  | selfOrigin
deriving DecidableEq, Repr

def FrameAncestors.cspSource : FrameAncestors → Word
  | .none => noneSource
  | .selfOrigin => selfSource

def FrameAncestors.xFrameOptions : FrameAncestors → String
  | .none => "DENY"
  | .selfOrigin => "SAMEORIGIN"

inductive CrossOriginIsolation
  | none
  | credentialless
  | requireCorp
deriving DecidableEq, Repr

/-- The `Cross-Origin-Embedder-Policy` to send, if one is sent. -/
def CrossOriginIsolation.coepValue : CrossOriginIsolation → Option String
  | .none => Option.none
  | .credentialless => some "credentialless"
  | .requireCorp => some "require-corp"

/-! ## Configuration -/

inductive LifecycleType
  | init
  | start
  | stop
deriving DecidableEq, Repr

structure LifecycleEvent where
  eventType : LifecycleType
  data : Bytes

abbrev BlockConfig := Option Json

namespace BlockConfig

def fromEvent (fromSlice : Bytes → Option Json) (event : LifecycleEvent) : BlockConfig :=
  if event.data = [] then Option.none else fromSlice event.data

def get (config : BlockConfig) (key : String) : Option Json :=
  Option.bind config fun value ↦ value.get key

def str (config : BlockConfig) (key : String) : String :=
  match config.get key with
  | some (.string s) => s
  | _ => ""

def strOr (config : BlockConfig) (key default : String) : String :=
  if config.str key = "" then default else config.str key

def bool (config : BlockConfig) (key : String) : Option Bool :=
  match config.get key with
  | some (.bool b) => some b
  | some (.string s) => if s = "true" then some true else if s = "false" then some false else .none
  | _ => Option.none

end BlockConfig

def findBadCharacter (start : ℕ) : List Char → Option (ℕ × Char)
  | [] => none
  | c :: s =>
    if Csp.isVisible c || Csp.isSpace c then findBadCharacter (start + c.utf8Size) s
    else some (start, c)

def hex4 (n : ℕ) : String :=
  String.ofList (((Nat.toDigits 16 n).map Char.toUpper).leftpad 4 '0')

/-- Refuse a policy with a character that cannot stand in a header value. -/
def checkCspCharacters (debug : Char → String) (csp : List Char) : Except WaferError Unit :=
  match findBadCharacter 0 csp with
  | some (start, c) =>
    .error <| .new .invalidArgument <|
      s!"security-headers: `csp` config has {debug c} (U+{hex4 c.toNat}) at byte {start}; " ++
        "a Content-Security-Policy may only contain visible ASCII and spaces"
  | none => .ok ()

/-- The `allow_blob_workers` setting: absent, true or false. -/
def allowBlobWorkers (config : BlockConfig) : Except WaferError Bool :=
  match config.get "allow_blob_workers" with
  | none => .ok false
  | some _ =>
    match config.bool "allow_blob_workers" with
    | some allowed => .ok allowed
    | none => .error <| .new .invalidArgument
        "security-headers: `allow_blob_workers` must be true or false"

/-! ## Rewriting a policy -/

def directiveOf (text : List Char) : Csp.Directive :=
  match Csp.words text with
  | [] => ⟨[], []⟩
  | name :: sources => ⟨name, sources⟩

def workerSrcDirective : Word := "worker-src".toList

def blobSource : Word := "blob:".toList

def workerFallbacks : List Word := ["child-src".toList, "script-src".toList, "default-src".toList]

/-- The directives of a policy with `blob:` among the sources of workers. Without a directive for
them, workers get the sources they fall back on. -/
def addBlob (directives : List Csp.Directive) : List Csp.Directive :=
  let sourcesOf (name : Word) : Option (List Word) :=
    (directives.find? (·.name = name)).map (·.sources)
  match directives.findIdx? (·.name = workerSrcDirective) with
  | some i =>
    directives.modify i fun d ↦
      if blobSource ∈ d.sources then d else { d with sources := d.sources ++ [blobSource] }
  | none =>
    let sources := (workerFallbacks.findSome? sourcesOf).getD []
    directives ++ [⟨workerSrcDirective, sources ++ [blobSource]⟩]

/-- Add `blob:` to the sources of workers. -/
def withBlobWorkers (csp : List Char) : List Char :=
  let directives := (((csp.splitOn ';').map trim).filter (· ≠ [])).map directiveOf
  join "; ".toList <| (addBlob directives).map fun d ↦
    if d.sources = [] then d.name else d.name ++ ' ' :: join [' '] d.sources

/-- Set the sources of `frame-ancestors`. -/
def withFrameAncestors (csp : List Char) (fa : FrameAncestors) : List Char :=
  join "; ".toList <| (((csp.splitOn ';').map trim).filter (· ≠ [])).map fun d ↦
    if (Csp.words d).head? = some frameAncestorsDirective then
      "frame-ancestors ".toList ++ fa.cspSource
    else d

/-! ## The block -/

structure SecurityHeadersBlock where
  csp : Option (List Char)
  frameAncestors : Option FrameAncestors
  crossOriginIsolation : Option CrossOriginIsolation

namespace SecurityHeadersBlock

def new : SecurityHeadersBlock := ⟨none, none, none⟩

def effectiveCsp (block : SecurityHeadersBlock) : List Char := block.csp.getD defaultCsp

def effectiveFrameAncestors (block : SecurityHeadersBlock) : FrameAncestors :=
  block.frameAncestors.getD .none

def effectiveCrossOriginIsolation (block : SecurityHeadersBlock) : CrossOriginIsolation :=
  block.crossOriginIsolation.getD .none

/-- What the libraries the block is linked with answer: the JSON in some bytes, whether a
`report-uri` value stays on the origin it is joined to, and a character shown in an error. -/
structure Externals where
  fromSlice : Bytes → Option Json
  sameOrigin : Word → Bool
  debug : Char → String

variable (X : Externals)

def composeCsp (config : BlockConfig) (blobWorkers : Bool) (fa : FrameAncestors) : List Char :=
  let merged := mergeCsp X.sameOrigin defaultCsp (config.strOr "csp" "").toList
  withFrameAncestors (if blobWorkers then withBlobWorkers merged.policy else merged.policy) fa

def frameAncestorsOf (config : BlockConfig) : FrameAncestors :=
  if config.strOr "frame_ancestors" "none" = "self" then .selfOrigin else .none

def isolationOf (config : BlockConfig) : CrossOriginIsolation :=
  let posture := config.strOr "cross_origin_isolation" "none"
  if posture = "credentialless" then .credentialless
  else if posture = "require-corp" then .requireCorp
  else .none

/-- A transition of the block. Its fields are written once. -/
def lifecycle (block : SecurityHeadersBlock) (event : LifecycleEvent) :
    Except WaferError SecurityHeadersBlock :=
  if event.eventType = .init then do
    let config := BlockConfig.fromEvent X.fromSlice event
    let blobWorkers ← allowBlobWorkers config
    checkCspCharacters X.debug (config.strOr "csp" "").toList
    let fa := frameAncestorsOf config
    .ok { frameAncestors := block.frameAncestors <|> some fa
          csp := block.csp <|> some (composeCsp X config blobWorkers fa)
          crossOriginIsolation := block.crossOriginIsolation <|> some (isolationOf config) }
  else .ok block

def step (block : SecurityHeadersBlock) (event : LifecycleEvent) : SecurityHeadersBlock :=
  match block.lifecycle X event with
  | .ok block => block
  | .error _ => block

def run (events : List LifecycleEvent) (block : SecurityHeadersBlock) : SecurityHeadersBlock :=
  events.foldl (step X) block

end SecurityHeadersBlock

def setMeta (msg : Message) (key value : String) : Message :=
  { msg with entries := setByKey ⟨key, value⟩ msg.entries }

def getMeta (msg : Message) (key : String) : String :=
  ((msg.entries.find? (·.key = key)).map MetaEntry.value).getD ""

theorem find_setByKey (e : MetaEntry) (entries : List MetaEntry) (key : String) :
    ((setByKey e entries).find? (·.key = key)).map MetaEntry.value =
      if e.key = key then some e.value else (entries.find? (·.key = key)).map MetaEntry.value := by
  induction entries with
  | nil =>
    rw [setByKey, List.find?_cons]
    by_cases h : e.key = key <;> simp [h]
  | cons b entries ih =>
    rw [setByKey]
    by_cases hb : b.key = e.key
    · rw [if_pos hb, List.find?_cons, List.find?_cons]
      by_cases h : e.key = key <;> simp [h, hb]
    · rw [if_neg hb, List.find?_cons, List.find?_cons]
      by_cases h : b.key = key
      · have hne : e.key ≠ key := fun he ↦ hb (h.trans he.symm)
        simp [h, hne]
      · simpa [h] using ih

@[simp] theorem getMeta_setMeta (msg : Message) (key value : String) :
    getMeta (setMeta msg key value) key = value := by
  rw [getMeta, setMeta, find_setByKey, if_pos rfl, Option.getD_some]

theorem getMeta_setMeta_of_ne (msg : Message) {key key' : String} (value : String) (h : key ≠ key') :
    getMeta (setMeta msg key value) key' = getMeta msg key' := by
  rw [getMeta, setMeta, find_setByKey, if_neg h, getMeta]

namespace SecurityHeadersBlock

def handle (block : SecurityHeadersBlock) (msg : Message) : Message :=
  let msg := setMeta msg "resp.header.X-Content-Type-Options" "nosniff"
  let msg := setMeta msg "resp.header.X-Frame-Options" block.effectiveFrameAncestors.xFrameOptions
  let msg := setMeta msg "resp.header.Referrer-Policy" "strict-origin-when-cross-origin"
  let msg := setMeta msg "resp.header.Content-Security-Policy" (String.ofList block.effectiveCsp)
  let msg := setMeta msg "resp.header.Strict-Transport-Security"
    "max-age=31536000; includeSubDomains; preload"
  let msg := setMeta msg "resp.header.Permissions-Policy" "camera=(), microphone=(), geolocation=()"
  match block.effectiveCrossOriginIsolation.coepValue with
  | some coep =>
    setMeta (setMeta msg "resp.header.Cross-Origin-Opener-Policy" "same-origin")
      "resp.header.Cross-Origin-Embedder-Policy" coep
  | none => msg

end SecurityHeadersBlock

end WaferRun.SecurityHeaders
