import Mathlib
import WaferRun.Block.HttpMessage
import WaferRun.Router.Paths
import WaferRun.Runtime.ConfigExpand

/-!
# Routes by method

A route is configured with actions or with HTTP methods, in one vocabulary: a token that is a
method of the table is read as its action, and any other token as the name of an action, in lower
case. A request is read through the same table, but a method outside it is executed. So a route for
a method of the table takes the requests whose method has the same action, and a route for another
token takes those whose action has that name (`route_takes_iff`).
-/

open List

namespace WaferRun.Router

open Text

def tryActionForHttpMethod (token : String) : Option String :=
  match toAsciiUppercase token with
  | "GET" | "HEAD" => some "retrieve"
  | "POST" => some "create"
  | "PUT" | "PATCH" => some "update"
  | "DELETE" => some "delete"
  | "OPTIONS" => some "execute"
  | _ => none

structure Route where
  path : List Char
  actions : List String
  rawActions : List String
  block : String

section

variable (U : CaseTables) (show_ : Json → String)

/-- A method stands for its action; any other token is lower-cased. -/
def normalizeAction (s : String) : String := (tryActionForHttpMethod s).getD (toLowercase U s)

/-- A member of a route that must be there. -/
def required (entry : Json) (key : String) : Except String String :=
  match entry.get key with
  | some (.string s) =>
    if s = "" then .error ("`" ++ key ++ "` must be a non-empty string in " ++ show_ entry) else .ok s
  | _ => .error ("`" ++ key ++ "` must be a non-empty string in " ++ show_ entry)

def stringList : Json → Option (List String)
  | .array items => items.mapM fun
    | .string s => some s
    | _ => none
  | _ => none

/-- `methods` is another word for `actions`; both at once are refused. -/
def rawActions (entry : Json) : Except String (List String) :=
  match entry.get "actions", entry.get "methods" with
  | some _, some _ =>
    .error ("`actions` and `methods` are the same setting; give one, in " ++ show_ entry)
  | some list, none | none, some list =>
    match stringList list with
    | some tokens => .ok tokens
    | none => .error ("`actions`/`methods` must be an array of strings in " ++ show_ entry)
  | none, none => .ok []

/-- A route as the configuration writes it. -/
def parseRoute (entry : Json) : Except String Route :=
  match entry with
  | .object _ => do
    let path ← required show_ entry "path"
    let block ← required show_ entry "block"
    let rawActions ← rawActions show_ entry
    .ok ⟨path.toList, rawActions.map (normalizeAction U), rawActions, block⟩
  | _ => .error ("expected an object, got " ++ show_ entry)

end

/-- The first route that takes the action and the path gets the message. -/
def handle (routes : List Route) (msg : Message) : Except WaferError (String × Message) :=
  let action := (metaGet msg.entries metaReqAction).getD ""
  let path := ((metaGet msg.entries metaReqResource).getD "").toList
  match routes.find? fun route ↦
      (route.actions.isEmpty || route.actions.contains action) && matchPath route.path path with
  | some route => .ok (route.block, { msg with
      entries := extractPathVars route.path path msg.entries })
  | none => .error (.new .notFound "no matching route")

/-! ## The action of a request -/

theorem toAsciiUppercase_idem (s : String) :
    toAsciiUppercase (toAsciiUppercase s) = toAsciiUppercase s := by
  rw [toAsciiUppercase, toAsciiUppercase, String.toList_ofList, map_map]
  exact congrArg String.ofList (map_congr_left fun c _ ↦ Char.toUpper_toUpper_eq_toUpper c)

theorem actionForHttpMethod_eq (method : String) :
    actionForHttpMethod method = (tryActionForHttpMethod method).getD "execute" := by
  unfold actionForHttpMethod tryActionForHttpMethod
  generalize toAsciiUppercase method = token
  split
  case h_7 => split <;> first | rfl | contradiction
  all_goals rfl

theorem actionForHttpMethod_toAsciiUppercase (method : String) :
    actionForHttpMethod (toAsciiUppercase method) = actionForHttpMethod method := by
  rw [actionForHttpMethod, actionForHttpMethod, toAsciiUppercase_idem]

variable {U : CaseTables} {parseQuery : String → List (String × String)}

def OwnKey (key : String) : Prop :=
  ∀ start ∈ [metaHttpHeaderPrefix, metaHttpQueryPrefix, metaReqQueryPrefix],
    ¬start.toList <+: key.toList

theorem OwnKey.ne {key start : String} (h : OwnKey key)
    (hstart : start ∈ [metaHttpHeaderPrefix, metaHttpQueryPrefix, metaReqQueryPrefix])
    (name : String) : start ++ name ≠ key := by
  rintro rfl
  exact h start hstart ⟨name.toList, String.toList_append.symm⟩

theorem metaGet_requestEntries (r : RequestHead) {key : String} (h : OwnKey key) :
    metaGet (buildHttpMessage U parseQuery r).entries key =
      lastValue ((requestEntries U parseQuery r).take 10) key := by
  have hrest : ∀ e ∈ (requestEntries U parseQuery r).drop 10, e.key ≠ key := by
    intro e he
    rcases mem_append.mp (show e ∈ _ ++ _ from he) with he | he
    · obtain ⟨header, -, rfl⟩ := mem_map.mp he
      exact h.ne mem_cons_self header.1
    · split at he
      · cases he
      · obtain ⟨param, -, he⟩ := mem_flatMap.mp he
        rcases mem_pair.mp he with rfl | rfl
        · exact h.ne (mem_cons_of_mem _ mem_cons_self) param.1
        · exact h.ne (mem_cons_of_mem _ (mem_cons_of_mem _ mem_cons_self)) param.1
  have hnil : metaGet [] key = none := rfl
  rw [buildHttpMessage, metaGet_setByKeys, hnil, Option.or_none, lastValue, lastValue]
  conv_lhs => rw [← take_append_drop 10 (requestEntries U parseQuery r), filter_append,
    filter_eq_nil_iff.mpr fun e he hkey ↦ hrest e he (of_decide_eq_true hkey),
    append_nil]

theorem action_buildHttpMessage (r : RequestHead) :
    metaGet (buildHttpMessage U parseQuery r).entries metaReqAction =
      some (actionForHttpMethod r.method) := by
  have hown : OwnKey metaReqAction := by unfold OwnKey; decide
  rw [metaGet_requestEntries r hown, ← actionForHttpMethod_toAsciiUppercase]
  dsimp only [requestEntries]
  generalize actionForHttpMethod (toAsciiUppercase r.method) = action
  rfl

theorem path_buildHttpMessage (r : RequestHead) :
    metaGet (buildHttpMessage U parseQuery r).entries metaReqResource = some r.path := by
  have hown : OwnKey metaReqResource := by unfold OwnKey; decide
  rw [metaGet_requestEntries r hown]
  rfl

/-! ## Routes -/

def methodRoute (pattern block method : String) : Json :=
  .object [("path", .string pattern), ("methods", .array [.string method]), ("block", .string block)]

variable (U parseQuery) in
def Takes (route : Route) (r : RequestHead) : Prop :=
  ∃ msg, handle [route] (buildHttpMessage U parseQuery r) = .ok (route.block, msg)

theorem parseRoute_methodRoute (show_ : Json → String) {pattern block : String}
    (hpattern : pattern ≠ "") (hblock : block ≠ "") (method : String) :
    parseRoute U show_ (methodRoute pattern block method) =
      .ok ⟨pattern.toList, [normalizeAction U method], [method], block⟩ := by
  have hpath : required show_ (methodRoute pattern block method) "path" = .ok pattern := by
    have hget : (methodRoute pattern block method).get "path" = some (.string pattern) := rfl
    rw [required, hget]
    exact if_neg hpattern
  have hto : required show_ (methodRoute pattern block method) "block" = .ok block := by
    have hget : (methodRoute pattern block method).get "block" = some (.string block) := rfl
    rw [required, hget]
    exact if_neg hblock
  change (do
    let path ← required show_ (methodRoute pattern block method) "path"
    let block ← required show_ (methodRoute pattern block method) "block"
    let rawActions ← rawActions show_ (methodRoute pattern block method)
    Except.ok (⟨path.toList, rawActions.map (normalizeAction U), rawActions, block⟩ : Route)) = _
  rw [hpath, hto]
  rfl

theorem takes_iff (pattern : List Char) (action raw block : String) {r : RequestHead}
    (hpath : matchPath pattern r.path.toList = true) :
    Takes U parseQuery ⟨pattern, [action], [raw], block⟩ r ↔
      action = actionForHttpMethod r.method := by
  rw [Takes, handle, action_buildHttpMessage, path_buildHttpMessage]
  dsimp only [Option.getD_some]
  by_cases h : action = actionForHttpMethod r.method
  · refine iff_of_true ?_ h
    rw [List.find?_cons_of_pos (by simp [h, hpath])]
    exact ⟨_, rfl⟩
  · refine iff_of_false ?_ h
    rw [List.find?_cons_of_neg (by simpa using fun h' ↦ absurd h'.symm h)]
    rintro ⟨_, ⟨⟩⟩

/-- **Routes by method.** A route for a method takes the requests of its own action, which is that
of the table, or else the lowercased token. -/
theorem route_takes_iff (show_ : Json → String) {pattern block : String} (hpattern : pattern ≠ "")
    (hblock : block ≠ "") (method : String) : ∃ route,
      parseRoute U show_ (methodRoute pattern block method) = .ok route ∧
      ∀ r : RequestHead, matchPath pattern.toList r.path.toList = true →
        ((tryActionForHttpMethod method).isSome = true →
          (Takes U parseQuery route r ↔
            actionForHttpMethod method = actionForHttpMethod r.method)) ∧
        (tryActionForHttpMethod method = none →
          (Takes U parseQuery route r ↔ toLowercase U method = actionForHttpMethod r.method)) := by
  refine ⟨_, parseRoute_methodRoute show_ hpattern hblock method, fun r hpath ↦ ?_⟩
  rw [takes_iff pattern.toList _ method block hpath, normalizeAction, actionForHttpMethod_eq method]
  constructor
  · intro hsome
    obtain ⟨a, ha⟩ := Option.isSome_iff_exists.mp hsome
    rw [ha]
    rfl
  · intro hnone
    rw [hnone]
    rfl

theorem route_takes_iff_trace : ∃ route,
    parseRoute .ascii (fun _ ↦ "") (methodRoute "/users" "users" "TRACE") = .ok route ∧
      ∀ r : RequestHead, r.path = "/users" →
        (Takes .ascii (fun _ ↦ []) route r ↔ "trace" = actionForHttpMethod r.method) := by
  obtain ⟨route, hparse, htakes⟩ := @route_takes_iff .ascii (fun _ ↦ []) (fun _ ↦ "") "/users" "users"
    (by decide) (by decide) "TRACE"
  refine ⟨route, hparse, fun r hpath ↦ ?_⟩
  exact (htakes r (by rw [hpath]; decide)).2 (by decide)

theorem trace_not_taken : ∃ route,
    parseRoute .ascii (fun _ ↦ "") (methodRoute "/users" "users" "TRACE") = .ok route ∧
      ¬Takes .ascii (fun _ ↦ []) route ⟨"TRACE", "/users", "", "", []⟩ := by
  refine ⟨_, parseRoute_methodRoute _ (by decide) (by decide) _, ?_⟩
  rw [takes_iff _ _ _ _ (by decide)]
  decide

end WaferRun.Router
