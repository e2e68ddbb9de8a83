import Inmanta.Lib.Multidict

/-!
# Merged compile requests

`CompilerService._run` completes a compile request together with all others of
its queue that have the same merge key, by one run of the compiler.

The run gets the environment variables of all of them, and an update if one asks
for it; for everything else it reads the request that it was started for.
`honoured_iff` says when every request gets what it asked for.
-/

namespace Inmanta

namespace MergedCompiles

/-- A row of the table of compiles, as far as a run reads it. -/
structure CompileRequest where
  id : ℕ
  environment : ℕ
  started : Option ℕ
  doExport : Bool
  forceUpdate : Bool
  metadata : String
  requestedEnvironmentVariables : Dict String String
  mergeableEnvironmentVariables : Dict String String
  isPartial : Bool
  removedResourceSets : Option (List String)
  exporterPlugin : Option String
  softDelete : Bool
  reinstallProjectAndVenv : Bool

/-- The fields that are dumped. -/
def compileMergeKey (c : CompileRequest) :
    ℕ × Option ℕ × Bool × List (String × String) × Bool :=
  (c.environment, c.started, c.doExport, c.requestedEnvironmentVariables.items, c.isPartial)

/-! ## The run of the compiler -/

/-- The project directory that a run finds. -/
structure ProjectDir where
  pathExists : Bool
  /-- The environment has a repository, and the checkout is not one of it. -/
  repoUrlChanged : Bool

inductive ExportOption where
  | metadata (metadata : String)
  | exportPlugin (plugin : String)
  | partialExport
  | deleteResourceSet (resourceSet : String)
  | softDelete
  | toFile
  deriving DecidableEq, Repr

/-- What a run does, as long as no stage of it fails. -/
structure Executed where
  environ : Dict String String
  /-- The project and its venv are those of an earlier run. -/
  kept : Bool
  updated : Bool
  exportOptions : List ExportOption

/-- `CompileRun.run` for an environment that exists. -/
def compileRun (osEnviron : Dict String String) (projectDir : ProjectDir)
    (request : CompileRequest) (usedEnvironmentVariables : Dict String String)
    (forceUpdate : Bool) : Executed where
  environ := osEnviron.update usedEnvironmentVariables
  kept := projectDir.pathExists && !request.reinstallProjectAndVenv && !projectDir.repoUrlChanged
  updated := forceUpdate || request.forceUpdate
  exportOptions :=
    [.metadata request.metadata] ++
    (match request.exporterPlugin with
      | some plugin => if plugin ≠ "" then [.exportPlugin plugin] else []
      | none => []) ++
    (if request.isPartial then [.partialExport] else []) ++
    (request.removedResourceSets.getD []).map .deleteResourceSet ++
    (if request.softDelete then [.softDelete] else []) ++
    if request.doExport then [] else [.toFile]

/-! ## The service -/

def mergeCandidates (queue : List CompileRequest) (compile : CompileRequest) :
    List CompileRequest :=
  queue.filter fun c => decide (c.id ≠ compile.id ∧ compileMergeKey c = compileMergeKey compile)

def addVariable (merged : Dict String String) (item : String × String) : Dict String String :=
  match merged.get? item.1 with
  | some existing =>
      if existing ≠ "" then merged.set item.1 (existing ++ " " ++ item.2)
      else merged.set item.1 item.2
  | none => merged.set item.1 item.2

def mergedEnvVars (compile : CompileRequest) (candidates : List CompileRequest) :
    Dict String String :=
  (candidates.foldl
    (fun merged c => c.mergeableEnvironmentVariables.items.foldl addVariable merged)
    compile.mergeableEnvironmentVariables).update compile.requestedEnvironmentVariables

/-- What `_run` executes. -/
def executed (osEnviron : Dict String String) (projectDir : ProjectDir)
    (queue : List CompileRequest) (compile : CompileRequest) : Executed :=
  let candidates := mergeCandidates queue compile
  compileRun osEnviron projectDir compile (mergedEnvVars compile candidates)
    ((compile :: candidates).any (·.forceUpdate))

/-- The requests that `_run` marks as completed. -/
def completed (queue : List CompileRequest) (compile : CompileRequest) : List CompileRequest :=
  compile :: mergeCandidates queue compile

/-! ## What a request asks for -/

/-- The parts between spaces. -/
def tokens (value : String) : List (List Char) :=
  (value.toList.splitOn ' ').filter (· ≠ [])

/-- An empty name is no plugin. -/
def CompileRequest.plugin (c : CompileRequest) : Option String :=
  c.exporterPlugin.filter (· ≠ "")

structure Honoured (c : CompileRequest) (x : Executed) : Prop where
  requested : ∀ key value, c.requestedEnvironmentVariables.get? key = some value →
    x.environ.get? key = some value
  mergeable : ∀ key value, c.mergeableEnvironmentVariables.get? key = some value →
    ∀ token ∈ tokens value, ∃ used, x.environ.get? key = some used ∧ token ∈ tokens used
  update : c.forceUpdate = true → x.updated = true
  reinstall : c.reinstallProjectAndVenv = true → x.kept = false
  plugin : ∀ plugin, ExportOption.exportPlugin plugin ∈ x.exportOptions ↔ c.plugin = some plugin
  softDelete : ExportOption.softDelete ∈ x.exportOptions ↔ c.softDelete = true

/-- The request asks for nothing that the run of another request would leave out. -/
structure Compatible (projectDir : ProjectDir) (compile c : CompileRequest) : Prop where
  mergeable : ∀ key value, c.mergeableEnvironmentVariables.get? key = some value →
    ∀ requested, compile.requestedEnvironmentVariables.get? key = some requested →
      ∀ token ∈ tokens value, token ∈ tokens requested
  reinstall : c.reinstallProjectAndVenv = true → compile.reinstallProjectAndVenv = true ∨
    projectDir.pathExists = false ∨ projectDir.repoUrlChanged = true
  plugin : c.plugin = compile.plugin
  softDelete : c.softDelete = compile.softDelete

/-! ## Environment variables -/

theorem tokens_append_space (a b : String) : tokens (a ++ " " ++ b) = tokens a ++ tokens b := by
  rw [tokens, String.toList_append, String.toList_append, List.append_assoc]
  show ((a.toList ++ ' ' :: b.toList).splitOn ' ').filter _ = _
  rw [List.splitOn_append_cons_self, List.filter_append]
  rfl

theorem tokens_empty : tokens "" = [] := by decide

variable {merged : Dict String String} {key value : String} {token : List Char}

/-- The token is in the value of the variable. -/
def HasToken (d : Dict String String) (key : String) (token : List Char) : Prop :=
  ∃ value, d.get? key = some value ∧ token ∈ tokens value

theorem HasToken.addVariable (h : HasToken merged key token) (item : String × String) :
    HasToken (addVariable merged item) key token := by
  obtain ⟨value, hvalue, htoken⟩ := h
  by_cases hkey : key = item.1
  · subst hkey
    have hne : value ≠ "" := by
      rintro rfl
      rw [tokens_empty] at htoken
      cases htoken
    rw [MergedCompiles.addVariable, hvalue]
    simp only [if_pos hne]
    refine ⟨_, by rw [Dict.get?_set, if_pos rfl], ?_⟩
    rw [tokens_append_space]
    exact List.mem_append_left _ htoken
  · refine ⟨value, ?_, htoken⟩
    rw [MergedCompiles.addVariable]
    split
    · split <;> rw [Dict.get?_set, if_neg hkey, hvalue]
    · rw [Dict.get?_set, if_neg hkey, hvalue]

theorem hasToken_addVariable (h : token ∈ tokens value) :
    HasToken (addVariable merged (key, value)) key token := by
  rw [addVariable]
  split
  · next existing hexisting =>
      split
      · refine ⟨_, by rw [Dict.get?_set, if_pos rfl], ?_⟩
        rw [tokens_append_space]
        exact List.mem_append_right _ h
      · exact ⟨value, by rw [Dict.get?_set, if_pos rfl], h⟩
  · exact ⟨value, by rw [Dict.get?_set, if_pos rfl], h⟩

theorem HasToken.foldl (h : HasToken merged key token) (items : List (String × String)) :
    HasToken (items.foldl MergedCompiles.addVariable merged) key token := by
  induction items generalizing merged with
  | nil => exact h
  | cons item items ih => exact ih (h.addVariable item)

theorem hasToken_foldl {items : List (String × String)} (hmem : (key, value) ∈ items)
    (h : token ∈ tokens value) : HasToken (items.foldl addVariable merged) key token := by
  induction items generalizing merged with
  | nil => cases hmem
  | cons item items ih =>
      rcases List.mem_cons.mp hmem with rfl | hmem
      · exact (hasToken_addVariable h).foldl items
      · exact ih hmem

theorem HasToken.candidates (h : HasToken merged key token) (candidates : List CompileRequest) :
    HasToken (candidates.foldl (fun merged c =>
        c.mergeableEnvironmentVariables.items.foldl MergedCompiles.addVariable merged)
      merged) key token := by
  induction candidates generalizing merged with
  | nil => exact h
  | cons c candidates ih => exact ih (h.foldl c.mergeableEnvironmentVariables.items)

/-- Every token of a request is among the variables of all. -/
theorem hasToken_merged {candidates : List CompileRequest} {compile c : CompileRequest}
    (hc : c ∈ compile :: candidates)
    (hvalue : c.mergeableEnvironmentVariables.get? key = some value) (h : token ∈ tokens value) :
    HasToken (candidates.foldl
      (fun merged c => c.mergeableEnvironmentVariables.items.foldl addVariable merged)
      compile.mergeableEnvironmentVariables) key token := by
  rcases List.mem_cons.mp hc with rfl | hc
  · exact HasToken.candidates ⟨value, hvalue, h⟩ candidates
  · have hmem := Dict.get?_eq_some_iff.mp hvalue
    have hgen : ∀ merged : Dict String String, HasToken (candidates.foldl
        (fun merged c => c.mergeableEnvironmentVariables.items.foldl addVariable merged)
        merged) key token := by
      induction candidates with
      | nil => cases hc
      | cons c' candidates ih =>
          intro merged
          rcases List.mem_cons.mp hc with rfl | hc
          · exact (hasToken_foldl hmem h).candidates candidates
          · exact ih (List.mem_cons_of_mem _ hc) hc _
    exact hgen _

/-! ## What the run does for a request -/

variable {osEnviron : Dict String String} {projectDir : ProjectDir} {queue : List CompileRequest}
  {compile c : CompileRequest}

theorem requested_of_mem_completed (hc : c ∈ completed queue compile) :
    c.requestedEnvironmentVariables = compile.requestedEnvironmentVariables := by
  rcases List.mem_cons.mp hc with rfl | hc
  · rfl
  · obtain ⟨-, hkey⟩ := of_decide_eq_true (List.mem_filter.mp hc).2
    have hitems : c.requestedEnvironmentVariables.items
        = compile.requestedEnvironmentVariables.items :=
      congrArg (fun key => key.2.2.2.1) hkey
    cases hl : c.requestedEnvironmentVariables with
    | mk items nodup =>
        cases hr : compile.requestedEnvironmentVariables with
        | mk items' nodup' =>
            rw [hl, hr] at hitems
            obtain rfl : items = items' := hitems
            rfl

/-- The requested variables come last. -/
theorem environ_of_requested
    (h : compile.requestedEnvironmentVariables.get? key = some value) :
    (executed osEnviron projectDir queue compile).environ.get? key = some value := by
  show (osEnviron.update _).get? key = _
  rw [Dict.get?_update_eq, mergedEnvVars, Dict.get?_update_eq, h]
  rfl

theorem environ_hasToken (hc : c ∈ completed queue compile)
    (hrequested : compile.requestedEnvironmentVariables.get? key = none)
    (hvalue : c.mergeableEnvironmentVariables.get? key = some value) (h : token ∈ tokens value) :
    HasToken (executed osEnviron projectDir queue compile).environ key token := by
  obtain ⟨used, hused, htoken⟩ := hasToken_merged hc hvalue h
  refine ⟨used, ?_, htoken⟩
  show (osEnviron.update _).get? key = _
  rw [Dict.get?_update_eq, mergedEnvVars, Dict.get?_update_eq, hrequested, Option.none_or, hused,
    Option.some_or]

theorem exportPlugin_mem (plugin : String) :
    ExportOption.exportPlugin plugin ∈ (executed osEnviron projectDir queue compile).exportOptions
      ↔ compile.plugin = some plugin := by
  show ExportOption.exportPlugin plugin ∈ (compileRun _ _ _ _ _).exportOptions ↔ _
  rw [CompileRequest.plugin, Option.filter_eq_some_iff]
  cases hp : compile.exporterPlugin with
  | none => cases compile.isPartial <;> cases compile.softDelete <;> cases compile.doExport <;>
      simp [compileRun, hp]
  | some p =>
      have hiff : (plugin = p ∧ p ≠ "") ↔ some p = some plugin ∧ decide (plugin ≠ "") = true := by
        constructor
        · rintro ⟨rfl, hne⟩
          exact ⟨rfl, decide_eq_true hne⟩
        · rintro ⟨heq, hne⟩
          obtain rfl := Option.some.inj heq
          exact ⟨rfl, of_decide_eq_true hne⟩
      rw [← hiff]
      by_cases hne : p = ""
      · cases compile.isPartial <;> cases compile.softDelete <;> cases compile.doExport <;>
          simp [compileRun, hp, hne]
      · cases compile.isPartial <;> cases compile.softDelete <;> cases compile.doExport <;>
          simp [compileRun, hp, hne]

theorem softDelete_mem :
    ExportOption.softDelete ∈ (executed osEnviron projectDir queue compile).exportOptions
      ↔ compile.softDelete = true := by
  show ExportOption.softDelete ∈ (compileRun _ _ _ _ _).exportOptions ↔ _
  cases hp : compile.exporterPlugin with
  | none => cases compile.isPartial <;> cases hs : compile.softDelete <;> cases compile.doExport <;>
      simp [compileRun, hp, hs]
  | some p =>
      by_cases hne : p = "" <;> cases compile.isPartial <;> cases hs : compile.softDelete <;>
        cases compile.doExport <;> simp [compileRun, hp, hne, hs]

theorem honoured_iff_compatible (hc : c ∈ completed queue compile) :
    Honoured c (executed osEnviron projectDir queue compile) ↔ Compatible projectDir compile c := by
  have hreq := requested_of_mem_completed hc
  have hkept : (executed osEnviron projectDir queue compile).kept = false ↔
      compile.reinstallProjectAndVenv = true ∨ projectDir.pathExists = false ∨
        projectDir.repoUrlChanged = true := by
    show (projectDir.pathExists && !compile.reinstallProjectAndVenv && !projectDir.repoUrlChanged)
      = false ↔ _
    cases projectDir.pathExists <;> cases compile.reinstallProjectAndVenv <;>
      cases projectDir.repoUrlChanged <;> simp
  constructor
  · intro h
    refine ⟨?_, ?_, ?_, ?_⟩
    · intro key value hvalue requested hrequested token htoken
      obtain ⟨used, hused, hmem⟩ := h.mergeable key value hvalue token htoken
      rw [environ_of_requested hrequested] at hused
      obtain rfl := Option.some.inj hused
      exact hmem
    · exact fun hre => hkept.mp (h.reinstall hre)
    · refine Option.ext fun plugin => ?_
      rw [← h.plugin plugin, exportPlugin_mem]
    · rw [Bool.eq_iff_iff, ← h.softDelete, softDelete_mem]
  · intro h
    refine ⟨?_, ?_, ?_, ?_, ?_, ?_⟩
    · intro key value hvalue
      exact environ_of_requested (hreq ▸ hvalue)
    · intro key value hvalue token htoken
      cases hrequested : compile.requestedEnvironmentVariables.get? key with
      | none => exact environ_hasToken hc hrequested hvalue htoken
      | some requested => exact ⟨requested, environ_of_requested hrequested,
          h.mergeable key value hvalue requested hrequested token htoken⟩
    · intro hforce
      show ((completed queue compile).any (·.forceUpdate) || compile.forceUpdate) = true
      rw [List.any_eq_true.mpr ⟨c, hc, hforce⟩, Bool.true_or]
    · exact fun hre => hkept.mpr (h.reinstall hre)
    · intro plugin
      rw [exportPlugin_mem, h.plugin]
    · rw [softDelete_mem, h.softDelete]

/-- A request with these options. -/
def request (id : ℕ) (mergeable : Dict String String) (reinstall softDelete : Bool) :
    CompileRequest where
  id := id
  environment := 0
  started := none
  doExport := true
  forceUpdate := false
  metadata := "{}"
  requestedEnvironmentVariables := .ofList [("MODE", "fast")]
  mergeableEnvironmentVariables := mergeable
  isPartial := false
  removedResourceSets := none
  exporterPlugin := none
  softDelete := softDelete
  reinstallProjectAndVenv := reinstall

end MergedCompiles

end Inmanta
