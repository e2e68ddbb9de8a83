import Inmanta.Lib.Dict
import Inmanta.Lib.Run
import Mathlib.Logic.Function.Basic

/-!
# Responses and their headers

`ReturnValue`, `Response.create` and `RESTHandler.respond`, for any number of
requests that take their steps in any order.

Headers are kept in mappings, which are passed by reference: a return value
writes its content type into the mapping that it is given, and all that are
given none get one and the same. `responses_independent` compares a run with the
steps of one request alone: its responses are the same as long as no step
disturbs (`Undisturbed`), where the mapping that a return value is given has
what its caller wrote, and a mapping in use by another request does not change.
-/

namespace Inmanta

namespace ResponseHeaders

/-- `CONTENT_TYPE` -/
def contentTypeHeader : String := "Content-Type"

/-- `JSON_CONTENT` -/
def jsonContent : String := "application/json"

abbrev Headers := Dict String String

/-- A mapping of headers: the default of the constructor, or one that a caller has made. -/
inductive Mapping where
  | default
  | named (n : ℕ)
  deriving DecidableEq, Repr

/-! ## Return values and responses -/

section

variable {β : Type}

structure ReturnValue (β : Type) where
  statusCode : ℕ
  warnings : List String
  headers : Mapping
  contentType : String
  response : Option β
  links : Option (Dict String String)

/-- What stands under a key of a body. The warnings are those of the return value when the body
is sent. -/
inductive Entry (β : Type) where
  | response (response : Option β)
  | metadata
  | links (links : Dict String String)

inductive Body (β : Type) where
  | none
  | response (response : β)
  | object (entries : Dict String (Entry β))

def ReturnValue.getWithoutEnvelope (self : ReturnValue β) : Body β :=
  match self.response with
  | some response => .response response
  | none => if self.warnings ≠ [] then .object (.ofList [("metadata", .metadata)]) else .none

def ReturnValue.getWithEnvelope (self : ReturnValue β) (envelopeKey : String) : Body β :=
  let response : Dict String (Entry β) := .ofList [(envelopeKey, .response self.response)]
  let response := if self.warnings ≠ [] then response.set "metadata" .metadata else response
  match self.links with
  | some links => if links.items ≠ [] then .object (response.set "links" (.links links))
      else .object response
  | none => .object response

/-- `headers` is what the mapping of the return value holds. -/
def ReturnValue.getBody (self : ReturnValue β) (headers : Headers) (envelope : Bool)
    (envelopeKey : String) : Body β :=
  if envelope = false ∨ headers.get? contentTypeHeader ≠ some jsonContent then
    self.getWithoutEnvelope
  else self.getWithEnvelope envelopeKey

structure Response (β : Type) where
  statusCode : ℕ
  headers : Mapping
  body : Body β

/-- What `respond` writes: the body is encoded for the content type among the headers. -/
structure Sent (β : Type) where
  statusCode : ℕ
  headers : Headers
  body : Body β
  warnings : List String

/-! ## Steps of requests -/

structure State (β : Type) where
  heap : Mapping → Headers
  /-- The mappings that callers have made, as they have written them. -/
  made : Dict ℕ Headers
  /-- The requests that have made their return value. -/
  constructed : List ℕ
  values : Dict ℕ (ReturnValue β)
  responses : Dict ℕ (Response β)
  sent : List (ℕ × Sent β)

/-- `request` is the request that takes the step. -/
inductive Event (β : Type) where
  | make (n : ℕ) (headers : Headers)
  | construct (request : ℕ) (statusCode : ℕ) (headers : Mapping) (response : Option β)
      (contentType : String) (links : Option (Dict String String))
  | addWarnings (request : ℕ) (warnings : List String)
  | create (request : ℕ) (envelope : Bool) (envelopeKey : String)
  | addHeader (request : ℕ) (name value : String)
  | respond (request : ℕ)

def State.initial : State β := ⟨fun _ => .empty, .empty, [], .empty, .empty, []⟩

/-- What a mapping held when it was made. -/
def State.original (s : State β) : Mapping → Headers
  | .default => .empty
  | .named n => s.made.getD n .empty

def Mapping.Exists (s : State β) : Mapping → Prop
  | .default => True
  | .named n => n ∈ s.made

instance (s : State β) : ∀ m : Mapping, Decidable (m.Exists s)
  | .default => inferInstanceAs (Decidable True)
  | .named n => inferInstanceAs (Decidable (n ∈ s.made))

def step (s : State β) : Event β → Option (State β)
  | .make n headers =>
      if n ∈ s.made then none
      else some { s with
        heap := Function.update s.heap (.named n) headers
        made := s.made.set n headers }
  | .construct request statusCode headers response contentType links =>
      if request ∈ s.constructed ∨ ¬ headers.Exists s then none
      else some { s with
        heap := Function.update s.heap headers
          ((s.heap headers).set contentTypeHeader contentType)
        constructed := request :: s.constructed
        values := s.values.set request ⟨statusCode, [], headers, contentType, response, links⟩ }
  | .addWarnings request warnings =>
      match s.values.get? request with
      | none => none
      | some value => some { s with
          values := s.values.set request { value with warnings := value.warnings ++ warnings } }
  | .create request envelope envelopeKey =>
      match s.values.get? request with
      | none => none
      | some value => some { s with
          responses := s.responses.set request
            ⟨value.statusCode, value.headers,
              value.getBody (s.heap value.headers) envelope envelopeKey⟩ }
  | .addHeader request name value =>
      match s.responses.get? request with
      | none => none
      | some response => some { s with
          heap := Function.update s.heap response.headers
            ((s.heap response.headers).set name value) }
  | .respond request =>
      match s.values.get? request, s.responses.get? request with
      | some value, some response =>
          let headers := if contentTypeHeader ∈ s.heap response.headers
            then s.heap response.headers
            else (s.heap response.headers).set contentTypeHeader jsonContent
          some { s with
            heap := Function.update s.heap response.headers headers
            values := s.values.del request
            responses := s.responses.del request
            sent := s.sent ++
              [(request, ⟨response.statusCode, headers, response.body, value.warnings⟩)] }
      | _, _ => none

/-- A step of this request, or one of no request. -/
def Event.concerns (request : ℕ) : Event β → Bool
  | .make _ _ => true
  | .construct r _ _ _ _ _ => r == request
  | .addWarnings r _ => r == request
  | .create r _ _ => r == request
  | .addHeader r _ _ => r == request
  | .respond r => r == request

/-- The step changes nothing for the other requests that have a return value, and finds in a
mapping what its caller has written, up to the content type, which is set anyway. -/
def Undisturbed (s : State β) : Event β → Prop
  | .construct _ _ headers _ contentType _ =>
      (∀ r value, s.values.get? r = some value → value.headers = headers →
        (s.heap headers).get? contentTypeHeader = some contentType) ∧
      (s.heap headers).set contentTypeHeader contentType
        = (s.original headers).set contentTypeHeader contentType
  | .addHeader request name text =>
      ∀ response, s.responses.get? request = some response →
        ∀ r value, s.values.get? r = some value → r ≠ request → value.headers = response.headers →
          (s.heap response.headers).get? name = some text
  | _ => True

/-! ## Mappings in use -/

/-- The mappings in use exist and have a content type, a response has that of its value. -/
structure Wf (s : State β) : Prop where
  constructed : ∀ r value, s.values.get? r = some value → r ∈ s.constructed
  made : ∀ r value, s.values.get? r = some value → value.headers.Exists s
  contentType : ∀ r value, s.values.get? r = some value →
    contentTypeHeader ∈ s.heap value.headers
  response : ∀ r response, s.responses.get? r = some response →
    ∃ value, s.values.get? r = some value ∧ value.headers = response.headers

variable {s s' o : State β} {e : Event β} {request : ℕ}

theorem Mapping.Exists.make {m : Mapping} {n : ℕ} {headers : Headers} {heap : Mapping → Headers}
    (h : m.Exists s) : m.Exists { s with heap := heap, made := s.made.set n headers } := by
  cases m with
  | default => trivial
  | named k => exact Dict.mem_set.mpr (Or.inr h)

theorem step_wf (hwf : Wf s) (hstep : step s e = some s') : Wf s' := by
  cases e with
  | make n headers =>
      rw [step] at hstep
      split at hstep
      · cases hstep
      next hnew =>
      obtain rfl := Option.some.inj hstep
      refine ⟨hwf.constructed, fun r value h => (hwf.made r value h).make, fun r value h => ?_,
        hwf.response⟩
      have hne : value.headers ≠ .named n := by
        intro heq
        have hexists := hwf.made r value h
        rw [heq] at hexists
        exact hnew hexists
      simp only [Function.update_of_ne hne]
      exact hwf.contentType r value h
  | construct r₀ statusCode headers response contentType links =>
      rw [step] at hstep
      split at hstep
      · cases hstep
      next hnew =>
      obtain ⟨hr₀, hexists⟩ := not_or.mp hnew
      obtain rfl := Option.some.inj hstep
      have hcontent : ∀ m, contentTypeHeader ∈ s.heap m ∨ m = headers → contentTypeHeader ∈
          Function.update s.heap headers
            ((s.heap headers).set contentTypeHeader contentType) m := by
        intro m hm
        by_cases heq : m = headers
        · rw [heq, Function.update_self]
          exact Dict.mem_set.mpr (Or.inl rfl)
        · rw [Function.update_of_ne heq]
          exact hm.resolve_right heq
      refine ⟨fun r value h => ?_, fun r value h => ?_, fun r value h => ?_,
        fun r response' h => ?_⟩
      · rw [Dict.get?_set] at h
        split at h
        · next heq => exact heq ▸ List.mem_cons_self
        · exact List.mem_cons_of_mem _ (hwf.constructed r value h)
      · rw [Dict.get?_set] at h
        split at h
        · obtain rfl := Option.some.inj h
          exact not_not.mp hexists
        · exact hwf.made r value h
      · rw [Dict.get?_set] at h
        split at h
        · obtain rfl := Option.some.inj h
          exact hcontent _ (Or.inr rfl)
        · exact hcontent _ (Or.inl (hwf.contentType r value h))
      · obtain ⟨value, hvalue, hheaders⟩ := hwf.response r response' h
        have hne : r ≠ r₀ := fun heq => hr₀ (heq ▸ hwf.constructed r value hvalue)
        exact ⟨value, by rw [Dict.get?_set, if_neg hne]; exact hvalue, hheaders⟩
  | addWarnings r₀ warnings =>
      rw [step] at hstep
      split at hstep
      · cases hstep
      next value₀ hvalue₀ =>
      obtain rfl := Option.some.inj hstep
      -- the value is the same up to its warnings
      have hsame : ∀ r value, (s.values.set r₀ { value₀ with
          warnings := value₀.warnings ++ warnings }).get? r = some value →
          ∃ old, s.values.get? r = some old ∧ old.headers = value.headers := by
        intro r value h
        rw [Dict.get?_set] at h
        split at h
        · next heq =>
            obtain rfl := Option.some.inj h
            exact ⟨value₀, heq ▸ hvalue₀, rfl⟩
        · exact ⟨value, h, rfl⟩
      refine ⟨fun r value h => ?_, fun r value h => ?_, fun r value h => ?_, fun r response h => ?_⟩
      · obtain ⟨old, hold, -⟩ := hsame r value h
        exact hwf.constructed r old hold
      · obtain ⟨old, hold, hheaders⟩ := hsame r value h
        exact hheaders ▸ hwf.made r old hold
      · obtain ⟨old, hold, hheaders⟩ := hsame r value h
        exact hheaders ▸ hwf.contentType r old hold
      · obtain ⟨value, hvalue, hheaders⟩ := hwf.response r response h
        by_cases heq : r = r₀
        · obtain rfl := heq
          obtain rfl := Option.some.inj (hvalue₀.symm.trans hvalue)
          exact ⟨{ value₀ with warnings := value₀.warnings ++ warnings },
            by rw [Dict.get?_set, if_pos rfl], hheaders⟩
        · exact ⟨value, by rw [Dict.get?_set, if_neg heq]; exact hvalue, hheaders⟩
  | create r₀ envelope envelopeKey =>
      rw [step] at hstep
      split at hstep
      · cases hstep
      next value₀ hvalue₀ =>
      obtain rfl := Option.some.inj hstep
      refine ⟨hwf.constructed, hwf.made, hwf.contentType, fun r response h => ?_⟩
      rw [Dict.get?_set] at h
      split at h
      · next heq =>
          obtain rfl := Option.some.inj h
          exact ⟨value₀, heq ▸ hvalue₀, rfl⟩
      · exact hwf.response r response h
  | addHeader r₀ name text =>
      rw [step] at hstep
      split at hstep
      · cases hstep
      next response₀ hresponse₀ =>
      obtain rfl := Option.some.inj hstep
      refine ⟨hwf.constructed, hwf.made, fun r value h => ?_, hwf.response⟩
      by_cases heq : value.headers = response₀.headers
      · simp only [heq, Function.update_self]
        exact Dict.mem_set.mpr (Or.inr (heq ▸ hwf.contentType r value h))
      · simp only [Function.update_of_ne heq]
        exact hwf.contentType r value h
  | respond r₀ =>
      rw [step] at hstep
      split at hstep
      · next value₀ response₀ hvalue₀ hresponse₀ =>
        obtain rfl := Option.some.inj hstep
        obtain ⟨value', hvalue', hheaders'⟩ := hwf.response r₀ response₀ hresponse₀
        have hcontent := hheaders' ▸ hwf.contentType r₀ value' hvalue'
        have hdel : ∀ {r : ℕ} {value : ReturnValue β}, (s.values.del r₀).get? r = some value →
            r ≠ r₀ ∧ s.values.get? r = some value := by
          intro r value h
          rw [Dict.get?_del] at h
          split at h
          · cases h
          · next hne => exact ⟨hne, h⟩
        refine ⟨fun r value h => hwf.constructed r value (hdel h).2,
          fun r value h => hwf.made r value (hdel h).2, fun r value h => ?_,
          fun r response h => ?_⟩
        · simp only [if_pos hcontent, Function.update_eq_self]
          exact hwf.contentType r value (hdel h).2
        · rw [Dict.get?_del] at h
          split at h
          · cases h
          next hne =>
          obtain ⟨value, hvalue, hheaders⟩ := hwf.response r response h
          exact ⟨value, by rw [Dict.get?_del, if_neg hne]; exact hvalue, hheaders⟩
      · cases hstep

/-! ## The steps of one request -/

/-- The state of a run and that of the steps of one request alone. -/
structure Follows (request : ℕ) (s o : State β) : Prop where
  made : o.made = s.made
  constructed : request ∈ o.constructed ↔ request ∈ s.constructed
  value : o.values.get? request = s.values.get? request
  response : o.responses.get? request = s.responses.get? request
  heap : ∀ value, s.values.get? request = some value → o.heap value.headers = s.heap value.headers
  pristine : request ∉ s.constructed → ∀ m, o.heap m = s.original m
  sent : o.sent = s.sent.filter (·.1 == request)

theorem exists_iff (h : o.made = s.made) (m : Mapping) : m.Exists o ↔ m.Exists s := by
  cases m with
  | default => exact Iff.rfl
  | named n => rw [Mapping.Exists, Mapping.Exists, h]

/-- Mappings are made for all. -/
theorem Follows.make {n : ℕ} {headers : Headers} (h : Follows request s o)
    (hstep : step s (.make n headers) = some s') :
    ∃ o', step o (.make n headers) = some o' ∧ Follows request s' o' := by
  rw [step] at hstep
  split at hstep
  · cases hstep
  next hnew =>
  obtain rfl := Option.some.inj hstep
  refine ⟨_, by rw [step, h.made, if_neg hnew], ?_⟩
  refine ⟨rfl, h.constructed, h.value, h.response,
    fun value hvalue => ?_, fun hno m => ?_, h.sent⟩
  · by_cases heq : value.headers = .named n
    · simp only [heq, Function.update_self]
    · simp only [Function.update_of_ne heq]
      exact h.heap value hvalue
  · by_cases heq : m = .named n
    · subst heq
      simp [State.original, Dict.getD]
    · simp only [Function.update_of_ne heq]
      rw [h.pristine hno m]
      cases m with
      | default => rfl
      | named k =>
          have hk : k ≠ n := fun hk => heq (hk ▸ rfl)
          simp only [State.original, Dict.getD_set, if_neg hk]

/-- The request takes the step that it takes in the run. -/
theorem Follows.own (hwf : Wf s) (h : Follows request s o) (hok : Undisturbed s e)
    (hown : e.concerns request = true) (hstep : step s e = some s') :
    ∃ o', step o e = some o' ∧ Follows request s' o' := by
  cases e with
  | make n headers => exact h.make hstep
  | construct r statusCode headers response contentType links =>
      obtain rfl : r = request := by simpa [Event.concerns] using hown
      rw [step] at hstep
      split at hstep
      · cases hstep
      next hnew =>
      obtain rfl := Option.some.inj hstep
      have hr : r ∉ s.constructed := fun hr => hnew (Or.inl hr)
      have hnew' : ¬ (r ∈ o.constructed ∨ ¬ headers.Exists o) := by
        rwa [h.constructed, exists_iff h.made]
      refine ⟨_, by rw [step, if_neg hnew'], ?_⟩
      refine ⟨h.made, by simp, by simp, h.response, fun value hvalue => ?_,
        fun hno => absurd List.mem_cons_self hno, h.sent⟩
      rw [Dict.get?_set, if_pos rfl] at hvalue
      obtain rfl := Option.some.inj hvalue
      simp only [Function.update_self]
      rw [h.pristine hr headers, hok.2]
  | addWarnings r warnings =>
      obtain rfl : r = request := by simpa [Event.concerns] using hown
      rw [step] at hstep
      split at hstep
      · cases hstep
      next value₀ hvalue₀ =>
      obtain rfl := Option.some.inj hstep
      refine ⟨_, by rw [step, h.value, hvalue₀], ?_⟩
      refine ⟨h.made, h.constructed, by simp, h.response, fun value hvalue => ?_, h.pristine,
        h.sent⟩
      rw [Dict.get?_set, if_pos rfl] at hvalue
      obtain rfl := Option.some.inj hvalue
      exact h.heap value₀ hvalue₀
  | create r envelope envelopeKey =>
      obtain rfl : r = request := by simpa [Event.concerns] using hown
      rw [step] at hstep
      split at hstep
      · cases hstep
      next value₀ hvalue₀ =>
      obtain rfl := Option.some.inj hstep
      refine ⟨_, by rw [step, h.value, hvalue₀], ?_⟩
      exact ⟨h.made, h.constructed, h.value, by simp [h.heap value₀ hvalue₀], h.heap, h.pristine,
        h.sent⟩
  | addHeader r name text =>
      obtain rfl : r = request := by simpa [Event.concerns] using hown
      rw [step] at hstep
      split at hstep
      · cases hstep
      next response₀ hresponse₀ =>
      obtain rfl := Option.some.inj hstep
      obtain ⟨value₀, hvalue₀, hheaders₀⟩ := hwf.response r response₀ hresponse₀
      have hsame := hheaders₀ ▸ h.heap value₀ hvalue₀
      refine ⟨_, by rw [step, h.response, hresponse₀], ?_⟩
      refine ⟨h.made, h.constructed, h.value, h.response,
        fun value hvalue => ?_, fun hno => absurd (hwf.constructed r value₀ hvalue₀) hno, h.sent⟩
      obtain rfl := Option.some.inj (hvalue₀.symm.trans hvalue)
      simp only [hheaders₀, Function.update_self, hsame]
  | respond r =>
      obtain rfl : r = request := by simpa [Event.concerns] using hown
      rw [step] at hstep
      split at hstep
      · next value₀ response₀ hvalue₀ hresponse₀ =>
        obtain rfl := Option.some.inj hstep
        obtain ⟨value', hvalue', hheaders'⟩ := hwf.response r response₀ hresponse₀
        obtain rfl := Option.some.inj (hvalue₀.symm.trans hvalue')
        have hsame := hheaders' ▸ h.heap value₀ hvalue₀
        refine ⟨_, by rw [step, h.value, hvalue₀, h.response, hresponse₀], ?_⟩
        refine ⟨h.made, h.constructed, by simp, by simp, fun value hvalue => ?_,
          fun hno => absurd (hwf.constructed r value₀ hvalue₀) hno, ?_⟩
        · rw [Dict.get?_del, if_pos rfl] at hvalue
          cases hvalue
        · simp only [List.filter_append, h.sent, hsame]
          congr 1
          simp
      · cases hstep

/-- A step of another request that does not disturb leaves no trace. -/
theorem Follows.foreign (hwf : Wf s) (h : Follows request s o) (hok : Undisturbed s e)
    (hforeign : e.concerns request = false) (hstep : step s e = some s') :
    Follows request s' o := by
  cases e with
  | make n headers => cases hforeign
  | construct r statusCode headers response contentType links =>
      have hne : request ≠ r := by
        rintro rfl
        simp [Event.concerns] at hforeign
      rw [step] at hstep
      split at hstep
      · cases hstep
      obtain rfl := Option.some.inj hstep
      refine ⟨h.made, by simp [h.constructed, hne], by simp [h.value, hne], h.response,
        fun value hvalue => ?_, fun hno m => ?_, h.sent⟩
      · rw [Dict.get?_set, if_neg hne] at hvalue
        rw [h.heap value hvalue]
        by_cases heq : value.headers = headers
        · have hsame := hok.1 request value hvalue heq
          simp only [heq, Function.update_self, Dict.set_of_get? hsame]
        · simp only [Function.update_of_ne heq]
      · exact h.pristine (fun hmem => hno (List.mem_cons_of_mem _ hmem)) m
  | addWarnings r warnings =>
      have hne : request ≠ r := by
        rintro rfl
        simp [Event.concerns] at hforeign
      rw [step] at hstep
      split at hstep
      · cases hstep
      obtain rfl := Option.some.inj hstep
      refine ⟨h.made, h.constructed, by simp [h.value, hne], h.response, fun value hvalue => ?_,
        h.pristine, h.sent⟩
      rw [Dict.get?_set, if_neg hne] at hvalue
      exact h.heap value hvalue
  | create r envelope envelopeKey =>
      have hne : request ≠ r := by
        rintro rfl
        simp [Event.concerns] at hforeign
      rw [step] at hstep
      split at hstep
      · cases hstep
      obtain rfl := Option.some.inj hstep
      exact ⟨h.made, h.constructed, h.value, by simp [h.response, hne], h.heap, h.pristine, h.sent⟩
  | addHeader r name text =>
      have hne : request ≠ r := by
        rintro rfl
        simp [Event.concerns] at hforeign
      rw [step] at hstep
      split at hstep
      · cases hstep
      next response₀ hresponse₀ =>
      obtain rfl := Option.some.inj hstep
      refine ⟨h.made, h.constructed, h.value, h.response, fun value hvalue => ?_, h.pristine,
        h.sent⟩
      rw [h.heap value hvalue]
      by_cases heq : value.headers = response₀.headers
      · have hsame := hok response₀ hresponse₀ request value hvalue hne heq
        simp only [heq, Function.update_self, Dict.set_of_get? hsame]
      · simp only [Function.update_of_ne heq]
  | respond r =>
      have hne : request ≠ r := by
        rintro rfl
        simp [Event.concerns] at hforeign
      rw [step] at hstep
      split at hstep
      · next value₀ response₀ hvalue₀ hresponse₀ =>
        obtain rfl := Option.some.inj hstep
        obtain ⟨value', hvalue', hheaders'⟩ := hwf.response r response₀ hresponse₀
        have hcontent := hheaders' ▸ hwf.contentType r value' hvalue'
        refine ⟨h.made, h.constructed, by simp [h.value, hne], by simp [h.response, hne],
          fun value hvalue => ?_, h.pristine, ?_⟩
        · rw [Dict.get?_del, if_neg hne] at hvalue
          simp only [if_pos hcontent, Function.update_eq_self]
          exact h.heap value hvalue
        · simp [h.sent, hne.symm]
      · cases hstep

theorem initial_wf : Wf (State.initial : State β) :=
  ⟨(fun _ _ h => by cases h), (fun _ _ h => by cases h), (fun _ _ h => by cases h),
    (fun _ _ h => by cases h)⟩

theorem initial_follows (request : ℕ) : Follows request (State.initial : State β) .initial := by
  refine ⟨rfl, Iff.rfl, rfl, rfl, fun _ h => (by cases h), fun _ m => ?_, rfl⟩
  cases m with
  | default => rfl
  | named n => rfl

theorem follows_run (request : ℕ) {es : List (Event β)} (hwf : Wf s) (h : Follows request s o)
    (hok : Along step Undisturbed s es) (hrun : run step s es = some s') :
    ∃ o', run step o (es.filter (·.concerns request)) = some o' ∧ Follows request s' o' := by
  induction es generalizing s o with
  | nil =>
      obtain rfl := Option.some.inj hrun
      exact ⟨o, rfl, h⟩
  | cons e es ih =>
      obtain ⟨t, ht, hrest⟩ := run_cons_inv hrun
      cases hown : e.concerns request with
      | true =>
          obtain ⟨p, hp, hfollows⟩ := h.own hwf hok.head hown ht
          obtain ⟨o', ho', hlast⟩ := ih (step_wf hwf ht) hfollows (hok.tail ht) hrest
          refine ⟨o', ?_, hlast⟩
          rw [List.filter_cons_of_pos hown, run, hp]
          exact ho'
      | false =>
          obtain ⟨o', ho', hlast⟩ := ih (step_wf hwf ht) (h.foreign hwf hok.head hown ht)
            (hok.tail ht) hrest
          refine ⟨o', ?_, hlast⟩
          rw [List.filter_cons_of_neg (by rw [hown]; decide)]
          exact ho'

/-- In every run without a step that disturbs, each request sends what it sends alone. -/
theorem responses_independent {es : List (Event β)} (hok : Along step Undisturbed .initial es)
    (hrun : run step .initial es = some s) (request : ℕ) :
    ∃ o, run step .initial (es.filter (·.concerns request)) = some o ∧
      o.sent = s.sent.filter (·.1 == request) := by
  obtain ⟨o, ho, h⟩ := follows_run request initial_wf (initial_follows request) hok hrun
  exact ⟨o, ho, h.sent⟩

end

/-- A page after a value in an envelope, which has been sent by then. -/
theorem responses_independent_page :
    let es : List (Event String) :=
      [.construct 1 200 .default (some "value") jsonContent none, .create 1 true "data",
        .respond 1, .construct 2 200 .default (some "page") "text/html" none,
        .create 2 true "data", .respond 2]
    ∃ s o, run step .initial es = some s ∧
      run step .initial (es.filter (·.concerns 2)) = some o ∧
      o.sent = s.sent.filter (·.1 == 2) := by
  intro es
  have hrun : ∃ s, run step .initial es = some s := ⟨_, rfl⟩
  have hok : Along step Undisturbed .initial es := by
    refine ⟨⟨fun r value h => ?_, rfl⟩, trivial, trivial, ⟨fun r value h => ?_, rfl⟩, trivial,
      trivial, trivial⟩
    · cases h
    · cases h
  obtain ⟨s, hs⟩ := hrun
  obtain ⟨o, ho, hsent⟩ := responses_independent hok hs 2
  exact ⟨s, o, hs, ho, hsent⟩

/-- A page that is made while a value has not been rendered: the value is sent without its
envelope, as a page. -/
theorem responses_not_independent :
    let es : List (Event String) :=
      [.construct 1 200 .default (some "value") jsonContent none,
        .construct 2 200 .default (some "page") "text/html" none, .create 1 true "data", .respond 1]
    (run step .initial es).map (fun s => s.sent.map fun x =>
        (x.2.headers.items, x.2.body matches .object _))
      = some [([(contentTypeHeader, "text/html")], false)] ∧
    (run step .initial (es.filter (·.concerns 1))).map (fun s => s.sent.map fun x =>
        (x.2.headers.items, x.2.body matches .object _))
      = some [([(contentTypeHeader, jsonContent)], true)] :=
  ⟨rfl, rfl⟩

end ResponseHeaders

end Inmanta
