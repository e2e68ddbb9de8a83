import Inmanta.Lib.Loop
import Inmanta.Lib.Multidict
import Inmanta.Lib.Regex
import Inmanta.Lib.Utf8

/-!
# The arguments of a remote call

`MethodProperties.build_call` takes the arguments of a call apart: some go into
the path of the URL, some into headers, the others into the body or, where the
operation has none, into the query. A receiver puts them together in one
message again, over HTTP or over a websocket session, and
`CallArguments.process` reads the arguments of the handler from it.

What a URL is quoted with is left out for the query, which is a list of names
and values here. `float` and `UUID` are types that are printed and read back.
-/

namespace Inmanta

/-! ## Values -/

/-- A type with a text for each of its values. -/
class Printed (α : Type) where
  str : α → List Char
  parse : List Char → Option α
  parse_str : ∀ a, parse (str a) = some a
  str_ascii : ∀ a, Ascii (str a)

class PyFloat (F : Type) extends Printed F where
  finite : F → Bool
  ofInt : ℤ → F
  toInt? : F → Option ℤ

/-- What a member of an enum is besides. -/
inductive EnumMixin where
  | plain
  | str
  | int
  deriving DecidableEq

structure EnumClass where
  name : List Char
  mixin : EnumMixin
  /-- `str()` of a member is its value, and not its qualified name. -/
  strIsValue : Bool
  members : List (List Char × (List Char ⊕ ℤ))
  deriving DecidableEq

inductive ArgType where
  | bool
  | int
  | float
  | str
  | uuid
  | enum (e : EnumClass)
  | list (t : ArgType)
  /-- The keys are strings. -/
  | dict (t : ArgType)
  | optional (t : ArgType)
  deriving DecidableEq

inductive ArgValue (F U : Type) where
  | none
  | bool (b : Bool)
  | int (i : ℤ)
  | float (x : F)
  | str (s : List Char)
  | uuid (u : U)
  | enum (e : EnumClass) (member : List Char)
  | list (vs : List (ArgValue F U))
  | dict (items : List (List Char × ArgValue F U))

/-- `repr` of a list or a dictionary. -/
class PyRepr (F U : Type) where
  repr : ArgValue F U → List Char

variable {F U : Type} [PyFloat F] [Printed U] [PyRepr F U]

def intStr : ℤ → List Char
  | .ofNat n => Nat.toDigits 10 n
  | .negSucc n => '-' :: Nat.toDigits 10 (n + 1)

def parseNat (s : List Char) : Option ℕ :=
  if s ≠ [] ∧ s.all Char.isDigit then some (Nat.ofDigitChars 10 s 0) else none

def parseInt : List Char → Option ℤ
  | '-' :: s => (parseNat s).map fun n => -(n : ℤ)
  | s => (parseNat s).map fun n => (n : ℤ)

section

local instance lawfulArgument : LawfulBEq (List Char) := inferInstance

/-- The texts that are read as booleans, in any case. -/
def parseBool (s : List Char) : Option Bool :=
  let s := s.map Char.toLower
  if s ∈ ["1", "on", "t", "true", "y", "yes"].map String.toList then some true
  else if s ∈ ["0", "off", "f", "false", "n", "no"].map String.toList then some false
  else none

end

def boolStr (b : Bool) : List Char := if b then "True".toList else "False".toList

namespace EnumClass

variable (e : EnumClass) (n : List Char)

def value (n : List Char) : List Char ⊕ ℤ := (e.members.lookup n).getD (.inl [])

def valueStr (n : List Char) : List Char := (e.value n).elim id intStr

/-- `str(member)` -/
def text (n : List Char) : List Char := if e.strIsValue then e.valueStr n else e.name ++ '.' :: n

/-- The member with this value. -/
def find (v : List Char ⊕ ℤ) : Option (List Char) := (e.members.find? (·.2 = v)).map (·.1)

/-- The member that pydantic reads a text as. -/
def read (s : List Char) : Option (List Char) :=
  match e.mixin with
  | .int => (parseInt s).bind fun i => e.find (.inr i)
  | _ => e.find (.inl s)

end EnumClass

def ArgValue.ofEnumValue : List Char ⊕ ℤ → ArgValue F U
  | .inl s => .str s
  | .inr i => .int i

/-- `str(v)` -/
def ArgValue.pyStr : ArgValue F U → List Char
  | .none => "None".toList
  | .bool b => boolStr b
  | .int i => intStr i
  | .float x => Printed.str x
  | .str s => s
  | .uuid u => Printed.str u
  | .enum e n => e.text n
  | v => PyRepr.repr v

/-! ## Types -/

namespace ArgType

/-- The values of a type. -/
def Has : ArgType → ArgValue F U → Prop
  | .bool, .bool _ | .int, .int _ | .float, .float _ | .str, .str _ | .uuid, .uuid _ => True
  | .enum e, .enum e' n => e' = e ∧ n ∈ e.members.map Prod.fst
  | .list t, .list vs => ∀ v ∈ vs, t.Has v
  | .dict t, .dict items => (items.map Prod.fst).Nodup ∧ ∀ x ∈ items, t.Has x.2
  | .optional _, .none => True
  | .optional t, v => t.Has v
  | _, _ => False

/-- The type without `Optional`. -/
def strip : ArgType → ArgType
  | .optional t => t.strip
  | t => t

def isList : ArgType → Bool
  | .list _ => true
  | _ => false

/-- `CallArguments._is_dict_or_optional_dict` -/
def isDict (t : ArgType) : Bool :=
  match t.strip with
  | .dict _ => true
  | _ => false

/-- `MethodProperties._validate_type_arg` -/
def valid (inUrl : Bool) : ArgType → Bool
  | .list t =>
      !(inUrl && match t with | .list _ | .dict _ => true | _ => false) && t.valid inUrl
  | .dict t =>
      !(inUrl && match t with | .optional _ | .dict _ => true | _ => false) && t.valid inUrl
  | .optional t => t.valid inUrl
  | _ => true

/-- What pydantic makes of a value in a message. -/
def coerce : ArgType → ArgValue F U → Option (ArgValue F U)
  | .bool, .bool b => some (.bool b)
  | .bool, .int i => if i = 0 then some (.bool false) else if i = 1 then some (.bool true) else none
  | .bool, .float x =>
      match PyFloat.toInt? x with
      | some 0 => some (.bool false)
      | some 1 => some (.bool true)
      | _ => none
  | .bool, .str s => (parseBool s).map .bool
  | .int, .int i => some (.int i)
  | .int, .bool b => some (.int (if b then 1 else 0))
  | .int, .float x => (PyFloat.toInt? x).map .int
  | .int, .str s => (parseInt s).map .int
  | .float, .float x => some (.float x)
  | .float, .int i => some (.float (PyFloat.ofInt i))
  | .float, .bool b => some (.float (PyFloat.ofInt (if b then 1 else 0)))
  | .float, .str s => (Printed.parse s).map .float
  | .str, .str s => some (.str s)
  | .uuid, .uuid u => some (.uuid u)
  | .uuid, .str s => (Printed.parse s).map .uuid
  | .enum e, .enum e' n => if e' = e then some (.enum e n) else none
  | .enum e, .str s => (e.read s).map (.enum e)
  | .enum e, .int i => (e.find (.inr i)).map (.enum e)
  | .list t, .list vs => (vs.mapM t.coerce).map .list
  | .dict t, .dict items => (items.mapM fun x => (t.coerce x.2).map (x.1, ·)).map .dict
  | .optional _, .none => some .none
  | .optional t, v => t.coerce v
  | _, _ => none

end ArgType

/-! ## Methods -/

inductive Operation where
  | get
  | post
  | put
  | patch
  | delete
  | head
  | options
  deriving DecidableEq

def Operation.hasBody (o : Operation) : Bool := o = .post || o = .put || o = .patch

/-- A piece of a `UrlPath`. -/
inductive PathPiece where
  | char (c : Char)
  | var (name : List Char)
  deriving DecidableEq

def pathVars (path : List PathPiece) : List (List Char) :=
  path.filterMap fun
    | .char _ => none
    | .var k => some k

/-- A parameter with its `ArgOption`. -/
structure Param (F U : Type) where
  name : List Char
  type : ArgType
  default : Option (ArgValue F U)
  /-- An empty name is as good as none. -/
  header : Option (List Char)

/-- Names as they are in a method definition. -/
def IsIdentifier (name : List Char) : Prop :=
  name ≠ [] ∧ ∀ c ∈ name, c.isAlphanum = true ∨ c = '_'

instance (name : List Char) : Decidable (IsIdentifier name) := inferInstanceAs (Decidable (_ ∧ _))

structure MethodProperties (F U : Type) where
  operation : Operation
  path : List PathPiece
  params : List (Param F U)
  varkw : Bool
  agentServer : Bool
  identifiers : ∀ p ∈ params, IsIdentifier p.name
  distinct : (params.map Param.name).Nodup

/-- What `_validate_function_types` checks of the parameters. -/
structure MethodProperties.Accepted (m : MethodProperties F U) : Prop where
  vars : ∀ k, PathPiece.var k ∈ m.path → k ∈ m.params.map Param.name
  types : ∀ p ∈ m.params, p.type.valid (m.operation = .get) = true

/-- The arguments by name. -/
abbrev Arguments (F U : Type) := Dict (List Char) (ArgValue F U)

/-! ## Building a call -/

structure Request (F U : Type) where
  path : List Char
  query : List (List Char × List Char)
  headers : Dict (List Char) (List Char)
  body : Option (Arguments F U)

inductive CallError where
  /-- No value was provided for a variable of the path. -/
  | keyError (name : List Char)
  /-- There are more arguments than parameters. -/
  | indexError
  | illegalHeader
  | notFound
  | valuesDontMatch (arg : List Char)
  | required (arg : List Char)
  | invalid (arg : List Char)
  | undeclared (fields : List (List Char))
  deriving DecidableEq

/-- A value as urlencode writes it. A member that is a string is quoted as the string. -/
def ArgValue.queryText : ArgValue F U → List Char
  | .enum e n => if e.mixin = .str then e.valueStr n else e.text n
  | v => v.pyStr

/-- The values that urlencode writes for one name. -/
def ArgValue.queryTexts : ArgValue F U → List (List Char)
  | .list vs => vs.map ArgValue.pyStr
  | .dict items => items.map Prod.fst
  | v => [v.queryText]

/-- Members of enums are sent by name. -/
def ArgValue.byName : ArgValue F U → ArgValue F U
  | .enum _ n => .str n
  | v => v

def ArgValue.isNone : ArgValue F U → Bool
  | .none => true
  | _ => false

def ArgValue.isDict : ArgValue F U → Bool
  | .dict _ => true
  | _ => false

namespace MethodProperties

variable (m : MethodProperties F U)

def param? (k : List Char) : Option (Param F U) := m.params.find? (·.name = k)

/-- The header of an argument. -/
def header? (k : List Char) : Option (List Char) := (m.param? k).bind Param.header

/-- The message of a call with positional arguments. -/
def bindArguments (args : List (ArgValue F U)) (kwargs : Arguments F U) :
    Except CallError (Arguments F U) :=
  if args.length ≤ m.params.length then
    .ok (((m.params.map Param.name).zip args).foldl (fun d x => d.set x.1 x.2) kwargs)
  else .error .indexError

/-- `UrlPath.generate_path` on the quoted texts. -/
def getCallUrl (msg : Arguments F U) : Except CallError (List Char) := do
  let pieces ← m.path.mapM fun
    | .char c => .ok [c]
    | .var k =>
        match msg.get? k with
        | some v => .ok (quote v.pyStr)
        | none => .error (.keyError k)
  return pieces.flatten

/-- `_encode_dict_for_get`, for a dictionary -/
def encodeDictForGet (name : List Char) : ArgValue F U → List (List Char × ArgValue F U)
  | .dict items => items.map fun x => (name ++ '.' :: x.1, x.2)
  | _ => []

/-- The arguments that are not sent in headers. -/
def unheaded (msg : Arguments F U) : List (List Char × ArgValue F U) :=
  (msg.items.filter fun x => m.header? x.1 = none).map fun x => (x.1, x.2.byName)

/-- The arguments that are sent in the query. -/
def queryArgs (msg : Arguments F U) : List (List Char × ArgValue F U) :=
  (m.unheaded msg).filter fun x => !x.2.isNone && PathPiece.var x.1 ∉ m.path

/-- The query with its dictionaries taken apart. The names of arguments have no
dots, so that no two names in it are the same. -/
def queryMap (msg : Arguments F U) : List (List Char × ArgValue F U) :=
  ((m.queryArgs msg).filter fun x => !x.2.isDict)
    ++ (m.queryArgs msg).flatMap fun x => encodeDictForGet x.1 x.2

/-- `parse.urlencode(qs_map, True)` -/
def urlencode (qsMap : List (List Char × ArgValue F U)) : List (List Char × List Char) :=
  qsMap.flatMap fun x => x.2.queryTexts.map (x.1, ·)

def callHeaders (msg : Arguments F U) : Dict (List Char) (List Char) :=
  msg.items.foldl (fun d x =>
    match m.header? x.1 with
    | some h => d.set h x.2.byName.pyStr
    | none => d) .empty

def request (msg : Arguments F U) (url : List Char) : Request F U where
  path := url
  query := if m.operation.hasBody then [] else urlencode (m.queryMap msg)
  headers := m.callHeaders msg
  body := if m.operation.hasBody then some (.ofList (m.unheaded msg)) else none

/-- `build_call`, once the arguments have their names. -/
def buildCall (msg : Arguments F U) : Except CallError (Request F U) := do
  let url ← m.getCallUrl msg
  return m.request msg url

end MethodProperties

/-! ## Receiving a call -/

inductive Transport where
  | http
  | websocket
  deriving DecidableEq

/-- A body in JSON. -/
def ArgValue.json (t : Transport) : ArgValue F U → ArgValue F U
  | .float x => if t = .websocket && !PyFloat.finite x then .none else .float x
  | .uuid u => .str (Printed.str u)
  -- the encoder of HTTP bodies writes the name of a member that is nothing else
  | .enum e n =>
      if t = .http && e.mixin = .plain then .str n else .ofEnumValue (e.value n)
  | .list vs => .list (vs.map (json t))
  | .dict items => .dict (items.map fun x => (x.1, json t x.2))
  | v => v
termination_by v => sizeOf v
decreasing_by
  · have := List.sizeOf_lt_of_mem ‹_ ∈ vs›
    simp only [ArgValue.list.sizeOf_spec]
    omega
  · have := List.sizeOf_lt_of_mem ‹_ ∈ items›
    obtain ⟨k, v⟩ := x
    simp only [Prod.mk.sizeOf_spec, ArgValue.dict.sizeOf_spec] at *
    omega

/-- A text of the query as the receiver decodes it. -/
def Transport.hear : Transport → List Char → List Char
  | .http, s => latin1 (utf8 s)
  | .websocket, s => s

/-- A value is a list if there are several. -/
def queryValue : List (List Char) → ArgValue F U
  | [s] => .str s
  | ss => .list (ss.map .str)

/-- The fields of a message that come from the query. -/
def queryFields (t : Transport) (query : List (List Char × List Char)) : Arguments F U :=
  .ofList ((Dict.group (query.map fun x => (t.hear x.1, t.hear x.2))).items.map
    fun x => (x.1, queryValue x.2))

/-- The regular expression of a path. -/
def pathRegex : List PathPiece → Regex
  | [] => .eos
  | .char c :: path => .seq (.lit c) (pathRegex path)
  | .var k :: path => .seq (.group (String.ofList k) (.plus (.chr (· ≠ '/')))) (pathRegex path)

/-- The variables of a path, read from a URL. -/
def readPath (path : List PathPiece) (url : List Char) :
    Option (Dict (List Char) (List Char)) := do
  let captures ← (pathRegex path).fullMatch url
  let vars ← (pathVars path).mapM fun k =>
    (unquote (captures.get (String.ofList k))).map (k, ·)
  return .ofList vars

/-- Header names are compared in lower case over HTTP. -/
def Transport.headerName : Transport → List Char → List Char
  | .http, h => h.map Char.toLower
  | .websocket, h => h

/-- The headers at the receiver, `tornadoHeader` over HTTP: a text may be refused or changed. -/
def receiveHeaders (tornadoHeader : List Char → Option (List Char)) (t : Transport)
    (headers : Dict (List Char) (List Char)) : Option (Dict (List Char) (List Char)) :=
  (headers.items.mapM fun x =>
    ((if t = .http then tornadoHeader x.2 else some x.2).map (t.headerName x.1, ·))).map .ofList

def bodyFields (t : Transport) (body : Option (Arguments F U)) : Arguments F U :=
  .ofList ((body.getD .empty).items.map fun x => (x.1, x.2.json t))

def pathFields (kwargs : Dict (List Char) (List Char)) : Arguments F U :=
  .ofList (kwargs.items.map fun x => (x.1, .str x.2))

/-- The message of `RESTHandler._call` and of `WebsocketFrameDecoder.dispatch_method`,
which differ in whether the query or the path comes last. -/
def receivedMessage (t : Transport) (req : Request F U) (kwargs : Dict (List Char) (List Char)) :
    Arguments F U :=
  match t with
  | .http => ((bodyFields t req.body).update (pathFields kwargs)).update (queryFields t req.query)
  | .websocket =>
      ((bodyFields t req.body).update (queryFields t req.query)).update (pathFields kwargs)

/-! ## Processing a call -/

/-- `_ensure_list_if_list_type` -/
def ensureListIfListType (type : ArgType) (v : ArgValue F U) : ArgValue F U :=
  if type.strip.isList then
    match v with
    | .list vs => .list vs
    | v => .list [v]
  else v

/-- `_get_dict_value_from_message` -/
def getDictValueFromMessage (type : ArgType) (dictPrefix : List Char)
    (withPrefixedNames : List (List Char × ArgValue F U)) : ArgValue F U :=
  .dict (withPrefixedNames.map fun x =>
    (x.1.drop dictPrefix.length,
      match type.strip with
      | .dict (.list t) => ensureListIfListType (.list t) x.2
      | _ => x.2))

/-- The value of a dictionary-based expression: None if there are no fields for it. -/
def dictExpressionValue (type : ArgType) (name : List Char) :
    List (List Char × ArgValue F U) → ArgValue F U
  | [] => .none
  | l => getDictValueFromMessage type (name ++ ['.']) l

namespace MethodProperties

variable (m : MethodProperties F U) (message : Arguments F U)
  (headers : Dict (List Char) (List Char))

/-- The fields that are the entries of a dictionary. -/
def prefixedNames (name : List Char) : List (List Char × ArgValue F U) :=
  message.items.filter fun x =>
    (name ++ ['.']).isPrefixOf x.1 && (name ++ ['.']).length < x.1.length

/-- Whether an argument is read from the entries of a dictionary. -/
def isDictExpression (p : Param F U) : Bool :=
  decide (p.name ∉ message) && decide (m.operation = .get) && p.type.isDict

def getDefaultValue (p : Param F U) : Except CallError (ArgValue F U) :=
  match p.default with
  | some v => .ok v
  | none => .error (.required p.name)

/-- The argument before its type is validated. -/
def argumentValue (header : List Char → List Char) (p : Param F U) :
    Except CallError (ArgValue F U) :=
  match message.get? p.name with
  | some v => .ok (if m.operation = .get then ensureListIfListType p.type v else v)
  | none =>
      if m.isDictExpression message p then
        .ok (dictExpressionValue p.type p.name (prefixedNames message p.name))
      else
        match p.header.bind fun h => headers.get? (header h) with
        | some s => .ok (.str s)
        | none => getDefaultValue p

/-- `_validate_argument_consistency` -/
def validateConsistency (header : List Char → List Char) (p : Param F U) : Except CallError Unit :=
  match message.get? p.name, p.header.bind fun h => headers.get? (header h) with
  | some (.str s), some s' => if s = s' then .ok () else .error (.valuesDontMatch p.name)
  | some _, some _ => .error (.valuesDontMatch p.name)
  | _, _ => .ok ()

/-- The fields of the message that no argument was read from. -/
def remainingFields : List (List Char × ArgValue F U) :=
  message.items.filter fun x => !m.params.any fun p =>
    decide (x.1 = p.name)
      || m.isDictExpression message p && (prefixedNames message p.name).any (·.1 = x.1)

/-- `CallArguments.process` up to what the handler is called with. -/
def process (header : List Char → List Char) :
    Except CallError (List (List Char × ArgValue F U)) := do
  m.params.forM (validateConsistency message headers header)
  let callArgs ← m.params.mapM fun p =>
    (m.argumentValue message headers header p).map (p, ·)
  let callArgs ← callArgs.mapM fun x =>
    match x.1.type.coerce x.2 with
    | some v => .ok (x.1.name, v)
    | none => .error (.invalid x.1.name)
  let allFields := (m.remainingFields message).filter fun x =>
    !(m.agentServer && x.1 = "sid".toList)
  if m.varkw then .ok (callArgs ++ allFields)
  else if allFields = [] then .ok callArgs
  else .error (.undeclared (allFields.map Prod.fst))

/-- The call from its arguments by name to the arguments of the handler. -/
def deliver (tornadoHeader : List Char → Option (List Char)) (t : Transport)
    (msg : Arguments F U) : Except CallError (List (List Char × ArgValue F U)) := do
  let req ← m.buildCall msg
  match receiveHeaders tornadoHeader t req.headers, readPath m.path req.path with
  | none, _ => .error .illegalHeader
  | some _, none => .error .notFound
  | some headers, some kwargs => m.process (receivedMessage t req kwargs) headers t.headerName

end MethodProperties

end Inmanta
