import Inmanta.Lib.Loop
import Inmanta.Lib.Regex

/-!
# Dict paths

A dict path is a list of segments, separated by dots: a key of a dictionary
(`WildInDict`) or a list with a selector for its elements (`WildKeyedList`).
Data in it may hold any character. Those with a meaning for the syntax are
escaped with a backslash when a path is printed.

Texts are lists of characters, and the patterns are the regular expressions of
the source. `ComposedPath` is a path without wildcards. It is parsed in the
same way, but its segments refuse a wildcard.
-/

namespace Inmanta

abbrev Text := List Char

inductive DictPathError where
  | invalidPath (msg : String)
  | value (msg : String)

/-! ## Values -/

/-- A data value in a path. -/
inductive DictPathValue where
  | normal (value : Text)
  | wildCard
  | null
  deriving DecidableEq

/-- The characters that are escaped in data. -/
def specialCharacters : List Char := ['\\', '[', ']', '.', '*', '=']

namespace Regex

/-- `REGEX_SPECIAL_CHARACTER` -/
def specialCharacter : Regex := group "1" (chr (· ∈ specialCharacters))

/-- `REGEX_ESCAPED_SPECIAL_CHARACTER` -/
def escapedSpecialCharacter : Regex :=
  seq (lit '\\') (group "1" (chr (· ∈ specialCharacters)))

/-- `REGEX_NORMAL_CHARACTER` -/
def normalCharacter : Regex := chr (· ∉ specialCharacters)

end Regex

namespace DictPathValue

def wildCardCharacter : Text := ['*']

def nullValueCharacter : Text := ['\\', '0']

/-- The value with all special characters escaped. -/
def escape : DictPathValue → Text
  | normal value => Regex.specialCharacter.sub (fun c => '\\' :: c.get "1") value
  | wildCard => wildCardCharacter
  | null => nullValueCharacter

/-- The value of a text in which special characters are escaped. -/
def create (value : Text) : DictPathValue :=
  if value = wildCardCharacter then wildCard
  else if value = nullValueCharacter then null
  else normal (Regex.escapedSpecialCharacter.sub (fun c => c.get "1") value)

end DictPathValue

/-! ## Segments -/

/-- What a segment may be. A key is not null, and a keyed list has a selector
and no key twice. -/
inductive WildSegment where
  | inDict (key : DictPathValue)
  | keyedList (relation : DictPathValue) (keyValuePairs : List (DictPathValue × DictPathValue))
  deriving DecidableEq

namespace WildInDict

open Regex

def inDictPattern : Regex :=
  group "key" (alt (plus (alt normalCharacter escapedSpecialCharacter)) (lit '*'))

def new (key : Text) : Except DictPathError WildSegment :=
  match DictPathValue.create key with
  | .null => throw (.invalidPath s!"Invalid dictionary key {String.ofList key}")
  | value => return .inDict value

def parse (inp : Text) : Except DictPathError (Option WildSegment) :=
  match inDictPattern.fullMatch inp with
  | some _ => do return some (← new inp)
  | none => return none

end WildInDict

namespace WildKeyedList

open Regex

def character : Regex := alt normalCharacter escapedSpecialCharacter

def relationPattern : Regex := group "relation" (plus character)

def keyAttributePattern : Regex := group "key_attribute" (alt (plus character) (lit '*'))

def keyValuePattern : Regex :=
  group "key_value" (alt (star (alt character (lit '.')))
    (alt (lit '*') (seq (lit '\\') (lit '0'))))

def keyValuePair : Regex :=
  seq (lit '[') (seq keyAttributePattern (seq (lit '=') (seq keyValuePattern (lit ']'))))

def keyedListPattern : Regex := seq relationPattern (group "selectors" (plus keyValuePair))

/-- `_parse_key` -/
def parseKey (key : Text) : Except DictPathError DictPathValue :=
  match DictPathValue.create key with
  | .null => throw (.invalidPath s!"Invalid dictionary key name: {String.ofList key}")
  | value => return value

/-- `_parse_value` -/
def parseValue (value : Text) : Except DictPathError DictPathValue :=
  return DictPathValue.create value

def new (parseKey parseValue : Text → Except DictPathError DictPathValue) (relation : Text)
    (keyValuePairs : List (Text × Text)) : Except DictPathError WildSegment := do
  let relationValue ← match DictPathValue.create relation with
    | .normal value => pure (DictPathValue.normal value)
    | _ => throw (.invalidPath s!"Invalid relation name: {String.ofList relation}")
  if keyValuePairs = [] then
    throw (.value "A keyed list path requires at least one key-value pair.")
  if ¬ (keyValuePairs.map Prod.fst).Nodup then
    throw (.value "No duplicate keys allowed in keyed list path")
  let pairs ← keyValuePairs.mapM fun pair => do
    return (← parseKey pair.1, ← parseValue pair.2)
  return .keyedList relationValue pairs

def parse (new : Text → List (Text × Text) → Except DictPathError WildSegment) (inp : Text) :
    Except DictPathError (Option WildSegment) :=
  match keyedListPattern.fullMatch inp with
  | some groups => do
      let pairs := (keyValuePair.findAll (groups.get "selectors")).map fun pair =>
        (pair.2.get "key_attribute", pair.2.get "key_value")
      return some (← new (groups.get "relation") pairs)
  | none => return none

end WildKeyedList

namespace WildSegment

def toStr : WildSegment → Text
  | inDict key => key.escape
  | keyedList relation keyValuePairs =>
      relation.escape ++ ['['] ++ List.intercalate [']', '['] (keyValuePairs.map fun pair =>
        pair.1.escape ++ ['='] ++ pair.2.escape) ++ [']']

end WildSegment

/-! ## Segments without wildcards -/

def wildCardNotAllowed : DictPathError :=
  .value "The Wildcard ('*') can not be used in DictPath's"

namespace InDict

def new (key : Text) : Except DictPathError WildSegment := do
  match ← WildInDict.new key with
  | .inDict .wildCard => throw wildCardNotAllowed
  | segment => return segment

def parse (inp : Text) : Except DictPathError (Option WildSegment) :=
  match WildInDict.inDictPattern.fullMatch inp with
  | some _ => do return some (← new inp)
  | none => return none

end InDict

namespace KeyedList

/-- `_parse_key` and `_parse_value`: the wildcard of a result is refused. -/
def refuseWildCard (parse : Text → Except DictPathError DictPathValue) (value : Text) :
    Except DictPathError DictPathValue := do
  match ← parse value with
  | .wildCard => throw wildCardNotAllowed
  | result => return result

def new : Text → List (Text × Text) → Except DictPathError WildSegment :=
  WildKeyedList.new (refuseWildCard WildKeyedList.parseKey)
    (refuseWildCard WildKeyedList.parseValue)

def parse : Text → Except DictPathError (Option WildSegment) := WildKeyedList.parse new

end KeyedList

/-! ## Paths -/

namespace WildComposedPath

open Regex

def keyedListFilter : Regex :=
  seq (lit '[') (seq (lazyStar (alt (chr (· ≠ '\\')) (seq (lit '\\') (chr (· ≠ '\n')))))
    (lit ']'))

def composedDictPathPattern : Regex :=
  plus (alt keyedListFilter
    (alt (chr (· ∉ ['.', '\\', '['])) (seq (lit '\\') (chr (· ≠ '\n')))))

def unParse (path : List WildSegment) : Text :=
  List.intercalate ['.'] (path.map WildSegment.toStr)

def splitOnDots (pathStr : Text) : Except DictPathError (List Text) :=
  match (composedDictPathPattern.findAll pathStr).map Prod.fst with
  | [] => throw (.invalidPath s!"Could not parse path {String.ofList pathStr}")
  | parts => return parts

/-- The first type of element that can parse the text. -/
def parseElement (elementTypes : List (Text → Except DictPathError (Option WildSegment)))
    (inp : Text) : Except DictPathError WildSegment :=
  match elementTypes with
  | [] => throw (.invalidPath s!"Could not parse path segment {String.ofList inp}")
  | parse :: elementTypes => do
      match ← parse inp with
      | some segment => return segment
      | none => parseElement elementTypes inp

def doParse (elementTypes : List (Text → Except DictPathError (Option WildSegment)))
    (pathStr : Text) : Except DictPathError (List WildSegment) := do
  (← splitOnDots pathStr).mapM (parseElement elementTypes)

/-- `none` if the text is not a path. -/
def parse (elementTypes : List (Text → Except DictPathError (Option WildSegment)))
    (inp : Text) : Except DictPathError (Option (List WildSegment)) :=
  match doParse elementTypes inp with
  | .ok path => .ok (some path)
  | .error (.invalidPath _) => .ok none
  | .error (.value msg) => .error (.value msg)

def elementTypes : List (Text → Except DictPathError (Option WildSegment)) :=
  [WildInDict.parse, WildKeyedList.parse (WildKeyedList.new WildKeyedList.parseKey
    WildKeyedList.parseValue)]

end WildComposedPath

def ComposedPath.elementTypes : List (Text → Except DictPathError (Option WildSegment)) :=
  [InDict.parse, KeyedList.parse]

/-- A path that is given as a text: the null path, or its segments. -/
inductive DictPath where
  | nullPath
  | composed (segments : List WildSegment)
  deriving DecidableEq

def toDictPath (elementTypes : List (Text → Except DictPathError (Option WildSegment)))
    (inp : Text) : Except DictPathError DictPath :=
  if inp = ['.'] then return .nullPath
  else
    -- a leading dot represents the entire container
    let inp := if inp.head? = some '.' then inp.tail else inp
    match WildComposedPath.doParse elementTypes inp with
    | .ok path => .ok (.composed path)
    | .error (.value msg) => .error (.invalidPath msg)
    | .error (.invalidPath msg) => .error (.invalidPath msg)

def toWildPath : Text → Except DictPathError DictPath :=
  toDictPath WildComposedPath.elementTypes

def toPath : Text → Except DictPathError DictPath :=
  toDictPath ComposedPath.elementTypes

end Inmanta
